import EmbeddedOs.Kvfs.Unlinked

/-!
# What a read delivers and where a write stores

`kvfs_read` with the fields of the `uio` that it changes, and `kvfs_write` with every store
into the block buffer. A read ignores `uio_offset` once it has checked it, and goes on until
`uio_resid` is 0; a write adds `uio_offset` to the address of the buffer and goes on as long.
Neither looks at the room that is left in the block.
-/

namespace EmbeddedOs.Kvfs

open Lib.Bytes

/-! ## Reading -/

/-- The fields of `struct uio` that a read changes. -/
structure ReadUio where
  /-- `uio_offset`. -/
  offset : ℤ
  /-- `uio_resid`. -/
  resid : ℕ
  /-- The bytes in the user's memory so far. -/
  delivered : List UInt8

/-- `uiomove` of at most `n` bytes from `cp` to the user. -/
def uiomove (cp : List UInt8) (n : ℕ) (uio : ReadUio) : ReadUio :=
  let chunk := cp.take (min n uio.resid)
  ⟨uio.offset + chunk.length, uio.resid - chunk.length, uio.delivered ++ chunk⟩

/-- The loop of `kvfs_read`. -/
def kvfsReadUioLoop (buf : List UInt8) (amt : ℕ) : ℕ → ReadUio → Option ReadUio
  | 0, uio => if uio.resid = 0 then some uio else none
  | fuel + 1, uio =>
    if uio.resid = 0 then some uio else kvfsReadUioLoop buf amt fuel (uiomove buf amt uio)

/-- `kvfs_read`, where no copy fails. -/
def kvfsReadUio (s : Fs) (vp : ℕ) (uio : ReadUio) : Option (ReadUio × Option Errno) :=
  match s.vnodes vp with
  | none => none
  | some .root => some (uio, some .EISDIR)
  | some (.file knode) =>
    if uio.offset < 0 then some (uio, some .EINVAL)
    else if uio.resid = 0 ∨ 4096 ≤ uio.offset then some (uio, none)
    else
      let buf := get s.disk (dbtob knode.lbn) 4096
      (kvfsReadUioLoop buf (min (uio.resid % 2 ^ 32) 4096) uio.resid uio).map fun uio =>
        (uio, none)

/-- The loop changes the `uio` by the bytes that it moves. -/
theorem kvfsReadUioLoop_eq (buf : List UInt8) (amt fuel : ℕ) (uio : ReadUio) :
    kvfsReadUioLoop buf amt fuel uio = (kvfsReadLoop buf amt fuel uio.resid none).map fun r =>
      ⟨uio.offset + r.1.length, 0, uio.delivered ++ r.1⟩ := by
  induction fuel generalizing uio with
  | zero =>
    obtain ⟨offset, resid, delivered⟩ := uio
    unfold kvfsReadUioLoop kvfsReadLoop
    by_cases hdone : resid = 0 <;> simp [hdone]
  | succ fuel ih =>
    obtain ⟨offset, resid, delivered⟩ := uio
    unfold kvfsReadUioLoop kvfsReadLoop
    by_cases hdone : resid = 0
    · simp [hdone]
    · simp only [if_neg hdone, ih]
      simp only [uiomove, Option.map_map, Function.comp_def, List.length_append, Int.natCast_add,
        List.append_assoc, Int.add_assoc]

/-- Without a fault the loop has no error. -/
theorem kvfsReadLoop_error {buf : List UInt8} {amt fuel resid : ℕ}
    {r : List UInt8 × Option Errno} (h : kvfsReadLoop buf amt fuel resid none = some r) :
    r.2 = none := by
  induction fuel generalizing resid r with
  | zero =>
    unfold kvfsReadLoop at h
    by_cases hdone : resid = 0
    · simp only [if_pos hdone, Option.some.injEq] at h
      rw [← h]
    · simp [hdone] at h
  | succ fuel ih =>
    unfold kvfsReadLoop at h
    by_cases hdone : resid = 0
    · simp only [if_pos hdone, Option.some.injEq] at h
      rw [← h]
    · simp only [if_neg hdone, Option.map_eq_some_iff] at h
      obtain ⟨r', hrest, rfl⟩ := h
      exact ih (r := r') hrest

/-- The bytes that a read delivers are those of `kvfs_read` without a fault. -/
theorem kvfsRead_eq_uio (s : Fs) (vp : ℕ) (offset : ℤ) (resid : ℕ) :
    kvfsRead s vp offset resid none =
      (kvfsReadUio s vp ⟨offset, resid, []⟩).map fun r => (r.1.delivered, r.2) := by
  unfold kvfsRead kvfsReadUio
  cases s.vnodes vp with
  | none => rfl
  | some node =>
    cases node with
    | root => rfl
    | file knode =>
      simp only [kvfsReadUioLoop_eq, List.nil_append]
      by_cases hneg : offset < 0
      · simp [hneg]
      · by_cases hdone : resid = 0 ∨ 4096 ≤ offset
        · simp [hneg, hdone]
        · simp only [if_neg hneg, if_neg hdone, Option.map_map, Function.comp_def]
          cases hloop : kvfsReadLoop (get s.disk (dbtob knode.lbn) 4096)
              (min (resid % 2 ^ 32) 4096) resid resid none with
          | none => rfl
          | some r =>
            have herr := kvfsReadLoop_error hloop
            simp only [Option.map_some, ← herr]

/-- Each iteration starts over at the front of the buffer. -/
theorem kvfsReadLoop_eq_cycle {buf : List UInt8} {amt fuel resid : ℕ} (hpos : 0 < amt)
    (hamt : amt = buf.length ∨ amt ≤ buf.length ∧ resid ≤ amt) (hfuel : resid ≤ fuel) :
    kvfsReadLoop buf amt fuel resid none = some (cycle buf resid, none) := by
  induction fuel generalizing resid with
  | zero =>
    obtain rfl : resid = 0 := by omega
    simp [kvfsReadLoop, cycle]
  | succ fuel ih =>
    unfold kvfsReadLoop
    by_cases hdone : resid = 0
    · simp [hdone, cycle]
    · simp only [if_neg hdone]
      by_cases hlast : resid ≤ amt
      · -- the bytes that are left fit into one iteration
        have hle : resid ≤ buf.length := by omega
        have hchunk : (buf.take (min amt resid)).length = resid := by
          rw [Nat.min_eq_right hlast, List.length_take, Nat.min_eq_left hle]
        have hnil : cycle buf 0 = [] := List.length_eq_zero_iff.mp length_cycle
        rw [hchunk, Nat.sub_self, ih (Or.inr ⟨by omega, by omega⟩) (by omega)]
        simp [cycle_of_le hle, Nat.min_eq_right hlast, hnil]
      · have hfull : amt = buf.length := by omega
        obtain ⟨m, rfl⟩ : ∃ m, resid = buf.length + m := ⟨resid - buf.length, by omega⟩
        have hchunk : buf.take (min amt (buf.length + m)) = buf := by
          rw [hfull, Nat.min_eq_left (Nat.le_add_right _ _), List.take_length]
        rw [hchunk, Nat.add_sub_cancel_left, ih (Or.inl hfull) (by omega), cycle_add]
        rfl

variable {s : Fs} {vp : ℕ} {knode : Memnode} {offset n : ℕ}

/-- A read inside the block delivers the value from its front, over and over. -/
theorem kvfsReadUio_file (hvp : s.vnodes vp = some (.file knode)) (hoffset : offset < 4096)
    (hpos : 0 < n) (hn : n < 2 ^ 31) :
    kvfsReadUio s vp ⟨offset, n, []⟩ =
      some (⟨offset + n, 0, cycle (get s.disk (dbtob knode.lbn) 4096) n⟩, none) := by
  have hneg : ¬(offset : ℤ) < 0 := by omega
  have hgo : ¬(n = 0 ∨ (4096 : ℤ) ≤ offset) := by omega
  have hamt : min (n % 2 ^ 32) 4096 = min n 4096 := by rw [Nat.mod_eq_of_lt (by omega)]
  have hloop : kvfsReadLoop (get s.disk (dbtob knode.lbn) 4096) (min n 4096) n n none =
      some (cycle (get s.disk (dbtob knode.lbn) 4096) n, none) := by
    apply kvfsReadLoop_eq_cycle
    · omega
    · rw [length_get]
      omega
    · omega
  unfold kvfsReadUio
  simp only [hvp, if_neg hneg, if_neg hgo, hamt, kvfsReadUioLoop_eq, hloop, Option.map_some,
    length_cycle, List.nil_append]

/-- A read of nothing or behind the block delivers nothing. -/
theorem kvfsReadUio_nothing (hvp : s.vnodes vp = some (.file knode))
    (hnothing : n = 0 ∨ 4096 ≤ offset) :
    kvfsReadUio s vp ⟨offset, n, []⟩ = some (⟨offset, n, []⟩, none) := by
  have hneg : ¬(offset : ℤ) < 0 := by omega
  have hstop : n = 0 ∨ (4096 : ℤ) ≤ offset := by omega
  unfold kvfsReadUio
  simp only [hvp, if_neg hneg, if_pos hstop]

/-- The bytes `[offset, min (offset + n) 4096)` of a value. -/
def requested (value : List UInt8) (offset n : ℕ) : List UInt8 := (value.drop offset).take n

/-- A read of `n` bytes at `offset` delivers the bytes of the value that it asks for, and
leaves the others in `uio_resid`. -/
def ReadsRequested (s : Fs) (vp offset n : ℕ) (value : List UInt8) : Prop :=
  ∃ uio, kvfsReadUio s vp ⟨offset, n, []⟩ = some (uio, none) ∧
    uio.delivered = requested value offset n ∧ uio.resid = n - uio.delivered.length

/-- A read delivers what it asks for if and only if it asks for nothing, or it stays in the
block and the bytes there are those at the front of the value. -/
theorem readsRequested_iff (hvp : s.vnodes vp = some (.file knode)) (hn : n < 2 ^ 31) :
    ReadsRequested s vp offset n (get s.disk (dbtob knode.lbn) 4096) ↔
      n = 0 ∨ 4096 ≤ offset ∨ offset + n ≤ 4096 ∧
        requested (get s.disk (dbtob knode.lbn) 4096) offset n =
          requested (get s.disk (dbtob knode.lbn) 4096) 0 n := by
  unfold ReadsRequested
  generalize hvalue : get s.disk (dbtob knode.lbn) 4096 = value
  have hlen : value.length = 4096 := by rw [← hvalue, length_get]
  by_cases hnothing : n = 0 ∨ 4096 ≤ offset
  · have hnil : requested value offset n = [] := by
      rcases hnothing with rfl | hbehind
      · exact List.take_zero
      · rw [requested, List.drop_of_length_le (by omega), List.take_nil]
    refine iff_of_true ⟨_, kvfsReadUio_nothing hvp hnothing, hnil.symm, rfl⟩ ?_
    rcases hnothing with hzero | hbehind
    · exact Or.inl hzero
    · exact Or.inr (Or.inl hbehind)
  · have hoffset : offset < 4096 := by omega
    have hread := kvfsReadUio_file hvp hoffset (by omega : 0 < n) hn
    have hcount : (requested value offset n).length = min n (4096 - offset) := by
      rw [requested, List.length_take, List.length_drop, hlen]
    rw [hvalue] at hread
    rw [hread]
    constructor
    · rintro ⟨uio, huio, hbytes, -⟩
      simp only [Option.some.injEq, Prod.mk.injEq, and_true] at huio
      subst huio
      have hlength := congrArg List.length hbytes
      rw [length_cycle, hcount] at hlength
      have hfront : cycle value n = value.take n := cycle_of_le (by omega)
      refine Or.inr (Or.inr ⟨by omega, ?_⟩)
      rw [← hbytes, hfront, requested, List.drop_zero]
    · rintro (hzero | hbehind | ⟨hfit, hsame⟩)
      · exact absurd (Or.inl hzero) hnothing
      · exact absurd (Or.inr hbehind) hnothing
      · have hfront : cycle value n = value.take n := cycle_of_le (by omega)
        refine ⟨_, rfl, ?_, ?_⟩
        · rw [hfront, hsame, requested, List.drop_zero]
        · simp

/-- A read of the first five bytes. -/
theorem readsRequested_five : ReadsRequested oneFileFs rootFs.nextVp 0 5
    (get oneFileFs.disk (dbtob (oneFileFs.slotNode 0 (newInode (nameKey (digitName 48)) 0)).lbn)
      4096) :=
  (readsRequested_iff vnodes_oneFileFs (by decide)).mpr (Or.inr (Or.inr ⟨by decide, rfl⟩))

/-- The bytes 1 and 0 are written to a new file. -/
def writtenFs : Fs := oneFileFs.putData 0 0 [1, 0]

/-- A vnode keeps its memnode when bytes are written. -/
theorem vnodes_putData {i j off : ℕ} {x : Inode} {xs : List UInt8}
    (hfile : s.vnodes vp = some (.file (s.slotNode i x))) :
    (s.putData j off xs).vnodes vp = some (.file ((s.putData j off xs).slotNode i x)) := hfile

theorem vnodes_writtenFs : writtenFs.vnodes rootFs.nextVp =
    some (.file (writtenFs.slotNode 0 (newInode (nameKey (digitName 48)) 0))) := by
  rw [writtenFs]
  exact vnodes_putData vnodes_oneFileFs

/-- The second byte of the file is asked for, and the first one is delivered. -/
theorem readsRequested_fails : ¬∀ s vp knode offset n, s.vnodes vp = some (.file knode) →
    n < 2 ^ 31 → ReadsRequested s vp offset n (get s.disk (dbtob knode.lbn) 4096) := by
  intro hall
  obtain ⟨uio, huio, hbytes, -⟩ := hall _ _ _ 1 1 vnodes_writtenFs (by decide)
  have hvalue : get writtenFs.disk
      (dbtob (writtenFs.slotNode 0 (newInode (nameKey (digitName 48)) 0)).lbn) 4096 =
      overwrite (oneFileFs.valueAt 0) 0 [1, 0] := by
    simp only [writtenFs, Fs.slotNode, Fs.putData, KvfsMount.putData, Fs.valueAt,
      KvfsMount.valueAt, consistent_oneFileFs.wf.dataLbn_eq 0]
    exact get_put_overwrite (by decide)
  rw [kvfsReadUio_file vnodes_writtenFs (by decide) (by decide) (by decide)] at huio
  simp only [Option.some.injEq, Prod.mk.injEq, and_true] at huio
  subst huio
  rw [hvalue] at hbytes
  simp [overwrite, requested, cycle] at hbytes

/-! ## Writing -/

/-- A store of `uiomove` into the block buffer. -/
structure Store where
  /-- The index of its first byte in the buffer, which is `uio_offset`. -/
  index : ℕ
  /-- The bytes. -/
  bytes : List UInt8

/-- The buffer after some stores. -/
def applyStores (buf : ℕ → UInt8) (stores : List Store) : ℕ → UInt8 :=
  stores.foldl (fun buf st => put buf st.index st.bytes) buf

/-- The loop of `kvfs_write`, as the stores that it makes. -/
def kvfsWriteStores (amt : ℕ) : ℕ → ℕ → List UInt8 → Option ℕ →
    Option (List Store × Option Errno)
  | 0, _, data, _ => if data = [] then some ([], none) else none
  | fuel + 1, offset, data, fault =>
    if data = [] then some ([], none)
    else
      let chunk := data.take amt
      let store : Store := ⟨offset, moved chunk fault⟩
      if store.bytes.length < chunk.length then some ([store], some .EFAULT)
      else
        (kvfsWriteStores amt fuel (offset + chunk.length) (data.drop chunk.length)
          (fault.map (· - chunk.length))).map fun r => (store :: r.1, r.2)

/-- What a call of `kvfs_write` does. -/
structure Written where
  /-- The stores into the buffer. -/
  stores : List Store
  /-- The data block on disk afterwards. -/
  block : ℕ → UInt8
  /-- The result. -/
  error : Option Errno

/-- `kvfs_write` to a file with the data block `old`. The buffer goes to the disk only behind
the loop: a copy that fails releases it. -/
def kvfsWriteCall (old : ℕ → UInt8) (ioAppend : Bool) (offset : ℕ) (data : List UInt8)
    (fault : Option ℕ) : Option Written :=
  if data = [] then some ⟨[], old, none⟩
  else if ioAppend then some ⟨[], old, some .EINVAL⟩
  else
    (kvfsWriteStores (min (data.length % 2 ^ 32) 4096) data.length offset data fault).map fun r =>
      ⟨r.1, if r.2 = none then applyStores old r.1 else old, r.2⟩

/-- Every byte that is stored is one of the buffer. -/
def Inside (stores : List Store) : Prop :=
  ∀ st ∈ stores, ∀ o, st.index ≤ o → o < st.index + st.bytes.length → o < 4096

/-- A write stays inside the block; it fails and leaves the block on disk as it was, or the
bytes of the user are at their place in it. -/
structure StaysInside (old : ℕ → UInt8) (offset : ℕ) (data : List UInt8) (w : Written) :
    Prop where
  /-- The stores. -/
  inside : Inside w.stores
  /-- The block. -/
  outcome : (w.error ≠ none ∧ ∀ o < 4096, w.block o = old o) ∨
    (w.error = none ∧ ∀ o < 4096, w.block o = put old offset data o)

/-- The stores are those of a range of bytes. -/
structure StoresRange (stores : List Store) (offset : ℕ) (bytes : List UInt8) : Prop where
  /-- What they make of a buffer. -/
  apply : ∀ buf, applyStores buf stores = put buf offset bytes
  /-- Where they go. -/
  mem : ∀ o, (∃ st ∈ stores, st.index ≤ o ∧ o < st.index + st.bytes.length) ↔
    offset ≤ o ∧ o < offset + bytes.length

theorem StoresRange.nil (offset : ℕ) : StoresRange [] offset [] where
  apply buf := by
    rw [put_nil]
    rfl
  mem o := by simp

theorem StoresRange.cons {stores : List Store} {offset : ℕ} {xs ys : List UInt8}
    (h : StoresRange stores (offset + xs.length) ys) :
    StoresRange (⟨offset, xs⟩ :: stores) offset (xs ++ ys) where
  apply buf := by
    have hrest := h.apply (put buf offset xs)
    rw [put_put_append] at hrest
    exact hrest
  mem o := by
    simp only [List.exists_mem_cons_iff, h.mem, List.length_append]
    constructor
    · rintro (hfirst | hrest) <;> omega
    · intro hmem
      by_cases hfirst : o < offset + xs.length
      · exact Or.inl ⟨hmem.1, hfirst⟩
      · exact Or.inr ⟨by omega, by omega⟩

/-- A range of bytes is inside the buffer if it is empty or ends there. -/
theorem StoresRange.inside_iff {stores : List Store} {offset : ℕ} {bytes : List UInt8}
    (h : StoresRange stores offset bytes) :
    Inside stores ↔ bytes = [] ∨ offset + bytes.length ≤ 4096 := by
  constructor
  · intro hinside
    by_cases hnil : bytes = []
    · exact Or.inl hnil
    · have hlen : 0 < bytes.length := List.length_pos_iff.mpr hnil
      obtain ⟨st, hst, hlow, hhigh⟩ := (h.mem (offset + bytes.length - 1)).mpr (by omega)
      have hlast := hinside st hst _ hlow hhigh
      exact Or.inr (by omega)
  · intro hfit st hst o hlow hhigh
    have hmem := (h.mem o).mp ⟨st, hst, hlow, hhigh⟩
    rcases hfit with rfl | hfit
    · rw [List.length_nil] at hmem
      omega
    · omega

/-- The loop stores the bytes that are moved, from the offset on, and fails unless they are
all the bytes. -/
theorem kvfsWriteStores_eq {amt fuel : ℕ} (hpos : 0 < amt) (offset : ℕ) (data : List UInt8)
    (fault : Option ℕ) (hfuel : data.length ≤ fuel) :
    ∃ stores, kvfsWriteStores amt fuel offset data fault =
        some (stores, if (moved data fault).length < data.length then some .EFAULT else none) ∧
      StoresRange stores offset (moved data fault) := by
  have hnil : ∀ fault, moved [] fault = [] := fun fault => List.length_eq_zero_iff.mp
    (Nat.le_zero.mp (length_moved_le [] fault))
  induction fuel generalizing offset data fault with
  | zero =>
    obtain rfl : data = [] := List.length_eq_zero_iff.mp (by omega)
    rw [hnil]
    exact ⟨[], by simp [kvfsWriteStores], .nil offset⟩
  | succ fuel ih =>
    unfold kvfsWriteStores
    by_cases hdata : data = []
    · subst hdata
      rw [hnil]
      exact ⟨[], by simp, .nil offset⟩
    · simp only [if_neg hdata]
      have hlen : 0 < data.length := List.length_pos_iff.mpr hdata
      have hchunk : (data.take amt).length = min amt data.length := List.length_take
      have hle := length_moved_le (data.take amt) fault
      by_cases hless : (moved (data.take amt) fault).length < (data.take amt).length
      · -- the copy of this chunk fails
        have hshort := moved_of_short hless
        rw [hshort] at hless ⊢
        rw [if_pos hless, if_pos (by omega)]
        refine ⟨_, rfl, ?_⟩
        have hone := (StoresRange.nil (offset + (moved data fault).length)).cons
        rw [List.append_nil] at hone
        exact hone
      · have heq : (moved (data.take amt) fault).length = (data.take amt).length := by omega
        have hsplit := moved_chunk data fault amt heq
        have hfirst := moved_of_full heq
        have hrest : (data.drop (data.take amt).length).length =
            data.length - (data.take amt).length := List.length_drop
        obtain ⟨stores, hstores, hrange⟩ := ih (offset + (data.take amt).length)
          (data.drop (data.take amt).length) (fault.map (· - (data.take amt).length)) (by omega)
        simp only [hfirst, Nat.lt_irrefl, if_false, hstores, Option.map_some]
        rw [hsplit]
        refine ⟨_, ?_, hrange.cons⟩
        have hiff : ∀ k, (data.take amt).length + k < data.length ↔
            k < data.length - (data.take amt).length := by omega
        simp only [List.length_append, hrest, hiff]

/-- A write to a file, in terms of the bytes that are moved. -/
theorem kvfsWriteCall_eq (old : ℕ → UInt8) (offset : ℕ) {data : List UInt8} (fault : Option ℕ)
    (hdata : data ≠ []) (hlen : data.length < 2 ^ 31) :
    ∃ stores, kvfsWriteCall old false offset data fault = some ⟨stores,
        if (moved data fault).length < data.length then old else applyStores old stores,
        if (moved data fault).length < data.length then some .EFAULT else none⟩ ∧
      StoresRange stores offset (moved data fault) := by
  have hpos : 0 < data.length := List.length_pos_iff.mpr hdata
  have hamt : min (data.length % 2 ^ 32) 4096 = min data.length 4096 := by
    rw [Nat.mod_eq_of_lt (by omega)]
  obtain ⟨stores, hstores, hrange⟩ := kvfsWriteStores_eq (by omega : 0 < min data.length 4096)
    offset data fault (Nat.le_refl data.length)
  refine ⟨stores, ?_, hrange⟩
  unfold kvfsWriteCall
  rw [if_neg hdata, hamt, hstores]
  by_cases hless : (moved data fault).length < data.length <;> simp [hless]

theorem inside_cons {st : Store} {stores : List Store} :
    Inside (st :: stores) ↔
      ¬(st.bytes ≠ [] ∧ 4096 < st.index + st.bytes.length) ∧ Inside stores := by
  unfold Inside
  rw [List.forall_mem_cons]
  refine and_congr_left fun _ => ⟨fun hinside => ?_, fun hfit o hlow hhigh => ?_⟩
  · rintro ⟨hne, hbehind⟩
    have hlen : 0 < st.bytes.length := List.length_pos_iff.mpr hne
    have hlast := hinside (st.index + st.bytes.length - 1) (by omega) (by omega)
    omega
  · have hne : st.bytes ≠ [] := by
      intro hnil
      rw [hnil, List.length_nil] at hhigh
      omega
    by_contra hbehind
    exact hfit ⟨hne, by omega⟩

/-- The loop makes these stores if they are inside the buffer, and is undefined if not. -/
theorem kvfsWriteLoop_stores {amt fuel offset : ℕ} {data : List UInt8} {fault : Option ℕ}
    {stores : List Store} {e : Option Errno}
    (h : kvfsWriteStores amt fuel offset data fault = some (stores, e)) (buf : ℕ → UInt8) :
    (Inside stores →
        kvfsWriteLoop amt fuel buf offset data fault = some (applyStores buf stores, e)) ∧
      (¬Inside stores → kvfsWriteLoop amt fuel buf offset data fault = none) := by
  have hnone : ∀ buf, kvfsWriteLoop amt fuel buf offset [] fault = some (buf, none) := by
    intro buf
    cases fuel <;> simp [kvfsWriteLoop]
  have hempty : Inside [] := fun _ hst => by simp at hst
  induction fuel generalizing buf offset data fault stores with
  | zero =>
    unfold kvfsWriteStores at h
    by_cases hdata : data = []
    · simp only [if_pos hdata, Option.some.injEq, Prod.mk.injEq] at h
      obtain ⟨rfl, rfl⟩ := h
      rw [hdata, hnone]
      exact ⟨fun _ => rfl, fun hout => absurd hempty hout⟩
    · simp [hdata] at h
  | succ fuel ih =>
    unfold kvfsWriteStores at h
    by_cases hdata : data = []
    · simp only [if_pos hdata, Option.some.injEq, Prod.mk.injEq] at h
      obtain ⟨rfl, rfl⟩ := h
      rw [hdata, hnone]
      exact ⟨fun _ => rfl, fun hout => absurd hempty hout⟩
    · rw [kvfsWriteLoop_succ hdata]
      simp only [if_neg hdata] at h
      by_cases hless : (moved (data.take amt) fault).length < (data.take amt).length
      · simp only [if_pos hless, Option.some.injEq, Prod.mk.injEq] at h
        obtain ⟨rfl, rfl⟩ := h
        rw [inside_cons, if_pos hless]
        constructor
        · rintro ⟨hfit, -⟩
          rw [if_neg hfit]
          rfl
        · intro hout
          rw [if_pos (not_not.mp fun hfit => hout ⟨hfit, hempty⟩)]
      · simp only [if_neg hless, Option.map_eq_some_iff] at h
        obtain ⟨⟨rest, e'⟩, hrest, heq⟩ := h
        simp only [Prod.mk.injEq] at heq
        obtain ⟨rfl, rfl⟩ := heq
        have hih := ih hrest (put buf offset (moved (data.take amt) fault))
          (fun buf => by cases fuel <;> simp [kvfsWriteLoop])
        rw [inside_cons, if_neg hless]
        constructor
        · rintro ⟨hfit, hinside⟩
          rw [if_neg hfit, hih.1 hinside]
          rfl
        · intro hout
          by_cases hfit : moved (data.take amt) fault ≠ [] ∧
              4096 < offset + (moved (data.take amt) fault).length
          · rw [if_pos hfit]
          · rw [if_neg hfit, hih.2 fun hinside => hout ⟨hfit, hinside⟩]

/-- `kvfs_write` to a file is such a call, and undefined if a store leaves the buffer. -/
theorem kvfsWrite_eq_call {ioAppend : Bool} {data : List UInt8} {fault : Option ℕ} {w : Written}
    (hvp : s.vnodes vp = some (.file knode))
    (h : kvfsWriteCall (fun o => s.disk (dbtob knode.lbn + o)) ioAppend offset data fault =
      some w) :
    (Inside w.stores → kvfsWrite s vp ioAppend offset data fault false =
        some ({ s with disk := put s.disk (dbtob knode.lbn) (get w.block 0 4096) }, w.error)) ∧
      (¬Inside w.stores → kvfsWrite s vp ioAppend offset data fault false = none) := by
  have hsame : put s.disk (dbtob knode.lbn)
      (get (fun o => s.disk (dbtob knode.lbn + o)) 0 4096) = s.disk := by
    apply put_apply_eq_self
    intro k hk
    rw [getElem_get, Nat.zero_add]
  have hempty : Inside [] := fun _ hst => by simp at hst
  unfold kvfsWriteCall at h
  unfold kvfsWrite
  simp only [hvp]
  by_cases hdata : data = []
  · simp only [if_pos hdata, Option.some.injEq] at h ⊢
    subst h
    exact ⟨fun _ => by rw [hsame], fun hout => absurd hempty hout⟩
  · cases ioAppend with
    | true =>
      simp only [if_neg hdata, if_true, Option.some.injEq] at h ⊢
      subst h
      exact ⟨fun _ => by rw [hsame], fun hout => absurd hempty hout⟩
    | false =>
      simp only [if_neg hdata, Bool.false_eq_true, if_false, Option.map_eq_some_iff] at h ⊢
      obtain ⟨⟨stores, e⟩, hstores, rfl⟩ := h
      have hloop := kvfsWriteLoop_stores hstores fun o => s.disk (dbtob knode.lbn + o)
      constructor
      · intro hinside
        rw [hloop.1 hinside]
        cases e with
        | none => rfl
        | some e => simp [hsame]
      · intro hout
        rw [hloop.2 hout]

/-- A write without `IO_APPEND` stays inside the block if and only if the bytes that are moved
fit behind the offset. -/
theorem staysInside_iff {old : ℕ → UInt8} {ioAppend : Bool} {data : List UInt8}
    {fault : Option ℕ} (hdata : data ≠ []) (hlen : data.length < 2 ^ 31) :
    (∃ w, kvfsWriteCall old ioAppend offset data fault = some w ∧
        StaysInside old offset data w) ↔
      ioAppend = true ∨ moved data fault = [] ∨ offset + (moved data fault).length ≤ 4096 := by
  cases ioAppend with
  | true =>
    refine iff_of_true ⟨⟨[], old, some .EINVAL⟩, ?_, ?_, ?_⟩ (Or.inl rfl)
    · simp [kvfsWriteCall, hdata]
    · intro st hst
      simp at hst
    · exact Or.inl ⟨by simp, fun _ _ => rfl⟩
  | false =>
    obtain ⟨stores, hcall, hrange⟩ := kvfsWriteCall_eq old offset fault hdata hlen
    simp only [Bool.false_eq_true, false_or, ← hrange.inside_iff, hcall, Option.some.injEq,
      exists_eq_left']
    constructor
    · exact fun h => h.inside
    · intro hinside
      refine ⟨hinside, ?_⟩
      by_cases hless : (moved data fault).length < data.length
      · simp [hless]
      · have hle := length_moved_le data fault
        have hall := moved_of_full (by omega : (moved data fault).length = data.length)
        simp [hrange.apply, hall]

/-- A write of the last two bytes. -/
theorem staysInside_last : ∃ w, kvfsWriteCall (fun _ => 0) false 4094 [1, 1] none = some w ∧
    StaysInside (fun _ => 0) 4094 [1, 1] w :=
  (staysInside_iff (by decide) (by decide)).mpr (Or.inr (Or.inr (by decide)))

/-- Two bytes for the last place of the block. -/
theorem staysInside_fails : ¬∀ (old : ℕ → UInt8) (offset : ℕ) (data : List UInt8), data ≠ [] →
    data.length < 2 ^ 31 → ∃ w, kvfsWriteCall old false offset data none = some w ∧
      StaysInside old offset data w := by
  intro hall
  obtain ⟨w, hcall, hinside, -⟩ := hall (fun _ => 0) 4095 [1, 1] (by simp) (by simp)
  obtain ⟨stores, hcall', hrange⟩ := kvfsWriteCall_eq (fun _ => 0) 4095 none
    (by simp : ([1, 1] : List UInt8) ≠ []) (by simp)
  rw [hcall', Option.some.injEq] at hcall
  subst hcall
  have hfit := hrange.inside_iff.mp hinside
  simp [moved] at hfit

end EmbeddedOs.Kvfs
