import EmbeddedOs.Kvfs.Calls

/-!
# What the operations do

One lemma for each operation, which says what it does to the slots, their bits and their
values, to the free list and to the vnodes. The operations find the slot of a vnode by the
`ino` and the `lbn` of its memnode, so that these belong together.
-/

namespace EmbeddedOs.Kvfs

open Lib.Bytes

/-- An inode of a file: `KVFS_INODE_ACTIVE` is its only flag, and it has one reference. -/
structure Inode.Active (x : Inode) : Prop where
  /-- The flags. -/
  flags : x.flags = kvfsInodeActive
  /-- The reference. -/
  refCount : x.refCount = 1

/-- The inode of a new file. -/
def newInode (key : Key) (timestamp : UInt64) : Inode := ⟨key, kvfsInodeActive, 1, timestamp⟩

theorem newInode_active (key : Key) (timestamp : UInt64) : (newInode key timestamp).Active :=
  ⟨rfl, rfl⟩

theorem Inode.Active.not_free {x : Inode} (h : x.Active) : x.free = false := by
  rw [Inode.free, h.flags]
  rfl

/-- An inode of a file has a key and a timestamp, and nothing else. -/
theorem Inode.Active.eq_new {x : Inode} (h : x.Active) : x = newInode x.key x.timestamp := by
  rw [newInode, ← h.flags, ← h.refCount]

namespace Fs

variable (s : Fs)

/-- The first slot that has a key, as `kvfs_lookup` searches it. -/
def lookupKey (key : Key) : Option ℕ :=
  (List.range s.mp.slots).find? fun i => !(s.inodeAt i).free && (s.inodeAt i).key == key

/-- The memnode of a file in slot `i`. -/
def slotNode (i : ℕ) (x : Inode) : Memnode := ⟨32 * i, s.mp.dataLbn (32 * i), x⟩

/-- Write the inode of a slot. -/
def putInode (i : ℕ) (x : Inode) : Fs := { s with disk := s.mp.putInode s.disk i x }

/-- Write bytes to the data block of a slot. -/
def putData (i off : ℕ) (xs : List UInt8) : Fs := { s with disk := s.mp.putData s.disk i off xs }

/-- Take the first slot off the free list, and set its bit. -/
def takeSlot (i : ℕ) : Fs :=
  { s with
    freelist := s.freelist.tail
    freelistCount := s.freelistCount - 1
    disk := s.mp.setBit s.disk i }

/-- Put a slot on the free list, and clear its bit. -/
def giveSlot (i : ℕ) : Fs :=
  { s with
    freelist := 32 * i :: s.freelist
    freelistCount := s.freelistCount + 1
    disk := s.mp.clearBit s.disk i }

/-- Bring an inode number into the hash, with a new vnode. -/
def addVnode (ino : ℕ) (node : Vnode) : Fs :=
  (({ s with nextVp := s.nextVp + 1 } : Fs).vfsHashInsert ino s.nextVp).setVnode s.nextVp
    (some node)

/-- Change the inode of a file, in its slot and in its memnode. -/
def updateFile (vp i : ℕ) (x : Inode) : Fs :=
  (s.setVnode vp (some (.file (s.slotNode i x)))).putInode i x

/-- Clear a slot, put it on the free list, and forget its vnode. -/
def removeFile (vp i : ℕ) : Fs :=
  (((s.putInode i .empty).putData i 0 (List.replicate 4096 0)).giveSlot i).vfsHashRemove vp

end Fs

variable {s : Fs} {i vp : ℕ} {x : Inode}

/-! ## Vnodes -/

theorem kvfsVgetInternal_cached {ino : ℕ} (h : s.vfsHashGet ino = some vp)
    (keystr : Option (Name × Timespec)) : kvfsVgetInternal s ino keystr = (s, .ok vp) := by
  simp only [kvfsVgetInternal, h]

theorem kvfsVgetInternal_root (h : s.vfsHashGet kvfsRootIno = none)
    (keystr : Option (Name × Timespec)) :
    kvfsVgetInternal s kvfsRootIno keystr = (s.addVnode kvfsRootIno .root, .ok s.nextVp) := by
  simp only [kvfsVgetInternal, h, if_true]
  rfl

/-- A slot is not the root. -/
theorem slot_ne_root (i : ℕ) : 32 * i ≠ kvfsRootIno := by
  simp only [kvfsRootIno]
  omega

/-- The inode that is read for a slot is the one in its slot. -/
theorem inode_at_loc (h : s.mp.Wf) (i : ℕ) :
    Inode.ofBytes (get s.disk (s.mp.inodeLoc (32 * i)) 32) = s.inodeAt i := by
  rw [h.inodeLoc_eq]
  rfl

theorem kvfsVgetInternal_file (hwf : s.mp.Wf) (h : s.vfsHashGet (32 * i) = none)
    (hx : (s.inodeAt i).free = false) (keystr : Option (Name × Timespec)) :
    kvfsVgetInternal s (32 * i) keystr =
      (s.addVnode (32 * i) (.file (s.slotNode i (s.inodeAt i))), .ok s.nextVp) := by
  have hinode : Inode.ofBytes (get s.disk (s.mp.inodeLoc (32 * i)) 32) = s.inodeAt i :=
    inode_at_loc hwf i
  simp only [kvfsVgetInternal, h, if_neg (slot_ne_root i), Fs.vfsHashInsert, hinode, hx,
    Bool.false_eq_true, if_false]
  rfl

/-- A free slot is no file; the new vnode is lost. -/
theorem kvfsVgetInternal_free (hwf : s.mp.Wf) (h : s.vfsHashGet (32 * i) = none)
    (hx : (s.inodeAt i).free = true) (hfresh : ∀ e ∈ s.hash, e.2 ≠ s.nextVp) :
    kvfsVgetInternal s (32 * i) none = ({ s with nextVp := s.nextVp + 1 }, .error .ENOENT) := by
  have hinode : Inode.ofBytes (get s.disk (s.mp.inodeLoc (32 * i)) 32) = s.inodeAt i :=
    inode_at_loc hwf i
  have hfilter : ((32 * i, s.nextVp) :: s.hash).filter (fun e => e.2 != s.nextVp) = s.hash := by
    rw [List.filter_cons_of_neg (by simp), List.filter_eq_self]
    intro e he
    exact bne_iff_ne.mpr (hfresh e he)
  simp only [kvfsVgetInternal, h, if_neg (slot_ne_root i), Fs.vfsHashInsert, hinode, hx, if_true,
    Fs.vfsHashRemove, hfilter]

/-- A free slot is taken for a new file. -/
theorem kvfsVgetInternal_new (hwf : s.mp.Wf) (h : s.vfsHashGet (32 * i) = none)
    (hx : s.inodeAt i = .empty) {name : Name} {key : Key} (hkey : strToKey name = some key)
    (ts : Timespec) :
    let x := newInode key (timespecToUint64 ts)
    kvfsVgetInternal s (32 * i) (some (name, ts)) =
      ((s.putInode i x).addVnode (32 * i) (.file (s.slotNode i x)), .ok s.nextVp) := by
  have hinode : Inode.ofBytes (get s.disk (s.mp.inodeLoc (32 * i)) 32) = .empty := by
    rw [inode_at_loc hwf, hx]
  have hflags : Inode.empty.flags &&& ~~~kvfsInodeFree ||| kvfsInodeActive = kvfsInodeActive := rfl
  simp only [kvfsVgetInternal, h, if_neg (slot_ne_root i), Fs.vfsHashInsert, hinode,
    Inode.free_empty, if_true, hkey, hflags]
  rw [hwf.inodeLoc_eq]
  rfl

/-! ## Lookups -/

/-- A name that is a key is searched for. -/
theorem kvfsLookup_key (hwf : s.mp.Wf) {vdp : ℕ} (hroot : s.vnodes vdp = some .root)
    {cnp : ComponentName} {key : Key} (hlen : cnp.name.length = 40)
    (hkey : strToKey cnp.name = some key) :
    kvfsLookup s vdp cnp = match s.lookupKey key with
      | some i => kvfsVget s (32 * i)
      | none => (s, .error (if cnp.isLastCn ∧ (cnp.nameiop = .CREATE ∨ cnp.nameiop = .RENAME) then
          .EJUSTRETURN else .ENOENT)) := by
  have hinode : ∀ i, Inode.ofBytes (get s.disk (s.mp.tableLoc (32 * i)) 32) = s.inodeAt i := by
    intro i
    rw [hwf.tableLoc_eq]
    rfl
  have hsearch : (List.range s.mp.slots).find?
      (fun i => !(s.inodeAt i).free && (s.inodeAt i).key == key) = s.lookupKey key := rfl
  have hdot : ¬(cnp.name.char 0 = 46 ∧ cnp.name.length = 1) := by omega
  have hlength : ¬cnp.name.length ≠ 40 := not_not.mpr hlen
  simp only [kvfsLookup, hroot, hinode, if_neg hdot, if_neg hlength, hkey, hsearch]
  cases s.lookupKey key with
  | some i => rfl
  | none =>
    simp only
    split <;> rfl

/-- A lookup finds the directory itself, rejects a name, or searches for a key. -/
theorem kvfsLookup_cases {vdp : ℕ} (hroot : s.vnodes vdp = some .root) (cnp : ComponentName) :
    kvfsLookup s vdp cnp = (s, .ok vdp) ∨ kvfsLookup s vdp cnp = (s, .error .EINVAL) ∨
      ∃ key, cnp.name.length = 40 ∧ strToKey cnp.name = some key := by
  by_cases hlen : cnp.name.length = 40
  · cases hkey : strToKey cnp.name with
    | none =>
      refine Or.inr (Or.inl ?_)
      have hdot : ¬(cnp.name.char 0 = 46 ∧ cnp.name.length = 1) := by omega
      have hlength : ¬cnp.name.length ≠ 40 := not_not.mpr hlen
      simp only [kvfsLookup, hroot, if_neg hdot, if_neg hlength, hkey]
    | some key => exact Or.inr (Or.inr ⟨key, hlen, rfl⟩)
  · by_cases hdot : cnp.name.char 0 = 46 ∧ cnp.name.length = 1
    · refine Or.inl ?_
      simp only [kvfsLookup, hroot, if_pos hdot]
    · refine Or.inr (Or.inl ?_)
      simp only [kvfsLookup, hroot, if_neg hdot, ne_eq, hlen, not_false_eq_true, if_true]

/-- A slot that is found has the key. -/
theorem of_lookupKey {key : Key} (h : s.lookupKey key = some i) :
    i < s.mp.slots ∧ (s.inodeAt i).free = false ∧ (s.inodeAt i).key = key := by
  have hpred := List.find?_some h
  have hmem := List.mem_of_find?_eq_some h
  simp only [Bool.and_eq_true, Bool.not_eq_true', beq_iff_eq] at hpred
  exact ⟨List.mem_range.mp hmem, hpred⟩

theorem lookupKey_eq_none {key : Key} : s.lookupKey key = none ↔
    ∀ i < s.mp.slots, (s.inodeAt i).free = false → (s.inodeAt i).key ≠ key := by
  simp only [Fs.lookupKey, List.find?_eq_none, List.mem_range, Bool.and_eq_true,
    Bool.not_eq_true', beq_iff_eq, not_and, ne_eq]

/-! ## Files -/

theorem memnodeUpdate_slot (hwf : s.mp.Wf) (y : Inode) :
    memnodeUpdate s (s.slotNode i x) y = s.putInode i y := by
  simp only [memnodeUpdate, Fs.slotNode, hwf.inodeLoc_eq]
  rfl

/-- The bit of a slot is in the byte `INO_TO_FREE_BYTE`. -/
theorem inoToFreeByte_slot (mp : KvfsMount) (i : ℕ) :
    inoToFreeByte (32 * i) mp = mp.freelistOff + i / 8 := by
  simp only [inoToFreeByte]
  omega

theorem inoToFreeBitMask_slot (i : ℕ) : inoToFreeBitMask (32 * i) = 1 <<< UInt8.ofNat (i % 8) := by
  rw [inoToFreeBitMask, Nat.mul_div_cancel_left i (by decide)]

theorem kvfsCreate_full (h : s.freelist = []) (name : Name) (ts : Timespec) :
    kvfsCreate s name ts = (s, .error .ENOSPC) := by
  simp only [kvfsCreate, h]

theorem kvfsCreate_slot {freelist : List ℕ} (h : s.freelist = 32 * i :: freelist) (name : Name)
    (ts : Timespec) :
    kvfsCreate s name ts = kvfsVgetInternal (s.takeSlot i) (32 * i) (some (name, ts)) := by
  simp only [kvfsCreate, h, dbtob_btodb_add_mod, inoToFreeByte_slot, inoToFreeBitMask_slot,
    Fs.takeSlot, List.tail_cons]
  rfl

theorem kvfsRemove_slot (hwf : s.mp.Wf) (hi : i < s.mp.slots)
    (h : s.vnodes vp = some (.file (s.slotNode i x))) :
    kvfsRemove s vp = some (s.removeFile vp i) := by
  have hbitmap := hwf.bitmap
  have hfree := hwf.freeByte
  have hbyte : inoToFreeByte (32 * i) s.mp % 2 ^ 32 = s.mp.freelistOff + i / 8 := by
    rw [inoToFreeByte_slot, Nat.mod_eq_of_lt (by omega)]
  have hlbn : dbtob (s.mp.dataLbn (32 * i)) = s.mp.dataOff + 4096 * i + 0 := hwf.dataLbn_eq i
  simp only [kvfsRemove, h, memnodeUpdate_slot hwf]
  simp only [Fs.slotNode, Fs.putInode, hbyte, hlbn, inoToFreeBitMask_slot, dbtob_btodb_add_mod]
  rfl

theorem kvfsSetattr_slot (hwf : s.mp.Wf) (h : s.vnodes vp = some (.file (s.slotNode i x)))
    (vaMtime : Timespec) :
    kvfsSetattr s vp vaMtime = some (if vaMtime.tvSec ≠ -1 then
      s.updateFile vp i { x with timestamp := timespecToUint64 vaMtime } else s) := by
  simp only [kvfsSetattr, h]
  split
  · rw [Option.some.injEq]
    exact memnodeUpdate_slot (s := s.setVnode vp _) hwf _
  · rfl

/-- A file that is renamed keeps its slot. -/
theorem kvfsRename_new (hwf : s.mp.Wf) {name : Name} {key : Key} (hkey : strToKey name = some key)
    (h : s.vnodes vp = some (.file (s.slotNode i x))) :
    kvfsRename s vp none name = some (s.updateFile vp i { x with key := key }, none) := by
  simp only [kvfsRename, hkey, h, Option.some.injEq, Prod.mk.injEq, and_true]
  exact memnodeUpdate_slot (s := s.setVnode vp _) hwf _

/-- The file that has the new name is removed first. -/
theorem kvfsRename_over (hwf : s.mp.Wf) {name : Name} {key : Key} (hkey : strToKey name = some key)
    {tvp j : ℕ} {y : Inode} (hj : j < s.mp.slots)
    (htvp : s.vnodes tvp = some (.file (s.slotNode j y)))
    (h : s.vnodes vp = some (.file (s.slotNode i x))) :
    kvfsRename s vp (some tvp) name =
      some ((s.removeFile tvp j).updateFile vp i { x with key := key }, none) := by
  have hsome : ¬s.vnodes tvp = none := by simp [htvp]
  have hfile : (s.removeFile tvp j).vnodes vp =
      some (.file ((s.removeFile tvp j).slotNode i x)) := h
  simp only [kvfsRename, hkey, if_neg hsome, kvfsRemove_slot hwf hj htvp, hfile,
    Option.some.injEq, Prod.mk.injEq, and_true]
  exact memnodeUpdate_slot (s := (s.removeFile tvp j).setVnode vp _) hwf _

/-! ## Writes -/

/-- The bytes that the copy of `data` moves before it ends or fails. -/
def moved (data : List UInt8) : Option ℕ → List UInt8
  | none => data
  | some n => data.take n

/-- The write changes the device: bytes are copied at an offset, and they are all the bytes
to write, or the buffer is kept nevertheless. -/
structure Stores (ioAppend : Bool) (data : List UInt8) (fault : Option ℕ) (kept : Bool) :
    Prop where
  /-- Bytes are copied. -/
  nonempty : moved data fault ≠ []
  /-- They go to the offset of the call. -/
  offset : ioAppend = false
  /-- They are all the bytes, or the buffer is kept. -/
  stored : (moved data fault).length = data.length ∨ kept = true

instance (ioAppend : Bool) (data : List UInt8) (fault : Option ℕ) (kept : Bool) :
    Decidable (Stores ioAppend data fault kept) :=
  decidable_of_iff (moved data fault ≠ [] ∧ ioAppend = false ∧
      ((moved data fault).length = data.length ∨ kept = true))
    ⟨fun h => ⟨h.1, h.2.1, h.2.2⟩, fun h => ⟨h.nonempty, h.offset, h.stored⟩⟩

theorem length_moved_le (data : List UInt8) (fault : Option ℕ) :
    (moved data fault).length ≤ data.length := by
  cases fault with
  | none => exact le_rfl
  | some n => exact List.length_take_le' n data

/-- The bytes that are moved are those of the first chunk, and those of the rest if the first
chunk is copied. -/
theorem moved_chunk (data : List UInt8) (fault : Option ℕ) (amt : ℕ) :
    let chunk := data.take amt
    (moved chunk fault).length = chunk.length →
      moved data fault =
        chunk ++ moved (data.drop chunk.length) (fault.map (· - chunk.length)) := by
  intro chunk hall
  have htake : data.take chunk.length = chunk := by
    rw [List.length_take]
    exact List.take_eq_take_min.symm
  cases fault with
  | none =>
    have hsplit := List.take_append_drop chunk.length data
    rw [htake] at hsplit
    exact hsplit.symm
  | some n =>
    have hle : chunk.length ≤ n := by
      simp only [moved, List.length_take] at hall
      omega
    have hsplit := List.take_add (l := data) (i := chunk.length) (j := n - chunk.length)
    rw [Nat.add_sub_cancel' hle, htake] at hsplit
    exact hsplit

/-- Nothing behind the first chunk is moved if that is not copied. -/
theorem moved_of_short {data : List UInt8} {fault : Option ℕ} {amt : ℕ}
    (hless : (moved (data.take amt) fault).length < (data.take amt).length) :
    moved (data.take amt) fault = moved data fault := by
  cases fault with
  | none => exact absurd hless (lt_irrefl _)
  | some n =>
    simp only [moved, List.length_take] at hless
    simp only [moved, List.take_take]
    rw [min_eq_left (by omega)]

/-- Bytes that are all moved. -/
theorem moved_of_full {chunk : List UInt8} {fault : Option ℕ}
    (hall : (moved chunk fault).length = chunk.length) : moved chunk fault = chunk := by
  cases fault with
  | none => rfl
  | some n =>
    apply List.take_of_length_le
    simp only [moved, List.length_take] at hall
    omega

/-- An iteration of the loop of `kvfs_write`. -/
theorem kvfsWriteLoop_succ {amt fuel : ℕ} {buf : ℕ → UInt8} {offset : ℕ} {data : List UInt8}
    {fault : Option ℕ} (hdata : data ≠ []) :
    let chunk := data.take amt
    kvfsWriteLoop amt (fuel + 1) buf offset data fault =
      if moved chunk fault ≠ [] ∧ 4096 < offset + (moved chunk fault).length then none
      else if (moved chunk fault).length < chunk.length then
        some (put buf offset (moved chunk fault), some .EFAULT)
      else kvfsWriteLoop amt fuel (put buf offset (moved chunk fault)) (offset + chunk.length)
        (data.drop chunk.length) (fault.map (· - chunk.length)) := by
  cases fault <;> rw [kvfsWriteLoop, if_neg hdata] <;> rfl

/-- The loop of `kvfs_write` puts the bytes it moves into the buffer, and stays inside. -/
theorem kvfsWriteLoop_eq {amt fuel : ℕ} {buf buf' : ℕ → UInt8} {offset : ℕ} {data : List UInt8}
    {fault : Option ℕ} {e : Option Errno}
    (h : kvfsWriteLoop amt fuel buf offset data fault = some (buf', e)) :
    buf' = put buf offset (moved data fault) ∧
      (moved data fault ≠ [] → offset + (moved data fault).length ≤ 4096) ∧
      (e = none ↔ (moved data fault).length = data.length) := by
  have hnil : ∀ buf offset fault, buf = put buf offset (moved [] fault) ∧
      (moved [] fault ≠ [] → offset + (moved [] fault).length ≤ 4096) ∧
      ((none : Option Errno) = none ↔ (moved [] fault).length = ([] : List UInt8).length) := by
    intro buf offset fault
    have hmoved : moved [] fault = [] := List.length_eq_zero_iff.mp
      (Nat.le_zero.mp (length_moved_le [] fault))
    rw [hmoved, put_nil]
    simp
  induction fuel generalizing buf offset data fault with
  | zero =>
    simp only [kvfsWriteLoop] at h
    split at h
    · next hdata =>
      simp only [Option.some.injEq, Prod.mk.injEq] at h
      obtain ⟨rfl, rfl⟩ := h
      subst hdata
      exact hnil _ _ _
    · cases h
  | succ fuel ih =>
    by_cases hdata : data = []
    · rw [kvfsWriteLoop, if_pos hdata] at h
      simp only [Option.some.injEq, Prod.mk.injEq] at h
      obtain ⟨rfl, rfl⟩ := h
      subst hdata
      exact hnil _ _ _
    · rw [kvfsWriteLoop_succ hdata] at h
      split at h
      · cases h
      · next hfit =>
        split at h
        · next hless =>
          -- the copy of this chunk fails
          simp only [Option.some.injEq, Prod.mk.injEq] at h
          obtain ⟨rfl, rfl⟩ := h
          have hshort := moved_of_short hless
          rw [hshort] at hfit hless ⊢
          rw [List.length_take] at hless
          refine ⟨rfl, fun hmoved => ?_, by simp; omega⟩
          by_contra hbehind
          exact hfit ⟨hmoved, by omega⟩
        · next hall =>
          have hle := length_moved_le (data.take amt) fault
          have heq : (moved (data.take amt) fault).length = (data.take amt).length := by omega
          have hsplit := moved_chunk data fault amt heq
          rw [moved_of_full heq] at h hfit
          obtain ⟨hbuf, hrest, he⟩ := ih h
          have hlen : (data.take amt).length ≤ data.length := List.length_take_le' amt data
          rw [hsplit, List.length_append]
          refine ⟨by rw [hbuf, put_put_append], fun hmoved => ?_, ?_⟩
          · by_cases hend : moved (data.drop (data.take amt).length)
                (fault.map (· - (data.take amt).length)) = []
            · rw [hend, List.append_nil] at hmoved
              rw [hend, List.length_nil]
              by_contra hbehind
              exact hfit ⟨hmoved, by omega⟩
            · have hfit' := hrest hend
              omega
          · rw [he, List.length_drop]
            omega

/-- A write changes a part of the data block of the slot, or nothing. -/
theorem kvfsWrite_slot (hwf : s.mp.Wf) (h : s.vnodes vp = some (.file (s.slotNode i x)))
    {ioAppend kept : Bool} {offset : ℕ} {data : List UInt8} {fault : Option ℕ} {t : Fs}
    {e : Option Errno} (hrun : kvfsWrite s vp ioAppend offset data fault kept = some (t, e)) :
    (¬Stores ioAppend data fault kept ∧ t = s) ∨
      (Stores ioAppend data fault kept ∧ offset + (moved data fault).length ≤ 4096 ∧
        t = s.putData i offset (moved data fault)) := by
  have hlbn : dbtob (s.slotNode i x).lbn = s.mp.dataOff + 4096 * i := hwf.dataLbn_eq i
  simp only [kvfsWrite, h, hlbn] at hrun
  split at hrun
  · next hdata =>
    simp only [Option.some.injEq, Prod.mk.injEq] at hrun
    have hnil := length_moved_le data fault
    rw [hdata, List.length_nil, Nat.le_zero] at hnil
    exact Or.inl ⟨fun hs => hs.nonempty (by rw [hdata, List.length_eq_zero_iff.mp hnil]),
      hrun.1.symm⟩
  · next hdata =>
    split at hrun
    · next happend =>
      simp only [Option.some.injEq, Prod.mk.injEq] at hrun
      exact Or.inl ⟨fun hs => by simp [hs.offset] at happend, hrun.1.symm⟩
    · next happend =>
      have hoffset : ioAppend = false := by simpa using happend
      split at hrun
      · cases hrun
      · next hloop =>
        obtain ⟨rfl, hfit, he⟩ := kvfsWriteLoop_eq hloop
        simp only [Option.some.injEq, Prod.mk.injEq] at hrun
        have hmoved : moved data fault ≠ [] := by
          intro hnil
          have hall := he.mp rfl
          rw [hnil, List.length_nil] at hall
          exact hdata (List.length_eq_zero_iff.mp hall.symm)
        rw [put_get_put (hfit hmoved)] at hrun
        exact Or.inr ⟨⟨hmoved, hoffset, Or.inl (he.mp rfl)⟩, hfit hmoved, hrun.1.symm⟩
      · next hloop =>
        obtain ⟨rfl, hfit, he⟩ := kvfsWriteLoop_eq hloop
        split at hrun
        · next hkept =>
          simp only [Option.some.injEq, Prod.mk.injEq] at hrun
          by_cases hmoved : moved data fault = []
          · -- nothing was copied: the buffer that is kept is as it was read
            have hsame : put s.disk (s.mp.dataOff + 4096 * i)
                (get (fun o => s.disk (s.mp.dataOff + 4096 * i + o)) 0 4096) = s.disk := by
              apply put_apply_eq_self
              intro k hk
              rw [getElem_get, Nat.zero_add]
            rw [hmoved, put_nil, hsame] at hrun
            exact Or.inl ⟨fun hs => hs.nonempty hmoved, hrun.1.symm⟩
          · rw [put_get_put (hfit hmoved)] at hrun
            exact Or.inr ⟨⟨hmoved, hoffset, Or.inr hkept⟩, hfit hmoved, hrun.1.symm⟩
        · next hkept =>
          simp only [Option.some.injEq, Prod.mk.injEq] at hrun
          refine Or.inl ⟨fun hs => ?_, hrun.1.symm⟩
          rcases hs.stored with hall | hk
          · exact absurd (he.mpr hall) (by simp)
          · exact hkept hk

end EmbeddedOs.Kvfs
