import EmbeddedOs.Ddfs.Runs

/-!
# Writes whose copy fails

`ffs_write` looks the key up, switches the pointer and frees the block before it looks at the
error of `vn_io_fault_uiomove`. So an iteration whose copy fails leaves a new entry or a raised
count in the table. The truncation that undoes a write gives up blocks behind the old end only.
-/

namespace EmbeddedOs.Ddfs

open Lib Lib.SlotTable

variable {ι : Type} [DecidableEq ι]

/-! ## The table along the steps -/

section Table

variable {s s' t : Fs ι} {f : ι} {lbn : Fin 12} {hash : Key} {entry : DdfsDedup}

omit [DecidableEq ι] in
/-- `ffs_blkfree` does to the table what `ddtable_unref` does. -/
theorem table_ffsBlkfree (s : Fs ι) (bno : ℤ) :
    (ffsBlkfree s bno).table = (ddtableUnref noErr s.table bno).table := by
  simp only [ffsBlkfree]
  split <;> rfl

omit [DecidableEq ι] in
/-- An entry for another block stays. -/
theorem slot_ffsBlkfree_of_ne {bno : ℤ} {p : ℕ × ℕ} {e : DdfsDedup}
    (hp : slot s.table p = some e) (hne : e.blockptr ≠ bno) :
    slot (ffsBlkfree s bno).table p = some e := by
  have hother : ∀ {q e'}, findBlock bno s.table = some (q, e') → p ≠ q := by
    rintro q e' hfind rfl
    obtain ⟨⟨hq, -⟩, hblk⟩ := inUse_of_findBlock hfind
    rw [hp, Option.some.injEq] at hq
    rw [hq] at hne
    exact hne hblk
  rcases ffsBlkfree_cases s bno with ⟨q, e', hfind, -, ht⟩ | ⟨q, e', hfind, -, ht⟩ | ⟨-, ht⟩
  · rw [ht, Fs.table_setTable, slot_setSlot_of_ne _ (hother hfind)]
    exact hp
  · rw [ht, Fs.table_free, Fs.table_setTable, slot_setSlot_of_ne _ (hother hfind)]
    exact hp
  · rw [ht]
    exact hp

/-- The deduplication step leaves the table alone only when it stores in the first free slot what
is there already. -/
theorem table_dedupBlock_iff (h : dedupBlock s f lbn hash entry = some t) :
    t.table = s.table ↔ findKey hash s.table = none ∧ ∃ p, findFree s.table =
      some (p, ⟨hash, entry.flags ||| ddfsDedupActive, 1, s.ptr f lbn⟩) := by
  have hcount (c : UInt16) : c ≠ c + 1 := by simp
  rcases dedupBlock_cases h with ⟨p, old, hkey, hfree, rfl⟩ | ⟨p, e, hkey, -, rfl⟩ |
    ⟨p, e, hkey, hother, rfl⟩
  · rw [Fs.table_setTable, setSlot_eq_self_iff (slot_of_findFree hfree).1]
    constructor
    · rintro rfl
      exact ⟨hkey, p, hfree⟩
    · rintro ⟨-, q, hq⟩
      rw [hfree, Option.some.injEq, Prod.mk.injEq] at hq
      exact hq.2
  · have hp := (inUse_of_findKey hkey).1.1
    rw [Fs.table_setTable, setSlot_eq_self_iff hp, hkey]
    constructor
    · intro he
      exact absurd (congrArg DdfsDedup.refCount he) (hcount _)
    · rintro ⟨hnone, -⟩
      cases hnone
  · -- the count is raised in an entry that is not the one of the block given up
    have hp := (inUse_of_findKey hkey).1.1
    constructor
    · intro heq
      have hraised : slot (setSlot s.table p { e with refCount := e.refCount + 1 }) p =
          some { e with refCount := e.refCount + 1 } := slot_setSlot_self hp _
      have hafter := slot_ffsBlkfree_of_ne (s := (s.setTable (setSlot s.table p
        { e with refCount := e.refCount + 1 })).setPtr f lbn e.blockptr) hraised hother
      rw [heq, hp, Option.some.injEq] at hafter
      exact absurd (congrArg DdfsDedup.refCount hafter) (hcount _)
    · rintro ⟨hnone, -⟩
      rw [hkey] at hnone
      cases hnone

/-- A new key switches no pointer. -/
theorem ptr_dedupBlock_of_new (h : dedupBlock s f lbn hash entry = some t)
    (hkey : findKey hash s.table = none) : t.ptr = s.ptr := by
  rcases dedupBlock_cases h with ⟨p, old, -, -, rfl⟩ | ⟨p, e, hfound, -, -⟩ | ⟨p, e, hfound, -, -⟩
  · rfl
  · rw [hkey] at hfound
    cases hfound
  · rw [hkey] at hfound
    cases hfound

/-- Which entries are given up with the blocks, depends on the table and the pointers only. -/
theorem table_foldl_releaseDirect_congr {is : List (Fin 12)} (htable : s'.table = s.table)
    (hptr : ∀ i ∈ is, s'.ptr f i = s.ptr f i) :
    (is.foldl (releaseDirect f) s').table = (is.foldl (releaseDirect f) s).table := by
  induction is generalizing s s' with
  | nil => exact htable
  | cons i is ih =>
    have hi := hptr i List.mem_cons_self
    rw [List.foldl_cons, List.foldl_cons]
    by_cases hhole : s.ptr f i = 0
    · rw [releaseDirect_hole hhole, releaseDirect_hole (hi.trans hhole)]
      exact ih htable fun j hj => hptr j (List.mem_cons_of_mem _ hj)
    · have hrelease : ∀ u : Fs ι, u.ptr f i ≠ 0 →
          releaseDirect f u i = ffsBlkfree (u.setPtr f i 0) (u.ptr f i) := fun u hu => if_neg hu
      rw [hrelease s hhole, hrelease s' (by rwa [hi])]
      apply ih
      · simp only [table_ffsBlkfree, Fs.table_setPtr, htable, hi]
      · intro j hj
        simp only [ptr_ffsBlkfree, Fs.ptr_setPtr, hptr j (List.mem_cons_of_mem _ hj)]

theorem table_truncTail_congr {length : ℕ} (htable : s'.table = s.table)
    (hptr : ∀ i : Fin 12, (length + 4095) / 4096 ≤ i.val → s'.ptr f i = s.ptr f i) :
    (truncTail s' f length).table = (truncTail s f length).table := by
  simp only [truncTail, Fs.table_setSize]
  apply table_foldl_releaseDirect_congr
  · exact htable
  · intro i hi
    simp only [directDown, List.mem_filter, decide_eq_true_eq] at hi
    exact hptr i hi.2

/-- Blocks without an entry are given up without a change of the table. -/
theorem table_foldl_releaseDirect_of_missing {is : List (Fin 12)}
    (hmissing : ∀ i ∈ is, s.ptr f i = 0 ∨ findBlock (s.ptr f i) s.table = none) :
    (is.foldl (releaseDirect f) s).table = s.table := by
  induction is generalizing s with
  | nil => rfl
  | cons i is ih =>
    rw [List.foldl_cons]
    by_cases hhole : s.ptr f i = 0
    · rw [releaseDirect_hole hhole]
      exact ih fun j hj => hmissing j (List.mem_cons_of_mem _ hj)
    · have hfind := (hmissing i List.mem_cons_self).resolve_left hhole
      have htable : (releaseDirect f s i).table = s.table := by
        simp only [releaseDirect, hhole, if_false, table_ffsBlkfree, Fs.table_setPtr,
          ddtableUnref_missing hfind]
      rw [ih, htable]
      intro j hj
      rw [htable]
      simp only [releaseDirect, hhole, if_false, ptr_ffsBlkfree, Fs.ptr_setPtr, true_and]
      split
      · exact Or.inl rfl
      · exact hmissing j (List.mem_cons_of_mem _ hj)

/-- A truncation that succeeds gives up the blocks behind the new end. -/
theorem table_ffsTruncate {length : ℕ} {env : Env} (h0 : s.freeMap 0 = false)
    (hle : length ≤ s.size f) (h : ffsTruncate s f length env = some (t, none)) :
    t.table = if s.size f = length then s.table else (truncTail s f length).table := by
  by_cases heq : s.size f = length
  · simp only [ffsTruncate, heq, if_true, Option.some.injEq, Prod.mk.injEq] at h
    rw [if_pos heq, h.1]
  · rw [if_neg heq]
    have hlt : length < s.size f := by omega
    rcases Nat.eq_zero_or_pos length with rfl | hpos
    · rw [ffsTruncate_zero hlt, Option.some.injEq, Prod.mk.injEq] at h
      rw [h.1]
    · rw [ffsTruncate, if_neg heq, if_neg (by omega)] at h
      rcases ffsShrink_cases hlt h0 h with ⟨-, herr⟩ | ⟨-, rfl⟩ | ⟨lbn, s₁, bp, hlbn, hballoc, rfl⟩
      · exact absurd rfl herr
      · rfl
      · apply table_truncTail_congr
        · rcases ffsBalloc_state hballoc with ⟨-, rfl⟩ | ⟨-, newb, -, rfl⟩ <;> rfl
        · -- the block with the new last byte is kept
          intro i hi
          have hne : i ≠ lbn := by
            rintro rfl
            rw [truncLbn] at hlbn
            omega
          rcases ffsBalloc_state hballoc with ⟨-, rfl⟩ | ⟨-, newb, -, rfl⟩
          · rfl
          · rw [Fs.ptr_bwrite, Fs.ptr_setPtr, if_neg (fun hc => hne hc.2), Fs.ptr_take]

end Table

/-! ## The iteration that fails -/

/-- The loop of `ffs_write` comes from one iteration to a later one: states, offsets and what is
left to be written. -/
inductive LoopReaches (sha1 : Block → Key) (f : ι) (env : ℕ → Env) :
    Fs ι → ℕ → List UInt8 → Fs ι → ℕ → List UInt8 → Prop
  /-- No iteration in between. -/
  | refl (s : Fs ι) (offset : ℕ) (data : List UInt8) :
    LoopReaches sha1 f env s offset data s offset data
  /-- An iteration that succeeds comes first. -/
  | next {s t u : Fs ι} {offset offset' moved : ℕ} {data rest : List UInt8}
    (h : offset / 4096 < 12) : data ≠ [] →
    ffsWriteIter sha1 s f ⟨offset / 4096, h⟩ (offset % 4096) (data.take (4096 - offset % 4096))
      (env (offset / 4096)) = some (t, none, moved) →
    LoopReaches sha1 f env t (offset + moved) (data.drop moved) u offset' rest →
    LoopReaches sha1 f env s offset data u offset' rest

/-- A call of `ffs_write` of `data` at `offset` in state `s`, and the iteration in which its copy
fails. -/
structure FailedWrite (sha1 : Block → Key) (f : ι) (env : ℕ → Env) (s : Fs ι) (offset : ℕ)
    (data : List UInt8) where
  /-- The state in which the iteration starts. -/
  before : Fs ι
  /-- `uio_offset`. -/
  pos : ℕ
  /-- What is left to be written. -/
  rest : List UInt8
  /-- The iteration is one of the call. -/
  reaches : LoopReaches sha1 f env s offset data before pos rest
  /-- Something is left to be written. -/
  left : rest ≠ []
  /-- The block is direct. -/
  direct : pos / 4096 < 12
  /-- The state after `ffs_balloc`. -/
  allocated : Fs ι
  /-- The buffer. -/
  bp : Buf
  /-- `ffs_balloc` succeeds. -/
  balloc : ffsBalloc before f ⟨pos / 4096, direct⟩
    (pos % 4096 + (rest.take (4096 - pos % 4096)).length)
    ((rest.take (4096 - pos % 4096)).length < 4096) (env (pos / 4096)) = some (.ok (allocated, bp))
  /-- The state in which the iteration ends. -/
  after : Fs ι
  /-- The error of the copy. -/
  err : Errno
  /-- `xfersize`. -/
  moved : ℕ
  /-- The copy fails. -/
  fails : ffsWriteIter sha1 before f ⟨pos / 4096, direct⟩ (pos % 4096)
    (rest.take (4096 - pos % 4096)) (env (pos / 4096)) = some (after, some err, moved)

/-- `ref_count` of a key, 0 without an entry. -/
def refCountOf (table : DedupTable) (key : Key) : UInt16 :=
  match findKey key table with
  | some (_, e) => e.refCount
  | none => 0

/-- The reference counts are the same. -/
def SameRefCounts (s t : Fs ι) : Prop :=
  ∀ key, refCountOf t.table key = refCountOf s.table key

namespace FailedWrite

variable {sha1 : Block → Key} {f : ι} {env : ℕ → Env} {s : Fs ι} {offset : ℕ} {data : List UInt8}
  (w : FailedWrite sha1 f env s offset data)

/-- The block of the iteration. -/
def lbn : Fin 12 := ⟨w.pos / 4096, w.direct⟩

/-- What the iteration is to write. -/
def chunk : List UInt8 := w.rest.take (4096 - w.pos % 4096)

/-- The environment of the iteration. -/
def ienv : Env := env (w.pos / 4096)

/-- The key the iteration looks up. -/
def key : Key := iterKey sha1 w.bp (w.pos % 4096) w.chunk w.ienv

/-- The iteration leaves the deduplication state alone. -/
structure KeepsDedup : Prop where
  /-- The table. -/
  table : w.after.table = w.before.table
  /-- The pointers of the blocks below the size that the file had before the call. -/
  ptr : ∀ i, i.val * 4096 < s.size f → w.after.ptr f i = w.before.ptr f i

/-- The key is new, and the first free slot already has the content that is stored: the same entry,
left there with `DDFS_DEDUP_FREE` among its flags. -/
def Stored : Prop :=
  findKey w.key w.allocated.table = none ∧ ∃ p, findFree w.allocated.table =
    some (p, ⟨w.key, w.ienv.entry.flags ||| ddfsDedupActive, 1, w.allocated.ptr f w.lbn⟩)

/-- The iteration fills no hole below the size that the file had before the call. -/
def FillsNoHole : Prop := w.before.ptr f w.lbn ≠ 0 ∨ s.size f ≤ w.lbn * 4096

/-- The state after `ffs_balloc`, from which the blocks are given up that lie behind the end the
file had before the call. -/
def cutBack : Fs ι :=
  if max (w.before.size f) (w.pos + w.chunk.length) = s.size f then w.allocated
  else truncTail w.allocated f (s.size f)

end FailedWrite

section Loop

variable {sha1 : Block → Key} {f : ι} {env : ℕ → Env} {s t u : Fs ι} {offset offset' : ℕ}
  {data rest : List UInt8}

namespace LoopReaches

/-- The blocks of the files stay in place. -/
theorem placed (h : LoopReaches sha1 f env s offset data u offset' rest) (hs : Placed s) :
    Placed u := by
  induction h with
  | refl => exact hs
  | next hlbn hdata hiter _ ih =>
    obtain ⟨hchunk, hfit⟩ := chunk_fits hdata _
    exact ih (Placed.preserved.iter hchunk hfit hs trivial hiter)

/-- The file does not get shorter. -/
theorem size_le (h : LoopReaches sha1 f env s offset data u offset' rest) :
    s.size f ≤ u.size f := by
  induction h with
  | refl => exact Nat.le_refl _
  | next hlbn hdata hiter _ ih =>
    obtain ⟨hchunk, hfit⟩ := chunk_fits hdata _
    have hsize := size_of_iter hchunk hfit hiter
    omega

/-- The loop goes on from each of its iterations. -/
theorem writeLoop (h : LoopReaches sha1 f env s offset data u offset' rest) {fuel : ℕ}
    (hfuel : data.length ≤ fuel) : ∃ fuel', rest.length ≤ fuel' ∧
      ffsWriteLoop sha1 f env fuel s offset data =
        ffsWriteLoop sha1 f env fuel' u offset' rest := by
  induction h generalizing fuel with
  | refl => exact ⟨fuel, hfuel, rfl⟩
  | @next s t u offset offset' moved data rest hlbn hdata hiter _ ih =>
    have hpos := List.length_pos_iff.mpr hdata
    obtain ⟨hchunk, hfit⟩ := chunk_fits hdata offset
    have hmoved := moved_of_iter hchunk hfit hiter
    have hne : moved ≠ 0 := by
      rw [hmoved]
      exact (List.length_pos_iff.mpr hchunk).ne'
    cases fuel with
    | zero => omega
    | succ fuel =>
      have hrest : (data.drop moved).length ≤ fuel := by
        rw [List.length_drop]
        omega
      obtain ⟨fuel', hfuel', hloop⟩ := ih hrest
      refine ⟨fuel', hfuel', ?_⟩
      rw [← hloop, ffsWriteLoop, if_neg hdata, dif_pos hlbn]
      simp only [hiter, if_neg hne]

end LoopReaches

/-- The copy from user space is the only thing that fails with `EFAULT`. -/
theorem ffsBalloc_error {lbn : Fin 12} {size : ℕ} {clrbuf : Bool} {env : Env} {e : Errno}
    (h : ffsBalloc s f lbn size clrbuf env = some (.error e)) : e = .ENOSPC := by
  simp only [ffsBalloc, ffsAlloc] at h
  split at h
  · split at h <;> cases h
  · split at h
    · split at h <;> cases h
    · cases hnewb : env.newb with
      | none =>
        simp only [hnewb, Option.some.injEq, Except.error.injEq] at h
        exact h.symm
      | some b =>
        cases hfree : s.freeMap b with
        | true => simp [hnewb, hfree] at h
        | false =>
          simp only [hnewb, hfree, Bool.false_eq_true, if_false, Option.some.injEq,
            Except.error.injEq] at h
          exact h.symm

theorem ffsBalloc_of_fault {lbn : Fin 12} {blkoffset n : ℕ} {chunk : List UInt8} {env : Env}
    (h : ffsWriteIter sha1 s f lbn blkoffset chunk env = some (t, some .EFAULT, n)) :
    ∃ s₁ bp, ffsBalloc s f lbn (blkoffset + chunk.length) (chunk.length < 4096) env =
      some (.ok (s₁, bp)) := by
  cases hballoc : ffsBalloc s f lbn (blkoffset + chunk.length) (chunk.length < 4096) env with
  | none =>
    simp only [ffsWriteIter, hballoc] at h
    cases h
  | some r =>
    cases r with
    | error e =>
      simp only [ffsWriteIter, hballoc, Option.some.injEq, Prod.mk.injEq] at h
      rw [ffsBalloc_error hballoc] at h
      cases h.2.1
    | ok r => exact ⟨r.1, r.2, rfl⟩

/-- A call of `ffs_write` whose copy fails has an iteration in which it fails. -/
theorem exists_failedWrite {fuel : ℕ}
    (h : ffsWriteLoop sha1 f env fuel s offset data = some (t, some .EFAULT)) :
    ∃ w : FailedWrite sha1 f env s offset data, w.after = t := by
  induction fuel generalizing s offset data with
  | zero => cases h
  | succ fuel ih =>
    rw [ffsWriteLoop] at h
    by_cases hdata : data = []
    · rw [if_pos hdata] at h
      cases h
    · rw [if_neg hdata] at h
      by_cases hlbn : offset / 4096 < 12
      · rw [dif_pos hlbn] at h
        cases hiter : ffsWriteIter sha1 s f ⟨offset / 4096, hlbn⟩ (offset % 4096)
            (data.take (4096 - offset % 4096)) (env (offset / 4096)) with
        | none => simp [hiter] at h
        | some r =>
          obtain ⟨t', e, n⟩ := r
          cases e with
          | some e =>
            simp only [hiter, Option.some.injEq, Prod.mk.injEq] at h
            obtain ⟨rfl, rfl⟩ := h
            obtain ⟨s₁, bp, hballoc⟩ := ffsBalloc_of_fault hiter
            exact ⟨⟨s, offset, data, .refl _ _ _, hdata, hlbn, s₁, bp, hballoc, t', .EFAULT, n,
              hiter⟩, rfl⟩
          | none =>
            simp only [hiter] at h
            split at h
            · cases h
            · obtain ⟨w, hw⟩ := ih h
              exact ⟨⟨w.before, w.pos, w.rest, .next hlbn hdata hiter w.reaches, w.left, w.direct,
                w.allocated, w.bp, w.balloc, w.after, w.err, w.moved, w.fails⟩, hw⟩
      · rw [dif_neg hlbn] at h
        cases h

end Loop

namespace FailedWrite

variable {sha1 : Block → Key} {f : ι} {env : ℕ → Env} {s : Fs ι} {offset : ℕ} {data : List UInt8}
  (w : FailedWrite sha1 f env s offset data)

/-- The iteration runs the deduplication step and writes the buffer. -/
theorem dedup : ∃ t, dedupBlock (w.allocated.grow f (w.pos + w.chunk.length)) f w.lbn w.key
    w.ienv.entry = some t ∧
      w.after = t.bwrite f w.lbn (iterBuf w.bp (w.pos % 4096) w.chunk w.ienv) := by
  obtain ⟨hchunk, hfit⟩ := chunk_fits w.left w.pos
  have hfails := w.fails
  simp only [ffsWriteIter, w.balloc] at hfails
  obtain ⟨t, hdedup, hafter, -, -⟩ := writeBlock_cases hchunk hfit hfails
  refine ⟨t, ?_, hafter⟩
  rw [Nat.div_add_mod' w.pos 4096] at hdedup
  exact hdedup

/-- What the call returns. -/
theorem ffsWrite_eq (ioflag : IoFlag) (hstart : ioflag.append = true → offset = s.size f) :
    ffsWrite sha1 s f ioflag offset data env =
      if ioflag.unit then (ffsTruncate w.after f (s.size f) (env 12)).map fun r => (r.1, some w.err)
      else some (w.after, some w.err) := by
  have hoffset : (if ioflag.append then s.size f else offset) = offset := by
    split
    · next happend => exact (hstart happend).symm
    · rfl
  obtain ⟨fuel, hfuel, hloop⟩ := w.reaches.writeLoop (Nat.le_refl _)
  have hpos := List.length_pos_iff.mpr w.left
  obtain ⟨fuel, rfl⟩ : ∃ n, fuel = n + 1 := ⟨fuel - 1, by omega⟩
  have hfails : ffsWriteLoop sha1 f env (fuel + 1) w.before w.pos w.rest =
      some (w.after, some w.err) := by
    rw [ffsWriteLoop, if_neg w.left, dif_pos w.direct]
    simp only [w.fails]
  simp only [ffsWrite, hoffset, hloop, hfails]

/-- The table and the pointers `ffs_balloc` leaves behind. -/
theorem allocated_cases :
    (w.before.ptr f w.lbn ≠ 0 ∧ w.allocated = w.before) ∨
      (w.before.ptr f w.lbn = 0 ∧ ∃ newb, w.before.freeMap newb = true ∧
        w.allocated = (w.before.take newb).setPtr f w.lbn newb) :=
  ffsBalloc_state w.balloc

theorem table_allocated : w.allocated.table = w.before.table := by
  rcases w.allocated_cases with ⟨-, h⟩ | ⟨-, newb, -, h⟩
  · rw [h]
  · rw [h, Fs.table_setPtr, Fs.table_take]

/-- The table stays exactly if the entry is there already. -/
theorem table_after_iff : w.after.table = w.before.table ↔ w.Stored := by
  obtain ⟨t, hdedup, hafter⟩ := w.dedup
  have hiff := table_dedupBlock_iff hdedup
  rw [Fs.table_grow, Fs.ptr_grow] at hiff
  rw [hafter, Fs.table_bwrite, ← w.table_allocated, hiff]
  rfl

/-- Then the pointers are those that `ffs_balloc` has left. -/
theorem ptr_after (h : w.Stored) (i : Fin 12) : w.after.ptr f i = w.allocated.ptr f i := by
  obtain ⟨t, hdedup, hafter⟩ := w.dedup
  have hkey : findKey w.key (w.allocated.grow f (w.pos + w.chunk.length)).table = none := by
    rw [Fs.table_grow]
    exact h.1
  rw [hafter, Fs.ptr_bwrite, ptr_dedupBlock_of_new hdedup hkey, Fs.ptr_grow]

theorem size_after : w.after.size f = max (w.before.size f) (w.pos + w.chunk.length) := by
  obtain ⟨t, hdedup, hafter⟩ := w.dedup
  rw [hafter, Fs.size_bwrite, size_of_dedupBlock hdedup, Fs.size_grow, if_pos rfl,
    size_of_ffsBalloc w.balloc]

/-- The iteration leaves the deduplication state alone exactly if its entry is there already, and
it fills no hole. -/
theorem keepsDedup_iff (hs : Placed s) : w.KeepsDedup ↔ w.Stored ∧ w.FillsNoHole := by
  constructor
  · intro hkeeps
    have hstored := w.table_after_iff.mp hkeeps.table
    refine ⟨hstored, ?_⟩
    rcases w.allocated_cases with ⟨hptr, -⟩ | ⟨hptr, newb, hfree, halloc⟩
    · exact Or.inl hptr
    · refine Or.inr (not_lt.mp fun hbelow => ?_)
      have hnew := hkeeps.ptr w.lbn hbelow
      rw [w.ptr_after hstored, halloc, Fs.ptr_setPtr_self, hptr] at hnew
      rw [hnew, (w.reaches.placed hs).boot] at hfree
      cases hfree
  · rintro ⟨hstored, hhole⟩
    refine ⟨w.table_after_iff.mpr hstored, fun i hi => ?_⟩
    rw [w.ptr_after hstored]
    rcases w.allocated_cases with ⟨-, halloc⟩ | ⟨hptr, newb, -, halloc⟩
    · rw [halloc]
    · have hne : i ≠ w.lbn := by
        rintro rfl
        exact absurd (hhole.resolve_left (not_not.mpr hptr)) (not_le.mpr hi)
      rw [halloc, Fs.ptr_setPtr, if_neg (fun hc => hne hc.2), Fs.ptr_take]

theorem placed_after (hs : Placed s) : Placed w.after := by
  obtain ⟨hchunk, hfit⟩ := chunk_fits w.left w.pos
  exact Placed.preserved.iter hchunk hfit (w.reaches.placed hs) trivial w.fails

/-- The table after the truncation to the old size. -/
theorem table_truncate (hs : Placed s) (hstored : w.Stored) {env' : Env} {t : Fs ι}
    (h : ffsTruncate w.after f (s.size f) env' = some (t, none)) :
    t.table = w.cutBack.table := by
  have htable : w.after.table = w.allocated.table := by
    rw [w.table_after_iff.mpr hstored, w.table_allocated]
  have hle : s.size f ≤ w.after.size f := by
    rw [w.size_after]
    exact w.reaches.size_le.trans (Nat.le_max_left _ _)
  rw [table_ffsTruncate (w.placed_after hs).boot hle h, cutBack, w.size_after]
  split
  · exact htable
  · exact table_truncTail_congr htable fun i _ => w.ptr_after hstored i

/-- When the first iteration fails, cutting back gives up nothing but the block that `ffs_balloc`
has allocated. -/
theorem table_cutBack_first (hs : Placed s) (hfirst : w.before = s)
    (hfree : ∀ b, s.freeMap b = true → findBlock b s.table = none) :
    w.cutBack.table = s.table := by
  have htable : w.allocated.table = s.table := by rw [w.table_allocated, hfirst]
  rw [cutBack]
  split
  · exact htable
  · rw [truncTail, Fs.table_setSize, table_foldl_releaseDirect_of_missing]
    · exact htable
    · intro i hi
      simp only [directDown, List.mem_filter, decide_eq_true_eq] at hi
      simp only [Fs.ptr_vtruncbuf, Fs.table_vtruncbuf, htable]
      have hhole : s.ptr f i = 0 := by
        by_contra hne
        have hbelow := hs.below hne
        omega
      rcases w.allocated_cases with ⟨-, halloc⟩ | ⟨-, newb, hnewb, halloc⟩
      · rw [halloc, hfirst]
        exact Or.inl hhole
      · rw [halloc, Fs.ptr_setPtr, Fs.ptr_take, hfirst]
        split
        · rw [hfirst] at hnewb
          exact Or.inr (hfree newb hnewb)
        · exact Or.inl hhole

end FailedWrite

section Runs

variable {sha1 : Block → Key} {f : ι} {env : ℕ → Env} {s : Fs ι} {offset : ℕ} {data : List UInt8}
  {G : Guard ι}

theorem Guard.Reachable.placed (hs : G.Reachable sha1 s) : Placed s :=
  hs.invariant (fun _ h => .of_fresh h) fun _ =>
    Placed.preserved.mono (fun _ _ _ _ _ _ => trivial) fun _ _ _ _ => trivial

/-- An iteration whose copy fails leaves the table and the old pointers alone exactly if what it
stores is in the first free slot already, and it fills no hole. The truncation to the old size then
restores the reference counts of the time before the call exactly if cutting back the file
restores them that the iterations before have left. -/
theorem failed_write_iff (hs : G.Reachable sha1 s) (w : FailedWrite sha1 f env s offset data) :
    (w.KeepsDedup ↔ w.Stored ∧ w.FillsNoHole) ∧
      ∀ t, ffsTruncate w.after f (s.size f) (env 12) = some (t, none) →
        (w.KeepsDedup ∧ SameRefCounts s t ↔
          w.Stored ∧ w.FillsNoHole ∧ SameRefCounts s w.cutBack) := by
  have hkeeps := w.keepsDedup_iff hs.placed
  refine ⟨hkeeps, fun t htrunc => ?_⟩
  have hcounts : w.Stored → (SameRefCounts s t ↔ SameRefCounts s w.cutBack) := by
    intro hstored
    simp only [SameRefCounts, w.table_truncate hs.placed hstored htrunc]
  constructor
  · rintro ⟨hkept, hsame⟩
    obtain ⟨hstored, hhole⟩ := hkeeps.mp hkept
    exact ⟨hstored, hhole, (hcounts hstored).mp hsame⟩
  · rintro ⟨hstored, hhole, hsame⟩
    exact ⟨hkeeps.mpr ⟨hstored, hhole⟩, (hcounts hstored).mpr hsame⟩

end Runs

/-! ## The write of a byte that fails -/

section Byte

variable {sha1 : Block → Key}

/-- An environment in which the copy fails at once. -/
def faultEnv (b : ℤ) : Env := { zeroEnv b with fault := some 0 }

/-- The block stays as it was cleared, and gets an entry. -/
theorem ffsWriteIter_fault : ffsWriteIter sha1 (smallFs Unit) () 0 0 [1] (faultEnv 1) =
    some (oneFile sha1 () 0, some .EFAULT, 1) := by
  have hballoc : ffsBalloc (smallFs Unit) () 0 (0 + [(1 : UInt8)].length)
      ([(1 : UInt8)].length < 4096) (faultEnv 1) =
        some (.ok (((smallFs Unit).take 1).setPtr () 0 1, ⟨1, fun _ => 0, true, false⟩)) :=
    ffsBalloc_hole rfl rfl rfl rfl
  have hmove : vnIoFaultUiomove ⟨1, fun _ => 0, true, false⟩ 0 [1] (some 0) =
      (⟨1, oneByte 0, true, false⟩, some .EFAULT) := by
    have hdata : copyIn (fun _ => 0) 0 ([(1 : UInt8)].take 0) = oneByte 0 := by
      funext i
      by_cases hi : i.val = 0
      · simp [oneByte, copyIn, hi]
      · have hout : [(0 : UInt8)][i.val]? = none :=
          List.getElem?_eq_none_iff.mpr (Nat.pos_of_ne_zero hi)
        simp [oneByte, copyIn, hout]
    rw [← hdata]
    rfl
  have htake : [(1 : UInt8)].take (blksize
      (((((smallFs Unit).take 1).setPtr () 0 1).grow () 1).size ()) (0 : Fin 12).val) = [1] := by
    have hsize : (0 : Fin 12).val * 4096 + 0 + [(1 : UInt8)].length ≤
        ((((smallFs Unit).take 1).setPtr () 0 1).grow () 1).size () := by
      rw [Fs.size_grow, if_pos rfl]
      exact Nat.le_max_right _ _
    exact take_blksize (by simp) (by simp) hsize
  have henv : (faultEnv 1).fault = some 0 ∧ (faultEnv 1).entry = zeroEntry := ⟨rfl, rfl⟩
  have hgrow (s : Fs Unit) : s.grow () ((0 : Fin 12).val * 4096 + 0 + 1) = s.grow () 1 := rfl
  have hfinish : finishBuf ⟨1, oneByte 0, true, false⟩ (some .EFAULT) 1 =
      ⟨1, oneByte 0, true, false⟩ := if_neg (by simp)
  rw [ffsWriteIter, hballoc]
  simp only [writeBlock, List.length_singleton, hgrow, htake, henv, hmove, hashedBytes_zero,
    dedupBlock_smallFs, Option.map_some, hfinish]
  rfl

/-- The write of a byte to an empty file whose copy fails. -/
abbrev FailedByte (sha1 : Block → Key) : Type :=
  FailedWrite sha1 () (fun _ => faultEnv 1) (smallFs Unit) 0 [1]

theorem exists_failedByte (sha1 : Block → Key) : ∃ w : FailedByte sha1,
    w.before = smallFs Unit ∧ w.after = oneFile sha1 () 0 :=
  ⟨⟨smallFs Unit, 0, [1], .refl _ _ _, by simp, by decide, _, _, ffsBalloc_hole rfl rfl rfl rfl, _,
    .EFAULT, 1, ffsWriteIter_fault⟩, rfl, rfl⟩

/-- It leaves an entry behind, which the truncation takes back. -/
theorem failed_write_iff_byte : ∃ w : FailedByte prefixKey, w.before = smallFs Unit ∧
    (w.KeepsDedup ↔ w.Stored ∧ w.FillsNoHole) ∧
    (w.KeepsDedup ∧ SameRefCounts (smallFs Unit) (truncTail w.after () 0) ↔
      w.Stored ∧ w.FillsNoHole ∧ SameRefCounts (smallFs Unit) w.cutBack) := by
  obtain ⟨w, hbefore, hafter⟩ := exists_failedByte prefixKey
  have hs : Guard.Reachable ⟨fun _ _ _ _ _ _ => True, fun _ _ _ _ => True⟩ prefixKey
      (smallFs Unit) := .init fresh_smallFs
  have hsize : 0 < w.after.size () := by
    rw [hafter, size_oneFile]
    exact Nat.one_pos
  obtain ⟨hkeeps, hcounts⟩ := failed_write_iff hs w
  exact ⟨w, hbefore, hkeeps, hcounts _ (ffsTruncate_zero hsize)⟩

/-- The entry of the write of a byte stays until the truncation, and for good without one. -/
theorem failed_write_fails : ¬∀ (sha1 : Block → Key) (s : Fs Unit) (env : ℕ → Env) (offset : ℕ)
    (data : List UInt8), Fresh s → ∀ w : FailedWrite sha1 () env s offset data,
      w.KeepsDedup ∧ ∀ t, ffsTruncate w.after () (s.size ()) (env 12) = some (t, none) →
        SameRefCounts s t := by
  intro hall
  obtain ⟨w, hbefore, hafter⟩ := exists_failedByte prefixKey
  have htable := (hall prefixKey (smallFs Unit) _ 0 [1] fresh_smallFs w).1.table
  rw [hbefore, hafter] at htable
  have hentry : InUse (oneFile prefixKey () 0).table (0, 0) (newEntry (prefixKey (oneByte 0)) 1) :=
    inUse_oneFile.mpr ⟨rfl, rfl⟩
  rw [htable] at hentry
  exact not_inUse_mkfsTable hentry

end Byte

end EmbeddedOs.Ddfs
