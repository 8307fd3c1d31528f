import EmbeddedOs.Ddfs.File

/-!
# What one step does

For each function of the write and truncate paths one lemma says which states it can
reach, with the condition for each; proofs about runs go by these and do not unfold the
functions. The table search enters through `findKey`, `findBlock` and `findFree`.
-/

namespace EmbeddedOs.Ddfs

open Lib Lib.SlotTable

variable {ι : Type} [DecidableEq ι] {s s₁ t : Fs ι} {f : ι} {lbn : Fin 12} {env : Env}

/-! ## `ffs_blkfree` -/

/-- An entry with one reference, as `ddtable_unref` tests it. -/
theorem sub_one_eq_zero {c : UInt16} : c - 1 = 0 ↔ c = 1 := by
  constructor
  · intro h
    have h' := congrArg (· + 1) h
    simpa using h'
  · rintro rfl
    rfl

section Blkfree

omit [DecidableEq ι]

variable {bno : ℤ} {p : ℕ × ℕ} {e : DdfsDedup}

/-- `ffs_blkfree` of a block whose entry has more references counts one less. -/
theorem ffsBlkfree_kept (hfind : findBlock bno s.table = some (p, e)) (hone : e.refCount ≠ 1) :
    ffsBlkfree s bno = s.setTable (setSlot s.table p { e with refCount := e.refCount - 1 }) := by
  obtain ⟨htable, hret⟩ := ddtableUnref_found hfind
  simp only [sub_one_eq_zero] at htable hret
  have hpos : (0 : ℤ) < ((e.refCount - 1).toNat : ℤ) := by
    have hne : (e.refCount - 1).toNat ≠ 0 := by
      intro hz
      exact hone (sub_one_eq_zero.mp (UInt16.toNat_inj.mp hz))
    omega
  rw [if_neg hone] at htable
  simp only [ffsBlkfree, htable, hret, gt_iff_lt, hpos, if_true]

/-- `ffs_blkfree` of a block whose entry has one reference frees both. -/
theorem ffsBlkfree_last (hfind : findBlock bno s.table = some (p, e)) (hone : e.refCount = 1) :
    ffsBlkfree s bno = (s.setTable (setSlot s.table p freeEntry)).free bno := by
  obtain ⟨htable, hret⟩ := ddtableUnref_found hfind
  simp only [sub_one_eq_zero] at htable hret
  rw [if_pos hone] at htable
  simp only [ffsBlkfree, htable, hret, hone]
  rfl

/-- `ffs_blkfree` of a block without an entry frees it. -/
theorem ffsBlkfree_missing (hfind : findBlock bno s.table = none) :
    ffsBlkfree s bno = s.free bno := by
  obtain ⟨htable, hret⟩ := ddtableUnref_missing hfind
  simp only [ffsBlkfree, htable, hret]
  rfl

/-- `ffs_blkfree` counts one reference less, or frees the block: with its entry if that has
one reference, and without one if it has none. -/
theorem ffsBlkfree_cases (s : Fs ι) (bno : ℤ) :
    (∃ p e, findBlock bno s.table = some (p, e) ∧ e.refCount ≠ 1 ∧
      ffsBlkfree s bno =
        s.setTable (setSlot s.table p { e with refCount := e.refCount - 1 })) ∨
    (∃ p e, findBlock bno s.table = some (p, e) ∧ e.refCount = 1 ∧
      ffsBlkfree s bno = (s.setTable (setSlot s.table p freeEntry)).free bno) ∨
    (findBlock bno s.table = none ∧ ffsBlkfree s bno = s.free bno) := by
  cases hfind : findBlock bno s.table with
  | none => exact Or.inr (Or.inr ⟨rfl, ffsBlkfree_missing hfind⟩)
  | some pe =>
    by_cases hone : pe.2.refCount = 1
    · exact Or.inr (Or.inl ⟨_, _, rfl, hone, ffsBlkfree_last hfind hone⟩)
    · exact Or.inl ⟨_, _, rfl, hone, ffsBlkfree_kept hfind hone⟩

@[simp] theorem ptr_ffsBlkfree : (ffsBlkfree s bno).ptr = s.ptr := by
  rcases ffsBlkfree_cases s bno with ⟨_, _, _, _, h⟩ | ⟨_, _, _, _, h⟩ | ⟨_, h⟩ <;> rw [h] <;> rfl

@[simp] theorem size_ffsBlkfree : (ffsBlkfree s bno).size = s.size := by
  rcases ffsBlkfree_cases s bno with ⟨_, _, _, _, h⟩ | ⟨_, _, _, _, h⟩ | ⟨_, h⟩ <;> rw [h] <;> rfl

@[simp] theorem disk_ffsBlkfree : (ffsBlkfree s bno).disk = s.disk := by
  rcases ffsBlkfree_cases s bno with ⟨_, _, _, _, h⟩ | ⟨_, _, _, _, h⟩ | ⟨_, h⟩ <;> rw [h] <;> rfl

@[simp] theorem bufs_ffsBlkfree : (ffsBlkfree s bno).bufs = s.bufs := by
  rcases ffsBlkfree_cases s bno with ⟨_, _, _, _, h⟩ | ⟨_, _, _, _, h⟩ | ⟨_, h⟩ <;> rw [h] <;> rfl

end Blkfree

/-! ## `ffs_balloc_ufs2` -/

omit [DecidableEq ι] in
@[simp] theorem blkno_getblk (s : Fs ι) (b : ℤ) : (s.getblk f lbn b env).blkno = b := by
  simp only [Fs.getblk]
  split <;> rfl

@[simp] theorem blkno_vfsBioClrbuf (bp : Buf) : (vfsBioClrbuf bp).blkno = bp.blkno := by
  simp only [vfsBioClrbuf]
  split <;> rfl

/-- A successful `ffs_balloc` finds the block of the file, and reads it or is about to have
it overwritten; or it fills a hole with a free block, and clears the buffer if asked to. -/
theorem ffsBalloc_cases {size : ℕ} {clrbuf : Bool} {bp : Buf}
    (h : ffsBalloc s f lbn size clrbuf env = some (.ok (s₁, bp))) :
    (s.ptr f lbn ≠ 0 ∧ s₁ = s ∧ (bp = s.breadGb f lbn (s.ptr f lbn) ∨
      clrbuf = false ∧ bp = vfsBioClrbuf (s.getblk f lbn (s.ptr f lbn) env))) ∨
    (s.ptr f lbn = 0 ∧ ∃ newb, s.freeMap newb = true ∧ s₁ = (s.take newb).setPtr f lbn newb ∧
      bp = if clrbuf then vfsBioClrbuf (s.getblk f lbn newb env)
        else s.getblk f lbn newb env) := by
  simp only [ffsBalloc] at h
  by_cases hptr : s.ptr f lbn = 0
  · simp only [hptr, ne_eq, not_true_eq_false, false_and, if_false, ffsAlloc] at h
    cases hnewb : env.newb with
    | none => simp [hnewb] at h
    | some newb =>
      by_cases hfree : s.freeMap newb = true
      · simp only [hnewb, hfree, if_true, Option.some.injEq, Except.ok.injEq, Prod.mk.injEq] at h
        exact Or.inr ⟨hptr, newb, hfree, h.1.symm, h.2.symm⟩
      · simp [hnewb, hfree] at h
  · refine Or.inl ⟨hptr, ?_⟩
    simp only [hptr, ne_eq, not_false_eq_true, true_and, if_true] at h
    split at h
    · cases clrbuf with
      | true =>
        simp only [if_true, Option.some.injEq, Except.ok.injEq, Prod.mk.injEq] at h
        exact ⟨h.1.symm, Or.inl h.2.symm⟩
      | false =>
        simp only [Bool.false_eq_true, if_false, Option.some.injEq, Except.ok.injEq,
          Prod.mk.injEq] at h
        exact ⟨h.1.symm, Or.inr ⟨rfl, h.2.symm⟩⟩
    · split at h
      · simp only [Option.some.injEq, Except.ok.injEq, Prod.mk.injEq] at h
        exact ⟨h.1.symm, Or.inl h.2.symm⟩
      · cases h

/-- The state after a successful `ffs_balloc`. -/
theorem ffsBalloc_state {size : ℕ} {clrbuf : Bool} {bp : Buf}
    (h : ffsBalloc s f lbn size clrbuf env = some (.ok (s₁, bp))) :
    (s.ptr f lbn ≠ 0 ∧ s₁ = s) ∨
    (s.ptr f lbn = 0 ∧ ∃ newb, s.freeMap newb = true ∧ s₁ = (s.take newb).setPtr f lbn newb) := by
  rcases ffsBalloc_cases h with ⟨hptr, rfl, -⟩ | ⟨hptr, newb, hfree, rfl, -⟩
  · exact Or.inl ⟨hptr, rfl⟩
  · exact Or.inr ⟨hptr, newb, hfree, rfl⟩

/-- The buffer of a successful `ffs_balloc` has the number of the file's block. -/
theorem ffsBalloc_blkno {size : ℕ} {clrbuf : Bool} {bp : Buf}
    (h : ffsBalloc s f lbn size clrbuf env = some (.ok (s₁, bp))) :
    bp.blkno = s₁.ptr f lbn := by
  rcases ffsBalloc_cases h with ⟨-, rfl, rfl | ⟨-, rfl⟩⟩ | ⟨-, newb, -, rfl, rfl⟩
  · rfl
  · simp
  · cases clrbuf <;> simp

/-- A successful `ffs_balloc` leaves the file with a block, if block 0 is never free. -/
theorem ffsBalloc_ptr_ne_zero {size : ℕ} {clrbuf : Bool} {bp : Buf}
    (h : ffsBalloc s f lbn size clrbuf env = some (.ok (s₁, bp))) (h0 : s.freeMap 0 = false) :
    s₁.ptr f lbn ≠ 0 := by
  rcases ffsBalloc_state h with ⟨hptr, rfl⟩ | ⟨-, newb, hfree, rfl⟩
  · exact hptr
  · rw [Fs.ptr_setPtr_self]
    rintro rfl
    rw [h0] at hfree
    cases hfree

/-- A block that is there is read, unless its fragment had to grow. -/
theorem ffsBalloc_of_ptr_ne_zero (h : s.ptr f lbn ≠ 0) (env : Env) (size : ℕ) :
    ffsBalloc s f lbn size true env = none ∨
      ffsBalloc s f lbn size true env = some (.ok (s, s.breadGb f lbn (s.ptr f lbn))) := by
  simp only [ffsBalloc, h, ne_eq, not_false_eq_true, true_and, if_true]
  split
  · exact Or.inr rfl
  · split
    · exact Or.inr rfl
    · exact Or.inl rfl

/-- A hole is filled with a free block and a cleared buffer. -/
theorem ffsBalloc_hole {size : ℕ} {b : ℤ} (hptr : s.ptr f lbn = 0) (hbuf : s.bufs f lbn = none)
    (hnewb : env.newb = some b) (hfree : s.freeMap b = true) :
    ffsBalloc s f lbn size true env =
      some (.ok ((s.take b).setPtr f lbn b, ⟨b, fun _ => 0, true, false⟩)) := by
  simp [ffsBalloc, hptr, ffsAlloc, hnewb, hfree, Fs.getblk, hbuf, vfsBioClrbuf]

/-- The last block of a file is read. -/
theorem ffsBalloc_last {size : ℕ} (hptr : s.ptr f lbn ≠ 0) (hlbn : lbn.val * 4096 < s.size f)
    (hsize : size ≤ 4096) :
    ffsBalloc s f lbn size true env = some (.ok (s, s.breadGb f lbn (s.ptr f lbn))) := by
  simp only [ffsBalloc, hptr, ne_eq, not_false_eq_true, true_and, if_true]
  split
  · rfl
  · rw [if_pos]
    simp only [fragroundup]
    omega

/-- Allocating a block changes no size. -/
theorem size_of_ffsBalloc {size : ℕ} {clrbuf : Bool} {bp : Buf}
    (h : ffsBalloc s f lbn size clrbuf env = some (.ok (t, bp))) : t.size = s.size := by
  rcases ffsBalloc_state h with ⟨-, rfl⟩ | ⟨-, newb, -, rfl⟩
  · rfl
  · funext g
    simp

/-! ## `ffs_write` -/

/-- The buffer an iteration writes. -/
def iterBuf (bp : Buf) (blkoffset : ℕ) (chunk : List UInt8) (env : Env) : Buf :=
  let r := vnIoFaultUiomove bp blkoffset chunk env.fault
  finishBuf r.1 r.2 chunk.length

/-- The key an iteration looks up. -/
def iterKey (sha1 : Block → Key) (bp : Buf) (blkoffset : ℕ) (chunk : List UInt8) (env : Env) :
    Key :=
  sha1 (hashedBytes (vnIoFaultUiomove bp blkoffset chunk env.fault).1.data blkoffset env.beyond)

@[simp] theorem blkno_iterBuf (bp : Buf) (blkoffset : ℕ) (chunk : List UInt8) (env : Env) :
    (iterBuf bp blkoffset chunk env).blkno = bp.blkno := by
  have hmove : (vnIoFaultUiomove bp blkoffset chunk env.fault).1.blkno = bp.blkno := by
    simp only [vnIoFaultUiomove]
    split
    · split <;> rfl
    · rfl
  simp only [iterBuf, finishBuf]
  split
  · rw [blkno_vfsBioClrbuf, hmove]
  · exact hmove

/-- A new key gets an entry for the block of the file. -/
theorem dedupBlock_new {hash : Key} {entry : DdfsDedup} {p : ℕ × ℕ} {old : DdfsDedup}
    (hkey : findKey hash s.table = none) (hfree : findFree s.table = some (p, old)) :
    dedupBlock s f lbn hash entry = some (s.setTable (setSlot s.table p
      ⟨hash, entry.flags ||| ddfsDedupActive, 1, s.ptr f lbn⟩)) := by
  obtain ⟨r, hr, htable, hout, -⟩ := ddtableAlloc_new hkey hfree (s.ptr f lbn) entry
  simp [dedupBlock, hr, htable, hout]

/-- A key whose entry is for the block of the file counts one more reference. -/
theorem dedupBlock_same {hash : Key} {entry : DdfsDedup} {p : ℕ × ℕ} {e : DdfsDedup}
    (hkey : findKey hash s.table = some (p, e)) (hsame : e.blockptr = s.ptr f lbn) :
    dedupBlock s f lbn hash entry =
      some (s.setTable (setSlot s.table p { e with refCount := e.refCount + 1 })) := by
  obtain ⟨r, hr, htable, hout, -⟩ := ddtableAlloc_found hkey (s.ptr f lbn) entry
  simp only [dedupBlock, hr, Option.map_some, hout, hsame, ne_eq, not_true_eq_false, if_false,
    htable]

/-- A key whose entry is for another block switches the file to that block. -/
theorem dedupBlock_other {hash : Key} {entry : DdfsDedup} {p : ℕ × ℕ} {e : DdfsDedup}
    (hkey : findKey hash s.table = some (p, e)) (hother : e.blockptr ≠ s.ptr f lbn) :
    dedupBlock s f lbn hash entry = some (ffsBlkfree ((s.setTable (setSlot s.table p
      { e with refCount := e.refCount + 1 })).setPtr f lbn e.blockptr) (s.ptr f lbn)) := by
  obtain ⟨r, hr, htable, hout, -⟩ := ddtableAlloc_found hkey (s.ptr f lbn) entry
  simp only [dedupBlock, hr, Option.map_some, hout, ne_eq, hother, not_false_eq_true, if_true,
    htable]

/-- The outcomes of the deduplication step: a new entry for the block of the file, one more
reference to the entry that already is for this block, or a switch to another block. -/
theorem dedupBlock_cases {hash : Key} {entry : DdfsDedup}
    (h : dedupBlock s f lbn hash entry = some t) :
    (∃ p old, findKey hash s.table = none ∧ findFree s.table = some (p, old) ∧
      t = s.setTable (setSlot s.table p
        ⟨hash, entry.flags ||| ddfsDedupActive, 1, s.ptr f lbn⟩)) ∨
    (∃ p e, findKey hash s.table = some (p, e) ∧ e.blockptr = s.ptr f lbn ∧
      t = s.setTable (setSlot s.table p { e with refCount := e.refCount + 1 })) ∨
    (∃ p e, findKey hash s.table = some (p, e) ∧ e.blockptr ≠ s.ptr f lbn ∧
      t = ffsBlkfree ((s.setTable (setSlot s.table p
        { e with refCount := e.refCount + 1 })).setPtr f lbn e.blockptr) (s.ptr f lbn)) := by
  cases hkey : findKey hash s.table with
  | none =>
    cases hfree : findFree s.table with
    | none =>
      rw [dedupBlock, ddtableAlloc_full hkey hfree] at h
      cases h
    | some pe =>
      rw [dedupBlock_new hkey hfree, Option.some.injEq] at h
      exact Or.inl ⟨_, _, rfl, rfl, h.symm⟩
  | some pe =>
    by_cases hsame : pe.2.blockptr = s.ptr f lbn
    · rw [dedupBlock_same hkey hsame, Option.some.injEq] at h
      exact Or.inr (Or.inl ⟨_, _, rfl, hsame, h.symm⟩)
    · rw [dedupBlock_other hkey hsame, Option.some.injEq] at h
      exact Or.inr (Or.inr ⟨_, _, rfl, hsame, h.symm⟩)

/-- The deduplication step changes no size. -/
theorem size_of_dedupBlock {hash : Key} {entry : DdfsDedup}
    (h : dedupBlock s f lbn hash entry = some t) : t.size = s.size := by
  rcases dedupBlock_cases h with ⟨p, old, -, -, rfl⟩ | ⟨p, e, -, -, rfl⟩ | ⟨p, e, -, -, rfl⟩
  · rfl
  · rfl
  · funext g
    simp

/-- A chunk fits into the block it goes to, so `blksize` does not cut it. -/
theorem take_blksize {size lbn blkoffset : ℕ} {chunk : List UInt8} (hchunk : chunk ≠ [])
    (hlen : blkoffset + chunk.length ≤ 4096)
    (hsize : lbn * 4096 + blkoffset + chunk.length ≤ size) :
    chunk.take (blksize size lbn) = chunk := by
  have hpos := List.length_pos_iff.mpr hchunk
  apply List.take_of_length_le
  have hround : blksize size lbn = 4096 := by
    simp only [blksize]
    split
    · rfl
    · next h =>
      have hend := not_or.mp h
      have hmod : 0 < size % 4096 := by omega
      have hlt : size % 4096 < 4096 := Nat.mod_lt _ (by decide)
      simp only [fragroundup]
      omega
  omega

/-- What follows a successful `UFS_BALLOC` deduplicates the block and writes it. -/
theorem writeBlock_eq {sha1 : Block → Key} {blkoffset : ℕ} {chunk : List UInt8} {bp : Buf}
    (hchunk : chunk ≠ []) (hlen : blkoffset + chunk.length ≤ 4096) :
    writeBlock sha1 s f lbn blkoffset chunk env bp =
      (dedupBlock (s.grow f (lbn.val * 4096 + blkoffset + chunk.length)) f lbn
        (iterKey sha1 bp blkoffset chunk env) env.entry).map fun t =>
          (t.bwrite f lbn (iterBuf bp blkoffset chunk env),
            (vnIoFaultUiomove bp blkoffset chunk env.fault).2, chunk.length) := by
  have htake : chunk.take (blksize
      ((s.grow f (lbn.val * 4096 + blkoffset + chunk.length)).size f) lbn) = chunk := by
    apply take_blksize hchunk hlen
    rw [Fs.size_grow, if_pos rfl]
    exact Nat.le_max_right _ _
  simp only [writeBlock, htake]
  rfl

theorem writeBlock_cases {sha1 : Block → Key} {blkoffset n : ℕ} {chunk : List UInt8} {bp : Buf}
    {err : Option Errno} (hchunk : chunk ≠ []) (hlen : blkoffset + chunk.length ≤ 4096)
    (h : writeBlock sha1 s f lbn blkoffset chunk env bp = some (t, err, n)) :
    ∃ t', dedupBlock (s.grow f (lbn.val * 4096 + blkoffset + chunk.length)) f lbn
        (iterKey sha1 bp blkoffset chunk env) env.entry = some t' ∧
      t = t'.bwrite f lbn (iterBuf bp blkoffset chunk env) ∧
      err = (vnIoFaultUiomove bp blkoffset chunk env.fault).2 ∧ n = chunk.length := by
  rw [writeBlock_eq hchunk hlen] at h
  simp only [Option.map_eq_some_iff, Prod.mk.injEq] at h
  obtain ⟨t', hdedup, rfl, rfl, rfl⟩ := h
  exact ⟨t', hdedup, rfl, rfl, rfl⟩

/-- An iteration fails before it has a block, or deduplicates the block and writes it. -/
theorem ffsWriteIter_cases {sha1 : Block → Key} {blkoffset n : ℕ} {chunk : List UInt8}
    {err : Option Errno} (hchunk : chunk ≠ []) (hlen : blkoffset + chunk.length ≤ 4096)
    (h : ffsWriteIter sha1 s f lbn blkoffset chunk env = some (t, err, n)) :
    (t = s ∧ err ≠ none) ∨
    (∃ s₁ bp t', ffsBalloc s f lbn (blkoffset + chunk.length) (chunk.length < 4096) env =
        some (.ok (s₁, bp)) ∧
      dedupBlock (s₁.grow f (lbn.val * 4096 + blkoffset + chunk.length)) f lbn
        (iterKey sha1 bp blkoffset chunk env) env.entry = some t' ∧
      t = t'.bwrite f lbn (iterBuf bp blkoffset chunk env) ∧
      err = (vnIoFaultUiomove bp blkoffset chunk env.fault).2 ∧ n = chunk.length) := by
  simp only [ffsWriteIter] at h
  split at h
  · cases h
  · simp only [Option.some.injEq, Prod.mk.injEq] at h
    exact Or.inl ⟨h.1.symm, by rw [← h.2.1]; simp⟩
  · next s₁ bp hballoc =>
    obtain ⟨t', hdedup, ht, herr, hn⟩ := writeBlock_cases hchunk hlen h
    exact Or.inr ⟨s₁, bp, t', hballoc, hdedup, ht, herr, hn⟩

/-- Something of what is left goes to the block at the offset, and fits into it. -/
theorem chunk_fits {rest : List UInt8} (hrest : rest ≠ []) (pos : ℕ) :
    rest.take (4096 - pos % 4096) ≠ [] ∧
      pos % 4096 + (rest.take (4096 - pos % 4096)).length ≤ 4096 := by
  have hpos := List.length_pos_iff.mpr hrest
  have hmod : pos % 4096 < 4096 := Nat.mod_lt _ (by decide)
  have hlen : (rest.take (4096 - pos % 4096)).length = min (4096 - pos % 4096) rest.length :=
    List.length_take
  exact ⟨List.length_pos_iff.mp (by omega), by omega⟩

/-- A successful iteration moves all of its bytes. -/
theorem moved_of_iter {sha1 : Block → Key} {blkoffset n : ℕ} {chunk : List UInt8}
    (hchunk : chunk ≠ []) (hlen : blkoffset + chunk.length ≤ 4096)
    (hrun : ffsWriteIter sha1 s f lbn blkoffset chunk env = some (t, none, n)) :
    n = chunk.length := by
  rcases ffsWriteIter_cases hchunk hlen hrun with ⟨-, herr⟩ | ⟨_, _, _, -, -, -, -, hn⟩
  · exact absurd rfl herr
  · exact hn

/-- The size of the file after a successful iteration. -/
theorem size_of_iter {sha1 : Block → Key} {blkoffset n : ℕ} {chunk : List UInt8}
    (hchunk : chunk ≠ []) (hlen : blkoffset + chunk.length ≤ 4096)
    (hrun : ffsWriteIter sha1 s f lbn blkoffset chunk env = some (t, none, n)) :
    t.size f = max (s.size f) (lbn.val * 4096 + blkoffset + chunk.length) := by
  rcases ffsWriteIter_cases hchunk hlen hrun with ⟨-, herr⟩ |
    ⟨s₁, bp, t', hballoc, hdedup, rfl, -, -⟩
  · exact absurd rfl herr
  · rw [Fs.size_bwrite, size_of_dedupBlock hdedup, Fs.size_grow, if_pos rfl,
      size_of_ffsBalloc hballoc]

/-! ## `ffs_truncate` -/

/-- The buffer the last write of `ffs_truncate` to `length` is about. -/
def truncBuf (s : Fs ι) (f : ι) (length : ℕ) (bp : Buf) : Buf :=
  if length < s.size f ∧ length % 4096 ≠ 0 then
    { bp with data := zeroFrom bp.data (length % 4096) } else bp

omit [DecidableEq ι] in
@[simp] theorem blkno_truncBuf (length : ℕ) (bp : Buf) :
    (truncBuf s f length bp).blkno = bp.blkno := by
  simp only [truncBuf]
  split <;> rfl

/-- The block a truncation to `length` may have to write. -/
def truncLbn (length : ℕ) : ℕ := (length - 1) / 4096

/-- The second `ffs_balloc` of `ffsShrink` reads back the buffer that was just written, so
only the last write counts. -/
theorem ffsShrink_eq {length : ℕ} {bp : Buf} (hlt : length < s.size f)
    (hlbn : (length - 1) / 4096 < 12)
    (hwrite : ¬((if length = 0 then -1 else s.ptr f ⟨(length - 1) / 4096, hlbn⟩) ≠ 0 ∧
      length % 4096 = 0))
    (hballoc : ffsBalloc s f ⟨(length - 1) / 4096, hlbn⟩ ((length - 1) % 4096 + 1) true env =
      some (.ok (s₁, bp)))
    (hptr : s₁.ptr f ⟨(length - 1) / 4096, hlbn⟩ ≠ 0) :
    ffsShrink s f length env =
      (ffsBalloc (s₁.bwrite f ⟨(length - 1) / 4096, hlbn⟩ bp) f ⟨(length - 1) / 4096, hlbn⟩
        ((length - 1) % 4096 + 1) true env).map fun _ =>
          (truncTail (s₁.bwrite f ⟨(length - 1) / 4096, hlbn⟩ (truncBuf s f length bp)) f length,
            none) := by
  have hptr' : (s₁.bwrite f ⟨(length - 1) / 4096, hlbn⟩ bp).ptr f ⟨(length - 1) / 4096, hlbn⟩ ≠ 0 :=
    hptr
  rw [ffsShrink, dif_pos hlbn, if_neg hwrite, hballoc]
  rcases ffsBalloc_of_ptr_ne_zero hptr' env ((length - 1) % 4096 + 1) with hnone | hread
  · simp [hnone]
  · have hblk := ffsBalloc_blkno hballoc
    simp only [hread, Option.map_some, Option.some.injEq, Prod.mk.injEq, and_true]
    rw [Fs.breadGb_bwrite, Fs.ptr_bwrite, ← hblk, Fs.bwrite_bwrite, Fs.bwrite_congr]
    · simp only [blkno_truncBuf]
      split <;> rfl
    · simp only [truncBuf, hlt, true_and]
      split <;> rfl
    · split <;> rfl

/-- To shrink a file `ffs_truncate` fails before it has a block, gives up the blocks behind the
new end only, or writes the block with the new last byte first. -/
theorem ffsShrink_cases {length : ℕ} {err : Option Errno} (hlt : length < s.size f)
    (h0 : s.freeMap 0 = false) (h : ffsShrink s f length env = some (t, err)) :
    (t = s ∧ err ≠ none) ∨ (length % 4096 = 0 ∧ t = truncTail s f length) ∨
    (∃ lbn s₁ bp, lbn.val = truncLbn length ∧
      ffsBalloc s f lbn ((length - 1) % 4096 + 1) true env = some (.ok (s₁, bp)) ∧
      t = truncTail (s₁.bwrite f lbn (truncBuf s f length bp)) f length) := by
  by_cases hlbn : (length - 1) / 4096 < 12
  · by_cases hkeep : (if length = 0 then -1 else s.ptr f ⟨(length - 1) / 4096, hlbn⟩) ≠ 0 ∧
        length % 4096 = 0
    · rw [ffsShrink, dif_pos hlbn, if_pos hkeep, Option.some.injEq, Prod.mk.injEq] at h
      exact Or.inr (Or.inl ⟨hkeep.2, h.1.symm⟩)
    · cases hballoc : ffsBalloc s f ⟨(length - 1) / 4096, hlbn⟩ ((length - 1) % 4096 + 1) true
          env with
      | none =>
        rw [ffsShrink, dif_pos hlbn, if_neg hkeep, hballoc] at h
        cases h
      | some r =>
        cases r with
        | error e =>
          rw [ffsShrink, dif_pos hlbn, if_neg hkeep, hballoc] at h
          simp only [Option.some.injEq, Prod.mk.injEq] at h
          exact Or.inl ⟨h.1.symm, by rw [← h.2]; simp⟩
        | ok r =>
          rw [ffsShrink_eq hlt hlbn hkeep hballoc (ffsBalloc_ptr_ne_zero hballoc h0)] at h
          obtain ⟨_, -, ht⟩ := Option.map_eq_some_iff.mp h
          exact Or.inr (Or.inr ⟨_, r.1, r.2, rfl, hballoc, (Prod.mk.inj ht).1.symm⟩)
  · rw [ffsShrink, dif_neg hlbn] at h
    cases h

/-- `ffs_truncate` does nothing, writes the block with the new last byte, or gives up the
blocks behind the new end; to shrink a file it may do both. -/
theorem ffsTruncate_cases {length : ℕ} {err : Option Errno} (h0 : s.freeMap 0 = false)
    (h : ffsTruncate s f length env = some (t, err)) :
    t = s ∨
    (length < s.size f ∧ length % 4096 = 0 ∧ t = truncTail s f length) ∨
    (∃ lbn s₁ bp, s.size f ≠ length ∧ lbn.val = truncLbn length ∧
      ffsBalloc s f lbn ((length - 1) % 4096 + 1) true env = some (.ok (s₁, bp)) ∧
      t = if s.size f < length then (s₁.setSize f length).bwrite f lbn (truncBuf s f length bp)
        else truncTail (s₁.bwrite f lbn (truncBuf s f length bp)) f length) := by
  simp only [ffsTruncate] at h
  split at h
  · simp only [Option.some.injEq, Prod.mk.injEq] at h
    exact Or.inl h.1.symm
  · next hne =>
    split at h
    · next hlt =>
      simp only [ffsExtend] at h
      split at h
      · next hlbn =>
        split at h
        · cases h
        · simp only [Option.some.injEq, Prod.mk.injEq] at h
          exact Or.inl h.1.symm
        · next s₁ bp hballoc =>
          simp only [Option.some.injEq, Prod.mk.injEq] at h
          refine Or.inr (Or.inr ⟨_, s₁, bp, hne, rfl, hballoc, ?_⟩)
          rw [if_pos hlt, truncBuf, if_neg (fun hc => absurd hc.1 (by omega))]
          exact h.1.symm
      · cases h
    · next hge =>
      have hlt : length < s.size f := by omega
      rcases ffsShrink_cases hlt h0 h with ⟨ht, -⟩ | ⟨hmod, ht⟩ | ⟨lbn, s₁, bp, hlbn, hballoc, ht⟩
      · exact Or.inl ht
      · exact Or.inr (Or.inl ⟨hlt, hmod, ht⟩)
      · exact Or.inr (Or.inr ⟨lbn, s₁, bp, hne, hlbn, hballoc, by rw [if_neg hge]; exact ht⟩)

/-- What survives each block that is given up survives all of them. -/
theorem foldl_releaseDirect_rule {I : Fs ι → Prop} {is : List (Fin 12)} (hs : I s)
    (hrelease : ∀ {s i}, I s → s.ptr f i ≠ 0 → I (ffsBlkfree (s.setPtr f i 0) (s.ptr f i))) :
    I (is.foldl (releaseDirect f) s) := by
  induction is generalizing s with
  | nil => exact hs
  | cons i is ih =>
    apply ih
    simp only [releaseDirect]
    split
    · exact hs
    · next hptr => exact hrelease hs hptr

/-- The rule for the end of `ffs_truncate`: what survives the loss of the buffers, each
block that is given up and the new size. -/
theorem truncTail_rule {I : Fs ι → Prop} {length : ℕ} (hs : I s)
    (hbufs : ∀ {s}, I s → I (s.vtruncbuf f ((length + 4095) / 4096)))
    (hrelease : ∀ {s i}, I s → s.ptr f i ≠ 0 → I (ffsBlkfree (s.setPtr f i 0) (s.ptr f i)))
    (hsize : ∀ {s}, I s → I (s.setSize f length)) : I (truncTail s f length) :=
  hsize (foldl_releaseDirect_rule (hbufs hs) hrelease)

@[simp] theorem disk_truncTail (length : ℕ) : (truncTail s f length).disk = s.disk :=
  truncTail_rule (I := fun t => t.disk = s.disk) rfl (fun h => h) (fun h _ => by simpa using h)
    (fun h => h)

theorem bufs_truncTail {g : ι} {i : Fin 12} (length : ℕ) : (truncTail s f length).bufs g i =
    if g = f ∧ (length + 4095) / 4096 ≤ i.val then none else s.bufs g i := by
  rw [truncTail, Fs.bufs_setSize, ← Fs.bufs_vtruncbuf]
  exact foldl_releaseDirect_rule
    (I := fun t => t.bufs g i = (s.vtruncbuf f ((length + 4095) / 4096)).bufs g i) rfl
    (fun h _ => by simpa using h)

theorem size_truncTail {g : ι} (length : ℕ) :
    (truncTail s f length).size g = if g = f then length else s.size g := by
  have hfold : ((directDown ((length + 4095) / 4096)).foldl (releaseDirect f)
      (s.vtruncbuf f ((length + 4095) / 4096))).size g = s.size g :=
    foldl_releaseDirect_rule (I := fun t => t.size g = s.size g) rfl (fun h _ => by simpa using h)
  rw [truncTail, Fs.size_setSize, hfold]

/-- The blocks behind the new end are given up, the others stay. -/
theorem ptr_truncTail {g : ι} {i : Fin 12} (length : ℕ) : (truncTail s f length).ptr g i =
    if g = f ∧ (length + 4095) / 4096 ≤ i.val then 0 else s.ptr g i := by
  have hfold : ∀ (is : List (Fin 12)) (s : Fs ι), (is.foldl (releaseDirect f) s).ptr g i =
      if g = f ∧ i ∈ is then 0 else s.ptr g i := by
    intro is
    induction is with
    | nil => exact fun s => by simp
    | cons j is ih =>
      intro s
      have hrelease : (releaseDirect f s j).ptr g i = if g = f ∧ i = j then 0 else s.ptr g i := by
        simp only [releaseDirect]
        split
        · next hptr =>
          split
          · next hgi => rw [hgi.1, hgi.2, hptr]
          · rfl
        · rw [ptr_ffsBlkfree, Fs.ptr_setPtr]
      rw [List.foldl_cons, ih, hrelease]
      by_cases hg : g = f <;> by_cases hi : i ∈ is <;> simp [hg, hi]
  have hmem : i ∈ directDown ((length + 4095) / 4096) ↔ (length + 4095) / 4096 ≤ i.val := by
    simp [directDown]
  rw [truncTail, Fs.ptr_setSize, hfold, Fs.ptr_vtruncbuf]
  simp only [hmem]

/-- A file is truncated to nothing without writing a block. -/
theorem ffsTruncate_zero (h : 0 < s.size f) :
    ffsTruncate s f 0 env = some (truncTail s f 0, none) := by
  simp [ffsTruncate, ffsShrink, h.ne']

/-- There is nothing to give up at a hole. -/
theorem releaseDirect_hole {i : Fin 12} (h : s.ptr f i = 0) : releaseDirect f s i = s := by
  simp [releaseDirect, h]

/-- There is nothing to give up at holes. -/
theorem foldl_releaseDirect_holes {is : List (Fin 12)} (h : ∀ i ∈ is, s.ptr f i = 0) :
    is.foldl (releaseDirect f) s = s := by
  induction is with
  | nil => rfl
  | cons i is ih =>
    rw [List.foldl_cons, releaseDirect_hole (h i (by simp))]
    exact ih (fun j hj => h j (by simp [hj]))

/-- A file with only its first block gives up this one. -/
theorem truncTail_one_block (h : ∀ i, i ≠ 0 → s.ptr f i = 0) (h0 : s.ptr f 0 ≠ 0) :
    truncTail s f 0 =
      (ffsBlkfree ((s.vtruncbuf f 0).setPtr f 0 0) (s.ptr f 0)).setSize f 0 := by
  have hdown : directDown 0 = [11, 10, 9, 8, 7, 6, 5, 4, 3, 2, 1] ++ [0] := by decide
  have hholes : ∀ i ∈ ([11, 10, 9, 8, 7, 6, 5, 4, 3, 2, 1] : List (Fin 12)),
      (s.vtruncbuf f 0).ptr f i = 0 := by
    intro i hi
    apply h
    rintro rfl
    exact absurd hi (by decide)
  rw [truncTail, show (0 + 4095) / 4096 = 0 from rfl, hdown, List.foldl_append,
    foldl_releaseDirect_holes hholes]
  simp [releaseDirect, h0]

end EmbeddedOs.Ddfs
