import EmbeddedOs.Ddfs.BlockPointers

/-!
# Where a buffer is written

`ffs_write` switches the pointer of a block after it has got the buffer, and then writes the
buffer, or queues it, with the `b_blkno` it had. This module compares this number with the pointer
after the iteration, on all ways to write the buffer.
-/

namespace EmbeddedOs.Ddfs

/-- What decides how `ffs_write` writes a buffer. -/
structure WriteFlags where
  /-- `IO_SYNC`. -/
  sync : Bool
  /-- `IO_ASYNC`. -/
  async : Bool
  /-- `IO_DIRECT`. -/
  direct : Bool
  /-- `vm_page_count_severe()` or `buf_dirty_count_severe()`. -/
  severe : Bool
  /-- `MNT_NOCLUSTERW`. -/
  noClusterW : Bool

/-- The functions that write a buffer. -/
inductive WriteWay
  | bwrite
  | bawrite
  | clusterWrite
  | bdwrite
  deriving DecidableEq

/-- Whether the write may still be pending when the function returns. -/
def WriteWay.pending : WriteWay → Bool
  | .bwrite => false
  | _ => true

/-- A buffer on its way to the disk. -/
structure IssuedWrite where
  /-- How it is written. -/
  way : WriteWay
  /-- `dbtofsb` of its `b_blkno`. -/
  blkno : ℤ

section Iterations

variable {ι : Type} [DecidableEq ι] (f : ι) (env : ℕ → Env) (ienv : IndirEnv)
  (sha1 : Block → Key) {it : Iteration (InodeFs ι)}

namespace Iteration

/-- The end of an iteration: how its buffer is written, and where. -/
def issue {σ : Type*} (flags : WriteFlags) (it : Iteration σ) : IssuedWrite :=
  let way :=
    if flags.sync then .bwrite
    else if flags.severe || flags.async then .bawrite
    else if it.chunk.length + it.blkoffset = 4096 then
      if flags.noClusterW then .bawrite else .clusterWrite
    else if flags.direct then .bawrite
    else .bdwrite
  ⟨way, it.written.blkno⟩

/-- The block that the deduplication step hands to `ffs_blkfree`. -/
def handedBack (it : Iteration (InodeFs ι)) : Option ℤ :=
  let oldblk := it.state.get f (.word it.lbn)
  (ddtableAlloc noErr it.state.fs.table (sha1 it.hashed) oldblk (env it.lbn).entry).bind fun r =>
    if r.outBlock ≠ oldblk then some oldblk else none

/-- The iteration writes its buffer to the block that the inode points to, and leaves no write
pending to a block that was handed to `ffs_blkfree`. -/
structure WritesToOwn (it : Iteration (InodeFs ι)) : Prop where
  address : ∃ t, it.finish (inodeOps f env ienv) sha1 = some t ∧
    ∀ flags, (it.issue flags).blkno = t.get f (.word it.lbn)
  pending : ∀ flags, (it.issue flags).way.pending = true →
    it.handedBack f env sha1 ≠ some (it.issue flags).blkno

/-- The key of the iteration is new, and a slot is free for it; or its entry is for the block of
the file. -/
def KeepsBlock (it : Iteration (InodeFs ι)) : Prop :=
  match findKey (sha1 it.hashed) it.state.fs.table with
  | none => findFree it.state.fs.table ≠ none
  | some (_, e) => e.blockptr = it.state.get f (.word it.lbn)

/-- Neither the copy from user space nor `vfs_bio_clrbuf` changes the number of the buffer. -/
theorem blkno_written {σ : Type*} (it : Iteration σ) : it.written.blkno = it.bp.blkno := by
  have hcopied : it.copied.1.blkno = it.bp.blkno := by
    simp only [copied, vnIoFaultUiomove]
    split
    · split <;> rfl
    · rfl
  simp only [written, finishBuf]
  split
  · rw [blkno_vfsBioClrbuf, hcopied]
  · exact hcopied

variable {f env ienv sha1}

/-- The end of an iteration leaves the pointer that the deduplication step has set. -/
theorem get_finish {t : InodeFs ι} (h : it.finish (inodeOps f env ienv) sha1 = some t) :
    ∃ s, dedupWord it.state f it.lbn (sha1 it.hashed) (env it.lbn).entry = some s ∧
      ∀ loc, t.get f loc = s.get f loc := by
  simp only [finish, Option.map_eq_some_iff] at h
  obtain ⟨s, hs, rfl⟩ := h
  refine ⟨s, hs, fun loc => ?_⟩
  simp only [inodeOps]
  split
  · exact InodeFs.get_setFs s f (fun i => rfl) loc
  · exact InodeFs.get_setFs s f (fun i => rfl) loc

end Iteration

variable {f env ienv sha1}

/-- The pointer behind the deduplication step is the one that `ddtable_alloc` returned. -/
theorem get_dedupWord {s t : InodeFs ι} {lbn : ℕ} {hash : Key} {entry : DdfsDedup}
    (h : dedupWord s f lbn hash entry = some t) :
    ∃ r, ddtableAlloc noErr s.fs.table hash (s.get f (.word lbn)) entry = some r ∧
      t.get f (.word lbn) = r.outBlock := by
  simp only [dedupWord, Option.map_eq_some_iff] at h
  obtain ⟨r, hr, rfl⟩ := h
  refine ⟨r, hr, ?_⟩
  split
  · rw [InodeFs.get_setFs _ _ (fun i => by rw [ptr_ffsBlkfree]), InodeFs.get_set_self]
  · next hsame =>
    exact (InodeFs.get_setFs s f (fun i => rfl) _).trans (not_not.mp hsame).symm

omit [DecidableEq ι] in
/-- What `ddtable_alloc` returns for the key of an iteration. -/
theorem keepsBlock_iff (entry : DdfsDedup) : it.KeepsBlock f sha1 ↔
    ∃ r, ddtableAlloc noErr it.state.fs.table (sha1 it.hashed) (it.state.get f (.word it.lbn))
      entry = some r ∧ r.outBlock = it.state.get f (.word it.lbn) := by
  simp only [Iteration.KeepsBlock]
  cases hkey : findKey (sha1 it.hashed) it.state.fs.table with
  | none =>
    cases hfree : findFree it.state.fs.table with
    | none => simp [ddtableAlloc_full hkey hfree]
    | some pe =>
      obtain ⟨r, hr, -, hout, -⟩ :=
        ddtableAlloc_new hkey hfree (it.state.get f (.word it.lbn)) entry
      simp [hr, hout]
  | some pe =>
    obtain ⟨r, hr, -, hout, -⟩ := ddtableAlloc_found hkey (it.state.get f (.word it.lbn)) entry
    simp [hr, hout]

/-- With a buffer for the block of the file, the iteration writes to the block of the file
exactly if the deduplication step keeps it. -/
theorem writesToOwn_iff (hused : it.bp.blkno = it.state.get f (.word it.lbn)) :
    it.WritesToOwn f env ienv sha1 ↔ it.KeepsBlock f sha1 := by
  rw [keepsBlock_iff (env it.lbn).entry]
  have hissue (flags : WriteFlags) : (it.issue flags).blkno = it.state.get f (.word it.lbn) :=
    it.blkno_written.trans hused
  constructor
  · rintro ⟨⟨t, hfinish, haddress⟩, -⟩
    obtain ⟨s, hs, hget⟩ := Iteration.get_finish hfinish
    obtain ⟨r, hr, hout⟩ := get_dedupWord hs
    refine ⟨r, hr, ?_⟩
    have hword := haddress ⟨true, false, false, false, false⟩
    rw [hissue, hget, hout] at hword
    exact hword.symm
  · rintro ⟨r, hr, hout⟩
    have hstep : ∃ s, dedupWord it.state f it.lbn (sha1 it.hashed) (env it.lbn).entry = some s := by
      simp only [dedupWord, hr, Option.map_some]
      exact ⟨_, rfl⟩
    obtain ⟨s, hs⟩ := hstep
    have hfinish : it.finish (inodeOps f env ienv) sha1 =
        some ((inodeOps f env ienv).bwrite s it.lbn it.written) := by
      rw [Iteration.finish, show (inodeOps f env ienv).dedup it.state it.lbn (sha1 it.hashed) =
        some s from hs, Option.map_some]
    refine ⟨⟨_, hfinish, fun flags => ?_⟩, fun flags _ => ?_⟩
    · obtain ⟨s', hs', hget⟩ := Iteration.get_finish hfinish
      obtain ⟨r', hr', hout'⟩ := get_dedupWord hs'
      obtain rfl := Option.some.inj (hr.symm.trans hr')
      rw [hissue, hget, hout', hout]
    · simp [Iteration.handedBack, hr, hout]

end Iterations

section Writes

variable {ι : Type} [DecidableEq ι]

/-- The iterations of a write on direct blocks write to the blocks of the file, exactly if the
deduplication step keeps each of these blocks. -/
theorem writes_to_own_blocks (f : ι) (env : ℕ → Env) (ienv : IndirEnv) (sha1 : Block → Key)
    (maxfilesize : ℕ) (s : InodeFs ι) (ioflag : IoFlag) (offset : ℕ) (data : List UInt8) :
    let its := writeIterations (inodeOps f env ienv) sha1 maxfilesize s ioflag offset data
    (∀ it ∈ its, it.lbn < 12 → it.WritesToOwn f env ienv sha1) ↔
      ∀ it ∈ its, it.lbn < 12 → it.KeepsBlock f sha1 := by
  intro its
  have hused : ∀ it ∈ its, it.bp.blkno = it.state.get f (dataPtr ienv.getlbns it.lbn) :=
    writeIterations_rule (I := fun _ _ => True) (fun _ _ => trivial)
      (fun _ _ hbuf => blkno_firstIteration hbuf) trivial
  refine forall₃_congr fun it hit hlbn => writesToOwn_iff ?_
  rw [hused it hit, dataPtr, if_pos hlbn]

/-- A byte that is in block 1 already is written to another file: the inode gets block 1, and the
buffer goes to block 2, which was handed to `ffs_blkfree`. -/
theorem writes_to_own_blocks_fails : ¬∀ (env : ℕ → Env) (ienv : IndirEnv) (sha1 : Block → Key)
    (maxfilesize : ℕ) (s : InodeFs Bool) (ioflag : IoFlag) (offset : ℕ) (data : List UInt8),
    ∀ it ∈ writeIterations (inodeOps true env ienv) sha1 maxfilesize s ioflag offset data,
      it.lbn < 12 → it.WritesToOwn true env ienv sha1 := by
  intro hall
  let s : InodeFs Bool := ⟨oneFile prefixKey false 1, fun _ => 0, fun _ _ => 0⟩
  have hbuf : ∃ s' bp, GetsBuffer (inodeOps true (fun _ => zeroEnv 2) singleIndir) s 0 [1] s' bp ∧
      s'.fs.table = (oneFile prefixKey false 1).table ∧ bp.blkno = 2 ∧ bp.data = fun _ => 0 := by
    have hhole : ffsBalloc s.fs true 0 1 true (zeroEnv 2) =
        some (.ok ((s.fs.take 2).setPtr true 0 2, ⟨2, fun _ => 0, true, false⟩)) :=
      ffsBalloc_hole (by simp [s, ptr_oneFile]) (by simp [s, bufs_oneFile_of_ne]) rfl
        (by simp [s, freeMap_oneFile])
    have hballoc := congrArg (Option.map (Except.map fun r => (s.setFs r.1, r.2))) hhole
    exact ⟨_, _, hballoc, rfl, rfl, rfl⟩
  obtain ⟨s', bp, hbuf, htable, hblkno, hdata⟩ := hbuf
  let it := firstIteration (inodeOps true (fun _ => zeroEnv 2) singleIndir) 0 [1] s' bp
  have hmem := firstIteration_mem prefixKey ⟨false, false⟩ 0 (by simp) hbuf (Nat.le_refl 1) rfl
  have hused : it.bp.blkno = it.state.get true (.word 0) := blkno_firstIteration hbuf
  have hlbn : it.lbn < 12 := Nat.zero_lt_succ 11
  have hkeeps := (writesToOwn_iff hused).mp (hall _ _ prefixKey _ s _ _ _ it hmem hlbn)
  have hhashed : it.hashed = oneByte 1 := by
    have hchunk : it.chunk = [1] := chunk_firstIteration (by simp)
    have hcopied : it.copied.1.data = copyIn bp.data 0 it.chunk := rfl
    have hzero : it.hashed = hashedBytes it.copied.1.data 0 it.beyond := rfl
    rw [hzero, hashedBytes_zero, hcopied, hchunk, hdata]
    rfl
  have hittable : it.state.fs.table = (oneFile prefixKey false 1).table :=
    (Fs.table_grow _ _ _).trans htable
  simp only [Iteration.KeepsBlock, hhashed, hittable, findKey_oneFile, newEntry] at hkeeps
  -- the entry is for block 1, and the buffer for block 2
  have hone : (1 : ℤ) = 2 := hkeeps.trans (hused.symm.trans hblkno)
  omega

end Writes

end EmbeddedOs.Ddfs
