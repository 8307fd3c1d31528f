import EmbeddedOs.Ddfs.WriteLoop

/-!
# The block pointers of a file

`ffs_balloc_ufs2` for all logical blocks. The pointer of a block is in `di_db`, or in an indirect
block that is reached from `di_ib`; on which way, `ufs_getlbns` says, which is not part of this
repository and a parameter here. The deduplication step of `ffs_write` goes to `di_db[lbn]` for
each `lbn`.
-/

namespace EmbeddedOs.Ddfs

/-- A place that holds a block pointer. -/
inductive PtrLoc
  /-- A 64-bit word of a `ufs2_dinode`, counted from `di_db` on. The first 12 are `di_db`, the
  next three `di_ib`, then come `di_modrev`, `di_freelink` with `di_ckhash`, and `di_spare`. From
  word 18 on it is the memory behind the inode. -/
  | word (i : ℕ)
  /-- An entry of the indirect block `in_lbn`. -/
  | entry (inLbn : ℤ) (inOff : ℕ)
  deriving DecidableEq

/-- What `ufs_getlbns` returns for a block that is not direct. -/
structure Indirs where
  /-- `indirs[0].in_off`, the index in `di_ib`. -/
  ib : Fin 3
  /-- `in_lbn` and `in_off` of `indirs[1]`. -/
  first : ℤ × ℕ
  /-- Those of the further levels. -/
  more : List (ℤ × ℕ)

/-- The levels of indirection. -/
def Indirs.levels (indirs : Indirs) : List (ℤ × ℕ) := indirs.first :: indirs.more

/-- A file system, with the words behind `di_db` and the indirect blocks of the file that is
written. -/
structure InodeFs (ι : Type) where
  /-- The file system as far as its direct blocks go. -/
  fs : Fs ι
  /-- The words behind `di_db`. -/
  behind : ℕ → ℤ
  /-- The indirect blocks of the file, by their logical block numbers. -/
  indir : ℤ → ℕ → ℤ

namespace InodeFs

variable {ι : Type}

/-- Replace the part with the direct blocks. -/
def setFs (s : InodeFs ι) (fs : Fs ι) : InodeFs ι := { s with fs := fs }

/-- Clear the indirect block `inLbn`. -/
def clearIndir (s : InodeFs ι) (inLbn : ℤ) : InodeFs ι :=
  { s with indir := Function.update s.indir inLbn fun _ => 0 }

/-- The pointer at a place. -/
def get (s : InodeFs ι) (f : ι) : PtrLoc → ℤ
  | .word i => if h : i < 12 then s.fs.ptr f ⟨i, h⟩ else s.behind (i - 12)
  | .entry inLbn inOff => s.indir inLbn inOff

variable [DecidableEq ι]

/-- Set the pointer at a place. -/
def set (s : InodeFs ι) (f : ι) (b : ℤ) : PtrLoc → InodeFs ι
  | .word i =>
    if h : i < 12 then s.setFs (s.fs.setPtr f ⟨i, h⟩ b)
    else { s with behind := Function.update s.behind (i - 12) b }
  | .entry inLbn inOff =>
    { s with indir := Function.update s.indir inLbn (Function.update (s.indir inLbn) inOff b) }

section Lemmas

variable (s : InodeFs ι) (f : ι) (b : ℤ) {loc : PtrLoc}

omit [DecidableEq ι] in
@[simp] theorem fs_setFs (fs : Fs ι) : (s.setFs fs).fs = fs := rfl

omit [DecidableEq ι] in
/-- The first words are `di_db`. -/
theorem get_word {i : ℕ} (h : i < 12) : s.get f (.word i) = s.fs.ptr f ⟨i, h⟩ := dif_pos h

omit [DecidableEq ι] in
/-- The pointers depend on those of the file system only. -/
theorem get_setFs {fs : Fs ι} (h : ∀ i, fs.ptr f i = s.fs.ptr f i) (loc : PtrLoc) :
    (s.setFs fs).get f loc = s.get f loc := by
  cases loc with
  | word i =>
    simp only [get, fs_setFs, h]
    rfl
  | entry inLbn inOff => rfl

theorem get_set (loc' : PtrLoc) :
    (s.set f b loc).get f loc' = if loc' = loc then b else s.get f loc' := by
  cases loc with
  | word i =>
    by_cases hi : i < 12
    · simp only [set, dif_pos hi]
      cases loc' with
      | word j =>
        by_cases hj : j < 12
        · simp [get, hj, Fs.ptr_setPtr]
        · have hne : j ≠ i := by omega
          simp [get, hj, hne, setFs]
      | entry inLbn inOff => simp [get, setFs]
    · simp only [set, dif_neg hi]
      cases loc' with
      | word j =>
        by_cases hj : j < 12
        · have hne : j ≠ i := by omega
          simp [get, hj, hne]
        · have heq : j - 12 = i - 12 ↔ j = i := by omega
          simp [get, hj, Function.update_apply, heq]
      | entry inLbn inOff => simp [get]
  | entry inLbn inOff =>
    cases loc' with
    | word j => simp [get, set]
    | entry inLbn' inOff' =>
      by_cases hlbn : inLbn' = inLbn
      · subst hlbn
        simp [get, set, Function.update_apply]
      · simp [get, set, hlbn]

@[simp] theorem get_set_self : (s.set f b loc).get f loc = b := by
  rw [get_set, if_pos rfl]

/-- The pointers of other files stay. -/
theorem ptr_set {g : ι} (hg : g ≠ f) (i : Fin 12) : (s.set f b loc).fs.ptr g i = s.fs.ptr g i := by
  cases loc with
  | word j =>
    by_cases hj : j < 12
    · simp [set, hj, Fs.ptr_setPtr, hg]
    · simp [set, hj]
  | entry inLbn inOff => rfl

end Lemmas

end InodeFs

/-- The place of the pointer to the data block. -/
def dataPtr (getlbns : ℕ → Indirs) (lbn : ℕ) : PtrLoc :=
  if lbn < 12 then .word lbn
  else
    let last := (getlbns lbn).levels.getLast (List.cons_ne_nil _ _)
    .entry last.1 last.2

/-- What the environment decides for the blocks that are not direct. -/
structure IndirEnv where
  /-- `ufs_getlbns`. -/
  getlbns : ℕ → Indirs
  /-- The block `ffs_alloc` picks for a level on the way to block `lbn`, and for the block. -/
  pick : ℕ → ℕ → Option ℤ
  /-- The valid data buffers of the file. -/
  cached : ℕ → Option Block

variable {ι : Type} [DecidableEq ι]

/-- The pointer at `loc` to the indirect block `inLbn`: a missing block is allocated and cleared. -/
def fetchIndir (s : InodeFs ι) (f : ι) (loc : PtrLoc) (inLbn : ℤ) (env : Env) :
    Except Errno (InodeFs ι) :=
  if s.get f loc ≠ 0 then .ok s
  else
    match ffsAlloc s.fs env with
    | .error e => .error e
    | .ok (fs, newb) => .ok (((s.setFs fs).clearIndir inLbn).set f newb loc)

/-- The loop of `ffs_balloc_ufs2` through the indirect blocks: from the place of the pointer to
the first one to the place of the pointer to the data block. -/
def throughIndirs (f : ι) (env : ℕ → Env) :
    ℕ → InodeFs ι → PtrLoc → List (ℤ × ℕ) → Except Errno (InodeFs ι × PtrLoc)
  | _, s, loc, [] => .ok (s, loc)
  | i, s, loc, indir :: indirs =>
    match fetchIndir s f loc indir.1 (env i) with
    | .error e => .error e
    | .ok s => throughIndirs f env (i + 1) s (.entry indir.1 indir.2) indirs

/-- `ffs_balloc_ufs2` of a block that is not direct. A new data block is not cleared:
`vfs_bio_clrbuf` gets the buffer of the indirect block, which is valid. A failure gives back the
blocks allocated before. -/
def ffsBallocIndir (s : InodeFs ι) (f : ι) (lbn : ℕ) (clrbuf : Bool) (env : Env)
    (ienv : IndirEnv) : Except Errno (InodeFs ι × Buf) :=
  let indirs := ienv.getlbns lbn
  let envs := fun i => { env with newb := ienv.pick lbn i }
  match throughIndirs f envs 0 s (.word (12 + indirs.ib)) indirs.levels with
  | .error e => .error e
  | .ok (s, loc) =>
    let getblk := fun nb : ℤ => match ienv.cached lbn with
      | some d => (⟨nb, d, true, true⟩ : Buf)
      | none => ⟨nb, env.junk, false, false⟩
    let nb := s.get f loc
    if nb = 0 then
      match ffsAlloc s.fs (envs indirs.levels.length) with
      | .error e => .error e
      | .ok (fs, newb) => .ok ((s.setFs fs).set f newb loc, getblk newb)
    else if clrbuf then .ok (s, ⟨nb, (ienv.cached lbn).getD (s.fs.disk nb), true, true⟩)
    else .ok (s, getblk nb)

/-- The deduplication step of `ffs_write`, with `di_db[lbn]` for `oldblk`. -/
def dedupWord (s : InodeFs ι) (f : ι) (lbn : ℕ) (hash : Key) (entry : DdfsDedup) :
    Option (InodeFs ι) :=
  let oldblk := s.get f (.word lbn)
  (ddtableAlloc noErr s.fs.table hash oldblk entry).map fun r =>
    let s := s.setFs (s.fs.setTable r.table)
    if r.outBlock ≠ oldblk then
      let s := s.set f r.outBlock (.word lbn)
      s.setFs (ffsBlkfree s.fs oldblk)
    else s

/-- What `ffs_write` calls, for all blocks of a file. -/
def inodeOps (f : ι) (env : ℕ → Env) (ienv : IndirEnv) : WriteOps (InodeFs ι) where
  isize s := s.fs.size f
  grow s n := s.setFs (s.fs.grow f n)
  le_isize_grow s n := (directOps f env).le_isize_grow s.fs n
  balloc s lbn size clrbuf :=
    if h : lbn < 12 then
      (ffsBalloc s.fs f ⟨lbn, h⟩ size clrbuf (env lbn)).map fun r =>
        r.map fun r => (s.setFs r.1, r.2)
    else some (ffsBallocIndir s f lbn clrbuf (env lbn) ienv)
  fault lbn := (env lbn).fault
  beyond lbn := (env lbn).beyond
  dedup s lbn hash := dedupWord s f lbn hash (env lbn).entry
  bwrite s lbn bp :=
    if h : lbn < 12 then s.setFs (s.fs.bwrite f ⟨lbn, h⟩ bp)
    else s.setFs { s.fs with disk := Function.update s.fs.disk bp.blkno bp.data }

/-! ## The pointer `ffs_balloc_ufs2` uses -/

section Balloc

variable {f : ι} {s t : InodeFs ι} {loc : PtrLoc}

/-- The loop through the indirect blocks ends at the entry of the last one. -/
theorem throughIndirs_loc {env : ℕ → Env} {i : ℕ} {indirs : List (ℤ × ℕ)} {loc' : PtrLoc}
    (hne : indirs ≠ []) (h : throughIndirs f env i s loc indirs = .ok (t, loc')) :
    loc' = .entry (indirs.getLast hne).1 (indirs.getLast hne).2 := by
  induction indirs generalizing i s loc with
  | nil => exact absurd rfl hne
  | cons indir indirs ih =>
    simp only [throughIndirs] at h
    split at h
    · cases h
    · cases indirs with
      | nil =>
        simp only [throughIndirs, Except.ok.injEq, Prod.mk.injEq] at h
        exact h.2.symm
      | cons indir' indirs =>
        rw [List.getLast_cons_cons]
        exact ih _ h

/-- The buffer of a block that is not direct has the number at the place of its pointer. -/
theorem ffsBallocIndir_blkno {lbn : ℕ} {clrbuf : Bool} {env : Env} {ienv : IndirEnv} {bp : Buf}
    (hlbn : ¬lbn < 12) (h : ffsBallocIndir s f lbn clrbuf env ienv = .ok (t, bp)) :
    bp.blkno = t.get f (dataPtr ienv.getlbns lbn) := by
  have hgetblk (nb : ℤ) : (match ienv.cached lbn with
      | some d => (⟨nb, d, true, true⟩ : Buf)
      | none => ⟨nb, env.junk, false, false⟩).blkno = nb := by
    cases ienv.cached lbn <;> rfl
  simp only [ffsBallocIndir] at h
  split at h
  · cases h
  · next s' loc hthrough =>
    have hloc : loc = dataPtr ienv.getlbns lbn := by
      rw [throughIndirs_loc (List.cons_ne_nil _ _) hthrough, dataPtr, if_neg hlbn]
      rfl
    subst hloc
    split at h
    · split at h
      · cases h
      · simp only [Except.ok.injEq, Prod.mk.injEq] at h
        rw [← h.1, ← h.2, InodeFs.get_set_self, hgetblk]
    · split at h
      · simp only [Except.ok.injEq, Prod.mk.injEq] at h
        rw [← h.1, ← h.2]
      · simp only [Except.ok.injEq, Prod.mk.injEq] at h
        rw [← h.1, ← h.2, hgetblk]

end Balloc

/-! ## The pointer of the deduplication step -/

section Dedup

variable {f : ι} {s t : InodeFs ι} {lbn : ℕ} {hash : Key} {entry : DdfsDedup}

/-- The deduplication step changes word `lbn` and no other pointer. -/
theorem dedupWord_frame (h : dedupWord s f lbn hash entry = some t) :
    (∀ loc, loc ≠ .word lbn → t.get f loc = s.get f loc) ∧
      ∀ g, g ≠ f → ∀ i, t.fs.ptr g i = s.fs.ptr g i := by
  simp only [dedupWord, Option.map_eq_some_iff] at h
  obtain ⟨r, -, rfl⟩ := h
  split
  · constructor
    · intro loc hloc
      rw [InodeFs.get_setFs _ _ (fun i => by rw [ptr_ffsBlkfree]), InodeFs.get_set, if_neg hloc]
      exact InodeFs.get_setFs s f (fun i => rfl) loc
    · intro g hg i
      rw [InodeFs.fs_setFs, ptr_ffsBlkfree, InodeFs.ptr_set _ _ _ hg]
      rfl
  · exact ⟨fun loc _ => InodeFs.get_setFs _ _ (fun i => rfl) loc, fun g _ i => rfl⟩

/-- On direct blocks it is the step of `dedupBlock`. -/
theorem dedupWord_direct (hlbn : lbn < 12) :
    dedupBlock s.fs f ⟨lbn, hlbn⟩ hash entry =
      (dedupWord s f lbn hash entry).map InodeFs.fs := by
  simp only [dedupBlock, dedupWord, s.get_word f hlbn, Option.map_map]
  congr 1
  funext r
  simp only [Function.comp_apply]
  split
  · simp only [InodeFs.set, dif_pos hlbn]
    rfl
  · rfl

/-- On direct blocks the operations are those of `directOps`. -/
theorem inodeOps_simulates (f : ι) (env : ℕ → Env) (ienv : IndirEnv) :
    (inodeOps f env ienv).Simulates (directOps f env) InodeFs.fs 12 where
  isize s := rfl
  grow s n := rfl
  balloc := by
    intro s lbn size clrbuf hlbn
    simp only [inodeOps, directOps, dif_pos hlbn, Option.map_map]
    cases ffsBalloc s.fs f ⟨lbn, hlbn⟩ size clrbuf (env lbn) with
    | none => rfl
    | some r => cases r <;> rfl
  fault := rfl
  beyond := rfl
  dedup := by
    intro s lbn hash hlbn
    simp only [inodeOps, directOps, dif_pos hlbn, dedupWord_direct]
  bwrite := by
    intro s lbn bp hlbn
    simp only [inodeOps, directOps, dif_pos hlbn]
    rfl

/-- A write that ends inside the direct blocks is one of `ffsWriteLoop`. -/
theorem writeLoop_inodeOps (sha1 : Block → Key) (env : ℕ → Env) (ienv : IndirEnv) (fuel : ℕ)
    (offset : ℕ) (data : List UInt8) (h : offset + data.length ≤ 12 * 4096) :
    (writeLoop (inodeOps f env ienv) sha1 fuel s offset data).2.map (fun r => (r.1.fs, r.2)) =
      ffsWriteLoop sha1 f env fuel s.fs offset data := by
  rw [← writeLoop_directOps, (inodeOps_simulates f env ienv).writeLoop sha1 fuel s offset data h]

end Dedup

/-- The deduplication step of an iteration reads, and may switch, the pointer that
`ffs_balloc_ufs2` has used for the block, and changes no other one. -/
structure Iteration.TouchesOwn (f : ι) (env : ℕ → Env) (ienv : IndirEnv) (sha1 : Block → Key)
    (it : Iteration (InodeFs ι)) : Prop where
  /-- `di_db[lbn]` is the pointer to the data block. -/
  own : PtrLoc.word it.lbn = dataPtr ienv.getlbns it.lbn
  /-- The buffer is for the block that the pointer has. -/
  used : it.bp.blkno = it.state.get f (dataPtr ienv.getlbns it.lbn)
  /-- The other pointers of the file stay. -/
  frame : ∀ t, (inodeOps f env ienv).dedup it.state it.lbn (sha1 it.hashed) = some t →
    ∀ loc, loc ≠ dataPtr ienv.getlbns it.lbn → t.get f loc = it.state.get f loc
  /-- The pointers of other files stay. -/
  others : ∀ t, (inodeOps f env ienv).dedup it.state it.lbn (sha1 it.hashed) = some t →
    ∀ g, g ≠ f → ∀ i, t.fs.ptr g i = it.state.fs.ptr g i

section Touches

variable {f : ι} {env : ℕ → Env} {ienv : IndirEnv} {s s' : InodeFs ι} {offset : ℕ}
  {data : List UInt8} {bp : Buf}

/-- The buffer of an iteration has the number at the place of the pointer to its block. -/
theorem blkno_firstIteration (h : GetsBuffer (inodeOps f env ienv) s offset data s' bp) :
    bp.blkno = (firstIteration (inodeOps f env ienv) offset data s' bp).state.get f
      (dataPtr ienv.getlbns (offset / 4096)) := by
  have hgrow (n : ℕ) (loc : PtrLoc) : (s'.setFs (s'.fs.grow f n)).get f loc = s'.get f loc :=
    InodeFs.get_setFs _ _ (fun i => Fs.ptr_grow _ _ _ _ _) loc
  simp only [firstIteration, WriteOps.iteration, inodeOps, hgrow]
  simp only [GetsBuffer, inodeOps] at h
  by_cases hlbn : offset / 4096 < 12
  · simp only [dif_pos hlbn, Option.map_eq_some_iff] at h
    obtain ⟨r, hballoc, hr⟩ := h
    cases r with
    | error e => cases hr
    | ok r =>
      simp only [Except.map, Except.ok.injEq, Prod.mk.injEq] at hr
      obtain ⟨rfl, rfl⟩ := hr
      rw [ffsBalloc_blkno hballoc, dataPtr, if_pos hlbn, InodeFs.get_word _ _ hlbn]
      rfl
  · simp only [dif_neg hlbn, Option.some.injEq] at h
    exact ffsBallocIndir_blkno hlbn h

/-- The deduplication step of a write touches the pointers of the blocks that are written only,
exactly if it is not reached for a block that is not direct. A write that ends inside the direct
blocks is such a write. -/
theorem touches_own_pointers (f : ι) (env : ℕ → Env) (ienv : IndirEnv) (sha1 : Block → Key)
    (maxfilesize : ℕ) (s : InodeFs ι) (ioflag : IoFlag) (offset : ℕ) (data : List UInt8) :
    let start := if ioflag.append then s.fs.size f else offset
    let its := writeIterations (inodeOps f env ienv) sha1 maxfilesize s ioflag offset data
    ((∀ it ∈ its, it.TouchesOwn f env ienv sha1) ↔ ∀ it ∈ its, it.lbn < 12) ∧
      (start + data.length ≤ 12 * 4096 → ∀ it ∈ its, it.lbn < 12) := by
  intro start its
  have hused : ∀ it ∈ its, it.bp.blkno = it.state.get f (dataPtr ienv.getlbns it.lbn) :=
    writeIterations_rule (I := fun _ _ => True) (fun _ _ => trivial)
      (fun _ _ hbuf => blkno_firstIteration hbuf) trivial
  refine ⟨⟨fun hall it hit => ?_, fun hall it hit => ?_⟩, fun hend => ?_⟩
  · by_contra hlbn
    have hown := (hall it hit).own
    rw [dataPtr, if_neg hlbn] at hown
    cases hown
  · have hdata : dataPtr ienv.getlbns it.lbn = .word it.lbn := if_pos (hall it hit)
    refine ⟨hdata.symm, hused it hit, fun t ht loc hloc => ?_, fun t ht => ?_⟩
    · rw [hdata] at hloc
      exact (dedupWord_frame ht).1 loc hloc
    · exact (dedupWord_frame ht).2
  · refine writeIterations_rule
      (I := fun off rest => off + rest.length = start + data.length) ?_ ?_ rfl
    · intro off rest hrest (hstop : off + rest.length = start + data.length)
      simp only [List.length_take, List.length_drop]
      omega
    · intro s off rest s' bp hrest (hstop : off + rest.length = start + data.length) hbuf
      have hpos := List.length_pos_iff.mpr hrest
      have hlbn : off / 4096 < 12 := by omega
      exact hlbn

/-- `ufs_getlbns` of the blocks behind the direct ones: they are in the indirect block −12, which
`di_ib[0]` points to. -/
def singleIndir : IndirEnv where
  getlbns lbn := ⟨0, (-12, lbn - 12), []⟩
  pick _ i := some (if i = 0 then 1 else 2)
  cached _ := none

/-- The write of a byte to the first block that is not direct: the deduplication step takes the
pointer to the indirect block. -/
theorem touches_own_pointers_fails : ¬∀ (env : ℕ → Env) (ienv : IndirEnv) (sha1 : Block → Key)
    (maxfilesize : ℕ) (s : InodeFs Unit) (ioflag : IoFlag) (offset : ℕ) (data : List UInt8),
    ∀ it ∈ writeIterations (inodeOps () env ienv) sha1 maxfilesize s ioflag offset data,
      it.TouchesOwn () env ienv sha1 := by
  intro hall
  let s : InodeFs Unit := ⟨smallFs Unit, fun _ => 0, fun _ _ => 0⟩
  have hbuf : ∃ s' bp, GetsBuffer (inodeOps () (fun _ => zeroEnv 1) singleIndir) s (12 * 4096) [1]
      s' bp := ⟨_, _, rfl⟩
  obtain ⟨s', bp, hbuf⟩ := hbuf
  have hmem := firstIteration_mem prefixKey ⟨false, false⟩ (12 * 4096) (by simp) hbuf
    (Nat.le_refl _) rfl
  have hfirst := hall _ _ prefixKey _ s _ _ _ _ hmem
  have hown : PtrLoc.word 12 = .entry (-12) 0 := hfirst.own
  cases hown

end Touches

end EmbeddedOs.Ddfs
