import EmbeddedOs.Ddfs.BlockPointers

/-!
# Which buffer is cleared

`ffs_balloc_ufs1` and `ffs_balloc_ufs2` with the buffers they handle, each of whose bytes may be
valid or not. `vfs_bio_clrbuf` and `ufs_getlbns` are not part of this repository and parameters
here, as is what `getblk` finds in the pages of a buffer. The two versions differ in the buffer
they clear once the data block is allocated.

The bytes of indirect blocks are followed as far as validity goes; their entries are the
pointers of `InodeFs`.
-/

namespace EmbeddedOs.Ddfs

/-- A buffer with the bytes of its pages. -/
structure PageBuf where
  /-- `b_data`. -/
  data : Block
  /-- The valid bytes. -/
  valid : Fin 4096 → Bool

/-- `vfs_bio_clrbuf` zeroes the bytes that are not valid, and makes all bytes valid. -/
structure ClearsInvalid (vfsBioClrbuf : PageBuf → PageBuf) : Prop where
  /-- Valid bytes stay. -/
  keeps : ∀ bp o, bp.valid o = true → (vfsBioClrbuf bp).data o = bp.data o
  /-- The others are zeroed. -/
  zeros : ∀ bp o, bp.valid o = false → (vfsBioClrbuf bp).data o = 0
  /-- All are valid. -/
  valid : ∀ bp o, (vfsBioClrbuf bp).valid o = true

/-- A file system, with the buffer that `getblk` returns for each logical block of the file that
is written. Indirect blocks have negative numbers. -/
structure PagedFs (ι : Type) where
  /-- The file system with its pointers. -/
  inode : InodeFs ι
  /-- The buffers. -/
  bufs : ℤ → PageBuf

/-- The buffer that `vfs_bio_clrbuf` gets when a data block behind an indirect one is
allocated. -/
inductive Cleared
  /-- `nbp`, the buffer of the data block. -/
  | nbp
  /-- `bp`, the buffer of the indirect block that points to it. -/
  | bp
  deriving DecidableEq

namespace PagedFs

variable {ι : Type}

/-- `getblk`. -/
def getblk (s : PagedFs ι) (lbn : ℤ) : PageBuf := s.bufs lbn

/-- The state with another buffer. -/
def putBuf (s : PagedFs ι) (lbn : ℤ) (bp : PageBuf) : PagedFs ι :=
  { s with bufs := Function.update s.bufs lbn bp }

/-- `bread` of a block at `nb`: the bytes that are not valid are read. -/
def bread (s : PagedFs ι) (lbn nb : ℤ) : PageBuf where
  data o := if (s.bufs lbn).valid o then (s.bufs lbn).data o else s.inode.fs.disk nb o
  valid _ := true

end PagedFs

section Functions

variable {ι : Type} [DecidableEq ι] (vfsBioClrbuf : PageBuf → PageBuf)

/-- The pointer at `loc` to the indirect block `inLbn`: a missing block is allocated, and its
buffer is cleared; then the block is read. -/
def fetchIndirBuf (s : PagedFs ι) (f : ι) (loc : PtrLoc) (inLbn : ℤ) (env : Env) :
    Except Errno (PagedFs ι) :=
  let nb := s.inode.get f loc
  if nb ≠ 0 then .ok (s.putBuf inLbn (s.bread inLbn nb))
  else
    match ffsAlloc s.inode.fs env with
    | .error e => .error e
    | .ok (fs, newb) =>
      let bp := vfsBioClrbuf (s.getblk inLbn)
      let s : PagedFs ι := { s with inode := ((s.inode.setFs fs).clearIndir inLbn).set f newb loc }
      let s := s.putBuf inLbn bp
      .ok (s.putBuf inLbn (s.bread inLbn newb))

/-- The loop through the indirect blocks. -/
def throughIndirBufs (f : ι) (env : ℕ → Env) :
    ℕ → PagedFs ι → PtrLoc → List (ℤ × ℕ) → Except Errno (PagedFs ι × PtrLoc)
  | _, s, loc, [] => .ok (s, loc)
  | i, s, loc, indir :: indirs =>
    match fetchIndirBuf vfsBioClrbuf s f loc indir.1 (env i) with
    | .error e => .error e
    | .ok s => throughIndirBufs f env (i + 1) s (.entry indir.1 indir.2) indirs

/-- The part that `ffs_balloc_ufs1` and `ffs_balloc_ufs2` share: `clrbuf` is `BA_CLRBUF`, and
`cleared` says which buffer is cleared for a new data block that is not direct. -/
def ffsBallocBufs (cleared : Cleared) (s : PagedFs ι) (f : ι) (lbn : ℕ) (clrbuf : Bool) (env : Env)
    (ienv : IndirEnv) : Except Errno (PagedFs ι × PageBuf) :=
  if h : lbn < 12 then
    let nb := s.inode.fs.ptr f ⟨lbn, h⟩
    if nb ≠ 0 then
      -- fragments are blocks here: the last one is never extended
      let bp := if clrbuf ∨ s.inode.fs.size f < (lbn + 1) * 4096 then s.bread lbn nb
        else vfsBioClrbuf (s.getblk lbn)
      .ok (s.putBuf lbn bp, bp)
    else
      match ffsAlloc s.inode.fs env with
      | .error e => .error e
      | .ok (fs, newb) =>
        let bp := s.getblk lbn
        let bp := if clrbuf then vfsBioClrbuf bp else bp
        let s : PagedFs ι := { s with inode := s.inode.setFs (fs.setPtr f ⟨lbn, h⟩ newb) }
        .ok (s.putBuf lbn bp, bp)
  else
    let indirs := ienv.getlbns lbn
    let envs := fun i => { env with newb := ienv.pick lbn i }
    match throughIndirBufs vfsBioClrbuf f envs 0 s (.word (12 + indirs.ib)) indirs.levels with
    | .error e => .error e
    | .ok (s, loc) =>
      let nb := s.inode.get f loc
      if nb = 0 then
        match ffsAlloc s.inode.fs (envs indirs.levels.length) with
        | .error e => .error e
        | .ok (fs, newb) =>
          let inLbn := (indirs.levels.getLast (List.cons_ne_nil _ _)).1
          let bp := s.getblk inLbn
          let nbp := s.getblk lbn
          let s : PagedFs ι := { s with inode := (s.inode.setFs fs).set f newb loc }
          if clrbuf then
            match cleared with
            | .nbp => .ok (s.putBuf lbn (vfsBioClrbuf nbp), vfsBioClrbuf nbp)
            | .bp => .ok (s.putBuf inLbn (vfsBioClrbuf bp), nbp)
          else .ok (s, nbp)
      else
        let nbp := if clrbuf then s.bread lbn nb else s.getblk lbn
        .ok (s.putBuf lbn nbp, nbp)

/-- `ffs_balloc_ufs1`. -/
def ffsBallocUfs1 (s : PagedFs ι) (f : ι) (lbn : ℕ) (clrbuf : Bool) (env : Env)
    (ienv : IndirEnv) : Except Errno (PagedFs ι × PageBuf) :=
  ffsBallocBufs vfsBioClrbuf .nbp s f lbn clrbuf env ienv

/-- `ffs_balloc_ufs2`. -/
def ffsBallocUfs2 (s : PagedFs ι) (f : ι) (lbn : ℕ) (clrbuf : Bool) (env : Env)
    (ienv : IndirEnv) : Except Errno (PagedFs ι × PageBuf) :=
  ffsBallocBufs vfsBioClrbuf .bp s f lbn clrbuf env ienv

/-- `BA_CLRBUF` of an iteration of `ffs_write` that moves `xfersize` bytes. -/
def baClrbuf (xfersize : ℕ) : Bool := decide (xfersize < 4096)

end Functions

/-! ## Pointers and buffers -/

section Lemmas

variable {ι : Type} [DecidableEq ι] {vfsBioClrbuf : PageBuf → PageBuf} {s t : PagedFs ι} {f : ι}
  {env : Env} {ienv : IndirEnv} {cleared : Cleared} {clrbuf : Bool} {lbn : ℕ} {bp : PageBuf}

/-- The pointers are those of the model without buffers. -/
theorem fetchIndirBuf_inode (s : PagedFs ι) (f : ι) (loc : PtrLoc) (inLbn : ℤ) (env : Env) :
    (fetchIndirBuf vfsBioClrbuf s f loc inLbn env).map PagedFs.inode =
      fetchIndir s.inode f loc inLbn env := by
  unfold fetchIndirBuf fetchIndir
  simp only
  split
  · rfl
  · cases ffsAlloc s.inode.fs env <;> rfl

theorem throughIndirBufs_inode (env : ℕ → Env) (i : ℕ) (s : PagedFs ι) (loc : PtrLoc)
    (indirs : List (ℤ × ℕ)) :
    (throughIndirBufs vfsBioClrbuf f env i s loc indirs).map (fun r => (r.1.inode, r.2)) =
      throughIndirs f env i s.inode loc indirs := by
  induction indirs generalizing i s loc with
  | nil => rfl
  | cons indir indirs ih =>
    have hfetch : (fetchIndirBuf vfsBioClrbuf s f loc indir.1 (env i)).map PagedFs.inode =
        fetchIndir s.inode f loc indir.1 (env i) := fetchIndirBuf_inode s f loc indir.1 (env i)
    rw [throughIndirBufs, throughIndirs, ← hfetch]
    cases fetchIndirBuf vfsBioClrbuf s f loc indir.1 (env i) with
    | error e => rfl
    | ok t => exact ih (i + 1) t _

theorem throughIndirs_of_bufs {env : ℕ → Env} {i : ℕ} {loc loc' : PtrLoc} {indirs : List (ℤ × ℕ)}
    (h : throughIndirBufs vfsBioClrbuf f env i s loc indirs = .ok (t, loc')) :
    throughIndirs f env i s.inode loc indirs = .ok (t.inode, loc') := by
  have hinode : (throughIndirBufs vfsBioClrbuf f env i s loc indirs).map
      (fun r => (r.1.inode, r.2)) = throughIndirs f env i s.inode loc indirs :=
    throughIndirBufs_inode env i s loc indirs
  rw [← hinode, h]
  rfl

/-- The buffers of other blocks than the indirect ones stay. -/
theorem fetchIndirBuf_bufs {loc : PtrLoc} {inLbn b : ℤ} (hb : b ≠ inLbn)
    (h : fetchIndirBuf vfsBioClrbuf s f loc inLbn env = .ok t) : t.bufs b = s.bufs b := by
  simp only [fetchIndirBuf] at h
  split at h
  · rw [Except.ok.injEq] at h
    rw [← h]
    exact Function.update_of_ne hb _ _
  · split at h
    · cases h
    · rw [Except.ok.injEq] at h
      rw [← h]
      exact (Function.update_of_ne hb _ _).trans (Function.update_of_ne hb _ _)

theorem throughIndirBufs_bufs {env : ℕ → Env} {i : ℕ} {loc loc' : PtrLoc} {indirs : List (ℤ × ℕ)}
    {b : ℤ} (hb : ∀ indir ∈ indirs, indir.1 ≠ b)
    (h : throughIndirBufs vfsBioClrbuf f env i s loc indirs = .ok (t, loc')) :
    t.bufs b = s.bufs b := by
  induction indirs generalizing i s loc with
  | nil =>
    simp only [throughIndirBufs, Except.ok.injEq, Prod.mk.injEq] at h
    rw [h.1]
  | cons indir indirs ih =>
    simp only [throughIndirBufs] at h
    split at h
    · cases h
    · next u hfetch =>
      rw [ih (fun indir' hmem => hb indir' (List.mem_cons_of_mem _ hmem)) h]
      exact fetchIndirBuf_bufs (hb indir List.mem_cons_self).symm hfetch

/-! ## Holes -/

/-- The block that the pointers lead to from `loc` on, 0 if one of them is missing. -/
def InodeFs.blockFrom (s : InodeFs ι) (f : ι) : PtrLoc → List (ℤ × ℕ) → ℤ
  | loc, [] => s.get f loc
  | loc, indir :: indirs =>
    if s.get f loc = 0 then 0 else blockFrom s f (.entry indir.1 indir.2) indirs

/-- The disk block of logical block `lbn`, 0 for a hole. -/
def InodeFs.blockAt (s : InodeFs ι) (f : ι) (getlbns : ℕ → Indirs) (lbn : ℕ) : ℤ :=
  if lbn < 12 then s.get f (.word lbn)
  else s.blockFrom f (.word (12 + (getlbns lbn).ib)) (getlbns lbn).levels

/-- A hole stays a hole while the missing indirect blocks are allocated: they are cleared. -/
theorem throughIndirs_hole {env : ℕ → Env} {i : ℕ} {s t : InodeFs ι} {loc loc' : PtrLoc}
    {indirs : List (ℤ × ℕ)} (hdistinct : (indirs.map Prod.fst).Nodup)
    (hloc : ∀ inLbn inOff, loc = .entry inLbn inOff → inLbn ∉ indirs.map Prod.fst)
    (hnone : s.blockFrom f loc indirs = 0)
    (h : throughIndirs f env i s loc indirs = .ok (t, loc')) : t.get f loc' = 0 := by
  induction indirs generalizing i s loc with
  | nil =>
    simp only [throughIndirs, Except.ok.injEq, Prod.mk.injEq] at h
    rw [← h.1, ← h.2]
    exact hnone
  | cons indir indirs ih =>
    rw [List.map_cons, List.nodup_cons] at hdistinct
    have hnext : ∀ inLbn inOff, PtrLoc.entry indir.1 indir.2 = .entry inLbn inOff →
        inLbn ∉ indirs.map Prod.fst := by
      intro inLbn inOff heq
      rw [PtrLoc.entry.injEq] at heq
      rw [← heq.1]
      exact hdistinct.1
    simp only [throughIndirs] at h
    split at h
    · cases h
    · next u hfetch =>
      refine ih hdistinct.2 hnext ?_ h
      simp only [fetchIndir] at hfetch
      split at hfetch
      · next hthere =>
        rw [Except.ok.injEq] at hfetch
        rw [← hfetch]
        simpa only [InodeFs.blockFrom, if_neg hthere] using hnone
      · split at hfetch
        · cases hfetch
        · next fs newb _ =>
          -- the entries of the new indirect block are 0
          rw [Except.ok.injEq] at hfetch
          have hne : PtrLoc.entry indir.1 indir.2 ≠ loc := by
            rintro rfl
            exact hloc indir.1 indir.2 rfl (by rw [List.map_cons]; exact List.mem_cons_self)
          have hzero : u.get f (.entry indir.1 indir.2) = 0 := by
            rw [← hfetch, InodeFs.get_set, if_neg hne]
            simp only [InodeFs.get, InodeFs.clearIndir, Function.update_self]
          cases indirs with
          | nil => exact hzero
          | cons indir' indirs => rw [InodeFs.blockFrom, if_pos hzero]

/-- What `ufs_getlbns` returns: each level has an indirect block of its own, with a negative
number. -/
structure Indirs.Wf (indirs : Indirs) : Prop where
  /-- The numbers are negative. -/
  negative : ∀ indir ∈ indirs.levels, indir.1 < 0
  /-- They are distinct. -/
  distinct : (indirs.levels.map Prod.fst).Nodup

/-- Both versions do to the pointers what the model without buffers does. -/
theorem ffsBallocBufs_inode (hlbn : ¬lbn < 12) :
    (ffsBallocBufs vfsBioClrbuf cleared s f lbn clrbuf env ienv).map (fun r => r.1.inode) =
      (ffsBallocIndir s.inode f lbn clrbuf env ienv).map Prod.fst := by
  let envs := fun i => { env with newb := ienv.pick lbn i }
  let loc : PtrLoc := .word (12 + (ienv.getlbns lbn).ib)
  have hthrough : (throughIndirBufs vfsBioClrbuf f envs 0 s loc (ienv.getlbns lbn).levels).map
      (fun r => (r.1.inode, r.2)) =
        throughIndirs f envs 0 s.inode loc (ienv.getlbns lbn).levels :=
    throughIndirBufs_inode envs 0 s loc _
  simp only [ffsBallocBufs, dif_neg hlbn, ffsBallocIndir]
  rw [← hthrough]
  cases throughIndirBufs vfsBioClrbuf f envs 0 s loc (ienv.getlbns lbn).levels with
  | error e => rfl
  | ok r =>
    obtain ⟨u, loc'⟩ := r
    simp only [Except.map]
    by_cases hnb : u.inode.get f loc' = 0
    · simp only [if_pos hnb]
      cases ffsAlloc u.inode.fs (envs (ienv.getlbns lbn).levels.length) with
      | error e => rfl
      | ok r => cases clrbuf <;> cases cleared <;> rfl
    · simp only [if_neg hnb]
      cases clrbuf <;> rfl

/-- The buffer that is returned for a hole. -/
theorem ffsBallocBufs_hole (hindirs : (ienv.getlbns lbn).Wf)
    (hnone : s.inode.blockAt f ienv.getlbns lbn = 0)
    (hok : ffsBallocBufs vfsBioClrbuf cleared s f lbn true env ienv = .ok (t, bp)) :
    bp = if lbn < 12 ∨ cleared = .nbp then vfsBioClrbuf (s.bufs lbn) else s.bufs lbn := by
  by_cases hlbn : lbn < 12
  · rw [InodeFs.blockAt, if_pos hlbn, InodeFs.get_word _ _ hlbn] at hnone
    rw [if_pos (Or.inl hlbn)]
    simp only [ffsBallocBufs, dif_pos hlbn, hnone, ne_eq, not_true_eq_false, if_false,
      if_true] at hok
    split at hok
    · cases hok
    · simp only [Except.ok.injEq, Prod.mk.injEq] at hok
      exact hok.2.symm
  · rw [InodeFs.blockAt, if_neg hlbn] at hnone
    simp only [ffsBallocBufs, dif_neg hlbn] at hok
    split at hok
    · cases hok
    · next u loc hthrough =>
      have hbufs : u.bufs lbn = s.bufs lbn := by
        refine throughIndirBufs_bufs (fun indir hmem => ?_) hthrough
        have hneg := hindirs.negative indir hmem
        omega
      have hzero : u.inode.get f loc = 0 :=
        throughIndirs_hole hindirs.distinct (fun _ _ heq => by cases heq) hnone
          (throughIndirs_of_bufs hthrough)
      simp only [hzero, if_true] at hok
      split at hok
      · cases hok
      · cases cleared with
        | nbp =>
          simp only [Except.ok.injEq, Prod.mk.injEq] at hok
          rw [if_pos (Or.inr rfl), ← hok.2, ← hbufs]
          rfl
        | bp =>
          simp only [Except.ok.injEq, Prod.mk.injEq] at hok
          rw [if_neg (by simp [hlbn]), ← hok.2, ← hbufs]
          rfl

end Lemmas

/-! ## Blocks that read as zero -/

/-- The bytes that were not valid before are zero. -/
def Zeroed (before after : PageBuf) : Prop := ∀ o, before.valid o = false → after.data o = 0

/-- A new block reads as zero where no valid bytes were, whichever version allocates it for a
transfer of `xfersize` bytes. -/
structure FreshlyZeroed {ι : Type} [DecidableEq ι] (vfsBioClrbuf : PageBuf → PageBuf)
    (s : PagedFs ι) (f : ι) (lbn xfersize : ℕ) (env : Env) (ienv : IndirEnv) : Prop where
  /-- `ffs_balloc_ufs2`. -/
  ufs2 : ∀ t bp, ffsBallocUfs2 vfsBioClrbuf s f lbn (baClrbuf xfersize) env ienv = .ok (t, bp) →
    Zeroed (s.getblk lbn) bp
  /-- `ffs_balloc_ufs1`. -/
  ufs1 : ∀ t bp, ffsBallocUfs1 vfsBioClrbuf s f lbn (baClrbuf xfersize) env ienv = .ok (t, bp) →
    Zeroed (s.getblk lbn) bp

section FreshlyZeroed

variable {ι : Type} [DecidableEq ι] {vfsBioClrbuf : PageBuf → PageBuf} {s t : PagedFs ι} {f : ι}
  {env : Env} {ienv : IndirEnv} {lbn xfersize : ℕ} {bp : PageBuf}

/-- A part of a block that the file does not have yet is about to be written. The buffer that is
returned is zeroed if the block is direct. If it is not, its bytes are what `getblk` has found in
its pages: `ffs_balloc_ufs2` clears the buffer of the indirect block. -/
theorem freshly_zeroed_iff (hclear : ClearsInvalid vfsBioClrbuf) (hindirs : (ienv.getlbns lbn).Wf)
    (hnone : s.inode.blockAt f ienv.getlbns lbn = 0) (hpart : xfersize < 4096)
    (hok : ffsBallocUfs2 vfsBioClrbuf s f lbn (baClrbuf xfersize) env ienv = .ok (t, bp)) :
    FreshlyZeroed vfsBioClrbuf s f lbn xfersize env ienv ↔
      lbn < 12 ∨ Zeroed (s.getblk lbn) (s.getblk lbn) := by
  have hclrbuf : baClrbuf xfersize = true := decide_eq_true hpart
  have hcleared : Zeroed (s.getblk lbn) (vfsBioClrbuf (s.getblk lbn)) := hclear.zeros _
  constructor
  · intro hzeroed
    have hbp := hzeroed.ufs2 t bp hok
    rw [hclrbuf] at hok
    rw [ffsBallocBufs_hole hindirs hnone hok] at hbp
    by_cases hlbn : lbn < 12
    · exact Or.inl hlbn
    · rw [if_neg (by simp [hlbn])] at hbp
      exact Or.inr hbp
  · intro hwhen
    constructor
    · intro t' bp' hok'
      rw [hclrbuf] at hok'
      rw [ffsBallocBufs_hole hindirs hnone hok']
      split
      · exact hcleared
      · next hindir => exact hwhen.resolve_left fun hlbn => hindir (Or.inl hlbn)
    · intro t' bp' hok'
      rw [hclrbuf] at hok'
      rw [ffsBallocBufs_hole hindirs hnone hok', if_pos (Or.inr rfl)]
      exact hcleared

end FreshlyZeroed

/-- A `vfs_bio_clrbuf`. -/
def clearInvalid (bp : PageBuf) : PageBuf where
  data o := if bp.valid o then bp.data o else 0
  valid _ := true

theorem clearsInvalid_clearInvalid : ClearsInvalid clearInvalid where
  keeps _ _ h := if_pos h
  zeros _ _ h := if_neg (by rw [h]; exact Bool.false_ne_true)
  valid _ _ := rfl

/-- An empty file, and pages without a valid byte that are filled with `byte`. -/
def stalePages (byte : UInt8) : PagedFs Unit :=
  ⟨⟨smallFs Unit, fun _ => 0, fun _ _ => 0⟩, fun _ => ⟨fun _ => byte, fun _ => false⟩⟩

theorem singleIndir_wf (lbn : ℕ) : (singleIndir.getlbns lbn).Wf where
  negative := by simp [singleIndir, Indirs.levels]
  distinct := by simp [singleIndir, Indirs.levels]

/-- The first block behind the direct ones, in pages that are zero. -/
theorem freshly_zeroed_iff_indirect :
    FreshlyZeroed clearInvalid (stalePages 0) () 12 1 (zeroEnv 1) singleIndir ↔
      12 < 12 ∨ Zeroed ((stalePages 0).getblk 12) ((stalePages 0).getblk 12) := by
  have hok : ∃ r, ffsBallocUfs2 clearInvalid (stalePages 0) () 12 (baClrbuf 1) (zeroEnv 1)
      singleIndir = .ok r := ⟨_, rfl⟩
  obtain ⟨⟨t, bp⟩, hok⟩ := hok
  exact freshly_zeroed_iff clearsInvalid_clearInvalid (singleIndir_wf 12) rfl (by decide) hok

/-- The write of a byte to the first block behind the direct ones, in pages that are not zero. -/
theorem freshly_zeroed_fails : ¬∀ (s : PagedFs Unit) (lbn xfersize : ℕ) (env : Env)
    (ienv : IndirEnv), (ienv.getlbns lbn).Wf → s.inode.blockAt () ienv.getlbns lbn = 0 →
      xfersize < 4096 → FreshlyZeroed clearInvalid s () lbn xfersize env ienv := by
  intro hall
  have hzeroed := hall (stalePages 1) 12 1 (zeroEnv 1) singleIndir (singleIndir_wf 12) rfl
    (by decide)
  have hok : ∃ t bp, ffsBallocUfs2 clearInvalid (stalePages 1) () 12 (baClrbuf 1) (zeroEnv 1)
      singleIndir = .ok (t, bp) ∧ bp.data 0 = 1 := ⟨_, _, rfl, rfl⟩
  obtain ⟨t, bp, hok, hdata⟩ := hok
  have hzero := hzeroed.ufs2 t bp hok 0 rfl
  rw [hdata] at hzero
  exact absurd hzero (by decide)

end EmbeddedOs.Ddfs
