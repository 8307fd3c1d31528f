import EmbeddedOs.Ddfs.Steps
import EmbeddedOs.Lib.Machine

/-!
# Runs of writes and truncations

A run starts from a freshly formatted file system whose files are all empty and performs
calls of `ffs_write` and `ffs_truncate`, between which any valid buffer may be dropped. A
`Guard` restricts the iterations of the loop of `ffs_write` and the truncations of a run;
the rules below reduce what holds along guarded runs to one iteration and one truncation.
-/

namespace EmbeddedOs.Ddfs

open Lib Lib.SlotTable

variable {ι : Type} [DecidableEq ι]

/-- A step of a run. -/
inductive FsCall (ι : Type)
  /-- `ffs_write`; iteration on block `lbn` uses the environment `env lbn`. -/
  | write (f : ι) (ioflag : IoFlag) (offset : ℕ) (data : List UInt8) (env : ℕ → Env)
  /-- `ffs_truncate`. -/
  | truncate (f : ι) (length : ℕ) (env : Env)
  /-- The buffer cache drops a buffer. -/
  | evict (f : ι) (lbn : Fin 12)

/-- The file a step is about. -/
def FsCall.file : FsCall ι → ι
  | .write f _ _ _ _ => f
  | .truncate f _ _ => f
  | .evict f _ => f

/-- Perform a step; the result has the error the call returns. -/
def exec (sha1 : Block → Key) (s : Fs ι) : FsCall ι → Option (Fs ι × Option Errno)
  | .write f ioflag offset data env => ffsWrite sha1 s f ioflag offset data env
  | .truncate f length env => ffsTruncate s f length env
  | .evict f lbn => some (s.dropBuf f lbn, none)

/-- A freshly formatted file system whose files are all empty. -/
structure Fresh (s : Fs ι) : Prop where
  /-- The deduplication table is as `mkfs` writes it. -/
  table : ∃ numBlocks, s.table = mkfsTable numBlocks
  /-- No file has a block. -/
  ptr : ∀ f i, s.ptr f i = 0
  /-- Every file is empty. -/
  size : ∀ f, s.size f = 0
  /-- Nothing is cached. -/
  bufs : ∀ f i, s.bufs f i = none
  /-- Block 0, which stands for a hole, is not free. -/
  boot : s.freeMap 0 = false
  /-- Nothing was freed yet. -/
  freed : s.freed = []

/-- The file system as a machine. -/
def fsMachine (ι : Type) [DecidableEq ι] (sha1 : Block → Key) : Machine (Fs ι) (FsCall ι) where
  init := Fresh
  step s call t := ∃ err, exec sha1 s call = some (t, err)

/-! ## Guards -/

/-- A restriction on the steps of a run. -/
structure Guard (ι : Type) where
  /-- What an iteration of `ffs_write` has to meet: state, file, block, offset in the
  block, bytes to write and environment. -/
  iter : Fs ι → ι → Fin 12 → ℕ → List UInt8 → Env → Prop
  /-- What a truncation has to meet: state, file, length and environment. -/
  trunc : Fs ι → ι → ℕ → Env → Prop

namespace Guard

/-- Every iteration of the loop of `ffs_write` meets the guard. -/
def loop (G : Guard ι) (sha1 : Block → Key) (f : ι) (env : ℕ → Env) :
    ℕ → Fs ι → ℕ → List UInt8 → Prop
  | 0, _, _, _ => True
  | fuel + 1, s, offset, data =>
    data ≠ [] → ∀ h : offset / 4096 < 12,
      let chunk := data.take (4096 - offset % 4096)
      G.iter s f ⟨offset / 4096, h⟩ (offset % 4096) chunk (env (offset / 4096)) ∧
        ∀ t moved, ffsWriteIter sha1 s f ⟨offset / 4096, h⟩ (offset % 4096) chunk
            (env (offset / 4096)) = some (t, none, moved) →
          G.loop sha1 f env fuel t (offset + moved) (data.drop moved)

/-- Every iteration and truncation of a step meets the guard. -/
def call (G : Guard ι) (sha1 : Block → Key) (s : Fs ι) : FsCall ι → Prop
  | .write f ioflag offset data env =>
    let offset := if ioflag.append then s.size f else offset
    G.loop sha1 f env data.length s offset data ∧
      ∀ t e, ffsWriteLoop sha1 f env data.length s offset data = some (t, some e) →
        ioflag.unit = true → G.trunc t f (s.size f) (env 12)
  | .truncate f length env => G.trunc s f length env
  | .evict _ _ => True

/-- The states that guarded runs reach. -/
def Reachable (G : Guard ι) (sha1 : Block → Key) (s : Fs ι) : Prop :=
  (fsMachine ι sha1).Reachable (G.call sha1) s

end Guard

/-- An iteration meets `P`: the states before and after `ffs_balloc`, the file, the block,
where and what is written, the environment and the buffer. -/
def IterWrite (P : Fs ι → Fs ι → ι → Fin 12 → ℕ → List UInt8 → Env → Buf → Prop) (s : Fs ι)
    (f : ι) (lbn : Fin 12) (blkoffset : ℕ) (chunk : List UInt8) (env : Env) : Prop :=
  ∀ s₁ bp, ffsBalloc s f lbn (blkoffset + chunk.length) (chunk.length < 4096) env =
    some (.ok (s₁, bp)) → P s s₁ f lbn blkoffset chunk env bp

/-- The write of a block by `ffs_truncate` meets `P`: the states before and after
`ffs_balloc`, the file, the block and the buffer that is written. -/
def TruncWrite (P : Fs ι → Fs ι → ι → Fin 12 → Buf → Prop) (s : Fs ι) (f : ι) (length : ℕ)
    (env : Env) : Prop :=
  ∀ lbn s₁ bp, lbn.val = truncLbn length →
    ffsBalloc s f lbn ((length - 1) % 4096 + 1) true env = some (.ok (s₁, bp)) →
      P s s₁ f lbn (truncBuf s f length bp)

/-- A condition on the deduplication step of every iteration: on the state after
`ffs_balloc`, the number of the file's block and the key that is looked up. -/
def atDedup (sha1 : Block → Key) (P : Fs ι → ℤ → Key → Prop) : Guard ι where
  iter := IterWrite fun _ s₁ f lbn blkoffset chunk env bp =>
    P s₁ (s₁.ptr f lbn) (iterKey sha1 bp blkoffset chunk env)
  trunc _ _ _ _ := True

/-! ## The rules -/

variable {sha1 : Block → Key} {G : Guard ι} {f : ι} {s t : Fs ι} {err : Option Errno}

/-- The rule for the loop of `ffs_write`: `I offset data` holds when `data` is left to be
written at `offset`, and `E` holds after an iteration that fails. -/
theorem ffsWriteLoop_rule {I : ℕ → List UInt8 → Fs ι → Prop} {E : Fs ι → Prop} {env : ℕ → Env}
    (hok : ∀ {s t offset data} (h : offset / 4096 < 12), data ≠ [] → I offset data s →
      let chunk := data.take (4096 - offset % 4096)
      G.iter s f ⟨offset / 4096, h⟩ (offset % 4096) chunk (env (offset / 4096)) →
      ffsWriteIter sha1 s f ⟨offset / 4096, h⟩ (offset % 4096) chunk (env (offset / 4096)) =
        some (t, none, chunk.length) →
      I (offset + chunk.length) (data.drop chunk.length) t)
    (hfail : ∀ {s t e n offset data} (h : offset / 4096 < 12), data ≠ [] → I offset data s →
      let chunk := data.take (4096 - offset % 4096)
      G.iter s f ⟨offset / 4096, h⟩ (offset % 4096) chunk (env (offset / 4096)) →
      ffsWriteIter sha1 s f ⟨offset / 4096, h⟩ (offset % 4096) chunk (env (offset / 4096)) =
        some (t, some e, n) → E t) {fuel offset : ℕ} {data : List UInt8}
    (hfuel : data.length ≤ fuel) (hguard : G.loop sha1 f env fuel s offset data)
    (hs : I offset data s) (h : ffsWriteLoop sha1 f env fuel s offset data = some (t, err)) :
    (err = none ∧ I (offset + data.length) [] t) ∨ (err ≠ none ∧ E t) := by
  induction fuel generalizing s offset data with
  | zero =>
    obtain rfl := List.length_eq_zero_iff.mp (Nat.le_zero.mp hfuel)
    simp only [ffsWriteLoop, Option.some.injEq, Prod.mk.injEq] at h
    obtain ⟨rfl, rfl⟩ := h
    exact Or.inl ⟨rfl, hs⟩
  | succ fuel ih =>
    rw [ffsWriteLoop] at h
    by_cases hdata : data = []
    · rw [if_pos hdata] at h
      simp only [Option.some.injEq, Prod.mk.injEq] at h
      obtain ⟨rfl, rfl⟩ := h
      subst hdata
      exact Or.inl ⟨rfl, hs⟩
    · rw [if_neg hdata] at h
      have hpos := List.length_pos_iff.mpr hdata
      by_cases hlbn : offset / 4096 < 12
      · rw [dif_pos hlbn] at h
        obtain ⟨hiter, hrest⟩ := hguard hdata hlbn
        obtain ⟨hchunk, hfit⟩ := chunk_fits hdata offset
        cases hstep : ffsWriteIter sha1 s f ⟨offset / 4096, hlbn⟩ (offset % 4096)
            (data.take (4096 - offset % 4096)) (env (offset / 4096)) with
        | none => simp [hstep] at h
        | some r =>
          obtain ⟨s', e, n⟩ := r
          cases e with
          | some e =>
            simp only [hstep, Option.some.injEq, Prod.mk.injEq] at h
            obtain ⟨rfl, rfl⟩ := h
            exact Or.inr ⟨by simp, hfail hlbn hdata hs hiter hstep⟩
          | none =>
            obtain rfl := moved_of_iter hchunk hfit hstep
            have hmoved := List.length_pos_iff.mpr hchunk
            have hle := List.length_take_le' (4096 - offset % 4096) data
            simp only [hstep, if_neg hmoved.ne'] at h
            have hnext := ih (by rw [List.length_drop]; omega) (hrest _ _ hstep)
              (hok hlbn hdata hs hiter hstep) h
            rwa [List.length_drop, Nat.add_assoc, Nat.add_sub_cancel' hle] at hnext
      · rw [dif_neg hlbn] at h
        cases h

/-- What a property has to survive to hold along the guarded runs, at file `f`. -/
structure Preserved (sha1 : Block → Key) (G : Guard ι) (f : ι) (I : Fs ι → Prop) : Prop where
  /-- An iteration of the loop of `ffs_write`. -/
  iter : ∀ {s t lbn blkoffset chunk env err n}, chunk ≠ [] → blkoffset + chunk.length ≤ 4096 →
    I s → G.iter s f lbn blkoffset chunk env →
    ffsWriteIter sha1 s f lbn blkoffset chunk env = some (t, err, n) → I t
  /-- A truncation. -/
  trunc : ∀ {s t length env err}, I s → G.trunc s f length env →
    ffsTruncate s f length env = some (t, err) → I t
  /-- The loss of a buffer. -/
  evict : ∀ {s lbn}, I s → I (s.dropBuf f lbn)

namespace Preserved

variable {I : Fs ι → Prop} {G' : Guard ι}

/-- What survives the steps that meet a guard survives those that meet a stronger one. -/
theorem mono (h : Preserved sha1 G f I)
    (hiter : ∀ s lbn blkoffset chunk env, G'.iter s f lbn blkoffset chunk env →
      G.iter s f lbn blkoffset chunk env)
    (htrunc : ∀ s length env, G'.trunc s f length env → G.trunc s f length env) :
    Preserved sha1 G' f I where
  iter hchunk hlen hs hguard := h.iter hchunk hlen hs (hiter _ _ _ _ _ hguard)
  trunc hs hguard := h.trunc hs (htrunc _ _ _ hguard)
  evict := h.evict

/-- A preserved property survives the loop of `ffs_write`. -/
theorem writeLoop (h : Preserved sha1 G f I) {env : ℕ → Env} {offset : ℕ} {data : List UInt8}
    (hguard : G.loop sha1 f env data.length s offset data) (hs : I s)
    (hrun : ffsWriteLoop sha1 f env data.length s offset data = some (t, err)) : I t := by
  have hstep : ∀ {s t offset data e n} (hlbn : offset / 4096 < 12), data ≠ [] → I s →
      let chunk := data.take (4096 - offset % 4096)
      G.iter s f ⟨offset / 4096, hlbn⟩ (offset % 4096) chunk (env (offset / 4096)) →
      ffsWriteIter sha1 s f ⟨offset / 4096, hlbn⟩ (offset % 4096) chunk (env (offset / 4096)) =
        some (t, e, n) → I t := by
    intro s t offset data e n hlbn hdata hs chunk hiter hrun
    obtain ⟨hchunk, hfit⟩ := chunk_fits hdata offset
    exact h.iter hchunk hfit hs hiter hrun
  rcases ffsWriteLoop_rule (I := fun _ _ => I) (E := I) hstep hstep le_rfl hguard hs hrun with
    ⟨-, ht⟩ | ⟨-, ht⟩
  · exact ht
  · exact ht

/-- A preserved property survives a write of its file. -/
theorem write (h : Preserved sha1 G f I) {ioflag : IoFlag} {offset : ℕ} {data : List UInt8}
    {env : ℕ → Env} (hs : I s) (hguard : G.call sha1 s (.write f ioflag offset data env))
    (hrun : ffsWrite sha1 s f ioflag offset data env = some (t, err)) : I t := by
  obtain ⟨hloop, htrunc⟩ := hguard
  simp only [ffsWrite] at hrun
  split at hrun
  · cases hrun
  · next hwrite =>
    simp only [Option.some.injEq, Prod.mk.injEq] at hrun
    rw [← hrun.1]
    exact h.writeLoop hloop hs hwrite
  · next e hwrite =>
    have hloop' := h.writeLoop hloop hs hwrite
    split at hrun
    · next hunit =>
      simp only [Option.map_eq_some_iff, Prod.mk.injEq] at hrun
      obtain ⟨r, hr, rfl, -⟩ := hrun
      exact h.trunc hloop' (htrunc _ _ hwrite hunit) hr
    · simp only [Option.some.injEq, Prod.mk.injEq] at hrun
      rw [← hrun.1]
      exact hloop'

/-- A preserved property survives every step on its file. -/
theorem exec {call : FsCall ι} (h : Preserved sha1 G call.file I) (hs : I s)
    (hguard : G.call sha1 s call) (hrun : Ddfs.exec sha1 s call = some (t, err)) : I t := by
  cases call with
  | write f ioflag offset data env => exact h.write hs hguard hrun
  | truncate f length env => exact h.trunc hs hguard hrun
  | evict f lbn =>
    simp only [Ddfs.exec, Option.some.injEq, Prod.mk.injEq] at hrun
    rw [← hrun.1]
    exact h.evict hs

end Preserved

/-- A property of the freshly formatted file system that is preserved at every file holds
in every state that guarded runs reach. -/
theorem Guard.Reachable.invariant {I : Fs ι → Prop} (hinit : ∀ s, Fresh s → I s)
    (hstep : ∀ f, Preserved sha1 G f I) (h : G.Reachable sha1 s) : I s := by
  apply Machine.Reachable.invariant hinit _ h
  rintro s call t hs hguard ⟨err, hrun⟩
  exact (hstep call.file).exec hs hguard hrun

/-- Where the blocks of the files may be. -/
structure Placed (s : Fs ι) : Prop where
  /-- A block lies before the end of its file. -/
  below : ∀ {g i}, s.ptr g i ≠ 0 → i.val * 4096 < s.size g
  /-- Block 0, which stands for a hole, is not free. -/
  boot : s.freeMap 0 = false

namespace Placed

omit [DecidableEq ι] in
theorem of_fresh (h : Fresh s) : Placed s := ⟨fun hptr => absurd (h.ptr _ _) hptr, h.boot⟩

omit [DecidableEq ι] in
theorem free_boot (h : s.freeMap 0 = false) {b : ℤ} (hb : b ≠ 0) :
    (ffsBlkfree s b).freeMap 0 = false := by
  have hfree : ∀ {s : Fs ι}, s.freeMap 0 = false → (s.free b).freeMap 0 = false := by
    intro s hs
    rw [Fs.freeMap_free, if_neg (Ne.symm hb)]
    exact hs
  rcases ffsBlkfree_cases s b with ⟨_, _, -, -, ht⟩ | ⟨_, _, -, -, ht⟩ | ⟨-, ht⟩
  · rw [ht]
    exact h
  · rw [ht]
    exact hfree h
  · rw [ht]
    exact hfree h

/-- The deduplication step sets no pointer of another block. -/
theorem dedupBlock (h : Placed s) {lbn : Fin 12} {hash : Key} {entry : DdfsDedup}
    (hptr : s.ptr f lbn ≠ 0) (hdedup : Ddfs.dedupBlock s f lbn hash entry = some t) : Placed t := by
  rcases dedupBlock_cases hdedup with ⟨p, old, -, -, rfl⟩ | ⟨p, e, -, -, rfl⟩ | ⟨p, e, -, -, rfl⟩
  · exact ⟨h.below, h.boot⟩
  · exact ⟨h.below, h.boot⟩
  · refine ⟨fun {g i} hne => ?_, free_boot (by exact h.boot) hptr⟩
    simp only [ptr_ffsBlkfree, Fs.ptr_setPtr] at hne
    simp only [size_ffsBlkfree, Fs.size_setPtr, Fs.size_setTable]
    by_cases hgi : g = f ∧ i = lbn
    · rw [hgi.1, hgi.2]
      exact h.below hptr
    · rw [if_neg hgi] at hne
      exact h.below hne

/-- A block that `ffs_balloc` allocates lies before the end of its file once the size is
set. -/
theorem grow (h : Placed s) {env : Env} {lbn : Fin 12} {size n : ℕ} {clrbuf : Bool} {bp : Buf}
    (hballoc : ffsBalloc s f lbn size clrbuf env = some (.ok (t, bp)))
    (hn : lbn.val * 4096 < n) : Placed (t.grow f n) := by
  rcases ffsBalloc_state hballoc with ⟨-, rfl⟩ | ⟨-, newb, -, rfl⟩
  · refine ⟨fun {g i} hne => ?_, by simpa using h.boot⟩
    rw [Fs.ptr_grow] at hne
    have hlt := h.below hne
    rw [Fs.size_grow]
    split
    · next hg =>
      rw [← hg]
      exact hlt.trans_le (Nat.le_max_left _ _)
    · exact hlt
  · refine ⟨fun {g i} hne => ?_, ?_⟩
    · simp only [Fs.ptr_grow, Fs.ptr_setPtr, Fs.ptr_take] at hne
      simp only [Fs.size_grow, Fs.size_setPtr, Fs.size_take]
      by_cases hgi : g = f ∧ i = lbn
      · rw [if_pos hgi.1, hgi.2]
        exact hn.trans_le (Nat.le_max_right _ _)
      · rw [if_neg hgi] at hne
        have hlt := h.below hne
        split
        · next hg =>
          rw [← hg]
          exact hlt.trans_le (Nat.le_max_left _ _)
        · exact hlt
    · rw [Fs.freeMap_grow, Fs.freeMap_setPtr, Fs.freeMap_take]
      split
      · rfl
      · exact h.boot

/-- The end of a truncation leaves the blocks before the new end only. -/
theorem truncTail (h0 : s.freeMap 0 = false)
    (hbelow : ∀ {g i}, g ≠ f → s.ptr g i ≠ 0 → i.val * 4096 < s.size g) (length : ℕ) :
    Placed (Ddfs.truncTail s f length) where
  below {g i} hne := by
    rw [ptr_truncTail] at hne
    rw [size_truncTail]
    by_cases hg : g = f
    · rw [if_pos hg]
      by_cases hi : (length + 4095) / 4096 ≤ i.val
      · rw [if_pos ⟨hg, hi⟩] at hne
        exact absurd rfl hne
      · omega
    · rw [if_neg (fun h => hg h.1)] at hne
      rw [if_neg hg]
      exact hbelow hg hne
  boot := truncTail_rule (I := fun t => t.freeMap 0 = false) h0 (fun h => h)
    (fun h hptr => free_boot (s := Fs.setPtr _ f _ 0) h hptr) (fun h => h)

/-- The blocks of the files stay in place, whatever the steps are. -/
theorem preserved : Preserved sha1 ⟨fun _ _ _ _ _ _ => True, fun _ _ _ _ => True⟩ f
    (Placed (ι := ι)) where
  iter := by
    intro s t lbn blkoffset chunk env err n hchunk hlen hs _ hrun
    have hpos := List.length_pos_iff.mpr hchunk
    rcases ffsWriteIter_cases hchunk hlen hrun with ⟨rfl, -⟩ |
      ⟨s₁, bp, t', hballoc, hdedup, rfl, -, -⟩
    · exact hs
    · have hgrow : Placed (s₁.grow f (lbn.val * 4096 + blkoffset + chunk.length)) :=
        hs.grow hballoc (by omega)
      have ht' := hgrow.dedupBlock (by simpa using ffsBalloc_ptr_ne_zero hballoc hs.boot) hdedup
      exact ⟨ht'.below, ht'.boot⟩
  trunc := by
    intro s t length env err hs _ hrun
    rcases ffsTruncate_cases hs.boot hrun with rfl | ⟨-, -, rfl⟩ |
      ⟨lbn, s₁, bp, hne, hlbn, hballoc, rfl⟩
    · exact hs
    · exact truncTail hs.boot (fun _ h => hs.below h) length
    · -- the size is set after the block, so only the blocks of the other files are in place yet
      have hother : ∀ {g i}, g ≠ f → s₁.ptr g i ≠ 0 → i.val * 4096 < s₁.size g := by
        intro g i hg hptr
        have hgrow := hs.grow (n := lbn.val * 4096 + 1) hballoc (by omega)
        simpa [Fs.size_grow, hg] using hgrow.below (g := g) (i := i) (by simpa using hptr)
      have hboot : s₁.freeMap 0 = false := by
        simpa using (hs.grow (n := lbn.val * 4096 + 1) hballoc (by omega)).boot
      split
      · next hlt =>
        have hgrow := hs.grow (n := length) hballoc (by rw [hlbn, truncLbn]; omega)
        have hsize : s₁.size f = s.size f := by
          rcases ffsBalloc_state hballoc with ⟨-, rfl⟩ | ⟨-, newb, -, rfl⟩
          · rfl
          · simp
        have heq : s₁.grow f length = s₁.setSize f length := if_pos (by omega)
        rw [heq] at hgrow
        exact ⟨hgrow.below, hgrow.boot⟩
      · exact truncTail (s := s₁.bwrite f lbn (truncBuf s f length bp)) hboot hother length
  evict hs := ⟨hs.below, hs.boot⟩

/-- A block that lies before the end of its file never has to grow. -/
theorem ffsBalloc_ne_none (h : Placed s) {env : Env} {lbn : Fin 12} {size : ℕ} {clrbuf : Bool}
    (hsize : size ≤ 4096) : ffsBalloc s f lbn size clrbuf env ≠ none := by
  simp only [ffsBalloc]
  by_cases hptr : s.ptr f lbn = 0
  · simp only [hptr, ne_eq, not_true_eq_false, false_and, if_false]
    split <;> simp
  · have hlt := h.below hptr
    simp only [hptr, ne_eq, not_false_eq_true, true_and, if_true]
    split
    · split <;> simp
    · rw [if_pos]
      · simp
      · simp only [fragroundup]
        omega

end Placed

/-- Perform the steps of a run one after the other. -/
def execAll (sha1 : Block → Key) : Fs ι → List (FsCall ι) → Option (Fs ι)
  | s, [] => some s
  | s, call :: calls =>
    match exec sha1 s call with
    | none => none
    | some (t, _) => execAll sha1 t calls

/-- A run reaches a state. -/
theorem execAll_cons {call : FsCall ι} {calls : List (FsCall ι)}
    (h : exec sha1 s call = some (t, err)) :
    execAll sha1 s (call :: calls) = execAll sha1 t calls := by
  simp only [execAll, h]

/-! ## Writes of less than a block -/

@[simp] theorem hashedBytes_zero (d : Block) (beyond : ℕ → UInt8) : hashedBytes d 0 beyond = d := by
  funext i
  simp [hashedBytes]

/-- An iteration that writes less than a block, and whose copy does not fail. -/
theorem ffsWriteIter_within {data : List UInt8} {blkoffset : ℕ} {s₁ t : Fs ι} {lbn : Fin 12}
    {env : Env} {bp : Buf} (hdata : data ≠ []) (hlen : blkoffset + data.length < 4096)
    (hfault : env.fault = none)
    (hballoc : ffsBalloc s f lbn (blkoffset + data.length) true env = some (.ok (s₁, bp)))
    (hdedup : dedupBlock (s₁.grow f (lbn.val * 4096 + blkoffset + data.length)) f lbn
      (sha1 (hashedBytes (copyIn bp.data blkoffset data) blkoffset env.beyond)) env.entry =
        some t) :
    ffsWriteIter sha1 s f lbn blkoffset data env =
      some (t.bwrite f lbn { bp with data := copyIn bp.data blkoffset data }, none,
        data.length) := by
  have htake : data.take (blksize
      ((s₁.grow f (lbn.val * 4096 + blkoffset + data.length)).size f) lbn) = data := by
    have hfits : blkoffset + data.length ≤ 4096 := Nat.le_of_lt hlen
    apply take_blksize hdata hfits
    rw [Fs.size_grow, if_pos rfl]
    exact Nat.le_max_right _ _
  have hshort : data.length < 4096 := by omega
  simp only [ffsWriteIter, hshort, decide_true, hballoc, writeBlock, htake, vnIoFaultUiomove,
    hfault, hdedup, Option.map_some, finishBuf, ne_eq, not_true_eq_false, false_and, if_false]

/-- A write of less than a block is one iteration. -/
theorem ffsWrite_within {data : List UInt8} {blkoffset : ℕ} {t : Fs ι} {lbn : Fin 12}
    {env : ℕ → Env} (hdata : data ≠ []) (hlen : blkoffset + data.length < 4096)
    (hiter : ffsWriteIter sha1 s f lbn blkoffset data (env lbn) = some (t, none, data.length)) :
    ffsWrite sha1 s f ⟨false, false⟩ (lbn.val * 4096 + blkoffset) data env = some (t, none) := by
  have hpos := List.length_pos_iff.mpr hdata
  have hdiv : (lbn.val * 4096 + blkoffset) / 4096 = lbn.val := by omega
  have hmod : (lbn.val * 4096 + blkoffset) % 4096 = blkoffset := by omega
  have htake : data.take (4096 - blkoffset) = data := List.take_of_length_le (by omega)
  obtain ⟨n, hn⟩ := Nat.exists_eq_add_of_lt hpos
  rw [Nat.zero_add] at hn
  simp only [ffsWrite, Bool.false_eq_true, if_false, hn, ffsWriteLoop, hdata, hdiv, hmod, lbn.isLt,
    dif_pos, htake, Fin.eta, hiter]
  cases n with
  | zero => simp [ffsWriteLoop]
  | succ n => simp [ffsWriteLoop, hn]

/-- The same from the start of the block on. -/
theorem ffsWrite_single {data : List UInt8} {s₁ t : Fs ι} (lbn : Fin 12) (env : ℕ → Env) (bp : Buf)
    (hdata : data ≠ []) (hlen : data.length < 4096) (hfault : (env lbn).fault = none)
    (hballoc : ffsBalloc s f lbn data.length true (env lbn) = some (.ok (s₁, bp)))
    (hdedup : dedupBlock (s₁.grow f (lbn.val * 4096 + data.length)) f lbn
      (sha1 (copyIn bp.data 0 data)) (env lbn).entry = some t) :
    ffsWrite sha1 s f ⟨false, false⟩ (lbn.val * 4096) data env =
      some (t.bwrite f lbn { bp with data := copyIn bp.data 0 data }, none) := by
  have hlen' : 0 + data.length < 4096 := by rwa [Nat.zero_add]
  have hballoc' : ffsBalloc s f lbn (0 + data.length) true (env lbn) = some (.ok (s₁, bp)) := by
    rwa [Nat.zero_add]
  have hdedup' : dedupBlock (s₁.grow f (lbn.val * 4096 + 0 + data.length)) f lbn
      (sha1 (hashedBytes (copyIn bp.data 0 data) 0 (env lbn).beyond)) (env lbn).entry = some t := by
    rwa [Nat.add_zero, hashedBytes_zero]
  have hrun := ffsWrite_within hdata hlen'
    (ffsWriteIter_within hdata hlen' hfault hballoc' hdedup')
  rwa [Nat.add_zero] at hrun

/-! ## Writes of one byte

The runs that show where the code goes wrong write single bytes to the start of files. -/

/-- A block with one byte, and zeros behind it. -/
def oneByte (n : UInt8) : Block := copyIn (fun _ => 0) 0 [n]

theorem copyIn_oneByte (n m : UInt8) : copyIn (oneByte n) 0 [m] = oneByte m := by
  funext i
  by_cases hi : i.val = 0
  · simp [oneByte, copyIn, hi]
  · have hout : [m][i.val]? = none ∧ [n][i.val]? = none := by
      constructor <;> exact List.getElem?_eq_none_iff.mpr (Nat.pos_of_ne_zero hi)
    simp [oneByte, copyIn, hout.1, hout.2]

/-- An environment in which all memory holds zeros and no copy fails. -/
def zeroEnv (b : ℤ) : Env := ⟨some b, fun _ => 0, fun _ => 0, none, zeroEntry⟩

/-- A stand-in for the hash function that tells blocks apart by their first bytes. -/
def prefixKey (d : Block) : Key := Vector.ofFn fun i => d (i.castLE (by decide))

/-- A write of one byte to the start of a file, for which block `b` is picked. -/
def writeByte (f : ι) (n : UInt8) (b : ℤ) : FsCall ι :=
  .write f ⟨false, false⟩ 0 [n] fun _ => zeroEnv b

/-- A first byte goes to the block that was picked. -/
theorem exec_writeByte_hole {n : UInt8} {b : ℤ} (hptr : s.ptr f 0 = 0) (hbuf : s.bufs f 0 = none)
    (hfree : s.freeMap b = true)
    (hdedup : dedupBlock (((s.take b).setPtr f 0 b).grow f 1) f 0 (sha1 (oneByte n)) zeroEntry =
      some t) :
    exec sha1 s (writeByte f n b) = some (t.bwrite f 0 ⟨b, oneByte n, true, false⟩, none) :=
  ffsWrite_single 0 (fun _ => zeroEnv b) ⟨b, fun _ => 0, true, false⟩ (by simp) (by simp) rfl
    (ffsBalloc_hole hptr hbuf rfl hfree) hdedup

/-- A further byte overwrites the first one in place. -/
theorem exec_writeByte_over {n m : UInt8} {b : ℤ} (hptr : s.ptr f 0 ≠ 0) (hsize : 0 < s.size f)
    (hbuf : s.bufs f 0 = some (oneByte n))
    (hdedup : dedupBlock (s.grow f 1) f 0 (sha1 (oneByte m)) zeroEntry = some t) :
    exec sha1 s (writeByte f m b) =
      some (t.bwrite f 0 ⟨s.ptr f 0, oneByte m, true, true⟩, none) := by
  have hread : s.breadGb f 0 (s.ptr f 0) = ⟨s.ptr f 0, oneByte n, true, true⟩ := by
    simp [Fs.breadGb, hbuf]
  rw [← copyIn_oneByte n m] at hdedup ⊢
  have hballoc : ffsBalloc s f 0 [m].length true (zeroEnv b) =
      some (.ok (s, ⟨s.ptr f 0, oneByte n, true, true⟩)) := by
    rw [← hread]
    exact ffsBalloc_last hptr (by simpa using hsize) (by simp)
  have hdata : [m] ≠ [] := by simp
  have hlen : [m].length < 4096 := by simp
  exact ffsWrite_single 0 (fun _ => zeroEnv b) ⟨s.ptr f 0, oneByte n, true, true⟩ hdata hlen rfl
    hballoc hdedup

/-- A freshly formatted file system with one table block, where blocks 1 and 2 are free. -/
def smallFs (ι : Type) : Fs ι where
  table := mkfsTable 1
  inodes _ := ⟨0, fun _ => 0⟩
  freeMap b := b == 1 || b == 2
  disk _ _ := 0
  bufs _ _ := none
  freed := []

omit [DecidableEq ι] in
theorem fresh_smallFs : Fresh (smallFs ι) :=
  ⟨⟨1, rfl⟩, fun _ _ => rfl, fun _ => rfl, fun _ _ => rfl, rfl, rfl⟩

/-- `smallFs` after a first byte was written to file `f`. -/
def oneFile (sha1 : Block → Key) (f : ι) (n : UInt8) : Fs ι :=
  (((((smallFs ι).take 1).setPtr f 0 1).grow f 1).setTable
    (setSlot (mkfsTable 1) (0, 0) (newEntry (sha1 (oneByte n)) 1))).bwrite f 0
      ⟨1, oneByte n, true, false⟩

section OneFile

variable {n m : UInt8}

@[simp] theorem table_oneFile : (oneFile sha1 f n).table =
    setSlot (mkfsTable 1) (0, 0) (newEntry (sha1 (oneByte n)) 1) := by
  simp [oneFile]

theorem ptr_oneFile {g : ι} {i : Fin 12} :
    (oneFile sha1 f n).ptr g i = if g = f ∧ i = 0 then 1 else 0 := by
  simp [oneFile, Fs.ptr_setPtr]
  rfl

@[simp] theorem ptr_oneFile_self : (oneFile sha1 f n).ptr f 0 = 1 := by
  simp [ptr_oneFile]

@[simp] theorem size_oneFile : (oneFile sha1 f n).size f = 1 := by
  have h : (smallFs ι).size f = 0 := rfl
  simp [oneFile, Fs.size_grow, h]

theorem size_oneFile_of_ne {g : ι} (hg : g ≠ f) : (oneFile sha1 f n).size g = 0 := by
  simp [oneFile, Fs.size_grow, hg]
  rfl

@[simp] theorem disk_oneFile : (oneFile sha1 f n).disk 1 = oneByte n := by
  simp [oneFile, Fs.disk_bwrite]

@[simp] theorem bufs_oneFile : (oneFile sha1 f n).bufs f 0 = some (oneByte n) := by
  simp [oneFile, Fs.bufs_bwrite]

theorem bufs_oneFile_of_ne {g : ι} {i : Fin 12} (hg : g ≠ f) :
    (oneFile sha1 f n).bufs g i = none := by
  simp [oneFile, Fs.bufs_bwrite, hg]
  rfl

theorem freeMap_oneFile {b : ℤ} : (oneFile sha1 f n).freeMap b = (b == 2) := by
  simp only [oneFile, Fs.freeMap_bwrite, Fs.freeMap_setTable, Fs.freeMap_grow, Fs.freeMap_setPtr,
    Fs.freeMap_take, smallFs]
  by_cases hb : b = 1 <;> simp [hb]

/-- The first byte that is written gets the first entry. -/
theorem dedupBlock_smallFs (n : UInt8) :
    dedupBlock ((((smallFs ι).take 1).setPtr f 0 1).grow f 1) f 0 (sha1 (oneByte n)) zeroEntry =
      some (((((smallFs ι).take 1).setPtr f 0 1).grow f 1).setTable
        (setSlot (mkfsTable 1) (0, 0) (newEntry (sha1 (oneByte n)) 1))) := by
  rw [dedupBlock_new (p := (0, 0))]
  · simp [newEntry, smallFs]
  · simp [smallFs, findKey_eq_none, not_inUse_mkfsTable]
  · rw [Fs.table_grow]
    rfl

theorem exec_oneFile : exec sha1 (smallFs ι) (writeByte f n 1) = some (oneFile sha1 f n, none) :=
  exec_writeByte_hole rfl rfl rfl (dedupBlock_smallFs n)

/-- A write of one byte meets a guard if its only iteration does. -/
theorem Guard.call_writeByte {b : ℤ} (h : G.iter s f 0 0 [n] (zeroEnv b)) :
    G.call sha1 s (writeByte f n b) :=
  ⟨fun _ _ => ⟨by simpa using h, fun _ _ _ => trivial⟩, fun _ _ _ hunit => by cases hunit⟩

theorem oneFile_reachable (h : G.iter (smallFs ι) f 0 0 [n] (zeroEnv 1)) :
    G.Reachable sha1 (oneFile sha1 f n) :=
  .step (.init fresh_smallFs) (Guard.call_writeByte h) ⟨none, exec_oneFile⟩

/-- The only iteration of the write of a first byte is on the block that was picked. -/
theorem iterWrite_hole {P : Fs ι → Fs ι → ι → Fin 12 → ℕ → List UInt8 → Env → Buf → Prop} {b : ℤ}
    (hptr : s.ptr f 0 = 0) (hbuf : s.bufs f 0 = none) (hfree : s.freeMap b = true)
    (hP : P s ((s.take b).setPtr f 0 b) f 0 0 [n] (zeroEnv b) ⟨b, fun _ => 0, true, false⟩) :
    IterWrite P s f 0 0 [n] (zeroEnv b) := by
  intro s₁ bp hballoc
  have hhole : ffsBalloc s f 0 (0 + [n].length) ([n].length < 4096) (zeroEnv b) =
      some (.ok ((s.take b).setPtr f 0 b, ⟨b, fun _ => 0, true, false⟩)) :=
    ffsBalloc_hole hptr hbuf rfl hfree
  obtain ⟨rfl, rfl⟩ := Prod.mk.inj (Except.ok.inj (Option.some.inj (hhole.symm.trans hballoc)))
  exact hP

/-- The same for a condition on the deduplication step of the first write. -/
theorem atDedup_smallFs {P : Fs ι → ℤ → Key → Prop}
    (hP : ∀ key, P (((smallFs ι).take 1).setPtr f 0 1) 1 key) :
    (atDedup sha1 P).iter (smallFs ι) f 0 0 [n] (zeroEnv 1) := by
  refine iterWrite_hole (P := fun _ s₁ f lbn blkoffset chunk env bp =>
    P s₁ (s₁.ptr f lbn) (iterKey sha1 bp blkoffset chunk env)) rfl rfl rfl ?_
  rw [Fs.ptr_setPtr_self]
  exact hP _

/-- The entry of `oneFile` is the only one. -/
theorem inUse_oneFile {p : ℕ × ℕ} {e : DdfsDedup} :
    InUse (oneFile sha1 f n).table p e ↔ p = (0, 0) ∧ e = newEntry (sha1 (oneByte n)) 1 := by
  rw [table_oneFile, inUse_setSlot rfl]
  simp [not_inUse_mkfsTable, newEntry_active]

/-- A search by the key of `oneFile` finds its entry. -/
theorem findKey_oneFile : findKey (sha1 (oneByte n)) (oneFile sha1 f n).table =
    some ((0, 0), newEntry (sha1 (oneByte n)) 1) := by
  have huse : InUse (oneFile sha1 f n).table (0, 0) (newEntry (sha1 (oneByte n)) 1) :=
    inUse_oneFile.mpr ⟨rfl, rfl⟩
  exact findKey_of_inUse huse (fun q e' he _ => (inUse_oneFile.mp he).1)

/-- A search by another key finds nothing. -/
theorem findKey_oneFile_ne (h : sha1 (oneByte n) ≠ sha1 (oneByte m)) :
    findKey (sha1 (oneByte m)) (oneFile sha1 f n).table = none := by
  rw [findKey_eq_none]
  intro p e he
  rw [(inUse_oneFile.mp he).2]
  exact h

/-- The second slot is the first free one. -/
theorem findFree_oneFile : findFree (oneFile sha1 f n).table = some ((0, 1), freeEntry) := by
  rw [table_oneFile]
  with_unfolding_all rfl

/-- `oneFile` after its byte was overwritten by another one. -/
def overwritten (sha1 : Block → Key) (f : ι) (n m : UInt8) : Fs ι :=
  (((oneFile sha1 f n).grow f 1).setTable (setSlot (oneFile sha1 f n).table (0, 1)
    (newEntry (sha1 (oneByte m)) 1))).bwrite f 0 ⟨1, oneByte m, true, true⟩

@[simp] theorem ptr_overwritten : (overwritten sha1 f n m).ptr = (oneFile sha1 f n).ptr := by
  funext g i
  simp [overwritten]

@[simp] theorem size_overwritten : (overwritten sha1 f n m).size f = 1 := by
  simp [overwritten, Fs.size_grow]

@[simp] theorem disk_overwritten : (overwritten sha1 f n m).disk 1 = oneByte m := by
  simp [overwritten, Fs.disk_bwrite]

@[simp] theorem table_overwritten : (overwritten sha1 f n m).table =
    setSlot (oneFile sha1 f n).table (0, 1) (newEntry (sha1 (oneByte m)) 1) := by
  simp [overwritten]

/-- `overwritten` has both entries in use, for the same block. -/
theorem inUse_overwritten {p : ℕ × ℕ} {e : DdfsDedup} :
    InUse (overwritten sha1 f n m).table p e ↔
      (p = (0, 1) ∧ e = newEntry (sha1 (oneByte m)) 1) ∨
      (p = (0, 0) ∧ e = newEntry (sha1 (oneByte n)) 1) := by
  have hold : slot (oneFile sha1 f n).table (0, 1) = some freeEntry := by
    rw [table_oneFile]
    rfl
  rw [table_overwritten, inUse_setSlot hold, inUse_oneFile]
  simp only [newEntry_active, and_true]
  constructor
  · rintro (h | ⟨-, h⟩)
    · exact Or.inl h
    · exact Or.inr h
  · rintro (h | h)
    · exact Or.inl h
    · exact Or.inr ⟨by rw [h.1]; decide, h⟩

theorem exec_overwritten (h : sha1 (oneByte n) ≠ sha1 (oneByte m)) :
    exec sha1 (oneFile sha1 f n) (writeByte f m 1) = some (overwritten sha1 f n m, none) := by
  have hkey : findKey (sha1 (oneByte m)) ((oneFile sha1 f n).grow f 1).table = none := by
    rw [Fs.table_grow]
    exact findKey_oneFile_ne h
  have hfree : findFree ((oneFile sha1 f n).grow f 1).table = some ((0, 1), freeEntry) := by
    rw [Fs.table_grow]
    exact findFree_oneFile
  rw [exec_writeByte_over (n := n) (by simp) (by simp) (by simp)
    (dedupBlock_new hkey hfree)]
  simp [overwritten, newEntry]

end OneFile

/-- The state after file `true` got a byte of its own in block 2, next to that of file
`false` in block 1. -/
def twoFiles (sha1 : Block → Key) : Fs Bool :=
  (((((oneFile sha1 false 1).take 2).setPtr true 0 2).grow true 1).setTable
    (setSlot (oneFile sha1 false 1).table (0, 1) (newEntry (sha1 (oneByte 2)) 2))).bwrite true 0
      ⟨2, oneByte 2, true, false⟩

/-- The state after both files got the same byte: they share block 1. -/
def sharedFile (sha1 : Block → Key) : Fs Bool :=
  (((((((oneFile sha1 false 1).take 2).setPtr true 0 2).grow true 1).setTable
    (setSlot (oneFile sha1 false 1).table (0, 0)
      { newEntry (sha1 (oneByte 1)) 1 with refCount := 1 + 1 })).setPtr true 0 1).free 2).bwrite
        true 0 ⟨2, oneByte 1, true, false⟩

end EmbeddedOs.Ddfs
