import EmbeddedOs.Ddfs.Isolation
import EmbeddedOs.Ddfs.Soundness

/-!
# One copy of every block

The goal of the design is one copy of any block. Beside the state the runs here keep the pointers
that `ffs_write` was the last to write the block of. As long as such a pointer has an entry for its
block, and the entries have the hashes of their blocks, equal bytes come with equal block numbers.
-/

namespace EmbeddedOs.Ddfs

open Lib Lib.SlotTable

variable {ι : Type} {s t : Fs ι} {ws ws' : Finset (ι × Fin 12)}

/-! ## Pointers with an entry -/

/-- The pointers in `ws` that have a block have an entry for it. -/
def Entered (s : Fs ι) (ws : Finset (ι × Fin 12)) : Prop :=
  ∀ q ∈ ws, s.ptr q.1 q.2 ≠ 0 → ∃ p e, InUse s.table p e ∧ e.blockptr = s.ptr q.1 q.2

namespace Entered

theorem congr (h : Entered s ws) (htable : t.table = s.table) (hptr : t.ptr = s.ptr) :
    Entered t ws := by
  intro q hq
  rw [htable, hptr]
  exact h q hq

theorem mono (h : Entered s ws) (hws : ws' ⊆ ws) : Entered s ws' := fun q hq => h q (hws hq)

/-- Changing the count of an entry leaves its block. -/
theorem setCount (h : Entered s ws) {p : ℕ × ℕ} {e : DdfsDedup} (he : InUse s.table p e)
    (rc : UInt16) : Entered (s.setTable (setSlot s.table p { e with refCount := rc })) ws := by
  intro q hq hptr
  obtain ⟨p', e', he', hblk⟩ := h q hq hptr
  by_cases hp : p' = p
  · subst hp
    obtain rfl := Option.some.inj (he'.1.symm.trans he.1)
    exact ⟨p', _, (inUse_setSlot he.1).mpr (Or.inl ⟨rfl, rfl, he.2⟩), hblk⟩
  · exact ⟨p', e', (inUse_setSlot he.1).mpr (Or.inr ⟨hp, he'⟩), hblk⟩

/-- A free slot may be filled. -/
theorem fill (h : Entered s ws) {p : ℕ × ℕ} {old new : DdfsDedup}
    (hp : slot s.table p = some old) (hold : old.active = false) :
    Entered (s.setTable (setSlot s.table p new)) ws := by
  intro q hq hptr
  obtain ⟨p', e, he, hblk⟩ := h q hq hptr
  exact ⟨p', e, (inUse_setSlot hp).mpr (Or.inr ⟨Represents.ne_of_free hp hold he, he⟩), hblk⟩

/-- `ffs_blkfree` removes the entry of a block only if no pointer has the block. -/
theorem ffsBlkfree [Fintype ι] {rel : ℕ → ℕ → Prop} (h : Entered s ws) {b : ℤ}
    (hcount : Counted rel (Ddfs.ffsBlkfree s b)) : Entered (Ddfs.ffsBlkfree s b) ws := by
  rcases ffsBlkfree_cases s b with ⟨p, e, hfind, -, ht⟩ | ⟨p, e, hfind, -, ht⟩ | ⟨-, ht⟩
  · rw [ht]
    exact h.setCount (inUse_of_findBlock hfind).1 _
  · obtain ⟨he, rfl⟩ := inUse_of_findBlock hfind
    rw [ht] at hcount ⊢
    intro q hq hptr
    obtain ⟨p', e', he', hblk⟩ := h q hq hptr
    have hne : p' ≠ p := by
      rintro rfl
      obtain rfl := Option.some.inj (he'.1.symm.trans he.1)
      obtain ⟨m, -, hacc⟩ := hcount.accounts
      have hzero := hacc.free_refs (b := e'.blockptr) (by rw [Fs.freeMap_free, if_pos rfl])
      exact Lib.refs_eq_zero.mp hzero q hblk.symm
    exact ⟨p', e', (inUse_setSlot he.1).mpr (Or.inr ⟨hne, he'⟩), hblk⟩
  · rw [ht]
    exact h

variable [DecidableEq ι] {f : ι}

/-- A pointer that is cleared needs no entry. -/
theorem clearPtr (h : Entered s ws) (i : Fin 12) : Entered (s.setPtr f i 0) ws := by
  intro q hq hptr
  rw [Fs.ptr_setPtr] at hptr ⊢
  split at hptr
  · exact absurd rfl hptr
  · next hne =>
    rw [if_neg hne]
    exact h q hq hptr


/-- A pointer joins the others with an entry for its block. -/
theorem insertPtr {i : Fin 12} (h : Entered s (ws.erase (f, i)))
    (hself : ∃ p e, InUse s.table p e ∧ e.blockptr = s.ptr f i) : Entered s (insert (f, i) ws) := by
  intro q hq hptr
  by_cases hqf : q = (f, i)
  · rw [hqf]
    exact hself
  · exact h q (Finset.mem_erase.mpr ⟨hqf, (Finset.mem_insert.mp hq).resolve_left hqf⟩) hptr

/-- A pointer may be set that is not among those with an entry. -/
theorem setPtr {i : Fin 12} (h : Entered s (ws.erase (f, i))) (b : ℤ) :
    Entered (s.setPtr f i b) (ws.erase (f, i)) := by
  intro q hq
  have hne : ¬(q.1 = f ∧ q.2 = i) := fun hqf => (Finset.mem_erase.mp hq).1 (Prod.ext hqf.1 hqf.2)
  rw [Fs.ptr_setPtr, if_neg hne]
  exact h q hq

variable {lbn : Fin 12} {env : Env}

/-- Only the pointer of the block that `ffs_balloc` is called for may change. -/
theorem ffsBalloc {size : ℕ} {clrbuf : Bool} {bp : Buf} (h : Entered s ws)
    (hballoc : Ddfs.ffsBalloc s f lbn size clrbuf env = some (.ok (t, bp))) :
    Entered t (ws.erase (f, lbn)) := by
  have herase : Entered s (ws.erase (f, lbn)) := h.mono (Finset.erase_subset _ _)
  rcases ffsBalloc_state hballoc with ⟨-, rfl⟩ | ⟨-, newb, -, rfl⟩
  · exact herase
  · exact (herase.congr (t := s.take newb) rfl rfl).setPtr newb

/-- The deduplication step leaves its block with an entry, unless the flags of a new entry call it
free. -/
theorem dedupBlock [Fintype ι] {rel : ℕ → ℕ → Prop} {hash : Key} {entry : DdfsDedup}
    (h : Entered s (ws.erase (f, lbn)))
    (hflags : findKey hash s.table = none → entry.flags &&& ddfsDedupFree = 0)
    (hdedup : Ddfs.dedupBlock s f lbn hash entry = some t) (hcount : Counted rel t) :
    Entered t (insert (f, lbn) ws) := by
  rcases dedupBlock_cases hdedup with ⟨p, old, hkey, hfree, rfl⟩ | ⟨p, e, hkey, hsame, rfl⟩ |
    ⟨p, e, hkey, -, rfl⟩
  · obtain ⟨hp, hold⟩ := slot_of_findFree hfree
    have hact :
        DdfsDedup.active ⟨hash, entry.flags ||| ddfsDedupActive, 1, s.ptr f lbn⟩ = true := by
      rw [active_eq_true, or_active_and_free]
      exact hflags hkey
    exact (h.fill hp hold).insertPtr ⟨p, _, (inUse_setSlot hp).mpr (Or.inl ⟨rfl, rfl, hact⟩), rfl⟩
  · obtain ⟨he, -⟩ := inUse_of_findKey hkey
    exact (h.setCount he _).insertPtr
      ⟨p, _, (inUse_setSlot he.1).mpr (Or.inl ⟨rfl, rfl, he.2⟩), hsame⟩
  · obtain ⟨he, -⟩ := inUse_of_findKey hkey
    refine Entered.ffsBlkfree (Entered.insertPtr ((h.setCount he _).setPtr e.blockptr) ?_) hcount
    exact ⟨p, _, (inUse_setSlot he.1).mpr (Or.inl ⟨rfl, rfl, he.2⟩), by simp⟩

/-- The end of a truncation removes the entry of a block only if no pointer has it. -/
theorem truncTail [Fintype ι] {rel : ℕ → ℕ → Prop} (hrel : CountRel rel) (h : Entered s ws)
    (hcount : Counted rel s) (f : ι) (length : ℕ) : Entered (Ddfs.truncTail s f length) ws := by
  have hboth : Counted rel (Ddfs.truncTail s f length) ∧
      Entered (Ddfs.truncTail s f length) ws := by
    refine truncTail_rule (I := fun s => Counted rel s ∧ Entered s ws) ⟨hcount, h⟩ ?_ ?_ ?_
    · exact fun h => ⟨h.1.congr rfl rfl rfl rfl, h.2.congr rfl rfl⟩
    · intro s i h hptr
      have hfree := h.1.release hrel hptr
      exact ⟨hfree, (h.2.clearPtr i).ffsBlkfree hfree⟩
    · intro s h
      have hptr : (s.setSize f length).ptr = s.ptr := by
        funext g j
        simp
      exact ⟨h.1.congr rfl hptr rfl rfl, h.2.congr rfl hptr⟩
  exact hboth.2

end Entered

variable [DecidableEq ι]

/-! ## The last writer of a block -/

/-- The pointers of which `ffs_write` wrote the block last, after an iteration: it writes its block
as soon as it has a buffer. -/
def iterWriters (s : Fs ι) (f : ι) (lbn : Fin 12) (blkoffset : ℕ) (chunk : List UInt8) (env : Env)
    (ws : Finset (ι × Fin 12)) : Finset (ι × Fin 12) :=
  match ffsBalloc s f lbn (blkoffset + chunk.length) (chunk.length < 4096) env with
  | some (.ok _) => insert (f, lbn) ws
  | _ => ws

/-- The same after the loop of `ffs_write`. -/
def loopWriters (sha1 : Block → Key) (f : ι) (env : ℕ → Env) :
    ℕ → Fs ι → ℕ → List UInt8 → Finset (ι × Fin 12) → Finset (ι × Fin 12)
  | 0, _, _, _, ws => ws
  | fuel + 1, s, offset, data, ws =>
    if data = [] then ws
    else if h : offset / 4096 < 12 then
      let blkoffset := offset % 4096
      let chunk := data.take (4096 - blkoffset)
      let env' := env (offset / 4096)
      let ws := iterWriters s f ⟨offset / 4096, h⟩ blkoffset chunk env' ws
      match ffsWriteIter sha1 s f ⟨offset / 4096, h⟩ blkoffset chunk env' with
      | some (t, none, moved) =>
        loopWriters sha1 f env fuel t (offset + moved) (data.drop moved) ws
      | _ => ws
    else ws

/-- The block `ffs_truncate` writes. -/
def truncWrites (s : Fs ι) (f : ι) (length : ℕ) (env : Env) : Option (Fin 12) :=
  if s.size f = length then none
  else if h : truncLbn length < 12 then
    let lbn : Fin 12 := ⟨truncLbn length, h⟩
    if length < s.size f ∧ length % 4096 = 0 ∧ (length = 0 ∨ s.ptr f lbn ≠ 0) then none
    else
      match ffsBalloc s f lbn ((length - 1) % 4096 + 1) true env with
      | some (.ok _) => some lbn
      | _ => none
  else none

/-- The same after `ffs_truncate`. -/
def truncWriters (s : Fs ι) (f : ι) (length : ℕ) (env : Env) (ws : Finset (ι × Fin 12)) :
    Finset (ι × Fin 12) :=
  match truncWrites s f length env with
  | some lbn => ws.erase (f, lbn)
  | none => ws

/-- The same after a step. -/
def stepWriters (sha1 : Block → Key) (s : Fs ι) (ws : Finset (ι × Fin 12)) :
    FsCall ι → Finset (ι × Fin 12)
  | .write f ioflag offset data env =>
    let offset := if ioflag.append then s.size f else offset
    let ws := loopWriters sha1 f env data.length s offset data ws
    match ffsWriteLoop sha1 f env data.length s offset data with
    | some (t, some _) => if ioflag.unit then truncWriters t f (s.size f) (env 12) ws else ws
    | _ => ws
  | .truncate f length env => truncWriters s f length env ws
  | .evict _ _ => ws

/-- The file system with the pointers of which `ffs_write` wrote the block last. -/
def writersMachine (ι : Type) [DecidableEq ι] (sha1 : Block → Key) :
    Machine (Fs ι × Finset (ι × Fin 12)) (FsCall ι) where
  init s := Fresh s.1 ∧ s.2 = ∅
  step s call t := (fsMachine ι sha1).step s.1 call t.1 ∧ t.2 = stepWriters sha1 s.1 s.2 call

variable {sha1 : Block → Key} {G : Guard ι} {s₁ : Fs ι} {f : ι} {lbn : Fin 12} {env : Env}

/-- The runs of this machine are those of the file system. -/
theorem reachable_of_writers (h : (writersMachine ι sha1).Reachable
    (fun s call => G.call sha1 s.1 call) (s, ws)) : G.Reachable sha1 s := by
  refine h.invariant (I := fun s => G.Reachable sha1 s.1) (fun s hs => ?_) ?_
  · exact .init hs.1
  · exact fun s call t hs hok hst => .step hs hok hst.1

/-! ## Guarded runs -/

/-- What keeps one copy of every block: the keys stay the hashes of the blocks, the counts account
for the pointers, and the flags of a new entry do not call it free. -/
structure OneCopyIter (sha1 : Block → Key) (s : Fs ι) (blk : ℤ) (blkoffset : ℕ)
    (chunk : List UInt8) (env : Env) (bp : Buf) : Prop where
  /-- The keys stay the hashes of the blocks. -/
  sound : SoundIter sha1 s blk blkoffset chunk env bp
  /-- No second entry for a block, and no count that wraps around. -/
  dedup : DedupOk s blk (iterKey sha1 bp blkoffset chunk env)
  /-- A new entry is in use. -/
  flags : findKey (iterKey sha1 bp blkoffset chunk env) s.table = none →
    env.entry.flags &&& ddfsDedupFree = 0

/-- The guard for one copy of every block. -/
def oneCopy (ι : Type) [DecidableEq ι] (sha1 : Block → Key) : Guard ι where
  iter := IterWrite fun _ s₁ f lbn => OneCopyIter sha1 s₁ (s₁.ptr f lbn)
  trunc := (keysSound ι sha1).trunc

theorem OneCopyIter.sound_preserved : Preserved sha1 (oneCopy ι sha1) f (Sound sha1) :=
  Sound.preserved.mono (fun _ _ _ _ _ hguard s₁ bp hballoc => (hguard s₁ bp hballoc).sound)
    (fun _ _ _ hguard => hguard)

/-- A hole at the new end of a file is filled and written. -/
theorem truncWrites_of_hole {length : ℕ} {bp : Buf} (hsize : s.size f ≠ length)
    (hlength : length ≠ 0) (hlbn : lbn.val = truncLbn length) (hptr : s.ptr f lbn = 0)
    (hballoc : ffsBalloc s f lbn ((length - 1) % 4096 + 1) true env = some (.ok (s₁, bp))) :
    truncWrites s f length env = some lbn := by
  have hlt : truncLbn length < 12 := by
    rw [← hlbn]
    exact lbn.isLt
  obtain rfl : lbn = ⟨truncLbn length, hlt⟩ := Fin.ext hlbn
  simp [truncWrites, hsize, hlt, hlength, hptr, hballoc]

variable [Fintype ι]

theorem OneCopyIter.counted_preserved : Preserved sha1 (oneCopy ι sha1) f (Counted (· ≤ ·)) :=
  Counted.noSecondEntry.mono (fun _ _ _ _ _ hguard s₁ bp hballoc => (hguard s₁ bp hballoc).dedup)
    (fun _ _ _ _ => trivial)

namespace Entered

/-- An iteration leaves the block it writes with an entry. -/
theorem iter {blkoffset n : ℕ} {chunk : List UInt8} {err : Option Errno} (h : Entered s ws)
    (hcount : Counted (· ≤ ·) s) (hchunk : chunk ≠ []) (hlen : blkoffset + chunk.length ≤ 4096)
    (hguard : (oneCopy ι sha1).iter s f lbn blkoffset chunk env)
    (hrun : ffsWriteIter sha1 s f lbn blkoffset chunk env = some (t, err, n)) :
    Entered t (iterWriters s f lbn blkoffset chunk env ws) := by
  have hcount' : Counted (· ≤ ·) t :=
    OneCopyIter.counted_preserved.iter hchunk hlen hcount hguard hrun
  simp only [ffsWriteIter] at hrun
  simp only [iterWriters]
  split at hrun
  · cases hrun
  · next e hballoc =>
    simp only [Option.some.injEq, Prod.mk.injEq] at hrun
    rw [← hrun.1, hballoc]
    exact h
  · next s₁ bp hballoc =>
    have hok := hguard s₁ bp hballoc
    obtain ⟨t', hdedup, rfl, -, -⟩ := writeBlock_cases hchunk hlen hrun
    have hgrow : Entered (s₁.grow f (lbn.val * 4096 + blkoffset + chunk.length))
        (ws.erase (f, lbn)) := (h.ffsBalloc hballoc).congr (by simp) (by funext g j; simp)
    have ht' : Entered t' (insert (f, lbn) ws) :=
      hgrow.dedupBlock (by simpa using hok.flags) hdedup (hcount'.congr rfl rfl rfl rfl)
    rw [hballoc]
    exact ht'.congr rfl rfl

/-- The loop of `ffs_write` leaves the blocks it writes with an entry. -/
theorem writeLoop {env : ℕ → Env} {fuel offset : ℕ} {data : List UInt8} {err : Option Errno}
    (h : Entered s ws) (hcount : Counted (· ≤ ·) s)
    (hguard : (oneCopy ι sha1).loop sha1 f env fuel s offset data)
    (hrun : ffsWriteLoop sha1 f env fuel s offset data = some (t, err)) :
    Entered t (loopWriters sha1 f env fuel s offset data ws) := by
  induction fuel generalizing s offset data ws with
  | zero =>
    simp only [ffsWriteLoop, Option.some.injEq, Prod.mk.injEq] at hrun
    obtain ⟨rfl, -⟩ := hrun
    exact h
  | succ fuel ih =>
    rw [ffsWriteLoop] at hrun
    rw [loopWriters]
    by_cases hdata : data = []
    · simp only [if_pos hdata, Option.some.injEq, Prod.mk.injEq] at hrun ⊢
      obtain ⟨rfl, -⟩ := hrun
      exact h
    · rw [if_neg hdata] at hrun ⊢
      by_cases hlbn : offset / 4096 < 12
      · rw [dif_pos hlbn] at hrun ⊢
        obtain ⟨hiter, hrest⟩ := hguard hdata hlbn
        obtain ⟨hchunk, hfit⟩ := chunk_fits hdata offset
        cases hstep : ffsWriteIter sha1 s f ⟨offset / 4096, hlbn⟩ (offset % 4096)
            (data.take (4096 - offset % 4096)) (env (offset / 4096)) with
        | none => simp [hstep] at hrun
        | some r =>
          obtain ⟨s', e, n⟩ := r
          have hs' := h.iter hcount hchunk hfit hiter hstep
          cases e with
          | some e =>
            simp only [hstep, Option.some.injEq, Prod.mk.injEq] at hrun ⊢
            rw [← hrun.1]
            exact hs'
          | none =>
            have hcount' : Counted (· ≤ ·) s' :=
              OneCopyIter.counted_preserved.iter hchunk hfit hcount hiter hstep
            have hn : n ≠ 0 := by
              rw [moved_of_iter hchunk hfit hstep]
              exact (List.length_pos_iff.mpr hchunk).ne'
            simp only [hstep, if_neg hn] at hrun ⊢
            exact ih hs' hcount' (hrest _ _ hstep) hrun
      · rw [dif_neg hlbn] at hrun
        cases hrun

/-- A truncation writes one block at most, which is then no more written by `ffs_write`. -/
theorem truncate {length : ℕ} {err : Option Errno} (h : Entered s ws)
    (hcount : Counted (· ≤ ·) s) (hrun : ffsTruncate s f length env = some (t, err)) :
    Entered t (truncWriters s f length env ws) := by
  have h0 : s.freeMap 0 = false := by
    obtain ⟨m, -, hacc⟩ := hcount.accounts
    simpa using hacc.hole_free
  have hsub : truncWriters s f length env ws ⊆ ws := by
    simp only [truncWriters]
    split
    · exact Finset.erase_subset _ _
    · exact fun _ hq => hq
  by_cases hzero : length = 0 ∧ 0 < s.size f
  · obtain ⟨rfl, hpos⟩ := hzero
    rw [ffsTruncate_zero hpos, Option.some.injEq, Prod.mk.injEq] at hrun
    rw [← hrun.1]
    exact (h.truncTail countRel_le hcount f 0).mono hsub
  · rcases ffsTruncate_cases h0 hrun with rfl | ⟨-, -, rfl⟩ |
      ⟨lbn, s₁, bp, hsize, hlbn, hballoc, rfl⟩
    · exact h.mono hsub
    · exact (h.truncTail countRel_le hcount f length).mono hsub
    · have hs₁ : Entered s₁ (truncWriters s f length env ws) := by
        rcases ffsBalloc_state hballoc with ⟨-, rfl⟩ | ⟨hptr, -⟩
        · exact h.mono hsub
        · rw [truncWriters, truncWrites_of_hole hsize (by omega) hlbn hptr hballoc]
          exact h.ffsBalloc hballoc
      have hcount₁ := hcount.ffsBalloc hballoc
      split
      · exact hs₁.congr rfl (by funext g j; simp)
      · have hw : Entered (s₁.bwrite f lbn (truncBuf s f length bp))
            (truncWriters s f length env ws) := hs₁.congr rfl rfl
        exact hw.truncTail countRel_le (hcount₁.congr rfl rfl rfl rfl) f length

/-- Every step leaves the blocks that `ffs_write` wrote last with an entry. -/
theorem exec {call : FsCall ι} {err : Option Errno} (h : Entered s ws) (hcount : Counted (· ≤ ·) s)
    (hguard : (oneCopy ι sha1).call sha1 s call) (hrun : Ddfs.exec sha1 s call = some (t, err)) :
    Entered t (stepWriters sha1 s ws call) := by
  cases call with
  | write f ioflag offset data env =>
    obtain ⟨hloop, -⟩ := hguard
    simp only [Ddfs.exec, ffsWrite] at hrun
    simp only [stepWriters]
    split at hrun
    · cases hrun
    · next hwrite =>
      simp only [Option.some.injEq, Prod.mk.injEq] at hrun
      rw [← hrun.1, hwrite]
      exact h.writeLoop hcount hloop hwrite
    · next s' e hwrite =>
      have hs' := h.writeLoop hcount hloop hwrite
      rw [hwrite]
      cases hunit : ioflag.unit with
      | true =>
        simp only [hunit, if_true, Option.map_eq_some_iff, Prod.mk.injEq] at hrun ⊢
        obtain ⟨r, hr, rfl, -⟩ := hrun
        exact hs'.truncate (OneCopyIter.counted_preserved.writeLoop hloop hcount hwrite) hr
      | false =>
        simp only [hunit, Bool.false_eq_true, if_false, Option.some.injEq, Prod.mk.injEq] at hrun ⊢
        rw [← hrun.1]
        exact hs'
  | truncate f length env => exact h.truncate hcount hrun
  | evict f lbn =>
    simp only [Ddfs.exec, Option.some.injEq, Prod.mk.injEq] at hrun
    rw [← hrun.1]
    exact h.congr rfl rfl

end Entered

/-- Along the guarded runs two pointers of which `ffs_write` wrote the block last, and whose blocks
have the same bytes, have the same block. -/
theorem same_bytes_same_block (sha1 : Block → Key) (h : (writersMachine ι sha1).Reachable
      (fun s call => (oneCopy ι sha1).call sha1 s.1 call) (s, ws)) :
    ∀ q ∈ ws, ∀ q' ∈ ws, s.ptr q.1 q.2 ≠ 0 → s.ptr q'.1 q'.2 ≠ 0 →
      s.disk (s.ptr q.1 q.2) = s.disk (s.ptr q'.1 q'.2) → s.ptr q.1 q.2 = s.ptr q'.1 q'.2 := by
  have hboth : Counted (· ≤ ·) s ∧ Entered s ws := by
    refine h.invariant (I := fun s => Counted (· ≤ ·) s.1 ∧ Entered s.1 s.2) ?_ ?_
    · rintro ⟨s, ws⟩ ⟨hs, hws⟩
      simp only at hs hws
      subst hws
      exact ⟨counted_of_fresh hs, by simp [Entered]⟩
    · rintro ⟨s, ws⟩ call ⟨t, ws'⟩ ⟨hcount, hs⟩ hguard ⟨⟨err, hrun⟩, hws⟩
      simp only at hguard hrun hws hcount hs
      subst hws
      exact ⟨OneCopyIter.counted_preserved.exec hcount hguard hrun, hs.exec hcount hguard hrun⟩
  have hsound : Sound sha1 s := (reachable_of_writers h).invariant (fun s hs => Sound.of_fresh hs)
    (fun f => OneCopyIter.sound_preserved)
  intro q hq q' hq' hptr hptr' hbytes
  obtain ⟨p, e, he, hblk⟩ := hboth.2 q hq hptr
  obtain ⟨p', e', he', hblk'⟩ := hboth.2 q' hq' hptr'
  -- the same bytes have the same key, and a key has one entry
  have hkeys : e.key = e'.key := by
    rw [hsound.key he, hsound.key he', hblk, hblk', hbytes]
  obtain rfl := hsound.keys he he' hkeys
  obtain rfl := Option.some.inj (he.1.symm.trans he'.1)
  rw [← hblk, ← hblk']

/-! ## Writes of less than a block -/

omit [Fintype ι] in
/-- A write of less than a block writes one block, if it gets a buffer for it. -/
theorem stepWriters_within (sha1 : Block → Key) (s : Fs ι) (ws : Finset (ι × Fin 12)) (f : ι)
    (lbn : Fin 12) (env : ℕ → Env) {data : List UInt8} {blkoffset : ℕ} (hdata : data ≠ [])
    (hlen : blkoffset + data.length < 4096) :
    stepWriters sha1 s ws (.write f ⟨false, false⟩ (lbn.val * 4096 + blkoffset) data env) =
      iterWriters s f lbn blkoffset data (env lbn) ws := by
  have hpos := List.length_pos_iff.mpr hdata
  have hdiv : (lbn.val * 4096 + blkoffset) / 4096 = lbn.val := by omega
  have hmod : (lbn.val * 4096 + blkoffset) % 4096 = blkoffset := by omega
  have htake : data.take (4096 - blkoffset) = data := List.take_of_length_le (by omega)
  have hdone : ∀ n t offset (ws : Finset (ι × Fin 12)),
      loopWriters sha1 f env n t offset [] ws = ws := by
    intro n t offset ws
    cases n <;> simp [loopWriters]
  have hloop : loopWriters sha1 f env data.length s (lbn.val * 4096 + blkoffset) data ws =
      iterWriters s f lbn blkoffset data (env lbn) ws := by
    obtain ⟨n, hn⟩ := Nat.exists_eq_add_of_lt hpos
    rw [Nat.zero_add] at hn
    rw [hn, loopWriters]
    simp only [if_neg hdata, hdiv, hmod, lbn.isLt, dif_pos, htake, Fin.eta]
    split
    · next t moved hiter =>
      rw [moved_of_iter hdata (by omega) hiter, List.drop_length, hdone]
    · rfl
  simp only [stepWriters, Bool.false_eq_true, if_false, hloop]
  split <;> rfl

/-- The state after a write of `data` to block `lbn` of a file, which was a hole and becomes block
`b` with a new entry. -/
def filledHole (s : Fs ι) (f : ι) (lbn : Fin 12) (b : ℤ) (p : ℕ × ℕ) (key : Key) (blkoffset : ℕ)
    (data : List UInt8) : Fs ι :=
  ((((s.take b).setPtr f lbn b).grow f (lbn.val * 4096 + blkoffset + data.length)).setTable
    (setSlot s.table p (newEntry key b))).bwrite f lbn
      ⟨b, copyIn (fun _ => 0) blkoffset data, true, false⟩

section FilledHole

variable (s : Fs ι) (f : ι) (lbn : Fin 12) (b : ℤ) (p : ℕ × ℕ) (key : Key) (blkoffset : ℕ)
  (data : List UInt8)

omit [Fintype ι]

@[simp] theorem table_filledHole : (filledHole s f lbn b p key blkoffset data).table =
    setSlot s.table p (newEntry key b) := by
  simp [filledHole]

theorem ptr_filledHole (g : ι) (i : Fin 12) : (filledHole s f lbn b p key blkoffset data).ptr g i =
    if g = f ∧ i = lbn then b else s.ptr g i := by
  simp [filledHole, Fs.ptr_setPtr]

theorem disk_filledHole (c : ℤ) : (filledHole s f lbn b p key blkoffset data).disk c =
    if c = b then copyIn (fun _ => 0) blkoffset data else s.disk c := by
  simp [filledHole, Fs.disk_bwrite]

theorem freeMap_filledHole (c : ℤ) : (filledHole s f lbn b p key blkoffset data).freeMap c =
    if c = b then false else s.freeMap c := by
  simp [filledHole, Fs.freeMap_take]

theorem bufs_filledHole {g : ι} (hg : g ≠ f) (i : Fin 12) :
    (filledHole s f lbn b p key blkoffset data).bufs g i = s.bufs g i := by
  simp [filledHole, Fs.bufs_bwrite, hg]

variable {s f lbn b p key blkoffset data}

/-- The write of less than a block, with a new key. -/
theorem step_filledHole (ws : Finset (ι × Fin 12)) {old : DdfsDedup} {offset : ℕ}
    (hoffset : offset = lbn.val * 4096 + blkoffset) (hdata : data ≠ [])
    (hlen : blkoffset + data.length < 4096) (hptr : s.ptr f lbn = 0) (hbuf : s.bufs f lbn = none)
    (hblk : s.freeMap b = true)
    (hhash : sha1 (hashedBytes (copyIn (fun _ => 0) blkoffset data) blkoffset fun _ => 0) = key)
    (hkey : findKey key s.table = none) (hfree : findFree s.table = some (p, old)) :
    (writersMachine ι sha1).step (s, ws)
      (.write f ⟨false, false⟩ offset data fun _ => zeroEnv b)
      (filledHole s f lbn b p key blkoffset data, insert (f, lbn) ws) := by
  subst hoffset
  have hshort : data.length < 4096 := by omega
  have hballoc : ffsBalloc s f lbn (blkoffset + data.length) true (zeroEnv b) =
      some (.ok ((s.take b).setPtr f lbn b, ⟨b, fun _ => 0, true, false⟩)) :=
    ffsBalloc_hole hptr hbuf rfl hblk
  have hdedup : dedupBlock (((s.take b).setPtr f lbn b).grow f
      (lbn.val * 4096 + blkoffset + data.length)) f lbn key zeroEntry =
        some ((((s.take b).setPtr f lbn b).grow f
          (lbn.val * 4096 + blkoffset + data.length)).setTable
            (setSlot s.table p (newEntry key b))) := by
    rw [dedupBlock_new (by simpa using hkey) (by simpa using hfree)]
    simp [newEntry]
  have hiter : ffsWriteIter sha1 s f lbn blkoffset data (zeroEnv b) =
      some (filledHole s f lbn b p key blkoffset data, none, data.length) := by
    apply ffsWriteIter_within hdata hlen rfl hballoc
    rw [← hhash] at hdedup ⊢
    exact hdedup
  refine ⟨⟨none, ffsWrite_within hdata hlen hiter⟩, ?_⟩
  rw [stepWriters_within sha1 s ws f lbn _ hdata hlen]
  simp only [iterWriters, hshort, decide_true, hballoc]

end FilledHole

omit [Fintype ι] in
/-- A first byte makes `ffs_write` the last writer of its block. -/
theorem stepWriters_writeByte {n : UInt8} {b : ℤ} (ws : Finset (ι × Fin 12)) (hptr : s.ptr f 0 = 0)
    (hbuf : s.bufs f 0 = none) (hblk : s.freeMap b = true) :
    stepWriters sha1 s ws (writeByte f n b) = insert (f, 0) ws := by
  have hdata : [n] ≠ [] := by simp
  have hlen : 0 + [n].length < 4096 := by simp
  have hballoc : ffsBalloc s f 0 (0 + [n].length) true (zeroEnv b) =
      some (.ok ((s.take b).setPtr f 0 b, ⟨b, fun _ => 0, true, false⟩)) :=
    ffsBalloc_hole hptr hbuf rfl hblk
  have hwriters := stepWriters_within sha1 s ws f 0 (fun _ => zeroEnv b) hdata hlen
  rw [writeByte]
  simp only [Fin.val_zero, Nat.zero_mul, Nat.add_zero] at hwriters
  rw [hwriters]
  simp only [iterWriters, List.length_singleton, Nat.one_lt_ofNat, decide_true]
  rw [List.length_singleton] at hballoc
  rw [hballoc]

/-- The same byte written to two files: they have one block. -/
theorem same_bytes_same_block_shared :
    (sharedFile prefixKey).ptr false 0 = (sharedFile prefixKey).ptr true 0 := by
  have hptr : (oneFile prefixKey false 1).ptr true 0 = 0 := by simp [ptr_oneFile]
  have hbuf : (oneFile prefixKey false 1).bufs true 0 = none := bufs_oneFile_of_ne (by decide)
  have hblk : (oneFile prefixKey false 1).freeMap 2 = true := by simp [freeMap_oneFile]
  have hkey : findKey (prefixKey (oneByte 1)) (oneFile prefixKey false 1).table =
      some ((0, 0), newEntry (prefixKey (oneByte 1)) 1) := findKey_oneFile
  have hfirst : (writersMachine Bool prefixKey).Reachable
      (fun s call => (oneCopy Bool prefixKey).call prefixKey s.1 call)
      (oneFile prefixKey false 1, {(false, 0)}) := by
    refine .step (.init (s := (smallFs Bool, ∅)) ⟨fresh_smallFs, rfl⟩) (a := writeByte false 1 1)
      (Guard.call_writeByte ?_) ⟨⟨none, exec_oneFile⟩, ?_⟩
    · apply iterWrite_hole (P := fun _ s₁ f lbn => OneCopyIter prefixKey s₁ (s₁.ptr f lbn)) rfl rfl
        rfl
      refine ⟨⟨fun _ => ⟨?_, rfl, fun hlen => by cases hlen⟩, fun p e hkey => ?_,
        fun p e hkey => ?_⟩, ⟨fun _ => ?_, fun p e hkey => ?_⟩, fun _ => rfl⟩
      · exact findBlock_eq_none.mpr fun p e he => absurd he not_inUse_mkfsTable
      · exact absurd (inUse_of_findKey hkey).1 not_inUse_mkfsTable
      · exact absurd (inUse_of_findKey hkey).1 not_inUse_mkfsTable
      · exact findBlock_eq_none.mpr fun p e he => absurd he not_inUse_mkfsTable
      · exact absurd (inUse_of_findKey hkey).1 not_inUse_mkfsTable
    · exact (stepWriters_writeByte ∅ rfl rfl rfl).symm
  have hsecond : (writersMachine Bool prefixKey).Reachable
      (fun s call => (oneCopy Bool prefixKey).call prefixKey s.1 call)
      (sharedFile prefixKey, {(true, 0), (false, 0)}) := by
    refine .step hfirst (a := writeByte true 1 2) (Guard.call_writeByte ?_)
      ⟨⟨none, exec_sharedFile⟩, (stepWriters_writeByte _ hptr hbuf hblk).symm⟩
    apply iterWrite_hole (P := fun _ s₁ f lbn => OneCopyIter prefixKey s₁ (s₁.ptr f lbn)) hptr hbuf
      hblk
    rw [Fs.ptr_setPtr_self]
    have hhash : iterKey prefixKey ⟨2, fun _ => 0, true, false⟩ 0 [1] (zeroEnv 2) =
        prefixKey (oneByte 1) := by
      simp only [iterKey, hashedBytes_zero]
      rfl
    have hno : findBlock 2 (oneFile prefixKey false 1).table = none := by
      rw [findBlock_eq_none]
      intro p e he
      rw [(inUse_oneFile.mp he).2]
      decide
    refine ⟨⟨fun hnone => ?_, fun p e hfind hblk => ?_, fun p e _ _ => Or.inl fun q e' hfind => ?_⟩,
      ⟨fun _ => hno, fun p e hfind => ?_⟩, fun _ => rfl⟩
    · rw [hhash] at hnone
      exact absurd (hkey.symm.trans hnone) (by simp)
    · exact absurd hblk (findBlock_eq_none.mp hno p e (inUse_of_findKey hfind).1)
    · exact absurd (hno.symm.trans hfind) (by simp)
    · have he : InUse (oneFile prefixKey false 1).table p e := (inUse_of_findKey hfind).1
      rw [(inUse_oneFile.mp he).2]
      decide
  refine same_bytes_same_block prefixKey hsecond (false, 0) (by simp) (true, 0) (by simp) ?_ ?_ ?_
  all_goals simp [sharedFile, Fs.ptr_setPtr, ptr_oneFile]

/-- A block with the byte 1 behind a zero. -/
def secondByte : Block := copyIn (fun _ => 0) 1 [1]

theorem hashedBytes_secondByte : hashedBytes secondByte 1 (fun _ => 0) = oneByte 1 := by
  funext i
  by_cases hi : i.val = 0
  · simp [hashedBytes, secondByte, oneByte, copyIn, hi]
  · have hout : [(1 : UInt8)][i.val]? = none :=
      List.getElem?_eq_none_iff.mpr (Nat.pos_of_ne_zero hi)
    simp [hashedBytes, secondByte, oneByte, copyIn, hout]

theorem copyIn_secondByte : copyIn (fun _ => 0) 0 [0, 1] = secondByte := by
  funext i
  obtain ⟨i, hi⟩ := i
  match i with
  | 0 => simp [secondByte, copyIn]
  | i + 1 => simp [secondByte, copyIn]

/-- The byte 1 written behind the start of one file, and the bytes 0 and 1 to the start of another:
the blocks are the same, but the first one was hashed from its second byte on. -/
theorem same_bytes_same_block_fails : ¬∃ sha1 : Block → Key, sha1 (oneByte 1) ≠ sha1 secondByte ∧
    ∀ s ws, (writersMachine Bool sha1).Reachable (fun _ _ => True) (s, ws) →
      ∀ q ∈ ws, ∀ q' ∈ ws, s.ptr q.1 q.2 ≠ 0 → s.ptr q'.1 q'.2 ≠ 0 →
        s.disk (s.ptr q.1 q.2) = s.disk (s.ptr q'.1 q'.2) → s.ptr q.1 q.2 = s.ptr q'.1 q'.2 := by
  rintro ⟨sha1, hne, hall⟩
  have hfirst : (writersMachine Bool sha1).step (smallFs Bool, ∅)
      (.write false ⟨false, false⟩ 1 [1] fun _ => zeroEnv 1)
      (filledHole (smallFs Bool) false 0 1 (0, 0) (sha1 (oneByte 1)) 1 [1], {(false, 0)}) := by
    refine step_filledHole ∅ rfl (by simp) (by simp) rfl rfl rfl ?_ ?_ rfl
    · rw [← hashedBytes_secondByte]
      rfl
    · exact findKey_eq_none.mpr fun p e he => absurd he not_inUse_mkfsTable
  have htable : (filledHole (smallFs Bool) false 0 1 (0, 0) (sha1 (oneByte 1)) 1 [1]).table =
      (oneFile sha1 false 1).table := by
    rw [table_filledHole, table_oneFile]
    rfl
  have hspot :
      findFree (filledHole (smallFs Bool) false 0 1 (0, 0) (sha1 (oneByte 1)) 1 [1]).table =
        some ((0, 1), freeEntry) := by
    rw [htable]
    exact findFree_oneFile
  have hsecond : (writersMachine Bool sha1).step
      (filledHole (smallFs Bool) false 0 1 (0, 0) (sha1 (oneByte 1)) 1 [1], {(false, 0)})
      (.write true ⟨false, false⟩ 0 [0, 1] fun _ => zeroEnv 2)
      (filledHole (filledHole (smallFs Bool) false 0 1 (0, 0) (sha1 (oneByte 1)) 1 [1]) true 0 2
        (0, 1) (sha1 secondByte) 0 [0, 1], {(true, 0), (false, 0)}) := by
    refine step_filledHole {(false, 0)} rfl (by simp) (by simp) ?_ ?_ ?_ ?_ ?_ hspot
    · rw [ptr_filledHole]
      rfl
    · rw [bufs_filledHole _ _ _ _ _ _ _ _ (by decide)]
      rfl
    · rw [freeMap_filledHole]
      rfl
    · rw [hashedBytes_zero, copyIn_secondByte]
    · rw [htable, findKey_eq_none]
      intro p e he
      rw [(inUse_oneFile.mp he).2]
      exact hne
  have hsame := hall _ _ (.step (.step (.init ⟨fresh_smallFs, rfl⟩) trivial hfirst) trivial hsecond)
    (false, 0) (by simp) (true, 0) (by simp)
  simp [ptr_filledHole, disk_filledHole, copyIn_secondByte] at hsame
  exact hsame rfl

end EmbeddedOs.Ddfs
