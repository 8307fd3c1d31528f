import EmbeddedOs.Ddfs.FreshFs
import EmbeddedOs.Ddfs.RefCounts
import Mathlib.Logic.Relation

/-!
# The free map of the files and the cylinder groups

The runs of writes and truncations have one free map, and any free block may be picked. Behind it
are the maps of the cylinder groups, which the allocator picks from. With blocks of one fragment
the groups follow every run that makes no second entry for a block: whatever block a run picks can
be the one `ffs_alloccg` returns, whatever `ffs_alloc` returns may be picked, and `ffs_blkfree_cg`
never finds a block free that it is called for.
-/

namespace EmbeddedOs.Ddfs

open Lib Lib.SlotTable Relation

/-- The free map that the groups have together. -/
def Groups.freeMap (l : FsLayout) (g : Groups) : ℤ → Bool :=
  fun b => decide (0 ≤ b ∧ b.toNat < l.size) && g.free l b.toNat

/-- An allocation or a release of a block in a group. -/
inductive BlockStep (l : FsLayout) : Groups → Groups → Prop
  /-- `ffs_alloccg`. -/
  | alloc {g g' : Groups} {readable : ℕ → Bool} {cg bpref r : ℕ} :
    ffsAlloccg l readable g cg bpref l.bsize l.bsize = some (g', r) → BlockStep l g g'
  /-- `ffs_blkfree_cg`. -/
  | free {g g' : Groups} {readable : ℕ → Bool} {bno : ℕ} :
    ffsBlkfreeCg l readable g bno l.bsize = some g' → BlockStep l g g'

/-- A map is that of sound groups that come from `g₀`. -/
def Backs (l : FsLayout) (g₀ : Groups) (map : ℤ → Bool) : Prop :=
  ∃ g, ReflTransGen (BlockStep l) g₀ g ∧ Good l g ∧ map = g.freeMap l

/-- The number of a block of the file system, not that of a hole. -/
def OnDisk (l : FsLayout) (b : ℤ) : Prop := 0 < b ∧ b.toNat < l.size

section Groups

variable {l : FsLayout} {g g' g₀ : Groups} {map : ℤ → Bool} {b : ℤ} {r n : ℕ}

theorem Groups.freeMap_eq_true : g.freeMap l b = true ↔
    0 ≤ b ∧ b.toNat < l.size ∧ g.free l b.toNat = true := by
  rw [freeMap, Bool.and_eq_true, decide_eq_true_iff, and_assoc]

/-- What is free is on disk. -/
theorem Good.onDisk (hgood : Good l g) (hfree : g.freeMap l b = true) : OnDisk l b := by
  obtain ⟨hpos, hlt, hset⟩ := Groups.freeMap_eq_true.mp hfree
  refine ⟨lt_of_le_of_ne hpos ?_, hlt⟩
  rintro rfl
  exact absurd (hgood.zero.symm.trans hset) (by decide)

theorem OnDisk.freeMap (hb : OnDisk l b) : g.freeMap l b = g.free l b.toNat := by
  rw [Groups.freeMap, decide_eq_true ⟨hb.1.le, hb.2⟩, Bool.true_and]

/-- A group that can be read gives the block that is asked for, if that one is free. -/
theorem ffsAlloccg_honours (readable : ℕ → Bool) (hgood : Good l g) (hcg : l.dtog r < l.ncg)
    (hread : readable (l.dtog r) = true) (hmod : r % l.frag = 0)
    (hfree : ∀ i, i < l.frag → g.free l (r + i) = true) :
    ∃ g', ffsAlloccg l readable g (l.dtog r) r l.bsize l.bsize = some (g', r) ∧ Good l g' ∧
      Takes l g g' r l.frag := by
  have hok := hgood.group _ hcg
  have hpos := l.frag_pos
  have hne : r ≠ 0 := by
    rintro rfl
    exact absurd (hgood.zero.symm.trans (hfree 0 hpos)) (by decide)
  have hdmod : l.dtogd r % l.frag = 0 := by rw [l.dtogd_mod, hmod]
  have hbase : l.dtogd r / l.frag * l.frag = l.dtogd r :=
    Nat.div_mul_cancel (Nat.dvd_of_mod_eq_zero hdmod)
  have hset : ∀ i, i < l.frag → (g.cg (l.dtog r)).blksfree.isset (l.dtogd r + i) = true := by
    intro i hi
    have hself := hfree i hi
    have hsplit : r + i = l.cgbase (l.dtog r) + (l.dtogd r + i) := by
      have := l.cgbase_dtog r
      omega
    have hle := piece_le_fpg l (l.dtogd_lt r) (n := l.frag) (by omega)
    rw [hsplit, Groups.free, l.dtog_cgbase (by omega), l.dtogd_cgbase (by omega)] at hself
    exact hself
  have hnbfree : (g.cg (l.dtog r)).cs.nbfree ≠ 0 :=
    (nbfree_ne_zero_iff hok).mpr ⟨l.dtogd r, l.dtogd_lt r, by omega, hset⟩
  -- the preference is in the group, and at the start of a block
  have hpref : ffsAlloccgblkPref l (g.cg (l.dtog r)) r = r := by
    unfold ffsAlloccgblkPref
    rw [if_neg hne, hok.cgx_eq, if_neg fun h => h rfl]
  have hblk : l.blknum r = r := Nat.div_mul_cancel (Nat.dvd_of_mod_eq_zero hmod)
  obtain ⟨g', bno, heq, hgood', htakes, -, -, hhonour⟩ := ffsAlloccgblk_takes l.bsize
    hgood hcg r hnbfree (by rw [l.numfrags_bsize]; exact hpos) (by rw [l.numfrags_bsize])
  rw [hpref, hblk] at hhonour
  obtain rfl := hhonour ((ffsIsblock_iff l.geom _ _).mpr fun j hj => by
    have hj' := hset j hj
    rwa [← hbase] at hj')
  rw [l.cgbase_dtog, l.numfrags_bsize] at htakes
  rw [l.cgbase_dtog] at heq
  refine ⟨g', ?_, hgood', htakes⟩
  unfold ffsAlloccg
  rw [hgood.cs _ hcg, ffsGetcg_eq readable hok, hread, if_neg fun h => hnbfree h.1, if_pos rfl]
  simp only [if_true]
  rw [if_neg fun h => hnbfree h.1, heq]

/-- The map of the groups behind an allocation of a block of one fragment. -/
theorem Takes.freeMap (h : Takes l g g' r 1) :
    g'.freeMap l = Function.update (g.freeMap l) r false := by
  funext b
  by_cases hb : b = r
  · subst hb
    rw [Function.update_self, Groups.freeMap, Int.toNat_natCast, h.free,
      decide_eq_true (show r ≤ r ∧ r < r + 1 by omega)]
    simp
  · rw [Function.update_of_ne hb, Groups.freeMap, Groups.freeMap, h.free]
    by_cases hin : 0 ≤ b ∧ b.toNat < l.size
    · rw [decide_eq_false (show ¬ (r ≤ b.toNat ∧ b.toNat < r + 1) by omega)]
      rfl
    · rw [decide_eq_false hin]
      rfl

/-- The map of the groups behind a release of a block of one fragment. -/
theorem Gives.freeMap (h : Gives l g g' r 1) (hr : r < l.size) :
    g'.freeMap l = Function.update (g.freeMap l) r true := by
  funext b
  by_cases hb : b = r
  · subst hb
    rw [Function.update_self, Groups.freeMap_eq_true, Int.toNat_natCast, h.free,
      decide_eq_true (show r ≤ r ∧ r < r + 1 by omega)]
    exact ⟨by omega, hr, rfl⟩
  · rw [Function.update_of_ne hb, Groups.freeMap, Groups.freeMap, h.free]
    by_cases hin : 0 ≤ b ∧ b.toNat < l.size
    · rw [decide_eq_false (show ¬ (r ≤ b.toNat ∧ b.toNat < r + 1) by omega)]
      rfl
    · rw [decide_eq_false hin]
      rfl

/-- `ffs_blkfree_cg` takes back a block that is not free. -/
theorem ffsBlkfreeCg_one (hfrag : l.frag = 1) (hgood : Good l g) (hb : OnDisk l b)
    (hused : g.freeMap l b = false) :
    ∃ g', ffsBlkfreeCg l (fun _ => true) g b.toNat l.bsize = some g' ∧ Good l g' ∧
      Gives l g g' b.toNat 1 := by
  have hsize : 1 * l.geom.fsize = l.bsize := by
    rw [← hfrag]
    exact (Geometry.bsize_eq l.geom).symm
  obtain ⟨hpos, hlt⟩ := hb
  have hne : b.toNat ≠ 0 := by omega
  obtain ⟨-, hfree, -⟩ := ffsBlkfreeCg_spec (n := 1) (fun _ => true) hgood hne (by omega)
    (by rw [hfrag, Nat.mod_one]) (by omega)
  rw [hsize] at hfree
  refine hfree rfl fun i hi => ?_
  obtain rfl : i = 0 := by omega
  rw [← hused, OnDisk.freeMap ⟨hpos, hlt⟩, Nat.add_zero]

/-- Whatever free block is taken, the groups can follow. -/
theorem Backs.take (hfrag : l.frag = 1) (h : Backs l g₀ map) (hb : map b = true) :
    Backs l g₀ (Function.update map b false) := by
  obtain ⟨g, hsteps, hgood, rfl⟩ := h
  have hdisk := hgood.onDisk hb
  rw [hdisk.freeMap] at hb
  obtain ⟨g', heq, hgood', htakes⟩ := ffsAlloccg_honours (fun _ => true) hgood
    (l.dtog_lt hdisk.2) rfl (by rw [hfrag, Nat.mod_one]) fun i hi => by
      obtain rfl : i = 0 := by omega
      exact hb
  rw [hfrag] at htakes
  refine ⟨g', hsteps.tail (.alloc heq), hgood', ?_⟩
  rw [htakes.freeMap, Int.toNat_of_nonneg hdisk.1.le]

/-- Whatever block is given back that is not free, the groups can follow. -/
theorem Backs.free (hfrag : l.frag = 1) (h : Backs l g₀ map) (hdisk : OnDisk l b)
    (hb : map b = false) : Backs l g₀ (Function.update map b true) := by
  obtain ⟨g, hsteps, hgood, rfl⟩ := h
  obtain ⟨g', heq, hgood', hgives⟩ := ffsBlkfreeCg_one hfrag hgood hdisk hb
  refine ⟨g', hsteps.tail (.free heq), hgood', ?_⟩
  rw [hgives.freeMap hdisk.2, Int.toNat_of_nonneg hdisk.1.le]

end Groups

section Files

variable {ι : Type} [Fintype ι]

/-- What holds of a state whose free map is that of sound groups: what the files and the table name
is on disk. -/
structure Backed (l : FsLayout) (g₀ : Groups) (s : Fs ι) : Prop where
  /-- The table accounts for the block pointers. -/
  counted : Counted (· ≤ ·) s
  /-- The blocks of the files are on disk. -/
  ptr : ∀ f i, s.ptr f i ≠ 0 → OnDisk l (s.ptr f i)
  /-- The blocks of the entries are on disk. -/
  entry : ∀ p e, InUse s.table p e → OnDisk l e.blockptr
  /-- The free map is that of the groups. -/
  map : Backs l g₀ s.freeMap

variable {l : FsLayout} {g₀ : Groups} {s t : Fs ι} {f : ι} {lbn : Fin 12}

/-- Only the table, the pointers, the free map and the history matter. -/
theorem Backed.congr (h : Backed l g₀ s) (htable : t.table = s.table) (hptr : t.ptr = s.ptr)
    (hfree : t.freeMap = s.freeMap) (hfreed : t.freed = s.freed) : Backed l g₀ t where
  counted := h.counted.congr htable hptr hfree hfreed
  ptr := by
    rw [hptr]
    exact h.ptr
  entry := by
    rw [htable]
    exact h.entry
  map := by
    rw [hfree]
    exact h.map

/-- A block that is named is not free. -/
theorem Backed.used (h : Backed l g₀ s) {i : Fin 12} : s.freeMap (s.ptr f i) = false := by
  obtain ⟨m, -, hacc⟩ := h.counted.accounts
  rw [← Bool.not_eq_true]
  intro hfree
  exact (s.refs_pos f i).ne' (hacc.free_refs hfree)

/-- The slots of a table behind an assignment to one. -/
theorem entry_setSlot {table : DedupTable} {p : ℕ × ℕ} {old new : DdfsDedup}
    (hslot : slot table p = some old) (h : ∀ q e, InUse table q e → OnDisk l e.blockptr)
    (hnew : new.active = true → OnDisk l new.blockptr) :
    ∀ q e, InUse (setSlot table p new) q e → OnDisk l e.blockptr := by
  intro q e he
  rcases (inUse_setSlot hslot).mp he with ⟨-, rfl, hact⟩ | ⟨-, he⟩
  · exact hnew hact
  · exact h q e he

/-- `ffs_blkfree` gives back a block only if it has no other reference. -/
theorem Backed.ffsBlkfree (hfrag : l.frag = 1) {bno : ℤ}
    (hacc : AccountsFor (· ≤ ·) s (fun b => s.refs b + if b = bno then 1 else 0))
    (hfreed : ∀ ev ∈ s.freed, ev.Unused) (hptr : ∀ f i, s.ptr f i ≠ 0 → OnDisk l (s.ptr f i))
    (hentry : ∀ p e, InUse s.table p e → OnDisk l e.blockptr) (hmap : Backs l g₀ s.freeMap)
    (hdisk : OnDisk l bno) : Backed l g₀ (Ddfs.ffsBlkfree s bno) := by
  have hcounted : Counted (· ≤ ·) (Ddfs.ffsBlkfree s bno) :=
    Counted.ffsBlkfree countRel_le hdisk.1.ne' hacc hfreed
  have hused : s.freeMap bno = false := by
    obtain ⟨m, -, hm⟩ := hacc
    rw [← Bool.not_eq_true]
    intro hfree
    have hzero := hm.free_refs hfree
    simp at hzero
  have hptr' : ∀ f i, (Ddfs.ffsBlkfree s bno).ptr f i ≠ 0 →
      OnDisk l ((Ddfs.ffsBlkfree s bno).ptr f i) := by
    rw [ptr_ffsBlkfree]
    exact hptr
  have hgive := hmap.free hfrag hdisk hused
  refine ⟨hcounted, hptr', ?_, ?_⟩
  · rcases ffsBlkfree_cases s bno with ⟨p, e, hfind, -, ht⟩ | ⟨p, e, hfind, -, ht⟩ | ⟨-, ht⟩
    · obtain ⟨he, -⟩ := inUse_of_findBlock hfind
      rw [ht]
      exact entry_setSlot he.1 hentry fun _ => hentry p e he
    · obtain ⟨he, -⟩ := inUse_of_findBlock hfind
      rw [ht]
      exact entry_setSlot he.1 hentry fun h => by cases h
    · rw [ht]
      exact hentry
  · rcases ffsBlkfree_cases s bno with ⟨p, e, -, -, ht⟩ | ⟨p, e, -, -, ht⟩ | ⟨-, ht⟩
    · rw [ht]
      exact hmap
    · rw [ht]
      exact hgive
    · rw [ht]
      exact hgive

variable [DecidableEq ι]

theorem Backed.ffsBalloc (hfrag : l.frag = 1) {env : Env} {size : ℕ} {clrbuf : Bool} {bp : Buf}
    (h : Backed l g₀ s)
    (hballoc : Ddfs.ffsBalloc s f lbn size clrbuf env = some (.ok (t, bp))) : Backed l g₀ t := by
  have hcounted := h.counted.ffsBalloc hballoc
  rcases ffsBalloc_state hballoc with ⟨-, rfl⟩ | ⟨hptr, newb, hfree, rfl⟩
  · exact h
  · obtain ⟨g, -, hgood, hmap⟩ := h.map
    have hdisk : OnDisk l newb := hgood.onDisk (by rw [← hmap]; exact hfree)
    refine ⟨hcounted, fun f' i hne => ?_, h.entry, h.map.take hfrag hfree⟩
    rw [Fs.ptr_setPtr, Fs.ptr_take] at hne ⊢
    by_cases hself : f' = f ∧ i = lbn
    · rw [if_pos hself]
      exact hdisk
    · rw [if_neg hself] at hne ⊢
      exact h.ptr f' i hne

omit [Fintype ι] in
/-- An assignment of the number of a block on disk to a block pointer. -/
theorem ptr_setPtr_onDisk {i : Fin 12} {b : ℤ} (h : ∀ f i, s.ptr f i ≠ 0 → OnDisk l (s.ptr f i))
    (hb : b ≠ 0 → OnDisk l b) (f' : ι) (j : Fin 12) (hne : (s.setPtr f i b).ptr f' j ≠ 0) :
    OnDisk l ((s.setPtr f i b).ptr f' j) := by
  rw [Fs.ptr_setPtr] at hne ⊢
  by_cases hself : f' = f ∧ j = i
  · rw [if_pos hself] at hne ⊢
    exact hb hne
  · rw [if_neg hself] at hne ⊢
    exact h f' j hne

theorem Backed.release (hfrag : l.frag = 1) (h : Backed l g₀ s) {i : Fin 12}
    (hptr : s.ptr f i ≠ 0) : Backed l g₀ (Ddfs.ffsBlkfree (s.setPtr f i 0) (s.ptr f i)) := by
  refine Backed.ffsBlkfree (s := s.setPtr f i 0) hfrag ?_ h.counted.freed
    (ptr_setPtr_onDisk h.ptr fun h0 => absurd rfl h0) h.entry h.map (h.ptr f i hptr)
  obtain ⟨m, hrep, hacc⟩ := h.counted.accounts
  refine ⟨m, hrep, hacc.congr fun b hb => ?_⟩
  have hmove := s.refs_setPtr f i 0 b
  rwa [if_neg hb, Nat.add_zero] at hmove

theorem Backed.truncTail (hfrag : l.frag = 1) (h : Backed l g₀ s) (f : ι) (length : ℕ) :
    Backed l g₀ (Ddfs.truncTail s f length) :=
  truncTail_rule h (fun h => h.congr rfl rfl rfl rfl) (fun h hptr => h.release hfrag hptr)
    (fun h => h.congr rfl (by funext g j; simp) rfl rfl)

theorem Backed.dedupBlock (hfrag : l.frag = 1) (h : Backed l g₀ s) {hash : Key}
    {entry : DdfsDedup} (hptr : s.ptr f lbn ≠ 0) (hok : DedupOk s (s.ptr f lbn) hash)
    (hdedup : Ddfs.dedupBlock s f lbn hash entry = some t) : Backed l g₀ t := by
  have hcounted := h.counted.dedupBlock countRel_le hptr hok
    (Or.inl fun _ _ hac => Nat.le_succ_of_le hac) hdedup
  have hself := h.ptr f lbn hptr
  rcases dedupBlock_cases hdedup with ⟨p, old, -, hfree, rfl⟩ | ⟨p, e, hkey, -, rfl⟩ |
    ⟨p, e, hkey, hother, rfl⟩
  · obtain ⟨hp, -⟩ := slot_of_findFree hfree
    exact ⟨hcounted, h.ptr, entry_setSlot hp h.entry fun _ => hself, h.map⟩
  · obtain ⟨he, -⟩ := inUse_of_findKey hkey
    exact ⟨hcounted, h.ptr, entry_setSlot he.1 h.entry fun _ => h.entry p e he, h.map⟩
  · obtain ⟨he, -⟩ := inUse_of_findKey hkey
    obtain ⟨m, hrep, hacc⟩ := h.counted.accounts
    refine Backed.ffsBlkfree hfrag ⟨_, hrep.retain he (hok.fits p e hkey), ?_⟩ h.counted.freed
      (ptr_setPtr_onDisk h.ptr fun _ => h.entry p e he)
      (entry_setSlot he.1 h.entry fun _ => h.entry p e he) h.map hself
    apply hacc.retain countRel_le (hrep.find he)
    intro b
    exact s.refs_setPtr f lbn e.blockptr b

/-- The groups follow the runs that make no second entry. -/
theorem Backed.noSecondEntry (hfrag : l.frag = 1) {sha1 : Block → Key} :
    Preserved sha1 (Ddfs.noSecondEntry sha1) f (Backed (ι := ι) l g₀) where
  iter := by
    intro s t lbn blkoffset chunk env err n hchunk hlen hs hguard hrun
    rcases ffsWriteIter_cases hchunk hlen hrun with ⟨rfl, -⟩ |
      ⟨s₁, bp, t', hballoc, hdedup, rfl, -, -⟩
    · exact hs
    · have hs₁ := hs.ffsBalloc hfrag hballoc
      have hptr : s₁.ptr f lbn ≠ 0 := by
        obtain ⟨m, -, hacc⟩ := hs.counted.accounts
        exact ffsBalloc_ptr_ne_zero hballoc (by simpa using hacc.hole_free)
      have hok : DedupOk s₁ (s₁.ptr f lbn) (iterKey sha1 bp blkoffset chunk env) :=
        hguard s₁ bp hballoc
      have hgrow : Backed l g₀ (s₁.grow f (lbn.val * 4096 + blkoffset + chunk.length)) :=
        hs₁.congr (by simp) (by funext g j; simp) (by simp) (by simp)
      have ht' : Backed l g₀ t' := by
        refine hgrow.dedupBlock hfrag (by simpa using hptr) ?_ hdedup
        exact ⟨by simpa using hok.noSecond, by simpa using hok.fits⟩
      exact ht'.congr rfl rfl rfl rfl
  trunc := by
    intro s t length env err hs _ hrun
    have h0 : s.freeMap 0 = false := by
      obtain ⟨m, -, hacc⟩ := hs.counted.accounts
      simpa using hacc.hole_free
    rcases ffsTruncate_cases h0 hrun with rfl | ⟨-, -, rfl⟩ | ⟨lbn, s₁, bp, -, -, hballoc, rfl⟩
    · exact hs
    · exact hs.truncTail hfrag f length
    · have hs₁ := hs.ffsBalloc hfrag hballoc
      split
      · exact hs₁.congr rfl (by funext g j; simp) rfl rfl
      · have hw : Backed l g₀ (s₁.bwrite f lbn (truncBuf s f length bp)) :=
          hs₁.congr rfl rfl rfl rfl
        exact hw.truncTail hfrag f length
  evict hs := hs.congr rfl rfl rfl rfl

/-- What a run leaves on the way from `s₀`. -/
theorem backed_of_run (hfrag : l.frag = 1) (hgood : Good l g₀) {s₀ : Fs ι} (hs₀ : Fresh s₀)
    (hmap : s₀.freeMap = g₀.freeMap l) {sha1 : Block → Key} {as : List (FsCall ι)}
    (hrun : (fsMachine ι sha1).Run ((noSecondEntry sha1).call sha1) s₀ as s) :
    Backed l g₀ s := by
  induction hrun with
  | nil =>
    refine ⟨counted_of_fresh hs₀, fun f i hne => absurd (hs₀.ptr f i) hne, fun p e he => ?_,
      g₀, .refl, hgood, hmap⟩
    obtain ⟨n, hn⟩ := hs₀.table
    rw [hn] at he
    exact absurd he not_inUse_mkfsTable
  | snoc _ hok hstep ih =>
    obtain ⟨err, hexec⟩ := hstep
    exact Preserved.exec (Backed.noSecondEntry hfrag) ih hok hexec

/-- In every run of writes and truncations that makes no second entry, on groups that are sound, the
free map is the one that the groups have: whatever blocks the run allocates and frees, there are
calls of `ffs_alloccg` and `ffs_blkfree_cg` that do the same, and none of them panics. The block of
a file is never free in its group, and whatever `ffs_alloc` returns next may be picked. -/
theorem groups_back_runs (hfrag : l.frag = 1) (hgood : Good l g₀) {s₀ : Fs ι} (hs₀ : Fresh s₀)
    (hmap : s₀.freeMap = g₀.freeMap l) {sha1 : Block → Key} {as : List (FsCall ι)}
    (hrun : (fsMachine ι sha1).Run ((noSecondEntry sha1).call sha1) s₀ as s) :
    ∃ g, ReflTransGen (BlockStep l) g₀ g ∧ Good l g ∧ s.freeMap = g.freeMap l ∧
      (∀ f i, s.ptr f i ≠ 0 → ∃ g', ffsBlkfreeCg l (fun _ => true) g (s.ptr f i).toNat l.bsize =
        some g') ∧
      ∀ env privileged buflocked cleanup inoCg bpref, inoCg < l.ncg → ∃ g' res,
        g.ffsAlloc l env privileged buflocked cleanup inoCg bpref l.bsize = some (g', res) ∧
        ∀ r, res = .ok r → s.freeMap r = true ∧ (s.take r).freeMap = g'.freeMap l := by
  have h := backed_of_run hfrag hgood hs₀ hmap hrun
  obtain ⟨g, hsteps, hgood', hfree⟩ := h.map
  refine ⟨g, hsteps, hgood', hfree, fun f i hne => ?_, ?_⟩
  · obtain ⟨g', heq, -⟩ := ffsBlkfreeCg_one hfrag hgood' (h.ptr f i hne)
      (by rw [← hfree]; exact h.used)
    exact ⟨g', heq⟩
  · intro env privileged buflocked cleanup inoCg bpref hino
    have hsize : 1 * l.geom.fsize = l.bsize := by
      rw [← hfrag]
      exact (Geometry.bsize_eq l.geom).symm
    obtain ⟨g', res, heq, -, hyes, hno⟩ := Groups.ffsAlloc_spec (n := 1) env privileged buflocked
      cleanup hgood' hino bpref (Nat.le_refl 1) (Nat.le_of_eq hfrag.symm)
    rw [hsize] at heq
    refine ⟨g', res, heq, fun r hr => ?_⟩
    by_cases havail : Available l (env 0).readable privileged g 1 1 ∨
        buflocked = false ∧ Available l (env 1).readable privileged g 1 1
    · obtain ⟨r', hr', -, hend, htakes, -⟩ := hyes havail
      obtain rfl : r' = r := by
        rw [hr'] at hr
        exact Except.ok.inj hr
      have hset : g.free l r' = true := htakes.was 0 (by omega)
      have hlt := hgood'.lt_size (Nat.div_lt_of_lt_mul (by omega)) hset
      refine ⟨?_, ?_⟩
      · rw [hfree, Groups.freeMap_eq_true, Int.toNat_natCast]
        exact ⟨by omega, hlt, hset⟩
      · rw [htakes.freeMap, ← hfree]
        rfl
    · rw [(hno havail).1] at hr
      cases hr

end Files

/-- The first byte that a new file gets, on a medium of 43 blocks. -/
theorem groups_back_runs_small : ∃ (l : FsLayout) (s : Fs Unit), s.ptr () 0 = 42 ∧
    ∃ g, ReflTransGen (BlockStep l)
        (mkfsGroups l.geom (layoutOf .whole (43 * 4096) 44 32) .time) g ∧ Good l g ∧
      s.freeMap = g.freeMap l ∧
      (∀ f i, s.ptr f i ≠ 0 → ∃ g', ffsBlkfreeCg l (fun _ => true) g (s.ptr f i).toNat l.bsize =
        some g') ∧
      ∀ env privileged buflocked cleanup inoCg bpref, inoCg < l.ncg → ∃ g' res,
        g.ffsAlloc l env privileged buflocked cleanup inoCg bpref l.bsize = some (g', res) ∧
        ∀ r, res = .ok r → s.freeMap r = true ∧ (s.take r).freeMap = g'.freeMap l := by
  obtain ⟨l, hgeom, -, -, -, hdrift, h⟩ :=
    completes_small.laid (by decide) (by decide) 0 0 0
  have hgood := h.good (by rw [hgeom]; exact hdrift) .time
  generalize hg₀ : mkfsGroups l.geom (layoutOf .whole (43 * 4096) 44 32) .time = g₀ at hgood
  let s₀ : Fs Unit := { smallFs Unit with freeMap := g₀.freeMap l }
  have hboot : g₀.freeMap l 0 = false := by
    rw [← Bool.not_eq_true]
    exact fun h0 => absurd (hgood.onDisk h0).1 (lt_irrefl 0)
  have hs₀ : Fresh s₀ := ⟨⟨1, rfl⟩, fun _ _ => rfl, fun _ => rfl, fun _ _ => rfl, hboot, rfl⟩
  have hfree : s₀.freeMap 42 = true := by
    have hlt : 0 < l.ncg := l.ncg_pos
    have hmap := h.free_cgbase .time hlt (i := 42) (by rw [← h.fpg]; decide)
    have hz : l.cgbase 0 = 0 := Nat.mul_zero _
    rw [hg₀, hz, initcgIsfree, ← h.size, ← h.fpg, hgeom, hz,
      decide_eq_true (p := dupper _ _ _ ≤ 42 ∧ _) (by decide), Bool.or_true] at hmap
    refine Groups.freeMap_eq_true.mpr ⟨by decide, by rw [← h.size]; decide, hmap⟩
  have hdedup : dedupBlock (((s₀.take 42).setPtr () 0 42).grow () 1) () 0 (prefixKey (oneByte 1))
      zeroEntry = some ((((s₀.take 42).setPtr () 0 42).grow () 1).setTable
        (setSlot (mkfsTable 1) (0, 0) (newEntry (prefixKey (oneByte 1)) 42))) := by
    have htable : (((s₀.take 42).setPtr () 0 42).grow () 1).table = mkfsTable 1 :=
      Fs.table_grow _ _ _
    rw [dedupBlock_new (p := (0, 0)), htable]
    · simp [newEntry]
    · rw [htable]
      exact findKey_eq_none.mpr fun p e he => absurd he not_inUse_mkfsTable
    · rw [htable]
      rfl
  have hexec := exec_writeByte_hole (f := ()) rfl rfl hfree hdedup
  have hguard : (noSecondEntry prefixKey).call prefixKey s₀ (writeByte () 1 42) := by
    apply Guard.call_writeByte
    refine iterWrite_hole (P := fun _ s₁ f lbn blkoffset chunk env bp =>
      DedupOk s₁ (s₁.ptr f lbn) (iterKey prefixKey bp blkoffset chunk env)) rfl rfl hfree ?_
    refine ⟨fun _ => ?_, fun p e hkey => ?_⟩
    · exact findBlock_eq_none.mpr fun p e he => absurd he not_inUse_mkfsTable
    · exact absurd (inUse_of_findKey hkey).1 not_inUse_mkfsTable
  subst hg₀
  exact ⟨l, _, by simp, groups_back_runs (by rw [FsLayout.frag, hgeom]; rfl) hgood hs₀ rfl
    (.snoc (.nil s₀) hguard ⟨none, hexec⟩)⟩

end EmbeddedOs.Ddfs
