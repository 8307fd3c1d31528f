import EmbeddedOs.Ddfs.AllocCalls

/-!
# Allocation of a cluster

`ffs_clusteralloc` allocates a number of blocks in a row. The summary tells whether there is such a
cluster at all; the search goes on from the preferred block and takes the first one behind it.
-/

namespace EmbeddedOs.Ddfs

open Lib BitRuns

/-- The loop of `ffs_clusteralloc` over the summary: the first size from `i` on with a cluster. -/
def clusterSize (lp : ℕ → ℤ) : ℕ → ℕ → ℕ
  | 0, i => i
  | n + 1, i => if 0 < lp i then i else clusterSize lp n (i + 1)

/-- The block of the group from which `ffs_clusteralloc` searches. -/
def clusterPref (l : FsLayout) (cg bpref : ℕ) : ℕ :=
  let bpref := if l.dtog bpref ≠ cg then l.cgdata cg else l.blknum bpref
  l.fragstoblks (l.dtogd bpref)

/-- The last loop of `ffs_clusteralloc`: allocate `n` blocks from `bno` on; it is none where the
code panics. -/
def takeCluster (l : FsLayout) (cg : ℕ) : ℕ → ℕ → Groups → Option Groups
  | 0, _, s => some s
  | n + 1, bno, s =>
    match ffsAlloccgblk l s cg bno l.bsize with
    | none => none
    | some (s, r) =>
      -- `ffs_clusteralloc: lost block`
      if r ≠ bno then none else takeCluster l cg n (bno + l.frag) s

/-- `ffs_clusteralloc`: allocate a cluster of `len` blocks in a group, 0 if there is none. -/
def ffsClusteralloc (l : FsLayout) (readable : ℕ → Bool) (s : Groups) (cg bpref len : ℕ) :
    Option (Groups × ℕ) :=
  if s.maxcluster cg < len then some (s, 0)
  else
    match ffsGetcg readable s cg with
    | none => some (s, 0)
    | some cgp =>
      if l.contigsumsize < clusterSize cgp.clustersum (l.contigsumsize + 1 - len) len then
        -- the true maximum, for the requests to come
        let i := lastPositive cgp.clustersum (len - 1)
        some ({ s with maxcluster := Function.update s.maxcluster cg i }, 0)
      else
        let bpref := clusterPref l cg bpref
        match findRun cgp.clustersfree.isset len (cgp.nclusterblks - bpref) bpref 0 with
        | none => some (s, 0)
        | some got =>
          let start := got + 1 - len
          -- `ffs_clusteralloc: map mismatch`
          if !(List.range len).all fun i => ffsIsblock l.frag cgp.blksfree (start + i) then none
          else
            let bno := l.cgbase cg + l.blkstofrags start
            -- `ffs_clusteralloc: allocated out of group`
            if l.dtog bno ≠ cg then none
            else (takeCluster l cg len bno s).map fun s => (s, bno)

/-- `k` blocks at `r` are taken from the free map, and nothing else changes. -/
structure TakesBlocks (l : FsLayout) (s s' : Groups) (r k : ℕ) : Prop where
  /-- They are whole blocks. -/
  aligned : r % l.frag = 0
  /-- They were free. -/
  was : ∀ i, i < k * l.frag → s.free l (r + i) = true
  /-- They are all that is not free any more. -/
  free : ∀ d, s'.free l d = (!decide (r ≤ d ∧ d < r + k * l.frag) && s.free l d)
  /-- The inodes are as before. -/
  inodes : ∀ c, SameInodes (s.cg c) (s'.cg c)

/-- `k` blocks of a group from `b` on are free. -/
def FreeBlocks (l : FsLayout) (m : BitMap) (b k : ℕ) : Prop :=
  ∀ i, i < k → ffsIsblock l.frag m (b + i) = true

section Blocks

variable {l : FsLayout} {s t u : Groups} {b cg k len r : ℕ}

theorem TakesBlocks.refl (l : FsLayout) (s : Groups) (hr : r % l.frag = 0) :
    TakesBlocks l s s r 0 := by
  refine ⟨hr, fun i hi => by omega, fun d => ?_, fun c => SameInodes.refl _⟩
  have hout : ¬ (r ≤ d ∧ d < r + 0 * l.frag) := by omega
  rw [decide_eq_false hout, Bool.not_false, Bool.true_and]

/-- The first block, and the blocks behind it. -/
theorem Takes.blocks (h : Takes l s t r l.frag) (hrest : TakesBlocks l t u (r + l.frag) k) :
    TakesBlocks l s u r (k + 1) := by
  have hfits := h.fits
  refine ⟨by omega, fun i hi => ?_, fun d => ?_,
    fun c => (h.inodes c).trans (hrest.inodes c)⟩
  · rw [Nat.succ_mul] at hi
    rcases Nat.lt_or_ge i l.frag with hlt | hge
    · exact h.was i hlt
    · have hwas := hrest.was (i - l.frag) (by omega)
      rw [h.free, Bool.and_eq_true, Nat.add_assoc, Nat.add_sub_cancel' hge] at hwas
      exact hwas.2
  · rw [hrest.free, h.free, ← Bool.and_assoc, ← Bool.not_or, ← Bool.decide_or]
    have hiff : (r + l.frag ≤ d ∧ d < r + l.frag + k * l.frag ∨ r ≤ d ∧ d < r + l.frag) ↔
        (r ≤ d ∧ d < r + (k + 1) * l.frag) := by
      rw [Nat.succ_mul]
      omega
    rw [decide_eq_decide.mpr hiff]

/-- A free block of a group is free in the file system, and the other way round. -/
theorem isblock_iff_free (hb : b < l.blocks) :
    ffsIsblock l.frag (s.cg cg).blksfree b = true ↔
      ∀ i, i < l.frag → s.free l (l.cgbase cg + b * l.frag + i) = true := by
  have hmul : (b + 1) * l.frag ≤ l.blocks * l.frag := Nat.mul_le_mul_right _ hb
  rw [l.blocks_mul, Nat.succ_mul] at hmul
  have hfree : ∀ i, i < l.frag → s.free l (l.cgbase cg + b * l.frag + i) =
      (s.cg cg).blksfree.isset (b * l.frag + i) := fun i hi => by
    rw [Nat.add_assoc, Groups.free, l.dtog_cgbase (by omega), l.dtogd_cgbase (by omega)]
  constructor
  · intro h i hi
    rw [hfree i hi]
    exact (ffsIsblock_iff l.geom _ b).mp h i hi
  · intro h
    refine (ffsIsblock_iff l.geom _ b).mpr fun i hi => ?_
    have := h i hi
    rwa [hfree i hi] at this

/-- A block that is asked for and is free is the one that `ffs_alloccgblk` allocates. -/
theorem ffsAlloccgblk_block (hgood : Good l s) (hcg : cg < l.ncg) (hb : b < l.blocks)
    (hblock : ffsIsblock l.frag (s.cg cg).blksfree b = true) :
    ∃ t, ffsAlloccgblk l s cg (l.cgbase cg + b * l.frag) l.bsize =
        some (t, l.cgbase cg + b * l.frag) ∧ Good l t ∧
      Takes l s t (l.cgbase cg + b * l.frag) l.frag := by
  have hpos := l.frag_pos
  have hok := hgood.group cg hcg
  have hlt : b * l.frag < l.fpg := by
    rw [← l.blocks_mul]
    exact Nat.mul_lt_mul_of_pos_right hb hpos
  have hne : l.cgbase cg + b * l.frag ≠ 0 := fun heq => by
    have := (isblock_iff_free hb).mp hblock 0 hpos
    rw [heq] at this
    exact absurd (this.symm.trans hgood.zero) (by decide)
  have hpref : ffsAlloccgblkPref l (s.cg cg) (l.cgbase cg + b * l.frag) =
      l.cgbase cg + b * l.frag := by
    unfold ffsAlloccgblkPref
    rw [if_neg hne, hok.cgx_eq, l.dtog_cgbase hlt, if_neg (not_not.mpr rfl)]
  have hmod : (l.cgbase cg + b * l.frag) % l.frag = 0 := by
    rw [Nat.add_mul_mod_self_right, l.cgbase_mod]
  have hblknum : l.dtogd (l.blknum (l.cgbase cg + b * l.frag)) = b * l.frag := by
    rw [FsLayout.blknum, Nat.div_mul_cancel (Nat.dvd_of_mod_eq_zero hmod), l.dtogd_cgbase hlt]
  obtain ⟨t, bno, heq, hgood', htakes, -, -, hsame⟩ := ffsAlloccgblk_takes l.bsize
    hgood hcg (l.cgbase cg + b * l.frag)
    ((nbfree_ne_zero_iff hok).mpr (hasRoom_of_mem_runs hpos (Nat.le_refl _) hb
      (mem_runs_of_isblock hblock) (Nat.le_refl _)))
    (by rw [l.numfrags_bsize]; exact hpos) (by rw [l.numfrags_bsize])
  rw [hpref, hblknum, Nat.mul_div_cancel _ hpos] at hsame
  obtain rfl := hsame hblock
  rw [l.numfrags_bsize] at htakes
  exact ⟨t, heq, hgood', htakes⟩

/-- The loop takes blocks that are free. -/
theorem takeCluster_spec (hgood : Good l s) (hcg : cg < l.ncg) (hend : b + k ≤ l.blocks)
    (hfree : FreeBlocks l (s.cg cg).blksfree b k) :
    ∃ t, takeCluster l cg k (l.cgbase cg + b * l.frag) s = some t ∧ Good l t ∧
      TakesBlocks l s t (l.cgbase cg + b * l.frag) k := by
  have hmod : (l.cgbase cg + b * l.frag) % l.frag = 0 := by
    rw [Nat.add_mul_mod_self_right, l.cgbase_mod]
  induction k generalizing s b with
  | zero => exact ⟨s, rfl, hgood, TakesBlocks.refl l s hmod⟩
  | succ k ih =>
    obtain ⟨t, heq, hgood', htakes⟩ := ffsAlloccgblk_block (b := b) hgood hcg (by omega)
      (hfree 0 (Nat.succ_pos k))
    have hnext : l.cgbase cg + b * l.frag + l.frag = l.cgbase cg + (b + 1) * l.frag := by
      rw [Nat.succ_mul, Nat.add_assoc]
    -- the blocks behind are still free
    have hrest : FreeBlocks l (t.cg cg).blksfree (b + 1) k := fun i hi => by
      have hlt : b + 1 + i < l.blocks := by omega
      have hold := hfree (i + 1) (by omega)
      rw [Nat.add_comm i 1, ← Nat.add_assoc] at hold
      refine (isblock_iff_free hlt).mpr fun j hj => ?_
      have hset := (isblock_iff_free hlt).mp hold j hj
      have hmul : b * l.frag + l.frag ≤ (b + 1 + i) * l.frag := by
        rw [Nat.add_mul, Nat.add_mul, Nat.one_mul]
        exact Nat.le_add_right _ _
      have hout : ¬ (l.cgbase cg + b * l.frag ≤ l.cgbase cg + (b + 1 + i) * l.frag + j ∧
          l.cgbase cg + (b + 1 + i) * l.frag + j < l.cgbase cg + b * l.frag + l.frag) := by omega
      rw [htakes.free, decide_eq_false hout, hset]
      rfl
    have hmod' : (l.cgbase cg + (b + 1) * l.frag) % l.frag = 0 := by
      rw [Nat.add_mul_mod_self_right, l.cgbase_mod]
    obtain ⟨u, heq', hgood'', hblocks⟩ := ih hgood' (by omega) hrest hmod'
    refine ⟨u, ?_, hgood'', htakes.blocks (hnext ▸ hblocks)⟩
    unfold takeCluster
    simp only [heq, ne_eq, not_true, if_false, hnext, heq']

end Blocks

section Summary

variable {lp : ℕ → ℤ} {i k n : ℕ}

/-- No size before the first one has a cluster. -/
theorem not_pos_of_lt_clusterSize (hi : i ≤ k) (hk : k < clusterSize lp n i) : ¬ 0 < lp k := by
  induction n generalizing i with
  | zero => exact absurd hk (Nat.not_lt_of_ge hi)
  | succ n ih =>
    unfold clusterSize at hk
    split at hk
    · omega
    · rename_i hz
      rcases Nat.lt_or_ge i k with hlt | hge
      · exact ih hlt hk
      · obtain rfl : i = k := by omega
        exact hz

end Summary

section Cluster

variable {l : FsLayout} {s : Groups} {cg len p : ℕ}

/-- A run of free blocks is in a cluster, which `fs_maxcluster` and the summary have. -/
theorem ClusterMap.exists_size (hc : ClusterMap l (s.cg cg)) (hlen : 1 ≤ len)
    (hle : len ≤ l.contigsumsize) (hend : p + len ≤ (s.cg cg).nclusterblks)
    (hfree : FreeBlocks l (s.cg cg).blksfree p len) :
    ∃ k, len ≤ k ∧ k ≤ l.contigsumsize ∧ 0 < (s.cg cg).clustersum k := by
  obtain ⟨r, hr, hmem⟩ := BitRuns.exists_run (f := (s.cg cg).clustersfree.isset) (a := 0)
    (p := p) (k := (s.cg cg).nclusterblks) hlen hend fun i hi => by
      rw [Nat.zero_add, hc.isset (p + i) (by omega)]
      exact hfree i hi
  have hk : 1 ≤ min l.contigsumsize r := by omega
  refine ⟨min l.contigsumsize r, by omega, Nat.min_le_left _ _, ?_⟩
  rw [hc.exact _ hk (Nat.min_le_left _ _), clusters]
  have hin : min l.contigsumsize r ∈
      (runs (seg (s.cg cg).clustersfree.isset 0 (s.cg cg).nclusterblks)).map
        (min l.contigsumsize) := List.mem_map_of_mem hmem
  exact_mod_cast List.count_pos_iff.mpr hin

/-- The blocks of the cluster map are blocks of the group. -/
theorem GroupOk.nclusterblks_le {c : Cg} (hok : GroupOk l cg c) (hl : l.contigsumsize ≠ 0) :
    c.nclusterblks ≤ l.blocks := by
  rw [(hok.clusters hl).nclusterblks]
  exact Nat.div_le_div_right hok.ndblk_le

/-- A change of `fs_maxcluster` to what the summary has keeps the invariant. -/
theorem Good.setMaxcluster {bound : ℕ} (hgood : Good l s)
    (h : ClusterBound l (s.cg cg).clustersum bound) :
    Good l { s with maxcluster := Function.update s.maxcluster cg bound } :=
  ⟨hgood.group, hgood.cs, hgood.totals, fun c hc => by
    simp only
    by_cases heq : c = cg
    · subst c
      rw [Function.update_self]
      exact h
    · rw [Function.update_of_ne heq]
      exact hgood.maxcluster c hc, hgood.zero⟩

/-- `ffs_clusteralloc` does not panic. It takes the first cluster of the group from the preferred
block on, and if it takes none, the group cannot be read or has no such cluster. -/
theorem ffsClusteralloc_spec (readable : ℕ → Bool) (hgood : Good l s) (hcg : cg < l.ncg)
    (bpref : ℕ) (hlen : 1 ≤ len) :
    ∃ s' r, ffsClusteralloc l readable s cg bpref len = some (s', r) ∧ Good l s' ∧
      (r = 0 → s'.cg = s.cg ∧ (readable cg = true → len ≤ l.contigsumsize → ∀ p,
        clusterPref l cg bpref ≤ p → p + len ≤ (s.cg cg).nclusterblks →
          ¬ FreeBlocks l (s.cg cg).blksfree p len)) ∧
      (r ≠ 0 → ∃ b, clusterPref l cg bpref ≤ b ∧ r = l.cgbase cg + b * l.frag ∧
        b + len ≤ l.blocks ∧ TakesBlocks l s s' r len ∧
        ∀ p, clusterPref l cg bpref ≤ p → p < b →
          ¬ FreeBlocks l (s.cg cg).blksfree p len) := by
  have hok := hgood.group cg hcg
  have hbound := hgood.maxcluster cg hcg
  unfold ffsClusteralloc
  by_cases hmax : s.maxcluster cg < len
  · rw [if_pos hmax]
    refine ⟨s, 0, rfl, hgood, fun _ => ⟨rfl, fun _ hle p _ hend hfree => ?_⟩,
      fun h => absurd rfl h⟩
    obtain ⟨k, hk, hkl, hpos⟩ := (hok.clusters (by omega)).exists_size hlen hle hend hfree
    have := hbound.bounds k (by omega) hkl hpos
    omega
  have hle : len ≤ l.contigsumsize := (Nat.le_of_not_lt hmax).trans hbound.le
  have hl : l.contigsumsize ≠ 0 := by omega
  have hclusters := hok.clusters hl
  rw [if_neg hmax, ffsGetcg_eq readable hok]
  cases hread : readable cg with
  | false => exact ⟨s, 0, rfl, hgood, fun _ => ⟨rfl, fun h => absurd h (by decide)⟩,
      fun h => absurd rfl h⟩
  | true =>
    simp only [if_true]
    by_cases hsize : l.contigsumsize <
        clusterSize (s.cg cg).clustersum (l.contigsumsize + 1 - len) len
    · have hnone : ∀ k, len ≤ k → k ≤ l.contigsumsize → ¬ 0 < (s.cg cg).clustersum k :=
        fun k hk hkl => not_pos_of_lt_clusterSize hk (lt_of_le_of_lt hkl hsize)
      rw [if_pos hsize]
      refine ⟨_, 0, rfl, hgood.setMaxcluster ⟨?_, fun i hi hil hpos => ?_⟩,
        fun _ => ⟨rfl, fun _ _ p _ hend hfree => ?_⟩, fun h => absurd rfl h⟩
      · have := lastPositive_le (s.cg cg).clustersum (len - 1)
        omega
      · refine le_lastPositive ?_ hpos
        by_contra hgt
        exact hnone i (by omega) hil hpos
      · obtain ⟨k, hk, hkl, hpos⟩ := hclusters.exists_size hlen hle hend hfree
        exact hnone k hk hkl hpos
    · rw [if_neg hsize]
      generalize hpref : clusterPref l cg bpref = pref
      -- a window of the cluster map is a run of free blocks
      have hwindow : ∀ p, p + len ≤ (s.cg cg).nclusterblks →
          (∃ i, i < len ∧ (s.cg cg).clustersfree.isset (p + i) = false) →
          ¬ FreeBlocks l (s.cg cg).blksfree p len := by
        rintro p hend ⟨i, hi, hclr⟩ hfree
        rw [hclusters.isset _ (by omega), hfree i hi] at hclr
        exact absurd hclr (by decide)
      cases hfind : findRun (s.cg cg).clustersfree.isset len ((s.cg cg).nclusterblks - pref)
          pref 0 with
      | none =>
        refine ⟨s, 0, rfl, hgood, fun _ => ⟨rfl, fun _ _ p hp hend => hwindow p hend ?_⟩,
          fun h => absurd rfl h⟩
        exact findRun_none (Nat.zero_le _) (by omega) hfind (by omega) (by omega)
      | some got =>
        obtain ⟨hgot, hlow, hset, hfirst⟩ := findRun_some (Nat.zero_le _) (by omega)
          (fun i hi => absurd hi (Nat.not_lt_zero i)) hfind
        rw [Nat.sub_zero] at hlow hfirst
        have hend : got + 1 - len + len ≤ (s.cg cg).nclusterblks := by omega
        have hblocks : got + 1 - len + len ≤ l.blocks := hend.trans (hok.nclusterblks_le hl)
        have hfree : FreeBlocks l (s.cg cg).blksfree (got + 1 - len) len := fun i hi => by
          rw [← hclusters.isset _ (by omega)]
          exact hset i hi
        have hall : ((List.range len).all fun i =>
            ffsIsblock l.frag (s.cg cg).blksfree (got + 1 - len + i)) = true :=
          List.all_eq_true.mpr fun i hi => hfree i (List.mem_range.mp hi)
        have hdtog : l.dtog (l.cgbase cg + (got + 1 - len) * l.frag) = cg := by
          refine l.dtog_cgbase ?_
          rw [← l.blocks_mul]
          exact Nat.mul_lt_mul_of_pos_right (by omega) l.frag_pos
        obtain ⟨t, heq, hgood', htakes⟩ := takeCluster_spec hgood hcg hblocks hfree
        have hne : l.cgbase cg + (got + 1 - len) * l.frag ≠ 0 := fun hz => by
          have := htakes.was 0 (Nat.mul_pos hlen l.frag_pos)
          rw [hz] at this
          exact absurd (this.symm.trans hgood.zero) (by decide)
        simp only [hall, Bool.not_true, Bool.false_eq_true, if_false, FsLayout.blkstofrags, hdtog,
          ne_eq, not_true, heq, Option.map_some]
        refine ⟨t, _, rfl, hgood', fun h => absurd h hne, fun _ => ⟨got + 1 - len, by omega, rfl,
          hblocks, htakes, fun p hp hlt => hwindow p (by omega) (hfirst p hp (by omega))⟩⟩

end Cluster

end EmbeddedOs.Ddfs
