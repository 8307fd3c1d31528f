import EmbeddedOs.Ddfs.CylinderGroup
import EmbeddedOs.Lib.BitRuns
import Mathlib.Algebra.Order.Group.Nat

/-!
# The summary of the free clusters

A group counts its clusters, the maximal runs of free blocks, by their length; the last count
has all clusters of `fs_contigsumsize` blocks or more. `ffs_clusteracct` updates the counts for
one block by the runs below and above it, of which it looks at no more than
`fs_contigsumsize` blocks.
-/

namespace EmbeddedOs.Ddfs

open Lib BitRuns

/-- The last loop of `ffs_clusteracct`: the largest size up to `i` with a cluster. -/
def lastPositive (sump : ℕ → ℤ) : ℕ → ℕ
  | 0 => 0
  | i + 1 => if 0 < sump (i + 1) then i + 1 else lastPositive sump i

/-- `sump[i] += d`. -/
def addAt (sump : ℕ → ℤ) (i : ℕ) (d : ℤ) : ℕ → ℤ := Function.update sump i (sump i + d)

/-- `ffs_clusteracct`: `cnt` is 1 for a block that becomes free, and -1 for one that is allocated.
The result has the new `fs_maxcluster`. -/
def ffsClusteracct (l : FsLayout) (cgp : Cg) (maxcluster : ℕ → ℕ) (blkno : ℕ) (cnt : ℤ) :
    Cg × (ℕ → ℕ) :=
  if l.contigsumsize = 0 then (cgp, maxcluster)
  else
    let freemapp :=
      if 0 < cnt then cgp.clustersfree.setbit blkno else cgp.clustersfree.clrbit blkno
    -- the size of the cluster going forward
    let start := blkno + 1
    let stop := min (start + l.contigsumsize) cgp.nclusterblks
    let forw := forward freemapp.isset (stop - start) start
    -- the size of the cluster going backward
    let back := backward freemapp.isset (min l.contigsumsize blkno) blkno
    let i := min (back + forw + 1) l.contigsumsize
    let sump := addAt cgp.clustersum i cnt
    let sump := if 0 < back then addAt sump back (-cnt) else sump
    let sump := if 0 < forw then addAt sump forw (-cnt) else sump
    ({ cgp with clustersum := sump, clustersfree := freemapp },
      Function.update maxcluster cgp.cgx (lastPositive sump l.contigsumsize))

/-- The clusters of a map of free blocks, no longer than `bound`. -/
def clusters (bound : ℕ) (free : ℕ → Bool) (n : ℕ) : List ℕ := (runs (seg free 0 n)).map (min bound)

/-- The counts are those of the map. -/
def ClustersExact (l : FsLayout) (cgp : Cg) : Prop :=
  ∀ i, 1 ≤ i → i ≤ l.contigsumsize → cgp.clustersum i =
    (clusters l.contigsumsize cgp.clustersfree.isset cgp.nclusterblks).count i

/-- `fs_maxcluster` of a group: no cluster of the group is larger. -/
structure ClusterBound (l : FsLayout) (clustersum : ℕ → ℤ) (bound : ℕ) : Prop where
  /-- Larger clusters are not told apart. -/
  le : bound ≤ l.contigsumsize
  /-- The sizes with a cluster. -/
  bounds : ∀ i, 1 ≤ i → i ≤ l.contigsumsize → 0 < clustersum i → i ≤ bound

theorem lastPositive_le (sump : ℕ → ℤ) (n : ℕ) : lastPositive sump n ≤ n := by
  induction n with
  | zero => exact Nat.le_refl 0
  | succ n ih =>
    unfold lastPositive
    split <;> omega

theorem le_lastPositive {sump : ℕ → ℤ} {n i : ℕ} (hi : i ≤ n) (hpos : 0 < sump i) :
    i ≤ lastPositive sump n := by
  induction n with
  | zero => exact hi
  | succ n ih =>
    unfold lastPositive
    split
    · exact hi
    · rename_i hz
      rcases Nat.eq_or_lt_of_le hi with rfl | hlt
      · exact absurd hpos hz
      · exact ih (by omega)

theorem addAt_apply (sump : ℕ → ℤ) (i : ℕ) (d : ℤ) (j : ℕ) :
    addAt sump i d j = sump j + if j = i then d else 0 := by
  by_cases hj : j = i
  · subst j
    simp [addAt]
  · simp [addAt, hj]

theorem count_map_runOf {bound : ℕ} (hb : 0 < bound) (k i : ℕ) (hi : 1 ≤ i) :
    ((runOf k).map (min bound)).count i = if min bound k = i then 1 else 0 := by
  rcases Nat.eq_zero_or_pos k with rfl | hk
  · rw [runOf_zero, if_neg (by omega)]
    rfl
  · rw [runOf_of_pos hk, List.map_singleton, List.count_singleton]
    simp only [beq_iff_eq]

/-- The counts of the clusters of two maps that differ in one block. -/
theorem count_clusters_flip (bound : ℕ) {n p i : ℕ} {f g : ℕ → Bool} (hb : 0 < bound) (hp : p < n)
    (hfg : ∀ j, j ≠ p → f j = g j) (hf : f p = false) (hg : g p = true) (hi : 1 ≤ i) :
    (clusters bound g n).count i +
        ((if min bound (backward f p p) = i then 1 else 0) +
          (if min bound (forward f (n - (p + 1)) (p + 1)) = i then 1 else 0)) =
      (clusters bound f n).count i +
        if min bound (backward f p p + forward f (n - (p + 1)) (p + 1) + 1) = i then 1 else 0 := by
  obtain ⟨left, right, hfruns, hgruns⟩ := runs_flip hp hfg hf hg
  rw [clusters, clusters, hfruns, hgruns]
  simp only [List.map_append, List.count_append, List.map_cons, List.count_cons, beq_iff_eq,
    count_map_runOf hb _ i hi]
  omega

/-- What `ffs_clusteracct` makes of a count, in terms of a map of free blocks without the block
itself. -/
theorem clustersum_ffsClusteracct (l : FsLayout) (cgp : Cg) (maxcluster : ℕ → ℕ) {blkno : ℕ}
    (cnt : ℤ) (hl : l.contigsumsize ≠ 0) (f : ℕ → Bool)
    (hf : ∀ j, j ≠ blkno → f j = cgp.clustersfree.isset j) {i : ℕ} (hi : 1 ≤ i) :
    (ffsClusteracct l cgp maxcluster blkno cnt).1.clustersum i = cgp.clustersum i +
      ((if min l.contigsumsize (backward f blkno blkno +
          forward f (cgp.nclusterblks - (blkno + 1)) (blkno + 1) + 1) = i then cnt else 0) -
        (if min l.contigsumsize (backward f blkno blkno) = i then cnt else 0) -
        if min l.contigsumsize (forward f (cgp.nclusterblks - (blkno + 1)) (blkno + 1)) = i
          then cnt else 0) := by
  unfold ffsClusteracct
  rw [if_neg hl]
  have hmap : ∀ j, j ≠ blkno →
      (if 0 < cnt then cgp.clustersfree.setbit blkno
        else cgp.clustersfree.clrbit blkno).isset j = f j := by
    intro j hj
    rw [hf j hj]
    split
    · rw [BitMap.isset_setbit, beq_eq_false_iff_ne.mpr hj, Bool.false_or]
    · rw [BitMap.isset_clrbit, bne_iff_ne.mpr hj, Bool.true_and]
  generalize hm : (if 0 < cnt then cgp.clustersfree.setbit blkno
    else cgp.clustersfree.clrbit blkno) = freemapp at hmap ⊢
  have hstop : min (blkno + 1 + l.contigsumsize) cgp.nclusterblks - (blkno + 1) =
      min l.contigsumsize (cgp.nclusterblks - (blkno + 1)) := by omega
  have hforw : forward freemapp.isset
      (min (blkno + 1 + l.contigsumsize) cgp.nclusterblks - (blkno + 1)) (blkno + 1) =
      min l.contigsumsize (forward f (cgp.nclusterblks - (blkno + 1)) (blkno + 1)) := by
    rw [hstop, forward_min, forward_congr fun j hj => hmap j (by omega)]
  have hback : backward freemapp.isset (min l.contigsumsize blkno) blkno =
      min l.contigsumsize (backward f blkno blkno) := by
    rw [backward_min, backward_congr fun j hj => hmap j (by omega)]
  simp only [hforw, hback]
  generalize hB : backward f blkno blkno = B
  generalize hF : forward f (cgp.nclusterblks - (blkno + 1)) (blkno + 1) = F
  have hi' : min (min l.contigsumsize B + min l.contigsumsize F + 1) l.contigsumsize =
      min l.contigsumsize (B + F + 1) := by omega
  rw [hi']
  have hlast : ∀ (sump : ℕ → ℤ) (x : ℕ),
      (if 0 < x then addAt sump x (-cnt) else sump) i = sump i - if x = i then cnt else 0 := by
    intro sump x
    rcases Nat.eq_zero_or_pos x with rfl | hx
    · rw [if_neg (Nat.lt_irrefl 0), if_neg (by omega), sub_zero]
    · rw [if_pos hx, addAt_apply]
      by_cases hxi : x = i
      · rw [if_pos hxi, if_pos hxi.symm, sub_eq_add_neg]
      · rw [if_neg hxi, if_neg fun h => hxi h.symm]
        simp
  rw [hlast, hlast, addAt_apply]
  by_cases h1 : min l.contigsumsize (B + F + 1) = i
  · rw [if_pos h1.symm, if_pos h1]
    omega
  · rw [if_neg (fun h => h1 h.symm), if_neg h1]
    omega

section Kept

variable (l : FsLayout) (cgp : Cg) (maxcluster : ℕ → ℕ) (blkno : ℕ) (cnt : ℤ)

@[simp] theorem nclusterblks_ffsClusteracct :
    (ffsClusteracct l cgp maxcluster blkno cnt).1.nclusterblks = cgp.nclusterblks := by
  unfold ffsClusteracct
  split <;> rfl

/-- The map of the free clusters afterwards. -/
theorem clustersfree_ffsClusteracct (hl : l.contigsumsize ≠ 0) :
    (ffsClusteracct l cgp maxcluster blkno cnt).1.clustersfree =
      if 0 < cnt then cgp.clustersfree.setbit blkno else cgp.clustersfree.clrbit blkno := by
  unfold ffsClusteracct
  rw [if_neg hl]

/-- `ffs_clusteracct` changes the cluster map and its summary only. -/
theorem ffsClusteracct_frame : ∃ sum free, (ffsClusteracct l cgp maxcluster blkno cnt).1 =
    { cgp with clustersum := sum, clustersfree := free } := by
  unfold ffsClusteracct
  split
  · exact ⟨cgp.clustersum, cgp.clustersfree, rfl⟩
  · exact ⟨_, _, rfl⟩

/-- `fs_maxcluster` of the other groups is kept. -/
theorem maxcluster_ffsClusteracct_of_ne {c : ℕ} (hc : c ≠ cgp.cgx) :
    (ffsClusteracct l cgp maxcluster blkno cnt).2 c = maxcluster c := by
  unfold ffsClusteracct
  split
  · rfl
  · exact Function.update_of_ne hc _ _

/-- `fs_maxcluster` is the largest size with a cluster. -/
theorem maxcluster_ffsClusteracct (hl : l.contigsumsize ≠ 0) :
    (ffsClusteracct l cgp maxcluster blkno cnt).2 cgp.cgx =
      lastPositive (ffsClusteracct l cgp maxcluster blkno cnt).1.clustersum l.contigsumsize := by
  unfold ffsClusteracct
  rw [if_neg hl]
  exact Function.update_self _ _ _

/-- Behind `ffs_clusteracct`, `fs_maxcluster` is the bound. -/
theorem ClusterBound.clusteracct {cgx : ℕ} (hcgx : cgp.cgx = cgx)
    (h : maxcluster cgx ≤ l.contigsumsize) :
    ClusterBound l (ffsClusteracct l cgp maxcluster blkno cnt).1.clustersum
      ((ffsClusteracct l cgp maxcluster blkno cnt).2 cgx) := by
  subst hcgx
  by_cases hl : l.contigsumsize = 0
  · constructor
    · unfold ffsClusteracct
      rw [if_pos hl]
      exact h
    · intro i hi hil
      omega
  · rw [maxcluster_ffsClusteracct l cgp maxcluster blkno cnt hl]
    exact ⟨lastPositive_le _ _, fun i _ hil hpos => le_lastPositive hil hpos⟩

end Kept

section Exact

variable {l : FsLayout} {cgp : Cg} {blkno : ℕ}

/-- A block that becomes free is counted in the clusters that it joins. -/
theorem ClustersExact.free (maxcluster : ℕ → ℕ) (h : ClustersExact l cgp)
    (hblk : blkno < cgp.nclusterblks) (hclr : cgp.clustersfree.isset blkno = false) :
    ClustersExact l (ffsClusteracct l cgp maxcluster blkno 1).1 := by
  intro i hi hil
  have hl : l.contigsumsize ≠ 0 := by omega
  have hset : ∀ j, (cgp.clustersfree.setbit blkno).isset j =
      (j == blkno || cgp.clustersfree.isset j) := BitMap.isset_setbit _ _
  have hflip := count_clusters_flip l.contigsumsize (i := i) (f := cgp.clustersfree.isset)
    (g := (cgp.clustersfree.setbit blkno).isset) (by omega) hblk
    (fun j hj => by rw [hset, beq_eq_false_iff_ne.mpr hj, Bool.false_or]) hclr
    (by rw [hset, beq_self_eq_true, Bool.true_or]) hi
  have hexact := h i hi hil
  rw [clustersum_ffsClusteracct l cgp maxcluster 1 hl cgp.clustersfree.isset
    (fun j _ => rfl) hi, clustersfree_ffsClusteracct l cgp maxcluster blkno 1 hl,
    nclusterblks_ffsClusteracct, if_pos Int.one_pos, hexact]
  split at hflip <;> split at hflip <;> split at hflip <;> omega

/-- A block that is allocated is no longer counted, and what is left of its cluster is. -/
theorem ClustersExact.alloc (maxcluster : ℕ → ℕ) (h : ClustersExact l cgp)
    (hblk : blkno < cgp.nclusterblks) (hset : cgp.clustersfree.isset blkno = true) :
    ClustersExact l (ffsClusteracct l cgp maxcluster blkno (-1)).1 := by
  intro i hi hil
  have hl : l.contigsumsize ≠ 0 := by omega
  have hclr : ∀ j, (cgp.clustersfree.clrbit blkno).isset j =
      (j != blkno && cgp.clustersfree.isset j) := BitMap.isset_clrbit _ _
  have hoff : ∀ j, j ≠ blkno →
      (cgp.clustersfree.clrbit blkno).isset j = cgp.clustersfree.isset j := fun j hj => by
    rw [hclr, bne_iff_ne.mpr hj, Bool.true_and]
  have hflip := count_clusters_flip l.contigsumsize (i := i)
    (f := (cgp.clustersfree.clrbit blkno).isset) (g := cgp.clustersfree.isset) (by omega) hblk hoff
    (by rw [hclr, bne_self_eq_false, Bool.false_and]) hset hi
  have hexact := h i hi hil
  have hneg : ¬ (0 : ℤ) < -1 := by decide
  rw [clustersum_ffsClusteracct l cgp maxcluster (-1) hl _ hoff hi,
    clustersfree_ffsClusteracct l cgp maxcluster blkno (-1) hl, nclusterblks_ffsClusteracct,
    if_neg hneg, hexact]
  split at hflip <;> split at hflip <;> split at hflip <;> omega

end Exact

end EmbeddedOs.Ddfs
