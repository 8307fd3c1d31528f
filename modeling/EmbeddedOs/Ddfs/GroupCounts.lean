import EmbeddedOs.Ddfs.MapSearch
import EmbeddedOs.Ddfs.ClusterSummary
import Mathlib.Algebra.BigOperators.Group.Finset.Basic
import Mathlib.Algebra.Order.BigOperators.Group.Finset

/-!
# The counts of a cylinder group

What the counts of a group say about its free map: `cs_nbfree` counts the blocks that are free,
`cs_nffree` the free fragments of the other blocks, `cg_frsum` their maximal runs by length, and
the cluster map has the free blocks once more. Each count is a total over the blocks of the
group, so that a change within one block changes it by what the block gains.
-/

namespace EmbeddedOs.Ddfs

open Lib BitRuns Finset

/-- What a block adds to `cs_nbfree`. -/
def wholeOf (xs : List Bool) : ℤ := if xs.all id then 1 else 0

/-- What a block adds to `cs_nffree`. -/
def looseOf (xs : List Bool) : ℤ := if xs.all id then 0 else xs.count true

/-- What a block adds to `cg_frsum`. -/
def sizesOf (k : ℕ) (xs : List Bool) : ℤ := (runs xs).count k

/-- The total over the blocks of a group. -/
def blockTotal (l : FsLayout) (m : BitMap) (w : List Bool → ℤ) : ℤ :=
  ∑ h ∈ range l.blocks, w (blockFrags l.frag m h)

/-- The counts of free blocks and fragments are those of the map. -/
structure CountsExact (l : FsLayout) (c : Cg) : Prop where
  /-- `cs_nbfree` counts the free blocks. -/
  nbfree : c.cs.nbfree = blockTotal l c.blksfree wholeOf
  /-- `cs_nffree` counts the free fragments of the blocks that are not free. -/
  nffree : c.cs.nffree = blockTotal l c.blksfree looseOf
  /-- `cg_frsum` counts the fragments by size. -/
  frsum : ∀ k, 1 ≤ k → k < l.frag → c.frsum k = blockTotal l c.blksfree (sizesOf k)

/-- The cluster map has the free blocks, and its summary is that of the map. -/
structure ClusterMap (l : FsLayout) (c : Cg) : Prop where
  /-- `cg_nclusterblks`. -/
  nclusterblks : c.nclusterblks = c.ndblk / l.frag
  /-- A bit for each free block. -/
  isset : ∀ h, h < c.nclusterblks →
    c.clustersfree.isset h = ffsIsblock l.frag c.blksfree h
  /-- The summary. -/
  exact : ClustersExact l c

/-- What holds of the free map of a group and its counts between two operations. -/
structure GroupOk (l : FsLayout) (cgx : ℕ) (c : Cg) : Prop where
  /-- The block of the group is its own. -/
  magic : c.magic = cgMagic
  /-- It has its number. -/
  cgx_eq : c.cgx = cgx
  /-- The group ends with `fs_fpg` or the file system. -/
  ndblk : c.ndblk = min l.fpg (l.size - l.cgbase cgx)
  /-- The search begins within the group. -/
  frotor_lt : c.frotor < l.fpg
  /-- Nothing is free behind the end. -/
  tail : ∀ i, c.ndblk ≤ i → i < howmany l.fpg 8 * 8 → c.blksfree.isset i = false
  /-- The counts. -/
  counts : CountsExact l c
  /-- The clusters. -/
  clusters : l.contigsumsize ≠ 0 → ClusterMap l c

theorem GroupOk.ndblk_le {l : FsLayout} {cgx : ℕ} {c : Cg} (hok : GroupOk l cgx c) :
    c.ndblk ≤ l.fpg := by
  rw [hok.ndblk]
  exact Nat.min_le_left _ _

section Lists

variable {f : ℕ → Bool} {a n k : ℕ}

theorem all_seg : (seg f a n).all id = true ↔ ∀ i, i < n → f (a + i) = true := by
  induction n generalizing a with
  | zero => simp
  | succ n ih =>
    rw [seg_succ, List.all_cons, Bool.and_eq_true, ih]
    constructor
    · rintro ⟨hz, htail⟩ i hi
      cases i with
      | zero => exact hz
      | succ i =>
        have := htail i (by omega)
        rwa [Nat.add_assoc, Nat.add_comm 1] at this
    · intro h
      refine ⟨h 0 (by omega), fun i hi => ?_⟩
      have := h (i + 1) (by omega)
      rwa [Nat.add_assoc, Nat.add_comm 1]

theorem wholeOf_replicate_true (n : ℕ) : wholeOf (List.replicate n true) = 1 := by
  simp [wholeOf]

theorem looseOf_replicate_true (n : ℕ) : looseOf (List.replicate n true) = 0 := by
  simp [looseOf]

theorem wholeOf_replicate_false (hn : 0 < n) : wholeOf (List.replicate n false) = 0 := by
  simp [wholeOf]
  omega

theorem looseOf_replicate_false (n : ℕ) : looseOf (List.replicate n false) = 0 := by
  simp [looseOf, List.count_replicate]

theorem wholeOf_nonneg (xs : List Bool) : 0 ≤ wholeOf xs := by
  unfold wholeOf
  split <;> omega

theorem looseOf_nonneg (xs : List Bool) : 0 ≤ looseOf xs := by
  unfold looseOf
  split <;> omega

theorem sizesOf_nonneg (k : ℕ) (xs : List Bool) : 0 ≤ sizesOf k xs := Int.natCast_nonneg _

/-- The runs of a free block are none that `cg_frsum` counts. -/
theorem sizesOf_replicate_true (hk : k < n) : sizesOf k (List.replicate n true) = 0 := by
  rw [sizesOf, runs_replicate_true, runOf_of_pos (by omega), List.count_singleton]
  have hne : (n == k) = false := beq_eq_false_iff_ne.mpr (by omega)
  rw [hne]
  rfl

theorem sizesOf_replicate_false (n k : ℕ) : sizesOf k (List.replicate n false) = 0 := by
  rw [sizesOf, runs_replicate_false]
  rfl

end Lists

section Blocks

variable {l : FsLayout} {m m' : BitMap} {h : ℕ} {w : List Bool → ℤ}

/-- `ffs_isblock` in terms of the list of the fragments. -/
theorem ffsIsblock_iff_all (l : FsLayout) (m : BitMap) (h : ℕ) :
    ffsIsblock l.frag m h = true ↔ (blockFrags l.frag m h).all id = true := by
  rw [blockFrags, all_seg]
  exact ffsIsblock_iff l.geom m h

theorem wholeOf_blockFrags (l : FsLayout) (m : BitMap) (h : ℕ) :
    wholeOf (blockFrags l.frag m h) = if ffsIsblock l.frag m h then 1 else 0 := by
  rw [wholeOf]
  by_cases hb : ffsIsblock l.frag m h = true
  · rw [if_pos hb, if_pos ((ffsIsblock_iff_all l m h).mp hb)]
  · rw [if_neg hb, if_neg fun hall => hb ((ffsIsblock_iff_all l m h).mpr hall)]

/-- Blocks that a change does not touch are the same. -/
theorem blockFrags_congr (hoff : ∀ i, i / l.frag = h → m'.isset i = m.isset i) :
    blockFrags l.frag m' h = blockFrags l.frag m h :=
  seg_congr fun _ hi => hoff _ (block_div l.geom h hi)

/-- A change within one block changes a total by what the block gains. -/
theorem blockTotal_change (w : List Bool → ℤ) (hh : h < l.blocks)
    (hoff : ∀ i, i / l.frag ≠ h → m'.isset i = m.isset i) :
    blockTotal l m' w =
      blockTotal l m w + (w (blockFrags l.frag m' h) - w (blockFrags l.frag m h)) := by
  have hmem : h ∈ range l.blocks := mem_range.mpr hh
  have hrest : ∑ b ∈ (range l.blocks).erase h, w (blockFrags l.frag m' b) =
      ∑ b ∈ (range l.blocks).erase h, w (blockFrags l.frag m b) := by
    refine sum_congr rfl fun b hb => ?_
    have hne := ne_of_mem_erase hb
    rw [blockFrags_congr fun i hi => hoff i (by rw [hi]; exact hne)]
  rw [blockTotal, blockTotal, ← add_sum_erase _ _ hmem, ← add_sum_erase (range l.blocks)
    (fun b => w (blockFrags l.frag m b)) hmem, hrest]
  omega

/-- A count that is not zero has a block that adds to it. -/
theorem exists_block_of_total (h : blockTotal l m w ≠ 0) :
    ∃ b, b < l.blocks ∧ w (blockFrags l.frag m b) ≠ 0 := by
  obtain ⟨b, hb, hne⟩ := exists_ne_zero_of_sum_ne_zero h
  exact ⟨b, mem_range.mp hb, hne⟩

/-- A block that adds to a count makes it positive. -/
theorem blockTotal_pos (hw : ∀ xs, 0 ≤ w xs) (hh : h < l.blocks)
    (hpos : 0 < w (blockFrags l.frag m h)) : 0 < blockTotal l m w :=
  sum_pos' (fun _ _ => hw _) ⟨h, mem_range.mpr hh, hpos⟩

end Blocks

namespace CountsExact

variable {l : FsLayout} {c c' : Cg} {h : ℕ}

/-- The counts stay exact if they change by what one block gains. -/
theorem change (hc : CountsExact l c) (hh : h < l.blocks)
    (hoff : ∀ i, i / l.frag ≠ h → c'.blksfree.isset i = c.blksfree.isset i)
    (hnb : c'.cs.nbfree = c.cs.nbfree + (wholeOf (blockFrags l.frag c'.blksfree h) -
      wholeOf (blockFrags l.frag c.blksfree h)))
    (hnf : c'.cs.nffree = c.cs.nffree + (looseOf (blockFrags l.frag c'.blksfree h) -
      looseOf (blockFrags l.frag c.blksfree h)))
    (hfr : ∀ k, 1 ≤ k → k < l.frag → c'.frsum k = c.frsum k +
      (sizesOf k (blockFrags l.frag c'.blksfree h) -
        sizesOf k (blockFrags l.frag c.blksfree h))) :
    CountsExact l c' := by
  constructor
  · rw [hnb, hc.nbfree, blockTotal_change _ hh hoff]
  · rw [hnf, hc.nffree, blockTotal_change _ hh hoff]
  · intro k h1 hk
    rw [hfr k h1 hk, hc.frsum k h1 hk, blockTotal_change _ hh hoff]

/-- There is a free block if `cs_nbfree` is not zero. -/
theorem exists_block (hc : CountsExact l c) (hne : c.cs.nbfree ≠ 0) :
    ∃ b, b < l.blocks ∧ ffsIsblock l.frag c.blksfree b = true := by
  rw [hc.nbfree] at hne
  obtain ⟨b, hb, hw⟩ := exists_block_of_total hne
  rw [wholeOf_blockFrags] at hw
  refine ⟨b, hb, ?_⟩
  by_contra hno
  exact hw (if_neg hno)

/-- There is a fragment of a size if `cg_frsum` has one. -/
theorem exists_frag (hc : CountsExact l c) {k : ℕ} (h1 : 1 ≤ k) (hk : k < l.frag)
    (hne : c.frsum k ≠ 0) : ∃ b, b < l.blocks ∧ k ∈ runs (blockFrags l.frag c.blksfree b) := by
  rw [hc.frsum k h1 hk] at hne
  obtain ⟨b, hb, hw⟩ := exists_block_of_total hne
  refine ⟨b, hb, List.count_pos_iff.mp ?_⟩
  unfold sizesOf at hw
  omega

/-- `cs_nbfree` is not zero if a block is free. -/
theorem nbfree_pos (hc : CountsExact l c) (hh : h < l.blocks)
    (hb : ffsIsblock l.frag c.blksfree h = true) : 0 < c.cs.nbfree := by
  rw [hc.nbfree]
  refine blockTotal_pos wholeOf_nonneg hh ?_
  rw [wholeOf_blockFrags, if_pos hb]
  exact Int.one_pos

/-- `cg_frsum` has the fragments that there are. -/
theorem frsum_pos (hc : CountsExact l c) {k : ℕ} (h1 : 1 ≤ k) (hk : k < l.frag)
    (hh : h < l.blocks) (hmem : k ∈ runs (blockFrags l.frag c.blksfree h)) : 0 < c.frsum k := by
  rw [hc.frsum k h1 hk]
  refine blockTotal_pos (sizesOf_nonneg k) hh ?_
  have := List.count_pos_iff.mpr hmem
  unfold sizesOf
  omega

end CountsExact

/-- A free block is one of the runs of its fragments. -/
theorem mem_runs_of_isblock {l : FsLayout} {m : BitMap} {h : ℕ}
    (hb : ffsIsblock l.frag m h = true) : l.frag ∈ runs (blockFrags l.frag m h) := by
  have hall : blockFrags l.frag m h = List.replicate l.frag true :=
    seg_eq_replicate ((ffsIsblock_iff l.geom m h).mp hb)
  rw [hall, runs_replicate_true, runOf_of_pos l.frag_pos]
  exact List.mem_singleton.mpr rfl

end EmbeddedOs.Ddfs
