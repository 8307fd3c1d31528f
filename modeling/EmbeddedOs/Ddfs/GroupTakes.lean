import EmbeddedOs.Ddfs.GroupAlloc

/-!
# What an allocation makes of the counts of a group

The assignments of the allocation keep the counts of a group exact: the head of a fragment is
taken, a whole block is taken, and the rest of a block that was taken is made free again.
-/

namespace EmbeddedOs.Ddfs

open Lib BitRuns

section Lists

variable {pre mid post : List Bool} {j k n : ℕ}

theorem wholeOf_of_mem {xs : List Bool} (h : false ∈ xs) : wholeOf xs = 0 := by
  have hall : ¬ xs.all id = true := fun hall => by
    have := List.all_eq_true.mp hall false h
    simp at this
  rw [wholeOf, if_neg hall]

theorem looseOf_of_mem {xs : List Bool} (h : false ∈ xs) : looseOf xs = xs.count true := by
  have hall : ¬ xs.all id = true := fun hall => by
    have := List.all_eq_true.mp hall false h
    simp at this
  rw [looseOf, if_neg hall]

theorem false_mem_of_getLast? {xs : List Bool} (hne : xs ≠ []) (h : xs.getLast? ≠ some true) :
    false ∈ xs := by
  rcases List.eq_nil_or_concat xs with rfl | ⟨ys, b, rfl⟩
  · exact absurd rfl hne
  · have hb : b = false := by simpa using h
    simp [hb]

theorem false_mem_of_head? {xs : List Bool} (hne : xs ≠ []) (h : xs.head? ≠ some true) :
    false ∈ xs := by
  cases xs with
  | nil => exact absurd rfl hne
  | cons b ys =>
    have hb : b = false := by simpa using h
    simp [hb]

/-- The sizes on both sides of a place that no run crosses. -/
theorem sizesOf_middle (j : ℕ) (hpre : pre.getLast? ≠ some true) (hpost : post.head? ≠ some true) :
    sizesOf j (pre ++ (mid ++ post)) = sizesOf j pre + (sizesOf j mid + sizesOf j post) := by
  rw [sizesOf, runs_append (Or.inl hpre), runs_append (Or.inr hpost), List.count_append,
    List.count_append]
  simp only [sizesOf, Nat.cast_add]

theorem count_runOf (k : ℕ) (hj : 1 ≤ j) : (runOf k).count j = if k = j then 1 else 0 := by
  rcases Nat.eq_zero_or_pos k with rfl | hk
  · rw [runOf_zero, if_neg (by omega)]
    rfl
  · rw [runOf_of_pos hk, List.count_singleton]
    simp only [beq_iff_eq]

/-- The sizes of a fragment. -/
theorem sizesOf_true (k : ℕ) (hj : 1 ≤ j) :
    sizesOf j (List.replicate k true) = if k = j then 1 else 0 := by
  rw [sizesOf, runs_replicate_true, count_runOf k hj]
  split <;> rfl

/-- The sizes of what is left of a fragment. -/
theorem sizesOf_tail (n k : ℕ) (hj : 1 ≤ j) :
    sizesOf j (List.replicate n false ++ List.replicate k true) = if k = j then 1 else 0 := by
  have hlast : (List.replicate n false).getLast? ≠ some true := by
    rw [List.getLast?_replicate]
    split <;> simp
  rw [sizesOf, runs_append (Or.inl hlast), runs_replicate_false, List.nil_append,
    runs_replicate_true, count_runOf k hj]
  split <;> rfl

end Lists

/-- The block of a piece: what is on both sides of the piece is not changed by a change within
the piece. -/
theorem blockFrags_cut (l : FsLayout) {m : BitMap} (m' : BitMap) {bno n : ℕ}
    (hfits : bno % l.frag + n ≤ l.frag)
    (hoff : ∀ i, i < bno ∨ bno + n ≤ i → m'.isset i = m.isset i) :
    blockFrags l.frag m' (bno / l.frag) =
      seg m.isset (bno / l.frag * l.frag) (bno % l.frag) ++ (seg m'.isset bno n ++
        seg m.isset (bno + n) (l.frag - (bno % l.frag + n))) := by
  have hbase : bno / l.frag * l.frag + bno % l.frag = bno := Nat.div_add_mod' bno l.frag
  have hlen : l.frag = bno % l.frag + (n + (l.frag - (bno % l.frag + n))) := by omega
  have hpre : seg m'.isset (bno / l.frag * l.frag) (bno % l.frag) =
      seg m.isset (bno / l.frag * l.frag) (bno % l.frag) :=
    seg_congr fun i hi => hoff _ (by omega)
  have hpost : seg m'.isset (bno + n) (l.frag - (bno % l.frag + n)) =
      seg m.isset (bno + n) (l.frag - (bno % l.frag + n)) :=
    seg_congr fun i hi => hoff _ (by omega)
  rw [← hpre, ← hpost, blockFrags, seg_cut _ _ hlen, seg_append, hbase]

/-- A change within a piece of a block does not touch the other blocks. -/
theorem off_block (l : FsLayout) {bno n i : ℕ} (hfits : bno % l.frag + n ≤ l.frag)
    (hi : i / l.frag ≠ bno / l.frag) : ¬ (bno ≤ i ∧ i < bno + n) := by
  rintro ⟨hlow, hhigh⟩
  apply hi
  have hbase : bno / l.frag * l.frag + bno % l.frag = bno := Nat.div_add_mod' bno l.frag
  have heq : i = bno / l.frag * l.frag + (i - bno / l.frag * l.frag) := by omega
  rw [heq]
  exact block_div l.geom _ (by show i - bno / l.frag * l.frag < l.frag; omega)

/-- The block of a fragment: no run crosses the ends of the fragment. -/
theorem blockFrags_split (l : FsLayout) {m : BitMap} {bno k : ℕ} (h : IsFrag l.frag m bno k) :
    ∃ pre post : List Bool, pre.getLast? ≠ some true ∧ post.head? ≠ some true ∧
      pre.length + (k + post.length) = l.frag ∧
      ∀ m' : BitMap, (∀ i, i < bno ∨ bno + k ≤ i → m'.isset i = m.isset i) →
        blockFrags l.frag m' (bno / l.frag) = pre ++ (seg m'.isset bno k ++ post) := by
  have hfits := h.fits
  have hbase : bno / l.frag * l.frag + bno % l.frag = bno := Nat.div_add_mod' bno l.frag
  refine ⟨seg m.isset (bno / l.frag * l.frag) (bno % l.frag),
    seg m.isset (bno + k) (l.frag - (bno % l.frag + k)), ?_, ?_, ?_,
    fun m' => blockFrags_cut l m' hfits⟩
  · rcases Nat.eq_zero_or_pos (bno % l.frag) with hz | hpos
    · simp [hz]
    · have hclr := h.left.resolve_left (by omega)
      have heq : bno / l.frag * l.frag + (bno % l.frag - 1) = bno - 1 := by omega
      rw [getLast?_seg hpos, heq, hclr]
      simp
  · rcases Nat.eq_zero_or_pos (l.frag - (bno % l.frag + k)) with hz | hpos
    · simp [hz]
    · have hclr := h.right.resolve_left (by omega)
      rw [head?_seg hpos, hclr]
      simp
  · rw [length_seg, length_seg]
    omega

section Group

variable {l : FsLayout} {cgx : ℕ} {c : Cg} {bno h k n : ℕ}

/-- A change within a block that is not free before and afterwards does not touch the clusters. -/
theorem GroupOk.loose (hok : GroupOk l cgx c) {c' : Cg}
    (hframe : c' = { c with cs := c'.cs, frsum := c'.frsum, blksfree := c'.blksfree })
    (hoff : ∀ i, i / l.frag ≠ h → c'.blksfree.isset i = c.blksfree.isset i)
    (hold : ffsIsblock l.frag c.blksfree h = false)
    (hnew : ffsIsblock l.frag c'.blksfree h = false)
    (htail : ∀ i, c.ndblk ≤ i → i < howmany l.fpg 8 * 8 → c'.blksfree.isset i = false)
    (hcounts : CountsExact l c') : GroupOk l cgx c' := by
  have hndblk : c'.ndblk = c.ndblk := (congrArg Cg.ndblk hframe :)
  have hfree : c'.clustersfree = c.clustersfree := (congrArg Cg.clustersfree hframe :)
  have hsum : c'.clustersum = c.clustersum := (congrArg Cg.clustersum hframe :)
  have hncl : c'.nclusterblks = c.nclusterblks := (congrArg Cg.nclusterblks hframe :)
  constructor
  · exact (congrArg Cg.magic hframe :).trans hok.magic
  · exact (congrArg Cg.cgx hframe :).trans hok.cgx_eq
  · exact hndblk.trans hok.ndblk
  · exact lt_of_eq_of_lt (congrArg Cg.frotor hframe :) hok.frotor_lt
  · exact hndblk ▸ htail
  · exact hcounts
  · intro hl
    have hclusters := hok.clusters hl
    constructor
    · rw [hncl, hndblk]
      exact hclusters.nclusterblks
    · intro b hb
      have hsame : ffsIsblock l.frag c'.blksfree b = ffsIsblock l.frag c.blksfree b := by
        by_cases hbh : b = h
        · rw [hbh, hold, hnew]
        · have hfrags : blockFrags l.frag c'.blksfree b = blockFrags l.frag c.blksfree b :=
            blockFrags_congr fun i hi => hoff i (by rw [hi]; exact hbh)
          rw [Bool.eq_iff_iff, ffsIsblock_iff_all, ffsIsblock_iff_all, hfrags]
      rw [hfree, hsame]
      exact hclusters.isset b (hncl ▸ hb)
    · unfold ClustersExact
      rw [hsum, hfree, hncl]
      exact hclusters.exact

theorem ffsIsblock_eq_false {m : BitMap} (hmem : false ∈ blockFrags l.frag m h) :
    ffsIsblock l.frag m h = false := by
  rw [← Bool.not_eq_true, ffsIsblock_iff_all]
  intro hall
  have := List.all_eq_true.mp hall false hmem
  simp at this

/-- The free map of a group afterwards. -/
theorem isset_takeFrags (i : ℕ) : (takeFrags c bno k n).blksfree.isset i =
    (!decide (bno ≤ i ∧ i < bno + n) && c.blksfree.isset i) := BitMap.isset_clrRange _ _ _ _

theorem frsum_takeFrags {j : ℕ} (hj : 1 ≤ j) : (takeFrags c bno k n).frsum j =
    c.frsum j + ((if k - n = j then 1 else 0) - if k = j then 1 else 0) := by
  by_cases hne : n = k
  · have hz : k - n = 0 := by omega
    have hfr : (takeFrags c bno k n).frsum = addAt c.frsum k (-1) := if_neg (not_not.mpr hne)
    rw [hfr, addAt_apply, hz, if_neg (by omega : ¬ 0 = j)]
    by_cases hk : j = k
    · rw [if_pos hk, if_pos hk.symm]
      rfl
    · rw [if_neg hk, if_neg (Ne.symm hk)]
      rfl
  · have hfr : (takeFrags c bno k n).frsum = addAt (addAt c.frsum k (-1)) (k - n) 1 := if_pos hne
    rw [hfr, addAt_apply, addAt_apply]
    by_cases hk : j = k
    · rw [if_pos hk, if_pos hk.symm]
      by_cases hk' : j = k - n
      · rw [if_pos hk', if_pos hk'.symm]
        omega
      · rw [if_neg hk', if_neg (Ne.symm hk')]
        omega
    · rw [if_neg hk, if_neg (Ne.symm hk)]
      by_cases hk' : j = k - n
      · rw [if_pos hk', if_pos hk'.symm]
        omega
      · rw [if_neg hk', if_neg (Ne.symm hk')]
        omega

/-- The head of a fragment is taken: the counts stay exact. -/
theorem GroupOk.takeFrags (hok : GroupOk l cgx c) (hfrag : IsFrag l.frag c.blksfree bno k)
    (hk : k < l.frag) (hn : 1 ≤ n) (hnk : n ≤ k) (hb : bno / l.frag < l.blocks) :
    GroupOk l cgx (takeFrags c bno k n) := by
  have hfits := hfrag.fits
  obtain ⟨pre, post, hpre, hpost, hlen, hsplit⟩ := blockFrags_split l hfrag
  have hold : blockFrags l.frag c.blksfree (bno / l.frag) =
      pre ++ (List.replicate k true ++ post) := by
    rw [hsplit c.blksfree fun _ _ => rfl, seg_eq_replicate hfrag.free]
  have hmid : seg (Ddfs.takeFrags c bno k n).blksfree.isset bno k =
      List.replicate n false ++ List.replicate (k - n) true := by
    have hcut : k = n + (k - n) := by omega
    have hhead : seg (Ddfs.takeFrags c bno k n).blksfree.isset bno n = List.replicate n false :=
      seg_eq_replicate fun i hi => by
        rw [isset_takeFrags, decide_eq_true (by omega)]
        rfl
    have hrest : seg (Ddfs.takeFrags c bno k n).blksfree.isset (bno + n) (k - n) =
        List.replicate (k - n) true :=
      seg_eq_replicate fun i hi => by
        rw [isset_takeFrags, decide_eq_false (by omega), Nat.add_assoc,
          hfrag.free (n + i) (by omega)]
        rfl
    rw [seg_cut _ _ hcut, hhead, hrest]
  have hnew : blockFrags l.frag (Ddfs.takeFrags c bno k n).blksfree (bno / l.frag) =
      pre ++ (List.replicate n false ++ List.replicate (k - n) true ++ post) := by
    rw [hsplit _ fun i hi => ?_, hmid]
    rw [isset_takeFrags, decide_eq_false (by omega)]
    rfl
  have hoff : ∀ i, i / l.frag ≠ bno / l.frag →
      (Ddfs.takeFrags c bno k n).blksfree.isset i = c.blksfree.isset i := by
    intro i hi
    have hout := off_block l (n := n) (by omega) hi
    rw [isset_takeFrags, decide_eq_false hout]
    rfl
  have holdmem : false ∈ pre ++ (List.replicate k true ++ post) := by
    rcases List.eq_nil_or_concat pre with rfl | hne
    · have hne : post ≠ [] := by
        rintro rfl
        simp only [List.length_nil] at hlen
        omega
      have := false_mem_of_head? hne hpost
      simp [this]
    · have hne' : pre ≠ [] := by
        rintro rfl
        obtain ⟨ys, b, hys⟩ := hne
        simp at hys
      have := false_mem_of_getLast? hne' hpre
      simp [this]
  have hnewmem :
      false ∈ pre ++ (List.replicate n false ++ List.replicate (k - n) true ++ post) := by
    have : false ∈ List.replicate n false := List.mem_replicate.mpr ⟨by omega, rfl⟩
    simp [this]
  refine hok.loose (h := bno / l.frag) rfl hoff ?_ ?_ ?_ ?_
  · exact ffsIsblock_eq_false (by rw [hold]; exact holdmem)
  · exact ffsIsblock_eq_false (by rw [hnew]; exact hnewmem)
  · intro i hi hlt
    have := hok.tail i hi hlt
    rw [isset_takeFrags, this, Bool.and_false]
  · refine hok.counts.change hb hoff ?_ ?_ ?_
    · rw [hnew, hold, wholeOf_of_mem holdmem, wholeOf_of_mem hnewmem]
      exact (Int.add_zero _).symm
    · rw [hnew, hold, looseOf_of_mem holdmem, looseOf_of_mem hnewmem]
      have hcs : (Ddfs.takeFrags c bno k n).cs.nffree = c.cs.nffree - n := rfl
      rw [hcs]
      simp only [List.count_append, List.count_replicate]
      simp
      omega
    · intro j hj hjk
      rw [hnew, hold, sizesOf_middle j hpre hpost, sizesOf_middle j hpre hpost,
        sizesOf_true k hj, sizesOf_tail n (k - n) hj, frsum_takeFrags hj]
      omega

/-- A change in the fragments of one block, by its bits. -/
theorem isset_clr_of_ne {m : BitMap} (i : ℕ) (hi : i / l.frag ≠ h) :
    (ffsClrblock l.frag m h).isset i = m.isset i := by
  have hi' : i / l.geom.frag ≠ h := hi
  have := isset_ffsClrblock l.geom m h i
  rw [decide_eq_false hi', Bool.not_false, Bool.true_and] at this
  exact this

/-- Nothing of a block is free behind `ffs_clrblock`. -/
theorem blockFrags_clr (l : FsLayout) (m : BitMap) (h : ℕ) :
    blockFrags l.frag (ffsClrblock l.frag m h) h = List.replicate l.frag false := by
  refine seg_eq_replicate fun i hi => ?_
  have hclr := isset_ffsClrblock l.geom m h (h * l.frag + i)
  have hdiv : (h * l.frag + i) / l.geom.frag = h := block_div l.geom h hi
  rw [decide_eq_true hdiv, Bool.not_true, Bool.false_and] at hclr
  exact hclr

theorem blockFrags_of_isblock {m : BitMap} (hb : ffsIsblock l.frag m h = true) :
    blockFrags l.frag m h = List.replicate l.frag true :=
  seg_eq_replicate ((ffsIsblock_iff l.geom m h).mp hb)

theorem ffsIsblock_congr {m m' : BitMap} (hoff : ∀ i, i / l.frag = h → m'.isset i = m.isset i) :
    ffsIsblock l.frag m' h = ffsIsblock l.frag m h := by
  rw [Bool.eq_iff_iff, ffsIsblock_iff_all, ffsIsblock_iff_all, blockFrags_congr hoff]

/-- A free block is in front of the end of the group. -/
theorem GroupOk.block_lt (hok : GroupOk l cgx c) (hh : h < l.blocks)
    (hb : ffsIsblock l.frag c.blksfree h = true) : (h + 1) * l.frag ≤ c.ndblk := by
  have hpos := l.frag_pos
  have hset := (ffsIsblock_iff l.geom c.blksfree h).mp hb (l.frag - 1) (Nat.sub_lt hpos Nat.one_pos)
  have hbytes : l.fpg ≤ howmany l.fpg 8 * 8 := le_howmany_mul (by decide)
  have hmul : (h + 1) * l.frag ≤ l.blocks * l.frag := Nat.mul_le_mul_right _ hh
  rw [l.blocks_mul, Nat.succ_mul] at hmul
  by_contra hgt
  rw [Nat.succ_mul] at hgt
  have := hok.tail (h * l.frag + (l.frag - 1)) (by omega) (by omega)
  exact absurd (hset.symm.trans this) (by decide)

section Block

variable (mc : ℕ → ℕ)

theorem blksfree_takeBlock :
    (takeBlock l c mc h).1.blksfree = ffsClrblock l.frag c.blksfree h := by
  obtain ⟨sum, free, hframe⟩ := ffsClusteracct_frame l
    { c with blksfree := ffsClrblock l.frag c.blksfree h } mc h (-1)
  rw [takeBlock, hframe]

/-- A block is taken: the counts stay exact, and the cluster map and its summary follow. -/
theorem GroupOk.takeBlock (hok : GroupOk l cgx c) (hh : h < l.blocks)
    (hb : ffsIsblock l.frag c.blksfree h = true) : GroupOk l cgx (takeBlock l c mc h).1 := by
  have hblksfree := blksfree_takeBlock (l := l) (c := c) (h := h) mc
  obtain ⟨sum, free, hframe⟩ := ffsClusteracct_frame l
    { c with blksfree := ffsClrblock l.frag c.blksfree h } mc h (-1)
  have hres : (Ddfs.takeBlock l c mc h).1 = { c with
      blksfree := ffsClrblock l.frag c.blksfree h
      clustersum := sum
      clustersfree := free
      cs := { c.cs with nbfree := c.cs.nbfree - 1 } } := by
    rw [Ddfs.takeBlock, hframe]
  have hold := blockFrags_of_isblock hb
  have hnew := blockFrags_clr l c.blksfree h
  rw [hres]
  constructor
  · exact hok.magic
  · exact hok.cgx_eq
  · exact hok.ndblk
  · exact hok.frotor_lt
  · intro i hi hlt
    have hclr := isset_ffsClrblock l.geom c.blksfree h i
    rw [hok.tail i hi hlt, Bool.and_false] at hclr
    exact hclr
  · refine hok.counts.change hh (fun i hi => isset_clr_of_ne i hi) ?_ ?_ ?_
    · rw [hnew, hold, wholeOf_replicate_true, wholeOf_replicate_false l.frag_pos]
      exact sub_eq_add_neg _ _
    · rw [hnew, hold, looseOf_replicate_true, looseOf_replicate_false]
      exact (Int.add_zero _).symm
    · intro k _ hk
      rw [hnew, hold, sizesOf_replicate_true hk, sizesOf_replicate_false]
      exact (Int.add_zero _).symm
  · intro hl
    have hclusters := hok.clusters hl
    have hlt : h < c.nclusterblks := by
      rw [hclusters.nclusterblks]
      exact (Nat.le_div_iff_mul_le l.frag_pos).mpr (hok.block_lt hh hb)
    have hexact : ClustersExact l { c with blksfree := ffsClrblock l.frag c.blksfree h } :=
      hclusters.exact
    have hset : c.clustersfree.isset h = true := by rw [hclusters.isset h hlt, hb]
    have hfree := clustersfree_ffsClusteracct l
      { c with blksfree := ffsClrblock l.frag c.blksfree h } mc h (-1) hl
    have hneg : ¬ (0 : ℤ) < -1 := by decide
    have hacct := hexact.alloc mc hlt hset
    rw [if_neg hneg, hframe] at hfree
    rw [hframe] at hacct
    refine ⟨hclusters.nclusterblks, fun b hblk => ?_, hacct⟩
    have hfree' : free = c.clustersfree.clrbit h := hfree
    have hclr : free.isset b = (b != h && c.clustersfree.isset b) := by
      rw [hfree', BitMap.isset_clrbit]
    rw [hclr, hclusters.isset b hblk]
    by_cases hbh : b = h
    · subst b
      have hmem : false ∈ blockFrags l.frag (ffsClrblock l.frag c.blksfree h) h := by
        rw [hnew]
        exact List.mem_replicate.mpr ⟨l.frag_pos.ne', rfl⟩
      rw [ffsIsblock_eq_false hmem, bne_self_eq_false, Bool.false_and]
    · rw [bne_iff_ne.mpr hbh, Bool.true_and,
        ffsIsblock_congr fun i hi => isset_clr_of_ne i (by rw [hi]; exact hbh)]

/-- `fs_maxcluster` bounds the clusters that are left. -/
theorem clusterBound_takeBlock (hcgx : c.cgx = cgx) (hmc : mc cgx ≤ l.contigsumsize) :
    ClusterBound l (takeBlock l c mc h).1.clustersum ((takeBlock l c mc h).2 cgx) :=
  ClusterBound.clusteracct l { c with blksfree := ffsClrblock l.frag c.blksfree h } mc h (-1)
    hcgx hmc

theorem maxcluster_takeBlock_of_ne {b : ℕ} (hb : b ≠ c.cgx) : (takeBlock l c mc h).2 b = mc b :=
  maxcluster_ffsClusteracct_of_ne l { c with blksfree := ffsClrblock l.frag c.blksfree h } mc h
    (-1) hb

/-- The fields of a group that a block does not change. -/
theorem takeBlock_frame : ∃ sum free, (takeBlock l c mc h).1 = { c with
    blksfree := ffsClrblock l.frag c.blksfree h
    clustersum := sum
    clustersfree := free
    cs := { c.cs with nbfree := c.cs.nbfree - 1 } } := by
  obtain ⟨sum, free, hframe⟩ := ffsClusteracct_frame l
    { c with blksfree := ffsClrblock l.frag c.blksfree h } mc h (-1)
  exact ⟨sum, free, by rw [takeBlock, hframe]⟩

theorem cs_takeBlock :
    (takeBlock l c mc h).1.cs = { c.cs with nbfree := c.cs.nbfree - 1 } := by
  obtain ⟨sum, free, hframe⟩ := ffsClusteracct_frame l
    { c with blksfree := ffsClrblock l.frag c.blksfree h } mc h (-1)
  rw [takeBlock, hframe]

end Block

/-- The rest of a block that was taken becomes free: the counts stay exact. -/
theorem GroupOk.freeRest (hok : GroupOk l cgx c) (hh : h < l.blocks)
    (hb : ∀ j, j < l.frag → c.blksfree.isset (h * l.frag + j) = false) (hn : 1 ≤ n)
    (hnf : n < l.frag) (hend : (h + 1) * l.frag ≤ c.ndblk) :
    GroupOk l cgx (freeRest l c (h * l.frag) n) := by
  have hisset : ∀ i, (Ddfs.freeRest l c (h * l.frag) n).blksfree.isset i =
      (decide (h * l.frag + n ≤ i ∧ i < h * l.frag + n + (l.frag - n)) || c.blksfree.isset i) :=
    fun i => BitMap.isset_setRange _ _ _ _
  have hold : blockFrags l.frag c.blksfree h = List.replicate l.frag false := seg_eq_replicate hb
  have hnew : blockFrags l.frag (Ddfs.freeRest l c (h * l.frag) n).blksfree h =
      List.replicate n false ++ List.replicate (l.frag - n) true := by
    have hcut : l.frag = n + (l.frag - n) := by omega
    have hhead : seg (Ddfs.freeRest l c (h * l.frag) n).blksfree.isset (h * l.frag) n =
        List.replicate n false := seg_eq_replicate fun i hi => by
      rw [hisset, decide_eq_false (by omega), Bool.false_or, hb i (by omega)]
    have hrest : seg (Ddfs.freeRest l c (h * l.frag) n).blksfree.isset (h * l.frag + n)
        (l.frag - n) = List.replicate (l.frag - n) true := seg_eq_replicate fun i hi => by
      rw [hisset, decide_eq_true (by omega), Bool.true_or]
    rw [blockFrags, seg_cut _ _ hcut, hhead, hrest]
  have hoff : ∀ i, i / l.frag ≠ h →
      (Ddfs.freeRest l c (h * l.frag) n).blksfree.isset i = c.blksfree.isset i := by
    intro i hi
    have hout : ¬ (h * l.frag + n ≤ i ∧ i < h * l.frag + n + (l.frag - n)) := by
      rintro ⟨hlow, hhigh⟩
      apply hi
      have heq : i = h * l.frag + (i - h * l.frag) := by omega
      rw [heq]
      exact block_div l.geom _ (by show i - h * l.frag < l.frag; omega)
    rw [hisset, decide_eq_false hout, Bool.false_or]
  have holdmem : false ∈ List.replicate l.frag false :=
    List.mem_replicate.mpr ⟨l.frag_pos.ne', rfl⟩
  have hnewmem : false ∈ List.replicate n false ++ List.replicate (l.frag - n) true :=
    List.mem_append_left _ (List.mem_replicate.mpr ⟨by omega, rfl⟩)
  refine hok.loose (h := h) rfl hoff ?_ ?_ ?_ ?_
  · exact ffsIsblock_eq_false (by rw [hold]; exact holdmem)
  · exact ffsIsblock_eq_false (by rw [hnew]; exact hnewmem)
  · intro i hi hlt
    rw [Nat.succ_mul] at hend
    rw [hisset, decide_eq_false (by omega), Bool.false_or, hok.tail i hi hlt]
  · refine hok.counts.change hh hoff ?_ ?_ ?_
    · rw [hnew, hold, wholeOf_of_mem holdmem, wholeOf_of_mem hnewmem]
      exact (Int.add_zero _).symm
    · have hcs : (Ddfs.freeRest l c (h * l.frag) n).cs.nffree =
          c.cs.nffree + (l.frag - n : ℕ) := rfl
      rw [hnew, hold, looseOf_of_mem holdmem, looseOf_of_mem hnewmem, hcs]
      simp [List.count_append, List.count_replicate]
    · intro j hj _
      have hfr : (Ddfs.freeRest l c (h * l.frag) n).frsum j =
          c.frsum j + if j = l.frag - n then 1 else 0 := addAt_apply _ _ _ _
      rw [hnew, hold, sizesOf_replicate_false, sizesOf_tail n (l.frag - n) hj, hfr, sub_zero]
      by_cases hjn : j = l.frag - n
      · rw [if_pos hjn, if_pos hjn.symm]
      · rw [if_neg hjn, if_neg (Ne.symm hjn)]

end Group

end EmbeddedOs.Ddfs
