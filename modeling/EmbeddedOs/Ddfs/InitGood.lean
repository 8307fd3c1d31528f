import EmbeddedOs.Ddfs.InitGroups

/-!
# The file system that `mkfs` writes

The groups that `initcg` has filled are sound, with the counts, the clusters and the inodes that
the allocator of the kernel relies on. The totals of the superblock are computed on their own, and
what they have more than the groups stays with the file system.
-/

namespace EmbeddedOs.Ddfs

open Lib BitRuns BitMap

section Groups

variable {l : FsLayout} {m : MkfsLayout} {c : ℕ}

/-- A group that `initcg` has written is sound. -/
theorem Laid.groupOk (h : Laid l m) (hc : c < l.ncg) : GroupOk l c (initcgDone l.geom m c) := by
  obtain ⟨hkept, hok⟩ := h.initcgFree hc
  have hroom := h.room c hc
  have htable := h.table
  constructor
  · exact hkept.magic
  · exact hkept.cgx
  · exact h.ndblk_done hc
  · exact lt_of_eq_of_lt hkept.frotor l.fpg_pos
  · intro i hi _
    rw [h.ndblk_done hc] at hi
    have hfront : ¬ (0 < c ∧ i < roundup (dlower m) l.frag) := by omega
    have hdata : ¬ (dupper l.geom m c ≤ i ∧ i < min l.fpg (l.size - l.cgbase c)) := by omega
    rw [h.isset_done hc, initcgIsfree, decide_eq_false hfront, decide_eq_false hdata, Bool.false_or]
  · exact ⟨hok.counts.nbfree, hok.counts.nffree, hok.counts.frsum⟩
  · intro hl
    have hpos : 0 < l.contigsumsize := Nat.pos_of_ne_zero hl
    have hpos' : 0 < l.geom.contigsumsize := hpos
    have hncl : (initcgDone l.geom m c).nclusterblks = (initcgDone l.geom m c).ndblk / l.frag := by
      rw [h.ndblk_done hc, ← h.ndblk c]
      exact hkept.nclusterblks.trans (if_pos hpos')
    have hsum : (initcgDone l.geom m c).clustersum = sumClusters l.contigsumsize
        (initcgDone l.geom m c).clustersfree.isset (initcgDone l.geom m c).nclusterblks 0 0
        (Ddfs.initcgFree l.geom m c).clustersum := if_pos hpos'
    refine ⟨hncl, fun b _ => hok.clusters hpos b, fun i _ _ => ?_⟩
    have hzero : (Ddfs.initcgFree l.geom m c).clustersum i = 0 := congrFun hkept.clustersum i
    rw [hsum, sumClusters_eq, hzero, zero_add]
    rfl

theorem freeInodes_empty (n : ℕ) : freeInodes (fun _ => 0) n = n := by
  have hone : ∀ d ∈ Finset.range n,
      (if !BitMap.isset (fun _ => 0) d then (1 : ℤ) else 0) = 1 := fun d _ => by
    rw [isset_zero]
    rfl
  rw [freeInodes, freeCount, Finset.sum_congr rfl hone]
  simp

/-- A group has inodes behind the root directory. -/
theorem FsLayout.rootino_lt_ipg (l : FsLayout) : ufsRootino < l.ipg := by
  obtain ⟨k, hk⟩ := l.eight_dvd_ipg
  have hpos := l.ipg_pos
  unfold ufsRootino
  omega

/-- The inodes of a group that `initcg` has written. -/
theorem Laid.inodesOk (h : Laid l m) (hc : c < l.ncg) : InodesOk l (initcgDone l.geom m c) := by
  obtain ⟨⟨-, -, -, -, -, -, hsame⟩, -⟩ := h.initcgFree hc
  have hroot := l.rootino_lt_ipg
  have hmap : (initcgDone l.geom m c).inosused =
      BitMap.setRange (fun _ => 0) 0 (if c = 0 then ufsRootino else 0) := hsame.inosused
  have hinit : (initcgDone l.geom m c).initediblk = min m.ipg (2 * l.geom.inopb) :=
    hsame.initediblk
  have hnifree : (initcgDone l.geom m c).cs.nifree =
      m.ipg - ((if c = 0 then ufsRootino else 0 : ℕ) : ℤ) := hsame.nifree
  constructor
  · exact hsame.niblk.trans h.ipg
  · exact lt_of_eq_of_lt hsame.irotor l.ipg_pos
  · rw [hnifree, hmap, h.ipg]
    split
    · have htwo : BitMap.setRange (fun _ => 0) 0 ufsRootino =
          BitMap.setbit (BitMap.setbit (fun _ => 0) 0) 1 := rfl
      unfold ufsRootino at hroot
      rw [htwo, freeInodes_setbit (by omega) (by rw [isset_setbit, isset_zero]; rfl),
        freeInodes_setbit l.ipg_pos (isset_zero 0), freeInodes_empty, ufsRootino]
      omega
    · rw [BitMap.setRange, freeInodes_empty]
      omega
  · rw [hinit, h.ipg]
    rcases Nat.le_total l.ipg (2 * l.geom.inopb) with hle | hle
    · rw [Nat.min_eq_left hle]
      exact l.inopb_dvd_ipg
    · rw [Nat.min_eq_right hle]
      exact Nat.dvd_mul_left _ _
  · rw [hinit, h.ipg]
    exact Nat.min_le_left _ _
  · intro i hi hset
    have hinopb := eight_dvd_inopb l.geom
    rw [hmap, isset_setRange, isset_zero, Bool.or_false, decide_eq_true_iff] at hset
    have hlt : i < ufsRootino := by
      split at hset <;> omega
    have hpos : 0 < l.geom.inopb := Nat.pos_of_dvd_of_pos l.inopb_dvd_ipg l.ipg_pos
    unfold ufsRootino at hlt
    rw [hinit, h.ipg]
    omega

end Groups

section Counted

variable {l : FsLayout} {m : MkfsLayout} {c : ℕ}

theorem nbfree_initBlocks (g : Geometry) (inside : ℕ → Bool) (fuel d : ℕ) (acg : Cg) :
    (initBlocks g inside fuel d acg).1.cs.nbfree =
      acg.cs.nbfree + countBlocksWhile g.frag inside fuel d := by
  induction fuel generalizing d acg with
  | zero => exact (Int.add_zero _).symm
  | succ fuel ih =>
    rw [initBlocks, countBlocksWhile]
    split
    · have hstep : (initBlock g acg (d / g.frag)).cs.nbfree = acg.cs.nbfree + 1 := rfl
      rw [ih, hstep]
      push_cast
      omega
    · exact (Int.add_zero _).symm

theorem nbfree_initPiece (acg : Cg) (d n : ℕ) : (initPiece acg d n).cs.nbfree = acg.cs.nbfree := by
  obtain ⟨-, hcs, -⟩ := initFrags_fields n d { acg with frsum := addAt acg.frsum n 1 }
  rw [initPiece, hcs]

/-- The free blocks of a group are those that `initcg` counts. -/
theorem Laid.nbfree (h : Laid l m) (hc : c < l.ncg) :
    (initcgDone l.geom m c).cs.nbfree = initcg l.geom m c := by
  obtain ⟨acg₁, hfront, hkept₁, hok₁⟩ := h.front hc
  have hcounted : acg₁.cs.nbfree =
      if 0 < c then (countBlocksWhile l.geom.frag (fun d => d < dlower m) (dlower m) 0 : ℤ)
      else 0 := by
    rw [← hfront]
    split
    · rw [nbfree_initBlocks]
      exact Int.zero_add _
    · rfl
  obtain ⟨acg₂, hhead, hfirst, hkept₂, -⟩ := h.head hc hok₁ fun i hi => by
    have htable := h.table
    exact decide_eq_false (by omega)
  have hsame : acg₂.cs.nbfree = acg₁.cs.nbfree := by
    rw [← hhead]
    split
    · exact nbfree_initPiece _ _ _
    · rfl
  have hndblk : acg₂.ndblk = min (c * m.fpg + m.fpg) m.size - c * m.fpg :=
    hkept₂.ndblk.trans hkept₁.ndblk
  have heq : (initcgDone l.geom m c).cs.nbfree = (Ddfs.initcgFree l.geom m c).cs.nbfree := rfl
  have hlast : (Ddfs.initcgFree l.geom m c).cs.nbfree = acg₂.cs.nbfree +
      countBlocksWhile l.geom.frag (fun d => d + l.geom.frag ≤ acg₂.ndblk) acg₂.ndblk
        (roundup (dupper l.geom m c) l.frag) := by
    unfold Ddfs.initcgFree
    simp only [hfront, hhead, hfirst]
    split
    · rw [nbfree_initPiece, nbfree_initBlocks]
    · rw [nbfree_initBlocks]
  rw [heq, hlast, hsame, hcounted, hndblk, initcg]
  push_cast
  rfl

end Counted

/-- `fs_cstotal` of `mkfs`: the number of inodes is that of the groups in 32 bits. -/
def mkfsCstotal (g : Geometry) (m : MkfsLayout) : Csum :=
  let csfrags := howmany m.cssize g.fsize
  { ndir := 0
    nbfree := m.nbfree
    nifree := (m.ncg * m.ipg % 2 ^ 32 : ℕ) - ufsRootino
    nffree := (m.size % g.frag : ℕ) +
      if 0 < csfrags % g.frag then ((g.frag - csfrags % g.frag : ℕ) : ℤ) else 0 }

/-- The file system that `mkfs` has written in front of `fsinit`, as the kernel takes it: at a
mount `fs_maxcluster` becomes `fs_contigsumsize` for all groups. -/
def mkfsGroups (g : Geometry) (m : MkfsLayout) (optim : Optim) : Groups :=
  { cstotal := mkfsCstotal g m
    cs := fun c => (initcgDone g m c).cs
    maxcluster := fun _ => g.contigsumsize
    optim := optim
    cg := initcgDone g m }

/-- What the totals that `mkfs` computes have more than its groups. -/
def mkfsDrift (g : Geometry) (m : MkfsLayout) : Csum :=
  let total (φ : Csum → ℤ) : ℤ :=
    φ (mkfsCstotal g m) - ∑ c ∈ Finset.range m.ncg, φ (initcgDone g m c).cs
  { ndir := total Csum.ndir
    nbfree := total Csum.nbfree
    nifree := total Csum.nifree
    nffree := total Csum.nffree }

section Good

variable {l : FsLayout} {m : MkfsLayout}

/-- The file system that `mkfs` writes is sound, group by group. -/
theorem Laid.good (h : Laid l m) (hdrift : l.drift = mkfsDrift l.geom m) (optim : Optim) :
    Good l (mkfsGroups l.geom m optim) := by
  constructor
  · exact fun c hc => h.groupOk hc
  · exact fun _ _ => rfl
  · intro φ hφ
    have hncg := h.ncg
    have hsplit : φ (mkfsCstotal l.geom m) =
        (∑ c ∈ Finset.range m.ncg, φ (initcgDone l.geom m c).cs) + φ (mkfsDrift l.geom m) := by
      simp only [csumFields, List.mem_cons, List.not_mem_nil, or_false] at hφ
      rcases hφ with rfl | rfl | rfl | rfl
      all_goals exact (add_sub_cancel _ _).symm
    rw [hncg, ← hdrift] at hsplit
    exact hsplit
  · exact fun _ _ => ⟨Nat.le_refl _, fun _ _ hi _ => hi⟩
  · have hdup := (h.dupper_le l.ncg_pos).1
    have hpos := h.dblkno_pos
    have hz : l.dtogd 0 = 0 := Nat.zero_mod _
    have hg0 : l.dtog 0 = 0 := Nat.zero_div _
    have hfront : ¬ (0 < 0 ∧ 0 < roundup (dlower m) l.frag) := by omega
    have hdata : ¬ (dupper l.geom m 0 ≤ 0 ∧ 0 < min l.fpg (l.size - l.cgbase 0)) := by omega
    have hmap := h.isset_done l.ncg_pos 0
    rw [initcgIsfree, decide_eq_false hfront, decide_eq_false hdata, Bool.false_or] at hmap
    rw [Groups.free, hz, hg0]
    exact hmap

/-- Its inodes are sound. -/
theorem Laid.inodesGood (h : Laid l m) (optim : Optim) :
    InodesGood l (mkfsGroups l.geom m optim) := by
  constructor
  · exact fun c hc => h.inodesOk hc
  · obtain ⟨⟨-, -, -, -, -, -, hsame⟩, -⟩ := h.initcgFree l.ncg_pos
    have hmap : (initcgDone l.geom m 0).inosused = BitMap.setRange (fun _ => 0) 0 ufsRootino :=
      hsame.inosused
    rw [Groups.inodeUsed, Nat.zero_div, Nat.zero_mod]
    have hcg : (mkfsGroups l.geom m optim).cg 0 = initcgDone l.geom m 0 := rfl
    rw [hcg, hmap, isset_setRange, decide_eq_true (by unfold ufsRootino; omega), Bool.true_or]

end Good

end EmbeddedOs.Ddfs
