import EmbeddedOs.Ddfs.InodeCalls

/-!
# The cylinder groups that `mkfs` writes

`initcg` of `mkfs.c` fills the block of a group: the inodes that are reserved, the free blocks in
front of the backup of the superblock and behind the inodes, the fragments that are left over at
both ends, and at last the summary of the clusters. What it leaves is sound, and what it leaves
free is known.
-/

namespace EmbeddedOs.Ddfs

open Lib BitRuns BitMap

/-- `initcg`: a block is free. `setblock` is `ffs_setblock`. -/
def initBlock (g : Geometry) (acg : Cg) (blkno : ℕ) : Cg :=
  { acg with
    blksfree := ffsSetblock g.frag acg.blksfree blkno
    clustersfree :=
      if 0 < g.contigsumsize then acg.clustersfree.setbit blkno else acg.clustersfree
    cs := { acg.cs with nbfree := acg.cs.nbfree + 1 } }

/-- The loops of `initcg` over the blocks from `d` on, and where they end. -/
def initBlocks (g : Geometry) (inside : ℕ → Bool) : ℕ → ℕ → Cg → Cg × ℕ
  | 0, d, acg => (acg, d)
  | fuel + 1, d, acg =>
    if inside d then initBlocks g inside fuel (d + g.frag) (initBlock g acg (d / g.frag))
    else (acg, d)

/-- The loops of `initcg` over the `n` fragments from `d` on. -/
def initFrags : ℕ → ℕ → Cg → Cg
  | 0, _, acg => acg
  | n + 1, d, acg =>
    initFrags n (d + 1) { acg with
      blksfree := acg.blksfree.setbit d
      cs := { acg.cs with nffree := acg.cs.nffree + 1 } }

/-- `initcg`: a part of a block is free. -/
def initPiece (acg : Cg) (d n : ℕ) : Cg :=
  initFrags n d { acg with frsum := addAt acg.frsum n 1 }

/-- The loop of `initcg` that counts the clusters, with the length of the run before `i`. -/
def sumClusters (contigsumsize : ℕ) (isset : ℕ → Bool) : ℕ → ℕ → ℕ → (ℕ → ℤ) → ℕ → ℤ
  | 0, _, run, sump => if run ≠ 0 then addAt sump (min run contigsumsize) 1 else sump
  | n + 1, i, run, sump =>
    if isset i then sumClusters contigsumsize isset n (i + 1) (run + 1) sump
    else if run ≠ 0 then
      sumClusters contigsumsize isset n (i + 1) 0 (addAt sump (min run contigsumsize) 1)
    else sumClusters contigsumsize isset n (i + 1) run sump

/-- `UFS_ROOTINO`. -/
def ufsRootino : ℕ := 2

/-- The block of a group before anything in it is free, with the inodes in front of the root
directory reserved. -/
def initcgStart (g : Geometry) (m : MkfsLayout) (cylno : ℕ) : Cg :=
  let ndblk := min (cylno * m.fpg + m.fpg) m.size - cylno * m.fpg
  let reserved := if cylno = 0 then ufsRootino else 0
  { magic := cgMagic
    cgx := cylno
    ndblk := ndblk
    cs := ⟨0, 0, m.ipg - reserved, 0⟩
    rotor := 0
    frotor := 0
    irotor := 0
    frsum := fun _ => 0
    nclusterblks := if 0 < g.contigsumsize then ndblk / g.frag else 0
    niblk := m.ipg
    initediblk := min m.ipg (2 * g.inopb)
    inosused := BitMap.setRange (fun _ => 0) 0 reserved
    blksfree := fun _ => 0
    clustersum := fun _ => 0
    clustersfree := fun _ => 0 }

/-- `dlower` of `initcg`: where the backup of the superblock is. -/
def dlower (m : MkfsLayout) : ℕ := (m.ddblkno + m.dedupfrags).toNat

/-- `dupper` of `initcg`: where the space for data begins. -/
def dupper (g : Geometry) (m : MkfsLayout) (cylno : ℕ) : ℕ :=
  m.dblkno + if cylno = 0 then howmany m.cssize g.fsize else 0

/-- The free blocks and fragments of `initcg`, in front of the backup of the superblock and behind
the inodes. -/
def initcgFree (g : Geometry) (m : MkfsLayout) (cylno : ℕ) : Cg :=
  let acg := initcgStart g m cylno
  let acg :=
    if 0 < cylno then (initBlocks g (fun d => d < dlower m) (dlower m) 0 acg).1 else acg
  let first := dupper g m cylno
  let i := first % g.frag
  let acg := if i ≠ 0 then initPiece acg first (g.frag - i) else acg
  let first := if i ≠ 0 then first + (g.frag - i) else first
  let (acg, d) := initBlocks g (fun d => d + g.frag ≤ acg.ndblk) acg.ndblk first acg
  if d < acg.ndblk then initPiece acg d (acg.ndblk - d) else acg

/-- The group behind `initcg`, with the summary of its clusters. -/
def initcgDone (g : Geometry) (m : MkfsLayout) (cylno : ℕ) : Cg :=
  let acg := initcgFree g m cylno
  { acg with
    clustersum :=
      if 0 < g.contigsumsize then
        sumClusters g.contigsumsize acg.clustersfree.isset acg.nclusterblks 0 0 acg.clustersum
      else acg.clustersum }

theorem isset_zero (i : ℕ) : BitMap.isset (fun _ => 0) i = false := by
  rw [isset_eq]
  exact BitVec.getLsbD_zero

section Clusters

/-- The summary of `initcg` counts the runs of the cluster map. -/
theorem sumClusters_eq (contigsumsize : ℕ) (isset : ℕ → Bool) (n i run : ℕ) (sump : ℕ → ℤ)
    (k : ℕ) : sumClusters contigsumsize isset n i run sump k =
      sump k + ((runsFrom run (seg isset i n)).map (min contigsumsize)).count k := by
  have hadd : ∀ (run : ℕ) (sump : ℕ → ℤ),
      addAt sump (min run contigsumsize) 1 k =
        sump k + if min contigsumsize run = k then 1 else 0 := by
    intro run sump
    rw [addAt_apply, Nat.min_comm]
    by_cases h : min contigsumsize run = k
    · rw [if_pos h, if_pos h.symm]
    · rw [if_neg h, if_neg fun heq => h heq.symm]
  induction n generalizing i run sump with
  | zero =>
    by_cases hrun : run = 0
    · simp [sumClusters, runsFrom, hrun]
    · rw [sumClusters, if_pos hrun, hadd, seg_zero, runsFrom, if_neg hrun, List.map_singleton,
        List.count_singleton]
      simp only [beq_iff_eq, Nat.cast_ite, Nat.cast_one, Nat.cast_zero]
  | succ n ih =>
    rw [sumClusters, seg_succ]
    cases hi : isset i with
    | true => rw [if_pos rfl, ih, runsFrom]
    | false =>
      rw [if_neg (by decide), runsFrom]
      by_cases hrun : run = 0
      · rw [if_neg (by simpa using hrun), if_pos hrun, ih, hrun]
      · rw [if_pos hrun, if_neg hrun, ih, hadd, List.map_cons, List.count_cons]
        simp only [beq_iff_eq]
        push_cast
        omega

end Clusters

/-- What holds of a group while `initcg` fills it: `free` has what is free so far. -/
structure InitOk (l : FsLayout) (acg : Cg) (free : ℕ → Bool) : Prop where
  /-- The counts are those of the map. -/
  counts : CountsExact l acg
  /-- The map. -/
  isset : ∀ i, acg.blksfree.isset i = free i
  /-- The cluster map has the free blocks. -/
  clusters : 0 < l.contigsumsize → ∀ h, acg.clustersfree.isset h = ffsIsblock l.frag acg.blksfree h

/-- What the loops of `initcg` leave alone. -/
structure InitKept (c c' : Cg) : Prop where
  magic : c'.magic = c.magic
  cgx : c'.cgx = c.cgx
  ndblk : c'.ndblk = c.ndblk
  frotor : c'.frotor = c.frotor
  nclusterblks : c'.nclusterblks = c.nclusterblks
  clustersum : c'.clustersum = c.clustersum
  inodes : SameInodes c c'

theorem InitKept.refl (c : Cg) : InitKept c c :=
  ⟨rfl, rfl, rfl, rfl, rfl, rfl, SameInodes.refl c⟩

theorem InitKept.trans {a b c : Cg} (h : InitKept a b) (h' : InitKept b c) : InitKept a c :=
  ⟨h'.magic.trans h.magic, h'.cgx.trans h.cgx, h'.ndblk.trans h.ndblk, h'.frotor.trans h.frotor,
    h'.nclusterblks.trans h.nclusterblks, h'.clustersum.trans h.clustersum,
    h.inodes.trans h'.inodes⟩

theorem initBlock_kept (g : Geometry) (acg : Cg) (b : ℕ) : InitKept acg (initBlock g acg b) :=
  ⟨rfl, rfl, rfl, rfl, rfl, rfl, rfl, rfl, rfl, rfl, rfl, rfl⟩

/-- The fragments of a part of a block, all at once. -/
theorem initFrags_fields (n d : ℕ) (acg : Cg) :
    (∀ i, (initFrags n d acg).blksfree.isset i =
        (decide (d ≤ i ∧ i < d + n) || acg.blksfree.isset i)) ∧
      (initFrags n d acg).cs = { acg.cs with nffree := acg.cs.nffree + n } ∧
      (initFrags n d acg).frsum = acg.frsum ∧
      (initFrags n d acg).clustersfree = acg.clustersfree ∧ InitKept acg (initFrags n d acg) := by
  induction n generalizing d acg with
  | zero =>
    refine ⟨fun i => ?_, ?_, rfl, rfl, InitKept.refl acg⟩
    · have hout : ¬ (d ≤ i ∧ i < d + 0) := by omega
      rw [decide_eq_false hout, Bool.false_or, initFrags]
    · simp [initFrags]
  | succ n ih =>
    obtain ⟨hmap, hcs, hfrsum, hclusters, hkept⟩ := ih (d + 1) { acg with
      blksfree := acg.blksfree.setbit d
      cs := { acg.cs with nffree := acg.cs.nffree + 1 } }
    refine ⟨fun i => ?_, ?_, hfrsum, hclusters, ?_⟩
    · rw [initFrags, hmap, isset_setbit, ← Bool.or_assoc]
      congr 1
      rw [Bool.eq_iff_iff, Bool.or_eq_true, beq_iff_eq, decide_eq_true_iff, decide_eq_true_iff]
      omega
    · rw [initFrags, hcs]
      simp only [Nat.cast_succ, Csum.mk.injEq, true_and]
      omega
    · have hstep : InitKept acg { acg with
          blksfree := acg.blksfree.setbit d
          cs := { acg.cs with nffree := acg.cs.nffree + 1 } } :=
        ⟨rfl, rfl, rfl, rfl, rfl, rfl, rfl, rfl, rfl, rfl, rfl, rfl⟩
      exact hstep.trans hkept

section Steps

variable {l : FsLayout} {acg : Cg} {free : ℕ → Bool} {b d n : ℕ}

/-- A block that becomes free keeps the counts exact. -/
theorem InitOk.block (h : InitOk l acg free) (hb : b < l.blocks)
    (hclr : ∀ i, i / l.frag = b → free i = false) :
    InitOk l (initBlock l.geom acg b) fun i => decide (i / l.frag = b) || free i := by
  have hfree : ffsIsfreeblock l.frag acg.blksfree b = true := by
    rw [isfreeblock_iff]
    intro j hj
    rw [h.isset]
    exact hclr _ (block_div l.geom b hj)
  have hmap : ∀ i, (ffsSetblock l.frag acg.blksfree b).isset i =
      (decide (i / l.frag = b) || acg.blksfree.isset i) := isset_ffsSetblock l.geom _ _
  have hcounts := h.counts.giveBlock hb hfree
  constructor
  · exact ⟨hcounts.nbfree, hcounts.nffree, hcounts.frsum⟩
  · intro i
    rw [← h.isset i]
    exact hmap i
  · intro hl k
    have hset : (initBlock l.geom acg b).clustersfree = acg.clustersfree.setbit b := if_pos hl
    have hnew : (initBlock l.geom acg b).blksfree = ffsSetblock l.frag acg.blksfree b := rfl
    rw [hset, hnew, isset_setbit, h.clusters hl]
    by_cases hk : k = b
    · rw [hk, isblock_setblock, beq_self_eq_true, Bool.true_or]
    · rw [beq_eq_false_iff_ne.mpr hk, Bool.false_or]
      exact (ffsIsblock_congr fun i hi => isset_setblock_of_ne (by rw [hi]; exact hk)).symm

/-- A part of a block that becomes free keeps the counts exact. -/
theorem InitOk.piece (h : InitOk l acg free) (hd : d < l.fpg) (hfits : d % l.frag + n ≤ l.frag)
    (hn : 1 ≤ n) (hnf : n < l.frag) (hclr : ∀ i, i / l.frag = d / l.frag → free i = false) :
    InitOk l (initPiece acg d n) fun i => decide (d ≤ i ∧ i < d + n) || free i := by
  obtain ⟨hmap, hcs, hfrsum, hclusters, -⟩ :=
    initFrags_fields n d { acg with frsum := addAt acg.frsum n 1 }
  have hmap' : ∀ i, (initPiece acg d n).blksfree.isset i =
      (decide (d ≤ i ∧ i < d + n) || acg.blksfree.isset i) := hmap
  have hoff : ∀ i, i / l.frag ≠ d / l.frag →
      (initPiece acg d n).blksfree.isset i = acg.blksfree.isset i := by
    intro i hi
    rw [hmap', decide_eq_false (off_block l hfits hi), Bool.false_or]
  have hold : blockFrags l.frag acg.blksfree (d / l.frag) = List.replicate l.frag false :=
    seg_eq_replicate fun j hj => by
      rw [h.isset]
      exact hclr _ (block_div l.geom _ hj)
  have hbase : d / l.frag * l.frag + d % l.frag = d := Nat.div_add_mod' d l.frag
  have hzero : ∀ i, d / l.frag * l.frag ≤ i → i < d / l.frag * l.frag + l.frag →
      acg.blksfree.isset i = false := by
    intro i hlow hhigh
    rw [h.isset]
    refine hclr i (Nat.div_eq_of_lt_le hlow ?_)
    rwa [Nat.succ_mul]
  -- the block has the part, and nothing else is free in it
  have hnew : blockFrags l.frag (initPiece acg d n).blksfree (d / l.frag) =
      List.replicate (d % l.frag) false ++ (List.replicate n true ++
        List.replicate (l.frag - (d % l.frag + n)) false) := by
    have hpre : seg acg.blksfree.isset (d / l.frag * l.frag) (d % l.frag) =
        List.replicate (d % l.frag) false :=
      seg_eq_replicate fun i hi => hzero _ (by omega) (by omega)
    have hmid : seg (initPiece acg d n).blksfree.isset d n = List.replicate n true :=
      seg_eq_replicate fun i hi => by
        rw [hmap', decide_eq_true (by omega), Bool.true_or]
    have hpost : seg acg.blksfree.isset (d + n) (l.frag - (d % l.frag + n)) =
        List.replicate (l.frag - (d % l.frag + n)) false :=
      seg_eq_replicate fun i hi => hzero _ (by omega) (by omega)
    rw [blockFrags_cut l (m := acg.blksfree) _ hfits, hpre, hmid, hpost]
    intro i hi
    have hout : ¬ (d ≤ i ∧ i < d + n) := by omega
    rw [hmap', decide_eq_false hout, Bool.false_or]
  have holdmem : false ∈ List.replicate l.frag false :=
    List.mem_replicate.mpr ⟨l.frag_pos.ne', rfl⟩
  have hnewmem : false ∈ List.replicate (d % l.frag) false ++ (List.replicate n true ++
      List.replicate (l.frag - (d % l.frag + n)) false) := by
    rw [List.mem_append, List.mem_append, List.mem_replicate, List.mem_replicate,
      List.mem_replicate]
    rcases Nat.eq_zero_or_pos (d % l.frag) with hz | hpos
    · exact .inr (.inr ⟨by omega, rfl⟩)
    · exact .inl ⟨hpos.ne', rfl⟩
  have hblock : d / l.frag < l.blocks := Nat.div_lt_div_of_lt_of_dvd l.frag_dvd_fpg hd
  have hcs' : (initPiece acg d n).cs = { acg.cs with nffree := acg.cs.nffree + n } := hcs
  constructor
  · refine h.counts.change hblock hoff ?_ ?_ ?_
    · rw [hnew, hold, wholeOf_of_mem holdmem, wholeOf_of_mem hnewmem, hcs']
      exact (Int.add_zero _).symm
    · rw [hnew, hold, looseOf_of_mem holdmem, looseOf_of_mem hnewmem, hcs']
      simp [List.count_append, List.count_replicate]
    · intro k hk _
      have hfr : (initPiece acg d n).frsum k = acg.frsum k + if k = n then 1 else 0 := by
        rw [← addAt_apply]
        exact congrFun hfrsum k
      have hlast : (List.replicate (d % l.frag) false).getLast? ≠ some true := by
        rw [List.getLast?_replicate]
        split <;> simp
      have hhead : (List.replicate (l.frag - (d % l.frag + n)) false).head? ≠ some true := by
        rw [List.head?_replicate]
        split <;> simp
      rw [hnew, hold, sizesOf_middle k hlast hhead, sizesOf_replicate_false,
        sizesOf_replicate_false, sizesOf_replicate_false, sizesOf_true n hk, hfr]
      by_cases hkn : k = n
      · rw [if_pos hkn, if_pos hkn.symm]
        omega
      · rw [if_neg hkn, if_neg (Ne.symm hkn)]
        omega
  · intro i
    rw [hmap', h.isset]
  · intro hl k
    have hsame : (initPiece acg d n).clustersfree = acg.clustersfree := hclusters
    rw [hsame, h.clusters hl]
    by_cases hk : k = d / l.frag
    · rw [hk, ffsIsblock_eq_false (by rw [hold]; exact holdmem),
        ffsIsblock_eq_false (by rw [hnew]; exact hnewmem)]
    · exact (ffsIsblock_congr fun i hi => hoff i (by rw [hi]; exact hk)).symm

theorem initPiece_kept (acg : Cg) (d n : ℕ) : InitKept acg (initPiece acg d n) := by
  obtain ⟨-, -, -, -, hkept⟩ := initFrags_fields n d { acg with frsum := addAt acg.frsum n 1 }
  have hstep : InitKept acg { acg with frsum := addAt acg.frsum n 1 } :=
    ⟨rfl, rfl, rfl, rfl, rfl, rfl, rfl, rfl, rfl, rfl, rfl, rfl⟩
  exact hstep.trans hkept

theorem InitOk.congr {free' : ℕ → Bool} (h : InitOk l acg free) (heq : ∀ i, free' i = free i) :
    InitOk l acg free' :=
  ⟨h.counts, fun i => (h.isset i).trans (heq i).symm, h.clusters⟩

/-- The loops over blocks: where they end, and what is free behind them. -/
theorem InitOk.blocks (inside : ℕ → Bool) (fuel : ℕ) (h : InitOk l acg free)
    (hd : d % l.frag = 0) (hclr : ∀ i, d ≤ i → free i = false)
    (hin : ∀ e, e % l.frag = 0 → inside e = true → e + l.frag ≤ l.fpg)
    (hfuel : inside (d + fuel * l.frag) = false) :
    ∃ acg' e, initBlocks l.geom inside fuel d acg = (acg', e) ∧ inside e = false ∧
      (e = d ∨ d + l.frag ≤ e ∧ inside (e - l.frag) = true) ∧ e % l.frag = 0 ∧
      InitKept acg acg' ∧ InitOk l acg' fun i => decide (d ≤ i ∧ i < e) || free i := by
  have hstop : ∀ i, (decide (d ≤ i ∧ i < d) || free i) = free i := fun i => by
    have hout : ¬ (d ≤ i ∧ i < d) := by omega
    rw [decide_eq_false hout, Bool.false_or]
  induction fuel generalizing d acg free with
  | zero =>
    refine ⟨acg, d, rfl, ?_, .inl rfl, hd, InitKept.refl acg, h.congr hstop⟩
    rwa [Nat.zero_mul] at hfuel
  | succ fuel ih =>
    by_cases hi : inside d = true
    · have hfpg := hin d hd hi
      have hpos := l.frag_pos
      have hbase : d / l.frag * l.frag = d := Nat.div_mul_cancel (Nat.dvd_of_mod_eq_zero hd)
      have hblock : d / l.frag < l.blocks :=
        Nat.div_lt_div_of_lt_of_dvd l.frag_dvd_fpg (by omega)
      have hmem : ∀ i, i / l.frag = d / l.frag ↔ d ≤ i ∧ i < d + l.frag := mem_block hd
      have hstep := h.block hblock fun i hi => hclr i ((hmem i).mp hi).1
      have hnext : inside (d + l.frag + fuel * l.frag) = false := by
        rw [Nat.succ_mul] at hfuel
        rwa [Nat.add_assoc, Nat.add_comm l.frag]
      obtain ⟨acg', e, heq, hend, hlast, hmod, hkept, hok⟩ := ih hstep
        (by rw [Nat.add_mod_right, hd]) (fun i hi => by
          have hout : ¬ i / l.frag = d / l.frag := fun hin => by
            have := (hmem i).mp hin
            omega
          rw [decide_eq_false hout, Bool.false_or]
          exact hclr i (by omega)) hnext
          (fun i => by
            have hout : ¬ (d + l.frag ≤ i ∧ i < d + l.frag) := by omega
            rw [decide_eq_false hout, Bool.false_or])
      have hgeom : l.geom.frag = l.frag := rfl
      refine ⟨acg', e, ?_, hend, .inr ?_, hmod, (initBlock_kept _ _ _).trans hkept,
        hok.congr fun i => ?_⟩
      · rw [initBlocks, if_pos hi, hgeom]
        exact heq
      · rcases hlast with rfl | ⟨hle, hin'⟩
        · exact ⟨Nat.le_refl _, by rwa [Nat.add_sub_cancel]⟩
        · exact ⟨by omega, hin'⟩
      · rw [← Bool.or_assoc]
        congr 1
        have hiff := hmem i
        have hle : d + l.frag ≤ e := by
          rcases hlast with rfl | ⟨hle, -⟩
          · exact Nat.le_refl _
          · omega
        rw [Bool.eq_iff_iff, Bool.or_eq_true, decide_eq_true_iff, decide_eq_true_iff,
          decide_eq_true_iff, hiff]
        omega
    · refine ⟨acg, d, ?_, ?_, .inl rfl, hd, InitKept.refl acg, h.congr hstop⟩
      · rw [initBlocks, if_neg hi]
      · simpa using hi

end Steps

/-- A layout of `mkfs` and the superblock that the kernel has of it. -/
structure Laid (l : FsLayout) (m : MkfsLayout) : Prop where
  size : m.size = l.size
  fpg : m.fpg = l.fpg
  ipg : m.ipg = l.ipg
  ncg : m.ncg = l.ncg
  dblkno : m.dblkno = l.dblkno
  /-- The inodes are in front of the data, and the boot block is in front of them. -/
  dblkno_pos : 0 < l.dblkno
  /-- They fill whole blocks. -/
  frag_dvd_dblkno : l.frag ∣ l.dblkno
  /-- The backup of the superblock is in front of the inodes. -/
  table : roundup (dlower m) l.frag < l.dblkno
  /-- Each group has room for its inodes. -/
  room : ∀ c, c < l.ncg → l.cgbase c + l.dblkno ≤ l.size ∧ l.dblkno ≤ l.fpg
  /-- The first group has room for the summary of all groups. -/
  first : roundup (dupper l.geom m 0) l.frag ≤ min l.fpg l.size

section Filled

variable {l : FsLayout} {m : MkfsLayout} {c : ℕ} {free : ℕ → Bool}

/-- What `initcg` leaves free in a group. -/
def initcgIsfree (l : FsLayout) (m : MkfsLayout) (c i : ℕ) : Bool :=
  decide (0 < c ∧ i < roundup (dlower m) l.frag) ||
    decide (dupper l.geom m c ≤ i ∧ i < min l.fpg (l.size - l.cgbase c))

/-- The end of a group. -/
theorem Laid.ndblk (h : Laid l m) (c : ℕ) :
    (initcgStart l.geom m c).ndblk = min l.fpg (l.size - l.cgbase c) := by
  have hbase : c * m.fpg = l.cgbase c := by rw [h.fpg, Nat.mul_comm, FsLayout.cgbase]
  have heq : (initcgStart l.geom m c).ndblk =
      min (c * m.fpg + m.fpg) m.size - c * m.fpg := rfl
  rw [heq, hbase, h.fpg, h.size]
  omega

/-- The next multiple. -/
theorem roundup_unique {x y e : ℕ} (hy : 0 < y) (he : e % y = 0) (hle : x ≤ e)
    (hlt : e < x + y) : roundup x y = e := by
  have hge : x ≤ roundup x y := le_roundup hy
  have hlt' : roundup x y < x + y := howmany_mul_lt hy
  obtain ⟨a, ha⟩ := Nat.dvd_of_mod_eq_zero he
  obtain ⟨b, hb⟩ : y ∣ roundup x y := dvd_roundup
  rw [ha] at hle hlt ⊢
  rw [hb] at hge hlt' ⊢
  have hab : b < a + 1 := Nat.lt_of_mul_lt_mul_left (a := y) (by rw [Nat.mul_succ]; omega)
  have hba : a < b + 1 := Nat.lt_of_mul_lt_mul_left (a := y) (by rw [Nat.mul_succ]; omega)
  rw [show b = a by omega]

/-- A block in front of the next multiple. -/
theorem add_le_roundup {x y e : ℕ} (he : e % y = 0) (hlt : e < x) : e + y ≤ roundup x y := by
  obtain ⟨a, rfl⟩ := Nat.dvd_of_mod_eq_zero he
  obtain ⟨b, hb⟩ : y ∣ roundup x y := dvd_roundup
  rcases Nat.eq_zero_or_pos y with rfl | hy
  · omega
  · have hle : x ≤ roundup x y := le_roundup hy
    rw [hb] at hle ⊢
    have hab : a < b := Nat.lt_of_mul_lt_mul_left (a := y) (by omega)
    have hmul := Nat.mul_le_mul_left y hab
    rwa [Nat.mul_succ] at hmul

/-- A fragment that is left over at the beginning of the data. -/
theorem roundup_mod {x y : ℕ} (hy : 0 < y) :
    roundup x y = if x % y = 0 then x else x + (y - x % y) := by
  have hmod := Nat.mod_lt x hy
  split
  · rename_i h
    exact roundup_unique hy h (Nat.le_refl x) (by omega)
  · rename_i h
    refine roundup_unique hy ?_ (by omega) (by omega)
    have hdiv := Nat.div_add_mod x y
    have heq : x + (y - x % y) = y * (x / y) + y := by omega
    rw [heq, Nat.add_mod_right, Nat.mul_mod_right]

/-- At first nothing is free. -/
theorem InitOk.start (l : FsLayout) (m : MkfsLayout) (c : ℕ) :
    InitOk l (initcgStart l.geom m c) fun _ => false := by
  have hnone : ∀ h, blockFrags l.frag (fun _ => 0) h = List.replicate l.frag false :=
    fun h => seg_eq_replicate fun i _ => isset_zero _
  have htotal : ∀ w : List Bool → ℤ, w (List.replicate l.frag false) = 0 →
      0 = blockTotal l (fun _ => 0) w := by
    intro w hw
    refine (Finset.sum_eq_zero fun h _ => ?_).symm
    rw [hnone, hw]
  constructor
  · exact ⟨htotal _ (wholeOf_replicate_false l.frag_pos), htotal _ (looseOf_replicate_false _),
      fun k _ _ => htotal _ (sizesOf_replicate_false _ k)⟩
  · exact isset_zero
  · intro _ h
    have hblock : ffsIsblock l.frag (fun _ => 0) h = false := ffsIsblock_eq_false (by
      rw [hnone]
      exact List.mem_replicate.mpr ⟨l.frag_pos.ne', rfl⟩)
    exact (isset_zero h).trans hblock.symm

/-- The data of each group begins within it. -/
theorem Laid.dupper_le (h : Laid l m) (hc : c < l.ncg) :
    l.dblkno ≤ dupper l.geom m c ∧
      roundup (dupper l.geom m c) l.frag ≤ min l.fpg (l.size - l.cgbase c) := by
  have hroom := h.room c hc
  constructor
  · rw [dupper, h.dblkno]
    exact Nat.le_add_right _ _
  · rcases Nat.eq_zero_or_pos c with rfl | hpos
    · have hbase : l.cgbase 0 = 0 := Nat.mul_zero _
      rw [hbase, Nat.sub_zero]
      exact h.first
    · have hdup : dupper l.geom m c = l.dblkno := by
        rw [dupper, if_neg hpos.ne', h.dblkno, Nat.add_zero]
      rw [hdup, roundup_mod l.frag_pos, if_pos (Nat.mod_eq_zero_of_dvd h.frag_dvd_dblkno)]
      omega

/-- The free blocks in front of the backup of the superblock. -/
theorem Laid.front (h : Laid l m) (hc : c < l.ncg) : ∃ acg,
    (if 0 < c then (initBlocks l.geom (fun d => d < dlower m) (dlower m) 0
        (initcgStart l.geom m c)).1 else initcgStart l.geom m c) = acg ∧
      InitKept (initcgStart l.geom m c) acg ∧
      InitOk l acg fun i => decide (0 < c ∧ i < roundup (dlower m) l.frag) := by
  have hstart := InitOk.start l m c
  have hpos := l.frag_pos
  rcases Nat.eq_zero_or_pos c with rfl | hc0
  · refine ⟨_, if_neg (Nat.lt_irrefl 0), InitKept.refl _, hstart.congr fun i => ?_⟩
    exact decide_eq_false (fun hlt => Nat.lt_irrefl 0 hlt.1)
  · have hfuel : decide (0 + dlower m * l.frag < dlower m) = false := by
      have hmul := Nat.le_mul_of_pos_right (dlower m) hpos
      exact decide_eq_false (by omega)
    obtain ⟨acg, e, heq, hend, hlast, hmod, hkept, hok⟩ :=
      hstart.blocks (d := 0) (fun d => d < dlower m) (dlower m)
        (Nat.zero_mod _) (fun _ _ => rfl) (fun e hmod he => by
          have htable := h.table
          have hroom := (h.room c hc).2
          have hle := add_le_roundup hmod (of_decide_eq_true he)
          omega) hfuel
    have hround : roundup (dlower m) l.frag = e := by
      have hge : dlower m ≤ e := Nat.le_of_not_lt (of_decide_eq_false hend)
      refine roundup_unique hpos hmod hge ?_
      rcases hlast with rfl | ⟨hle, hin⟩
      · omega
      · have := of_decide_eq_true hin
        omega
    refine ⟨acg, ?_, hkept, hok.congr fun i => ?_⟩
    · rw [if_pos hc0, heq]
    · rw [hround, Bool.or_false]
      exact decide_eq_decide.mpr (by omega)

/-- The fragments that are left over at the beginning of the data. -/
theorem Laid.head (h : Laid l m) (hc : c < l.ncg) {acg : Cg} (hok : InitOk l acg free)
    (hfree : ∀ i, l.dblkno ≤ i → free i = false) :
    let first := dupper l.geom m c
    let i := first % l.geom.frag
    ∃ acg', (if i ≠ 0 then initPiece acg first (l.geom.frag - i) else acg) = acg' ∧
      (if i ≠ 0 then first + (l.geom.frag - i) else first) = roundup first l.frag ∧
      InitKept acg acg' ∧ InitOk l acg' fun i =>
        decide (first ≤ i ∧ i < roundup first l.frag) || free i := by
  intro first i
  have hpos := l.frag_pos
  have hge : l.dblkno ≤ first := (h.dupper_le hc).1
  have hle : roundup first l.frag ≤ min l.fpg (l.size - l.cgbase c) := (h.dupper_le hc).2
  have hround := roundup_mod (x := first) hpos
  have hi : i = first % l.frag := rfl
  have hgeom : l.geom.frag = l.frag := rfl
  have hmod : first % l.frag < l.frag := Nat.mod_lt _ hpos
  rw [hi, hgeom]
  by_cases hz : first % l.frag = 0
  · rw [if_pos hz] at hround
    refine ⟨acg, if_neg (not_not.mpr hz), ?_, InitKept.refl acg, hok.congr fun i => ?_⟩
    · rw [if_neg (not_not.mpr hz), hround]
    · have hout : ¬ (first ≤ i ∧ i < first) := by omega
      rw [hround, decide_eq_false hout, Bool.false_or]
  · rw [if_neg hz] at hround
    refine ⟨_, if_pos hz, ?_, initPiece_kept acg first _, ?_⟩
    · rw [if_pos hz, hround]
    · rw [hround]
      refine hok.piece (by omega) (by omega) (by omega) (by omega) fun i hi => hfree i ?_
      -- the block begins behind the inodes
      have hbase := Nat.div_mul_le_self i l.frag
      have hdiv : l.dblkno / l.frag ≤ first / l.frag := Nat.div_le_div_right hge
      have hmul := Nat.mul_le_mul_right l.frag hdiv
      rw [Nat.div_mul_cancel h.frag_dvd_dblkno] at hmul
      rw [hi] at hbase
      omega

/-- The blocks of the data, and the fragments that are left over at their end. -/
theorem InitOk.rest {acg : Cg} {first : ℕ}
    (hok : InitOk l acg free) (hndblk : acg.ndblk ≤ l.fpg)
    (hmod : first % l.frag = 0) (hle : first ≤ acg.ndblk)
    (hfree : ∀ i, first ≤ i → free i = false) :
    ∃ acg' d, initBlocks l.geom (fun d => d + l.geom.frag ≤ acg.ndblk) acg.ndblk first acg =
        (acg', d) ∧ acg'.ndblk = acg.ndblk ∧
      InitKept acg (if d < acg'.ndblk then initPiece acg' d (acg'.ndblk - d) else acg') ∧
      InitOk l (if d < acg'.ndblk then initPiece acg' d (acg'.ndblk - d) else acg')
        fun i => decide (first ≤ i ∧ i < acg.ndblk) || free i := by
  have hpos := l.frag_pos
  have hgeom : l.geom.frag = l.frag := rfl
  have hfuel : decide (first + acg.ndblk * l.frag + l.geom.frag ≤ acg.ndblk) = false := by
    have hmul := Nat.le_mul_of_pos_right acg.ndblk hpos
    exact decide_eq_false (by omega)
  obtain ⟨acg', d, heq, hend, hlast, hdmod, hkept, hfill⟩ :=
    hok.blocks (fun d => d + l.geom.frag ≤ acg.ndblk) acg.ndblk hmod hfree (fun e _ he => by
      have := of_decide_eq_true he
      omega) hfuel
  have hge := of_decide_eq_false hend
  have hd : d ≤ acg.ndblk := by
    rcases hlast with rfl | ⟨hlow, hin⟩
    · exact hle
    · have := of_decide_eq_true hin
      omega
  have hfirst : first ≤ d := by omega
  refine ⟨acg', d, heq, hkept.ndblk, ?_⟩
  rw [hkept.ndblk]
  split
  · rename_i hlt
    refine ⟨hkept.trans (initPiece_kept _ _ _), ?_⟩
    have hpiece := hfill.piece (d := d) (n := acg.ndblk - d) (by omega) (by omega) (by omega)
      (by omega) fun i hi => by
        have hlow : d ≤ i := by
          have hbase := Nat.div_mul_le_self i l.frag
          rw [hi, Nat.div_mul_cancel (Nat.dvd_of_mod_eq_zero hdmod)] at hbase
          exact hbase
        have hout : ¬ (first ≤ i ∧ i < d) := by omega
        rw [decide_eq_false hout, Bool.false_or]
        exact hfree i (by omega)
    refine hpiece.congr fun i => ?_
    rw [← Bool.or_assoc]
    congr 1
    rw [Bool.eq_iff_iff, Bool.or_eq_true, decide_eq_true_iff, decide_eq_true_iff,
      decide_eq_true_iff]
    omega
  · rename_i hlt
    have hde : d = acg.ndblk := by omega
    rw [hde] at hfill
    exact ⟨hkept, hfill⟩

/-- What `initcg` leaves free, and that its counts are exact. -/
theorem Laid.initcgFree (h : Laid l m) (hc : c < l.ncg) :
    InitKept (initcgStart l.geom m c) (initcgFree l.geom m c) ∧
      InitOk l (initcgFree l.geom m c) (initcgIsfree l m c) := by
  obtain ⟨hge, hle⟩ := h.dupper_le hc
  have htable := h.table
  obtain ⟨acg₁, hfront, hkept₁, hok₁⟩ := h.front hc
  obtain ⟨acg₂, hhead, hfirst, hkept₂, hok₂⟩ := h.head hc hok₁ fun i hi =>
    decide_eq_false (by omega)
  have hndblk : acg₂.ndblk = min l.fpg (l.size - l.cgbase c) := by
    rw [hkept₂.ndblk, hkept₁.ndblk, h.ndblk]
  have hround : dupper l.geom m c ≤ roundup (dupper l.geom m c) l.frag := le_roundup l.frag_pos
  obtain ⟨acg₃, d, hblocks, hsame, hkept₃, hok₃⟩ := hok₂.rest (by omega)
    (Nat.mod_eq_zero_of_dvd dvd_roundup) (by rw [hndblk]; exact hle) fun i hi => by
      have hfree : ¬ (dupper l.geom m c ≤ i ∧ i < roundup (dupper l.geom m c) l.frag) := by omega
      rw [decide_eq_false hfree, Bool.false_or]
      exact decide_eq_false (by omega)
  have heq : Ddfs.initcgFree l.geom m c =
      if d < acg₃.ndblk then initPiece acg₃ d (acg₃.ndblk - d) else acg₃ := by
    unfold Ddfs.initcgFree
    simp only [hfront, hhead, hfirst, hblocks]
  rw [heq]
  refine ⟨(hkept₁.trans hkept₂).trans hkept₃, hok₃.congr fun i => ?_⟩
  rw [initcgIsfree, hndblk, ← Bool.or_assoc, Bool.or_comm]
  congr 1
  rw [Bool.eq_iff_iff, Bool.or_eq_true, decide_eq_true_iff, decide_eq_true_iff,
    decide_eq_true_iff]
  omega

/-- Where the group ends. -/
theorem Laid.ndblk_done (h : Laid l m) (hc : c < l.ncg) :
    (initcgDone l.geom m c).ndblk = min l.fpg (l.size - l.cgbase c) :=
  (h.initcgFree hc).1.ndblk.trans (h.ndblk c)

/-- What `initcg` leaves free. -/
theorem Laid.isset_done (h : Laid l m) (hc : c < l.ncg) (i : ℕ) :
    (initcgDone l.geom m c).blksfree.isset i = initcgIsfree l m c i :=
  (h.initcgFree hc).2.isset i

end Filled

end EmbeddedOs.Ddfs
