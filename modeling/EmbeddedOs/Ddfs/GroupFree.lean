import EmbeddedOs.Ddfs.GroupRequests

/-!
# Freeing in a cylinder group

`ffs_blkfree_cg` puts a block or a fragment back into the map of its group. A fragment may
complete a block, which is then counted as one. On a disk without soft updates there is nothing
to do if the block of the group cannot be read.
-/

namespace EmbeddedOs.Ddfs

open Lib BitRuns

/-- The assignments of `ffs_blkfree_cg` for a block that is free as a whole. -/
def giveBlock (l : FsLayout) (cgp : Cg) (maxcluster : ℕ → ℕ) (fragno : ℕ) : Cg × (ℕ → ℕ) :=
  let acct := ffsClusteracct l cgp maxcluster fragno 1
  ({ acct.1 with cs := { acct.1.cs with nbfree := acct.1.cs.nbfree + 1 } }, acct.2)

/-- The assignments of `ffs_blkfree_cg` for a request to free a block. -/
def giveWhole (l : FsLayout) (cgp : Cg) (maxcluster : ℕ → ℕ) (fragno : ℕ) : Cg × (ℕ → ℕ) :=
  giveBlock l { cgp with blksfree := ffsSetblock l.frag cgp.blksfree fragno } maxcluster fragno

/-- The loop of `ffs_blkfree_cg` over the fragments; it is none where the code panics. -/
def giveFragLoop (cgbno : ℕ) : ℕ → ℕ → BitMap → Option BitMap
  | 0, _, blksfree => some blksfree
  | n + 1, i, blksfree =>
    -- `ffs_blkfree_cg: freeing free frag`
    if blksfree.isset (cgbno + i) then none
    else giveFragLoop cgbno n (i + 1) (blksfree.setbit (cgbno + i))

/-- The assignments of `ffs_blkfree_cg` for a request to free `frags` fragments of the block at
`bbase`, where `blksfree` is the new map. -/
def giveFrags (l : FsLayout) (cgp : Cg) (bbase : ℕ) (blksfree : BitMap) (frags : ℕ) : Cg :=
  -- decrement the counts associated with the old frags
  let frsum := ffsFragacct l.frag (blkmap l.frag cgp.blksfree bbase) cgp.frsum (-1)
  -- add back in counts associated with the new frags
  { cgp with
    blksfree := blksfree
    frsum := ffsFragacct l.frag (blkmap l.frag blksfree bbase) frsum 1
    cs := { cgp.cs with nffree := cgp.cs.nffree + frags } }

/-- The assignments of `ffs_blkfree_cg` for a complete block that has been reassembled. -/
def reassemble (l : FsLayout) (cgp : Cg) (maxcluster : ℕ → ℕ) (fragno : ℕ) : Cg × (ℕ → ℕ) :=
  giveBlock l { cgp with cs := { cgp.cs with nffree := cgp.cs.nffree - l.frag } } maxcluster fragno

/-- `ffs_blkfree_cg`: free a block or a fragment; it is none where the code panics. -/
def ffsBlkfreeCg (l : FsLayout) (readable : ℕ → Bool) (s : Groups) (bno size : ℕ) :
    Option Groups :=
  let cg := l.dtog bno
  -- `bad block`, compared in 32 bits
  if l.size ≤ bno % 2 ^ 32 then some s
  else
    match ffsGetcg readable s cg with
    | none => some s
    | some cgp =>
      let cgbno := l.dtogd bno
      if size = l.bsize then
        let fragno := l.fragstoblks cgbno
        -- `ffs_blkfree_cg: freeing free block`
        if !ffsIsfreeblock l.frag cgp.blksfree fragno then none
        else
          let acct := giveWhole l cgp s.maxcluster fragno
          some ((({ s with maxcluster := acct.2 } : Groups).account cg fun cs =>
            { cs with nbfree := cs.nbfree + 1 }).setCg cg acct.1)
      else
        let bbase := cgbno - l.fragnum cgbno
        let frags := l.numfrags size
        match giveFragLoop cgbno frags 0 cgp.blksfree with
        | none => none
        | some blksfree =>
          let cgp := giveFrags l cgp bbase blksfree frags
          let s := s.account cg fun cs => { cs with nffree := cs.nffree + frags }
          let fragno := l.fragstoblks bbase
          if ffsIsblock l.frag blksfree fragno then
            let acct := reassemble l cgp s.maxcluster fragno
            some ((({ s with maxcluster := acct.2 } : Groups).account cg fun cs => { cs with
              nffree := cs.nffree - l.frag
              nbfree := cs.nbfree + 1 }).setCg cg acct.1)
          else some (s.setCg cg cgp)

section Group

variable {l : FsLayout} {cgx h bno n i : ℕ} {c c₁ : Cg} (mc : ℕ → ℕ)

/-- A block becomes free as a whole: the cluster map and its summary follow. -/
theorem GroupOk.giveBlock (hok : GroupOk l cgx c)
    (hframe : c₁ = { c with cs := c₁.cs, frsum := c₁.frsum, blksfree := c₁.blksfree })
    (hh : h < l.blocks) (hoff : ∀ i, i / l.frag ≠ h → c₁.blksfree.isset i = c.blksfree.isset i)
    (hold : ffsIsblock l.frag c.blksfree h = false)
    (hnew : ffsIsblock l.frag c₁.blksfree h = true)
    (htail : ∀ i, c.ndblk ≤ i → i < howmany l.fpg 8 * 8 → c₁.blksfree.isset i = false)
    (hcounts : CountsExact l { c₁ with cs := { c₁.cs with nbfree := c₁.cs.nbfree + 1 } }) :
    GroupOk l cgx (giveBlock l c₁ mc h).1 := by
  obtain ⟨sum, free, hacct⟩ := ffsClusteracct_frame l c₁ mc h 1
  have hres : (Ddfs.giveBlock l c₁ mc h).1 = { c₁ with
      clustersum := sum
      clustersfree := free
      cs := { c₁.cs with nbfree := c₁.cs.nbfree + 1 } } := by
    rw [Ddfs.giveBlock, hacct]
  have hndblk : c₁.ndblk = c.ndblk := (congrArg Cg.ndblk hframe :)
  have hfree : c₁.clustersfree = c.clustersfree := (congrArg Cg.clustersfree hframe :)
  have hsum : c₁.clustersum = c.clustersum := (congrArg Cg.clustersum hframe :)
  have hncl : c₁.nclusterblks = c.nclusterblks := (congrArg Cg.nclusterblks hframe :)
  rw [hres]
  constructor
  · exact (congrArg Cg.magic hframe :).trans hok.magic
  · exact (congrArg Cg.cgx hframe :).trans hok.cgx_eq
  · exact hndblk.trans hok.ndblk
  · exact lt_of_eq_of_lt (congrArg Cg.frotor hframe :) hok.frotor_lt
  · exact hndblk ▸ htail
  · exact ⟨hcounts.nbfree, hcounts.nffree, hcounts.frsum⟩
  · intro hl
    have hclusters := hok.clusters hl
    have hend : (h + 1) * l.frag ≤ c.ndblk := by
      have hpos := l.frag_pos
      have hset := (ffsIsblock_iff l.geom c₁.blksfree h).mp hnew (l.frag - 1)
        (Nat.sub_lt hpos Nat.one_pos)
      have hgeom : l.geom.frag = l.frag := rfl
      have hbytes : l.fpg ≤ howmany l.fpg 8 * 8 := le_howmany_mul (by decide)
      have hmul : (h + 1) * l.frag ≤ l.blocks * l.frag := Nat.mul_le_mul_right _ hh
      rw [l.blocks_mul, Nat.succ_mul] at hmul
      by_contra hgt
      rw [Nat.succ_mul] at hgt
      have := htail (h * l.frag + (l.frag - 1)) (by omega) (by omega)
      exact absurd (hset.symm.trans this) (by decide)
    have hlt : h < c.nclusterblks := by
      rw [hclusters.nclusterblks]
      exact (Nat.le_div_iff_mul_le l.frag_pos).mpr hend
    have hexact : ClustersExact l c₁ := by
      unfold ClustersExact
      rw [hsum, hfree, hncl]
      exact hclusters.exact
    have hclr : c₁.clustersfree.isset h = false := by rw [hfree, hclusters.isset h hlt, hold]
    have hset := clustersfree_ffsClusteracct l c₁ mc h 1 hl
    have hacct' := hexact.free mc (hncl.symm ▸ hlt) hclr
    rw [if_pos Int.one_pos, hacct] at hset
    rw [hacct] at hacct'
    have hset' : free = c₁.clustersfree.setbit h := hset
    refine ⟨?_, fun b hb => ?_, hacct'⟩
    · exact hncl.trans (hndblk ▸ hclusters.nclusterblks)
    · have hbit : free.isset b = (b == h || c.clustersfree.isset b) := by
        rw [hset', BitMap.isset_setbit, hfree]
      have hb' : b < c.nclusterblks := hncl ▸ hb
      rw [hbit, hclusters.isset b hb']
      by_cases hbh : b = h
      · subst b
        rw [beq_self_eq_true, Bool.true_or]
        exact hnew.symm
      · rw [beq_eq_false_iff_ne.mpr hbh, Bool.false_or]
        exact (ffsIsblock_congr fun i hi => hoff i (by rw [hi]; exact hbh)).symm

/-- `fs_maxcluster` bounds the clusters with the new block. -/
theorem clusterBound_giveBlock (hcgx : c.cgx = cgx) (hmc : mc cgx ≤ l.contigsumsize) :
    ClusterBound l (giveBlock l c mc h).1.clustersum ((giveBlock l c mc h).2 cgx) :=
  ClusterBound.clusteracct l c mc h 1 hcgx hmc

theorem maxcluster_giveBlock_of_ne {b : ℕ} (hb : b ≠ c.cgx) : (giveBlock l c mc h).2 b = mc b :=
  maxcluster_ffsClusteracct_of_ne l c mc h 1 hb

theorem giveBlock_fields : (giveBlock l c mc h).1.blksfree = c.blksfree ∧
    (giveBlock l c mc h).1.cs = { c.cs with nbfree := c.cs.nbfree + 1 } ∧
    SameInodes c (giveBlock l c mc h).1 := by
  obtain ⟨sum, free, hframe⟩ := ffsClusteracct_frame l c mc h 1
  rw [giveBlock, hframe]
  exact ⟨rfl, rfl, rfl, rfl, rfl, rfl, rfl, rfl⟩

theorem giveWhole_fields (l : FsLayout) (c : Cg) (mc : ℕ → ℕ) (h : ℕ) :
    (giveWhole l c mc h).1.blksfree = ffsSetblock l.frag c.blksfree h ∧
      (giveWhole l c mc h).1.cs = { c.cs with nbfree := c.cs.nbfree + 1 } ∧
      SameInodes c (giveWhole l c mc h).1 := by
  obtain ⟨hfree, hcs, hsame⟩ := giveBlock_fields (l := l) (h := h)
    (c := { c with blksfree := ffsSetblock l.frag c.blksfree h }) mc
  exact ⟨hfree, hcs, hsame.inosused, hsame.irotor, hsame.niblk, hsame.initediblk, hsame.nifree,
    hsame.ndir⟩

theorem reassemble_fields (l : FsLayout) (c : Cg) (mc : ℕ → ℕ) (h : ℕ) :
    (reassemble l c mc h).1.blksfree = c.blksfree ∧ (reassemble l c mc h).1.cs =
      { c.cs with nffree := c.cs.nffree - l.frag, nbfree := c.cs.nbfree + 1 } ∧
      SameInodes c (reassemble l c mc h).1 := by
  obtain ⟨hfree, hcs, hsame⟩ := giveBlock_fields (l := l) (h := h)
    (c := { c with cs := { c.cs with nffree := c.cs.nffree - l.frag } }) mc
  exact ⟨hfree, hcs, hsame.inosused, hsame.irotor, hsame.niblk, hsame.initediblk, hsame.nifree,
    hsame.ndir⟩

end Group

section Loop

variable {cgbno n i j : ℕ} {m m' : BitMap}

/-- The loop panics exactly if one of the fragments is free. -/
theorem giveFragLoop_none_iff :
    giveFragLoop cgbno n i m = none ↔ ∃ j, i ≤ j ∧ j < i + n ∧ m.isset (cgbno + j) = true := by
  induction n generalizing i m with
  | zero =>
    constructor
    · intro h
      simp [giveFragLoop] at h
    · rintro ⟨j, hj, hlt, -⟩
      omega
  | succ n ih =>
    unfold giveFragLoop
    by_cases hset : m.isset (cgbno + i) = true
    · rw [if_pos hset]
      exact ⟨fun _ => ⟨i, Nat.le_refl i, by omega, hset⟩, fun _ => rfl⟩
    · rw [if_neg hset, ih]
      constructor
      · rintro ⟨j, hj, hlt, hjset⟩
        rw [BitMap.isset_setbit, beq_eq_false_iff_ne.mpr (by omega), Bool.false_or] at hjset
        exact ⟨j, by omega, by omega, hjset⟩
      · rintro ⟨j, hj, hlt, hjset⟩
        have hne : j ≠ i := by
          rintro rfl
          exact hset hjset
        refine ⟨j, by omega, by omega, ?_⟩
        rw [BitMap.isset_setbit, beq_eq_false_iff_ne.mpr (by omega), Bool.false_or]
        exact hjset

/-- The loop sets the fragments, and no others. -/
theorem isset_giveFragLoop (h : giveFragLoop cgbno n i m = some m') :
    m'.isset j = (decide (cgbno + i ≤ j ∧ j < cgbno + i + n) || m.isset j) := by
  induction n generalizing i m with
  | zero =>
    obtain rfl := Option.some.inj h
    have hout : ¬ (cgbno + i ≤ j ∧ j < cgbno + i + 0) := by omega
    rw [decide_eq_false hout, Bool.false_or]
  | succ n ih =>
    unfold giveFragLoop at h
    split at h
    · exact absurd h (by simp)
    · rw [ih h, BitMap.isset_setbit, ← Bool.or_assoc]
      congr 1
      rw [Bool.eq_iff_iff, Bool.or_eq_true, decide_eq_true_iff, beq_iff_eq, decide_eq_true_iff]
      omega

end Loop

/-- A piece of `n` fragments at `r` is put into the free map, and nothing else changes. -/
structure Gives (l : FsLayout) (s s' : Groups) (r n : ℕ) : Prop where
  /-- It was not free. -/
  was : ∀ i, i < n → s.free l (r + i) = false
  /-- It is all that becomes free. -/
  free : ∀ d, s'.free l d = (decide (r ≤ d ∧ d < r + n) || s.free l d)
  /-- The inodes are as before. -/
  inodes : ∀ c, SameInodes (s.cg c) (s'.cg c)

section Free

variable {l : FsLayout} {s s' : Groups} {bno cg i n : ℕ} {c : Cg} {m : BitMap}

/-- What is given to the map of a group is given to the file system. -/
theorem Gives.of_group (hbno : bno < l.fpg) (hfits : bno % l.frag + n ≤ l.frag)
    (hclr : ∀ i, i < n → (s.cg cg).blksfree.isset (bno + i) = false)
    (hother : ∀ b, b ≠ cg → s'.cg b = s.cg b)
    (hmap : ∀ i, (s'.cg cg).blksfree.isset i =
      (decide (bno ≤ i ∧ i < bno + n) || (s.cg cg).blksfree.isset i))
    (hself : SameInodes (s.cg cg) (s'.cg cg)) : Gives l s s' (l.cgbase cg + bno) n := by
  have hle := piece_le_fpg l hbno hfits
  constructor
  · intro i hi
    rw [Nat.add_assoc, Groups.free, l.dtog_cgbase (by omega), l.dtogd_cgbase (by omega)]
    exact hclr i hi
  · intro d
    have hiff := mem_piece_iff cg d hle
    unfold Groups.free
    by_cases h : l.dtog d = cg
    · have hdec : decide (l.cgbase cg + bno ≤ d ∧ d < l.cgbase cg + bno + n) =
          decide (bno ≤ l.dtogd d ∧ l.dtogd d < bno + n) :=
        decide_eq_decide.mpr (hiff.trans (and_iff_right h))
      rw [hdec, h, hmap]
    · have hdec : decide (l.cgbase cg + bno ≤ d ∧ d < l.cgbase cg + bno + n) = false :=
        decide_eq_false fun hmem => h (hiff.mp hmem).1
      rw [hdec, hother _ h, Bool.false_or]
  · exact SameInodes.of_group hother hself

/-- A piece of the file system ends in front of the end of its group. -/
theorem GroupOk.piece_le (hok : GroupOk l (l.dtog bno) c) (hend : bno + n ≤ l.size)
    (hfits : bno % l.frag + n ≤ l.frag) : l.dtogd bno + n ≤ c.ndblk := by
  have hle := piece_le_fpg l (n := n) (l.dtogd_lt bno)
    (by rw [l.dtogd_mod]; exact hfits)
  have hbase := l.cgbase_dtog bno
  rw [hok.ndblk]
  omega

/-- The boot block stays allocated if a piece behind it becomes free. -/
theorem Good.zero_of_gives (hgood : Good l s) (hbno : bno ≠ 0)
    (hmap : ∀ i, m.isset i = (decide (l.dtogd bno ≤ i ∧ i < l.dtogd bno + n) ||
      (s.cg (l.dtog bno)).blksfree.isset i)) (h0 : l.dtog bno = 0) : m.isset 0 = false := by
  have hz : l.dtogd 0 = 0 := Nat.zero_mod _
  have hg0 : l.dtog 0 = 0 := Nat.zero_div _
  have hzero := hgood.zero
  have hbase := l.cgbase_dtog bno
  unfold Groups.free at hzero
  rw [hz, hg0] at hzero
  rw [h0] at hbase
  have hcg0 : l.cgbase 0 = 0 := Nat.mul_zero _
  have hout : ¬ (l.dtogd bno ≤ 0 ∧ 0 < l.dtogd bno + n) := by omega
  rw [hmap, decide_eq_false hout, Bool.false_or, h0]
  exact hzero

/-- The map with a block that became free. -/
theorem isset_setblock (hmod : bno % l.frag = 0) (i : ℕ) :
    (ffsSetblock l.frag m (bno / l.frag)).isset i =
      (decide (bno ≤ i ∧ i < bno + l.frag) || m.isset i) := by
  have hset := isset_ffsSetblock l.geom m (bno / l.frag) i
  have hdec : decide (i / l.geom.frag = bno / l.frag) =
      decide (bno ≤ i ∧ i < bno + l.frag) := decide_eq_decide.mpr (mem_block hmod i)
  rw [hdec] at hset
  exact hset

/-- Behind `ffs_setblock`, the block is free. -/
theorem isblock_setblock (m : BitMap) (b : ℕ) :
    ffsIsblock l.frag (ffsSetblock l.frag m b) b = true := by
  refine (ffsIsblock_iff l.geom _ b).mpr fun j hj => ?_
  have hset := isset_ffsSetblock l.geom m b (b * l.geom.frag + j)
  rw [decide_eq_true (block_div l.geom b hj), Bool.true_or] at hset
  exact hset

theorem isfreeblock_iff (l : FsLayout) (m : BitMap) (b : ℕ) : ffsIsfreeblock l.frag m b = true ↔
    ∀ j, j < l.frag → m.isset (b * l.frag + j) = false := ffsIsfreeblock_iff l.geom m b

/-- `ffs_setblock` does not touch the other blocks. -/
theorem isset_setblock_of_ne {b : ℕ} (hi : i / l.frag ≠ b) :
    (ffsSetblock l.frag m b).isset i = m.isset i := by
  have hi' : i / l.geom.frag ≠ b := hi
  have hset := isset_ffsSetblock l.geom m b i
  rw [decide_eq_false hi', Bool.false_or] at hset
  exact hset

/-- The counts of a group with a block that became free. -/
theorem CountsExact.giveBlock (hc : CountsExact l c) {b : ℕ} (hb : b < l.blocks)
    (hclr : ffsIsfreeblock l.frag c.blksfree b = true) :
    CountsExact l { c with
      blksfree := ffsSetblock l.frag c.blksfree b
      cs := { c.cs with nbfree := c.cs.nbfree + 1 } } := by
  have hold : blockFrags l.frag c.blksfree b = List.replicate l.frag false :=
    seg_eq_replicate ((isfreeblock_iff l c.blksfree b).mp hclr)
  have hnew : blockFrags l.frag (ffsSetblock l.frag c.blksfree b) b =
      List.replicate l.frag true := blockFrags_of_isblock (isblock_setblock _ b)
  refine hc.change hb (fun i hi => isset_setblock_of_ne hi) ?_ ?_ ?_
  · rw [hnew, hold, wholeOf_replicate_true, wholeOf_replicate_false l.frag_pos, sub_zero]
  · rw [hnew, hold, looseOf_replicate_true, looseOf_replicate_false]
    exact (Int.add_zero _).symm
  · intro k _ hk
    rw [hnew, hold, sizesOf_replicate_true hk, sizesOf_replicate_false]
    exact (Int.add_zero _).symm

/-- A block of a group becomes free: the group stays sound. -/
theorem GroupOk.giveWhole (hok : GroupOk l cg c) (mc : ℕ → ℕ) (hbno : bno < l.fpg)
    (hmod : bno % l.frag = 0) (hclr : ffsIsfreeblock l.frag c.blksfree (bno / l.frag) = true)
    (hend : bno + l.frag ≤ c.ndblk) : GroupOk l cg (giveWhole l c mc (bno / l.frag)).1 := by
  have hblock : bno / l.frag < l.blocks := Nat.div_lt_div_of_lt_of_dvd l.frag_dvd_fpg hbno
  have hmem : false ∈ blockFrags l.frag c.blksfree (bno / l.frag) := by
    have := mem_seg (f := c.blksfree.isset) (a := bno / l.frag * l.frag) (i := 0) l.frag_pos
    rwa [(isfreeblock_iff l c.blksfree _).mp hclr 0 l.frag_pos] at this
  refine hok.giveBlock mc rfl hblock (fun i hi => isset_setblock_of_ne hi)
    (ffsIsblock_eq_false hmem) (isblock_setblock _ _) (fun i hi hlt => ?_)
    (hok.counts.giveBlock hblock hclr)
  have hout : ¬ (bno ≤ i ∧ i < bno + l.frag) := by omega
  have hset := isset_setblock (m := c.blksfree) hmod i
  rw [decide_eq_false hout, Bool.false_or, hok.tail i hi hlt] at hset
  exact hset

/-- A whole block is freed: the code panics if a part of it is free, and otherwise it becomes
free. -/
theorem ffsBlkfreeCg_block (readable : ℕ → Bool) (hgood : Good l s) (hbno : bno ≠ 0)
    (hmod : bno % l.frag = 0) (hend : bno + l.frag ≤ l.size)
    (hread : readable (l.dtog bno) = true) :
    ((∃ i, i < l.frag ∧ s.free l (bno + i) = true) →
      ffsBlkfreeCg l readable s bno l.bsize = none) ∧
    ((∀ i, i < l.frag → s.free l (bno + i) = false) →
      ∃ s', ffsBlkfreeCg l readable s bno l.bsize = some s' ∧ Good l s' ∧
        Gives l s s' bno l.frag) := by
  have hpos := l.frag_pos
  have hcg : l.dtog bno < l.ncg := l.dtog_lt (by omega)
  have hok := hgood.group _ hcg
  have hmod' : l.dtogd bno % l.frag = 0 := by rw [l.dtogd_mod, hmod]
  have hfits : l.dtogd bno % l.frag + l.frag ≤ l.frag := by omega
  have hle := piece_le_fpg l (l.dtogd_lt bno) hfits
  have hlow : ¬ l.size ≤ bno % 2 ^ 32 := by
    have := Nat.mod_le bno (2 ^ 32)
    omega
  have hbase : l.dtogd bno / l.frag * l.frag = l.dtogd bno :=
    Nat.div_mul_cancel (Nat.dvd_of_mod_eq_zero hmod')
  have hfree : ∀ i, i < l.frag → s.free l (bno + i) =
      (s.cg (l.dtog bno)).blksfree.isset (l.dtogd bno / l.frag * l.frag + i) := fun i hi => by
    rw [hbase]
    exact free_piece (by omega)
  have hstep : ffsBlkfreeCg l readable s bno l.bsize =
      if !ffsIsfreeblock l.frag (s.cg (l.dtog bno)).blksfree (l.dtogd bno / l.frag) then none
      else
        let acct := giveWhole l (s.cg (l.dtog bno)) s.maxcluster (l.dtogd bno / l.frag)
        some ((({ s with maxcluster := acct.2 } : Groups).account (l.dtog bno) fun cs =>
          { cs with nbfree := cs.nbfree + 1 }).setCg (l.dtog bno) acct.1) := by
    unfold ffsBlkfreeCg
    rw [if_neg hlow, ffsGetcg_eq readable hok, hread]
    simp only [if_true]
    rfl
  rw [hstep]
  constructor
  · rintro ⟨i, hi, hset⟩
    have hno : ¬ ffsIsfreeblock l.frag (s.cg (l.dtog bno)).blksfree (l.dtogd bno / l.frag) =
        true := by
      intro hclr
      have := (isfreeblock_iff l _ _).mp hclr i hi
      rw [hfree i hi] at hset
      exact absurd (hset.symm.trans this) (by decide)
    rw [Bool.eq_false_iff.mpr hno]
    rfl
  · intro halloc
    have hclr : ffsIsfreeblock l.frag (s.cg (l.dtog bno)).blksfree (l.dtogd bno / l.frag) = true :=
      (isfreeblock_iff l _ _).mpr fun j hj => by
        have := halloc j hj
        rwa [hfree j hj] at this
    have hgroup := hok.giveWhole s.maxcluster (l.dtogd_lt bno) hmod' hclr
      (hok.piece_le hend (by omega))
    have hfields := giveWhole_fields l (s.cg (l.dtog bno)) s.maxcluster (l.dtogd bno / l.frag)
    have hmax : ClusterBound l
        (giveWhole l (s.cg (l.dtog bno)) s.maxcluster (l.dtogd bno / l.frag)).1.clustersum
        ((giveWhole l (s.cg (l.dtog bno)) s.maxcluster (l.dtogd bno / l.frag)).2
          (l.dtog bno)) :=
      clusterBound_giveBlock s.maxcluster hok.cgx_eq (hgood.maxcluster _ hcg).le
    have hmc : ∀ b, b ≠ l.dtog bno →
        (giveWhole l (s.cg (l.dtog bno)) s.maxcluster (l.dtogd bno / l.frag)).2 b =
          s.maxcluster b := fun b hb =>
      maxcluster_giveBlock_of_ne s.maxcluster (hok.cgx_eq.symm ▸ hb)
    rw [hclr]
    simp only [Bool.not_true]
    generalize giveWhole l (s.cg (l.dtog bno)) s.maxcluster (l.dtogd bno / l.frag) = acct
      at hgroup hfields hmax hmc ⊢
    have hmap : ∀ i, acct.1.blksfree.isset i =
        (decide (l.dtogd bno ≤ i ∧ i < l.dtogd bno + l.frag) ||
          (s.cg (l.dtog bno)).blksfree.isset i) := fun i => by
      rw [hfields.1]
      exact isset_setblock hmod' i
    refine ⟨_, rfl, ?_, ?_⟩
    · exact hgood.write _ hcg (shift_nbfree 1) hgroup hfields.2.1 hmc hmax
        (hgood.zero_of_gives hbno hmap)
    · have hgives : Gives l s ((({ s with maxcluster := acct.2 } : Groups).account (l.dtog bno)
          fun cs => { cs with nbfree := cs.nbfree + 1 }).setCg (l.dtog bno) acct.1)
          (l.cgbase (l.dtog bno) + l.dtogd bno) l.frag := by
        refine Gives.of_group (l.dtogd_lt bno) hfits (fun i hi => ?_) (fun b hb => ?_)
          (fun i => ?_) ?_
        · have := halloc i hi
          rwa [hfree i hi, hbase] at this
        · rw [Groups.cg_setCg_of_ne _ _ _ hb, Groups.cg_account]
        · rw [Groups.cg_setCg_self]
          exact hmap i
        · rw [Groups.cg_setCg_self]
          exact hfields.2.2
      rwa [l.cgbase_dtog] at hgives

/-- The counts of the fragments of a block follow a change of its map. -/
theorem frsum_giveFrags (b n : ℕ) {k : ℕ} (h1 : 1 ≤ k) (hk : k < l.frag) :
    (giveFrags l c (b * l.frag) m n).frsum k = c.frsum k +
      (sizesOf k (blockFrags l.frag m b) - sizesOf k (blockFrags l.frag c.blksfree b)) := by
  have hgeom : l.geom.frag = l.frag := rfl
  have hold := ffsFragacct_blkmap l.geom c.blksfree b c.frsum (-1) k
  have hnew := ffsFragacct_blkmap l.geom m b
    (ffsFragacct l.frag (blkmap l.frag c.blksfree (b * l.frag)) c.frsum (-1)) 1 k
  rw [hgeom, if_pos ⟨h1, hk⟩] at hold hnew
  have heq : (giveFrags l c (b * l.frag) m n).frsum k = ffsFragacct l.frag
      (blkmap l.frag m (b * l.frag))
      (ffsFragacct l.frag (blkmap l.frag c.blksfree (b * l.frag)) c.frsum (-1)) 1 k := rfl
  rw [heq, hnew, hold, sizesOf, sizesOf]
  omega

/-- A block that gets a piece has that many more free fragments. -/
theorem count_blockFrags_gives (hfits : bno % l.frag + n ≤ l.frag)
    (hclr : ∀ i, i < n → c.blksfree.isset (bno + i) = false)
    (hmap : ∀ i, m.isset i = (decide (bno ≤ i ∧ i < bno + n) || c.blksfree.isset i)) :
    (blockFrags l.frag m (bno / l.frag)).count true =
      (blockFrags l.frag c.blksfree (bno / l.frag)).count true + n := by
  have hnew := blockFrags_cut l m (m := c.blksfree) hfits fun i hi => by
    have hout : ¬ (bno ≤ i ∧ i < bno + n) := by omega
    rw [hmap, decide_eq_false hout, Bool.false_or]
  have hold := blockFrags_cut l c.blksfree (m := c.blksfree) hfits fun _ _ => rfl
  have hset : seg m.isset bno n = List.replicate n true := seg_eq_replicate fun i hi => by
    have hin : bno ≤ bno + i ∧ bno + i < bno + n := by omega
    rw [hmap, decide_eq_true hin, Bool.true_or]
  rw [hnew, hold, hset, seg_eq_replicate hclr]
  simp only [List.count_append, List.count_replicate]
  simp
  omega

section Piece

variable (hok : GroupOk l cg c) (hbno : bno < l.fpg) (hfits : bno % l.frag + n ≤ l.frag)
  (h1 : 1 ≤ n) (hend : bno + n ≤ c.ndblk)
  (hclr : ∀ i, i < n → c.blksfree.isset (bno + i) = false)
  (hmap : ∀ i, m.isset i = (decide (bno ≤ i ∧ i < bno + n) || c.blksfree.isset i))

include hfits h1 hclr in
/-- A block with an allocated fragment is not free. -/
theorem false_mem_of_piece : false ∈ blockFrags l.frag c.blksfree (bno / l.frag) := by
  have hbase : bno / l.frag * l.frag + bno % l.frag = bno := Nat.div_add_mod' bno l.frag
  have hzero := hclr 0 h1
  have hmem := mem_seg (f := c.blksfree.isset) (a := bno / l.frag * l.frag) (i := bno % l.frag)
    (n := l.frag) (by omega)
  rwa [hbase, ← Nat.add_zero bno, hzero] at hmem

include hfits hmap in
theorem isset_off_piece {i : ℕ} (hi : i / l.frag ≠ bno / l.frag) :
    m.isset i = c.blksfree.isset i := by
  rw [hmap, decide_eq_false (off_block l hfits hi), Bool.false_or]

include hok hend hmap in
theorem tail_of_piece (i : ℕ) (hi : c.ndblk ≤ i) (hlt : i < howmany l.fpg 8 * 8) :
    m.isset i = false := by
  have hout : ¬ (bno ≤ i ∧ i < bno + n) := by omega
  rw [hmap, decide_eq_false hout, Bool.false_or, hok.tail i hi hlt]

include hok hbno hfits h1 hend hclr hmap in
/-- A piece of a block becomes free, and the block is not: the group stays sound. -/
theorem GroupOk.giveFrags (hnew : ffsIsblock l.frag m (bno / l.frag) = false) :
    GroupOk l cg (giveFrags l c (bno / l.frag * l.frag) m n) := by
  have hblock : bno / l.frag < l.blocks := Nat.div_lt_div_of_lt_of_dvd l.frag_dvd_fpg hbno
  have hmem := false_mem_of_piece hfits h1 hclr
  have hcount := count_blockFrags_gives hfits hclr hmap
  have hall : ¬ (blockFrags l.frag m (bno / l.frag)).all id = true := by
    rw [← ffsIsblock_iff_all, hnew]
    decide
  refine hok.loose (h := bno / l.frag) rfl (fun i hi => isset_off_piece hfits hmap hi)
    (ffsIsblock_eq_false hmem) hnew (tail_of_piece hok hend hmap) ?_
  refine hok.counts.change hblock (fun i hi => isset_off_piece hfits hmap hi) ?_ ?_
    fun k hk hkf => frsum_giveFrags (c := c) (m := m) (bno / l.frag) n hk hkf
  · have hold := wholeOf_of_mem hmem
    rw [hold, Ddfs.giveFrags, wholeOf, if_neg hall]
    exact (Int.add_zero _).symm
  · rw [looseOf_of_mem hmem, Ddfs.giveFrags, looseOf, if_neg hall, hcount]
    show c.cs.nffree + (n : ℤ) = _
    omega

include hok hbno hfits h1 hend hclr hmap in
/-- A piece of a block becomes free, and completes the block: the group stays sound. -/
theorem GroupOk.reassemble (mc : ℕ → ℕ) (hnew : ffsIsblock l.frag m (bno / l.frag) = true) :
    GroupOk l cg
      (reassemble l (Ddfs.giveFrags l c (bno / l.frag * l.frag) m n) mc (bno / l.frag)).1 := by
  have hblock : bno / l.frag < l.blocks := Nat.div_lt_div_of_lt_of_dvd l.frag_dvd_fpg hbno
  have hmem := false_mem_of_piece hfits h1 hclr
  have hcount := count_blockFrags_gives hfits hclr hmap
  have hrep : blockFrags l.frag m (bno / l.frag) = List.replicate l.frag true :=
    blockFrags_of_isblock hnew
  rw [hrep, List.count_replicate_self] at hcount
  refine hok.giveBlock mc rfl hblock (fun i hi => isset_off_piece hfits hmap hi)
    (ffsIsblock_eq_false hmem) hnew (tail_of_piece hok hend hmap) ?_
  refine hok.counts.change hblock (fun i hi => isset_off_piece hfits hmap hi) ?_ ?_
    fun k hk hkf => frsum_giveFrags (c := c) (m := m) (bno / l.frag) n hk hkf
  · show c.cs.nbfree + 1 = c.cs.nbfree + (wholeOf (blockFrags l.frag m (bno / l.frag)) - _)
    rw [hrep, wholeOf_replicate_true, wholeOf_of_mem hmem, sub_zero]
  · show c.cs.nffree + (n : ℤ) - l.frag =
      c.cs.nffree + (looseOf (blockFrags l.frag m (bno / l.frag)) - _)
    rw [hrep, looseOf_replicate_true, looseOf_of_mem hmem]
    omega

end Piece

/-- A piece of a block is freed: the code panics if a part of it is free, and otherwise it becomes
free, whether it completes its block or not. -/
theorem ffsBlkfreeCg_frags (readable : ℕ → Bool) (hgood : Good l s) (hbno : bno ≠ 0)
    (h1 : 1 ≤ n) (hn : n < l.frag) (hfits : bno % l.frag + n ≤ l.frag)
    (hend : bno + n ≤ l.size) (hread : readable (l.dtog bno) = true) :
    ((∃ i, i < n ∧ s.free l (bno + i) = true) →
      ffsBlkfreeCg l readable s bno (n * l.geom.fsize) = none) ∧
    ((∀ i, i < n → s.free l (bno + i) = false) →
      ∃ s', ffsBlkfreeCg l readable s bno (n * l.geom.fsize) = some s' ∧ Good l s' ∧
        Gives l s s' bno n) := by
  have hcg : l.dtog bno < l.ncg := l.dtog_lt (by omega)
  have hok := hgood.group _ hcg
  have hfits' : l.dtogd bno % l.frag + n ≤ l.frag := by rwa [l.dtogd_mod]
  have hle := piece_le_fpg l (l.dtogd_lt bno) hfits'
  have hlow : ¬ l.size ≤ bno % 2 ^ 32 := by
    have := Nat.mod_le bno (2 ^ 32)
    omega
  have hsize : n * l.geom.fsize ≠ l.bsize := by
    intro heq
    have := numfrags_mul l n
    rw [heq, l.numfrags_bsize] at this
    omega
  have hbase : l.dtogd bno / l.frag * l.frag + l.dtogd bno % l.frag = l.dtogd bno :=
    Nat.div_add_mod' _ _
  have hbbase : l.dtogd bno - l.fragnum (l.dtogd bno) = l.dtogd bno / l.frag * l.frag := by
    rw [FsLayout.fragnum]
    omega
  have hfragno : l.fragstoblks (l.dtogd bno / l.frag * l.frag) = l.dtogd bno / l.frag :=
    Nat.mul_div_cancel _ l.frag_pos
  have hfree : ∀ i, i < n → s.free l (bno + i) =
      (s.cg (l.dtog bno)).blksfree.isset (l.dtogd bno + i) := fun i hi =>
    free_piece (by omega)
  unfold ffsBlkfreeCg
  simp only [if_neg hlow, ffsGetcg_eq readable hok, hread, if_true, if_neg hsize, hbbase,
    hfragno, numfrags_mul]
  constructor
  · rintro ⟨i, hi, hset⟩
    have hnone : giveFragLoop (l.dtogd bno) n 0 (s.cg (l.dtog bno)).blksfree = none :=
      giveFragLoop_none_iff.mpr ⟨i, Nat.zero_le i, by omega, by rwa [hfree i hi] at hset⟩
    rw [hnone]
  · intro halloc
    have hclr : ∀ i, i < n → (s.cg (l.dtog bno)).blksfree.isset (l.dtogd bno + i) = false :=
      fun i hi => by
        have := halloc i hi
        rwa [hfree i hi] at this
    cases hloop : giveFragLoop (l.dtogd bno) n 0 (s.cg (l.dtog bno)).blksfree with
    | none =>
      obtain ⟨j, -, hj, hset⟩ := giveFragLoop_none_iff.mp hloop
      rw [hclr j (by omega)] at hset
      exact absurd hset (by decide)
    | some m =>
      have hmap : ∀ i, m.isset i = (decide (l.dtogd bno ≤ i ∧ i < l.dtogd bno + n) ||
          (s.cg (l.dtog bno)).blksfree.isset i) := fun i => isset_giveFragLoop hloop
      have hpiece := hok.piece_le hend hfits
      have hgives : ∀ s' : Groups, (∀ b, b ≠ l.dtog bno → s'.cg b = s.cg b) →
          (s'.cg (l.dtog bno)).blksfree = m →
          SameInodes (s.cg (l.dtog bno)) (s'.cg (l.dtog bno)) → Gives l s s' bno n := by
        intro s' hother hself hsame
        have hg : Gives l s s' (l.cgbase (l.dtog bno) + l.dtogd bno) n :=
          Gives.of_group (l.dtogd_lt bno) hfits' hclr hother
            (fun i => by rw [hself]; exact hmap i) hsame
        rwa [l.cgbase_dtog] at hg
      cases hwhole : ffsIsblock l.frag m (l.dtogd bno / l.frag) with
      | false =>
        have hgroup := hok.giveFrags (l.dtogd_lt bno) hfits' h1 hpiece hclr hmap hwhole
        simp only [hwhole, Bool.false_eq_true, if_false]
        refine ⟨_, rfl, ?_, ?_⟩
        · exact hgood.writeLoose hcg (shift_nffree n) hgroup rfl rfl
            (hgood.zero_of_gives hbno hmap)
        · refine hgives _ (fun b hb => ?_) ?_ ?_
          · rw [Groups.cg_setCg_of_ne _ _ _ hb, Groups.cg_account]
          · rw [Groups.cg_setCg_self]
            rfl
          · rw [Groups.cg_setCg_self]
            exact ⟨rfl, rfl, rfl, rfl, rfl, rfl⟩
      | true =>
        have hgroup := hok.reassemble (l.dtogd_lt bno) hfits' h1 hpiece hclr hmap s.maxcluster
          hwhole
        simp only [Groups.maxcluster_account, hwhole, if_true]
        generalize hgiven : giveFrags l (s.cg (l.dtog bno)) (l.dtogd bno / l.frag * l.frag) m n =
          given at hgroup ⊢
        have hcgx : given.cgx = l.dtog bno := by rw [← hgiven]; exact hok.cgx_eq
        have hset : given.blksfree = m := by rw [← hgiven]; rfl
        obtain ⟨hfree', hcs', hsame'⟩ :=
          reassemble_fields l given s.maxcluster (l.dtogd bno / l.frag)
        have hmap' : ∀ i,
            (reassemble l given s.maxcluster (l.dtogd bno / l.frag)).1.blksfree.isset i =
            (decide (l.dtogd bno ≤ i ∧ i < l.dtogd bno + n) ||
              (s.cg (l.dtog bno)).blksfree.isset i) := fun i => by
          rw [hfree', hset]
          exact hmap i
        refine ⟨_, rfl, ?_, ?_⟩
        · rw [Groups.account_with_maxcluster, Groups.account_account]
          refine hgood.write _ hcg ((shift_nffree n).comp
            ((shift_nffree_sub l.frag).comp (shift_nbfree 1))) hgroup ?_
            (fun b hb => maxcluster_giveBlock_of_ne _ (hcgx.symm ▸ hb))
            (clusterBound_giveBlock _ hcgx (hgood.maxcluster _ hcg).le)
            (hgood.zero_of_gives hbno hmap')
          rw [hcs', ← hgiven]
          rfl
        · refine hgives _ (fun b hb => ?_) ?_ ?_
          · rw [Groups.cg_setCg_of_ne _ _ _ hb]
            rfl
          · rw [Groups.cg_setCg_self]
            exact hfree'.trans hset
          · rw [Groups.cg_setCg_self]
            have hold : SameInodes (s.cg (l.dtog bno)) given := by
              rw [← hgiven]
              exact ⟨rfl, rfl, rfl, rfl, rfl, rfl⟩
            exact hold.trans hsame'

/-- A piece of a block is freed. If the group can be read, the code panics exactly if a part of the
piece is free already, and otherwise the piece becomes free and nothing else does. If the group
cannot be read, nothing changes. -/
theorem ffsBlkfreeCg_spec (readable : ℕ → Bool) (hgood : Good l s) (hbno : bno ≠ 0)
    (h1 : 1 ≤ n) (hfits : bno % l.frag + n ≤ l.frag) (hend : bno + n ≤ l.size) :
    (readable (l.dtog bno) = true → (∃ i, i < n ∧ s.free l (bno + i) = true) →
      ffsBlkfreeCg l readable s bno (n * l.geom.fsize) = none) ∧
    (readable (l.dtog bno) = true → (∀ i, i < n → s.free l (bno + i) = false) →
      ∃ s', ffsBlkfreeCg l readable s bno (n * l.geom.fsize) = some s' ∧ Good l s' ∧
        Gives l s s' bno n) ∧
    (readable (l.dtog bno) = false →
      ffsBlkfreeCg l readable s bno (n * l.geom.fsize) = some s) := by
  have hrange : readable (l.dtog bno) = true →
      ((∃ i, i < n ∧ s.free l (bno + i) = true) →
        ffsBlkfreeCg l readable s bno (n * l.geom.fsize) = none) ∧
      ((∀ i, i < n → s.free l (bno + i) = false) →
        ∃ s', ffsBlkfreeCg l readable s bno (n * l.geom.fsize) = some s' ∧ Good l s' ∧
          Gives l s s' bno n) := by
    intro hread
    rcases Nat.lt_or_ge n l.frag with hn | hn
    · exact ffsBlkfreeCg_frags readable hgood hbno h1 hn hfits hend hread
    · obtain rfl : n = l.frag := by omega
      have hsize : l.frag * l.geom.fsize = l.bsize := (Geometry.bsize_eq l.geom).symm
      rw [hsize]
      exact ffsBlkfreeCg_block readable hgood hbno (by omega) hend hread
  refine ⟨fun hread => (hrange hread).1, fun hread => (hrange hread).2, fun hread => ?_⟩
  have hlow : ¬ l.size ≤ bno % 2 ^ 32 := by
    have := Nat.mod_le bno (2 ^ 32)
    omega
  have hcg : l.dtog bno < l.ncg := l.dtog_lt (by omega)
  unfold ffsBlkfreeCg
  simp only [if_neg hlow, ffsGetcg_eq readable (hgood.group _ hcg), hread, Bool.false_eq_true,
    if_false]

end Free

end EmbeddedOs.Ddfs
