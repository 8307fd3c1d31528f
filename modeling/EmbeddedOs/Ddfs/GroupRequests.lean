import EmbeddedOs.Ddfs.GroupInvariant

/-!
# What a request to a cylinder group does

A request for a block or a fragment takes a piece that was free, and nothing else, and keeps the
invariant. It fails, without a change, exactly where the group cannot be read or has no room for
it. No panic of the search is reached.
-/

namespace EmbeddedOs.Ddfs

open Lib BitRuns

/-- A request with sizes of the code: a block, for which the caller may want the head only, or a
fragment. -/
def SizeOk (l : FsLayout) (size rsize : ℕ) : Prop :=
  (size = l.bsize ∧ 1 ≤ l.numfrags rsize ∧ l.numfrags rsize ≤ l.frag) ∨
    (size ≠ l.bsize ∧ rsize = size ∧ 1 ≤ l.numfrags size ∧ l.numfrags size < l.frag)

section Pieces

variable {l : FsLayout} {s : Groups} {cg bno n size : ℕ} {c : Cg} {m : BitMap}

theorem shift_nbfree_sub (d : ℤ) : Shift fun cs => { cs with nbfree := cs.nbfree - d } :=
  shift_nbfree (-d)

theorem shift_nffree_sub (d : ℤ) : Shift fun cs => { cs with nffree := cs.nffree - d } :=
  shift_nffree (-d)

/-- The fragments of an aligned block. -/
theorem mem_block (hmod : bno % l.frag = 0) (i : ℕ) :
    i / l.frag = bno / l.frag ↔ bno ≤ i ∧ i < bno + l.frag := by
  have hpos := l.frag_pos
  have hbase : bno / l.frag * l.frag = bno := Nat.div_mul_cancel (Nat.dvd_of_mod_eq_zero hmod)
  constructor
  · intro h
    have hi : i / l.frag * l.frag + i % l.frag = i := Nat.div_add_mod' i l.frag
    have hlt := Nat.mod_lt i hpos
    rw [h] at hi
    omega
  · rintro ⟨hlow, hhigh⟩
    have heq : i = bno / l.frag * l.frag + (i - bno) := by omega
    rw [heq]
    exact block_div l.geom _ (by show i - bno < l.frag; omega)

theorem isset_of_isblock (hmod : bno % l.frag = 0)
    (hb : ffsIsblock l.frag m (bno / l.frag) = true) {i : ℕ} (hi : i < l.frag) :
    m.isset (bno + i) = true := by
  have hbase : bno / l.frag * l.frag = bno := Nat.div_mul_cancel (Nat.dvd_of_mod_eq_zero hmod)
  have := (ffsIsblock_iff l.geom m _).mp hb i hi
  have hfrag : l.geom.frag = l.frag := rfl
  rwa [hfrag, hbase] at this

/-- The boot block stays allocated if nothing becomes free in the first group. -/
theorem Good.zero_of_subset (hgood : Good l s)
    (hsub : ∀ i, m.isset i = true → (s.cg cg).blksfree.isset i = true) (h0 : cg = 0) :
    m.isset 0 = false := by
  subst h0
  have hz : l.dtogd 0 = 0 := Nat.zero_mod _
  have hg0 : l.dtog 0 = 0 := Nat.zero_div _
  have hzero := hgood.zero
  unfold Groups.free at hzero
  rw [hz, hg0] at hzero
  cases hm : m.isset 0 with
  | false => rfl
  | true => exact absurd ((hsub 0 hm).symm.trans hzero) (by decide)

/-- The map behind `gotit`, where the caller wants the whole block. -/
theorem isset_takeBlock (mc : ℕ → ℕ) (hmod : bno % l.frag = 0) (i : ℕ) :
    (takeBlock l c mc (bno / l.frag)).1.blksfree.isset i =
      (!decide (bno ≤ i ∧ i < bno + l.frag) && c.blksfree.isset i) := by
  rw [blksfree_takeBlock]
  have hclr := isset_ffsClrblock l.geom c.blksfree (bno / l.frag) i
  have hdec : decide (i / l.geom.frag = bno / l.frag) =
      decide (bno ≤ i ∧ i < bno + l.frag) := decide_eq_decide.mpr (mem_block hmod i)
  rw [hdec] at hclr
  exact hclr

/-- The map behind `gotit`, where the caller wants `n` fragments of the block. -/
theorem isset_freeRest_takeBlock (mc : ℕ → ℕ) (hmod : bno % l.frag = 0) (hn : n ≤ l.frag)
    (hb : ffsIsblock l.frag c.blksfree (bno / l.frag) = true) (i : ℕ) :
    (freeRest l (takeBlock l c mc (bno / l.frag)).1 bno n).blksfree.isset i =
      (!decide (bno ≤ i ∧ i < bno + n) && c.blksfree.isset i) := by
  have hset : (freeRest l (takeBlock l c mc (bno / l.frag)).1 bno n).blksfree.isset i =
      (decide (bno + n ≤ i ∧ i < bno + n + (l.frag - n)) ||
        (takeBlock l c mc (bno / l.frag)).1.blksfree.isset i) := BitMap.isset_setRange _ _ _ _
  rw [hset, isset_takeBlock mc hmod]
  by_cases hin : bno ≤ i ∧ i < bno + l.frag
  · have hi := isset_of_isblock hmod hb (i := i - bno) (by omega)
    rw [Nat.add_sub_cancel' hin.1] at hi
    rw [decide_eq_true hin, hi, Bool.not_true, Bool.false_and, Bool.or_false, Bool.and_true]
    by_cases hlow : i < bno + n
    · have hout : ¬ (bno + n ≤ i ∧ i < bno + n + (l.frag - n)) := by omega
      rw [decide_eq_true (⟨hin.1, hlow⟩ : bno ≤ i ∧ i < bno + n), decide_eq_false hout]
      rfl
    · have hrest : bno + n ≤ i ∧ i < bno + n + (l.frag - n) := by omega
      have hout : ¬ (bno ≤ i ∧ i < bno + n) := by omega
      rw [decide_eq_true hrest, decide_eq_false hout]
      rfl
  · have hrest : ¬ (bno + n ≤ i ∧ i < bno + n + (l.frag - n)) := by omega
    have hout : ¬ (bno ≤ i ∧ i < bno + n) := by omega
    rw [decide_eq_false hin, decide_eq_false hrest, decide_eq_false hout]
    rfl

theorem gotit_whole (hcgx : c.cgx = cg) (hfull : l.numfrags size = l.frag) :
    ffsAlloccgblkGotit l s cg c bno size =
      ((({ s with maxcluster := (takeBlock l c s.maxcluster (bno / l.frag)).2 } : Groups).account cg
        fun cs => { cs with nbfree := cs.nbfree - 1 }).setCg cg
          (takeBlock l c s.maxcluster (bno / l.frag)).1, l.cgbase cg + bno) := by
  unfold ffsAlloccgblkGotit
  rw [if_neg (not_not.mpr hfull), hcgx]
  rfl

theorem gotit_part (hcgx : c.cgx = cg) (hbno : bno < l.fpg) (hpart : l.numfrags size ≠ l.frag) :
    ffsAlloccgblkGotit l s cg c bno size =
      ((({ s with maxcluster := (takeBlock l c s.maxcluster (bno / l.frag)).2 } : Groups).account cg
        fun cs => { cs with
          nbfree := cs.nbfree - 1
          nffree := cs.nffree + (l.frag - l.numfrags size : ℕ) }).setCg cg
          (freeRest l (takeBlock l c s.maxcluster (bno / l.frag)).1 bno (l.numfrags size)),
        l.cgbase cg + bno) := by
  unfold ffsAlloccgblkGotit
  rw [if_pos hpart, hcgx, l.dtogd_cgbase hbno, Groups.account_account]
  rfl

/-- The label `gotit`: the block is taken, as far as the caller wants it. -/
theorem gotit_takes (size : ℕ) (hgood : Good l s) (hcg : cg < l.ncg) (hok : GroupOk l cg c)
    (hfree : c.blksfree = (s.cg cg).blksfree) (hcs : c.cs = (s.cg cg).cs)
    (hinodes : SameInodes (s.cg cg) c) (hbno : bno < l.fpg)
    (hmod : bno % l.frag = 0) (hb : ffsIsblock l.frag c.blksfree (bno / l.frag) = true)
    (hn1 : 1 ≤ l.numfrags size) (hn : l.numfrags size ≤ l.frag) :
    ∃ s', ffsAlloccgblkGotit l s cg c bno size = (s', l.cgbase cg + bno) ∧ Good l s' ∧
      Takes l s s' (l.cgbase cg + bno) (l.numfrags size) := by
  have hh : bno / l.frag < l.blocks := Nat.div_lt_div_of_lt_of_dvd l.frag_dvd_fpg hbno
  have hbase : bno / l.frag * l.frag = bno := Nat.div_mul_cancel (Nat.dvd_of_mod_eq_zero hmod)
  have htake := hok.takeBlock s.maxcluster hh hb
  have hmc : ∀ b, b ≠ cg → (takeBlock l c s.maxcluster (bno / l.frag)).2 b = s.maxcluster b :=
    fun b hbc => maxcluster_takeBlock_of_ne s.maxcluster (by rwa [hok.cgx_eq])
  have hmax : ClusterBound l (takeBlock l c s.maxcluster (bno / l.frag)).1.clustersum
      ((takeBlock l c s.maxcluster (bno / l.frag)).2 cg) :=
    clusterBound_takeBlock s.maxcluster hok.cgx_eq (hgood.maxcluster cg hcg).le
  have hset : ∀ i, i < l.numfrags size → (s.cg cg).blksfree.isset (bno + i) = true := by
    intro i hi
    rw [← hfree]
    exact isset_of_isblock hmod hb (by omega)
  have hfits : bno % l.frag + l.numfrags size ≤ l.frag := by omega
  have hsame : SameInodes (s.cg cg) (takeBlock l c s.maxcluster (bno / l.frag)).1 := by
    obtain ⟨sum, free, hframe⟩ := takeBlock_frame (l := l) (c := c) (h := bno / l.frag)
      s.maxcluster
    rw [hframe]
    exact hinodes.trans ⟨rfl, rfl, rfl, rfl, rfl, rfl⟩
  by_cases hfull : l.numfrags size = l.frag
  · refine ⟨_, gotit_whole hok.cgx_eq hfull, ?_, ?_⟩
    · refine hgood.write _ hcg (shift_nbfree_sub 1) htake ?_ hmc hmax ?_
      · rw [cs_takeBlock, hcs]
      · refine hgood.zero_of_subset fun i hi => ?_
        rw [isset_takeBlock s.maxcluster hmod, Bool.and_eq_true] at hi
        rw [← hfree]
        exact hi.2
    · refine Takes.of_group hbno hfits hset (fun b hbc => ?_) (fun i => ?_) ?_
      · rw [Groups.cg_setCg_of_ne _ _ _ hbc, Groups.cg_account]
      · rw [Groups.cg_setCg_self, isset_takeBlock s.maxcluster hmod, hfull, hfree]
      · rw [Groups.cg_setCg_self]
        exact hsame
  · have hclr : ∀ j, j < l.frag →
        (takeBlock l c s.maxcluster (bno / l.frag)).1.blksfree.isset (bno / l.frag * l.frag + j) =
          false := by
      intro j hj
      rw [hbase, isset_takeBlock s.maxcluster hmod, decide_eq_true (by omega)]
      rfl
    have hend : (bno / l.frag + 1) * l.frag ≤
        (takeBlock l c s.maxcluster (bno / l.frag)).1.ndblk := by
      obtain ⟨sum, free, hframe⟩ := ffsClusteracct_frame l
        { c with blksfree := ffsClrblock l.frag c.blksfree (bno / l.frag) } s.maxcluster
        (bno / l.frag) (-1)
      rw [takeBlock, hframe]
      exact hok.block_lt hh hb
    have hrest := htake.freeRest hh hclr hn1 (by omega) hend
    rw [hbase] at hrest
    refine ⟨_, gotit_part hok.cgx_eq hbno hfull, ?_, ?_⟩
    · refine hgood.write _ hcg ((shift_nbfree_sub 1).comp
        (shift_nffree (l.frag - l.numfrags size : ℕ))) hrest ?_ hmc hmax ?_
      · rw [freeRest, cs_takeBlock, hcs]
      · refine hgood.zero_of_subset fun i hi => ?_
        rw [isset_freeRest_takeBlock s.maxcluster hmod hn hb,
          Bool.and_eq_true] at hi
        rw [← hfree]
        exact hi.2
    · refine Takes.of_group hbno hfits hset (fun b hbc => ?_) (fun i => ?_) ?_
      · rw [Groups.cg_setCg_of_ne _ _ _ hbc, Groups.cg_account]
      · rw [Groups.cg_setCg_self,
          isset_freeRest_takeBlock s.maxcluster hmod hn hb, hfree]
      · rw [Groups.cg_setCg_self]
        exact hsame.trans ⟨rfl, rfl, rfl, rfl, rfl, rfl⟩

theorem Takes.ne_zero {s' : Groups} {r : ℕ} (h : Takes l s s' r n) (hgood : Good l s)
    (hn : 1 ≤ n) : r ≠ 0 := by
  rintro rfl
  have := h.was 0 hn
  rw [Nat.add_zero] at this
  exact absurd (this.symm.trans hgood.zero) (by decide)

/-- The rotors do not matter for the invariant. -/
theorem GroupOk.rotors (hok : GroupOk l cg c) (rotor : ℕ) {frotor : ℕ} (h : frotor < l.fpg) :
    GroupOk l cg { c with rotor := rotor, frotor := frotor } :=
  ⟨hok.magic, hok.cgx_eq, hok.ndblk, h, hok.tail, ⟨hok.counts.nbfree, hok.counts.nffree,
    hok.counts.frsum⟩, fun hl => ⟨(hok.clusters hl).nclusterblks, (hok.clusters hl).isset,
    (hok.clusters hl).exact⟩⟩

/-- What the search finds is in the group. -/
theorem GroupOk.found_lt (hok : GroupOk l cg c) (hset : c.blksfree.isset bno = true)
    (hbyte : bno / 8 < howmany l.fpg 8) : bno < l.fpg := by
  have hle := hok.ndblk_le
  by_contra hge
  have := hok.tail bno (by omega) (by omega)
  exact absurd (hset.symm.trans this) (by decide)

theorem ffsGetcg_eq (readable : ℕ → Bool) (hok : GroupOk l cg (s.cg cg)) :
    ffsGetcg readable s cg = if readable cg then some (s.cg cg) else none := by
  unfold ffsGetcg
  rw [hok.magic, hok.cgx_eq]
  cases readable cg with
  | true => simp
  | false => simp

/-- A block of the length of a run is free. -/
theorem isblock_of_mem_runs {h : ℕ} (hmem : l.frag ∈ runs (blockFrags l.frag m h)) :
    ffsIsblock l.frag m h = true := by
  obtain ⟨pos, hpos⟩ := fragPlace_ne_none (g := l.geom) l.frag_pos (Nat.le_refl _) hmem
  have hfrag := fragPlace_isFrag (g := l.geom) l.frag_pos (Nat.le_refl _) hpos
  have hlt : pos < 0 + (l.geom.frag - l.frag + 1) := siftBlock_lt hpos
  have hgeom : l.geom.frag = l.frag := rfl
  have hz : pos = 0 := by omega
  refine (ffsIsblock_iff l.geom m h).mpr fun j hj => ?_
  have := hfrag.free j hj
  rwa [hz] at this

/-- `cs_nbfree` tells whether there is room for a block. -/
theorem nbfree_ne_zero_iff (hok : GroupOk l cg c) :
    c.cs.nbfree ≠ 0 ↔ HasRoom l c.blksfree l.frag := by
  constructor
  · intro hne
    obtain ⟨b, hb, hblock⟩ := hok.counts.exists_block hne
    exact hasRoom_of_mem_runs l.frag_pos (Nat.le_refl _) hb (mem_runs_of_isblock hblock)
      (Nat.le_refl _)
  · intro hroom
    obtain ⟨b, hb, hblock⟩ := hroom.exists_block
    exact (hok.counts.nbfree_pos hb hblock).ne'

/-- `ffs_alloccgblk` takes a block if one is free: the one that is preferred, if that one is. -/
theorem ffsAlloccgblk_takes (size : ℕ) (hgood : Good l s) (hcg : cg < l.ncg) (bpref : ℕ)
    (hne : (s.cg cg).cs.nbfree ≠ 0) (hn1 : 1 ≤ l.numfrags size) (hn : l.numfrags size ≤ l.frag) :
    ∃ s' bno, ffsAlloccgblk l s cg bpref size = some (s', l.cgbase cg + bno) ∧ Good l s' ∧
      Takes l s s' (l.cgbase cg + bno) (l.numfrags size) ∧ bno < l.fpg ∧ bno % l.frag = 0 ∧
      (ffsIsblock l.frag (s.cg cg).blksfree
        (l.dtogd (l.blknum (ffsAlloccgblkPref l (s.cg cg) bpref)) / l.frag) = true →
        bno = l.dtogd (l.blknum (ffsAlloccgblkPref l (s.cg cg) bpref))) := by
  have hok := hgood.group cg hcg
  generalize hpref : ffsAlloccgblkPref l (s.cg cg) bpref = pref
  have hfrag : l.fragstoblks (l.dtogd (l.blknum pref)) = l.dtogd (l.blknum pref) / l.frag := rfl
  unfold ffsAlloccgblk
  simp only [hpref, hfrag]
  by_cases hb : ffsIsblock l.frag (s.cg cg).blksfree (l.dtogd (l.blknum pref) / l.frag) = true
  · have hmod : l.dtogd (l.blknum pref) % l.frag = 0 := by
      rw [l.dtogd_mod, FsLayout.blknum, Nat.mul_mod_left]
    obtain ⟨s', heq, hgood', htakes⟩ := gotit_takes size hgood hcg hok rfl rfl
      (SameInodes.refl _) (l.dtogd_lt _) hmod hb hn1 hn
    exact ⟨s', _, by rw [if_pos hb, heq], hgood', htakes, l.dtogd_lt _, hmod, fun _ => rfl⟩
  · obtain ⟨b, hblt, hblock⟩ := hok.counts.exists_block hne
    obtain ⟨bno, hfound, hisfrag, hbyte, -⟩ := ffsMapsearch_finds l (s.cg cg) pref l.frag
      l.frag_pos (Nat.le_refl _) hok.frotor_lt ⟨b, hblt, mem_runs_of_isblock hblock⟩
    have hmod : bno % l.frag = 0 := by
      have := hisfrag.fits
      omega
    have hbno : bno < l.fpg := hok.found_lt (hisfrag.free 0 l.frag_pos) hbyte
    have hrot : bno / 8 * 8 < l.fpg := by omega
    have hbase : bno / l.frag * l.frag = bno :=
      Nat.div_mul_cancel (Nat.dvd_of_mod_eq_zero hmod)
    have hisblock : ffsIsblock l.frag (s.cg cg).blksfree (bno / l.frag) = true :=
      (ffsIsblock_iff l.geom _ _).mpr fun j hj => by
        have := hisfrag.free j hj
        rwa [← hbase] at this
    rw [if_neg hb, hfound]
    simp only
    by_cases hdata : l.dtogd (l.cgdata (s.cg cg).cgx) ≤ bno
    · obtain ⟨s', heq, hgood', htakes⟩ := gotit_takes size
        (c := { s.cg cg with rotor := bno, frotor := bno / 8 * 8 }) hgood hcg
        (hok.rotors bno hrot) rfl rfl ⟨rfl, rfl, rfl, rfl, rfl, rfl⟩ hbno hmod hisblock hn1 hn
      exact ⟨s', bno, by rw [if_pos hdata, ← heq], hgood', htakes, hbno, hmod,
        fun h => absurd h hb⟩
    · obtain ⟨s', heq, hgood', htakes⟩ := gotit_takes size
        (c := { s.cg cg with frotor := bno / 8 * 8 }) hgood hcg
        (hok.rotors (s.cg cg).rotor hrot) rfl rfl ⟨rfl, rfl, rfl, rfl, rfl, rfl⟩ hbno hmod hisblock
        hn1 hn
      exact ⟨s', bno, by rw [if_neg hdata, ← heq], hgood', htakes, hbno, hmod,
        fun h => absurd h hb⟩

/-- The head of a fragment that was found is taken. -/
theorem Good.takeFrags (rotor : ℕ) {frotor k : ℕ} (hgood : Good l s) (hcg : cg < l.ncg)
    (hrot : frotor < l.fpg) (hisfrag : IsFrag l.frag (s.cg cg).blksfree bno k)
    (hbno : bno < l.fpg) (hk : k < l.frag) (hn : 1 ≤ n) (hnk : n ≤ k) :
    Good l ((s.account cg fun cs => { cs with nffree := cs.nffree - n }).setCg cg
        (takeFrags { s.cg cg with rotor := rotor, frotor := frotor } bno k n)) ∧
      Takes l s ((s.account cg fun cs => { cs with nffree := cs.nffree - n }).setCg cg
        (takeFrags { s.cg cg with rotor := rotor, frotor := frotor } bno k n))
        (l.cgbase cg + bno) n := by
  have hok := hgood.group cg hcg
  have hfits := hisfrag.fits
  have hmap : ∀ i, (Ddfs.takeFrags { s.cg cg with rotor := rotor, frotor := frotor }
      bno k n).blksfree.isset i =
      (!decide (bno ≤ i ∧ i < bno + n) && (s.cg cg).blksfree.isset i) := fun i =>
    isset_takeFrags i
  constructor
  · refine hgood.writeLoose hcg (shift_nffree_sub n)
      ((hok.rotors rotor hrot).takeFrags hisfrag hk hn hnk
        (Nat.div_lt_div_of_lt_of_dvd l.frag_dvd_fpg hbno)) rfl rfl ?_
    refine hgood.zero_of_subset fun i hi => ?_
    rw [hmap, Bool.and_eq_true] at hi
    exact hi.2
  · refine Takes.of_group hbno (by omega) (fun i hi => hisfrag.free i (by omega))
      (fun b hb => ?_) (fun i => ?_) ?_
    · rw [Groups.cg_setCg_of_ne _ _ _ hb, Groups.cg_account]
    · rw [Groups.cg_setCg_self]
      exact hmap i
    · rw [Groups.cg_setCg_self]
      exact ⟨rfl, rfl, rfl, rfl, rfl, rfl⟩

end Pieces

section Requests

variable {l : FsLayout} {s : Groups} {cg size rsize : ℕ}

/-- The loop for `allocsiz` finds the first size that is available. -/
theorem allocsizFrom_spec (frsum : ℕ → ℤ) (n a : ℕ) :
    a ≤ allocsizFrom frsum n a ∧ allocsizFrom frsum n a ≤ a + n ∧
      (∀ k, a ≤ k → k < allocsizFrom frsum n a → frsum k = 0) ∧
      (allocsizFrom frsum n a < a + n → frsum (allocsizFrom frsum n a) ≠ 0) := by
  induction n generalizing a with
  | zero => exact ⟨Nat.le_refl a, Nat.le_refl a, fun k hk hlt => absurd hlt (by
      rw [allocsizFrom]
      omega), fun h => absurd h (Nat.lt_irrefl a)⟩
  | succ n ih =>
    unfold allocsizFrom
    split
    · rename_i hne
      exact ⟨Nat.le_refl a, by omega, fun k hk hlt => by omega, fun _ => hne⟩
    · rename_i hz
      obtain ⟨hlow, hhigh, hzero, hfound⟩ := ih (a + 1)
      refine ⟨by omega, by omega, fun k hk hlt => ?_, fun hlt => hfound (by omega)⟩
      rcases Nat.eq_or_lt_of_le hk with rfl | hk'
      · simpa using hz
      · exact hzero k hk' hlt

theorem SizeOk.numfrags_pos (h : SizeOk l size rsize) : 1 ≤ l.numfrags rsize := by
  rcases h with ⟨-, h1, -⟩ | ⟨-, rfl, h1, -⟩
  · exact h1
  · exact h1

/-- A request to a group succeeds exactly if the group can be read and has room for it, and takes
a piece that was free. Otherwise nothing changes. -/
theorem ffsAlloccg_spec (readable : ℕ → Bool) (hgood : Good l s) (hcg : cg < l.ncg) (bpref : ℕ)
    (hsize : SizeOk l size rsize) :
    ∃ s' r, ffsAlloccg l readable s cg bpref size rsize = some (s', r) ∧ Good l s' ∧
      (readable cg = true ∧ HasRoom l (s.cg cg).blksfree (l.numfrags size) →
        r ≠ 0 ∧ l.dtog r = cg ∧ Takes l s s' r (l.numfrags rsize)) ∧
      (¬ (readable cg = true ∧ HasRoom l (s.cg cg).blksfree (l.numfrags size)) →
        r = 0 ∧ s' = s) := by
  have hok := hgood.group cg hcg
  have hpos := hsize.numfrags_pos
  have hblock : (s.cg cg).cs.nbfree ≠ 0 → l.numfrags rsize ≤ l.frag →
      ∃ s' r, ffsAlloccgblk l s cg bpref rsize = some (s', r) ∧ Good l s' ∧
        r ≠ 0 ∧ l.dtog r = cg ∧ Takes l s s' r (l.numfrags rsize) := by
    intro hne hle
    obtain ⟨s', bno, heq, hgood', htakes, hbno, -, -⟩ :=
      ffsAlloccgblk_takes rsize hgood hcg bpref hne hpos hle
    exact ⟨s', _, heq, hgood', htakes.ne_zero hgood hpos, l.dtog_cgbase hbno, htakes⟩
  have hnbfree : (s.cs cg).nbfree = (s.cg cg).cs.nbfree := by rw [hgood.cs cg hcg]
  unfold ffsAlloccg
  rw [hnbfree, ffsGetcg_eq readable hok]
  rcases hsize with ⟨rfl, -, hle⟩ | ⟨hne, hrs, h1, hlt⟩
  · -- a block
    rw [l.numfrags_bsize, ← nbfree_ne_zero_iff hok]
    by_cases hz : (s.cg cg).cs.nbfree = 0
    · rw [if_pos ⟨hz, rfl⟩]
      exact ⟨s, 0, rfl, hgood, fun h => absurd hz h.2, fun _ => ⟨rfl, rfl⟩⟩
    · rw [if_neg fun h => hz h.1]
      cases hread : readable cg with
      | false =>
        exact ⟨s, 0, rfl, hgood, fun h => absurd h.1 (by decide), fun _ => ⟨rfl, rfl⟩⟩
      | true =>
        obtain ⟨s', r, heq, hgood', hrest⟩ := hblock hz hle
        refine ⟨s', r, ?_, hgood', fun _ => hrest, fun h => absurd ⟨rfl, hz⟩ h⟩
        simp only [if_true, hz, false_and, if_false]
        exact heq
  · -- a fragment
    subst rsize
    have hno : ¬ ((s.cg cg).cs.nbfree = 0 ∧ size = l.bsize) := fun h => hne h.2
    rw [if_neg hno]
    cases hread : readable cg with
    | false =>
      exact ⟨s, 0, rfl, hgood, fun h => absurd h.1 (by decide), fun _ => ⟨rfl, rfl⟩⟩
    | true =>
      simp only [if_true, if_neg hno, if_neg hne, true_and]
      obtain ⟨hlow, hhigh, hzero, hfound⟩ :=
        allocsizFrom_spec (s.cg cg).frsum (l.frag - l.numfrags size) (l.numfrags size)
      generalize allocsizFrom (s.cg cg).frsum (l.frag - l.numfrags size) (l.numfrags size) = a
        at hlow hhigh hzero hfound ⊢
      by_cases ha : a = l.frag
      · rw [if_pos ha]
        by_cases hz : (s.cg cg).cs.nbfree = 0
        · have hroom : ¬ HasRoom l (s.cg cg).blksfree (l.numfrags size) := by
            intro hroom
            obtain ⟨b, k, hb, hk, hmem⟩ := hroom.exists_run h1
            have hkle : k ≤ l.frag := by
              have := le_of_mem_runs hmem
              rwa [blockFrags, length_seg] at this
            rcases Nat.eq_or_lt_of_le hkle with rfl | hklt
            · have := hok.counts.nbfree_pos hb (isblock_of_mem_runs hmem)
              omega
            · have := hok.counts.frsum_pos (by omega) hklt hb hmem
              have := hzero k hk (by omega)
              omega
          rw [if_pos hz]
          exact ⟨s, 0, rfl, hgood, fun h => absurd h hroom, fun _ => ⟨rfl, rfl⟩⟩
        · have hroom : HasRoom l (s.cg cg).blksfree (l.numfrags size) := by
            obtain ⟨b, hb, hblk⟩ := hok.counts.exists_block hz
            exact hasRoom_of_mem_runs h1 hlt.le hb (mem_runs_of_isblock hblk) (Nat.le_refl _)
          obtain ⟨s', r, heq, hgood', hrest⟩ := hblock hz hlt.le
          rw [if_neg hz]
          exact ⟨s', r, heq, hgood', fun _ => hrest, fun h => absurd hroom h⟩
      · have halt : a < l.frag := by omega
        obtain ⟨b, hb, hmem⟩ := hok.counts.exists_frag (by omega) halt (hfound (by omega))
        have hroom : HasRoom l (s.cg cg).blksfree (l.numfrags size) :=
          hasRoom_of_mem_runs h1 hlow hb hmem halt.le
        obtain ⟨bno, hsearch, hisfrag, hbyte, -⟩ := ffsMapsearch_finds l (s.cg cg) bpref a
          (by omega) halt.le hok.frotor_lt ⟨b, hb, hmem⟩
        have hbno : bno < l.fpg := hok.found_lt (hisfrag.free 0 (by omega)) hbyte
        obtain ⟨hgood', htakes⟩ := hgood.takeFrags (s.cg cg).rotor
          hcg (show bno / 8 * 8 < l.fpg by omega) hisfrag hbno halt h1 hlow
        rw [if_neg ha, hsearch]
        exact ⟨_, _, rfl, hgood', fun _ => ⟨htakes.ne_zero hgood h1, l.dtog_cgbase hbno, htakes⟩,
          fun h => absurd hroom h⟩

end Requests

section Extend

variable {l : FsLayout} {s : Groups} {c : Cg} {b cg n o : ℕ}

theorem count_seg_le {f : ℕ → Bool} {a p k : ℕ} (hp : p + n ≤ k)
    (hset : ∀ i, i < n → f (a + p + i) = true) : n ≤ (seg f a k).count true := by
  have hk : k = p + (n + (k - (p + n))) := by omega
  rw [seg_cut f a hk, seg_append, seg_eq_replicate hset, List.count_append, List.count_append,
    List.count_replicate_self]
  omega

/-- `cs_nffree` has the free fragments of a block that is not free. -/
theorem CountsExact.count_le_nffree (hc : CountsExact l c) (hb : b < l.blocks)
    (hmem : false ∈ blockFrags l.frag c.blksfree b) :
    (((blockFrags l.frag c.blksfree b).count true : ℕ) : ℤ) ≤ c.cs.nffree := by
  rw [hc.nffree, ← looseOf_of_mem hmem]
  exact Finset.single_le_sum (f := fun h => looseOf (blockFrags l.frag c.blksfree h))
    (fun _ _ => looseOf_nonneg _) (Finset.mem_range.mpr hb)

/-- The fragments of a piece are in the group of the piece. -/
theorem free_piece {bprev i : ℕ} (hi : l.dtogd bprev + i < l.fpg) : s.free l (bprev + i) =
    (s.cg (l.dtog bprev)).blksfree.isset (l.dtogd bprev + i) := by
  have hbase := l.cgbase_dtog bprev
  have heq : bprev + i = l.cgbase (l.dtog bprev) + (l.dtogd bprev + i) := by omega
  rw [heq, Groups.free, l.dtog_cgbase hi, l.dtogd_cgbase hi]

/-- The test for a block boundary. -/
theorem fragnum_lt_iff (l : FsLayout) {bprev : ℕ} (hn : 1 ≤ n) (hnf : n ≤ l.frag) :
    l.fragnum (bprev + n - 1) < l.fragnum bprev ↔ l.frag < bprev % l.frag + n := by
  have hdiv := Nat.div_add_mod bprev l.frag
  have hlt := Nat.mod_lt bprev l.frag_pos
  have heq : bprev + n - 1 = l.frag * (bprev / l.frag) + (bprev % l.frag + (n - 1)) := by omega
  rw [FsLayout.fragnum, FsLayout.fragnum, heq, Nat.mul_add_mod]
  rcases Nat.lt_or_ge (bprev % l.frag + (n - 1)) l.frag with h | h
  · rw [Nat.mod_eq_of_lt h]
    omega
  · rw [Nat.mod_eq_sub_mod h, Nat.mod_eq_of_lt (by omega)]
    omega

theorem numfrags_mul (l : FsLayout) (n : ℕ) : l.numfrags (n * l.geom.fsize) = n :=
  Nat.mul_div_cancel n l.geom.fsize_pos

/-- A fragment is extended in its place exactly if the group can be read, the longer fragment is
within the block, and what is added is free. That is what is taken. -/
theorem ffsFragextend_spec (readable : ℕ → Bool) (hgood : Good l s) {bprev : ℕ}
    (hcg : l.dtog bprev < l.ncg) (ho : 1 ≤ o) (hon : o < n) (hn : n ≤ l.frag)
    (hfits : bprev % l.frag + o ≤ l.frag) (halloc : s.free l (bprev + (o - 1)) = false) :
    ∃ s' r, ffsFragextend l readable s (l.dtog bprev) bprev (o * l.geom.fsize)
        (n * l.geom.fsize) = (s', r) ∧ Good l s' ∧
      (readable (l.dtog bprev) = true ∧ bprev % l.frag + n ≤ l.frag ∧
          (∀ i, o ≤ i → i < n → s.free l (bprev + i) = true) →
        r = bprev ∧ Takes l s s' (bprev + o) (n - o)) ∧
      (¬ (readable (l.dtog bprev) = true ∧ bprev % l.frag + n ≤ l.frag ∧
          ∀ i, o ≤ i → i < n → s.free l (bprev + i) = true) → r = 0 ∧ s' = s) := by
  have hok := hgood.group _ hcg
  have hmod : l.dtogd bprev % l.frag = bprev % l.frag := l.dtogd_mod bprev
  have hdtogd := l.dtogd_lt bprev
  have hnum : l.numfrags (n * l.geom.fsize - o * l.geom.fsize) = n - o := by
    rw [← Nat.sub_mul, numfrags_mul]
  have hnffree : (s.cs (l.dtog bprev)).nffree = (s.cg (l.dtog bprev)).cs.nffree := by
    rw [hgood.cs _ hcg]
  -- a fragment that is within its block is in the group
  have hin : ∀ k i, bprev % l.frag + k ≤ l.frag → i < k → l.dtogd bprev + i < l.fpg :=
    fun k i hk hi => by
      have := piece_le_fpg l hdtogd (n := k) (by omega)
      omega
  have hclr : (s.cg (l.dtog bprev)).blksfree.isset (l.dtogd bprev + (o - 1)) = false := by
    rw [← free_piece (hin o (o - 1) hfits (by omega))]
    exact halloc
  unfold ffsFragextend
  rw [hnum, numfrags_mul, numfrags_mul, hnffree, ffsGetcg_eq readable hok]
  by_cases hcan : readable (l.dtog bprev) = true ∧ bprev % l.frag + n ≤ l.frag ∧
      ∀ i, o ≤ i → i < n → s.free l (bprev + i) = true
  · obtain ⟨hread, hend, hfree⟩ := hcan
    have hset : ∀ i, i < n - o →
        (s.cg (l.dtog bprev)).blksfree.isset (l.dtogd bprev + o + i) = true := by
      intro i hi
      have := hfree (o + i) (by omega) (by omega)
      rwa [free_piece (hin n (o + i) hend (by omega)), ← Nat.add_assoc] at this
    have hbase : l.dtogd bprev / l.frag * l.frag + l.dtogd bprev % l.frag = l.dtogd bprev :=
      Nat.div_add_mod' _ _
    have hblock : l.dtogd bprev / l.frag < l.blocks :=
      Nat.div_lt_div_of_lt_of_dvd l.frag_dvd_fpg hdtogd
    have hmem : false ∈ blockFrags l.frag (s.cg (l.dtog bprev)).blksfree
        (l.dtogd bprev / l.frag) := by
      have hplace : l.dtogd bprev / l.frag * l.frag + (bprev % l.frag + (o - 1)) =
          l.dtogd bprev + (o - 1) := by omega
      have hmem := mem_seg (f := (s.cg (l.dtog bprev)).blksfree.isset)
        (a := l.dtogd bprev / l.frag * l.frag) (i := bprev % l.frag + (o - 1)) (n := l.frag)
        (by omega)
      rwa [hplace, hclr] at hmem
    have henough : ¬ (s.cg (l.dtog bprev)).cs.nffree < (n - o : ℕ) := by
      have hcount : n - o ≤ (blockFrags l.frag (s.cg (l.dtog bprev)).blksfree
          (l.dtogd bprev / l.frag)).count true := by
        refine count_seg_le (p := bprev % l.frag + o) (by omega) fun i hi => ?_
        have hplace : l.dtogd bprev / l.frag * l.frag + (bprev % l.frag + o) + i =
            l.dtogd bprev + o + i := by omega
        rw [hplace]
        exact hset i hi
      have := hok.counts.count_le_nffree hblock hmem
      omega
    have hfragnum : l.fragnum bprev = bprev % l.frag := rfl
    have hboundary : ¬ l.fragnum (bprev + n - 1) < bprev % l.frag := by
      rw [← hfragnum, fragnum_lt_iff l (by omega) hn]
      omega
    have hall : ¬ forward (s.cg (l.dtog bprev)).blksfree.isset (n - o) (l.dtogd bprev + o) <
        n - o := fun hlt => by
      have hstop := forward_stop hlt
      exact absurd ((hset _ hlt).symm.trans hstop) (by decide)
    simp only [if_neg henough, hfragnum, if_neg hboundary, hread, if_true, if_neg hall]
    have hmore := forward_le (s.cg (l.dtog bprev)).blksfree.isset
      (l.frag - bprev % l.frag - n) (l.dtogd bprev + n)
    have hmoreset := fun k => forward_set (f := (s.cg (l.dtog bprev)).blksfree.isset)
      (n := l.frag - bprev % l.frag - n) (i := l.dtogd bprev + n) (k := k)
    have hmorestop := forward_stop (f := (s.cg (l.dtog bprev)).blksfree.isset)
      (n := l.frag - bprev % l.frag - n) (i := l.dtogd bprev + n)
    generalize forward (s.cg (l.dtog bprev)).blksfree.isset (l.frag - bprev % l.frag - n)
      (l.dtogd bprev + n) = more at hmore hmoreset hmorestop ⊢
    have hmod' : (l.dtogd bprev + o) % l.frag = bprev % l.frag + o := by
      have hplace : l.dtogd bprev + o =
          l.dtogd bprev / l.frag * l.frag + (bprev % l.frag + o) := by omega
      rw [hplace, Nat.mul_add_mod', Nat.mod_eq_of_lt (by omega)]
    have hisfrag : IsFrag l.frag (s.cg (l.dtog bprev)).blksfree (l.dtogd bprev + o)
        (n + more - o) := by
      constructor
      · omega
      · intro j hj
        rcases Nat.lt_or_ge j (n - o) with hlt | hge
        · exact hset j hlt
        · have := hmoreset (j - (n - o)) (by omega)
          have hplace : l.dtogd bprev + n + (j - (n - o)) = l.dtogd bprev + o + j := by omega
          rwa [hplace] at this
      · right
        have hplace : l.dtogd bprev + o - 1 = l.dtogd bprev + (o - 1) := by omega
        rw [hplace]
        exact hclr
      · rw [hmod']
        rcases Nat.lt_or_ge more (l.frag - bprev % l.frag - n) with hlt | hge
        · right
          have := hmorestop hlt
          have hplace : l.dtogd bprev + n + more = l.dtogd bprev + o + (n + more - o) := by omega
          rwa [hplace] at this
        · left
          omega
    obtain ⟨hgood', htakes⟩ := hgood.takeFrags (s.cg (l.dtog bprev)).rotor
      (n := n - o) hcg hok.frotor_lt hisfrag
      (hin n o hend hon) (by omega) (by omega) (by omega)
    have hwhere : l.cgbase (l.dtog bprev) + (l.dtogd bprev + o) = bprev + o := by
      have := l.cgbase_dtog bprev
      omega
    rw [hwhere] at htakes
    exact ⟨_, bprev, rfl, hgood', fun _ => ⟨rfl, htakes⟩,
      fun h => absurd ⟨trivial, hend, hfree⟩ h⟩
  · refine ⟨s, 0, ?_, hgood, fun h => absurd h hcan, fun _ => ⟨rfl, rfl⟩⟩
    by_cases hfew : (s.cg (l.dtog bprev)).cs.nffree < (n - o : ℕ)
    · rw [if_pos hfew]
    · rw [if_neg hfew]
      by_cases hboundary : l.fragnum (bprev + n - 1) < l.fragnum bprev
      · simp only [if_pos hboundary]
      · simp only [if_neg hboundary]
        rw [fragnum_lt_iff l (by omega) hn] at hboundary
        cases hread : readable (l.dtog bprev) with
        | false => simp
        | true =>
          simp only [if_true]
          rw [if_pos]
          by_contra hall
          have hle := forward_le (s.cg (l.dtog bprev)).blksfree.isset (n - o)
            (l.dtogd bprev + o)
          refine hcan ⟨hread, by omega, fun i hi hlt => ?_⟩
          rw [free_piece (hin n i (by omega) hlt)]
          have := forward_set (f := (s.cg (l.dtog bprev)).blksfree.isset) (n := n - o)
            (i := l.dtogd bprev + o) (k := i - o) (by omega)
          have hplace : l.dtogd bprev + o + (i - o) = l.dtogd bprev + i := by omega
          rwa [hplace] at this

end Extend

end EmbeddedOs.Ddfs
