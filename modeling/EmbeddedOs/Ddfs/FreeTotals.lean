import EmbeddedOs.Ddfs.MkfsDensity
import Mathlib.Tactic.LinearCombination
import Mathlib.Tactic.Linarith

/-!
# The free blocks that `mkfs` counts

`mkfs` computes the number of free blocks once from the layout, and once group by group in
`initcg`. The formula takes each group to lack the blocks from `fs_sblkno` to `fs_dblkno`, but in
`initcg` they are missing from the end of the dedup table on, where `cgsblock` is.
-/

namespace EmbeddedOs.Ddfs

open Finset

/-- What the totals depend on, with blocks and fragments of 4096 bytes. -/
structure Totals (l : MkfsLayout) : Prop where
  sblkno : l.sblkno = 18
  ddblkno : l.ddblkno = 20
  /-- The table does not end in front of the medium. -/
  table : 0 ≤ 20 + l.dedupfrags
  table_lt : 20 + l.dedupfrags < l.dblkno
  ncg_pos : 0 < l.ncg
  ncg : l.ncg = howmany l.size l.fpg % 2 ^ 32
  /-- The first group has room for the summary. -/
  first : l.dblkno + howmany l.cssize 4096 < min l.fpg l.size
  /-- The last group has room for its inodes. -/
  last : l.dblkno ≤ l.size % l.fpg ∨ l.size % l.fpg = 0
  fpg_lt : l.fpg < 32769
  nbfree : l.nbfree =
    l.size - 18 - l.ncg * ((l.dblkno : ℤ) - 18) % 2 ^ 32 - howmany l.cssize 4096

theorem roundup_one (x : ℕ) : roundup x 1 = x := by
  rw [roundup, howmany, Nat.div_one, Nat.mul_one, Nat.sub_self, Nat.add_zero]

/-- The front of a group, up to the end of the table, and its blocks behind the inodes. -/
theorem initcg_whole (l : MkfsLayout) (c : ℕ) : initcg .whole l c =
    (if 0 < c then (l.ddblkno + l.dedupfrags).toNat else 0) +
      (min (c * l.fpg + l.fpg) l.size - c * l.fpg -
        (l.dblkno + if c = 0 then howmany l.cssize 4096 else 0)) := by
  have hfrag : Geometry.whole.frag = 1 := by decide
  have hfsize : Geometry.whole.fsize = 4096 := by decide
  have hfront (n : ℕ) : countBlocksWhile 1 (fun d => d < n) n 0 = n := by
    have hends : countBlocksWhile 1 (fun d => d + 1 ≤ n) n 0 = (n - 0) / 1 :=
      countBlocksWhile_ends Nat.one_pos n (by omega)
    rwa [Nat.sub_zero, Nat.div_one] at hends
  have hback (n d : ℕ) : countBlocksWhile 1 (fun d => d + 1 ≤ n) n d = n - d := by
    rw [countBlocksWhile_ends Nat.one_pos n (by omega), Nat.div_one]
  simp only [initcg, hfrag, hfsize, roundup_one, hfront, hback]

/-- `fs_iblkno` behind a table that does not end in front of the medium. -/
theorem iblkno_whole (mediasize : ℕ) : Geometry.whole.iblkno mediasize =
    (20 + Geometry.whole.dedupfrags mediasize).toNat + 3 := by
  have hfrag : Geometry.whole.frag = 1 := by decide
  have hdd : Geometry.whole.ddblkno = 20 := by decide
  have hcg : howmany 8192 Geometry.whole.fsize = 2 := by decide
  rw [Geometry.iblkno, Geometry.cblkno, hfrag, hdd, hcg, roundup_one, roundup_one]
  norm_cast

/-- The place of the inodes, where a block is a fragment. -/
theorem metaFrags_whole (iblkno ipg : ℕ) : metaFrags .whole iblkno ipg = iblkno + ipg / 16 := by
  have hfrag : Geometry.whole.frag = 1 := by decide
  have hinopf : Geometry.whole.inopf = 16 := by decide
  rw [metaFrags, hfrag, hinopf, roundup_one]

theorem Completes.totals {o : MkfsOptions} {mediasize : ℕ} {l : MkfsLayout}
    (h : Completes .whole o mediasize l) : Totals l := by
  have hfrag : Geometry.whole.frag = 1 := by decide
  have hfsize : Geometry.whole.fsize = 4096 := by decide
  have hinopf : Geometry.whole.inopf = 16 := by decide
  have hbsize : Geometry.whole.bsize = 4096 := by decide
  have hdd : Geometry.whole.ddblkno = 20 := by decide
  have hsb : Geometry.whole.sblkno = 18 := by decide
  obtain ⟨_, _, heq, hfront, hlt, -⟩ := h.chosen
  obtain ⟨-, fuel, _, _, _, _, _, fpg, ipg, -, -, hlast, rfl, hncg, -, hfree⟩ := completes_iff.mp h
  have hfpg : fpg < 32769 := by
    have hsame := congrArg MkfsLayout.fpg heq
    rw [hbsize, hfrag] at hlt
    simp only [layoutOf] at hsame
    omega
  rw [hdd, Nat.cast_ofNat] at hfront
  have hroom := (lastGroupLoop_some hlast).2
  rw [metaFrags_whole] at hroom
  have hinodes := iblkno_whole mediasize
  rw [initcg_zero, hfrag, hfsize, roundup_one, Nat.div_one] at hfree
  refine ⟨hsb, hdd, ?_, ?_, Nat.pos_of_ne_zero hncg, rfl, by omega, ?_, hfpg, ?_⟩
  · simp only [layoutOf]
    exact hfront
  · simp only [layoutOf, hinopf, hinodes]
    generalize Geometry.whole.dedupfrags mediasize = dedupfrags
    omega
  · simp only [layoutOf, hinopf]
    exact hroom
  · simp only [layoutOf, hfrag, hfsize, hsb, hinopf]
    simp [howmany]

namespace Totals

variable {l : MkfsLayout} (t : Totals l)
include t

/-- Each group starts on the medium. -/
theorem start_lt {c : ℕ} (hc : c < l.ncg) : c * l.fpg < l.size := by
  have hfirst := t.first
  have hle : c + 1 ≤ howmany l.size l.fpg := by
    have hmod := Nat.mod_le (howmany l.size l.fpg) (2 ^ 32)
    rw [← t.ncg] at hmod
    omega
  have hstart := Nat.mul_le_mul_right l.fpg hle
  have hend : howmany l.size l.fpg * l.fpg < l.size + l.fpg := howmany_mul_lt (by omega)
  rw [Nat.succ_mul] at hstart
  omega

/-- Each group has room for its inodes. -/
theorem room {c : ℕ} (hc : c < l.ncg) :
    l.dblkno ≤ min (c * l.fpg + l.fpg) l.size - c * l.fpg := by
  have hfirst := t.first
  have hstart := t.start_lt hc
  by_cases hwhole : c * l.fpg + l.fpg ≤ l.size
  · omega
  · -- it is the last one, and no whole one
    have hmod : l.size % l.fpg = l.size - c * l.fpg := by
      have hsplit : l.size = l.size - c * l.fpg + c * l.fpg := by omega
      rw [hsplit, Nat.add_mul_mod_self_right, Nat.mod_eq_of_lt (by omega)]
      omega
    have hlast := t.last
    omega

/-- What the first `k + 1` groups have free. -/
theorem sum_initcg {k : ℕ} (hk : k < l.ncg) :
    ∑ c ∈ range (k + 1), (initcg .whole l c : ℤ) =
      (min (k * l.fpg + l.fpg) l.size : ℕ) - (k + 1) * l.dblkno + k * (20 + l.dedupfrags) -
        howmany l.cssize 4096 := by
  have hfirst := t.first
  induction k with
  | zero =>
    have hzero : (initcg .whole l 0 : ℤ) =
        (min (0 * l.fpg + l.fpg) l.size : ℕ) - l.dblkno - howmany l.cssize 4096 := by
      rw [initcg_whole, if_neg (Nat.lt_irrefl 0), if_pos rfl]
      omega
    rw [Nat.zero_add, sum_range_one, hzero]
    push_cast
    ring
  | succ k ih =>
    have hroom := t.room hk
    have hstart := t.start_lt hk
    have hprev : min (k * l.fpg + l.fpg) l.size = (k + 1) * l.fpg := by
      rw [Nat.succ_mul] at hstart ⊢
      omega
    have hgroup : (initcg .whole l (k + 1) : ℤ) = (20 + l.dedupfrags) +
        (min ((k + 1) * l.fpg + l.fpg) l.size : ℕ) - ((k + 1) * l.fpg : ℕ) - l.dblkno := by
      have htable := t.table
      rw [initcg_whole, if_pos (Nat.succ_pos k), if_neg (Nat.succ_ne_zero k), t.ddblkno]
      omega
    rw [sum_range_succ, ih (by omega), hgroup, hprev]
    push_cast
    ring

/-- When the number of groups does not fit into 32 bits, they do not make up the medium, and the
formula counts more than they have. -/
theorem sum_lt_nbfree (hncg : l.ncg * l.fpg < l.size) :
    ∑ c ∈ range l.ncg, (initcg .whole l c : ℤ) < l.nbfree := by
  have hfirst := t.first
  have htable := t.table
  have hlt := t.table_lt
  obtain ⟨k, hk⟩ : ∃ k, l.ncg = k + 1 := ⟨l.ncg - 1, by have := t.ncg_pos; omega⟩
  have hmin : min (k * l.fpg + l.fpg) l.size = (k + 1) * l.fpg := by
    rw [hk] at hncg
    rw [Nat.succ_mul] at hncg ⊢
    omega
  have hsum := t.sum_initcg (k := k) (by omega)
  rw [← hk] at hsum
  rw [hsum, hmin, t.nbfree]
  -- more than 2³² groups would be needed
  have hmany : (l.ncg + 4294967295) * l.fpg ≤ l.size := by
    have hfpg : 0 < l.fpg := by omega
    have hcover : l.size ≤ howmany l.size l.fpg * l.fpg := le_howmany_mul hfpg
    have hend : howmany l.size l.fpg * l.fpg < l.size + l.fpg := howmany_mul_lt hfpg
    have hmore : l.ncg < howmany l.size l.fpg :=
      Nat.lt_of_mul_lt_mul_right (hncg.trans_le hcover)
    have hwrap : l.ncg + 4294967295 + 1 ≤ howmany l.size l.fpg := by
      have hncg' := t.ncg
      omega
    have hscaled := Nat.mul_le_mul_right l.fpg hwrap
    rw [Nat.succ_mul] at hscaled
    omega
  have hmod : (l.ncg : ℤ) * ((l.dblkno : ℤ) - 18) % 2 ^ 32 < 2 ^ 32 :=
    Int.emod_lt_of_pos _ (by decide)
  have htables : (k : ℤ) * (20 + l.dedupfrags) ≤ k * l.dblkno :=
    Int.mul_le_mul_of_nonneg_left hlt.le (Int.natCast_nonneg k)
  have hspace : ((k : ℤ) + 1 + 4294967295) * l.fpg ≤ l.size := by
    rw [hk] at hmany
    exact_mod_cast hmany
  have hfpg : (2 : ℤ) ≤ l.fpg := by omega
  have hinodes : (0 : ℤ) ≤ l.dblkno := Int.natCast_nonneg _
  rw [Nat.cast_mul, Nat.cast_succ]
  linarith

end Totals

/-- The groups make up the medium, and what the fronts of the groups behind the first one have more
than the formula assumes is what its product loses in 32 bits. With one group nothing is. -/
def Balanced (l : MkfsLayout) : Prop :=
  l.size ≤ l.ncg * l.fpg ∧
    ((l.ncg : ℤ) - 1) * (l.ddblkno + l.dedupfrags - l.sblkno) =
      l.ncg * ((l.dblkno : ℤ) - l.sblkno) / 2 ^ 32 * 2 ^ 32

theorem Totals.balanced_iff {l : MkfsLayout} (t : Totals l) :
    l.nbfree = ∑ c ∈ range l.ncg, (initcg .whole l c : ℤ) ↔ Balanced l := by
  by_cases hncg : l.size ≤ l.ncg * l.fpg
  · obtain ⟨k, hk⟩ : ∃ k, l.ncg = k + 1 := ⟨l.ncg - 1, by have := t.ncg_pos; omega⟩
    have hmin : min (k * l.fpg + l.fpg) l.size = l.size := by
      rw [hk, Nat.succ_mul] at hncg
      exact Nat.min_eq_right hncg
    have hsum := t.sum_initcg (k := k) (by omega)
    rw [← hk, hmin] at hsum
    have hdiv := Int.emod_add_mul_ediv ((l.ncg : ℤ) * ((l.dblkno : ℤ) - 18)) (2 ^ 32)
    have hk' : (l.ncg : ℤ) = k + 1 := by exact_mod_cast hk
    rw [hsum, t.nbfree, Balanced, t.ddblkno, t.sblkno, Nat.cast_ofNat, Nat.cast_ofNat]
    rw [hk'] at hdiv ⊢
    constructor
    · intro h
      exact ⟨hncg, by linear_combination -h - hdiv⟩
    · rintro ⟨-, h⟩
      linear_combination -h - hdiv
  · have hlt := t.sum_lt_nbfree (by omega)
    constructor
    · intro h
      omega
    · rintro ⟨h, -⟩
      exact absurd h hncg

/-! ## Media with one group -/

section Default

variable {size iblkno fragsperinode fpg ipg fuel mediasize n : ℕ}

/-- No group has more than 12320 blocks. -/
theorem Fits.le_whole (h : Fits .whole fragsperinode n) (hpos : 0 < fragsperinode)
    (htwo : fragsperinode ≤ 2) : n ≤ 12320 := by
  have hbsize : Geometry.whole.bsize = 4096 := by decide
  simp only [Fits, cgsize_whole, ipgOf_whole, hbsize] at h
  obtain rfl | rfl : fragsperinode = 1 ∨ fragsperinode = 2 := by omega
  · omega
  · omega

/-- With an inode for two blocks there may be so many. -/
theorem fits_two (h : n ≤ 12320) : Fits .whole 2 n := by
  have hmost : Fits .whole 2 12320 := by decide
  exact hmost.mono h

/-- The first round of the loop for the density is the last one, if the inodes start early. -/
theorem groupFits_two (h : iblkno ≤ 11946) : GroupFits .whole size iblkno 2 := by
  by_cases htable : 32 ≤ iblkno
  · exact (groupFits_two_iff htable).mpr h
  · have hbsize : Geometry.whole.bsize = 4096 := by decide
    have hinopb : Geometry.whole.inopb = 16 := by decide
    have hfpg (ipg : ℕ) : densityFpg .whole size iblkno 2 ipg ≤ 32 + ipg / 16 := by
      rw [densityFpg_whole]
      omega
    simp only [GroupFits, densityGroup, cgsize_whole, ipgOf_whole, hbsize, hinopb]
    have hfirst := hfpg 16
    generalize densityFpg .whole size iblkno 2 16 = fpg at hfirst ⊢
    generalize hipg : ((fpg + (2 - 1)) / 2 + 15) / 16 * 16 = ipg
    have hsecond := hfpg ipg
    generalize densityFpg .whole size iblkno 2 ipg = fpg' at hsecond ⊢
    omega

/-- With few blocks in front of the inodes there is an inode for two blocks. -/
theorem fragsperinode_two (h : densityLoop .whole size iblkno 1 fuel 8192 =
    some (fragsperinode, fpg, ipg)) (hle : iblkno ≤ 11946) : fragsperinode = 2 := by
  have hfsize : Geometry.whole.fsize = 4096 := by decide
  have hfits : GroupFits .whole size iblkno 2 := groupFits_two hle
  have htwo : max ((8192 : ℤ) / (4096 : ℕ)).toNat 1 = 2 := by decide
  simp only [GroupFits, densityGroup, densityFpg_natCast] at hfits
  cases fuel with
  | zero => cases h
  | succ fuel =>
    simp only [densityLoop, hfsize, htwo, hfits, if_true] at h
    simp only [show ¬2 < 1 by decide, if_false, Option.some.injEq, Prod.mk.injEq] at h
    exact h.1.symm

/-- What the loops choose without options, on a medium whose table has a size below 2³¹. -/
structure Chosen (mediasize fragsperinode fpg₁ fpg ipg : ℕ) : Prop where
  dedupfrags : Geometry.whole.dedupfrags mediasize = ((mediasize / 8 + 4095) / 4096 : ℕ)
  pos : 0 < fragsperinode
  le_two : fragsperinode ≤ 2
  two : mediasize < 12321 * 4096 → fragsperinode = 2
  pack : ∃ least ipg₁, PackChoice .whole (mediasize / 4096) 0x7fffffff fragsperinode least fpg₁ ipg₁
  fpg_le : fpg ≤ fpg₁
  one : mediasize / 4096 ≤ fpg₁ → fpg = fpg₁

theorem Completes.choice {l : MkfsLayout} (h : Completes .whole defaultOptions mediasize l)
    (hmax : mediasize < 2 ^ 47 - 2 ^ 20) :
    ∃ fragsperinode fpg₁ fpg ipg, l = layoutOf .whole mediasize fpg ipg ∧
      Chosen mediasize fragsperinode fpg₁ fpg ipg := by
  have hbsize : Geometry.whole.bsize = 4096 := by decide
  have hdd : Geometry.whole.ddblkno = 20 := by decide
  obtain ⟨hfront, fuel, fragsperinode, fpg₀, ipg₀, fpg₁, ipg₁, fpg, ipg, hdensity, hpack, hlast, hl,
    -⟩ := completes_iff.mp h
  -- the table does not end in front of the medium
  have hdedup : Geometry.whole.dedupfrags mediasize = ((mediasize / 8 + 4095) / 4096 : ℕ) := by
    rw [hdd] at hfront
    rw [Geometry.dedupfrags, extraFrags_whole] at hfront ⊢
    rw [int32, Int.bmod] at hfront ⊢
    split at hfront <;> omega
  -- and each group has room for it
  have hstart := densityLoop_some hdensity
  have hlt := hstart.fits.lt
  have hiblkno := hstart.iblkno_le
  rw [iblkno_whole, hdedup] at hiblkno
  rw [hbsize] at hlt
  have hone : minFragsPerInode .whole mediasize = 1 := by
    rw [minFragsPerInode_whole]
    omega
  have hdefault : startDensity .whole defaultOptions mediasize = 8192 := by
    rw [startDensity_whole, hone]
    rfl
  rw [hone, hdefault] at hdensity
  have hround := (densityLoop_some hdensity).le_density
  have hfsize : Geometry.whole.fsize = 4096 := by decide
  have htwo : max ((8192 : ℤ) / (4096 : ℕ)).toNat 1 = 2 := by decide
  rw [hfsize, Nat.cast_ofNat, htwo] at hround
  have hleast : 0 < fpg₀ := by omega
  rw [size_whole] at hpack hlast
  refine ⟨fragsperinode, fpg₁, fpg, ipg, hl, hdedup, (densityLoop_some hdensity).min_le, hround, ?_,
    ⟨fpg₀, ipg₁, packLoop_some hleast (Or.inl ⟨le_rfl, hstart.fits⟩) hpack⟩, lastGroupLoop_le hlast,
    fun hle => lastGroupLoop_one hle hlast⟩
  intro hsmall
  refine fragsperinode_two hdensity ?_
  rw [iblkno_whole, hdedup]
  omega

/-- A group takes the whole medium up to 12320 blocks. -/
theorem Chosen.one_group_iff {fpg₁ : ℕ} (c : Chosen mediasize fragsperinode fpg₁ fpg ipg) :
    mediasize / 4096 ≤ fpg ↔ mediasize < 12321 * 4096 := by
  have hbsize : Geometry.whole.bsize = 4096 := by decide
  have hfrag : Geometry.whole.frag = 1 := by decide
  have hpos := c.pos
  have htwo := c.le_two
  have hle := c.fpg_le
  obtain ⟨least, ipg₁, hpack⟩ := c.pack
  constructor
  · intro hone
    by_contra hbig
    have hfits : ¬Fits .whole fragsperinode fpg₁ := fun h => by
      have hmost := h.le_whole hpos htwo
      omega
    rcases hpack.tried with ⟨-, h⟩ | ⟨n, -, hn, h⟩
    · exact hfits h
    · have hmost := h.le_whole hpos htwo
      rw [hfrag] at hn
      obtain rfl : fpg₁ = 12321 := by omega
      rcases hpack.stop with hmax | hsize | hfull | ⟨h, -⟩
      · omega
      · omega
      · rw [cgsize_whole, ipgOf_whole, hbsize] at hfull
        obtain rfl | rfl : fragsperinode = 1 ∨ fragsperinode = 2 := by omega
        · omega
        · omega
      · exact hfits h
  · intro hsmall
    have hfpi := c.two hsmall
    subst hfpi
    have hwhole : mediasize / 4096 ≤ fpg₁ := by
      rcases hpack.stop with hmax | hsize | hfull | ⟨-, h⟩
      · omega
      · omega
      · by_contra hlt
        have hfits : Fits .whole 2 fpg₁ := fits_two (by omega)
        rw [Fits, hfull] at hfits
        exact Nat.lt_irrefl _ hfits
      · by_contra hlt
        exact h (fits_two (by omega))
    rw [c.one hwhole]
    exact hwhole

/-- One group is balanced. -/
theorem Totals.balanced_one {l : MkfsLayout} (t : Totals l) (htable : 0 ≤ l.dedupfrags)
    (h : l.size ≤ l.fpg) : Balanced l := by
  have hfirst := t.first
  have hlt := t.table_lt
  have hfpg := t.fpg_lt
  have hncg : l.ncg = 1 := by
    have hdiv : howmany l.size l.fpg = 1 := by
      rw [howmany]
      exact Nat.div_eq_of_lt_le (by omega) (by omega)
    rw [t.ncg, hdiv]
    exact Nat.mod_eq_of_lt (by decide)
  have hzero : ((1 : ℕ) : ℤ) * ((l.dblkno : ℤ) - (18 : ℕ)) / 2 ^ 32 = 0 := by
    rw [Nat.cast_one, one_mul]
    exact Int.ediv_eq_zero_of_lt (by omega) (by omega)
  rw [Balanced, hncg, t.sblkno, hzero]
  exact ⟨by omega, by simp⟩

/-- More groups are not, with a table of the usual size. -/
theorem Totals.not_balanced {l : MkfsLayout} (t : Totals l) (htable : 0 ≤ l.dedupfrags)
    (hsize : l.size ≤ 8 * l.dedupfrags) (h : l.fpg < l.size) : ¬Balanced l := by
  rintro ⟨hcover, hwrap⟩
  have hfirst := t.first
  have hlt := t.table_lt
  have hfpg := t.fpg_lt
  have hmany : 1 < l.ncg := by
    by_contra hone
    have hle := Nat.mul_le_mul_right l.fpg (Nat.le_of_not_lt hone)
    omega
  -- the table takes an eighth of the medium, and fits into a group
  have hfew : l.ncg < 9 := by
    have hend : howmany l.size l.fpg * l.fpg < l.size + l.fpg := howmany_mul_lt (by omega)
    have hle : l.ncg ≤ howmany l.size l.fpg := by
      rw [t.ncg]
      exact Nat.mod_le _ _
    by_contra hnine
    have hnine' := Nat.mul_le_mul_right l.fpg ((Nat.le_of_not_lt hnine).trans hle)
    omega
  have hsmall : (l.ncg : ℤ) * ((l.dblkno : ℤ) - l.sblkno) / 2 ^ 32 = 0 := by
    rw [t.sblkno]
    apply Int.ediv_eq_zero_of_lt
    · exact Int.mul_nonneg (by omega) (by omega)
    · have hle : (l.ncg : ℤ) * ((l.dblkno : ℤ) - (18 : ℕ)) ≤ 9 * ((l.dblkno : ℤ) - (18 : ℕ)) :=
        Int.mul_le_mul_of_nonneg_right (by omega) (by omega)
      omega
  rw [hsmall, zero_mul, mul_eq_zero, t.ddblkno, t.sblkno] at hwrap
  omega

end Default

/-- The totals agree exactly if there is one group, or the product of the formula wraps around by
what it gets wrong. Without options, on media below 128 TiB, this means: below 12321 blocks. -/
theorem free_totals_agree_iff {o : MkfsOptions} {mediasize : ℕ} {l : MkfsLayout}
    (h : Completes .whole o mediasize l) :
    (l.nbfree = ∑ c ∈ range l.ncg, (initcg .whole l c : ℤ) ↔ Balanced l) ∧
      (o = defaultOptions → mediasize < 2 ^ 47 - 2 ^ 20 →
        (l.nbfree = ∑ c ∈ range l.ncg, (initcg .whole l c : ℤ) ↔ mediasize < 12321 * 4096)) := by
  refine ⟨h.totals.balanced_iff, ?_⟩
  rintro rfl hmax
  obtain ⟨fragsperinode, fpg₁, fpg, ipg, rfl, c⟩ := h.choice hmax
  have hsize : (layoutOf .whole mediasize fpg ipg).size = mediasize / 4096 := size_whole mediasize
  have hdedup : (layoutOf .whole mediasize fpg ipg).dedupfrags =
      ((mediasize / 8 + 4095) / 4096 : ℕ) := by
    simp only [layoutOf]
    exact c.dedupfrags
  rw [h.totals.balanced_iff, ← c.one_group_iff, ← hsize]
  constructor
  · intro hbalanced
    by_contra hmore
    exact h.totals.not_balanced (by omega) (by omega) (Nat.lt_of_not_le hmore) hbalanced
  · exact h.totals.balanced_one (by omega)

/-- On a medium of 43 blocks there is one group. -/
theorem free_totals_agree_iff_small :
    let l := layoutOf .whole (43 * 4096) 44 32
    (l.nbfree = ∑ c ∈ range l.ncg, (initcg .whole l c : ℤ) ↔ Balanced l) ∧
      (l.nbfree = ∑ c ∈ range l.ncg, (initcg .whole l c : ℤ) ↔ 43 * 4096 < 12321 * 4096) := by
  obtain ⟨hbalanced, hsmall⟩ := free_totals_agree_iff completes_small
  exact ⟨hbalanced, hsmall rfl (by decide)⟩

/-- A medium of 86240 blocks has seven groups. -/
theorem completes_seven : Completes .whole defaultOptions (86240 * 4096)
    (layoutOf .whole (86240 * 4096) 12320 6160) := by
  obtain ⟨ipg', hadvance⟩ : ∃ ipg', packLoop .whole (Geometry.whole.size (86240 * 4096))
      defaultOptions.maxblkspercg 2 (2 + (1179 + 1)) 11141 5584 =
        packLoop .whole (Geometry.whole.size (86240 * 4096)) defaultOptions.maxblkspercg 2 2
          (11141 + (1179 + 1) * Geometry.whole.frag) ipg' := by
    apply packLoop_advance
    all_goals decide +kernel
  have hstop : packLoop .whole (Geometry.whole.size (86240 * 4096)) defaultOptions.maxblkspercg 2 2
      12321 ipg' = some (12320, 6160) := by
    rw [packLoop, if_pos (by decide +kernel)]
    rw [if_neg (by decide +kernel), if_neg (by decide +kernel), if_neg (by decide +kernel)]
    decide +kernel
  refine completes_iff.mpr ⟨by decide +kernel, 1182, 2, 11141, 5584, 12320, 6160, 12320, 6160, ?_,
    hadvance.trans hstop, ?_, rfl, ?_, ?_, ?_⟩
  · decide +kernel
  · decide +kernel
  · decide +kernel
  · decide +kernel
  · rw [initcg_zero]
    decide +kernel

theorem free_totals_agree_fails : ¬∀ mediasize l, Completes .whole defaultOptions mediasize l →
    l.nbfree = ∑ c ∈ range l.ncg, (initcg .whole l c : ℤ) := by
  intro hall
  have ht := completes_seven.totals
  refine ht.not_balanced ?_ ?_ ?_ (ht.balanced_iff.mp (hall _ _ completes_seven))
  all_goals decide +kernel

end EmbeddedOs.Ddfs
