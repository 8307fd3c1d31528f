import EmbeddedOs.Kvfs.Format
import Mathlib.Algebra.Order.Ring.Int

/-!
# Formatting and mounting agree

The search of `init_superblock` for the number of blocks, the writes of `mkkvfs` one region
after the other, and what `kvfs_mount` makes of the result. The search stops either at an exact
fit or behind the end of the device, and in the latter case the writes cannot all succeed.
-/

namespace EmbeddedOs.Kvfs

open Lib.Bytes

/-! ## The search -/

/-- `CEIL` of numbers of type `off_t`, whose division truncates. -/
def ceilSigned (a b : ℤ) : ℤ := (a + b - 1).tdiv b

/-- `PAD` of a number of type `off_t`. -/
def padSigned (bc : ℤ) : ℤ := ceilSigned bc 4096 * 4096

/-- `PAD` of a multiple of `sizeof(struct kvfs_inode)`, which is a number of type `size_t`. -/
def padUnsigned (bc : ℤ) : ℤ := (bc + 4096 - 1) % 2 ^ 64 / 4096 * 4096

/-- The `sum` that the search computes for a number of blocks: the sum is of type `size_t`, and
is stored as an `off_t`. -/
def layoutSum (blocks : ℤ) : ℤ :=
  (4096 + blocks * 4096 + padUnsigned (blocks * 32) + padSigned (ceilSigned blocks 8)).bmod
    (2 ^ 64)

/-- The variables of `init_superblock` when its loop ends. -/
structure Sizes where
  /-- `blocks`. -/
  blocks : ℤ
  /-- `inode_count`. -/
  inodeCount : ℤ
  /-- `free_bitmap`. -/
  freeBitmap : ℤ
  /-- `sum`. -/
  sum : ℤ

/-- The loop of `init_superblock`, for at most `fuel` rounds. Where it does not end with an
exact fit, `blocks` has changed since the other variables were set. -/
def searchBlocks (disksize : ℤ) : ℕ → ℤ → ℤ → Option Sizes
  | 0, _, _ => none
  | fuel + 1, blocks, delta =>
    let inodeCount := blocks
    let freeBitmap := ceilSigned blocks 8
    let sum := layoutSum blocks
    if disksize - sum = 0 then some ⟨blocks, inodeCount, freeBitmap, sum⟩
    else if sum > disksize then
      if delta.tdiv 2 < 1 then some ⟨blocks - delta, inodeCount, freeBitmap, sum⟩
      else searchBlocks disksize fuel (blocks - delta) (delta.tdiv 2)
    else if delta < 1 then some ⟨blocks + delta, inodeCount, freeBitmap, sum⟩
    else searchBlocks disksize fuel (blocks + delta) delta

/-- The end of `init_superblock`. -/
def Sizes.superblock (sizes : Sizes) : Superblock :=
  let freelistOff := 4096
  let inodeOff := padSigned sizes.freeBitmap + freelistOff
  let dataOff := padUnsigned (sizes.inodeCount * 32) + inodeOff
  { magicnum := kvfsSuperblockMagic
    superblockSize := 48
    freelistOff := UInt64.ofInt freelistOff
    inodeOff := UInt64.ofInt inodeOff
    dataOff := UInt64.ofInt dataOff
    blockCount := UInt32.ofInt sizes.blocks
    flags := 0
    fsSize := UInt64.ofInt sizes.sum }

/-- `init_superblock` for a device of `disksize` bytes. -/
def searchSuperblock (fuel disksize : ℕ) : Option Superblock :=
  let blocks := ((disksize - 4096 : ℤ).tdiv 4096).tdiv 2
  let delta := (disksize : ℤ).tdiv 16
  (searchBlocks disksize fuel blocks delta).map Sizes.superblock

/-! ## The sizes of a layout -/

/-- The number of bytes of a layout with `n` blocks. -/
def layoutSize (n : ℕ) : ℕ := 4096 + n * 4096 + pad (n * 32) + pad (ceil n 8)

theorem ceilSigned_natCast (a : ℕ) {b : ℕ} (hb : 0 < b) : ceilSigned a b = (ceil a b : ℕ) := by
  unfold ceilSigned ceil
  rw [Int.tdiv_eq_ediv_of_nonneg (by omega), Int.natCast_div]
  congr 1
  omega

/-- A quotient of a number that is not positive lies between the number and zero. -/
theorem ceilSigned_bounds {a b : ℤ} (ha : a ≤ 0) (hb : 0 < b) :
    a ≤ ceilSigned a b ∧ ceilSigned a b ≤ 0 := by
  unfold ceilSigned
  by_cases hsign : 0 ≤ a + b - 1
  · rw [Int.tdiv_eq_ediv_of_nonneg hsign, Int.ediv_eq_zero_of_lt hsign (by omega)]
    exact ⟨ha, le_rfl⟩
  · have hneg : a + b - 1 = -(-(a + b - 1)) := by omega
    have hle : -(a + b - 1) / b ≤ -(a + b - 1) := Int.ediv_le_self _ (by omega)
    have hnonneg : 0 ≤ -(a + b - 1) / b := Int.ediv_nonneg (by omega) hb.le
    rw [hneg, Int.neg_tdiv, Int.tdiv_eq_ediv_of_nonneg (by omega)]
    omega

theorem padSigned_natCast (bc : ℕ) : padSigned bc = (pad bc : ℕ) := by
  unfold padSigned pad
  have hceil := ceilSigned_natCast bc (b := 4096) (by decide)
  push_cast at hceil ⊢
  rw [hceil]

theorem padUnsigned_natCast {bc : ℕ} (h : bc < 2 ^ 63) : padUnsigned bc = (pad bc : ℕ) := by
  simp only [padUnsigned, pad, ceil]
  omega

theorem pad_le (bc : ℕ) : bc ≤ pad bc ∧ pad bc ≤ bc + 4095 := by
  simp only [pad, ceil]
  omega

theorem ceil_eight_le (n : ℕ) : ceil n 8 ≤ n + 7 := by
  simp only [ceil]
  omega

/-- The sum for a number of blocks that is not negative. -/
theorem layoutSum_natCast {n : ℕ} (h : n < 2 ^ 46) : layoutSum n = layoutSize n := by
  have hceil := ceilSigned_natCast n (b := 8) (by decide)
  have hinodes : padUnsigned ((n * 32 : ℕ) : ℤ) = pad (n * 32) := padUnsigned_natCast (by omega)
  have hpad := pad_le (n * 32)
  have hpad' := pad_le (ceil n 8)
  have hle := ceil_eight_le n
  push_cast at hceil hinodes
  unfold layoutSum layoutSize
  rw [hceil, padSigned_natCast, hinodes, Int.bmod_eq_of_le (by omega) (by omega)]
  push_cast
  rfl

/-- The sum for a negative number of blocks is not positive. -/
theorem layoutSum_nonpos {b : ℤ} (hb : b < 0) (hlow : -2 ^ 46 < b) : layoutSum b ≤ 0 := by
  have hbitmap := ceilSigned_bounds hb.le (b := 8) (by decide)
  have hpad := ceilSigned_bounds hbitmap.2 (b := 4096) (by decide)
  have hinodes : padUnsigned (b * 32) = (b * 32 + 4095) / 4096 * 4096 ∨
      padUnsigned (b * 32) = (b * 32 + 4095) / 4096 * 4096 + 2 ^ 64 := by
    unfold padUnsigned
    omega
  unfold layoutSum padSigned
  rcases hinodes with hinodes | hinodes
  · rw [hinodes, Int.bmod_eq_of_le (by omega) (by omega)]
    omega
  · have hwrap : 4096 + b * 4096 + ((b * 32 + 4095) / 4096 * 4096 + 2 ^ 64) +
        ceilSigned (ceilSigned b 8) 4096 * 4096 =
          4096 + b * 4096 + (b * 32 + 4095) / 4096 * 4096 +
            ceilSigned (ceilSigned b 8) 4096 * 4096 + (2 ^ 64 : ℕ) := by omega
    rw [hinodes, hwrap, Int.add_bmod_right, Int.bmod_eq_of_le (by omega) (by omega)]
    omega

theorem layoutSize_mono {m n : ℕ} (h : m ≤ n) : layoutSize m ≤ layoutSize n := by
  simp only [layoutSize, pad, ceil]
  omega

/-- A larger layout has more blocks. -/
theorem le_of_layoutSize_le {m n : ℕ} (h : layoutSize n ≤ layoutSize m) : n ≤ m := by
  simp only [layoutSize, pad, ceil] at h
  omega

/-! ## Where the search ends -/

/-- What holds of the guess and of the step of the search on a device of `D` bytes. The step is
only zero in the first round, on a device that cannot hold a superblock. -/
structure SearchInv (D : ℕ) (blocks delta : ℤ) : Prop where
  /-- The guess is not far below zero. -/
  low : -(D : ℤ) ≤ blocks
  /-- The guess is not far behind the end. -/
  high : blocks ≤ 2 * D
  /-- The step is not negative. -/
  nonneg : 0 ≤ delta
  /-- The step is not large. -/
  le : delta ≤ D
  /-- The search makes progress. -/
  start : 1 ≤ delta ∨ blocks = 0 ∧ D < 4096

variable {D : ℕ} {b δ : ℤ}

/-- The first guess. -/
theorem initialBlocks (D : ℕ) :
    ((D - 4096 : ℤ).tdiv 4096).tdiv 2 = ((D - 4096 : ℕ) : ℤ) / 4096 / 2 := by
  by_cases hsmall : D ≤ 4096
  · have hneg : (D - 4096 : ℤ) = -((4096 - D : ℕ) : ℤ) := by omega
    have hquot : (((4096 - D : ℕ) : ℤ).tdiv 4096).tdiv 2 = ((4096 - D : ℕ) : ℤ) / 4096 / 2 := by
      have hdiv : ((4096 - D : ℕ) : ℤ).tdiv 4096 = ((4096 - D : ℕ) : ℤ) / 4096 :=
        Int.tdiv_eq_ediv_of_nonneg (by omega)
      rw [hdiv, Int.tdiv_eq_ediv_of_nonneg (by omega)]
    rw [hneg, Int.neg_tdiv, Int.neg_tdiv, hquot]
    omega
  · have hdiv : (D - 4096 : ℤ).tdiv 4096 = (D - 4096 : ℤ) / 4096 :=
      Int.tdiv_eq_ediv_of_nonneg (by omega)
    rw [hdiv, Int.tdiv_eq_ediv_of_nonneg (by omega)]
    omega

/-- The first step. -/
theorem initialDelta (D : ℕ) : (D : ℤ).tdiv 16 = D / 16 :=
  Int.tdiv_eq_ediv_of_nonneg (by omega)

theorem SearchInv.init (D : ℕ) :
    SearchInv D (((D - 4096 : ℤ).tdiv 4096).tdiv 2) ((D : ℤ).tdiv 16) := by
  rw [initialBlocks, initialDelta]
  constructor <;> omega

/-- A sum behind the end is that of a guess that is not negative. -/
theorem SearchInv.nonneg_of_lt (h : SearchInv D b δ) (hD : D < 2 ^ 45)
    (hsum : (D : ℤ) ≤ layoutSum b) : 0 ≤ b := by
  by_contra hneg
  have hle := layoutSum_nonpos (b := b) (by omega) (by have := h.low; omega)
  have hlow := h.low
  omega

/-- The sum of a guess that is not negative. -/
theorem SearchInv.layoutSum_eq (h : SearchInv D b δ) (hD : D < 2 ^ 45) (hb : 0 ≤ b) :
    layoutSum b = layoutSize b.toNat := by
  have hhigh := h.high
  have hsum := layoutSum_natCast (n := b.toNat) (by omega)
  rwa [Int.toNat_of_nonneg hb] at hsum

/-- The guess after an overshoot. -/
theorem SearchInv.over (h : SearchInv D b δ) (hb : 0 ≤ b) (hδ : ¬ δ.tdiv 2 < 1) :
    SearchInv D (b - δ) (δ.tdiv 2) := by
  obtain ⟨hlow, hhigh, hnonneg, hle, -⟩ := h
  rw [Int.tdiv_eq_ediv_of_nonneg hnonneg] at hδ ⊢
  constructor <;> omega

/-- A guess that is too low is less than the size of the device, and the step is positive. -/
theorem SearchInv.lt_of_under (h : SearchInv D b δ) (hD : D < 2 ^ 45) (hsum : layoutSum b < D) :
    b < D ∧ 1 ≤ δ := by
  by_cases hb : 0 ≤ b
  · have hsize := h.layoutSum_eq hD hb
    unfold layoutSize at hsize
    have hstart := h.start
    omega
  · have hstart := h.start
    omega

/-- The guess after an undershoot. -/
theorem SearchInv.under (h : SearchInv D b δ) (hD : D < 2 ^ 45) (hsum : layoutSum b < D) :
    SearchInv D (b + δ) δ := by
  obtain ⟨hlt, hδ⟩ := h.lt_of_under hD hsum
  obtain ⟨hlow, hhigh, hnonneg, hle, -⟩ := h
  constructor <;> omega

/-- The search ends. -/
theorem exists_searchBlocks {b δ : ℤ} (hD : D < 2 ^ 45) (h : SearchInv D b δ) :
    ∃ fuel sizes, searchBlocks D fuel b δ = some sizes := by
  by_cases hexact : (D : ℤ) - layoutSum b = 0
  · exact ⟨1, _, by rw [searchBlocks, if_pos hexact]⟩
  by_cases hover : layoutSum b > D
  · by_cases hend : δ.tdiv 2 < 1
    · exact ⟨1, _, by rw [searchBlocks, if_neg hexact, if_pos hover, if_pos hend]⟩
    · have hnext := h.over (h.nonneg_of_lt hD (by omega)) hend
      have hhalf : (δ.tdiv 2).toNat < δ.toNat := by
        have hnonneg := h.nonneg
        rw [Int.tdiv_eq_ediv_of_nonneg hnonneg] at hend ⊢
        omega
      obtain ⟨fuel, sizes, hsizes⟩ := exists_searchBlocks hD hnext
      refine ⟨fuel + 1, sizes, ?_⟩
      rw [searchBlocks, if_neg hexact, if_pos hover, if_neg hend]
      exact hsizes
  · obtain ⟨hlt, hδ⟩ := h.lt_of_under hD (by omega)
    obtain ⟨fuel, sizes, hsizes⟩ := exists_searchBlocks hD (h.under hD (by omega))
    refine ⟨fuel + 1, sizes, ?_⟩
    rw [searchBlocks, if_neg hexact, if_neg hover, if_neg (by omega)]
    exact hsizes
termination_by (δ.toNat, (D - b).toNat)

/-- The search for the superblock ends. -/
theorem exists_superblock (hD : D < 2 ^ 45) :
    ∃ fuel sb, searchSuperblock fuel D = some sb := by
  obtain ⟨fuel, sizes, hsearch⟩ := exists_searchBlocks hD (SearchInv.init D)
  refine ⟨fuel, sizes.superblock, ?_⟩
  rw [searchSuperblock, hsearch]
  rfl

/-- The search stops at the guess `b` with the step `δ`: the guess fits, or it is too high and
the step cannot be halved. -/
structure Sizes.StopsAt (sizes : Sizes) (D : ℕ) (b δ : ℤ) : Prop where
  /-- The number of inodes. -/
  inodeCount : sizes.inodeCount = b
  /-- The bitmap. -/
  freeBitmap : sizes.freeBitmap = ceilSigned b 8
  /-- The sum. -/
  sum : sizes.sum = layoutSum b
  /-- The two ways to stop. -/
  fit : layoutSum b = D ∧ sizes.blocks = b ∨
    (D : ℤ) < layoutSum b ∧ δ ≤ 1 ∧ sizes.blocks = b - δ

/-- The rule of the loop: a property of the guess and the step that an overshoot and an undershoot
keep is one of the guess at which the search stops. -/
theorem searchBlocks_rule {P : ℤ → ℤ → Prop} {fuel : ℕ} {sizes : Sizes} (hD : D < 2 ^ 45)
    (hkeepOver : ∀ b δ, SearchInv D b δ → P b δ → 0 ≤ b → (D : ℤ) < layoutSum b → 2 ≤ δ →
      P (b - δ) (δ / 2))
    (hkeepUnder : ∀ b δ, SearchInv D b δ → P b δ → layoutSum b < D → 1 ≤ δ → P (b + δ) δ)
    (h : SearchInv D b δ) (hP : P b δ) (hsearch : searchBlocks D fuel b δ = some sizes) :
    ∃ b δ, SearchInv D b δ ∧ P b δ ∧ 0 ≤ b ∧ sizes.StopsAt D b δ := by
  induction fuel generalizing b δ with
  | zero => cases hsearch
  | succ fuel ih =>
    rw [searchBlocks] at hsearch
    by_cases hexact : (D : ℤ) - layoutSum b = 0
    · rw [if_pos hexact, Option.some.injEq] at hsearch
      subst hsearch
      exact ⟨b, δ, h, hP, h.nonneg_of_lt hD (by omega), rfl, rfl, rfl, Or.inl ⟨by omega, rfl⟩⟩
    rw [if_neg hexact] at hsearch
    by_cases hover : layoutSum b > D
    · have hb := h.nonneg_of_lt hD hover.le
      have hhalf : δ.tdiv 2 = δ / 2 := Int.tdiv_eq_ediv_of_nonneg h.nonneg
      rw [if_pos hover] at hsearch
      by_cases hend : δ.tdiv 2 < 1
      · rw [if_pos hend, Option.some.injEq] at hsearch
        subst hsearch
        exact ⟨b, δ, h, hP, hb, rfl, rfl, rfl, Or.inr ⟨hover, by omega, rfl⟩⟩
      · have hkept := hkeepOver b δ h hP hb hover (by omega)
        rw [if_neg hend] at hsearch
        exact ih (h.over hb hend) (hhalf ▸ hkept) hsearch
    · have hδ := (h.lt_of_under hD (by omega)).2
      rw [if_neg hover, if_neg (by omega)] at hsearch
      exact ih (h.under hD (by omega)) (hkeepUnder b δ h hP (by omega) hδ) hsearch

/-- The search ends with the sizes for `n` blocks: either they fit exactly, or they reach behind
the end of the device. -/
structure Sizes.Ends (sizes : Sizes) (D n : ℕ) : Prop where
  /-- The number of inodes. -/
  inodeCount : sizes.inodeCount = n
  /-- The bitmap. -/
  freeBitmap : sizes.freeBitmap = (ceil n 8 : ℕ)
  /-- The sum. -/
  sum : sizes.sum = layoutSize n
  /-- The two ways to end. -/
  fit : sizes.blocks = n ∧ layoutSize n = D ∨ D < layoutSize n
  /-- The numbers are far from those that overflow. -/
  le : n ≤ 2 * D

theorem searchBlocks_ends {fuel : ℕ} {sizes : Sizes} (hD : D < 2 ^ 45) (h : SearchInv D b δ)
    (hsearch : searchBlocks D fuel b δ = some sizes) : ∃ n, sizes.Ends D n := by
  obtain ⟨b, δ, hinv, -, hb, hstops⟩ := searchBlocks_rule (P := fun _ _ => True) hD
    (fun _ _ _ _ _ _ _ => trivial) (fun _ _ _ _ _ _ => trivial) h trivial hsearch
  have hsize := hinv.layoutSum_eq hD hb
  have hhigh := hinv.high
  have hnat := Int.toNat_of_nonneg hb
  have hbitmap := ceilSigned_natCast b.toNat (b := 8) (by decide)
  push_cast [hnat] at hbitmap
  refine ⟨b.toNat, hstops.inodeCount.trans hnat.symm, hstops.freeBitmap.trans hbitmap,
    hstops.sum.trans hsize, ?_, by omega⟩
  rcases hstops.fit with ⟨hexact, hblocks⟩ | ⟨hover, -⟩
  · exact Or.inl ⟨hblocks.trans hnat.symm, by omega⟩
  · exact Or.inr (by omega)

/-- The search finds every exact fit. Between two overshoots the guess stays within two steps
of the fit, and an overshoot is by less than a step. -/
theorem searchBlocks_finds {fuel n : ℕ} {sizes : Sizes} (hD : D < 2 ^ 45) (h : SearchInv D b δ)
    (hfit : layoutSize n = D) (hnear : b ≤ n ∧ n ≤ b + 2 * δ + 1 ∨ n < b ∧ b < n + δ)
    (hsearch : searchBlocks D fuel b δ = some sizes) : sizes.sum = D := by
  have hlt_of_over : ∀ {b δ}, SearchInv D b δ → 0 ≤ b → (D : ℤ) < layoutSum b → n < b := by
    intro b δ hinv hb hover
    by_contra hle
    have hsize := hinv.layoutSum_eq hD hb
    have hmono : layoutSize b.toNat ≤ layoutSize n := layoutSize_mono (by omega)
    omega
  have hlt_of_under : ∀ {b δ}, SearchInv D b δ → layoutSum b < D → b < n := by
    intro b δ hinv hunder
    by_contra hle
    have hsize := hinv.layoutSum_eq hD (by omega)
    have hmono : layoutSize n ≤ layoutSize b.toNat := layoutSize_mono (by omega)
    omega
  obtain ⟨b, δ, hinv, hnear, hb, hstops⟩ := searchBlocks_rule
    (P := fun b δ => b ≤ n ∧ n ≤ b + 2 * δ + 1 ∨ n < b ∧ b < n + δ) hD
    (fun b δ hinv hnear hb hover hδ => by
      have hlt := hlt_of_over hinv hb hover
      omega)
    (fun b δ hinv hnear hunder hδ => by
      have hlt := hlt_of_under hinv hunder
      omega) h hnear hsearch
  rw [hstops.sum]
  rcases hstops.fit with ⟨hexact, -⟩ | ⟨hover, hδ, -⟩
  · exact hexact
  · have hlt := hlt_of_over hinv hb hover
    omega

theorem toNat_ofInt_natCast {m : ℕ} (h : m < 2 ^ 64) : (UInt64.ofInt m).toNat = m := by
  simp only [UInt64.ofInt, UInt64.toNat_ofNat']
  omega

/-- The superblock has the offsets of the layout with `n` blocks. -/
structure Superblock.Placed (sb : Superblock) (n : ℕ) : Prop where
  /-- The bitmap is behind the superblock. -/
  freelistOff : sb.freelistOff.toNat = 4096
  /-- The inodes. -/
  inodeOff : sb.inodeOff.toNat = (formattedMount n).inodeOff
  /-- The data. -/
  dataOff : sb.dataOff.toNat = (formattedMount n).dataOff
  /-- The end. -/
  fsSize : sb.fsSize.toNat = layoutSize n

variable {n : ℕ} {sizes : Sizes}

theorem Sizes.Ends.placed (h : sizes.Ends D n) (hD : D < 2 ^ 45) : sizes.superblock.Placed n := by
  have hle := h.le
  have hinodes := pad_le (n * 32)
  have hbitmap := pad_le (ceil n 8)
  have hceil := ceil_eight_le n
  have hinodeOff : padSigned sizes.freeBitmap + 4096 = (pad (ceil n 8) + 4096 : ℕ) := by
    rw [h.freeBitmap, padSigned_natCast]
    rfl
  have hdataOff : padUnsigned (sizes.inodeCount * 32) + (padSigned sizes.freeBitmap + 4096) =
      (pad (n * 32) + (pad (ceil n 8) + 4096) : ℕ) := by
    have htable : padUnsigned ((n * 32 : ℕ) : ℤ) = pad (n * 32) := padUnsigned_natCast (by omega)
    push_cast at htable
    rw [hinodeOff, h.inodeCount, htable]
    rfl
  constructor
  · rfl
  · simp only [Sizes.superblock, hinodeOff]
    exact toNat_ofInt_natCast (by omega)
  · simp only [Sizes.superblock, hdataOff]
    exact toNat_ofInt_natCast (by omega)
  · simp only [Sizes.superblock, h.sum]
    exact toNat_ofInt_natCast (by unfold layoutSize; omega)

theorem placed_initSuperblock (hn : n < 2 ^ 32) : (initSuperblock n).Placed n := by
  obtain ⟨hfree, hinode, hdata, hsize⟩ := initSuperblock_offsets hn
  refine ⟨hfree, hinode, hdata, ?_⟩
  rw [hsize, layoutSize]
  simp only [formattedMount]
  omega

/-- A search that ends with an exact fit makes the superblock of the layout. -/
theorem Sizes.Ends.superblock_eq (h : sizes.Ends D n) (hD : D < 2 ^ 45) (hn : n < 2 ^ 32)
    (hfit : sizes.blocks = n) : sizes.superblock = initSuperblock n := by
  have hplaced := h.placed hD
  have hplaced' := placed_initSuperblock hn
  have hinodeOff : sizes.superblock.inodeOff = (initSuperblock n).inodeOff :=
    UInt64.toNat_inj.mp (hplaced.inodeOff.trans hplaced'.inodeOff.symm)
  have hdataOff : sizes.superblock.dataOff = (initSuperblock n).dataOff :=
    UInt64.toNat_inj.mp (hplaced.dataOff.trans hplaced'.dataOff.symm)
  have hfsSize : sizes.superblock.fsSize = (initSuperblock n).fsSize :=
    UInt64.toNat_inj.mp (hplaced.fsSize.trans hplaced'.fsSize.symm)
  have hblockCount : sizes.superblock.blockCount = (initSuperblock n).blockCount := by
    apply UInt32.toNat_inj.mp
    simp only [Sizes.superblock, initSuperblock, hfit, UInt32.ofInt, UInt32.toNat_ofNat']
    omega
  exact Superblock.ext rfl rfl rfl hinodeOff hdataOff hblockCount rfl hfsSize

/-- On a device that a layout fits exactly, `mkkvfs` writes the superblock of the layout. -/
theorem searchSuperblock_eq {fuel n : ℕ} {sb : Superblock} (hn : n < 2 ^ 32)
    (hsb : searchSuperblock fuel (layoutSize n) = some sb) : sb = initSuperblock n := by
  have hD : layoutSize n < 2 ^ 45 := by
    simp only [layoutSize, pad, ceil]
    omega
  obtain ⟨sizes, hsearch, rfl⟩ := Option.map_eq_some_iff.mp hsb
  have hnear : ((layoutSize n - 4096 : ℤ).tdiv 4096).tdiv 2 ≤ n ∧
      n ≤ ((layoutSize n - 4096 : ℤ).tdiv 4096).tdiv 2 + 2 * (layoutSize n : ℤ).tdiv 16 + 1 := by
    rw [initialBlocks, initialDelta]
    simp only [layoutSize, pad, ceil]
    omega
  have hsum := searchBlocks_finds hD (SearchInv.init _) rfl (Or.inl hnear) hsearch
  obtain ⟨m, hends⟩ := searchBlocks_ends hD (SearchInv.init _) hsearch
  rw [hends.sum, Int.natCast_inj] at hsum
  have hm : m = n := le_antisymm (le_of_layoutSize_le hsum.le) (le_of_layoutSize_le hsum.ge)
  subst hm
  rcases hends.fit with ⟨hblocks, -⟩ | hover
  · exact hends.superblock_eq hD hn hblocks
  · exact absurd hover (lt_irrefl _)

/-- The search ends on such a device. -/
theorem exists_searchSuperblock (hn : n < 2 ^ 32) :
    ∃ fuel, searchSuperblock fuel (layoutSize n) = some (initSuperblock n) := by
  have hD : layoutSize n < 2 ^ 45 := by
    simp only [layoutSize, pad, ceil]
    omega
  obtain ⟨fuel, sb, hsb⟩ := exists_superblock hD
  exact ⟨fuel, hsb.trans (congrArg some (searchSuperblock_eq hn hsb))⟩

/-! ## The writes, region by region -/

/-- The device behind the write of the superblock. -/
def writeSuperblock (sblock : Superblock) (disk : Disk) : Device :=
  writebuf ⟨0, disk⟩ (superblockBuf sblock)

/-- The device behind the writes of the bitmap. -/
def writeFreelist (sblock : Superblock) (disk : Disk) : Device :=
  (List.range (ceil (sblock.inodeOff.toNat - sblock.freelistOff.toNat) 4096)).foldl
    (fun fd _ => writebuf fd zeroBuf) (writeSuperblock sblock disk)

/-- The device behind the writes of the inodes. -/
def writeInodes (sblock : Superblock) (disk : Disk) : Device :=
  (List.range (ceil (sblock.dataOff.toNat - sblock.inodeOff.toNat) 32)).foldl
    (fun fd k => if (sblock.inodeOff.toNat + 32 * k) % 4096 = 0 then writebuf fd inodeBuf else fd)
    (writeFreelist sblock disk)

/-- The device behind the last write. -/
def writeData (sblock : Superblock) (disk : Disk) : Device :=
  (List.range (ceil (sblock.fsSize.toNat - sblock.dataOff.toNat) 4096)).foldl
    (fun fd _ => writebuf fd zeroBuf) (writeInodes sblock disk)

theorem disk_writeData (sblock : Superblock) (disk : Disk) :
    (writeData sblock disk).disk = mkkvfs sblock disk := by
  unfold mkkvfs writeData writeInodes writeFreelist writeSuperblock
  rfl

namespace Superblock.Placed

variable {sb : Superblock} (h : sb.Placed n) (disk : Disk)
include h

theorem pos_writeSuperblock : (writeSuperblock sb disk).pos = sb.freelistOff.toNat := by
  unfold writeSuperblock
  rw [pos_writebuf, length_superblockBuf, h.freelistOff]

theorem pos_writeFreelist : (writeFreelist sb disk).pos = sb.inodeOff.toNat := by
  have hlow := formattedMount_bitmap n
  have halign := formattedMount_inodeOff_mod n
  unfold writeFreelist
  rw [pos_zeros, h.pos_writeSuperblock, h.freelistOff, h.inodeOff]
  simp only [ceil]
  omega

theorem pos_writeInodes : (writeInodes sb disk).pos = sb.dataOff.toNat := by
  have hlow := formattedMount_table n
  have halign := formattedMount_inodeOff_mod n
  have halign' := formattedMount_dataOff_mod n
  unfold writeInodes
  rw [pos_inodes _ (by rw [h.inodeOff, halign]), h.pos_writeFreelist, h.inodeOff, h.dataOff]
  simp only [ceil]
  omega

theorem pos_writeData : (writeData sb disk).pos = layoutSize n := by
  have hsize : layoutSize n = (formattedMount n).dataOff + 4096 * n := by
    simp only [layoutSize, formattedMount]
    omega
  unfold writeData
  rw [pos_zeros, h.pos_writeInodes, h.dataOff, h.fsSize, hsize]
  simp only [ceil]
  omega

end Superblock.Placed

/-! ## The agreement -/

/-- The layout that `mkkvfs` writes is the one of its superblock, and `kvfs_mount` finds all
slots free. -/
structure FormatAgrees (sb : Superblock) (disk : Disk) : Prop where
  /-- The bitmap is written at `freelist_off`. -/
  freelistPos : (writeSuperblock sb disk).pos = sb.freelistOff.toNat
  /-- The inodes are written at `inode_off`. -/
  inodePos : (writeFreelist sb disk).pos = sb.inodeOff.toNat
  /-- The data is written at `data_off`. -/
  dataPos : (writeInodes sb disk).pos = sb.dataOff.toNat
  /-- The last write ends with the last block. -/
  endPos : (writeData sb disk).pos = sb.dataOff.toNat + 4096 * sb.blockCount.toNat
  /-- The bitmap is clear. -/
  freelist : ∀ o, sb.freelistOff.toNat ≤ o → o < sb.inodeOff.toNat → mkkvfs sb disk o = 0
  /-- Every inode is marked free. -/
  inode : ∀ idx < sb.blockCount.toNat,
    (Inode.ofBytes (get (mkkvfs sb disk) (sb.inodeOff.toNat + 32 * idx) 32)).flags = kvfsInodeFree
  /-- The data is zero. -/
  data : ∀ o, sb.dataOff.toNat ≤ o → o < sb.dataOff.toNat + 4096 * sb.blockCount.toNat →
    mkkvfs sb disk o = 0
  /-- The mount finds every slot once. -/
  mount : ∃ s, kvfsMount (mkkvfs sb disk) = .ok s ∧ s.freelist.Nodup ∧
    (∀ ino, ino ∈ s.freelist ↔ ∃ idx < sb.blockCount.toNat, ino = 32 * idx) ∧
    s.freelistCount = sb.blockCount

/-- The superblock of up to `2 ^ 31` blocks. -/
theorem formatAgrees_initSuperblock (hn : n ≤ 2 ^ 31) (disk : Disk) :
    FormatAgrees (initSuperblock n) disk := by
  have h := placed_initSuperblock (n := n) (by omega)
  have hcount : (initSuperblock n).blockCount.toNat = n := slots_formattedMount (by omega)
  have hformat := formatted_mkkvfs (n := n) (by omega) disk
  have hbyte := fun {o} ho => mkkvfs_apply (n := n) (by omega) disk (o := o) ho
  have hlow := formattedMount_bitmap n
  have htable := formattedMount_table n
  refine ⟨h.pos_writeSuperblock disk, h.pos_writeFreelist disk, h.pos_writeInodes disk, ?_, ?_,
    ?_, ?_, ?_⟩
  case refine_1 =>
    rw [h.pos_writeData, h.dataOff, hcount, layoutSize]
    simp only [formattedMount]
    omega
  case refine_2 =>
    rw [h.freelistOff, h.inodeOff]
    intro o hle hlt
    rw [hbyte (by omega), formattedByte, if_neg (by omega), if_neg (by omega)]
  case refine_3 =>
    rw [hcount, h.inodeOff]
    intro idx hidx
    have hinode := hformat.inode idx hidx
    unfold KvfsMount.inodeAt at hinode
    rw [hinode]
    rfl
  case refine_4 =>
    rw [hcount, h.dataOff]
    intro o hle hlt
    rw [hbyte hlt, formattedByte, if_neg (by omega), if_neg (by omega)]
  case refine_5 =>
    refine ⟨_, kvfsMount_eq hn hformat.superblock, nodup_freelist_mountState, ?_, ?_⟩
    · rw [hcount, hformat.freelist_mountState]
      simp [eq_comm]
    · apply UInt32.toNat_inj.mp
      rw [freelistCount_mountState hn, hcount, hformat.freelist_mountState]
      simp

/-- Formatting and mounting agree on every device of at most the size of `2 ^ 31` blocks, which
is twice what `kvfs.h` promises. The search ends, and where all writes succeed, the regions
are those of the superblock and the mount finds all slots free. -/
theorem format_mount_agree (hD : D ≤ layoutSize (2 ^ 31)) :
    (∃ fuel sb, searchSuperblock fuel D = some sb) ∧
      ∀ fuel sb disk, searchSuperblock fuel D = some sb → (writeData sb disk).pos ≤ D →
        FormatAgrees sb disk := by
  have hD' : D < 2 ^ 45 := hD.trans_lt (by decide)
  constructor
  · exact exists_superblock hD'
  · intro fuel sb disk hsb hpos
    obtain ⟨sizes, hsearch, rfl⟩ := Option.map_eq_some_iff.mp hsb
    obtain ⟨n, hends⟩ := searchBlocks_ends hD' (SearchInv.init D) hsearch
    have hplaced := hends.placed hD'
    rw [hplaced.pos_writeData] at hpos
    rcases hends.fit with ⟨hblocks, hsize⟩ | hover
    · have hn := le_of_layoutSize_le (hsize.trans_le hD)
      rw [hends.superblock_eq hD' (by omega) hblocks]
      exact formatAgrees_initSuperblock hn disk
    · omega

/-- On the smallest device with a block. -/
theorem format_mount_agree_one :
    (writeData (initSuperblock 1) fun _ => 0).pos = 16384 ∧
      FormatAgrees (initSuperblock 1) fun _ => 0 := by
  have hsize : layoutSize 1 = 16384 := by decide
  obtain ⟨fuel, hsearch⟩ := exists_searchSuperblock (n := 1) (by decide)
  have hpos : (writeData (initSuperblock 1) fun _ => 0).pos = 16384 := by
    rw [(placed_initSuperblock (by decide)).pos_writeData, hsize]
  rw [hsize] at hsearch
  exact ⟨hpos, (format_mount_agree (D := 16384) (by decide)).2 fuel _ _ hsearch hpos.le⟩

/-- The number of bytes of the bitmap overflows in the mount of `2 ^ 32 - 1` blocks. -/
theorem freelist_kvfsMount_overflow {d : Disk} {s : Fs} (hsb : HasSuperblock (2 ^ 32 - 1) d)
    (hs : kvfsMount d = .ok s) : s.freelist = [] := by
  have hsb' : Superblock.ofBytes (get d 0 48) = initSuperblock (2 ^ 32 - 1) := hsb
  have hbytes : ((initSuperblock (2 ^ 32 - 1)).blockCount + 7).toNat / 8 = 0 := by decide
  have hmagic : (initSuperblock (2 ^ 32 - 1)).magicnum = kvfsSuperblockMagic := rfl
  simp only [kvfsMount, hsb', hmagic, ne_eq, not_true_eq_false, if_false, hbytes, List.range_zero,
    List.foldl_nil, Except.ok.injEq] at hs
  rw [← hs]

/-- A device for `2 ^ 32 - 1` blocks is formatted, and `kvfs_mount` finds no free slot. -/
theorem format_mount_agree_fails :
    ¬ ∀ D fuel sb disk, searchSuperblock fuel D = some sb → (writeData sb disk).pos ≤ D →
      FormatAgrees sb disk := by
  intro hall
  have hn : 2 ^ 32 - 1 < 2 ^ 32 := by decide
  obtain ⟨fuel, hsearch⟩ := exists_searchSuperblock hn
  have hpos := (placed_initSuperblock hn).pos_writeData fun _ => 0
  have hagrees := hall _ fuel _ (fun _ => 0) hsearch hpos.le
  obtain ⟨s, hs, -, hmem, -⟩ := hagrees.mount
  have hnone := freelist_kvfsMount_overflow (formatted_mkkvfs hn _).superblock hs
  have hzero : 0 ∈ s.freelist := (hmem 0).mpr ⟨0, by decide, rfl⟩
  rw [hnone] at hzero
  cases hzero

end EmbeddedOs.Kvfs
