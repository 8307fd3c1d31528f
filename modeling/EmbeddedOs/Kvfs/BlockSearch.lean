import EmbeddedOs.Kvfs.Mkkvfs
import Mathlib.Order.Bounds.Defs

/-!
# What the search for the number of blocks finds

The guess that an overshoot goes back to is known to be too low, since it was tried before, or is
negative. So the last overshoot is by one block, and the number of blocks is the best one. The
sizes of the regions still are those of the last guess: they fit only if the search hits the size
of the device exactly.
-/

namespace EmbeddedOs.Kvfs

variable {D n : ℕ} {b δ : ℤ} {sizes : Sizes}

/-! ## The best number of blocks -/

/-- The guess, or the one before it, is too low. -/
def TooLow (D : ℕ) (b δ : ℤ) : Prop := layoutSum b < D ∨ layoutSum (b - δ) < D

/-- The first guess may be too high on a small device, and the first step leads below zero. -/
theorem tooLow_init (hD : D < 2 ^ 45) (hmin : 4096 ≤ D) :
    TooLow D (((D - 4096 : ℤ).tdiv 4096).tdiv 2) ((D : ℤ).tdiv 16) := by
  rw [initialBlocks, initialDelta]
  have hsum := layoutSum_nonpos (b := ((D - 4096 : ℕ) : ℤ) / 4096 / 2 - (D : ℤ) / 16) (by omega)
    (by omega)
  exact Or.inr (by omega)

/-- The search ends with a layout that the device holds, and one more block is too much. -/
theorem searchBlocks_best {fuel : ℕ} (hD : D < 2 ^ 45) (hmin : 4096 ≤ D) (h : SearchInv D b δ)
    (hlow : TooLow D b δ) (hsearch : searchBlocks D fuel b δ = some sizes) :
    ∃ n : ℕ, sizes.blocks = n ∧ layoutSize n ≤ D ∧ D < layoutSize (n + 1) := by
  obtain ⟨b, δ, hinv, hlow, hb, hstops⟩ := searchBlocks_rule (P := TooLow D) hD
    (fun b δ hinv hlow hb hover hδ => Or.inl (hlow.resolve_left (by omega)))
    (fun b δ hinv hlow hunder hδ => Or.inr (by rwa [Int.add_sub_cancel])) h hlow hsearch
  have hsize := hinv.layoutSum_eq hD hb
  rcases hstops.fit with ⟨hexact, hblocks⟩ | ⟨hover, hδ, hblocks⟩
  · have hmono : layoutSize b.toNat < layoutSize (b.toNat + 1) := by
      by_contra hle
      have hback := le_of_layoutSize_le (not_lt.mp hle)
      omega
    exact ⟨b.toNat, hblocks.trans (Int.toNat_of_nonneg hb).symm, by omega, by omega⟩
  · -- the step is one block
    have hback : layoutSum (b - δ) < D := hlow.resolve_left (by omega)
    have hnonneg := hinv.nonneg
    have hstart := hinv.start
    obtain rfl : δ = 1 := by omega
    have hpos : b ≠ 0 := by
      rintro rfl
      have hzero : layoutSize (0 : ℤ).toNat = 4096 := by decide
      omega
    have hhigh := hinv.high
    have hless := layoutSum_natCast (n := (b - 1).toNat) (by omega)
    have hnat : ((b - 1).toNat : ℤ) = b - 1 := Int.toNat_of_nonneg (by omega)
    have hsucc : (b - 1).toNat + 1 = b.toNat := by omega
    rw [hnat] at hless
    exact ⟨(b - 1).toNat, hblocks.trans hnat.symm, by omega, by rw [hsucc]; omega⟩

/-- The count of the superblock is that of the search. -/
theorem blockCount_superblock (hblocks : sizes.blocks = n) (hn : n < 2 ^ 32) :
    sizes.superblock.blockCount.toNat = n := by
  simp only [Sizes.superblock, hblocks, UInt32.ofInt, UInt32.toNat_ofNat']
  omega

/-- The search ends on every device of at least a block and at most 2⁴² bytes, and the number of
blocks is the largest one whose layout the device holds. -/
theorem search_best (hmin : 4096 ≤ D) (hmax : D ≤ 2 ^ 42) :
    (∃ fuel sb, searchSuperblock fuel D = some sb) ∧
      ∀ fuel sb, searchSuperblock fuel D = some sb →
        IsGreatest {b : ℕ | 4096 + 4096 * b + pad (32 * b) + pad (ceil b 8) ≤ D}
          sb.blockCount.toNat := by
  have hD : D < 2 ^ 45 := hmax.trans_lt (by decide)
  have hset : ∀ b, 4096 + 4096 * b + pad (32 * b) + pad (ceil b 8) = layoutSize b := by
    intro b
    rw [layoutSize, Nat.mul_comm 4096 b, Nat.mul_comm 32 b]
  constructor
  · exact exists_superblock hD
  · intro fuel sb hsb
    obtain ⟨sizes, hsearch, rfl⟩ := Option.map_eq_some_iff.mp hsb
    obtain ⟨n, hblocks, hfits, hmore⟩ :=
      searchBlocks_best hD hmin (SearchInv.init D) (tooLow_init hD hmin) hsearch
    have hn : n < 2 ^ 32 := by
      unfold layoutSize at hfits
      omega
    rw [blockCount_superblock hblocks hn]
    simp only [hset]
    refine ⟨hfits, fun m hm => ?_⟩
    by_contra hlt
    have hmono : layoutSize (n + 1) ≤ layoutSize m := layoutSize_mono (by omega)
    exact absurd (hmono.trans hm) (by omega)

/-- A device of 256 blocks has room for 252 blocks of data. -/
theorem search_best_mebibyte : ∃ fuel sb, searchSuperblock fuel 1048576 = some sb ∧
    IsGreatest {b : ℕ | 4096 + 4096 * b + pad (32 * b) + pad (ceil b 8) ≤ 1048576}
      sb.blockCount.toNat ∧ sb.blockCount.toNat = 252 := by
  have h := search_best (D := 1048576) (by decide) (by decide)
  obtain ⟨fuel, sb, hsb⟩ := h.1
  have hgreatest := h.2 fuel sb hsb
  have hle : 252 ≤ sb.blockCount.toNat := hgreatest.2 (by decide)
  have hfits := hgreatest.1
  simp only [Set.mem_ofPred_eq, pad, ceil] at hfits
  exact ⟨fuel, sb, hsb, hgreatest, by omega⟩

/-! ## The regions -/

/-- The layout of a superblock fits a device of `D` bytes. -/
structure Superblock.FitsDevice (sb : Superblock) (D : ℕ) : Prop where
  /-- The bitmap is before the inodes. -/
  bitmap : sb.freelistOff.toNat < sb.inodeOff.toNat
  /-- The inodes are before the data. -/
  inodes : sb.inodeOff.toNat < sb.dataOff.toNat
  /-- The bitmap has a bit for every block. -/
  bitmapHolds : sb.blockCount.toNat ≤ 8 * (sb.inodeOff.toNat - sb.freelistOff.toNat)
  /-- The table has an inode for every block. -/
  inodesHold : 32 * sb.blockCount.toNat ≤ sb.dataOff.toNat - sb.inodeOff.toNat
  /-- The data ends with the last block. -/
  data : sb.dataOff.toNat + 4096 * sb.blockCount.toNat = sb.fsSize.toNat
  /-- The end is on the device. -/
  fsSize : sb.fsSize.toNat ≤ D

/-- A layout of at least one block fits where it ends. -/
theorem fitsDevice_of_placed {sb : Superblock} (h : sb.Placed n)
    (hcount : sb.blockCount.toNat = n) (hpos : 0 < n) (hsize : layoutSize n ≤ D) :
    sb.FitsDevice D := by
  have hinodeOff := h.inodeOff
  have hdataOff := h.dataOff
  have hfsSize := h.fsSize
  simp only [formattedMount, layoutSize, pad, ceil] at hinodeOff hdataOff hfsSize hsize
  constructor
  · rw [h.freelistOff]
    omega
  · omega
  · rw [h.freelistOff, hcount]
    omega
  · omega
  · omega
  · omega

/-- On a device of at least four blocks and at most 2⁴² bytes the search ends, and the layout
fits if and only if the device has exactly the size of a layout. -/
theorem fitsDevice_iff (hmin : 4 * 4096 ≤ D) (hmax : D ≤ 2 ^ 42) :
    (∃ fuel sb, searchSuperblock fuel D = some sb) ∧
      ∀ fuel sb, searchSuperblock fuel D = some sb →
        (sb.FitsDevice D ↔ ∃ n, layoutSize n = D) := by
  have hD : D < 2 ^ 45 := hmax.trans_lt (by decide)
  constructor
  · exact exists_superblock hD
  · intro fuel sb hsb
    constructor
    · intro hfits
      obtain ⟨sizes, hsearch, rfl⟩ := Option.map_eq_some_iff.mp hsb
      obtain ⟨n, hends⟩ := searchBlocks_ends hD (SearchInv.init D) hsearch
      have hend := hfits.fsSize
      rw [(hends.placed hD).fsSize] at hend
      rcases hends.fit with ⟨-, hsize⟩ | hover
      · exact ⟨n, hsize⟩
      · omega
    · rintro ⟨n, rfl⟩
      have hn : n < 2 ^ 32 := by
        unfold layoutSize at hmax
        omega
      have hpos : 0 < n := by
        rcases Nat.eq_zero_or_pos n with rfl | hpos
        · exact absurd hmin (by decide)
        · exact hpos
      rw [searchSuperblock_eq hn hsb]
      exact fitsDevice_of_placed (placed_initSuperblock hn) (slots_formattedMount hn) hpos le_rfl

/-- The smallest device with a block. -/
theorem fitsDevice_iff_one : ∃ fuel sb, searchSuperblock fuel 16384 = some sb ∧
    (sb.FitsDevice 16384 ↔ ∃ n, layoutSize n = 16384) := by
  have h := fitsDevice_iff (D := 16384) (by decide) (by decide)
  obtain ⟨fuel, sb, hsb⟩ := h.1
  exact ⟨fuel, sb, hsb, h.2 fuel sb hsb⟩

/-- A device of 33 sectors has the size of no layout. -/
theorem fitsDevice_fails : ¬∀ D, 4 * 4096 ≤ D → D ≤ 2 ^ 42 → D % 512 = 0 →
    ∀ fuel sb, searchSuperblock fuel D = some sb → sb.FitsDevice D := by
  intro hall
  obtain ⟨fuel, sb, hsb⟩ := exists_superblock (D := 16896) (by decide)
  obtain ⟨sizes, hsearch, rfl⟩ := Option.map_eq_some_iff.mp hsb
  have hend := (hall 16896 (by decide) (by decide) (by decide) fuel _ hsb).fsSize
  obtain ⟨n, hends⟩ := searchBlocks_ends (by decide) (SearchInv.init 16896) hsearch
  rw [(hends.placed (by decide)).fsSize] at hend
  rcases hends.fit with ⟨-, hsize⟩ | hover
  · simp only [layoutSize, pad, ceil] at hsize
    omega
  · omega

end EmbeddedOs.Kvfs
