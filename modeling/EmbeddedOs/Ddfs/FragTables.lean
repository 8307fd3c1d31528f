import EmbeddedOs.Ddfs.BlockMap
import EmbeddedOs.Lib.BitRuns
import Mathlib.Algebra.Ring.Int.Defs

/-!
# The tables for fragments

The tables of `ddfs_tables.c` that tell from a byte of the free map which sizes of fragments
it has, and `ffs_fragacct`, which counts the fragments of a block by their size. A fragment of
a size is a maximal run of free fragments of that length within one block.
-/

namespace EmbeddedOs.Ddfs

open Lib BitRuns

/-- `fragtbl124`: the sizes for blocks of 1, 2 and 4 fragments. -/
def fragtbl124 : List ℕ :=
  [
    0x00, 0x16, 0x16, 0x2a, 0x16, 0x16, 0x26, 0x4e, 0x16, 0x16, 0x16, 0x3e, 0x2a, 0x3e, 0x4e, 0x8a,
    0x16, 0x16, 0x16, 0x3e, 0x16, 0x16, 0x36, 0x5e, 0x16, 0x16, 0x16, 0x3e, 0x3e, 0x3e, 0x5e, 0x9e,
    0x16, 0x16, 0x16, 0x3e, 0x16, 0x16, 0x36, 0x5e, 0x16, 0x16, 0x16, 0x3e, 0x3e, 0x3e, 0x5e, 0x9e,
    0x2a, 0x3e, 0x3e, 0x2a, 0x3e, 0x3e, 0x2e, 0x6e, 0x3e, 0x3e, 0x3e, 0x3e, 0x2a, 0x3e, 0x6e, 0xaa,
    0x16, 0x16, 0x16, 0x3e, 0x16, 0x16, 0x36, 0x5e, 0x16, 0x16, 0x16, 0x3e, 0x3e, 0x3e, 0x5e, 0x9e,
    0x16, 0x16, 0x16, 0x3e, 0x16, 0x16, 0x36, 0x5e, 0x16, 0x16, 0x16, 0x3e, 0x3e, 0x3e, 0x5e, 0x9e,
    0x26, 0x36, 0x36, 0x2e, 0x36, 0x36, 0x26, 0x6e, 0x36, 0x36, 0x36, 0x3e, 0x2e, 0x3e, 0x6e, 0xae,
    0x4e, 0x5e, 0x5e, 0x6e, 0x5e, 0x5e, 0x6e, 0x4e, 0x5e, 0x5e, 0x5e, 0x7e, 0x6e, 0x7e, 0x4e, 0xce,
    0x16, 0x16, 0x16, 0x3e, 0x16, 0x16, 0x36, 0x5e, 0x16, 0x16, 0x16, 0x3e, 0x3e, 0x3e, 0x5e, 0x9e,
    0x16, 0x16, 0x16, 0x3e, 0x16, 0x16, 0x36, 0x5e, 0x16, 0x16, 0x16, 0x3e, 0x3e, 0x3e, 0x5e, 0x9e,
    0x16, 0x16, 0x16, 0x3e, 0x16, 0x16, 0x36, 0x5e, 0x16, 0x16, 0x16, 0x3e, 0x3e, 0x3e, 0x5e, 0x9e,
    0x3e, 0x3e, 0x3e, 0x3e, 0x3e, 0x3e, 0x3e, 0x7e, 0x3e, 0x3e, 0x3e, 0x3e, 0x3e, 0x3e, 0x7e, 0xbe,
    0x2a, 0x3e, 0x3e, 0x2a, 0x3e, 0x3e, 0x2e, 0x6e, 0x3e, 0x3e, 0x3e, 0x3e, 0x2a, 0x3e, 0x6e, 0xaa,
    0x3e, 0x3e, 0x3e, 0x3e, 0x3e, 0x3e, 0x3e, 0x7e, 0x3e, 0x3e, 0x3e, 0x3e, 0x3e, 0x3e, 0x7e, 0xbe,
    0x4e, 0x5e, 0x5e, 0x6e, 0x5e, 0x5e, 0x6e, 0x4e, 0x5e, 0x5e, 0x5e, 0x7e, 0x6e, 0x7e, 0x4e, 0xce,
    0x8a, 0x9e, 0x9e, 0xaa, 0x9e, 0x9e, 0xae, 0xce, 0x9e, 0x9e, 0x9e, 0xbe, 0xaa, 0xbe, 0xce, 0x8a]

/-- `fragtbl8`: the sizes for blocks of 8 fragments. -/
def fragtbl8 : List ℕ :=
  [
    0x00, 0x01, 0x01, 0x02, 0x01, 0x01, 0x02, 0x04, 0x01, 0x01, 0x01, 0x03, 0x02, 0x03, 0x04, 0x08,
    0x01, 0x01, 0x01, 0x03, 0x01, 0x01, 0x03, 0x05, 0x02, 0x03, 0x03, 0x02, 0x04, 0x05, 0x08, 0x10,
    0x01, 0x01, 0x01, 0x03, 0x01, 0x01, 0x03, 0x05, 0x01, 0x01, 0x01, 0x03, 0x03, 0x03, 0x05, 0x09,
    0x02, 0x03, 0x03, 0x02, 0x03, 0x03, 0x02, 0x06, 0x04, 0x05, 0x05, 0x06, 0x08, 0x09, 0x10, 0x20,
    0x01, 0x01, 0x01, 0x03, 0x01, 0x01, 0x03, 0x05, 0x01, 0x01, 0x01, 0x03, 0x03, 0x03, 0x05, 0x09,
    0x01, 0x01, 0x01, 0x03, 0x01, 0x01, 0x03, 0x05, 0x03, 0x03, 0x03, 0x03, 0x05, 0x05, 0x09, 0x11,
    0x02, 0x03, 0x03, 0x02, 0x03, 0x03, 0x02, 0x06, 0x03, 0x03, 0x03, 0x03, 0x02, 0x03, 0x06, 0x0a,
    0x04, 0x05, 0x05, 0x06, 0x05, 0x05, 0x06, 0x04, 0x08, 0x09, 0x09, 0x0a, 0x10, 0x11, 0x20, 0x40,
    0x01, 0x01, 0x01, 0x03, 0x01, 0x01, 0x03, 0x05, 0x01, 0x01, 0x01, 0x03, 0x03, 0x03, 0x05, 0x09,
    0x01, 0x01, 0x01, 0x03, 0x01, 0x01, 0x03, 0x05, 0x03, 0x03, 0x03, 0x03, 0x05, 0x05, 0x09, 0x11,
    0x01, 0x01, 0x01, 0x03, 0x01, 0x01, 0x03, 0x05, 0x01, 0x01, 0x01, 0x03, 0x03, 0x03, 0x05, 0x09,
    0x03, 0x03, 0x03, 0x03, 0x03, 0x03, 0x03, 0x07, 0x05, 0x05, 0x05, 0x07, 0x09, 0x09, 0x11, 0x21,
    0x02, 0x03, 0x03, 0x02, 0x03, 0x03, 0x02, 0x06, 0x03, 0x03, 0x03, 0x03, 0x02, 0x03, 0x06, 0x0a,
    0x03, 0x03, 0x03, 0x03, 0x03, 0x03, 0x03, 0x07, 0x02, 0x03, 0x03, 0x02, 0x06, 0x07, 0x0a, 0x12,
    0x04, 0x05, 0x05, 0x06, 0x05, 0x05, 0x06, 0x04, 0x05, 0x05, 0x05, 0x07, 0x06, 0x07, 0x04, 0x0c,
    0x08, 0x09, 0x09, 0x0a, 0x09, 0x09, 0x0a, 0x0c, 0x10, 0x11, 0x11, 0x12, 0x20, 0x21, 0x40, 0x80]

/-- `fragtbl`; there is no table for another number of fragments. -/
def fragtbl (frag map : ℕ) : ℕ :=
  match frag with
  | 1 | 2 | 4 => fragtbl124.getD map 0
  | 8 => fragtbl8.getD map 0
  | _ => 0

/-- `around`: the place of a fragment, with a bit on each side. -/
def around (siz : ℕ) : ℕ :=
  [0x3, 0x7, 0xf, 0x1f, 0x3f, 0x7f, 0xff, 0x1ff, 0x3ff].getD siz 0

/-- `inside`: the fragment itself. -/
def inside (siz : ℕ) : ℕ :=
  [0x0, 0x2, 0x6, 0xe, 0x1e, 0x3e, 0x7e, 0xfe, 0x1fe].getD siz 0

/-- The loop of `ffs_fragacct` over the places for one size. The place goes up in each round, so
that `frag + 1 - siz` rounds are enough. -/
def fragScan (frag fragmap siz : ℕ) (cnt : ℤ) :
    ℕ → ℕ → ℕ → ℕ → (ℕ → ℤ) → ℕ → ℤ
  | 0, _, _, _, fraglist => fraglist
  | fuel + 1, pos, field, subfield, fraglist =>
    if pos ≤ frag then
      if fragmap &&& field = subfield then
        fragScan frag fragmap siz cnt fuel (pos + siz + 1) (field <<< siz <<< 1)
          (subfield <<< siz <<< 1) (Function.update fraglist siz (fraglist siz + cnt))
      else
        fragScan frag fragmap siz cnt fuel (pos + 1) (field <<< 1) (subfield <<< 1) fraglist
    else fraglist

/-- `ffs_fragacct`: add `cnt` to the counts of the fragments of a block. -/
def ffsFragacct (frag fragmap : ℕ) (fraglist : ℕ → ℤ) (cnt : ℤ) : ℕ → ℤ :=
  let inblk := fragtbl frag fragmap <<< 1
  (List.range' 1 (frag - 1)).foldl (fun fraglist siz =>
    if inblk &&& 1 <<< (siz + frag % 8) = 0 then fraglist
    else fragScan frag (fragmap <<< 1) siz cnt (frag + 1 - siz) siz (around siz) (inside siz)
      fraglist) fraglist

/-- The number of hits of `fragScan`. -/
def fragHits (frag fragmap siz : ℕ) : ℕ → ℕ → ℕ → ℕ → ℕ
  | 0, _, _, _ => 0
  | fuel + 1, pos, field, subfield =>
    if pos ≤ frag then
      if fragmap &&& field = subfield then
        fragHits frag fragmap siz fuel (pos + siz + 1) (field <<< siz <<< 1)
          (subfield <<< siz <<< 1) + 1
      else fragHits frag fragmap siz fuel (pos + 1) (field <<< 1) (subfield <<< 1)
    else 0

/-- The hits of `ffs_fragacct` for one size. -/
def fragCount (frag fragmap siz : ℕ) : ℕ :=
  if (fragtbl frag fragmap <<< 1) &&& 1 <<< (siz + frag % 8) = 0 then 0
  else fragHits frag (fragmap <<< 1) siz (frag + 1 - siz) siz (around siz) (inside siz)

section Scan

variable (frag fragmap siz : ℕ) (cnt : ℤ)

theorem fragScan_eq (fuel pos field subfield : ℕ) (fraglist : ℕ → ℤ) :
    fragScan frag fragmap siz cnt fuel pos field subfield fraglist =
      Function.update fraglist siz
        (fraglist siz + cnt * fragHits frag fragmap siz fuel pos field subfield) := by
  induction fuel generalizing pos field subfield fraglist with
  | zero => simp [fragScan, fragHits]
  | succ fuel ih =>
    rw [fragScan, fragHits]
    split
    · split
      · rw [ih, Function.update_self, Function.update_idem, Nat.cast_succ, mul_add, mul_one,
          add_assoc, add_comm cnt]
      · rw [ih]
    · simp

/-- One round of `ffs_fragacct` changes the count of its size. -/
theorem fragRound_eq (fraglist : ℕ → ℤ) :
    (if (fragtbl frag fragmap <<< 1) &&& 1 <<< (siz + frag % 8) = 0 then fraglist
      else fragScan frag (fragmap <<< 1) siz cnt (frag + 1 - siz) siz (around siz) (inside siz)
        fraglist) =
      Function.update fraglist siz (fraglist siz + cnt * fragCount frag fragmap siz) := by
  rw [fragCount]
  split
  · simp
  · rw [fragScan_eq]

theorem foldl_update_add (c : ℕ → ℤ) (l : List ℕ) (hl : l.Nodup) (fraglist : ℕ → ℤ) (k : ℕ) :
    l.foldl (fun fraglist siz => Function.update fraglist siz (fraglist siz + c siz)) fraglist k =
      fraglist k + if k ∈ l then c k else 0 := by
  induction l generalizing fraglist with
  | nil => simp
  | cons s l ih =>
    obtain ⟨hs, hl⟩ := List.nodup_cons.mp hl
    rw [List.foldl_cons, ih hl]
    by_cases hk : k = s
    · subst k
      simp [hs]
    · simp [hk]

/-- `ffs_fragacct` in terms of its hits. -/
theorem ffsFragacct_eq (fraglist : ℕ → ℤ) (k : ℕ) :
    ffsFragacct frag fragmap fraglist cnt k =
      fraglist k + if 1 ≤ k ∧ k < frag then cnt * fragCount frag fragmap k else 0 := by
  unfold ffsFragacct
  simp only [fragRound_eq]
  rw [foldl_update_add _ _ (List.nodup_range')]
  have hmem : k ∈ List.range' 1 (frag - 1) ↔ 1 ≤ k ∧ k < frag := by
    rw [List.mem_range'_1]
    omega
  simp only [hmem]

end Scan

/-- The bits of a number as a block. -/
def fragsOf (frag fragmap : ℕ) : List Bool := seg (fun i => fragmap.testBit i) 0 frag

/-- The tables and the patterns find the maximal runs of a block. -/
theorem fragCount_eq_aux : ∀ e : Fin 4, ∀ fragmap : Fin (2 ^ 2 ^ e.val), ∀ siz : Fin (2 ^ e.val),
    1 ≤ siz.val → fragCount (2 ^ e.val) fragmap siz =
      (runs (fragsOf (2 ^ e.val) fragmap)).count siz.val := by
  decide +kernel

variable (g : Geometry)

theorem fragCount_eq {fragmap siz : ℕ} (hmap : fragmap < 2 ^ g.frag) (h1 : 1 ≤ siz)
    (hsiz : siz < g.frag) :
    fragCount g.frag fragmap siz = (runs (fragsOf g.frag fragmap)).count siz :=
  fragCount_eq_aux ⟨g.fragshift, Nat.lt_succ_of_le g.fragshift_le⟩ ⟨fragmap, hmap⟩ ⟨siz, hsiz⟩ h1

/-- The fragments of a block of the free map. -/
def blockFrags (frag : ℕ) (m : BitMap) (h : ℕ) : List Bool := seg m.isset (h * frag) frag

theorem fragsOf_blkmap (m : BitMap) (h : ℕ) :
    fragsOf g.frag (blkmap g.frag m (h * g.frag)) = blockFrags g.frag m h := by
  refine seg_congr fun i hi => ?_
  rw [Nat.zero_add, testBit_blkmap, decide_eq_true hi, Bool.true_and]

/-- `ffs_fragacct` on a block of the map adds `cnt` for each maximal run of free fragments that
is not the whole block. -/
theorem ffsFragacct_blkmap (m : BitMap) (h : ℕ) (fraglist : ℕ → ℤ) (cnt : ℤ) (k : ℕ) :
    ffsFragacct g.frag (blkmap g.frag m (h * g.frag)) fraglist cnt k =
      fraglist k + if 1 ≤ k ∧ k < g.frag then cnt * (runs (blockFrags g.frag m h)).count k
        else 0 := by
  rw [ffsFragacct_eq]
  split
  · rename_i hk
    rw [fragCount_eq g (blkmap_lt g m _) hk.1 hk.2, fragsOf_blkmap]
  · rfl

end EmbeddedOs.Ddfs
