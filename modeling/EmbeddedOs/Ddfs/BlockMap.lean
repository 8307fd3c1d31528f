import EmbeddedOs.Lib.BitMap
import EmbeddedOs.Ddfs.MkfsLayout
import Mathlib.Tactic.IntervalCases

/-!
# Blocks in the map of free fragments

The block operations of `ddfs_subr.c` on the map of free fragments of a cylinder group. They
have a branch for each number of fragments in a block; all four branches come to one mask in
one byte, and what they say about the single fragments does not depend on the branch.
-/

namespace EmbeddedOs.Ddfs

open Lib

/-- `ffs_isblock`: whether a block is available. -/
def ffsIsblock (frag : ℕ) (cp : BitMap) (h : ℕ) : Bool :=
  match frag with
  | 8 => cp h == 0xff#8
  | 4 =>
    let mask := 0x0f#8 <<< ((h &&& 0x1) <<< 2)
    cp (h >>> 1) &&& mask == mask
  | 2 =>
    let mask := 0x03#8 <<< ((h &&& 0x3) <<< 1)
    cp (h >>> 2) &&& mask == mask
  | 1 =>
    let mask := 0x01#8 <<< (h &&& 0x7)
    cp (h >>> 3) &&& mask == mask
  | _ => false

/-- `ffs_isfreeblock`: whether no fragment of a block is available. -/
def ffsIsfreeblock (frag : ℕ) (cp : BitMap) (h : ℕ) : Bool :=
  match frag with
  | 8 => cp h == 0
  | 4 => cp (h >>> 1) &&& 0x0f#8 <<< ((h &&& 0x1) <<< 2) == 0
  | 2 => cp (h >>> 2) &&& 0x03#8 <<< ((h &&& 0x3) <<< 1) == 0
  | 1 => cp (h >>> 3) &&& 0x01#8 <<< (h &&& 0x7) == 0
  | _ => false

/-- `ffs_clrblock`: take a block out of the map. -/
def ffsClrblock (frag : ℕ) (cp : BitMap) (h : ℕ) : BitMap :=
  match frag with
  | 8 => Function.update cp h 0
  | 4 => Function.update cp (h >>> 1) (cp (h >>> 1) &&& ~~~ (0x0f#8 <<< ((h &&& 0x1) <<< 2)))
  | 2 => Function.update cp (h >>> 2) (cp (h >>> 2) &&& ~~~ (0x03#8 <<< ((h &&& 0x3) <<< 1)))
  | 1 => Function.update cp (h >>> 3) (cp (h >>> 3) &&& ~~~ (0x01#8 <<< (h &&& 0x7)))
  | _ => cp

/-- `ffs_setblock`: put a block into the map. -/
def ffsSetblock (frag : ℕ) (cp : BitMap) (h : ℕ) : BitMap :=
  match frag with
  | 8 => Function.update cp h 0xff
  | 4 => Function.update cp (h >>> 1) (cp (h >>> 1) ||| 0x0f#8 <<< ((h &&& 0x1) <<< 2))
  | 2 => Function.update cp (h >>> 2) (cp (h >>> 2) ||| 0x03#8 <<< ((h &&& 0x3) <<< 1))
  | 1 => Function.update cp (h >>> 3) (cp (h >>> 3) ||| 0x01#8 <<< (h &&& 0x7))
  | _ => cp

/-- `blkmap`: the fragments of the block at `loc`, as the low bits of a number. -/
def blkmap (frag : ℕ) (map : BitMap) (loc : ℕ) : ℕ :=
  ((map (loc / 8)).toNat >>> (loc % 8)) &&& (0xff >>> (8 - frag))

/-- The bits of a block in its byte, from bit `r` on. -/
def blockMask (frag r : ℕ) : BitVec 8 := (0xff#8 >>> (8 - frag)) <<< r

theorem Geometry.frag_cases (g : Geometry) :
    g.frag = 1 ∨ g.frag = 2 ∨ g.frag = 4 ∨ g.frag = 8 := by
  have h := g.fragshift_le
  unfold Geometry.frag
  interval_cases g.fragshift <;> simp

/-- A block does not go across the bytes of the map. -/
theorem Geometry.frag_dvd (g : Geometry) : g.frag ∣ 8 := by
  rcases g.frag_cases with h | h | h | h <;> rw [h] <;> decide

variable (g : Geometry) (cp : BitMap) (h i j : ℕ)

theorem byte_two (h : ℕ) : (h &&& 0x1) <<< 2 = h * 4 % 8 ∧ h >>> 1 = h * 4 / 8 := by
  have hand : h &&& 0x1 = h % 2 := Nat.and_two_pow_sub_one_eq_mod h 1
  rw [hand, Nat.shiftLeft_eq, Nat.shiftRight_eq_div_pow]
  omega

theorem byte_four (h : ℕ) : (h &&& 0x3) <<< 1 = h * 2 % 8 ∧ h >>> 2 = h * 2 / 8 := by
  have hand : h &&& 0x3 = h % 4 := Nat.and_two_pow_sub_one_eq_mod h 2
  rw [hand, Nat.shiftLeft_eq, Nat.shiftRight_eq_div_pow]
  omega

theorem byte_eight (h : ℕ) : h &&& 0x7 = h * 1 % 8 ∧ h >>> 3 = h * 1 / 8 := by
  have hand : h &&& 0x7 = h % 8 := Nat.and_two_pow_sub_one_eq_mod h 3
  rw [hand, Nat.shiftRight_eq_div_pow]
  omega

theorem byte_one (h : ℕ) : h * 8 % 8 = 0 ∧ h * 8 / 8 = h := by omega

/-- The four branches of `ffs_isblock` test one mask. -/
theorem ffsIsblock_eq : ffsIsblock g.frag cp h =
    (cp (h * g.frag / 8) &&& blockMask g.frag (h * g.frag % 8) ==
      blockMask g.frag (h * g.frag % 8)) := by
  rcases g.frag_cases with hf | hf | hf | hf <;> rw [hf]
  · rw [← (byte_eight h).1, ← (byte_eight h).2]
    rfl
  · rw [← (byte_four h).1, ← (byte_four h).2]
    rfl
  · rw [← (byte_two h).1, ← (byte_two h).2]
    rfl
  · have hall : ∀ b : BitVec 8, b &&& blockMask 8 0 = b := by decide +kernel
    rw [(byte_one h).1, (byte_one h).2, hall]
    rfl

/-- The four branches of `ffs_isfreeblock` test one mask. -/
theorem ffsIsfreeblock_eq : ffsIsfreeblock g.frag cp h =
    (cp (h * g.frag / 8) &&& blockMask g.frag (h * g.frag % 8) == 0) := by
  rcases g.frag_cases with hf | hf | hf | hf <;> rw [hf]
  · rw [← (byte_eight h).1, ← (byte_eight h).2]
    rfl
  · rw [← (byte_four h).1, ← (byte_four h).2]
    rfl
  · rw [← (byte_two h).1, ← (byte_two h).2]
    rfl
  · have hall : ∀ b : BitVec 8, b &&& blockMask 8 0 = b := by decide +kernel
    rw [(byte_one h).1, (byte_one h).2, hall]
    rfl

/-- The four branches of `ffs_clrblock` clear one mask. -/
theorem ffsClrblock_eq : ffsClrblock g.frag cp h =
    Function.update cp (h * g.frag / 8)
      (cp (h * g.frag / 8) &&& ~~~ blockMask g.frag (h * g.frag % 8)) := by
  rcases g.frag_cases with hf | hf | hf | hf <;> rw [hf]
  · rw [← (byte_eight h).1, ← (byte_eight h).2]
    rfl
  · rw [← (byte_four h).1, ← (byte_four h).2]
    rfl
  · rw [← (byte_two h).1, ← (byte_two h).2]
    rfl
  · have hall : ∀ b : BitVec 8, b &&& ~~~ blockMask 8 0 = 0 := by decide +kernel
    rw [(byte_one h).1, (byte_one h).2, hall]
    rfl

/-- The four branches of `ffs_setblock` set one mask. -/
theorem ffsSetblock_eq : ffsSetblock g.frag cp h =
    Function.update cp (h * g.frag / 8)
      (cp (h * g.frag / 8) ||| blockMask g.frag (h * g.frag % 8)) := by
  rcases g.frag_cases with hf | hf | hf | hf <;> rw [hf]
  · rw [← (byte_eight h).1, ← (byte_eight h).2]
    rfl
  · rw [← (byte_four h).1, ← (byte_four h).2]
    rfl
  · rw [← (byte_two h).1, ← (byte_two h).2]
    rfl
  · have hall : ∀ b : BitVec 8, b ||| blockMask 8 0 = 0xff := by decide +kernel
    rw [(byte_one h).1, (byte_one h).2, hall]
    rfl

theorem getLsbD_blockMask_aux : ∀ frag : Fin 9, ∀ r s : Fin 8,
    (blockMask frag r).getLsbD s = decide (r.val ≤ s.val ∧ s.val < r.val + frag.val) := by
  decide +kernel

/-- A mask has the bits of its block. -/
theorem getLsbD_blockMask : (blockMask g.frag (h * g.frag % 8)).getLsbD (i % 8) =
    decide (h * g.frag % 8 ≤ i % 8 ∧ i % 8 < h * g.frag % 8 + g.frag) :=
  getLsbD_blockMask_aux ⟨g.frag, Nat.lt_succ_of_le g.frag_le⟩
    ⟨_, Nat.mod_lt _ (by decide)⟩ ⟨_, Nat.mod_lt _ (by decide)⟩

/-- A fragment belongs to a block if they are in one byte, and the mask has it. -/
theorem mem_block_iff : i / g.frag = h ↔ i / 8 = h * g.frag / 8 ∧
    h * g.frag % 8 ≤ i % 8 ∧ i % 8 < h * g.frag % 8 + g.frag := by
  rcases g.frag_cases with hf | hf | hf | hf <;> rw [hf] <;> omega

/-- In the byte of a block, the mask tells its fragments. -/
theorem mem_block_of_byte (hb : i / 8 = h * g.frag / 8) : decide (i / g.frag = h) =
    decide (h * g.frag % 8 ≤ i % 8 ∧ i % 8 < h * g.frag % 8 + g.frag) :=
  decide_eq_decide.mpr ((mem_block_iff g h i).trans (and_iff_right hb))

/-- `ffs_setblock` sets the fragments of the block, and no others. -/
theorem isset_ffsSetblock :
    (ffsSetblock g.frag cp h).isset i = (decide (i / g.frag = h) || cp.isset i) := by
  rw [ffsSetblock_eq, BitMap.isset_eq, BitMap.isset_eq]
  by_cases hb : i / 8 = h * g.frag / 8
  · rw [mem_block_of_byte g h i hb, hb, Function.update_self, BitVec.getLsbD_or,
      getLsbD_blockMask, Bool.or_comm]
  · have hdec : decide (i / g.frag = h) = false :=
      decide_eq_false fun heq => hb ((mem_block_iff g h i).mp heq).1
    rw [Function.update_of_ne hb, hdec, Bool.false_or]

/-- `ffs_clrblock` clears the fragments of the block, and no others. -/
theorem isset_ffsClrblock :
    (ffsClrblock g.frag cp h).isset i = (!decide (i / g.frag = h) && cp.isset i) := by
  rw [ffsClrblock_eq, BitMap.isset_eq, BitMap.isset_eq]
  by_cases hb : i / 8 = h * g.frag / 8
  · have hlt : i % 8 < 8 := Nat.mod_lt _ (by decide)
    rw [mem_block_of_byte g h i hb, hb, Function.update_self, BitVec.getLsbD_and,
      BitVec.getLsbD_not, getLsbD_blockMask, decide_eq_true hlt, Bool.true_and, Bool.and_comm]
  · have hdec : decide (i / g.frag = h) = false :=
      decide_eq_false fun heq => hb ((mem_block_iff g h i).mp heq).1
    rw [Function.update_of_ne hb, hdec, Bool.not_false, Bool.true_and]

theorem block_div {j : ℕ} (hj : j < g.frag) : (h * g.frag + j) / g.frag = h := by
  rw [Nat.add_comm, Nat.add_mul_div_right _ _ g.frag_pos, Nat.div_eq_of_lt hj, Nat.zero_add]

/-- The fragment of a block at a bit of its mask. -/
theorem isset_block {j : ℕ} (hj : j < g.frag) :
    cp.isset (h * g.frag + j) = (cp (h * g.frag / 8)).getLsbD (h * g.frag % 8 + j) := by
  have hmem := (mem_block_iff g h (h * g.frag + j)).mp (block_div g h hj)
  have hmod : (h * g.frag + j) % 8 = h * g.frag % 8 + j := by omega
  rw [BitMap.isset_eq, hmem.1, hmod]

theorem blockMask_add_lt {j : ℕ} (hj : j < g.frag) : h * g.frag % 8 + j < 8 := by
  rcases g.frag_cases with hf | hf | hf | hf <;> rw [hf] at hj ⊢ <;> omega

/-- `ffs_isblock` says that all fragments are available. -/
theorem ffsIsblock_iff :
    ffsIsblock g.frag cp h = true ↔ ∀ j, j < g.frag → cp.isset (h * g.frag + j) = true := by
  have hr : h * g.frag % 8 < 8 := Nat.mod_lt _ (by decide)
  rw [ffsIsblock_eq, beq_iff_eq]
  constructor
  · intro heq j hj
    have hbit := congrArg (fun b => b.getLsbD (h * g.frag % 8 + j)) heq
    have hmask := getLsbD_blockMask_aux ⟨g.frag, Nat.lt_succ_of_le g.frag_le⟩ ⟨_, hr⟩
      ⟨_, blockMask_add_lt g h hj⟩
    simp only [BitVec.getLsbD_and, hmask] at hbit
    rw [isset_block g cp h hj]
    simpa [hj] using hbit
  · intro hall
    apply BitVec.eq_of_getLsbD_eq
    intro s hs
    have hmask := getLsbD_blockMask_aux ⟨g.frag, Nat.lt_succ_of_le g.frag_le⟩ ⟨_, hr⟩ ⟨s, hs⟩
    rw [BitVec.getLsbD_and, hmask]
    by_cases hin : h * g.frag % 8 ≤ s ∧ s < h * g.frag % 8 + g.frag
    · have hset := hall (s - h * g.frag % 8) (by omega)
      rw [isset_block g cp h (by omega), Nat.add_sub_cancel' hin.1] at hset
      rw [hset, Bool.true_and]
    · simp [hin]

/-- `ffs_isfreeblock` says that no fragment is available. -/
theorem ffsIsfreeblock_iff :
    ffsIsfreeblock g.frag cp h = true ↔ ∀ j, j < g.frag → cp.isset (h * g.frag + j) = false := by
  have hr : h * g.frag % 8 < 8 := Nat.mod_lt _ (by decide)
  rw [ffsIsfreeblock_eq, beq_iff_eq]
  constructor
  · intro heq j hj
    have hbit := congrArg (fun b => b.getLsbD (h * g.frag % 8 + j)) heq
    have hmask := getLsbD_blockMask_aux ⟨g.frag, Nat.lt_succ_of_le g.frag_le⟩ ⟨_, hr⟩
      ⟨_, blockMask_add_lt g h hj⟩
    simp only [BitVec.getLsbD_and, hmask] at hbit
    rw [isset_block g cp h hj]
    simpa [hj] using hbit
  · intro hall
    apply BitVec.eq_of_getLsbD_eq
    intro s hs
    have hmask := getLsbD_blockMask_aux ⟨g.frag, Nat.lt_succ_of_le g.frag_le⟩ ⟨_, hr⟩ ⟨s, hs⟩
    rw [BitVec.getLsbD_and, hmask]
    by_cases hin : h * g.frag % 8 ≤ s ∧ s < h * g.frag % 8 + g.frag
    · have hclr := hall (s - h * g.frag % 8) (by omega)
      rw [isset_block g cp h (by omega), Nat.add_sub_cancel' hin.1] at hclr
      rw [hclr]
      simp
    · simp [hin]

theorem blkmap_mask_aux : ∀ frag : Fin 9, ∀ s : Fin 8,
    (0xff >>> (8 - frag.val)).testBit s.val = decide (s.val < frag.val) := by decide

/-- The bits of `blkmap` are the fragments of the block. -/
theorem testBit_blkmap : (blkmap g.frag cp (h * g.frag)).testBit j =
    (decide (j < g.frag) && cp.isset (h * g.frag + j)) := by
  have hle := g.frag_le
  by_cases hj : j < g.frag
  · have hmask := blkmap_mask_aux ⟨g.frag, Nat.lt_succ_of_le hle⟩ ⟨j, by omega⟩
    rw [blkmap, Nat.testBit_and, Nat.testBit_shiftRight, hmask, isset_block g cp h hj,
      decide_eq_true hj, Bool.and_true, Bool.true_and, BitVec.testBit_toNat]
  · have hmask : (0xff >>> (8 - g.frag)).testBit j = false := by
      rcases Nat.lt_or_ge j 8 with h8 | h8
      · rw [blkmap_mask_aux ⟨g.frag, Nat.lt_succ_of_le hle⟩ ⟨j, h8⟩]
        exact decide_eq_false hj
      · apply Nat.testBit_lt_two_pow
        have hshift : 0xff >>> (8 - g.frag) ≤ 0xff := by
          rw [Nat.shiftRight_eq_div_pow]
          exact Nat.div_le_self _ _
        have hpow : 2 ^ 8 ≤ 2 ^ j := Nat.pow_le_pow_right (by decide) h8
        omega
    rw [blkmap, Nat.testBit_and, hmask, Bool.and_false, decide_eq_false hj, Bool.false_and]

theorem blkmap_lt (loc : ℕ) : blkmap g.frag cp loc < 2 ^ g.frag := by
  have hmask : 0xff >>> (8 - g.frag) < 2 ^ g.frag := by
    rcases g.frag_cases with hf | hf | hf | hf <;> rw [hf] <;> decide
  exact Nat.lt_of_le_of_lt Nat.and_le_right hmask

end EmbeddedOs.Ddfs
