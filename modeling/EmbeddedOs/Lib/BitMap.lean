import Mathlib.Data.BitVec
import Mathlib.Logic.Function.Basic
import Mathlib.Tactic.Common

/-!
# Bit maps in bytes

A bit map in memory is an array of bytes, with the macros of `sys/param.h` for a single bit
and the two searches of the kernel library for a byte: `scanc` looks for a byte by a table,
`memcchr` for a byte that differs from a given one.
-/

namespace EmbeddedOs.Lib

/-- The bytes of a bit map. -/
abbrev BitMap := ℕ → BitVec 8

namespace BitMap

/-- `1 << (i % NBBY)`. -/
def bit (i : ℕ) : BitVec 8 := 1#8 <<< (i % 8)

/-- `isset`. -/
def isset (m : BitMap) (i : ℕ) : Bool := m (i / 8) &&& bit i != 0

/-- `setbit`. -/
def setbit (m : BitMap) (i : ℕ) : BitMap := Function.update m (i / 8) (m (i / 8) ||| bit i)

/-- `clrbit`. -/
def clrbit (m : BitMap) (i : ℕ) : BitMap := Function.update m (i / 8) (m (i / 8) &&& ~~~ bit i)

variable {m m' : BitMap} {i j n start : ℕ}

theorem and_bit : ∀ b : BitVec 8, ∀ r : Fin 8, (b &&& 1#8 <<< r.val != 0) = b.getLsbD r := by
  decide +kernel

theorem isset_eq (m : BitMap) (i : ℕ) : m.isset i = (m (i / 8)).getLsbD (i % 8) :=
  and_bit _ ⟨i % 8, Nat.mod_lt _ (by decide)⟩

theorem getLsbD_eq_isset {h r : ℕ} (m : BitMap) (hr : r < 8) :
    (m h).getLsbD r = m.isset (h * 8 + r) := by
  have hdiv : (h * 8 + r) / 8 = h := by omega
  have hmod : (h * 8 + r) % 8 = r := by omega
  rw [isset_eq, hdiv, hmod]

theorem getLsbD_bit : ∀ r s : Fin 8, (1#8 <<< r.val).getLsbD s = (r == s) := by decide

/-- Two indices in one byte are the same if their bits are. -/
theorem getLsbD_bit_mod (h : j / 8 = i / 8) : (bit i).getLsbD (j % 8) = (j == i) := by
  have hbit := getLsbD_bit ⟨i % 8, Nat.mod_lt _ (by decide)⟩ ⟨j % 8, Nat.mod_lt _ (by decide)⟩
  rw [bit, hbit, Bool.eq_iff_iff, beq_iff_eq, beq_iff_eq, Fin.mk.injEq]
  omega

/-- `setbit` sets its bit, and no other. -/
theorem isset_setbit (m : BitMap) (i j : ℕ) : (m.setbit i).isset j = (j == i || m.isset j) := by
  by_cases h : j / 8 = i / 8
  · rw [isset_eq, isset_eq, setbit, h, Function.update_self, BitVec.getLsbD_or,
      getLsbD_bit_mod h, Bool.or_comm]
  · have hne : (j == i) = false := beq_eq_false_iff_ne.mpr fun heq => h (by rw [heq])
    rw [isset_eq, isset_eq, setbit, Function.update_of_ne h, hne, Bool.false_or]

/-- `clrbit` clears its bit, and no other. -/
theorem isset_clrbit (m : BitMap) (i j : ℕ) : (m.clrbit i).isset j = (j != i && m.isset j) := by
  by_cases h : j / 8 = i / 8
  · have hlt : j % 8 < 8 := Nat.mod_lt _ (by decide)
    rw [isset_eq, isset_eq, clrbit, h, Function.update_self, BitVec.getLsbD_and,
      BitVec.getLsbD_not, getLsbD_bit_mod h, decide_eq_true hlt, Bool.true_and, Bool.and_comm]
    rfl
  · have hne : (j != i) = true := bne_iff_ne.mpr fun heq => h (by rw [heq])
    rw [isset_eq, isset_eq, clrbit, Function.update_of_ne h, hne, Bool.true_and]

/-! ### Ranges of bits -/

/-- `setbit` for `n` bits from `i` on. -/
def setRange (m : BitMap) (i : ℕ) : ℕ → BitMap
  | 0 => m
  | n + 1 => (m.setRange i n).setbit (i + n)

/-- `clrbit` for `n` bits from `i` on. -/
def clrRange (m : BitMap) (i : ℕ) : ℕ → BitMap
  | 0 => m
  | n + 1 => (m.clrRange i n).clrbit (i + n)

theorem isset_setRange (m : BitMap) (i n j : ℕ) :
    (m.setRange i n).isset j = (decide (i ≤ j ∧ j < i + n) || m.isset j) := by
  induction n with
  | zero =>
    have h : ¬ (i ≤ j ∧ j < i + 0) := by omega
    rw [setRange, decide_eq_false h, Bool.false_or]
  | succ n ih =>
    rw [setRange, isset_setbit, ih, ← Bool.or_assoc]
    congr 1
    rw [Bool.eq_iff_iff, Bool.or_eq_true, beq_iff_eq, decide_eq_true_iff, decide_eq_true_iff]
    omega

theorem isset_clrRange (m : BitMap) (i n j : ℕ) :
    (m.clrRange i n).isset j = (!decide (i ≤ j ∧ j < i + n) && m.isset j) := by
  induction n with
  | zero =>
    have h : ¬ (i ≤ j ∧ j < i + 0) := by omega
    rw [clrRange, decide_eq_false h, Bool.not_false, Bool.true_and]
  | succ n ih =>
    rw [clrRange, isset_clrbit, ih, ← Bool.and_assoc]
    congr 1
    rw [Bool.eq_iff_iff, Bool.and_eq_true, bne_iff_ne, Bool.not_eq_true', decide_eq_false_iff_not,
      Bool.not_eq_true', decide_eq_false_iff_not]
    omega

/-! ### Searches for a byte -/

/-- `scanc`: the number of bytes from the first one on that the table marks with one of the
bits of `mask`. -/
def scanc (table : BitVec 8 → BitVec 8) (mask : BitVec 8) (m : BitMap) : ℕ → ℕ → ℕ
  | 0, _ => 0
  | size + 1, cp =>
    if table (m cp) &&& mask ≠ 0 then size + 1 else scanc table mask m size (cp + 1)

/-- `memcchr`: the first byte that is not `c`. -/
def memcchr (m : BitMap) (c : BitVec 8) : ℕ → ℕ → Option ℕ
  | 0, _ => none
  | n + 1, begin => if m begin ≠ c then some begin else memcchr m c n (begin + 1)

/-- `ffs`: the number of the lowest set bit of a byte from 1 on, 0 if there is none. -/
def ffs (b : BitVec 8) : ℕ :=
  match (List.range 8).find? fun r => b.getLsbD r with
  | some r => r + 1
  | none => 0

variable {table : BitVec 8 → BitVec 8} {mask c : BitVec 8}

theorem scanc_le (table : BitVec 8 → BitVec 8) (mask : BitVec 8) (m : BitMap) (n start : ℕ) :
    scanc table mask m n start ≤ n := by
  induction n generalizing start with
  | zero => exact Nat.le_refl 0
  | succ n ih =>
    have := ih (start + 1)
    unfold scanc
    split <;> omega

/-- `scanc` stops at a byte that is marked. -/
theorem scanc_marked (h : scanc table mask m n start ≠ 0) :
    table (m (start + n - scanc table mask m n start)) &&& mask ≠ 0 := by
  induction n generalizing start with
  | zero => exact absurd (rfl : scanc table mask m 0 start = 0) h
  | succ n ih =>
    unfold scanc at h ⊢
    split at h
    · rename_i hm
      rw [if_pos hm]
      have heq : start + (n + 1) - (n + 1) = start := by omega
      rwa [heq]
    · rename_i hm
      have := ih h
      rw [if_neg hm]
      have heq : start + (n + 1) = start + 1 + n := by omega
      rwa [heq]

/-- `scanc` passes no marked byte. -/
theorem scanc_first (hj : start ≤ j) (hjn : j < start + n - scanc table mask m n start) :
    table (m j) &&& mask = 0 := by
  induction n generalizing start with
  | zero => omega
  | succ n ih =>
    unfold scanc at hjn
    split at hjn
    · omega
    · rename_i hm
      rcases Nat.eq_or_lt_of_le hj with rfl | hlt
      · simpa using hm
      · have heq : start + 1 + n = start + (n + 1) := by omega
        exact ih hlt (by rwa [heq])

/-- `memcchr` finds a byte that differs, and passes none. -/
theorem memcchr_some (h : memcchr m c n start = some i) :
    start ≤ i ∧ i < start + n ∧ m i ≠ c ∧ ∀ j, start ≤ j → j < i → m j = c := by
  induction n generalizing start with
  | zero => exact absurd h (by simp [memcchr])
  | succ n ih =>
    unfold memcchr at h
    split at h
    · rename_i hm
      obtain rfl := Option.some.inj h
      exact ⟨Nat.le_refl _, by omega, hm, fun j hj hlt => by omega⟩
    · rename_i hm
      obtain ⟨hle, hlt, hne, hbefore⟩ := ih h
      refine ⟨by omega, by omega, hne, fun j hj hji => ?_⟩
      rcases Nat.eq_or_lt_of_le hj with rfl | hj'
      · simpa using hm
      · exact hbefore j hj' hji

theorem memcchr_none (h : memcchr m c n start = none) (hj : start ≤ j) (hjn : j < start + n) :
    m j = c := by
  induction n generalizing start with
  | zero => omega
  | succ n ih =>
    unfold memcchr at h
    split at h
    · exact absurd h (by simp)
    · rename_i hm
      rcases Nat.eq_or_lt_of_le hj with rfl | hlt
      · simpa using hm
      · exact ih h (by omega) (by omega)

/-- A byte that is not full has a lowest clear bit, and `ffs` of its complement finds it. -/
theorem ffs_not {b : BitVec 8} (hb : b ≠ 255#8) :
    ∃ r, r < 8 ∧ ffs (~~~b) = r + 1 ∧ b.getLsbD r = false ∧
      ∀ q, q < r → b.getLsbD q = true := by
  unfold ffs
  cases hfind : (List.range 8).find? fun r => (~~~b).getLsbD r with
  | none =>
    exfalso
    refine hb (BitVec.eq_of_getLsbD_eq fun i hi => ?_)
    have hclr := List.find?_eq_none.mp hfind i (List.mem_range.mpr hi)
    rw [BitVec.getLsbD_not, decide_eq_true hi, Bool.true_and, Bool.not_eq_true,
      Bool.not_eq_false'] at hclr
    have hfull : ∀ i : Fin 8, (255#8).getLsbD i = true := by decide
    rw [hclr]
    exact (hfull ⟨i, hi⟩).symm
  | some r =>
    obtain ⟨hset, hr, hlow⟩ := List.find?_range_eq_some.mp hfind
    have hr8 := List.mem_range.mp hr
    rw [BitVec.getLsbD_not, decide_eq_true hr8, Bool.true_and, Bool.not_eq_true'] at hset
    refine ⟨r, hr8, rfl, hset, fun q hq => ?_⟩
    have hq8 : q < 8 := by omega
    have := hlow q hq
    rwa [BitVec.getLsbD_not, decide_eq_true hq8, Bool.true_and, Bool.not_not] at this

end BitMap

end EmbeddedOs.Lib
