import Mathlib.Algebra.Group.Nat.Defs
import Mathlib.Data.List.Basic

/-!
# Streams of bytes

The bytes of a file or of a device are a function from offsets to bytes. `put` writes a
range of it and `get` reads one. Numbers of a fixed number of bytes are written with the
low byte first.
-/

namespace EmbeddedOs.Lib.Bytes

variable {c d : ℕ → UInt8} {xs ys : List UInt8} {off o len : ℕ}

/-- Write `xs` from offset `off` on. -/
def put (c : ℕ → UInt8) (off : ℕ) (xs : List UInt8) : ℕ → UInt8 :=
  fun o => if off ≤ o then (xs[o - off]?).getD (c o) else c o

/-- The `len` bytes from offset `off` on. -/
def get (c : ℕ → UInt8) (off len : ℕ) : List UInt8 :=
  (List.range len).map fun i => c (off + i)

@[simp] theorem put_nil : put c off [] = c := by
  funext o
  simp [put]

/-- A byte outside the range keeps its value. -/
theorem put_of_not_mem (h : o < off ∨ off + xs.length ≤ o) : put c off xs o = c o := by
  simp only [put]
  split
  · have hout : xs[o - off]? = none := List.getElem?_eq_none_iff.mpr (by omega)
    rw [hout]
    rfl
  · rfl

/-- A byte inside the range has the value that was written. -/
theorem put_of_mem (hle : off ≤ o) (hlt : o < off + xs.length) :
    put c off xs o = xs[o - off] := by
  have hin : xs[o - off]? = some xs[o - off] := List.getElem?_eq_getElem (by omega)
  rw [put, if_pos hle, hin]
  rfl

/-- Two writes of adjacent ranges are one. -/
theorem put_put_append : put (put c off xs) (off + xs.length) ys = put c off (xs ++ ys) := by
  funext o
  by_cases hlow : o < off + xs.length
  · rw [put_of_not_mem (Or.inl hlow)]
    by_cases hoff : off ≤ o
    · rw [put_of_mem hoff hlow, put_of_mem hoff (by rw [List.length_append]; omega),
        List.getElem_append_left]
    · rw [put_of_not_mem (Or.inl (by omega)), put_of_not_mem (Or.inl (by omega))]
  · by_cases hhigh : o < off + xs.length + ys.length
    · rw [put_of_mem (by omega) hhigh, put_of_mem (by omega) (by rw [List.length_append]; omega),
        List.getElem_append_right (by omega)]
      simp only [Nat.sub_sub]
    · rw [put_of_not_mem (Or.inr (by omega)), put_of_not_mem (Or.inr (by omega)),
        put_of_not_mem (Or.inr (by rw [List.length_append]; omega))]

/-- A write of one byte. -/
theorem update_eq_put {x : UInt8} : Function.update c off x = put c off [x] := by
  funext o
  by_cases ho : o = off
  · subst ho
    rw [Function.update_self, put_of_mem (Nat.le_refl _) (Nat.lt_succ_self _)]
    simp
  · rw [Function.update_of_ne ho, put_of_not_mem]
    rw [List.length_singleton]
    omega

@[simp] theorem length_get : (get c off len).length = len := by
  simp [get]

/-- Two adjacent ranges. -/
theorem get_add (a b : ℕ) : get c off (a + b) = get c off a ++ get c (off + a) b := by
  simp only [get, List.range_add, List.map_append, List.map_map, Function.comp_def, Nat.add_assoc]

/-- Reading depends on the bytes of the range only. -/
theorem get_congr (h : ∀ i, i < len → c (off + i) = d (off + i)) : get c off len = get d off len :=
  List.map_congr_left fun i hi => h i (List.mem_range.mp hi)

/-- A range that was not written reads as before. -/
theorem get_put_of_disjoint (h : off + len ≤ o ∨ o + xs.length ≤ off) :
    get (put c o xs) off len = get c off len :=
  get_congr fun _ _ => put_of_not_mem (by omega)

/-- Reading gives the bytes that are there. -/
theorem get_eq_of_forall (hlen : xs.length = len)
    (h : ∀ i, (hi : i < xs.length) → c (off + i) = xs[i]) : get c off len = xs := by
  subst hlen
  apply List.ext_getElem length_get
  intro i _ hi
  simp only [get, List.getElem_map, List.getElem_range]
  exact h i hi

/-- What was written is read back. -/
theorem get_put_self (hlen : xs.length = len) : get (put c off xs) off len = xs := by
  apply get_eq_of_forall hlen
  intro i hi
  have hput : put c off xs (off + i) = xs[off + i - off] :=
    put_of_mem (Nat.le_add_right _ _) (by omega)
  simp only [hput, Nat.add_sub_cancel_left]

theorem getElem_get {i : ℕ} (hi : i < (get c off len).length) :
    (get c off len)[i] = c (off + i) := by
  simp [get]

/-- Two streams that agree inside a range agree there after a write. -/
theorem put_apply_eq_self (h : ∀ i, (hi : i < xs.length) → c (off + i) = xs[i]) :
    put c off xs = c := by
  funext o
  by_cases hmem : off ≤ o ∧ o < off + xs.length
  · have hbyte := h (o - off) (by omega)
    rw [put_of_mem hmem.1 hmem.2, ← hbyte, Nat.add_sub_cancel' hmem.1]
  · rw [put_of_not_mem (by omega)]

/-- Writing back a range that was read and changed inside writes the change. -/
theorem put_get_put {loc : ℕ} (hfit : off + xs.length ≤ len) :
    put c loc (get (put (fun o => c (loc + o)) off xs) 0 len) = put c (loc + off) xs := by
  funext o
  by_cases hmem : loc ≤ o ∧ o < loc + len
  · rw [put_of_mem hmem.1 (by rw [length_get]; exact hmem.2), getElem_get, Nat.zero_add]
    by_cases hin : loc + off ≤ o ∧ o < loc + off + xs.length
    · rw [put_of_mem (by omega) (by omega), put_of_mem hin.1 hin.2]
      simp only [Nat.sub_sub]
    · rw [put_of_not_mem (by omega), put_of_not_mem (by omega), Nat.add_sub_cancel' hmem.1]
  · rw [put_of_not_mem (by rw [length_get]; omega), put_of_not_mem (by omega)]

/-! ## A change inside a range -/

/-- The bytes `v` after `xs` was written to them at `off`. -/
def overwrite (v : List UInt8) (off : ℕ) (xs : List UInt8) : List UInt8 :=
  v.take off ++ (xs ++ v.drop (off + xs.length))

/-- What is read after a write inside the range. -/
theorem get_put_overwrite {loc : ℕ} (hfit : off + xs.length ≤ len) :
    get (put c (loc + off) xs) loc len = overwrite (get c loc len) off xs := by
  have htake : ((get c loc len).take off).length = off := by
    rw [List.length_take, length_get]
    omega
  apply get_eq_of_forall
  · simp only [overwrite, List.length_append, htake, List.length_drop, length_get]
    omega
  · intro i hi
    by_cases hlow : i < off
    · simp only [overwrite]
      rw [put_of_not_mem (Or.inl (by omega)), List.getElem_append_left (by omega),
        List.getElem_take, getElem_get]
    · by_cases hin : i < off + xs.length
      · simp only [overwrite]
        rw [put_of_mem (by omega) (by omega), List.getElem_append_right (by omega),
          List.getElem_append_left (by omega)]
        simp only [htake, show loc + i - (loc + off) = i - off by omega]
      · simp only [overwrite]
        rw [put_of_not_mem (Or.inr (by omega)), List.getElem_append_right (by omega),
          List.getElem_append_right (by omega), List.getElem_drop, getElem_get]
        simp only [htake, show loc + (off + xs.length + (i - off - xs.length)) = loc + i by omega]

/-- A write changes nothing exactly if its bytes are already there. -/
theorem overwrite_eq_self {v : List UInt8} :
    overwrite v off xs = v ↔ (v.drop off).take xs.length = xs := by
  have hrest : (v.drop off).take xs.length ++ v.drop (off + xs.length) = v.drop off := by
    rw [← List.drop_drop, List.take_append_drop]
  calc overwrite v off xs = v
      ↔ v.take off ++ (xs ++ v.drop (off + xs.length)) = v.take off ++ v.drop off := by
        rw [List.take_append_drop, overwrite]
    _ ↔ xs ++ v.drop (off + xs.length) =
          (v.drop off).take xs.length ++ v.drop (off + xs.length) := by
        rw [List.append_cancel_left_eq, hrest]
    _ ↔ (v.drop off).take xs.length = xs := by
        rw [List.append_cancel_right_eq, eq_comm]

/-! ## Repeated bytes -/

/-- The first `n` bytes of `xs` written down over and over. -/
def cycle (xs : List UInt8) (n : ℕ) : List UInt8 :=
  (List.range n).map fun i => xs.getD (i % xs.length) 0

@[simp] theorem length_cycle {n : ℕ} : (cycle xs n).length = n := by
  simp [cycle]

/-- Up to its length the bytes are those of the list. -/
theorem cycle_of_le {n : ℕ} (h : n ≤ xs.length) : cycle xs n = xs.take n := by
  unfold cycle
  apply List.ext_getElem
  · simp [h]
  · intro i hi hi'
    have hlt : i < xs.length := by
      rw [List.length_map, List.length_range] at hi
      omega
    simp [Nat.mod_eq_of_lt hlt, List.getElem?_eq_getElem hlt]

/-- Behind its end the list starts again. -/
theorem cycle_add {n : ℕ} : cycle xs (xs.length + n) = xs ++ cycle xs n := by
  have hfirst := cycle_of_le (Nat.le_refl xs.length)
  rw [List.take_length] at hfirst
  calc cycle xs (xs.length + n) = cycle xs xs.length ++ cycle xs n := by
        simp [cycle, List.range_add]
    _ = xs ++ cycle xs n := by rw [hfirst]

/-! ## Numbers -/

/-- `n` as `w` bytes, the low byte first. -/
def toLE : ℕ → ℕ → List UInt8
  | 0, _ => []
  | w + 1, n => UInt8.ofNat n :: toLE w (n / 256)

/-- The number with these bytes, the low byte first. -/
def ofLE : List UInt8 → ℕ
  | [] => 0
  | b :: bs => b.toNat + 256 * ofLE bs

@[simp] theorem length_toLE {w n : ℕ} : (toLE w n).length = w := by
  induction w generalizing n with
  | zero => rfl
  | succ w ih => rw [toLE, List.length_cons, ih]

theorem ofLE_toLE {w n : ℕ} (h : n < 256 ^ w) : ofLE (toLE w n) = n := by
  induction w generalizing n with
  | zero =>
    rw [Nat.pow_zero] at h
    rw [toLE, ofLE]
    omega
  | succ w ih =>
    have hdiv : n / 256 < 256 ^ w := by
      rw [Nat.pow_succ] at h
      omega
    have hbyte : (UInt8.ofNat n).toNat = n % 256 := UInt8.toNat_ofNat'
    rw [toLE, ofLE, ih hdiv, hbyte]
    omega

/-- Read a number of `w` bytes from the front of a list. -/
def readLE (w : ℕ) (bs : List UInt8) : ℕ × List UInt8 := (ofLE (bs.take w), bs.drop w)

/-- A number at the front of a list is read back. -/
theorem readLE_append {w n : ℕ} (h : n < 256 ^ w) (bs : List UInt8) :
    readLE w (toLE w n ++ bs) = (n, bs) := by
  have hlen : (toLE w n).length = w := length_toLE
  have htake : (toLE w n ++ bs).take w = toLE w n := List.take_left' hlen
  have hdrop : (toLE w n ++ bs).drop w = bs := List.drop_left' hlen
  rw [readLE, htake, hdrop, ofLE_toLE h]

end EmbeddedOs.Lib.Bytes
