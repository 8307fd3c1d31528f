import EmbeddedOs.Kvfs.Disk

/-!
# Names and keys

`hexdigit` and `str_to_key` of `kvfs_util.c`. A name is the characters `cn_nameptr` points
to. `hexdigit` computes the value of an upper-case digit from `'a'`, which makes it
negative; on the names with lower-case digits a name and its key determine each other.
-/

namespace EmbeddedOs.Kvfs

/-- The characters of a name. -/
abbrev Name := List UInt8

/-- `hexdigit`. -/
def hexdigit (c : UInt8) : ℤ :=
  if 48 ≤ c ∧ c ≤ 57 then (c.toNat : ℤ) - 48
  else if (97 ≤ c ∧ c ≤ 102) ∨ (65 ≤ c ∧ c ≤ 70) then (c.toNat : ℤ) - 97 + 10
  else -1

/-- The character at a place of a name; behind its end there is a zero. -/
def Name.char (str : Name) (i : ℕ) : UInt8 := (str[i]?).getD 0

/-- One iteration of the loop of `str_to_key`. -/
def strToKeyStep (str : Name) (outKey : Key) (i : ℕ) : Option Key :=
  let d := hexdigit (str.char i)
  if d = -1 then none
  else
    let shift := if i % 2 = 0 then 4 else 0
    some (outKey.setIfInBounds (i / 2)
      ((outKey[i / 2]?).getD 0 ||| UInt8.ofInt (d * 2 ^ shift)))

/-- `str_to_key`; `none` if it returns 1. -/
def strToKey (str : Name) : Option Key :=
  (List.range 40).foldlM (strToKeyStep str) (Vector.replicate 20 0)

/-- A lower-case hexadecimal digit. -/
def LowerDigit (c : UInt8) : Prop := (48 ≤ c ∧ c ≤ 57) ∨ (97 ≤ c ∧ c ≤ 102)

/-- A name of 40 lower-case hexadecimal digits. -/
structure LowerHex (str : Name) : Prop where
  /-- It has `KVFS_KEY_STRLEN` characters. -/
  length : str.length = 40
  /-- All of them are digits. -/
  digits : ∀ c ∈ str, LowerDigit c

/-- The value of a lower-case digit. -/
def digitValue (c : UInt8) : ℕ := if c ≤ 57 then c.toNat - 48 else c.toNat - 87

/-- The key a name of lower-case digits stands for. -/
def nameKey (str : Name) : Key :=
  Vector.ofFn fun k =>
    UInt8.ofNat (16 * digitValue (str.char (2 * k)) + digitValue (str.char (2 * k + 1)))

theorem digitValue_lt {c : UInt8} (h : LowerDigit c) : digitValue c < 16 := by
  simp only [LowerDigit, UInt8.le_iff_toNat_le, UInt8.reduceToNat] at h
  simp only [digitValue, UInt8.le_iff_toNat_le, UInt8.reduceToNat]
  split <;> omega

theorem hexdigit_eq {c : UInt8} (h : LowerDigit c) : hexdigit c = digitValue c := by
  simp only [LowerDigit, UInt8.le_iff_toNat_le, UInt8.reduceToNat] at h
  simp only [hexdigit, digitValue, UInt8.le_iff_toNat_le, UInt8.reduceToNat]
  rcases h with h | h
  · rw [if_pos h, if_pos h.2]
    omega
  · rw [if_neg (by omega), if_pos (Or.inl h), if_neg (by omega)]
    omega

/-- The value of a digit determines it. -/
theorem digitValue_inj {c c' : UInt8} (h : LowerDigit c) (h' : LowerDigit c')
    (heq : digitValue c = digitValue c') : c = c' := by
  simp only [LowerDigit, UInt8.le_iff_toNat_le, UInt8.reduceToNat] at h h'
  simp only [digitValue, UInt8.le_iff_toNat_le, UInt8.reduceToNat] at heq
  apply UInt8.toNat_inj.mp
  split at heq <;> split at heq <;> omega

variable {str : Name}

theorem LowerHex.char (h : LowerHex str) {i : ℕ} (hi : i < 40) : LowerDigit (Name.char str i) := by
  have hlt : i < str.length := by rw [h.length]; exact hi
  rw [Name.char, List.getElem?_eq_getElem hlt]
  exact h.digits _ (List.getElem_mem hlt)

/-! ## Keys from characters -/

/-- What a character adds to its byte. -/
def nibble (str : Name) (i : ℕ) : UInt8 :=
  UInt8.ofInt (hexdigit (str.char i) * 2 ^ (if i % 2 = 0 then 4 else 0))

/-- The key after the first `i` characters. -/
def partialKey (str : Name) (i : ℕ) : Key :=
  Vector.ofFn fun k => (if 2 * k.val < i then nibble str (2 * k) else 0) |||
    (if 2 * k.val + 1 < i then nibble str (2 * k + 1) else 0)

/-- The key after all characters. -/
def rawKey (str : Name) : Key :=
  Vector.ofFn fun k => nibble str (2 * k) ||| nibble str (2 * k + 1)

/-- A character that is a digit goes to its half of its byte. -/
theorem strToKeyStep_partialKey {i : ℕ} (hi : i < 40) (hdigit : hexdigit (str.char i) ≠ -1) :
    strToKeyStep str (partialKey str i) i = some (partialKey str (i + 1)) := by
  have hbyte : (partialKey str i)[i / 2]? =
      some (if 2 * (i / 2) < i then nibble str (2 * (i / 2)) else 0) := by
    rw [Vector.getElem?_eq_getElem (by omega), partialKey, Vector.getElem_ofFn,
      if_neg (show ¬2 * (i / 2) + 1 < i by omega), UInt8.or_zero]
  simp only [strToKeyStep, if_neg hdigit, hbyte, Option.getD_some, Option.some.injEq]
  apply Vector.ext
  intro k hk
  rw [Vector.getElem_setIfInBounds, partialKey, partialKey, Vector.getElem_ofFn,
    Vector.getElem_ofFn]
  by_cases hki : i / 2 = k
  · subst hki
    rw [if_pos rfl]
    by_cases hodd : i % 2 = 0
    · have hi2 : 2 * (i / 2) = i := by omega
      simp [nibble, hi2, hodd]
    · have hi2 : 2 * (i / 2) + 1 = i := by omega
      simp only [hi2, show 2 * (i / 2) < i by omega, show 2 * (i / 2) < i + 1 by omega, if_true,
        Nat.lt_succ_self, nibble, hodd, if_false]
  · rw [if_neg hki]
    have hfull : 2 * k + 1 < i + 1 ↔ 2 * k + 1 < i := by omega
    have hhalf : 2 * k < i + 1 ↔ 2 * k < i := by omega
    simp only [hfull, hhalf]

/-- A character that is no digit is an error. -/
theorem strToKeyStep_eq_none {key : Key} {i : ℕ} (hdigit : hexdigit (str.char i) = -1) :
    strToKeyStep str key i = none := by
  simp only [strToKeyStep, hdigit, if_true]

/-- The first characters are accepted if all of them are digits to `hexdigit`. -/
theorem strToKey_prefix (str : Name) {i : ℕ} (hi : i ≤ 40) {key : Key} :
    (List.range i).foldlM (strToKeyStep str) (Vector.replicate 20 0) = some key ↔
      (∀ j < i, hexdigit (str.char j) ≠ -1) ∧ partialKey str i = key := by
  induction i generalizing key with
  | zero =>
    have hzero : partialKey str 0 = Vector.replicate 20 0 := by
      apply Vector.ext
      intro k hk
      simp [partialKey]
    simp [hzero]
  | succ i ih =>
    rw [List.range_succ, List.foldlM_append]
    constructor
    · intro hsome
      obtain ⟨key', hkey', hlast⟩ := Option.bind_eq_some_iff.mp hsome
      obtain ⟨hall, rfl⟩ := (ih (by omega)).mp hkey'
      simp only [List.foldlM_cons, List.foldlM_nil, bind_pure] at hlast
      by_cases hdigit : hexdigit (str.char i) = -1
      · rw [strToKeyStep_eq_none hdigit] at hlast
        cases hlast
      · rw [strToKeyStep_partialKey (by omega) hdigit] at hlast
        refine ⟨fun j hj => ?_, Option.some.inj hlast⟩
        rcases Nat.lt_succ_iff_lt_or_eq.mp hj with hj | rfl
        · exact hall j hj
        · exact hdigit
    · rintro ⟨hall, rfl⟩
      have hkey := (ih (by omega)).mpr ⟨fun j hj => hall j (by omega), rfl⟩
      rw [hkey]
      simp [strToKeyStep_partialKey (show i < 40 by omega) (hall i (by omega))]

/-- `str_to_key` accepts the names all of whose characters are digits to `hexdigit`. -/
theorem strToKey_eq_some {key : Key} : strToKey str = some key ↔
    (∀ j < 40, hexdigit (str.char j) ≠ -1) ∧ rawKey str = key := by
  have hfull : partialKey str 40 = rawKey str := by
    apply Vector.ext
    intro k hk
    rw [partialKey, rawKey, Vector.getElem_ofFn, Vector.getElem_ofFn, if_pos (by omega),
      if_pos (by omega)]
  rw [strToKey, strToKey_prefix str le_rfl, hfull]

/-- Two digits are the halves of their byte. -/
theorem digits_byte {m n : ℕ} (hm : m < 16) (hn : n < 16) :
    UInt8.ofInt ((m : ℤ) * 2 ^ 4) ||| UInt8.ofInt ((n : ℤ) * 2 ^ 0) = UInt8.ofNat (16 * m + n) := by
  have hall : ∀ m n : Fin 16, UInt8.ofInt ((m.val : ℤ) * 2 ^ 4) |||
      UInt8.ofInt ((n.val : ℤ) * 2 ^ 0) = UInt8.ofNat (16 * m.val + n.val) := by decide
  exact hall ⟨m, hm⟩ ⟨n, hn⟩

/-- A name of lower-case digits is accepted, and gives its key. -/
theorem strToKey_lower (h : LowerHex str) : strToKey str = some (nameKey str) := by
  have hvalue : ∀ j < 40, hexdigit (str.char j) = digitValue (str.char j) := fun j hj =>
    hexdigit_eq (h.char hj)
  refine strToKey_eq_some.mpr ⟨fun j hj => by rw [hvalue j hj]; omega, ?_⟩
  apply Vector.ext
  intro k hk
  have hhigh := h.char (i := 2 * k) (by omega)
  have hlow := h.char (i := 2 * k + 1) (by omega)
  rw [rawKey, nameKey, Vector.getElem_ofFn, Vector.getElem_ofFn, nibble, nibble,
    if_pos (by simp), if_neg (show ¬(2 * k + 1) % 2 = 0 by omega), hexdigit_eq hhigh,
    hexdigit_eq hlow]
  exact digits_byte (digitValue_lt hhigh) (digitValue_lt hlow)

/-- Two names of lower-case digits with the same key are the same. -/
theorem nameKey_inj {str' : Name} (h : LowerHex str) (h' : LowerHex str')
    (heq : nameKey str = nameKey str') : str = str' := by
  have hbyte : ∀ k, (hk : k < 20) →
      16 * digitValue (str.char (2 * k)) + digitValue (str.char (2 * k + 1)) =
        16 * digitValue (str'.char (2 * k)) + digitValue (str'.char (2 * k + 1)) := by
    intro k hk
    have hk' := congrArg (fun key : Key => key[k].toNat) heq
    have hlt := digitValue_lt (h.char (i := 2 * k) (by omega))
    have hlt₁ := digitValue_lt (h.char (i := 2 * k + 1) (by omega))
    have hlt' := digitValue_lt (h'.char (i := 2 * k) (by omega))
    have hlt₁' := digitValue_lt (h'.char (i := 2 * k + 1) (by omega))
    simp only [nameKey, Vector.getElem_ofFn, UInt8.toNat_ofNat'] at hk'
    omega
  have hvalue : ∀ i, i < 40 → digitValue (str.char i) = digitValue (str'.char i) := by
    intro i hi
    have hk := hbyte (i / 2) (by omega)
    have hlt₁ := digitValue_lt (h.char (i := 2 * (i / 2) + 1) (by omega))
    have hlt₁' := digitValue_lt (h'.char (i := 2 * (i / 2) + 1) (by omega))
    by_cases hodd : i % 2 = 0
    · rw [show i = 2 * (i / 2) by omega]
      omega
    · rw [show i = 2 * (i / 2) + 1 by omega]
      omega
  apply List.ext_getElem (h.length.trans h'.length.symm)
  intro i hi hi'
  have hi40 : i < 40 := by
    rw [← h.length]
    exact hi
  have hchar := digitValue_inj (h.char hi40) (h'.char hi40) (hvalue i hi40)
  rw [Name.char, Name.char, List.getElem?_eq_getElem hi, List.getElem?_eq_getElem hi'] at hchar
  exact hchar

end EmbeddedOs.Kvfs
