import EmbeddedOs.Kvfs.Names

/-!
# The names of keys

`digithex` and `key_to_str` of `kvfs_util.c`, and what becomes of a name that goes through
`str_to_key` and back. `hexdigit` of an upper-case digit is too small by 32. In the high half
of a byte the shift drops the difference, but in the low half it sets the three upper bits of
the high half, so that a name comes back as it was, in lower case, only if they are set already.
-/

namespace EmbeddedOs.Kvfs

/-- `digithex`. -/
def digithex (digit : UInt8) : UInt8 := if digit ≤ 9 then 48 + digit else 97 + digit - 10

/-- `key_to_str`. -/
@[irreducible] def keyToStr (key : Key) : Name :=
  key.toList.flatMap fun byte : UInt8 => [digithex (byte >>> 4), digithex (byte &&& 0x0f)]

/-- A letter in lower case. -/
def lowerChar (c : UInt8) : UInt8 := if 65 ≤ c ∧ c ≤ 90 then c + 32 else c

/-- A name with its letters in lower case. -/
def Name.lower (str : Name) : Name := str.map lowerChar

/-- A hexadecimal digit: 0-9, a-f or A-F. -/
def HexDigit (c : UInt8) : Prop :=
  (48 ≤ c ∧ c ≤ 57) ∨ (97 ≤ c ∧ c ≤ 102) ∨ (65 ≤ c ∧ c ≤ 70)

instance (c : UInt8) : Decidable (HexDigit c) :=
  inferInstanceAs (Decidable ((48 ≤ c ∧ c ≤ 57) ∨ (97 ≤ c ∧ c ≤ 102) ∨ (65 ≤ c ∧ c ≤ 70)))

instance (c : UInt8) : Decidable (LowerDigit c) :=
  inferInstanceAs (Decidable ((48 ≤ c ∧ c ≤ 57) ∨ (97 ≤ c ∧ c ≤ 102)))

/-- Each upper-case digit in the second place of a byte comes after an `e` or `f`, in upper or
lower case. -/
def Undisturbed (str : Name) : Prop :=
  ∀ k < 20, 65 ≤ str.char (2 * k + 1) ∧ str.char (2 * k + 1) ≤ 70 →
    lowerChar (str.char (2 * k)) = 101 ∨ lowerChar (str.char (2 * k)) = 102

variable {str str' : Name} {key : Key}

/-! ## Digits -/

theorem hexdigit_ne_neg_one (c : UInt8) : hexdigit c ≠ -1 ↔ HexDigit c := by
  simp only [hexdigit, HexDigit, UInt8.le_iff_toNat_le, UInt8.reduceToNat]
  split
  · next hdigit =>
    simp only [hdigit, true_and, true_or, iff_true]
    omega
  · next hdigit =>
    split
    · next hletter =>
      simp only [hdigit, hletter, or_true, iff_true]
      omega
    · next hletter => simp [hdigit, hletter]

/-- The hexadecimal digits. -/
def hexDigits : List UInt8 :=
  (List.range 10).map (48 + UInt8.ofNat ·) ++ (List.range 6).map (97 + UInt8.ofNat ·) ++
    (List.range 6).map (65 + UInt8.ofNat ·)

theorem mem_hexDigits {c : UInt8} (h : HexDigit c) : c ∈ hexDigits := by
  have hall : ∀ n < 256, HexDigit (UInt8.ofNat n) → UInt8.ofNat n ∈ hexDigits := by decide +kernel
  have hmem := hall c.toNat c.toNat_lt
  rw [UInt8.ofNat_toNat] at hmem
  exact hmem h

/-- The byte of two digits has the second one in its low half, and the first one in its high
half unless the second one is in upper case. -/
theorem digits_of_byte {c d : UInt8} (hc : HexDigit c) (hd : HexDigit d) :
    let byte := UInt8.ofInt (hexdigit c * 2 ^ 4) ||| UInt8.ofInt (hexdigit d * 2 ^ 0)
    digithex (byte &&& 0x0f) = lowerChar d ∧ (digithex (byte >>> 4) = lowerChar c ↔
      (65 ≤ d ∧ d ≤ 70 → lowerChar c = 101 ∨ lowerChar c = 102)) := by
  have hall : ∀ c ∈ hexDigits, ∀ d ∈ hexDigits,
      let byte := UInt8.ofInt (hexdigit c * 2 ^ 4) ||| UInt8.ofInt (hexdigit d * 2 ^ 0)
      digithex (byte &&& 0x0f) = lowerChar d ∧ (digithex (byte >>> 4) = lowerChar c ↔
        (65 ≤ d ∧ d ≤ 70 → lowerChar c = 101 ∨ lowerChar c = 102)) := by decide +kernel
  exact hall c (mem_hexDigits hc) d (mem_hexDigits hd)

/-- The two digits of a byte are digits in lower case, and their values make the byte. -/
theorem byte_of_digits (byte : UInt8) :
    LowerDigit (digithex (byte >>> 4)) ∧ LowerDigit (digithex (byte &&& 0x0f)) ∧
      UInt8.ofNat (16 * digitValue (digithex (byte >>> 4)) +
        digitValue (digithex (byte &&& 0x0f))) = byte := by
  have hall : ∀ n < 256, LowerDigit (digithex (UInt8.ofNat n >>> 4)) ∧
      LowerDigit (digithex (UInt8.ofNat n &&& 0x0f)) ∧
      UInt8.ofNat (16 * digitValue (digithex (UInt8.ofNat n >>> 4)) +
        digitValue (digithex (UInt8.ofNat n &&& 0x0f))) = UInt8.ofNat n := by decide +kernel
  have hbyte := hall byte.toNat byte.toNat_lt
  rwa [UInt8.ofNat_toNat] at hbyte

/-! ## Names -/

/-- The characters of a list of pairs. -/
theorem getElem?_flatMap_pair {α β : Type*} (f g : α → β) (xs : List α) (k : ℕ) :
    (xs.flatMap fun x => [f x, g x])[2 * k]? = xs[k]?.map f ∧
      (xs.flatMap fun x => [f x, g x])[2 * k + 1]? = xs[k]?.map g := by
  induction xs generalizing k with
  | nil => simp
  | cons x xs ih =>
    cases k with
    | zero => simp
    | succ k => exact ih k

/-- A key has the name of its bytes. -/
theorem char_keyToStr (key : Key) {k : ℕ} (hk : k < 20) :
    (keyToStr key).char (2 * k) = digithex (key[k] >>> 4) ∧
      (keyToStr key).char (2 * k + 1) = digithex (key[k] &&& 0x0f) := by
  have hpair := getElem?_flatMap_pair (fun byte : UInt8 => digithex (byte >>> 4))
    (fun byte => digithex (byte &&& 0x0f)) key.toList k
  have hbyte : key.toList[k]? = some key[k] := by simp [hk]
  rw [hbyte] at hpair
  unfold keyToStr Name.char
  rw [hpair.1, hpair.2]
  exact ⟨rfl, rfl⟩

@[simp] theorem length_keyToStr : (keyToStr key).length = 40 := by
  unfold keyToStr
  rw [List.length_flatMap]
  simp

@[simp] theorem Name.length_lower : str.lower.length = str.length := List.length_map _

theorem Name.char_lower (i : ℕ) : str.lower.char i = lowerChar (str.char i) := by
  unfold Name.lower Name.char
  rw [List.getElem?_map]
  cases str[i]? with
  | none => rfl
  | some c => rfl

/-- Names are the same if their bytes are. -/
theorem Name.ext_pairs (h : str.length = 40) (h' : str'.length = 40) : str = str' ↔
    ∀ k < 20, str.char (2 * k) = str'.char (2 * k) ∧
      str.char (2 * k + 1) = str'.char (2 * k + 1) := by
  constructor
  · rintro rfl k -
    exact ⟨rfl, rfl⟩
  · intro hall
    apply List.ext_getElem (h.trans h'.symm)
    intro i hi hi'
    have hchar : str.char i = str'.char i := by
      have hk := hall (i / 2) (by omega)
      by_cases hodd : i % 2 = 0
      · rw [show 2 * (i / 2) = i by omega] at hk
        exact hk.1
      · rw [show 2 * (i / 2) + 1 = i by omega] at hk
        exact hk.2
    rw [Name.char, Name.char, List.getElem?_eq_getElem hi, List.getElem?_eq_getElem hi'] at hchar
    exact hchar

/-- The name of a key has lower-case digits. -/
theorem lowerHex_keyToStr (key : Key) : LowerHex (keyToStr key) := by
  refine ⟨length_keyToStr, fun c hc => ?_⟩
  unfold keyToStr at hc
  obtain ⟨byte, -, hbyte⟩ := List.mem_flatMap.mp hc
  obtain ⟨hhigh, hlow, -⟩ := byte_of_digits byte
  simp only [List.mem_cons, List.not_mem_nil, or_false] at hbyte
  rcases hbyte with rfl | rfl
  · exact hhigh
  · exact hlow

/-- The name of a key has that key. -/
theorem strToKey_keyToStr (key : Key) : strToKey (keyToStr key) = some key := by
  rw [strToKey_lower (lowerHex_keyToStr key), Option.some.injEq]
  apply Vector.ext
  intro k hk
  obtain ⟨hhigh, hlow⟩ := char_keyToStr key hk
  rw [nameKey, Vector.getElem_ofFn, hhigh, hlow]
  exact (byte_of_digits key[k]).2.2

/-- `str_to_key` accepts the names of hexadecimal digits. -/
theorem isSome_strToKey (h : str.length = 40) :
    (strToKey str).isSome ↔ ∀ c ∈ str, HexDigit c := by
  have hchars : (∀ j < 40, hexdigit (str.char j) ≠ -1) ↔ ∀ c ∈ str, HexDigit c := by
    simp only [hexdigit_ne_neg_one]
    constructor
    · intro hall c hc
      obtain ⟨j, hj, rfl⟩ := List.getElem_of_mem hc
      have hdigit := hall j (by omega)
      rwa [Name.char, List.getElem?_eq_getElem hj] at hdigit
    · intro hall j hj
      rw [Name.char, List.getElem?_eq_getElem (by omega)]
      exact hall _ (List.getElem_mem _)
  rw [Option.isSome_iff_exists, ← hchars]
  constructor
  · rintro ⟨key, hkey⟩
    exact (strToKey_eq_some.mp hkey).1
  · exact fun hall => ⟨_, strToKey_eq_some.mpr ⟨hall, rfl⟩⟩

/-- An accepted name comes back in lower case if and only if no digit is disturbed. -/
theorem keyToStr_eq_lower (h : str.length = 40) (hkey : strToKey str = some key) :
    keyToStr key = str.lower ↔ Undisturbed str := by
  obtain ⟨hdigits, rfl⟩ := strToKey_eq_some.mp hkey
  rw [Name.ext_pairs length_keyToStr (by rw [Name.length_lower, h])]
  refine forall₂_congr fun k hk => ?_
  obtain ⟨hhigh, hlow⟩ := char_keyToStr (rawKey str) hk
  have hbyte := digits_of_byte ((hexdigit_ne_neg_one _).mp (hdigits (2 * k) (by omega)))
    ((hexdigit_ne_neg_one _).mp (hdigits (2 * k + 1) (by omega)))
  have hraw : (rawKey str)[k] = UInt8.ofInt (hexdigit (str.char (2 * k)) * 2 ^ 4) |||
      UInt8.ofInt (hexdigit (str.char (2 * k + 1)) * 2 ^ 0) := by
    rw [rawKey, Vector.getElem_ofFn, nibble, nibble, if_pos (by simp),
      if_neg (show ¬(2 * k + 1) % 2 = 0 by omega)]
  rw [hhigh, hlow, Name.char_lower, Name.char_lower, hraw]
  simp only [hbyte.1, and_true]
  exact hbyte.2

/-- Two accepted names in which no digit is disturbed have the same key if and only if they
differ at most in the case of their letters. -/
theorem same_key_iff {key' : Key} (h : str.length = 40) (h' : str'.length = 40)
    (hkey : strToKey str = some key) (hkey' : strToKey str' = some key')
    (hok : Undisturbed str) (hok' : Undisturbed str') :
    key = key' ↔ str.lower = str'.lower := by
  rw [← (keyToStr_eq_lower h hkey).mpr hok, ← (keyToStr_eq_lower h' hkey').mpr hok']
  constructor
  · rintro rfl
    rfl
  · intro hname
    have hback := congrArg strToKey hname
    rw [strToKey_keyToStr, strToKey_keyToStr] at hback
    exact Option.some.inj hback

end EmbeddedOs.Kvfs
