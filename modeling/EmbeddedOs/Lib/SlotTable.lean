import Mathlib.Data.List.Basic
import Mathlib.Data.List.Find
import Mathlib.Data.Prod.Lex
import Mathlib.Order.Bounds.Defs
import Mathlib.Tactic.Ring

/-!
# Tables of slots

A table is a list of rows, each a list of slots; a slot is named by its row and its
position in the row. A linear search looks at the rows in order and at the slots of a
row in order. The lemmas say what a search finds and what a write of one slot changes,
so that invariants can be stated slot by slot.
-/

namespace EmbeddedOs.Lib

/-- A table with slots in `α`, row by row. -/
abbrev SlotTable (α : Type*) := List (List α)

namespace SlotTable

variable {α : Type*}

/-- The content of the slot `p.2` of row `p.1`. -/
def slot (t : SlotTable α) (p : ℕ × ℕ) : Option α := t[p.1]?.bind (·[p.2]?)

/-- Overwrite one slot; a position outside the table changes nothing. -/
def setSlot (t : SlotTable α) (p : ℕ × ℕ) (x : α) : SlotTable α :=
  t.modify p.1 (·.set p.2 x)

@[simp] theorem slot_cons_zero (row : List α) (t : SlotTable α) (k : ℕ) :
    slot (row :: t) (0, k) = row[k]? := by
  simp [slot]

@[simp] theorem slot_cons_succ (row : List α) (t : SlotTable α) (i k : ℕ) :
    slot (row :: t) (i + 1, k) = slot t (i, k) := by
  simp [slot]

/-- A slot lies in one of the rows. -/
theorem row_lt_length {t : SlotTable α} {p : ℕ × ℕ} {x : α} (h : slot t p = some x) :
    p.1 < t.length := by
  obtain ⟨row, hrow, -⟩ := Option.bind_eq_some_iff.mp h
  exact (List.getElem?_eq_some_iff.mp hrow).1

/-- Reading after a write: the written slot has the new content, every other slot its
old one. -/
theorem slot_setSlot (t : SlotTable α) (p q : ℕ × ℕ) (x : α) :
    slot (setSlot t p x) q = if q = p then (slot t p).map (fun _ => x) else slot t q := by
  obtain ⟨i, k⟩ := p
  obtain ⟨j, l⟩ := q
  simp only [slot, setSlot, List.getElem?_modify, Prod.mk.injEq]
  by_cases hrow : j = i
  · subst hrow
    cases t[j]? with
    | none => simp
    | some row =>
      by_cases hcol : l = k
      · subst hcol
        cases h : row[l]? <;> simp [h, List.getElem?_set]
        · exact List.getElem?_eq_none_iff.mp h
        · exact (List.getElem?_eq_some_iff.mp h).1
      · simp [hcol, Ne.symm hcol]
  · simp [hrow, Ne.symm hrow]

/-- A slot that is written is one of the table. -/
theorem slot_setSlot_self {t : SlotTable α} {p : ℕ × ℕ} {y : α} (hp : slot t p = some y)
    (x : α) : slot (setSlot t p x) p = some x := by
  simp [slot_setSlot, hp]

/-- A slot that is not written keeps its content. -/
theorem slot_setSlot_of_ne (t : SlotTable α) {p q : ℕ × ℕ} (hq : q ≠ p) (x : α) :
    slot (setSlot t p x) q = slot t q := by
  simp [slot_setSlot, hq]

/-- A write of the content that a slot has changes nothing, any other write changes the table. -/
theorem setSlot_eq_self_iff {t : SlotTable α} {p : ℕ × ℕ} {x y : α} (hp : slot t p = some y) :
    setSlot t p x = t ↔ y = x := by
  constructor
  · intro h
    have hx := slot_setSlot_self hp x
    rw [h, hp] at hx
    exact Option.some.inj hx
  · rintro rfl
    apply List.ext_getElem?
    intro i
    rw [setSlot, List.getElem?_modify]
    cases hrow : t[i]? with
    | none => rfl
    | some row =>
      by_cases hi : p.1 = i
      · rw [slot, hi, hrow, Option.bind_some, List.getElem?_eq_some_iff] at hp
        obtain ⟨hlt, rfl⟩ := hp
        simp [hi]
      · simp [hi]

/-- The slots of one row, from position `k` on, with their names. -/
def scanRow (i : ℕ) : ℕ → List α → List ((ℕ × ℕ) × α)
  | _, [] => []
  | k, x :: xs => ((i, k), x) :: scanRow i (k + 1) xs

/-- The slots of the rows from row `i` on, in the order of a linear search. -/
def scanFrom : ℕ → SlotTable α → List ((ℕ × ℕ) × α)
  | _, [] => []
  | i, row :: rows => scanRow i 0 row ++ scanFrom (i + 1) rows

/-- All slots of the table in the order of a linear search. -/
def scan (t : SlotTable α) : List ((ℕ × ℕ) × α) := scanFrom 0 t

/-- The first slot, in search order, whose content satisfies `f`. -/
def findSlot (f : α → Bool) (t : SlotTable α) : Option ((ℕ × ℕ) × α) :=
  (scan t).find? (fun e => f e.2)

/-- A search for one of two tests where the first one fails everywhere. -/
theorem find?_or_of_none {β : Type*} {f g : β → Bool} {xs : List β} (h : xs.find? f = none) :
    xs.find? (fun x => f x || g x) = xs.find? g := by
  apply List.find?_congr
  intro x hx
  have hmiss : f x = false := by simpa using List.find?_eq_none.mp h x hx
  rw [hmiss, Bool.false_or]

theorem mem_scanRow {i j k l : ℕ} {xs : List α} {x : α} :
    ((j, l), x) ∈ scanRow i k xs ↔ j = i ∧ k ≤ l ∧ xs[l - k]? = some x := by
  induction xs generalizing k with
  | nil => simp [scanRow]
  | cons y ys ih =>
    simp only [scanRow, List.mem_cons, Prod.mk.injEq, ih]
    constructor
    · rintro (⟨⟨rfl, rfl⟩, rfl⟩ | ⟨rfl, hkl, hget⟩)
      · simp
      · refine ⟨rfl, by omega, ?_⟩
        obtain ⟨m, rfl⟩ : ∃ m, l = k + 1 + m := ⟨l - (k + 1), by omega⟩
        have hm : k + 1 + m - k = m + 1 := by omega
        have hm' : k + 1 + m - (k + 1) = m := by omega
        rw [hm]
        rw [hm'] at hget
        simpa using hget
    · rintro ⟨rfl, hkl, hget⟩
      rcases Nat.eq_or_lt_of_le hkl with rfl | hlt
      · left
        simpa [eq_comm] using hget
      · right
        obtain ⟨m, rfl⟩ : ∃ m, l = k + 1 + m := ⟨l - (k + 1), by omega⟩
        have hm : k + 1 + m - k = m + 1 := by omega
        have hm' : k + 1 + m - (k + 1) = m := by omega
        rw [hm] at hget
        rw [hm']
        exact ⟨rfl, by omega, by simpa using hget⟩

/-- A search of a row fails exactly when none of its contents satisfies the test. -/
theorem find?_scanRow_eq_none_iff {i k : ℕ} {f : α → Bool} {xs : List α} :
    (scanRow i k xs).find? (fun e => f e.2) = none ↔ ∀ x ∈ xs, f x = false := by
  rw [List.find?_eq_none]
  constructor
  · intro hnone x hx
    obtain ⟨l, hl⟩ := List.getElem?_of_mem hx
    have hmem : ((i, k + l), x) ∈ scanRow i k xs :=
      mem_scanRow.mpr ⟨rfl, Nat.le_add_right k l, by rwa [Nat.add_sub_cancel_left]⟩
    simpa using hnone _ hmem
  · rintro hmiss ⟨⟨j, l⟩, x⟩ hmem
    have hx := hmiss x (List.mem_of_getElem? (mem_scanRow.mp hmem).2.2)
    simp [hx]

theorem mem_scanFrom {i j l : ℕ} {t : SlotTable α} {x : α} :
    ((j, l), x) ∈ scanFrom i t ↔ i ≤ j ∧ slot t (j - i, l) = some x := by
  induction t generalizing i with
  | nil => simp [scanFrom, slot]
  | cons row rows ih =>
    simp only [scanFrom, List.mem_append, mem_scanRow, ih, slot]
    constructor
    · rintro (⟨rfl, -, hget⟩ | ⟨hij, hget⟩)
      · simpa using hget
      · obtain ⟨m, rfl⟩ : ∃ m, j = i + 1 + m := ⟨j - (i + 1), by omega⟩
        have hm : i + 1 + m - i = m + 1 := by omega
        have hm' : i + 1 + m - (i + 1) = m := by omega
        rw [hm'] at hget
        rw [hm]
        exact ⟨by omega, by simpa using hget⟩
    · rintro ⟨hij, hget⟩
      rcases Nat.eq_or_lt_of_le hij with rfl | hlt
      · left
        simpa using hget
      · right
        obtain ⟨m, rfl⟩ : ∃ m, j = i + 1 + m := ⟨j - (i + 1), by omega⟩
        have hm : i + 1 + m - i = m + 1 := by omega
        have hm' : i + 1 + m - (i + 1) = m := by omega
        rw [hm] at hget
        rw [hm']
        exact ⟨by omega, by simpa using hget⟩

/-- The search order lists every slot with its content. -/
theorem mem_scan {t : SlotTable α} {p : ℕ × ℕ} {x : α} :
    (p, x) ∈ scan t ↔ slot t p = some x := by
  obtain ⟨j, l⟩ := p
  simp [scan, mem_scanFrom]

/-- What a search finds is a slot of the table that satisfies the test. -/
theorem slot_of_findSlot {f : α → Bool} {t : SlotTable α} {p : ℕ × ℕ} {x : α}
    (h : findSlot f t = some (p, x)) : slot t p = some x ∧ f x = true := by
  have hmem := List.mem_of_find?_eq_some h
  have hx := @List.find?_some _ (fun e : (ℕ × ℕ) × α => f e.2) _ _ h
  exact ⟨mem_scan.mp hmem, hx⟩

/-- A search fails exactly when no slot satisfies the test. -/
theorem findSlot_eq_none_iff {f : α → Bool} {t : SlotTable α} :
    findSlot f t = none ↔ ∀ p x, slot t p = some x → f x = false := by
  simp only [findSlot, List.find?_eq_none, Prod.forall, Bool.not_eq_true]
  exact ⟨fun h i k x hx => h i k x (mem_scan.mpr hx), fun h i k x hx => h i k x (mem_scan.mp hx)⟩

/-- A slot that satisfies the test makes the search succeed. -/
theorem exists_findSlot {f : α → Bool} {t : SlotTable α} {p : ℕ × ℕ} {x : α}
    (hp : slot t p = some x) (hx : f x = true) : ∃ q y, findSlot f t = some (q, y) := by
  cases h : findSlot f t with
  | none => simp [findSlot_eq_none_iff.mp h p x hp] at hx
  | some r => exact ⟨r.1, r.2, rfl⟩

/-- When only one slot satisfies the test, that is what the search finds. -/
theorem findSlot_eq_of_unique {f : α → Bool} {t : SlotTable α} {p : ℕ × ℕ} {x : α}
    (hp : slot t p = some x) (hx : f x = true)
    (huniq : ∀ q y, slot t q = some y → f y = true → q = p) : findSlot f t = some (p, x) := by
  obtain ⟨q, y, h⟩ := exists_findSlot hp hx
  obtain ⟨hq, hy⟩ := slot_of_findSlot h
  obtain rfl := huniq q y hq hy
  rw [hp] at hq
  rw [h, Option.some.inj hq]

/-! ## The order of a search -/

/-- The slot exists, and its content satisfies the test. -/
def Holds (f : α → Bool) (t : SlotTable α) (p : ℕ × ℕ) : Prop :=
  ∃ x, slot t p = some x ∧ f x = true

/-- The first place with a property, in the order of a linear search. -/
def IsFirst (P : ℕ × ℕ → Prop) (p : ℕ × ℕ) : Prop :=
  IsLeast {q : ℕ ×ₗ ℕ | P (ofLex q)} (toLex p)

/-- A linear search for `f` is past the place before it ends. -/
def Passes (f : α → Bool) (t : SlotTable α) (p : ℕ × ℕ) : Prop :=
  ∀ q, Holds f t q → toLex p < toLex q

/-- A row is searched in the order of the positions. -/
theorem pairwise_scanRow (i k : ℕ) (xs : List α) :
    (scanRow i k xs).Pairwise fun e e' => toLex e.1 < toLex e'.1 := by
  induction xs generalizing k with
  | nil => exact List.Pairwise.nil
  | cons x xs ih =>
    refine List.pairwise_cons.mpr ⟨?_, ih (k + 1)⟩
    rintro ⟨⟨j, l⟩, y⟩ hmem
    obtain ⟨rfl, hlt, -⟩ := mem_scanRow.mp hmem
    exact Prod.Lex.toLex_lt_toLex.mpr (Or.inr ⟨rfl, hlt⟩)

/-- The rows are searched one behind the other. -/
theorem pairwise_scanFrom (i : ℕ) (t : SlotTable α) :
    (scanFrom i t).Pairwise fun e e' => toLex e.1 < toLex e'.1 := by
  induction t generalizing i with
  | nil => exact List.Pairwise.nil
  | cons row rows ih =>
    refine List.pairwise_append.mpr ⟨pairwise_scanRow i 0 row, ih (i + 1), ?_⟩
    rintro ⟨⟨j, l⟩, x⟩ hmem ⟨⟨j', l'⟩, y⟩ hmem'
    obtain ⟨rfl, -, -⟩ := mem_scanRow.mp hmem
    exact Prod.Lex.toLex_lt_toLex.mpr (Or.inl (mem_scanFrom.mp hmem').1)

section First

variable {f g : α → Bool} {t : SlotTable α} {p : ℕ × ℕ} {x : α}

/-- What a search finds is the first slot that satisfies the test. -/
theorem isFirst_of_findSlot (h : findSlot f t = some (p, x)) : IsFirst (Holds f t) p := by
  refine ⟨⟨x, slot_of_findSlot h⟩, ?_⟩
  rintro q ⟨y, hq, hy⟩
  obtain ⟨-, before, behind, hscan, hbefore⟩ := List.find?_eq_some_iff_append.mp h
  have hmem : (ofLex q, y) ∈ before ++ (p, x) :: behind := hscan ▸ mem_scan.mpr hq
  have horder := pairwise_scanFrom 0 t
  rw [← scan, hscan] at horder
  rcases List.mem_append.mp hmem with hmem | hmem
  · have hmiss := hbefore _ hmem
    simp [hy] at hmiss
  · rcases List.mem_cons.mp hmem with heq | hmem
    · obtain ⟨rfl, -⟩ := Prod.mk.inj heq
      exact le_rfl
    · have hlt := (List.pairwise_cons.mp (List.pairwise_append.mp horder).2.1).1 _ hmem
      exact hlt.le

theorem not_holds_of_findSlot (h : findSlot f t = none) : ¬Holds f t p := by
  rintro ⟨x, hp, hx⟩
  rw [findSlot_eq_none_iff.mp h p x hp] at hx
  cases hx

/-- If the first slot for one of two tests is one for `g`, it is the first one for `g` that a
search for `f` is past when it ends. -/
theorem isFirst_passed (hfg : ∀ y, f y = true → g y = false)
    (h : findSlot (fun y => f y || g y) t = some (p, x)) (hx : g x = true) :
    IsFirst (fun q => Holds g t q ∧ Passes f t q) p := by
  have hp := (slot_of_findSlot h).1
  have hfirst := (isFirst_of_findSlot h).2
  refine ⟨⟨⟨x, hp, hx⟩, ?_⟩, ?_⟩
  · rintro q ⟨y, hq, hy⟩
    have hle : toLex p ≤ toLex q := hfirst ⟨y, hq, by simp [hy]⟩
    refine lt_of_le_of_ne hle fun heq => ?_
    obtain rfl : p = q := toLex.injective heq
    rw [hp, Option.some.injEq] at hq
    rw [hq, hfg y hy] at hx
    cases hx
  · rintro q ⟨⟨y, hq, hy⟩, -⟩
    exact hfirst ⟨y, hq, by simp [hy]⟩

/-- If it is one for `f`, a search for `f` is past no slot for `g` when it ends. -/
theorem not_passed_of_hit (h : findSlot (fun y => f y || g y) t = some (p, x)) (hx : f x = true)
    (q : ℕ × ℕ) : ¬(Holds g t q ∧ Passes f t q) := by
  rintro ⟨⟨y, hq, hy⟩, hpass⟩
  have hle : toLex p ≤ toLex q := (isFirst_of_findSlot h).2 ⟨y, hq, by simp [hy]⟩
  exact absurd (hpass p ⟨x, (slot_of_findSlot h).1, hx⟩) (not_lt_of_ge hle)

/-- If there is none, there is none for `g`. -/
theorem not_passed_of_none (h : findSlot (fun y => f y || g y) t = none) (q : ℕ × ℕ) :
    ¬(Holds g t q ∧ Passes f t q) := by
  rintro ⟨⟨y, hq, hy⟩, -⟩
  exact not_holds_of_findSlot h ⟨y, hq, by simp [hy]⟩

end First

/-! ## Writes and searches -/

/-- Of two writes of a slot the second one counts. -/
theorem setSlot_setSlot (t : SlotTable α) (p : ℕ × ℕ) (x y : α) :
    setSlot (setSlot t p x) p y = setSlot t p y := by
  unfold setSlot
  rw [List.modify_modify_eq]
  congr 1
  funext row
  simp

/-- A search that failed finds the slot that is written with a content it looks for. -/
theorem findSlot_setSlot_of_none {f : α → Bool} {t : SlotTable α} {p : ℕ × ℕ} {x y : α}
    (h : findSlot f t = none) (hp : slot t p = some y) (hx : f x = true) :
    findSlot f (setSlot t p x) = some (p, x) := by
  apply findSlot_eq_of_unique (slot_setSlot_self hp x) hx
  intro q z hq hz
  by_contra hne
  rw [slot_setSlot_of_ne t hne] at hq
  rw [findSlot_eq_none_iff.mp h q z hq] at hz
  cases hz

/-- A search that failed fails after a write of a content it does not look for. -/
theorem findSlot_setSlot_eq_none {f : α → Bool} {t : SlotTable α} {p : ℕ × ℕ} {x : α}
    (h : findSlot f t = none) (hx : f x = false) : findSlot f (setSlot t p x) = none := by
  rw [findSlot_eq_none_iff]
  intro q z hq
  by_cases hqp : q = p
  · subst hqp
    rw [slot_setSlot, if_pos rfl] at hq
    obtain ⟨-, -, rfl⟩ := Option.map_eq_some_iff.mp hq
    exact hx
  · rw [slot_setSlot_of_ne t hqp] at hq
    exact findSlot_eq_none_iff.mp h q z hq

/-- A table whose rows all consist of one content has nothing else. -/
theorem slot_replicate {n m : ℕ} {x y : α} {p : ℕ × ℕ}
    (h : slot (List.replicate n (List.replicate m x)) p = some y) : y = x := by
  obtain ⟨row, hrow, hget⟩ := Option.bind_eq_some_iff.mp h
  obtain ⟨_, hrow'⟩ := List.getElem?_eq_some_iff.mp hrow
  rw [List.getElem_replicate] at hrow'
  subst hrow'
  obtain ⟨_, hget'⟩ := List.getElem?_eq_some_iff.mp hget
  simpa [eq_comm] using hget'

end SlotTable

end EmbeddedOs.Lib
