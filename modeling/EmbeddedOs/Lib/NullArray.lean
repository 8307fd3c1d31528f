import Mathlib.Data.List.Basic

/-!
# Arrays that end with a null pointer

The cells of an array of pointers, and a walk over them that deletes pairs in place: an element that
is to go is overwritten by the cell two places on. The cells behind the walk are final, and those
before it are as they were.
-/

namespace EmbeddedOs.Lib.NullArray

variable {α : Type*} {p q : α → Bool} {a b x : α} {xs : List α} {cells tail : List (Option α)}

/-- The elements with a null pointer behind them. -/
def ofList (xs : List α) : List (Option α) := xs.map some ++ [none]

/-- The elements before the first null pointer. -/
def toList : List (Option α) → List α
  | [] => []
  | none :: _ => []
  | some x :: cells => x :: toList cells

/-- The walk to the first null pointer. It fails where it reads behind the cells. -/
def closeUp (p : α → Bool) : List (Option α) → Option (List (Option α))
  | [] => none
  | none :: cells => some (none :: cells)
  | some x :: cells =>
    (if p x then cells[1]? else some (some x)).bind fun cell => (closeUp p cells).map (cell :: ·)

theorem toList_append (xs : List α) (tail : List (Option α)) :
    toList (xs.map some ++ none :: tail) = xs := by
  induction xs with
  | nil => rfl
  | cons x xs ih => rw [List.map_cons, List.cons_append, toList, ih]

@[simp] theorem toList_ofList (xs : List α) : toList (ofList xs) = xs := toList_append xs []

@[simp] theorem closeUp_null (p : α → Bool) (cells : List (Option α)) :
    closeUp p (none :: cells) = some (none :: cells) := rfl

/-- The element `x` stays. -/
theorem closeUp_cons_neg (h : p x = false) :
    closeUp p (some x :: cells) = (closeUp p cells).map (some x :: ·) := by
  rw [closeUp, h]
  rfl

/-- The element `x` goes. -/
theorem closeUp_cons_pos (h : p x = true) (cell cell' : Option α) :
    closeUp p (some x :: cell :: cell' :: cells) =
      (closeUp p (cell :: cell' :: cells)).map (cell' :: ·) := by
  rw [closeUp, if_pos h]
  rfl

/-- Elements that stay. -/
theorem closeUp_append (h : ∀ x ∈ xs, p x = false) (cells : List (Option α)) :
    closeUp p (xs.map some ++ cells) = (closeUp p cells).map (xs.map some ++ ·) := by
  induction xs with
  | nil => simp
  | cons x xs ih =>
    obtain ⟨hx, hxs⟩ := List.forall_mem_cons.mp h
    rw [List.map_cons, List.cons_append, closeUp_cons_neg hx, ih hxs, Option.map_map]
    rfl

/-- A walk over elements that all stay changes nothing. -/
theorem closeUp_of_forall (h : ∀ x ∈ xs, p x = false) (tail : List (Option α)) :
    closeUp p (xs.map some ++ none :: tail) = some (xs.map some ++ none :: tail) := by
  rw [closeUp_append h, closeUp_null]
  rfl

/-- The first element that goes, with one behind it that stays. -/
theorem closeUp_delete (hxs : ∀ x ∈ xs, p x = false) (ha : p a = true) (hb : p b = false)
    (cell : Option α) (cells : List (Option α)) :
    closeUp p (xs.map some ++ some a :: some b :: cell :: cells) =
      (closeUp p (cell :: cells)).map (xs.map some ++ cell :: some b :: ·) := by
  rw [closeUp_append hxs, closeUp_cons_pos ha, closeUp_cons_neg hb, Option.map_map, Option.map_map]
  rfl

/-- What the walk makes of `xs` where two elements are behind it. -/
def moved (p : α → Bool) (xs : List α) (a b : α) : List α :=
  List.zipWith (fun x far => if p x then far else x) xs ((xs ++ [a, b]).drop 2)

@[simp] theorem length_moved (p : α → Bool) (xs : List α) (a b : α) :
    (moved p xs a b).length = xs.length := by
  simp [moved]

/-- Elements with two behind them: none of them becomes a null pointer. -/
theorem closeUp_moved (p : α → Bool) (xs : List α) (a b : α) (cells : List (Option α)) :
    closeUp p (xs.map some ++ some a :: some b :: cells) =
      (closeUp p (some a :: some b :: cells)).map ((moved p xs a b).map some ++ ·) := by
  induction xs with
  | nil => simp [moved]
  | cons x xs ih =>
    obtain ⟨y, z, rest, hrest⟩ : ∃ y z rest, xs ++ [a, b] = y :: z :: rest := by
      match xs with
      | [] => exact ⟨a, b, [], rfl⟩
      | [y] => exact ⟨y, a, [b], rfl⟩
      | y :: z :: zs => exact ⟨y, z, zs ++ [a, b], rfl⟩
    have hcells : xs.map some ++ some a :: some b :: cells =
        some y :: some z :: (rest.map some ++ cells) := by
      have hmap := congrArg (fun l => l.map some ++ cells) hrest
      simpa using hmap
    have hmoved : moved p (x :: xs) a b = (if p x then z else x) :: moved p xs a b := by
      simp [moved, hrest]
    rw [List.map_cons, List.cons_append, hmoved, List.map_cons]
    cases hx : p x with
    | false =>
      rw [closeUp_cons_neg hx, ih, Option.map_map]
      rfl
    | true =>
      rw [hcells, closeUp_cons_pos hx, ← hcells, ih, Option.map_map]
      rfl

/-- The last element of the walk. -/
theorem closeUp_last (p : α → Bool) (b : α) (tail : List (Option α)) :
    closeUp p (some b :: none :: tail) =
      (if p b then tail.head? else some (some b)).map (· :: none :: tail) := by
  rw [closeUp, closeUp_null, List.getElem?_cons_succ, ← List.head?_eq_getElem?]
  cases (if p b then tail.head? else some (some b)) <;> rfl

/-- A walk over two elements or more. Only the next to last can become a null pointer, and the last
one is overwritten by what is behind the null pointer. -/
theorem closeUp_pair (p : α → Bool) (xs : List α) (a b : α) (tail : List (Option α)) :
    closeUp p ((xs ++ [a, b]).map some ++ none :: tail) =
      (if p b then tail.head? else some (some b)).map fun cell =>
        (moved p xs a b).map some ++ (if p a then none else some a) :: cell :: none :: tail := by
  have hcells : (xs ++ [a, b]).map some ++ none :: tail =
      xs.map some ++ some a :: some b :: none :: tail := by
    simp
  rw [hcells, closeUp_moved]
  cases ha : p a with
  | false =>
    rw [closeUp_cons_neg ha, closeUp_last, Option.map_map, Option.map_map]
    rfl
  | true =>
    rw [closeUp_cons_pos ha, closeUp_last, Option.map_map, Option.map_map]
    rfl

/-- A list has no element, one, or two at its end. -/
theorem pair_cases (xs : List α) : xs = [] ∨ (∃ x, xs = [x]) ∨ ∃ ys a b, xs = ys ++ [a, b] := by
  obtain rfl | ⟨zs, b, rfl⟩ := List.eq_nil_or_concat xs
  · exact Or.inl rfl
  · obtain rfl | ⟨ys, a, rfl⟩ := List.eq_nil_or_concat zs
    · exact Or.inr (Or.inl ⟨b, rfl⟩)
    · exact Or.inr (Or.inr ⟨ys, a, b, by simp⟩)

/-! ## One walk -/

/-- The elements before the null pointer behind a walk. -/
def dropPair (p : α → Bool) (xs : List α) : List α :=
  if xs.dropLast.getLast?.any p then xs.dropLast.dropLast else xs

@[simp] theorem dropPair_nil : dropPair p [] = [] := rfl

@[simp] theorem dropPair_singleton : dropPair p [x] = [x] := rfl

@[simp] theorem dropPair_pair :
    dropPair p (xs ++ [a, b]) = if p a then xs else xs ++ [a, b] := by
  have hlast : (xs ++ [a, b]).dropLast = xs ++ [a] := by
    rw [List.dropLast_append_of_ne_nil (List.cons_ne_nil _ _)]
    rfl
  simp only [dropPair, hlast, List.getLast?_concat, Option.any_some, List.dropLast_concat]

/-- Nothing is before the null pointer. -/
theorem dropPair_eq_nil_iff : dropPair p xs = [] ↔ xs = [] ∨ ∃ a b, xs = [a, b] ∧ p a = true := by
  constructor
  · intro h
    obtain rfl | ⟨x, rfl⟩ | ⟨ys, a, b, rfl⟩ := pair_cases xs
    · exact Or.inl rfl
    · cases h
    · rw [dropPair_pair] at h
      split_ifs at h with ha
      · subst h
        exact Or.inr ⟨a, b, rfl, ha⟩
      · simp at h
  · rintro (rfl | ⟨a, b, rfl, ha⟩)
    · rfl
    · change dropPair p ([] ++ [a, b]) = []
      rw [dropPair_pair, if_pos ha]

/-- Two elements are before the null pointer. -/
theorem dropPair_eq_pair_iff : dropPair p xs = [a, b] ↔
    xs = [a, b] ∧ p a = false ∨ ∃ c d, xs = [a, b, c, d] ∧ p c = true := by
  constructor
  · intro h
    obtain rfl | ⟨x, rfl⟩ | ⟨ys, c, d, rfl⟩ := pair_cases xs
    · cases h
    · cases h
    · rw [dropPair_pair] at h
      split_ifs at h with hc
      · subst h
        exact Or.inr ⟨c, d, rfl, hc⟩
      · obtain ⟨rfl, hpair⟩ := List.append_inj' (h.trans (List.nil_append _).symm) rfl
        cases hpair
        exact Or.inl ⟨rfl, Bool.eq_false_iff.mpr hc⟩
  · rintro (⟨rfl, ha⟩ | ⟨c, d, rfl, hc⟩)
    · change dropPair p ([] ++ [a, b]) = [] ++ [a, b]
      rw [dropPair_pair, if_neg (by simp [ha])]
    · change dropPair p ([a, b] ++ [c, d]) = [a, b]
      rw [dropPair_pair, if_pos hc]

theorem moved_append (p : α → Bool) (xs : List α) (c d a b : α) :
    moved p (xs ++ [c, d]) a b =
      moved p xs c d ++ [if p c then a else c, if p d then b else d] := by
  have hdrop : (xs ++ [c, d] ++ [a, b]).drop 2 = (xs ++ [c, d]).drop 2 ++ [a, b] :=
    List.drop_append_of_le_length (by simp)
  rw [moved, hdrop, List.zipWith_append (by simp)]
  rfl

/-- The walk fails if the last element goes and nothing is behind the null pointer. -/
theorem closeUp_eq_none_iff :
    closeUp p (xs.map some ++ none :: tail) = none ↔ tail = [] ∧ xs.getLast?.any p = true := by
  obtain rfl | ⟨x, rfl⟩ | ⟨ys, a, b, rfl⟩ := pair_cases xs
  · simp
  · rw [List.map_singleton, List.singleton_append, closeUp_last]
    cases hx : p x <;> simp [hx]
  · rw [closeUp_pair]
    cases hb : p b <;> simp [hb]

/-- A walk leaves a null pointer. -/
theorem null_mem_closeUp {out : List (Option α)} (h : closeUp p cells = some out) :
    none ∈ out := by
  induction cells generalizing out with
  | nil => cases h
  | cons cell cells ih =>
    cases cell with
    | none =>
      cases h
      exact List.mem_cons_self
    | some x =>
      obtain ⟨cell, -, hcells⟩ := Option.bind_eq_some_iff.mp h
      obtain ⟨rest, hrest, rfl⟩ := Option.map_eq_some_iff.mp hcells
      exact List.mem_cons_of_mem _ (ih hrest)

/-- A walk that deletes nothing. -/
theorem closeUp_false (h : none ∈ cells) : closeUp (fun _ => false) cells = some cells := by
  induction cells with
  | nil => cases h
  | cons cell cells ih =>
    cases cell with
    | none => rfl
    | some x =>
      have hcells : none ∈ cells := by simpa using h
      rw [closeUp_cons_neg rfl, ih hcells]
      rfl

/-! ## Two walks -/

/-- The first walk over two elements or more. -/
theorem closeUp_ofList_pair (h : p b = false) : closeUp p (ofList (xs ++ [a, b])) =
    some (if p a then (moved p xs a b).map some ++ none :: [some b, none]
      else ofList (moved p xs a b ++ [a, b])) := by
  rw [ofList, closeUp_pair, h]
  cases p a <;> simp [ofList]

theorem closeUp_ofList_singleton (h : p x = false) :
    closeUp p (ofList [x]) = some (ofList [x]) :=
  closeUp_of_forall (by simpa using h) []

/-- A walk over an array fails if the last element goes. -/
theorem closeUp_ofList_eq_none_iff :
    closeUp p (ofList xs) = none ↔ ∃ b ∈ xs.getLast?, p b = true := by
  rw [ofList, closeUp_eq_none_iff, Option.any_eq_true]
  simp

/-- The two walks fail if the last element goes: in the first one, or in the second one where the
first has left the null pointer behind it. -/
theorem closeUp_twice_eq_none_iff :
    (closeUp p (ofList xs)).bind (closeUp q) = none ↔
      ∃ b ∈ xs.getLast?, p b = true ∨ q b = true ∧ dropPair p xs = xs := by
  by_cases hlast : ∃ b ∈ xs.getLast?, p b = true
  · obtain ⟨b, hb, hp⟩ := hlast
    rw [closeUp_ofList_eq_none_iff.mpr ⟨b, hb, hp⟩]
    exact ⟨fun _ => ⟨b, hb, Or.inl hp⟩, fun _ => rfl⟩
  · have hstay : ∀ b ∈ xs.getLast?, p b = false := by
      intro b hb
      exact Bool.eq_false_iff.mpr fun hp => hlast ⟨b, hb, hp⟩
    obtain rfl | ⟨x, rfl⟩ | ⟨ys, a, b, rfl⟩ := pair_cases xs
    · simp [ofList]
    · have hx := hstay x rfl
      rw [closeUp_ofList_singleton hx, Option.bind_some, closeUp_ofList_eq_none_iff]
      simp [hx]
    · have hb := hstay b (by simp)
      rw [closeUp_ofList_pair hb, Option.bind_some, dropPair_pair]
      cases ha : p a with
      | true => simp [closeUp_eq_none_iff, hb]
      | false => simp [closeUp_ofList_eq_none_iff, hb]

/-- How many elements a walk leaves. -/
theorem length_toList_closeUp {out : List (Option α)} (htail : tail.head? ≠ some none)
    (h : closeUp p (xs.map some ++ none :: tail) = some out) :
    (toList out).length = (dropPair p xs).length := by
  have hcell : ∀ (x : α) (cell : Option α),
      (if p x then tail.head? else some (some x)) = some cell → ∃ y, cell = some y := by
    intro x cell hx
    cases hp : p x with
    | true =>
      rw [hp, if_pos rfl] at hx
      exact Option.ne_none_iff_exists'.mp fun hnone => htail (hnone ▸ hx)
    | false =>
      rw [hp, if_neg (by simp)] at hx
      cases hx
      exact ⟨x, rfl⟩
  obtain rfl | ⟨x, rfl⟩ | ⟨ys, a, b, rfl⟩ := pair_cases xs
  · cases h
    rfl
  · rw [List.map_singleton, List.singleton_append, closeUp_last] at h
    obtain ⟨cell, hx, rfl⟩ := Option.map_eq_some_iff.mp h
    obtain ⟨y, rfl⟩ := hcell x cell hx
    rfl
  · rw [closeUp_pair] at h
    obtain ⟨cell, hb, rfl⟩ := Option.map_eq_some_iff.mp h
    obtain ⟨y, rfl⟩ := hcell b cell hb
    rw [dropPair_pair]
    cases p a with
    | true =>
      rw [if_pos rfl, if_pos rfl, toList_append, length_moved]
    | false =>
      have hlist := congrArg List.length (toList_append (moved p ys a b ++ [a, y]) tail)
      simpa using hlist

/-- The first walk changes an element for another that goes. -/
theorem length_dropPair_moved (hpq : (∀ x, p x = true → q x = true) ∨ ∀ x, q x = false)
    (ha : p a = true) : (dropPair q (moved p xs a b)).length = (dropPair q xs).length := by
  obtain rfl | ⟨x, rfl⟩ | ⟨ys, c, d, rfl⟩ := pair_cases xs
  · rfl
  · rfl
  · have hq : q (if p c then a else c) = q c := by
      cases hc : p c with
      | false => rfl
      | true =>
        rcases hpq with himp | hnone
        · rw [if_pos rfl, himp a ha, himp c hc]
        · rw [hnone, hnone]
    rw [moved_append, dropPair_pair, dropPair_pair, hq]
    cases q c <;> simp

/-- How many elements the two walks leave, if the second one deletes what the first one does. -/
theorem length_toList_twice {mid out : List (Option α)}
    (hpq : (∀ x, p x = true → q x = true) ∨ ∀ x, q x = false)
    (hmid : closeUp p (ofList xs) = some mid) (hout : closeUp q mid = some out) :
    (toList out).length = (dropPair q (dropPair p xs)).length := by
  obtain rfl | ⟨x, rfl⟩ | ⟨ys, a, b, rfl⟩ := pair_cases xs
  · cases hmid
    cases hout
    rfl
  · have hx : p x = false := by
      by_contra hx
      rw [closeUp_ofList_eq_none_iff.mpr ⟨x, rfl, by simpa using hx⟩] at hmid
      cases hmid
    rw [closeUp_ofList_singleton hx] at hmid
    cases hmid
    exact length_toList_closeUp (by simp) hout
  · have hb : p b = false := by
      by_contra hb
      rw [closeUp_ofList_eq_none_iff.mpr ⟨b, by simp, by simpa using hb⟩] at hmid
      cases hmid
    rw [closeUp_ofList_pair hb] at hmid
    cases ha : p a with
    | true =>
      rw [ha, if_pos rfl] at hmid
      cases hmid
      rw [length_toList_closeUp (by simp) hout, length_dropPair_moved hpq ha, dropPair_pair,
        if_pos ha]
    | false =>
      rw [ha, if_neg (by simp)] at hmid
      cases hmid
      rw [length_toList_closeUp (by simp) hout]
      simp only [dropPair_pair, ha, Bool.false_eq_true, if_false]
      cases q a <;> simp

end EmbeddedOs.Lib.NullArray
