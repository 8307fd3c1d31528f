import Mathlib.Data.List.Basic

/-!
# Listings that are read in pages

A listing of entries of different sizes is read in pages: each page is filled from the front
of what is left, up to the first entry that has no room. Whatever the rooms of the pages are,
together they are a prefix of the listing, and if every entry has room, a page is empty
exactly at the end.
-/

namespace EmbeddedOs.Lib.Paging

variable {α : Type*} (size : α → ℕ)

/-- The size of a list of entries. -/
def width : List α → ℕ
  | [] => 0
  | x :: xs => size x + width xs

/-- The entries from the front that have room. -/
def fill : ℕ → List α → List α
  | _, [] => []
  | room, x :: xs => if room < size x then [] else x :: fill (room - size x) xs

/-- The pages of a listing, for their rooms. -/
def pages : List ℕ → List α → List (List α)
  | [], _ => []
  | room :: rooms, xs => fill size room xs :: pages rooms (xs.drop (fill size room xs).length)

variable {size} {room : ℕ} {rooms : List ℕ} {x : α} {xs ys : List α}

@[simp] theorem width_nil : width size [] = 0 := rfl

@[simp] theorem width_cons : width size (x :: xs) = size x + width size xs := rfl

@[simp] theorem width_append : width size (xs ++ ys) = width size xs + width size ys := by
  induction xs with
  | nil => exact (Nat.zero_add _).symm
  | cons x xs ih => rw [List.cons_append, width_cons, width_cons, ih, Nat.add_assoc]

/-- Small entries have room together. -/
theorem width_le (size : α → ℕ) (xs : List α) {bound : ℕ} (h : ∀ x ∈ xs, size x ≤ bound) :
    width size xs ≤ bound * xs.length := by
  induction xs with
  | nil => exact Nat.zero_le _
  | cons x xs ih =>
    have hx := h x List.mem_cons_self
    have hxs := ih fun y hy => h y (List.mem_cons_of_mem _ hy)
    rw [width_cons, List.length_cons, Nat.mul_succ]
    omega

@[simp] theorem fill_nil : fill size room [] = [] := rfl

/-- An entry that has no room ends the page. -/
theorem fill_cons_of_lt (h : room < size x) : fill size room (x :: xs) = [] := if_pos h

/-- An entry that has room is on the page. -/
theorem fill_cons_of_le (h : size x ≤ room) :
    fill size room (x :: xs) = x :: fill size (room - size x) xs := if_neg (by omega)

/-- A page is a prefix of what is left. -/
theorem fill_isPrefix (size : α → ℕ) (room : ℕ) (xs : List α) : fill size room xs <+: xs := by
  induction xs generalizing room with
  | nil => exact List.prefix_rfl
  | cons x xs ih =>
    unfold fill
    split
    · exact List.nil_prefix
    · exact List.cons_prefix_cons.mpr ⟨rfl, ih _⟩

/-- A page and what is left after it. -/
theorem fill_append_drop (size : α → ℕ) (room : ℕ) (xs : List α) :
    fill size room xs ++ xs.drop (fill size room xs).length = xs := by
  have htake := List.prefix_iff_eq_take.mp (fill_isPrefix size room xs)
  conv_lhs =>
    arg 1
    rw [htake]
  exact List.take_append_drop _ xs

/-- The entries of a page have room. -/
theorem width_fill_le (room : ℕ) (xs : List α) : width size (fill size room xs) ≤ room := by
  induction xs generalizing room with
  | nil => exact Nat.zero_le _
  | cons x xs ih =>
    by_cases hroom : room < size x
    · rw [fill_cons_of_lt hroom]
      exact Nat.zero_le _
    · have hrest := ih (room - size x)
      rw [fill_cons_of_le (by omega), width_cons]
      omega

/-- A page that has room for everything has everything. -/
theorem fill_eq_self (h : width size xs ≤ room) : fill size room xs = xs := by
  induction xs generalizing room with
  | nil => rfl
  | cons x xs ih =>
    rw [width_cons] at h
    rw [fill_cons_of_le (by omega), ih (by omega)]

/-- A page on which every entry has room is empty only at the end. -/
theorem fill_eq_nil (h : ∀ x ∈ xs, size x ≤ room) : fill size room xs = [] ↔ xs = [] := by
  constructor
  · intro hnil
    cases xs with
    | nil => rfl
    | cons x xs =>
      rw [fill_cons_of_le (h x List.mem_cons_self)] at hnil
      cases hnil
  · rintro rfl
    rfl

/-- Together the pages are a prefix of the listing. -/
theorem flatten_pages (size : α → ℕ) (rooms : List ℕ) (xs : List α) :
    (pages size rooms xs).flatten ++ xs.drop (pages size rooms xs).flatten.length = xs := by
  induction rooms generalizing xs with
  | nil => rfl
  | cons room rooms ih =>
    have hrest := ih (xs.drop (fill size room xs).length)
    unfold pages
    rw [List.flatten_cons, List.length_append, List.append_assoc, ← List.drop_drop, hrest]
    exact fill_append_drop size room xs

/-- If every entry has room, a page is empty exactly if the pages before it have everything. -/
theorem getElem?_pages_eq_nil (h : ∀ room ∈ rooms, ∀ x ∈ xs, size x ≤ room) {k : ℕ}
    (hk : k < rooms.length) : (pages size rooms xs)[k]? = some [] ↔
      ((pages size rooms xs).take k).flatten = xs := by
  induction rooms generalizing xs k with
  | nil => exact absurd hk (Nat.not_lt_zero k)
  | cons room rooms ih =>
    unfold pages
    cases k with
    | zero =>
      have hnil := fill_eq_nil (h room List.mem_cons_self)
      simp only [List.getElem?_cons_zero, Option.some.injEq, hnil, List.take_zero,
        List.flatten_nil]
      exact eq_comm
    | succ k =>
      have hroom : ∀ room' ∈ rooms, ∀ x ∈ xs.drop (fill size room xs).length, size x ≤ room' :=
        fun room' hroom' x hx => h room' (List.mem_cons_of_mem _ hroom') x (List.mem_of_mem_drop hx)
      have hrest := ih hroom (k := k) (by simpa using hk)
      rw [List.getElem?_cons_succ, List.take_succ_cons, List.flatten_cons, hrest]
      constructor
      · intro hall
        rw [hall]
        exact fill_append_drop size room xs
      · intro hall
        have hboth := hall.trans (fill_append_drop size room xs).symm
        exact List.append_cancel_left hboth

/-- If every entry has room, as many pages as entries are enough. -/
theorem flatten_pages_eq (h : ∀ room ∈ rooms, ∀ x ∈ xs, size x ≤ room)
    (hlen : xs.length ≤ rooms.length) : (pages size rooms xs).flatten = xs := by
  induction rooms generalizing xs with
  | nil =>
    obtain rfl : xs = [] := List.length_eq_zero_iff.mp (by simpa using hlen)
    rfl
  | cons room rooms ih =>
    have hfill := fill_eq_nil (h room List.mem_cons_self)
    have hdrop : (xs.drop (fill size room xs).length).length ≤ rooms.length := by
      rw [List.length_drop]
      rw [List.length_cons] at hlen
      by_cases hnil : xs = []
      · rw [hnil, List.length_nil]
        omega
      · have hpos := List.length_pos_iff.mpr (mt hfill.mp hnil)
        omega
    have hroom : ∀ room' ∈ rooms, ∀ x ∈ xs.drop (fill size room xs).length, size x ≤ room' :=
      fun room' hroom' x hx => h room' (List.mem_cons_of_mem _ hroom') x (List.mem_of_mem_drop hx)
    have hrest := ih hroom hdrop
    unfold pages
    rw [List.flatten_cons, hrest]
    exact fill_append_drop size room xs

end EmbeddedOs.Lib.Paging
