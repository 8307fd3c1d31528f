import Mathlib.Data.List.DropRight

/-!
# Flags

Some items of a sequence raise a flag and some clear it, and an item that clears it does so last.
The flag is up behind the sequence if one of the items since the last that cleared it raised it.
-/

namespace EmbeddedOs.Lib.Flags

variable {α : Type*} {raises clears : α → Bool} {flag : Bool} {x : α} {xs : List α}

/-- The flag after an item. -/
def step (raises clears : α → Bool) (flag : Bool) (x : α) : Bool := !clears x && (flag || raises x)

/-- The flag after a sequence. -/
def after (raises clears : α → Bool) (flag : Bool) (xs : List α) : Bool :=
  xs.foldl (step raises clears) flag

/-- The items since the last that cleared the flag. -/
def pending (clears : α → Bool) (xs : List α) : List α := xs.rtakeWhile fun x => !clears x

@[simp] theorem after_nil : after raises clears flag [] = flag := rfl

@[simp] theorem pending_nil : pending clears [] = [] := List.rtakeWhile_nil _

theorem after_concat : after raises clears flag (xs ++ [x]) =
    step raises clears (after raises clears flag xs) x := by
  rw [after, List.foldl_append]
  rfl

theorem pending_concat_of_clears (h : clears x = true) : pending clears (xs ++ [x]) = [] :=
  List.rtakeWhile_concat_neg _ _ _ (by simp [h])

theorem pending_concat (h : clears x = false) :
    pending clears (xs ++ [x]) = pending clears xs ++ [x] :=
  List.rtakeWhile_concat_pos _ _ _ (by simp [h])

/-- A flag that is down at first is up if a pending item raised it. -/
theorem after_false : after raises clears false xs = (pending clears xs).any raises := by
  induction xs using List.reverseRecOn with
  | nil => rw [after_nil, pending_nil, List.any_nil]
  | append_singleton xs x ih =>
    rw [after_concat, ih, step]
    cases hclears : clears x with
    | false =>
      rw [pending_concat hclears, List.any_append, List.any_cons, List.any_nil, Bool.or_false,
        Bool.not_false, Bool.true_and]
    | true => rw [pending_concat_of_clears hclears, Bool.not_true, Bool.false_and, List.any_nil]

end EmbeddedOs.Lib.Flags
