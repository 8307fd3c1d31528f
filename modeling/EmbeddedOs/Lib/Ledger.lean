import Mathlib.Algebra.Ring.Int.Defs
import Mathlib.Tactic.Ring

/-!
# Ledgers of resources

A ledger is the list of the resources that a piece of code acquires and releases, in order. It is
balanced if every resource that is acquired is released exactly once before it is acquired again,
and none is released that was not acquired. What is held elsewhere is the same behind a balanced
ledger as before it.
-/

namespace EmbeddedOs.Lib.Ledger

/-- A resource is acquired or released. -/
inductive Posting (ρ : Type*)
  /-- The resource is acquired. -/
  | acquire (r : ρ)
  /-- The resource is released. -/
  | release (r : ρ)
  deriving DecidableEq

variable {ρ : Type*} [DecidableEq ρ] {r : ρ} {log log' : List (Posting ρ)}

/-- Whether a resource is held after a posting; `none` after a release of a resource that is not
held, or a second acquisition. -/
def step (r : ρ) (held : Option Bool) : Posting ρ → Option Bool
  | .acquire r' => if r' = r then (if held = some false then some true else none) else held
  | .release r' => if r' = r then (if held = some true then some false else none) else held

/-- Whether a resource is held after a ledger. -/
def heldAfter (r : ρ) (log : List (Posting ρ)) : Option Bool := log.foldl (step r) (some false)

/-- Every resource that is acquired is released exactly once. -/
def Balanced (log : List (Posting ρ)) : Prop := ∀ r, heldAfter r log = some false

/-- The number of a resource that a posting adds. -/
def Posting.amount (r : ρ) : Posting ρ → ℤ
  | .acquire r' => if r' = r then 1 else 0
  | .release r' => if r' = r then -1 else 0

/-- What is held of each resource after a ledger. -/
def post (held : ρ → ℤ) (log : List (Posting ρ)) : ρ → ℤ :=
  fun r => held r + (log.map (Posting.amount r)).sum

theorem heldAfter_append : heldAfter r (log ++ log') = log'.foldl (step r) (heldAfter r log) :=
  List.foldl_append

/-- Balanced ledgers behind each other are balanced. -/
theorem Balanced.append (h : Balanced log) (h' : Balanced log') : Balanced (log ++ log') := by
  intro r
  rw [heldAfter_append, h r]
  exact h' r

/-- A fault stays one. -/
theorem foldl_step_none : log.foldl (step r) none = none := by
  induction log with
  | nil => rfl
  | cons e log ih =>
    have hnone : step r none e = none := by
      cases e with
      | acquire r' => simp [step]
      | release r' => simp [step]
    rw [List.foldl_cons, hnone, ih]

/-- A ledger without a fault adds one of a resource if it ends with it held. -/
theorem sum_amount {held held' : Bool} (h : log.foldl (step r) (some held) = some held') :
    (log.map (Posting.amount r)).sum = (if held' then 1 else 0) - if held then 1 else 0 := by
  induction log generalizing held with
  | nil =>
    cases h
    simp
  | cons e log ih =>
    rw [List.foldl_cons] at h
    rw [List.map_cons, List.sum_cons]
    cases hstep : step r (some held) e with
    | none =>
      rw [hstep, foldl_step_none] at h
      cases h
    | some next =>
      rw [hstep] at h
      rw [ih h]
      have hamount : e.amount r = (if next then 1 else 0) - if held then 1 else 0 := by
        cases e with
        | acquire r' =>
          by_cases hr : r' = r
          · cases held <;> simp_all [step, Posting.amount]
          · simp only [step, if_neg hr, Option.some.injEq] at hstep
            simp [Posting.amount, hr, hstep]
        | release r' =>
          by_cases hr : r' = r
          · cases held <;> simp_all [step, Posting.amount]
          · simp only [step, if_neg hr, Option.some.injEq] at hstep
            simp [Posting.amount, hr, hstep]
      rw [hamount]
      ring

/-- Behind a balanced ledger as much is held as before it. -/
theorem Balanced.post_eq (h : Balanced log) (held : ρ → ℤ) : post held log = held := by
  funext r
  rw [post, sum_amount (h r)]
  simp

/-- A resource that is still held is one more than before. -/
theorem post_of_held (h : heldAfter r log = some true) (held : ρ → ℤ) :
    post held log r = held r + 1 := by
  rw [post, sum_amount h]
  simp

end EmbeddedOs.Lib.Ledger
