import Mathlib.Logic.Basic

/-!
# Guarded runs of a labelled machine

A machine is a set of initial states and a labelled step relation. A *guard* says
which steps a run may take from a state; the runs of a program under a promise of
its callers, or up to a known defect, are the guarded runs. An invariant has to be
preserved by the guarded steps only, and a simulation has to answer only these.
-/

namespace EmbeddedOs.Lib

/-- A labelled machine over states `σ` and labels `α`. -/
structure Machine (σ α : Type*) where
  /-- The states a run may start in. -/
  init : σ → Prop
  /-- `step s a t`: the machine can move from `s` to `t` with label `a`. -/
  step : σ → α → σ → Prop

namespace Machine

variable {σ τ α : Type*} {M : Machine σ α} {N : Machine τ α} {ok ok' : σ → α → Prop}

/-- The states reached by runs all of whose steps meet the guard `ok`. -/
inductive Reachable (M : Machine σ α) (ok : σ → α → Prop) : σ → Prop
  /-- Every initial state is reached. -/
  | init {s : σ} : M.init s → Reachable M ok s
  /-- A step that meets the guard extends a run. -/
  | step {s t : σ} {a : α} : Reachable M ok s → ok s a → M.step s a t → Reachable M ok t

/-- A predicate that holds initially and is preserved by the guarded steps holds of
every state a guarded run reaches. -/
theorem Reachable.invariant {I : σ → Prop} (hinit : ∀ s, M.init s → I s)
    (hstep : ∀ s a t, I s → ok s a → M.step s a t → I t) {s : σ}
    (h : M.Reachable ok s) : I s := by
  induction h with
  | init h => exact hinit _ h
  | step _ hok hst ih => exact hstep _ _ _ ih hok hst

/-- The same with the reachability of the source state at hand, for an invariant that
builds on others. -/
theorem Reachable.invariant_of_reachable {I : σ → Prop} (hinit : ∀ s, M.init s → I s)
    (hstep : ∀ s a t, M.Reachable ok s → I s → ok s a → M.step s a t → I t) {s : σ}
    (h : M.Reachable ok s) : I s := by
  induction h with
  | init h => exact hinit _ h
  | step hs hok hst ih => exact hstep _ _ _ hs ih hok hst

/-- A weaker guard reaches at least as much. -/
theorem Reachable.mono (himp : ∀ s a, ok s a → ok' s a) {s : σ}
    (h : M.Reachable ok s) : M.Reachable ok' s := by
  induction h with
  | init h => exact .init h
  | step _ hok hst ih => exact .step ih (himp _ _ hok) hst

/-- Runs with their labels: `Run M ok s as t` performs the labels `as` from `s` to `t`,
every step meeting the guard. -/
inductive Run (M : Machine σ α) (ok : σ → α → Prop) : σ → List α → σ → Prop
  /-- The empty run. -/
  | nil (s : σ) : Run M ok s [] s
  /-- A run goes on by one step at its end. -/
  | snoc {s t u : σ} {as : List α} {a : α} :
      Run M ok s as t → ok t a → M.step t a u → Run M ok s (as ++ [a]) u

/-- A weaker guard has at least as many runs. -/
theorem Run.mono (himp : ∀ s a, ok s a → ok' s a) {s t : σ} {as : List α}
    (h : M.Run ok s as t) : M.Run ok' s as t := by
  induction h with
  | nil => exact .nil _
  | snoc _ hok hst ih => exact .snoc ih (himp _ _ hok) hst

/-- The machine that remembers the labels of its run, for a guard that depends on them. -/
def logged (M : Machine σ α) : Machine (σ × List α) α where
  init s := M.init s.1 ∧ s.2 = []
  step s a t := M.step s.1 a t.1 ∧ t.2 = s.2 ++ [a]

/-- A predicate on the state and the labels so far that holds initially and is preserved by
the guarded steps holds after every guarded run. -/
theorem Reachable.logged_invariant {ok : σ × List α → α → Prop} {I : σ → List α → Prop}
    (hinit : ∀ s, M.init s → I s [])
    (hstep : ∀ s as a t, I s as → ok (s, as) a → M.step s a t → I t (as ++ [a])) {s : σ}
    {as : List α} (h : M.logged.Reachable ok (s, as)) : I s as := by
  refine h.invariant (I := fun s => I s.1 s.2) ?_ ?_
  · rintro ⟨s, as⟩ ⟨hs, hnil⟩
    simp only at hs hnil
    rw [hnil]
    exact hinit s hs
  · rintro ⟨s, as⟩ a ⟨t, bs⟩ hs hok ⟨hst, hbs⟩
    simp only at hst hbs
    rw [hbs]
    exact hstep s as a t hs hok hst

/-- `N` answers every guarded step of `M` with the same label, up to `R`. -/
structure Simulation (M : Machine σ α) (ok : σ → α → Prop) (N : Machine τ α)
    (R : σ → τ → Prop) : Prop where
  /-- Initial states have initial counterparts. -/
  init : ∀ s, M.init s → ∃ t, N.init t ∧ R s t
  /-- Guarded steps are answered. -/
  step : ∀ s a s' t, R s t → ok s a → M.step s a s' → ∃ t', N.step t a t' ∧ R s' t'

/-- Under a simulation every guarded run of `M` is, label by label, a run of `N`. -/
theorem Simulation.run {R : σ → τ → Prop} (h : Simulation M ok N R) {s s' : σ}
    {as : List α} (hrun : M.Run ok s as s') {t : τ} (hR : R s t) :
    ∃ t', N.Run (fun _ _ => True) t as t' ∧ R s' t' := by
  induction hrun with
  | nil => exact ⟨t, .nil t, hR⟩
  | snoc _ hok hst ih =>
    obtain ⟨t₁, hrun₁, hR₁⟩ := ih
    obtain ⟨t₂, hst₂, hR₂⟩ := h.step _ _ _ _ hR₁ hok hst
    exact ⟨t₂, .snoc hrun₁ trivial hst₂, hR₂⟩

end Machine

end EmbeddedOs.Lib
