import Mathlib.Data.List.Basic

/-!
# Candidates that are asked in turn

A request goes to one candidate after the other until one answers with a result that is not 0.
A candidate that has nothing may still change the state, in a way that does not give the
candidates before it anything.
-/

namespace EmbeddedOs.Lib.Probe

variable {σ β : Type*}

/-- Ask the candidates in turn; it is none as soon as a candidate fails. -/
def firstResult (ask : σ → β → Option (σ × ℕ)) : List β → σ → Option (σ × ℕ)
  | [], s => some (s, 0)
  | b :: bs, s =>
    match ask s b with
    | none => none
    | some (s, r) => if r ≠ 0 then some (s, r) else firstResult ask bs s

/-- What one answer does, for a rule over all of them: `I` is kept, `kept` relates the states
around an answer that is 0, which leaves the candidate with `nothing`, and `post` the states
around another. -/
structure Answers (ask : σ → β → Option (σ × ℕ)) (I : σ → Prop) (kept : σ → σ → Prop)
    (nothing : σ → β → Prop) (post : σ → β → σ → ℕ → Prop) (b : β) : Prop where
  /-- The candidate answers. -/
  answer : ∀ s, I s → ∃ s' r, ask s b = some (s', r) ∧ I s' ∧
    (r = 0 → kept s s' ∧ nothing s' b) ∧ (r ≠ 0 → post s b s' r)

/-- Either a candidate answers, and those before it had nothing, or none of them has anything. -/
theorem firstResult_rule {ask : σ → β → Option (σ × ℕ)} {I : σ → Prop} {kept : σ → σ → Prop}
    {nothing : σ → β → Prop} {post : σ → β → σ → ℕ → Prop} {bs : List β}
    (hask : ∀ b ∈ bs, Answers ask I kept nothing post b) (hrefl : ∀ s, kept s s)
    (htrans : ∀ s t u, kept s t → kept t u → kept s u)
    (hstable : ∀ s t b, kept s t → nothing s b → nothing t b) {s : σ} (hs : I s) :
    ∃ s' r, firstResult ask bs s = some (s', r) ∧ I s' ∧
      (r = 0 → kept s s' ∧ ∀ b ∈ bs, nothing s' b) ∧
      (r ≠ 0 → ∃ before b behind, bs = before ++ b :: behind ∧ ∃ t, I t ∧ kept s t ∧
        (∀ c ∈ before, nothing t c) ∧ post t b s' r) := by
  induction bs generalizing s with
  | nil =>
    exact ⟨s, 0, rfl, hs, fun _ => ⟨hrefl s, fun b hb => absurd hb List.not_mem_nil⟩,
      fun h => absurd rfl h⟩
  | cons b bs ih =>
    obtain ⟨t, r, heq, ht, hzero, hpost⟩ := (hask b List.mem_cons_self).answer s hs
    unfold firstResult
    rw [heq]
    by_cases hr : r = 0
    · obtain ⟨hkept, hnothing⟩ := hzero hr
      obtain ⟨s', r', heq', hs', hzero', hpost'⟩ :=
        ih (fun b hb => hask b (List.mem_cons_of_mem _ hb)) ht
      refine ⟨s', r', by simp only [hr, ne_eq, not_true, if_false, heq'], hs', ?_, ?_⟩
      · intro hr'
        obtain ⟨hkept', hall⟩ := hzero' hr'
        refine ⟨htrans s t s' hkept hkept', fun c hc => ?_⟩
        rcases List.mem_cons.mp hc with rfl | hc
        · exact hstable t s' c hkept' hnothing
        · exact hall c hc
      · intro hr'
        obtain ⟨before, c, behind, hbs, u, hu, hkept', hbefore, hpost⟩ := hpost' hr'
        refine ⟨b :: before, c, behind, by rw [hbs, List.cons_append], u, hu,
          htrans s t u hkept hkept', fun d hd => ?_, hpost⟩
        rcases List.mem_cons.mp hd with rfl | hd
        · exact hstable t u d hkept' hnothing
        · exact hbefore d hd
    · refine ⟨t, r, by simp only [hr, ne_eq, not_false_eq_true, if_true], ht,
        fun h => absurd h hr, fun _ => ?_⟩
      exact ⟨[], b, bs, rfl, s, hs, hrefl s, fun c hc => absurd hc List.not_mem_nil, hpost hr⟩

end EmbeddedOs.Lib.Probe
