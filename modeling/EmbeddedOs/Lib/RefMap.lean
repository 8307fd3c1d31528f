import EmbeddedOs.Lib.Machine
import Mathlib.Data.Nat.Notation
import Mathlib.Data.Option.Basic

/-!
# Reference-counted maps

A reference-counted map binds each key to at most one block together with a positive
count, no block being bound twice. Allocating a key counts one more reference to the
block it has, or binds it to the block offered; releasing a block counts one reference
less and drops the binding with the last one. This is what a deduplicating store is
for; how the bindings are stored is left to the implementations.
-/

namespace EmbeddedOs.Lib

/-- A partial map from keys to counted blocks. -/
structure RefMap (κ β : Type*) where
  /-- The block and the count of a key. -/
  find : κ → Option (β × ℕ)
  /-- A binding is counted at least once. -/
  pos : ∀ {k b c}, find k = some (b, c) → 0 < c
  /-- A block has at most one key. -/
  inj : ∀ {k k' b c c'}, find k = some (b, c) → find k' = some (b, c') → k = k'

namespace RefMap

variable {κ β : Type*}

/-- Two maps with the same bindings are equal. -/
theorem ext {m m' : RefMap κ β} (h : ∀ k, m.find k = m'.find k) : m = m' := by
  obtain ⟨f, hf, hf'⟩ := m
  obtain ⟨g, hg, hg'⟩ := m'
  obtain rfl : f = g := funext h
  rfl

/-- No binding at all. -/
def empty : RefMap κ β := ⟨fun _ => none, by simp, by simp⟩

/-- The block is bound to some key. -/
def Holds (m : RefMap κ β) (b : β) : Prop := ∃ k c, m.find k = some (b, c)

/-- One more reference to the block of a key. -/
def retain [DecidableEq κ] (m : RefMap κ β) (k : κ) : RefMap κ β where
  find k' := (m.find k').map fun e => if k' = k then (e.1, e.2 + 1) else e
  pos := by
    intro k' b c h
    obtain ⟨⟨b', c'⟩, he, h⟩ := Option.map_eq_some_iff.mp h
    have := m.pos he
    split at h
    · simp only [Prod.mk.injEq] at h
      omega
    · simp only [Prod.mk.injEq] at h
      omega
  inj := by
    intro k₁ k₂ b c c' h₁ h₂
    obtain ⟨⟨b₁, c₁⟩, he₁, h₁⟩ := Option.map_eq_some_iff.mp h₁
    obtain ⟨⟨b₂, c₂⟩, he₂, h₂⟩ := Option.map_eq_some_iff.mp h₂
    have hb₁ : b₁ = b := by
      have h := congrArg Prod.fst h₁
      split at h <;> exact h
    have hb₂ : b₂ = b := by
      have h := congrArg Prod.fst h₂
      split at h <;> exact h
    exact m.inj (hb₁ ▸ he₁) (hb₂ ▸ he₂)

/-- A new key for a block that has none. -/
def insert [DecidableEq κ] (m : RefMap κ β) (k : κ) (b : β) (hb : ¬m.Holds b) : RefMap κ β where
  find k' := if k' = k then some (b, 1) else m.find k'
  pos := by
    intro k' b' c h
    split at h
    · simp only [Option.some.injEq, Prod.mk.injEq] at h
      omega
    · exact m.pos h
  inj := by
    intro k₁ k₂ b' c c' h₁ h₂
    split at h₁ <;> split at h₂
    · next e₁ e₂ => rw [e₁, e₂]
    · simp only [Option.some.injEq, Prod.mk.injEq] at h₁
      exact absurd ⟨k₂, c', h₁.1 ▸ h₂⟩ hb
    · simp only [Option.some.injEq, Prod.mk.injEq] at h₂
      exact absurd ⟨k₁, c, h₂.1 ▸ h₁⟩ hb
    · exact m.inj h₁ h₂

/-- One reference less to a block; the last one drops its key. -/
def release [DecidableEq β] (m : RefMap κ β) (b : β) : RefMap κ β where
  find k := (m.find k).bind fun e =>
    if e.1 = b then (if e.2 = 1 then none else some (e.1, e.2 - 1)) else some e
  pos := by
    intro k b' c h
    obtain ⟨⟨b₁, c₁⟩, he, h⟩ := Option.bind_eq_some_iff.mp h
    have := m.pos he
    split at h
    · split at h
      · cases h
      · simp only [Option.some.injEq, Prod.mk.injEq] at h
        omega
    · simp only [Option.some.injEq, Prod.mk.injEq] at h
      omega
  inj := by
    intro k₁ k₂ b' c c' h₁ h₂
    have hkeep : ∀ {k c}, ((m.find k).bind fun e =>
        if e.1 = b then (if e.2 = 1 then none else some (e.1, e.2 - 1)) else some e) =
          some (b', c) → ∃ c, m.find k = some (b', c) := by
      intro k c h
      obtain ⟨⟨b₁, c₁⟩, he, h⟩ := Option.bind_eq_some_iff.mp h
      split at h
      · split at h
        · cases h
        · simp only [Option.some.injEq, Prod.mk.injEq] at h
          exact ⟨c₁, h.1 ▸ he⟩
      · simp only [Option.some.injEq, Prod.mk.injEq] at h
        exact ⟨c₁, h.1 ▸ he⟩
    obtain ⟨_, h₁⟩ := hkeep h₁
    obtain ⟨_, h₂⟩ := hkeep h₂
    exact m.inj h₁ h₂

/-- The calls of a reference-counted store. -/
inductive Call (κ β : Type*)
  /-- Count a reference to the block of key `k`, offering block `b` for a new key. -/
  | alloc (k : κ) (b : β)
  /-- Drop a reference to block `b`. -/
  | unref (b : β)

/-- What a call returns. -/
inductive Reply (β : Type*)
  /-- The block of the allocated key. -/
  | block (b : β)
  /-- The references that are left. -/
  | count (c : ℕ)
  /-- The block is bound to no key. -/
  | absent
  deriving DecidableEq

/-- The steps of a reference-counted map, labelled with the call and its reply. -/
inductive Step [DecidableEq κ] [DecidableEq β] :
    RefMap κ β → Call κ β × Reply β → RefMap κ β → Prop
  /-- The key is there: its block is returned and counted once more. -/
  | hit {m : RefMap κ β} {k : κ} {b b' : β} {c : ℕ} :
      m.find k = some (b', c) → Step m (.alloc k b, .block b') (m.retain k)
  /-- The key is new: it gets the block offered. -/
  | new {m : RefMap κ β} {k : κ} {b : β} (hb : ¬m.Holds b) :
      m.find k = none → Step m (.alloc k b, .block b) (m.insert k b hb)
  /-- The block has a key: its count goes down, and the binding goes with the last one. -/
  | drop {m : RefMap κ β} {k : κ} {b : β} {c : ℕ} :
      m.find k = some (b, c) → Step m (.unref b, .count (c - 1)) (m.release b)
  /-- The block has no key: nothing changes. -/
  | absent {m : RefMap κ β} {b : β} : ¬m.Holds b → Step m (.unref b, .absent) m

/-- Reference-counted maps, from the empty one on, as a machine. -/
def machine (κ β : Type*) [DecidableEq κ] [DecidableEq β] :
    Machine (RefMap κ β) (Call κ β × Reply β) where
  init m := m = empty
  step := Step

section Find

variable {m : RefMap κ β} {k k' : κ} {b x : β} {c : ℕ}

/-- The bindings after counting one more reference. -/
theorem find_retain_eq_some [DecidableEq κ] :
    (m.retain k).find k' = some (x, c) ↔
      if k' = k then ∃ c₀, m.find k = some (x, c₀) ∧ c = c₀ + 1 else m.find k' = some (x, c) := by
  simp only [retain, Option.map_eq_some_iff]
  by_cases hk : k' = k
  · subst hk
    simp only [if_true, Prod.mk.injEq, Prod.exists]
    constructor
    · rintro ⟨x, c₀, h, rfl, rfl⟩
      exact ⟨c₀, h, rfl⟩
    · rintro ⟨c₀, h, rfl⟩
      exact ⟨x, c₀, h, rfl, rfl⟩
  · simp [hk]

/-- The bindings after an insertion. -/
theorem find_insert_eq_some [DecidableEq κ] {hb : ¬m.Holds b} :
    (m.insert k b hb).find k' = some (x, c) ↔
      if k' = k then x = b ∧ c = 1 else m.find k' = some (x, c) := by
  by_cases hk : k' = k
  · simp [insert, hk, eq_comm]
  · simp [insert, hk]

/-- The bindings after a release. -/
theorem find_release_eq_some [DecidableEq β] :
    (m.release b).find k = some (x, c) ↔
      if x = b then 0 < c ∧ m.find k = some (b, c + 1) else m.find k = some (x, c) := by
  simp only [release, Option.bind_eq_some_iff, Prod.exists]
  constructor
  · rintro ⟨x', c', hk, h⟩
    have hpos := m.pos hk
    by_cases hx' : x' = b
    · subst hx'
      by_cases hc' : c' = 1
      · simp [hc'] at h
      · simp only [if_true, hc', if_false, Option.some.injEq, Prod.mk.injEq] at h
        obtain ⟨rfl, rfl⟩ := h
        rw [if_pos rfl, show c' - 1 + 1 = c' by omega]
        exact ⟨by omega, hk⟩
    · simp only [hx', if_false, Option.some.injEq, Prod.mk.injEq] at h
      obtain ⟨rfl, rfl⟩ := h
      rw [if_neg hx']
      exact hk
  · intro h
    by_cases hx : x = b
    · rw [if_pos hx] at h
      exact ⟨b, c + 1, h.2, by simp [hx, Nat.pos_iff_ne_zero.mp h.1]⟩
    · rw [if_neg hx] at h
      exact ⟨x, c, h, by simp [hx]⟩

/-- A released binding goes down by one, or away with the last reference. -/
theorem find_release_self [DecidableEq β] (h : m.find k = some (b, c)) :
    (m.release b).find k = if c = 1 then none else some (b, c - 1) := by
  simp [release, h]

/-- The other bindings are untouched by a release. -/
theorem find_release_of_ne [DecidableEq β] (h : m.find k = some (x, c)) (hne : x ≠ b) :
    (m.release b).find k = some (x, c) := by
  simp [release, h, hne]

/-- A release of a block that is not bound changes nothing. -/
theorem release_of_not_holds [DecidableEq β] (h : ¬m.Holds b) : m.release b = m := by
  apply ext
  intro k
  cases hk : m.find k with
  | none => simp [release, hk]
  | some bc =>
    obtain ⟨b', c⟩ := bc
    apply find_release_of_ne hk
    rintro rfl
    exact h ⟨k, c, hk⟩

/-- Counting a reference binds no other block. -/
theorem holds_retain [DecidableEq κ] : (m.retain k).Holds x ↔ m.Holds x := by
  simp only [Holds, find_retain_eq_some]
  constructor
  · rintro ⟨k', c, h⟩
    by_cases hk : k' = k
    · rw [if_pos hk] at h
      obtain ⟨c₀, h, -⟩ := h
      exact ⟨k, c₀, h⟩
    · rw [if_neg hk] at h
      exact ⟨k', c, h⟩
  · rintro ⟨k', c, h⟩
    by_cases hk : k' = k
    · exact ⟨k', c + 1, by rw [if_pos hk]; exact ⟨c, hk ▸ h, rfl⟩⟩
    · exact ⟨k', c, by rw [if_neg hk]; exact h⟩

/-- An insertion of a new key binds one block more. -/
theorem holds_insert [DecidableEq κ] {hb : ¬m.Holds b} (hk : m.find k = none) :
    (m.insert k b hb).Holds x ↔ x = b ∨ m.Holds x := by
  simp only [Holds, find_insert_eq_some]
  constructor
  · rintro ⟨k', c, h⟩
    by_cases hkk : k' = k
    · rw [if_pos hkk] at h
      exact Or.inl h.1
    · rw [if_neg hkk] at h
      exact Or.inr ⟨k', c, h⟩
  · rintro (rfl | ⟨k', c, h⟩)
    · exact ⟨k, 1, by rw [if_pos rfl]; exact ⟨rfl, rfl⟩⟩
    · refine ⟨k', c, ?_⟩
      rw [if_neg]
      · exact h
      · rintro rfl
        rw [hk] at h
        cases h

end Find

end RefMap

end EmbeddedOs.Lib
