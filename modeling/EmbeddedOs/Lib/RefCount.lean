import EmbeddedOs.Lib.RefMap
import Mathlib.Algebra.BigOperators.Group.Finset.Piecewise
import Mathlib.Algebra.Order.BigOperators.Group.Finset
import Mathlib.Tactic.Ring

/-!
# Accounting for references

Pointers refer to blocks, a reference-counted map counts some of the references, and a
block to which nothing refers may be free. `Accounts` says that the map's counts cover the
references there are, that a block without a binding has at most one reference, and that a
free block has neither. References in flight, between a count and the assignment it
stands for, are references like any other, so each elementary step has a lemma of its own.
How tightly the counts have to fit, from above or exactly, is a parameter.
-/

namespace EmbeddedOs.Lib

variable {π β κ : Type*}

section Refs

variable [Fintype π] [DecidableEq π] [DecidableEq β]

/-- The number of pointers to a block. -/
def refs (ptr : π → β) (b : β) : ℕ := (Finset.univ.filter fun p => ptr p = b).card

/-- An assignment takes a reference from the old block and gives one to the new. -/
theorem refs_update (ptr : π → β) (p : π) (new b : β) :
    refs (Function.update ptr p new) b + (if b = ptr p then 1 else 0) =
      refs ptr b + if b = new then 1 else 0 := by
  have hrest : ∑ q ∈ Finset.univ.erase p, (if Function.update ptr p new q = b then 1 else 0) =
      ∑ q ∈ Finset.univ.erase p, if ptr q = b then 1 else 0 := by
    apply Finset.sum_congr rfl
    intro q hq
    rw [Function.update_of_ne (Finset.ne_of_mem_erase hq)]
  have hnew : refs (Function.update ptr p new) b =
      (if b = new then 1 else 0) + ∑ q ∈ Finset.univ.erase p, if ptr q = b then 1 else 0 := by
    rw [refs, Finset.card_filter, ← Finset.add_sum_erase _ _ (Finset.mem_univ p), hrest]
    simp [eq_comm]
  have hold : refs ptr b =
      (if b = ptr p then 1 else 0) + ∑ q ∈ Finset.univ.erase p, if ptr q = b then 1 else 0 := by
    rw [refs, Finset.card_filter, ← Finset.add_sum_erase _ _ (Finset.mem_univ p)]
    simp [eq_comm]
  rw [hnew, hold]
  ring

omit [DecidableEq π]

/-- A block is unreferenced if no pointer has it. -/
theorem refs_eq_zero {ptr : π → β} {b : β} : refs ptr b = 0 ↔ ∀ p, ptr p ≠ b := by
  simp [refs, Finset.filter_eq_empty_iff]

/-- A block with one reference at most has no two pointers. -/
theorem refs_le_one {ptr : π → β} {b : β} (h : refs ptr b ≤ 1) {p q : π} (hp : ptr p = b)
    (hq : ptr q = b) : p = q :=
  Finset.card_le_one.mp h p (by simp [hp]) q (by simp [hq])

end Refs

/-- A way for a count to fit a number of references. -/
structure CountRel (rel : ℕ → ℕ → Prop) : Prop where
  /-- No reference, no count. -/
  zero : rel 0 0
  /-- Reference and count go up and down together. -/
  succ : ∀ {a c}, rel (a + 1) (c + 1) ↔ rel a c
  /-- The count covers the references. -/
  le : ∀ {a c}, rel a c → a ≤ c

theorem countRel_eq : CountRel (· = ·) := ⟨rfl, by simp, fun h => h.le⟩

theorem countRel_le : CountRel (· ≤ ·) := ⟨le_rfl, by simp, id⟩

/-- The counts of `m` account for the references `cnt` to the blocks; `hole` is the
value of a pointer to no block. -/
structure Accounts (rel : ℕ → ℕ → Prop) (hole : β) (m : RefMap κ β) (cnt : β → ℕ)
    (free : β → Prop) : Prop where
  /-- The count of a binding fits the references. -/
  count : ∀ {k b c}, m.find k = some (b, c) → rel (cnt b) c
  /-- A block without a binding has one reference at most. -/
  single : ∀ {b}, b ≠ hole → ¬m.Holds b → cnt b ≤ 1
  /-- A free block has no reference. -/
  free_refs : ∀ {b}, free b → cnt b = 0
  /-- A free block has no binding. -/
  free_holds : ∀ {b}, free b → ¬m.Holds b
  /-- The hole is not a free block. -/
  hole_free : ¬free hole
  /-- The hole is not bound. -/
  hole_holds : ¬m.Holds hole

namespace Accounts

variable {rel : ℕ → ℕ → Prop} {hole b : β} {k : κ} {c : ℕ} {m : RefMap κ β}
  {cnt cnt' : β → ℕ} {free free' : β → Prop}

/-- Without bindings and references everything but the hole may be free. -/
theorem empty (hfree : ¬free hole) (hcnt : ∀ b, b ≠ hole → cnt b = 0) :
    Accounts rel hole (RefMap.empty : RefMap κ β) cnt free where
  count h := by cases h
  single hb _ := by rw [hcnt _ hb]; exact Nat.zero_le 1
  free_refs {b} hb := hcnt b (by rintro rfl; exact hfree hb)
  free_holds _ := by rintro ⟨k, c, h⟩; cases h
  hole_free := hfree
  hole_holds := by rintro ⟨k, c, h⟩; cases h

/-- Only the references to blocks other than the hole matter. -/
theorem congr (h : Accounts rel hole m cnt free) (hcnt : ∀ b, b ≠ hole → cnt' b = cnt b) :
    Accounts rel hole m cnt' free where
  count {k b c} hk := by
    rw [hcnt b (by rintro rfl; exact h.hole_holds ⟨k, c, hk⟩)]
    exact h.count hk
  single hb hm := by rw [hcnt _ hb]; exact h.single hb hm
  free_refs {b} hb := by
    rw [hcnt b (by rintro rfl; exact h.hole_free hb)]
    exact h.free_refs hb
  free_holds := h.free_holds
  hole_free := h.hole_free
  hole_holds := h.hole_holds

variable [DecidableEq β]

/-- A free block is taken by a reference to it. -/
theorem take (h : Accounts rel hole m cnt free) (hb : free b)
    (hcnt : ∀ x, cnt' x = cnt x + if x = b then 1 else 0)
    (hfree : ∀ x, free' x ↔ x ≠ b ∧ free x) : Accounts rel hole m cnt' free' where
  count {k x c} hk := by
    have hne : x ≠ b := by
      rintro rfl
      exact h.free_holds hb ⟨k, c, hk⟩
    rw [hcnt, if_neg hne]
    exact h.count hk
  single {x} hx hm := by
    rw [hcnt]
    by_cases hxb : x = b
    · rw [if_pos hxb, hxb, h.free_refs hb]
    · rw [if_neg hxb]
      exact h.single hx hm
  free_refs {x} hx := by
    obtain ⟨hne, hx⟩ := (hfree x).mp hx
    rw [hcnt, if_neg hne]
    exact h.free_refs hx
  free_holds hx := h.free_holds ((hfree _).mp hx).2
  hole_free hx := h.hole_free ((hfree _).mp hx).2
  hole_holds := h.hole_holds

variable [DecidableEq κ]

/-- Counting a reference makes room for one. -/
theorem retain (hrel : CountRel rel) (h : Accounts rel hole m cnt free)
    (hk : m.find k = some (b, c)) (hcnt : ∀ x, cnt' x = cnt x + if x = b then 1 else 0) :
    Accounts rel hole (m.retain k) cnt' free := by
  have hother : ∀ {x}, ¬m.Holds x → cnt' x = cnt x := by
    intro x hx
    rw [hcnt, if_neg, Nat.add_zero]
    rintro rfl
    exact hx ⟨k, c, hk⟩
  refine ⟨fun {k' x c'} hk' => ?_, fun hx hm => ?_, fun hx => ?_, fun hx => ?_, h.hole_free, ?_⟩
  · rw [RefMap.find_retain_eq_some] at hk'
    rw [hcnt]
    by_cases heq : k' = k
    · rw [if_pos heq] at hk'
      obtain ⟨c₀, hk₀, rfl⟩ := hk'
      obtain ⟨rfl, -⟩ := Prod.mk.inj (Option.some.inj (hk.symm.trans hk₀))
      rw [if_pos rfl]
      exact hrel.succ.mpr (h.count hk₀)
    · rw [if_neg heq] at hk'
      have hne : x ≠ b := by
        rintro rfl
        exact heq (m.inj hk' hk)
      rw [if_neg hne]
      exact h.count hk'
  · rw [RefMap.holds_retain] at hm
    rw [hother hm]
    exact h.single hx hm
  · rw [hother (h.free_holds hx)]
    exact h.free_refs hx
  · rw [RefMap.holds_retain]
    exact h.free_holds hx
  · rw [RefMap.holds_retain]
    exact h.hole_holds

omit [DecidableEq β] in
/-- A count that need not be exact may go up alone. -/
theorem retain_slack (hslack : ∀ a c, rel a c → rel a (c + 1))
    (h : Accounts rel hole m cnt free) (k : κ) : Accounts rel hole (m.retain k) cnt free := by
  refine ⟨fun {k' x c'} hk' => ?_, fun hx hm => ?_, h.free_refs, fun hx hm => ?_, h.hole_free,
    fun hm => ?_⟩
  · rw [RefMap.find_retain_eq_some] at hk'
    split at hk'
    · obtain ⟨c₀, hk₀, rfl⟩ := hk'
      exact hslack _ _ (h.count hk₀)
    · exact h.count hk'
  · exact h.single hx (fun hm' => hm (RefMap.holds_retain.mpr hm'))
  · exact h.free_holds hx (RefMap.holds_retain.mp hm)
  · exact h.hole_holds (RefMap.holds_retain.mp hm)

omit [DecidableEq β] in
/-- A new binding of a block with one reference counts that reference. -/
theorem insert (hrel : CountRel rel) (h : Accounts rel hole m cnt free) (hb : ¬m.Holds b)
    (hhole : b ≠ hole) (hone : cnt b = 1) (hk : m.find k = none) :
    Accounts rel hole (m.insert k b hb) cnt free := by
  refine ⟨fun {k' x c'} hk' => ?_, fun hx hm => ?_, h.free_refs, fun hx hm => ?_, h.hole_free,
    fun hm => ?_⟩
  · rw [RefMap.find_insert_eq_some] at hk'
    by_cases heq : k' = k
    · rw [if_pos heq] at hk'
      rw [hk'.1, hk'.2, hone]
      exact hrel.succ.mpr hrel.zero
    · rw [if_neg heq] at hk'
      exact h.count hk'
  · exact h.single hx (fun hm' => hm ((RefMap.holds_insert hk).mpr (Or.inr hm')))
  · rcases (RefMap.holds_insert hk).mp hm with rfl | hm
    · rw [h.free_refs hx] at hone
      cases hone
    · exact h.free_holds hx hm
  · rcases (RefMap.holds_insert hk).mp hm with heq | hm
    · exact hhole heq.symm
    · exact h.hole_holds hm

omit [DecidableEq κ]

/-- A release that leaves references gives up one of them. -/
theorem release_kept (hrel : CountRel rel) (h : Accounts rel hole m cnt free)
    (hk : m.find k = some (b, c)) (hc : c ≠ 1)
    (hcnt : ∀ x, cnt x = cnt' x + if x = b then 1 else 0) :
    Accounts rel hole (m.release b) cnt' free := by
  have hpos := m.pos hk
  have hother : ∀ {x}, x ≠ b → cnt x = cnt' x := by
    intro x hx
    rw [hcnt, if_neg hx, Nat.add_zero]
  have hholds : ∀ {x}, (m.release b).Holds x ↔ m.Holds x := by
    intro x
    by_cases hx : x = b
    · subst hx
      have hrest : (m.release x).find k = some (x, c - 1) := by
        rw [RefMap.find_release_self hk, if_neg hc]
      exact iff_of_true ⟨k, c - 1, hrest⟩ ⟨k, c, hk⟩
    · simp only [RefMap.Holds, RefMap.find_release_eq_some, if_neg hx]
  refine ⟨fun {k' x c'} hk' => ?_, fun {x} hx hm => ?_, fun {x} hx => ?_, fun hx hm => ?_,
    h.hole_free, fun hm => h.hole_holds (hholds.mp hm)⟩
  · rw [RefMap.find_release_eq_some] at hk'
    by_cases hx : x = b
    · rw [if_pos hx] at hk'
      have hfit := h.count hk'.2
      rw [hcnt, if_pos rfl] at hfit
      rw [hx]
      exact hrel.succ.mp hfit
    · rw [if_neg hx] at hk'
      rw [← hother hx]
      exact h.count hk'
  · have hle := h.single hx (fun hm' => hm (hholds.mpr hm'))
    rw [hcnt] at hle
    exact le_trans (Nat.le_add_right _ _) hle
  · have hzero := h.free_refs hx
    rw [hcnt] at hzero
    exact Nat.eq_zero_of_add_eq_zero_right hzero
  · exact h.free_holds hx (hholds.mp hm)

/-- A release of the last reference, counted or not, frees the block. -/
theorem release_freed (hrel : CountRel rel) (h : Accounts rel hole m cnt free) (hhole : b ≠ hole)
    (hk : ∀ k c, m.find k = some (b, c) → c = 1)
    (hcnt : ∀ x, cnt x = cnt' x + if x = b then 1 else 0)
    (hfree : ∀ x, free' x ↔ x = b ∨ free x) :
    Accounts rel hole (m.release b) cnt' free' := by
  have hgone : ¬(m.release b).Holds b := by
    rintro ⟨k, c, hk'⟩
    rw [RefMap.find_release_eq_some, if_pos rfl] at hk'
    have := hk k (c + 1) hk'.2
    omega
  have hother : ∀ {x}, x ≠ b → cnt x = cnt' x ∧ ((m.release b).Holds x ↔ m.Holds x) := by
    intro x hx
    refine ⟨by rw [hcnt, if_neg hx, Nat.add_zero], ?_⟩
    simp only [RefMap.Holds, RefMap.find_release_eq_some, if_neg hx]
  have hzero : cnt' b = 0 := by
    have hb := hcnt b
    rw [if_pos rfl] at hb
    by_cases hm : m.Holds b
    · obtain ⟨k, c, hkb⟩ := hm
      have hle := hrel.le (h.count hkb)
      have := hk k c hkb
      omega
    · have := h.single hhole hm
      omega
  refine ⟨fun {k x c} hk' => ?_, fun {x} hx hm => ?_, fun {x} hx => ?_, fun {x} hx hm => ?_,
    fun hx => ?_, fun hm => ?_⟩
  · have hne : x ≠ b := by
      rintro rfl
      exact hgone ⟨k, c, hk'⟩
    rw [RefMap.find_release_eq_some, if_neg hne] at hk'
    rw [← (hother hne).1]
    exact h.count hk'
  · by_cases heq : x = b
    · rw [heq, hzero]
      exact Nat.zero_le 1
    · rw [← (hother heq).1]
      exact h.single hx (fun hm' => hm ((hother heq).2.mpr hm'))
  · by_cases heq : x = b
    · rw [heq, hzero]
    · rw [← (hother heq).1]
      exact h.free_refs (((hfree x).mp hx).resolve_left heq)
  · have hne : x ≠ b := by
      rintro rfl
      exact hgone hm
    exact h.free_holds (((hfree x).mp hx).resolve_left hne) ((hother hne).2.mp hm)
  · rcases (hfree hole).mp hx with heq | hx
    · exact hhole heq.symm
    · exact h.hole_free hx
  · exact h.hole_holds ((hother (Ne.symm hhole)).2.mp hm)

end Accounts

end EmbeddedOs.Lib
