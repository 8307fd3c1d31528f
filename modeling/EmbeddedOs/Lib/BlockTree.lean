import Mathlib.Algebra.BigOperators.Group.Finset.Basic

/-!
# Trees in an array of blocks

A block of pointers has the numbers of `N` other blocks, and 0 for a hole. Under a pointer of
height `h` there are `h` levels of such blocks, and blocks of data below them. Every block on the
way stands for some units of storage. Nothing keeps two pointers from naming the same block; where a
block of pointers is written, it has to be the only one of its number.
-/

namespace EmbeddedOs.Lib.BlockTree

variable {β γ : Type*} [DecidableEq β] [Zero β] [DecidableEq γ]

/-- The storage under a pointer: what its block stands for, and what is under the pointers in it. -/
def held (N : ℕ) (e : β → List γ) (v : β → ℕ → β) : ℕ → β → List γ
  | 0, p => if p = 0 then [] else e p
  | h + 1, p => if p = 0 then [] else e p ++ (List.range N).flatMap fun i => held N e v h (v p i)

/-- The blocks of pointers under a pointer. -/
def nodes (N : ℕ) (v : β → ℕ → β) : ℕ → β → List β
  | 0, _ => []
  | h + 1, p => if p = 0 then [] else p :: (List.range N).flatMap fun i => nodes N v h (v p i)

/-- The data block with number `k` under a pointer. -/
def leaf (N : ℕ) (v : β → ℕ → β) : ℕ → β → ℕ → β
  | 0, p, _ => p
  | h + 1, p, k => if p = 0 then 0 else leaf N v h (v p (k / N ^ h)) (k % N ^ h)

/-- How often a unit is under a pointer. -/
def uses (N : ℕ) (e : β → List γ) (v : β → ℕ → β) (h : ℕ) (p : β) (x : γ) : ℕ :=
  (held N e v h p).count x

/-- Keep the first `m` pointers of block `p` only. -/
def cut (v : β → ℕ → β) (p : β) (m : ℕ) : β → ℕ → β :=
  Function.update v p fun i => if i < m then v p i else 0

/-- Numbers are compared by their quotients, and by the rests where these are equal. -/
theorem le_iff_div_mod {k l d : ℕ} :
    k ≤ l ↔ k / d < l / d ∨ k / d = l / d ∧ k % d ≤ l % d := by
  have hk := Nat.div_add_mod k d
  have hl := Nat.div_add_mod l d
  constructor
  · intro hle
    rcases Nat.lt_or_eq_of_le (Nat.div_le_div_right (c := d) hle) with hlt | heq
    · exact .inl hlt
    · rw [heq] at hk
      exact .inr ⟨heq, by omega⟩
  · rintro (hlt | ⟨heq, hmod⟩)
    · by_contra hle
      exact absurd (Nat.div_le_div_right (c := d) (Nat.le_of_not_le hle)) (Nat.not_le.mpr hlt)
    · rw [heq] at hk
      omega

section Holes

variable (N : ℕ) (e : β → List γ) (v : β → ℕ → β) (h : ℕ)

omit [DecidableEq γ] in
@[simp] theorem held_hole : held N e v h 0 = [] := by
  cases h <;> exact if_pos rfl

@[simp] theorem nodes_hole : nodes N v h 0 = [] := by
  cases h with
  | zero => rfl
  | succ h => exact if_pos rfl

@[simp] theorem leaf_hole (k : ℕ) : leaf N v h 0 k = 0 := by
  cases h with
  | zero => rfl
  | succ h => exact if_pos rfl

@[simp] theorem uses_hole (x : γ) : uses N e v h 0 x = 0 := by
  rw [uses, held_hole, List.count_nil]

end Holes

section Trees

variable {N : ℕ} {e : β → List γ} {v v' : β → ℕ → β} {h : ℕ} {p : β} {x : γ} {c i k m : ℕ}

theorem uses_zero (hp : p ≠ 0) : uses N e v 0 p x = (e p).count x := by
  rw [uses, held, if_neg hp]

/-- What is under a pointer is what its block stands for, and what is under the pointers in it. -/
theorem uses_succ (hp : p ≠ 0) : uses N e v (h + 1) p x =
    (e p).count x + ∑ i ∈ Finset.range N, uses N e v h (v p i) x := by
  rw [uses, held, if_neg hp, List.count_append, List.count_flatMap]
  rfl

omit [DecidableEq γ] in
/-- The blocks under a pointer of a block. -/
theorem mem_nodes_of_child (hi : i < N) {q : β} (hq : q ∈ nodes N v h (v p i)) (hp : p ≠ 0) :
    q ∈ nodes N v (h + 1) p := by
  rw [nodes, if_neg hp]
  exact List.mem_cons_of_mem _ (List.mem_flatMap.mpr ⟨i, List.mem_range.mpr hi, hq⟩)

omit [DecidableEq γ] in
theorem mem_nodes_self (hp : p ≠ 0) : p ∈ nodes N v (h + 1) p := by
  rw [nodes, if_neg hp]
  exact List.mem_cons_self

omit [DecidableEq γ] in
/-- A tree depends on its blocks of pointers only. -/
theorem tree_congr (hagree : ∀ q ∈ nodes N v h p, v' q = v q) :
    nodes N v' h p = nodes N v h p ∧ held N e v' h p = held N e v h p ∧
      ∀ k, k < N ^ h → leaf N v' h p k = leaf N v h p k := by
  induction h generalizing p with
  | zero => exact ⟨rfl, rfl, fun _ _ => rfl⟩
  | succ h ih =>
    by_cases hp : p = 0
    · subst hp
      simp
    · have hself : v' p = v p := hagree p (mem_nodes_self hp)
      have hchild : ∀ i ∈ List.range N, nodes N v' h (v p i) = nodes N v h (v p i) ∧
          held N e v' h (v p i) = held N e v h (v p i) ∧
          ∀ k, k < N ^ h → leaf N v' h (v p i) k = leaf N v h (v p i) k := fun i hi =>
        ih fun q hq => hagree q (mem_nodes_of_child (List.mem_range.mp hi) hq hp)
      refine ⟨?_, ?_, fun k hk => ?_⟩
      · rw [nodes, nodes, if_neg hp, if_neg hp, hself,
          List.flatMap_congr fun i hi => (hchild i hi).1]
      · rw [held, held, if_neg hp, if_neg hp, hself,
          List.flatMap_congr fun i hi => (hchild i hi).2.1]
      · rw [leaf, leaf, if_neg hp, if_neg hp, hself]
        have hpos : 0 < N ^ h := by
          rcases Nat.eq_zero_or_pos (N ^ h) with hz | hpos
          · rw [Nat.pow_succ, hz, Nat.zero_mul] at hk
            cases hk
          · exact hpos
        have hdiv : k / N ^ h < N := Nat.div_lt_of_lt_mul (by rwa [Nat.pow_succ] at hk)
        exact (hchild _ (List.mem_range.mpr hdiv)).2.2 _ (Nat.mod_lt _ hpos)

theorem uses_congr (hagree : ∀ q ∈ nodes N v h p, v' q = v q) :
    uses N e v' h p x = uses N e v h p x := by
  rw [uses, uses, (tree_congr hagree).2.1]

omit [DecidableEq γ] in
theorem nodes_congr (hagree : ∀ q ∈ nodes N v h p, v' q = v q) :
    nodes N v' h p = nodes N v h p :=
  (tree_congr (e := fun _ => ([] : List ℕ)) hagree).1

omit [DecidableEq γ] in
theorem leaf_congr (hagree : ∀ q ∈ nodes N v h p, v' q = v q) (hk : k < N ^ h) :
    leaf N v' h p k = leaf N v h p k :=
  (tree_congr (e := fun _ => ([] : List ℕ)) hagree).2.2 k hk

omit [DecidableEq γ] in
/-- In a tree whose blocks of pointers have different numbers the trees under the pointers of a
block are such trees, the block is in none of them, and they have no blocks in common. -/
theorem children_of_nodup (hp : p ≠ 0) (hnodup : (nodes N v (h + 1) p).Nodup) :
    (∀ i, i < N → (nodes N v h (v p i)).Nodup ∧ p ∉ nodes N v h (v p i)) ∧
      ∀ i j, i < N → j < N → i ≠ j → ∀ q ∈ nodes N v h (v p i), q ∉ nodes N v h (v p j) := by
  rw [nodes, if_neg hp, List.nodup_cons, List.nodup_flatMap] at hnodup
  obtain ⟨hself, hchild, hdisj⟩ := hnodup
  constructor
  · intro i hi
    exact ⟨hchild i (List.mem_range.mpr hi), fun hmem =>
      hself (List.mem_flatMap.mpr ⟨i, List.mem_range.mpr hi, hmem⟩)⟩
  · intro i j hi hj hij q hqi hqj
    have hpair : ∀ a b, a < b → b < N →
        List.Disjoint (nodes N v h (v p a)) (nodes N v h (v p b)) := by
      intro a b hab hb
      have := List.pairwise_iff_getElem.mp hdisj a b (by simp; omega) (by simpa using hb) hab
      simpa using this
    rcases Nat.lt_or_gt_of_ne hij with hlt | hlt
    · exact hpair i j hlt hj hqi hqj
    · exact hpair j i hlt hi hqj hqi

section Cut

variable (hp : p ≠ 0) (hout : ∀ i, i < N → p ∉ nodes N v h (v p i))

omit [DecidableEq γ] in
theorem cut_self : cut v p m p i = if i < m then v p i else 0 := by
  rw [cut, Function.update_self]

omit [DecidableEq γ] in
theorem cut_of_ne {q : β} (hq : q ≠ p) : cut v p m q = v q := Function.update_of_ne hq _ _

include hp hout

/-- What is under a block whose last pointers are dropped. -/
theorem uses_cut (hm : m ≤ N) : uses N e (cut v p m) (h + 1) p x =
    (e p).count x + ∑ i ∈ Finset.range m, uses N e v h (v p i) x := by
  obtain ⟨n, rfl⟩ := Nat.exists_eq_add_of_le hm
  rw [uses_succ hp, Finset.sum_range_add]
  have hkept : ∀ i ∈ Finset.range m, uses (m + n) e (cut v p m) h (cut v p m p i) x =
      uses (m + n) e v h (v p i) x := by
    intro i hi
    have hlt := Finset.mem_range.mp hi
    rw [cut_self, if_pos hlt]
    refine uses_congr fun q hq => cut_of_ne ?_
    rintro rfl
    exact hout i (by omega) hq
  have hdropped : ∀ j ∈ Finset.range n,
      uses (m + n) e (cut v p m) h (cut v p m p (m + j)) x = 0 := by
    intro j _
    rw [cut_self, if_neg (by omega), uses_hole]
  rw [Finset.sum_congr rfl hkept, Finset.sum_congr rfl hdropped, Finset.sum_const_zero,
    Nat.add_zero]

omit [DecidableEq γ] in
theorem leaf_cut (hk : k < N ^ (h + 1)) : leaf N (cut v p m) (h + 1) p k =
    if k / N ^ h < m then leaf N v (h + 1) p k else 0 := by
  rw [Nat.pow_succ] at hk
  have hpos : 0 < N ^ h := Nat.pos_of_ne_zero fun hz => by
    rw [hz, Nat.zero_mul] at hk
    cases hk
  have hdiv : k / N ^ h < N := Nat.div_lt_of_lt_mul hk
  rw [leaf, leaf, if_neg hp, if_neg hp, cut_self]
  split
  · refine leaf_congr (fun q hq => cut_of_ne ?_) (Nat.mod_lt _ hpos)
    rintro rfl
    exact hout _ hdiv hq
  · rw [leaf_hole]

end Cut

section Replace

variable (hp : p ≠ 0) (hself : v' p = v p)
  (hother : ∀ i, i < N → i ≠ c → ∀ q ∈ nodes N v h (v p i), v' q = v q)
include hp hself hother

/-- A change of the tree under one pointer. -/
theorem uses_replace (hc : c < N) : uses N e v' (h + 1) p x + uses N e v h (v p c) x =
    uses N e v (h + 1) p x + uses N e v' h (v p c) x := by
  have hmem : c ∈ Finset.range N := Finset.mem_range.mpr hc
  have hrest : ∑ i ∈ (Finset.range N).erase c, uses N e v' h (v p i) x =
      ∑ i ∈ (Finset.range N).erase c, uses N e v h (v p i) x := by
    refine Finset.sum_congr rfl fun i hi => uses_congr ?_
    exact hother i (Finset.mem_range.mp (Finset.mem_of_mem_erase hi)) (Finset.ne_of_mem_erase hi)
  rw [uses_succ hp, uses_succ hp, hself, ← Finset.add_sum_erase _ _ hmem,
    ← Finset.add_sum_erase (Finset.range N) (fun i => uses N e v h (v p i) x) hmem, hrest]
  omega

omit [DecidableEq γ] in
theorem leaf_replace (hk : k < N ^ (h + 1)) : leaf N v' (h + 1) p k =
    if k / N ^ h = c then leaf N v' h (v p c) (k % N ^ h) else leaf N v (h + 1) p k := by
  rw [Nat.pow_succ] at hk
  have hpos : 0 < N ^ h := Nat.pos_of_ne_zero fun hz => by
    rw [hz, Nat.zero_mul] at hk
    cases hk
  have hdiv : k / N ^ h < N := Nat.div_lt_of_lt_mul hk
  rw [leaf, leaf, if_neg hp, if_neg hp, hself]
  split
  · rename_i heq
    rw [heq]
  · rename_i hne
    exact leaf_congr (hother _ hdiv hne) (Nat.mod_lt _ hpos)

end Replace

end Trees

end EmbeddedOs.Lib.BlockTree
