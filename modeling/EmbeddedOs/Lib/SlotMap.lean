import Mathlib.Data.Set.Card

/-!
# Finite maps kept in slots

A map from keys to values that is kept in a table of `n` slots: each entry has a slot of its
own. The table is the other view of the map, from the slots to what they hold, and each
operation on the map is the change of one or two slots of the table.
-/

namespace EmbeddedOs.Lib

/-- A partial map whose entries are in slots of their own. -/
structure SlotMap (κ ν : Type*) (n : ℕ) where
  /-- The slot and the value of a key. -/
  entry : κ → Option (Fin n × ν)
  /-- No two keys are in one slot. -/
  slot_inj : ∀ {k k' i v v'}, entry k = some (i, v) → entry k' = some (i, v') → k = k'

namespace SlotMap

variable {κ ν : Type*} {n : ℕ}

/-- Two maps with the same entries are the same. -/
@[ext] theorem ext {m m' : SlotMap κ ν n} (h : ∀ k, m.entry k = m'.entry k) : m = m' := by
  obtain ⟨entry, hinj⟩ := m
  obtain ⟨entry', hinj'⟩ := m'
  obtain rfl : entry = entry' := funext h
  rfl

/-- The map without entries. -/
def empty : SlotMap κ ν n := ⟨fun _ => none, fun h => by cases h⟩

/-- The keys that are present. -/
def keys (m : SlotMap κ ν n) : Set κ := {k | m.entry k ≠ none}

/-- The slots that are in use. -/
def slots (m : SlotMap κ ν n) : Set (Fin n) := {i | ∃ k v, m.entry k = some (i, v)}

/-- A slot without an entry is free. -/
def Free (m : SlotMap κ ν n) (i : Fin n) : Prop := ∀ k v, m.entry k ≠ some (i, v)

/-- There are as many keys as slots in use. -/
theorem ncard_keys (m : SlotMap κ ν n) : m.keys.ncard = m.slots.ncard := by
  have hsome : ∀ k ∈ m.keys, ∃ e, m.entry k = some e := fun k hk => Option.ne_none_iff_exists'.mp hk
  choose e he using hsome
  refine Set.ncard_congr (fun k hk => (e k hk).1) (fun k hk => ⟨k, (e k hk).2, he k hk⟩) ?_ ?_
  · intro k k' hk hk' heq
    have hk₁ : m.entry k = some ((e k hk).1, (e k hk).2) := he k hk
    have hk₂ : m.entry k' = some ((e k' hk').1, (e k' hk').2) := he k' hk'
    rw [← heq] at hk₂
    exact m.slot_inj hk₁ hk₂
  · rintro i ⟨k, v, hkv⟩
    have hk : k ∈ m.keys := by
      rw [keys, Set.mem_ofPred_eq, hkv]
      exact Option.some_ne_none _
    refine ⟨k, hk, ?_⟩
    have heq := he k hk
    rw [hkv, Option.some.injEq] at heq
    rw [← heq]

/-- There are `n` keys exactly if no slot is free. -/
theorem ncard_keys_eq (m : SlotMap κ ν n) : m.keys.ncard = n ↔ ∀ i, ¬m.Free i := by
  have huniv : m.slots = Set.univ ↔ ∀ i, ¬m.Free i := by
    simp only [Set.eq_univ_iff_forall, slots, Set.mem_ofPred_eq, Free, ne_eq, not_forall, not_not]
  rw [ncard_keys, ← huniv, Set.eq_univ_iff_ncard, Nat.card_fin]

variable [DecidableEq κ]

/-- Put a key with its value in a free slot. -/
def insert (m : SlotMap κ ν n) (k : κ) (i : Fin n) (v : ν) (hi : m.Free i) : SlotMap κ ν n where
  entry := Function.update m.entry k (some (i, v))
  slot_inj := by
    intro k₁ k₂ j v₁ v₂ h₁ h₂
    by_cases hk₁ : k₁ = k <;> by_cases hk₂ : k₂ = k
    · rw [hk₁, hk₂]
    · rw [hk₁, Function.update_self, Option.some.injEq, Prod.mk.injEq] at h₁
      rw [Function.update_of_ne hk₂, ← h₁.1] at h₂
      exact absurd h₂ (hi k₂ v₂)
    · rw [hk₂, Function.update_self, Option.some.injEq, Prod.mk.injEq] at h₂
      rw [Function.update_of_ne hk₁, ← h₂.1] at h₁
      exact absurd h₁ (hi k₁ v₁)
    · rw [Function.update_of_ne hk₁] at h₁
      rw [Function.update_of_ne hk₂] at h₂
      exact m.slot_inj h₁ h₂

/-- Remove a key. -/
def erase (m : SlotMap κ ν n) (k : κ) : SlotMap κ ν n where
  entry := Function.update m.entry k none
  slot_inj := by
    intro k₁ k₂ j v₁ v₂ h₁ h₂
    have hne : ∀ {k' v'}, Function.update m.entry k none k' = some (j, v') → k' ≠ k := by
      rintro k' v' h' rfl
      rw [Function.update_self] at h'
      cases h'
    rw [Function.update_of_ne (hne h₁)] at h₁
    rw [Function.update_of_ne (hne h₂)] at h₂
    exact m.slot_inj h₁ h₂

/-- Change the value of a key that is present. -/
def adjust (m : SlotMap κ ν n) (k : κ) (f : ν → ν) : SlotMap κ ν n where
  entry := Function.update m.entry k ((m.entry k).map fun e => (e.1, f e.2))
  slot_inj := by
    intro k₁ k₂ j v₁ v₂ h₁ h₂
    have hold : ∀ {k' v'}, Function.update m.entry k ((m.entry k).map fun e => (e.1, f e.2)) k' =
        some (j, v') → ∃ v, m.entry k' = some (j, v) := by
      intro k' v' h'
      by_cases hk' : k' = k
      · rw [hk', Function.update_self, Option.map_eq_some_iff] at h'
        obtain ⟨⟨j', v⟩, hv, heq⟩ := h'
        rw [Prod.mk.injEq] at heq
        rw [hk', ← heq.1]
        exact ⟨v, hv⟩
      · rw [Function.update_of_ne hk'] at h'
        exact ⟨v', h'⟩
    obtain ⟨w₁, hw₁⟩ := hold h₁
    obtain ⟨w₂, hw₂⟩ := hold h₂
    exact m.slot_inj hw₁ hw₂

/-- Give a key that is present another name, and drop what had that name. -/
def rekey (m : SlotMap κ ν n) (k k' : κ) : SlotMap κ ν n where
  entry := Function.update (Function.update m.entry k none) k' (m.entry k)
  slot_inj := by
    intro k₁ k₂ j v₁ v₂ h₁ h₂
    have hold : ∀ {l w}, Function.update (Function.update m.entry k none) k' (m.entry k) l =
        some (j, w) → (l = k' ∧ m.entry k = some (j, w)) ∨
          (l ≠ k' ∧ l ≠ k ∧ m.entry l = some (j, w)) := by
      intro l w h
      by_cases hl : l = k'
      · rw [hl, Function.update_self] at h
        exact Or.inl ⟨hl, h⟩
      · rw [Function.update_of_ne hl] at h
        by_cases hlk : l = k
        · rw [hlk, Function.update_self] at h
          cases h
        · rw [Function.update_of_ne hlk] at h
          exact Or.inr ⟨hl, hlk, h⟩
    rcases hold h₁ with ⟨hl₁, hw₁⟩ | ⟨-, hne₁, hw₁⟩ <;>
      rcases hold h₂ with ⟨hl₂, hw₂⟩ | ⟨-, hne₂, hw₂⟩
    · rw [hl₁, hl₂]
    · exact absurd (m.slot_inj hw₂ hw₁) hne₂
    · exact absurd (m.slot_inj hw₁ hw₂) hne₁
    · exact m.slot_inj hw₁ hw₂

/-- What had the name may be removed first. -/
theorem erase_rekey (m : SlotMap κ ν n) {k k' : κ} (hne : k ≠ k') :
    (m.erase k').rekey k k' = m.rekey k k' := by
  ext1 l
  change Function.update (Function.update (Function.update m.entry k' none) k none) k'
    (Function.update m.entry k' none k) l =
      Function.update (Function.update m.entry k none) k' (m.entry k) l
  rw [Function.update_of_ne hne]
  by_cases hl : l = k'
  · rw [hl, Function.update_self, Function.update_self]
  · rw [Function.update_of_ne hl, Function.update_of_ne hl]
    by_cases hlk : l = k
    · rw [hlk, Function.update_self, Function.update_self]
    · rw [Function.update_of_ne hlk, Function.update_of_ne hlk, Function.update_of_ne hl]

/-! ## The table of a map -/

/-- A table of slots has the entries of the map. -/
def Tabled (m : SlotMap κ ν n) (table : Fin n → Option (κ × ν)) : Prop :=
  ∀ k i v, m.entry k = some (i, v) ↔ table i = some (k, v)

namespace Tabled

variable {m : SlotMap κ ν n} {table : Fin n → Option (κ × ν)} {k k' : κ} {i j : Fin n} {v : ν}

omit [DecidableEq κ] in
/-- A slot is free if the table has nothing in it. -/
theorem free_iff (h : m.Tabled table) : m.Free i ↔ table i = none := by
  rw [Option.eq_none_iff_forall_ne_some, Prod.forall]
  exact forall_congr' fun k => forall_congr' fun v => not_congr (h k i v)

omit [DecidableEq κ] in
/-- The entry of a key, by the slot it is in. -/
theorem entry_eq (h : m.Tabled table) (hi : table i = some (k, v)) : m.entry k = some (i, v) :=
  (h k i v).mpr hi

omit [DecidableEq κ] in
/-- A key without an entry is in no slot. -/
theorem entry_eq_none (h : m.Tabled table) : m.entry k = none ↔ ∀ i v, table i ≠ some (k, v) := by
  rw [Option.eq_none_iff_forall_ne_some, Prod.forall]
  exact forall_congr' fun i => forall_congr' fun v => not_congr (h k i v)

omit [DecidableEq κ] in
/-- The empty table is that of the empty map. -/
theorem of_empty (h : ∀ i, table i = none) : (empty : SlotMap κ ν n).Tabled table := by
  intro k i v
  rw [h]
  constructor <;> (intro hsome; cases hsome)

/-- An entry and its slot are changed together: what was in them belonged to both, and so does what
is in them now. -/
theorem update {m' : SlotMap κ ν n} {e : Option (Fin n × ν)} {c : Option (κ × ν)}
    (h : m.Tabled table) (hentry : m'.entry = Function.update m.entry k e)
    (hold : ∀ j v, j ≠ i → m.entry k ≠ some (j, v))
    (hslot : ∀ l v, l ≠ k → table i ≠ some (l, v))
    (hnew : ∀ j v, e = some (j, v) ↔ j = i ∧ c = some (k, v))
    (hcell : ∀ l v, c = some (l, v) → l = k) : m'.Tabled (Function.update table i c) := by
  intro l j w
  rw [hentry]
  by_cases hlk : l = k <;> by_cases hij : j = i
  · subst hlk hij
    rw [Function.update_self, Function.update_self, hnew]
    exact and_iff_right rfl
  · subst hlk
    rw [Function.update_self, Function.update_of_ne hij, ← h, hnew]
    exact iff_of_false (fun hnew' => hij hnew'.1) (hold j w hij)
  · subst hij
    rw [Function.update_of_ne hlk, Function.update_self, h]
    exact iff_of_false (hslot l w hlk) fun hc => hlk (hcell l w hc)
  · rw [Function.update_of_ne hlk, Function.update_of_ne hij]
    exact h l j w

theorem insert (h : m.Tabled table) (hk : m.entry k = none) (hi : m.Free i) :
    (m.insert k i v hi).Tabled (Function.update table i (some (k, v))) := by
  refine h.update rfl (fun j w _ => by simp [hk]) (fun l w _ hl => hi l w (h.entry_eq hl)) ?_ ?_
  · intro j w
    simp [eq_comm]
  · rintro l w ⟨⟩
    rfl

theorem erase (h : m.Tabled table) (hi : table i = some (k, v)) :
    (m.erase k).Tabled (Function.update table i none) := by
  refine h.update rfl ?_ ?_ (by simp) (by simp)
  · intro j w hij
    simp [h.entry_eq hi, Ne.symm hij]
  · intro l w hlk
    simp [hi, Ne.symm hlk]

theorem adjust (h : m.Tabled table) (hi : table i = some (k, v)) (f : ν → ν) :
    (m.adjust k f).Tabled (Function.update table i (some (k, f v))) := by
  have hk := h.entry_eq hi
  refine h.update rfl ?_ ?_ ?_ ?_
  · intro j w hij
    simp [hk, Ne.symm hij]
  · intro l w hlk
    simp [hi, Ne.symm hlk]
  · intro j w
    simp [hk, eq_comm]
  · rintro l w ⟨⟩
    rfl

/-- The entry is taken out, and put back under the other key. -/
theorem rekey (h : m.Tabled table) (hi : table i = some (k, v)) (hk' : m.entry k' = none) :
    (m.rekey k k').Tabled (Function.update table i (some (k', v))) := by
  have hk := h.entry_eq hi
  have hnone : (m.erase k).entry k' = none := by
    change Function.update m.entry k none k' = none
    by_cases hkk : k' = k
    · rw [hkk, Function.update_self]
    · rw [Function.update_of_ne hkk, hk']
  have hentry : (m.rekey k k').entry = Function.update (m.erase k).entry k' (some (i, v)) := by
    rw [← hk]
    rfl
  have htable := (h.erase hi).update (i := i) (c := some (k', v)) hentry
    (fun j w _ => by simp [hnone]) (fun l w _ => by simp) (fun j w => by simp [eq_comm])
    (by rintro l w ⟨⟩; rfl)
  rwa [Function.update_idem] at htable

end Tabled

end SlotMap

end EmbeddedOs.Lib
