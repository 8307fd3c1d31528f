import EmbeddedOs.Ddfs.GroupFree
import EmbeddedOs.Lib.Probe

/-!
# The search over the cylinder groups

`ffs_hashalloc` asks the preferred group, then groups at quadratically growing distances, then all
that are left one after the other. Each group is asked at some time, so that a request fails only
if no group can answer it.
-/

namespace EmbeddedOs.Ddfs

open Lib Probe

/-- The groups of the quadratic rehash of `ffs_hashalloc`, from the distance `i` behind `cg` on. -/
def quadraticRehash (ncg : ℕ) : ℕ → ℕ → ℕ → List ℕ
  | 0, _, _ => []
  | n + 1, i, cg =>
    if i < ncg then
      let cg := cg + i
      let cg := if ncg ≤ cg then cg - ncg else cg
      cg :: quadraticRehash ncg n (i * 2) cg
    else []

/-- The groups of the brute force search of `ffs_hashalloc`: `n` groups from `cg` on. -/
def bruteForce (ncg : ℕ) : ℕ → ℕ → List ℕ
  | 0, _ => []
  | n + 1, cg => cg :: bruteForce ncg n (if cg + 1 = ncg then 0 else cg + 1)

/-- The groups that `ffs_hashalloc` asks, each with the preference it passes on. The distance
grows to `ncg` in less than `ncg` doublings. -/
def hashallocGroups (ncg icg pref : ℕ) : List (ℕ × ℕ) :=
  (icg, pref) :: (quadraticRehash ncg ncg 1 icg ++
    bruteForce ncg (ncg - 2) ((icg + 2) % ncg)).map fun cg => (cg, 0)

/-- `ffs_hashalloc`: the first result of `allocator`, 0 if no group has one. -/
def ffsHashalloc {σ : Type*} (ncg : ℕ) (allocator : σ → ℕ × ℕ → Option (σ × ℕ)) (s : σ)
    (cg pref : ℕ) : Option (σ × ℕ) :=
  firstResult allocator (hashallocGroups ncg cg pref) s

section Groups

variable {ncg icg pref n i c cg : ℕ}

theorem mem_quadraticRehash (hcg : cg < ncg) (hc : c ∈ quadraticRehash ncg n i cg) : c < ncg := by
  induction n generalizing i cg with
  | zero => exact absurd hc List.not_mem_nil
  | succ n ih =>
    unfold quadraticRehash at hc
    split at hc
    · rename_i hi
      have hnext : (if ncg ≤ cg + i then cg + i - ncg else cg + i) < ncg := by
        split
        · omega
        · omega
      rcases List.mem_cons.mp hc with rfl | hc
      · exact hnext
      · exact ih hnext hc
    · exact absurd hc List.not_mem_nil

/-- The first group of the rehash is the next one. -/
theorem next_mem_quadraticRehash (hncg : 1 < ncg) (hicg : icg < ncg) :
    (icg + 1) % ncg ∈ quadraticRehash ncg ncg 1 icg := by
  obtain ⟨n, rfl⟩ : ∃ n, ncg = n + 1 := ⟨ncg - 1, by omega⟩
  unfold quadraticRehash
  rw [if_pos hncg]
  refine List.mem_cons.mpr (.inl ?_)
  split
  · rename_i hge
    have heq : icg + 1 = n + 1 := by omega
    rw [heq, Nat.mod_self, Nat.sub_self]
  · exact Nat.mod_eq_of_lt (by omega)

theorem mem_bruteForce_iff (hcg : cg < ncg) :
    c ∈ bruteForce ncg n cg ↔ ∃ j, j < n ∧ c = (cg + j) % ncg := by
  induction n generalizing cg with
  | zero => simp [bruteForce]
  | succ n ih =>
    have hnext : (if cg + 1 = ncg then 0 else cg + 1) = (cg + 1) % ncg := by
      split
      · rename_i heq
        rw [heq, Nat.mod_self]
      · exact (Nat.mod_eq_of_lt (by omega)).symm
    have hlt : (cg + 1) % ncg < ncg := Nat.mod_lt _ (by omega)
    have hmod : ∀ j, ((cg + 1) % ncg + j) % ncg = (cg + (j + 1)) % ncg := fun j => by
      rw [Nat.mod_add_mod, Nat.add_assoc, Nat.add_comm 1 j]
    rw [bruteForce, List.mem_cons, hnext, ih hlt]
    constructor
    · rintro (rfl | ⟨j, hj, rfl⟩)
      · exact ⟨0, Nat.zero_lt_succ n, (Nat.mod_eq_of_lt hcg).symm⟩
      · exact ⟨j + 1, Nat.succ_lt_succ hj, hmod j⟩
    · rintro ⟨j, hj, rfl⟩
      cases j with
      | zero => exact .inl (Nat.mod_eq_of_lt hcg)
      | succ j => exact .inr ⟨j, Nat.lt_of_succ_lt_succ hj, (hmod j).symm⟩

/-- Only groups of the file system are asked, and each of them is. -/
theorem mem_hashallocGroups_iff (hicg : icg < ncg) :
    (∃ p, (c, p) ∈ hashallocGroups ncg icg pref) ↔ c < ncg := by
  have hstart : (icg + 2) % ncg < ncg := Nat.mod_lt _ (by omega)
  constructor
  · rintro ⟨p, hmem⟩
    rcases List.mem_cons.mp hmem with heq | hmem
    · rw [(Prod.mk.inj heq).1]
      exact hicg
    · obtain ⟨d, hd, heq⟩ := List.mem_map.mp hmem
      rw [← (Prod.mk.inj heq).1]
      rcases List.mem_append.mp hd with hd | hd
      · exact mem_quadraticRehash hicg hd
      · obtain ⟨j, -, rfl⟩ := (mem_bruteForce_iff hstart).mp hd
        exact Nat.mod_lt _ (by omega)
  · intro hc
    -- the distance of `c` behind the preferred group
    obtain ⟨j, hj, hcj⟩ : ∃ j, j < ncg ∧ c = (icg + j) % ncg := by
      rcases Nat.lt_or_ge c icg with hlt | hge
      · refine ⟨c + ncg - icg, by omega, ?_⟩
        rw [Nat.add_sub_cancel' (by omega), Nat.add_mod_right, Nat.mod_eq_of_lt hc]
      · refine ⟨c - icg, by omega, ?_⟩
        rw [Nat.add_sub_cancel' hge, Nat.mod_eq_of_lt hc]
    rcases Nat.lt_or_ge j 2 with hj2 | hj2
    · rcases Nat.lt_or_ge j 1 with hj1 | hj1
      · obtain rfl : j = 0 := by omega
        rw [Nat.add_zero, Nat.mod_eq_of_lt hicg] at hcj
        exact ⟨pref, List.mem_cons.mpr (.inl (by rw [hcj]))⟩
      · obtain rfl : j = 1 := by omega
        refine ⟨0, List.mem_cons_of_mem _ (List.mem_map.mpr ⟨c, ?_, rfl⟩)⟩
        rw [hcj]
        exact List.mem_append_left _ (next_mem_quadraticRehash (by omega) hicg)
    · refine ⟨0, List.mem_cons_of_mem _ (List.mem_map.mpr ⟨c, ?_, rfl⟩)⟩
      refine List.mem_append_right _ ((mem_bruteForce_iff hstart).mpr ⟨j - 2, by omega, ?_⟩)
      rw [hcj, Nat.mod_add_mod, Nat.add_assoc, Nat.add_sub_cancel' hj2]

end Groups

section Search

variable {σ : Type*} {ncg cg pref : ℕ} {allocator : σ → ℕ × ℕ → Option (σ × ℕ)} {I : σ → Prop}

/-- The search finds something in the preferred group, or there is nothing in it; it finds
something in another group, or there is nothing in any group. -/
theorem ffsHashalloc_rule (kept : σ → σ → Prop) (nothing : σ → ℕ → Prop)
    (post : σ → ℕ → σ → ℕ → Prop) (hcg : cg < ncg)
    (hask : ∀ c, c < ncg → ∀ p, Answers allocator I kept (fun s b => nothing s b.1)
      (fun s b s' r => post s b.1 s' r) (c, p))
    (hrefl : ∀ s, kept s s) (htrans : ∀ s t u, kept s t → kept t u → kept s u)
    (hstable : ∀ s t c, kept s t → nothing s c → nothing t c) {s : σ} (hs : I s) :
    ∃ s' r, ffsHashalloc ncg allocator s cg pref = some (s', r) ∧ I s' ∧
      (r = 0 → kept s s' ∧ ∀ c, c < ncg → nothing s' c) ∧
      (r ≠ 0 → ∃ c t, c < ncg ∧ I t ∧ kept s t ∧ post t c s' r ∧ (c = cg ∨ nothing t cg)) := by
  have hmem : ∀ b ∈ hashallocGroups ncg cg pref, b.1 < ncg := fun b hb =>
    (mem_hashallocGroups_iff hcg).mp ⟨b.2, hb⟩
  obtain ⟨s', r, heq, hs', hzero, hpost⟩ := firstResult_rule
    (fun b hb => hask b.1 (hmem b hb) b.2) hrefl htrans (fun s t b => hstable s t b.1) hs
  refine ⟨s', r, heq, hs', fun hr => ?_, fun hr => ?_⟩
  · obtain ⟨hkept, hall⟩ := hzero hr
    refine ⟨hkept, fun c hc => ?_⟩
    have hlisted : ∃ p, (c, p) ∈ hashallocGroups ncg cg pref := (mem_hashallocGroups_iff hcg).mpr hc
    obtain ⟨p, hp⟩ := hlisted
    exact hall _ hp
  · obtain ⟨before, b, behind, hsplit, t, ht, hkept, hbefore, hb⟩ := hpost hr
    have hin : b ∈ hashallocGroups ncg cg pref := by
      rw [hsplit]
      exact List.mem_append_right _ List.mem_cons_self
    refine ⟨b.1, t, hmem b hin, ht, hkept, hb, ?_⟩
    -- the preferred group is the first one
    cases before with
    | nil => exact .inl (by rw [← (List.cons.inj hsplit).1])
    | cons a before =>
      have ha := hbefore a List.mem_cons_self
      rw [← (List.cons.inj hsplit).1] at ha
      exact .inr ha

end Search

end EmbeddedOs.Ddfs
