import EmbeddedOs.Ddfs.Threads

/-!
# Unique keys under concurrent calls

Two allocations of one key are kept apart by the buffers of the first free slots that they
found: one of them has yet to pass the other's, and will wait for it and find the new entry
there. This rests on every block that an allocation without a free slot has passed being full,
which a removal behind the allocation breaks.
-/

namespace EmbeddedOs.Ddfs

open Lib Lib.SlotTable

/-! ## Allocations that search the table -/

/-- An allocation that searches the table. -/
structure Scanner where
  /-- The key it looks for. -/
  key : Key
  /-- The blocks before this one are passed. -/
  pos : ℕ
  /-- The first free slot among them, whose buffer is kept. -/
  free : Option (ℕ × ℕ)

variable {τ : Type*}

/-- The searches do not interfere, and the keys are unique. -/
structure Separated (table : DedupTable) (owner : ℕ → Option τ) (scanner : τ → Option Scanner) :
    Prop where
  /-- The slot that a search keeps is free, and its buffer is the thread's. -/
  free : ∀ t x p, scanner t = some x → x.free = some p →
    p.1 < x.pos ∧ owner p.1 = some t ∧ ∃ e, slot table p = some e ∧ e.active = false
  /-- A search that keeps no slot has passed full blocks. -/
  full : ∀ t x, scanner t = some x → x.free = none →
    ∀ p e, slot table p = some e → p.1 < x.pos → e.active = true
  /-- The key is not in the blocks that were passed. -/
  absent : ∀ t x, scanner t = some x → ∀ p e, InUse table p e → p.1 < x.pos → e.key ≠ x.key
  /-- Of two searches for one key one has not yet passed the slot of the other. -/
  apart : ∀ t u x y p q, t ≠ u → scanner t = some x → scanner u = some y → x.key = y.key →
    x.free = some p → y.free = some q → x.pos ≤ q.1 ∨ y.pos ≤ p.1
  /-- The keys are unique. -/
  unique : UniqueKeys table

namespace Separated

variable {table : DedupTable} {owner owner' : ℕ → Option τ} {scanner : τ → Option Scanner}
  {t : τ} {x : Scanner} {p : ℕ × ℕ} {e : DdfsDedup}

/-- No thread searches. -/
theorem atRest (hunique : UniqueKeys table) : Separated table owner fun _ => none where
  free _ _ _ hu := nomatch hu
  full _ _ hu := nomatch hu
  absent _ _ hu := nomatch hu
  apart _ _ _ _ _ _ _ hu := nomatch hu
  unique := hunique

/-- Fewer searches. -/
theorem mono {scanner' : τ → Option Scanner} (h : Separated table owner scanner)
    (hsub : ∀ u y, scanner' u = some y → scanner u = some y) :
    Separated table owner scanner' where
  free u y p hu := h.free u y p (hsub u y hu)
  full u y hu := h.full u y (hsub u y hu)
  absent u y hu := h.absent u y (hsub u y hu)
  apart u v y z p q huv hu hv := h.apart u v y z p q huv (hsub u y hu) (hsub v z hv)
  unique := h.unique

/-- Buffers change hands, but not those that a search keeps. -/
theorem owners (h : Separated table owner scanner)
    (howner : ∀ t x p, scanner t = some x → x.free = some p → owner' p.1 = owner p.1) :
    Separated table owner' scanner where
  free t x p hx hp := by
    rw [howner t x p hx hp]
    exact h.free t x p hx hp
  full := h.full
  absent := h.absent
  apart := h.apart
  unique := h.unique

/-- A thread releases a buffer that its search does not keep. -/
theorem release {i : ℕ} (h : Separated table owner scanner) (howner : owner i = some t)
    (hother : ∀ x p, scanner t = some x → x.free = some p → p.1 ≠ i) :
    Separated table (Function.update owner i none) scanner := by
  apply h.owners
  intro u y q hu hq
  apply Function.update_of_ne
  rintro rfl
  have howner' := (h.free u y q hu hq).2.1
  rw [howner, Option.some.injEq] at howner'
  subst howner'
  exact hother y q hu hq rfl

/-- An entry in use is changed: it keeps its key, or it is removed in front of every search that
keeps no slot. -/
theorem overwrite {new : DdfsDedup} (h : Separated table owner scanner) (hp : InUse table p e)
    (hkey : new.active = true → new.key = e.key)
    (hfront : new.active = false → ∀ t x, scanner t = some x → x.free = none → x.pos ≤ p.1) :
    Separated (setSlot table p new) owner scanner := by
  have hinUse : ∀ q e', InUse (setSlot table p new) q e' →
      ∃ e'', InUse table q e'' ∧ e''.key = e'.key := by
    intro q e' hq
    rcases (inUse_setSlot hp.1).mp hq with ⟨rfl, rfl, hact⟩ | ⟨-, hq⟩
    · exact ⟨e, hp, (hkey hact).symm⟩
    · exact ⟨e', hq, rfl⟩
  constructor
  case free =>
    intro u y q hu hq
    obtain ⟨hlt, howner, e', he', hfree⟩ := h.free u y q hu hq
    refine ⟨hlt, howner, e', ?_, hfree⟩
    rw [slot_setSlot_of_ne, he']
    rintro rfl
    rw [hp.1, Option.some.injEq] at he'
    rw [← he', hp.2] at hfree
    cases hfree
  case full =>
    intro u y hu hnone q e' hq hlt
    by_cases hqp : q = p
    · rw [hqp, slot_setSlot_self hp.1, Option.some.injEq] at hq
      rw [← hq, ← Bool.not_eq_false]
      intro hfree
      have hle := hfront hfree u y hu hnone
      rw [hqp] at hlt
      omega
    · rw [slot_setSlot_of_ne _ hqp] at hq
      exact h.full u y hu hnone q e' hq hlt
  case absent =>
    intro u y hu q e' hq hlt
    obtain ⟨e'', hq', hkey'⟩ := hinUse q e' hq
    rw [← hkey']
    exact h.absent u y hu q e'' hq' hlt
  case apart => exact h.apart
  case unique =>
    intro q r e₁ e₂ hq hr heq
    obtain ⟨e₁', hq', hkey₁⟩ := hinUse q e₁ hq
    obtain ⟨e₂', hr', hkey₂⟩ := hinUse r e₂ hr
    exact h.unique q r e₁' e₂' hq' hr' (hkey₁.trans (heq.trans hkey₂.symm))

variable [DecidableEq τ]

/-- A search goes over to another state. -/
theorem set (h : Separated table owner scanner)
    (hfree : ∀ p, x.free = some p →
      p.1 < x.pos ∧ owner p.1 = some t ∧ ∃ e, slot table p = some e ∧ e.active = false)
    (hfull : x.free = none → ∀ p e, slot table p = some e → p.1 < x.pos → e.active = true)
    (habsent : ∀ p e, InUse table p e → p.1 < x.pos → e.key ≠ x.key)
    (hapart : ∀ u y p q, u ≠ t → scanner u = some y → x.key = y.key → x.free = some p →
      y.free = some q → x.pos ≤ q.1 ∨ y.pos ≤ p.1) :
    Separated table owner (Function.update scanner t (some x)) where
  free u y p hu hy := by
    by_cases hut : u = t
    · subst hut
      rw [Function.update_self, Option.some.injEq] at hu
      subst hu
      exact hfree p hy
    · rw [Function.update_of_ne hut] at hu
      exact h.free u y p hu hy
  full u y hu hy := by
    by_cases hut : u = t
    · subst hut
      rw [Function.update_self, Option.some.injEq] at hu
      subst hu
      exact hfull hy
    · rw [Function.update_of_ne hut] at hu
      exact h.full u y hu hy
  absent u y hu := by
    by_cases hut : u = t
    · subst hut
      rw [Function.update_self, Option.some.injEq] at hu
      subst hu
      exact habsent
    · rw [Function.update_of_ne hut] at hu
      exact h.absent u y hu
  apart u v y z p q huv hu hv hkey hy hz := by
    by_cases hut : u = t
    · subst hut
      rw [Function.update_self, Option.some.injEq] at hu
      rw [Function.update_of_ne (Ne.symm huv)] at hv
      subst hu
      exact hapart v z p q (Ne.symm huv) hv hkey hy hz
    · rw [Function.update_of_ne hut] at hu
      by_cases hvt : v = t
      · subst hvt
        rw [Function.update_self, Option.some.injEq] at hv
        subst hv
        exact (hapart u y q p huv hu hkey.symm hz hy).symm
      · rw [Function.update_of_ne hvt] at hv
        exact h.apart u v y z p q huv hu hv hkey hy hz
  unique := h.unique

/-- A thread leaves its search. -/
theorem stop (h : Separated table owner scanner) (t : τ) :
    Separated table owner (Function.update scanner t none) := by
  apply h.mono
  intro u y hu
  by_cases hut : u = t
  · rw [hut, Function.update_self] at hu
    cases hu
  · rwa [Function.update_of_ne hut] at hu

/-- A thread begins to search. -/
theorem start (h : Separated table owner scanner) (t : τ) (key : Key) :
    Separated table owner (Function.update scanner t (some ⟨key, 0, none⟩)) := by
  apply h.set
  · intro p hp
    cases hp
  · intro _ p e _ hlt
    exact absurd hlt (Nat.not_lt_zero _)
  · intro p e _ hlt
    exact absurd hlt (Nat.not_lt_zero _)
  · intro u y p q _ _ _ hp
    cases hp

/-- A search passes a block without its key. -/
theorem pass (h : Separated table owner scanner) (hx : scanner t = some x)
    (howner : owner x.pos = some t)
    (habsent : ∀ k e, InUse table (x.pos, k) e → e.key ≠ x.key)
    (hfull : x.free = none → ∀ k e, slot table (x.pos, k) = some e → e.active = true) :
    Separated table owner (Function.update scanner t (some { x with pos := x.pos + 1 })) := by
  apply h.set
  · intro p hp
    obtain ⟨hlt, hrest⟩ := h.free t x p hx hp
    exact ⟨Nat.lt_succ_of_lt hlt, hrest⟩
  · rintro hnone ⟨j, k⟩ e he hlt
    rcases Nat.lt_succ_iff_lt_or_eq.mp hlt with hlt | rfl
    · exact h.full t x hx hnone _ e he hlt
    · exact hfull hnone k e he
  · rintro ⟨j, k⟩ e he hlt
    rcases Nat.lt_succ_iff_lt_or_eq.mp hlt with hlt | rfl
    · exact h.absent t x hx _ e he hlt
    · exact habsent k e he
  · -- the block that is passed is not that of another thread's slot
    intro u y p q hut hu hkey hp hq
    have hother : q.1 ≠ x.pos := by
      intro heq
      have howner' := (h.free u y q hu hq).2.1
      rw [heq, howner, Option.some.injEq] at howner'
      exact hut howner'.symm
    rcases h.apart t u x y p q (Ne.symm hut) hx hu hkey hp hq with hle | hle
    · exact Or.inl (by simp only; omega)
    · exact Or.inr hle

/-- A search passes a block and keeps a free slot of it. -/
theorem keep {k : ℕ} (h : Separated table owner scanner) (hx : scanner t = some x)
    (hnone : x.free = none) (howner : owner x.pos = some t)
    (habsent : ∀ k e, InUse table (x.pos, k) e → e.key ≠ x.key)
    (he : slot table (x.pos, k) = some e) (hfree : e.active = false) :
    Separated table owner
      (Function.update scanner t (some ⟨x.key, x.pos + 1, some (x.pos, k)⟩)) := by
  apply h.set
  · intro p hp
    simp only [Option.some.injEq] at hp
    subst hp
    exact ⟨Nat.lt_succ_self _, howner, e, he, hfree⟩
  · intro hsome
    cases hsome
  · rintro ⟨j, k⟩ e he hlt
    rcases Nat.lt_succ_iff_lt_or_eq.mp hlt with hlt | rfl
    · exact h.absent t x hx _ e he hlt
    · exact habsent k e he
  · -- the other thread's slot is free, so it is not in a block that was passed before
    intro u y p q hut hu _ hp hq
    obtain ⟨-, howner', e', he', hfree'⟩ := h.free u y q hu hq
    left
    by_contra hlt
    rcases Nat.lt_succ_iff_lt_or_eq.mp (not_le.mp hlt) with hlt | heq
    · rw [h.full t x hx hnone q e' he' hlt] at hfree'
      cases hfree'
    · rw [heq, howner, Option.some.injEq] at howner'
      exact hut howner'.symm

/-- A search behind the last block writes its key to the slot that it kept. -/
theorem insert {new : DdfsDedup} (h : Separated table owner scanner) (hx : scanner t = some x)
    (hp : x.free = some p) (hend : table.length ≤ x.pos) (hkey : new.key = x.key) :
    Separated (setSlot table p new) owner (Function.update scanner t none) := by
  obtain ⟨hlt, howner, e, he, hfree⟩ := h.free t x p hx hp
  have hall : ∀ q e', InUse table q e' → e'.key ≠ x.key := by
    intro q e' hq
    exact h.absent t x hx q e' hq ((row_lt_length hq.1).trans_le hend)
  have hstop := h.stop t
  have hother : ∀ u y, Function.update scanner t none u = some y → u ≠ t ∧ scanner u = some y := by
    intro u y hu
    by_cases hut : u = t
    · rw [hut, Function.update_self] at hu
      cases hu
    · rw [Function.update_of_ne hut] at hu
      exact ⟨hut, hu⟩
  constructor
  case free =>
    intro u y q hu hq
    obtain ⟨hlt', howner', e', he', hfree'⟩ := hstop.free u y q hu hq
    refine ⟨hlt', howner', e', ?_, hfree'⟩
    rw [slot_setSlot_of_ne, he']
    rintro rfl
    rw [howner, Option.some.injEq] at howner'
    exact (hother u y hu).1 howner'.symm
  case full =>
    intro u y hu hnone q e' hq hlt'
    by_cases hqp : q = p
    · -- the slot was free, so no such search has passed it
      subst hqp
      rw [hstop.full u y hu hnone q e he hlt'] at hfree
      cases hfree
    · rw [slot_setSlot_of_ne _ hqp] at hq
      exact hstop.full u y hu hnone q e' hq hlt'
  case absent =>
    intro u y hu q e' hq hlt'
    rcases (inUse_setSlot he).mp hq with ⟨rfl, rfl, -⟩ | ⟨-, hq⟩
    · obtain ⟨hut, hu'⟩ := hother u y hu
      rw [hkey]
      intro heq
      cases hy : y.free with
      | none =>
        rw [h.full u y hu' hy q e he hlt'] at hfree
        cases hfree
      | some r =>
        -- the other search has yet to pass the new entry
        have hrlt : r.1 < x.pos := by
          obtain ⟨-, -, e', he', -⟩ := h.free u y r hu' hy
          exact (row_lt_length he').trans_le hend
        rcases h.apart t u x y q r (Ne.symm hut) hx hu' heq hp hy with hle | hle
        · omega
        · omega
    · exact hstop.absent u y hu q e' hq hlt'
  case apart => exact hstop.apart
  case unique =>
    intro q r e₁ e₂ hq hr heq
    rcases (inUse_setSlot he).mp hq with ⟨hqp, heq₁, -⟩ | ⟨-, hq'⟩ <;>
      rcases (inUse_setSlot he).mp hr with ⟨hrp, heq₂, -⟩ | ⟨-, hr'⟩
    · exact hqp.trans hrp.symm
    · exact absurd (heq.symm.trans (heq₁ ▸ hkey)) (hall r e₂ hr')
    · exact absurd (heq.trans (heq₂ ▸ hkey)) (hall q e₁ hq')
    · exact h.unique q r e₁ e₂ hq' hr' heq

end Separated

/-! ## The threads -/

/-- The search of a thread in `ddtable_alloc`. -/
def Phase.scanner : Phase → Option Scanner
  | .scan (.alloc key _ _) i fs => some ⟨key, i, fs.slot⟩
  | .held (.alloc key _ _) i fs => some ⟨key, i, fs.slot⟩
  | _ => none

/-- What holds of a thread by itself. -/
def Phase.Valid (table : DedupTable) (owner : ℕ → Option τ) (t : τ) : Phase → Prop
  | .idle => True
  | .scan _ _ fs => fs.Marked
  | .held _ i fs => fs.Marked ∧ owner i = some t
  | .hit _ i idx => owner i = some t ∧ ∃ e, InUse table (slotAt i idx) e

/-- The searches do not interfere, and every thread is in order. -/
structure Shared.Inv [DecidableEq τ] (s : Shared τ) : Prop where
  /-- The searches. -/
  separated : Separated s.table s.owner fun t => (s.phase t).scanner
  /-- The threads. -/
  valid : ∀ t, (s.phase t).Valid s.table s.owner t

/-- The step frees no slot of a block that an allocation without a free slot has passed. -/
def Shared.FreesAhead (s : Shared τ) (a : τ × Action) : Prop :=
  ∀ blocknum i idx e, a.2 = .update → s.phase a.1 = .hit (.unref blocknum) i idx →
    slot s.table (slotAt i idx) = some e → e.refCount = 1 →
    ∀ u x, (s.phase u).scanner = some x → x.free = none → x.pos ≤ i

/-! ### What the threads know -/

theorem FreeScan.Marked.slot_eq_none {fs : FreeScan} (h : fs.Marked) :
    fs.slot = none ↔ fs.freespot = -1 := by
  rcases h with ⟨hspot, hfb⟩ | ⟨hspot, fb, hfb⟩
  · simp [FreeScan.slot, hspot, hfb]
  · simp only [FreeScan.slot, hfb, Option.map_some, reduceCtorEq, false_iff]
    omega

theorem Phase.scanner_held (call : TableCall) (i : ℕ) (fs : FreeScan) :
    (Phase.held call i fs).scanner = (Phase.scan call i fs).scanner := by
  cases call <;> rfl

/-- Another thread stays in order: it keeps its buffers, and nobody else changes them. -/
theorem Phase.Valid.congr {table table' : DedupTable} {owner owner' : ℕ → Option τ} {u : τ}
    {p : Phase} (h : p.Valid table owner u)
    (howner : ∀ i, owner i = some u → owner' i = some u)
    (htable : ∀ q, owner q.1 = some u → slot table' q = slot table q) :
    p.Valid table' owner' u := by
  cases p with
  | idle => trivial
  | scan call i fs => exact h
  | held call i fs => exact ⟨h.1, howner i h.2⟩
  | hit call i idx =>
    obtain ⟨hi, e, hslot, hact⟩ := h
    exact ⟨howner i hi, e, (htable (slotAt i idx) hi).trans hslot, hact⟩

/-- A buffer that the thread owns and gives back is not that of another. -/
theorem owner_release {owner : ℕ → Option τ} {t : τ} {i : ℕ} (hi : owner i = some t) (u : τ) (j : ℕ)
    (hut : u ≠ t) (hj : owner j = some u) : Function.update owner i none j = some u := by
  rw [Function.update_of_ne, hj]
  rintro rfl
  rw [hi, Option.some.injEq] at hj
  exact hut hj.symm

/-- A write to a block that the thread owns does not reach the blocks of another. -/
theorem slot_write {table : DedupTable} {owner : ℕ → Option τ} {t : τ} {p : ℕ × ℕ} (new : DdfsDedup)
    (hp : owner p.1 = some t) (u : τ) (q : ℕ × ℕ) (hut : u ≠ t) (hq : owner q.1 = some u) :
    slot (setSlot table p new) q = slot table q := by
  apply slot_setSlot_of_ne
  rintro rfl
  rw [hp, Option.some.injEq] at hq
  exact hut hq.symm

section Steps

variable [DecidableEq τ] {s s' : Shared τ} {t : τ}

/-- The searches after a change of one thread. -/
theorem scanner_update (phase : τ → Phase) (t : τ) (p : Phase) :
    (fun u => (Function.update phase t p u).scanner) =
      Function.update (fun u => (phase u).scanner) t p.scanner := by
  funext u
  by_cases hut : u = t
  · rw [hut, Function.update_self, Function.update_self]
  · rw [Function.update_of_ne hut, Function.update_of_ne hut]

/-- The threads are in order if the one that moved is. -/
theorem valid_update {phase : τ → Phase} {table table' : DedupTable} {owner owner' : ℕ → Option τ}
    {p : Phase} (h : ∀ u, (phase u).Valid table owner u) (hp : p.Valid table' owner' t)
    (howner : ∀ u i, u ≠ t → owner i = some u → owner' i = some u)
    (htable : ∀ u q, u ≠ t → owner q.1 = some u → slot table' q = slot table q) (u : τ) :
    (Function.update phase t p u).Valid table' owner' u := by
  by_cases hut : u = t
  · rw [hut, Function.update_self]
    exact hp
  · rw [Function.update_of_ne hut]
    exact (h u).congr (fun i => howner u i hut) (fun q => htable u q hut)

theorem Shared.Inv.call (h : s.Inv) (call : TableCall) :
    Shared.Inv { s with phase := Function.update s.phase t (.scan call 0 ⟨-1, none, false⟩) } := by
  constructor
  · rw [scanner_update]
    cases call with
    | alloc key inBlock flags => exact h.separated.start t key
    | unref blocknum => exact h.separated.stop t
  · exact valid_update h.valid (Or.inl ⟨rfl, rfl⟩) (fun _ _ _ hi => hi) fun _ _ _ _ => rfl

theorem Shared.Inv.bread {call : TableCall} {i : ℕ} {fs : FreeScan} (h : s.Inv)
    (hphase : s.phase t = .scan call i fs) (hi : s.owner i = none) :
    Shared.Inv
      { s with
        owner := Function.update s.owner i (some t)
        phase := Function.update s.phase t (.held call i fs) } := by
  have howner : ∀ u j, s.owner j = some u → Function.update s.owner i (some t) j = some u := by
    intro u j hj
    rw [Function.update_of_ne, hj]
    rintro rfl
    rw [hi] at hj
    cases hj
  have hvalid := h.valid t
  rw [hphase] at hvalid
  constructor
  · have hsame : (Phase.held call i fs).scanner = (s.phase t).scanner := by
      rw [hphase, Phase.scanner_held]
    rw [scanner_update, hsame, Function.update_eq_self]
    apply h.separated.owners
    intro u x p hx hp
    have hp' := (h.separated.free u x p hx hp).2.1
    exact (howner u p.1 hp').trans hp'.symm
  · exact valid_update h.valid ⟨hvalid, Function.update_self _ _ _⟩ (fun u j _ => howner u j)
      fun _ _ _ _ => rfl

theorem Shared.Inv.hit {call : TableCall} {i k : ℕ} {fs : FreeScan} {e : DdfsDedup} (h : s.Inv)
    (hphase : s.phase t = .held call i fs) (he : InUse s.table (i, k) e) :
    Shared.Inv { s with phase := Function.update s.phase t (.hit call i (k * dedupSize)) } := by
  have hvalid := h.valid t
  rw [hphase] at hvalid
  constructor
  · rw [scanner_update]
    exact h.separated.stop t
  · refine valid_update h.valid ⟨hvalid.2, e, ?_⟩ (fun _ _ _ hi => hi) fun _ _ _ _ => rfl
    rwa [slotAt_offset]

/-- An allocation that finds no match in a block is right that its key is not there. -/
theorem absent_of_miss {table : DedupTable} {key : Key} {i : ℕ}
    (hmiss : ∀ k e, slot table (i, k) = some e → hits (some key) none e = false) :
    ∀ k e, InUse table (i, k) e → e.key ≠ key := by
  rintro k e ⟨he, hact⟩ rfl
  have hmiss' := hmiss k e he
  simp [hits, targetMatches, hact] at hmiss'

theorem Shared.Inv.pass {call : TableCall} {i : ℕ} {fs : FreeScan} (h : s.Inv)
    (hphase : s.phase t = .held call i fs)
    (hmiss : ∀ k e, slot s.table (i, k) = some e → hits call.key call.targetblock e = false)
    (hfull : call.wantFree = true → fs.freespot = -1 →
      ∀ k e, slot s.table (i, k) = some e → e.active = true) :
    Shared.Inv
      { s with
        owner := Function.update s.owner i none
        phase := Function.update s.phase t (.scan call (i + 1) { fs with found := false }) } := by
  obtain ⟨hmarked, hi⟩ : fs.Marked ∧ s.owner i = some t := by
    have hvalid := h.valid t
    rwa [hphase] at hvalid
  constructor
  · rw [scanner_update]
    cases call with
    | unref blocknum =>
      apply (h.separated.stop t).release hi
      intro x p hx
      rw [Function.update_self] at hx
      cases hx
    | alloc key inBlock flags =>
      have hx : (s.phase t).scanner = some ⟨key, i, fs.slot⟩ := by
        rw [hphase]
        rfl
      have habsent : ∀ k e, InUse s.table (i, k) e → e.key ≠ key := absent_of_miss hmiss
      have hpass := h.separated.pass (t := t) hx hi habsent fun hnone =>
        hfull rfl (hmarked.slot_eq_none.mp hnone)
      apply hpass.release hi
      intro x p hx' hp
      rw [Function.update_self, Option.some.injEq] at hx'
      subst hx'
      exact ((h.separated.free t _ p hx hp).1).ne
  · exact valid_update h.valid hmarked (owner_release hi) fun _ _ _ _ => rfl

theorem Shared.Inv.keep {call : TableCall} {i k : ℕ} {fs : FreeScan} {e : DdfsDedup} (h : s.Inv)
    (hphase : s.phase t = .held call i fs) (hwant : call.wantFree = true)
    (hmiss : ∀ k e, slot s.table (i, k) = some e → hits call.key call.targetblock e = false)
    (hspot : fs.freespot = -1) (he : slot s.table (i, k) = some e) (hfree : e.active = false) :
    Shared.Inv
      { s with
        phase := Function.update s.phase t
          (.scan call (i + 1) ⟨k * dedupSize, some i, true⟩) } := by
  obtain ⟨hmarked, hi⟩ : fs.Marked ∧ s.owner i = some t := by
    have hvalid := h.valid t
    rwa [hphase] at hvalid
  constructor
  · rw [scanner_update]
    cases call with
    | unref blocknum => cases hwant
    | alloc key inBlock flags =>
      have hx : (s.phase t).scanner = some ⟨key, i, fs.slot⟩ := by
        rw [hphase]
        rfl
      have habsent : ∀ k e, InUse s.table (i, k) e → e.key ≠ key := absent_of_miss hmiss
      have hkeep := h.separated.keep (t := t) hx (hmarked.slot_eq_none.mpr hspot) hi habsent he
        hfree
      simpa only [Phase.scanner, FreeScan.slot, Option.map_some, slotAt_offset] using hkeep
  · refine valid_update h.valid (Or.inr ⟨?_, i, rfl⟩) (fun _ _ _ hi => hi) fun _ _ _ _ => rfl
    positivity

theorem Shared.Inv.update {call : TableCall} {i : ℕ} {idx : ℤ} {e : DdfsDedup} (h : s.Inv)
    (hphase : s.phase t = .hit call i idx) (he : slot s.table (slotAt i idx) = some e)
    (hahead : ∀ blocknum, call = .unref blocknum → e.refCount = 1 →
      ∀ u x, (s.phase u).scanner = some x → x.free = none → x.pos ≤ i) :
    Shared.Inv
      { table := setSlot s.table (slotAt i idx) (call.found e)
        owner := Function.update s.owner i none
        phase := Function.update s.phase t .idle } := by
  obtain ⟨hi, e', he', hact⟩ : s.owner i = some t ∧ ∃ e, InUse s.table (slotAt i idx) e := by
    have hvalid := h.valid t
    rwa [hphase] at hvalid
  obtain rfl : e' = e := Option.some.inj (he'.symm.trans he)
  have hnone : (s.phase t).scanner = none := by
    rw [hphase]
    rfl
  have hkey : (call.found e').active = true → (call.found e').key = e'.key := by
    cases call with
    | alloc key inBlock flags => exact fun _ => rfl
    | unref blocknum =>
      simp only [TableCall.found]
      split
      · intro hfree
        rw [freeEntry_active] at hfree
        cases hfree
      · exact fun _ => rfl
  have hfront : (call.found e').active = false → ∀ u x, (s.phase u).scanner = some x →
      x.free = none → x.pos ≤ i := by
    cases call with
    | alloc key inBlock flags =>
      intro hfree
      have hfree' : e'.active = false := hfree
      rw [hact] at hfree'
      cases hfree'
    | unref blocknum =>
      simp only [TableCall.found]
      split
      case isTrue hzero =>
        intro _
        have hone : e'.refCount = 1 := by
          rw [← UInt16.sub_add_cancel e'.refCount 1, hzero, UInt16.zero_add]
        exact hahead blocknum rfl hone
      case isFalse =>
        intro hfree
        have hfree' : e'.active = false := hfree
        rw [hact] at hfree'
        cases hfree'
  constructor
  · have hidle : (Phase.idle).scanner = (s.phase t).scanner := hnone.symm
    rw [scanner_update, hidle, Function.update_eq_self]
    apply (h.separated.overwrite ⟨he', hact⟩ hkey hfront).release hi
    intro x p hx
    rw [hnone] at hx
    cases hx
  · exact valid_update h.valid trivial (owner_release hi)
      (slot_write (p := slotAt i idx) (call.found e') hi)

theorem Shared.Inv.insert {key : Key} {inBlock : ℤ} {flags : UInt16} {i : ℕ} {fs : FreeScan}
    {p : ℕ × ℕ} (h : s.Inv) (hphase : s.phase t = .scan (.alloc key inBlock flags) i fs)
    (hend : s.table.length ≤ i) (hp : fs.slot = some p) :
    Shared.Inv
      { table := setSlot s.table p ⟨key, flags ||| ddfsDedupActive, 1, inBlock⟩
        owner := Function.update s.owner p.1 none
        phase := Function.update s.phase t .idle } := by
  have hx : (s.phase t).scanner = some ⟨key, i, fs.slot⟩ := by
    rw [hphase]
    rfl
  have hi := (h.separated.free t _ p hx hp).2.1
  constructor
  · rw [scanner_update]
    have hinsert :
        Separated (setSlot s.table p ⟨key, flags ||| ddfsDedupActive, 1, inBlock⟩) s.owner
          (Function.update (fun u => (s.phase u).scanner) t none) :=
      h.separated.insert hx hp hend rfl
    apply hinsert.release hi
    intro x q hx'
    rw [Function.update_self] at hx'
    cases hx'
  · exact valid_update h.valid trivial (owner_release hi) (slot_write _ hi)

/-- Every step that frees no slot behind an allocation keeps the invariant. -/
theorem Shared.Inv.next {a : Action} (h : s.Inv) (hahead : s.FreesAhead (t, a))
    (hnext : s.next t a = some s') : s'.Inv := by
  cases effect_of_next hnext with
  | call call hphase => exact h.call call
  | bread hphase hi => exact h.bread hphase hi
  | hit hphase he => exact h.hit hphase he
  | pass hphase hmiss hfull => exact h.pass hphase hmiss hfull
  | keep hphase hwant hmiss hspot he hfree => exact h.keep hphase hwant hmiss hspot he hfree
  | @update call i idx e hphase he =>
    refine h.update hphase he ?_
    rintro blocknum rfl hone
    exact hahead blocknum i idx e rfl hphase he hone
  | insert hphase hend hp => exact h.insert hphase hend hp
  | missing hphase =>
    constructor
    · rw [scanner_update]
      exact h.separated.stop t
    · exact valid_update h.valid trivial (fun _ _ _ hi => hi) fun _ _ _ _ => rfl

/-! ### The runs -/

theorem Shared.Inv.init (hs : (tableThreads τ).init s) : s.Inv := by
  obtain ⟨hunique, -, hidle⟩ := hs
  have hnone : (fun t => (s.phase t).scanner) = fun _ => none := by
    funext u
    rw [hidle u]
    rfl
  constructor
  · rw [hnone]
    exact .atRest hunique
  · intro u
    rw [hidle u]
    trivial

/-- In every run that frees no slot behind an allocation that has passed only full blocks, the
keys of the table are unique. -/
theorem keys_stay_unique (hs : (tableThreads τ).Reachable Shared.FreesAhead s) :
    UniqueKeys s.table := by
  have hinv : s.Inv :=
    hs.invariant (fun s => Shared.Inv.init) fun s a s' hs hahead hnext => hs.next hahead hnext
  exact hinv.separated.unique

/-- A run of the threads by a schedule. -/
def Shared.run (s : Shared τ) (as : List (τ × Action)) : Option (Shared τ) :=
  as.foldlM (fun s a => s.next a.1 a.2) s

theorem Shared.run_append (as bs : List (τ × Action)) :
    s.run (as ++ bs) = (s.run as).bind fun u => u.run bs := List.foldlM_append

theorem Shared.reachable_run {ok : Shared τ → τ × Action → Prop} {as : List (τ × Action)}
    (hok : ∀ a ∈ as, ∀ s, ok s a) (hs : (tableThreads τ).Reachable ok s)
    (hrun : s.run as = some s') : (tableThreads τ).Reachable ok s' := by
  induction as generalizing s with
  | nil =>
    simp only [Shared.run, List.foldlM_nil, Option.pure_def, Option.some.injEq] at hrun
    rwa [← hrun]
  | cons a as ih =>
    simp only [Shared.run, List.foldlM_cons, Option.bind_eq_bind, Option.bind_eq_some_iff] at hrun
    obtain ⟨s₁, hnext, hrest⟩ := hrun
    exact ih (fun a ha => hok a (by simp [ha])) (hs.step (hok a (by simp) s) hnext) hrest

omit [DecidableEq τ] in
/-- Only the update of an entry can free a slot. -/
theorem Shared.freesAhead_of_ne {a : τ × Action} (h : a.2 ≠ .update) : s.FreesAhead a :=
  fun _ _ _ _ heq => absurd heq h

end Steps

/-- Threads outside the functions of a table. -/
def atRest {τ : Type*} (table : DedupTable) : Shared τ := ⟨table, fun _ => none, fun _ => .idle⟩

/-- The key of 20 equal bytes. -/
def byteKey (n : ℕ) : Key := Vector.replicate 20 (UInt8.ofNat n)

/-- A block whose slots are all in use. -/
def fullBlock : List DdfsDedup := (List.range 128).map fun n => newEntry (byteKey n) n

theorem uniqueKeys_fullBlock : UniqueKeys [fullBlock, List.replicate 128 freeEntry] := by
  have hslot : ∀ p e, InUse [fullBlock, List.replicate 128 freeEntry] p e →
      ∃ k < 128, p = (0, k) ∧ e.key = byteKey k := by
    rintro ⟨i, k⟩ e ⟨hslot, hact⟩
    obtain ⟨row, hrow, hget⟩ := Option.bind_eq_some_iff.mp hslot
    match i, hrow with
    | 0, hrow =>
      simp only [List.getElem?_cons_zero, Option.some.injEq] at hrow
      rw [← hrow] at hget
      simp only [fullBlock, List.getElem?_map, Option.map_eq_some_iff] at hget
      obtain ⟨n, hn, rfl⟩ := hget
      obtain ⟨hk, rfl⟩ := List.getElem?_eq_some_iff.mp hn
      rw [List.length_range] at hk
      exact ⟨k, hk, rfl, by rw [List.getElem_range]; rfl⟩
    | 1, hrow =>
      simp only [List.getElem?_cons_succ, List.getElem?_cons_zero, Option.some.injEq] at hrow
      rw [← hrow] at hget
      obtain ⟨_, rfl⟩ := List.mem_replicate.mp (List.mem_of_getElem? hget)
      rw [freeEntry_active] at hact
      cases hact
    | i + 2, hrow => simp at hrow
  intro p q e e' hp hq heq
  obtain ⟨k, hk, rfl, hkey⟩ := hslot p e hp
  obtain ⟨l, hl, rfl, hkey'⟩ := hslot q e' hq
  have hbyte : UInt8.ofNat k = UInt8.ofNat l := by
    have hkeys : byteKey k = byteKey l := hkey.symm.trans (heq.trans hkey')
    simpa [byteKey, Vector.replicate_inj] using hkeys
  have hnat := congrArg UInt8.toNat hbyte
  simp only [UInt8.toNat_ofNat'] at hnat
  rw [Nat.mod_eq_of_lt (by omega), Nat.mod_eq_of_lt (by omega)] at hnat
  rw [hnat]

/-- `u` makes an entry in the second block, `t` begins to allocate and passes the full block, and
`v` finds the entry in order to free it. -/
def passedSchedule {τ : Type} (t u v : τ) : List (τ × Action) :=
  [(u, .call (.alloc (byteKey 200) 1000 0)), (u, .bread), (u, .look), (u, .bread), (u, .look),
    (u, .finish), (t, .call (.alloc (byteKey 201) 2000 0)), (t, .bread), (t, .look),
    (v, .call (.unref 1000)), (v, .bread), (v, .look), (v, .bread), (v, .look)]

/-- The thread that allocates takes the slot that was freed. -/
def takenSchedule {τ : Type} (t : τ) : List (τ × Action) := [(t, .bread), (t, .look), (t, .finish)]

/-- The block in which a search ended. -/
def Phase.hitBlock : Phase → Option ℕ
  | .hit _ i _ => some i
  | _ => none

theorem keys_stay_unique_three : ∃ s, (atRest [fullBlock, List.replicate 128 freeEntry]).run
    (passedSchedule (0 : Fin 3) 1 2 ++ (2, .update) :: takenSchedule 0) = some s ∧
      slot s.table (1, 0) = some (newEntry (byteKey 201) 2000) ∧ UniqueKeys s.table := by
  have hend : ((atRest [fullBlock, List.replicate 128 freeEntry]).run
      (passedSchedule (0 : Fin 3) 1 2 ++ (2, .update) :: takenSchedule 0)).map
        (fun s => slot s.table (1, 0)) = some (some (newEntry (byteKey 201) 2000)) := by
    decide +kernel
  have hmid : ((atRest [fullBlock, List.replicate 128 freeEntry]).run
      (passedSchedule (0 : Fin 3) 1 2)).map (fun s => ((s.phase 2).hitBlock,
        (List.finRange 3).map fun u => (s.phase u).scanner.map Scanner.pos)) =
          some (some 1, [some 1, none, none]) := by
    decide +kernel
  obtain ⟨s, hrun, hslot⟩ := Option.map_eq_some_iff.mp hend
  refine ⟨s, hrun, hslot, ?_⟩
  rw [Shared.run_append, Option.bind_eq_some_iff] at hrun
  obtain ⟨s₁, hpassed, hrest⟩ := hrun
  rw [hpassed, Option.map_some, Option.some.injEq, Prod.mk.injEq] at hmid
  obtain ⟨hhit, hpos⟩ := hmid
  rw [Shared.run, List.foldlM_cons, Option.bind_eq_bind, Option.bind_eq_some_iff] at hrest
  obtain ⟨s₂, hupdate, htaken⟩ := hrest
  have hinit : (tableThreads (Fin 3)).init (atRest [fullBlock, List.replicate 128 freeEntry]) :=
    ⟨uniqueKeys_fullBlock, fun _ => rfl, fun _ => rfl⟩
  -- the entry that is freed is in the block that the first thread comes to next
  have hahead : s₁.FreesAhead (2, .update) := by
    intro blocknum i idx e _ hphase _ _ u x hx _
    rw [hphase, Phase.hitBlock, Option.some.injEq] at hhit
    have hmem : (s₁.phase u).scanner.map Scanner.pos ∈ [some 1, none, none] := by
      rw [← hpos]
      exact List.mem_map_of_mem (List.mem_finRange u)
    rw [hx, Option.map_some] at hmem
    simp only [List.mem_cons, Option.some.injEq, reduceCtorEq, List.not_mem_nil, or_false] at hmem
    rw [hmem, hhit]
  have hpass : ∀ a ∈ passedSchedule (0 : Fin 3) 1 2, ∀ s : Shared (Fin 3), s.FreesAhead a :=
    fun a ha s => Shared.freesAhead_of_ne (by revert a; simp [passedSchedule])
  have htake : ∀ a ∈ takenSchedule (0 : Fin 3), ∀ s : Shared (Fin 3), s.FreesAhead a :=
    fun a ha s => Shared.freesAhead_of_ne (by revert a; simp [takenSchedule])
  exact keys_stay_unique (Shared.reachable_run htake
    (.step (Shared.reachable_run hpass (.init hinit) hpassed) hahead hupdate) htaken)

/-- An allocation passes a full block, then a slot of it is freed, and a second allocation of the
same key takes that slot and passes the block where the first one finds its own. -/
def doubleSchedule : List (ℕ × Action) :=
  [(0, .call (.alloc (byteKey 200) 1000 0)), (0, .bread), (0, .look),
    (2, .call (.unref 0)), (2, .bread), (2, .look), (2, .update),
    (1, .call (.alloc (byteKey 200) 2000 0)), (1, .bread), (1, .look), (1, .bread), (1, .look),
    (0, .bread), (0, .look), (0, .finish), (1, .finish)]

/-- Three calls leave two entries for one key. -/
theorem keys_stay_unique_fails :
    ¬ ∀ s, (tableThreads ℕ).Reachable (fun _ _ => True) s → UniqueKeys s.table := by
  intro hall
  have hend : ((atRest [fullBlock, List.replicate 128 freeEntry]).run doubleSchedule).map
      (fun s => (slot s.table (0, 0), slot s.table (1, 0))) =
        some (some (newEntry (byteKey 200) 2000), some (newEntry (byteKey 200) 1000)) := by
    decide +kernel
  obtain ⟨s, hrun, hslots⟩ := Option.map_eq_some_iff.mp hend
  rw [Prod.mk.injEq] at hslots
  have hinit : (tableThreads ℕ).init (atRest [fullBlock, List.replicate 128 freeEntry]) :=
    ⟨uniqueKeys_fullBlock, fun _ => rfl, fun _ => rfl⟩
  have hunique := hall s (Shared.reachable_run (fun _ _ _ => trivial) (.init hinit) hrun)
  have heq := hunique (0, 0) (1, 0) _ _ ⟨hslots.1, newEntry_active _ _⟩
    ⟨hslots.2, newEntry_active _ _⟩ rfl
  exact absurd heq (by decide)

end EmbeddedOs.Ddfs
