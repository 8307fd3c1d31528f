import EmbeddedOs.Ddfs.DedupSearch
import EmbeddedOs.Lib.Machine

/-!
# Threads that share the deduplication table

The calls of `ddtable_alloc` and `ddtable_unref` of several threads, step by step at the
granularity of buffers. `bread` waits for a block of the table and owns it until the same
thread's `brelse` or `bwrite`; nothing else keeps the writers of different files apart. A
search that finds its key behind the first free slot never releases the buffer of the latter.
-/

namespace EmbeddedOs.Ddfs

open Lib Lib.SlotTable

/-- A call of a function of the table. -/
inductive TableCall
  /-- `ddtable_alloc`; `flags` is what the uninitialised local `entry` has in this field. -/
  | alloc (key : Key) (inBlock : ℤ) (flags : UInt16)
  /-- `ddtable_unref`. -/
  | unref (blocknum : ℤ)

namespace TableCall

/-- The argument `key` of `ddtable_locate`. -/
def key : TableCall → Option Key
  | alloc key _ _ => some key
  | unref _ => none

/-- The argument `targetblock` of `ddtable_locate`. -/
def targetblock : TableCall → Option ℤ
  | alloc _ _ _ => none
  | unref blocknum => some blocknum

/-- Whether the call passes `first_free` and `freebp`. -/
def wantFree : TableCall → Bool
  | alloc _ _ _ => true
  | unref _ => false

/-- The entry that the call writes over the one it found. -/
def found : TableCall → DdfsDedup → DdfsDedup
  | alloc _ _ _, entry => { entry with refCount := entry.refCount + 1 }
  | unref _, entry =>
    let entry := { entry with refCount := entry.refCount - 1 }
    if entry.refCount = 0 then freeEntry else entry

end TableCall

/-- Where a thread is. -/
inductive Phase
  /-- Outside the functions of the table. -/
  | idle
  /-- In `ddtable_locate`, before the `bread` of block `i` or behind the loop. -/
  | scan (call : TableCall) (i : ℕ) (fs : FreeScan)
  /-- In `ddtable_locate`, behind the `bread` of block `i`. -/
  | held (call : TableCall) (i : ℕ) (fs : FreeScan)
  /-- Behind a `ddtable_locate` that found its entry at `idx` of block `i`. -/
  | hit (call : TableCall) (i : ℕ) (idx : ℤ)

/-- The table, the owners of its buffers and the threads. -/
structure Shared (τ : Type*) where
  /-- The table. -/
  table : DedupTable
  /-- The thread that owns the buffer of a block. -/
  owner : ℕ → Option τ
  /-- The threads. -/
  phase : τ → Phase

/-- What a thread does next. -/
inductive Action
  /-- It calls a function. -/
  | call (call : TableCall)
  /-- It gets the buffer of the next block. -/
  | bread
  /-- It looks through the buffer, and releases it unless there is a match or the first free
  slot in it. -/
  | look
  /-- It writes the entry that it found. -/
  | update
  /-- The search failed: an allocation writes a new entry. -/
  | finish

variable {τ : Type*} [DecidableEq τ]

/-- One step of the thread `t`; `none` where it waits for a buffer, where the action is not its
next one, and for the store through an unset pointer when the table has no free slot. -/
def Shared.next (s : Shared τ) (t : τ) (a : Action) : Option (Shared τ) :=
  match s.phase t, a with
  | .idle, .call call =>
    some { s with phase := Function.update s.phase t (.scan call 0 ⟨-1, none, false⟩) }
  | .scan call i fs, .bread =>
    if i < s.table.length ∧ s.owner i = none then
      some { s with
        owner := Function.update s.owner i (some t)
        phase := Function.update s.phase t (.held call i fs) }
    else none
  | .held call i fs, .look =>
    let block := (s.table[i]?).getD []
    match scanEntries call.key call.targetblock call.wantFree i 0 block
        { fs with found := false } with
    | (some idx, _) => some { s with phase := Function.update s.phase t (.hit call i idx) }
    | (none, fs) =>
      some { s with
        owner := if fs.found then s.owner else Function.update s.owner i none
        phase := Function.update s.phase t (.scan call (i + 1) fs) }
  | .hit call i idx, .update =>
    (slot s.table (slotAt i idx)).map fun entry =>
      { table := setSlot s.table (slotAt i idx) (call.found entry)
        owner := Function.update s.owner i none
        phase := Function.update s.phase t .idle }
  | .scan (.alloc key inBlock flags) i fs, .finish =>
    if i < s.table.length then none
    else
      match fs.freebp with
      | some fb =>
        if fs.freespot < 0 then none
        else
          some
            { table := setSlot s.table (slotAt fb fs.freespot)
                ⟨key, flags ||| ddfsDedupActive, 1, inBlock⟩
              owner := Function.update s.owner fb none
              phase := Function.update s.phase t .idle }
      | none => none
  | .scan (.unref _) i _, .finish =>
    if i < s.table.length then none
    else some { s with phase := Function.update s.phase t .idle }
  | _, _ => none

/-- No two slots in use have the same key. -/
def UniqueKeys (table : DedupTable) : Prop :=
  ∀ p q e e', InUse table p e → InUse table q e' → e.key = e'.key → p = q

/-- Threads that start outside the functions, on a table whose keys are unique. -/
def tableThreads (τ : Type*) [DecidableEq τ] : Machine (Shared τ) (τ × Action) where
  init s := UniqueKeys s.table ∧ (∀ i, s.owner i = none) ∧ ∀ t, s.phase t = .idle
  step s a s' := s.next a.1 a.2 = some s'

/-! ## What a step does -/

/-- What the search keeps of the first free slot: nothing, or an offset in a block. -/
def FreeScan.Marked (fs : FreeScan) : Prop :=
  fs.freespot = -1 ∧ fs.freebp = none ∨ 0 ≤ fs.freespot ∧ ∃ fb, fs.freebp = some fb

/-- The free slot that the search keeps. -/
def FreeScan.slot (fs : FreeScan) : Option (ℕ × ℕ) := fs.freebp.map fun fb => slotAt fb fs.freespot

/-- The effect of a step of the thread `t`, in terms of the slots. -/
inductive Shared.Effect (s : Shared τ) (t : τ) : Action → Shared τ → Prop
  /-- A call starts to search. -/
  | call (call : TableCall) : s.phase t = .idle →
    s.Effect t (.call call)
      { s with phase := Function.update s.phase t (.scan call 0 ⟨-1, none, false⟩) }
  /-- A buffer without an owner is taken. -/
  | bread {call : TableCall} {i : ℕ} {fs : FreeScan} : s.phase t = .scan call i fs →
    s.owner i = none →
    s.Effect t .bread
      { s with
        owner := Function.update s.owner i (some t)
        phase := Function.update s.phase t (.held call i fs) }
  /-- A slot in use matches. -/
  | hit {call : TableCall} {i k : ℕ} {fs : FreeScan} {e : DdfsDedup} :
    s.phase t = .held call i fs → InUse s.table (i, k) e →
    s.Effect t .look { s with phase := Function.update s.phase t (.hit call i (k * dedupSize)) }
  /-- No slot matches, and none is kept. -/
  | pass {call : TableCall} {i : ℕ} {fs : FreeScan} : s.phase t = .held call i fs →
    (∀ k e, slot s.table (i, k) = some e → hits call.key call.targetblock e = false) →
    (call.wantFree = true → fs.freespot = -1 →
      ∀ k e, slot s.table (i, k) = some e → e.active = true) →
    s.Effect t .look
      { s with
        owner := Function.update s.owner i none
        phase := Function.update s.phase t (.scan call (i + 1) { fs with found := false }) }
  /-- No slot matches, and the first free slot is kept. -/
  | keep {call : TableCall} {i k : ℕ} {fs : FreeScan} {e : DdfsDedup} :
    s.phase t = .held call i fs → call.wantFree = true →
    (∀ k e, slot s.table (i, k) = some e → hits call.key call.targetblock e = false) →
    fs.freespot = -1 → slot s.table (i, k) = some e → e.active = false →
    s.Effect t .look
      { s with
        phase := Function.update s.phase t (.scan call (i + 1) ⟨k * dedupSize, some i, true⟩) }
  /-- The entry that was found is changed. -/
  | update {call : TableCall} {i : ℕ} {idx : ℤ} {e : DdfsDedup} :
    s.phase t = .hit call i idx → slot s.table (slotAt i idx) = some e →
    s.Effect t .update
      { table := setSlot s.table (slotAt i idx) (call.found e)
        owner := Function.update s.owner i none
        phase := Function.update s.phase t .idle }
  /-- A new entry is written to the slot that was kept. -/
  | insert {key : Key} {inBlock : ℤ} {flags : UInt16} {i : ℕ} {fs : FreeScan} {p : ℕ × ℕ} :
    s.phase t = .scan (.alloc key inBlock flags) i fs → s.table.length ≤ i → fs.slot = some p →
    s.Effect t .finish
      { table := setSlot s.table p ⟨key, flags ||| ddfsDedupActive, 1, inBlock⟩
        owner := Function.update s.owner p.1 none
        phase := Function.update s.phase t .idle }
  /-- A block without an entry is left alone. -/
  | missing {blocknum : ℤ} {i : ℕ} {fs : FreeScan} : s.phase t = .scan (.unref blocknum) i fs →
    s.Effect t .finish { s with phase := Function.update s.phase t .idle }

/-- The slots of a block. -/
theorem slot_eq_getD (table : DedupTable) (i k : ℕ) :
    slot table (i, k) = ((table[i]?).getD [])[k]? := by
  unfold slot
  cases table[i]? <;> simp

/-- The entries of a block are those in its slots. -/
theorem mem_scanRow_block {table : DedupTable} {i j k : ℕ} {e : DdfsDedup} :
    ((j, k), e) ∈ scanRow i 0 ((table[i]?).getD []) ↔ j = i ∧ slot table (i, k) = some e := by
  rw [mem_scanRow, slot_eq_getD]
  simp

/-- The entry a search of a block ends at is in one of its slots. -/
theorem slot_of_find_block {table : DedupTable} {i : ℕ} {p : DdfsDedup → Bool}
    {r : (ℕ × ℕ) × DdfsDedup}
    (h : (scanRow i 0 ((table[i]?).getD [])).find? (fun e => p e.2) = some r) :
    ∃ k, r.1 = (i, k) ∧ slot table (i, k) = some r.2 ∧ p r.2 = true := by
  obtain ⟨⟨j, k⟩, e⟩ := r
  obtain ⟨rfl, he⟩ := mem_scanRow_block.mp (List.mem_of_find?_eq_some h)
  have hp := List.find?_some h
  exact ⟨k, rfl, he, hp⟩

/-- A search of a block that ends at no entry has passed all its slots. -/
theorem eq_false_of_find_block {table : DedupTable} {i : ℕ} {p : DdfsDedup → Bool}
    (h : (scanRow i 0 ((table[i]?).getD [])).find? (fun e => p e.2) = none) {k : ℕ}
    {e : DdfsDedup} (he : slot table (i, k) = some e) : p e = false := by
  have hnone := List.find?_eq_none.mp h _ (mem_scanRow_block.mpr ⟨rfl, he⟩)
  exact Bool.eq_false_iff.mpr hnone

variable {s s' : Shared τ} {t : τ} {a : Action}

/-- What a thread that asks for no free slot makes of a buffer without a match. -/
theorem effect_look_unwanted {call : TableCall} {i : ℕ} {fs : FreeScan}
    (hphase : s.phase t = .held call i fs) (hwant : call.wantFree = false)
    (hfind : (scanRow i 0 ((s.table[i]?).getD [])).find?
      (fun e => hits call.key call.targetblock e.2) = none)
    (h : s.next t .look = some s') : s.Effect t .look s' := by
  have hfst := scanEntries_fst call.key call.targetblock false i 0 ((s.table[i]?).getD [])
    { fs with found := false }
  have hsnd := scanEntries_unwanted call.key call.targetblock i 0 ((s.table[i]?).getD [])
    { fs with found := false }
  rw [hfind, Option.map_none] at hfst
  have hscan : scanEntries call.key call.targetblock false i 0 ((s.table[i]?).getD [])
      { fs with found := false } = (none, { fs with found := false }) :=
    Prod.ext hfst hsnd
  simp only [Shared.next, hphase, hwant, hscan, Bool.false_eq_true, if_false,
    Option.some.injEq] at h
  rw [← h]
  exact .pass hphase (fun k e he => eq_false_of_find_block hfind he) (by simp [hwant])

/-- What an allocation makes of a buffer without a match: it keeps the first free slot, unless
it has one already. -/
theorem effect_look_wanted {call : TableCall} {i : ℕ} {fs : FreeScan}
    (hphase : s.phase t = .held call i fs) (hwant : call.wantFree = true)
    (hfind : (scanRow i 0 ((s.table[i]?).getD [])).find?
      (fun e => hits call.key call.targetblock e.2) = none)
    (h : s.next t .look = some s') : s.Effect t .look s' := by
  have hmiss : ∀ k e, slot s.table (i, k) = some e →
      hits call.key call.targetblock e = false := fun k e he => eq_false_of_find_block hfind he
  have hfst := scanEntries_fst call.key call.targetblock true i 0 ((s.table[i]?).getD [])
    { fs with found := false }
  rw [hfind, Option.map_none] at hfst
  have hsnd := scanEntries_snd hfind { fs with found := false }
  by_cases hspot : fs.freespot = -1
  · rw [if_pos hspot] at hsnd
    cases hfree : (scanRow i 0 ((s.table[i]?).getD [])).find? (fun e => !e.2.active) with
    | some r =>
      obtain ⟨k, hr, he, hact⟩ := slot_of_find_block (p := fun e => !e.active) hfree
      rw [hfree] at hsnd
      simp only [hr] at hsnd
      have hscan : scanEntries call.key call.targetblock true i 0 ((s.table[i]?).getD [])
          { fs with found := false } = (none, ⟨k * dedupSize, some i, true⟩) :=
        Prod.ext hfst hsnd
      simp only [Shared.next, hphase, hwant, hscan, if_true, Option.some.injEq] at h
      rw [← h]
      exact .keep hphase hwant hmiss hspot he (by simpa using hact)
    | none =>
      rw [hfree] at hsnd
      have hscan : scanEntries call.key call.targetblock true i 0 ((s.table[i]?).getD [])
          { fs with found := false } = (none, { fs with found := false }) :=
        Prod.ext hfst hsnd
      simp only [Shared.next, hphase, hwant, hscan, Bool.false_eq_true, if_false,
        Option.some.injEq] at h
      rw [← h]
      refine .pass hphase hmiss fun _ _ k e he => ?_
      have hact := eq_false_of_find_block (p := fun e => !e.active) hfree he
      simpa using hact
  · rw [if_neg hspot] at hsnd
    have hscan : scanEntries call.key call.targetblock true i 0 ((s.table[i]?).getD [])
        { fs with found := false } = (none, { fs with found := false }) :=
      Prod.ext hfst hsnd
    simp only [Shared.next, hphase, hwant, hscan, Bool.false_eq_true, if_false,
      Option.some.injEq] at h
    rw [← h]
    exact .pass hphase hmiss fun _ hminus => absurd hminus hspot

/-- What a thread makes of the buffer that it looks through. -/
theorem effect_look {call : TableCall} {i : ℕ} {fs : FreeScan}
    (hphase : s.phase t = .held call i fs) (h : s.next t .look = some s') :
    s.Effect t .look s' := by
  cases hfind : (scanRow i 0 ((s.table[i]?).getD [])).find?
      (fun e => hits call.key call.targetblock e.2) with
  | some r =>
    obtain ⟨k, hr, he, hhit⟩ := slot_of_find_block hfind
    have hfst := scanEntries_fst call.key call.targetblock call.wantFree i 0
      ((s.table[i]?).getD []) { fs with found := false }
    rw [hfind, Option.map_some, hr] at hfst
    have hact : r.2.active = true := by
      simp only [hits, Bool.and_eq_true] at hhit
      exact hhit.1
    obtain ⟨fs', hscan⟩ : ∃ fs', scanEntries call.key call.targetblock call.wantFree i 0
        ((s.table[i]?).getD []) { fs with found := false } = (some (k * dedupSize : ℤ), fs') :=
      ⟨_, Prod.ext hfst rfl⟩
    simp only [Shared.next, hphase, hscan, Option.some.injEq] at h
    rw [← h]
    exact .hit hphase ⟨he, hact⟩
  | none =>
    cases hwant : call.wantFree with
    | false => exact effect_look_unwanted hphase hwant hfind h
    | true => exact effect_look_wanted hphase hwant hfind h

/-- Every step has one of the effects. -/
theorem effect_of_next (h : s.next t a = some s') : s.Effect t a s' := by
  cases hphase : s.phase t with
  | idle =>
    cases a <;> simp only [Shared.next, hphase, Option.some.injEq, reduceCtorEq] at h
    case call call =>
      rw [← h]
      exact .call call hphase
  | scan call i fs =>
    cases a with
    | bread =>
      simp only [Shared.next, hphase] at h
      by_cases hfree : i < s.table.length ∧ s.owner i = none
      · rw [if_pos hfree, Option.some.injEq] at h
        rw [← h]
        exact .bread hphase hfree.2
      · rw [if_neg hfree] at h
        cases h
    | finish =>
      cases call with
      | alloc key inBlock flags =>
        simp only [Shared.next, hphase] at h
        by_cases hlt : i < s.table.length
        · rw [if_pos hlt] at h
          cases h
        · rw [if_neg hlt] at h
          cases hfb : fs.freebp with
          | none =>
            rw [hfb] at h
            cases h
          | some fb =>
            rw [hfb] at h
            simp only at h
            by_cases hneg : fs.freespot < 0
            · rw [if_pos hneg] at h
              cases h
            · rw [if_neg hneg, Option.some.injEq] at h
              rw [← h]
              refine .insert hphase (by omega) (p := slotAt fb fs.freespot) ?_
              simp [FreeScan.slot, hfb]
      | unref blocknum =>
        simp only [Shared.next, hphase] at h
        by_cases hlt : i < s.table.length
        · rw [if_pos hlt] at h
          cases h
        · rw [if_neg hlt, Option.some.injEq] at h
          rw [← h]
          exact .missing hphase
    | _ => simp [Shared.next, hphase] at h
  | held call i fs =>
    cases a with
    | look => exact effect_look hphase h
    | _ => simp [Shared.next, hphase] at h
  | hit call i idx =>
    cases a with
    | update =>
      simp only [Shared.next, hphase, Option.map_eq_some_iff] at h
      obtain ⟨e, he, rfl⟩ := h
      exact .update hphase he
    | _ => simp [Shared.next, hphase] at h

end EmbeddedOs.Ddfs
