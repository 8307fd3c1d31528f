import EmbeddedOs.Ddfs.DedupTable
import Mathlib.Tactic.Positivity

/-!
# What the table search finds

Without I/O errors `ddtable_locate` is a first-match search over the slots in use, and
the free slot it reports is the first free one. From this each of `ddtable_alloc` and
`ddtable_unref` has one equation for each of its outcomes, stated with `findSlot`; the
rest of the development uses only these.
-/

namespace EmbeddedOs.Ddfs

open Lib Lib.SlotTable

/-- No block of the table fails to be read. -/
def noErr : ℕ → ℤ := fun _ => 0

@[simp] theorem noErr_apply (i : ℕ) : noErr i = 0 := rfl

/-- The slot is in use and matches what is looked for. -/
def hits (key : Option Key) (targetblock : Option ℤ) (entry : DdfsDedup) : Bool :=
  entry.active && targetMatches key targetblock entry

/-- The first entry in use with this key. -/
def findKey (key : Key) (table : DedupTable) : Option ((ℕ × ℕ) × DdfsDedup) :=
  findSlot (hits (some key) none) table

/-- The first entry in use for this block. -/
def findBlock (blk : ℤ) (table : DedupTable) : Option ((ℕ × ℕ) × DdfsDedup) :=
  findSlot (hits none (some blk)) table

/-- The first free slot. -/
def findFree (table : DedupTable) : Option ((ℕ × ℕ) × DdfsDedup) :=
  findSlot (fun entry => !entry.active) table

theorem active_eq_true {entry : DdfsDedup} :
    entry.active = true ↔ entry.flags &&& ddfsDedupFree = 0 := by
  simp [DdfsDedup.active]

theorem active_eq_false {entry : DdfsDedup} :
    entry.active = false ↔ ¬entry.flags &&& ddfsDedupFree = 0 := by
  rw [← active_eq_true, Bool.not_eq_true]

/-- The bit for an entry in use is not the one for a free slot. -/
theorem or_active_and_free (flags : UInt16) :
    (flags ||| ddfsDedupActive) &&& ddfsDedupFree = flags &&& ddfsDedupFree := by
  have hdisjoint : ddfsDedupActive.toBitVec &&& ddfsDedupFree.toBitVec = 0 := by decide
  apply UInt16.toBitVec_inj.mp
  rw [UInt16.toBitVec_and, UInt16.toBitVec_or, BitVec.and_or_distrib_right, hdisjoint,
    UInt16.toBitVec_and]
  exact BitVec.or_zero

/-- A recorded offset is never the -1 that stands for no free slot. -/
theorem offset_ne_neg_one (k : ℕ) : (k : ℤ) * dedupSize ≠ -1 := by
  have h : (0 : ℤ) ≤ (k : ℤ) * dedupSize := by positivity
  intro h1
  rw [h1] at h
  exact absurd h (by decide)

@[simp] theorem freeEntry_active : freeEntry.active = false := by decide

/-- The local `entry` of `ddtable_alloc` when the stack happens to hold zeros. -/
def zeroEntry : DdfsDedup := ⟨Vector.replicate 20 0, 0, 0, 0⟩

/-- The entry `ddtable_alloc` stores for a new key, from a zeroed local. -/
def newEntry (key : Key) (blk : ℤ) : DdfsDedup :=
  ⟨key, zeroEntry.flags ||| ddfsDedupActive, 1, blk⟩

theorem newEntry_active (key : Key) (blk : ℤ) : (newEntry key blk).active = true := by
  simp only [newEntry, DdfsDedup.active]
  decide

/-- The slot `p` holds the entry `e`, and it is in use. -/
def InUse (table : DedupTable) (p : ℕ × ℕ) (e : DdfsDedup) : Prop :=
  slot table p = some e ∧ e.active = true

/-- The slots in use after a write: the written one if its new content is in use, and
the others as before. -/
theorem inUse_setSlot {table : DedupTable} {p q : ℕ × ℕ} {old new e : DdfsDedup}
    (hp : slot table p = some old) :
    InUse (setSlot table p new) q e ↔
      (q = p ∧ e = new ∧ new.active = true) ∨ (q ≠ p ∧ InUse table q e) := by
  by_cases hq : q = p
  · subst hq
    simp only [InUse, slot_setSlot_self hp, Option.some.injEq, true_and, ne_eq, not_true_eq_false,
      false_and, or_false]
    constructor
    · rintro ⟨rfl, hact⟩
      exact ⟨rfl, hact⟩
    · rintro ⟨rfl, hact⟩
      exact ⟨rfl, hact⟩
  · simp [InUse, slot_setSlot_of_ne _ hq, hq]

theorem inUse_of_findKey {table : DedupTable} {key : Key} {p : ℕ × ℕ} {e : DdfsDedup}
    (h : findKey key table = some (p, e)) : InUse table p e ∧ e.key = key := by
  obtain ⟨hslot, hhit⟩ := slot_of_findSlot h
  simp only [hits, targetMatches, Bool.and_eq_true, beq_iff_eq] at hhit
  exact ⟨⟨hslot, hhit.1⟩, hhit.2.symm⟩

theorem inUse_of_findBlock {table : DedupTable} {blk : ℤ} {p : ℕ × ℕ} {e : DdfsDedup}
    (h : findBlock blk table = some (p, e)) : InUse table p e ∧ e.blockptr = blk := by
  obtain ⟨hslot, hhit⟩ := slot_of_findSlot h
  simp only [hits, targetMatches, Bool.and_eq_true, beq_iff_eq] at hhit
  exact ⟨⟨hslot, hhit.1⟩, hhit.2⟩

/-- The search by a key that one slot in use has finds this slot. -/
theorem findKey_of_inUse {table : DedupTable} {p : ℕ × ℕ} {e : DdfsDedup} (h : InUse table p e)
    (huniq : ∀ q e', InUse table q e' → e'.key = e.key → q = p) :
    findKey e.key table = some (p, e) := by
  apply findSlot_eq_of_unique h.1
  · simp [hits, targetMatches, h.2]
  · intro q e' hq hhit
    simp only [hits, targetMatches, Bool.and_eq_true, beq_iff_eq] at hhit
    exact huniq q e' ⟨hq, hhit.1⟩ hhit.2.symm

theorem findKey_eq_none {table : DedupTable} {key : Key} :
    findKey key table = none ↔ ∀ p e, InUse table p e → e.key ≠ key := by
  simp only [findKey, findSlot_eq_none_iff, hits, targetMatches, InUse, Bool.and_eq_false_iff,
    beq_eq_false_iff_ne]
  constructor
  · rintro h p e ⟨hp, hact⟩ rfl
    rcases h p e hp with hfree | hne
    · rw [hact] at hfree
      cases hfree
    · exact hne rfl
  · intro h p e hp
    cases hact : e.active with
    | false => exact Or.inl rfl
    | true => exact Or.inr (h p e ⟨hp, hact⟩).symm

theorem findBlock_eq_none {table : DedupTable} {blk : ℤ} :
    findBlock blk table = none ↔ ∀ p e, InUse table p e → e.blockptr ≠ blk := by
  simp only [findBlock, findSlot_eq_none_iff, hits, targetMatches, InUse, Bool.and_eq_false_iff,
    beq_eq_false_iff_ne]
  constructor
  · rintro h p e ⟨hp, hact⟩ heq
    rcases h p e hp with hfree | hne
    · rw [hact] at hfree
      cases hfree
    · exact hne heq
  · intro h p e hp
    cases hact : e.active with
    | false => exact Or.inl rfl
    | true => exact Or.inr (h p e ⟨hp, hact⟩)

theorem slot_of_findFree {table : DedupTable} {p : ℕ × ℕ} {e : DdfsDedup}
    (h : findFree table = some (p, e)) : slot table p = some e ∧ e.active = false := by
  simpa using slot_of_findSlot h

/-- No slot of a freshly initialised table is in use. -/
theorem not_inUse_mkfsTable {n : ℕ} {p : ℕ × ℕ} {e : DdfsDedup} :
    ¬InUse (mkfsTable n) p e := by
  rintro ⟨hslot, hact⟩
  rw [slot_replicate hslot, freeEntry_active] at hact
  cases hact

/-! ## The loop over one table block -/

/-- The loop over the entries of a block stops at the first slot in use that matches. -/
theorem scanEntries_fst (key : Option Key) (targetblock : Option ℤ) (wantFree : Bool)
    (i k : ℕ) (entries : List DdfsDedup) (fs : FreeScan) :
    (scanEntries key targetblock wantFree i k entries fs).1 =
      ((scanRow i k entries).find? (fun e => hits key targetblock e.2)).map
        (fun e => (e.1.2 * dedupSize : ℤ)) := by
  induction entries generalizing k fs with
  | nil => simp [scanEntries, scanRow]
  | cons entry rest ih =>
    simp only [scanEntries, scanRow]
    by_cases hfree : entry.flags &&& ddfsDedupFree = 0
    · have hact : entry.active = true := active_eq_true.mpr hfree
      cases hmatch : targetMatches key targetblock entry with
      | true => simp [hfree, hmatch, hits, hact]
      | false => simp [hfree, hmatch, hits, hact, ih]
    · have hact : entry.active = false := active_eq_false.mpr hfree
      by_cases hspot : fs.freespot = -1 ∧ wantFree = true
      · rw [if_pos hfree, if_pos hspot, ih]
        simp [hits, hact]
      · rw [if_pos hfree, if_neg hspot, ih]
        simp [hits, hact]

/-- A free slot that matches is not a hit. -/
theorem active_eq_false_of_hits {key : Option Key} {targetblock : Option ℤ} (entry : DdfsDedup)
    (h : hits key targetblock entry = true) : (!entry.active) = false := by
  rw [hits, Bool.and_eq_true] at h
  rw [h.1, Bool.not_true]

/-- The loop records nothing once a free slot is recorded, or if none is asked for. -/
theorem scanEntries_idle (key : Option Key) (targetblock : Option ℤ) (wantFree : Bool) (i k : ℕ)
    (entries : List DdfsDedup) (fs : FreeScan) (h : ¬(fs.freespot = -1 ∧ wantFree = true)) :
    (scanEntries key targetblock wantFree i k entries fs).2 = fs := by
  induction entries generalizing k with
  | nil => rfl
  | cons entry rest ih =>
    unfold scanEntries
    by_cases hfree : entry.flags &&& ddfsDedupFree = 0
    · by_cases hmatch : targetMatches key targetblock entry = true
      · simp [hfree, hmatch]
      · simp [hfree, hmatch, ih]
    · simp only [hfree, h, ne_eq, not_false_eq_true, if_true, if_false, ih]

/-- A search that asks for no free slot keeps none. -/
theorem scanEntries_unwanted (key : Option Key) (targetblock : Option ℤ) (i k : ℕ)
    (entries : List DdfsDedup) (fs : FreeScan) :
    (scanEntries key targetblock false i k entries fs).2 = fs :=
  scanEntries_idle key targetblock false i k entries fs (by simp)

/-- If no free slot is recorded yet, the loop records the first slot of the block that is free
or a hit, unless it is a hit. -/
theorem scanEntries_free (key : Option Key) (targetblock : Option ℤ) (i k : ℕ)
    (entries : List DdfsDedup) (fs : FreeScan) (hspot : fs.freespot = -1) :
    (scanEntries key targetblock true i k entries fs).2 =
      match (scanRow i k entries).find? (fun e => hits key targetblock e.2 || !e.2.active) with
      | some e => if e.2.active then fs else ⟨e.1.2 * dedupSize, some i, true⟩
      | none => fs := by
  induction entries generalizing k with
  | nil => rfl
  | cons entry rest ih =>
    simp only [scanEntries, scanRow]
    by_cases hfree : entry.flags &&& ddfsDedupFree = 0
    · have hact : entry.active = true := active_eq_true.mpr hfree
      cases hmatch : targetMatches key targetblock entry with
      | true => simp [hfree, hmatch, hits, hact]
      | false => simp [hfree, hmatch, hits, hact, ih]
    · have hact : entry.active = false := active_eq_false.mpr hfree
      -- the offset that is recorded here keeps the rest of the loop from recording another
      simp only [hfree, hspot, ne_eq, not_false_eq_true, and_self, if_true]
      rw [scanEntries_idle _ _ _ _ _ _ _ fun h => offset_ne_neg_one k h.1]
      simp [hits, hact]

/-- A loop over a block without a match records the block's first free slot, unless a
free slot was recorded before. -/
theorem scanEntries_snd {key : Option Key} {targetblock : Option ℤ} {i k : ℕ}
    {entries : List DdfsDedup}
    (hmiss : (scanRow i k entries).find? (fun e => hits key targetblock e.2) = none)
    (fs : FreeScan) :
    (scanEntries key targetblock true i k entries fs).2 =
      if fs.freespot = -1 then
        match (scanRow i k entries).find? (fun e => !e.2.active) with
        | some e => ⟨e.1.2 * dedupSize, some i, true⟩
        | none => fs
      else fs := by
  by_cases hspot : fs.freespot = -1
  · rw [if_pos hspot, scanEntries_free key targetblock i k entries fs hspot, find?_or_of_none hmiss]
    cases hrow : (scanRow i k entries).find? (fun e => !e.2.active) with
    | some e =>
      have hact : e.2.active = false := by simpa using List.find?_some hrow
      simp [hact]
    | none => rfl
  · rw [if_neg hspot, scanEntries_idle key targetblock true i k entries fs fun h => hspot h.1]

/-! ## The loop over the table -/

section Step

variable {breadErr : ℕ → ℤ} {key : Option Key} {targetblock : Option ℤ} {wantFree : Bool} {i : ℕ}
  {block : List DdfsDedup} {fs fs' : FreeScan}

/-- The search ends in a block with a hit. -/
theorem scanBlocks_cons_hit {e : (ℕ × ℕ) × DdfsDedup} (herr : breadErr i = 0)
    (hrow : (scanRow i 0 block).find? (fun e => hits key targetblock e.2) = some e)
    (hfs : (scanEntries key targetblock wantFree i 0 block { fs with found := false }).2 = fs')
    (rest : DedupTable) (held : List ℕ) :
    scanBlocks breadErr key targetblock wantFree i (block :: rest) fs held =
      ⟨0, some i, some (e.1.2 * dedupSize : ℤ), if wantFree then some fs'.freespot else none,
        fs'.freebp, i :: held⟩ := by
  have hfst := scanEntries_fst key targetblock wantFree i 0 block { fs with found := false }
  rw [hrow, Option.map_some] at hfst
  have hscan : scanEntries key targetblock wantFree i 0 block { fs with found := false } =
      (some (e.1.2 * dedupSize : ℤ), fs') := Prod.ext hfst hfs
  simp only [scanBlocks, herr, ne_eq, not_true_eq_false, if_false, hscan]

/-- The search goes on behind a block without a hit, and holds its buffer only if the first free
slot is recorded there. -/
theorem scanBlocks_cons_miss (herr : breadErr i = 0)
    (hrow : (scanRow i 0 block).find? (fun e => hits key targetblock e.2) = none)
    (hfs : (scanEntries key targetblock wantFree i 0 block { fs with found := false }).2 = fs')
    (rest : DedupTable) (held : List ℕ) :
    scanBlocks breadErr key targetblock wantFree i (block :: rest) fs held =
      scanBlocks breadErr key targetblock wantFree (i + 1) rest fs'
        (if fs'.found then i :: held else held) := by
  have hfst := scanEntries_fst key targetblock wantFree i 0 block { fs with found := false }
  rw [hrow, Option.map_none] at hfst
  have hscan : scanEntries key targetblock wantFree i 0 block { fs with found := false } =
      (none, fs') := Prod.ext hfst hfs
  simp only [scanBlocks, herr, ne_eq, not_true_eq_false, if_false, hscan]

end Step

/-- A search that hits returns 0 and names the buffer and offset of the first hit. -/
theorem scanBlocks_hit {key : Option Key} {targetblock : Option ℤ} {i : ℕ}
    {table : DedupTable} {e : (ℕ × ℕ) × DdfsDedup}
    (h : (scanFrom i table).find? (fun e => hits key targetblock e.2) = some e)
    (wantFree : Bool) (fs : FreeScan) (held : List ℕ) :
    let r := scanBlocks noErr key targetblock wantFree i table fs held
    r.error = 0 ∧ r.bp = some e.1.1 ∧ r.outIdx = some (e.1.2 * dedupSize : ℤ) := by
  induction table generalizing i fs held with
  | nil => simp [scanFrom] at h
  | cons block rest ih =>
    simp only [scanFrom, List.find?_append] at h
    cases hrow : (scanRow i 0 block).find? (fun e => hits key targetblock e.2) with
    | some e' =>
      rw [hrow, Option.some_or, Option.some.injEq] at h
      subst h
      have hi : e'.1.1 = i := (mem_scanRow.mp (List.mem_of_find?_eq_some hrow)).1
      rw [scanBlocks_cons_hit (noErr_apply i) hrow rfl, hi]
      exact ⟨rfl, rfl, rfl⟩
    | none =>
      rw [hrow, Option.none_or] at h
      rw [scanBlocks_cons_miss (noErr_apply i) hrow rfl]
      exact ih h _ _

/-- A search that misses returns 1. -/
theorem scanBlocks_miss {key : Option Key} {targetblock : Option ℤ} {i : ℕ} {table : DedupTable}
    (h : (scanFrom i table).find? (fun e => hits key targetblock e.2) = none)
    (wantFree : Bool) (fs : FreeScan) (held : List ℕ) :
    (scanBlocks noErr key targetblock wantFree i table fs held).error = 1 := by
  induction table generalizing i fs held with
  | nil => rfl
  | cons block rest ih =>
    simp only [scanFrom, List.find?_append, Option.or_eq_none_iff] at h
    rw [scanBlocks_cons_miss (noErr_apply i) h.1 rfl]
    exact ih h.2 _ _

/-- A free slot that is recorded is reported, whatever the search finds. -/
theorem scanBlocks_idle (key : Option Key) (targetblock : Option ℤ) (i : ℕ) (table : DedupTable)
    (fs : FreeScan) (hspot : fs.freespot ≠ -1) (held : List ℕ) :
    let r := scanBlocks noErr key targetblock true i table fs held
    r.freebp = fs.freebp ∧ r.firstFree = some fs.freespot := by
  induction table generalizing i fs held with
  | nil => exact ⟨rfl, rfl⟩
  | cons block rest ih =>
    have hfs := scanEntries_idle key targetblock true i 0 block { fs with found := false }
      fun h => hspot h.1
    cases hrow : (scanRow i 0 block).find? (fun e => hits key targetblock e.2) with
    | some e =>
      rw [scanBlocks_cons_hit (noErr_apply i) hrow hfs]
      exact ⟨rfl, rfl⟩
    | none =>
      rw [scanBlocks_cons_miss (noErr_apply i) hrow hfs]
      exact ih (i + 1) { fs with found := false } hspot held

/-- If no free slot is recorded yet, the search reports the first slot that is free or a hit,
unless it is a hit, and else the offset -1. -/
theorem scanBlocks_free (key : Option Key) (targetblock : Option ℤ) (i : ℕ) (table : DedupTable)
    (fs : FreeScan) (hspot : fs.freespot = -1) (held : List ℕ) :
    let r := scanBlocks noErr key targetblock true i table fs held
    match (scanFrom i table).find? (fun e => hits key targetblock e.2 || !e.2.active) with
    | some e =>
      if e.2.active then r.freebp = fs.freebp ∧ r.firstFree = some (-1)
      else r.freebp = some e.1.1 ∧ r.firstFree = some (e.1.2 * dedupSize : ℤ)
    | none => r.freebp = fs.freebp ∧ r.firstFree = some (-1) := by
  induction table generalizing i fs held with
  | nil => exact ⟨rfl, congrArg some hspot⟩
  | cons block rest ih =>
    have hfs := scanEntries_free key targetblock i 0 block { fs with found := false } hspot
    simp only [scanFrom, List.find?_append]
    cases hrow : (scanRow i 0 block).find? (fun e => hits key targetblock e.2) with
    | some e' =>
      rw [scanBlocks_cons_hit (noErr_apply i) hrow hfs]
      cases hevent : (scanRow i 0 block).find?
          (fun e => hits key targetblock e.2 || !e.2.active) with
      | some e =>
        have hi : e.1.1 = i := (mem_scanRow.mp (List.mem_of_find?_eq_some hevent)).1
        cases hact : e.2.active with
        | true => simp [hact, hspot]
        | false => simp [hact, hi]
      | none =>
        -- the hit would have been found
        have hmiss := List.find?_eq_none.mp hevent e' (List.mem_of_find?_eq_some hrow)
        simp [List.find?_some hrow] at hmiss
    | none =>
      rw [find?_or_of_none hrow] at hfs ⊢
      cases hfree : (scanRow i 0 block).find? (fun e => !e.2.active) with
      | some e =>
        -- the slot is recorded, and stays so
        have hi : e.1.1 = i := (mem_scanRow.mp (List.mem_of_find?_eq_some hfree)).1
        have hact : e.2.active = false := by simpa using List.find?_some hfree
        simp only [hfree, hact, Bool.false_eq_true, if_false] at hfs
        have hrest := scanBlocks_idle key targetblock (i + 1) rest
          ⟨e.1.2 * dedupSize, some i, true⟩ (offset_ne_neg_one _) (i :: held)
        rw [scanBlocks_cons_miss (noErr_apply i) hrow hfs]
        simpa [hact, hi] using hrest
      | none =>
        simp only [hfree] at hfs
        rw [scanBlocks_cons_miss (noErr_apply i) hrow hfs, Option.none_or]
        exact ih (i + 1) { fs with found := false } hspot held

/-- A search that misses and was asked for a free slot reports the one recorded before
it started, if any, else the first free one, else the offset -1. -/
theorem scanBlocks_miss_free {key : Option Key} {targetblock : Option ℤ} {i : ℕ}
    {table : DedupTable}
    (h : (scanFrom i table).find? (fun e => hits key targetblock e.2) = none)
    (fs : FreeScan) (held : List ℕ) :
    let r := scanBlocks noErr key targetblock true i table fs held
    if fs.freespot = -1 then
      match (scanFrom i table).find? (fun e => !e.2.active) with
      | some e => r.freebp = some e.1.1 ∧ r.firstFree = some (e.1.2 * dedupSize : ℤ)
      | none => r.firstFree = some (-1)
    else r.freebp = fs.freebp ∧ r.firstFree = some fs.freespot := by
  by_cases hspot : fs.freespot = -1
  · have hfree := scanBlocks_free key targetblock i table fs hspot held
    rw [find?_or_of_none h] at hfree
    rw [if_pos hspot]
    cases hfind : (scanFrom i table).find? (fun e => !e.2.active) with
    | some e =>
      have hact : e.2.active = false := by simpa using List.find?_some hfind
      simpa only [hfind, hact, Bool.false_eq_true, if_false] using hfree
    | none =>
      rw [hfind] at hfree
      exact hfree.2
  · rw [if_neg hspot]
    exact scanBlocks_idle key targetblock i table fs hspot held

/-! ## The callers -/

@[simp] theorem slotAt_offset (i k : ℕ) : slotAt i (k * dedupSize : ℤ) = (i, k) := by
  have h : ((k : ℤ) * (dedupSize : ℤ)).toNat = k * dedupSize := by
    rw [← Nat.cast_mul, Int.toNat_natCast]
  rw [slotAt, h, Nat.mul_div_cancel _ (by decide)]

/-- `ddtable_alloc` of a key in the table counts one more reference to its block. -/
theorem ddtableAlloc_found {table : DedupTable} {key : Key} {p : ℕ × ℕ} {e : DdfsDedup}
    (h : findKey key table = some (p, e)) (inBlock : ℤ) (entry : DdfsDedup) :
    ∃ r, ddtableAlloc noErr table key inBlock entry = some r ∧
      r.table = setSlot table p { e with refCount := e.refCount + 1 } ∧
      r.outBlock = e.blockptr ∧ r.ret = 0 := by
  have hslot := (slot_of_findSlot h).1
  obtain ⟨herr, hbp, hidx⟩ := scanBlocks_hit h true ⟨-1, none, false⟩ []
  simp only [ddtableAlloc, ddtableLocate, herr, hbp, hidx, ne_eq, not_true_eq_false, if_false,
    slotAt_offset, hslot, Option.map_some]
  exact ⟨_, rfl, rfl, rfl, rfl⟩

/-- `ddtable_alloc` of a new key fills the first free slot. -/
theorem ddtableAlloc_new {table : DedupTable} {key : Key} {p : ℕ × ℕ} {e : DdfsDedup}
    (h : findKey key table = none) (hfree : findFree table = some (p, e)) (inBlock : ℤ)
    (entry : DdfsDedup) :
    ∃ r, ddtableAlloc noErr table key inBlock entry = some r ∧
      r.table = setSlot table p ⟨key, entry.flags ||| ddfsDedupActive, 1, inBlock⟩ ∧
      r.outBlock = inBlock ∧ r.ret = 0 := by
  have herr := scanBlocks_miss h true ⟨-1, none, false⟩ []
  have hspot := scanBlocks_miss_free h ⟨-1, none, false⟩ []
  have hfree' : (scanFrom 0 table).find? (fun e => !e.2.active) = some (p, e) := hfree
  simp only [hfree', if_true] at hspot
  have hnonneg : ¬((p.2 : ℤ) * dedupSize < 0) := by
    have : (0 : ℤ) ≤ (p.2 : ℤ) * dedupSize := by positivity
    omega
  simp only [ddtableAlloc, ddtableLocate, herr, hspot.1, hspot.2, ne_eq, one_ne_zero,
    not_false_eq_true, if_true, hnonneg, if_false, slotAt_offset]
  exact ⟨_, rfl, rfl, rfl, rfl⟩

/-- `ddtable_alloc` of a new key with no free slot is undefined. -/
theorem ddtableAlloc_full {table : DedupTable} {key : Key} (h : findKey key table = none)
    (hfree : findFree table = none) (inBlock : ℤ) (entry : DdfsDedup) :
    ddtableAlloc noErr table key inBlock entry = none := by
  have herr := scanBlocks_miss h true ⟨-1, none, false⟩ []
  have hspot := scanBlocks_miss_free h ⟨-1, none, false⟩ []
  have hfree' : (scanFrom 0 table).find? (fun e => !e.2.active) = none := hfree
  simp only [hfree', if_true] at hspot
  simp only [ddtableAlloc, ddtableLocate, herr, hspot, ne_eq, one_ne_zero, not_false_eq_true,
    if_true]
  cases (scanBlocks noErr (some key) none true 0 table ⟨-1, none, false⟩ []).freebp <;> simp

/-- `ddtable_unref` of a block in the table counts one reference less, and frees the slot
of the entry it found when that was the last one. -/
theorem ddtableUnref_found {table : DedupTable} {blk : ℤ} {p : ℕ × ℕ} {e : DdfsDedup}
    (h : findBlock blk table = some (p, e)) :
    let e' := { e with refCount := e.refCount - 1 }
    let r := ddtableUnref noErr table blk
    r.table = setSlot table p (if e'.refCount = 0 then freeEntry else e') ∧
      r.ret = e'.refCount.toNat := by
  have hslot := (slot_of_findSlot h).1
  obtain ⟨herr, hbp, hidx⟩ := scanBlocks_hit h false ⟨-1, none, false⟩ []
  simp only [ddtableUnref, ddtableLocate, herr, hbp, hidx, ne_eq, not_true_eq_false, if_false,
    slotAt_offset, hslot, true_and]
  by_cases hzero : e.refCount - 1 = 0
  · simp [hzero, freeEntry]
  · simp [hzero]

/-- `ddtable_unref` of a block without an entry leaves the table alone and returns -1. -/
theorem ddtableUnref_missing {table : DedupTable} {blk : ℤ} (h : findBlock blk table = none) :
    (ddtableUnref noErr table blk).table = table ∧ (ddtableUnref noErr table blk).ret = -1 := by
  have herr := scanBlocks_miss h false ⟨-1, none, false⟩ []
  simp [ddtableUnref, ddtableLocate, herr]

end EmbeddedOs.Ddfs
