import EmbeddedOs.Ddfs.DedupSearch

/-!
# What a search hands back

`ddtable_locate` records the offset of the first free slot in `freespot`, its buffer in
`*freebp`, and in `found` that this buffer is not to be released; the match has an offset and a
buffer of its own. All of them agree: the match is the first one in the table, and the free slot
is the first of those that were scanned before it, in the same block or in an earlier one.
-/

namespace EmbeddedOs.Ddfs

open Lib Lib.SlotTable

/-- The slot is free, and it is scanned before the search ends. -/
def FreeScanned (key : Option Key) (targetblock : Option ℤ) (table : DedupTable) (p : ℕ × ℕ) :
    Prop :=
  Holds (fun e => !e.active) table p ∧ Passes (hits key targetblock) table p

/-- No buffer that is handed back was released. -/
def Located.Kept (r : Located) : Prop := ∀ i, r.bp = some i ∨ r.freebp = some i → i ∈ r.held

/-- A correct result of a search. A slot is named by a buffer and a byte offset in it. -/
structure LocatesFirst (table : DedupTable) (key : Option Key) (targetblock : Option ℤ)
    (wantFree : Bool) (r : Located) : Prop where
  /-- If a slot in use matches, the search returns 0 and names the first such slot. -/
  found : (∃ p, Holds (hits key targetblock) table p) →
    r.error = 0 ∧ ∃ p, IsFirst (Holds (hits key targetblock) table) p ∧
      r.bp = some p.1 ∧ r.outIdx = some (p.2 * dedupSize : ℤ)
  /-- It returns 1 if and only if no slot in use matches. -/
  missing : r.error = 1 ↔ ∀ p, ¬Holds (hits key targetblock) table p
  /-- If a free slot was scanned, the search names the first one that was. -/
  free : wantFree = true → (∃ p, FreeScanned key targetblock table p) →
    ∃ p, IsFirst (FreeScanned key targetblock table) p ∧
      r.freebp = some p.1 ∧ r.firstFree = some (p.2 * dedupSize : ℤ)
  /-- The offset is -1 if and only if no free slot was scanned. -/
  noFree : wantFree = true →
    (r.firstFree = some (-1) ↔ ∀ p, ¬FreeScanned key targetblock table p)
  /-- The buffers that are handed back are the caller's to release. -/
  kept : r.Kept

/-! ## The free slot -/

/-- The free slot that is reported is the first one that was scanned. -/
theorem free_cases (key : Option Key) (targetblock : Option ℤ) (table : DedupTable) :
    let r := ddtableLocate noErr table key targetblock true
    (∃ p, IsFirst (FreeScanned key targetblock table) p ∧
        r.freebp = some p.1 ∧ r.firstFree = some (p.2 * dedupSize : ℤ)) ∨
      ((∀ p, ¬FreeScanned key targetblock table p) ∧ r.firstFree = some (-1)) := by
  have hfree := scanBlocks_free key targetblock 0 table ⟨-1, none, false⟩ rfl []
  cases hfind : findSlot (fun e => hits key targetblock e || !e.active) table with
  | none =>
    rw [findSlot, scan] at hfind
    rw [hfind] at hfree
    exact Or.inr ⟨not_passed_of_none hfind, hfree.2⟩
  | some e =>
    have hevent := (slot_of_findSlot hfind).2
    have hscan : (scanFrom 0 table).find?
        (fun e => hits key targetblock e.2 || !e.2.active) = some e := hfind
    simp only [hscan] at hfree
    cases hact : e.2.active with
    | true =>
      have hhit : hits key targetblock e.2 = true := by simpa [hact] using hevent
      rw [hact, if_pos rfl] at hfree
      exact Or.inr ⟨not_passed_of_hit hfind hhit, hfree.2⟩
    | false =>
      rw [hact, if_neg Bool.false_ne_true] at hfree
      have hfirst := isFirst_passed active_eq_false_of_hits hfind (by rw [hact, Bool.not_false])
      exact Or.inl ⟨e.1, hfirst, hfree⟩

/-! ## The buffers -/

/-- The loop over a block leaves the record of the free slot, or records one of this block. -/
theorem scanEntries_snd_cases (key : Option Key) (targetblock : Option ℤ) (wantFree : Bool)
    (i k : ℕ) (entries : List DdfsDedup) (fs : FreeScan) :
    (scanEntries key targetblock wantFree i k entries fs).2 = fs ∨
      ∃ idx, (scanEntries key targetblock wantFree i k entries fs).2 = ⟨idx, some i, true⟩ := by
  by_cases hspot : fs.freespot = -1 ∧ wantFree = true
  · obtain ⟨hspot, rfl⟩ := hspot
    rw [scanEntries_free key targetblock i k entries fs hspot]
    cases (scanRow i k entries).find? (fun e => hits key targetblock e.2 || !e.2.active) with
    | none => exact Or.inl rfl
    | some e =>
      cases hact : e.2.active with
      | true => exact Or.inl (by simp [hact])
      | false => exact Or.inr ⟨e.1.2 * dedupSize, by simp [hact]⟩
  · exact Or.inl (scanEntries_idle key targetblock wantFree i k entries fs hspot)

/-- The buffers that a search hands back are among those that it holds, errors or not. -/
theorem scanBlocks_kept (breadErr : ℕ → ℤ) (key : Option Key) (targetblock : Option ℤ)
    (wantFree : Bool) (i : ℕ) (table : DedupTable) (fs : FreeScan) (held : List ℕ)
    (hheld : ∀ j, fs.freebp = some j → j ∈ held) :
    (scanBlocks breadErr key targetblock wantFree i table fs held).Kept := by
  induction table generalizing i fs held with
  | nil =>
    rintro j (hbp | hfreebp)
    · cases hbp
    · exact hheld j hfreebp
  | cons block rest ih =>
    by_cases herr : breadErr i = 0
    · have hcases := scanEntries_snd_cases key targetblock wantFree i 0 block
        { fs with found := false }
      generalize hfs : (scanEntries key targetblock wantFree i 0 block
        { fs with found := false }).2 = fs' at hcases
      have hfreebp : ∀ j, fs'.freebp = some j → j ∈ if fs'.found then i :: held else held := by
        intro j hj
        rcases hcases with rfl | ⟨idx, rfl⟩
        · exact hheld j hj
        · obtain rfl := Option.some.inj hj
          exact List.mem_cons_self
      cases hrow : (scanRow i 0 block).find? (fun e => hits key targetblock e.2) with
      | some e =>
        rw [scanBlocks_cons_hit herr hrow hfs]
        rintro j (hj | hj)
        · obtain rfl := Option.some.inj hj
          exact List.mem_cons_self
        · have hmem := hfreebp j hj
          split at hmem
          · exact hmem
          · exact List.mem_cons_of_mem i hmem
      | none =>
        rw [scanBlocks_cons_miss herr hrow hfs]
        exact ih (i + 1) fs' _ hfreebp
    · simp only [scanBlocks, ne_eq, herr, not_false_eq_true, if_true]
      rintro j (hbp | hfreebp)
      · cases hbp
      · exact hheld j hfreebp

/-! ## The search -/

/-- Without I/O errors `ddtable_locate` is a correct search of every table, by key or by block
number. -/
theorem ddtableLocate_locatesFirst (table : DedupTable) (key : Option Key)
    (targetblock : Option ℤ) (wantFree : Bool) :
    LocatesFirst table key targetblock wantFree
      (ddtableLocate noErr table key targetblock wantFree) where
  found := by
    rintro ⟨p, x, hp, hx⟩
    obtain ⟨q, y, hfind⟩ := exists_findSlot hp hx
    obtain ⟨herr, hbp, hidx⟩ := scanBlocks_hit hfind wantFree ⟨-1, none, false⟩ []
    exact ⟨herr, q, isFirst_of_findSlot hfind, hbp, hidx⟩
  missing := by
    cases hfind : findSlot (hits key targetblock) table with
    | none =>
      have herr := scanBlocks_miss hfind wantFree ⟨-1, none, false⟩ []
      exact iff_of_true herr fun p => not_holds_of_findSlot hfind
    | some e =>
      have herr := (scanBlocks_hit hfind wantFree ⟨-1, none, false⟩ []).1
      refine iff_of_false ?_ fun hall => hall e.1 ⟨e.2, slot_of_findSlot hfind⟩
      rw [ddtableLocate, herr]
      decide
  free := by
    rintro rfl ⟨p, hp⟩
    rcases free_cases key targetblock table with hfirst | ⟨hnone, -⟩
    · exact hfirst
    · exact absurd hp (hnone p)
  noFree := by
    rintro rfl
    rcases free_cases key targetblock table with ⟨p, hfirst, -, hspot⟩ | ⟨hnone, hspot⟩
    · refine iff_of_false ?_ fun hall => hall p hfirst.1
      rw [hspot, Option.some.injEq]
      exact offset_ne_neg_one p.2
    · exact iff_of_true hspot hnone
  kept := scanBlocks_kept noErr key targetblock wantFree 0 table ⟨-1, none, false⟩ [] (by simp)

/-- The first free slot and the match lie in two blocks, with more free slots between them. -/
example :
    let table : DedupTable := [[zeroEntry, freeEntry, freeEntry], [freeEntry, zeroEntry]]
    let r := ddtableLocate noErr (table ++ [[newEntry (Vector.replicate 20 1) 8]])
      (some (Vector.replicate 20 1)) none true
    (r.error, r.bp, r.outIdx, r.freebp, r.firstFree) = (0, some 2, some 0, some 0, some 32) := by
  decide

end EmbeddedOs.Ddfs
