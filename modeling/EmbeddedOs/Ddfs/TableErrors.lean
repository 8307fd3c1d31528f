import EmbeddedOs.Ddfs.File

/-!
# Scans that meet an error, and full tables

`ddtable_locate` returns 1 for a key or a block without an entry and the error of `bread`
when a block of the table cannot be read, and its callers only ask whether the result is 0.
So a scan that fails is taken for one that found nothing: `ddtable_alloc` stores a new entry
where the scan has left nothing to store it at, and `ddtable_unref` returns -1, on which
`ffs_blkfree` frees the block.
-/

namespace EmbeddedOs.Ddfs

open Lib Lib.SlotTable

variable {breadErr : ℕ → ℤ} {key : Option Key} {targetblock : Option ℤ}

/-- The scan that starts with block `i` meets a block that cannot be read, and no entry before
it matches. -/
def ScanFails (breadErr : ℕ → ℤ) (key : Option Key) (targetblock : Option ℤ) (i : ℕ)
    (table : DedupTable) : Prop :=
  ∃ j < table.length, breadErr (i + j) ≠ 0 ∧
    ∀ p e, slot table p = some e → p.1 < j → hits key targetblock e = false

theorem not_scanFails_nil {i : ℕ} : ¬ScanFails breadErr key targetblock i [] := by
  rintro ⟨j, hj, -⟩
  exact absurd hj (Nat.not_lt_zero j)

theorem scanFails_cons {i : ℕ} {block : List DdfsDedup} {rest : DedupTable} :
    ScanFails breadErr key targetblock i (block :: rest) ↔
      breadErr i ≠ 0 ∨ ((∀ e ∈ block, hits key targetblock e = false) ∧
        ScanFails breadErr key targetblock (i + 1) rest) := by
  constructor
  · rintro ⟨j, hj, herr, hmiss⟩
    cases j with
    | zero => exact Or.inl herr
    | succ j =>
      refine Or.inr ⟨fun e he => ?_, j, by simpa using hj, ?_, fun p e hp hlt => ?_⟩
      · obtain ⟨k, hk⟩ := List.getElem?_of_mem he
        exact hmiss (0, k) e (by simpa using hk) (Nat.succ_pos j)
      · rwa [Nat.add_assoc, Nat.add_comm 1 j]
      · exact hmiss (p.1 + 1, p.2) e (by simpa using hp) (Nat.succ_lt_succ hlt)
  · rintro (herr | ⟨hblock, j, hj, herr, hmiss⟩)
    · exact ⟨0, by simp, herr, fun p e _ hlt => absurd hlt (Nat.not_lt_zero _)⟩
    · refine ⟨j + 1, by simpa using hj, ?_, ?_⟩
      · rwa [Nat.add_comm j 1, ← Nat.add_assoc]
      · rintro ⟨m, k⟩ e hp hlt
        cases m with
        | zero => exact hblock e (List.mem_of_getElem? (by simpa using hp))
        | succ m => exact hmiss (m, k) e (by simpa using hp) (Nat.lt_of_succ_lt_succ hlt)

/-- A scan that fails has an error, and reports no free slot. -/
theorem scanBlocks_of_fails {i : ℕ} {table : DedupTable}
    (h : ScanFails breadErr key targetblock i table) (wantFree : Bool) (fs : FreeScan)
    (held : List ℕ) :
    let r := scanBlocks breadErr key targetblock wantFree i table fs held
    r.error ≠ 0 ∧ r.firstFree = none := by
  induction table generalizing i fs held with
  | nil => exact absurd h not_scanFails_nil
  | cons block rest ih =>
    by_cases herr : breadErr i = 0
    · obtain ⟨hblock, hrest⟩ := (scanFails_cons.mp h).resolve_left (not_not.mpr herr)
      rw [scanBlocks_cons_miss herr (find?_scanRow_eq_none_iff.mpr hblock) rfl]
      exact ih hrest _ _
    · simp only [scanBlocks, ne_eq, herr, not_false_eq_true, if_true, and_self]

/-- A scan that does not fail is one without errors. -/
theorem scanBlocks_of_not_fails {wantFree : Bool} {i : ℕ} {table : DedupTable}
    (h : ¬ScanFails breadErr key targetblock i table) (fs : FreeScan) (held : List ℕ) :
    scanBlocks breadErr key targetblock wantFree i table fs held =
      scanBlocks noErr key targetblock wantFree i table fs held := by
  induction table generalizing i fs held with
  | nil => rfl
  | cons block rest ih =>
    rw [scanFails_cons, not_or, not_not] at h
    obtain ⟨herr, hrest⟩ := h
    cases hrow : (scanRow i 0 block).find? (fun e => hits key targetblock e.2) with
    | some e =>
      rw [scanBlocks_cons_hit herr hrow rfl, scanBlocks_cons_hit (noErr_apply i) hrow rfl]
    | none =>
      have hblock := find?_scanRow_eq_none_iff.mp hrow
      rw [scanBlocks_cons_miss herr hrow rfl, scanBlocks_cons_miss (noErr_apply i) hrow rfl]
      exact ih (fun hfails => hrest ⟨hblock, hfails⟩) _ _

/-! ## The callers -/

variable {table : DedupTable}

/-- `ddtable_alloc` stores at an unset offset when its scan fails. -/
theorem ddtableAlloc_of_fails {key : Key} (h : ScanFails breadErr (some key) none 0 table)
    (inBlock : ℤ) (entry : DdfsDedup) : ddtableAlloc breadErr table key inBlock entry = none := by
  have hscan := scanBlocks_of_fails h true ⟨-1, none, false⟩ []
  unfold ddtableAlloc ddtableLocate
  simp only [hscan.1, hscan.2, ne_eq, not_false_eq_true, if_true]
  cases (scanBlocks breadErr (some key) none true 0 table ⟨-1, none, false⟩ []).freebp <;> rfl

theorem ddtableAlloc_of_not_fails {key : Key} (h : ¬ScanFails breadErr (some key) none 0 table)
    (inBlock : ℤ) (entry : DdfsDedup) :
    ddtableAlloc breadErr table key inBlock entry = ddtableAlloc noErr table key inBlock entry := by
  unfold ddtableAlloc ddtableLocate
  rw [scanBlocks_of_not_fails h]

/-- `ddtable_unref` returns what it returns for a block without an entry when its scan fails. -/
theorem ddtableUnref_of_fails {blk : ℤ} (h : ScanFails breadErr none (some blk) 0 table) :
    (ddtableUnref breadErr table blk).table = table ∧
      (ddtableUnref breadErr table blk).ret = -1 := by
  have hscan := scanBlocks_of_fails h false ⟨-1, none, false⟩ []
  unfold ddtableUnref ddtableLocate
  simp only [hscan.1, ne_eq, not_false_eq_true, if_true, and_self]

theorem ddtableUnref_of_not_fails {blk : ℤ} (h : ¬ScanFails breadErr none (some blk) 0 table) :
    ddtableUnref breadErr table blk = ddtableUnref noErr table blk := by
  unfold ddtableUnref ddtableLocate
  rw [scanBlocks_of_not_fails h]

/-- What `ddtable_alloc` does to the table, whatever fails: it counts one more reference in the
entry of the key, or fills the first free slot. -/
theorem ddtableAlloc_cases {key : Key} {inBlock : ℤ} {entry : DdfsDedup} {r : AllocResult}
    (h : ddtableAlloc breadErr table key inBlock entry = some r) :
    (∃ p e, findKey key table = some (p, e) ∧
        r.table = setSlot table p { e with refCount := e.refCount + 1 }) ∨
      (findKey key table = none ∧ ∃ p e, findFree table = some (p, e) ∧
        r.table = setSlot table p ⟨key, entry.flags ||| ddfsDedupActive, 1, inBlock⟩) := by
  by_cases hfails : ScanFails breadErr (some key) none 0 table
  · rw [ddtableAlloc_of_fails hfails] at h
    cases h
  · rw [ddtableAlloc_of_not_fails hfails] at h
    cases hkey : findKey key table with
    | some found =>
      obtain ⟨r', hr, htable, -⟩ := ddtableAlloc_found hkey inBlock entry
      rw [h, Option.some.injEq] at hr
      exact Or.inl ⟨found.1, found.2, rfl, by rw [hr, htable]⟩
    | none =>
      cases hfree : findFree table with
      | some free =>
        obtain ⟨r', hr, htable, -⟩ := ddtableAlloc_new hkey hfree inBlock entry
        rw [h, Option.some.injEq] at hr
        exact Or.inr ⟨rfl, free.1, free.2, rfl, by rw [hr, htable]⟩
      | none =>
        rw [ddtableAlloc_full hkey hfree] at h
        cases h

/-- What `ddtable_unref` does to the table, whatever fails: nothing, or it counts one reference
less, or it deletes the entry. -/
theorem ddtableUnref_cases (breadErr : ℕ → ℤ) (table : DedupTable) (blk : ℤ) :
    (ddtableUnref breadErr table blk).table = table ∨
      ∃ p e, findBlock blk table = some (p, e) ∧
        ((ddtableUnref breadErr table blk).table = setSlot table p freeEntry ∨
          (ddtableUnref breadErr table blk).table =
            setSlot table p { e with refCount := e.refCount - 1 }) := by
  by_cases hfails : ScanFails breadErr none (some blk) 0 table
  · exact Or.inl (ddtableUnref_of_fails hfails).1
  · rw [ddtableUnref_of_not_fails hfails]
    cases hblk : findBlock blk table with
    | none => exact Or.inl (ddtableUnref_missing hblk).1
    | some found =>
      have htable := (ddtableUnref_found hblk).1
      refine Or.inr ⟨found.1, found.2, rfl, ?_⟩
      by_cases hzero : found.2.refCount - 1 = 0
      · exact Or.inl (by simpa [hzero] using htable)
      · exact Or.inr (by simpa [hzero] using htable)

/-! ## Errors -/

variable {ι : Type}

/-- `ffs_blkfree` where blocks of the table may fail to be read. -/
def ffsBlkfreeErr (breadErr : ℕ → ℤ) (s : Fs ι) (bno : ℤ) : Fs ι :=
  let r := ddtableUnref breadErr s.table bno
  let s := s.setTable r.table
  if r.ret > 0 then s else s.free bno

theorem ffsBlkfreeErr_noErr (s : Fs ι) (bno : ℤ) : ffsBlkfreeErr noErr s bno = ffsBlkfree s bno :=
  rfl

/-- The block has an entry with more than one reference. -/
def SharedBlock (table : DedupTable) (blk : ℤ) : Prop :=
  ∃ p e, InUse table p e ∧ e.blockptr = blk ∧ 1 < e.refCount

/-- An error in a scan is not taken for absence. -/
structure ErrorsReported (breadErr : ℕ → ℤ) (s : Fs ι) (key : Key) (inBlock : ℤ)
    (entry : DdfsDedup) (outBlock blk : ℤ) : Prop where
  /-- `ddtable_alloc` reports it, and leaves the table and `*out_block` as they were. -/
  alloc : ScanFails breadErr (some key) none 0 s.table →
    ∃ r, ddtableAlloc breadErr s.table key inBlock entry = some r ∧ r.ret ≠ 0 ∧
      r.table = s.table ∧ r.outBlock = outBlock
  /-- `ffs_blkfree` does not free a block with more than one reference for it. -/
  unref : ScanFails breadErr none (some blk) 0 s.table → SharedBlock s.table blk →
    (ffsBlkfreeErr breadErr s blk).freed = s.freed

/-- Errors are reported if and only if there are none to report: the scan by the key does not
fail, and the scan by the block does not fail unless the block has no entry with more than one
reference. -/
theorem errorsReported_iff (breadErr : ℕ → ℤ) (s : Fs ι) (key : Key) (inBlock : ℤ)
    (entry : DdfsDedup) (outBlock blk : ℤ) :
    ErrorsReported breadErr s key inBlock entry outBlock blk ↔
      ¬ScanFails breadErr (some key) none 0 s.table ∧
        ¬(ScanFails breadErr none (some blk) 0 s.table ∧ SharedBlock s.table blk) := by
  constructor
  · intro h
    constructor
    · intro hfails
      obtain ⟨r, hr, -⟩ := h.alloc hfails
      rw [ddtableAlloc_of_fails hfails] at hr
      cases hr
    · rintro ⟨hfails, hshared⟩
      have hfreed := h.unref hfails hshared
      have hret := (ddtableUnref_of_fails hfails).2
      have hneg : ¬(ddtableUnref breadErr s.table blk).ret > 0 := by omega
      simp only [ffsBlkfreeErr, if_neg hneg, Fs.free] at hfreed
      exact absurd hfreed (List.cons_ne_self _ _)
  · rintro ⟨hkey, hblk⟩
    exact ⟨fun hfails => absurd hfails hkey, fun hfails hshared => absurd ⟨hfails, hshared⟩ hblk⟩

/-- A file system without files, with the table of a new one. -/
def newTableFs : Fs Empty where
  table := mkfsTable 1
  inodes := Empty.elim
  freeMap _ := true
  disk _ _ := 0
  bufs := Empty.elim
  freed := []

/-- The only block of a new table cannot be read. -/
theorem errorsReported_fails : ¬∀ (breadErr : ℕ → ℤ) (s : Fs Empty) (key : Key) (inBlock : ℤ)
    (entry : DdfsDedup) (outBlock blk : ℤ),
    ErrorsReported breadErr s key inBlock entry outBlock blk := by
  intro hall
  have hfails : ScanFails (fun _ => 5) (some (Vector.replicate 20 0)) none 0 newTableFs.table :=
    ⟨0, by decide, by decide, fun p e _ hlt => absurd hlt (Nat.not_lt_zero _)⟩
  obtain ⟨r, hr, -⟩ := (hall (fun _ => 5) newTableFs (Vector.replicate 20 0) 8 zeroEntry 0 8).alloc
    hfails
  rw [ddtableAlloc_of_fails hfails] at hr
  cases hr

/-! ## Full tables -/

/-- The least that handling a full table comes to: the call is defined, and the table is as it
was. -/
def FullHandled (breadErr : ℕ → ℤ) (table : DedupTable) (key : Key) (inBlock : ℤ)
    (entry : DdfsDedup) : Prop :=
  ∃ r, ddtableAlloc breadErr table key inBlock entry = some r ∧ r.table = table

/-- A table is full if the search for a free slot fails. -/
theorem findFree_eq_none :
    findFree table = none ↔ ∀ p e, slot table p = some e → e.active = true := by
  simp [findFree, findSlot_eq_none_iff]

/-- No full table is handled. -/
theorem not_fullHandled {key : Key} (hfull : ∀ p e, slot table p = some e → e.active = true)
    (habsent : ∀ p e, InUse table p e → e.key ≠ key) (breadErr : ℕ → ℤ) (inBlock : ℤ)
    (entry : DdfsDedup) : ¬FullHandled breadErr table key inBlock entry := by
  rintro ⟨r, hr, -⟩
  by_cases hfails : ScanFails breadErr (some key) none 0 table
  · rw [ddtableAlloc_of_fails hfails] at hr
    cases hr
  · rw [ddtableAlloc_of_not_fails hfails,
      ddtableAlloc_full (findKey_eq_none.mpr habsent) (findFree_eq_none.mpr hfull)] at hr
    cases hr

/-- A table of one block, with the same entry everywhere. -/
def fullTable : DedupTable := [List.replicate entriesPerBlock (newEntry (Vector.replicate 20 1) 8)]

theorem slot_fullTable {p : ℕ × ℕ} {e : DdfsDedup} (h : slot fullTable p = some e) :
    e = newEntry (Vector.replicate 20 1) 8 :=
  slot_replicate (n := 1) h

theorem active_fullTable : ∀ p e, slot fullTable p = some e → e.active = true := by
  intro p e hp
  rw [slot_fullTable hp, newEntry_active]

theorem absent_fullTable : ∀ p e, InUse fullTable p e → e.key ≠ Vector.replicate 20 0 := by
  intro p e hp
  rw [slot_fullTable hp.1]
  decide

/-- A key that is not in the full table. -/
theorem not_fullHandled_one :
    ¬FullHandled noErr fullTable (Vector.replicate 20 0) 9 zeroEntry :=
  not_fullHandled active_fullTable absent_fullTable noErr 9 zeroEntry

/-- The full table of one block is not handled. -/
theorem fullHandled_fails : ¬∀ (table : DedupTable) (key : Key) (inBlock : ℤ) (entry : DdfsDedup),
    (∀ p e, slot table p = some e → e.active = true) →
      (∀ p e, InUse table p e → e.key ≠ key) → FullHandled noErr table key inBlock entry := by
  intro hall
  obtain ⟨r, hr, -⟩ := hall fullTable _ 9 zeroEntry active_fullTable absent_fullTable
  rw [ddtableAlloc_full (findKey_eq_none.mpr absent_fullTable)
    (findFree_eq_none.mpr active_fullTable)] at hr
  cases hr

end EmbeddedOs.Ddfs
