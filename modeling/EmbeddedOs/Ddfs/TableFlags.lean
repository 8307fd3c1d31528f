import EmbeddedOs.Ddfs.TableErrors
import EmbeddedOs.Lib.Machine

/-!
# The flags of an entry

`ddtable_alloc` sets the bit of an entry in use in a local that it has not initialised, so a new
entry has whatever bits the local had before. The kernel asks for the bit of a free slot and
`statddfs` for that of an entry in use. Runs of the two functions start from the table that
`mkfs` writes; any block of the table may fail to be read.
-/

namespace EmbeddedOs.Ddfs

open Lib Lib.SlotTable

/-- A call of a function of the table. -/
inductive TableOp
  /-- `ddtable_alloc`; `entry` is its uninitialised local. -/
  | alloc (breadErr : ℕ → ℤ) (key : Key) (inBlock : ℤ) (entry : DdfsDedup)
  /-- `ddtable_unref`. -/
  | unref (breadErr : ℕ → ℤ) (blocknum : ℤ)

/-- The table after a call, if that is defined. -/
def TableOp.run (table : DedupTable) : TableOp → Option DedupTable
  | alloc breadErr key inBlock entry =>
    (ddtableAlloc breadErr table key inBlock entry).map fun r => r.table
  | unref breadErr blocknum => some (ddtableUnref breadErr table blocknum).table

/-- The table of `n` blocks that `mkfs` writes, and the calls of the two functions. -/
def dedupTables (n : ℕ) : Machine DedupTable TableOp where
  init table := table = mkfsTable n
  step table op table' := op.run table = some table'

/-- The local of a `ddtable_alloc` that makes a new entry does not have the bit of a free
slot. -/
def CleanLocal (table : DedupTable) : TableOp → Prop
  | .alloc _ key _ entry => findKey key table = none → entry.flags &&& ddfsDedupFree = 0
  | .unref _ _ => True

/-- The test of `statddfs` for an entry in use. -/
def DdfsDedup.statActive (entry : DdfsDedup) : Bool := entry.flags &&& ddfsDedupActive != 0

/-- Exactly one of the bits is set. -/
def DdfsDedup.OneFlag (entry : DdfsDedup) : Prop :=
  entry.flags &&& ddfsDedupFree = 0 ↔ entry.flags &&& ddfsDedupActive ≠ 0

/-- `statddfs` and the kernel agree on such an entry. -/
theorem DdfsDedup.OneFlag.statActive {entry : DdfsDedup} (h : entry.OneFlag) :
    entry.statActive = entry.active := by
  unfold OneFlag at h
  rw [Bool.eq_iff_iff, active_eq_true, h, DdfsDedup.statActive, bne_iff_ne]

theorem freeEntry_oneFlag : freeEntry.OneFlag := by
  unfold DdfsDedup.OneFlag
  decide

/-- The bit of an entry in use is there once it is set. -/
theorem or_active_and_active (flags : UInt16) :
    (flags ||| ddfsDedupActive) &&& ddfsDedupActive = ddfsDedupActive := by
  apply UInt16.toBitVec_inj.mp
  rw [UInt16.toBitVec_and, UInt16.toBitVec_or]
  ext i hi
  simp only [BitVec.getElem_and, BitVec.getElem_or]
  cases ddfsDedupActive.toBitVec[i] <;> simp

/-- A new entry has one flag if and only if the local did not have the bit of a free slot. -/
theorem newEntry_oneFlag {key : Key} {flags refCount : UInt16} {blockptr : ℤ} :
    DdfsDedup.OneFlag ⟨key, flags ||| ddfsDedupActive, refCount, blockptr⟩ ↔
      flags &&& ddfsDedupFree = 0 := by
  unfold DdfsDedup.OneFlag
  simp only [or_active_and_free, or_active_and_active]
  exact iff_true_right (by decide)

/-- Every slot has exactly one flag. -/
def FlagsOk (table : DedupTable) : Prop := ∀ p e, slot table p = some e → e.OneFlag

/-- Writing an entry with one flag keeps the flags. -/
theorem FlagsOk.setSlot {table : DedupTable} (h : FlagsOk table) {p : ℕ × ℕ} {x : DdfsDedup}
    (hx : x.OneFlag) : FlagsOk (setSlot table p x) := by
  intro q e hq
  by_cases hqp : q = p
  · rw [hqp, slot_setSlot, if_pos rfl, Option.map_eq_some_iff] at hq
    obtain ⟨-, -, rfl⟩ := hq
    exact hx
  · rw [slot_setSlot_of_ne table hqp] at hq
    exact h q e hq

/-- A call whose local is clean keeps the flags. -/
theorem FlagsOk.run {table table' : DedupTable} {op : TableOp} (h : FlagsOk table)
    (hclean : CleanLocal table op) (hrun : op.run table = some table') : FlagsOk table' := by
  cases op with
  | alloc breadErr key inBlock entry =>
    obtain ⟨r, hr, rfl⟩ := Option.map_eq_some_iff.mp hrun
    rcases ddtableAlloc_cases hr with ⟨p, e, hkey, htable⟩ | ⟨hkey, p, e, -, htable⟩
    · rw [htable]
      exact h.setSlot (h p e (slot_of_findSlot hkey).1)
    · rw [htable]
      exact h.setSlot (newEntry_oneFlag.mpr (hclean hkey))
  | unref breadErr blocknum =>
    obtain rfl : (ddtableUnref breadErr table blocknum).table = table' := Option.some.inj hrun
    rcases ddtableUnref_cases breadErr table blocknum with
      hsame | ⟨p, e, hblk, hfreed | hless⟩
    · rwa [hsame]
    · rw [hfreed]
      exact h.setSlot freeEntry_oneFlag
    · rw [hless]
      exact h.setSlot (h p e (slot_of_findSlot hblk).1)

theorem flagsOk_of_reachable {n : ℕ} {table : DedupTable}
    (h : (dedupTables n).Reachable CleanLocal table) : FlagsOk table := by
  refine h.invariant ?_ fun s op t hs hclean hrun => hs.run hclean hrun
  rintro s rfl p e hp
  rw [slot_replicate hp]
  exact freeEntry_oneFlag

/-- The entry of a key is found by the next search for it, and it is not in the slot that an
insertion would take. -/
def Found (table : DedupTable) (key : Key) : Prop :=
  ∃ p e, InUse table p e ∧ e.key = key ∧
    (ddtableLocate noErr table (some key) none true).error = 0 ∧
    (ddtableLocate noErr table (some key) none true).bp = some p.1 ∧
    (ddtableLocate noErr table (some key) none true).outIdx = some (p.2 * dedupSize : ℤ) ∧
    ∀ q x, findFree table = some (q, x) → q ≠ p

/-- A key with an entry in use is found. -/
theorem found_of_findKey {table : DedupTable} {key : Key} {p : ℕ × ℕ} {e : DdfsDedup}
    (h : findKey key table = some (p, e)) : Found table key := by
  obtain ⟨hin, hkey⟩ := inUse_of_findKey h
  obtain ⟨herr, hbp, hidx⟩ := scanBlocks_hit h true ⟨-1, none, false⟩ []
  refine ⟨p, e, hin, hkey, herr, hbp, hidx, ?_⟩
  rintro q x hfree rfl
  obtain ⟨hslot, hact⟩ := slot_of_findFree hfree
  rw [hin.1, Option.some.injEq] at hslot
  rw [← hslot, hin.2] at hact
  cases hact

/-- A key that was allocated with a clean local is found. -/
theorem found_of_alloc {table : DedupTable} {breadErr : ℕ → ℤ} {key : Key} {inBlock : ℤ}
    {entry : DdfsDedup} {r : AllocResult}
    (hclean : CleanLocal table (.alloc breadErr key inBlock entry))
    (h : ddtableAlloc breadErr table key inBlock entry = some r) : Found r.table key := by
  rcases ddtableAlloc_cases h with ⟨p, e, hkey, htable⟩ | ⟨hkey, p, e, hfree, htable⟩
  · -- the first entry with the key is still the first one
    obtain ⟨hin, rfl⟩ := inUse_of_findKey hkey
    have hactive : ({ e with refCount := e.refCount + 1 } : DdfsDedup).active = true := hin.2
    have hmem : InUse r.table p { e with refCount := e.refCount + 1 } := by
      rw [htable]
      exact ⟨slot_setSlot_self hin.1 _, hactive⟩
    obtain ⟨q, e', hfind⟩ := exists_findSlot (f := hits (some e.key) none) hmem.1
      (by simp [hits, targetMatches, hactive])
    exact found_of_findKey hfind
  · have hactive : DdfsDedup.active ⟨key, entry.flags ||| ddfsDedupActive, 1, inBlock⟩ = true := by
      rw [active_eq_true, or_active_and_free]
      exact hclean hkey
    have hfind := findSlot_setSlot_of_none hkey (slot_of_findFree hfree).1
      (by simp [hits, targetMatches, hactive] :
        hits (some key) none ⟨key, entry.flags ||| ddfsDedupActive, 1, inBlock⟩ = true)
    rw [← htable] at hfind
    exact found_of_findKey hfind

/-- A call whose local is not clean leaves an entry with both flags. -/
theorem clean_of_flagsOk {table table' : DedupTable} {op : TableOp}
    (hrun : op.run table = some table') (h : FlagsOk table') : CleanLocal table op := by
  cases op with
  | alloc breadErr key inBlock entry =>
    intro hkey
    obtain ⟨r, hr, rfl⟩ := Option.map_eq_some_iff.mp hrun
    rcases ddtableAlloc_cases hr with ⟨p, e, hfound, -⟩ | ⟨-, p, e, hfree, htable⟩
    · rw [hkey] at hfound
      cases hfound
    · rw [htable] at h
      exact newEntry_oneFlag.mp (h p _ (slot_setSlot_self (slot_of_findFree hfree).1 _))
  | unref breadErr blocknum => trivial

/-- After every run whose locals were clean, every slot has exactly one flag, `statddfs` and the
kernel agree on it, and a key that is allocated with a clean local is found. The next call keeps
the flags if and only if its local is clean. -/
theorem flags_well_formed {n : ℕ} {table : DedupTable}
    (h : (dedupTables n).Reachable CleanLocal table) :
    (∀ p e, slot table p = some e → e.OneFlag ∧ e.statActive = e.active) ∧
      (∀ breadErr key inBlock entry r,
        CleanLocal table (.alloc breadErr key inBlock entry) →
          ddtableAlloc breadErr table key inBlock entry = some r → Found r.table key) ∧
      ∀ op table', op.run table = some table' → (FlagsOk table' ↔ CleanLocal table op) := by
  have hflags := flagsOk_of_reachable h
  refine ⟨fun p e hp => ⟨hflags p e hp, (hflags p e hp).statActive⟩, ?_, ?_⟩
  · exact fun _ _ _ _ _ hclean halloc => found_of_alloc hclean halloc
  · exact fun op table' hrun => ⟨clean_of_flagsOk hrun, fun hclean => hflags.run hclean hrun⟩

theorem findKey_mkfsTable {key : Key} : findKey key (mkfsTable 1) = none :=
  findKey_eq_none.mpr fun _ _ hp => absurd hp not_inUse_mkfsTable

theorem findFree_mkfsTable : findFree (mkfsTable 1) = some ((0, 0), freeEntry) := rfl

/-- A key is allocated in the table that `mkfs` writes. -/
theorem flags_well_formed_inserted : ∃ table,
    (TableOp.alloc noErr (Vector.replicate 20 0) 8 { freeEntry with flags := 0 }).run
        (mkfsTable 1) = some table ∧
      slot table (0, 0) = some ⟨Vector.replicate 20 0, ddfsDedupActive, 1, 8⟩ ∧
      (∀ p e, slot table p = some e → e.OneFlag ∧ e.statActive = e.active) ∧
      (∀ breadErr key inBlock entry r, CleanLocal table (.alloc breadErr key inBlock entry) →
        ddtableAlloc breadErr table key inBlock entry = some r → Found r.table key) ∧
      ∀ op table', op.run table = some table' → (FlagsOk table' ↔ CleanLocal table op) := by
  obtain ⟨r, hr, htable, -⟩ := ddtableAlloc_new findKey_mkfsTable findFree_mkfsTable 8
    { freeEntry with flags := 0 }
  have hrun : (TableOp.alloc noErr (Vector.replicate 20 0) 8 { freeEntry with flags := 0 }).run
      (mkfsTable 1) = some r.table := by
    rw [TableOp.run, hr, Option.map_some]
  have hclean : CleanLocal (mkfsTable 1)
      (.alloc noErr (Vector.replicate 20 0) 8 { freeEntry with flags := 0 }) := fun _ => rfl
  have hreach : (dedupTables 1).Reachable CleanLocal r.table := .step (.init rfl) hclean hrun
  refine ⟨r.table, hrun, ?_, flags_well_formed hreach⟩
  rw [htable]
  exact slot_setSlot_self (slot_of_findFree findFree_mkfsTable).1 _

/-- The first allocation in a new table finds the bit of a free slot in its local. -/
theorem flags_well_formed_fails :
    ¬∀ n table, (dedupTables n).Reachable (fun _ _ => True) table → FlagsOk table := by
  intro hall
  obtain ⟨r, hr, htable, -⟩ := ddtableAlloc_new findKey_mkfsTable findFree_mkfsTable 8 freeEntry
  have hrun : (TableOp.alloc noErr (Vector.replicate 20 0) 8 freeEntry).run (mkfsTable 1) =
      some r.table := by
    rw [TableOp.run, hr, Option.map_some]
  have hreach : (dedupTables 1).Reachable (fun _ _ => True) r.table :=
    .step (.init rfl) trivial hrun
  have hclean := clean_of_flagsOk hrun (hall 1 r.table hreach) findKey_mkfsTable
  exact absurd hclean (by decide)

end EmbeddedOs.Ddfs
