import EmbeddedOs.Ddfs.TableErrors

/-!
# Counting references in 16 bits

`ddtable_alloc` increments the `ref_count` of an entry without a check, and `ddtable_unref`
deletes the entry when the decremented count is 0. The runs here are any number of allocations
of one key, followed by any number of dereferences of its block.
-/

namespace EmbeddedOs.Ddfs

open Lib Lib.SlotTable

/-- The table after `n` calls of `ddtable_alloc` with one key. -/
def allocs (table : DedupTable) (key : Key) (inBlock : ℕ → ℤ) (entry : ℕ → DdfsDedup) :
    ℕ → Option DedupTable
  | 0 => some table
  | n + 1 => (allocs table key inBlock entry n).bind fun table =>
    (ddtableAlloc noErr table key (inBlock n) (entry n)).map fun r => r.table

/-- The table after `m` calls of `ddtable_unref` for one block. -/
def unrefs (table : DedupTable) (blk : ℤ) : ℕ → DedupTable
  | 0 => table
  | m + 1 => (ddtableUnref noErr (unrefs table blk m) blk).table

/-- What the call of `ddtable_unref` behind `m` others returns. -/
def unrefRet (table : DedupTable) (blk : ℤ) (m : ℕ) : ℤ :=
  (ddtableUnref noErr (unrefs table blk m) blk).ret

/-- The references that `n` allocations of a key take are counted. -/
structure CountsRefs (table : DedupTable) (key : Key) (inBlock : ℕ → ℤ) (entry : ℕ → DdfsDedup)
    (n : ℕ) : Prop where
  /-- Every allocation is counted, or refused. -/
  counted : ∀ i < n, ∃ t r, allocs table key inBlock entry i = some t ∧
    ddtableAlloc noErr t key (inBlock i) (entry i) = some r ∧
    (r.ret ≠ 0 ∨ ∃ p e, findKey key r.table = some (p, e) ∧ e.refCount.toNat = i + 1)
  /-- Behind them, the call of `ddtable_unref` that returns 0 is the one for the last. -/
  last : ∀ t, allocs table key inBlock entry n = some t →
    ∀ m, unrefRet t (inBlock 0) m = 0 ↔ m + 1 = n
  /-- It deletes the entry. -/
  deleted : ∀ t, allocs table key inBlock entry n = some t →
    ∀ m, findKey key (unrefs t (inBlock 0) m) = none ↔ n ≤ m

variable {table : DedupTable} {key : Key} {inBlock : ℕ → ℤ} {entry : ℕ → DdfsDedup} {p : ℕ × ℕ}
  {old : DdfsDedup}

/-- The entry of the key with `n` references. -/
def countedEntry (key : Key) (inBlock : ℕ → ℤ) (entry : ℕ → DdfsDedup) (n : ℕ) : DdfsDedup :=
  ⟨key, (entry 0).flags ||| ddfsDedupActive, UInt16.ofNat n, inBlock 0⟩

/-- A new entry is in use if the local of `ddtable_alloc` did not have the bit for a free
slot. -/
theorem countedEntry_active {n : ℕ} :
    (countedEntry key inBlock entry n).active = true ↔ (entry 0).flags &&& ddfsDedupFree = 0 := by
  rw [active_eq_true, countedEntry, or_active_and_free]

/-- The table has no entry for the key and the block, and its first free slot is `p`. -/
structure FreshKey (table : DedupTable) (key : Key) (blk : ℤ) (p : ℕ × ℕ) : Prop where
  /-- The key. -/
  key : findKey key table = none
  /-- The block. -/
  block : findBlock blk table = none
  /-- The slot. -/
  free : ∃ e, findFree table = some (p, e)

section FreshKey

variable (h : FreshKey table key (inBlock 0) p)
include h

theorem FreshKey.slot : ∃ e, slot table p = some e := by
  obtain ⟨e, hfree⟩ := h.free
  exact ⟨e, (slot_of_findFree hfree).1⟩

/-- The first allocation fills the free slot. -/
theorem allocs_one : allocs table key inBlock entry 1 =
    some (setSlot table p (countedEntry key inBlock entry 1)) := by
  obtain ⟨e, hfree⟩ := h.free
  obtain ⟨r, hr, htable, -, -⟩ := ddtableAlloc_new h.key hfree (inBlock 0) (entry 0)
  unfold allocs allocs
  rw [Option.bind_some, hr, Option.map_some, htable]
  rfl

variable (hflags : (entry 0).flags &&& ddfsDedupFree = 0)
include hflags

/-- The entry is found by its key. -/
theorem findKey_counted (n : ℕ) :
    findKey key (setSlot table p (countedEntry key inBlock entry n)) =
      some (p, countedEntry key inBlock entry n) := by
  obtain ⟨e, hp⟩ := h.slot
  have hact : (countedEntry key inBlock entry n).active = true := countedEntry_active.mpr hflags
  apply findSlot_setSlot_of_none h.key hp
  simp only [hits, hact, targetMatches, Bool.true_and]
  simp [countedEntry]

/-- The entry is found by its block. -/
theorem findBlock_counted (n : ℕ) :
    findBlock (inBlock 0) (setSlot table p (countedEntry key inBlock entry n)) =
      some (p, countedEntry key inBlock entry n) := by
  obtain ⟨e, hp⟩ := h.slot
  have hact : (countedEntry key inBlock entry n).active = true := countedEntry_active.mpr hflags
  apply findSlot_setSlot_of_none h.block hp
  simp only [hits, hact, targetMatches, Bool.true_and]
  simp [countedEntry]

/-- Every allocation behind the first one counts one more reference, in 16 bits. -/
theorem allocs_counted (n : ℕ) : allocs table key inBlock entry (n + 1) =
    some (setSlot table p (countedEntry key inBlock entry (n + 1))) := by
  induction n with
  | zero => exact allocs_one h
  | succ n ih =>
    obtain ⟨r, hr, htable, -, -⟩ := ddtableAlloc_found (findKey_counted h hflags (n + 1))
      (inBlock (n + 1)) (entry (n + 1))
    rw [allocs, ih, Option.bind_some, hr, Option.map_some, htable, setSlot_setSlot]
    simp [countedEntry]

/-- A dereference that leaves references counts one less. -/
theorem ddtableUnref_counted {n : ℕ} (hn : UInt16.ofNat n ≠ 0) :
    let r := ddtableUnref noErr (setSlot table p (countedEntry key inBlock entry (n + 1)))
      (inBlock 0)
    r.table = setSlot table p (countedEntry key inBlock entry n) ∧
      r.ret = (UInt16.ofNat n).toNat := by
  have hunref := ddtableUnref_found (findBlock_counted h hflags (n + 1))
  have hcount : (countedEntry key inBlock entry (n + 1)).refCount - 1 = UInt16.ofNat n := by
    simp [countedEntry]
  simp only [hcount, if_neg hn, setSlot_setSlot] at hunref
  exact hunref

/-- A dereference that leaves no reference deletes the entry. -/
theorem ddtableUnref_last {n : ℕ} (hn : UInt16.ofNat n = 0) :
    let r := ddtableUnref noErr (setSlot table p (countedEntry key inBlock entry (n + 1)))
      (inBlock 0)
    r.table = setSlot table p freeEntry ∧ r.ret = 0 := by
  have hunref := ddtableUnref_found (findBlock_counted h hflags (n + 1))
  have hcount : (countedEntry key inBlock entry (n + 1)).refCount - 1 = UInt16.ofNat n := by
    simp [countedEntry]
  simp only [hcount, setSlot_setSlot, hn, if_true] at hunref
  exact hunref

/-- What the dereferences behind `n + 1` allocations do: each of the first `n` counts one less,
the next one deletes the entry, and the others find none. -/
theorem unrefs_counted {n : ℕ} (hn : n < 65535) (m : ℕ) :
    let t := setSlot table p (countedEntry key inBlock entry (n + 1))
    unrefs t (inBlock 0) m = setSlot table p
        (if m ≤ n then countedEntry key inBlock entry (n + 1 - m) else freeEntry) ∧
      unrefRet t (inBlock 0) m = if m ≤ n then (n : ℤ) - m else -1 := by
  intro t
  have hret : ∀ m, unrefs t (inBlock 0) m = setSlot table p
        (if m ≤ n then countedEntry key inBlock entry (n + 1 - m) else freeEntry) →
      unrefs t (inBlock 0) (m + 1) = setSlot table p
          (if m + 1 ≤ n then countedEntry key inBlock entry (n + 1 - (m + 1)) else freeEntry) ∧
        unrefRet t (inBlock 0) m = if m ≤ n then (n : ℤ) - m else -1 := by
    intro m hm
    simp only [unrefRet, unrefs, hm]
    by_cases hle : m ≤ n
    · obtain ⟨k, hk⟩ : ∃ k, n = m + k := ⟨n - m, by omega⟩
      have hsucc : n + 1 - m = k + 1 := by omega
      have hcast : (n : ℤ) - m = k := by omega
      rw [if_pos hle, if_pos hle, hsucc, hcast]
      cases k with
      | zero =>
        have hlast := ddtableUnref_last h hflags (n := 0) rfl
        rw [if_neg (by omega)]
        exact hlast
      | succ k =>
        have hne : UInt16.ofNat (k + 1) ≠ 0 := by
          intro hzero
          have hcount := congrArg UInt16.toNat hzero
          simp at hcount
          omega
        have hless := ddtableUnref_counted h hflags hne
        have hrest : n + 1 - (m + 1) = k + 1 := by omega
        rw [if_pos (by omega), hrest]
        refine ⟨hless.1, hless.2.trans ?_⟩
        rw [UInt16.toNat_ofNat', Nat.mod_eq_of_lt (by omega)]
    · have hmissing : findBlock (inBlock 0) (setSlot table p freeEntry) = none :=
        findSlot_setSlot_eq_none h.block rfl
      rw [if_neg hle, if_neg hle, if_neg (by omega)]
      exact ddtableUnref_missing hmissing
  have htable : ∀ m, unrefs t (inBlock 0) m = setSlot table p
      (if m ≤ n then countedEntry key inBlock entry (n + 1 - m) else freeEntry) := by
    intro m
    induction m with
    | zero => rfl
    | succ m ih => exact (hret m ih).1
  exact ⟨htable m, (hret m (htable m)).2⟩

end FreshKey

/-- `ddtable_alloc` never refuses. -/
theorem ddtableAlloc_ret {blk : ℤ} {e : DdfsDedup} {r : AllocResult}
    (h : ddtableAlloc noErr table key blk e = some r) : r.ret = 0 := by
  cases hkey : findKey key table with
  | some found =>
    obtain ⟨r', hr, -, -, hret⟩ := ddtableAlloc_found hkey blk e
    rw [h, Option.some.injEq] at hr
    rw [hr, hret]
  | none =>
    cases hfree : findFree table with
    | some slot =>
      obtain ⟨r', hr, -, -, hret⟩ := ddtableAlloc_new hkey hfree blk e
      rw [h, Option.some.injEq] at hr
      rw [hr, hret]
    | none =>
      rw [ddtableAlloc_full hkey hfree] at h
      cases h

/-- Without allocations nothing is counted, and no dereference finds an entry. -/
theorem countsRefs_zero (h : FreshKey table key (inBlock 0) p) :
    CountsRefs table key inBlock entry 0 := by
  have hsame : ∀ m, unrefs table (inBlock 0) m = table := by
    intro m
    induction m with
    | zero => rfl
    | succ m ih => rw [unrefs, ih, (ddtableUnref_missing h.block).1]
  refine ⟨fun i hi => absurd hi (Nat.not_lt_zero i), ?_, ?_⟩
  · rintro t ht m
    rw [allocs, Option.some.injEq] at ht
    rw [unrefRet, ← ht, hsame, (ddtableUnref_missing h.block).2]
    omega
  · rintro t ht m
    rw [allocs, Option.some.injEq] at ht
    rw [← ht, hsame]
    exact iff_of_true h.key (Nat.zero_le m)

/-- Up to 65535 allocations are counted. -/
theorem countsRefs_succ (h : FreshKey table key (inBlock 0) p)
    (hflags : (entry 0).flags &&& ddfsDedupFree = 0) {n : ℕ} (hn : n < 65535) :
    CountsRefs table key inBlock entry (n + 1) := by
  refine ⟨fun i hi => ?_, fun t ht m => ?_, fun t ht m => ?_⟩
  · have hstep : ∃ t, allocs table key inBlock entry i = some t := by
      cases i with
      | zero => exact ⟨table, rfl⟩
      | succ i => exact ⟨_, allocs_counted h hflags i⟩
    obtain ⟨t, ht⟩ := hstep
    have hnext := allocs_counted h hflags i
    rw [allocs, ht, Option.bind_some, Option.map_eq_some_iff] at hnext
    obtain ⟨r, hr, htable⟩ := hnext
    refine ⟨t, r, ht, hr, Or.inr ⟨p, countedEntry key inBlock entry (i + 1), ?_, ?_⟩⟩
    · rw [htable]
      exact findKey_counted h hflags (i + 1)
    · rw [countedEntry, UInt16.toNat_ofNat', Nat.mod_eq_of_lt (by omega)]
  · rw [allocs_counted h hflags, Option.some.injEq] at ht
    have hret := (unrefs_counted h hflags hn m).2
    rw [ht] at hret
    rw [hret]
    split <;> omega
  · rw [allocs_counted h hflags, Option.some.injEq] at ht
    have htable := (unrefs_counted h hflags hn m).1
    rw [ht] at htable
    rw [htable]
    by_cases hle : m ≤ n
    · rw [if_pos hle, findKey_counted h hflags]
      simp
      omega
    · rw [if_neg hle]
      exact iff_of_true (findSlot_setSlot_eq_none h.key rfl) (by omega)

/-- References are counted if and only if there are none, or at most 65535 of them, and the
local of `ddtable_alloc` did not have the bit for a free slot when the entry was made. -/
theorem countsRefs_iff (h : FreshKey table key (inBlock 0) p) (n : ℕ) :
    CountsRefs table key inBlock entry n ↔
      n = 0 ∨ n ≤ 65535 ∧ (entry 0).flags &&& ddfsDedupFree = 0 := by
  constructor
  · intro hcounts
    cases n with
    | zero => exact Or.inl rfl
    | succ n =>
      refine Or.inr ⟨?_, ?_⟩
      · by_contra hmany
        obtain ⟨t, r, -, hr, hret | ⟨q, e, -, hcount⟩⟩ := hcounts.counted 65535 (by omega)
        · exact hret (ddtableAlloc_ret hr)
        · have hlt := e.refCount.toNat_lt
          omega
      · by_contra hflags
        obtain ⟨t, r, ht, hr, hret | ⟨q, e, hfound, -⟩⟩ := hcounts.counted 0 (Nat.succ_pos n)
        · exact hret (ddtableAlloc_ret hr)
        · -- the new entry is not in use
          have hone : allocs table key inBlock entry 1 = _ := allocs_one h
          rw [allocs, ht, Option.bind_some, hr, Option.map_some, Option.some.injEq] at hone
          have hact : (countedEntry key inBlock entry 1).active = false := by
            rw [← Bool.not_eq_true, countedEntry_active]
            exact hflags
          have hnone : findKey key r.table = none := by
            rw [hone]
            exact findSlot_setSlot_eq_none h.key (by simp [hits, hact])
          rw [hnone] at hfound
          cases hfound
  · rintro (rfl | ⟨hn, hflags⟩)
    · exact countsRefs_zero h
    · cases n with
      | zero => exact countsRefs_zero h
      | succ n => exact countsRefs_succ h hflags (by omega)

/-- All allocations are for block 8. -/
def sameBlock : ℕ → ℤ := fun _ => 8

/-- All allocations have a zeroed local. -/
def zeroEntries : ℕ → DdfsDedup := fun _ => zeroEntry

theorem freshKey_mkfsTable :
    FreshKey (mkfsTable 1) (Vector.replicate 20 0) (sameBlock 0) (0, 0) where
  key := findKey_eq_none.mpr fun _ _ hp => absurd hp not_inUse_mkfsTable
  block := findBlock_eq_none.mpr fun _ _ hp => absurd hp not_inUse_mkfsTable
  free := ⟨freeEntry, rfl⟩

theorem zeroEntries_flags : (zeroEntries 0).flags &&& ddfsDedupFree = 0 := rfl

/-- Two allocations in a new table. -/
theorem countsRefs_two :
    CountsRefs (mkfsTable 1) (Vector.replicate 20 0) sameBlock zeroEntries 2 :=
  (countsRefs_iff freshKey_mkfsTable 2).mpr (Or.inr ⟨by decide, zeroEntries_flags⟩)

/-- Of 65537 references to a block of a new table, the first one that is given up deletes the
entry. -/
theorem countsRefs_fails :
    ¬∀ n, CountsRefs (mkfsTable 1) (Vector.replicate 20 0) sameBlock zeroEntries n := by
  intro hall
  have hlast := (hall 65537).last _ (allocs_counted freshKey_mkfsTable zeroEntries_flags 65536) 0
  have hzero := (ddtableUnref_last freshKey_mkfsTable zeroEntries_flags (n := 65536) rfl).2
  exact absurd (hlast.mp hzero) (by decide)

end EmbeddedOs.Ddfs
