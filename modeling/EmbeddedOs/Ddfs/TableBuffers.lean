import EmbeddedOs.Ddfs.TableErrors

/-!
# The buffers of a scan

The calls of `bread`, `brelse` and `bwrite` in the order in which `ddtable_alloc` and
`ddtable_unref` make them, without I/O errors. The scan keeps the buffer of the block with
the first free slot, because the flag that is to keep it from being released is set in the
iteration for this block only, and hands it out beside the buffer of the entry that it finds.
`ddtable_alloc` writes, and so releases, one of the two.
-/

namespace EmbeddedOs.Ddfs

open Lib Lib.SlotTable

/-- A call for the buffer of a block of the table. -/
inductive BufferEvent
  /-- It is read, and locked. -/
  | bread (i : ℕ)
  /-- It is released. -/
  | brelse (i : ℕ)
  /-- It is written, and released. -/
  | bwrite (i : ℕ)
  deriving DecidableEq

/-- How often the buffer of a block is obtained. -/
def obtained (i : ℕ) (events : List BufferEvent) : ℕ := events.count (.bread i)

/-- How often the buffer of a block is released. -/
def released (i : ℕ) (events : List BufferEvent) : ℕ :=
  events.count (.brelse i) + events.count (.bwrite i)

/-- Every buffer that is obtained is released exactly once. -/
def ReleasedOnce (events : List BufferEvent) : Prop :=
  ∀ i, .bread i ∈ events → released i events = 1

/-- The calls of the loop of `ddtable_locate` over the blocks from `i` on. -/
def locateEvents (key : Option Key) (targetblock : Option ℤ) (wantFree : Bool) :
    ℕ → DedupTable → FreeScan → List BufferEvent
  | _, [], _ => []
  | i, block :: rest, fs =>
    match scanEntries key targetblock wantFree i 0 block { fs with found := false } with
    | (some _, _) => [.bread i]
    | (none, fs) =>
      if fs.found then .bread i :: locateEvents key targetblock wantFree (i + 1) rest fs
      else .bread i :: .brelse i :: locateEvents key targetblock wantFree (i + 1) rest fs

/-- The calls of `ddtable_alloc`. -/
def allocEvents (table : DedupTable) (key : Key) : List BufferEvent :=
  let loc := ddtableLocate noErr table (some key) none true
  let events := locateEvents (some key) none true 0 table ⟨-1, none, false⟩
  events ++ ((if loc.error ≠ 0 then loc.freebp else loc.bp).map BufferEvent.bwrite).toList

/-- The calls of `ddtable_unref`. -/
def unrefEvents (table : DedupTable) (blocknum : ℤ) : List BufferEvent :=
  let loc := ddtableLocate noErr table none (some blocknum) false
  let events := locateEvents none (some blocknum) false 0 table ⟨-1, none, false⟩
  if loc.error ≠ 0 then events else events ++ (loc.bp.map BufferEvent.bwrite).toList

section Counts

variable {i j : ℕ} {xs ys : List BufferEvent}

@[simp] theorem obtained_append : obtained i (xs ++ ys) = obtained i xs + obtained i ys :=
  List.count_append

@[simp] theorem released_append : released i (xs ++ ys) = released i xs + released i ys := by
  simp only [released, List.count_append]
  omega

@[simp] theorem obtained_bread :
    obtained i (.bread j :: xs) = obtained i xs + if j = i then 1 else 0 := by
  simp [obtained, List.count_cons]

@[simp] theorem released_bread : released i (.bread j :: xs) = released i xs := by
  simp [released]

@[simp] theorem obtained_brelse : obtained i (.brelse j :: xs) = obtained i xs := by
  simp [obtained]

@[simp] theorem released_brelse :
    released i (.brelse j :: xs) = released i xs + if j = i then 1 else 0 := by
  simp only [released, List.count_cons, beq_iff_eq, BufferEvent.brelse.injEq, reduceCtorEq,
    if_false]
  omega

@[simp] theorem obtained_bwrite : obtained i (.bwrite j :: xs) = obtained i xs := by
  simp [obtained]

@[simp] theorem released_bwrite :
    released i (.bwrite j :: xs) = released i xs + if j = i then 1 else 0 := by
  simp only [released, List.count_cons, beq_iff_eq, BufferEvent.bwrite.injEq, reduceCtorEq,
    if_false]
  omega

@[simp] theorem obtained_nil : obtained i [] = 0 := rfl

@[simp] theorem released_nil : released i [] = 0 := rfl

end Counts

variable {key : Option Key} {targetblock : Option ℤ}

/-- The buffers that a scan holds are those that were obtained and not released. -/
theorem locateEvents_held (key : Option Key) (targetblock : Option ℤ) (wantFree : Bool) (i : ℕ)
    (table : DedupTable) (fs : FreeScan) (held : List ℕ) (j : ℕ) :
    let events := locateEvents key targetblock wantFree i table fs
    let r := scanBlocks noErr key targetblock wantFree i table fs held
    released j events + r.held.count j = obtained j events + held.count j := by
  induction table generalizing i fs held with
  | nil => simp [locateEvents, scanBlocks]
  | cons block rest ih =>
    unfold locateEvents scanBlocks
    simp only [noErr, ne_eq, not_true_eq_false, if_false]
    cases hscan : scanEntries key targetblock wantFree i 0 block { fs with found := false } with
    | mk out fs' =>
      cases out with
      | some idx =>
        simp [List.count_cons]
        omega
      | none =>
        simp only
        cases hfound : fs'.found with
        | true =>
          have hrest := ih (i + 1) fs' (i :: held)
          simp only [List.count_cons, beq_iff_eq] at hrest
          simp only [if_true, released_bread, obtained_bread]
          omega
        | false =>
          have hrest := ih (i + 1) fs' held
          simp only [Bool.false_eq_true, if_false, released_bread, obtained_bread, released_brelse,
            obtained_brelse]
          omega

/-- A scan obtains the buffer of a block at most once, and of no block before its first. -/
theorem obtained_locateEvents (key : Option Key) (targetblock : Option ℤ) (wantFree : Bool) (i : ℕ)
    (table : DedupTable) (fs : FreeScan) (j : ℕ) :
    obtained j (locateEvents key targetblock wantFree i table fs) ≤ if i ≤ j then 1 else 0 := by
  induction table generalizing i fs with
  | nil => simp [locateEvents]
  | cons block rest ih =>
    unfold locateEvents
    cases hscan : scanEntries key targetblock wantFree i 0 block { fs with found := false } with
    | mk out fs' =>
      have hrest := ih (i + 1) fs'
      cases out with
      | some idx =>
        simp only [obtained_bread, obtained_nil]
        split <;> split <;> omega
      | none =>
        cases hfound : fs'.found with
        | true =>
          simp only [hfound, if_true, obtained_bread]
          split at hrest <;> split <;> split <;> omega
        | false =>
          simp only [hfound, Bool.false_eq_true, if_false, obtained_bread, obtained_brelse]
          split at hrest <;> split <;> split <;> omega

/-- If nothing is held at the end, every buffer that was obtained was released once, and
otherwise not. -/
theorem releasedOnce_iff {events : List BufferEvent} {held : List ℕ}
    (hcount : ∀ j, released j events + held.count j = obtained j events)
    (hone : ∀ j, obtained j events ≤ 1) : ReleasedOnce events ↔ held = [] := by
  constructor
  · intro hreleased
    rw [List.eq_nil_iff_forall_not_mem]
    intro j hj
    have hpos : 0 < held.count j := List.count_pos_iff.mpr hj
    have hj := hcount j
    have hle := hone j
    have hmem : BufferEvent.bread j ∈ events := List.count_pos_iff.mp (by
      unfold obtained at hj hle
      omega)
    have honce := hreleased j hmem
    omega
  · intro hnil j hmem
    have hpos : 0 < obtained j events := List.count_pos_iff.mpr hmem
    have hj := hcount j
    have hle := hone j
    rw [hnil, List.count_nil] at hj
    omega

/-! ## What a scan holds at its end -/

/-- A scan that asks for no free slot holds the buffer of the entry that it finds. -/
theorem scanBlocks_held_unwanted (key : Option Key) (targetblock : Option ℤ) (i : ℕ)
    (table : DedupTable) (fs : FreeScan) (held : List ℕ) :
    (scanBlocks noErr key targetblock false i table fs held).held =
      (((scanFrom i table).find? fun e => hits key targetblock e.2).map fun e => e.1.1).toList ++
        held := by
  induction table generalizing i fs held with
  | nil => simp [scanBlocks, scanFrom]
  | cons block rest ih =>
    have hfs := scanEntries_unwanted key targetblock i 0 block { fs with found := false }
    rw [scanFrom, List.find?_append]
    cases hrow : (scanRow i 0 block).find? fun e => hits key targetblock e.2 with
    | some e =>
      have hi : e.1.1 = i := (mem_scanRow.mp (List.mem_of_find?_eq_some hrow)).1
      rw [scanBlocks_cons_hit (noErr_apply i) hrow hfs]
      simp [hi]
    | none =>
      rw [scanBlocks_cons_miss (noErr_apply i) hrow hfs, Option.none_or]
      exact ih (i + 1) { fs with found := false } held

/-- A scan that misses and asks for a free slot holds the buffer of the first one. -/
theorem scanBlocks_held_miss {i : ℕ} {table : DedupTable}
    (h : (scanFrom i table).find? (fun e => hits key targetblock e.2) = none) (fs : FreeScan)
    (held : List ℕ) :
    (scanBlocks noErr key targetblock true i table fs held).held =
      (if fs.freespot = -1 then
        (((scanFrom i table).find? fun e => !e.2.active).map fun e => e.1.1).toList
      else []) ++ held := by
  induction table generalizing i fs held with
  | nil => simp [scanBlocks, scanFrom]
  | cons block rest ih =>
    simp only [scanFrom, List.find?_append, Option.or_eq_none_iff] at h
    have hfs := scanEntries_snd h.1 { fs with found := false }
    rw [scanBlocks_cons_miss (noErr_apply i) h.1 hfs, ih h.2, scanFrom, List.find?_append]
    by_cases hspot : fs.freespot = -1
    · cases hrow : (scanRow i 0 block).find? fun e => !e.2.active with
      | some e =>
        have hi : e.1.1 = i := (mem_scanRow.mp (List.mem_of_find?_eq_some hrow)).1
        simp [hspot, hi, offset_ne_neg_one]
      | none => simp [hspot]
    · simp [hspot]

/-- A scan that hits and asks for a free slot holds the buffer of the entry, and that of the
first free slot if it lies in a block before. -/
theorem scanBlocks_held_hit {i : ℕ} {table : DedupTable} {e : (ℕ × ℕ) × DdfsDedup}
    (h : (scanFrom i table).find? (fun e => hits key targetblock e.2) = some e) (fs : FreeScan)
    (held : List ℕ) :
    ∃ kept, (scanBlocks noErr key targetblock true i table fs held).held =
        e.1.1 :: (kept ++ held) ∧
      (∀ j ∈ kept, j < e.1.1) ∧
      (kept = [] ↔ fs.freespot ≠ -1 ∨
        ∀ q ∈ scanFrom i table, q.1.1 < e.1.1 → q.2.active = true) := by
  induction table generalizing i fs held with
  | nil => simp [scanFrom] at h
  | cons block rest ih =>
    simp only [scanFrom, List.find?_append] at h
    cases hrow : (scanRow i 0 block).find? fun e => hits key targetblock e.2 with
    | some e' =>
      have hi : e'.1.1 = i := (mem_scanRow.mp (List.mem_of_find?_eq_some hrow)).1
      rw [hrow, Option.some_or, Option.some.injEq] at h
      subst h
      rw [scanBlocks_cons_hit (noErr_apply i) hrow rfl]
      refine ⟨[], by simp [hi], by simp, iff_of_true rfl (Or.inr ?_)⟩
      rintro ⟨⟨j, k⟩, x⟩ hmem hlt
      have hall : ((j, k), x) ∈ scanFrom i (block :: rest) := hmem
      have hle : i ≤ j := (mem_scanFrom.mp hall).1
      simp only at hlt
      omega
    | none =>
      rw [hrow, Option.none_or] at h
      have hfs := scanEntries_snd hrow { fs with found := false }
      have hbehind : i < e.1.1 := (mem_scanFrom.mp (List.mem_of_find?_eq_some h)).1
      rw [scanBlocks_cons_miss (noErr_apply i) hrow hfs, scanFrom]
      by_cases hspot : fs.freespot = -1
      · cases hfree : (scanRow i 0 block).find? fun e => !e.2.active with
        | some r =>
          -- the buffer of this block is kept
          obtain ⟨kept, hheld, -, hkept⟩ := ih h ⟨r.1.2 * dedupSize, some i, true⟩ (i :: held)
          have hnil : kept = [] := hkept.mpr (Or.inl (offset_ne_neg_one _))
          have hi : r.1.1 = i := (mem_scanRow.mp (List.mem_of_find?_eq_some hfree)).1
          have hact := List.find?_some hfree
          simp only [hspot, if_true, ne_eq, not_true_eq_false, false_or]
          rw [hnil, List.nil_append] at hheld
          refine ⟨[i], hheld, by simpa using hbehind,
            iff_of_false (List.cons_ne_nil _ _) fun hall => ?_⟩
          have hused := hall r (List.mem_append_left _ (List.mem_of_find?_eq_some hfree))
            (by rw [hi]; exact hbehind)
          simp [hused] at hact
        | none =>
          obtain ⟨kept, hheld, hlt, hkept⟩ := ih h { fs with found := false } held
          have hrow : ∀ q ∈ scanRow i 0 block, q.2.active = true := by
            intro q hq
            simpa using List.find?_eq_none.mp hfree q hq
          simp only [hspot, if_true, Bool.false_eq_true, if_false, ne_eq, not_true_eq_false,
            false_or] at hheld hkept ⊢
          refine ⟨kept, hheld, hlt, hkept.trans ?_⟩
          constructor
          · intro hall q hq hlt
            rcases List.mem_append.mp hq with hq | hq
            · exact hrow q hq
            · exact hall q hq hlt
          · exact fun hall q hq hlt => hall q (List.mem_append_right _ hq) hlt
      · obtain ⟨kept, hheld, hlt, hkept⟩ := ih h { fs with found := false } held
        have hnil : kept = [] := hkept.mpr (Or.inl hspot)
        simp only [hspot, if_false, Bool.false_eq_true, ne_eq, not_false_eq_true, true_or, iff_true]
        exact ⟨kept, hheld, hlt, hnil⟩

/-! ## The callers -/

variable {table : DedupTable}

/-- Behind the search of `ddtable_alloc` that finds its key the buffer of the entry is held, and
that of a block before it exactly if one of these has a free slot. -/
theorem held_locate_found {key : Key} {p : ℕ × ℕ} {e : DdfsDedup}
    (h : findKey key table = some (p, e)) :
    ∃ kept, (ddtableLocate noErr table (some key) none true).held = p.1 :: kept ∧
      (∀ i ∈ kept, i < p.1) ∧
      (kept = [] ↔ ∀ q x, slot table q = some x → x.active = false → p.1 ≤ q.1) := by
  obtain ⟨kept, hheld, hlt, hkept⟩ := scanBlocks_held_hit h ⟨-1, none, false⟩ []
  rw [List.append_nil] at hheld
  refine ⟨kept, hheld, hlt, hkept.trans ?_⟩
  simp only [ne_eq, not_true_eq_false, false_or]
  constructor
  · intro hall q x hq hfree
    by_contra hlt
    have hused := hall (q, x) (mem_scan.mpr hq) (Nat.lt_of_not_le hlt)
    simp [hfree] at hused
  · rintro hall ⟨q, x⟩ hmem hlt
    cases hact : x.active with
    | true => rfl
    | false => exact absurd hlt (Nat.not_lt_of_le (hall q x (mem_scan.mp hmem) hact))

/-- Behind the search for a new key the buffer of the first free slot is held. -/
theorem held_locate_new {key : Key} {p : ℕ × ℕ} {e : DdfsDedup}
    (h : findKey key table = none) (hfree : findFree table = some (p, e)) :
    (ddtableLocate noErr table (some key) none true).held = [p.1] := by
  have hheld := scanBlocks_held_miss h ⟨-1, none, false⟩ []
  have hfree' : (scanFrom 0 table).find? (fun e => !e.2.active) = some (p, e) := hfree
  simp only [hfree', if_true, Option.map_some, Option.toList_some, List.append_nil] at hheld
  exact hheld

/-- Behind the search of `ddtable_unref` the buffer of the entry is held. -/
theorem held_locate_unref (table : DedupTable) (blk : ℤ) :
    (ddtableLocate noErr table none (some blk) false).held =
      ((findBlock blk table).map fun e => e.1.1).toList := by
  have hheld := scanBlocks_held_unwanted none (some blk) 0 table ⟨-1, none, false⟩ []
  rw [List.append_nil] at hheld
  exact hheld

/-- The buffers of a scan. -/
theorem releasedOnce_locate {wantFree : Bool} :
    ReleasedOnce (locateEvents key targetblock wantFree 0 table ⟨-1, none, false⟩) ↔
      (ddtableLocate noErr table key targetblock wantFree).held = [] := by
  apply releasedOnce_iff
  · intro j
    simpa [ddtableLocate] using
      locateEvents_held key targetblock wantFree 0 table ⟨-1, none, false⟩ [] j
  · intro j
    simpa using obtained_locateEvents key targetblock wantFree 0 table ⟨-1, none, false⟩ j

/-- The buffers of a scan and of the write behind it. -/
theorem releasedOnce_scan {wantFree : Bool} {i : ℕ} {held : List ℕ}
    (h : (ddtableLocate noErr table key targetblock wantFree).held = i :: held) :
    ReleasedOnce (locateEvents key targetblock wantFree 0 table ⟨-1, none, false⟩ ++ [.bwrite i]) ↔
      held = [] := by
  apply releasedOnce_iff
  · intro j
    have hcount := locateEvents_held key targetblock wantFree 0 table ⟨-1, none, false⟩ [] j
    unfold ddtableLocate at h
    simp only [h, List.count_cons, List.count_nil, beq_iff_eq] at hcount
    simp only [released_append, obtained_append, released_bwrite, obtained_bwrite, released_nil,
      obtained_nil]
    omega
  · intro j
    simpa using obtained_locateEvents key targetblock wantFree 0 table ⟨-1, none, false⟩ j

/-- An allocation that finds its key releases all buffers, unless a block before that of the
entry has a free slot. -/
theorem releasedOnce_alloc_found {key : Key} {p : ℕ × ℕ} {e : DdfsDedup}
    (h : findKey key table = some (p, e)) :
    ReleasedOnce (allocEvents table key) ↔
      ∀ q x, slot table q = some x → x.active = false → p.1 ≤ q.1 := by
  obtain ⟨herr, hbp, -⟩ := scanBlocks_hit h true ⟨-1, none, false⟩ []
  obtain ⟨kept, hheld, -, hkept⟩ := held_locate_found h
  have hevents : allocEvents table key =
      locateEvents (some key) none true 0 table ⟨-1, none, false⟩ ++ [.bwrite p.1] := by
    simp [allocEvents, ddtableLocate, herr, hbp]
  rw [hevents, releasedOnce_scan hheld, hkept]

/-- An allocation that makes a new entry releases all buffers. -/
theorem releasedOnce_alloc_new {key : Key} {p : ℕ × ℕ} {e : DdfsDedup}
    (h : findKey key table = none) (hfree : findFree table = some (p, e)) :
    ReleasedOnce (allocEvents table key) := by
  have herr := scanBlocks_miss h true ⟨-1, none, false⟩ []
  have hspot := scanBlocks_miss_free h ⟨-1, none, false⟩ []
  have hfree' : (scanFrom 0 table).find? (fun e => !e.2.active) = some (p, e) := hfree
  simp only [hfree', if_true] at hspot
  have hevents : allocEvents table key =
      locateEvents (some key) none true 0 table ⟨-1, none, false⟩ ++ [.bwrite p.1] := by
    simp [allocEvents, ddtableLocate, herr, hspot.1]
  rw [hevents, releasedOnce_scan (held_locate_new h hfree)]

/-- `ddtable_unref` releases all buffers. -/
theorem releasedOnce_unref (table : DedupTable) (blk : ℤ) :
    ReleasedOnce (unrefEvents table blk) := by
  have hheld := held_locate_unref table blk
  cases hfind : findBlock blk table with
  | none =>
    have herr := scanBlocks_miss hfind false ⟨-1, none, false⟩ []
    have hevents : unrefEvents table blk =
        locateEvents none (some blk) false 0 table ⟨-1, none, false⟩ := by
      simp [unrefEvents, ddtableLocate, herr]
    rw [hfind, Option.map_none, Option.toList_none] at hheld
    rw [hevents, releasedOnce_locate, hheld]
  | some r =>
    obtain ⟨herr, hbp, -⟩ := scanBlocks_hit hfind false ⟨-1, none, false⟩ []
    have hevents : unrefEvents table blk =
        locateEvents none (some blk) false 0 table ⟨-1, none, false⟩ ++ [.bwrite r.1.1] := by
      simp [unrefEvents, ddtableLocate, herr, hbp]
    rw [hfind, Option.map_some, Option.toList_some] at hheld
    rw [hevents, releasedOnce_scan hheld]

/-- Where an insertion has a free slot, `ddtable_alloc` releases every buffer once if and only
if no block before that of the first entry with the key has a free slot; `ddtable_unref` always
does. -/
theorem buffers_released (table : DedupTable) (key : Key) (blk : ℤ)
    (hfree : findKey key table = none → ∃ p e, slot table p = some e ∧ e.active = false) :
    (ReleasedOnce (allocEvents table key) ↔
      ∀ p e, findKey key table = some (p, e) →
        ∀ q x, slot table q = some x → x.active = false → p.1 ≤ q.1) ∧
      ReleasedOnce (unrefEvents table blk) := by
  refine ⟨?_, releasedOnce_unref table blk⟩
  cases hfind : findKey key table with
  | none =>
    obtain ⟨p, e, hp, hact⟩ := hfree hfind
    obtain ⟨q, x, hfirst⟩ :=
      exists_findSlot (f := fun e : DdfsDedup => !e.active) hp (by simp [hact])
    refine iff_of_true (releasedOnce_alloc_new hfind hfirst) ?_
    intro p e h
    cases h
  | some r =>
    rw [releasedOnce_alloc_found hfind]
    constructor
    · intro hall p e h
      rw [Option.some.injEq] at h
      subst h
      exact hall
    · exact fun hall => hall r.1 r.2 rfl

/-- A table of two blocks, the first one full, and a second one that starts with the key of all
zeros. -/
def behindTable : DedupTable :=
  [List.replicate entriesPerBlock (newEntry (Vector.replicate 20 1) 7),
    newEntry (Vector.replicate 20 0) 8 :: List.replicate (entriesPerBlock - 1) freeEntry]

/-- The key in the second block is found behind a block without a free slot. -/
theorem buffers_released_behind :
    ReleasedOnce (allocEvents behindTable (Vector.replicate 20 0)) ∧
      ReleasedOnce (unrefEvents behindTable 8) := by
  have hreleased := buffers_released behindTable (Vector.replicate 20 0) 8
    fun _ => ⟨(1, 1), freeEntry, rfl, freeEntry_active⟩
  refine ⟨hreleased.1.mpr ?_, hreleased.2⟩
  rintro p e hfind ⟨i, k⟩ x hq hfree
  have hp : p.1 < 2 := row_lt_length (slot_of_findSlot hfind).1
  cases i with
  | zero =>
    rw [behindTable, slot_cons_zero] at hq
    obtain ⟨hk, rfl⟩ := List.getElem?_eq_some_iff.mp hq
    rw [List.getElem_replicate, newEntry_active] at hfree
    cases hfree
  | succ i =>
    simp only
    omega

/-- A table of two blocks, where only the second one has entries. -/
def lateTable : DedupTable :=
  [List.replicate entriesPerBlock freeEntry,
    List.replicate entriesPerBlock (newEntry (Vector.replicate 20 0) 8)]

/-- The buffer of the first block, which has a free slot, is never released. -/
theorem buffers_released_fails : ¬∀ (table : DedupTable) (key : Key),
    (∃ p e, slot table p = some e ∧ e.active = false) → ReleasedOnce (allocEvents table key) := by
  intro hall
  have hreleased := hall lateTable (Vector.replicate 20 0) ⟨(0, 0), freeEntry, by decide, by decide⟩
  have hevents :
      allocEvents lateTable (Vector.replicate 20 0) = [.bread 0, .bread 1, .bwrite 1] := by
    decide +kernel
  rw [hevents] at hreleased
  have honce := hreleased 0 (List.mem_cons_self ..)
  exact absurd honce (by decide)

end EmbeddedOs.Ddfs
