import EmbeddedOs.Ddfs.TableBuffers
import EmbeddedOs.Lib.RefMap

/-!
# The table is a reference-counted map

`ddtable_alloc` and `ddtable_unref` on a table from `mkfs` simulate a reference-counted
map from keys to blocks, call by call and reply by reply. The promises the simulation
needs of the callers are stated as the guard `Admissible`. They are not enough: a key that is
found behind a block with a free slot leaves the buffer of this block locked, and the next
call that reads the block does not return. `Releases` says when this does not happen.
-/

namespace EmbeddedOs.Ddfs

open Lib Lib.SlotTable

/-- The table and the buffers that are left locked. -/
structure BufferedTable where
  /-- The table. -/
  table : DedupTable
  /-- The blocks of the table whose buffers an earlier call has not released. -/
  held : List ℕ

/-- The calls for buffers that are made in a call. -/
def callEvents (table : DedupTable) : RefMap.Call Key ℤ → List BufferEvent
  | .alloc key _ => allocEvents table key
  | .unref blk => unrefEvents table blk

/-- One call, with its reply; -1 is `absent`. A call that reads a block whose buffer is left
locked waits for it for ever. -/
def ddtableCall (s : BufferedTable) (call : RefMap.Call Key ℤ) :
    Option (RefMap.Reply ℤ × BufferedTable) :=
  if ∃ i ∈ s.held, .bread i ∈ callEvents s.table call then none
  else
    match call with
    | .alloc key blk =>
      (ddtableAlloc noErr s.table key blk zeroEntry).map fun r =>
        (.block r.outBlock, ⟨r.table, r.held ++ s.held⟩)
    | .unref blk =>
      let r := ddtableUnref noErr s.table blk
      some (if r.ret = -1 then .absent else .count r.ret.toNat, ⟨r.table, r.held ++ s.held⟩)

/-- The table of `numBlocks` blocks under the two calls. -/
def dedupMachine (numBlocks : ℕ) :
    Machine BufferedTable (RefMap.Call Key ℤ × RefMap.Reply ℤ) where
  init s := s = ⟨mkfsTable numBlocks, []⟩
  step s a s' := ddtableCall s a.1 = some (a.2, s')

/-- What the callers promise: a new key finds a free slot and brings a block without an
entry, and no count passes 65535. -/
def Admissible (table : DedupTable) : RefMap.Call Key ℤ → Prop
  | .alloc key blk =>
    (findKey key table = none →
      (∃ p e, slot table p = some e ∧ e.active = false) ∧
        ∀ p e, InUse table p e → e.blockptr ≠ blk) ∧
    ∀ p e, InUse table p e → e.key = key → e.refCount.toNat < 65535
  | .unref _ => True

/-- The call releases all buffers: a key that is found is not behind a block with a free slot. -/
def Releases (table : DedupTable) : RefMap.Call Key ℤ → Prop
  | .alloc key _ => ∀ p e, findKey key table = some (p, e) →
      ∀ q x, slot table q = some x → x.active = false → p.1 ≤ q.1
  | .unref _ => True

/-- The bytes a call changes: one slot, a free one for a new key, and none at all for a
block without an entry. -/
def SlotChange (table : DedupTable) : RefMap.Call Key ℤ → RefMap.Reply ℤ → DedupTable → Prop
  | .alloc key blk, .block _, table' => ∃ p old, slot table p = some old ∧
      ((old.active = false ∧ findKey key table = none ∧
          table' = setSlot table p (newEntry key blk)) ∨
        (old.active = true ∧ old.key = key ∧
          table' = setSlot table p { old with refCount := old.refCount + 1 }))
  | .unref blk, .count c, table' => ∃ p old, InUse table p old ∧ old.blockptr = blk ∧
      table' = setSlot table p
        (if c = 0 then freeEntry else { old with refCount := old.refCount - 1 })
  | .unref _, .absent, table' => table' = table
  | _, _, _ => False

/-- The table represents the map: the slots in use are its bindings, one slot a key. -/
structure Represents (table : DedupTable) (m : RefMap Key ℤ) : Prop where
  /-- A binding is a slot in use with its key, block and count. -/
  find_iff : ∀ k b c, m.find k = some (b, c) ↔
    ∃ p e, InUse table p e ∧ e.key = k ∧ e.blockptr = b ∧ e.refCount.toNat = c
  /-- No key has two slots in use. -/
  keys : ∀ p q e e', InUse table p e → InUse table q e' → e.key = e'.key → p = q

/-- A count that is below its maximum goes up by one. -/
theorem toNat_add_one {c : UInt16} (h : c.toNat < 65535) : (c + 1).toNat = c.toNat + 1 := by
  rw [UInt16.toNat_add]
  exact Nat.mod_eq_of_lt (by simpa using Nat.succ_lt_succ h)

/-- A positive count goes down by one. -/
theorem toNat_sub_one {c : UInt16} (h : 0 < c.toNat) : (c - 1).toNat = c.toNat - 1 := by
  have hle : (1 : UInt16) ≤ c := UInt16.le_iff_toNat_le.mpr h
  exact UInt16.toNat_sub_of_le c 1 hle

theorem count_eq_zero_iff {c : UInt16} : c = 0 ↔ c.toNat = 0 := by
  rw [← UInt16.toNat_inj]
  rfl

namespace Represents

variable {table : DedupTable} {m : RefMap Key ℤ}

/-- A slot in use is a binding. -/
theorem find (h : Represents table m) {p : ℕ × ℕ} {e : DdfsDedup} (he : InUse table p e) :
    m.find e.key = some (e.blockptr, e.refCount.toNat) :=
  (h.find_iff _ _ _).mpr ⟨p, e, he, rfl, rfl, rfl⟩

/-- No block has two slots in use. -/
theorem blocks (h : Represents table m) {p q : ℕ × ℕ} {e e' : DdfsDedup}
    (he : InUse table p e) (he' : InUse table q e') (hb : e.blockptr = e'.blockptr) : p = q := by
  have hf := h.find he
  rw [hb] at hf
  exact h.keys p q e e' he he' (m.inj hf (h.find he'))

/-- The binding of a key that has none cannot be read off any slot. -/
theorem find_eq_none (h : Represents table m) {key : Key} (hk : findKey key table = none) :
    m.find key = none := by
  cases hf : m.find key with
  | none => rfl
  | some bc =>
    obtain ⟨p, e, he, hkey, -⟩ := (h.find_iff key bc.1 bc.2).mp hf
    exact absurd hkey (findKey_eq_none.mp hk p e he)

/-- A block bound in the map has a slot. -/
theorem holds_iff (h : Represents table m) {blk : ℤ} :
    m.Holds blk ↔ ∃ p e, InUse table p e ∧ e.blockptr = blk := by
  constructor
  · rintro ⟨k, c, hf⟩
    obtain ⟨p, e, he, -, hb, -⟩ := (h.find_iff k blk c).mp hf
    exact ⟨p, e, he, hb⟩
  · rintro ⟨p, e, he, rfl⟩
    exact ⟨_, _, h.find he⟩

/-- The search by block finds nothing exactly if the block is not bound. -/
theorem findBlock_eq_none_iff (h : Represents table m) {blk : ℤ} :
    findBlock blk table = none ↔ ¬m.Holds blk := by
  rw [findBlock_eq_none, h.holds_iff]
  constructor
  · rintro hno ⟨p, e, he, hb⟩
    exact hno p e he hb
  · intro hno p e he hb
    exact hno ⟨p, e, he, hb⟩

/-- Changing the count of one slot in use changes the count of its binding. -/
theorem setCount (h : Represents table m) {p : ℕ × ℕ} {e : DdfsDedup} (he : InUse table p e)
    {rc : UInt16} {m' : RefMap Key ℤ}
    (hm' : ∀ k, m'.find k =
      if k = e.key then some (e.blockptr, rc.toNat) else m.find k) :
    Represents (setSlot table p { e with refCount := rc }) m' := by
  have hin : ∀ {q e'}, InUse (setSlot table p { e with refCount := rc }) q e' →
      (q = p ∧ e' = { e with refCount := rc }) ∨ (q ≠ p ∧ InUse table q e') := by
    intro q e' hq
    rcases (inUse_setSlot he.1).mp hq with ⟨rfl, rfl, -⟩ | hother
    · exact Or.inl ⟨rfl, rfl⟩
    · exact Or.inr hother
  refine ⟨fun k b c => ?_, fun q₁ q₂ e₁ e₂ h₁ h₂ hk => ?_⟩
  · rw [hm']
    constructor
    · intro hf
      split at hf
      · next hk =>
        obtain ⟨rfl, rfl⟩ := Prod.mk.inj (Option.some.inj hf)
        exact ⟨p, _, (inUse_setSlot he.1).mpr (Or.inl ⟨rfl, rfl, he.2⟩), hk.symm, rfl, rfl⟩
      · next hk =>
        obtain ⟨q, e', he', hkey, hb, hc⟩ := (h.find_iff k b c).mp hf
        have hqp : q ≠ p := by
          rintro rfl
          have heq : e' = e := Option.some.inj (he'.1.symm.trans he.1)
          exact hk (by rw [← hkey, heq])
        exact ⟨q, e', (inUse_setSlot he.1).mpr (Or.inr ⟨hqp, he'⟩), hkey, hb, hc⟩
    · rintro ⟨q, e', hq, hkey, hb, hc⟩
      rcases hin hq with ⟨rfl, rfl⟩ | ⟨hqp, hq⟩
      · rw [if_pos hkey.symm, ← hb, ← hc]
      · have hne : k ≠ e.key := by
          rintro rfl
          exact hqp (h.keys q p e' e hq he hkey)
        rw [if_neg hne]
        exact (h.find_iff k b c).mpr ⟨q, e', hq, hkey, hb, hc⟩
  · rcases hin h₁ with ⟨rfl, rfl⟩ | ⟨hne₁, hold₁⟩ <;>
      rcases hin h₂ with ⟨rfl, rfl⟩ | ⟨hne₂, hold₂⟩
    · rfl
    · exact absurd (h.keys _ _ e e₂ he hold₂ hk).symm hne₂
    · exact absurd (h.keys _ _ e₁ e hold₁ he hk) hne₁
    · exact h.keys _ _ _ _ hold₁ hold₂ hk

/-- A free slot is none of the slots in use. -/
theorem ne_of_free {p q : ℕ × ℕ} {old e : DdfsDedup} (hp : slot table p = some old)
    (hfree : old.active = false) (he : InUse table q e) : q ≠ p := by
  rintro rfl
  have heq : e = old := Option.some.inj (he.1.symm.trans hp)
  rw [heq] at he
  exact absurd he.2 (by rw [hfree]; decide)

/-- Filling a free slot with a new key for a block without an entry inserts a binding. -/
theorem insert (h : Represents table m) {p : ℕ × ℕ} {old new : DdfsDedup}
    (hp : slot table p = some old) (hfree : old.active = false) (hact : new.active = true)
    (hone : new.refCount = 1) (hk : findKey new.key table = none)
    (hb : ¬m.Holds new.blockptr) :
    Represents (setSlot table p new) (m.insert new.key new.blockptr hb) := by
  refine ⟨fun k b c => ?_, fun q₁ q₂ e₁ e₂ h₁ h₂ hkey => ?_⟩
  · rw [RefMap.find_insert_eq_some]
    constructor
    · intro hf
      split at hf
      · next hkk =>
        refine ⟨p, new, (inUse_setSlot hp).mpr (Or.inl ⟨rfl, rfl, hact⟩), hkk.symm, hf.1.symm, ?_⟩
        rw [hf.2, hone]
        rfl
      · obtain ⟨q, e, he, hrest⟩ := (h.find_iff k b c).mp hf
        exact ⟨q, e, (inUse_setSlot hp).mpr (Or.inr ⟨ne_of_free hp hfree he, he⟩), hrest⟩
    · rintro ⟨q, e, hq, hkey, hblk, hc⟩
      rcases (inUse_setSlot hp).mp hq with ⟨rfl, rfl, -⟩ | ⟨-, hq⟩
      · rw [if_pos hkey.symm, ← hc, hone]
        exact ⟨hblk.symm, rfl⟩
      · rw [if_neg (by rw [← hkey]; exact findKey_eq_none.mp hk q e hq)]
        exact (h.find_iff k b c).mpr ⟨q, e, hq, hkey, hblk, hc⟩
  · rcases (inUse_setSlot hp).mp h₁ with ⟨rfl, rfl, -⟩ | ⟨-, hold₁⟩ <;>
      rcases (inUse_setSlot hp).mp h₂ with ⟨rfl, rfl, -⟩ | ⟨-, hold₂⟩
    · rfl
    · exact absurd hkey.symm (findKey_eq_none.mp hk _ _ hold₂)
    · exact absurd hkey (findKey_eq_none.mp hk _ _ hold₁)
    · exact h.keys _ _ _ _ hold₁ hold₂ hkey

/-- Filling a free slot with an entry that is not in use changes no binding. -/
theorem fill (h : Represents table m) {p : ℕ × ℕ} {old new : DdfsDedup}
    (hp : slot table p = some old) (hfree : old.active = false) (hact : new.active = false) :
    Represents (setSlot table p new) m := by
  have hin : ∀ {q e}, InUse (setSlot table p new) q e ↔ InUse table q e := by
    intro q e
    rw [inUse_setSlot hp]
    constructor
    · rintro (⟨-, -, h⟩ | ⟨-, he⟩)
      · rw [hact] at h
        cases h
      · exact he
    · exact fun he => Or.inr ⟨ne_of_free hp hfree he, he⟩
  exact ⟨fun k b c => by simp only [hin]; exact h.find_iff k b c,
    fun p q e e' he he' => h.keys p q e e' (hin.mp he) (hin.mp he')⟩

/-- Freeing the slot of a binding drops it. -/
theorem free (h : Represents table m) {p : ℕ × ℕ} {e : DdfsDedup} (he : InUse table p e)
    {m' : RefMap Key ℤ} (hm' : ∀ k, m'.find k = if k = e.key then none else m.find k) :
    Represents (setSlot table p freeEntry) m' := by
  have hin : ∀ {q e'}, InUse (setSlot table p freeEntry) q e' ↔ q ≠ p ∧ InUse table q e' := by
    intro q e'
    rw [inUse_setSlot he.1]
    simp
  refine ⟨fun k b c => ?_, fun q₁ q₂ e₁ e₂ h₁ h₂ hk => ?_⟩
  · rw [hm']
    constructor
    · intro hf
      split at hf
      · cases hf
      · next hk =>
        obtain ⟨q, e', he', hkey, hrest⟩ := (h.find_iff k b c).mp hf
        have hqp : q ≠ p := by
          rintro rfl
          have heq : e' = e := Option.some.inj (he'.1.symm.trans he.1)
          exact hk (by rw [← hkey, heq])
        exact ⟨q, e', hin.mpr ⟨hqp, he'⟩, hkey, hrest⟩
    · rintro ⟨q, e', hq, hkey, hrest⟩
      obtain ⟨hqp, hq⟩ := hin.mp hq
      have hne : k ≠ e.key := by
        rintro rfl
        exact hqp (h.keys q p e' e hq he hkey)
      rw [if_neg hne]
      exact (h.find_iff k b c).mpr ⟨q, e', hq, hkey, hrest⟩
  · exact h.keys _ _ _ _ (hin.mp h₁).2 (hin.mp h₂).2 hk

/-- Counting a reference in a slot counts it in its binding. -/
theorem retain (h : Represents table m) {p : ℕ × ℕ} {e : DdfsDedup} (he : InUse table p e)
    (hcount : e.refCount.toNat < 65535) :
    Represents (setSlot table p { e with refCount := e.refCount + 1 }) (m.retain e.key) := by
  apply h.setCount he
  intro k
  by_cases hk : k = e.key
  · subst hk
    simp [RefMap.retain, h.find he, toNat_add_one hcount]
  · simp only [RefMap.retain, hk, if_false]
    cases m.find k <;> rfl

/-- The bindings after a release, seen from the slot of the released block. -/
theorem find_release (h : Represents table m) {p : ℕ × ℕ} {e : DdfsDedup}
    (he : InUse table p e) (k : Key) :
    (m.release e.blockptr).find k =
      if k = e.key then (if e.refCount.toNat = 1 then none
        else some (e.blockptr, e.refCount.toNat - 1)) else m.find k := by
  have hfe := h.find he
  by_cases hk : k = e.key
  · subst hk
    rw [if_pos rfl, RefMap.find_release_self hfe]
  · rw [if_neg hk]
    cases hf : m.find k with
    | none => simp [RefMap.release, hf]
    | some bc =>
      obtain ⟨b, c⟩ := bc
      apply RefMap.find_release_of_ne hf
      rintro rfl
      exact hk (m.inj hf hfe)

/-- Counting a reference less in a slot that keeps some releases its block. -/
theorem release_kept (h : Represents table m) {p : ℕ × ℕ} {e : DdfsDedup} (he : InUse table p e)
    (hone : e.refCount.toNat ≠ 1) :
    Represents (setSlot table p { e with refCount := e.refCount - 1 })
      (m.release e.blockptr) := by
  apply h.setCount he
  intro k
  rw [h.find_release he, if_neg hone, toNat_sub_one (m.pos (h.find he))]

/-- Freeing a slot with one reference releases its block. -/
theorem release_last (h : Represents table m) {p : ℕ × ℕ} {e : DdfsDedup} (he : InUse table p e)
    (hone : e.refCount.toNat = 1) :
    Represents (setSlot table p freeEntry) (m.release e.blockptr) := by
  apply h.free he
  intro k
  rw [h.find_release he, if_pos hone]

end Represents

theorem represents_mkfsTable (numBlocks : ℕ) : Represents (mkfsTable numBlocks) .empty where
  find_iff k b c := by
    constructor
    · intro hf
      cases hf
    · rintro ⟨p, e, he, -⟩
      exact absurd he not_inUse_mkfsTable
  keys _ _ _ _ h := absurd h not_inUse_mkfsTable

/-! ## The buffers -/

section Buffers

variable {table : DedupTable} {key : Key} {p : ℕ × ℕ} {e : DdfsDedup} {blk : ℤ}

/-- Allocating a key in the table leaves no buffer locked, unless a block before that of the
entry has a free slot; then it is the buffer of such a block. -/
theorem held_alloc_found (h : findKey key table = some (p, e)) {r : AllocResult}
    (hr : ddtableAlloc noErr table key blk zeroEntry = some r) :
    (∀ i ∈ r.held, i < p.1) ∧
      (r.held = [] ↔ ∀ q x, slot table q = some x → x.active = false → p.1 ≤ q.1) := by
  have hslot := (slot_of_findSlot h).1
  obtain ⟨herr, hbp, hidx⟩ := scanBlocks_hit h true ⟨-1, none, false⟩ []
  obtain ⟨kept, hheld, hlt, hkept⟩ := held_locate_found h
  rw [ddtableLocate] at hheld
  simp only [ddtableAlloc, ddtableLocate, herr, hbp, hidx, hheld, ne_eq, not_true_eq_false,
    if_false, slotAt_offset, hslot, Option.map_some, List.erase_cons_head, Option.some.injEq] at hr
  rw [← hr]
  exact ⟨hlt, hkept⟩

/-- Allocating a new key leaves no buffer locked. -/
theorem held_alloc_new (h : findKey key table = none) (hfree : findFree table = some (p, e))
    {r : AllocResult} (hr : ddtableAlloc noErr table key blk zeroEntry = some r) :
    r.held = [] := by
  have herr := scanBlocks_miss h true ⟨-1, none, false⟩ []
  have hspot := scanBlocks_miss_free h ⟨-1, none, false⟩ []
  have hheld := held_locate_new h hfree
  have hfree' : (scanFrom 0 table).find? (fun e => !e.2.active) = some (p, e) := hfree
  have hnonneg : ¬((p.2 : ℤ) * dedupSize < 0) := by
    have : (0 : ℤ) ≤ (p.2 : ℤ) * dedupSize := by positivity
    omega
  simp only [hfree', if_true] at hspot
  rw [ddtableLocate] at hheld
  simp only [ddtableAlloc, ddtableLocate, herr, hspot.1, hspot.2, hheld, ne_eq, one_ne_zero,
    not_false_eq_true, if_true, hnonneg, if_false, List.erase_cons_head, Option.some.injEq] at hr
  rw [← hr]

/-- `ddtable_unref` leaves no buffer locked. -/
theorem held_unref (table : DedupTable) (blk : ℤ) : (ddtableUnref noErr table blk).held = [] := by
  have hheld := held_locate_unref table blk
  rw [ddtableLocate] at hheld
  cases hfind : findBlock blk table with
  | none =>
    have herr := scanBlocks_miss hfind false ⟨-1, none, false⟩ []
    rw [hfind] at hheld
    simp [ddtableUnref, ddtableLocate, herr, hheld]
  | some r =>
    have hslot := (slot_of_findSlot hfind).1
    obtain ⟨herr, hbp, hidx⟩ := scanBlocks_hit hfind false ⟨-1, none, false⟩ []
    rw [hfind] at hheld
    simp [ddtableUnref, ddtableLocate, herr, hbp, hidx, hslot, hheld]

end Buffers

/-- The call returns, replies as the map does, and changes one slot as it should. -/
def Answered (s : BufferedTable) (m : RefMap Key ℤ) (call : RefMap.Call Key ℤ) : Prop :=
  ∃ reply s' m', ddtableCall s call = some (reply, s') ∧ RefMap.Step m (call, reply) m' ∧
    Represents s'.table m' ∧ SlotChange s.table call reply s'.table

/-- Where no buffer is left locked, an allocation gets all that it reads. -/
theorem ddtableCall_alloc {table : DedupTable} {key : Key} {blk : ℤ} {r : AllocResult}
    (hr : ddtableAlloc noErr table key blk zeroEntry = some r) :
    ddtableCall ⟨table, []⟩ (.alloc key blk) = some (.block r.outBlock, ⟨r.table, r.held⟩) := by
  simp [ddtableCall, hr]

/-- And so does a release. -/
theorem ddtableCall_unref (table : DedupTable) (blk : ℤ) :
    ddtableCall ⟨table, []⟩ (.unref blk) =
      some (if (ddtableUnref noErr table blk).ret = -1 then .absent
        else .count (ddtableUnref noErr table blk).ret.toNat,
        ⟨(ddtableUnref noErr table blk).table, []⟩) := by
  simp [ddtableCall, held_unref]

namespace Represents

variable {table : DedupTable} {m : RefMap Key ℤ} {p : ℕ × ℕ} {e : DdfsDedup}

/-- Allocating a key in the table is answered by one more reference. -/
theorem alloc_found (h : Represents table m) {key : Key} (hfind : findKey key table = some (p, e))
    (hcount : e.refCount.toNat < 65535) (blk : ℤ) : Answered ⟨table, []⟩ m (.alloc key blk) := by
  obtain ⟨he, rfl⟩ := inUse_of_findKey hfind
  obtain ⟨r, hr, htable, hout, -⟩ := ddtableAlloc_found hfind blk zeroEntry
  refine ⟨.block e.blockptr, ⟨r.table, r.held⟩, m.retain e.key, by rw [ddtableCall_alloc hr, hout],
    .hit (h.find he), ?_, p, e, he.1, Or.inr ⟨he.2, rfl, htable⟩⟩
  rw [htable]
  exact h.retain he hcount

/-- Allocating a new key is answered by a new binding. -/
theorem alloc_new (h : Represents table m) {key : Key} {blk : ℤ} (hfind : findKey key table = none)
    (hspot : ∃ p e, slot table p = some e ∧ e.active = false)
    (hblk : ∀ p e, InUse table p e → e.blockptr ≠ blk) :
    Answered ⟨table, []⟩ m (.alloc key blk) := by
  obtain ⟨p₀, e₀, hp₀, hfree₀⟩ := hspot
  obtain ⟨p, e, hfree⟩ := exists_findSlot (f := fun entry => !entry.active) hp₀ (by simp [hfree₀])
  obtain ⟨hp, hact⟩ := slot_of_findFree hfree
  obtain ⟨r, hr, htable, hout, -⟩ := ddtableAlloc_new hfind hfree blk zeroEntry
  have hb : ¬m.Holds blk := by
    rw [h.holds_iff]
    rintro ⟨q, e', he', heq⟩
    exact hblk q e' he' heq
  refine ⟨.block blk, ⟨r.table, r.held⟩, m.insert key blk hb, by rw [ddtableCall_alloc hr, hout],
    .new hb (h.find_eq_none hfind), ?_, p, e, hp, Or.inl ⟨hact, hfind, htable⟩⟩
  rw [htable]
  exact h.insert hp hact (newEntry_active key blk) rfl hfind hb

/-- Releasing a block with an entry is answered by one reference less. -/
theorem unref_found (h : Represents table m) {blk : ℤ} (hfind : findBlock blk table = some (p, e)) :
    Answered ⟨table, []⟩ m (.unref blk) := by
  obtain ⟨he, rfl⟩ := inUse_of_findBlock hfind
  obtain ⟨htable, hret⟩ := ddtableUnref_found hfind
  have hpos := m.pos (h.find he)
  have hdec := toNat_sub_one hpos
  have hzero : e.refCount - 1 = 0 ↔ e.refCount.toNat - 1 = 0 := by
    rw [count_eq_zero_iff, hdec]
  refine ⟨.count (e.refCount.toNat - 1), ⟨(ddtableUnref noErr table e.blockptr).table, []⟩,
    m.release e.blockptr, ?_, .drop (h.find he), ?_, p, e, he, rfl, ?_⟩
  · have hne : ((e.refCount.toNat - 1 : ℕ) : ℤ) ≠ -1 := by omega
    rw [ddtableCall_unref]
    simp only [hret, hdec]
    rw [if_neg hne, Int.toNat_natCast]
  · rw [htable]
    by_cases hone : e.refCount.toNat = 1
    · rw [if_pos (hzero.mpr (by omega))]
      exact h.release_last he hone
    · rw [if_neg (fun hz => hone (by have := hzero.mp hz; omega))]
      exact h.release_kept he hone
  · rw [htable]
    simp only [hzero]

/-- Releasing a block without an entry is answered by -1. -/
theorem unref_missing (h : Represents table m) {blk : ℤ} (hfind : findBlock blk table = none) :
    Answered ⟨table, []⟩ m (.unref blk) := by
  obtain ⟨htable, hret⟩ := ddtableUnref_missing hfind
  refine ⟨.absent, ⟨table, []⟩, m, by rw [ddtableCall_unref, htable, hret, if_pos rfl], ?_, h, rfl⟩
  apply RefMap.Step.absent
  rw [h.holds_iff]
  rintro ⟨p, e, he, hb⟩
  exact findBlock_eq_none.mp hfind p e he hb

/-- Every admissible call is answered. -/
theorem answered (h : Represents table m) {call : RefMap.Call Key ℤ}
    (hok : Admissible table call) : Answered ⟨table, []⟩ m call := by
  cases call with
  | alloc key blk =>
    cases hfind : findKey key table with
    | some pe =>
      obtain ⟨he, hk⟩ := inUse_of_findKey hfind
      exact h.alloc_found hfind (hok.2 _ _ he hk) blk
    | none => exact h.alloc_new hfind (hok.1 hfind).1 (hok.1 hfind).2
  | unref blk =>
    cases hfind : findBlock blk table with
    | some pe => exact h.unref_found hfind
    | none => exact h.unref_missing hfind

end Represents

/-- A call leaves a buffer locked if and only if its key is found behind a block with a free
slot. -/
theorem held_ddtableCall {table : DedupTable} {call : RefMap.Call Key ℤ}
    (hok : Admissible table call) {reply : RefMap.Reply ℤ} {s' : BufferedTable}
    (h : ddtableCall ⟨table, []⟩ call = some (reply, s')) :
    s'.held = [] ↔ Releases table call := by
  cases call with
  | unref blk =>
    rw [ddtableCall_unref, Option.some.injEq, Prod.mk.injEq] at h
    rw [← h.2]
    exact iff_of_true rfl trivial
  | alloc key blk =>
    cases hfind : findKey key table with
    | some pe =>
      obtain ⟨r, hr, -⟩ := ddtableAlloc_found hfind blk zeroEntry
      rw [ddtableCall_alloc hr, Option.some.injEq, Prod.mk.injEq] at h
      rw [← h.2, (held_alloc_found hfind hr).2]
      simp only [Releases, hfind, Option.some.injEq]
      constructor
      · rintro hall p e rfl
        exact hall
      · exact fun hall => hall pe.1 pe.2 rfl
    | none =>
      obtain ⟨p₀, e₀, hp₀, hfree₀⟩ := (hok.1 hfind).1
      obtain ⟨p, e, hfree⟩ :=
        exists_findSlot (f := fun entry => !entry.active) hp₀ (by simp [hfree₀])
      obtain ⟨r, hr, -⟩ := ddtableAlloc_new hfind hfree blk zeroEntry
      rw [ddtableCall_alloc hr, Option.some.injEq, Prod.mk.injEq] at h
      rw [← h.2]
      refine iff_of_true (held_alloc_new hfind hfree hr) fun p e hsome => ?_
      rw [hfind] at hsome
      cases hsome

/-- The table and its two calls simulate the reference-counted map, as long as the calls release
their buffers. -/
theorem dedup_simulation (numBlocks : ℕ) :
    (dedupMachine numBlocks).Simulation
      (fun s a => Admissible s.table a.1 ∧ Releases s.table a.1) (RefMap.machine Key ℤ)
      (fun s m => s.held = [] ∧ Represents s.table m) where
  init := by
    rintro s rfl
    exact ⟨_, rfl, rfl, represents_mkfsTable numBlocks⟩
  step := by
    rintro ⟨table, held⟩ ⟨call, reply⟩ s' m ⟨hheld, h⟩ ⟨hok, hrel⟩ hst
    simp only at hheld hok hrel
    subst hheld
    have hcall : ddtableCall ⟨table, []⟩ call = some (reply, s') := hst
    obtain ⟨reply', s'', m', hcall', hstep, hrep, -⟩ := h.answered hok
    rw [hcall, Option.some.injEq, Prod.mk.injEq] at hcall'
    obtain ⟨rfl, rfl⟩ := hcall'
    exact ⟨m', hstep, (held_ddtableCall hok hcall).mpr hrel, hrep⟩

/-- The deduplication table refines a reference-counted map, as long as no key is found behind a
block with a free slot. Every run of such admissible calls on a table of any number of blocks is,
call by call and reply by reply, a run of the map from the empty one, and leaves no buffer locked;
and wherever the run has got to, every further admissible call returns, replies as the map does
and changes one slot as it should, and leaves a buffer locked if and only if its key is found
behind a block with a free slot. -/
theorem dedupTable_refines_refMap (numBlocks : ℕ)
    {calls : List (RefMap.Call Key ℤ × RefMap.Reply ℤ)} {s : BufferedTable}
    (hrun : (dedupMachine numBlocks).Run
      (fun s a => Admissible s.table a.1 ∧ Releases s.table a.1)
      ⟨mkfsTable numBlocks, []⟩ calls s) :
    ∃ m, (RefMap.machine Key ℤ).Run (fun _ _ => True) .empty calls m ∧ Represents s.table m ∧
      s.held = [] ∧ ∀ call, Admissible s.table call → Answered s m call ∧
        ∀ reply s', ddtableCall s call = some (reply, s') →
          (s'.held = [] ↔ Releases s.table call) := by
  obtain ⟨m, hm, hheld, hrep⟩ :=
    (dedup_simulation numBlocks).run hrun ⟨rfl, represents_mkfsTable numBlocks⟩
  obtain ⟨table, held⟩ := s
  simp only at hheld hrep
  subst hheld
  exact ⟨m, hm, hrep, rfl, fun call hok =>
    ⟨hrep.answered hok, fun reply s' hcall => held_ddtableCall hok hcall⟩⟩

/-! ## A table of two blocks -/

/-- The `n`-th key that is allocated. -/
def nthKey (n : ℕ) : Key := Vector.replicate 20 (UInt8.ofNat n)

/-- The `n`-th slot of a table. -/
def nthSlot (n : ℕ) : ℕ × ℕ := (n / entriesPerBlock, n % entriesPerBlock)

/-- The table of two blocks after `n` keys have been allocated. -/
def filledTable : ℕ → DedupTable
  | 0 => mkfsTable 2
  | n + 1 => setSlot (filledTable n) (nthSlot n) (newEntry (nthKey n) n)

/-- The calls that fill it. -/
def fillCalls : ℕ → List (RefMap.Call Key ℤ × RefMap.Reply ℤ)
  | 0 => []
  | n + 1 => fillCalls n ++ [(.alloc (nthKey n) n, .block n)]

section Filled

variable {n k : ℕ} {q : ℕ × ℕ} {e : DdfsDedup}

theorem nthKey_inj (hn : n < 256) (hk : k < 256) (h : nthKey n = nthKey k) : n = k := by
  have hbyte := congrArg (fun key : Key => key[0].toNat) h
  simp only [nthKey, Vector.getElem_replicate, UInt8.toNat_ofNat'] at hbyte
  omega

theorem nthSlot_inj (h : nthSlot n = nthSlot k) : n = k := by
  simp only [nthSlot, entriesPerBlock, dedupSize, Prod.mk.injEq] at h
  omega

/-- The slots in the order of a search. -/
theorem le_of_nthSlot_le (h : toLex (nthSlot n) ≤ toLex (nthSlot k)) : n ≤ k := by
  simp only [nthSlot, entriesPerBlock, dedupSize, Prod.Lex.toLex_le_toLex] at h
  omega

/-- A slot of the table is one of the 256. -/
theorem eq_nthSlot (h : slot (filledTable n) q = some e) : ∃ k < 256, q = nthSlot k := by
  induction n generalizing e with
  | zero =>
    obtain ⟨row, hrow, hget⟩ := Option.bind_eq_some_iff.mp h
    obtain ⟨hi, rfl⟩ := List.getElem?_eq_some_iff.mp hrow
    obtain ⟨hk, -⟩ := List.getElem?_eq_some_iff.mp hget
    simp only [filledTable, mkfsTable, entriesPerBlock, dedupSize, List.length_replicate,
      List.getElem_replicate] at hi hk
    refine ⟨q.1 * 128 + q.2, by omega, Prod.ext ?_ ?_⟩
    · simp only [nthSlot, entriesPerBlock, dedupSize]
      omega
    · simp only [nthSlot, entriesPerBlock, dedupSize]
      omega
  | succ n ih =>
    rw [filledTable, slot_setSlot] at h
    split at h
    · next hq =>
      subst hq
      obtain ⟨e', he', -⟩ := Option.map_eq_some_iff.mp h
      exact ih he'
    · exact ih h

/-- The first `n` slots have the keys that were allocated, the others are free. -/
theorem slot_filled (hk : k < 256) :
    slot (filledTable n) (nthSlot k) =
      some (if k < n then newEntry (nthKey k) k else freeEntry) := by
  induction n with
  | zero =>
    have hi : k / entriesPerBlock < 2 := by
      simp only [entriesPerBlock, dedupSize]
      omega
    have hj : k % entriesPerBlock < entriesPerBlock := Nat.mod_lt _ (by decide)
    simp only [slot, filledTable, mkfsTable, nthSlot, List.getElem?_replicate, hi, hj, if_true,
      Option.bind_some, Nat.not_lt_zero, if_false]
  | succ n ih =>
    rw [filledTable]
    by_cases hkn : k = n
    · subst hkn
      rw [slot_setSlot_self ih, if_pos (Nat.lt_succ_self k)]
    · rw [slot_setSlot_of_ne _ fun h => hkn (nthSlot_inj h), ih]
      have hlt : k < n ↔ k < n + 1 := by omega
      simp only [hlt]

/-- The entries in use. -/
theorem inUse_filled (h : InUse (filledTable n) q e) :
    ∃ k < 256, k < n ∧ q = nthSlot k ∧ e = newEntry (nthKey k) k := by
  obtain ⟨k, hk, rfl⟩ := eq_nthSlot h.1
  have he := h.1
  rw [slot_filled hk, Option.some.injEq] at he
  by_cases hkn : k < n
  · rw [if_pos hkn] at he
    exact ⟨k, hk, hkn, rfl, he.symm⟩
  · rw [if_neg hkn] at he
    have hact := h.2
    rw [← he, freeEntry_active] at hact
    cases hact

theorem findKey_filled_none (hn : n < 256) : findKey (nthKey n) (filledTable n) = none := by
  rw [findKey_eq_none]
  intro q e he hkey
  obtain ⟨k, hk, hlt, -, rfl⟩ := inUse_filled he
  have heq := nthKey_inj hk hn hkey
  omega

/-- The search for a free slot comes to the slot behind those that are filled. -/
theorem findFree_filled (hn : n < 256) :
    findFree (filledTable n) = some (nthSlot n, freeEntry) := by
  have hslot := slot_filled (n := n) hn
  rw [if_neg (Nat.lt_irrefl n)] at hslot
  obtain ⟨q, e, hfind⟩ :=
    exists_findSlot (f := fun entry : DdfsDedup => !entry.active) hslot (by simp)
  obtain ⟨hq, hact⟩ := slot_of_findFree hfind
  have hle := (isFirst_of_findSlot hfind).2 ⟨freeEntry, hslot, by simp⟩
  obtain ⟨k, hk, rfl⟩ := eq_nthSlot hq
  have hkn := le_of_nthSlot_le hle
  have he := hq
  rw [slot_filled hk, Option.some.injEq] at he
  have hge : ¬k < n := by
    intro hlt
    rw [if_pos hlt] at he
    rw [← he, newEntry_active] at hact
    cases hact
  obtain rfl : k = n := by omega
  rw [if_neg hge] at he
  rw [findFree, hfind, he]

/-- The keys are allocated one after the other, and no buffer is left locked. -/
theorem run_filled (hn : n ≤ 256) :
    (dedupMachine 2).Run (fun s a => Admissible s.table a.1 ∧ Releases s.table a.1)
      ⟨mkfsTable 2, []⟩ (fillCalls n) ⟨filledTable n, []⟩ := by
  induction n with
  | zero => exact .nil _
  | succ n ih =>
    have hlt : n < 256 := hn
    have hnone := findKey_filled_none hlt
    have hfree := findFree_filled hlt
    obtain ⟨r, hr, htable, hout, -⟩ := ddtableAlloc_new hnone hfree n zeroEntry
    have hheld := held_alloc_new hnone hfree hr
    refine .snoc (ih (Nat.le_of_lt hlt)) ⟨⟨fun _ => ⟨?_, ?_⟩, ?_⟩, ?_⟩ ?_
    · obtain ⟨hslot, hact⟩ := slot_of_findFree hfree
      exact ⟨_, _, hslot, hact⟩
    · intro p e he hblk
      obtain ⟨k, -, hkn, -, rfl⟩ := inUse_filled he
      have heq : (k : ℤ) = n := hblk
      omega
    · intro p e he hkey
      exact absurd hkey (findKey_eq_none.mp hnone p e he)
    · intro p e hsome
      rw [hnone] at hsome
      cases hsome
    · have hcall := ddtableCall_alloc hr
      rw [hheld, hout, htable] at hcall
      exact hcall

/-- A key that was allocated is found in its slot. -/
theorem findKey_filled (hk : k < n) (hn : n ≤ 256) :
    findKey (nthKey k) (filledTable n) = some (nthSlot k, newEntry (nthKey k) k) := by
  have hslot := slot_filled (n := n) (show k < 256 by omega)
  rw [if_pos hk] at hslot
  apply findKey_of_inUse (e := newEntry (nthKey k) k) ⟨hslot, newEntry_active _ _⟩
  intro q e he hkey
  obtain ⟨j, hj, -, rfl, rfl⟩ := inUse_filled he
  rw [nthKey_inj hj (by omega) hkey]

/-- After 129 keys all free slots are in the second block. -/
theorem releases_filled (hk : k < 129) (blk : ℤ) :
    Releases (filledTable 129) (.alloc (nthKey k) blk) := by
  intro p e hfind q x hq hact
  rw [findKey_filled hk (by decide), Option.some.injEq, Prod.mk.injEq] at hfind
  obtain ⟨j, hj, rfl⟩ := eq_nthSlot hq
  rw [slot_filled hj, Option.some.injEq] at hq
  rw [← hfind.1]
  simp only [nthSlot, entriesPerBlock, dedupSize]
  by_cases hlt : j < 129
  · rw [if_pos hlt] at hq
    rw [← hq, newEntry_active] at hact
    cases hact
  · omega

/-- A key of the filled table may be allocated again. -/
theorem admissible_filled (hk : k < n) (hn : n ≤ 256) (blk : ℤ) :
    Admissible (filledTable n) (.alloc (nthKey k) blk) := by
  refine ⟨fun hnone => ?_, fun p e he _ => ?_⟩
  · rw [findKey_filled hk hn] at hnone
    cases hnone
  · obtain ⟨j, -, -, -, rfl⟩ := inUse_filled he
    exact (by decide : (1 : UInt16).toNat < 65535)

/-- It is allocated again. -/
theorem run_again (hk : k < n) (hn : n ≤ 256) {blk : ℤ}
    (hrel : Releases (filledTable n) (.alloc (nthKey k) blk)) :
    ∃ s, (dedupMachine 2).Run (fun s a => Admissible s.table a.1 ∧ Releases s.table a.1)
      ⟨mkfsTable 2, []⟩ (fillCalls n ++ [(.alloc (nthKey k) blk, .block k)]) s := by
  obtain ⟨r, hr, -, hout, -⟩ := ddtableAlloc_found (findKey_filled hk hn) blk zeroEntry
  have hcall := ddtableCall_alloc hr
  rw [hout] at hcall
  exact ⟨⟨r.table, r.held⟩, .snoc (run_filled hn) ⟨admissible_filled hk hn blk, hrel⟩ hcall⟩

/-- The last of 129 keys is in the second block. It is allocated again, and found behind a block
that is full. -/
theorem dedupTable_refines_refMap_behind :
    ∃ s m, (RefMap.machine Key ℤ).Run (fun _ _ => True) .empty
        (fillCalls 129 ++ [(.alloc (nthKey 128) 300, .block (128 : ℕ))]) m ∧
      Represents s.table m ∧ s.held = [] ∧ ∀ call, Admissible s.table call → Answered s m call ∧
        ∀ reply s', ddtableCall s call = some (reply, s') →
          (s'.held = [] ↔ Releases s.table call) := by
  obtain ⟨s, hrun⟩ :=
    run_again (by decide) (by decide) (releases_filled (show 128 < 129 by decide) 300)
  exact ⟨s, dedupTable_refines_refMap 2 hrun⟩

/-! ## A free slot in front of a key -/

/-- The filled table where the slot of the first key is free again. -/
def holed (n : ℕ) : DedupTable := setSlot (filledTable n) (nthSlot 0) freeEntry

/-- The slot of the first key. -/
theorem slot_first (hn : 0 < n) :
    slot (filledTable n) (nthSlot 0) = some (newEntry (nthKey 0) (0 : ℕ)) := by
  rw [slot_filled (by decide), if_pos hn]

theorem inUse_holed (hn : 0 < n) (h : InUse (holed n) q e) : InUse (filledTable n) q e := by
  rcases (inUse_setSlot (slot_first hn)).mp h with ⟨-, rfl, hact⟩ | ⟨-, he⟩
  · rw [freeEntry_active] at hact
    cases hact
  · exact he

/-- The reference to the first block is given up. -/
theorem ddtableCall_first (hn : 0 < n) :
    ddtableCall ⟨filledTable n, []⟩ (.unref 0) = some (.count 0, ⟨holed n, []⟩) := by
  have hfind : findBlock 0 (filledTable n) = some (nthSlot 0, newEntry (nthKey 0) (0 : ℕ)) := by
    apply findSlot_eq_of_unique (slot_first hn) (by decide)
    intro q e hq hhit
    simp only [hits, targetMatches, Bool.and_eq_true, beq_iff_eq] at hhit
    obtain ⟨k, -, -, rfl, rfl⟩ := inUse_filled ⟨hq, hhit.1⟩
    obtain rfl : k = 0 := Int.ofNat_eq_zero.mp hhit.2
    rfl
  obtain ⟨htable, hret⟩ := ddtableUnref_found hfind
  rw [ddtableCall_unref, htable, hret]
  rfl

/-- The keys behind it are still found. -/
theorem findKey_holed (hk : 0 < k) (hkn : k < n) (hn : n ≤ 256) :
    findKey (nthKey k) (holed n) = some (nthSlot k, newEntry (nthKey k) k) := by
  have hpos : 0 < n := Nat.lt_trans hk hkn
  have hslot := slot_filled (n := n) (show k < 256 by omega)
  rw [if_pos hkn] at hslot
  have hne : nthSlot k ≠ nthSlot 0 := fun h => (Nat.ne_of_gt hk) (nthSlot_inj h)
  apply findKey_of_inUse (e := newEntry (nthKey k) k)
  · exact (inUse_setSlot (slot_first hpos)).mpr (Or.inr ⟨hne, hslot, newEntry_active _ _⟩)
  · intro q e he hkey
    obtain ⟨j, hj, -, rfl, rfl⟩ := inUse_filled (inUse_holed hpos he)
    rw [nthKey_inj hj (by omega) hkey]

/-- The calls that fill the table, give up the first block and allocate a key again. -/
def leakCalls (n k : ℕ) : List (RefMap.Call Key ℤ × RefMap.Reply ℤ) :=
  fillCalls n ++ [(.unref 0, .count 0)] ++ [(.alloc (nthKey k) 300, .block k)]

/-- If the key is in the second block, the buffer of the first one is left locked. -/
theorem run_leak (hk : 128 ≤ k) (hkn : k < n) (hn : n ≤ 256) :
    ∃ s, (dedupMachine 2).Run (fun s a => Admissible s.table a.1) ⟨mkfsTable 2, []⟩
      (leakCalls n k) s ∧ 0 ∈ s.held ∧ 0 < s.table.length := by
  have hpos : 0 < n := by omega
  have hfind := findKey_holed (show 0 < k by omega) hkn hn
  obtain ⟨r, hr, htable, hout, -⟩ := ddtableAlloc_found hfind 300 zeroEntry
  have hcall := ddtableCall_alloc hr
  rw [hout] at hcall
  have hfill := (run_filled hn).mono fun _ _ h => h.1
  have hfree : slot (holed n) (nthSlot 0) = some freeEntry := slot_setSlot_self (slot_first hpos) _
  obtain ⟨hlt, hnil⟩ := held_alloc_found hfind hr
  refine ⟨⟨r.table, r.held⟩, .snoc (.snoc hfill trivial (ddtableCall_first hpos)) ?_ hcall, ?_, ?_⟩
  · refine ⟨fun hnone => ?_, fun p e he _ => ?_⟩
    · rw [hfind] at hnone
      cases hnone
    · obtain ⟨j, -, -, -, rfl⟩ := inUse_filled (inUse_holed hpos he)
      exact (by decide : (1 : UInt16).toNat < 65535)
  · cases hheld : r.held with
    | nil =>
      have hle := hnil.mp hheld _ _ hfree freeEntry_active
      simp only [nthSlot, entriesPerBlock, dedupSize] at hle
      omega
    | cons i rest =>
      have hi := hlt i (by rw [hheld]; exact List.mem_cons_self ..)
      simp only [nthSlot, entriesPerBlock, dedupSize] at hi
      obtain rfl : i = 0 := by omega
      exact List.mem_cons_self ..
  · rw [htable, setSlot, List.length_modify]
    exact Nat.zero_lt_of_lt (row_lt_length hfree)

end Filled

/-- Every call reads the first block of a table. -/
theorem bread_mem_callEvents {table : DedupTable} (h : 0 < table.length)
    (call : RefMap.Call Key ℤ) : .bread 0 ∈ callEvents table call := by
  have hlocate : ∀ key targetblock wantFree fs,
      .bread 0 ∈ locateEvents key targetblock wantFree 0 table fs := by
    intro key targetblock wantFree fs
    cases table with
    | nil => exact absurd h (Nat.lt_irrefl 0)
    | cons block rest =>
      rw [locateEvents]
      split
      · exact List.mem_singleton_self _
      · split <;> exact List.mem_cons_self ..
  cases call with
  | alloc key blk => exact List.mem_append_left _ (hlocate _ _ _ _)
  | unref blk =>
    rw [callEvents, unrefEvents]
    split
    · exact hlocate _ _ _ _
    · exact List.mem_append_left _ (hlocate _ _ _ _)

/-- With the first block of the table full and a key in the second one, the last reference to a
block of the first one is given up and the key is allocated once more. From then on no call
returns. -/
theorem dedupTable_refines_refMap_fails : ¬∀ (numBlocks : ℕ)
    (calls : List (RefMap.Call Key ℤ × RefMap.Reply ℤ)) (s : BufferedTable),
    (dedupMachine numBlocks).Run (fun s a => Admissible s.table a.1) ⟨mkfsTable numBlocks, []⟩
      calls s →
    ∃ m, (RefMap.machine Key ℤ).Run (fun _ _ => True) .empty calls m ∧ Represents s.table m ∧
      ∀ call, Admissible s.table call → Answered s m call := by
  intro hall
  obtain ⟨s, hrun, hheld, hlength⟩ :=
    run_leak (n := 129) (k := 128) (by decide) (by decide) (by decide)
  obtain ⟨m, -, -, hanswered⟩ := hall 2 _ s hrun
  obtain ⟨reply, s', m', hcall, -⟩ := hanswered (.unref 300) trivial
  rw [ddtableCall, if_pos ⟨0, hheld, bread_mem_callEvents hlength _⟩] at hcall
  cases hcall

end EmbeddedOs.Ddfs
