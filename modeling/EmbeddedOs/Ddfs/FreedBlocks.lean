import EmbeddedOs.Ddfs.RefCounts

/-!
# What is given up

Which blocks the functions give up: `ffs_blkfree` frees a block with its last reference, the
deduplication step gives up the block of the file when it switches to another one, and the end
of a truncation those behind the new end.
-/

namespace EmbeddedOs.Ddfs

open Lib Lib.SlotTable

variable {ι : Type} [DecidableEq ι] {s t : Fs ι} {f : ι} {lbn : Fin 12} {b b' : ℤ}

/-- The entry of a block counts one reference, if the block has an entry. -/
def LastRef (table : DedupTable) (b : ℤ) : Prop :=
  ∀ q e, findBlock b table = some (q, e) → e.refCount = 1

omit [DecidableEq ι] in
/-- `ffs_blkfree` frees no other block. -/
theorem freeMap_ffsBlkfree_of_ne (s : Fs ι) (h : b' ≠ b) :
    (ffsBlkfree s b).freeMap b' = s.freeMap b' := by
  rcases ffsBlkfree_cases s b with ⟨_, _, -, -, ht⟩ | ⟨_, _, -, -, ht⟩ | ⟨-, ht⟩
  · rw [ht]
    rfl
  · rw [ht, Fs.freeMap_free, if_neg h]
    rfl
  · rw [ht, Fs.freeMap_free, if_neg h]

omit [DecidableEq ι] in
/-- `ffs_blkfree` takes no block. -/
theorem freeMap_ffsBlkfree_mono (b : ℤ) (h : s.freeMap b' = true) :
    (ffsBlkfree s b).freeMap b' = true := by
  by_cases hb : b' = b
  · subst hb
    rcases ffsBlkfree_cases s b' with ⟨_, _, -, -, ht⟩ | ⟨_, _, -, -, ht⟩ | ⟨-, ht⟩
    · rw [ht]
      exact h
    · rw [ht, Fs.freeMap_free, if_pos rfl]
    · rw [ht, Fs.freeMap_free, if_pos rfl]
  · rw [freeMap_ffsBlkfree_of_ne s hb]
    exact h

omit [DecidableEq ι] in
/-- With its last reference a block is freed. -/
theorem freeMap_ffsBlkfree_last (h : LastRef s.table b) : (ffsBlkfree s b).freeMap b = true := by
  rcases ffsBlkfree_cases s b with ⟨p, e, hfind, hone, -⟩ | ⟨_, _, -, -, ht⟩ | ⟨-, ht⟩
  · exact absurd (h p e hfind) hone
  · rw [ht, Fs.freeMap_free, if_pos rfl]
  · rw [ht, Fs.freeMap_free, if_pos rfl]

/-- The deduplication step frees no block but that of the file. -/
theorem freeMap_dedupBlock_of_ne {hash : Key} {entry : DdfsDedup}
    (h : dedupBlock s f lbn hash entry = some t) (hb : b ≠ s.ptr f lbn) :
    t.freeMap b = s.freeMap b := by
  rcases dedupBlock_cases h with ⟨p, old, -, -, rfl⟩ | ⟨p, e, -, -, rfl⟩ | ⟨p, e, -, -, rfl⟩
  · rfl
  · rfl
  · rw [freeMap_ffsBlkfree_of_ne _ hb]
    rfl

theorem ptr_dedupBlock_of_ne {hash : Key} {entry : DdfsDedup} {g : ι} {i : Fin 12}
    (h : dedupBlock s f lbn hash entry = some t) (hg : ¬(g = f ∧ i = lbn)) :
    t.ptr g i = s.ptr g i := by
  rcases dedupBlock_cases h with ⟨p, old, -, -, rfl⟩ | ⟨p, e, -, -, rfl⟩ | ⟨p, e, -, -, rfl⟩
  · rfl
  · rfl
  · rw [ptr_ffsBlkfree, Fs.ptr_setPtr, if_neg hg]
    rfl

theorem bufs_dedupBlock {hash : Key} {entry : DdfsDedup}
    (h : dedupBlock s f lbn hash entry = some t) : t.bufs = s.bufs := by
  rcases dedupBlock_cases h with ⟨p, old, -, -, rfl⟩ | ⟨p, e, -, -, rfl⟩ | ⟨p, e, -, -, rfl⟩
  · rfl
  · rfl
  · rw [bufs_ffsBlkfree]
    rfl

variable [Fintype ι]

omit [DecidableEq ι] in
/-- The block of a pointer is not free. -/
theorem Counted.ptr_not_free {rel : ℕ → ℕ → Prop} (h : Counted rel s) (g : ι) (i : Fin 12) :
    s.freeMap (s.ptr g i) = false := by
  obtain ⟨m, -, hacc⟩ := h.accounts
  rw [← Bool.not_eq_true]
  intro hfree
  exact (s.refs_pos g i).ne' (hacc.free_refs hfree)

omit [DecidableEq ι] in
/-- The block of an entry is not free. -/
theorem Counted.entry_not_free {rel : ℕ → ℕ → Prop} (h : Counted rel s) {p : ℕ × ℕ}
    {e : DdfsDedup} (he : InUse s.table p e) : s.freeMap e.blockptr = false := by
  obtain ⟨m, hrep, hacc⟩ := h.accounts
  rw [← Bool.not_eq_true]
  exact fun hfree => hacc.free_holds hfree (hrep.holds_iff.mpr ⟨p, e, he, rfl⟩)

omit [DecidableEq ι] in
/-- A free block has no entry. -/
theorem Counted.lastRef_of_free {rel : ℕ → ℕ → Prop} (h : Counted rel s)
    (hfree : s.freeMap b = true) : LastRef s.table b := by
  intro q e hfind
  obtain ⟨he, rfl⟩ := inUse_of_findBlock hfind
  rw [h.entry_not_free he] at hfree
  cases hfree

omit [DecidableEq ι] in
/-- Every entry of a block has the count of the one that is found. -/
theorem Counted.refCount_eq_one {rel : ℕ → ℕ → Prop} (h : Counted rel s)
    (hlast : LastRef s.table b) {p : ℕ × ℕ} {e : DdfsDedup} (he : InUse s.table p e)
    (hb : e.blockptr = b) : e.refCount = 1 := by
  obtain ⟨m, hrep, -⟩ := h.accounts
  cases hfind : findBlock b s.table with
  | none => exact absurd hb (findBlock_eq_none.mp hfind p e he)
  | some qe =>
    obtain ⟨q, e'⟩ := qe
    obtain ⟨he', hb'⟩ := inUse_of_findBlock hfind
    obtain rfl := hrep.blocks he he' (hb.trans hb'.symm)
    rw [Option.some.inj (he.1.symm.trans he'.1)]
    exact hlast p e' hfind

/-- The deduplication step keeps the block of the file, or switches to that of the entry it
found and frees the other one, if it has the last reference. -/
theorem Counted.kept_or_freed {rel : ℕ → ℕ → Prop} (h : Counted rel s) {hash : Key}
    {entry : DdfsDedup} (hdedup : Ddfs.dedupBlock s f lbn hash entry = some t)
    (hlast : ∀ p e, findKey hash s.table = some (p, e) → e.blockptr ≠ s.ptr f lbn →
      LastRef s.table (s.ptr f lbn)) :
    t.ptr f lbn = s.ptr f lbn ∨
    ∃ p e, findKey hash s.table = some (p, e) ∧ e.blockptr ≠ s.ptr f lbn ∧
      t.ptr f lbn = e.blockptr ∧ t.freeMap (s.ptr f lbn) = true := by
  rcases dedupBlock_cases hdedup with ⟨p, old, -, -, rfl⟩ | ⟨p, e, -, -, rfl⟩ |
    ⟨p, e, hkey, hother, rfl⟩
  · exact Or.inl rfl
  · exact Or.inl rfl
  · refine Or.inr ⟨p, e, hkey, hother, by rw [ptr_ffsBlkfree, Fs.ptr_setPtr_self], ?_⟩
    obtain ⟨he, -⟩ := inUse_of_findKey hkey
    apply freeMap_ffsBlkfree_last
    intro q e' hfind
    obtain ⟨he', hb⟩ := inUse_of_findBlock hfind
    rcases (inUse_setSlot he.1).mp he' with ⟨-, rfl, -⟩ | ⟨-, he'⟩
    · exact absurd hb hother
    · exact h.refCount_eq_one (hlast p e hkey hother) he' hb

omit [Fintype ι] in
/-- The end of a truncation takes no block. -/
theorem freeMap_truncTail_mono (f : ι) (length : ℕ) (h : s.freeMap b = true) :
    (truncTail s f length).freeMap b = true :=
  truncTail_rule (I := fun t => t.freeMap b = true) h (fun h => h)
    (fun h _ => freeMap_ffsBlkfree_mono _ (by simpa using h)) (fun h => by simpa using h)

omit [DecidableEq ι] in
/-- Giving up another block leaves the entry of a block alone. -/
theorem Counted.lastRef_ffsBlkfree {rel : ℕ → ℕ → Prop} (hs : Counted rel s)
    (htable : t.table = s.table) (hb : b' ≠ b) (h : LastRef s.table b) :
    LastRef (Ddfs.ffsBlkfree t b').table b := by
  have hone : ∀ p e, InUse t.table p e → e.blockptr = b → e.refCount = 1 := by
    intro p e he
    rw [htable] at he
    exact hs.refCount_eq_one h he
  rintro p e hfind
  obtain ⟨he, hbe⟩ := inUse_of_findBlock hfind
  rcases ffsBlkfree_cases t b' with ⟨q, e', hfind', -, ht⟩ | ⟨q, e', hfind', -, ht⟩ | ⟨-, ht⟩
  · obtain ⟨he', hb'⟩ := inUse_of_findBlock hfind'
    rw [ht] at he
    rcases (inUse_setSlot he'.1).mp he with ⟨-, rfl, -⟩ | ⟨-, he⟩
    · exact absurd (hb'.symm.trans hbe) hb
    · exact hone p e he hbe
  · obtain ⟨he', hb'⟩ := inUse_of_findBlock hfind'
    rw [ht] at he
    rcases (inUse_setSlot he'.1).mp he with ⟨-, rfl, hact⟩ | ⟨-, he⟩
    · cases hact
    · exact hone p e he hbe
  · rw [ht] at he
    exact hone p e he hbe

/-- Block `b` is free, or the file still has it, as one of the blocks `is`, with the last
reference; the release of one of them keeps this up. -/
theorem Counted.releaseDirect_frees (hs : Counted (· ≤ ·) s) (hb : b ≠ 0) {i j : Fin 12}
    {is : List (Fin 12)}
    (h : s.freeMap b = true ∨ i ∈ j :: is ∧ s.ptr f i = b ∧ LastRef s.table b) :
    (Ddfs.releaseDirect f s j).freeMap b = true ∨ i ∈ is ∧
      (Ddfs.releaseDirect f s j).ptr f i = b ∧ LastRef (Ddfs.releaseDirect f s j).table b := by
  by_cases hj : s.ptr f j = 0
  · rw [releaseDirect_hole hj]
    refine h.imp id fun ⟨hmem, hi, hlast⟩ => ⟨(List.mem_cons.mp hmem).resolve_left ?_, hi, hlast⟩
    rintro rfl
    exact hb (hi.symm.trans hj)
  · rw [Ddfs.releaseDirect, if_neg hj]
    rcases h with hfree | ⟨hmem, hi, hlast⟩
    · exact Or.inl (freeMap_ffsBlkfree_mono _ hfree)
    · by_cases hji : j = i
      · subst hji
        rw [hi]
        exact Or.inl (freeMap_ffsBlkfree_last hlast)
      · have hne : s.ptr f j ≠ b := by
          intro heq
          have hptr : s.ptr f i ≠ 0 := by rwa [hi]
          exact hji (hs.unshared hptr (hi.symm ▸ hlast) (heq.trans hi.symm) rfl).2
        refine Or.inr ⟨(List.mem_cons.mp hmem).resolve_left (Ne.symm hji), ?_,
          hs.lastRef_ffsBlkfree rfl hne hlast⟩
        rw [ptr_ffsBlkfree, Fs.ptr_setPtr, if_neg (fun hc => hji hc.2.symm)]
        exact hi

/-- A block behind the new end with the last reference is freed. -/
theorem Counted.truncTail_frees (h : Counted (· ≤ ·) s) {length : ℕ} {i : Fin 12}
    (hi : (length + 4095) / 4096 ≤ i.val) (hptr : s.ptr f i ≠ 0)
    (hlast : LastRef s.table (s.ptr f i)) :
    (Ddfs.truncTail s f length).freeMap (s.ptr f i) = true := by
  have hfold : ∀ (is : List (Fin 12)) (u : Fs ι), Counted (· ≤ ·) u →
      (u.freeMap (s.ptr f i) = true ∨ i ∈ is ∧ u.ptr f i = s.ptr f i ∧
        LastRef u.table (s.ptr f i)) →
      (is.foldl (releaseDirect f) u).freeMap (s.ptr f i) = true := by
    intro is
    induction is with
    | nil => exact fun u _ hcases => hcases.resolve_right fun ⟨hmem, _⟩ => by cases hmem
    | cons j is ih =>
      intro u hu hcases
      rw [List.foldl_cons]
      refine ih _ ?_ (hu.releaseDirect_frees hptr hcases)
      by_cases hj : u.ptr f j = 0
      · rwa [releaseDirect_hole hj]
      · rw [releaseDirect, if_neg hj]
        exact hu.release countRel_le hj
  have hkept : Counted (· ≤ ·) (s.vtruncbuf f ((length + 4095) / 4096)) :=
    h.congr rfl rfl rfl rfl
  have hmem : i ∈ directDown ((length + 4095) / 4096) := by simpa [directDown] using hi
  exact hfold _ _ hkept (Or.inr ⟨hmem, rfl, hlast⟩)

end EmbeddedOs.Ddfs
