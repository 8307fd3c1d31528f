import EmbeddedOs.Ddfs.DedupRefines
import EmbeddedOs.Ddfs.Runs
import EmbeddedOs.Lib.RefCount
import Mathlib.Data.Fintype.Prod

/-!
# Reference counts and free blocks

The table accounts for the block pointers as long as no second entry is made for a block
that has one and no count wraps around. Both happen: `ffs_write` never gives up the entry of
a block it overwrites in place. Along the runs that avoid this no block is freed that is
still in use, and along those that also never look up the key a block already has the
counts are exact.
-/

namespace EmbeddedOs.Ddfs

open Lib Lib.SlotTable

variable {ι : Type}

/-- No block pointer and no entry names the block at the moment it is freed. -/
structure FreeEvent.Unused (ev : FreeEvent ι) : Prop where
  /-- No block pointer has the block. -/
  ptr : ∀ f i, (ev.inodes f).diDb i ≠ ev.bno
  /-- No entry in use has the block. -/
  entry : ∀ p e, InUse ev.table p e → e.blockptr ≠ ev.bno

variable [Fintype ι]

/-- The number of block pointers to a block. -/
def Fs.refs (s : Fs ι) (b : ℤ) : ℕ := Lib.refs (fun p : ι × Fin 12 => s.ptr p.1 p.2) b

/-- The references depend on the pointers only. -/
theorem Fs.refs_congr {s t : Fs ι} (h : t.ptr = s.ptr) : t.refs = s.refs := by
  funext b
  simp only [Fs.refs, h]

/-- The block of a pointer has a reference. -/
theorem Fs.refs_pos (s : Fs ι) (f : ι) (i : Fin 12) : 0 < s.refs (s.ptr f i) :=
  Nat.pos_of_ne_zero (fun h => Lib.refs_eq_zero.mp h (f, i) rfl)

/-- The table represents a map that accounts for the references `cnt` to the blocks. -/
def AccountsFor (rel : ℕ → ℕ → Prop) (s : Fs ι) (cnt : ℤ → ℕ) : Prop :=
  ∃ m, Represents s.table m ∧ Accounts rel 0 m cnt (fun b => s.freeMap b = true)

/-- The table accounts for the block pointers, and only unused blocks were ever freed. -/
structure Counted (rel : ℕ → ℕ → Prop) (s : Fs ι) : Prop where
  /-- The table accounts for the block pointers. -/
  accounts : AccountsFor rel s s.refs
  /-- Only unused blocks were freed. -/
  freed : ∀ ev ∈ s.freed, ev.Unused

variable {rel : ℕ → ℕ → Prop} {s t : Fs ι} {f : ι} {lbn : Fin 12}

/-- Only the table, the pointers, the free map and the history matter. -/
theorem Counted.congr (h : Counted rel s) (htable : t.table = s.table) (hptr : t.ptr = s.ptr)
    (hfree : t.freeMap = s.freeMap) (hfreed : t.freed = s.freed) : Counted rel t where
  accounts := by
    have h' := h.accounts
    simp only [AccountsFor, htable, Fs.refs_congr hptr, hfree] at h' ⊢
    exact h'
  freed := by rw [hfreed]; exact h.freed

theorem counted_of_fresh (h : Fresh s) : Counted rel s where
  accounts := by
    obtain ⟨n, hn⟩ := h.table
    refine ⟨.empty, hn ▸ represents_mkfsTable n, Accounts.empty (by simp [h.boot]) ?_⟩
    intro b hb
    apply Lib.refs_eq_zero.mpr
    intro p
    rw [h.ptr]
    exact Ne.symm hb
  freed := by simp [h.freed]

/-- `ffs_blkfree` gives up the reference it is called for. If it frees the block, nothing
else named it. -/
theorem Counted.ffsBlkfree (hrel : CountRel rel) {bno : ℤ} (hbno : bno ≠ 0)
    (h : AccountsFor rel s (fun b => s.refs b + if b = bno then 1 else 0))
    (hfreed : ∀ ev ∈ s.freed, ev.Unused) : Counted rel (Ddfs.ffsBlkfree s bno) := by
  obtain ⟨m, hrep, hacc⟩ := h
  rcases ffsBlkfree_cases s bno with ⟨p, e, hfind, hone, ht⟩ | hlast
  · obtain ⟨he, rfl⟩ := inUse_of_findBlock hfind
    have hone' : e.refCount.toNat ≠ 1 := fun h => hone (UInt16.toNat_inj.mp h)
    rw [ht]
    exact ⟨⟨_, hrep.release_kept he hone',
      hacc.release_kept hrel (hrep.find he) hone' (fun _ => rfl)⟩, hfreed⟩
  · have hone : ∀ k c, m.find k = some (bno, c) → c = 1 := by
      intro k c hk
      rcases hlast with ⟨p, e, hfind, hone, -⟩ | ⟨hfind, -⟩
      · obtain ⟨he, rfl⟩ := inUse_of_findBlock hfind
        obtain rfl := m.inj hk (hrep.find he)
        rw [hrep.find he] at hk
        obtain ⟨-, rfl⟩ := Prod.mk.inj (Option.some.inj hk)
        rw [hone]
        rfl
      · exact absurd ⟨k, c, hk⟩ (hrep.findBlock_eq_none_iff.mp hfind)
    have hfree : ∀ {t : Fs ι}, t.freeMap = s.freeMap →
        ∀ b, (t.free bno).freeMap b = true ↔ b = bno ∨ s.freeMap b = true := by
      intro t ht b
      rw [Fs.freeMap_free, ht]
      by_cases hb : b = bno <;> simp [hb]
    obtain ⟨s', ht, htable, hptr, hmap, hhist⟩ : ∃ s' : Fs ι, Ddfs.ffsBlkfree s bno = s'.free bno ∧
        Represents s'.table (m.release bno) ∧ s'.ptr = s.ptr ∧ s'.freeMap = s.freeMap ∧
        s'.freed = s.freed := by
      rcases hlast with ⟨p, e, hfind, hc, ht⟩ | ⟨hfind, ht⟩
      · obtain ⟨he, rfl⟩ := inUse_of_findBlock hfind
        exact ⟨_, ht, hrep.release_last he (by rw [hc]; rfl), rfl, rfl, rfl⟩
      · refine ⟨s, ht, ?_, rfl, rfl, rfl⟩
        rw [RefMap.release_of_not_holds (hrep.findBlock_eq_none_iff.mp hfind)]
        exact hrep
    have hacc' : Accounts rel 0 (m.release bno) (s'.free bno).refs
        (fun b => (s'.free bno).freeMap b = true) := by
      rw [Fs.refs_congr (show (s'.free bno).ptr = s.ptr from hptr)]
      exact hacc.release_freed hrel hbno hone (fun _ => rfl) (hfree hmap)
    rw [ht]
    refine ⟨⟨_, htable, hacc'⟩, ?_⟩
    intro ev hev
    have hev' : ev = ⟨bno, s'.inodes, s'.table⟩ ∨ ev ∈ s.freed := by
      rw [← hhist]
      exact List.mem_cons.mp hev
    rcases hev' with rfl | hev'
    · have hself : (s'.free bno).freeMap bno = true := (hfree hmap bno).mpr (Or.inl rfl)
      refine ⟨fun g i => ?_, fun p e he hb => ?_⟩
      · exact Lib.refs_eq_zero.mp (hacc'.free_refs hself) (g, i)
      · exact hacc'.free_holds hself (htable.holds_iff.mpr ⟨p, e, he, hb⟩)
    · exact hfreed ev hev'

variable [DecidableEq ι]

/-- An assignment to a block pointer moves one reference. -/
theorem Fs.refs_setPtr (s : Fs ι) (f : ι) (i : Fin 12) (new b : ℤ) :
    (s.setPtr f i new).refs b + (if b = s.ptr f i then 1 else 0) =
      s.refs b + if b = new then 1 else 0 := by
  have hupd : (fun p : ι × Fin 12 => (s.setPtr f i new).ptr p.1 p.2) =
      Function.update (fun p : ι × Fin 12 => s.ptr p.1 p.2) (f, i) new := by
    funext p
    rw [Fs.ptr_setPtr, Function.update_apply]
    simp only [Prod.ext_iff]
  rw [Fs.refs, hupd]
  exact Lib.refs_update _ _ _ _

/-- Giving up a direct block gives up its reference. -/
theorem Counted.release (hrel : CountRel rel) (h : Counted rel s) {i : Fin 12}
    (hptr : s.ptr f i ≠ 0) : Counted rel (Ddfs.ffsBlkfree (s.setPtr f i 0) (s.ptr f i)) := by
  refine Counted.ffsBlkfree (s := s.setPtr f i 0) hrel hptr ?_ h.freed
  obtain ⟨m, hrep, hacc⟩ := h.accounts
  refine ⟨m, hrep, hacc.congr ?_⟩
  intro b hb
  have hmove := s.refs_setPtr f i 0 b
  rwa [if_neg hb, Nat.add_zero] at hmove

/-- The end of a truncation gives up the references of the blocks it drops. -/
theorem Counted.truncTail (hrel : CountRel rel) (h : Counted rel s) (f : ι) (length : ℕ) :
    Counted rel (Ddfs.truncTail s f length) :=
  truncTail_rule h (fun h => h.congr rfl rfl rfl rfl) (fun h hptr => h.release hrel hptr)
    (fun h => h.congr rfl (by funext g j; simp) rfl rfl)

/-- Allocating a block for a hole takes it from the free map. -/
theorem Counted.ffsBalloc {env : Env} {size : ℕ} {clrbuf : Bool} {bp : Buf} (h : Counted rel s)
    (hballoc : Ddfs.ffsBalloc s f lbn size clrbuf env = some (.ok (t, bp))) : Counted rel t := by
  rcases ffsBalloc_state hballoc with ⟨-, rfl⟩ | ⟨hptr, newb, hfree, rfl⟩
  · exact h
  · obtain ⟨m, hrep, hacc⟩ := h.accounts
    refine ⟨⟨m, hrep, ?_⟩, h.freed⟩
    have hstill : ∀ b, (s.take newb).freeMap b = true ↔ b ≠ newb ∧ s.freeMap b = true := by
      intro b
      rw [Fs.freeMap_take]
      by_cases hb : b = newb <;> simp [hb]
    have htake := hacc.take hfree (fun _ => rfl) hstill
    apply htake.congr
    intro b hb
    have hmove := (s.take newb).refs_setPtr f lbn newb b
    rw [Fs.ptr_take, hptr, if_neg hb, Nat.add_zero] at hmove
    exact hmove

/-- The promises under which the deduplication step keeps the table in order: a new key
comes with a block without an entry, and the count it raises does not wrap around. -/
structure DedupOk (s : Fs ι) (blk : ℤ) (hash : Key) : Prop where
  /-- A new entry is the only one for its block. -/
  noSecond : findKey hash s.table = none → findBlock blk s.table = none
  /-- A count that goes up stays below 65536. -/
  fits : ∀ p e, findKey hash s.table = some (p, e) → e.refCount.toNat < 65535

/-- The deduplication step counts the reference it makes and gives up the one it drops. A
count that goes up without a reference is put up with if `rel` does. -/
theorem Counted.dedupBlock (hrel : CountRel rel) (h : Counted rel s) {hash : Key}
    {entry : DdfsDedup} (hptr : s.ptr f lbn ≠ 0) (hok : DedupOk s (s.ptr f lbn) hash)
    (hslack : (∀ a c, rel a c → rel a (c + 1)) ∨
      ∀ p e, findKey hash s.table = some (p, e) → e.blockptr ≠ s.ptr f lbn)
    (hdedup : Ddfs.dedupBlock s f lbn hash entry = some t) : Counted rel t := by
  obtain ⟨m, hrep, hacc⟩ := h.accounts
  rcases dedupBlock_cases hdedup with ⟨p, old, hkey, hfree, rfl⟩ | ⟨p, e, hkey, hsame, rfl⟩ |
    ⟨p, e, hkey, hother, rfl⟩
  · -- a new entry, unless the stack left `DDFS_DEDUP_FREE` in its flags
    obtain ⟨hp, hold⟩ := slot_of_findFree hfree
    have hblk := hrep.findBlock_eq_none_iff.mp (hok.noSecond hkey)
    have hone : s.refs (s.ptr f lbn) = 1 := by
      have hle := hacc.single hptr hblk
      have hpos := s.refs_pos f lbn
      omega
    cases hact : DdfsDedup.active ⟨hash, entry.flags ||| ddfsDedupActive, 1, s.ptr f lbn⟩ with
    | true =>
      exact ⟨⟨_, hrep.insert hp hold hact rfl hkey hblk,
        hacc.insert hrel hblk hptr hone (hrep.find_eq_none hkey)⟩, h.freed⟩
    | false => exact ⟨⟨m, hrep.fill hp hold hact, hacc⟩, h.freed⟩
  · obtain ⟨he, -⟩ := inUse_of_findKey hkey
    refine ⟨⟨_, hrep.retain he (hok.fits p e hkey), ?_⟩, h.freed⟩
    rcases hslack with hslack | hno
    · exact hacc.retain_slack hslack e.key
    · exact absurd hsame (hno p e hkey)
  · obtain ⟨he, -⟩ := inUse_of_findKey hkey
    refine Counted.ffsBlkfree hrel hptr ⟨_, hrep.retain he (hok.fits p e hkey), ?_⟩ h.freed
    apply hacc.retain hrel (hrep.find he)
    intro b
    exact (s.refs_setPtr f lbn e.blockptr b)

omit [DecidableEq ι] in
/-- A block without an entry, or whose entry counts one reference, is the block of one
pointer only. -/
theorem Counted.unshared (h : Counted (· ≤ ·) s) {b : ℤ} (hb : b ≠ 0)
    (hone : ∀ q e, findBlock b s.table = some (q, e) → e.refCount = 1) {g g' : ι} {i i' : Fin 12}
    (hg : s.ptr g i = b) (hg' : s.ptr g' i' = b) : g = g' ∧ i = i' := by
  obtain ⟨m, hrep, hacc⟩ := h.accounts
  have hle : s.refs b ≤ 1 := by
    cases hfind : findBlock b s.table with
    | none => exact hacc.single hb (hrep.findBlock_eq_none_iff.mp hfind)
    | some pe =>
      obtain ⟨q, e⟩ := pe
      obtain ⟨he, rfl⟩ := inUse_of_findBlock hfind
      have hfit := hacc.count (hrep.find he)
      rw [hone q e hfind] at hfit
      exact hfit
  have heq := Lib.refs_le_one hle (p := (g, i)) (q := (g', i')) hg hg'
  exact Prod.mk.inj heq

/-! ## Runs -/

/-- The accounting survives the runs whose deduplication steps keep the promises. -/
theorem Counted.preserved (hrel : CountRel rel) {sha1 : Block → Key} {P : Fs ι → ℤ → Key → Prop}
    (hP : ∀ s blk key, Counted rel s → P s blk key → DedupOk s blk key ∧
      ((∀ a c, rel a c → rel a (c + 1)) ∨
        ∀ p e, findKey key s.table = some (p, e) → e.blockptr ≠ blk)) :
    Preserved sha1 (atDedup sha1 P) f (Counted rel) where
  iter := by
    intro s t lbn blkoffset chunk env err n hchunk hlen hs hguard hrun
    rcases ffsWriteIter_cases hchunk hlen hrun with ⟨rfl, -⟩ |
      ⟨s₁, bp, t', hballoc, hdedup, rfl, -, -⟩
    · exact hs
    · have hs₁ := hs.ffsBalloc hballoc
      have hptr : s₁.ptr f lbn ≠ 0 := by
        obtain ⟨m, -, hacc⟩ := hs.accounts
        exact ffsBalloc_ptr_ne_zero hballoc (by simpa using hacc.hole_free)
      obtain ⟨hok, hslack⟩ := hP _ _ _ hs₁ (hguard s₁ bp hballoc)
      have hgrow : Counted rel (s₁.grow f (lbn.val * 4096 + blkoffset + chunk.length)) :=
        hs₁.congr (by simp) (by funext g j; simp) (by simp) (by simp)
      have ht' : Counted rel t' := by
        refine hgrow.dedupBlock hrel (by simpa using hptr) ?_ (by simpa using hslack) hdedup
        exact ⟨by simpa using hok.noSecond, by simpa using hok.fits⟩
      exact ht'.congr rfl rfl rfl rfl
  trunc := by
    intro s t length env err hs _ hrun
    have h0 : s.freeMap 0 = false := by
      obtain ⟨m, -, hacc⟩ := hs.accounts
      simpa using hacc.hole_free
    rcases ffsTruncate_cases h0 hrun with rfl | ⟨-, -, rfl⟩ | ⟨lbn, s₁, bp, -, -, hballoc, rfl⟩
    · exact hs
    · exact hs.truncTail hrel f length
    · have hs₁ := hs.ffsBalloc hballoc
      split
      · exact hs₁.congr rfl (by funext g j; simp) rfl rfl
      · have hw : Counted rel (s₁.bwrite f lbn (truncBuf s f length bp)) :=
          hs₁.congr rfl rfl rfl rfl
        exact hw.truncTail hrel f length
  evict hs := hs.congr rfl rfl rfl rfl

/-- No second entry is made for a block that has one, and no count wraps around. -/
def noSecondEntry (sha1 : Block → Key) : Guard ι := atDedup sha1 DedupOk

/-- The accounting survives the runs that make no second entry. -/
theorem Counted.noSecondEntry {sha1 : Block → Key} :
    Preserved sha1 (Ddfs.noSecondEntry sha1) f (Counted (ι := ι) (· ≤ ·)) :=
  Counted.preserved countRel_le
    (fun _ _ _ _ hok => ⟨hok, Or.inl fun _ _ hac => Nat.le_succ_of_le hac⟩)

/-- Along the runs that make no second entry for a block, a block that `ffs_blkfree` passes
on to be freed is named by no block pointer and by no entry, and no entry names a block the
free map calls free. -/
theorem blkfree_unused (sha1 : Block → Key) (h : (noSecondEntry sha1).Reachable sha1 s) :
    (∀ ev ∈ s.freed, ev.Unused) ∧
      ∀ p e, InUse s.table p e → s.freeMap e.blockptr = false := by
  have hcount : Counted (· ≤ ·) s :=
    h.invariant (fun s hs => counted_of_fresh hs) (fun f => Counted.noSecondEntry)
  refine ⟨hcount.freed, fun p e he => ?_⟩
  obtain ⟨m, hrep, hacc⟩ := hcount.accounts
  rw [← Bool.not_eq_true]
  exact fun hfree => hacc.free_holds hfree (hrep.holds_iff.mpr ⟨p, e, he, rfl⟩)

/-- The write of a byte and a truncation, which frees the block. -/
theorem blkfree_unused_one :
    (∀ ev ∈ (truncTail (oneFile prefixKey () 1) () 0).freed, ev.Unused) ∧
      ∀ p e, InUse (truncTail (oneFile prefixKey () 1) () 0).table p e →
        (truncTail (oneFile prefixKey () 1) () 0).freeMap e.blockptr = false := by
  apply blkfree_unused prefixKey
  have hfirst : (noSecondEntry prefixKey).Reachable prefixKey (oneFile prefixKey () 1) := by
    apply oneFile_reachable
    refine atDedup_smallFs (P := DedupOk) fun key => ⟨fun _ => ?_, fun p e hkey => ?_⟩
    · exact findBlock_eq_none.mpr fun p e he => absurd he not_inUse_mkfsTable
    · exact absurd (inUse_of_findKey hkey).1 not_inUse_mkfsTable
  exact .step hfirst (a := .truncate () 0 (zeroEnv 1)) trivial
    ⟨none, ffsTruncate_zero (by simp)⟩

/-- Two bytes written one after the other to the same place, and a truncation: block 1 gets
two entries, is freed with the first, and still has the second. -/
theorem blkfree_unused_fails : ¬∃ sha1 : Block → Key, sha1 (oneByte 1) ≠ sha1 (oneByte 2) ∧
    ∀ s, execAll sha1 (smallFs Unit)
      [writeByte () 1 1, writeByte () 2 1, .truncate () 0 (zeroEnv 1)] = some s →
      (∀ ev ∈ s.freed, ev.Unused) ∧
        ∀ p e, InUse s.table p e → s.freeMap e.blockptr = false := by
  rintro ⟨sha1, hne, hall⟩
  have htrunc : exec sha1 (overwritten sha1 () 1 2) (.truncate () 0 (zeroEnv 1)) =
      some (truncTail (overwritten sha1 () 1 2) () 0, none) := ffsTruncate_zero (by simp)
  rw [execAll_cons exec_oneFile, execAll_cons (exec_overwritten hne), execAll_cons htrunc,
    truncTail_one_block (by intro i hi; simp [ptr_oneFile, hi]) (by simp)] at hall
  have hfirst : findBlock 1 (overwritten sha1 () 1 2).table =
      some ((0, 0), newEntry (sha1 (oneByte 1)) 1) := by
    rw [table_overwritten, table_oneFile]
    with_unfolding_all rfl
  have hfree := ffsBlkfree_last (s := ((overwritten sha1 () 1 2).vtruncbuf () 0).setPtr () 0 0)
    (by simpa using hfirst) rfl
  have huse := (hall _ rfl).2 (0, 1) (newEntry (sha1 (oneByte 2)) 1)
  simp only [ptr_overwritten, ptr_oneFile_self] at huse
  rw [hfree] at huse
  have hslot : InUse (overwritten sha1 () 1 2).table (0, 0) (newEntry (sha1 (oneByte 1)) 1) :=
    inUse_overwritten.mpr (Or.inr ⟨rfl, rfl⟩)
  have hleft : InUse (setSlot (overwritten sha1 () 1 2).table (0, 0) freeEntry) (0, 1)
      (newEntry (sha1 (oneByte 2)) 1) :=
    (inUse_setSlot hslot.1).mpr (Or.inr ⟨by decide, inUse_overwritten.mpr (Or.inl ⟨rfl, rfl⟩)⟩)
  have hnot := huse (by simpa using hleft)
  rw [Fs.freeMap_setSize, Fs.freeMap_free] at hnot
  simp [newEntry] at hnot

/-- The key that is looked up is new, or its entry is for another block than the file's;
and no block gets 65536 references. -/
structure ExactOk (s : Fs ι) (blk : ℤ) (key : Key) : Prop where
  /-- The file's block has no entry, or the key has one for another block. -/
  other : findBlock blk s.table = none ∨
    ∃ p e, findKey key s.table = some (p, e) ∧ e.blockptr ≠ blk
  /-- A further reference to the block of the key is one of fewer than 65536. -/
  fewer : ∀ p e, findKey key s.table = some (p, e) → s.refs e.blockptr + 1 < 65536

/-- No block that has an entry is written with a key that has none, or is its own. -/
def noInPlace (sha1 : Block → Key) : Guard ι := atDedup sha1 ExactOk

/-- Along the runs that write no block with an entry in place, the count of every entry is
the number of pointers to its block, and no two entries are for one block. -/
theorem refCount_exact (sha1 : Block → Key) (h : (noInPlace sha1).Reachable sha1 s) :
    (∀ p e, InUse s.table p e → e.refCount.toNat = s.refs e.blockptr) ∧
      ∀ p q e e', InUse s.table p e → InUse s.table q e' → e.blockptr = e'.blockptr → p = q := by
  have hcount : Counted (· = ·) s := by
    refine h.invariant (fun s hs => counted_of_fresh hs) (fun f => ?_)
    refine Counted.preserved countRel_eq (fun s blk key hs hok => ?_)
    obtain ⟨m, hrep, hacc⟩ := hs.accounts
    have hother : ∀ p e, findKey key s.table = some (p, e) → e.blockptr ≠ blk := by
      intro p e hkey
      rcases hok.other with hnone | ⟨p', e', hkey', hne⟩
      · exact findBlock_eq_none.mp hnone p e (inUse_of_findKey hkey).1
      · rw [hkey, Option.some.injEq, Prod.mk.injEq] at hkey'
        rw [hkey'.2]
        exact hne
    refine ⟨⟨fun hnone => ?_, fun p e hkey => ?_⟩, Or.inr hother⟩
    · rcases hok.other with hblk | ⟨p, e, hkey, -⟩
      · exact hblk
      · rw [hnone] at hkey
        cases hkey
    · have hfew := hok.fewer p e hkey
      have hexact := hacc.count (hrep.find (inUse_of_findKey hkey).1)
      omega
  obtain ⟨m, hrep, hacc⟩ := hcount.accounts
  exact ⟨fun p e he => (hacc.count (hrep.find he)).symm,
    fun p q e e' he he' hb => hrep.blocks he he' hb⟩

/-- The write of a byte, and the one reference it makes. -/
theorem refCount_exact_one :
    (∀ p e, InUse (oneFile prefixKey () 1).table p e →
        e.refCount.toNat = (oneFile prefixKey () 1).refs e.blockptr) ∧
      ∀ p q e e', InUse (oneFile prefixKey () 1).table p e →
        InUse (oneFile prefixKey () 1).table q e' → e.blockptr = e'.blockptr → p = q := by
  apply refCount_exact prefixKey
  apply oneFile_reachable
  refine atDedup_smallFs (P := ExactOk) fun key => ⟨Or.inl ?_, fun p e hkey => ?_⟩
  · exact findBlock_eq_none.mpr fun p e he => absurd he not_inUse_mkfsTable
  · exact absurd (inUse_of_findKey hkey).1 not_inUse_mkfsTable

/-- The same byte written twice to the same place: the count of its entry is 2, and one
pointer has the block. -/
theorem refCount_exact_fails : ¬∃ sha1 : Block → Key, ∀ s,
    execAll sha1 (smallFs Unit) [writeByte () 1 1, writeByte () 1 1] = some s →
      ∀ p e, InUse s.table p e → e.refCount.toNat = s.refs e.blockptr := by
  rintro ⟨sha1, hall⟩
  have hagain := exec_writeByte_over (m := 1) (b := 1) (by simp) (by simp) bufs_oneFile
    (dedupBlock_same (s := (oneFile sha1 () 1).grow () 1)
      (by rw [Fs.table_grow]; exact findKey_oneFile) (by simp [newEntry]))
  rw [execAll_cons exec_oneFile, execAll_cons hagain] at hall
  have hslot : InUse (oneFile sha1 () 1).table (0, 0) (newEntry (sha1 (oneByte 1)) 1) :=
    inUse_oneFile.mpr ⟨rfl, rfl⟩
  have huse : InUse (setSlot (oneFile sha1 () 1).table (0, 0)
      { newEntry (sha1 (oneByte 1)) 1 with refCount := 1 + 1 }) (0, 0)
      { newEntry (sha1 (oneByte 1)) 1 with refCount := 1 + 1 } :=
    (inUse_setSlot hslot.1).mpr (Or.inl ⟨rfl, rfl, newEntry_active (sha1 (oneByte 1)) 1⟩)
  have hcount := hall _ rfl _ _
    (by rw [Fs.table_bwrite, Fs.table_setTable, Fs.table_grow]; exact huse)
  have hrefs : ((oneFile sha1 () 1).grow () 1).refs 1 = 1 := by
    simp only [Fs.refs, Fs.ptr_grow, ptr_oneFile]
    decide
  rw [Fs.refs_congr (Fs.ptr_bwrite _ _ _ _), Fs.refs_congr (Fs.ptr_setTable _ _)] at hcount
  change (2 : ℕ) = ((oneFile sha1 () 1).grow () 1).refs 1 at hcount
  rw [hrefs] at hcount
  exact absurd hcount (by decide)

end EmbeddedOs.Ddfs
