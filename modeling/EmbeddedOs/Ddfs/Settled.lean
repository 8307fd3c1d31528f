import EmbeddedOs.Ddfs.DelayedWrites
import EmbeddedOs.Ddfs.FreedBlocks

/-!
# When all that waits is written

A state with buffers that wait is compared with the state `s` in which they have been
written. The two differ on the disk only, and there only in blocks that are free or that some
buffer waits for. The lemmas below say when one function of the write and truncate paths keeps
this up: when no other buffer waits for the block that is written, and when no bytes are lost
with the buffers that are dropped.
-/

namespace EmbeddedOs.Ddfs

open Lib Lib.SlotTable

variable {ι : Type}

namespace Cached

/-- A buffer that waits for the block has the bytes the disk has. -/
def OnDisk (c : Cached ι) (b : ℤ) : Prop :=
  ∀ g j, c.waiting g j = some b → c.fs.bufs g j = some (c.fs.disk b)

/-- Another buffer than that of block `lbn` of file `f` waits for block `b` only if this is
not free, and only with the bytes `d`. -/
def Undisturbed (c : Cached ι) (f : ι) (lbn : Fin 12) (b : ℤ) (d : Block) : Prop :=
  ∀ g j, ¬(g = f ∧ j = lbn) → c.waiting g j = some b →
    c.fs.freeMap b = false ∧ c.fs.bufs g j = some d

/-- No bytes are lost with the buffers of a file from block `keep` on: those that only these
buffers wait for are on the disk, or belong to a block that loses its last reference. -/
def Droppable (c : Cached ι) (f : ι) (keep : ℕ) : Prop :=
  ∀ i b, keep ≤ i.val → c.waiting f i = some b →
    (∀ g j, c.waiting g j = some b → g = f ∧ keep ≤ j.val) →
      c.OnDisk b ∨ LastRef c.fs.table b

end Cached

/-- From `s` to `u` file `f` got its block `lbn` ready to be written: `b` is the block it had,
or one for a hole. It may have been switched to another block since, and `b` given up. -/
structure Ready (f : ι) (lbn : Fin 12) (b : ℤ) (s u : Fs ι) : Prop where
  /-- Nothing was written. -/
  disk : u.disk = s.disk
  /-- The buffers are the same. -/
  bufs : u.bufs = s.bufs
  /-- The other pointers are the same. -/
  ptr : ∀ {g j}, ¬(g = f ∧ j = lbn) → u.ptr g j = s.ptr g j
  /-- No other block was taken or given up. -/
  freeMap : ∀ {b'}, b' ≠ b → u.freeMap b' = s.freeMap b'
  /-- The file had the block, or a hole. -/
  old : s.ptr f lbn = b ∨ s.ptr f lbn = 0
  /-- The file has the block, or it was given up. -/
  new : u.ptr f lbn = b ∨ u.freeMap b = true

namespace Ready

variable [DecidableEq ι] {s u : Fs ι} {f : ι} {lbn : Fin 12} {b : ℤ}

/-- Behind `ffs_balloc` the block can be written. -/
theorem of_ffsBalloc {size : ℕ} {clrbuf : Bool} {env : Env} {bp : Buf}
    (h : ffsBalloc s f lbn size clrbuf env = some (.ok (u, bp))) :
    Ready f lbn bp.blkno s u := by
  have hblkno := ffsBalloc_blkno h
  rcases ffsBalloc_state h with ⟨-, rfl⟩ | ⟨hptr, newb, -, rfl⟩
  · exact ⟨rfl, rfl, fun _ => rfl, fun _ => rfl, Or.inl hblkno.symm, Or.inl hblkno.symm⟩
  · refine ⟨rfl, rfl, fun hg => ?_, fun hb => ?_, Or.inr hptr, Or.inl hblkno.symm⟩
    · rw [Fs.ptr_setPtr, if_neg hg, Fs.ptr_take]
    · rw [hblkno, Fs.ptr_setPtr_self] at hb
      rw [Fs.freeMap_setPtr, Fs.freeMap_take, if_neg hb]

theorem setSize (h : Ready f lbn b s u) (n : ℕ) : Ready f lbn b s (u.setSize f n) where
  disk := h.disk
  bufs := h.bufs
  ptr hg := by rw [Fs.ptr_setSize, h.ptr hg]
  freeMap := h.freeMap
  old := h.old
  new := by simpa using h.new

theorem grow (h : Ready f lbn b s u) (n : ℕ) : Ready f lbn b s (u.grow f n) := by
  rcases u.grow_eq f n with hu | hu
  · rw [hu]
    exact h
  · rw [hu]
    exact h.setSize n

/-- Behind the deduplication step, too. -/
theorem dedupBlock {t : Fs ι} (h : Ready f lbn b s u) {hash : Key} {entry : DdfsDedup}
    (hb : u.ptr f lbn = b) (hdedup : Ddfs.dedupBlock u f lbn hash entry = some t)
    (hnew : t.ptr f lbn = b ∨ t.freeMap b = true) : Ready f lbn b s t where
  disk := (Frame.dedupBlock hdedup).disk.trans h.disk
  bufs := (bufs_dedupBlock hdedup).trans h.bufs
  ptr hg := (ptr_dedupBlock_of_ne hdedup hg).trans (h.ptr hg)
  freeMap hne := (freeMap_dedupBlock_of_ne hdedup (by rwa [hb])).trans (h.freeMap hne)
  old := h.old
  new := hnew

end Ready

/-- `s` is the state in which all that waits in `c` has been written. -/
structure Settles (c : Cached ι) (s : Fs ι) : Prop where
  /-- They differ on the disk only. -/
  same : s = c.fs.setDisk s.disk
  /-- A buffer that waits has the bytes that its block will have. -/
  dirty : ∀ {g j b}, c.waiting g j = some b → b ≠ 0 ∧ c.fs.bufs g j = some (s.disk b)
  /-- It waits for the block of its file, or for one that was given up. -/
  owned : ∀ {g j b}, c.waiting g j = some b → b = c.fs.ptr g j ∨ c.fs.freeMap b = true
  /-- A block that is not free and that no buffer waits for has its bytes on the disk. -/
  clean : ∀ {b}, c.fs.freeMap b = false → (∀ g j, c.waiting g j ≠ some b) →
    c.fs.disk b = s.disk b

namespace Settles

variable {c : Cached ι} {s u : Fs ι} {f : ι} {lbn : Fin 12} {b : ℤ}

theorem ptr (h : Settles c s) : s.ptr = c.fs.ptr := by rw [h.same]; rfl

theorem table (h : Settles c s) : s.table = c.fs.table := by rw [h.same]; rfl

theorem freeMap (h : Settles c s) : s.freeMap = c.fs.freeMap := by rw [h.same]; rfl

theorem size (h : Settles c s) : s.size = c.fs.size := by rw [h.same]; rfl

/-- A block in use whose bytes are on the disk has the bytes it will have. -/
theorem disk_eq (h : Settles c s) (hfree : c.fs.freeMap b = false) (hdisk : c.OnDisk b) :
    c.fs.disk b = s.disk b := by
  by_cases hwait : ∃ g j, c.waiting g j = some b
  · obtain ⟨g, j, hgj⟩ := hwait
    exact Option.some.inj ((hdisk g j hgj).symm.trans (h.dirty hgj).2)
  · exact h.clean hfree (fun g j hgj => hwait ⟨g, j, hgj⟩)

/-- Where nothing waits, all is written. -/
theorem of_fresh (h : ∀ g j, c.waiting g j = none) : Settles c c.fs where
  same := rfl
  dirty {g j b} hgj := by
    rw [h] at hgj
    cases hgj
  owned {g j b} hgj := by
    rw [h] at hgj
    cases hgj
  clean _ _ := rfl

variable [DecidableEq ι]

/-! ## What comes to the disk -/

theorem flush (h : Settles c s) (p : ι × Fin 12) : Settles (c.flush p) s := by
  rw [Cached.flush]
  split
  · next b d hwait hbuf =>
    obtain ⟨hne, hd⟩ := h.dirty hwait
    obtain rfl := Option.some.inj (hbuf.symm.trans hd)
    have hold : ∀ {g j b'}, c.setWaiting p.1 p.2 none g j = some b' → c.waiting g j = some b' := by
      intro g j b' hgj
      rw [Cached.setWaiting_apply] at hgj
      split at hgj
      · cases hgj
      · exact hgj
    refine ⟨h.same, fun hgj => h.dirty (hold hgj), fun hgj => h.owned (hold hgj), ?_⟩
    intro b' hfree hnone
    change Function.update c.fs.disk b (s.disk b) b' = s.disk b'
    by_cases hb : b' = b
    · rw [hb, Function.update_self]
    · rw [Function.update_of_ne hb]
      refine h.clean hfree fun g j hgj => ?_
      by_cases hp : g = p.1 ∧ j = p.2
      · rw [hp.1, hp.2, hwait] at hgj
        exact hb (Option.some.inj hgj).symm
      · exact hnone g j ((Cached.setWaiting_apply none).trans ((if_neg hp).trans hgj))
  · exact h

theorem flushAll (h : Settles c s) (ps : List (ι × Fin 12)) : Settles (c.flushAll ps) s := by
  induction ps generalizing c with
  | nil => exact h
  | cons p ps ih => exact ih (h.flush p)

/-- A block that reads the same from both disks still does when a buffer comes to the disk. -/
theorem raw_flush (h : Settles c s) {i : Fin 12} (hraw : c.fs.raw f i = s.raw f i)
    (p : ι × Fin 12) : (c.flush p).fs.raw f i = s.raw f i := by
  rw [Cached.flush]
  split
  · next b d hwait hbuf =>
    obtain rfl := Option.some.inj (hbuf.symm.trans (h.dirty hwait).2)
    rw [Fs.raw, Fs.raw, h.ptr] at hraw ⊢
    change (if c.fs.ptr f i = 0 then _ else _) = _
    by_cases hptr : c.fs.ptr f i = 0
    · rw [if_pos hptr, if_pos hptr]
    · rw [if_neg hptr, if_neg hptr] at hraw ⊢
      change Function.update c.fs.disk b (s.disk b) (c.fs.ptr f i) = _
      by_cases hb : c.fs.ptr f i = b
      · rw [hb, Function.update_self]
      · rw [Function.update_of_ne hb, hraw]
  · exact hraw

theorem raw_flushAll (h : Settles c s) {i : Fin 12} (hraw : c.fs.raw f i = s.raw f i)
    (ps : List (ι × Fin 12)) : (c.flushAll ps).fs.raw f i = s.raw f i := by
  induction ps generalizing c with
  | nil => exact hraw
  | cons p ps ih => exact ih (h.flush p) (h.raw_flush hraw p)

theorem syncHole (h : Settles c s) (f : ι) (length : ℕ) : Settles (c.syncHole f length) s := by
  simp only [Cached.syncHole]
  split
  · split
    · exact h.flushAll _
    · exact h
  · exact h

/-- A buffer that does not wait may be dropped. -/
theorem evict (h : Settles c s) (hwait : c.waiting f lbn = none) :
    Settles { c with fs := c.fs.dropBuf f lbn } (s.dropBuf f lbn) where
  same := by
    conv_lhs => rw [h.same]
    rfl
  dirty {g j b} hgj := by
    have hg : ¬(g = f ∧ j = lbn) := by
      rintro ⟨rfl, rfl⟩
      rw [hwait] at hgj
      cases hgj
    rw [Fs.bufs_dropBuf, if_neg hg]
    exact h.dirty hgj
  owned := h.owned
  clean := h.clean

/-! ## One write of a block -/

/-- A block may be written, at once or later, if no other buffer disturbs it. -/
theorem issue (h : Settles c s) {bp : Buf} (sync : Bool) (hready : Ready f lbn bp.blkno c.fs u)
    (hne : bp.blkno ≠ 0) (halone : c.Undisturbed f lbn bp.blkno bp.data) :
    Settles (Cached.issue sync { c with fs := u } f lbn bp)
      ((u.setDisk s.disk).bwrite f lbn bp) := by
  refine ⟨?_, fun {g j b} hgj => ?_, fun {g j b} hgj => ?_, fun {b} hb hnone => ?_⟩
  · cases sync <;> rfl
  · rw [Cached.bufs_issue, Fs.disk_bwrite]
    rcases Cached.waiting_of_issue hgj with ⟨rfl, rfl, rfl⟩ | ⟨hg, hgj⟩
    · rw [if_pos ⟨rfl, rfl⟩, if_pos rfl]
      exact ⟨hne, rfl⟩
    · obtain ⟨hb, hbuf⟩ := h.dirty hgj
      rw [if_neg hg]
      refine ⟨hb, ?_⟩
      change u.bufs g j = _
      rw [hready.bufs]
      by_cases hblk : b = bp.blkno
      · rw [if_pos hblk]
        exact (halone g j hg (hblk ▸ hgj)).2
      · rw [if_neg hblk]
        exact hbuf
  · rw [Cached.ptr_issue, Cached.freeMap_issue]
    rcases Cached.waiting_of_issue hgj with ⟨rfl, rfl, rfl⟩ | ⟨hg, hgj⟩
    · exact hready.new.imp Eq.symm id
    · change b = u.ptr g j ∨ u.freeMap b = true
      rw [hready.ptr hg]
      rcases h.owned hgj with hown | hfreed
      · exact Or.inl hown
      · by_cases hblk : b = bp.blkno
        · rw [hblk] at hgj hfreed
          rw [(halone g j hg hgj).1] at hfreed
          cases hfreed
        · rw [hready.freeMap hblk]
          exact Or.inr hfreed
  · rw [Cached.freeMap_issue] at hb
    change u.freeMap b = false at hb
    rw [Cached.disk_issue, Fs.disk_bwrite]
    by_cases hblk : b = bp.blkno
    · cases sync with
      | true => rw [if_pos ⟨rfl, hblk⟩, if_pos hblk]
      | false =>
        exfalso
        refine hnone f lbn ?_
        rw [Cached.waiting_issue, if_pos ⟨rfl, rfl⟩, hblk]
        rfl
    · rw [if_neg (fun hc => hblk hc.2), if_neg hblk]
      change u.disk b = s.disk b
      rw [hready.freeMap hblk] at hb
      rw [hready.disk]
      refine h.clean hb fun g j hgj => ?_
      by_cases hg : g = f ∧ j = lbn
      · -- what the buffer waited for before was its block, or one that was given up
        obtain ⟨rfl, rfl⟩ := hg
        rcases h.owned hgj with hown | hfreed
        · rcases hready.old with hold | hold
          · exact hblk (hown.trans hold)
          · exact (h.dirty hgj).1 (hown.trans hold)
        · rw [hfreed] at hb
          cases hb
      · refine hnone g j ?_
        rw [Cached.waiting_issue, if_neg hg]
        exact hgj

/-- `ffs_balloc` reads the same bytes, if the disk has those it reads. -/
theorem ffsBalloc (h : Settles c s) {rel : ℕ → ℕ → Prop} [Fintype ι] (hcount : Counted rel s)
    {size : ℕ} {clrbuf : Bool} {env : Env}
    (hread : c.fs.bufs f lbn = none → c.OnDisk (c.fs.ptr f lbn)) :
    Ddfs.ffsBalloc s f lbn size clrbuf env = (Ddfs.ffsBalloc c.fs f lbn size clrbuf env).map
      (Except.map fun r => (r.1.setDisk s.disk, r.2)) := by
  conv_lhs => rw [h.same]
  apply ffsBalloc_setDisk
  intro _ hbuf
  refine (h.disk_eq ?_ (hread hbuf)).symm
  rw [← h.freeMap, ← h.ptr]
  exact hcount.ptr_not_free f lbn

/-- The end of a truncation, if no bytes are lost with the buffers it drops. -/
theorem truncTail (h : Settles c s) [Fintype ι] (hcount : Counted (· ≤ ·) s) {length : ℕ}
    (hdrop : ∀ i b, (length + 4095) / 4096 ≤ i.val → c.waiting f i = some b →
      (∀ g j, c.waiting g j = some b → g = f ∧ (length + 4095) / 4096 ≤ j.val) →
        c.fs.disk b = s.disk b ∨ LastRef c.fs.table b) :
    Settles (c.truncTail f length) (Ddfs.truncTail s f length) := by
  have hsame : Ddfs.truncTail s f length = (Ddfs.truncTail c.fs f length).setDisk s.disk := by
    conv_lhs => rw [h.same]
    exact truncTail_setDisk c.fs f length s.disk
  refine ⟨?_, fun {g j b} hgj => ?_, fun {g j b} hgj => ?_, fun {b} hb hnone => ?_⟩
  · rw [disk_truncTail]
    exact hsame
  · obtain ⟨hg, hgj⟩ := Cached.waiting_of_truncTail hgj
    rw [disk_truncTail, Cached.truncTail, bufs_truncTail, if_neg hg]
    exact h.dirty hgj
  · obtain ⟨hg, hgj⟩ := Cached.waiting_of_truncTail hgj
    rw [Cached.truncTail, ptr_truncTail, if_neg hg]
    exact (h.owned hgj).imp id (freeMap_truncTail_mono f length)
  · have hmono : c.fs.freeMap b = true → (Ddfs.truncTail c.fs f length).freeMap b = true :=
      freeMap_truncTail_mono f length
    have hkept : c.fs.freeMap b = false := by
      rw [← Bool.not_eq_true]
      intro hfree
      have hfreed : (Ddfs.truncTail c.fs f length).freeMap b = false := hb
      rw [hmono hfree] at hfreed
      cases hfreed
    rw [disk_truncTail, Cached.truncTail, disk_truncTail]
    by_cases hwait : ∃ g j, c.waiting g j = some b
    · have hdropped : ∀ g j, c.waiting g j = some b → g = f ∧ (length + 4095) / 4096 ≤ j.val := by
        intro g j hgj
        by_contra hg
        refine hnone g j ?_
        rw [Cached.waiting_truncTail, if_neg hg]
        exact hgj
      obtain ⟨g, i, hgi⟩ := hwait
      obtain ⟨rfl, hi⟩ := hdropped g i hgi
      rcases hdrop i b hi hgi hdropped with hdisk | hlast
      · exact hdisk
      · -- the block would have been freed
        exfalso
        rcases h.owned hgi with rfl | hfree
        · have hptr : c.fs.ptr g i ≠ 0 := (h.dirty hgi).1
          rw [← h.ptr] at hptr hlast hb
          rw [← h.table] at hlast
          have hfrees := hcount.truncTail_frees hi hptr hlast
          rw [hsame] at hfrees
          exact absurd (hb.symm.trans hfrees) (by decide)
        · rw [hfree] at hkept
          cases hkept
    · exact h.clean hkept (fun g j hgj => hwait ⟨g, j, hgj⟩)

end Settles

end EmbeddedOs.Ddfs
