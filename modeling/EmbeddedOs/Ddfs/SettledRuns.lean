import EmbeddedOs.Ddfs.Settled

/-!
# Runs with delayed writes

A guard on the steps of a run under which the state where all that waits has been written goes
through the same run without delay. The guard has what the runs without delay have to meet
(`wholeBlocks`), and what the delay adds to it: nothing else waits for a block that is written,
a block that is read is on the disk, and no bytes are lost with buffers that are dropped.
-/

namespace EmbeddedOs.Ddfs

open Lib Lib.SlotTable Lib.Bytes

variable {ι : Type} [DecidableEq ι] {sha1 : Block → Key} {S : Set Block} {sync : Bool}

namespace Cached

/-! ## The guard -/

/-- What an iteration of `ffs_write` has to meet. -/
structure IterOk (sha1 : Block → Key) (S : Set Block) (sync : Bool) (c : Cached ι) (f : ι)
    (lbn : Fin 12) (blkoffset : ℕ) (chunk : List UInt8) (env : Env) : Prop where
  /-- It meets what the runs without delay have to meet. -/
  whole : (wholeBlocks ι sha1 S).iter c.fs f lbn blkoffset chunk env
  /-- The block of the file is cached, or on the disk. -/
  read : c.fs.bufs f lbn = none → c.OnDisk (c.fs.ptr f lbn)
  /-- No other buffer waits for the block that is written, unless with the same bytes. -/
  alone : IterWrite (fun _ _ f lbn blkoffset chunk env bp =>
    c.Undisturbed f lbn bp.blkno (iterBuf bp blkoffset chunk env).data)
      c.fs f lbn blkoffset chunk env
  /-- The block to which a synchronous write switches the file is on the disk. -/
  found : sync = true → IterWrite (fun _ s₁ _ _ blkoffset chunk env bp =>
    ∀ p e, findKey (iterKey sha1 bp blkoffset chunk env) s₁.table = some (p, e) →
      e.blockptr ≠ bp.blkno → c.OnDisk e.blockptr) c.fs f lbn blkoffset chunk env

/-- `ffs_truncate` writes block `lbn`, that of the new last byte. -/
def TruncWrites (s : Fs ι) (f : ι) (length : ℕ) (lbn : Fin 12) : Prop :=
  lbn.val = truncLbn length ∧ length ≠ 0 ∧
    (length < s.size f → length % 4096 = 0 → s.ptr f lbn = 0)

/-- What a truncation has to meet, behind its `ffs_syncvnode`. -/
structure TruncOk (c : Cached ι) (f : ι) (length : ℕ) (env : Env) : Prop where
  /-- It writes a block only if that has no entry, or with the bytes it has. -/
  keeps : ∀ lbn s₁ bp, lbn.val = truncLbn length →
    ffsBalloc c.fs f lbn ((length - 1) % 4096 + 1) true env = some (.ok (s₁, bp)) →
      findBlock bp.blkno s₁.table = none ∨ (truncBuf c.fs f length bp).data = bp.data
  /-- The block it writes is cached, or on the disk. -/
  read : ∀ lbn, TruncWrites c.fs f length lbn → c.fs.bufs f lbn = none →
    c.OnDisk (c.fs.ptr f lbn)
  /-- No other buffer waits for the block it writes, unless with the same bytes. -/
  alone : ∀ lbn s₁ bp, TruncWrites c.fs f length lbn →
    ffsBalloc c.fs f lbn ((length - 1) % 4096 + 1) true env = some (.ok (s₁, bp)) →
      c.Undisturbed f lbn bp.blkno (truncBuf c.fs f length bp).data
  /-- No bytes are lost with the buffers behind the new end. -/
  drops : length < c.fs.size f → c.Droppable f ((length + 4095) / 4096)

/-- The state in which `ffs_truncate` starts to change the file. -/
def truncStart (c : Cached ι) (f : ι) (length : ℕ) : Cached ι :=
  if c.fs.size f < length then c else c.syncHole f length

/-- Every iteration of the loop of `ffs_write` meets the guard. -/
def loopOk (sha1 : Block → Key) (S : Set Block) (sync : Bool) (f : ι) (env : ℕ → CacheEnv ι) :
    ℕ → Cached ι → ℕ → List UInt8 → Prop
  | 0, _, _, _ => True
  | fuel + 1, c, offset, data =>
    data ≠ [] → ∀ h : offset / 4096 < 12,
      let chunk := data.take (4096 - offset % 4096)
      let e := env (offset / 4096)
      IterOk sha1 S sync (c.flushAll e.flushed) f ⟨offset / 4096, h⟩ (offset % 4096) chunk
          e.toEnv ∧
        ∀ c' moved, ffsWriteIter sha1 sync (c.flushAll e.flushed) f ⟨offset / 4096, h⟩
            (offset % 4096) chunk e.toEnv = some (c', none, moved) →
          loopOk sha1 S sync f env fuel c' (offset + moved) (data.drop moved)

/-- Block `i` has some of the `n` bytes at `offset`. -/
def Touched (offset n : ℕ) (i : Fin 12) : Prop :=
  0 < n ∧ offset < (i.val + 1) * 4096 ∧ i.val * 4096 < offset + n

/-- What is left behind an iteration starts at the next block. -/
theorem Touched.next {offset k n : ℕ} {i : Fin 12} (h : Touched offset k i)
    (hne : i.val ≠ offset / 4096) (hn : n = min (4096 - offset % 4096) k) :
    Touched (offset + n) (k - n) i := by
  obtain ⟨-, hlow, hhigh⟩ := h
  exact ⟨by omega, by omega, by omega⟩

/-- Every iteration and truncation of a step meets the guard; and the blocks of the file that
a synchronous write does not touch are on the disk. -/
def callOk (sha1 : Block → Key) (S : Set Block) (c : Cached ι) : CacheCall ι → Prop
  | .write f ioflag offset data env =>
    let offset := if ioflag.append then c.fs.size f else offset
    loopOk sha1 S ioflag.sync f env data.length c offset data ∧
      (∀ c' e, ffsWriteLoop sha1 ioflag.sync f env data.length c offset data =
          some (c', some e) → ioflag.unit = true → c'.fs.size f ≠ c.fs.size f →
        TruncOk (c'.truncStart f (c.fs.size f)) f (c.fs.size f) (env 12).toEnv) ∧
      (ioflag.sync = true → ∀ i, ¬Touched offset data.length i → c.OnDisk (c.fs.ptr f i))
  | .truncate f length env =>
    c.fs.size f ≠ length → TruncOk (c.truncStart f length) f length env
  | .flush _ _ => True
  | .evict _ _ => True

end Cached

/-! ## One iteration -/

variable {c c' : Cached ι} {s t : Fs ι} {f : ι} {lbn : Fin 12} {err : Option Errno}

/-- What follows a successful `UFS_BALLOC` deduplicates the block and writes it, or has it wait. -/
theorem Cached.writeBlock_eq {blkoffset : ℕ} {chunk : List UInt8} {env : Env} {bp : Buf}
    (hchunk : chunk ≠ []) (hlen : blkoffset + chunk.length ≤ 4096) :
    Cached.writeBlock sha1 sync c f lbn blkoffset chunk env bp =
      (dedupBlock (c.fs.grow f (lbn.val * 4096 + blkoffset + chunk.length)) f lbn
        (iterKey sha1 bp blkoffset chunk env) env.entry).map fun t =>
          (Cached.issue sync { c with fs := t } f lbn (iterBuf bp blkoffset chunk env),
            (vnIoFaultUiomove bp blkoffset chunk env.fault).2, chunk.length) := by
  have htake : chunk.take (blksize
      ((c.fs.grow f (lbn.val * 4096 + blkoffset + chunk.length)).size f) lbn) = chunk := by
    apply take_blksize hchunk hlen
    rw [Fs.size_grow, if_pos rfl]
    exact Nat.le_max_right _ _
  simp only [Cached.writeBlock, htake]
  rfl

variable [Fintype ι]

namespace Settles

omit [DecidableEq ι] in
/-- The accounting does not depend on the disk. -/
theorem counted {rel : ℕ → ℕ → Prop} (h : Settles c s) (hs : Counted rel s) :
    Counted rel c.fs :=
  hs.congr h.table.symm h.ptr.symm h.freeMap.symm (by rw [h.same]; rfl)

/-- A successful `ffs_balloc` is one in both states. -/
theorem ffsBalloc_ok (h : Settles c s) (hs : Counted (· ≤ ·) s) {size : ℕ} {clrbuf : Bool}
    {env : Env} {s₁ : Fs ι} {bp : Buf}
    (hread : c.fs.bufs f lbn = none → c.OnDisk (c.fs.ptr f lbn))
    (hballoc : Ddfs.ffsBalloc s f lbn size clrbuf env = some (.ok (s₁, bp))) :
    ∃ u, Ddfs.ffsBalloc c.fs f lbn size clrbuf env = some (.ok (u, bp)) ∧
      s₁ = u.setDisk s.disk := by
  rw [h.ffsBalloc hs hread] at hballoc
  obtain ⟨r, hr, hmap⟩ := Option.map_eq_some_iff.mp hballoc
  cases r with
  | error e => cases hmap
  | ok r =>
    simp only [Except.map, Except.ok.injEq, Prod.mk.injEq] at hmap
    obtain ⟨rfl, rfl⟩ := hmap
    exact ⟨r.1, hr, rfl⟩

/-- The block that `ffs_balloc` gets ready is not the boot block. -/
theorem ptr_ne_zero (h : Settles c s) (hs : Consistent sha1 S s) {size : ℕ} {clrbuf : Bool}
    {env : Env} {u : Fs ι} {bp : Buf}
    (hballoc : Ddfs.ffsBalloc c.fs f lbn size clrbuf env = some (.ok (u, bp))) :
    u.ptr f lbn ≠ 0 := by
  have h0 : c.fs.freeMap 0 = false := by
    rw [← h.freeMap]
    exact hs.sound.boot
  exact ffsBalloc_ptr_ne_zero hballoc h0

omit [Fintype ι] in
/-- A block that is written at once reads the same from both disks, and another one if it did
before. -/
theorem raw_issue {t' : Fs ι} {bp : Buf} {i : Fin 12} (hdisk : t'.disk = c.fs.disk)
    (hraw : t'.ptr f i ≠ 0 → t'.ptr f i ≠ bp.blkno →
      c.fs.disk (t'.ptr f i) = s.disk (t'.ptr f i)) :
    (Cached.issue true { c with fs := t' } f lbn bp).fs.raw f i =
      ((t'.setDisk s.disk).bwrite f lbn bp).raw f i := by
  rw [Fs.raw, Fs.raw, Cached.ptr_issue, Cached.disk_issue, Fs.disk_bwrite]
  change (if t'.ptr f i = 0 then _ else _) = if t'.ptr f i = 0 then _ else _
  by_cases hptr : t'.ptr f i = 0
  · rw [if_pos hptr, if_pos hptr]
  · rw [if_neg hptr, if_neg hptr]
    by_cases hblk : t'.ptr f i = bp.blkno
    · exact (if_pos ⟨rfl, hblk⟩).trans (if_pos hblk).symm
    · refine (if_neg fun hc => hblk hc.2).trans (Eq.trans ?_ (if_neg hblk).symm)
      change t'.disk (t'.ptr f i) = s.disk (t'.ptr f i)
      rw [hdisk]
      exact hraw hptr hblk

section Iter

variable {blkoffset : ℕ} {chunk : List UInt8} {env : Env}

/-- The iteration meets the guard of the runs without delay. -/
theorem whole (h : Settles c s) (hs : Consistent sha1 S s)
    (hok : Cached.IterOk sha1 S sync c f lbn blkoffset chunk env) :
    (wholeBlocks ι sha1 S).iter s f lbn blkoffset chunk env := by
  intro s₁ bp hballoc
  obtain ⟨u, hu, rfl⟩ := h.ffsBalloc_ok hs.counted hok.read hballoc
  have hw := hok.whole u bp hu
  exact ⟨hw.hashes, hw.mem, ⟨hw.dedup.noSecond, hw.dedup.fits⟩, hw.other⟩

/-- What an iteration does to the block of the file behind `ffs_balloc`. -/
theorem ready (h : Settles c s) (hs : Consistent sha1 S s)
    (hok : Cached.IterOk sha1 S sync c f lbn blkoffset chunk env) {u t' : Fs ι} {bp : Buf} {n : ℕ}
    (hballoc : Ddfs.ffsBalloc c.fs f lbn (blkoffset + chunk.length) (chunk.length < 4096) env =
      some (.ok (u, bp)))
    (hdedup : dedupBlock (u.grow f n) f lbn (iterKey sha1 bp blkoffset chunk env) env.entry =
      some t') :
    Ready f lbn bp.blkno c.fs t' ∧ (t'.ptr f lbn = bp.blkno ∨
      ∃ p e, findKey (iterKey sha1 bp blkoffset chunk env) u.table = some (p, e) ∧
        e.blockptr ≠ bp.blkno ∧ t'.ptr f lbn = e.blockptr) := by
  have hblkno : (u.grow f n).ptr f lbn = bp.blkno := by
    rw [Fs.ptr_grow, ffsBalloc_blkno hballoc]
  have hcount : Counted (· ≤ ·) (u.grow f n) :=
    ((h.counted hs.counted).ffsBalloc hballoc).congr (by simp) (by funext g j; simp) (by simp)
      (by simp)
  have hcases := hcount.kept_or_freed hdedup (by
    simpa [LastRef] using (hok.whole u bp hballoc).other)
  rw [hblkno, Fs.table_grow] at hcases
  have hready := (Ready.of_ffsBalloc hballoc).grow n
  rcases hcases with hkept | ⟨p, e, hkey, hne, hptr, hfreed⟩
  · exact ⟨hready.dedupBlock hblkno hdedup (Or.inl hkept), Or.inl hkept⟩
  · exact ⟨hready.dedupBlock hblkno hdedup (Or.inr hfreed), Or.inr ⟨p, e, hkey, hne, hptr⟩⟩

/-- An iteration and the one without delay have the same outcome. -/
theorem iter (h : Settles c s) (hs : Consistent sha1 S s) (hchunk : chunk ≠ [])
    (hlen : blkoffset + chunk.length ≤ 4096)
    (hok : Cached.IterOk sha1 S sync c f lbn blkoffset chunk env) :
    (Cached.ffsWriteIter sha1 sync c f lbn blkoffset chunk env = none ∧
      ffsWriteIter sha1 s f lbn blkoffset chunk env = none) ∨
    ∃ c' t err n, Cached.ffsWriteIter sha1 sync c f lbn blkoffset chunk env = some (c', err, n) ∧
      ffsWriteIter sha1 s f lbn blkoffset chunk env = some (t, err, n) ∧ Settles c' t ∧
      (sync = true → err = none → c'.fs.raw f lbn = t.raw f lbn ∧
        ∀ i, i ≠ lbn → c.fs.raw f i = s.raw f i → c'.fs.raw f i = t.raw f i) := by
  rw [Cached.ffsWriteIter, ffsWriteIter, h.ffsBalloc hs.counted hok.read]
  cases hballoc :
      Ddfs.ffsBalloc c.fs f lbn (blkoffset + chunk.length) (chunk.length < 4096) env with
  | none => exact Or.inl ⟨rfl, rfl⟩
  | some r =>
    cases r with
    | error e => exact Or.inr ⟨c, s, some e, 0, rfl, rfl, h, fun _ herr => by cases herr⟩
    | ok r =>
      obtain ⟨u, bp⟩ := r
      simp only [Option.map_some, Except.map]
      rw [Cached.writeBlock_eq hchunk hlen, writeBlock_eq hchunk hlen, grow_setDisk,
        dedupBlock_setDisk]
      cases hdedup : dedupBlock (u.grow f (lbn.val * 4096 + blkoffset + chunk.length)) f lbn
          (iterKey sha1 bp blkoffset chunk env) env.entry with
      | none => exact Or.inl ⟨rfl, rfl⟩
      | some t' =>
        obtain ⟨hready, hptr⟩ := h.ready hs hok hballoc hdedup
        have hne : bp.blkno ≠ 0 := ffsBalloc_blkno hballoc ▸ h.ptr_ne_zero hs hballoc
        have hblkno := blkno_iterBuf bp blkoffset chunk env
        rw [← hblkno] at hready hne
        have halone : c.Undisturbed f lbn (iterBuf bp blkoffset chunk env).blkno
            (iterBuf bp blkoffset chunk env).data := by
          rw [hblkno]
          exact hok.alone u bp hballoc
        refine Or.inr ⟨_, _, _, _, rfl, rfl, h.issue sync hready hne halone, ?_⟩
        rintro rfl -
        constructor
        · refine raw_issue (c := c) hready.disk fun _ hnew => ?_
          rw [hblkno] at hnew
          rcases hptr with hkept | ⟨p, e, hkey, hother, hswitch⟩
          · exact absurd hkept hnew
          · rw [hswitch]
            refine h.disk_eq ?_ (hok.found rfl u bp hballoc p e hkey hother)
            rw [← (Ready.of_ffsBalloc hballoc).freeMap hother]
            exact ((h.counted hs.counted).ffsBalloc hballoc).entry_not_free
              (inUse_of_findKey hkey).1
        · intro i hi hraw
          have hptr' : t'.ptr f i = c.fs.ptr f i := hready.ptr fun hc => hi hc.2
          refine raw_issue (c := c) hready.disk fun hnz _ => ?_
          rw [hptr'] at hnz ⊢
          rwa [Fs.raw, Fs.raw, h.ptr, if_neg hnz, if_neg hnz] at hraw

end Iter

section Trunc

variable {length : ℕ} {env : Env}

/-- The truncation meets the guard of the runs without delay. -/
theorem wholeTrunc (h : Settles c s) (hs : Consistent sha1 S s)
    (hok : Cached.TruncOk c f length env) : (wholeBlocks ι sha1 S).trunc s f length env := by
  intro lbn s₁ bp hlbn hballoc
  -- the bytes that were read are those of the block, unless this is a new one
  have hbytes : findBlock bp.blkno s₁.table = none ∨ bp.data = s₁.disk bp.blkno := by
    rw [ffsBalloc_blkno hballoc]
    rcases ffsBalloc_state hballoc with ⟨hptr, rfl⟩ | ⟨-, newb, hfree, rfl⟩
    · right
      rw [hs.layout.data_of_ffsBalloc hballoc, Fs.raw, if_neg hptr]
    · left
      rw [Fs.ptr_setPtr_self, Fs.table_setPtr, Fs.table_take, findBlock_eq_none]
      rintro p e he rfl
      rw [hs.counted.entry_not_free he] at hfree
      cases hfree
  have hgoal : findBlock bp.blkno s₁.table = none ∨
      (truncBuf s f length bp).data = s₁.disk bp.blkno := by
    by_cases hzero : length < s.size f ∧ length % 4096 ≠ 0
    · have hwrites : Cached.TruncWrites c.fs f length lbn :=
        ⟨hlbn, fun hnil => hzero.2 (by rw [hnil]), fun _ hmod => absurd hmod hzero.2⟩
      obtain ⟨u, hu, rfl⟩ := h.ffsBalloc_ok hs.counted (hok.read lbn hwrites) hballoc
      rcases hok.keeps lbn u bp hlbn hu with hnone | hsame
      · exact Or.inl hnone
      · refine hbytes.imp id fun hdisk => ?_
        rw [truncBuf, h.size]
        exact hsame.trans hdisk
    · rw [truncBuf, if_neg hzero]
      exact hbytes
  rwa [← blkno_truncBuf length bp] at hgoal

/-- The write of the block with the new last byte. -/
theorem truncWrite (h : Settles c s) (hs : Consistent sha1 S s)
    (hok : Cached.TruncOk c f length env) (hwrites : Cached.TruncWrites c.fs f length lbn)
    {u u' : Fs ι} {bp bp' : Buf} (hballoc : Ddfs.ffsBalloc c.fs f lbn
      ((length - 1) % 4096 + 1) true env = some (.ok (u, bp)))
    (hready : Ready f lbn bp.blkno c.fs u') (hblkno : bp'.blkno = bp.blkno)
    (hdata : bp'.data = (truncBuf c.fs f length bp).data) :
    Settles ({ c with fs := u' }.bwrite f lbn bp') ((u'.setDisk s.disk).bwrite f lbn bp') := by
  have hne : bp.blkno ≠ 0 := ffsBalloc_blkno hballoc ▸ h.ptr_ne_zero hs hballoc
  have halone := hok.alone lbn u bp hwrites hballoc
  rw [← hblkno] at hready hne halone
  rw [← hdata] at halone
  exact h.issue true hready hne halone

theorem extend (h : Settles c s) (hs : Consistent sha1 S s)
    (hok : Cached.TruncOk c f length env) (hlt : c.fs.size f < length)
    (hrun : c.ffsExtend f length env = some (c', err)) :
    ∃ t, ffsExtend s f length env = some (t, err) ∧ Settles c' t := by
  simp only [Cached.ffsExtend] at hrun
  split at hrun
  · next hlbn =>
    have hwrites : Cached.TruncWrites c.fs f length ⟨(length - 1) / 4096, hlbn⟩ :=
      ⟨rfl, by omega, fun hgt => by omega⟩
    rw [ffsExtend, dif_pos hlbn]
    simp only [h.ffsBalloc hs.counted (hok.read _ hwrites)]
    cases hballoc : Ddfs.ffsBalloc c.fs f ⟨(length - 1) / 4096, hlbn⟩ ((length - 1) % 4096 + 1) true
        env with
    | none => simp [hballoc] at hrun
    | some r =>
      cases r with
      | error e =>
        simp only [hballoc, Option.some.injEq, Prod.mk.injEq] at hrun
        obtain ⟨rfl, rfl⟩ := hrun
        exact ⟨s, rfl, h⟩
      | ok r =>
        obtain ⟨u, bp⟩ := r
        simp only [hballoc, Option.some.injEq, Prod.mk.injEq] at hrun
        obtain ⟨rfl, rfl⟩ := hrun
        have hbuf : truncBuf c.fs f length bp = bp := if_neg fun hc => by omega
        exact ⟨_, rfl, h.truncWrite hs hok hwrites hballoc
          ((Ready.of_ffsBalloc hballoc).setSize length) rfl (by rw [hbuf])⟩
  · cases hrun

/-- The buffers behind the new end may still be dropped when the last block is written. -/
theorem droppable_write (h : Settles c s) (hs : Consistent sha1 S s) {keep : ℕ}
    (hlbn : lbn.val < keep) (hdrop : c.Droppable f keep) {u : Fs ι} {bp bp' : Buf}
    (hready : Ready f lbn bp.blkno c.fs u) (htable : u.table = c.fs.table)
    (hblkno : bp'.blkno = bp.blkno) {i : Fin 12} {b : ℤ} (hi : keep ≤ i.val)
    (hwait : ({ c with fs := u }.bwrite f lbn bp').waiting f i = some b)
    (hlone : ∀ g j, ({ c with fs := u }.bwrite f lbn bp').waiting g j = some b →
      g = f ∧ keep ≤ j.val) :
    ({ c with fs := u }.bwrite f lbn bp').fs.disk b =
        ((u.setDisk s.disk).bwrite f lbn bp').disk b ∨ LastRef u.table b := by
  have hwaiting : ∀ {g j}, ¬(g = f ∧ j = lbn) →
      ({ c with fs := u }.bwrite f lbn bp').waiting g j = c.waiting g j :=
    fun hg => (Cached.setWaiting_apply (c := c) none).trans (if_neg hg)
  have hilbn : ¬(f = f ∧ i = lbn) := by
    rintro ⟨-, rfl⟩
    omega
  rw [hwaiting hilbn] at hwait
  change (u.bwrite f lbn bp').disk b = _ ∨ _
  rw [Fs.disk_bwrite, Fs.disk_bwrite, hready.disk, htable, hblkno]
  by_cases hblk : b = bp.blkno
  · rw [if_pos hblk, if_pos hblk]
    exact Or.inl rfl
  · rw [if_neg hblk, if_neg hblk]
    by_cases hown : c.waiting f lbn = some b
    · -- the buffer that was written had waited for a block that was given up
      right
      rcases h.owned hown with hptr | hfree
      · rcases hready.old with hold | hold
        · exact absurd (hptr.trans hold) hblk
        · exact absurd (hptr.trans hold) (h.dirty hown).1
      · exact (h.counted hs.counted).lastRef_of_free hfree
    · refine (hdrop i b hi hwait fun g j hgj => ?_).imp (fun hdisk => ?_) id
      · refine hlone g j ((hwaiting ?_).trans hgj)
        rintro ⟨rfl, rfl⟩
        exact hown hgj
      · exact Option.some.inj ((hdisk f i hwait).symm.trans (h.dirty hwait).2)

/-- A shorter file keeps its last block. -/
theorem shrink_keep (h : Settles c s) (hs : Consistent sha1 S s)
    (hok : Cached.TruncOk c f length env) (hlt : length < c.fs.size f) :
    Settles (c.truncTail f length) (Ddfs.truncTail s f length) := by
  refine h.truncTail hs.counted fun i b hi hwait hlone => ?_
  refine (hok.drops hlt i b hi hwait hlone).imp (fun hdisk => ?_) id
  exact Option.some.inj ((hdisk f i hwait).symm.trans (h.dirty hwait).2)

/-- A shorter file has its last block written. -/
theorem shrink_write (h : Settles c s) (hs : Consistent sha1 S s)
    (hok : Cached.TruncOk c f length env) (hlt : length < c.fs.size f)
    (hlbn : (length - 1) / 4096 < 12)
    (hwrite : ¬((if length = 0 then -1 else c.fs.ptr f ⟨(length - 1) / 4096, hlbn⟩) ≠ 0 ∧
      length % 4096 = 0))
    (hwrites : Cached.TruncWrites c.fs f length ⟨(length - 1) / 4096, hlbn⟩) {u : Fs ι} {bp : Buf}
    (hballoc : Ddfs.ffsBalloc c.fs f ⟨(length - 1) / 4096, hlbn⟩ ((length - 1) % 4096 + 1) true
      env = some (.ok (u, bp)))
    (hrun : c.ffsShrink f length env = some (c', err)) :
    ∃ t, ffsShrink s f length env = some (t, err) ∧ Settles c' t := by
  have hptr := h.ptr_ne_zero hs hballoc
  have hwrite' : ¬((if length = 0 then -1 else s.ptr f ⟨(length - 1) / 4096, hlbn⟩) ≠ 0 ∧
      length % 4096 = 0) := by rwa [h.ptr]
  have hballoc' :
      Ddfs.ffsBalloc s f ⟨(length - 1) / 4096, hlbn⟩ ((length - 1) % 4096 + 1) true env =
        some (.ok (u.setDisk s.disk, bp)) := by
    rw [h.ffsBalloc hs.counted (hok.read _ hwrites), hballoc]
    rfl
  rw [Cached.ffsShrink_eq hlt hlbn hwrite hballoc hptr] at hrun
  obtain ⟨r, hr, heq⟩ := Option.map_eq_some_iff.mp hrun
  obtain ⟨rfl, rfl⟩ := Prod.mk.inj heq
  have hbuf : truncBuf s f length bp = truncBuf c.fs f length bp := by
    rw [truncBuf, truncBuf, h.size]
  have hblkno := blkno_truncBuf (s := c.fs) (f := f) length bp
  -- the second `ffs_balloc` finds the buffer of the first one
  have hsecond : Ddfs.ffsBalloc
      ((u.setDisk s.disk).bwrite f ⟨(length - 1) / 4096, hlbn⟩ bp) f
      ⟨(length - 1) / 4096, hlbn⟩ ((length - 1) % 4096 + 1) true env = some (r.map fun r =>
        (r.1.setDisk (Function.update s.disk bp.blkno bp.data), r.2)) := by
    rw [← Option.map_some, ← hr]
    refine ffsBalloc_setDisk (s := u.bwrite f ⟨(length - 1) / 4096, hlbn⟩ bp) fun _ hbuf => ?_
    rw [Fs.bufs_bwrite, if_pos ⟨rfl, rfl⟩] at hbuf
    cases hbuf
  refine ⟨_, by rw [ffsShrink_eq (by rwa [h.size]) hlbn hwrite' hballoc' hptr, hsecond]; rfl, ?_⟩
  rw [hbuf]
  have hcount : Counted (· ≤ ·) (u.setDisk s.disk) := hs.counted.ffsBalloc hballoc'
  have hready := Ready.of_ffsBalloc hballoc
  have htable : u.table = c.fs.table := by
    rcases ffsBalloc_state hballoc with ⟨-, rfl⟩ | ⟨-, newb, -, rfl⟩ <;> rfl
  refine (h.truncWrite hs hok hwrites hballoc hready hblkno rfl).truncTail
    (hcount.congr rfl rfl rfl rfl) fun i b hi hwait hlone => ?_
  have hlt' : (length - 1) / 4096 < (length + 4095) / 4096 := by
    have hpos := hwrites.2.1
    omega
  exact h.droppable_write hs hlt' (hok.drops hlt) hready htable hblkno hi hwait hlone

theorem shrink (h : Settles c s) (hs : Consistent sha1 S s)
    (hok : Cached.TruncOk c f length env) (hlt : length < c.fs.size f)
    (hrun : c.ffsShrink f length env = some (c', err)) :
    ∃ t, ffsShrink s f length env = some (t, err) ∧ Settles c' t := by
  by_cases hlbn : (length - 1) / 4096 < 12
  · by_cases hkeep : (if length = 0 then -1 else c.fs.ptr f ⟨(length - 1) / 4096, hlbn⟩) ≠ 0 ∧
        length % 4096 = 0
    · rw [Cached.ffsShrink, dif_pos hlbn, if_pos hkeep, Option.some.injEq, Prod.mk.injEq] at hrun
      obtain ⟨rfl, rfl⟩ := hrun
      rw [ffsShrink, dif_pos hlbn, h.ptr, if_pos hkeep]
      exact ⟨_, rfl, h.shrink_keep hs hok hlt⟩
    · have hwrites : Cached.TruncWrites c.fs f length ⟨(length - 1) / 4096, hlbn⟩ := by
        have hpos : length ≠ 0 := by
          rintro rfl
          exact hkeep ⟨by simp, rfl⟩
        refine ⟨rfl, hpos, fun _ hmod => not_not.mp fun hptr => hkeep ⟨?_, hmod⟩⟩
        rwa [if_neg hpos]
      cases hballoc : Ddfs.ffsBalloc c.fs f ⟨(length - 1) / 4096, hlbn⟩
          ((length - 1) % 4096 + 1) true env with
      | none =>
        rw [Cached.ffsShrink, dif_pos hlbn, if_neg hkeep, hballoc] at hrun
        cases hrun
      | some r =>
        cases r with
        | error e =>
          rw [Cached.ffsShrink, dif_pos hlbn, if_neg hkeep, hballoc] at hrun
          simp only [Option.some.injEq, Prod.mk.injEq] at hrun
          obtain ⟨rfl, rfl⟩ := hrun
          refine ⟨s, ?_, h⟩
          rw [ffsShrink, dif_pos hlbn, h.ptr, if_neg hkeep,
            h.ffsBalloc hs.counted (hok.read _ hwrites), hballoc]
          rfl
        | ok r => exact h.shrink_write hs hok hlt hlbn hkeep hwrites hballoc hrun
  · rw [Cached.ffsShrink, dif_neg hlbn] at hrun
    cases hrun

/-- A truncation and the one without delay have the same outcome. -/
theorem trunc (hS : Set.InjOn sha1 S) (h : Settles c s) (hs : Consistent sha1 S s)
    (hok : c.fs.size f ≠ length → Cached.TruncOk (c.truncStart f length) f length env)
    (hrun : c.ffsTruncate f length env = some (c', err)) :
    ∃ t, ffsTruncate s f length env = some (t, err) ∧ Settles c' t ∧ Consistent sha1 S t := by
  rw [Cached.ffsTruncate] at hrun
  by_cases heq : c.fs.size f = length
  · rw [if_pos heq, Option.some.injEq, Prod.mk.injEq] at hrun
    obtain ⟨rfl, rfl⟩ := hrun
    exact ⟨s, by rw [ffsTruncate, h.size, if_pos heq], h, hs⟩
  · have hok := hok heq
    rw [if_neg heq] at hrun
    rw [Cached.truncStart] at hok
    by_cases hlt : c.fs.size f < length
    · rw [if_pos hlt] at hrun hok
      obtain ⟨t, ht, hsettles⟩ := h.extend hs hok hlt hrun
      have htrunc : ffsTruncate s f length env = some (t, err) := by
        rw [ffsTruncate, h.size, if_neg heq, if_pos hlt, ht]
      exact ⟨t, htrunc, hsettles,
        (Consistent.preserved hS).trunc hs (h.wholeTrunc hs hok) htrunc⟩
    · rw [if_neg hlt] at hrun hok
      have h₀ := h.syncHole f length
      have hgt : length < (c.syncHole f length).fs.size f := by
        rw [← h₀.size, h.size]
        omega
      obtain ⟨t, ht, hsettles⟩ := h₀.shrink hs hok hgt hrun
      have htrunc : ffsTruncate s f length env = some (t, err) := by
        rw [ffsTruncate, h.size, if_neg heq, if_neg hlt, ht]
      exact ⟨t, htrunc, hsettles,
        (Consistent.preserved hS).trunc hs (h₀.wholeTrunc hs hok) htrunc⟩

end Trunc

/-! ## The loop -/

/-- The loop of `ffs_write` and the one without delay have the same outcome. Behind synchronous
writes that succeed, all blocks of the file are on the disk if those are that no byte goes to. -/
theorem writeLoop (hS : Set.InjOn sha1 S) {env : ℕ → CacheEnv ι} {fuel offset : ℕ}
    {data : List UInt8} (h : Settles c s) (hs : Consistent sha1 S s)
    (hok : Cached.loopOk sha1 S sync f env fuel c offset data) :
    (wholeBlocks ι sha1 S).loop sha1 f (fun i => (env i).toEnv) fuel s offset data ∧
    ∀ {c' err}, Cached.ffsWriteLoop sha1 sync f env fuel c offset data = some (c', err) →
      ∃ t, ffsWriteLoop sha1 f (fun i => (env i).toEnv) fuel s offset data = some (t, err) ∧
        Settles c' t ∧ Consistent sha1 S t ∧
        (data.length ≤ fuel → sync = true → err = none →
          (∀ i, ¬Cached.Touched offset data.length i → c.fs.raw f i = s.raw f i) →
            ∀ i, c'.fs.raw f i = t.raw f i) := by
  induction fuel generalizing c s offset data with
  | zero =>
    refine ⟨trivial, fun {c' err} hrun => ?_⟩
    simp only [Cached.ffsWriteLoop, Option.some.injEq, Prod.mk.injEq] at hrun
    obtain ⟨rfl, rfl⟩ := hrun
    refine ⟨s, rfl, h, hs, fun hfuel _ _ hraw i => hraw i fun htouched => ?_⟩
    exact absurd htouched.1 (by omega)
  | succ fuel ih =>
    by_cases hdata : data = []
    · refine ⟨fun hne => absurd hdata hne, fun {c' err} hrun => ?_⟩
      rw [Cached.ffsWriteLoop, if_pos hdata, Option.some.injEq, Prod.mk.injEq] at hrun
      obtain ⟨rfl, rfl⟩ := hrun
      refine ⟨s, by rw [ffsWriteLoop, if_pos hdata], h, hs, fun _ _ _ hraw i => hraw i ?_⟩
      rintro ⟨hpos, -⟩
      rw [hdata] at hpos
      exact absurd hpos (by decide)
    · by_cases hlbn : offset / 4096 < 12
      · obtain ⟨hiter, hrest⟩ := hok hdata hlbn
        obtain ⟨hchunk, hfit⟩ := chunk_fits hdata offset
        have h₁ := h.flushAll (env (offset / 4096)).flushed
        have hwhole := h₁.whole hs hiter
        rw [Cached.ffsWriteLoop, if_neg hdata, dif_pos hlbn, ffsWriteLoop, if_neg hdata,
          dif_pos hlbn]
        rcases h₁.iter hs hchunk hfit hiter with ⟨hcnone, hsnone⟩ |
          ⟨c₁, t₁, e, n, hc, ht, hsettles, hraw₁⟩
        · refine ⟨fun _ _ => ⟨hwhole, fun t moved ht => ?_⟩, fun {c' err} hrun => ?_⟩
          · rw [hsnone] at ht
            cases ht
          · simp only [hcnone] at hrun
            cases hrun
        · have hs₁ := (Consistent.preserved hS).iter hchunk hfit hs hwhole ht
          simp only [hc, ht]
          cases e with
          | some e =>
            refine ⟨fun _ _ => ⟨hwhole, fun t moved ht' => ?_⟩, fun {c' err} hrun => ?_⟩
            · rw [ht] at ht'
              cases ht'
            · simp only [Option.some.injEq, Prod.mk.injEq] at hrun
              obtain ⟨rfl, rfl⟩ := hrun
              exact ⟨t₁, rfl, hsettles, hs₁, fun _ _ herr => by cases herr⟩
          | none =>
            have hn := moved_of_iter hchunk hfit ht
            have hpos := List.length_pos_iff.mpr hchunk
            obtain ⟨hloop, hnext⟩ := ih hsettles hs₁ (hrest c₁ n hc)
            refine ⟨fun _ _ => ⟨hwhole, fun t moved ht' => ?_⟩, fun {c' err} hrun => ?_⟩
            · rw [ht] at ht'
              obtain ⟨rfl, -, rfl⟩ := by simpa using ht'
              exact hloop
            · have hne : n ≠ 0 := by omega
              simp only [if_neg hne] at hrun
              obtain ⟨t, hrun', hsettles', ht', hraw'⟩ := hnext hrun
              refine ⟨t, (if_neg hne).trans hrun', hsettles', ht', ?_⟩
              intro hfuel hsync herr hraw
              have hlen : (data.take (4096 - offset % 4096)).length =
                  min (4096 - offset % 4096) data.length := List.length_take
              refine hraw' (by rw [List.length_drop]; omega) hsync herr fun i hi => ?_
              obtain ⟨hself, hothers⟩ := hraw₁ hsync rfl
              by_cases hilbn : i = ⟨offset / 4096, hlbn⟩
              · rw [hilbn]
                exact hself
              · refine hothers i hilbn (h.raw_flushAll (hraw i fun htouched => hi ?_) _)
                rw [List.length_drop]
                exact htouched.next (fun heq => hilbn (Fin.ext heq)) (hn.trans hlen)
      · refine ⟨fun _ hlt => absurd hlt hlbn, fun {c' err} hrun => ?_⟩
        rw [Cached.ffsWriteLoop, if_neg hdata, dif_neg hlbn] at hrun
        cases hrun

end Settles

end EmbeddedOs.Ddfs
