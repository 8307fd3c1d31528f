import EmbeddedOs.Ddfs.ReadWrite

/-!
# Delayed writes

`ffs_write` hands a buffer to `bwrite` only under `IO_SYNC`. Without this flag it goes to
`bawrite`, `cluster_write` or `bdwrite`, and comes to the disk at some later time: until then it
waits in the cache, with the `b_blkno` it had when it was handed over. Here the disk of a state
has what was written so far, and the buffers that wait are part of the state.

A state is compared with the one in which all that waits has been written. What is known about
the runs without delay then tells when a file can be read back from the disk behind a
synchronous write: nothing that is read, dropped or read back may wait somewhere else.
-/

namespace EmbeddedOs.Ddfs

open Lib Lib.SlotTable Lib.Bytes

/-- A mounted `ddfs` with a cache that delays writes. -/
structure Cached (ι : Type) where
  /-- The file system; its disk has what was written so far. -/
  fs : Fs ι
  /-- The buffers with `B_DELWRI`, or on their way to the disk, with their `b_blkno`. -/
  waiting : ι → Fin 12 → Option ℤ

/-- The bits of `a_ioflag` with `IO_SYNC`. -/
structure SyncIoFlag extends IoFlag where
  /-- `IO_SYNC`. -/
  sync : Bool

/-- What the environment decides in one iteration of `ffs_write`. -/
structure CacheEnv (ι : Type) extends Env where
  /-- The buffers that come to the disk right before it. -/
  flushed : List (ι × Fin 12)

variable {ι : Type}

/-- Replace the content of the disk. -/
def Fs.setDisk (s : Fs ι) (disk : ℤ → Block) : Fs ι := { s with disk := disk }

variable [DecidableEq ι]

namespace Cached

/-- Note that the buffer of logical block `i` waits for a block, or for none. -/
def setWaiting (c : Cached ι) (f : ι) (i : Fin 12) (b : Option ℤ) : ι → Fin 12 → Option ℤ :=
  Function.update c.waiting f (Function.update (c.waiting f) i b)

/-- `bwrite`. -/
def bwrite (c : Cached ι) (f : ι) (i : Fin 12) (bp : Buf) : Cached ι where
  fs := c.fs.bwrite f i bp
  waiting := c.setWaiting f i none

/-- `bdwrite`; also `bawrite` and `cluster_write`, which do not wait for the disk either. -/
def bdwrite (c : Cached ι) (f : ι) (i : Fin 12) (bp : Buf) : Cached ι where
  fs := (c.fs.bwrite f i bp).setDisk c.fs.disk
  waiting := c.setWaiting f i (some bp.blkno)

/-- The last lines of an iteration of `ffs_write`. -/
def issue (sync : Bool) (c : Cached ι) (f : ι) (i : Fin 12) (bp : Buf) : Cached ι :=
  if sync then c.bwrite f i bp else c.bdwrite f i bp

/-- A buffer that waits comes to the disk. -/
def flush (c : Cached ι) (p : ι × Fin 12) : Cached ι :=
  match c.waiting p.1 p.2, c.fs.bufs p.1 p.2 with
  | some b, some d =>
    { fs := c.fs.setDisk (Function.update c.fs.disk b d)
      waiting := c.setWaiting p.1 p.2 none }
  | _, _ => c

/-- Several buffers come to the disk, one after the other. -/
def flushAll (c : Cached ι) (ps : List (ι × Fin 12)) : Cached ι := ps.foldl flush c

/-- `ffs_syncvnode`. -/
def ffsSyncvnode (c : Cached ι) (f : ι) : Cached ι :=
  c.flushAll ((List.finRange 12).map fun i => (f, i))

/-! ## `ffs_write` -/

/-- The part of an iteration of `ffs_write` after `UFS_BALLOC` returned the buffer `bp`. -/
def writeBlock (sha1 : Block → Key) (sync : Bool) (c : Cached ι) (f : ι) (lbn : Fin 12)
    (blkoffset : ℕ) (chunk : List UInt8) (env : Env) (bp : Buf) :
    Option (Cached ι × Option Errno × ℕ) :=
  let s := c.fs.grow f (lbn.val * 4096 + blkoffset + chunk.length)
  let chunk := chunk.take (blksize (s.size f) lbn)
  let (bp, err) := vnIoFaultUiomove bp blkoffset chunk env.fault
  let hash := sha1 (hashedBytes bp.data blkoffset env.beyond)
  (dedupBlock s f lbn hash env.entry).map fun s =>
    (issue sync { c with fs := s } f lbn (finishBuf bp err chunk.length), err, chunk.length)

/-- One iteration of the loop of `ffs_write`. -/
def ffsWriteIter (sha1 : Block → Key) (sync : Bool) (c : Cached ι) (f : ι) (lbn : Fin 12)
    (blkoffset : ℕ) (chunk : List UInt8) (env : Env) : Option (Cached ι × Option Errno × ℕ) :=
  match ffsBalloc c.fs f lbn (blkoffset + chunk.length) (chunk.length < 4096) env with
  | none => none
  | some (.error e) => some (c, some e, 0)
  | some (.ok (s, bp)) => writeBlock sha1 sync { c with fs := s } f lbn blkoffset chunk env bp

/-- The loop of `ffs_write`. Some of the buffers that wait may come to the disk before each
iteration. -/
def ffsWriteLoop (sha1 : Block → Key) (sync : Bool) (f : ι) (env : ℕ → CacheEnv ι) :
    ℕ → Cached ι → ℕ → List UInt8 → Option (Cached ι × Option Errno)
  | 0, c, _, _ => some (c, none)
  | fuel + 1, c, offset, data =>
    if data = [] then some (c, none)
    else if h : offset / 4096 < 12 then
      let blkoffset := offset % 4096
      let e := env (offset / 4096)
      match ffsWriteIter sha1 sync (c.flushAll e.flushed) f ⟨offset / 4096, h⟩ blkoffset
          (data.take (4096 - blkoffset)) e.toEnv with
      | none => none
      | some (c, some e, _) => some (c, some e)
      | some (c, none, moved) =>
        if moved = 0 then some (c, none)
        else ffsWriteLoop sha1 sync f env fuel c (offset + moved) (data.drop moved)
    else none

/-! ## `ffs_truncate`

Unless the file system is mounted with `MNT_ASYNC` or soft updates, which it is not here,
`ffs_truncate` sets `IO_SYNC` itself. -/

/-- The end of `ffs_truncate`: `vtruncbuf` drops the buffers behind the new end, also those that
wait. -/
def truncTail (c : Cached ι) (f : ι) (length : ℕ) : Cached ι where
  fs := Ddfs.truncTail c.fs f length
  waiting := Function.update c.waiting f fun i =>
    if (length + 4095) / 4096 ≤ i.val then none else c.waiting f i

/-- When the new end is in a hole, the buffers of the file are written first. -/
def syncHole (c : Cached ι) (f : ι) (length : ℕ) : Cached ι :=
  if h : (length - 1) / 4096 < 12 then
    if length ≠ 0 ∧ c.fs.ptr f ⟨(length - 1) / 4096, h⟩ = 0 then c.ffsSyncvnode f else c
  else c

/-- `ffs_truncate` to a length below the size, behind the `ffs_syncvnode`. -/
def ffsShrink (c : Cached ι) (f : ι) (length : ℕ) (env : Env) :
    Option (Cached ι × Option Errno) :=
  let offset := length % 4096
  if h : (length - 1) / 4096 < 12 then
    let lbn : Fin 12 := ⟨(length - 1) / 4096, h⟩
    let blkno := if length = 0 then -1 else c.fs.ptr f lbn
    if blkno ≠ 0 ∧ offset = 0 then some (c.truncTail f length, none)
    else
      match ffsBalloc c.fs f lbn ((length - 1) % 4096 + 1) true env with
      | none => none
      | some (.error e) => some (c, some e)
      | some (.ok (s, bp)) =>
        let c := { c with fs := s }.bwrite f lbn bp
        match ffsBalloc c.fs f lbn ((length - 1) % 4096 + 1) true env with
        | none => none
        | some (.error e) => some (c, some e)
        | some (.ok (s, bp)) =>
          let bp := if offset ≠ 0 then { bp with data := zeroFrom bp.data offset } else bp
          some (({ c with fs := s }.bwrite f lbn bp).truncTail f length, none)
  else none

/-- `ffs_truncate` to a length above the size. -/
def ffsExtend (c : Cached ι) (f : ι) (length : ℕ) (env : Env) :
    Option (Cached ι × Option Errno) :=
  if h : (length - 1) / 4096 < 12 then
    let lbn : Fin 12 := ⟨(length - 1) / 4096, h⟩
    match ffsBalloc c.fs f lbn ((length - 1) % 4096 + 1) true env with
    | none => none
    | some (.error e) => some (c, some e)
    | some (.ok (s, bp)) =>
      some ({ c with fs := s.setSize f length }.bwrite f lbn bp, none)
  else none

/-- `ffs_truncate`. -/
def ffsTruncate (c : Cached ι) (f : ι) (length : ℕ) (env : Env) :
    Option (Cached ι × Option Errno) :=
  if c.fs.size f = length then some (c, none)
  else if c.fs.size f < length then c.ffsExtend f length env
  else (c.syncHole f length).ffsShrink f length env

/-- `ffs_write`. -/
def ffsWrite (sha1 : Block → Key) (c : Cached ι) (f : ι) (ioflag : SyncIoFlag) (offset : ℕ)
    (data : List UInt8) (env : ℕ → CacheEnv ι) : Option (Cached ι × Option Errno) :=
  let offset := if ioflag.append then c.fs.size f else offset
  let osize := c.fs.size f
  match ffsWriteLoop sha1 ioflag.sync f env data.length c offset data with
  | none => none
  | some (c, none) => some (c, none)
  | some (c, some e) =>
    if ioflag.unit then (c.ffsTruncate f osize (env 12).toEnv).map fun r => (r.1, some e)
    else some (c, some e)

end Cached

/-- A step of a run with a cache that delays writes. -/
inductive CacheCall (ι : Type)
  /-- `ffs_write`. -/
  | write (f : ι) (ioflag : SyncIoFlag) (offset : ℕ) (data : List UInt8) (env : ℕ → CacheEnv ι)
  /-- `ffs_truncate`. -/
  | truncate (f : ι) (length : ℕ) (env : Env)
  /-- A buffer that waits comes to the disk. -/
  | flush (f : ι) (lbn : Fin 12)
  /-- The buffer cache drops a buffer that does not wait. -/
  | evict (f : ι) (lbn : Fin 12)

namespace Cached

/-- Perform a step; the result has the error the call returns. -/
def exec (sha1 : Block → Key) (c : Cached ι) : CacheCall ι → Option (Cached ι × Option Errno)
  | .write f ioflag offset data env => ffsWrite sha1 c f ioflag offset data env
  | .truncate f length env => c.ffsTruncate f length env
  | .flush f lbn => some (c.flush (f, lbn), none)
  | .evict f lbn =>
    if c.waiting f lbn = none then some ({ c with fs := c.fs.dropBuf f lbn }, none) else none

/-- A freshly formatted file system where nothing waits, and the calls. -/
def machine (ι : Type) [DecidableEq ι] (sha1 : Block → Key) :
    Machine (Cached ι) (CacheCall ι) where
  init c := Fresh c.fs ∧ ∀ f i, c.waiting f i = none
  step c call c' := ∃ err, exec sha1 c call = some (c', err)

end Cached

namespace Cached

variable {c : Cached ι} {f g : ι} {i j : Fin 12}

theorem setWaiting_apply (b : Option ℤ) :
    c.setWaiting f i b g j = if g = f ∧ j = i then b else c.waiting g j := by
  by_cases hg : g = f
  · subst hg
    by_cases hj : j = i <;> simp [setWaiting, hj]
  · simp [setWaiting, hg]

theorem waiting_truncTail (length : ℕ) : (c.truncTail f length).waiting g j =
    if g = f ∧ (length + 4095) / 4096 ≤ j.val then none else c.waiting g j := by
  by_cases hg : g = f
  · subst hg
    simp [truncTail]
  · simp [truncTail, hg]

theorem waiting_issue (sync : Bool) (bp : Buf) : (issue sync c f i bp).waiting g j =
    if g = f ∧ j = i then (if sync then none else some bp.blkno) else c.waiting g j := by
  cases sync <;> exact setWaiting_apply _

/-- Behind a write only its own buffer waits that did not wait before. -/
theorem waiting_of_issue {sync : Bool} {bp : Buf} {b : ℤ}
    (h : (issue sync c f i bp).waiting g j = some b) :
    (g = f ∧ j = i ∧ b = bp.blkno) ∨ (¬(g = f ∧ j = i) ∧ c.waiting g j = some b) := by
  rw [waiting_issue] at h
  by_cases hg : g = f ∧ j = i
  · rw [if_pos hg] at h
    cases sync with
    | true => cases h
    | false => exact Or.inl ⟨hg.1, hg.2, (Option.some.inj h).symm⟩
  · rw [if_neg hg] at h
    exact Or.inr ⟨hg, h⟩

/-- Behind a truncation no buffer behind the new end waits. -/
theorem waiting_of_truncTail {length : ℕ} {b : ℤ}
    (h : (c.truncTail f length).waiting g j = some b) :
    ¬(g = f ∧ (length + 4095) / 4096 ≤ j.val) ∧ c.waiting g j = some b := by
  rw [waiting_truncTail] at h
  split at h
  · cases h
  · next hg => exact ⟨hg, h⟩

theorem bufs_issue (sync : Bool) (bp : Buf) : (issue sync c f i bp).fs.bufs g j =
    if g = f ∧ j = i then some bp.data else c.fs.bufs g j := by
  cases sync <;> exact c.fs.bufs_bwrite f g i j bp

theorem disk_issue (sync : Bool) (bp : Buf) (b : ℤ) : (issue sync c f i bp).fs.disk b =
    if sync = true ∧ b = bp.blkno then bp.data else c.fs.disk b := by
  cases sync with
  | false => simp [issue, bdwrite, Fs.setDisk]
  | true => simp [issue, bwrite, Fs.disk_bwrite]

@[simp] theorem ptr_issue (sync : Bool) (bp : Buf) : (issue sync c f i bp).fs.ptr = c.fs.ptr := by
  cases sync <;> rfl

@[simp] theorem freeMap_issue (sync : Bool) (bp : Buf) :
    (issue sync c f i bp).fs.freeMap = c.fs.freeMap := by
  cases sync <;> rfl

/-- A write depends on the number and the bytes of the buffer only. -/
theorem bwrite_congr {bp bp' : Buf} (hblkno : bp'.blkno = bp.blkno) (hdata : bp'.data = bp.data) :
    c.bwrite f i bp' = c.bwrite f i bp := by
  rw [bwrite, bwrite, Fs.bwrite_congr _ _ _ _ hblkno hdata]

/-- Of two writes of a buffer the second one counts. -/
theorem bwrite_bwrite {bp bp' : Buf} (h : bp'.blkno = bp.blkno) :
    (c.bwrite f i bp).bwrite f i bp' = c.bwrite f i bp' := by
  have hwaiting : (c.bwrite f i bp).setWaiting f i none = c.setWaiting f i none := by
    simp [setWaiting, bwrite]
  rw [bwrite, hwaiting]
  exact congrArg (Cached.mk · _) (Fs.bwrite_bwrite _ _ _ _ h)

/-- The second `ffs_balloc` of `ffsShrink` reads back the buffer that was just written. -/
theorem ffsShrink_eq {s₁ : Fs ι} {env : Env} {length : ℕ} {bp : Buf} (hlt : length < c.fs.size f)
    (hlbn : (length - 1) / 4096 < 12)
    (hwrite : ¬((if length = 0 then -1 else c.fs.ptr f ⟨(length - 1) / 4096, hlbn⟩) ≠ 0 ∧
      length % 4096 = 0))
    (hballoc : ffsBalloc c.fs f ⟨(length - 1) / 4096, hlbn⟩ ((length - 1) % 4096 + 1) true env =
      some (.ok (s₁, bp)))
    (hptr : s₁.ptr f ⟨(length - 1) / 4096, hlbn⟩ ≠ 0) :
    c.ffsShrink f length env =
      (ffsBalloc (s₁.bwrite f ⟨(length - 1) / 4096, hlbn⟩ bp) f ⟨(length - 1) / 4096, hlbn⟩
        ((length - 1) % 4096 + 1) true env).map fun _ =>
          (({ c with fs := s₁ }.bwrite f ⟨(length - 1) / 4096, hlbn⟩
            (truncBuf c.fs f length bp)).truncTail f length, none) := by
  have hptr' : (s₁.bwrite f ⟨(length - 1) / 4096, hlbn⟩ bp).ptr f ⟨(length - 1) / 4096, hlbn⟩ ≠ 0 :=
    hptr
  have hfs : ({ c with fs := s₁ }.bwrite f ⟨(length - 1) / 4096, hlbn⟩ bp).fs =
      s₁.bwrite f ⟨(length - 1) / 4096, hlbn⟩ bp := rfl
  rw [ffsShrink, dif_pos hlbn, if_neg hwrite, hballoc]
  simp only [hfs]
  rcases ffsBalloc_of_ptr_ne_zero hptr' env ((length - 1) % 4096 + 1) with hnone | hread
  · simp [hnone]
  · have hblk := ffsBalloc_blkno hballoc
    simp only [hread, Option.map_some, Option.some.injEq, Prod.mk.injEq, and_true]
    rw [Fs.breadGb_bwrite, Fs.ptr_bwrite, ← hblk, ← hfs]
    refine congrArg (truncTail · f length) ((bwrite_bwrite ?_).trans (bwrite_congr ?_ ?_))
    · split <;> rfl
    · simp only [blkno_truncBuf]
      split <;> rfl
    · simp only [truncBuf, hlt, true_and]
      split <;> rfl

end Cached

/-! ## What does not depend on the disk -/

section SetDisk

variable {s t : Fs ι} {f : ι} {lbn : Fin 12} {env : Env} {disk : ℤ → Block}

omit [DecidableEq ι] in
@[simp] theorem disk_setDisk (s : Fs ι) (disk : ℤ → Block) : (s.setDisk disk).disk = disk := rfl

omit [DecidableEq ι] in
@[simp] theorem table_setDisk (s : Fs ι) (disk : ℤ → Block) : (s.setDisk disk).table = s.table :=
  rfl

omit [DecidableEq ι] in
@[simp] theorem ptr_setDisk (s : Fs ι) (disk : ℤ → Block) : (s.setDisk disk).ptr = s.ptr := rfl

omit [DecidableEq ι] in
@[simp] theorem size_setDisk (s : Fs ι) (disk : ℤ → Block) : (s.setDisk disk).size = s.size := rfl

omit [DecidableEq ι] in
theorem ffsBlkfree_setDisk (s : Fs ι) (b : ℤ) (disk : ℤ → Block) :
    ffsBlkfree (s.setDisk disk) b = (ffsBlkfree s b).setDisk disk :=
  let t := s.setTable (ddtableUnref noErr s.table b).table
  (apply_ite (Fs.setDisk · disk) ((ddtableUnref noErr s.table b).ret > 0) t (t.free b)).symm

theorem grow_setDisk (s : Fs ι) (f : ι) (n : ℕ) (disk : ℤ → Block) :
    (s.setDisk disk).grow f n = (s.grow f n).setDisk disk :=
  (apply_ite (Fs.setDisk · disk) (s.size f < n) (s.setSize f n) s).symm

theorem dedupBlock_setDisk (s : Fs ι) (f : ι) (lbn : Fin 12) (hash : Key) (entry : DdfsDedup)
    (disk : ℤ → Block) : dedupBlock (s.setDisk disk) f lbn hash entry =
      (dedupBlock s f lbn hash entry).map fun t => t.setDisk disk := by
  have hstep : ∀ r : AllocResult,
      (if r.outBlock ≠ s.ptr f lbn then
        ffsBlkfree (((s.setDisk disk).setTable r.table).setPtr f lbn r.outBlock) (s.ptr f lbn)
      else (s.setDisk disk).setTable r.table) =
      Fs.setDisk (if r.outBlock ≠ s.ptr f lbn then
        ffsBlkfree ((s.setTable r.table).setPtr f lbn r.outBlock) (s.ptr f lbn)
      else s.setTable r.table) disk := by
    intro r
    rw [apply_ite (fun t : Fs ι => t.setDisk disk)]
    exact congrArg (fun t => if r.outBlock ≠ s.ptr f lbn then t else _)
      (ffsBlkfree_setDisk ((s.setTable r.table).setPtr f lbn r.outBlock) _ disk)
  rw [dedupBlock, dedupBlock, Option.map_map]
  exact congrArg (Option.map · _) (funext hstep)

theorem truncTail_setDisk (s : Fs ι) (f : ι) (length : ℕ) (disk : ℤ → Block) :
    truncTail (s.setDisk disk) f length = (truncTail s f length).setDisk disk := by
  have hfold : ∀ (is : List (Fin 12)) (s : Fs ι),
      is.foldl (releaseDirect f) (s.setDisk disk) =
        (is.foldl (releaseDirect f) s).setDisk disk := by
    intro is
    induction is with
    | nil => exact fun _ => rfl
    | cons i is ih =>
      intro s
      have hrelease : releaseDirect f (s.setDisk disk) i =
          (releaseDirect f s i).setDisk disk := by
        rw [releaseDirect, releaseDirect, apply_ite (fun t : Fs ι => t.setDisk disk)]
        exact congrArg (ite (s.ptr f i = 0) _) (ffsBlkfree_setDisk (s.setPtr f i 0) _ disk)
      rw [List.foldl_cons, List.foldl_cons, hrelease, ih]
  exact congrArg (fun t => Fs.setSize t f length)
    (hfold (directDown ((length + 4095) / 4096)) (s.vtruncbuf f ((length + 4095) / 4096)))

omit [DecidableEq ι] in
theorem ffsAlloc_setDisk (s : Fs ι) (env : Env) (disk : ℤ → Block) :
    ffsAlloc (s.setDisk disk) env = (ffsAlloc s env).map fun r => (r.1.setDisk disk, r.2) := by
  simp only [ffsAlloc]
  cases env.newb with
  | none => rfl
  | some b =>
    exact (apply_ite (Except.map fun r : Fs ι × ℤ => (r.1.setDisk disk, r.2))
      (s.freeMap b = true) (.ok (s.take b, b)) (.error Errno.ENOSPC)).symm

/-- `ffs_balloc` reads the disk only for a block without a valid buffer. -/
theorem ffsBalloc_setDisk {size : ℕ} {clrbuf : Bool}
    (hread : s.ptr f lbn ≠ 0 → s.bufs f lbn = none →
      disk (s.ptr f lbn) = s.disk (s.ptr f lbn)) :
    ffsBalloc (s.setDisk disk) f lbn size clrbuf env =
      (ffsBalloc s f lbn size clrbuf env).map (Except.map fun r => (r.1.setDisk disk, r.2)) := by
  by_cases hptr : s.ptr f lbn = 0
  · have hhole : ∀ u : Fs ι, u.ptr f lbn = 0 → ffsBalloc u f lbn size clrbuf env =
        some ((ffsAlloc u env).map fun r => (r.1.setPtr f lbn r.2,
          if clrbuf then vfsBioClrbuf (r.1.getblk f lbn r.2 env)
          else r.1.getblk f lbn r.2 env)) := by
      intro u hu
      simp only [ffsBalloc, hu, ne_eq, not_true_eq_false, false_and, if_false]
      cases ffsAlloc u env <;> rfl
    rw [hhole _ hptr, hhole (s.setDisk disk) hptr, ffsAlloc_setDisk]
    cases ffsAlloc s env <;> rfl
  · have hbread : (s.setDisk disk).breadGb f lbn (s.ptr f lbn) =
        s.breadGb f lbn (s.ptr f lbn) := by
      cases hbuf : s.bufs f lbn with
      | none =>
        have hbuf' : (s.setDisk disk).bufs f lbn = none := hbuf
        simp only [Fs.breadGb, hbuf, hbuf', Option.getD_none, disk_setDisk, hread hptr hbuf]
      | some d =>
        have hbuf' : (s.setDisk disk).bufs f lbn = some d := hbuf
        simp only [Fs.breadGb, hbuf, hbuf', Option.getD_some]
    have hthere : ∀ u : Fs ι, u.ptr f lbn ≠ 0 → ffsBalloc u f lbn size clrbuf env =
        if (lbn.val + 1) * 4096 ≤ u.size f then
          some (.ok (u, if clrbuf then u.breadGb f lbn (u.ptr f lbn)
            else vfsBioClrbuf (u.getblk f lbn (u.ptr f lbn) env)))
        else if fragroundup size ≤ fragroundup (u.size f % 4096) then
          some (.ok (u, u.breadGb f lbn (u.ptr f lbn)))
        else none := by
      intro u hu
      simp only [ffsBalloc, hu, ne_eq, not_false_eq_true, true_and, if_true]
      cases clrbuf <;> rfl
    have hdisk : ffsBalloc (s.setDisk disk) f lbn size clrbuf env =
        if (lbn.val + 1) * 4096 ≤ s.size f then
          some (.ok (s.setDisk disk, if clrbuf then s.breadGb f lbn (s.ptr f lbn)
            else vfsBioClrbuf (s.getblk f lbn (s.ptr f lbn) env)))
        else if fragroundup size ≤ fragroundup (s.size f % 4096) then
          some (.ok (s.setDisk disk, s.breadGb f lbn (s.ptr f lbn)))
        else none := by
      rw [← hbread]
      exact hthere (s.setDisk disk) hptr
    rw [hdisk, hthere s hptr]
    by_cases hlast : (lbn.val + 1) * 4096 ≤ s.size f
    · rw [if_pos hlast, if_pos hlast]
      rfl
    · rw [if_neg hlast, if_neg hlast]
      split <;> rfl

end SetDisk

end EmbeddedOs.Ddfs
