import EmbeddedOs.Ddfs.SettledRuns

/-!
# Reading back a synchronous write

Along the guarded runs, whatever waits in between, a synchronous write that succeeds leaves the
file on the disk as it was when all that waited is written, zero-extended, with the written
range replaced. Synchronous calls where nothing waits are the calls without a cache, so the
runs of these are runs here.
-/

namespace EmbeddedOs.Ddfs

open Lib Lib.SlotTable Lib.Bytes

variable {ι : Type} {sha1 : Block → Key} {S : Set Block} {c c' : Cached ι} {s t : Fs ι} {f : ι}

/-! ## Runs -/

/-- The bytes of a file depend on its size and its blocks. -/
theorem byteAt_congr (hsize : t.size f = s.size f) (hraw : ∀ i, t.raw f i = s.raw f i) :
    t.byteAt f = s.byteAt f := by
  have hbytes : ∀ (u : Fs ι) (o : ℕ), u.byteAt f o =
      if o < u.size f then
        if h : o / 4096 < 12 then u.raw f ⟨o / 4096, h⟩ ⟨o % 4096, Nat.mod_lt _ (by decide)⟩
        else 0
      else 0 := by
    intro u o
    simp only [Fs.byteAt, Fs.raw]
    split
    · split
      · split <;> rfl
      · rfl
    · rfl
  funext o
  simp only [hbytes, hsize, hraw]

/-- Only the sizes and blocks of the file matter. -/
theorem Written.congr {u v : Fs ι} {offset : ℕ} {data : List UInt8} (h : Written s t f offset data)
    (hu : u.size f = s.size f) (hu' : ∀ i, u.raw f i = s.raw f i) (hv : v.size f = t.size f)
    (hv' : ∀ i, v.raw f i = t.raw f i) : Written u v f offset data where
  bytes := by rw [byteAt_congr hu hu', byteAt_congr hv hv', h.bytes]
  size := by rw [hu, hv, h.size]

variable [DecidableEq ι] [Fintype ι]

namespace Settles

variable {err : Option Errno} {ioflag : SyncIoFlag} {offset : ℕ} {data : List UInt8}
  {env : ℕ → CacheEnv ι}

omit [DecidableEq ι] in
/-- A block of a file that is on the disk reads the same from both disks. -/
theorem raw_eq (h : Settles c s) (hs : Consistent sha1 S s) {i : Fin 12}
    (hdisk : c.OnDisk (c.fs.ptr f i)) : c.fs.raw f i = s.raw f i := by
  rw [Fs.raw, Fs.raw, h.ptr, h.disk_eq ?_ hdisk]
  exact (h.counted hs.counted).ptr_not_free f i

/-- A write leaves the state in which all that waits has been written consistent. -/
theorem write (hS : Set.InjOn sha1 S) (h : Settles c s) (hs : Consistent sha1 S s)
    (hok : Cached.callOk sha1 S c (.write f ioflag offset data env))
    (hrun : Cached.ffsWrite sha1 c f ioflag offset data env = some (c', err)) :
    ∃ t, Settles c' t ∧ Consistent sha1 S t := by
  obtain ⟨hloop, htrunc, -⟩ := hok
  rw [Cached.ffsWrite] at hrun
  obtain ⟨-, hwrites⟩ := h.writeLoop hS hs hloop
  split at hrun
  · cases hrun
  · next hwrite =>
    simp only [Option.some.injEq, Prod.mk.injEq] at hrun
    obtain ⟨rfl, -⟩ := hrun
    obtain ⟨t, -, hsettles, ht, -⟩ := hwrites hwrite
    exact ⟨t, hsettles, ht⟩
  · next c₁ e hwrite =>
    obtain ⟨t, -, hsettles, ht, -⟩ := hwrites hwrite
    split at hrun
    · next hunit =>
      simp only [Option.map_eq_some_iff, Prod.mk.injEq] at hrun
      obtain ⟨r, hr, rfl, -⟩ := hrun
      obtain ⟨t', -, hsettles', ht'⟩ := hsettles.trunc hS ht (htrunc _ _ hwrite hunit) hr
      exact ⟨t', hsettles', ht'⟩
    · simp only [Option.some.injEq, Prod.mk.injEq] at hrun
      obtain ⟨rfl, -⟩ := hrun
      exact ⟨t, hsettles, ht⟩

/-- So does every step. -/
theorem exec (hS : Set.InjOn sha1 S) (h : Settles c s) (hs : Consistent sha1 S s)
    {call : CacheCall ι} (hok : Cached.callOk sha1 S c call)
    (hrun : Cached.exec sha1 c call = some (c', err)) :
    ∃ t, Settles c' t ∧ Consistent sha1 S t := by
  cases call with
  | write f ioflag offset data env => exact h.write hS hs hok hrun
  | truncate f length env =>
    obtain ⟨t, -, ht⟩ := h.trunc hS hs hok hrun
    exact ⟨t, ht⟩
  | flush f lbn =>
    simp only [Cached.exec, Option.some.injEq, Prod.mk.injEq] at hrun
    obtain ⟨rfl, -⟩ := hrun
    exact ⟨s, h.flush (f, lbn), hs⟩
  | evict f lbn =>
    rw [Cached.exec] at hrun
    split at hrun
    · next hwait =>
      simp only [Option.some.injEq, Prod.mk.injEq] at hrun
      obtain ⟨rfl, -⟩ := hrun
      exact ⟨_, h.evict hwait, (Consistent.preserved (f := f) hS).evict hs⟩
    · cases hrun

omit [Fintype ι] in
/-- When all buffers that wait come to the disk, none is left. -/
theorem waiting_flushAll (h : Settles c s) {ps : List (ι × Fin 12)} {g : ι} {j : Fin 12} {b : ℤ}
    (hwait : (c.flushAll ps).waiting g j = some b) : c.waiting g j = some b ∧ (g, j) ∉ ps := by
  induction ps generalizing c with
  | nil => exact ⟨hwait, List.not_mem_nil⟩
  | cons p ps ih =>
    obtain ⟨hflush, hps⟩ := ih (h.flush p) hwait
    rw [Cached.flush] at hflush
    split at hflush
    · have hset := (Cached.setWaiting_apply (c := c) (f := p.1) (i := p.2) none).symm.trans hflush
      split at hset
      · cases hset
      · next hp =>
        refine ⟨hset, fun hmem => ?_⟩
        rcases List.mem_cons.mp hmem with rfl | hmem
        · exact hp ⟨rfl, rfl⟩
        · exact hps hmem
    · next hnone =>
      refine ⟨hflush, fun hmem => ?_⟩
      rcases List.mem_cons.mp hmem with rfl | hmem
      · exact hnone _ _ hflush (h.dirty hflush).2
      · exact hps hmem

end Settles

/-- Along the guarded runs there is a consistent state in which all that waits has been
written. -/
theorem Cached.exists_settles (hS : Set.InjOn sha1 S)
    (h : (Cached.machine ι sha1).Reachable (Cached.callOk sha1 S) c) :
    ∃ s, Settles c s ∧ Consistent sha1 S s := by
  have hinit : ∀ c, (Cached.machine ι sha1).init c → ∃ s, Settles c s ∧ Consistent sha1 S s :=
    fun c hc => ⟨c.fs, .of_fresh hc.2, .of_fresh hc.1⟩
  refine Machine.Reachable.invariant hinit ?_ h
  rintro c call c' ⟨s, hsettles, hs⟩ hok ⟨err, hrun⟩
  exact hsettles.exec hS hs hok hrun

omit [Fintype ι] in
/-- A write that succeeds has written all its data. -/
theorem Cached.writeLoop_of_ffsWrite {ioflag : SyncIoFlag} {offset : ℕ} {data : List UInt8}
    {env : ℕ → CacheEnv ι}
    (hrun : Cached.ffsWrite sha1 c f ioflag offset data env = some (c', none)) :
    Cached.ffsWriteLoop sha1 ioflag.sync f env data.length c
      (if ioflag.append then c.fs.size f else offset) data = some (c', none) := by
  rw [Cached.ffsWrite] at hrun
  split at hrun
  · cases hrun
  · next heq => rw [heq, hrun]
  · split at hrun
    · simp only [Option.map_eq_some_iff, Prod.mk.injEq, reduceCtorEq, and_false,
        exists_false] at hrun
    · simp at hrun

/-- Along the guarded runs a file reads back, from disk, what a successful synchronous write
wrote, and otherwise what it has when all that waited before, `ps`, is written. -/
theorem read_your_write (sha1 : Block → Key) (hS : Set.InjOn sha1 S)
    (h : (Cached.machine ι sha1).Reachable (Cached.callOk sha1 S) c) {ioflag : SyncIoFlag}
    {offset : ℕ} {data : List UInt8} {env : ℕ → CacheEnv ι} (ps : List (ι × Fin 12))
    (hguard : Cached.callOk sha1 S c (.write f ioflag offset data env))
    (hsync : ioflag.sync = true) (hps : ∀ g j b, c.waiting g j = some b → (g, j) ∈ ps)
    (hrun : Cached.ffsWrite sha1 c f ioflag offset data env = some (c', none)) :
    Written (c.flushAll ps).fs c'.fs f (if ioflag.append then c.fs.size f else offset) data := by
  obtain ⟨s, hsettles, hs⟩ := Cached.exists_settles hS h
  obtain ⟨hloop, -, hdisk⟩ := hguard
  obtain ⟨hwhole, hwrites⟩ := hsettles.writeLoop hS hs hloop
  obtain ⟨t, ht, hsettles', hst, hraw⟩ := hwrites (Cached.writeLoop_of_ffsWrite hrun)
  have hall := hsettles.flushAll ps
  -- with nothing waiting every block is on the disk
  have hflushed : ∀ i, (c.flushAll ps).fs.raw f i = s.raw f i := by
    intro i
    refine hall.raw_eq hs fun g j hwait => ?_
    obtain ⟨hgj, hmem⟩ := hsettles.waiting_flushAll hwait
    exact absurd (hps g j _ hgj) hmem
  refine (hs.written_of_loop hS hwhole ht).congr (by rw [hall.size]) hflushed
    (by rw [hsettles'.size]) (hraw le_rfl hsync rfl fun i hi => ?_)
  exact hsettles.raw_eq hs (hdisk hsync i hi)

/-! ## Where nothing waits -/

section OfFs

omit [Fintype ι]

/-- A state in which nothing waits. -/
def Cached.ofFs (s : Fs ι) : Cached ι := ⟨s, fun _ _ => none⟩

/-- A call without a cache as a synchronous one, during which nothing else comes to the disk. -/
def FsCall.synced : FsCall ι → CacheCall ι
  | .write f ioflag offset data env =>
    .write f ⟨ioflag, true⟩ offset data fun i => ⟨env i, []⟩
  | .truncate f length env => .truncate f length env
  | .evict f lbn => .evict f lbn

namespace Cached

variable {lbn : Fin 12}

theorem bwrite_ofFs (bp : Buf) : (ofFs s).bwrite f lbn bp = ofFs (s.bwrite f lbn bp) := by
  refine congrArg (Cached.mk _) (funext fun g => funext fun j => ?_)
  rw [setWaiting_apply]
  exact ite_self _

theorem flushAll_ofFs (ps : List (ι × Fin 12)) : (ofFs s).flushAll ps = ofFs s := by
  induction ps with
  | nil => rfl
  | cons p ps ih => exact ih

theorem truncTail_ofFs (length : ℕ) :
    (ofFs s).truncTail f length = ofFs (Ddfs.truncTail s f length) := by
  refine congrArg (Cached.mk _) (funext fun g => funext fun j => ?_)
  exact (waiting_truncTail (c := ofFs s) length).trans (ite_self _)

theorem ffsExtend_ofFs (length : ℕ) (env : Env) : (ofFs s).ffsExtend f length env =
    (Ddfs.ffsExtend s f length env).map fun r => (ofFs r.1, r.2) := by
  have hfs : (ofFs s).fs = s := rfl
  by_cases hlbn : (length - 1) / 4096 < 12
  · simp only [ffsExtend, Ddfs.ffsExtend, dif_pos hlbn, hfs]
    cases ffsBalloc s f ⟨(length - 1) / 4096, hlbn⟩ ((length - 1) % 4096 + 1) true env with
    | none => rfl
    | some r =>
      cases r with
      | error e => rfl
      | ok r =>
        exact congrArg (fun c => some (c, none)) (bwrite_ofFs (s := r.1.setSize f length) r.2)
  · simp only [ffsExtend, Ddfs.ffsExtend, dif_neg hlbn, Option.map_none]

theorem ffsShrink_ofFs (length : ℕ) (env : Env) : (ofFs s).ffsShrink f length env =
    (Ddfs.ffsShrink s f length env).map fun r => (ofFs r.1, r.2) := by
  have hfs : ∀ s : Fs ι, (ofFs s).fs = s := fun _ => rfl
  have hset : ∀ s t : Fs ι, { ofFs s with fs := t } = ofFs t := fun _ _ => rfl
  by_cases hlbn : (length - 1) / 4096 < 12
  · simp only [ffsShrink, Ddfs.ffsShrink, dif_pos hlbn, hfs]
    by_cases hkeep : (if length = 0 then -1 else s.ptr f ⟨(length - 1) / 4096, hlbn⟩) ≠ 0 ∧
        length % 4096 = 0
    · simp only [if_pos hkeep, Option.map_some, truncTail_ofFs]
    · simp only [if_neg hkeep]
      cases ffsBalloc s f ⟨(length - 1) / 4096, hlbn⟩ ((length - 1) % 4096 + 1) true env with
      | none => rfl
      | some r =>
        cases r with
        | error e => rfl
        | ok r =>
          simp only [hset, bwrite_ofFs, hfs]
          cases ffsBalloc (r.1.bwrite f ⟨(length - 1) / 4096, hlbn⟩ r.2) f
              ⟨(length - 1) / 4096, hlbn⟩ ((length - 1) % 4096 + 1) true env with
          | none => rfl
          | some r' =>
            cases r' with
            | error e => rfl
            | ok r' =>
              simp only [Option.map_some, ← truncTail_ofFs, ← bwrite_ofFs]
  · simp only [ffsShrink, Ddfs.ffsShrink, dif_neg hlbn, Option.map_none]

theorem ffsTruncate_ofFs (length : ℕ) (env : Env) : (ofFs s).ffsTruncate f length env =
    (Ddfs.ffsTruncate s f length env).map fun r => (ofFs r.1, r.2) := by
  have hfs : (ofFs s).fs = s := rfl
  have hhole : (ofFs s).syncHole f length = ofFs s := by
    rw [syncHole, ffsSyncvnode, flushAll_ofFs]
    split
    · split <;> rfl
    · rfl
  simp only [ffsTruncate, Ddfs.ffsTruncate, hhole, hfs]
  split
  · rfl
  · split
    · exact ffsExtend_ofFs length env
    · exact ffsShrink_ofFs length env

theorem ffsWriteIter_ofFs (blkoffset : ℕ) (chunk : List UInt8) (env : Env) :
    ffsWriteIter sha1 true (ofFs s) f lbn blkoffset chunk env =
      (Ddfs.ffsWriteIter sha1 s f lbn blkoffset chunk env).map fun r => (ofFs r.1, r.2) := by
  have hfs : ∀ s : Fs ι, (ofFs s).fs = s := fun _ => rfl
  have hset : ∀ s t : Fs ι, { ofFs s with fs := t } = ofFs t := fun _ _ => rfl
  simp only [ffsWriteIter, Ddfs.ffsWriteIter, hfs]
  cases ffsBalloc s f lbn (blkoffset + chunk.length) (chunk.length < 4096) env with
  | none => rfl
  | some r =>
    cases r with
    | error e => rfl
    | ok r =>
      simp only [hset, writeBlock, Ddfs.writeBlock, Option.map_map, issue, if_true, bwrite_ofFs]
      rfl

theorem ffsWriteLoop_ofFs (env : ℕ → Env) (fuel offset : ℕ) (data : List UInt8) :
    ffsWriteLoop sha1 true f (fun i => ⟨env i, []⟩) fuel (ofFs s) offset data =
      (Ddfs.ffsWriteLoop sha1 f env fuel s offset data).map fun r => (ofFs r.1, r.2) := by
  induction fuel generalizing s offset data with
  | zero => rfl
  | succ fuel ih =>
    rw [ffsWriteLoop, Ddfs.ffsWriteLoop]
    by_cases hdata : data = []
    · rw [if_pos hdata, if_pos hdata]
      rfl
    · rw [if_neg hdata, if_neg hdata]
      by_cases hlbn : offset / 4096 < 12
      · simp only [dif_pos hlbn, flushAll_ofFs, ffsWriteIter_ofFs]
        cases Ddfs.ffsWriteIter sha1 s f ⟨offset / 4096, hlbn⟩ (offset % 4096)
            (data.take (4096 - offset % 4096)) (env (offset / 4096)) with
        | none => rfl
        | some r =>
          obtain ⟨t, e, n⟩ := r
          cases e with
          | some e => rfl
          | none =>
            by_cases hn : n = 0
            · simp only [Option.map_some, if_pos hn]
            · simp only [Option.map_some, if_neg hn]
              exact ih _ _
      · rw [dif_neg hlbn, dif_neg hlbn]
        rfl

/-- Where nothing waits a synchronous call is the call without a cache. -/
theorem exec_ofFs (sha1 : Block → Key) (s : Fs ι) (call : FsCall ι) :
    exec sha1 (ofFs s) call.synced =
      (Ddfs.exec sha1 s call).map fun r => (ofFs r.1, r.2) := by
  cases call with
  | write f ioflag offset data env =>
    have hfs : (ofFs s).fs = s := rfl
    simp only [exec, FsCall.synced, ffsWrite, Ddfs.exec, Ddfs.ffsWrite, hfs, ffsWriteLoop_ofFs]
    cases Ddfs.ffsWriteLoop sha1 f env data.length s (if ioflag.append then s.size f else offset)
        data with
    | none => rfl
    | some r =>
      obtain ⟨t, e⟩ := r
      cases e with
      | none => rfl
      | some e =>
        simp only [Option.map_some, ffsTruncate_ofFs]
        split
        · rw [Option.map_map, Option.map_map]
          rfl
        · rfl
  | truncate f length env => exact ffsTruncate_ofFs length env
  | evict f lbn => rfl

/-- The runs without a cache are runs here. -/
theorem reachable_ofFs (h : (fsMachine ι sha1).Reachable (fun _ _ => True) s) :
    (Cached.machine ι sha1).Reachable (fun _ _ => True) (ofFs s) := by
  induction h with
  | init hs => exact .init ⟨hs, fun _ _ => rfl⟩
  | step _ _ hstep ih =>
    obtain ⟨err, hrun⟩ := hstep
    exact .step ih trivial ⟨err, by rw [exec_ofFs, hrun]; rfl⟩

end Cached

end OfFs

/-- A write of one byte to the start of a file, for which block `b` is picked. -/
def CacheCall.writeByte (sync : Bool) (f : ι) (n : UInt8) (b : ℤ) : CacheCall ι :=
  .write f ⟨⟨false, false⟩, sync⟩ 0 [n] fun _ => ⟨zeroEnv b, []⟩

omit [Fintype ι] in
/-- A write of one byte is one iteration. -/
theorem Cached.exec_writeByte {sync : Bool} {n : UInt8} {b : ℤ}
    (h : Cached.ffsWriteIter sha1 sync c f 0 0 [n] (zeroEnv b) = some (c', none, 1)) :
    Cached.exec sha1 c (.writeByte sync f n b) = some (c', none) := by
  simp [Cached.exec, CacheCall.writeByte, Cached.ffsWrite, Cached.ffsWriteLoop, Cached.flushAll, h]

omit [Fintype ι] in
/-- A first byte goes to the block that was picked. -/
theorem Cached.ffsWriteIter_hole {sync : Bool} {n : UInt8} {b : ℤ} (hptr : c.fs.ptr f 0 = 0)
    (hbuf : c.fs.bufs f 0 = none) (hfree : c.fs.freeMap b = true)
    (hdedup : dedupBlock (((c.fs.take b).setPtr f 0 b).grow f 1) f 0 (sha1 (oneByte n)) zeroEntry =
      some t) : Cached.ffsWriteIter sha1 sync c f 0 0 [n] (zeroEnv b) =
    some (Cached.issue sync { c with fs := t } f 0 ⟨b, oneByte n, true, false⟩, none, 1) := by
  have hballoc : ffsBalloc c.fs f 0 (0 + [n].length) ([n].length < 4096) (zeroEnv b) =
      some (.ok ((c.fs.take b).setPtr f 0 b, ⟨b, fun _ => 0, true, false⟩)) :=
    ffsBalloc_hole hptr hbuf rfl hfree
  have hkey : iterKey sha1 ⟨b, fun _ => 0, true, false⟩ 0 [n] (zeroEnv b) = sha1 (oneByte n) :=
    congrArg sha1 (hashedBytes_zero _ _)
  rw [Cached.ffsWriteIter, hballoc]
  simp only
  rw [Cached.writeBlock_eq (by simp) (by simp), hkey]
  simp only [Fin.val_zero, Nat.zero_mul, Nat.zero_add, List.length_singleton]
  rw [show (zeroEnv b).entry = zeroEntry from rfl, hdedup]
  rfl

omit [Fintype ι] in
/-- A delayed write that comes to the disk right away is a synchronous one. -/
theorem Cached.flush_bdwrite (c : Cached ι) (f : ι) (lbn : Fin 12) (bp : Buf) :
    (c.bdwrite f lbn bp).flush (f, lbn) = c.bwrite f lbn bp := by
  have hwait : (c.bdwrite f lbn bp).waiting f lbn = some bp.blkno :=
    (Cached.setWaiting_apply (c := c) _).trans (if_pos ⟨rfl, rfl⟩)
  have hbuf : (c.bdwrite f lbn bp).fs.bufs f lbn = some bp.data :=
    (c.fs.bufs_bwrite f f lbn lbn bp).trans (if_pos ⟨rfl, rfl⟩)
  have hset : (c.bdwrite f lbn bp).setWaiting f lbn none = c.setWaiting f lbn none := by
    simp [Cached.setWaiting, Cached.bdwrite]
  simp only [Cached.flush, hwait, hbuf, hset]
  rfl

namespace Cached

omit [Fintype ι] in
/-- Where nothing waits the guard adds nothing. -/
theorem iterOk_ofFs {sync : Bool} {lbn : Fin 12} {blkoffset : ℕ} {chunk : List UInt8} {env : Env}
    (h : (wholeBlocks ι sha1 S).iter s f lbn blkoffset chunk env) :
    IterOk sha1 S sync (ofFs s) f lbn blkoffset chunk env where
  whole := h
  read _ _ _ hwait := by cases hwait
  alone _ _ _ _ _ _ hwait := by cases hwait
  found _ _ _ _ _ _ _ _ _ _ hwait := by cases hwait

omit [Fintype ι] in
/-- A write of one byte where nothing waits meets the guard if its only iteration does. -/
theorem callOk_writeByte {sync : Bool} {n : UInt8} {b : ℤ}
    (h : (wholeBlocks ι sha1 S).iter s f 0 0 [n] (zeroEnv b)) :
    callOk sha1 S (ofFs s) (.writeByte sync f n b) :=
  ⟨fun _ _ => ⟨by simpa [flushAll] using iterOk_ofFs h, fun _ _ _ => trivial⟩,
    fun _ _ _ hunit => absurd hunit Bool.false_ne_true, fun _ _ _ _ _ hwait => by cases hwait⟩

end Cached

/-- The first byte of a new file meets the guard: the table has no entry. -/
theorem iter_firstByte : (wholeBlocks Bool prefixKey {oneByte 1}).iter (smallFs Bool) false 0 0 [1]
    (zeroEnv 1) := by
  apply iterWrite_hole (P := fun _ s₁ f lbn => RywIter prefixKey {oneByte 1} s₁ (s₁.ptr f lbn))
    rfl rfl rfl
  refine ⟨⟨rfl, fun hlen => by cases hlen⟩, rfl, ⟨fun _ => ?_, fun p e hkey => ?_⟩,
    fun p e hkey => ?_⟩
  · exact findBlock_eq_none.mpr fun p e he => absurd he not_inUse_mkfsTable
  · exact absurd (inUse_of_findKey hkey).1 not_inUse_mkfsTable
  · exact absurd (inUse_of_findKey hkey).1 not_inUse_mkfsTable

/-- So does the same byte in a second file: the new block has no entry. -/
theorem iter_sharedByte : (wholeBlocks Bool prefixKey {oneByte 1}).iter (oneFile prefixKey false 1)
    true 0 0 [1] (zeroEnv 2) := by
  have hblk : findBlock 2 (oneFile prefixKey false 1).table = none := by
    rw [findBlock_eq_none]
    intro p e he
    rw [(inUse_oneFile.mp he).2]
    show (1 : ℤ) ≠ 2
    decide
  refine iterWrite_hole
    (P := fun _ s₁ f lbn => RywIter prefixKey {oneByte 1} s₁ (s₁.ptr f lbn)) ?_ ?_ ?_ ?_
  · simp [ptr_oneFile]
  · exact bufs_oneFile_of_ne (by decide)
  · simp [freeMap_oneFile]
  · rw [Fs.ptr_setPtr_self]
    refine ⟨⟨rfl, fun hlen => by cases hlen⟩, rfl, ⟨fun _ => hblk, fun p e hkey => ?_⟩,
      fun p e _ _ q e' hfind => ?_⟩
    · have he : InUse (oneFile prefixKey false 1).table p e := (inUse_of_findKey hkey).1
      rw [(inUse_oneFile.mp he).2]
      show (1 : UInt16).toNat < 65535
      decide
    · exact absurd (hfind.symm.trans hblk) (by simp)

/-- A byte is written to a first file without `IO_SYNC` and comes to the disk later; then the
same byte is written to a second file with `IO_SYNC`, which is switched to the block of the
first one. -/
theorem read_your_write_shared :
    Written (oneFile prefixKey false 1) (sharedFile prefixKey) true 0 [1] := by
  -- the first byte is on the disk once its buffer is flushed
  have hreach : (Cached.machine Bool prefixKey).Reachable (Cached.callOk prefixKey {oneByte 1})
      (.ofFs (oneFile prefixKey false 1)) := by
    have hwrite : Cached.exec prefixKey (.ofFs (smallFs Bool)) (.writeByte false false 1 1) =
        some (_, none) :=
      Cached.exec_writeByte (Cached.ffsWriteIter_hole rfl rfl rfl (dedupBlock_smallFs 1))
    refine .step (.step (.init ⟨fresh_smallFs, fun _ _ => rfl⟩)
      (Cached.callOk_writeByte iter_firstByte) ⟨none, hwrite⟩) (a := .flush false 0) trivial
        ⟨none, ?_⟩
    exact congrArg (fun c => some (c, none))
      ((Cached.flush_bdwrite _ false 0 ⟨1, oneByte 1, true, false⟩).trans (Cached.bwrite_ofFs _))
  have hguard : Cached.callOk prefixKey {oneByte 1} (.ofFs (oneFile prefixKey false 1))
      (.writeByte true true 1 2) := Cached.callOk_writeByte iter_sharedByte
  have hrun := Cached.exec_ofFs prefixKey (oneFile prefixKey false 1) (writeByte true 1 2)
  rw [exec_sharedFile] at hrun
  exact read_your_write prefixKey (Set.injOn_singleton _ _) hreach [] hguard rfl
    (fun _ _ _ hwait => by cases hwait) hrun

/-- A byte of a first file overwritten by another one, and then written to a second file, all
with `IO_SYNC`: this one is switched to the block of the first file and reads the other byte. -/
theorem read_your_write_fails : ¬∃ sha1 : Block → Key, sha1 (oneByte 1) ≠ sha1 (oneByte 2) ∧
    ∀ c c', (Cached.machine Bool sha1).Reachable (fun _ _ => True) c →
      (∀ g j, c.waiting g j = none) →
      Cached.exec sha1 c (.writeByte true true 1 2) = some (c', none) →
        Written c.fs c'.fs true 0 [1] := by
  rintro ⟨sha1, hne, hall⟩
  have hreach : (fsMachine Bool sha1).Reachable (fun _ _ => True) (overwritten sha1 false 1 2) :=
    .step (.step (.init fresh_smallFs) trivial ⟨none, exec_oneFile⟩) trivial
      ⟨none, exec_overwritten hne⟩
  have hptr : (overwritten sha1 false 1 2).ptr true 0 = 0 := by simp [ptr_oneFile]
  have hbuf : (overwritten sha1 false 1 2).bufs true 0 = none := by
    simp [overwritten, Fs.bufs_bwrite, bufs_oneFile_of_ne]
  have hfree : (overwritten sha1 false 1 2).freeMap 2 = true := by
    simp [overwritten, freeMap_oneFile]
  have hkey : findKey (sha1 (oneByte 1)) (overwritten sha1 false 1 2).table =
      some ((0, 0), newEntry (sha1 (oneByte 1)) 1) := by
    refine findKey_of_inUse (inUse_overwritten.mpr (Or.inr ⟨rfl, rfl⟩)) (fun q e' he hk => ?_)
    rcases inUse_overwritten.mp he with ⟨-, rfl⟩ | ⟨hq, -⟩
    · exact absurd hk.symm hne
    · exact hq
  have hfound : findKey (sha1 (oneByte 1))
      ((((overwritten sha1 false 1 2).take 2).setPtr true 0 2).grow true 1).table =
        some ((0, 0), newEntry (sha1 (oneByte 1)) 1) := by
    rw [Fs.table_grow]
    exact hkey
  have hother : (newEntry (sha1 (oneByte 1)) 1).blockptr ≠
      ((((overwritten sha1 false 1 2).take 2).setPtr true 0 2).grow true 1).ptr true 0 := by
    simp [newEntry]
  have hswitch : dedupBlock ((((overwritten sha1 false 1 2).take 2).setPtr true 0 2).grow true 1)
      true 0 (sha1 (oneByte 1)) zeroEntry = some _ := dedupBlock_other hfound hother
  have hrun := Cached.exec_ofFs sha1 (overwritten sha1 false 1 2) (writeByte true 1 2)
  rw [exec_writeByte_hole hptr hbuf hfree hswitch] at hrun
  have hwritten := hall _ _ (Cached.reachable_ofFs hreach) (fun _ _ => rfl) hrun
  have hsize : (overwritten sha1 false 1 2).size true = 0 := by
    simp [overwritten, Fs.size_grow, size_oneFile_of_ne]
  have hbyte := congrFun hwritten.bytes 0
  simp [Cached.ofFs, Fs.byteAt, Fs.size_grow, Fs.disk_bwrite, newEntry, put] at hbyte
  exact absurd hbyte (by decide)

end EmbeddedOs.Ddfs
