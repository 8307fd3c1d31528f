import EmbeddedOs.Kvfs.KeySlots
import EmbeddedOs.Kvfs.Remount

/-!
# Modification times

`uint64_to_timespec` of `kvfs_util.c` and `kvfs_getattr` of `kvfs_vnops.c`. A time is kept as an
unsigned number of nanoseconds of 64 bits, so that it comes back if and only if it is not before
the epoch and less than 2⁶⁴ nanoseconds behind it. Whatever happens to a file between the two calls
leaves its time alone, unless its time is set again or the file is removed.
-/

namespace EmbeddedOs.Kvfs

open Lib Lib.Bytes

/-- `uint64_to_timespec`. -/
def uint64ToTimespec (packed : UInt64) : Timespec :=
  let tvSec := packed / 1000000000
  ⟨tvSec.toNat, (packed - tvSec * 1000000000).toNat⟩

/-- `enum vtype`, as far as `kvfs_getattr` sets it. -/
inductive Vtype
  /-- `VREG`. -/
  | VREG
  /-- `VDIR`. -/
  | VDIR
  deriving DecidableEq

/-- `VNOVAL`. -/
def vnoval : ℤ := -1

/-- `struct vattr`, as far as `kvfs_getattr` sets it behind `VATTR_NULL`. -/
structure Vattr where
  /-- `va_type`. -/
  vaType : Vtype
  /-- `va_fileid`. -/
  vaFileid : ℕ
  /-- `va_size`. -/
  vaSize : ℕ
  /-- `va_bytes`. -/
  vaBytes : ℕ
  /-- `va_mtime`. -/
  vaMtime : Timespec
  /-- `va_blocksize`. -/
  vaBlocksize : ℕ
  /-- `va_fsid`. -/
  vaFsid : ℕ
  /-- `va_uid`. -/
  vaUid : ℕ
  /-- `va_gid`. -/
  vaGid : ℕ
  /-- `va_mode`. -/
  vaMode : ℕ
  /-- `va_flags`. -/
  vaFlags : ℕ
  /-- `va_gen`. -/
  vaGen : ℕ
  /-- `va_nlink`. -/
  vaNlink : ℕ
  /-- `va_filerev`. -/
  vaFilerev : ℕ

/-- The fields that `kvfs_getattr` sets for every vnode; `fsid` is `dev2udev` of the device. -/
def vattrOf (fsid : ℕ) (vaType : Vtype) (vaFileid vaSize : ℕ) (vaMtime : Timespec) : Vattr where
  vaType := vaType
  vaFileid := vaFileid
  vaSize := vaSize
  vaBytes := vaSize
  vaMtime := vaMtime
  vaBlocksize := 4096
  vaFsid := fsid
  vaUid := 0
  vaGid := 0
  vaMode := 0o777
  vaFlags := 0
  vaGen := 1
  vaNlink := 1
  vaFilerev := 1

/-- `kvfs_getattr`; `none` if it follows the null pointer of a vnode without `v_data`. -/
def kvfsGetattr (s : Fs) (vp fsid : ℕ) : Option Vattr :=
  match s.vnodes vp with
  | none => none
  | some .root => some (vattrOf fsid .VDIR kvfsRootIno 0 ⟨vnoval, vnoval⟩)
  | some (.file knode) =>
    some (vattrOf fsid .VREG knode.ino 4096 (uint64ToTimespec knode.inode.timestamp))

/-- The nanoseconds of a time. -/
def Timespec.nanoseconds (ts : Timespec) : ℤ := ts.tvSec * 1000000000 + ts.tvNsec

/-- The nanoseconds of a time are an unsigned number of 64 bits. -/
def Timespec.Packable (ts : Timespec) : Prop := 0 ≤ ts.nanoseconds ∧ ts.nanoseconds < 2 ^ 64

/-- The call sets the time of the file in slot `i`, or removes the file. -/
def Call.EndsTime (s : Fs) (i : ℕ) : Call → Prop
  | .setattr vp vaMtime => s.slotOf vp = some i ∧ vaMtime.tvSec ≠ vnoval
  | .remove vp => s.slotOf vp = some i
  | .rename _ _ (some tvp) _ => s.slotOf tvp = some i
  | _ => False

/-- `kvfs_getattr` of a vnode returns this time. -/
def HasMtime (s : Fs) (vp : ℕ) (ts : Timespec) : Prop :=
  ∀ fsid, (kvfsGetattr s vp fsid).map (·.vaMtime) = some ts

variable {n i vp : ℕ} {s t : Fs} {ts : Timespec} {x : Inode}

/-! ## Packing -/

theorem toNat_timespecToUint64 (ts : Timespec) :
    ((timespecToUint64 ts).toNat : ℤ) = ts.nanoseconds % 2 ^ 64 := by
  rw [timespecToUint64, UInt64.ofInt, UInt64.toNat_ofNat', Timespec.nanoseconds]
  omega

/-- Unpacking divides the nanoseconds. -/
theorem uint64ToTimespec_eq (packed : UInt64) : uint64ToTimespec packed =
    ⟨(packed.toNat / 1000000000 : ℕ), (packed.toNat % 1000000000 : ℕ)⟩ := by
  have hlt := packed.toNat_lt
  have hsec : (packed / 1000000000).toNat = packed.toNat / 1000000000 := UInt64.toNat_div _ _
  have hback : (packed / 1000000000 * 1000000000).toNat =
      packed.toNat / 1000000000 * 1000000000 := by
    rw [UInt64.toNat_mul, hsec]
    change packed.toNat / 1000000000 * 1000000000 % 2 ^ 64 = _
    omega
  have hle : packed / 1000000000 * 1000000000 ≤ packed := by
    rw [UInt64.le_iff_toNat_le, hback]
    exact Nat.div_mul_le_self _ _
  have hnsec : (packed - packed / 1000000000 * 1000000000).toNat = packed.toNat % 1000000000 := by
    rw [UInt64.toNat_sub_of_le _ _ hle, hback]
    omega
  simp only [uint64ToTimespec, hsec, hnsec]

/-- A time comes back if and only if it can be packed. -/
theorem uint64ToTimespec_timespecToUint64 (hnsec : 0 ≤ ts.tvNsec ∧ ts.tvNsec < 1000000000) :
    uint64ToTimespec (timespecToUint64 ts) = ts ↔ ts.Packable := by
  obtain ⟨tvSec, tvNsec⟩ := ts
  have hpacked := toNat_timespecToUint64 ⟨tvSec, tvNsec⟩
  rw [uint64ToTimespec_eq, Timespec.mk.injEq, Timespec.Packable]
  simp only [Timespec.nanoseconds] at hpacked hnsec ⊢
  omega

/-- The time that `kvfs_getattr` of a file returns. -/
theorem hasMtime_slot (hfile : s.vnodes vp = some (.file (s.slotNode i x))) :
    HasMtime s vp ts ↔ uint64ToTimespec x.timestamp = ts := by
  simp only [HasMtime, kvfsGetattr, hfile, Option.map_some, Option.some.injEq]
  constructor
  · exact fun h => h 0
  · rintro rfl _
    rfl

/-! ## What the calls do to a time -/

/-- The file in slot `i` is there, and has this timestamp. -/
def TimeAt (s : Fs) (i : ℕ) (timestamp : UInt64) : Prop :=
  (s.inodeAt i).free = false ∧ (s.inodeAt i).timestamp = timestamp

variable {timestamp : UInt64}

theorem TimeAt.congr (h : TimeAt s i timestamp) (hsame : t.inodeAt i = s.inodeAt i) :
    TimeAt t i timestamp := by
  rw [TimeAt, hsame]
  exact h

/-- A file that gets another inode keeps its time if that has it. -/
theorem TimeAt.updateFile (h : TimeAt s i timestamp) {j : ℕ} (hused : x.free = false)
    (hstamp : i = j → x.timestamp = timestamp) : TimeAt (s.updateFile vp j x) i timestamp := by
  rw [TimeAt, Fs.inodeAt_updateFile]
  by_cases hij : i = j
  · rw [if_pos hij]
    exact ⟨hused, hstamp hij⟩
  · rw [if_neg hij]
    exact h

/-- A file keeps its time if another one is removed. -/
theorem TimeAt.removeFile (h : TimeAt s i timestamp) {j : ℕ} (hwf : s.mp.Wf) (hi : i < s.mp.slots)
    (hj : j < s.mp.slots) (hij : i ≠ j) : TimeAt (s.removeFile vp j) i timestamp := by
  refine h.congr ?_
  rw [Fs.inodeAt_removeFile hwf hj hi, if_neg hij]

namespace Consistent

/-- A file that gets another key keeps its time. -/
theorem timeAt_rename (h : Consistent n s) {tdvp : ℕ} {tvp : Option ℕ} {name : Name}
    {e : Option Errno} (hok : Promised s (.rename vp tdvp tvp name))
    (hends : ¬(Call.rename vp tdvp tvp name).EndsTime s i) (hi : i < n)
    (htime : TimeAt s i timestamp) (hrun : kvfsRename s vp tvp name = some (t, e)) :
    TimeAt t i timestamp := by
  have hslots := h.slots
  cases tvp with
  | none =>
    obtain ⟨key, j, -, -, -, hused, -, -, hres⟩ := h.renameNew hok
    rw [hres, Option.some.injEq, Prod.mk.injEq] at hrun
    rw [← hrun.1]
    refine htime.updateFile ((free_with_key _ key).trans hused) ?_
    rintro rfl
    exact htime.2
  | some tvp =>
    obtain ⟨key, j, hj, k, hk, -, -, -, hused, -, -, -, hkhash, -, hres⟩ := h.renameOver hok
    have hik : i ≠ k := by
      rintro rfl
      exact hends (Represents.slotOf_slot (h.file_of_hash hkhash))
    rw [hres, Option.some.injEq, Prod.mk.injEq] at hrun
    rw [← hrun.1]
    refine (htime.removeFile h.wf (by omega) (by omega) hik).updateFile
      ((free_with_key _ key).trans hused) ?_
    rintro rfl
    exact htime.2

/-- A promised call that neither sets the time of a file nor removes the file keeps its time. -/
theorem timeAt_exec (h : Consistent n s) {c : Call} {r : Reply} (hok : Promised s c)
    (hends : ¬c.EndsTime s i) (hi : i < n) (htime : TimeAt s i timestamp)
    (hrun : Kvfs.exec s c = some (t, r)) : TimeAt t i timestamp := by
  have hslots := h.slots
  cases c with
  | root =>
    simp only [Kvfs.exec, Option.some.injEq, Prod.mk.injEq] at hrun
    rw [← hrun.1]
    exact htime.congr (inodeAt_root s i)
  | vget ino =>
    obtain ⟨j, -, rfl⟩ := hok
    simp only [Kvfs.exec, Option.some.injEq, Prod.mk.injEq] at hrun
    rw [← hrun.1]
    exact htime.congr (h.inodeAt_vget j i)
  | lookup vdp cnp =>
    simp only [Kvfs.exec, Option.some.injEq, Prod.mk.injEq] at hrun
    rw [← hrun.1]
    exact htime.congr (h.inodeAt_lookup hok cnp i)
  | create dvp name ts =>
    simp only [Kvfs.exec, Option.some.injEq, Prod.mk.injEq] at hrun
    rw [← hrun.1]
    obtain ⟨key, -, hkey, -⟩ := h.key_of_lookup hok.1 hok.2
    rcases h.create hkey ts with ⟨-, hres⟩ | ⟨j, hj, freelist, hfree, hempty, hres⟩
    · rw [hres]
      exact htime
    · have hij : i ≠ j := by
        rintro rfl
        have hused := htime.1
        rw [hempty, Inode.free_empty] at hused
        cases hused
      rw [hres]
      refine htime.congr ?_
      rw [Fs.inodeAt_createFile h.wf (by omega), if_neg hij]
  | remove vp =>
    obtain ⟨j, hj, -, -, hfile, hres⟩ := h.remove hok
    have hij : i ≠ j := by
      rintro rfl
      exact hends (Represents.slotOf_slot hfile)
    simp only [Kvfs.exec, hres, Option.map_some, Option.some.injEq, Prod.mk.injEq] at hrun
    rw [← hrun.1]
    exact htime.removeFile h.wf (by omega) (by omega) hij
  | rename fvp tdvp tvp name =>
    simp only [Kvfs.exec, Option.map_eq_some_iff, Prod.mk.injEq] at hrun
    obtain ⟨r', hrun', rfl, -⟩ := hrun
    exact h.timeAt_rename hok hends hi htime hrun'
  | setattr vp vaMtime =>
    by_cases hskip : vaMtime.tvSec = vnoval
    · -- `VNOVAL` leaves the time as it is
      simp only [Kvfs.exec, Option.map_eq_some_iff, Prod.mk.injEq] at hrun
      obtain ⟨t', hset, rfl, -⟩ := hrun
      rw [vnoval] at hskip
      rcases hok with hroot | hlive
      · simp only [kvfsSetattr, hroot, Option.some.injEq] at hset
        rw [← hset]
        exact htime
      · obtain ⟨j, -, -, -, hfile⟩ := h.slot_of_live hlive
        rw [kvfsSetattr_slot h.wf hfile, if_neg (not_not.mpr hskip), Option.some.injEq] at hset
        rw [← hset]
        exact htime
    · rcases h.setattr hok hrun with ht | ⟨j, -, -, -, hfile, ht⟩
      · rw [ht]
        exact htime
      · have hij : i ≠ j := by
          rintro rfl
          exact hends ⟨Represents.slotOf_slot hfile, hskip⟩
        rw [ht]
        refine htime.congr ?_
        rw [Fs.inodeAt_updateFile, if_neg hij]
  | read vp offset resid fault =>
    simp only [Kvfs.exec, Option.map_eq_some_iff, Prod.mk.injEq] at hrun
    obtain ⟨-, -, rfl, -⟩ := hrun
    exact htime
  | write vp ioAppend offset data fault kept =>
    rcases h.write hok hrun with ht | ⟨j, hj, ht⟩
    · rw [ht]
      exact htime
    · rw [ht]
      exact htime.congr (Fs.inodeAt_putData h.wf (by omega))
  | reclaim vp =>
    simp only [Kvfs.exec, Option.some.injEq, Prod.mk.injEq] at hrun
    rw [← hrun.1]
    refine htime.congr ?_
    unfold kvfsReclaim
    split <;> rfl
  | remount => exact hok.elim

/-- A mount finds the time on the device. -/
theorem timeAt_mountState (h : Consistent n s) (htime : TimeAt s i timestamp) :
    TimeAt (Kvfs.mountState n s.disk) i timestamp := by
  refine htime.congr ?_
  rw [Fs.inodeAt_mountState, Fs.inodeAt, h.mp]

/-- A call that keeps a time keeps it through a remount as well. -/
theorem timeAt_step (h : Consistent n s) {c : Call} {r : Reply} (hok : Remounts s c)
    (hends : ¬c.EndsTime s i) (hi : i < n) (htime : TimeAt s i timestamp)
    (hrun : Kvfs.exec s c = some (t, r)) : Consistent n t ∧ TimeAt t i timestamp := by
  rcases hok with hok | ⟨rfl, hmirror⟩
  · exact ⟨h.exec hok hrun, h.timeAt_exec hok hends hi htime hrun⟩
  · simp only [Kvfs.exec, h.kvfsMount, Option.some.injEq, Prod.mk.injEq] at hrun
    rw [← hrun.1]
    exact ⟨h.remount hmirror, h.timeAt_mountState htime⟩

/-- A run of such calls keeps the time. -/
theorem timeAt_run (h : Consistent n s) (hi : i < n) (htime : TimeAt s i timestamp)
    {calls : List Call}
    (hrun : (kvfs n).Run (fun s c => Remounts s c ∧ ¬c.EndsTime s i) s calls t) :
    Consistent n t ∧ TimeAt t i timestamp := by
  induction hrun with
  | nil => exact ⟨h, htime⟩
  | snoc _ hok hstep ih =>
    obtain ⟨hs, hstime⟩ := ih
    obtain ⟨r, hexec⟩ := hstep
    exact hs.timeAt_step hok.1 hok.2 hi hstime hexec

/-! ## Reading a time back -/

/-- A vnode of the file has its time. -/
theorem hasMtime_live (h : Consistent n s) (htime : TimeAt s i timestamp) (hlive : s.Live vp)
    (hslot : s.slotOf vp = some i) : HasMtime s vp ts ↔ uint64ToTimespec timestamp = ts := by
  obtain ⟨j, -, -, -, hfile⟩ := h.slot_of_live hlive
  rw [Represents.slotOf_slot hfile, Option.some.injEq] at hslot
  subst hslot
  rw [hasMtime_slot hfile, htime.2]

/-- The vnode that is handed out for the slot of the file has its time. -/
theorem hasMtime_vget (h : Consistent n s) (htime : TimeAt s i timestamp) :
    ∃ t vp, kvfsVget s (32 * i) = (t, .ok vp) ∧
      ∀ ts, HasMtime t vp ts ↔ uint64ToTimespec timestamp = ts := by
  rcases h.vget i with ⟨vp, hhash, hres⟩ | ⟨hfree, -⟩ | ⟨-, -, hres⟩
  · refine ⟨s, vp, hres, fun ts => ?_⟩
    rw [hasMtime_slot (h.file_of_hash hhash), htime.2]
  · rw [htime.1] at hfree
    cases hfree
  · refine ⟨_, _, hres, fun ts => ?_⟩
    rw [hasMtime_slot (i := i) (x := s.inodeAt i) Fs.vnodes_addVnode, htime.2]

/-- After the next mount the inode is read from disk, and has the time. -/
theorem hasMtime_mount (h : Consistent n s) (htime : TimeAt s i timestamp) :
    ∃ m t vp, Kvfs.kvfsMount (kvfsUnmount s) = .ok m ∧ kvfsVget m (32 * i) = (t, .ok vp) ∧
      ∀ ts, HasMtime t vp ts ↔ uint64ToTimespec timestamp = ts := by
  have hmtime : TimeAt (Kvfs.mountState n s.disk) i timestamp := h.timeAt_mountState htime
  have hvget := kvfsVgetInternal_file (s := Kvfs.mountState n s.disk) (wf_formattedMount h.blocks)
    rfl hmtime.1 none
  refine ⟨_, _, _, h.kvfsMount, hvget, fun ts => ?_⟩
  rw [hasMtime_slot (i := i) (x := (Kvfs.mountState n s.disk).inodeAt i) Fs.vnodes_addVnode,
    hmtime.2]

end Consistent

/-- Set the time of a file that is present. -/
theorem Consistent.setTime (h : Consistent n s) (hlive : s.Live vp) (hset : ts.tvSec ≠ vnoval) :
    ∃ i < n, ∃ t, s.slotOf vp = some i ∧ kvfsSetattr s vp ts = some t ∧ Consistent n t ∧
      t.Live vp ∧ t.slotOf vp = some i ∧ TimeAt t i (timespecToUint64 ts) := by
  obtain ⟨i, hi, hused, hhash, hfile⟩ := h.slot_of_live hlive
  let x : Inode := { s.inodeAt i with timestamp := timespecToUint64 ts }
  have hxused : x.free = false := (free_with_timestamp _ _).trans hused
  have hactive := h.active i hi hused
  have hcall : kvfsSetattr s vp ts = some (s.updateFile vp i x) := by
    have hne : ts.tvSec ≠ -1 := hset
    rw [kvfsSetattr_slot h.wf hfile, if_pos hne]
  have ht : Consistent n (s.updateFile vp i x) :=
    h.updateFile hused hfile ⟨hactive.flags, hactive.refCount⟩ (Or.inl hhash)
  have hfile' : (s.updateFile vp i x).vnodes vp = some (.file (s.slotNode i x)) :=
    Function.update_self _ _ _
  refine ⟨i, hi, _, Represents.slotOf_slot hfile, hcall, ht, ⟨_, hfile', hhash⟩,
    Represents.slotOf_slot (s := s.updateFile vp i x) hfile', ?_⟩
  rw [TimeAt, Fs.inodeAt_updateFile, if_pos rfl]
  exact ⟨hxused, rfl⟩

/-- The time of a file is set. In every later state of a run that neither sets it again nor removes
the file, every vnode of the file has that time, whether the inode has stayed in memory or was read
again, and so has the one that is handed out, then or after the next mount, if and only if the
nanoseconds of the time are an unsigned number of 64 bits. -/
theorem mtime_survives_iff (h : (kvfs n).Reachable Remounts s) (hlive : s.Live vp)
    (hset : ts.tvSec ≠ vnoval) (hnsec : 0 ≤ ts.tvNsec ∧ ts.tvNsec < 1000000000) :
    ∃ i < n, ∃ t, s.slotOf vp = some i ∧ kvfsSetattr s vp ts = some t ∧
      t.Live vp ∧ t.slotOf vp = some i ∧
      ∀ calls u, (kvfs n).Run (fun s c => Remounts s c ∧ ¬c.EndsTime s i) t calls u →
        (∀ vp', u.Live vp' → u.slotOf vp' = some i → (HasMtime u vp' ts ↔ ts.Packable)) ∧
        (∃ w vp', kvfsVget u (32 * i) = (w, .ok vp') ∧ (HasMtime w vp' ts ↔ ts.Packable)) ∧
        ∃ m w vp', kvfsMount (kvfsUnmount u) = .ok m ∧ kvfsVget m (32 * i) = (w, .ok vp') ∧
          (HasMtime w vp' ts ↔ ts.Packable) := by
  obtain ⟨i, hi, t, hslot, hcall, ht, htlive, htslot, htime⟩ :=
    (consistent_of_remounts h).setTime hlive hset
  refine ⟨i, hi, t, hslot, hcall, htlive, htslot, fun calls u hrun => ?_⟩
  obtain ⟨hu, hutime⟩ := ht.timeAt_run hi htime hrun
  have hpack := uint64ToTimespec_timespecToUint64 hnsec
  obtain ⟨w, vp₁, hvget, hmtime⟩ := hu.hasMtime_vget hutime
  obtain ⟨m, w', vp₂, hmount, hvget', hmtime'⟩ := hu.hasMtime_mount hutime
  refine ⟨fun vp' hlive' hslot' => (hu.hasMtime_live hutime hlive' hslot').trans hpack,
    ⟨w, vp₁, hvget, (hmtime ts).trans hpack⟩, m, w', vp₂, hmount, hvget', (hmtime' ts).trans hpack⟩

/-- A time in 2023, for the file of a device with one block. -/
theorem mtime_survives_iff_one : ∃ i < 1, ∃ t, oneFileFs.slotOf rootFs.nextVp = some i ∧
    kvfsSetattr oneFileFs rootFs.nextVp ⟨1700000000, 5⟩ = some t ∧
    t.Live rootFs.nextVp ∧ t.slotOf rootFs.nextVp = some i ∧
    ∀ calls u, (kvfs 1).Run (fun s c => Remounts s c ∧ ¬c.EndsTime s i) t calls u →
      (∀ vp', u.Live vp' → u.slotOf vp' = some i →
        (HasMtime u vp' ⟨1700000000, 5⟩ ↔ Timespec.Packable ⟨1700000000, 5⟩)) ∧
      (∃ w vp', kvfsVget u (32 * i) = (w, .ok vp') ∧
        (HasMtime w vp' ⟨1700000000, 5⟩ ↔ Timespec.Packable ⟨1700000000, 5⟩)) ∧
      ∃ m w vp', kvfsMount (kvfsUnmount u) = .ok m ∧ kvfsVget m (32 * i) = (w, .ok vp') ∧
        (HasMtime w vp' ⟨1700000000, 5⟩ ↔ Timespec.Packable ⟨1700000000, 5⟩) :=
  mtime_survives_iff (oneFileFs_reachable fun _ _ h => Or.inl h) live_createFile (by decide)
    (by decide)

/-- Two seconds before the epoch. -/
theorem mtime_survives_fails : ¬∀ n s vp ts t, (kvfs n).Reachable Remounts s → s.Live vp →
    ts.tvSec ≠ vnoval → 0 ≤ ts.tvNsec ∧ ts.tvNsec < 1000000000 → kvfsSetattr s vp ts = some t →
    HasMtime t vp ts := by
  intro hall
  obtain ⟨i, -, t, -, hcall, ht, htlive, htslot, htime⟩ :=
    consistent_oneFileFs.setTime live_createFile
      (show (⟨-2, 0⟩ : Timespec).tvSec ≠ vnoval by decide)
  have hmtime := hall 1 oneFileFs rootFs.nextVp ⟨-2, 0⟩ t
    (oneFileFs_reachable fun _ _ h => Or.inl h) live_createFile (by decide) (by decide) hcall
  rw [ht.hasMtime_live htime htlive htslot, uint64ToTimespec_timespecToUint64 (by decide)] at hmtime
  exact absurd hmtime.1 (by decide)

end EmbeddedOs.Kvfs
