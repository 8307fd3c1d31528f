import EmbeddedOs.Kvfs.Failures
import EmbeddedOs.Lib.Ledger

/-!
# What a failed mount leaves behind

`kvfs_mount` and `kvfs_unmount` of `kvfs_vfsops.c` with what the functions they call return, and
with the ledger of the resources they acquire and release. `kvfs_unmount` releases the vnode of the
device and clears `mnt_data`. No failing path of `kvfs_mount` behind the claim of `si_mountpt` does
the first, and none that has set `mnt_data` does the second.
-/

namespace EmbeddedOs.Kvfs

open Lib.Bytes Lib.Ledger Lib.Ledger.Posting

/-- The resources of a mount. -/
inductive Resource
  /-- The reference to the vnode of the device, from `namei`. -/
  | devvpRef
  /-- The lock of this vnode, from `namei`. -/
  | devvpLock
  /-- The claim of `si_mountpt`. -/
  | siMountpt
  /-- The GEOM consumer, from `g_vfs_open`. -/
  | consumer
  /-- The reference to the cdev, from `dev_ref`. -/
  | cdevRef
  /-- The `struct kvfs_mount`. -/
  | kvfsmp
  /-- The pointer to it in `mnt_data`. -/
  | mntData
  /-- The buffer, from `bread`. -/
  | buf
  deriving DecidableEq

/-- What a call of `bread` returns. -/
structure BreadCall where
  /-- Its error. -/
  error : ℤ
  /-- With an error, it hands the buffer back. -/
  buf : Bool

/-- What the calls in `kvfs_mount` return. -/
structure MountCalls where
  /-- `MNT_UPDATE` in `mnt_flag`. -/
  update : Bool
  /-- `vfs_getopt` of `from`. -/
  getopt : ℤ
  /-- `namei`. -/
  namei : ℤ
  /-- The error of `vn_isdisk_error`. -/
  isdisk : ℤ
  /-- `g_vfs_open`. -/
  gVfsOpen : ℤ
  /-- `bread` of the superblock. -/
  superblock : BreadCall
  /-- `bread` of the bitmap. -/
  bitmap : BreadCall

/-- The ledger, the error and the mounted file system of a call of `kvfs_mount`. -/
structure MountResult where
  /-- The resources that were acquired and released. -/
  log : List (Posting Resource)
  /-- The error. -/
  error : ℤ
  /-- The file system. -/
  fs : Option Fs

/-- The label `error_exit`; `bp` says whether there is a buffer. -/
def errorExit (log : List (Posting Resource)) (bp : Bool) (error : ℤ) : MountResult where
  log := log ++ [.release .kvfsmp] ++ (if bp then [.release .buf] else []) ++
    [.release .consumer, .release .cdevRef, .release .siMountpt]
  error := error
  fs := none

/-- The mount with the fields of the superblock and the free list from the bitmap. -/
def mountedFs (sb : Superblock) (disk : Disk) : Fs :=
  let mp : KvfsMount :=
    { freelistOff := sb.freelistOff.toNat
      inodeOff := sb.inodeOff.toNat
      dataOff := sb.dataOff.toNat
      blockCount := sb.blockCount
      flags := sb.flags }
  let freelistBytes := (mp.blockCount + 7).toNat / 8
  let base := dbtob (btodb mp.freelistOff)
  let fl := (List.range freelistBytes).foldl
    (fun fl i => mountByte mp.blockCount.toNat i (disk (base + i)) (List.range 8) fl) ([], 0)
  { mp := mp
    freelist := fl.1
    freelistCount := fl.2
    disk := disk
    vnodes := fun _ => none
    hash := []
    nextVp := 0 }

/-- `kvfs_mount` of a device; `held` says how much of each resource is held before it. -/
def kvfsMountCalls (disk : Disk) (held : Resource → ℤ) (calls : MountCalls) : MountResult :=
  -- `EOPNOTSUPP`
  if calls.update then ⟨[], 45, none⟩
  else if calls.getopt ≠ 0 then ⟨[], Errno.EINVAL.toInt, none⟩
  else if calls.namei ≠ 0 then ⟨[], calls.namei, none⟩
  else
    let log := [acquire Resource.devvpRef, acquire Resource.devvpLock]
    -- `vput`
    if calls.isdisk ≠ 0 then
      ⟨log ++ [release Resource.devvpLock, release Resource.devvpRef], calls.isdisk, none⟩
    -- `EBUSY`
    else if held .siMountpt ≠ 0 then ⟨log ++ [release Resource.devvpLock], 16, none⟩
    else
      let log := log ++ [acquire Resource.siMountpt]
      if calls.gVfsOpen ≠ 0 then
        ⟨log ++ [release Resource.siMountpt, release Resource.devvpLock], calls.gVfsOpen, none⟩
      else
        let log := log ++ [acquire Resource.consumer, acquire Resource.cdevRef,
          release Resource.devvpLock, acquire Resource.kvfsmp, acquire Resource.mntData]
        if calls.superblock.error ≠ 0 then
          let log := log ++ if calls.superblock.buf then [acquire Resource.buf] else []
          errorExit log calls.superblock.buf calls.superblock.error
        else
          let log := log ++ [acquire Resource.buf]
          let sb := Superblock.ofBytes (get disk 0 48)
          if sb.magicnum ≠ kvfsSuperblockMagic then errorExit log true Errno.EINVAL.toInt
          else
            let log := log ++ [release Resource.buf]
            if calls.bitmap.error ≠ 0 then
              let log := log ++ if calls.bitmap.buf then [acquire Resource.buf] else []
              errorExit log calls.bitmap.buf calls.bitmap.error
            else ⟨log ++ [acquire Resource.buf, release Resource.buf], 0, some (mountedFs sb disk)⟩

/-- What `kvfs_unmount` releases, once `vflush` has succeeded. -/
def kvfsUnmountLog : List (Posting Resource) :=
  [.release .consumer, .release .siMountpt, .release .devvpRef, .release .cdevRef,
    .release .kvfsmp, .release .mntData]

/-- If the mount fails, all that it acquired was released exactly once, and a later mount does what
it would have done before. -/
def NothingLeft (disk : Disk) (held : Resource → ℤ) (calls : MountCalls) : Prop :=
  let result := kvfsMountCalls disk held calls
  result.error ≠ 0 → Balanced result.log ∧ ∀ disk' calls',
    kvfsMountCalls disk' (post held result.log) calls' = kvfsMountCalls disk' held calls'

/-- The device is found and is a disk. -/
structure MountCalls.Found (calls : MountCalls) : Prop where
  /-- No update is requested. -/
  update : calls.update = false
  /-- The name is given. -/
  getopt : calls.getopt = 0
  /-- It is found. -/
  namei : calls.namei = 0
  /-- It is that of a disk. -/
  isdisk : calls.isdisk = 0

/-- The device is busy or cannot be opened, its superblock cannot be read or is another one, or the
bitmap cannot be read. -/
def MountCalls.FailsFound (disk : Disk) (held : Resource → ℤ) (calls : MountCalls) : Prop :=
  held .siMountpt ≠ 0 ∨ calls.gVfsOpen ≠ 0 ∨ calls.superblock.error ≠ 0 ∨
    (Superblock.ofBytes (get disk 0 48)).magicnum ≠ kvfsSuperblockMagic ∨ calls.bitmap.error ≠ 0

variable {disk : Disk} {held : Resource → ℤ} {calls : MountCalls}

/-- Where nothing fails the mount is that of the fault-free model. -/
theorem kvfsMount_eq_mountedFs (disk : Disk) : kvfsMount disk =
    if (Superblock.ofBytes (get disk 0 48)).magicnum ≠ kvfsSuperblockMagic then .error .EINVAL
    else .ok (mountedFs (Superblock.ofBytes (get disk 0 48)) disk) := by
  simp only [kvfsMount, mountedFs]

/-! ## The paths -/

/-- A mount that ends before it has found a disk holds nothing. -/
theorem balanced_of_not_found (h : ¬calls.Found) :
    Balanced (kvfsMountCalls disk held calls).log := by
  unfold kvfsMountCalls
  by_cases hupdate : calls.update
  · rw [if_pos hupdate]
    exact fun _ => rfl
  by_cases hgetopt : calls.getopt ≠ 0
  · rw [if_neg hupdate, if_pos hgetopt]
    exact fun _ => rfl
  by_cases hnamei : calls.namei ≠ 0
  · rw [if_neg hupdate, if_neg hgetopt, if_pos hnamei]
    exact fun _ => rfl
  by_cases hisdisk : calls.isdisk ≠ 0
  · simp only [if_neg hupdate, if_neg hgetopt, if_neg hnamei, if_pos hisdisk]
    intro r
    cases r <;> rfl
  · exact absurd ⟨Bool.not_eq_true _ ▸ hupdate, not_not.mp hgetopt, not_not.mp hnamei,
      not_not.mp hisdisk⟩ h

/-- On the label every resource is released but the vnode of the device and `mnt_data`. -/
theorem heldAfter_errorExit {log : List (Posting Resource)} {bp : Bool} {error : ℤ} {r : Resource}
    (h : heldAfter r log = some (match r with
      | .devvpLock => false
      | .buf => bp
      | _ => true)) :
    heldAfter r (errorExit log bp error).log = some (decide (r = .devvpRef ∨ r = .mntData)) := by
  simp only [errorExit, heldAfter_append, h]
  cases bp <;> cases r <;> rfl

/-- So only these two are held behind it. -/
theorem held_errorExit {log : List (Posting Resource)} {bp : Bool} {error : ℤ} (herror : error ≠ 0)
    (hlog : ∀ r : Resource, heldAfter r log = some (match r with
      | .devvpLock => false
      | .buf => bp
      | _ => true)) :
    (errorExit log bp error).error ≠ 0 ∧
      heldAfter .devvpRef (errorExit log bp error).log = some true ∧
      ∀ r, r ≠ .devvpRef → r ≠ .mntData →
        heldAfter r (errorExit log bp error).log = some false := by
  refine ⟨herror, heldAfter_errorExit (hlog _), fun r href hdata => ?_⟩
  rw [heldAfter_errorExit (hlog r), decide_eq_false (by simp [href, hdata])]

/-- A mount of a disk that fails returns an error, and holds the vnode of the device and at most
`mnt_data` besides. -/
theorem held_of_failed (h : calls.Found) (hfails : calls.FailsFound disk held) :
    (kvfsMountCalls disk held calls).error ≠ 0 ∧
      heldAfter .devvpRef (kvfsMountCalls disk held calls).log = some true ∧
      ∀ r, r ≠ .devvpRef → r ≠ .mntData →
        heldAfter r (kvfsMountCalls disk held calls).log = some false := by
  have hupdate : ¬calls.update = true := by simp [h.update]
  simp only [kvfsMountCalls, if_neg hupdate, h.getopt, h.namei, h.isdisk, ne_eq,
    not_true_eq_false, if_false]
  by_cases hbusy : held .siMountpt = 0
  · by_cases hopen : calls.gVfsOpen = 0
    · by_cases hsb : calls.superblock.error = 0
      · by_cases hmagic : (Superblock.ofBytes (get disk 0 48)).magicnum = kvfsSuperblockMagic
        · have hbitmap : calls.bitmap.error ≠ 0 := by
            rcases hfails with hfail | hfail | hfail | hfail | hfail
            · exact absurd hbusy hfail
            · exact absurd hopen hfail
            · exact absurd hsb hfail
            · exact absurd hmagic hfail
            · exact hfail
          simp only [hbusy, hopen, hsb, hmagic, not_true_eq_false, if_false, hbitmap,
            not_false_eq_true, if_true]
          apply held_errorExit hbitmap
          intro r
          cases calls.bitmap.buf <;> cases r <;> rfl
        · simp only [hbusy, hopen, hsb, hmagic, not_true_eq_false, if_false, not_false_eq_true,
            if_true]
          apply held_errorExit (by decide)
          intro r
          cases r <;> rfl
      · simp only [hbusy, hopen, hsb, not_true_eq_false, if_false, not_false_eq_true, if_true]
        apply held_errorExit hsb
        intro r
        cases calls.superblock.buf <;> cases r <;> rfl
    · simp only [hbusy, hopen, not_true_eq_false, if_false, not_false_eq_true, if_true]
      refine ⟨trivial, rfl, fun r href hdata => ?_⟩
      cases r <;> first | rfl | exact absurd rfl href
  · simp only [hbusy, not_false_eq_true, if_true]
    refine ⟨by decide, rfl, fun r href hdata => ?_⟩
    cases r <;> first | rfl | exact absurd rfl href

/-- Every such mount leaves one reference more on the vnode of the device. -/
theorem post_of_failed (h : calls.Found) (hfails : calls.FailsFound disk held) :
    post held (kvfsMountCalls disk held calls).log .devvpRef = held .devvpRef + 1 :=
  post_of_held (held_of_failed h hfails).2.1 held

/-- A mount of a disk in which nothing fails succeeds. -/
theorem kvfsMountCalls_ok (h : calls.Found) (hok : ¬calls.FailsFound disk held) :
    (kvfsMountCalls disk held calls).error = 0 ∧
      kvfsMount disk = .ok (mountedFs (Superblock.ofBytes (get disk 0 48)) disk) ∧
      (kvfsMountCalls disk held calls).fs =
        some (mountedFs (Superblock.ofBytes (get disk 0 48)) disk) ∧
      Balanced ((kvfsMountCalls disk held calls).log ++ kvfsUnmountLog) := by
  have hupdate : ¬calls.update = true := by simp [h.update]
  simp only [MountCalls.FailsFound, not_or, not_not] at hok
  obtain ⟨hbusy, hopen, hsb, hmagic, hbitmap⟩ := hok
  refine ⟨?_, ?_, ?_, ?_⟩
  · simp only [kvfsMountCalls, if_neg hupdate, h.getopt, h.namei, h.isdisk, hbusy, hopen, hsb,
      hmagic, hbitmap, ne_eq, not_true_eq_false, if_false]
  · rw [kvfsMount_eq_mountedFs, if_neg (not_not.mpr hmagic)]
  · simp only [kvfsMountCalls, if_neg hupdate, h.getopt, h.namei, h.isdisk, hbusy, hopen, hsb,
      hmagic, hbitmap, ne_eq, not_true_eq_false, if_false]
  · simp only [kvfsMountCalls, if_neg hupdate, h.getopt, h.namei, h.isdisk, hbusy, hopen, hsb,
      hmagic, hbitmap, ne_eq, not_true_eq_false, if_false]
    intro r
    cases r <;> rfl

/-- A mount that fails leaves nothing behind if and only if it fails before the device is found to
be a disk. -/
theorem nothing_left_iff (disk : Disk) (held : Resource → ℤ) (calls : MountCalls) :
    NothingLeft disk held calls ↔ ¬(calls.Found ∧ calls.FailsFound disk held) := by
  constructor
  · rintro hnothing ⟨hfound, hfails⟩
    obtain ⟨herror, hheld, -⟩ := held_of_failed hfound hfails
    have hbalanced := (hnothing herror).1 .devvpRef
    rw [hheld] at hbalanced
    cases hbalanced
  · intro hnot herror
    by_cases hfound : calls.Found
    · have hok := kvfsMountCalls_ok hfound fun hfails => hnot ⟨hfound, hfails⟩
      exact absurd hok.1 herror
    · have hbalanced : Balanced (kvfsMountCalls disk held calls).log := balanced_of_not_found hfound
      refine ⟨hbalanced, fun disk' calls' => ?_⟩
      rw [hbalanced.post_eq]

/-- A disk of zeros has another magic number. -/
theorem nothing_left_fails : ¬∀ disk held calls, NothingLeft disk held calls := by
  intro hall
  let calls : MountCalls := ⟨false, 0, 0, 0, 0, ⟨0, false⟩, ⟨0, false⟩⟩
  have hfound : calls.Found := ⟨rfl, rfl, rfl, rfl⟩
  have hfails : calls.FailsFound (fun _ => 0) fun _ => 0 :=
    Or.inr (Or.inr (Or.inr (Or.inl (by decide))))
  obtain ⟨herror, hheld, -⟩ := held_of_failed hfound hfails
  have hbalanced := (hall _ _ calls herror).1 .devvpRef
  rw [hheld] at hbalanced
  cases hbalanced

end EmbeddedOs.Kvfs
