import EmbeddedOs.Kvfs.KeySlots

/-!
# Calls that fail

`kvfs_create`, `kvfs_remove` and `kvfs_rename` with what the functions they call return: the
reads and writes of the device, and the functions that find, make and lock vnodes. Where
nothing fails they are the operations of the fault-free model. A run may contain calls with
failures that the operations withstand; these leave the slots as the same calls without
failures do.

A write that fails leaves the device as it was. A read that fails has no buffer: where the
error is not looked at, a null pointer is followed.
-/

namespace EmbeddedOs.Kvfs

open Lib Lib.Bytes

variable {n i j k vp dvp : ℕ} {s t : Fs} {x : Inode} {key : Key} {c : Call}

/-- The number of an error in `errno.h`. -/
def Errno.toInt : Errno → ℤ
  | .ENOENT => 2
  | .EINVAL => 22
  | .ENOSPC => 28
  | .EJUSTRETURN => -2
  | .EEXIST => 17
  | .EISDIR => 21
  | .EPERM => 1
  | .EFAULT => 14
  | .ENOTDIR => 20

/-! ## What the callees return -/

/-- What the calls in `memnode_update` return. -/
structure UpdateCalls where
  /-- `bread` of the sector of the inode. -/
  bread : ℤ
  /-- `bwrite` of this sector. -/
  bwrite : ℤ

/-- What the calls in `kvfs_vget_internal` return. -/
structure VgetCalls where
  /-- `vfs_hash_get`. -/
  vfsHashGet : ℤ
  /-- `getnewvnode`. -/
  getnewvnode : ℤ
  /-- `vn_lock`. -/
  vnLock : ℤ
  /-- `insmntque`. -/
  insmntque : ℤ
  /-- `vfs_hash_insert`. -/
  vfsHashInsert : ℤ
  /-- `bread` of the sector of the inode. -/
  bread : ℤ

/-- What the calls in `kvfs_create` return. -/
structure CreateCalls where
  /-- `bread` of the sector of the bitmap. -/
  bread : ℤ
  /-- The calls in `kvfs_vget_internal`. -/
  vget : VgetCalls

/-- What the calls in `kvfs_remove` return. -/
structure RemoveCalls where
  /-- The calls in `memnode_update`. -/
  update : UpdateCalls
  /-- `bwrite` of the data block. -/
  bwrite : ℤ
  /-- `bread` of the sector of the bitmap. -/
  bread : ℤ

/-- What the calls in `kvfs_rename` return. -/
structure RenameCalls where
  /-- The calls in `VOP_REMOVE` of the target. -/
  remove : RemoveCalls
  /-- `vn_lock` of the source. -/
  vnLock : ℤ
  /-- The calls in `memnode_update`. -/
  update : UpdateCalls

/-- The inode is written. -/
def UpdateCalls.Succeed (calls : UpdateCalls) : Prop := calls.bread = 0 ∧ calls.bwrite = 0

instance (calls : UpdateCalls) : Decidable calls.Succeed :=
  inferInstanceAs (Decidable (calls.bread = 0 ∧ calls.bwrite = 0))

/-- A vnode is made and brought into the hash. -/
structure VgetCalls.Succeed (calls : VgetCalls) : Prop where
  /-- `vfs_hash_get`. -/
  vfsHashGet : calls.vfsHashGet = 0
  /-- `getnewvnode`. -/
  getnewvnode : calls.getnewvnode = 0
  /-- `vn_lock`. -/
  vnLock : calls.vnLock = 0
  /-- `insmntque`. -/
  insmntque : calls.insmntque = 0
  /-- `vfs_hash_insert`. -/
  vfsHashInsert : calls.vfsHashInsert = 0

/-- The bitmap is read, and a vnode is made. -/
def CreateCalls.Succeed (calls : CreateCalls) : Prop := calls.bread = 0 ∧ calls.vget.Succeed

/-- The inode is written, and the bitmap is read. -/
def RemoveCalls.Succeed (calls : RemoveCalls) : Prop := calls.update.Succeed ∧ calls.bread = 0

/-- The source is locked and written and the target is removed; or the source is not locked,
and there is no target. -/
def RenameCalls.Succeed (calls : RenameCalls) (tvp : Option ℕ) : Prop :=
  (calls.vnLock = 0 ∧ calls.update.Succeed ∧ (tvp ≠ none → calls.remove.Succeed)) ∨
    (calls.vnLock ≠ 0 ∧ tvp = none)

/-! ## The operations -/

/-- `memnode_update`. -/
def memnodeUpdateCalls (s : Fs) (knode : Memnode) (inode : Inode) (calls : UpdateCalls) :
    Fs × ℤ :=
  if calls.bread ≠ 0 then (s, calls.bread)
  else if calls.bwrite ≠ 0 then (s, calls.bwrite)
  else (memnodeUpdate s knode inode, 0)

/-- A state, an error number and a vnode, if there is one. -/
def returned (r : Fs × Except Errno ℕ) : Fs × ℤ × Option ℕ :=
  match r with
  | (s, .ok vp) => (s, 0, some vp)
  | (s, .error e) => (s, e.toInt, none)

theorem returned_fst (r : Fs × Except Errno ℕ) : (returned r).1 = r.1 := by
  obtain ⟨s, vp | e⟩ := r <;> rfl

/-- `kvfs_vget_internal`. Once the vnode is in the hash, only the read of the inode can fail,
and its error is not looked at. -/
def kvfsVgetInternalCalls (s : Fs) (ino : ℕ) (keystr : Option (Name × Timespec))
    (calls : VgetCalls) : Option (Fs × ℤ × Option ℕ) :=
  if calls.vfsHashGet ≠ 0 then some (s, calls.vfsHashGet, none)
  else
    match s.vfsHashGet ino with
    | some vp => some (s, 0, some vp)
    | none =>
      if calls.getnewvnode ≠ 0 then some (s, calls.getnewvnode, none)
      else
        -- the vnode is not given back by the error returns
        let lost : Fs := { s with nextVp := s.nextVp + 1 }
        if calls.vnLock ≠ 0 then some (lost, calls.vnLock, none)
        else if calls.insmntque ≠ 0 then some (lost, calls.insmntque, none)
        else if calls.vfsHashInsert ≠ 0 then some (lost, calls.vfsHashInsert, none)
        else if ino ≠ kvfsRootIno ∧ calls.bread ≠ 0 then none
        else some (returned (kvfsVgetInternal s ino keystr))

/-- `kvfs_create`. The error of the read of the bitmap is dropped: the return value is 0, and
`*vpp` is not set. -/
def kvfsCreateCalls (s : Fs) (name : Name) (ts : Timespec) (calls : CreateCalls) :
    Option (Fs × ℤ × Option ℕ) :=
  match s.freelist with
  | [] => some (s, Errno.ENOSPC.toInt, none)
  | ino :: freelist =>
    let freeByte := inoToFreeByte ino s.mp
    let mask := inoToFreeBitMask ino
    let s := { s with freelist := freelist, freelistCount := s.freelistCount - 1 }
    if calls.bread ≠ 0 then some (s, 0, none)
    else
      let s :=
        { s with disk := s.disk.modify (dbtob (btodb freeByte) + freeByte % 512) (· ||| mask) }
      kvfsVgetInternalCalls s ino (some (name, ts)) calls.vget

/-- `kvfs_remove`. What `memnode_update` and the write of the data block return is not looked
at, and when the bitmap cannot be read the return value is 0 as well. -/
def kvfsRemoveCalls (s : Fs) (vp : ℕ) (calls : RemoveCalls) : Option (Fs × ℤ) :=
  match s.vnodes vp with
  | some (.file knode) =>
    let s := (memnodeUpdateCalls s knode .empty calls.update).1
    let s := if calls.bwrite ≠ 0 then s
      else { s with disk := put s.disk (dbtob knode.lbn) (List.replicate 4096 0) }
    let freeByte := inoToFreeByte knode.ino s.mp % 2 ^ 32
    let mask := inoToFreeBitMask knode.ino
    let s := { s with freelist := knode.ino :: s.freelist, freelistCount := s.freelistCount + 1 }
    if calls.bread ≠ 0 then some (s, 0)
    else
      let s :=
        { s with disk := s.disk.modify (dbtob (btodb freeByte) + freeByte % 512) (· &&& ~~~mask) }
      some (s.vfsHashRemove vp, 0)
  | _ => none

/-- `kvfs_rename` inside one mount. What `VOP_REMOVE` and `memnode_update` return is not looked
at. -/
def kvfsRenameCalls (s : Fs) (fvp : ℕ) (tvp : Option ℕ) (name : Name) (calls : RenameCalls) :
    Option (Fs × ℤ) :=
  match strToKey name with
  | none => some (s, Errno.EINVAL.toInt)
  | some testkey =>
    let removed := match tvp with
      | some tvp =>
        if s.vnodes tvp = none then some s else (kvfsRemoveCalls s tvp calls.remove).map (·.1)
      | none => some s
    match removed with
    | none => none
    | some s =>
      if calls.vnLock ≠ 0 then some (s, calls.vnLock)
      else
        match s.vnodes fvp with
        | some (.file knode) =>
          let knode := { knode with inode := { knode.inode with key := testkey } }
          let s := s.setVnode fvp (some (.file knode))
          some ((memnodeUpdateCalls s knode knode.inode calls.update).1, 0)
        | _ => none

/-! ## What they do -/

theorem memnodeUpdateCalls_fst (s : Fs) (knode : Memnode) (inode : Inode) (calls : UpdateCalls) :
    (memnodeUpdateCalls s knode inode calls).1 =
      if calls.Succeed then memnodeUpdate s knode inode else s := by
  unfold memnodeUpdateCalls UpdateCalls.Succeed
  by_cases hbread : calls.bread = 0
  · by_cases hbwrite : calls.bwrite = 0 <;> simp [hbread, hbwrite]
  · simp [hbread]

/-- Nothing fails in `kvfs_vget_internal`. -/
theorem kvfsVgetInternalCalls_eq {calls : VgetCalls} (h : calls.Succeed) (hbread : calls.bread = 0)
    (s : Fs) (ino : ℕ) (keystr : Option (Name × Timespec)) :
    kvfsVgetInternalCalls s ino keystr calls = some (returned (kvfsVgetInternal s ino keystr)) := by
  cases hget : s.vfsHashGet ino with
  | some vp =>
    simp only [kvfsVgetInternalCalls, h.vfsHashGet, ne_eq, not_true_eq_false, if_false, hget,
      kvfsVgetInternal_cached hget]
    rfl
  | none =>
    simp only [kvfsVgetInternalCalls, h.vfsHashGet, h.getnewvnode, h.vnLock, h.insmntque,
      h.vfsHashInsert, hbread, ne_eq, not_true_eq_false, and_false, if_false, hget]

/-- The inode of a slot that has no vnode cannot be read. -/
theorem kvfsVgetInternalCalls_panic {calls : VgetCalls} (h : calls.Succeed)
    (hbread : calls.bread ≠ 0) (hget : s.vfsHashGet (32 * i) = none)
    (keystr : Option (Name × Timespec)) :
    kvfsVgetInternalCalls s (32 * i) keystr calls = none := by
  have hslot := slot_ne_root i
  simp only [kvfsVgetInternalCalls, h.vfsHashGet, h.getnewvnode, h.vnLock, h.insmntque,
    h.vfsHashInsert, ne_eq, not_true_eq_false, if_false, hget, hbread, hslot, not_false_eq_true,
    and_self, if_true]

/-- A slot that has no vnode gets none, and the free list is not put back. -/
theorem kvfsVgetInternalCalls_fails {calls : VgetCalls} (h : ¬calls.Succeed)
    (hget : s.vfsHashGet (32 * i) = none) (keystr : Option (Name × Timespec)) :
    ∃ t e, kvfsVgetInternalCalls s (32 * i) keystr calls = some (t, e, none) ∧ e ≠ 0 ∧
      t.freelist = s.freelist := by
  unfold kvfsVgetInternalCalls
  by_cases hhash : calls.vfsHashGet = 0
  · rw [if_neg (not_not.mpr hhash)]
    simp only [hget]
    by_cases hnew : calls.getnewvnode = 0
    · rw [if_neg (not_not.mpr hnew)]
      by_cases hlock : calls.vnLock = 0
      · rw [if_neg (not_not.mpr hlock)]
        by_cases hmnt : calls.insmntque = 0
        · rw [if_neg (not_not.mpr hmnt)]
          have hinsert : calls.vfsHashInsert ≠ 0 := fun hinsert =>
            h ⟨hhash, hnew, hlock, hmnt, hinsert⟩
          rw [if_pos hinsert]
          exact ⟨_, _, rfl, hinsert, rfl⟩
        · rw [if_pos hmnt]
          exact ⟨_, _, rfl, hmnt, rfl⟩
      · rw [if_pos hlock]
        exact ⟨_, _, rfl, hlock, rfl⟩
    · rw [if_pos hnew]
      exact ⟨_, _, rfl, hnew, rfl⟩
  · rw [if_pos hhash]
    exact ⟨_, _, rfl, hhash, rfl⟩

theorem kvfsCreateCalls_full (h : s.freelist = []) (name : Name) (ts : Timespec)
    (calls : CreateCalls) :
    kvfsCreateCalls s name ts calls = some (s, Errno.ENOSPC.toInt, none) := by
  simp only [kvfsCreateCalls, h]

/-- Nothing fails in `kvfs_create`. -/
theorem kvfsCreateCalls_eq {calls : CreateCalls} (h : calls.Succeed) (hbread : calls.vget.bread = 0)
    (s : Fs) (name : Name) (ts : Timespec) :
    kvfsCreateCalls s name ts calls = some (returned (kvfsCreate s name ts)) := by
  obtain ⟨hbitmap, hvget⟩ := h
  unfold kvfsCreateCalls kvfsCreate
  cases s.freelist with
  | nil => rfl
  | cons ino freelist =>
    simp only [hbitmap, ne_eq, not_true_eq_false, if_false, kvfsVgetInternalCalls_eq hvget hbread]

theorem kvfsCreateCalls_slot {freelist : List ℕ} (h : s.freelist = 32 * i :: freelist)
    (name : Name) (ts : Timespec) (calls : CreateCalls) :
    kvfsCreateCalls s name ts calls = if calls.bread ≠ 0 then
        some ({ s with freelist := freelist, freelistCount := s.freelistCount - 1 }, 0, none)
      else kvfsVgetInternalCalls (s.takeSlot i) (32 * i) (some (name, ts)) calls.vget := by
  simp only [kvfsCreateCalls, h, dbtob_btodb_add_mod, inoToFreeByte_slot, inoToFreeBitMask_slot,
    Fs.takeSlot, List.tail_cons]
  rfl

namespace Fs

variable (s : Fs)

/-- The device after a remove: the writes that do not fail, and the bit if it can be read. -/
def clearedDisk (i : ℕ) (calls : RemoveCalls) : Disk :=
  let d := if calls.update.Succeed then s.mp.putInode s.disk i .empty else s.disk
  let d := if calls.bwrite ≠ 0 then d else s.mp.putData d i 0 (List.replicate 4096 0)
  if calls.bread ≠ 0 then d else s.mp.clearBit d i

/-- Clear a slot and put it on the free list, and where the bitmap can be read, forget its
vnode. -/
def removeWith (vp i : ℕ) (calls : RemoveCalls) : Fs :=
  { s with
    disk := s.clearedDisk i calls
    freelist := 32 * i :: s.freelist
    freelistCount := s.freelistCount + 1
    hash := if calls.bread ≠ 0 then s.hash else s.hash.filter fun e => e.2 != vp }

/-- Change the inode of a file in its memnode, and in its slot if the write does not fail. -/
def rekeyWith (vp i : ℕ) (x : Inode) (calls : UpdateCalls) : Fs :=
  if calls.Succeed then s.updateFile vp i x
  else s.setVnode vp (some (.file (s.slotNode i x)))

end Fs

theorem kvfsRemoveCalls_slot (hwf : s.mp.Wf) (hi : i < s.mp.slots)
    (h : s.vnodes vp = some (.file (s.slotNode i x))) (calls : RemoveCalls) :
    kvfsRemoveCalls s vp calls = some (s.removeWith vp i calls, 0) := by
  have hbitmap := hwf.bitmap
  have hfree := hwf.freeByte
  have hbyte : inoToFreeByte (32 * i) s.mp % 2 ^ 32 = s.mp.freelistOff + i / 8 := by
    rw [inoToFreeByte_slot, Nat.mod_eq_of_lt (by omega)]
  have hlbn : dbtob (s.mp.dataLbn (32 * i)) = s.mp.dataOff + 4096 * i + 0 := hwf.dataLbn_eq i
  simp only [kvfsRemoveCalls, h, memnodeUpdateCalls_fst, memnodeUpdate_slot hwf, Fs.removeWith,
    Fs.clearedDisk]
  by_cases hupdate : calls.update.Succeed <;> by_cases hbwrite : calls.bwrite = 0 <;>
    by_cases hbread : calls.bread = 0 <;>
    simp only [hupdate, hbwrite, hbread, ne_eq, not_true_eq_false, not_false_eq_true, if_true,
      if_false, Fs.slotNode, Fs.putInode, hbyte, hlbn, inoToFreeBitMask_slot,
      dbtob_btodb_add_mod] <;>
    rfl

/-- The source is locked and gets its key once the target is removed. -/
theorem kvfsRenameCalls_new (hwf : s.mp.Wf) {name : Name} (hkey : strToKey name = some key)
    (h : s.vnodes vp = some (.file (s.slotNode i x))) (calls : RenameCalls) :
    kvfsRenameCalls s vp none name calls = some (if calls.vnLock ≠ 0 then (s, calls.vnLock) else
      (s.rekeyWith vp i { x with key := key } calls.update, 0)) := by
  have hslot := memnodeUpdate_slot (i := i) (x := { x with key := key })
    (s := s.setVnode vp (some (.file (s.slotNode i { x with key := key })))) hwf
      { x with key := key }
  simp only [kvfsRenameCalls, hkey, h]
  split
  · rfl
  · rw [memnodeUpdateCalls_fst, Fs.rekeyWith, Option.some.injEq, Prod.mk.injEq]
    refine ⟨?_, rfl⟩
    split
    · exact hslot
    · rfl

theorem kvfsRenameCalls_over (hwf : s.mp.Wf) {name : Name} (hkey : strToKey name = some key)
    {tvp j : ℕ} {y : Inode} (hj : j < s.mp.slots)
    (htvp : s.vnodes tvp = some (.file (s.slotNode j y))) (calls : RenameCalls) :
    kvfsRenameCalls s vp (some tvp) name calls =
      kvfsRenameCalls (s.removeWith tvp j calls.remove) vp none name calls := by
  have hsome : ¬s.vnodes tvp = none := by simp [htvp]
  simp only [kvfsRenameCalls, hkey, if_neg hsome, kvfsRemoveCalls_slot hwf hj htvp,
    Option.map_some]

/-! ## The slots after a remove -/

namespace Fs

theorem inodeAt_removeWith (h : s.mp.Wf) (hi : i < s.mp.slots) (hj : j < s.mp.slots)
    (calls : RemoveCalls) : (s.removeWith vp i calls).inodeAt j =
      if j = i ∧ calls.update.Succeed then .empty else s.inodeAt j := by
  have hput : s.mp.inodeAt (if calls.update.Succeed then s.mp.putInode s.disk i .empty
      else s.disk) j = if j = i ∧ calls.update.Succeed then .empty else s.inodeAt j := by
    by_cases hupdate : calls.update.Succeed
    · rw [if_pos hupdate, KvfsMount.inodeAt_putInode]
      simp only [hupdate, and_true]
      rfl
    · rw [if_neg hupdate, if_neg fun hand => hupdate hand.2]
      rfl
  change s.mp.inodeAt (s.clearedDisk i calls) j = _
  simp only [clearedDisk]
  rw [← hput]
  generalize (if calls.update.Succeed then s.mp.putInode s.disk i .empty else s.disk) = d
  have hdata : s.mp.inodeAt (if calls.bwrite ≠ 0 then d
      else s.mp.putData d i 0 (List.replicate 4096 0)) j = s.mp.inodeAt d j := by
    split
    · rfl
    · exact KvfsMount.inodeAt_putData h hj _ _
  split
  · exact hdata
  · rw [KvfsMount.inodeAt_clearBit h hi, hdata]

theorem bitAt_removeWith (h : s.mp.Wf) (hj : j / 8 < (s.mp.slots + 7) / 8) (calls : RemoveCalls) :
    (s.removeWith vp i calls).bitAt j =
      if calls.bread ≠ 0 then s.bitAt j else (!decide (j = i) && s.bitAt j) := by
  have hput : s.mp.bitAt (if calls.update.Succeed then s.mp.putInode s.disk i .empty
      else s.disk) j = s.bitAt j := by
    split
    · exact KvfsMount.bitAt_putInode h hj _
    · rfl
  change s.mp.bitAt (s.clearedDisk i calls) j = _
  simp only [clearedDisk]
  rw [← hput]
  generalize (if calls.update.Succeed then s.mp.putInode s.disk i .empty else s.disk) = d
  have hdata : s.mp.bitAt (if calls.bwrite ≠ 0 then d
      else s.mp.putData d i 0 (List.replicate 4096 0)) j = s.mp.bitAt d j := by
    split
    · rfl
    · exact KvfsMount.bitAt_putData h hj _ _
  split
  · exact hdata
  · rw [KvfsMount.bitAt_clearBit, hdata]

/-- The inode of a file is changed on the device, or not. -/
theorem inodeAt_rekeyWith (calls : UpdateCalls) : (s.rekeyWith vp i x calls).inodeAt j =
    if j = i ∧ calls.Succeed then x else s.inodeAt j := by
  unfold rekeyWith
  by_cases hupdate : calls.Succeed
  · rw [if_pos hupdate, inodeAt_updateFile]
    simp only [hupdate, and_true]
  · rw [if_neg hupdate, if_neg fun hand => hupdate hand.2]
    rfl

/-! ## Values that are not cleared -/

/-- The same file system, but for the values of the slots. -/
def SameButValues (s t : Fs) : Prop :=
  ∃ d, t = { s with disk := d } ∧ ∀ o < s.mp.dataOff, d o = s.disk o

namespace SameButValues

theorem refl (s : Fs) : s.SameButValues s := ⟨s.disk, rfl, fun _ _ => rfl⟩

theorem inodeAt (h : s.SameButValues t) (hwf : s.mp.Wf) (hj : j < s.mp.slots) :
    t.inodeAt j = s.inodeAt j := by
  obtain ⟨d, rfl, hd⟩ := h
  have htable := hwf.table
  have hget : get d (s.mp.inodeOff + 32 * j) 32 = get s.disk (s.mp.inodeOff + 32 * j) 32 :=
    get_congr fun k hk => hd _ (by omega)
  exact congrArg Inode.ofBytes hget

theorem bitAt (h : s.SameButValues t) (hwf : s.mp.Wf) (hj : j / 8 < (s.mp.slots + 7) / 8) :
    t.bitAt j = s.bitAt j := by
  obtain ⟨d, rfl, hd⟩ := h
  have hbitmap := hwf.bitmap
  have htable := hwf.table
  have hbyte : d (s.mp.freelistOff + j / 8) = s.disk (s.mp.freelistOff + j / 8) :=
    hd _ (by omega)
  simp only [Fs.bitAt, KvfsMount.bitAt, hbyte]

/-- The inode of a file is changed. -/
theorem updateFile (h : s.SameButValues t) :
    (s.updateFile vp i x).SameButValues (t.updateFile vp i x) := by
  obtain ⟨d, rfl, hd⟩ := h
  refine ⟨s.mp.putInode d i x, rfl, fun o ho => ?_⟩
  change put d (s.mp.inodeOff + 32 * i) x.bytes o = put s.disk (s.mp.inodeOff + 32 * i) x.bytes o
  simp only [put, hd o ho]

end SameButValues

/-- A remove withstands a write of the data block that fails. -/
theorem sameButValues_removeWith (h : s.mp.Wf) (hi : i < s.mp.slots) {calls : RemoveCalls}
    (hcalls : calls.Succeed) : (s.removeFile vp i).SameButValues (s.removeWith vp i calls) := by
  have hbitmap := h.bitmap
  have htable := h.table
  obtain ⟨hupdate, hbread⟩ := hcalls
  refine ⟨s.clearedDisk i calls, ?_, fun o ho => ?_⟩
  · simp only [removeWith, hbread, ne_eq, not_true_eq_false, if_false]
    rfl
  · change s.clearedDisk i calls o = s.mp.clearBit (s.mp.putData (s.mp.putInode s.disk i .empty) i 0
      (List.replicate 4096 0)) i o
    unfold clearedDisk
    simp only [hupdate, hbread, ne_eq, not_true_eq_false, if_true, if_false]
    split
    · have hdata : ∀ o < s.mp.dataOff, s.mp.putData (s.mp.putInode s.disk i .empty) i 0
          (List.replicate 4096 0) o = s.mp.putInode s.disk i .empty o := by
        intro o ho
        exact put_of_not_mem (Or.inl (by omega))
      simp only [KvfsMount.clearBit, Disk.modify]
      by_cases hbit : o = s.mp.freelistOff + i / 8
      · rw [hbit, Function.update_self, Function.update_self, hdata _ (by omega)]
      · rw [Function.update_of_ne hbit, Function.update_of_ne hbit, hdata o ho]
    · rfl

end Fs

/-! ## Runs -/

/-- What the callees of the operations return. -/
structure Outcomes where
  /-- Those of `kvfs_create`. -/
  create : CreateCalls
  /-- Those of `kvfs_remove`. -/
  remove : RemoveCalls
  /-- Those of `kvfs_rename`. -/
  rename : RenameCalls

/-- Execute a call whose callees may fail. -/
def execWith (s : Fs) (c : Call) (o : Outcomes) : Option Fs :=
  match c with
  | .create _ name ts => (kvfsCreateCalls s name ts o.create).map (·.1)
  | .remove vp => (kvfsRemoveCalls s vp o.remove).map (·.1)
  | .rename fvp _ tvp name => (kvfsRenameCalls s fvp tvp name o.rename).map (·.1)
  | c => (exec s c).map (·.1)

/-- The file system on a device of `n` blocks, with calls whose callees may fail. -/
def failingKvfs (n : ℕ) : Machine Fs (Call × Outcomes) where
  init := (kvfs n).init
  step s a t := execWith s a.1 a.2 = some t

/-- A create has no slot to take, or takes it without a failure; a remove writes the inode and
reads the bitmap; a rename does all its steps, or none of them. -/
def Withstands (s : Fs) (c : Call) (o : Outcomes) : Prop :=
  match c with
  | .create _ _ _ => s.freelist = [] ∨ o.create.Succeed
  | .remove _ => o.remove.Succeed
  | .rename _ _ tvp _ => o.rename.Succeed tvp
  | _ => True

/-- What a run may do whose calls withstand their failures. -/
def WithstandingRuns (s : Fs) (a : Call × Outcomes) : Prop :=
  Promised s a.1 ∧ Withstands s a.1 a.2

/-- A state that is the same but for values is as consistent. -/
theorem Fs.SameButValues.consistent (h : s.SameButValues t) (hs : Consistent n s) :
    Consistent n t := by
  have hinode : ∀ j < n, t.inodeAt j = s.inodeAt j := fun j hj =>
    h.inodeAt hs.wf (by rw [hs.slots]; exact hj)
  have hbit : ∀ j, j / 8 < (n + 7) / 8 → t.bitAt j = s.bitAt j := fun j hj =>
    h.bitAt hs.wf (by rw [hs.slots]; exact hj)
  obtain ⟨d, rfl, hd⟩ := h
  have hdata : 48 ≤ s.mp.dataOff := by
    have hlow : 4096 ≤ (formattedMount n).dataOff :=
      (Nat.le_add_left 4096 _).trans (Nat.le_add_left _ _)
    rw [hs.mp]
    omega
  have hsb : HasSuperblock n d := hs.superblock.congr fun o ho => hd o (by omega)
  exact ⟨hs.toAllocated.keep rfl rfl rfl hsb hbit fun j hj => Or.inl (hinode j hj),
    hs.toCached.congr rfl (fun j hj _ => hinode j hj) rfl rfl le_rfl⟩

theorem Fs.SameButValues.distinctKeys (h : s.SameButValues t) (hwf : s.mp.Wf)
    (hs : s.DistinctKeys) : t.DistinctKeys := by
  have hinode : ∀ j < s.mp.slots, t.inodeAt j = s.inodeAt j := fun j hj => h.inodeAt hwf hj
  have hslots : t.mp.slots = s.mp.slots := by
    obtain ⟨d, rfl, -⟩ := h
    rfl
  intro i hi j hj
  rw [hslots] at hi hj
  rw [hinode i hi, hinode j hj]
  exact hs i hi j hj

namespace Consistent

/-- A create of a promised name has no slot to take, or comes to `kvfs_vget_internal` with a
slot that has no vnode, if the bitmap can be read. -/
theorem createCalls (h : Consistent n s) (name : Name) (ts : Timespec) (calls : CreateCalls) :
    (s.freelist = [] ∧ kvfsCreateCalls s name ts calls = some (s, Errno.ENOSPC.toInt, none)) ∨
      ∃ i < n, ∃ freelist, s.freelist = 32 * i :: freelist ∧
        (s.takeSlot i).vfsHashGet (32 * i) = none ∧
        kvfsCreateCalls s name ts calls = if calls.bread ≠ 0 then
            some ({ s with freelist := freelist, freelistCount := s.freelistCount - 1 }, 0, none)
          else kvfsVgetInternalCalls (s.takeSlot i) (32 * i) (some (name, ts)) calls.vget := by
  cases hfree : s.freelist with
  | nil => exact Or.inl ⟨rfl, kvfsCreateCalls_full hfree name ts calls⟩
  | cons ino freelist =>
    obtain ⟨i, hi, rfl, hempty⟩ := h.first_free hfree
    have hget : (s.takeSlot i).vfsHashGet (32 * i) = none := h.vfsHashGet_free (by rw [hempty]; rfl)
    exact Or.inr ⟨i, hi, freelist, rfl, hget, kvfsCreateCalls_slot hfree name ts calls⟩

/-- A create that withstands its failures does nothing, or what it does without them. -/
theorem withstands_create (h : Consistent n s) {o : Outcomes} {dvp : ℕ} {name : Name}
    {ts : Timespec} (ho : Withstands s (.create dvp name ts) o)
    (hrun : execWith s (.create dvp name ts) o = some t) :
    t = s ∨ Kvfs.exec s (.create dvp name ts) = some (t, .vnode (kvfsCreate s name ts).2) := by
  simp only [execWith] at hrun
  rcases h.createCalls name ts o.create with ⟨-, hres⟩ | ⟨i, hi, freelist, hfree, hget, hres⟩
  · rw [hres, Option.map_some, Option.some.injEq] at hrun
    exact Or.inl hrun.symm
  · have hsucceed : o.create.Succeed := ho.resolve_left (by simp [hfree])
    by_cases hbread : o.create.vget.bread = 0
    · rw [kvfsCreateCalls_eq hsucceed hbread, Option.map_some, Option.some.injEq] at hrun
      rw [Kvfs.exec, ← hrun, returned_fst]
      exact Or.inr rfl
    · rw [hres, if_neg (not_not.mpr hsucceed.1),
        kvfsVgetInternalCalls_panic hsucceed.2 hbread hget] at hrun
      cases hrun

/-- A remove that withstands its failures does what it does without them, but for values. -/
theorem withstands_remove (h : Consistent n s) {o : Outcomes}
    (hok : Promised s (.remove vp)) (ho : o.remove.Succeed)
    (hrun : execWith s (.remove vp) o = some t) :
    ∃ t', Kvfs.exec s (.remove vp) = some (t', .status none) ∧ t'.SameButValues t := by
  have hslots := h.slots
  obtain ⟨i, hi, -, -, hfile, hres⟩ := h.remove hok
  simp only [execWith] at hrun
  rw [kvfsRemoveCalls_slot h.wf (by omega) hfile, Option.map_some, Option.some.injEq] at hrun
  refine ⟨s.removeFile vp i, by rw [Kvfs.exec, hres]; rfl, ?_⟩
  rw [← hrun]
  exact Fs.sameButValues_removeWith h.wf (by omega) ho

/-- A rename that withstands its failures does nothing, or what it does without them, but for
values. -/
theorem withstands_rename (h : Consistent n s) {o : Outcomes} {tdvp : ℕ} {tvp : Option ℕ}
    {name : Name} (hok : Promised s (.rename vp tdvp tvp name)) (ho : o.rename.Succeed tvp)
    (hrun : execWith s (.rename vp tdvp tvp name) o = some t) :
    t = s ∨ ∃ t', Kvfs.exec s (.rename vp tdvp tvp name) = some (t', .status none) ∧
      t'.SameButValues t := by
  have hslots := h.slots
  simp only [execWith] at hrun
  cases tvp with
  | none =>
    obtain ⟨key, i, hi, hkey, -, -, -, hfile, hres⟩ := h.renameNew hok
    rw [kvfsRenameCalls_new h.wf hkey hfile, Option.map_some, Option.some.injEq] at hrun
    rcases ho with ⟨hlock, hupdate, -⟩ | ⟨hlock, -⟩
    · rw [if_neg (not_not.mpr hlock)] at hrun
      simp only [Fs.rekeyWith, if_pos hupdate] at hrun
      refine Or.inr ⟨_, by rw [Kvfs.exec, hres]; rfl, ?_⟩
      rw [← hrun]
      exact .refl _
    · rw [if_pos hlock] at hrun
      exact Or.inl hrun.symm
  | some tvp =>
    obtain ⟨key, i, hi, j, hj, hkey, -, -, -, -, hfile, -, hjhash, -, hres⟩ := h.renameOver hok
    have hsucceed : o.rename.vnLock = 0 ∧ o.rename.update.Succeed ∧ o.rename.remove.Succeed := by
      rcases ho with ⟨hlock, hupdate, hremove⟩ | ⟨-, hnone⟩
      · exact ⟨hlock, hupdate, hremove (by simp)⟩
      · cases hnone
    obtain ⟨hlock, hupdate, hremove⟩ := hsucceed
    rw [kvfsRenameCalls_over h.wf hkey (by omega) (h.file_of_hash hjhash),
      kvfsRenameCalls_new (s := s.removeWith tvp j o.rename.remove) h.wf hkey hfile,
      Option.map_some, Option.some.injEq, if_neg (not_not.mpr hlock)] at hrun
    simp only [Fs.rekeyWith, if_pos hupdate] at hrun
    refine Or.inr ⟨_, by rw [Kvfs.exec, hres]; rfl, ?_⟩
    rw [← hrun]
    exact (Fs.sameButValues_removeWith h.wf (by omega) hremove).updateFile

/-- A call that withstands its failures does nothing, or what it does without them, but for
values. -/
theorem withstands (h : Consistent n s) {o : Outcomes} (hok : Promised s c)
    (ho : Withstands s c o) (hrun : execWith s c o = some t) :
    t = s ∨ ∃ t' r, Kvfs.exec s c = some (t', r) ∧ t'.SameButValues t := by
  have hplain : ∀ c, (Kvfs.exec s c).map (·.1) = some t →
      ∃ t' r, Kvfs.exec s c = some (t', r) ∧ t'.SameButValues t := by
    intro c hrun
    rw [Option.map_eq_some_iff] at hrun
    obtain ⟨⟨t', r⟩, hexec, rfl⟩ := hrun
    exact ⟨t', r, hexec, .refl t'⟩
  cases c with
  | create dvp name ts =>
    exact (h.withstands_create ho hrun).imp_right fun hexec => ⟨t, _, hexec, .refl t⟩
  | remove vp =>
    obtain ⟨t', hexec, hsame⟩ := h.withstands_remove hok ho hrun
    exact Or.inr ⟨t', _, hexec, hsame⟩
  | rename fvp tdvp tvp name =>
    rcases h.withstands_rename hok ho hrun with ht | ⟨t', hexec, hsame⟩
    · exact Or.inl ht
    · exact Or.inr ⟨t', _, hexec, hsame⟩
  | root => exact Or.inr (hplain _ hrun)
  | vget ino => exact Or.inr (hplain _ hrun)
  | lookup vdp cnp => exact Or.inr (hplain _ hrun)
  | setattr vp vaMtime => exact Or.inr (hplain _ hrun)
  | read vp offset resid fault => exact Or.inr (hplain _ hrun)
  | write vp ioAppend offset data fault kept => exact Or.inr (hplain _ hrun)
  | reclaim vp => exact Or.inr (hplain _ hrun)
  | remount => exact hok.elim

end Consistent

/-- Runs whose calls withstand their failures keep the representation invariant, and the keys
distinct. -/
theorem consistent_of_withstandingRuns (h : (failingKvfs n).Reachable WithstandingRuns s) :
    Consistent n s ∧ s.DistinctKeys := by
  refine h.invariant (I := fun s => Consistent n s ∧ s.DistinctKeys) ?_ ?_
  · exact fun s hs => ⟨Consistent.init hs, distinctKeys_of_reachable (.init hs)⟩
  · rintro s ⟨c, o⟩ t ⟨hs, hkeys⟩ ⟨hok, ho⟩ hrun
    rcases hs.withstands hok ho hrun with rfl | ⟨t', r, hexec, hsame⟩
    · exact ⟨hs, hkeys⟩
    · have ht' := hs.exec hok hexec
      have hkeys' := (hs.slotStep hkeys hok hexec).distinctKeys hs.slots ht'.slots hkeys
      exact ⟨hsame.consistent ht', hsame.distinctKeys ht'.wf hkeys'⟩

/-! ## Runs without failures -/

/-- No callee fails. -/
def noFailures : Outcomes :=
  ⟨⟨0, ⟨0, 0, 0, 0, 0, 0⟩⟩, ⟨⟨0, 0⟩, 0, 0⟩, ⟨⟨⟨0, 0⟩, 0, 0⟩, 0, ⟨0, 0⟩⟩⟩

theorem withstands_noFailures (s : Fs) (c : Call) : Withstands s c noFailures := by
  have hupdate : noFailures.rename.update.Succeed := ⟨rfl, rfl⟩
  cases c with
  | create dvp name ts => exact Or.inr ⟨rfl, ⟨rfl, rfl, rfl, rfl, rfl⟩⟩
  | remove vp => exact ⟨hupdate, rfl⟩
  | rename fvp tdvp tvp name => exact Or.inl ⟨rfl, hupdate, fun _ => ⟨hupdate, rfl⟩⟩
  | _ => trivial

theorem kvfsRemoveCalls_noFailures (s : Fs) (vp : ℕ) :
    kvfsRemoveCalls s vp noFailures.remove = (kvfsRemove s vp).map (·, 0) := by
  have hupdate : noFailures.remove.update.Succeed := ⟨rfl, rfl⟩
  have hbwrite : noFailures.remove.bwrite = 0 := rfl
  have hbread : noFailures.remove.bread = 0 := rfl
  unfold kvfsRemoveCalls kvfsRemove
  cases hnode : s.vnodes vp with
  | none => rfl
  | some node =>
    cases node with
    | root => rfl
    | file knode =>
      simp only [memnodeUpdateCalls_fst, if_pos hupdate, hbwrite, hbread, ne_eq,
        not_true_eq_false, if_false, Option.map_some]

theorem kvfsRenameCalls_noFailures (s : Fs) (fvp : ℕ) (tvp : Option ℕ) (name : Name) :
    (kvfsRenameCalls s fvp tvp name noFailures.rename).map (·.1) =
      (kvfsRename s fvp tvp name).map (·.1) := by
  have hupdate : noFailures.rename.update.Succeed := ⟨rfl, rfl⟩
  have hlock : noFailures.rename.vnLock = 0 := rfl
  have hremove : ∀ tvp, (kvfsRemoveCalls s tvp noFailures.rename.remove).map (·.1) =
      kvfsRemove s tvp := by
    intro tvp
    have hsame : noFailures.rename.remove = noFailures.remove := rfl
    rw [hsame, kvfsRemoveCalls_noFailures, Option.map_map]
    exact congrFun Option.map_id _
  cases hkey : strToKey name with
  | none =>
    simp only [kvfsRenameCalls, kvfsRename, hkey]
    rfl
  | some key =>
    -- the steps after the target is removed
    have htail : ∀ u : Fs, (kvfsRenameCalls u fvp none name noFailures.rename).map (·.1) =
        (kvfsRename u fvp none name).map (·.1) := by
      intro u
      simp only [kvfsRenameCalls, kvfsRename, hkey, hlock, ne_eq, not_true_eq_false, if_false,
        memnodeUpdateCalls_fst, if_pos hupdate]
      cases u.vnodes fvp with
      | none => simp only [Option.map_none]
      | some node => cases node <;> simp only [Option.map_none, Option.map_some]
    cases tvp with
    | none => exact htail s
    | some tvp =>
      by_cases hnode : s.vnodes tvp = none
      · have hskip := htail s
        simp only [kvfsRenameCalls, kvfsRename, hkey, if_pos hnode] at hskip ⊢
        exact hskip
      · cases hrun : kvfsRemove s tvp with
        | none => simp only [kvfsRenameCalls, kvfsRename, hkey, if_neg hnode, hremove, hrun,
            Option.map_none]
        | some u =>
          have hgo := htail u
          simp only [kvfsRenameCalls, kvfsRename, hkey, if_neg hnode, hremove, hrun] at hgo ⊢
          exact hgo

/-- Where no callee fails, the calls are those of the fault-free model. -/
theorem execWith_noFailures (s : Fs) (c : Call) :
    execWith s c noFailures = (exec s c).map (·.1) := by
  cases c with
  | create dvp name ts =>
    simp only [execWith, exec, Option.map_some]
    rw [kvfsCreateCalls_eq ⟨rfl, ⟨rfl, rfl, rfl, rfl, rfl⟩⟩ rfl, Option.map_some, returned_fst]
  | remove vp =>
    simp only [execWith, exec, kvfsRemoveCalls_noFailures, Option.map_map]
    rfl
  | rename fvp tdvp tvp name =>
    simp only [execWith, exec, kvfsRenameCalls_noFailures, Option.map_map]
    rfl
  | _ => rfl

/-- A run of promised calls is one in which no callee fails. -/
theorem withstandingRuns_of_promised (h : (kvfs n).Reachable Promised s) :
    (failingKvfs n).Reachable WithstandingRuns s := by
  induction h with
  | init h => exact .init h
  | @step s t c _ hok hst ih =>
    obtain ⟨r, hexec⟩ := hst
    refine .step (a := (c, noFailures)) ih ⟨hok, withstands_noFailures s c⟩ ?_
    change execWith s c noFailures = some t
    rw [execWith_noFailures, hexec, Option.map_some]

end EmbeddedOs.Kvfs
