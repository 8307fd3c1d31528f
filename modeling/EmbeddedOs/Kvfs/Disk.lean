import EmbeddedOs.Lib.Bytes
import Mathlib.Data.Nat.Bitwise

/-!
# The disk of a key-value file system

The structures of `kvfs.h` that are on disk, and the places where the driver reads and
writes them. The disk is what `bread` returns and `bwrite` changes: every buffer is written
through, and buffers of different sizes over the same bytes share their pages. The bytes of
slot `i` are its inode, its bit in the bitmap of slots in use, and its data block.
-/

namespace EmbeddedOs.Kvfs

open Lib.Bytes

/-- The bytes of the device. -/
abbrev Disk := ℕ → UInt8

/-- A 160-bit key. -/
abbrev Key := Vector UInt8 20

/-! ## `struct kvfs_inode` -/

/-- `struct kvfs_inode`. -/
structure Inode where
  /-- `key`. -/
  key : Key
  /-- `flags`. -/
  flags : UInt16
  /-- `ref_count`. -/
  refCount : UInt16
  /-- `timestamp`, in nanoseconds. -/
  timestamp : UInt64
  deriving DecidableEq

/-- `KVFS_INODE_ACTIVE`. -/
def kvfsInodeActive : UInt16 := 1

/-- `KVFS_INODE_FREE`. -/
def kvfsInodeFree : UInt16 := 2

namespace Inode

/-- The test for `KVFS_INODE_FREE`. -/
def free (x : Inode) : Bool := x.flags &&& kvfsInodeFree != 0

/-- An inode with only `KVFS_INODE_FREE`, as `mkkvfs` and `kvfs_remove` write it. -/
def empty : Inode := ⟨Vector.replicate 20 0, 0 ||| kvfsInodeFree, 0, 0⟩

/-- The 32 bytes of an inode. -/
def bytes (x : Inode) : List UInt8 :=
  x.key.toList ++ (toLE 2 x.flags.toNat ++ (toLE 2 x.refCount.toNat ++
    (toLE 8 x.timestamp.toNat ++ [])))

/-- The inode with these bytes. -/
def ofBytes (bs : List UInt8) : Inode :=
  let flags := readLE 2 (bs.drop 20)
  let refCount := readLE 2 flags.2
  let timestamp := readLE 8 refCount.2
  ⟨Vector.ofFn fun i => (bs[i.val]?).getD 0, UInt16.ofNat flags.1, UInt16.ofNat refCount.1,
    UInt64.ofNat timestamp.1⟩

@[simp] theorem length_bytes (x : Inode) : x.bytes.length = 32 := by
  simp [bytes]

@[simp] theorem ofBytes_bytes (x : Inode) : ofBytes x.bytes = x := by
  have hkey : x.key.toList.length = 20 := by simp
  have hdrop : x.bytes.drop 20 = toLE 2 x.flags.toNat ++ (toLE 2 x.refCount.toNat ++
      (toLE 8 x.timestamp.toNat ++ [])) := List.drop_left' hkey
  have hflags := readLE_append (w := 2) x.flags.toNat_lt
  have hrefCount := readLE_append (w := 2) x.refCount.toNat_lt
  have htimestamp := readLE_append (w := 8) x.timestamp.toNat_lt
  simp only [ofBytes, hdrop, hflags, hrefCount, htimestamp, UInt16.ofNat_toNat,
    UInt64.ofNat_toNat]
  have hfn : (Vector.ofFn fun i : Fin 20 => (x.bytes[i.val]?).getD 0) = x.key := by
    apply Vector.ext
    intro i hi
    rw [Vector.getElem_ofFn, bytes, List.getElem?_append_left (by omega)]
    simp [hi]
  rw [hfn]

@[simp] theorem free_empty : empty.free = true := rfl

end Inode

/-! ## Sectors -/

/-- `btodb`: the sector of a byte. -/
def btodb (loc : ℕ) : ℕ := loc / 512

/-- `dbtob`: the first byte of a sector. -/
def dbtob (lbn : ℕ) : ℕ := lbn * 512

/-- The byte at `loc % DEV_BSIZE` of the buffer that is read at `btodb(loc)`. -/
@[simp] theorem dbtob_btodb_add_mod (loc : ℕ) : dbtob (btodb loc) + loc % 512 = loc :=
  Nat.div_add_mod' loc 512

/-- A location at a sector boundary is the first byte of its sector. -/
theorem dbtob_btodb {loc : ℕ} (h : loc % 512 = 0) : dbtob (btodb loc) = loc := by
  simp only [dbtob, btodb]
  omega

/-! ## `struct kvfs_mount` -/

/-- The fields of `struct kvfs_mount` that come from the superblock. -/
structure KvfsMount where
  /-- `freelist_off`. -/
  freelistOff : ℕ
  /-- `inode_off`. -/
  inodeOff : ℕ
  /-- `data_off`. -/
  dataOff : ℕ
  /-- `block_count`. -/
  blockCount : UInt32
  /-- `flags`. -/
  flags : UInt64

/-- `INO_TO_BLOCKNUM`. -/
def inoToBlocknum (ino : ℕ) : ℕ := ino / 32 * 4096

/-- `INO_TO_FREE_BYTE`. -/
def inoToFreeByte (ino : ℕ) (mp : KvfsMount) : ℕ := ino / 32 / 8 + mp.freelistOff

/-- `INO_TO_FREE_BIT_MASK`, as a byte. -/
def inoToFreeBitMask (ino : ℕ) : UInt8 := 1 <<< UInt8.ofNat (ino / 32 % 8)

/-- Change one byte of the disk. -/
def Disk.modify (d : Disk) (o : ℕ) (f : UInt8 → UInt8) : Disk :=
  Function.update d o (f (d o))

namespace KvfsMount

variable (mp : KvfsMount)

/-- The number of slots. -/
def slots : ℕ := mp.blockCount.toNat

/-- The place where `memnode_update` and `kvfs_vget_internal` find an inode: at
`ino % DEV_BSIZE` in the sector of `inode_off + ino`. -/
def inodeLoc (ino : ℕ) : ℕ := dbtob (btodb (mp.inodeOff + ino)) + ino % 512

/-- The place where `kvfs_lookup` and `kvfs_readdir` find an inode: at `ino` in the buffer of
the whole table. -/
def tableLoc (ino : ℕ) : ℕ := dbtob (btodb mp.inodeOff) + ino

/-- The `lbn` of the memnode for an inode. -/
def dataLbn (ino : ℕ) : ℕ := btodb (mp.dataOff + inoToBlocknum ino)

/-- A layout in which the regions do not overlap, as `mkkvfs` makes it. From `2 ^ 31` slots on
the `int` counters of the driver's loops overflow; `kvfs.h` promises at most `2 ^ 30`. -/
structure Wf : Prop where
  /-- The number of slots. -/
  count : mp.slots < 2 ^ 31
  /-- The bitmap lies before the inodes. -/
  bitmap : mp.freelistOff + (mp.slots + 7) / 8 ≤ mp.inodeOff
  /-- The inodes lie before the data. -/
  table : mp.inodeOff + 32 * mp.slots ≤ mp.dataOff
  /-- The bitmap starts a sector. -/
  bitmapSector : mp.freelistOff % 512 = 0
  /-- The inodes start a sector. -/
  tableSector : mp.inodeOff % 512 = 0
  /-- The data starts a sector. -/
  dataSector : mp.dataOff % 512 = 0
  /-- `kvfs_remove` computes the place of a bit in 32 bits. -/
  freeByte : mp.inodeOff < 2 ^ 32

/-- The inode of slot `i`. -/
def inodeAt (d : Disk) (i : ℕ) : Inode := .ofBytes (get d (mp.inodeOff + 32 * i) 32)

/-- The bit of slot `i`: bit `i % 8` of byte `i / 8` of the bitmap. -/
def bitAt (d : Disk) (i : ℕ) : Bool := (d (mp.freelistOff + i / 8)).toNat.testBit (i % 8)

/-- The value of slot `i`: the bytes of its data block. -/
def valueAt (d : Disk) (i : ℕ) : List UInt8 := get d (mp.dataOff + 4096 * i) 4096

/-- Write an inode to its slot. -/
def putInode (d : Disk) (i : ℕ) (x : Inode) : Disk := put d (mp.inodeOff + 32 * i) x.bytes

/-- Set the bit of a slot. -/
def setBit (d : Disk) (i : ℕ) : Disk :=
  d.modify (mp.freelistOff + i / 8) (· ||| 1 <<< UInt8.ofNat (i % 8))

/-- Clear the bit of a slot. -/
def clearBit (d : Disk) (i : ℕ) : Disk :=
  d.modify (mp.freelistOff + i / 8) (· &&& ~~~(1 <<< UInt8.ofNat (i % 8)))

/-- Write bytes to the data block of a slot. -/
def putData (d : Disk) (i off : ℕ) (xs : List UInt8) : Disk :=
  put d (mp.dataOff + 4096 * i + off) xs

/-! ### What a write changes -/

/-- The bits of the mask of a slot. -/
theorem testBit_mask {j k : ℕ} (hj : j < 8) (hk : k < 8) :
    ((1 : UInt8) <<< UInt8.ofNat k).toNat.testBit j = decide (j = k) := by
  have hall : ∀ j k : Fin 8, ((1 : UInt8) <<< UInt8.ofNat k.val).toNat.testBit j.val =
      decide (j.val = k.val) := by decide
  exact hall ⟨j, hj⟩ ⟨k, hk⟩

/-- The bits of the complement of the mask of a slot. -/
theorem testBit_not_mask {j k : ℕ} (hj : j < 8) (hk : k < 8) :
    (~~~((1 : UInt8) <<< UInt8.ofNat k)).toNat.testBit j = !decide (j = k) := by
  have hall : ∀ j k : Fin 8, (~~~((1 : UInt8) <<< UInt8.ofNat k.val)).toNat.testBit j.val =
      !decide (j.val = k.val) := by decide
  exact hall ⟨j, hj⟩ ⟨k, hk⟩

variable {mp} {d : Disk} {i j : ℕ}

theorem Wf.inodeLoc_eq (h : mp.Wf) (ino : ℕ) : mp.inodeLoc ino = mp.inodeOff + ino := by
  have hsector := h.tableSector
  simp only [inodeLoc, dbtob, btodb]
  omega

theorem Wf.tableLoc_eq (h : mp.Wf) (ino : ℕ) : mp.tableLoc ino = mp.inodeOff + ino := by
  rw [tableLoc, dbtob_btodb h.tableSector]

theorem Wf.dataLbn_eq (h : mp.Wf) (i : ℕ) :
    dbtob (mp.dataLbn (32 * i)) = mp.dataOff + 4096 * i := by
  have hsector := h.dataSector
  simp only [dataLbn, dbtob, btodb, inoToBlocknum]
  omega

theorem inodeAt_putInode (x : Inode) :
    mp.inodeAt (mp.putInode d i x) j = if j = i then x else mp.inodeAt d j := by
  rw [inodeAt, putInode]
  split
  · next hj => rw [hj, get_put_self x.length_bytes, Inode.ofBytes_bytes]
  · rw [get_put_of_disjoint (by rw [Inode.length_bytes]; omega), inodeAt]

theorem bitAt_putInode (h : mp.Wf) (hj : j / 8 < (mp.slots + 7) / 8) (x : Inode) :
    mp.bitAt (mp.putInode d i x) j = mp.bitAt d j := by
  have hbitmap := h.bitmap
  rw [bitAt, putInode, put_of_not_mem (Or.inl (by omega)), bitAt]

theorem valueAt_putInode (h : mp.Wf) (hi : i < mp.slots) (x : Inode) :
    mp.valueAt (mp.putInode d i x) j = mp.valueAt d j := by
  have htable := h.table
  rw [valueAt, putInode, get_put_of_disjoint (by rw [Inode.length_bytes]; omega), valueAt]

theorem inodeAt_modify {o : ℕ} {f : UInt8 → UInt8} (ho : o < mp.inodeOff) :
    mp.inodeAt (d.modify o f) j = mp.inodeAt d j := by
  have hget : get (d.modify o f) (mp.inodeOff + 32 * j) 32 = get d (mp.inodeOff + 32 * j) 32 := by
    apply get_congr
    intro k _
    exact Function.update_of_ne (by omega) _ _
  rw [inodeAt, hget, inodeAt]

theorem valueAt_modify {o : ℕ} {f : UInt8 → UInt8} (ho : o < mp.dataOff) :
    mp.valueAt (d.modify o f) j = mp.valueAt d j := by
  apply get_congr
  intro k _
  exact Function.update_of_ne (by omega) _ _

theorem bitAt_setBit : mp.bitAt (mp.setBit d i) j = (decide (j = i) || mp.bitAt d j) := by
  simp only [bitAt, setBit, Disk.modify]
  by_cases hbyte : j / 8 = i / 8
  · rw [hbyte, Function.update_self, UInt8.toNat_or, Nat.testBit_or,
      testBit_mask (Nat.mod_lt _ (by decide)) (Nat.mod_lt _ (by decide)), Bool.or_comm]
    have hiff : j % 8 = i % 8 ↔ j = i := by omega
    simp only [hiff]
  · rw [Function.update_of_ne (by omega)]
    have hne : j ≠ i := fun hji => hbyte (by rw [hji])
    simp [hne]

theorem bitAt_clearBit : mp.bitAt (mp.clearBit d i) j = (!decide (j = i) && mp.bitAt d j) := by
  simp only [bitAt, clearBit, Disk.modify]
  by_cases hbyte : j / 8 = i / 8
  · rw [hbyte, Function.update_self, UInt8.toNat_and, Nat.testBit_and,
      testBit_not_mask (Nat.mod_lt _ (by decide)) (Nat.mod_lt _ (by decide)), Bool.and_comm]
    have hiff : j % 8 = i % 8 ↔ j = i := by omega
    simp only [hiff]
  · rw [Function.update_of_ne (by omega)]
    have hne : j ≠ i := fun hji => hbyte (by rw [hji])
    simp [hne]

theorem inodeAt_setBit (h : mp.Wf) (hi : i < mp.slots) :
    mp.inodeAt (mp.setBit d i) j = mp.inodeAt d j := by
  have hbitmap := h.bitmap
  exact inodeAt_modify (show mp.freelistOff + i / 8 < mp.inodeOff by omega)

theorem inodeAt_clearBit (h : mp.Wf) (hi : i < mp.slots) :
    mp.inodeAt (mp.clearBit d i) j = mp.inodeAt d j := by
  have hbitmap := h.bitmap
  exact inodeAt_modify (show mp.freelistOff + i / 8 < mp.inodeOff by omega)

theorem valueAt_setBit (h : mp.Wf) (hi : i < mp.slots) :
    mp.valueAt (mp.setBit d i) j = mp.valueAt d j := by
  have hbitmap := h.bitmap
  have htable := h.table
  exact valueAt_modify (show mp.freelistOff + i / 8 < mp.dataOff by omega)

theorem valueAt_clearBit (h : mp.Wf) (hi : i < mp.slots) :
    mp.valueAt (mp.clearBit d i) j = mp.valueAt d j := by
  have hbitmap := h.bitmap
  have htable := h.table
  exact valueAt_modify (show mp.freelistOff + i / 8 < mp.dataOff by omega)

theorem inodeAt_putData (h : mp.Wf) (hj : j < mp.slots) (off : ℕ) (xs : List UInt8) :
    mp.inodeAt (mp.putData d i off xs) j = mp.inodeAt d j := by
  have htable := h.table
  rw [inodeAt, putData, get_put_of_disjoint (by omega), inodeAt]

theorem bitAt_putData (h : mp.Wf) (hj : j / 8 < (mp.slots + 7) / 8) (off : ℕ) (xs : List UInt8) :
    mp.bitAt (mp.putData d i off xs) j = mp.bitAt d j := by
  have hbitmap := h.bitmap
  have htable := h.table
  rw [bitAt, putData, put_of_not_mem (Or.inl (by omega)), bitAt]

theorem valueAt_putData_of_ne {off : ℕ} {xs : List UInt8} (hji : j ≠ i)
    (hfit : off + xs.length ≤ 4096) : mp.valueAt (mp.putData d i off xs) j = mp.valueAt d j := by
  rw [valueAt, putData, get_put_of_disjoint (by omega), valueAt]

theorem valueAt_putData_self {xs : List UInt8} (hlen : xs.length = 4096) :
    mp.valueAt (mp.putData d i 0 xs) i = xs := by
  rw [valueAt, putData, Nat.add_zero, get_put_self hlen]

end KvfsMount

end EmbeddedOs.Kvfs
