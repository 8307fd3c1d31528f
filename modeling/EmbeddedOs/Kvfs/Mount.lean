import EmbeddedOs.Kvfs.Vnops

/-!
# Formatting and mounting

The superblock and the writes of `mkkvfs.c`, and `kvfs_mount`, `kvfs_unmount` and
`kvfs_statfs` of `kvfs_vfsops.c`. The search of `mkkvfs` for the number of blocks has a module
of its own: the superblock here is the one it makes when the search ends with an exact fit.
-/

namespace EmbeddedOs.Kvfs

open Lib.Bytes

/-- `CEIL`. -/
def ceil (a b : ℕ) : ℕ := (a + b - 1) / b

/-- `PAD`. -/
def pad (byteCount : ℕ) : ℕ := ceil byteCount 4096 * 4096

/-- `KVFS_SUPERBLOCK_MAGIC`. -/
def kvfsSuperblockMagic : UInt16 := 0x666F

/-- `struct kvfs_superblock`. Its offsets are signed, but never negative. -/
@[ext] structure Superblock where
  /-- `magicnum`. -/
  magicnum : UInt16
  /-- `superblock_size`. -/
  superblockSize : UInt16
  /-- `freelist_off`. -/
  freelistOff : UInt64
  /-- `inode_off`. -/
  inodeOff : UInt64
  /-- `data_off`. -/
  dataOff : UInt64
  /-- `block_count`. -/
  blockCount : UInt32
  /-- `flags`. -/
  flags : UInt64
  /-- `fs_size`. -/
  fsSize : UInt64

namespace Superblock

/-- The 48 bytes of a superblock. -/
def bytes (sb : Superblock) : List UInt8 :=
  toLE 2 sb.magicnum.toNat ++ (toLE 2 sb.superblockSize.toNat ++ (toLE 8 sb.freelistOff.toNat ++
    (toLE 8 sb.inodeOff.toNat ++ (toLE 8 sb.dataOff.toNat ++ (toLE 4 sb.blockCount.toNat ++
      (toLE 8 sb.flags.toNat ++ (toLE 8 sb.fsSize.toNat ++ [])))))))

/-- The superblock with these bytes. -/
def ofBytes (bs : List UInt8) : Superblock :=
  let magicnum := readLE 2 bs
  let superblockSize := readLE 2 magicnum.2
  let freelistOff := readLE 8 superblockSize.2
  let inodeOff := readLE 8 freelistOff.2
  let dataOff := readLE 8 inodeOff.2
  let blockCount := readLE 4 dataOff.2
  let flags := readLE 8 blockCount.2
  let fsSize := readLE 8 flags.2
  { magicnum := UInt16.ofNat magicnum.1
    superblockSize := UInt16.ofNat superblockSize.1
    freelistOff := UInt64.ofNat freelistOff.1
    inodeOff := UInt64.ofNat inodeOff.1
    dataOff := UInt64.ofNat dataOff.1
    blockCount := UInt32.ofNat blockCount.1
    flags := UInt64.ofNat flags.1
    fsSize := UInt64.ofNat fsSize.1 }

@[simp] theorem length_bytes (sb : Superblock) : sb.bytes.length = 48 := by
  simp [bytes]

@[simp] theorem ofBytes_bytes (sb : Superblock) : ofBytes sb.bytes = sb := by
  have h16 : ∀ (n : UInt16) bs, readLE 2 (toLE 2 n.toNat ++ bs) = (n.toNat, bs) :=
    fun n => readLE_append n.toNat_lt
  have h32 : ∀ (n : UInt32) bs, readLE 4 (toLE 4 n.toNat ++ bs) = (n.toNat, bs) :=
    fun n => readLE_append n.toNat_lt
  have h64 : ∀ (n : UInt64) bs, readLE 8 (toLE 8 n.toNat ++ bs) = (n.toNat, bs) :=
    fun n => readLE_append n.toNat_lt
  simp only [ofBytes, bytes, h16, h32, h64, UInt16.ofNat_toNat, UInt32.ofNat_toNat,
    UInt64.ofNat_toNat]

end Superblock

/-! ## `mkkvfs` -/

/-- The end of `init_superblock`, for a search that ends with an exact fit of `blocks`. -/
def initSuperblock (blocks : ℕ) : Superblock :=
  let freeBitmap := ceil blocks 8
  let sum := 4096 + blocks * 4096 + pad (blocks * 32) + pad freeBitmap
  let freelistOff := 4096
  let inodeOff := pad freeBitmap + freelistOff
  let dataOff := pad (blocks * 32) + inodeOff
  { magicnum := kvfsSuperblockMagic
    superblockSize := 48
    freelistOff := UInt64.ofNat freelistOff
    inodeOff := UInt64.ofNat inodeOff
    dataOff := UInt64.ofNat dataOff
    blockCount := UInt32.ofNat blocks
    flags := 0
    fsSize := UInt64.ofNat sum }

/-- The device that is written, and the offset of its descriptor. -/
structure Device where
  /-- The offset. -/
  pos : ℕ
  /-- The bytes. -/
  disk : Disk

/-- `writebuf` of a whole buffer. -/
def writebuf (fd : Device) (buf : List UInt8) : Device :=
  ⟨fd.pos + buf.length, put fd.disk fd.pos buf⟩

/-- A buffer of `BLOCKSIZE` zeros. -/
def zeroBuf : List UInt8 := List.replicate 4096 0

/-- A buffer of `BLOCKSIZE` bytes full of free inodes. -/
def inodeBuf : List UInt8 := (List.replicate 128 Inode.empty.bytes).flatten

/-- A superblock, padded to `BLOCKSIZE` bytes. -/
def superblockBuf (sblock : Superblock) : List UInt8 :=
  sblock.bytes ++ List.replicate (4096 - 48) 0

/-- The writes of `mkkvfs` to a device. -/
def mkkvfs (sblock : Superblock) (disk : Disk) : Disk :=
  let freelistOff := sblock.freelistOff.toNat
  let inodeOff := sblock.inodeOff.toNat
  let dataOff := sblock.dataOff.toNat
  let fd := writebuf ⟨0, disk⟩ (superblockBuf sblock)
  let fd := (List.range (ceil (inodeOff - freelistOff) 4096)).foldl
    (fun fd _ => writebuf fd zeroBuf) fd
  let fd := (List.range (ceil (dataOff - inodeOff) 32)).foldl
    (fun fd k => if (inodeOff + 32 * k) % 4096 = 0 then writebuf fd inodeBuf else fd) fd
  let fd := (List.range (ceil (sblock.fsSize.toNat - dataOff) 4096)).foldl
    (fun fd _ => writebuf fd zeroBuf) fd
  fd.disk

/-! ## `kvfs_mount` -/

/-- The loop of `kvfs_mount` over the bits `js` of byte `i` of the bitmap, from the most
significant one on. -/
def mountByte (blockCount i : ℕ) (byte : UInt8) : List ℕ → List ℕ × UInt32 → List ℕ × UInt32
  | [], fl => fl
  | j :: js, fl =>
    if byte &&& ((1 : UInt8) <<< 7) >>> UInt8.ofNat j = 0 then
      if blockCount ≤ i * 8 + j then fl
      else mountByte blockCount i byte js ((i * 8 * 32 + j * 32) :: fl.1, fl.2 + 1)
    else mountByte blockCount i byte js fl

/-- `kvfs_mount` of a device. -/
def kvfsMount (disk : Disk) : Except Errno Fs :=
  let sb := Superblock.ofBytes (get disk 0 48)
  if sb.magicnum ≠ kvfsSuperblockMagic then .error .EINVAL
  else
    let mp : KvfsMount :=
      { freelistOff := sb.freelistOff.toNat
        inodeOff := sb.inodeOff.toNat
        dataOff := sb.dataOff.toNat
        blockCount := sb.blockCount
        flags := sb.flags }
    let freelistBytes := (mp.blockCount + 7).toNat / 8
    let base := dbtob (btodb mp.freelistOff)
    let fl := (List.range freelistBytes).foldl
      (fun fl i => mountByte mp.blockCount.toNat i (disk (base + i)) (List.range 8) fl) ([], 0)
    .ok
      { mp := mp
        freelist := fl.1
        freelistCount := fl.2
        disk := disk
        vnodes := fun _ => none
        hash := []
        nextVp := 0 }

/-- `kvfs_unmount`: the vnodes are reclaimed and the free list is freed, the device stays. -/
def kvfsUnmount (s : Fs) : Disk := s.disk

/-- `struct statfs`, as far as `kvfs_statfs` sets it. -/
structure Statfs where
  /-- `f_bsize`. -/
  fBsize : ℕ
  /-- `f_iosize`. -/
  fIosize : ℕ
  /-- `f_blocks`. -/
  fBlocks : ℕ
  /-- `f_bfree`. -/
  fBfree : ℕ
  /-- `f_bavail`. -/
  fBavail : ℕ
  /-- `f_files`. -/
  fFiles : ℕ
  /-- `f_ffree`. -/
  fFfree : ℕ
  /-- `f_namemax`. -/
  fNamemax : ℕ

/-- `kvfs_statfs`; the number of files is a difference of 32-bit numbers. -/
def kvfsStatfs (s : Fs) : Statfs where
  fBsize := 4096
  fIosize := 4096
  fBlocks := s.mp.blockCount.toNat
  fBfree := s.freelistCount.toNat
  fBavail := s.freelistCount.toNat
  fFiles := (s.mp.blockCount - s.freelistCount).toNat
  fFfree := s.freelistCount.toNat
  fNamemax := 40

end EmbeddedOs.Kvfs
