import EmbeddedOs.Ddfs.DedupSearch
import Mathlib.Logic.Function.Basic
import Mathlib.Data.Fin.Basic

/-!
# The state of a mounted file system

The state of a mounted `ddfs` as far as its regular files go, and the assignments the
functions of `ddfs_balloc.c`, `ddfs_alloc.c`, `ddfs_vnops.c` and `ddfs_inode.c` make to it.
Blocks and fragments have 4096 bytes, and only the twelve direct block pointers are
modelled. A buffer is written to its `b_blkno` when the code hands it to `bwrite`, and here every
buffer is on the disk when the call returns, as with `IO_SYNC`. Buffers that wait (`bdwrite`,
`bawrite`, `cluster_write`) are those of `DelayedWrites`, and a run of this module is one in which
nothing waits.

What the code cannot determine comes in as an `Env`: the block the allocator picks, the
bytes of a buffer that was not read or cleared, the memory behind the buffer, where the
copy from user space fails, and the uninitialised local of `ddtable_alloc`.
-/

namespace EmbeddedOs.Ddfs

/-- The content of a block: `fs_bsize = fs_fsize = DDFS_BLOCKSIZE = 4096` bytes. -/
abbrev Block := Fin 4096 → UInt8

/-- The parts of an inode that decide where its bytes are. -/
structure Inode where
  /-- `i_size`. -/
  iSize : ℕ
  /-- `di_db`: `UFS_NDADDR` direct block pointers, 0 for a hole. -/
  diDb : Fin 12 → ℤ

/-- A moment at which `ffs_blkfree` passes a block on to be freed. -/
structure FreeEvent (ι : Type) where
  /-- The block. -/
  bno : ℤ
  /-- The inodes at that moment. -/
  inodes : ι → Inode
  /-- The deduplication table at that moment. -/
  table : DedupTable

/-- A mounted `ddfs`, with its regular files indexed by `ι`. -/
structure Fs (ι : Type) where
  /-- The deduplication table. -/
  table : DedupTable
  /-- The in-core inodes. -/
  inodes : ι → Inode
  /-- The free map of the cylinder groups: `true` for a free block. -/
  freeMap : ℤ → Bool
  /-- The blocks on disk. -/
  disk : ℤ → Block
  /-- The valid buffers of each vnode, by logical block. -/
  bufs : ι → Fin 12 → Option Block
  /-- History: the blocks `ffs_blkfree` passed on to be freed, latest first. -/
  freed : List (FreeEvent ι)

/-- What the environment decides in one call of `ffs_balloc` and what follows it. -/
structure Env where
  /-- The block `ffs_alloc` picks, if it finds one. -/
  newb : Option ℤ
  /-- The bytes of a buffer that is neither read nor cleared. -/
  junk : Block
  /-- The memory behind the buffer. -/
  beyond : ℕ → UInt8
  /-- The number of bytes after which the copy from user space fails. -/
  fault : Option ℕ
  /-- The uninitialised local of `ddtable_alloc`. -/
  entry : DdfsDedup

/-- The errors the modelled functions return. -/
inductive Errno
  /-- The copy from user space failed. -/
  | EFAULT
  /-- No free block. -/
  | ENOSPC
  deriving DecidableEq

/-- A buffer of a vnode. -/
structure Buf where
  /-- `b_blkno`, as a file-system block. -/
  blkno : ℤ
  /-- `b_data`. -/
  data : Block
  /-- Whether the pages behind the buffer are valid. -/
  valid : Bool
  /-- `B_CACHE`. -/
  cached : Bool

namespace Fs

variable {ι : Type}

/-- `di_db[i]` of a file. -/
def ptr (s : Fs ι) (f : ι) (i : Fin 12) : ℤ := (s.inodes f).diDb i

/-- `i_size` of a file. -/
def size (s : Fs ι) (f : ι) : ℕ := (s.inodes f).iSize

/-- Replace the deduplication table. -/
def setTable (s : Fs ι) (table : DedupTable) : Fs ι := { s with table := table }

/-- Take a block from the free map. -/
def take (s : Fs ι) (bno : ℤ) : Fs ι :=
  { s with freeMap := Function.update s.freeMap bno false }

/-- Put a block into the free map, and record the event. -/
def free (s : Fs ι) (bno : ℤ) : Fs ι :=
  { s with
    freeMap := Function.update s.freeMap bno true
    freed := ⟨bno, s.inodes, s.table⟩ :: s.freed }

section Lemmas

variable (s : Fs ι) (b : ℤ) (table : DedupTable)

@[simp] theorem ptr_setTable : (s.setTable table).ptr = s.ptr := rfl
@[simp] theorem size_setTable : (s.setTable table).size = s.size := rfl
@[simp] theorem table_setTable : (s.setTable table).table = table := rfl
@[simp] theorem freeMap_setTable : (s.setTable table).freeMap = s.freeMap := rfl
@[simp] theorem disk_setTable : (s.setTable table).disk = s.disk := rfl
@[simp] theorem bufs_setTable : (s.setTable table).bufs = s.bufs := rfl
@[simp] theorem freed_setTable : (s.setTable table).freed = s.freed := rfl

@[simp] theorem ptr_take : (s.take b).ptr = s.ptr := rfl
@[simp] theorem size_take : (s.take b).size = s.size := rfl
@[simp] theorem table_take : (s.take b).table = s.table := rfl
@[simp] theorem disk_take : (s.take b).disk = s.disk := rfl
@[simp] theorem bufs_take : (s.take b).bufs = s.bufs := rfl
@[simp] theorem freed_take : (s.take b).freed = s.freed := rfl

theorem freeMap_take (c : ℤ) : (s.take b).freeMap c = if c = b then false else s.freeMap c := by
  simp [take, Function.update_apply]

@[simp] theorem ptr_free : (s.free b).ptr = s.ptr := rfl
@[simp] theorem size_free : (s.free b).size = s.size := rfl
@[simp] theorem table_free : (s.free b).table = s.table := rfl
@[simp] theorem disk_free : (s.free b).disk = s.disk := rfl
@[simp] theorem bufs_free : (s.free b).bufs = s.bufs := rfl

theorem freeMap_free (c : ℤ) : (s.free b).freeMap c = if c = b then true else s.freeMap c := by
  simp [free, Function.update_apply]

end Lemmas

variable [DecidableEq ι]

/-- Set `di_db[i]` of a file. -/
def setPtr (s : Fs ι) (f : ι) (i : Fin 12) (b : ℤ) : Fs ι :=
  { s with
    inodes := Function.update s.inodes f
      { s.inodes f with diDb := Function.update (s.inodes f).diDb i b } }

/-- Set `i_size` of a file. -/
def setSize (s : Fs ι) (f : ι) (n : ℕ) : Fs ι :=
  { s with inodes := Function.update s.inodes f { s.inodes f with iSize := n } }

/-- Set `i_size` of a file when a write ends behind it. -/
def grow (s : Fs ι) (f : ι) (n : ℕ) : Fs ι := if s.size f < n then s.setSize f n else s

/-- `bwrite`: the buffer of logical block `i` goes to its `b_blkno` and stays cached. -/
def bwrite (s : Fs ι) (f : ι) (i : Fin 12) (bp : Buf) : Fs ι :=
  { s with
    disk := Function.update s.disk bp.blkno bp.data
    bufs := Function.update s.bufs f (Function.update (s.bufs f) i (some bp.data)) }

/-- Drop a valid buffer. -/
def dropBuf (s : Fs ι) (f : ι) (i : Fin 12) : Fs ι :=
  { s with bufs := Function.update s.bufs f (Function.update (s.bufs f) i none) }

/-- `vtruncbuf`: drop the buffers of the logical blocks from `startlbn` on. -/
def vtruncbuf (s : Fs ι) (f : ι) (startlbn : ℕ) : Fs ι :=
  { s with
    bufs := Function.update s.bufs f
      (fun i => if startlbn ≤ i.val then none else s.bufs f i) }

/-- `getblk` of a logical block, with `b_blkno` set by the caller. -/
def getblk (s : Fs ι) (f : ι) (i : Fin 12) (blkno : ℤ) (env : Env) : Buf :=
  match s.bufs f i with
  | some d => ⟨blkno, d, true, true⟩
  | none => ⟨blkno, env.junk, false, false⟩

/-- `bread` of a logical block that has the disk block `nb`. -/
def breadGb (s : Fs ι) (f : ι) (i : Fin 12) (nb : ℤ) : Buf :=
  ⟨nb, (s.bufs f i).getD (s.disk nb), true, true⟩

/-! ### What the assignments leave alone -/

section Lemmas

variable (s : Fs ι) (f g : ι) (i j : Fin 12) (b : ℤ) (n : ℕ) (bp : Buf)

@[simp] theorem ptr_setPtr_self : (s.setPtr f i b).ptr f i = b := by
  simp [ptr, setPtr]

theorem ptr_setPtr :
    (s.setPtr f i b).ptr g j = if g = f ∧ j = i then b else s.ptr g j := by
  by_cases hg : g = f
  · subst hg
    by_cases hj : j = i <;> simp [ptr, setPtr, hj]
  · simp [ptr, setPtr, hg]

@[simp] theorem size_setPtr : (s.setPtr f i b).size g = s.size g := by
  by_cases hg : g = f
  · subst hg
    simp [size, setPtr]
  · simp [size, setPtr, hg]

@[simp] theorem table_setPtr : (s.setPtr f i b).table = s.table := rfl
@[simp] theorem freeMap_setPtr : (s.setPtr f i b).freeMap = s.freeMap := rfl
@[simp] theorem disk_setPtr : (s.setPtr f i b).disk = s.disk := rfl
@[simp] theorem bufs_setPtr : (s.setPtr f i b).bufs = s.bufs := rfl
@[simp] theorem freed_setPtr : (s.setPtr f i b).freed = s.freed := rfl

@[simp] theorem ptr_setSize : (s.setSize f n).ptr g j = s.ptr g j := by
  by_cases hg : g = f
  · subst hg
    simp [ptr, setSize]
  · simp [ptr, setSize, hg]

theorem size_setSize : (s.setSize f n).size g = if g = f then n else s.size g := by
  by_cases hg : g = f
  · subst hg
    simp [size, setSize]
  · simp [size, setSize, hg]

@[simp] theorem size_setSize_self : (s.setSize f n).size f = n := by
  simp [size_setSize]

@[simp] theorem table_setSize : (s.setSize f n).table = s.table := rfl
@[simp] theorem freeMap_setSize : (s.setSize f n).freeMap = s.freeMap := rfl
@[simp] theorem disk_setSize : (s.setSize f n).disk = s.disk := rfl
@[simp] theorem bufs_setSize : (s.setSize f n).bufs = s.bufs := rfl
@[simp] theorem freed_setSize : (s.setSize f n).freed = s.freed := rfl

theorem grow_eq : s.grow f n = s ∨ s.grow f n = s.setSize f n := by
  by_cases h : s.size f < n
  · exact Or.inr (if_pos h)
  · exact Or.inl (if_neg h)

theorem size_grow : (s.grow f n).size g = if g = f then max (s.size f) n else s.size g := by
  by_cases h : s.size f < n
  · rw [grow, if_pos h, size_setSize, Nat.max_eq_right (by omega)]
  · rw [grow, if_neg h, Nat.max_eq_left (by omega)]
    split
    · next hg => rw [hg]
    · rfl

@[simp] theorem ptr_grow : (s.grow f n).ptr g j = s.ptr g j := by
  rcases s.grow_eq f n with h | h <;> simp [h]

@[simp] theorem table_grow : (s.grow f n).table = s.table := by
  rcases s.grow_eq f n with h | h <;> simp [h]

@[simp] theorem freeMap_grow : (s.grow f n).freeMap = s.freeMap := by
  rcases s.grow_eq f n with h | h <;> simp [h]

@[simp] theorem disk_grow : (s.grow f n).disk = s.disk := by
  rcases s.grow_eq f n with h | h <;> simp [h]

@[simp] theorem bufs_grow : (s.grow f n).bufs = s.bufs := by
  rcases s.grow_eq f n with h | h <;> simp [h]

@[simp] theorem freed_grow : (s.grow f n).freed = s.freed := by
  rcases s.grow_eq f n with h | h <;> simp [h]

@[simp] theorem ptr_bwrite : (s.bwrite f i bp).ptr = s.ptr := rfl
@[simp] theorem size_bwrite : (s.bwrite f i bp).size = s.size := rfl
@[simp] theorem table_bwrite : (s.bwrite f i bp).table = s.table := rfl
@[simp] theorem freeMap_bwrite : (s.bwrite f i bp).freeMap = s.freeMap := rfl
@[simp] theorem freed_bwrite : (s.bwrite f i bp).freed = s.freed := rfl

theorem disk_bwrite (b : ℤ) :
    (s.bwrite f i bp).disk b = if b = bp.blkno then bp.data else s.disk b := by
  simp [bwrite, Function.update_apply]

theorem bufs_bwrite :
    (s.bwrite f i bp).bufs g j = if g = f ∧ j = i then some bp.data else s.bufs g j := by
  by_cases hg : g = f
  · subst hg
    by_cases hj : j = i <;> simp [bwrite, hj]
  · simp [bwrite, hg]

@[simp] theorem ptr_vtruncbuf : (s.vtruncbuf f n).ptr = s.ptr := rfl
@[simp] theorem size_vtruncbuf : (s.vtruncbuf f n).size = s.size := rfl
@[simp] theorem table_vtruncbuf : (s.vtruncbuf f n).table = s.table := rfl
@[simp] theorem freeMap_vtruncbuf : (s.vtruncbuf f n).freeMap = s.freeMap := rfl
@[simp] theorem disk_vtruncbuf : (s.vtruncbuf f n).disk = s.disk := rfl
@[simp] theorem freed_vtruncbuf : (s.vtruncbuf f n).freed = s.freed := rfl

theorem bufs_vtruncbuf :
    (s.vtruncbuf f n).bufs g j = if g = f ∧ n ≤ j.val then none else s.bufs g j := by
  by_cases hg : g = f
  · subst hg
    by_cases hj : n ≤ j.val <;> simp [vtruncbuf, hj]
  · simp [vtruncbuf, hg]

@[simp] theorem ptr_dropBuf : (s.dropBuf f i).ptr = s.ptr := rfl
@[simp] theorem size_dropBuf : (s.dropBuf f i).size = s.size := rfl
@[simp] theorem table_dropBuf : (s.dropBuf f i).table = s.table := rfl
@[simp] theorem freeMap_dropBuf : (s.dropBuf f i).freeMap = s.freeMap := rfl
@[simp] theorem disk_dropBuf : (s.dropBuf f i).disk = s.disk := rfl
@[simp] theorem freed_dropBuf : (s.dropBuf f i).freed = s.freed := rfl

theorem bufs_dropBuf :
    (s.dropBuf f i).bufs g j = if g = f ∧ j = i then none else s.bufs g j := by
  by_cases hg : g = f
  · subst hg
    by_cases hj : j = i <;> simp [dropBuf, hj]
  · simp [dropBuf, hg]

/-- A buffer that was written is read back from the cache. -/
theorem breadGb_bwrite : (s.bwrite f i bp).breadGb f i b = ⟨b, bp.data, true, true⟩ := by
  simp [breadGb, bufs_bwrite]

/-- A write depends on the number and the bytes of the buffer only. -/
theorem bwrite_congr {bp' : Buf} (hblkno : bp'.blkno = bp.blkno) (hdata : bp'.data = bp.data) :
    s.bwrite f i bp' = s.bwrite f i bp := by
  simp only [bwrite, hblkno, hdata]

/-- Of two writes of a buffer the second one counts. -/
theorem bwrite_bwrite {bp' : Buf} (h : bp'.blkno = bp.blkno) :
    (s.bwrite f i bp).bwrite f i bp' = s.bwrite f i bp' := by
  simp [bwrite, h]

end Lemmas

end Fs

end EmbeddedOs.Ddfs
