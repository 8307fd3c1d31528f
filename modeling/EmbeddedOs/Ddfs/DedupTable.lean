import EmbeddedOs.Lib.SlotTable
import Mathlib.Data.Int.Basic

/-!
# The deduplication table

`ddfs_util.c` keeps the table as `fs_dedupfrags / fs_frag` disk blocks of 128 packed
entries each. `ddtable_locate` searches it linearly, by key or by block number, and
remembers the first free slot it passes; `ddtable_alloc` and `ddtable_unref` are the two
callers. The model keeps the buffers apart from the table: a buffer is named by the table
block it holds, and a search reports which buffers it leaves unreleased.
-/

namespace EmbeddedOs.Ddfs

open Lib Lib.SlotTable

/-- `uint8_t key[20]`. -/
abbrev Key := Vector UInt8 20

/-- `DDFS_DEDUP_FREE`. -/
def ddfsDedupFree : UInt16 := 0x0001

/-- `DDFS_DEDUP_ACTIVE`. -/
def ddfsDedupActive : UInt16 := 0x0010

/-- `struct ddfs_dedup`. -/
structure DdfsDedup where
  /-- 160 bit key. -/
  key : Key
  /-- One of `FREE` and `ACTIVE`, as far as the callers see to it. -/
  flags : UInt16
  /-- Reference count. -/
  refCount : UInt16
  /-- Block pointer for this key-value pair. -/
  blockptr : ℤ
  deriving DecidableEq

/-- `sizeof(struct ddfs_dedup)`: the structure is packed. -/
def dedupSize : ℕ := 32

/-- `fs_bsize / sizeof(struct ddfs_dedup)`. -/
def entriesPerBlock : ℕ := 4096 / dedupSize

/-- The table on disk, block by block. -/
abbrev DedupTable := SlotTable DdfsDedup

/-- The entry a slot holds is in use: `ddtable_locate` does not skip it as free. -/
def DdfsDedup.active (entry : DdfsDedup) : Bool := entry.flags &&& ddfsDedupFree == 0

/-- The free entry `mkfs` writes and `ddtable_unref` leaves behind. -/
def freeEntry : DdfsDedup := ⟨Vector.replicate 20 0, ddfsDedupFree, 0, 0⟩

/-- The table as `mkfs` initialises it. -/
def mkfsTable (numBlocks : ℕ) : DedupTable :=
  List.replicate numBlocks (List.replicate entriesPerBlock freeEntry)

/-! ## `ddtable_locate` -/

/-- The comparison made for an entry in use: by block number if `targetblock` is not
`NULL`, else by key. -/
def targetMatches (key : Option Key) (targetblock : Option ℤ) (entry : DdfsDedup) : Bool :=
  match targetblock with
  | some blk => entry.blockptr == blk
  | none =>
    match key with
    | some k => k == entry.key
    | none => false

/-- The variables of `ddtable_locate` that record the first free slot. -/
structure FreeScan where
  /-- `freespot`, a byte offset, or -1. -/
  freespot : ℤ
  /-- `*freebp`; `none` while it is unset. -/
  freebp : Option ℕ
  /-- Whether the current table block is the one kept in `*freebp`. -/
  found : Bool

/-- What `ddtable_locate` hands back. -/
structure Located where
  /-- The return value: 0 if found, 1 if not, else the error of `bread`. -/
  error : ℤ
  /-- The table block in `*bp`, set on success. -/
  bp : Option ℕ
  /-- `*out_idx`, set on success. -/
  outIdx : Option ℤ
  /-- `*first_free`; `none` if it was never written. -/
  firstFree : Option ℤ
  /-- `*freebp`; `none` if it was never written. -/
  freebp : Option ℕ
  /-- The table blocks whose buffers were read and not released. -/
  held : List ℕ

/-- The loop over the entries of table block `i`, from entry `k` on. -/
def scanEntries (key : Option Key) (targetblock : Option ℤ) (wantFree : Bool) (i : ℕ) :
    ℕ → List DdfsDedup → FreeScan → Option ℤ × FreeScan
  | _, [], fs => (none, fs)
  | k, entry :: rest, fs =>
    let idx : ℤ := k * dedupSize
    if entry.flags &&& ddfsDedupFree ≠ 0 then
      if fs.freespot = -1 ∧ wantFree = true then
        scanEntries key targetblock wantFree i (k + 1) rest ⟨idx, some i, true⟩
      else
        scanEntries key targetblock wantFree i (k + 1) rest fs
    else if targetMatches key targetblock entry then
      (some idx, fs)
    else
      scanEntries key targetblock wantFree i (k + 1) rest fs

/-- The loop over the table blocks, from block `i` on; `breadErr i` is the result of
`bread` on block `i`. -/
def scanBlocks (breadErr : ℕ → ℤ) (key : Option Key) (targetblock : Option ℤ)
    (wantFree : Bool) : ℕ → DedupTable → FreeScan → List ℕ → Located
  | _, [], fs, held =>
    ⟨1, none, none, if wantFree then some fs.freespot else none, fs.freebp, held⟩
  | i, block :: rest, fs, held =>
    if breadErr i ≠ 0 then
      -- `*first_free` is not written on this path, and `*freebp` stays held
      ⟨breadErr i, none, none, none, fs.freebp, held⟩
    else
      match scanEntries key targetblock wantFree i 0 block { fs with found := false } with
      | (some idx, fs') =>
        ⟨0, some i, some idx, if wantFree then some fs'.freespot else none, fs'.freebp, i :: held⟩
      | (none, fs') =>
        scanBlocks breadErr key targetblock wantFree (i + 1) rest fs'
          (if fs'.found then i :: held else held)

/-- `ddtable_locate`. `wantFree` says whether the caller passed `first_free` and `freebp`:
`ddtable_alloc` passes both of them, `ddtable_unref` neither. -/
def ddtableLocate (breadErr : ℕ → ℤ) (table : DedupTable) (key : Option Key)
    (targetblock : Option ℤ) (wantFree : Bool) : Located :=
  scanBlocks breadErr key targetblock wantFree 0 table ⟨-1, none, false⟩ []

/-! ## `ddtable_alloc` and `ddtable_unref` -/

/-- The slot of the entry at byte offset `idx` of the buffer of table block `i`. -/
def slotAt (i : ℕ) (idx : ℤ) : ℕ × ℕ := (i, idx.toNat / dedupSize)

/-- Outcome of `ddtable_alloc`. -/
structure AllocResult where
  /-- The table afterwards. -/
  table : DedupTable
  /-- `*out_block`. -/
  outBlock : ℤ
  /-- The return value. -/
  ret : ℤ
  /-- The table blocks whose buffers are still held. -/
  held : List ℕ

/-- `ddtable_alloc`. `entry` is the uninitialised local of that name, of which only the
flags survive into a new entry. `none` stands for undefined behaviour: the store of the
new entry through an unset buffer pointer or at an unset or negative offset. -/
def ddtableAlloc (breadErr : ℕ → ℤ) (table : DedupTable) (key : Key) (inBlock : ℤ)
    (entry : DdfsDedup) : Option AllocResult :=
  let loc := ddtableLocate breadErr table (some key) none true
  if loc.error ≠ 0 then
    match loc.freebp, loc.firstFree with
    | some fb, some freespot =>
      if freespot < 0 then none
      else
        let new : DdfsDedup := ⟨key, entry.flags ||| ddfsDedupActive, 1, inBlock⟩
        some ⟨setSlot table (slotAt fb freespot) new, new.blockptr, 0, loc.held.erase fb⟩
    | _, _ => none
  else
    match loc.bp, loc.outIdx with
    | some b, some idx =>
      (slot table (slotAt b idx)).map fun entry =>
        ⟨setSlot table (slotAt b idx) { entry with refCount := entry.refCount + 1 },
          entry.blockptr, 0, loc.held.erase b⟩
    | _, _ => none

/-- Outcome of `ddtable_unref`. -/
structure UnrefResult where
  /-- The table afterwards. -/
  table : DedupTable
  /-- The return value. -/
  ret : ℤ
  /-- The table blocks whose buffers are still held. -/
  held : List ℕ

/-- `ddtable_unref`. -/
def ddtableUnref (breadErr : ℕ → ℤ) (table : DedupTable) (blocknum : ℤ) : UnrefResult :=
  let loc := ddtableLocate breadErr table none (some blocknum) false
  if loc.error ≠ 0 then ⟨table, -1, loc.held⟩
  else
    match loc.bp, loc.outIdx with
    | some b, some idx =>
      match slot table (slotAt b idx) with
      | some entry =>
        let entry := { entry with refCount := entry.refCount - 1 }
        let entry := if entry.refCount = 0 then freeEntry else entry
        ⟨setSlot table (slotAt b idx) entry, entry.refCount.toNat, loc.held.erase b⟩
      | none => ⟨table, -1, loc.held⟩
    | _, _ => ⟨table, -1, loc.held⟩

end EmbeddedOs.Ddfs
