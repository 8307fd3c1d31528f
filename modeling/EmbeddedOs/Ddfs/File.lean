import EmbeddedOs.Ddfs.State

/-!
# Writing and truncating regular files

The functions of `ddfs_balloc.c`, `ddfs_alloc.c`, `ddfs_vnops.c` and `ddfs_inode.c` that
change a regular file with direct blocks: `ffs_balloc_ufs2`, `ffs_blkfree`, `ffs_write` and
`ffs_truncate`. Every iteration of `ffs_write` ends with its buffer on the disk. Soft updates are
off. The hash function is a parameter.
-/

namespace EmbeddedOs.Ddfs

/-- `vfs_bio_clrbuf`: zero the pages of a buffer that are not valid. -/
def vfsBioClrbuf (bp : Buf) : Buf :=
  if bp.valid then bp else { bp with data := fun _ => 0, valid := true }

/-- `fragroundup`. -/
def fragroundup (size : ℕ) : ℕ := (size + 4095) / 4096 * 4096

/-- `blksize` of logical block `lbn` in a file of `isize` bytes. -/
def blksize (isize lbn : ℕ) : ℕ :=
  if 12 ≤ lbn ∨ (lbn + 1) * 4096 ≤ isize then 4096 else fragroundup (isize % 4096)

variable {ι : Type} [DecidableEq ι]

/-- `ffs_alloc`: a free block, if the allocator finds one. -/
def ffsAlloc (s : Fs ι) (env : Env) : Except Errno (Fs ι × ℤ) :=
  match env.newb with
  | some b =>
    if s.freeMap b then .ok (s.take b, b) else .error .ENOSPC
  | none => .error .ENOSPC

/-- `ffs_balloc_ufs2` for `size` bytes, counted from its start, of a direct block.
Extending the last fragment of a file to a block never happens, as `blksize` is 0 or 4096
here. `none` stands for a call of `ffs_realloccg`, which is not modelled; see
`Placed.ffsBalloc_ne_none`. -/
def ffsBalloc (s : Fs ι) (f : ι) (lbn : Fin 12) (size : ℕ) (clrbuf : Bool) (env : Env) :
    Option (Except Errno (Fs ι × Buf)) :=
  let nb := s.ptr f lbn
  if nb ≠ 0 ∧ (lbn.val + 1) * 4096 ≤ s.size f then
    if clrbuf then some (.ok (s, s.breadGb f lbn nb))
    else some (.ok (s, vfsBioClrbuf (s.getblk f lbn nb env)))
  else if nb ≠ 0 then
    if fragroundup size ≤ fragroundup (s.size f % 4096) then
      some (.ok (s, s.breadGb f lbn nb))
    else none
  else
    match ffsAlloc s env with
    | .error e => some (.error e)
    | .ok (s', newb) =>
      let bp := s'.getblk f lbn newb env
      some (.ok (s'.setPtr f lbn newb, if clrbuf then vfsBioClrbuf bp else bp))

/-- `ffs_blkfree`: drop a reference to the block, and free it unless references are left. -/
def ffsBlkfree (s : Fs ι) (bno : ℤ) : Fs ι :=
  let r := ddtableUnref noErr s.table bno
  let s := s.setTable r.table
  if r.ret > 0 then s else s.free bno

/-! ## `ffs_write` -/

/-- Replace the bytes from `off` on. -/
def copyIn (d : Block) (off : ℕ) (bytes : List UInt8) : Block :=
  fun i => if off ≤ i.val then (bytes[i.val - off]?).getD (d i) else d i

/-- `vn_io_fault_uiomove` of a chunk of user data to `b_data + off`. -/
def vnIoFaultUiomove (bp : Buf) (off : ℕ) (chunk : List UInt8) (fault : Option ℕ) :
    Buf × Option Errno :=
  match fault with
  | some n =>
    if n < chunk.length then
      ({ bp with data := copyIn bp.data off (chunk.take n) }, some .EFAULT)
    else ({ bp with data := copyIn bp.data off chunk }, none)
  | none => ({ bp with data := copyIn bp.data off chunk }, none)

/-- The 4096 bytes that `hash_block(hash, bp->b_data + blkoffset, DDFS_BLOCKSIZE)` reads. -/
def hashedBytes (d : Block) (blkoffset : ℕ) (beyond : ℕ → UInt8) : Block :=
  fun i => if h : blkoffset + i.val < 4096 then d ⟨blkoffset + i.val, h⟩
    else beyond (blkoffset + i.val - 4096)

/-- The deduplication step of `ffs_write`: look the key up, switch the block pointer to
the block found, and give up the one it had. -/
def dedupBlock (s : Fs ι) (f : ι) (lbn : Fin 12) (hash : Key) (entry : DdfsDedup) :
    Option (Fs ι) :=
  let oldblk := s.ptr f lbn
  (ddtableAlloc noErr s.table hash oldblk entry).map fun r =>
    let s := s.setTable r.table
    if r.outBlock ≠ oldblk then ffsBlkfree (s.setPtr f lbn r.outBlock) oldblk else s

/-- The buffer an iteration writes: after a failed copy of a whole block the pages that
were not valid are cleared. -/
def finishBuf (bp : Buf) (err : Option Errno) (xfersize : ℕ) : Buf :=
  if err ≠ none ∧ bp.cached = false ∧ xfersize = 4096 then vfsBioClrbuf bp else bp

/-- The part of an iteration of `ffs_write` after `UFS_BALLOC` returned the buffer `bp`.
The result has the error and the number of bytes moved. -/
def writeBlock (sha1 : Block → Key) (s : Fs ι) (f : ι) (lbn : Fin 12) (blkoffset : ℕ)
    (chunk : List UInt8) (env : Env) (bp : Buf) : Option (Fs ι × Option Errno × ℕ) :=
  let s := s.grow f (lbn.val * 4096 + blkoffset + chunk.length)
  let chunk := chunk.take (blksize (s.size f) lbn)
  let (bp, err) := vnIoFaultUiomove bp blkoffset chunk env.fault
  let hash := sha1 (hashedBytes bp.data blkoffset env.beyond)
  (dedupBlock s f lbn hash env.entry).map fun s =>
    (s.bwrite f lbn (finishBuf bp err chunk.length), err, chunk.length)

/-- One iteration of the loop of `ffs_write`: `chunk` goes to offset `blkoffset` of
logical block `lbn`. -/
def ffsWriteIter (sha1 : Block → Key) (s : Fs ι) (f : ι) (lbn : Fin 12) (blkoffset : ℕ)
    (chunk : List UInt8) (env : Env) : Option (Fs ι × Option Errno × ℕ) :=
  match ffsBalloc s f lbn (blkoffset + chunk.length) (chunk.length < 4096) env with
  | none => none
  | some (.error e) => some (s, some e, 0)
  | some (.ok (s, bp)) => writeBlock sha1 s f lbn blkoffset chunk env bp

/-- The loop of `ffs_write`; `fuel` bounds the iterations, of which each moves a byte.
`none` if a block is not direct, or an iteration is undefined. -/
def ffsWriteLoop (sha1 : Block → Key) (f : ι) (env : ℕ → Env) :
    ℕ → Fs ι → ℕ → List UInt8 → Option (Fs ι × Option Errno)
  | 0, s, _, _ => some (s, none)
  | fuel + 1, s, offset, data =>
    if data = [] then some (s, none)
    else if h : offset / 4096 < 12 then
      let blkoffset := offset % 4096
      match ffsWriteIter sha1 s f ⟨offset / 4096, h⟩ blkoffset
          (data.take (4096 - blkoffset)) (env (offset / 4096)) with
      | none => none
      | some (s, some e, _) => some (s, some e)
      | some (s, none, moved) =>
        if moved = 0 then some (s, none)
        else ffsWriteLoop sha1 f env fuel s (offset + moved) (data.drop moved)
    else none

/-! ## `ffs_truncate` -/

/-- Give up the direct block `i` of a file. -/
def releaseDirect (f : ι) (s : Fs ι) (i : Fin 12) : Fs ι :=
  let bn := s.ptr f i
  if bn = 0 then s else ffsBlkfree (s.setPtr f i 0) bn

/-- The direct blocks from 11 down to `keep`. -/
def directDown (keep : ℕ) : List (Fin 12) :=
  (List.finRange 12).reverse.filter (fun i => keep ≤ i.val)

/-- The end of `ffs_truncate`: drop the buffers and give up the direct blocks behind the
new end, then set the size. -/
def truncTail (s : Fs ι) (f : ι) (length : ℕ) : Fs ι :=
  let keep := (length + 4095) / 4096
  ((directDown keep).foldl (releaseDirect f) (s.vtruncbuf f keep)).setSize f length

/-- Zero the bytes of a block from `off` on. -/
def zeroFrom (d : Block) (off : ℕ) : Block := fun i => if off ≤ i.val then 0 else d i

/-- `ffs_truncate` to a length below the size. The second `UFS_BALLOC` finds the block the
first one may have allocated. When the new end is a block boundary behind a hole, the
last write of the buffer has no bytes left to write. -/
def ffsShrink (s : Fs ι) (f : ι) (length : ℕ) (env : Env) : Option (Fs ι × Option Errno) :=
  let offset := length % 4096
  if h : (length - 1) / 4096 < 12 then
    let lbn : Fin 12 := ⟨(length - 1) / 4096, h⟩
    let blkno := if length = 0 then -1 else s.ptr f lbn
    if blkno ≠ 0 ∧ offset = 0 then some (truncTail s f length, none)
    else
      match ffsBalloc s f lbn ((length - 1) % 4096 + 1) true env with
      | none => none
      | some (.error e) => some (s, some e)
      | some (.ok (s, bp)) =>
        let s := s.bwrite f lbn bp
        match ffsBalloc s f lbn ((length - 1) % 4096 + 1) true env with
        | none => none
        | some (.error e) => some (s, some e)
        | some (.ok (s, bp)) =>
          let bp := if offset ≠ 0 then { bp with data := zeroFrom bp.data offset } else bp
          some (truncTail (s.bwrite f lbn bp) f length, none)
  else none

/-- `ffs_truncate` to a length above the size: the last byte gets a block. -/
def ffsExtend (s : Fs ι) (f : ι) (length : ℕ) (env : Env) : Option (Fs ι × Option Errno) :=
  if h : (length - 1) / 4096 < 12 then
    let lbn : Fin 12 := ⟨(length - 1) / 4096, h⟩
    match ffsBalloc s f lbn ((length - 1) % 4096 + 1) true env with
    | none => none
    | some (.error e) => some (s, some e)
    | some (.ok (s, bp)) => some ((s.setSize f length).bwrite f lbn bp, none)
  else none

/-- `ffs_truncate`. -/
def ffsTruncate (s : Fs ι) (f : ι) (length : ℕ) (env : Env) : Option (Fs ι × Option Errno) :=
  if s.size f = length then some (s, none)
  else if s.size f < length then ffsExtend s f length env
  else ffsShrink s f length env

/-- The bits of `a_ioflag` that matter here. -/
structure IoFlag where
  /-- `IO_APPEND`. -/
  append : Bool
  /-- `IO_UNIT`: undo a write that fails. -/
  unit : Bool

/-- `ffs_write` of `data` at `offset`. Iteration on block `lbn` uses the environment
`env lbn`, the truncation of a failed write `env 12`. -/
def ffsWrite (sha1 : Block → Key) (s : Fs ι) (f : ι) (ioflag : IoFlag) (offset : ℕ)
    (data : List UInt8) (env : ℕ → Env) : Option (Fs ι × Option Errno) :=
  let offset := if ioflag.append then s.size f else offset
  let osize := s.size f
  match ffsWriteLoop sha1 f env data.length s offset data with
  | none => none
  | some (s, none) => some (s, none)
  | some (s, some e) =>
    if ioflag.unit then (ffsTruncate s f osize (env 12)).map fun r => (r.1, some e)
    else some (s, some e)

end EmbeddedOs.Ddfs
