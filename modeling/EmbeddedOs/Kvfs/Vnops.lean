import EmbeddedOs.Kvfs.Names

/-!
# Vnode operations of a key-value file system

The functions of `kvfs_vnops.c`, and `kvfs_vget_internal` of `kvfs_vfsops.c`, on a state
that has the disk, the free list of the mount, the vnodes with their memnodes, and the vfs
hash. Vnodes are numbered in the order in which `getnewvnode` returns them. No operation on
the device fails, and vnodes and locks can always be had.

The copy from user space may fail, and a write may leave its buffer: `none` stands for a
call that stores behind the buffer, never returns, or follows a null pointer. The vfs hash keeps
whole inode numbers, and a buffer may be as large as the table of inodes.
-/

namespace EmbeddedOs.Kvfs

open Lib.Bytes

/-- `struct kvfs_memnode`, without the pointers to the mount and the vnode. -/
structure Memnode where
  /-- `ino`. -/
  ino : ℕ
  /-- `lbn`. -/
  lbn : ℕ
  /-- `inode`. -/
  inode : Inode
  deriving DecidableEq

/-- A vnode with its `v_data`. The memnode of the root has no inode, and -1 for `ino` and
`lbn`. -/
inductive Vnode
  /-- The root directory: `VV_ROOT` and `VDIR`. -/
  | root
  /-- A file: `VREG`. -/
  | file (knode : Memnode)
  deriving DecidableEq

/-- A mounted `kvfs`. -/
structure Fs where
  /-- The layout of the mounted device. -/
  mp : KvfsMount
  /-- `freelist_head`: the inodes on the free list. -/
  freelist : List ℕ
  /-- `freelist_count`. -/
  freelistCount : UInt32
  /-- The device. -/
  disk : Disk
  /-- The vnodes that have a `v_data`. -/
  vnodes : ℕ → Option Vnode
  /-- The vfs hash: inodes and their vnodes. -/
  hash : List (ℕ × ℕ)
  /-- The vnode `getnewvnode` returns next. -/
  nextVp : ℕ

/-- The errors the modelled functions return. -/
inductive Errno
  /-- No such file, or the directory is not the root. -/
  | ENOENT
  /-- A name that is no key, or an unsupported request. -/
  | EINVAL
  /-- No free slot. -/
  | ENOSPC
  /-- The name may be created. -/
  | EJUSTRETURN
  /-- The file exists. -/
  | EEXIST
  /-- The vnode is the root directory. -/
  | EISDIR
  /-- The vnode is a directory, which cannot be unlinked. -/
  | EPERM
  /-- The copy from or to user space failed. -/
  | EFAULT
  /-- The vnode is no directory. -/
  | ENOTDIR
  deriving DecidableEq

/-- `struct timespec`. -/
structure Timespec where
  /-- `tv_sec`. -/
  tvSec : ℤ
  /-- `tv_nsec`. -/
  tvNsec : ℤ

/-- `timespec_to_uint64`. -/
def timespecToUint64 (ts : Timespec) : UInt64 := UInt64.ofInt (ts.tvSec * 1000000000 + ts.tvNsec)

/-- `KVFS_ROOT_INO`. -/
def kvfsRootIno : ℕ := 0x800000008

namespace Fs

/-- Set the `v_data` of a vnode. -/
def setVnode (s : Fs) (vp : ℕ) (node : Option Vnode) : Fs :=
  { s with vnodes := Function.update s.vnodes vp node }

/-- `vfs_hash_get`, which is taken to compare whole inode numbers; the kernel passes them to it as
`u_int`. -/
def vfsHashGet (s : Fs) (ino : ℕ) : Option ℕ := (s.hash.find? fun e => e.1 == ino).map (·.2)

/-- `vfs_hash_insert`. -/
def vfsHashInsert (s : Fs) (ino vp : ℕ) : Fs := { s with hash := (ino, vp) :: s.hash }

/-- `vfs_hash_remove`. -/
def vfsHashRemove (s : Fs) (vp : ℕ) : Fs := { s with hash := s.hash.filter fun e => e.2 != vp }

/-- The inode of slot `i` on disk. -/
def inodeAt (s : Fs) (i : ℕ) : Inode := s.mp.inodeAt s.disk i

/-- The bit of slot `i` in the bitmap on disk. -/
def bitAt (s : Fs) (i : ℕ) : Bool := s.mp.bitAt s.disk i

/-- The value of slot `i`. -/
def valueAt (s : Fs) (i : ℕ) : List UInt8 := s.mp.valueAt s.disk i

end Fs

/-- `memnode_update`. -/
def memnodeUpdate (s : Fs) (knode : Memnode) (inode : Inode) : Fs :=
  { s with disk := put s.disk (s.mp.inodeLoc knode.ino) inode.bytes }

/-- `kvfs_vget_internal`; `keystr` comes with what `vfs_timestamp` returns. -/
def kvfsVgetInternal (s : Fs) (ino : ℕ) (keystr : Option (Name × Timespec)) :
    Fs × Except Errno ℕ :=
  match s.vfsHashGet ino with
  | some vp => (s, .ok vp)
  | none =>
    let node := s.nextVp
    let s := { s with nextVp := node + 1 }
    let s := s.vfsHashInsert ino node
    if ino = kvfsRootIno then (s.setVnode node (some .root), .ok node)
    else
      let lbn := s.mp.dataLbn ino
      let inode := Inode.ofBytes (get s.disk (s.mp.inodeLoc ino) 32)
      if inode.free then
        match keystr with
        | none => (s.vfsHashRemove node, .error .ENOENT)
        | some (keystr, ts) =>
          match strToKey keystr with
          | none => (s.vfsHashRemove node, .error .EINVAL)
          | some key =>
            let inode : Inode :=
              { key := key
                flags := inode.flags &&& ~~~kvfsInodeFree ||| kvfsInodeActive
                refCount := 1
                timestamp := timespecToUint64 ts }
            let s := { s with disk := put s.disk (s.mp.inodeLoc ino) inode.bytes }
            (s.setVnode node (some (.file ⟨ino, lbn, inode⟩)), .ok node)
      else (s.setVnode node (some (.file ⟨ino, lbn, inode⟩)), .ok node)

/-- `kvfs_vget`. -/
def kvfsVget (s : Fs) (ino : ℕ) : Fs × Except Errno ℕ := kvfsVgetInternal s ino none

/-- `kvfs_root`. -/
def kvfsRoot (s : Fs) : Fs × Except Errno ℕ := kvfsVgetInternal s kvfsRootIno none

/-- `cn_nameiop`. -/
inductive Nameiop
  /-- `LOOKUP`. -/
  | LOOKUP
  /-- `CREATE`. -/
  | CREATE
  /-- `DELETE`. -/
  | DELETE
  /-- `RENAME`. -/
  | RENAME
  deriving DecidableEq

/-- `struct componentname`. -/
structure ComponentName where
  /-- `cn_nameptr`, with `cn_namelen` characters. -/
  name : Name
  /-- `cn_nameiop`. -/
  nameiop : Nameiop
  /-- `ISLASTCN` in `cn_flags`. -/
  isLastCn : Bool

/-- `kvfs_lookup`. The `bread` of the whole table is taken to work for every number of slots. -/
def kvfsLookup (s : Fs) (vdp : ℕ) (cnp : ComponentName) : Fs × Except Errno ℕ :=
  match s.vnodes vdp with
  | some .root =>
    if cnp.name.char 0 = 46 ∧ cnp.name.length = 1 then (s, .ok vdp)
    else if cnp.name.length ≠ 40 then (s, .error .EINVAL)
    else
      match strToKey cnp.name with
      | none => (s, .error .EINVAL)
      | some key =>
        let found := (List.range s.mp.slots).find? fun i =>
          let inode := Inode.ofBytes (get s.disk (s.mp.tableLoc (32 * i)) 32)
          !inode.free && inode.key == key
        match found with
        | some i => kvfsVget s (32 * i)
        | none =>
          if cnp.isLastCn ∧ (cnp.nameiop = .CREATE ∨ cnp.nameiop = .RENAME) then
            (s, .error .EJUSTRETURN)
          else (s, .error .ENOENT)
  | _ => (s, .error .ENOENT)

/-- `kvfs_create` of `name`; `ts` is what `vfs_timestamp` returns. -/
def kvfsCreate (s : Fs) (name : Name) (ts : Timespec) : Fs × Except Errno ℕ :=
  match s.freelist with
  | [] => (s, .error .ENOSPC)
  | ino :: freelist =>
    let freeByte := inoToFreeByte ino s.mp
    let mask := inoToFreeBitMask ino
    let s := { s with freelist := freelist, freelistCount := s.freelistCount - 1 }
    let s := { s with disk := s.disk.modify (dbtob (btodb freeByte) + freeByte % 512) (· ||| mask) }
    kvfsVgetInternal s ino (some (name, ts))

/-- `kvfs_setattr`; `tv_sec` is `VNOVAL` if there is no time to set. -/
def kvfsSetattr (s : Fs) (vp : ℕ) (vaMtime : Timespec) : Option Fs :=
  match s.vnodes vp with
  | none => none
  | some .root => some s
  | some (.file knode) =>
    if vaMtime.tvSec ≠ -1 then
      let knode := { knode with
        inode := { knode.inode with timestamp := timespecToUint64 vaMtime } }
      some (memnodeUpdate (s.setVnode vp (some (.file knode))) knode knode.inode)
    else some s

/-- The loop of `kvfs_read`, with `resid` bytes left: the bytes that are moved. Each
iteration starts over at the front of the buffer. -/
def kvfsReadLoop (buf : List UInt8) (amt : ℕ) : ℕ → ℕ → Option ℕ →
    Option (List UInt8 × Option Errno)
  | 0, resid, _ => if resid = 0 then some ([], none) else none
  | fuel + 1, resid, fault =>
    if resid = 0 then some ([], none)
    else
      let chunk := buf.take (min amt resid)
      match fault with
      | some n =>
        if n < chunk.length then some (chunk.take n, some .EFAULT)
        else (kvfsReadLoop buf amt fuel (resid - chunk.length) (some (n - chunk.length))).map
          fun r => (chunk ++ r.1, r.2)
      | none => (kvfsReadLoop buf amt fuel (resid - chunk.length) none).map
          fun r => (chunk ++ r.1, r.2)

/-- `kvfs_read` of `resid` bytes at `offset`; the copy fails after `fault` bytes. -/
def kvfsRead (s : Fs) (vp : ℕ) (offset : ℤ) (resid : ℕ) (fault : Option ℕ) :
    Option (List UInt8 × Option Errno) :=
  match s.vnodes vp with
  | none => none
  | some .root => some ([], some .EISDIR)
  | some (.file knode) =>
    if offset < 0 then some ([], some .EINVAL)
    else if resid = 0 ∨ 4096 ≤ offset then some ([], none)
    else
      let buf := get s.disk (dbtob knode.lbn) 4096
      kvfsReadLoop buf (min (resid % 2 ^ 32) 4096) resid resid fault

/-- The loop of `kvfs_write`, with `data` left to go to `offset`. -/
def kvfsWriteLoop (amt : ℕ) : ℕ → (ℕ → UInt8) → ℕ → List UInt8 → Option ℕ →
    Option ((ℕ → UInt8) × Option Errno)
  | 0, buf, _, data, _ => if data = [] then some (buf, none) else none
  | fuel + 1, buf, offset, data, fault =>
    if data = [] then some (buf, none)
    else
      let chunk := data.take amt
      let moved := match fault with
        | some n => chunk.take n
        | none => chunk
      if moved ≠ [] ∧ 4096 < offset + moved.length then none
      else if moved.length < chunk.length then some (put buf offset moved, some .EFAULT)
      else kvfsWriteLoop amt fuel (put buf offset moved) (offset + chunk.length)
        (data.drop chunk.length) (fault.map (· - chunk.length))

/-- `kvfs_write` of `data` at `offset`; the copy fails after `fault` bytes. `brelse` of a
buffer that was changed but not written may keep it in the cache: `kept`. -/
def kvfsWrite (s : Fs) (vp : ℕ) (ioAppend : Bool) (offset : ℕ) (data : List UInt8)
    (fault : Option ℕ) (kept : Bool) : Option (Fs × Option Errno) :=
  match s.vnodes vp with
  | none => none
  | some .root => some (s, some .EISDIR)
  | some (.file knode) =>
    if data = [] then some (s, none)
    else if ioAppend then some (s, some .EINVAL)
    else
      let loc := dbtob knode.lbn
      match kvfsWriteLoop (min (data.length % 2 ^ 32) 4096) data.length (fun o => s.disk (loc + o))
          offset data fault with
      | none => none
      | some (buf, none) => some ({ s with disk := put s.disk loc (get buf 0 4096) }, none)
      | some (buf, some e) =>
        if kept then some ({ s with disk := put s.disk loc (get buf 0 4096) }, some e)
        else some (s, some e)

/-- `kvfs_remove`. -/
def kvfsRemove (s : Fs) (vp : ℕ) : Option Fs :=
  match s.vnodes vp with
  | some (.file knode) =>
    let s := memnodeUpdate s knode .empty
    let s := { s with disk := put s.disk (dbtob knode.lbn) (List.replicate 4096 0) }
    let freeByte := inoToFreeByte knode.ino s.mp % 2 ^ 32
    let mask := inoToFreeBitMask knode.ino
    let s := { s with freelist := knode.ino :: s.freelist, freelistCount := s.freelistCount + 1 }
    let s :=
      { s with disk := s.disk.modify (dbtob (btodb freeByte) + freeByte % 512) (· &&& ~~~mask) }
    some (s.vfsHashRemove vp)
  | _ => none

/-- `kvfs_rename` of the file `fvp` to `name`, which the file `tvp` may have. With one mount
the check for `EXDEV` is void. -/
def kvfsRename (s : Fs) (fvp : ℕ) (tvp : Option ℕ) (name : Name) : Option (Fs × Option Errno) :=
  match strToKey name with
  | none => some (s, some .EINVAL)
  | some testkey =>
    let removed := match tvp with
      | some tvp => if s.vnodes tvp = none then some s else kvfsRemove s tvp
      | none => some s
    match removed with
    | none => none
    | some s =>
      match s.vnodes fvp with
      | some (.file knode) =>
        let knode := { knode with inode := { knode.inode with key := testkey } }
        some (memnodeUpdate (s.setVnode fvp (some (.file knode))) knode knode.inode, none)
      | _ => none

/-- `kvfs_reclaim`. -/
def kvfsReclaim (s : Fs) (vp : ℕ) : Fs :=
  if s.vnodes vp = none then s else (s.vfsHashRemove vp).setVnode vp none

/-- `kvfs_inactive`, where `vrecycle` comes to `kvfs_reclaim`. -/
def kvfsInactive (s : Fs) (vp : ℕ) : Fs :=
  match s.vnodes vp with
  | none => kvfsReclaim s vp
  | some .root => s
  | some (.file knode) => if knode.inode.free then kvfsReclaim s vp else s

end EmbeddedOs.Kvfs
