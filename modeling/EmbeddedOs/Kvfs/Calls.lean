import EmbeddedOs.Kvfs.Format
import EmbeddedOs.Lib.Machine

/-!
# Calls and runs

The operations of a mounted device as calls, and what the layer above promises about them:
it looks a name up before it creates, removes or renames it, and it calls the operations on
vnodes it has been given. A run starts with the mount of a device that `mkkvfs` wrote.
-/

namespace EmbeddedOs.Kvfs

open Lib

/-- A call of an operation. -/
inductive Call
  /-- `VFS_ROOT`. -/
  | root
  /-- `VFS_VGET`. -/
  | vget (ino : ℕ)
  /-- `VOP_LOOKUP`. -/
  | lookup (vdp : ℕ) (cnp : ComponentName)
  /-- `VOP_CREATE` of a name, at the time `ts`. -/
  | create (dvp : ℕ) (name : Name) (ts : Timespec)
  /-- `VOP_REMOVE`. -/
  | remove (vp : ℕ)
  /-- `VOP_RENAME` of `fvp` to a name, which `tvp` may have. -/
  | rename (fvp tdvp : ℕ) (tvp : Option ℕ) (name : Name)
  /-- `VOP_SETATTR`. -/
  | setattr (vp : ℕ) (vaMtime : Timespec)
  /-- `VOP_READ`. -/
  | read (vp : ℕ) (offset : ℤ) (resid : ℕ) (fault : Option ℕ)
  /-- `VOP_WRITE`. -/
  | write (vp : ℕ) (ioAppend : Bool) (offset : ℕ) (data : List UInt8) (fault : Option ℕ)
    (kept : Bool)
  /-- `VOP_RECLAIM` of a vnode that has to make room. -/
  | reclaim (vp : ℕ)
  /-- `VFS_UNMOUNT`, and `VFS_MOUNT` of the same device. -/
  | remount

/-- What a call returns. -/
inductive Reply
  /-- A vnode or an error. -/
  | vnode (r : Except Errno ℕ)
  /-- Success or an error. -/
  | status (e : Option Errno)
  /-- Bytes, and whether their copy failed. -/
  | bytes (bs : List UInt8) (e : Option Errno)

/-- Execute a call. -/
def exec (s : Fs) : Call → Option (Fs × Reply)
  | .root => some ((kvfsRoot s).1, .vnode (kvfsRoot s).2)
  | .vget ino => some ((kvfsVget s ino).1, .vnode (kvfsVget s ino).2)
  | .lookup vdp cnp => some ((kvfsLookup s vdp cnp).1, .vnode (kvfsLookup s vdp cnp).2)
  | .create _ name ts => some ((kvfsCreate s name ts).1, .vnode (kvfsCreate s name ts).2)
  | .remove vp => (kvfsRemove s vp).map fun t => (t, .status none)
  | .rename fvp _ tvp name => (kvfsRename s fvp tvp name).map fun r => (r.1, .status r.2)
  | .setattr vp vaMtime => (kvfsSetattr s vp vaMtime).map fun t => (t, .status none)
  | .read vp offset resid fault =>
    (kvfsRead s vp offset resid fault).map fun r => (s, .bytes r.1 r.2)
  | .write vp ioAppend offset data fault kept =>
    (kvfsWrite s vp ioAppend offset data fault kept).map fun r => (r.1, .status r.2)
  | .reclaim vp => some (kvfsReclaim s vp, .status none)
  | .remount =>
    match kvfsMount (kvfsUnmount s) with
    | .ok t => some (t, .status none)
    | .error _ => none

/-- The vnode of a file that is present: it has a memnode, and the vfs hash has it. -/
def Fs.Live (s : Fs) (vp : ℕ) : Prop :=
  ∃ knode, s.vnodes vp = some (.file knode) ∧ (knode.ino, vp) ∈ s.hash

/-- What the callers promise about a call: directories are directories, files are present,
names that are created or renamed to have been looked up, and so have the files they replace,
which are others than the one that is renamed. -/
def Promised (s : Fs) : Call → Prop
  | .root => True
  | .vget ino => ∃ i < s.mp.slots, ino = 32 * i
  | .lookup vdp _ => s.vnodes vdp = some .root
  | .create dvp name _ =>
    s.vnodes dvp = some .root ∧ (kvfsLookup s dvp ⟨name, .CREATE, true⟩).2 = .error .EJUSTRETURN
  | .remove vp => s.Live vp
  | .rename fvp tdvp tvp name =>
    s.Live fvp ∧ s.vnodes tdvp = some .root ∧
      match tvp with
      | none => (kvfsLookup s tdvp ⟨name, .RENAME, true⟩).2 = .error .EJUSTRETURN
      | some tvp =>
        (kvfsLookup s tdvp ⟨name, .RENAME, true⟩).2 = .ok tvp ∧ s.Live tvp ∧ tvp ≠ fvp
  | .setattr vp _ => s.vnodes vp = some .root ∨ s.Live vp
  | .read vp _ _ _ => s.vnodes vp = some .root ∨ s.Live vp
  | .write vp _ _ _ _ _ => s.vnodes vp = some .root ∨ s.Live vp
  | .reclaim vp => ∃ ino, (ino, vp) ∈ s.hash
  | .remount => False

/-- The file system on a device of `n` blocks, from the first mount after `mkkvfs` on. -/
def kvfs (n : ℕ) : Machine Fs Call where
  init s := n < 2 ^ 31 ∧ ∃ disk, kvfsMount (mkkvfs (initSuperblock n) disk) = .ok s
  step s call t := ∃ r, exec s call = some (t, r)

/-- The first mount finds a formatted device. -/
theorem kvfs_init {n : ℕ} {s : Fs} (h : (kvfs n).init s) :
    n < 2 ^ 31 ∧ ∃ d, Formatted n d ∧ s = mountState n d := by
  obtain ⟨hn, disk, hmount⟩ := h
  have hformat := formatted_mkkvfs (hn.trans (by decide)) disk
  rw [kvfsMount_eq hn.le hformat.superblock, Except.ok.injEq] at hmount
  exact ⟨hn, _, hformat, hmount.symm⟩

end EmbeddedOs.Kvfs
