import EmbeddedOs.Ddfs.BlockMap

/-!
# Cylinder groups

The cylinder groups as the allocator of `ddfs_alloc.c` sees them: the maps and the counts in
the block of a group, the counts that the superblock has of all groups, and the macros of
`ddfs_fs.h` that relate a fragment of the file system to a fragment of its group.
-/

namespace EmbeddedOs.Ddfs

open Lib

/-- `struct csum`, and `struct csum_total`. -/
structure Csum where
  /-- `cs_ndir`. -/
  ndir : ℤ
  /-- `cs_nbfree`. -/
  nbfree : ℤ
  /-- `cs_nifree`. -/
  nifree : ℤ
  /-- `cs_nffree`. -/
  nffree : ℤ
  deriving DecidableEq

/-- The fields of the superblock that no allocation changes. -/
structure FsLayout where
  /-- The block and fragment sizes, with `fs_contigsumsize`. -/
  geom : Geometry
  /-- `fs_size`. -/
  size : ℕ
  /-- `fs_fpg`. -/
  fpg : ℕ
  /-- `fs_ipg`. -/
  ipg : ℕ
  /-- `fs_ncg`. -/
  ncg : ℕ
  /-- `fs_dblkno`. -/
  dblkno : ℕ
  /-- `fs_metaspace`. -/
  metaspace : ℕ
  /-- `fs_dsize`. -/
  dsize : ℕ
  /-- `fs_minfree`. -/
  minfree : ℕ
  /-- What `fs_cstotal` has more than the groups: `mkfs` computes it on its own. -/
  drift : Csum
  /-- A group is not empty. -/
  fpg_pos : 0 < fpg
  /-- A group has whole blocks. -/
  frag_dvd_fpg : geom.frag ∣ fpg
  /-- A group has inodes. -/
  ipg_pos : 0 < ipg
  /-- The inodes of a group fill their blocks. -/
  inopb_dvd_ipg : geom.inopb ∣ ipg
  /-- There is a group. -/
  ncg_pos : 0 < ncg
  /-- The groups have all of the file system. -/
  size_le : size ≤ fpg * ncg

namespace FsLayout

variable (l : FsLayout)

/-- `fs_frag`. -/
def frag : ℕ := l.geom.frag

/-- `fs_bsize`. -/
def bsize : ℕ := l.geom.bsize

/-- `fs_contigsumsize`. -/
def contigsumsize : ℕ := l.geom.contigsumsize

/-- `cgbase`. -/
def cgbase (c : ℕ) : ℕ := l.fpg * c

/-- `cgdmin`: a `ddfs` has `cgstart` at `cgbase`. -/
def cgdmin (c : ℕ) : ℕ := l.cgbase c + l.dblkno

/-- `cgmeta`. -/
def cgmeta (c : ℕ) : ℕ := l.cgdmin c

/-- `cgdata`. -/
def cgdata (c : ℕ) : ℕ := l.cgdmin c + l.metaspace

/-- `dtog`. -/
def dtog (d : ℕ) : ℕ := d / l.fpg

/-- `dtogd`. -/
def dtogd (d : ℕ) : ℕ := d % l.fpg

/-- `fragstoblks`. -/
def fragstoblks (frags : ℕ) : ℕ := frags / l.frag

/-- `blkstofrags`. -/
def blkstofrags (blks : ℕ) : ℕ := blks * l.frag

/-- `fragnum`. -/
def fragnum (fsb : ℕ) : ℕ := fsb % l.frag

/-- `blknum`. -/
def blknum (fsb : ℕ) : ℕ := fsb / l.frag * l.frag

/-- `numfrags`. -/
def numfrags (loc : ℕ) : ℕ := loc / l.geom.fsize

/-- The number of blocks of a group. -/
def blocks : ℕ := l.fpg / l.frag

theorem frag_pos : 0 < l.frag := l.geom.frag_pos

theorem frag_le : l.frag ≤ 8 := l.geom.frag_le

theorem blocks_mul : l.blocks * l.frag = l.fpg := Nat.div_mul_cancel l.frag_dvd_fpg

theorem numfrags_bsize : l.numfrags l.bsize = l.frag := by
  rw [numfrags, bsize, Geometry.bsize_eq, Nat.mul_div_cancel _ l.geom.fsize_pos]
  rfl

theorem dtogd_lt (d : ℕ) : l.dtogd d < l.fpg := Nat.mod_lt _ l.fpg_pos

theorem dtog_lt {d : ℕ} (hd : d < l.size) : l.dtog d < l.ncg :=
  Nat.div_lt_of_lt_mul (lt_of_lt_of_le hd l.size_le)

theorem dtog_cgbase {c d : ℕ} (hd : d < l.fpg) : l.dtog (l.cgbase c + d) = c := by
  rw [dtog, cgbase, Nat.mul_add_div l.fpg_pos, Nat.div_eq_of_lt hd, Nat.add_zero]

theorem dtogd_cgbase {c d : ℕ} (hd : d < l.fpg) : l.dtogd (l.cgbase c + d) = d := by
  rw [dtogd, cgbase, Nat.mul_add_mod, Nat.mod_eq_of_lt hd]

theorem cgbase_dtog (d : ℕ) : l.cgbase (l.dtog d) + l.dtogd d = d := Nat.div_add_mod d l.fpg

/-- Blocks are aligned in the file system as in their group. -/
theorem dtogd_mod (d : ℕ) : l.dtogd d % l.frag = d % l.frag :=
  Nat.mod_mod_of_dvd d l.frag_dvd_fpg

theorem cgbase_mod (c : ℕ) : l.cgbase c % l.frag = 0 :=
  Nat.mod_eq_zero_of_dvd (l.frag_dvd_fpg.mul_right c)

end FsLayout

/-- `CG_MAGIC`. -/
def cgMagic : ℕ := 0x090255

/-- `struct cg`, with its maps. -/
structure Cg where
  /-- `cg_magic`. -/
  magic : ℕ
  /-- `cg_cgx`. -/
  cgx : ℕ
  /-- `cg_ndblk`. -/
  ndblk : ℕ
  /-- `cg_cs`. -/
  cs : Csum
  /-- `cg_rotor`. -/
  rotor : ℕ
  /-- `cg_frotor`. -/
  frotor : ℕ
  /-- `cg_irotor`. -/
  irotor : ℕ
  /-- `cg_frsum`. -/
  frsum : ℕ → ℤ
  /-- `cg_nclusterblks`. -/
  nclusterblks : ℕ
  /-- `cg_niblk`. -/
  niblk : ℕ
  /-- `cg_initediblk`. -/
  initediblk : ℕ
  /-- `cg_inosused`. -/
  inosused : BitMap
  /-- `cg_blksfree`. -/
  blksfree : BitMap
  /-- `cg_clustersum`. -/
  clustersum : ℕ → ℤ
  /-- `cg_clustersfree`. -/
  clustersfree : BitMap

/-- `fs_optim`: `FS_OPTTIME` or `FS_OPTSPACE`. -/
inductive Optim where
  | time
  | space
  deriving DecidableEq

/-- What an allocation can change: the blocks of the groups, and what the superblock has of them. -/
structure Groups where
  /-- `fs_cstotal`. -/
  cstotal : Csum
  /-- `fs_cs`. -/
  cs : ℕ → Csum
  /-- `fs_maxcluster`. -/
  maxcluster : ℕ → ℕ
  /-- `fs_optim`. -/
  optim : Optim
  /-- The groups. -/
  cg : ℕ → Cg

namespace Groups

/-- The block of a group is written. -/
def setCg (s : Groups) (cgx : ℕ) (c : Cg) : Groups := { s with cg := Function.update s.cg cgx c }

/-- A change of the counts that the superblock has of one group, and in total. -/
def account (s : Groups) (cgx : ℕ) (f : Csum → Csum) : Groups :=
  { s with cstotal := f s.cstotal, cs := Function.update s.cs cgx (f (s.cs cgx)) }

variable (s : Groups) (cg : ℕ) (c : Cg) (f g : Csum → Csum)

@[simp] theorem cg_setCg_self : (s.setCg cg c).cg cg = c := Function.update_self _ _ _

theorem cg_setCg_of_ne {b : ℕ} (hb : b ≠ cg) : (s.setCg cg c).cg b = s.cg b :=
  Function.update_of_ne hb _ _

@[simp] theorem cs_setCg : (s.setCg cg c).cs = s.cs := rfl

@[simp] theorem cstotal_setCg : (s.setCg cg c).cstotal = s.cstotal := rfl

@[simp] theorem maxcluster_setCg : (s.setCg cg c).maxcluster = s.maxcluster := rfl

@[simp] theorem cg_account : (s.account cg f).cg = s.cg := rfl

@[simp] theorem maxcluster_account : (s.account cg f).maxcluster = s.maxcluster := rfl

@[simp] theorem cstotal_account : (s.account cg f).cstotal = f s.cstotal := rfl

@[simp] theorem cs_account_self : (s.account cg f).cs cg = f (s.cs cg) := Function.update_self _ _ _

theorem cs_account_of_ne {b : ℕ} (hb : b ≠ cg) : (s.account cg f).cs b = s.cs b :=
  Function.update_of_ne hb _ _

theorem account_account : (s.account cg f).account cg g = s.account cg fun x => g (f x) := by
  simp [account]

/-- The counts do not depend on `fs_maxcluster`. -/
theorem account_with_maxcluster (maxcluster : ℕ → ℕ) :
    ({ s.account cg f with maxcluster := maxcluster } : Groups) =
      ({ s with maxcluster := maxcluster } : Groups).account cg f := rfl

end Groups

/-- `ffs_getcg`: it fails if the block cannot be read or has a wrong check hash, which
`readable` tells, and if the block is not the one of the group. -/
def ffsGetcg (readable : ℕ → Bool) (s : Groups) (cg : ℕ) : Option Cg :=
  if !readable cg || (s.cg cg).magic != cgMagic || (s.cg cg).cgx != cg then none
  else some (s.cg cg)

end EmbeddedOs.Ddfs
