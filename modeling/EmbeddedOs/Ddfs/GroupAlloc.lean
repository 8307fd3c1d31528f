import EmbeddedOs.Ddfs.GroupCounts

/-!
# Allocation in a cylinder group

`ffs_alloccg`, `ffs_alloccgblk` and `ffs_fragextend`: a block or a fragment is taken out of the
map of a group, and the counts in the block of the group and in the superblock follow. The
buffer of a group is locked while an operation has it, so that it is one with the group.
-/

namespace EmbeddedOs.Ddfs

open Lib BitRuns

/-- The assignments of `ffs_alloccg` and `ffs_fragextend` to a group for the first `n` of a
fragment of `siz`. -/
def takeFrags (cgp : Cg) (bno siz n : ℕ) : Cg :=
  let frsum := addAt cgp.frsum siz (-1)
  { cgp with
    frsum := if n ≠ siz then addAt frsum (siz - n) 1 else frsum
    blksfree := cgp.blksfree.clrRange bno n
    cs := { cgp.cs with nffree := cgp.cs.nffree - n } }

/-- The assignments of `ffs_alloccgblk` to the group and `fs_maxcluster` for a block. -/
def takeBlock (l : FsLayout) (cgp : Cg) (maxcluster : ℕ → ℕ) (blkno : ℕ) : Cg × (ℕ → ℕ) :=
  let cgp := { cgp with blksfree := ffsClrblock l.frag cgp.blksfree blkno }
  let acct := ffsClusteracct l cgp maxcluster blkno (-1)
  ({ acct.1 with cs := { acct.1.cs with nbfree := acct.1.cs.nbfree - 1 } }, acct.2)

/-- The assignments of `ffs_alloccgblk` to the group for what the caller did not want of the
block: the fragments from `size` on. -/
def freeRest (l : FsLayout) (cgp : Cg) (bno size : ℕ) : Cg :=
  { cgp with
    blksfree := cgp.blksfree.setRange (bno + size) (l.frag - size)
    cs := { cgp.cs with nffree := cgp.cs.nffree + (l.frag - size : ℕ) }
    frsum := addAt cgp.frsum (l.frag - size) 1 }

/-- The label `gotit` of `ffs_alloccgblk`. -/
def ffsAlloccgblkGotit (l : FsLayout) (s : Groups) (cg : ℕ) (cgp : Cg) (bno size : ℕ) :
    Groups × ℕ :=
  let acct := takeBlock l cgp s.maxcluster (l.fragstoblks bno)
  let s := { s with maxcluster := acct.2 }.account cgp.cgx fun cs =>
    { cs with nbfree := cs.nbfree - 1 }
  let blkno := l.cgbase cgp.cgx + bno
  let frags := l.numfrags size
  if frags ≠ l.frag then
    ((s.account cgp.cgx fun cs => { cs with nffree := cs.nffree + (l.frag - frags : ℕ) }).setCg cg
      (freeRest l acct.1 (l.dtogd blkno) frags), blkno)
  else (s.setCg cg acct.1, blkno)

/-- The block `ffs_alloccgblk` looks at first, as a fragment of the group. -/
def ffsAlloccgblkPref (l : FsLayout) (cgp : Cg) (bpref : ℕ) : ℕ :=
  if bpref = 0 then l.cgbase cgp.cgx + cgp.rotor + l.frag
  else if l.dtog bpref ≠ cgp.cgx then
    if bpref < l.cgdata (l.dtog bpref) then l.cgmeta cgp.cgx else l.cgdata cgp.cgx
  else bpref

/-- `ffs_alloccgblk`: allocate a block in a group; it is none where the code panics. -/
def ffsAlloccgblk (l : FsLayout) (s : Groups) (cg : ℕ) (bpref size : ℕ) : Option (Groups × ℕ) :=
  let cgp := s.cg cg
  let bpref := ffsAlloccgblkPref l cgp bpref
  let bno := l.dtogd (l.blknum bpref)
  if ffsIsblock l.frag cgp.blksfree (l.fragstoblks bno) then
    some (ffsAlloccgblkGotit l s cg cgp bno size)
  else
    match ffsMapsearch l cgp bpref l.frag with
    | none => none
    | some (cgp, bno) =>
      let cgp := if l.dtogd (l.cgdata cgp.cgx) ≤ bno then { cgp with rotor := bno } else cgp
      some (ffsAlloccgblkGotit l s cg cgp bno size)

/-- The loop of `ffs_alloccg` for `allocsiz`: the first size from `frags` on that is available. -/
def allocsizFrom (frsum : ℕ → ℤ) : ℕ → ℕ → ℕ
  | 0, allocsiz => allocsiz
  | n + 1, allocsiz => if frsum allocsiz ≠ 0 then allocsiz else allocsizFrom frsum n (allocsiz + 1)

/-- `ffs_alloccg`: allocate a block or a fragment in a group, 0 if there is none. The search size
is `size`, the size that is allocated `rsize`. -/
def ffsAlloccg (l : FsLayout) (readable : ℕ → Bool) (s : Groups) (cg : ℕ)
    (bpref size rsize : ℕ) : Option (Groups × ℕ) :=
  if (s.cs cg).nbfree = 0 ∧ size = l.bsize then some (s, 0)
  else
    match ffsGetcg readable s cg with
    | none => some (s, 0)
    | some cgp =>
      if cgp.cs.nbfree = 0 ∧ size = l.bsize then some (s, 0)
      else if size = l.bsize then ffsAlloccgblk l s cg bpref rsize
      else
        let frags := l.numfrags size
        let allocsiz := allocsizFrom cgp.frsum (l.frag - frags) frags
        if allocsiz = l.frag then
          -- no fragments were available, so a block will be allocated, and hacked up
          if cgp.cs.nbfree = 0 then some (s, 0) else ffsAlloccgblk l s cg bpref rsize
        else
          match ffsMapsearch l cgp bpref allocsiz with
          | none => none
          | some (cgp, bno) =>
            some ((s.account cg fun cs => { cs with nffree := cs.nffree - frags }).setCg cg
              (takeFrags cgp bno allocsiz frags), l.cgbase cg + bno)

/-- `ffs_fragextend`: extend a fragment in its place, 0 if that is not possible. -/
def ffsFragextend (l : FsLayout) (readable : ℕ → Bool) (s : Groups) (cg : ℕ)
    (bprev osize nsize : ℕ) : Groups × ℕ :=
  if (s.cs cg).nffree < l.numfrags (nsize - osize) then (s, 0)
  else
    let frags := l.numfrags nsize
    let ofrags := l.numfrags osize
    let bbase := l.fragnum bprev
    -- cannot extend across a block boundary
    if l.fragnum (bprev + frags - 1) < bbase then (s, 0)
    else
      match ffsGetcg readable s cg with
      | none => (s, 0)
      | some cgp =>
        let bno := l.dtogd bprev
        if forward cgp.blksfree.isset (frags - ofrags) (bno + ofrags) < frags - ofrags then (s, 0)
        else
          -- the end of the fragment that is extended into
          let i := frags + forward cgp.blksfree.isset (l.frag - bbase - frags) (bno + frags)
          ((s.account cg fun cs => { cs with nffree := cs.nffree - (frags - ofrags : ℕ) }).setCg cg
            (takeFrags cgp (bno + ofrags) (i - ofrags) (frags - ofrags)), bprev)

end EmbeddedOs.Ddfs
