import EmbeddedOs.Ddfs.InitLayout

/-!
# The first directories

`fsinit` of `mkfs.c` makes the root directory, and `.snap` unless `-n` is given: a fragment of the
first group and an inode for each. `alloc` takes a block out of the maps of the group and its
counts, like `ffs_alloccgblk` of the kernel, but it does not count the clusters again. So the
summary of the first group is exact only if its free blocks are one cluster that is long enough.
-/

namespace EmbeddedOs.Ddfs

open Lib BitRuns BitMap

/-- The loop of `alloc`: the first free block of a group. -/
def firstBlock (frag : ℕ) (blksfree : BitMap) (ndblk : ℕ) : ℕ → ℕ → Option ℕ
  | 0, _ => none
  | fuel + 1, d =>
    if d < ndblk then
      if ffsIsblock frag blksfree (d / frag) then some d
      else firstBlock frag blksfree ndblk fuel (d + frag)
    else none

/-- The assignments of `alloc` to the counts. -/
def blockTaken (dir : Bool) (cs : Csum) : Csum :=
  { cs with nbfree := cs.nbfree - 1, ndir := if dir then cs.ndir + 1 else cs.ndir }

/-- The assignments of `alloc` to the group. -/
def takeFirst (l : FsLayout) (acg : Cg) (blkno : ℕ) (dir : Bool) : Cg :=
  { acg with
    blksfree := ffsClrblock l.frag acg.blksfree blkno
    clustersfree :=
      if 0 < l.contigsumsize then acg.clustersfree.clrbit blkno else acg.clustersfree
    cs := blockTaken dir acg.cs }

/-- `alloc` of `mkfs.c`: allocate a block or a part of one; it is none where the code exits. -/
def mkfsAlloc (l : FsLayout) (s : Groups) (size : ℕ) (dir : Bool) : Option (Groups × ℕ) :=
  let acg := s.cg 0
  -- `cg 0: bad magic number`, and `first cylinder group ran out of space`
  if acg.magic ≠ cgMagic ∨ acg.cs.nbfree = 0 then none
  else
    match firstBlock l.frag acg.blksfree acg.ndblk acg.ndblk 0 with
    -- `internal error: can't find block in cyl 0`
    | none => none
    | some d =>
      let acg := takeFirst l acg (l.fragstoblks d) dir
      let s := s.account 0 (blockTaken dir)
      if size ≠ l.bsize then
        let frag := howmany size l.geom.fsize
        some ((s.account 0 fun cs => { cs with nffree := cs.nffree + (l.frag - frag : ℕ) }).setCg 0
          (freeRest l acg d frag), d)
      else some (s.setCg 0 acg, d)

/-- The assignments of `iput` to the group. -/
def putInode (acg : Cg) (ino : ℕ) : Cg :=
  { acg with
    inosused := acg.inosused.setbit ino
    cs := inodeTaken false acg.cs }

/-- `iput`, as far as the group goes. -/
def iput (s : Groups) (ino : ℕ) : Option Groups :=
  let acg := s.cg 0
  -- `cg 0: bad magic number`
  if acg.magic ≠ cgMagic then none
  else
    some ((s.account 0 (inodeTaken false)).setCg 0 (putInode acg ino))

/-- A directory of `fsinit`: the state behind it, and its block. -/
def initDir (l : FsLayout) (s : Groups) (ino : ℕ) : Option (Groups × ℕ) :=
  match mkfsAlloc l s l.geom.fsize true with
  | none => none
  | some (s, d) => (iput s ino).map fun s => (s, d)

/-- `fsinit`, as far as the groups go: the state behind it, and the blocks of the directories. -/
def fsinit (l : FsLayout) (nflag : Bool) (s : Groups) : Option (Groups × List ℕ) :=
  match initDir l s ufsRootino with
  | none => none
  | some (s, root) =>
    if nflag then some (s, [root])
    else
      match initDir l s (ufsRootino + 1) with
      | none => none
      | some (s, snap) => some (s, [root, snap])

/-- The groups with another summary of the clusters of the first one. -/
def Groups.withSum (s : Groups) (sum : ℕ → ℤ) : Groups :=
  s.setCg 0 { s.cg 0 with clustersum := sum }

section Search

variable {frag ndblk fuel d d' : ℕ} {m : BitMap}

/-- The loop finds the first free block. -/
theorem firstBlock_some (h : firstBlock frag m ndblk fuel d = some d') :
    ∃ k, d' = d + k * frag ∧ d' < ndblk ∧ ffsIsblock frag m (d' / frag) = true ∧
      ∀ j, j < k → ffsIsblock frag m ((d + j * frag) / frag) = false := by
  induction fuel generalizing d with
  | zero => cases h
  | succ fuel ih =>
    rw [firstBlock] at h
    split at h
    · split at h
      · rename_i hlt hb
        obtain rfl := Option.some.inj h
        exact ⟨0, by omega, hlt, hb, fun j hj => absurd hj (Nat.not_lt_zero j)⟩
      · rename_i hb
        obtain ⟨k, heq, hlt, hblock, hfirst⟩ := ih h
        refine ⟨k + 1, by rw [heq, Nat.succ_mul]; omega, hlt, hblock, fun j hj => ?_⟩
        cases j with
        | zero => simpa using hb
        | succ j =>
          have hj' := hfirst j (by omega)
          have heq' : d + (j + 1) * frag = d + frag + j * frag := by
            rw [Nat.succ_mul]
            omega
          rwa [heq']
    · cases h

/-- The loop fails only if there is no free block. -/
theorem firstBlock_none (hfrag : 0 < frag) (h : firstBlock frag m ndblk fuel d = none)
    (hfuel : ndblk ≤ d + fuel) {k : ℕ} (hk : d + k * frag < ndblk) :
    ffsIsblock frag m ((d + k * frag) / frag) = false := by
  induction fuel generalizing d k with
  | zero => omega
  | succ fuel ih =>
    rw [firstBlock] at h
    split at h
    · split at h
      · cases h
      · rename_i hb
        cases k with
        | zero => simpa using hb
        | succ k =>
          have heq : d + (k + 1) * frag = d + frag + k * frag := by
            rw [Nat.succ_mul]
            omega
          rw [heq] at hk ⊢
          exact ih h (by omega) hk
    · omega

end Search

/-- What holds between the steps of `fsinit`: all is sound, if the summary of the first group were
`sum`. -/
structure SoundBut (l : FsLayout) (s : Groups) (sum : ℕ → ℤ) : Prop where
  good : Good l (s.withSum sum)
  inodes : InodesGood l s
  /-- The groups are not mounted yet. -/
  maxcluster : s.maxcluster 0 = l.contigsumsize

/-- `alloc` takes the first `n` fragments of the first free block of the first group. -/
structure TakesFirst (l : FsLayout) (s s' : Groups) (d n : ℕ) : Prop where
  /-- It is a block of the group. -/
  lt : d < l.fpg
  mod : d % l.frag = 0
  /-- It was free. -/
  block : ffsIsblock l.frag (s.cg 0).blksfree (d / l.frag) = true
  /-- No block in front of it was. -/
  first : ∀ b, b < d / l.frag → ffsIsblock l.frag (s.cg 0).blksfree b = false
  /-- It is all that is not free any more. -/
  map : ∀ i, (s'.cg 0).blksfree.isset i =
    (!decide (d ≤ i ∧ i < d + n) && (s.cg 0).blksfree.isset i)
  other : ∀ b, b ≠ 0 → s'.cg b = s.cg b
  /-- One free block less is counted. -/
  nbfree : (s'.cg 0).cs.nbfree = (s.cg 0).cs.nbfree - 1
  /-- The clusters are not counted again. -/
  clustersum : (s'.cg 0).clustersum = (s.cg 0).clustersum
  inosused : (s'.cg 0).inosused = (s.cg 0).inosused
  initediblk : (s'.cg 0).initediblk = (s.cg 0).initediblk

section Alloc

variable {l : FsLayout} {s s' : Groups} {c : Cg} {sum : ℕ → ℤ} {d h n : ℕ} {dir : Bool}

theorem shift_blockTaken (dir : Bool) : Shift (blockTaken dir) := by
  have hdir : ∃ e : ℤ, blockTaken dir = fun cs =>
      { cs with nbfree := cs.nbfree - 1, ndir := cs.ndir + e } := by
    cases dir with
    | true => exact ⟨1, rfl⟩
    | false => exact ⟨0, funext fun cs => by simp [blockTaken]⟩
  obtain ⟨e, heq⟩ := hdir
  rw [heq]
  intro φ hφ
  simp only [csumFields, List.mem_cons, List.not_mem_nil, or_false] at hφ
  rcases hφ with rfl | rfl | rfl | rfl
  · exact ⟨e, fun _ => rfl⟩
  · exact ⟨-1, fun _ => rfl⟩
  · exact ⟨0, fun x => (Int.add_zero _).symm⟩
  · exact ⟨0, fun x => (Int.add_zero _).symm⟩

/-- `alloc` does to a group what `ffs_alloccgblk` does, but for the summary of the clusters. -/
theorem takeFirst_eq (dir : Bool) (mc : ℕ → ℕ) : ∃ sum',
    { takeFirst l c h dir with clustersum := sum' } = { (takeBlock l c mc h).1 with
      cs := { (takeBlock l c mc h).1.cs with ndir := (blockTaken dir c.cs).ndir } } := by
  obtain ⟨sum', free, heq⟩ := takeBlock_frame (l := l) (c := c) (h := h) mc
  have hfree : (takeBlock l c mc h).1.clustersfree =
      if 0 < l.contigsumsize then c.clustersfree.clrbit h else c.clustersfree := by
    rcases Nat.eq_zero_or_pos l.contigsumsize with hz | hpos
    · rw [if_neg (by omega), takeBlock, ffsClusteracct, if_pos hz]
    · rw [if_pos hpos]
      exact clustersfree_ffsClusteracct l { c with blksfree := ffsClrblock l.frag c.blksfree h } mc
        h (-1) hpos.ne'
  rw [heq] at hfree
  refine ⟨sum', ?_⟩
  rw [heq]
  simp only [takeFirst, blockTaken] at hfree ⊢
  rw [hfree]

/-- A write of the first group does not depend on the summary before it. -/
theorem withSum_write (s : Groups) (f : Csum → Csum) (a : Cg) (sum sum' : ℕ → ℤ) :
    ((s.account 0 f).setCg 0 a).withSum sum' =
      ((s.withSum sum).account 0 f).setCg 0 { a with clustersum := sum' } := by
  simp [Groups.withSum, Groups.setCg, Groups.account]

@[simp] theorem cg_withSum_self : (s.withSum sum).cg 0 = { s.cg 0 with clustersum := sum } :=
  Groups.cg_setCg_self _ _ _

/-- A write of the first group keeps it sound, if the group is sound with another summary. -/
theorem SoundBut.write (hs : SoundBut l s sum) {f : Csum → Csum} (hf : Shift f) {a : Cg}
    {sum' : ℕ → ℤ} (hok : GroupOk l 0 { a with clustersum := sum' }) (hcs : a.cs = f (s.cg 0).cs)
    (hsub : ∀ i, a.blksfree.isset i = true → (s.cg 0).blksfree.isset i = true)
    (hinodes : InodesOk l a) (hused : a.inosused.isset 0 = true) :
    SoundBut l ((s.account 0 f).setCg 0 a) sum' := by
  refine ⟨?_, hs.inodes.write hinodes f fun _ => hused, hs.maxcluster⟩
  rw [withSum_write s f a sum sum']
  refine hs.good.write s.maxcluster l.ncg_pos hf hok ?_ (fun _ _ => rfl) ?_ ?_
  · rw [cg_withSum_self]
    exact hcs
  · rw [hs.maxcluster]
    exact ⟨Nat.le_refl _, fun _ _ hi _ => hi⟩
  · refine hs.good.zero_of_subset fun i hi => ?_
    rw [cg_withSum_self]
    exact hsub i hi

/-- A write of the first group that takes the first fragments of its first free block. -/
theorem takesFirst_of_write (f : Csum → Csum) {a : Cg} (hlt : d < l.fpg) (hmod : d % l.frag = 0)
    (hset : ffsIsblock l.frag (s.cg 0).blksfree (d / l.frag) = true)
    (hfirst : ∀ b, b < d / l.frag → ffsIsblock l.frag (s.cg 0).blksfree b = false)
    (hmap : ∀ i, a.blksfree.isset i =
      (!decide (d ≤ i ∧ i < d + n) && (s.cg 0).blksfree.isset i))
    (hnb : a.cs.nbfree = (s.cg 0).cs.nbfree - 1) (hsum : a.clustersum = (s.cg 0).clustersum)
    (hused : a.inosused = (s.cg 0).inosused) (hinit : a.initediblk = (s.cg 0).initediblk) :
    TakesFirst l s ((s.account 0 f).setCg 0 a) d n := by
  have hself := Groups.cg_setCg_self (s.account 0 f) 0 a
  refine ⟨hlt, hmod, hset, hfirst, fun i => ?_, fun b hb => Groups.cg_setCg_of_ne _ _ _ hb,
    ?_, ?_, ?_, ?_⟩
  all_goals rw [hself]
  · exact hmap i
  · exact hnb
  · exact hsum
  · exact hused
  · exact hinit

/-- `alloc` finds a block if the counts have one, and takes it. -/
theorem SoundBut.alloc (hs : SoundBut l s sum) (hn : 1 ≤ n) (hnf : n ≤ l.frag) (dir : Bool)
    (hne : (s.cg 0).cs.nbfree ≠ 0) :
    ∃ s' d sum', mkfsAlloc l s (n * l.geom.fsize) dir = some (s', d) ∧ SoundBut l s' sum' ∧
      TakesFirst l s s' d n := by
  have hpos := l.frag_pos
  have hok := hs.good.group 0 l.ncg_pos
  rw [cg_withSum_self] at hok
  have hinodes := hs.inodes.group 0 l.ncg_pos
  have hzero : (s.cg 0).inosused.isset 0 = true := by
    have hused := hs.inodes.zero
    rwa [Groups.inodeUsed, Nat.zero_div, Nat.zero_mod] at hused
  -- the search
  obtain ⟨b, hb, hblock⟩ := hok.counts.exists_block hne
  have hend := hok.block_lt hb hblock
  cases hfind : firstBlock l.frag (s.cg 0).blksfree (s.cg 0).ndblk (s.cg 0).ndblk 0 with
  | none =>
    have hlt : 0 + b * l.frag < (s.cg 0).ndblk := by
      have hend' : (b + 1) * l.frag ≤ (s.cg 0).ndblk := hend
      rw [Nat.succ_mul] at hend'
      omega
    have hno := firstBlock_none hpos hfind (by omega) hlt
    rw [Nat.zero_add, Nat.mul_div_cancel _ hpos] at hno
    exact absurd (hblock.symm.trans hno) (by decide)
  | some d =>
    obtain ⟨k, hk, hlt, hset, hfirst⟩ := firstBlock_some hfind
    have hdk : d = k * l.frag := by omega
    have hmod : d % l.frag = 0 := by rw [hdk, Nat.mul_mod_left]
    have hdiv : d / l.frag = k := by rw [hdk, Nat.mul_div_cancel _ hpos]
    have hndblk : (s.cg 0).ndblk ≤ l.fpg := hok.ndblk_le
    have hdfpg : d < l.fpg := by omega
    have hbk : d / l.frag < l.blocks := Nat.div_lt_div_of_lt_of_dvd l.frag_dvd_fpg hdfpg
    have hbase : d / l.frag * l.frag = d := Nat.div_mul_cancel (Nat.dvd_of_mod_eq_zero hmod)
    have hbefore : ∀ b, b < d / l.frag → ffsIsblock l.frag (s.cg 0).blksfree b = false := by
      intro b hb
      have hno := hfirst b (by omega)
      rwa [Nat.zero_add, Nat.mul_div_cancel _ hpos] at hno
    -- the group without the block
    obtain ⟨sum', heq⟩ := takeFirst_eq (l := l) (c := { s.cg 0 with clustersum := sum })
      (h := d / l.frag) dir s.maxcluster
    have htake := (hok.takeBlock s.maxcluster hbk hset).inodes
    have hok₁ : GroupOk l 0
        { takeFirst l (s.cg 0) (d / l.frag) dir with clustersum := sum' } := by
      have hsame : { takeFirst l (s.cg 0) (d / l.frag) dir with clustersum := sum' } =
          { takeFirst l { s.cg 0 with clustersum := sum } (d / l.frag) dir with
            clustersum := sum' } := rfl
      rw [hsame, heq]
      exact htake _ _ _ _ _
    have hwhole : ∀ i, (takeFirst l (s.cg 0) (d / l.frag) dir).blksfree.isset i =
        (!decide (d ≤ i ∧ i < d + l.frag) && (s.cg 0).blksfree.isset i) := by
      intro i
      have hmap := isset_takeBlock (l := l) (c := s.cg 0) s.maxcluster hmod i
      rwa [blksfree_takeBlock] at hmap
    have hfsize : n * l.geom.fsize ≠ l.bsize ↔ n ≠ l.frag := by
      have hb : l.bsize = l.frag * l.geom.fsize := l.geom.bsize_eq
      rw [hb, not_iff_not]
      exact ⟨fun h => Nat.eq_of_mul_eq_mul_right l.geom.fsize_pos h, fun h => by rw [h]⟩
    have hblkno : l.fragstoblks d = d / l.frag := rfl
    have hcount : howmany (n * l.geom.fsize) l.geom.fsize = n := by
      have hf := l.geom.fsize_pos
      rw [howmany, Nat.mul_comm, Nat.mul_add_div hf, Nat.div_eq_of_lt (by omega), Nat.add_zero]
    unfold mkfsAlloc
    rw [if_neg (by
      rintro (h | h)
      · exact h hok.magic
      · exact hne h)]
    simp only [hfind, hcount, hblkno]
    by_cases hpart : n = l.frag
    · subst hpart
      rw [if_neg (by rw [hfsize]; exact not_not.mpr rfl)]
      refine ⟨_, d, sum', rfl, ?_, ?_⟩
      · refine hs.write (shift_blockTaken dir) hok₁ rfl (fun i hi => ?_) ?_ hzero
        · rw [hwhole, Bool.and_eq_true] at hi
          exact hi.2
        · exact ⟨hinodes.niblk, hinodes.irotor_lt, hinodes.nifree, hinodes.inited_dvd,
            hinodes.inited_le, hinodes.inited⟩
      · exact takesFirst_of_write _ hdfpg hmod hset hbefore hwhole rfl rfl rfl rfl
    · have hlt : n < l.frag := by omega
      rw [if_pos (hfsize.mpr hpart)]
      have hclr : ∀ j, j < l.frag →
          (takeFirst l (s.cg 0) (d / l.frag) dir).blksfree.isset (d / l.frag * l.frag + j) =
            false := by
        intro j hj
        have hin : d ≤ d / l.frag * l.frag + j ∧ d / l.frag * l.frag + j < d + l.frag := by omega
        rw [hwhole, decide_eq_true hin]
        rfl
      have hok₂ := hok₁.freeRest hbk hclr hn hlt (hok.block_lt hbk hset)
      rw [hbase] at hok₂
      have hmap : ∀ i, (freeRest l (takeFirst l (s.cg 0) (d / l.frag) dir) d n).blksfree.isset i =
          (!decide (d ≤ i ∧ i < d + n) && (s.cg 0).blksfree.isset i) := by
        intro i
        have hrest := isset_freeRest_takeBlock (l := l) (c := s.cg 0) s.maxcluster hmod hnf hset i
        rw [← hrest]
        simp only [freeRest, blksfree_takeBlock, takeFirst]
      refine ⟨_, d, sum', rfl, ?_, ?_⟩
      · rw [Groups.account_account]
        refine hs.write ((shift_blockTaken dir).comp (shift_nffree _)) hok₂ rfl (fun i hi => ?_) ?_
          hzero
        · rw [hmap, Bool.and_eq_true] at hi
          exact hi.2
        · exact ⟨hinodes.niblk, hinodes.irotor_lt, hinodes.nifree, hinodes.inited_dvd,
            hinodes.inited_le, hinodes.inited⟩
      · rw [Groups.account_account]
        exact takesFirst_of_write _ hdfpg hmod hset hbefore hmap rfl rfl rfl rfl

/-- `alloc` fails only without a free block. -/
theorem mkfsAlloc_none (size : ℕ) (dir : Bool) (hz : (s.cg 0).cs.nbfree = 0) :
    mkfsAlloc l s size dir = none := if_pos (.inr hz)

/-- What `iput` leaves alone. -/
structure PutsInode (s s' : Groups) (ino : ℕ) : Prop where
  blksfree : (s'.cg 0).blksfree = (s.cg 0).blksfree
  clustersum : (s'.cg 0).clustersum = (s.cg 0).clustersum
  nbfree : (s'.cg 0).cs.nbfree = (s.cg 0).cs.nbfree
  initediblk : (s'.cg 0).initediblk = (s.cg 0).initediblk
  inosused : (s'.cg 0).inosused = (s.cg 0).inosused.setbit ino
  other : ∀ b, b ≠ 0 → s'.cg b = s.cg b

/-- `iput` uses an inode of the first group. -/
theorem SoundBut.iput (hs : SoundBut l s sum) {ino : ℕ} (hino : ino < l.ipg)
    (hclr : (s.cg 0).inosused.isset ino = false) (hinit : ino < (s.cg 0).initediblk) :
    ∃ s', iput s ino = some s' ∧ SoundBut l s' sum ∧ PutsInode s s' ino := by
  have hok := hs.good.group 0 l.ncg_pos
  rw [cg_withSum_self] at hok
  have hinodes := hs.inodes.group 0 l.ncg_pos
  have htake := hinodes.takeInode hino hclr hinit false
  have hzero : (s.cg 0).inosused.isset 0 = true := by
    have hused := hs.inodes.zero
    rwa [Groups.inodeUsed, Nat.zero_div, Nat.zero_mod] at hused
  unfold Ddfs.iput
  rw [if_neg (not_not.mpr hok.magic)]
  refine ⟨_, rfl, ?_, ?_⟩
  · refine hs.write (shift_inodeTaken false) (hok.inodes _ _ _ _ _) rfl (fun _ hi => hi) ?_ ?_
    · exact ⟨htake.niblk, hinodes.irotor_lt, htake.nifree, htake.inited_dvd, htake.inited_le,
        htake.inited⟩
    · rw [putInode, isset_setbit, hzero, Bool.or_true]
  · have hself := Groups.cg_setCg_self (s.account 0 (inodeTaken false)) 0 (putInode (s.cg 0) ino)
    exact ⟨(congrArg Cg.blksfree hself :), (congrArg Cg.clustersum hself :),
      (congrArg (fun c => c.cs.nbfree) hself :), (congrArg Cg.initediblk hself :),
      (congrArg Cg.inosused hself :), fun b hb => Groups.cg_setCg_of_ne _ _ _ hb⟩

/-- All is sound exactly if the summary of the first group is right. -/
theorem SoundBut.good_iff (hs : SoundBut l s sum) : Good l s ↔
    ∀ i, 1 ≤ i → i ≤ l.contigsumsize → (s.cg 0).clustersum i = sum i := by
  have hok := hs.good.group 0 l.ncg_pos
  rw [cg_withSum_self] at hok
  constructor
  · intro hgood i hi hil
    have hl : l.contigsumsize ≠ 0 := by omega
    have hleft := ((hgood.group 0 l.ncg_pos).clusters hl).exact i hi hil
    have hright := (hok.clusters hl).exact i hi hil
    exact hleft.trans hright.symm
  · intro hsum
    have hother : ∀ b, b ≠ 0 → (s.withSum sum).cg b = s.cg b := fun b hb =>
      Groups.cg_setCg_of_ne _ _ _ hb
    constructor
    · intro b hb
      by_cases hz : b = 0
      · subst hz
        refine ⟨hok.magic, hok.cgx_eq, hok.ndblk, hok.frotor_lt, hok.tail, ⟨hok.counts.nbfree,
          hok.counts.nffree, hok.counts.frsum⟩, fun hl => ⟨(hok.clusters hl).nclusterblks,
          (hok.clusters hl).isset, fun i hi hil => ?_⟩⟩
        rw [hsum i hi hil]
        exact (hok.clusters hl).exact i hi hil
      · rw [← hother b hz]
        exact hs.good.group b hb
    · intro b hb
      have hcs := hs.good.cs b hb
      by_cases hz : b = 0
      · subst hz
        rwa [cg_withSum_self] at hcs
      · rwa [hother b hz] at hcs
    · exact hs.good.totals
    · intro b hb
      by_cases hz : b = 0
      · subst hz
        rw [hs.maxcluster]
        exact ⟨Nat.le_refl _, fun _ _ hi _ => hi⟩
      · have hbound := hs.good.maxcluster b hb
        rwa [hother b hz] at hbound
    · have hzero := hs.good.zero
      have hg0 : l.dtog 0 = 0 := Nat.zero_div _
      rw [Groups.free, hg0, cg_withSum_self] at hzero
      rw [Groups.free, hg0]
      exact hzero

theorem withSum_self (s : Groups) : s.withSum (s.cg 0).clustersum = s := by
  simp [Groups.withSum, Groups.setCg]

end Alloc

/-- The free blocks of the first group are those from `a` to `b`. -/
def FreeFrom (l : FsLayout) (s : Groups) (a b : ℕ) : Prop :=
  ∀ h, ffsIsblock l.frag (s.cg 0).blksfree h = decide (a ≤ h ∧ h < b)

section Interval

variable {l : FsLayout} {s s' : Groups} {a b d n : ℕ} {sum : ℕ → ℤ}

/-- `alloc` takes them from the first one on. -/
theorem FreeFrom.alloc (h : FreeFrom l s a b) (hn : 1 ≤ n) (hnf : n ≤ l.frag)
    (htake : TakesFirst l s s' d n) : d = a * l.frag ∧ FreeFrom l s' (a + 1) b := by
  have hbase : d / l.frag * l.frag = d :=
    Nat.div_mul_cancel (Nat.dvd_of_mod_eq_zero htake.mod)
  have hin : a ≤ d / l.frag ∧ d / l.frag < b := by
    have hblock := htake.block
    rwa [h, decide_eq_true_iff] at hblock
  have hda : d / l.frag = a := by
    by_contra hne
    have hno := htake.first a (by omega)
    rw [h, decide_eq_false_iff_not] at hno
    omega
  refine ⟨by rw [← hda, hbase], fun k => ?_⟩
  by_cases hk : k = a
  · subst k
    have hclr : (s'.cg 0).blksfree.isset (a * l.frag + 0) = false := by
      rw [htake.map, decide_eq_true (by rw [← hda, hbase]; omega)]
      rfl
    have hnot : ¬ ffsIsblock l.frag (s'.cg 0).blksfree a = true := fun hb => by
      have hset := (ffsIsblock_iff l.geom _ _).mp hb 0 l.frag_pos
      exact absurd (hset.symm.trans hclr) (by decide)
    rw [decide_eq_false (by omega)]
    simpa using hnot
  · have hsame : ffsIsblock l.frag (s'.cg 0).blksfree k =
        ffsIsblock l.frag (s.cg 0).blksfree k := by
      refine ffsIsblock_congr fun i hi => ?_
      have hout : ¬ (d ≤ i ∧ i < d + n) := fun hmem => hk (by
        rw [← hi, ← hda]
        exact (mem_block htake.mod i).mpr (by omega))
      rw [htake.map, decide_eq_false hout, Bool.not_false, Bool.true_and]
    rw [hsame, h]
    exact decide_eq_decide.mpr (by omega)

/-- The clusters of a map with one run of free blocks. -/
theorem clusters_interval {f : ℕ → Bool} (bound len N : ℕ)
    (hf : ∀ h, h < N → f h = decide (a ≤ h ∧ h < a + len)) (hN : a + len ≤ N) :
    clusters bound f N = (runOf len).map (min bound) := by
  obtain ⟨r, rfl⟩ : ∃ r, N = a + (len + r) := ⟨N - (a + len), by omega⟩
  have hpre : seg f 0 a = List.replicate a false := seg_eq_replicate fun i hi => by
    rw [Nat.zero_add, hf i (by omega)]
    exact decide_eq_false (by omega)
  have hmid : seg f a len = List.replicate len true := seg_eq_replicate fun i hi => by
    rw [hf _ (by omega)]
    exact decide_eq_true (by omega)
  have hpost : seg f (a + len) r = List.replicate r false := seg_eq_replicate fun i hi => by
    rw [hf _ (by omega)]
    exact decide_eq_false (by omega)
  have hlast : (List.replicate a false).getLast? ≠ some true := by
    rw [List.getLast?_replicate]
    split <;> simp
  have hhead : (List.replicate r false).head? ≠ some true := by
    rw [List.head?_replicate]
    split <;> simp
  rw [clusters, seg_append, seg_append, Nat.zero_add, hpre, hmid, hpost,
    runs_append (.inl hlast), runs_append (.inr hhead), runs_replicate_false,
    runs_replicate_true, runs_replicate_false, List.nil_append, List.append_nil]

/-- The right summary of the first group. -/
theorem SoundBut.sum_eq (hs : SoundBut l s sum) (h : FreeFrom l s a b) (hab : a ≤ b)
    (hb : b ≤ (s.cg 0).ndblk / l.frag) {i : ℕ} (hi : 1 ≤ i) (hil : i ≤ l.contigsumsize) :
    sum i = if min l.contigsumsize (b - a) = i then 1 else 0 := by
  have hl : l.contigsumsize ≠ 0 := by omega
  have hok := hs.good.group 0 l.ncg_pos
  rw [cg_withSum_self] at hok
  have hmap := hok.clusters hl
  have hexact := hmap.exact i hi hil
  have hncl : (s.cg 0).nclusterblks = (s.cg 0).ndblk / l.frag := hmap.nclusterblks
  have hcl := clusters_interval (f := (s.cg 0).clustersfree.isset) (a := a) l.contigsumsize
    (b - a) (s.cg 0).nclusterblks (fun k hk => by
      have hset : (s.cg 0).clustersfree.isset k = ffsIsblock l.frag (s.cg 0).blksfree k :=
        hmap.isset k hk
      rw [hset, h]
      exact decide_eq_decide.mpr (by omega)) (by omega)
  have hcount : sum i = ((clusters l.contigsumsize (s.cg 0).clustersfree.isset
      (s.cg 0).nclusterblks).count i : ℕ) := hexact
  rw [hcount, hcl, count_map_runOf (by omega) _ i hi]
  split <;> rfl

end Interval

/-- A directory takes the first fragment of the first free block, and its inode. -/
structure MakesDir (l : FsLayout) (s s' : Groups) (d ino : ℕ) : Prop where
  lt : d < l.fpg
  map : ∀ i, (s'.cg 0).blksfree.isset i = (!decide (i = d) && (s.cg 0).blksfree.isset i)
  other : ∀ b, b ≠ 0 → s'.cg b = s.cg b
  nbfree : (s'.cg 0).cs.nbfree = (s.cg 0).cs.nbfree - 1
  clustersum : (s'.cg 0).clustersum = (s.cg 0).clustersum
  inosused : (s'.cg 0).inosused = (s.cg 0).inosused.setbit ino
  initediblk : (s'.cg 0).initediblk = (s.cg 0).initediblk
  /-- The free blocks are taken one by one. -/
  freeFrom : ∀ a b, FreeFrom l s a b → d = a * l.frag ∧ FreeFrom l s' (a + 1) b

section Dirs

variable {l : FsLayout} {s s' s'' : Groups} {sum : ℕ → ℤ} {m : MkfsLayout}

theorem initDir_none (ino : ℕ) (hz : (s.cg 0).cs.nbfree = 0) : initDir l s ino = none := by
  rw [initDir, mkfsAlloc_none _ _ hz]

/-- A directory is made if there is a free block for it. -/
theorem SoundBut.initDir (hs : SoundBut l s sum) {ino : ℕ} (hino : ino < l.ipg)
    (hclr : (s.cg 0).inosused.isset ino = false) (hinit : ino < (s.cg 0).initediblk)
    (hne : (s.cg 0).cs.nbfree ≠ 0) : ∃ s' d sum', initDir l s ino = some (s', d) ∧
      SoundBut l s' sum' ∧ MakesDir l s s' d ino := by
  obtain ⟨s₁, d, sum', halloc, hs₁, htake⟩ := hs.alloc (Nat.le_refl 1) l.frag_pos true hne
  rw [Nat.one_mul] at halloc
  obtain ⟨s₂, hput, hs₂, hputs⟩ := hs₁.iput hino (by rw [htake.inosused]; exact hclr)
    (by rw [htake.initediblk]; exact hinit)
  refine ⟨s₂, d, sum', ?_, hs₂, htake.lt, fun i => ?_, fun b hb => ?_, ?_, ?_, ?_, ?_,
    fun a b hfree => ?_⟩
  · rw [Ddfs.initDir, halloc]
    simp only [hput, Option.map_some]
  · have hdec : decide (i = d) = decide (d ≤ i ∧ i < d + 1) := decide_eq_decide.mpr (by omega)
    rw [hputs.blksfree, htake.map, hdec]
  · rw [hputs.other b hb, htake.other b hb]
  · rw [hputs.nbfree, htake.nbfree]
  · rw [hputs.clustersum, htake.clustersum]
  · rw [hputs.inosused, htake.inosused]
  · rw [hputs.initediblk, htake.initediblk]
  · obtain ⟨hd, hnext⟩ := hfree.alloc (Nat.le_refl 1) l.frag_pos htake
    refine ⟨hd, fun k => ?_⟩
    rw [hputs.blksfree]
    exact hnext k

/-- The summary of the first group is right exactly if its cluster is long enough. -/
theorem interval_sums_iff {bound len k : ℕ} (hk : 1 ≤ k) (hkl : k ≤ len) :
    (∀ i, 1 ≤ i → i ≤ bound → (if min bound len = i then (1 : ℤ) else 0) =
      if min bound (len - k) = i then 1 else 0) ↔ bound + k ≤ len := by
  constructor
  · intro h
    by_contra hlt
    have hmin := h (min bound len) (by omega) (Nat.min_le_left _ _)
    rw [if_pos rfl, if_neg (by omega)] at hmin
    exact absurd hmin (by decide)
  · intro hle i _ _
    rw [Nat.min_eq_left (by omega), Nat.min_eq_left (by omega)]

/-- The free blocks of the first group of a new file system are one cluster. -/
theorem Laid.freeFrom (h : Laid l m) (optim : Optim) :
    FreeFrom l (mkfsGroups l.geom m optim) (roundup (dupper l.geom m 0) l.frag / l.frag)
      (min l.fpg l.size / l.frag) ∧
    initcg l.geom m 0 =
      min l.fpg l.size / l.frag - roundup (dupper l.geom m 0) l.frag / l.frag := by
  have hpos := l.frag_pos
  obtain ⟨k, hk⟩ : l.frag ∣ roundup (dupper l.geom m 0) l.frag := dvd_roundup
  have hround : dupper l.geom m 0 ≤ roundup (dupper l.geom m 0) l.frag := le_roundup hpos
  have hlt : roundup (dupper l.geom m 0) l.frag < dupper l.geom m 0 + l.frag :=
    howmany_mul_lt hpos
  have hdiv : roundup (dupper l.geom m 0) l.frag / l.frag = k := by
    rw [hk, Nat.mul_div_cancel_left _ hpos]
  constructor
  · intro b
    have hmap : ∀ i, ((mkfsGroups l.geom m optim).cg 0).blksfree.isset i =
        decide (dupper l.geom m 0 ≤ i ∧ i < min l.fpg l.size) := by
      intro i
      have hbase : l.cgbase 0 = 0 := Nat.mul_zero _
      have hset := h.isset_done l.ncg_pos i
      have hfront : ¬ (0 < 0 ∧ i < roundup (dlower m) l.frag) := by omega
      rw [initcgIsfree, decide_eq_false hfront, Bool.false_or, hbase, Nat.sub_zero] at hset
      exact hset
    have hmul : (b + 1) * l.frag = b * l.frag + l.frag := Nat.succ_mul _ _
    have hlow : k ≤ b ↔ dupper l.geom m 0 ≤ b * l.frag := by
      rw [hk] at hround hlt
      constructor
      · intro hle
        have := Nat.mul_le_mul_right l.frag hle
        rw [Nat.mul_comm] at hround
        omega
      · intro hle
        have hsucc : k * l.frag < (b + 1) * l.frag := by
          rw [Nat.mul_comm] at hlt
          omega
        have := Nat.lt_of_mul_lt_mul_right hsucc
        omega
    have hhigh : b < min l.fpg l.size / l.frag ↔ b * l.frag + l.frag ≤ min l.fpg l.size := by
      rw [← hmul]
      exact Nat.le_div_iff_mul_le hpos
    rw [hdiv, Bool.eq_iff_iff, decide_eq_true_iff, hlow, hhigh]
    constructor
    · intro hblock
      have hall := (ffsIsblock_iff l.geom _ _).mp hblock
      have hfirst := hall 0 hpos
      have hlast := hall (l.frag - 1) (Nat.sub_lt hpos Nat.one_pos)
      rw [hmap, decide_eq_true_iff] at hfirst hlast
      have hgeom : l.geom.frag = l.frag := rfl
      rw [hgeom] at hfirst hlast
      omega
    · rintro ⟨hfirst, hlast⟩
      refine (ffsIsblock_iff l.geom _ _).mpr fun j hj => ?_
      have hgeom : l.geom.frag = l.frag := rfl
      rw [hgeom] at hj ⊢
      rw [hmap, decide_eq_true_iff]
      omega
  · have heq : initcg l.geom m 0 =
        (min l.fpg l.size - roundup (dupper l.geom m 0) l.frag) / l.frag := by
      rw [initcg_zero, h.fpg, h.size]
      rfl
    rw [heq, hdiv, hk, Nat.sub_mul_div]

/-- What is free and used in the file system behind a directory. -/
theorem MakesDir.states {d ino : ℕ} (h : MakesDir l s s' d ino) (hino : ino < l.ipg) :
    (∀ e, s'.free l e = (!decide (e = d) && s.free l e)) ∧
      ∀ i, s'.inodeUsed l i = (i == ino || s.inodeUsed l i) := by
  constructor
  · intro e
    unfold Groups.free
    by_cases hg : l.dtog e = 0
    · have hbase := l.cgbase_dtog e
      have hz : l.cgbase 0 = 0 := Nat.mul_zero _
      have heq : l.dtogd e = e := by
        rw [hg, hz] at hbase
        omega
      rw [hg, h.map, heq]
    · have hne : e ≠ d := by
        rintro rfl
        exact hg (Nat.div_eq_of_lt h.lt)
      rw [h.other _ hg, decide_eq_false hne, Bool.not_false, Bool.true_and]
  · intro i
    unfold Groups.inodeUsed
    by_cases hg : i / l.ipg = 0
    · have heq : i % l.ipg = i := Nat.mod_eq_of_lt (Nat.lt_of_div_eq_zero l.ipg_pos hg)
      rw [hg, h.inosused, isset_setbit, heq]
    · have hne : i ≠ ino := by
        rintro rfl
        exact hg (Nat.div_eq_of_lt hino)
      rw [h.other _ hg, beq_eq_false_iff_ne.mpr hne, Bool.false_or]

end Dirs

section Fsinit

variable {l : FsLayout} {m : MkfsLayout}

/-- The inodes that are used in front of `fsinit`. -/
theorem Laid.inodeUsed (h : Laid l m) (optim : Optim) {ino : ℕ} (hino : ino < l.ipg) :
    (mkfsGroups l.geom m optim).inodeUsed l ino = decide (ino < ufsRootino) := by
  obtain ⟨⟨-, -, -, -, -, -, hsame⟩, -⟩ := h.initcgFree l.ncg_pos
  have hmap : ((mkfsGroups l.geom m optim).cg 0).inosused =
      BitMap.setRange (fun _ => 0) 0 ufsRootino := hsame.inosused
  rw [Groups.inodeUsed, Nat.div_eq_of_lt hino, Nat.mod_eq_of_lt hino, hmap, isset_setRange,
    isset_zero, Bool.or_false]
  exact decide_eq_decide.mpr (by omega)

/-- The blocks of the first `k` directories. -/
def dirBlocks (l : FsLayout) (m : MkfsLayout) (k : ℕ) : List ℕ :=
  (List.range k).map fun i => roundup (dupper l.geom m 0) l.frag + i * l.frag

/-- What holds when `k` directories are made. -/
structure DirsMade (l : FsLayout) (m : MkfsLayout) (optim : Optim) (k : ℕ) (s : Groups) : Prop where
  sound : ∃ sum, SoundBut l s sum
  freeFrom : FreeFrom l s (roundup (dupper l.geom m 0) l.frag / l.frag + k)
    (min l.fpg l.size / l.frag)
  nbfree : (s.cg 0).cs.nbfree = initcg l.geom m 0 - k
  clustersum : (s.cg 0).clustersum = (initcgDone l.geom m 0).clustersum
  initediblk : (s.cg 0).initediblk = (initcgDone l.geom m 0).initediblk
  free : ∀ d, s.free l d =
    (!decide (d ∈ dirBlocks l m k) && (mkfsGroups l.geom m optim).free l d)
  used : ∀ ino, ino < l.ipg → s.inodeUsed l ino = decide (ino < ufsRootino + k)

/-- In front of `fsinit` there is none. -/
theorem Laid.dirsMade (h : Laid l m) (hdrift : l.drift = mkfsDrift l.geom m) (optim : Optim) :
    DirsMade l m optim 0 (mkfsGroups l.geom m optim) := by
  refine ⟨⟨(initcgDone l.geom m 0).clustersum, ?_, h.inodesGood optim, rfl⟩,
    (h.freeFrom optim).1, ?_, rfl, rfl, fun d => ?_, fun ino hino => h.inodeUsed optim hino⟩
  · have hself := withSum_self (mkfsGroups l.geom m optim)
    have hgood := h.good hdrift optim
    rwa [← hself] at hgood
  · have heq := h.nbfree l.ncg_pos
    rw [Nat.cast_zero, sub_zero]
    exact heq
  · rw [dirBlocks, List.range_zero, List.map_nil, decide_eq_false List.not_mem_nil,
      Bool.not_false, Bool.true_and]

/-- One more directory, if there is a free block and an inode for it. -/
theorem DirsMade.step {optim : Optim} {k : ℕ} {s : Groups} (hd : DirsMade l m optim k s)
    (h : Laid l m) (hk : k < 2) (hfree : k < initcg l.geom m 0) :
    ∃ s', initDir l s (ufsRootino + k) =
        some (s', roundup (dupper l.geom m 0) l.frag + k * l.frag) ∧
      DirsMade l m optim (k + 1) s' := by
  obtain ⟨sum, hs⟩ := hd.sound
  have hpos := l.frag_pos
  obtain ⟨⟨-, -, -, -, -, -, hsame⟩, -⟩ := h.initcgFree l.ncg_pos
  have hinit : (s.cg 0).initediblk = min l.ipg (2 * l.geom.inopb) := by
    rw [hd.initediblk, ← h.ipg]
    exact hsame.initediblk
  have hinopb := eight_dvd_inopb l.geom
  have hinopb' := l.geom.inopb_pos
  obtain ⟨j, hj⟩ := l.eight_dvd_ipg
  have hipg := l.ipg_pos
  have hroot : ufsRootino = 2 := rfl
  have hino : ufsRootino + k < l.ipg := by omega
  have hclr : (s.cg 0).inosused.isset (ufsRootino + k) = false := by
    have hused := hd.used _ hino
    rw [Groups.inodeUsed, Nat.div_eq_of_lt hino, Nat.mod_eq_of_lt hino] at hused
    rw [hused]
    exact decide_eq_false (Nat.lt_irrefl _)
  obtain ⟨s', d, sum', hmake, hs', hdir⟩ := hs.initDir hino hclr (by omega)
    (by rw [hd.nbfree]; omega)
  obtain ⟨heq, hnext⟩ := hdir.freeFrom _ _ hd.freeFrom
  have hround : roundup (dupper l.geom m 0) l.frag / l.frag * l.frag =
      roundup (dupper l.geom m 0) l.frag := Nat.div_mul_cancel dvd_roundup
  rw [Nat.add_mul, hround] at heq
  obtain ⟨hstate, hused⟩ := hdir.states hino
  refine ⟨s', by rw [hmake, heq], ⟨sum', hs'⟩, hnext, ?_, ?_, ?_, fun e => ?_, fun ino hlt => ?_⟩
  · rw [hdir.nbfree, hd.nbfree]
    push_cast
    omega
  · rw [hdir.clustersum, hd.clustersum]
  · rw [hdir.initediblk, hd.initediblk]
  · rw [hstate, hd.free, heq, ← Bool.and_assoc, ← Bool.not_or]
    congr 2
    rw [Bool.eq_iff_iff, Bool.or_eq_true, decide_eq_true_iff, decide_eq_true_iff,
      decide_eq_true_iff, dirBlocks, dirBlocks, List.range_succ, List.map_append,
      List.map_singleton, List.mem_append, List.mem_singleton, or_comm]
  · rw [hused, hd.used ino hlt, Bool.eq_iff_iff, Bool.or_eq_true, beq_iff_eq, decide_eq_true_iff,
      decide_eq_true_iff]
    omega

theorem DirsMade.none {optim : Optim} {k : ℕ} {s : Groups} (hd : DirsMade l m optim k s)
    (hfull : initcg l.geom m 0 = k) (ino : ℕ) : initDir l s ino = none :=
  initDir_none ino (by rw [hd.nbfree, hfull, sub_self])

/-- Whether what is left is sound. -/
theorem DirsMade.good_iff {optim : Optim} {k : ℕ} {s : Groups} (hd : DirsMade l m optim k s)
    (h : Laid l m) (hdrift : l.drift = mkfsDrift l.geom m) (hk : 1 ≤ k)
    (hfree : k ≤ initcg l.geom m 0) :
    Good l s ↔ l.contigsumsize + k ≤ initcg l.geom m 0 := by
  obtain ⟨sum, hs⟩ := hd.sound
  obtain ⟨hall, hcount⟩ := h.freeFrom optim
  obtain ⟨sum₀, hs₀⟩ := (h.dirsMade hdrift optim).sound
  have hend : ∀ {s : Groups} {sum : ℕ → ℤ}, SoundBut l s sum →
      min l.fpg l.size / l.frag ≤ (s.cg 0).ndblk / l.frag := by
    intro s sum hs
    have hok := hs.good.group 0 l.ncg_pos
    rw [cg_withSum_self] at hok
    have hndblk : (s.cg 0).ndblk = min l.fpg (l.size - l.cgbase 0) := hok.ndblk
    have hbase : l.cgbase 0 = 0 := Nat.mul_zero _
    rw [hndblk, hbase, Nat.sub_zero]
  have hold : ∀ i, 1 ≤ i → i ≤ l.contigsumsize → (s.cg 0).clustersum i =
      if min l.contigsumsize (initcg l.geom m 0) = i then 1 else 0 := by
    intro i hi hil
    have hgood := (hs₀.good_iff).mp (h.good hdrift optim) i hi hil
    have hsum := hs₀.sum_eq hall (by omega) (hend hs₀) hi hil
    rw [hd.clustersum, hcount, ← hsum]
    exact hgood
  have hnew : ∀ i, 1 ≤ i → i ≤ l.contigsumsize → sum i =
      if min l.contigsumsize (initcg l.geom m 0 - k) = i then 1 else 0 := by
    intro i hi hil
    have hsum := hs.sum_eq hd.freeFrom (by omega) (hend hs) hi hil
    rw [hsum, hcount, Nat.sub_add_eq]
  rw [hs.good_iff, ← interval_sums_iff hk hfree]
  constructor
  · intro heq i hi hil
    rw [← hold i hi hil, ← hnew i hi hil]
    exact heq i hi hil
  · intro heq i hi hil
    rw [hold i hi hil, hnew i hi hil]
    exact heq i hi hil

/-- `fsinit` fails only if the first group has too few free blocks for the directories. What it
leaves is sound exactly if there are `fs_contigsumsize` more: `alloc` does not count the
clusters. -/
theorem fsinit_spec (h : Laid l m) (hdrift : l.drift = mkfsDrift l.geom m) (optim : Optim)
    (nflag : Bool) :
    (fsinit l nflag (mkfsGroups l.geom m optim) = none ↔
      initcg l.geom m 0 < if nflag then 1 else 2) ∧
    ∀ s bs, fsinit l nflag (mkfsGroups l.geom m optim) = some (s, bs) →
      bs = dirBlocks l m (if nflag then 1 else 2) ∧
      (∀ d, s.free l d = (!decide (d ∈ bs) && (mkfsGroups l.geom m optim).free l d)) ∧
      (∀ ino, ino < l.ipg → s.inodeUsed l ino =
        decide (ino < ufsRootino + if nflag then 1 else 2)) ∧
      InodesGood l s ∧
      (Good l s ↔ l.contigsumsize + (if nflag then 1 else 2) ≤ initcg l.geom m 0) := by
  have h₀ := h.dirsMade hdrift optim
  -- a state with `k` directories is as stated
  have hdone : ∀ k s, 1 ≤ k → k ≤ initcg l.geom m 0 → DirsMade l m optim k s →
      (∀ d, s.free l d =
        (!decide (d ∈ dirBlocks l m k) && (mkfsGroups l.geom m optim).free l d)) ∧
      (∀ ino, ino < l.ipg → s.inodeUsed l ino = decide (ino < ufsRootino + k)) ∧
      InodesGood l s ∧ (Good l s ↔ l.contigsumsize + k ≤ initcg l.geom m 0) := by
    intro k s hk hle hd
    obtain ⟨sum, hs⟩ := hd.sound
    exact ⟨hd.free, hd.used, hs.inodes, hd.good_iff h hdrift hk hle⟩
  unfold fsinit
  rcases Nat.eq_zero_or_pos (initcg l.geom m 0) with hz | hpos
  · -- no block for the root directory
    rw [h₀.none hz ufsRootino]
    refine ⟨⟨fun _ => ?_, fun _ => rfl⟩, fun s bs hres => by cases hres⟩
    split <;> omega
  · obtain ⟨s₁, hroot, h₁⟩ := h₀.step h (by decide) hpos
    have hroot' : initDir l (mkfsGroups l.geom m optim) ufsRootino =
        some (s₁, roundup (dupper l.geom m 0) l.frag + 0 * l.frag) := hroot
    simp only [hroot']
    cases nflag with
    | true =>
      refine ⟨⟨fun hres => (by cases hres), fun hlt => ?_⟩, fun s bs hres => ?_⟩
      · rw [if_pos rfl] at hlt
        omega
      · obtain ⟨rfl, rfl⟩ := Prod.mk.inj (Option.some.inj hres)
        exact ⟨rfl, hdone 1 s₁ (Nat.le_refl 1) hpos h₁⟩
    | false =>
      rcases Nat.eq_or_lt_of_le hpos with hone | htwo
      · -- no block for `.snap`
        rw [h₁.none hone.symm (ufsRootino + 1)]
        refine ⟨⟨fun _ => ?_, fun _ => rfl⟩, fun s bs hres => by cases hres⟩
        rw [if_neg (by decide)]
        omega
      · obtain ⟨s₂, hsnap, h₂⟩ := h₁.step h (by decide) htwo
        have hsnap' : initDir l s₁ (ufsRootino + 1) =
            some (s₂, roundup (dupper l.geom m 0) l.frag + 1 * l.frag) := hsnap
        simp only [hsnap']
        refine ⟨⟨fun hres => (by cases hres), fun hlt => ?_⟩, fun s bs hres => ?_⟩
        · rw [if_neg (by decide)] at hlt
          omega
        · obtain ⟨rfl, rfl⟩ := Prod.mk.inj (Option.some.inj hres)
          exact ⟨rfl, hdone 2 s₂ (by decide) htwo h₂⟩

end Fsinit

end EmbeddedOs.Ddfs
