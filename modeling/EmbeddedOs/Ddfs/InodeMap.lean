import EmbeddedOs.Ddfs.FreeSpace
import EmbeddedOs.Ddfs.HashAlloc

/-!
# The inodes of a cylinder group

`ffs_nodealloccg` allocates an inode in a group and `ffs_freefile` frees one. The inodes of a group
are initialised block by block when they are first needed: `ffs_nodealloccg` gives up the group to
write a block of inodes, and then starts again. Another thread may write the block meanwhile.
-/

namespace EmbeddedOs.Ddfs

open Lib BitRuns BitMap

/-- The inode that `ffs_nodealloccg` chooses in a group; it is none where the code panics. -/
def pickInode (l : FsLayout) (cgp : Cg) (ipref : ℕ) : Option ℕ :=
  if ipref ≠ 0 ∧ !cgp.inosused.isset (ipref % l.ipg) then some (ipref % l.ipg)
  else
    let start := cgp.irotor / 8
    let len := howmany (l.ipg - cgp.irotor) 8
    let loc :=
      match memcchr cgp.inosused 255#8 len start with
      | some loc => some loc
      | none => memcchr cgp.inosused 255#8 (start + 1) 0
    match loc with
    -- `ffs_nodealloccg: map corrupted`
    | none => none
    | some loc => some (loc * 8 + (ffs (~~~cgp.inosused loc) - 1))

/-- The assignments of `ffs_nodealloccg` to the counts. -/
def inodeTaken (dir : Bool) (cs : Csum) : Csum :=
  { cs with nifree := cs.nifree - 1, ndir := if dir then cs.ndir + 1 else cs.ndir }

/-- The assignments of `ffs_freefile` to the counts. -/
def inodeFreed (dir : Bool) (cs : Csum) : Csum :=
  { cs with nifree := cs.nifree + 1, ndir := if dir then cs.ndir - 1 else cs.ndir }

/-- The assignments of `ffs_nodealloccg` to a group. -/
def takeInode (cgp : Cg) (ipref : ℕ) (dir : Bool) : Cg :=
  { cgp with
    irotor := ipref
    inosused := cgp.inosused.setbit ipref
    cs := inodeTaken dir cgp.cs }

/-- What `ffs_nodealloccg` does with a group before it gives it up. -/
inductive NodeTurn where
  /-- There is no inode left. -/
  | full
  /-- The next inodes are to be initialised, for the choice `ipref`. -/
  | init (ipref : ℕ)
  /-- An inode is allocated. -/
  | done (s : Groups) (ino : ℕ)

/-- `ffs_nodealloccg` from the label `restart` on; it is none where the code panics. -/
def nodeallocTurn (l : FsLayout) (s : Groups) (cg ipref : ℕ) (dir : Bool) : Option NodeTurn :=
  let cgp := s.cg cg
  if cgp.cs.nifree = 0 then some .full
  else
    match pickInode l cgp ipref with
    | none => none
    | some ipref =>
      if cgp.initediblk < ipref + l.geom.inopb ∧ cgp.initediblk < cgp.niblk then
        some (.init ipref)
      else
        some (.done ((s.account cg (inodeTaken dir)).setCg cg (takeInode cgp ipref dir))
          (cg * l.ipg + ipref))

/-- The inodes from `old` on are initialised, unless another thread was first. -/
def setInited (l : FsLayout) (s : Groups) (cg old : ℕ) : Groups :=
  let cgp := s.cg cg
  s.setCg cg { cgp with
    initediblk := if cgp.initediblk = old then cgp.initediblk + l.geom.inopb else cgp.initediblk }

/-- How a block of inodes gets initialised. -/
inductive InitBy where
  /-- By this thread. -/
  | self
  /-- By another thread, on whose buffer this one waits until the group has them. The group is then
  read again. -/
  | other (readable : Bool)
  /-- By this thread, but the group cannot be read behind it: the error of `ffs_getcg`. -/
  | failed (error : ℕ)

/-- The turns of `ffs_nodealloccg` in a group, with a bound on their number. -/
def nodeallocTurns (l : FsLayout) (env : ℕ → InitBy) (cg : ℕ) (dir : Bool) :
    ℕ → Groups → ℕ → Option (Groups × ℕ)
  | 0, _, _ => none
  | n + 1, s, ipref =>
    match nodeallocTurn l s cg ipref dir with
    | none => none
    | some .full => some (s, 0)
    | some (.done s ino) => some (s, ino)
    | some (.init ipref) =>
      match env n with
      | .failed error => some (s, error)
      | .self => nodeallocTurns l env cg dir n (setInited l s cg (s.cg cg).initediblk) ipref
      | .other readable =>
        let s := setInited l s cg (s.cg cg).initediblk
        if (s.cs cg).nifree = 0 ∨ readable = false then some (s, 0)
        else nodeallocTurns l env cg dir n s ipref

/-- `ffs_nodealloccg`: allocate an inode in a group, 0 if there is none. Each turn but the last one
initialises inodes, so that there are no more turns than inodes and one. -/
def ffsNodealloccg (l : FsLayout) (readable : ℕ → Bool) (env : ℕ → InitBy) (s : Groups)
    (cg ipref : ℕ) (dir : Bool) : Option (Groups × ℕ) :=
  if (s.cs cg).nifree = 0 then some (s, 0)
  else
    match ffsGetcg readable s cg with
    | none => some (s, 0)
    | some _ => nodeallocTurns l env cg dir (l.ipg + 1) s ipref

/-- `ffs_freefile`: free an inode, and whether the group could be read; it is none where the code
panics. -/
def ffsFreefile (l : FsLayout) (readable : ℕ → Bool) (ronly : Bool) (s : Groups) (ino : ℕ)
    (dir : Bool) : Option (Groups × Bool) :=
  let cg := ino / l.ipg
  -- `ffs_freefile: range`
  if l.ipg * l.ncg ≤ ino then none
  else
    match ffsGetcg readable s cg with
    | none => some (s, false)
    | some cgp =>
      let cgino := ino % l.ipg
      -- `ffs_freefile: freeing free inode`
      if !cgp.inosused.isset cgino ∧ !ronly then none
      else
        some ((s.account cg (inodeFreed dir)).setCg cg { cgp with
          inosused := cgp.inosused.clrbit cgino
          irotor := if cgino < cgp.irotor then cgino else cgp.irotor
          cs := inodeFreed dir cgp.cs }, true)

/-- The number of free inodes of a group. -/
def freeInodes (m : BitMap) (ipg : ℕ) : ℤ := freeCount (fun i => !m.isset i) ipg

/-- What holds of the inodes of a group between two operations. -/
structure InodesOk (l : FsLayout) (c : Cg) : Prop where
  /-- `cg_niblk`. -/
  niblk : c.niblk = l.ipg
  /-- The search begins within the group. -/
  irotor_lt : c.irotor < l.ipg
  /-- `cs_nifree` counts the free inodes. -/
  nifree : c.cs.nifree = freeInodes c.inosused l.ipg
  /-- Whole blocks of inodes are initialised. -/
  inited_dvd : l.geom.inopb ∣ c.initediblk
  /-- They are inodes of the group. -/
  inited_le : c.initediblk ≤ l.ipg
  /-- An inode that is used is initialised. -/
  inited : ∀ i, i < l.ipg → c.inosused.isset i = true → i < c.initediblk

/-- Whether an inode of the file system is used. -/
def Groups.inodeUsed (l : FsLayout) (s : Groups) (ino : ℕ) : Bool :=
  (s.cg (ino / l.ipg)).inosused.isset (ino % l.ipg)

section Choice

variable {l : FsLayout} {c : Cg} {ipref i : ℕ}

theorem eight_dvd_inopb (g : Geometry) : 8 ∣ g.inopb := by
  have hle := g.le_bshift
  have heq : g.inopb = 2 ^ (g.fshift + g.fragshift - 8) :=
    Nat.pow_div (show 8 ≤ g.fshift + g.fragshift by omega) (by decide)
  rw [heq]
  exact Nat.pow_dvd_pow 2 (show 3 ≤ g.fshift + g.fragshift - 8 by omega)

theorem FsLayout.eight_dvd_ipg (l : FsLayout) : 8 ∣ l.ipg :=
  (eight_dvd_inopb l.geom).trans l.inopb_dvd_ipg

/-- A byte that is full has only bits that are set. -/
theorem isset_of_full {m : BitMap} {b i : ℕ} (h : m b = 255#8) (hi : i / 8 = b) :
    m.isset i = true := by
  have hfull : ∀ i : Fin 8, (255#8).getLsbD i = true := by decide
  rw [BitMap.isset_eq, hi, h]
  exact hfull ⟨i % 8, Nat.mod_lt _ (by decide)⟩

/-- The choice is a free inode of the group. -/
theorem pickInode_some (hrot : c.irotor < l.ipg) (h : pickInode l c ipref = some i) :
    i < l.ipg ∧ c.inosused.isset i = false := by
  obtain ⟨k, hk⟩ := l.eight_dvd_ipg
  unfold pickInode at h
  split at h
  · rename_i hpref
    obtain rfl := Option.some.inj h
    exact ⟨Nat.mod_lt _ l.ipg_pos, Bool.not_eq_true' _ ▸ hpref.2⟩
  · have hbyte : ∀ loc, loc < k → c.inosused loc ≠ 255#8 →
        loc * 8 + (ffs (~~~c.inosused loc) - 1) < l.ipg ∧
          c.inosused.isset (loc * 8 + (ffs (~~~c.inosused loc) - 1)) = false := by
      intro loc hloc hne
      obtain ⟨r, hr, heq, hclr, -⟩ := BitMap.ffs_not hne
      rw [heq, Nat.add_sub_cancel]
      refine ⟨by omega, ?_⟩
      rwa [← BitMap.getLsbD_eq_isset _ hr]
    have hend : c.irotor / 8 + howmany (l.ipg - c.irotor) 8 = k := by
      unfold howmany
      omega
    simp only at h
    split at h
    · exact absurd h (by simp)
    · rename_i loc hloc
      obtain rfl := Option.some.inj h
      split at hloc
      · rename_i first hfirst
        obtain rfl := Option.some.inj hloc
        obtain ⟨-, hlt, hne, -⟩ := BitMap.memcchr_some hfirst
        exact hbyte _ (by omega) hne
      · obtain ⟨-, hlt, hne, -⟩ := BitMap.memcchr_some hloc
        exact hbyte _ (by omega) hne

/-- A preferred inode that is free is the choice. -/
theorem pickInode_pref (hpref : ipref ≠ 0) (hfree : c.inosused.isset (ipref % l.ipg) = false) :
    pickInode l c ipref = some (ipref % l.ipg) := by
  unfold pickInode
  rw [if_pos ⟨hpref, by rw [hfree]; rfl⟩]

/-- The search finds an inode if one is free. -/
theorem pickInode_ne_none (ipref : ℕ) (hrot : c.irotor < l.ipg) (hi : i < l.ipg)
    (hfree : c.inosused.isset i = false) : pickInode l c ipref ≠ none := by
  intro h
  obtain ⟨k, hk⟩ := l.eight_dvd_ipg
  have hend : c.irotor / 8 + howmany (l.ipg - c.irotor) 8 = k := by
    unfold howmany
    omega
  unfold pickInode at h
  split at h
  · exact absurd h (by simp)
  · simp only at h
    split at h
    · rename_i hloc
      split at hloc
      · exact absurd hloc (by simp)
      · rename_i hfirst
        have hfull : c.inosused (i / 8) = 255#8 := by
          rcases Nat.lt_or_ge (i / 8) (c.irotor / 8) with hlt | hge
          · exact BitMap.memcchr_none hloc (Nat.zero_le _) (by omega)
          · exact BitMap.memcchr_none hfirst hge (by omega)
        exact absurd ((isset_of_full hfull rfl).symm.trans hfree) (by decide)
    · exact absurd h (by simp)

end Choice

section Group

variable {l : FsLayout} {s : Groups} {c c' : Cg} {cg cgx i : ℕ} {dir : Bool}

/-- An operation on the blocks of a group keeps what holds of its inodes. -/
theorem InodesOk.same (hok : InodesOk l c) (h : SameInodes c c') : InodesOk l c' := by
  refine ⟨h.niblk.trans hok.niblk, ?_, ?_, ?_, ?_, fun i hi hset => ?_⟩
  · rw [h.irotor]
    exact hok.irotor_lt
  · rw [h.nifree, h.inosused]
    exact hok.nifree
  · rw [h.initediblk]
    exact hok.inited_dvd
  · rw [h.initediblk]
    exact hok.inited_le
  · rw [h.inosused] at hset
    rw [h.initediblk]
    exact hok.inited i hi hset

/-- An operation on the inodes of a group keeps what holds of its blocks. -/
theorem GroupOk.inodes (hok : GroupOk l cgx c) (irotor initediblk : ℕ) (inosused : BitMap)
    (ndir nifree : ℤ) : GroupOk l cgx { c with
      irotor := irotor
      initediblk := initediblk
      inosused := inosused
      cs := { c.cs with ndir := ndir, nifree := nifree } } :=
  ⟨hok.magic, hok.cgx_eq, hok.ndblk, hok.frotor_lt, hok.tail, ⟨hok.counts.nbfree,
    hok.counts.nffree, hok.counts.frsum⟩, fun hl => ⟨(hok.clusters hl).nclusterblks,
    (hok.clusters hl).isset, (hok.clusters hl).exact⟩⟩

theorem freeInodes_setbit {m : BitMap} {n : ℕ} (hi : i < n) (hclr : m.isset i = false) :
    freeInodes (m.setbit i) n = freeInodes m n - 1 := by
  refine freeCount_piece (r := i) (n := 1) hi (fun j hj => ?_) fun d => ?_
  · obtain rfl : j = 0 := by omega
    rw [Nat.add_zero, hclr]
    rfl
  · have hdec : decide (i ≤ d ∧ d < i + 1) = (d == i) := by
      rw [Bool.eq_iff_iff, decide_eq_true_iff, beq_iff_eq]
      omega
    rw [hdec, BitMap.isset_setbit, Bool.not_or]

theorem freeInodes_clrbit {m : BitMap} {n : ℕ} (hi : i < n) (hset : m.isset i = true) :
    freeInodes (m.clrbit i) n = freeInodes m n + 1 := by
  have hback := freeCount_piece (f := fun j => !(m.clrbit i).isset j)
    (g := fun j => !m.isset j) (r := i) (n := 1) hi (fun j hj => by
      obtain rfl : j = 0 := by omega
      rw [Nat.add_zero, BitMap.isset_clrbit, bne_self_eq_false, Bool.false_and]
      rfl) fun d => by
    have hdec : decide (i ≤ d ∧ d < i + 1) = (d == i) := by
      rw [Bool.eq_iff_iff, decide_eq_true_iff, beq_iff_eq]
      omega
    rw [hdec, BitMap.isset_clrbit]
    by_cases hd : d = i
    · rw [hd, hset, beq_self_eq_true]
      rfl
    · rw [beq_eq_false_iff_ne.mpr hd, bne_iff_ne.mpr hd]
      rfl
  unfold freeInodes
  rw [hback, Nat.cast_one]
  omega

/-- `cs_nifree` tells whether an inode is free. -/
theorem InodesOk.exists_free (hok : InodesOk l c) (hne : c.cs.nifree ≠ 0) :
    ∃ i, i < l.ipg ∧ c.inosused.isset i = false := by
  by_contra hall
  refine hne ?_
  rw [hok.nifree, freeInodes, freeCount]
  refine Finset.sum_eq_zero fun i hi => ?_
  have hused : c.inosused.isset i = true := by
    by_contra hclr
    exact hall ⟨i, Finset.mem_range.mp hi, Bool.eq_false_iff.mpr hclr⟩
  rw [hused]
  rfl

/-- An inode that is initialised is taken. -/
theorem InodesOk.takeInode (hok : InodesOk l c) (hi : i < l.ipg)
    (hclr : c.inosused.isset i = false) (hinit : i < c.initediblk) (dir : Bool) :
    InodesOk l (takeInode c i dir) := by
  refine ⟨hok.niblk, hi, ?_, hok.inited_dvd, hok.inited_le, fun j hj hset => ?_⟩
  · have hcount := freeInodes_setbit hi hclr
    have heq : (Ddfs.takeInode c i dir).cs.nifree = c.cs.nifree - 1 := rfl
    have hmap : (Ddfs.takeInode c i dir).inosused = c.inosused.setbit i := rfl
    rw [heq, hmap, hcount, hok.nifree]
  · have hmap : (Ddfs.takeInode c i dir).inosused = c.inosused.setbit i := rfl
    rw [hmap, BitMap.isset_setbit, Bool.or_eq_true, beq_iff_eq] at hset
    rcases hset with rfl | hset
    · exact hinit
    · exact hok.inited j hj hset

/-- The next inodes are initialised. -/
theorem InodesOk.inited_next (hok : InodesOk l c) (hlt : c.initediblk < l.ipg) :
    c.initediblk + l.geom.inopb ≤ l.ipg := by
  obtain ⟨a, ha⟩ := hok.inited_dvd
  obtain ⟨b, hb⟩ := l.inopb_dvd_ipg
  rw [ha, hb] at hlt ⊢
  have hab : a < b := Nat.lt_of_mul_lt_mul_left hlt
  calc l.geom.inopb * a + l.geom.inopb = l.geom.inopb * (a + 1) := (Nat.mul_succ _ _).symm
    _ ≤ l.geom.inopb * b := Nat.mul_le_mul_left _ hab

end Group

end EmbeddedOs.Ddfs
