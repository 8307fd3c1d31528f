import EmbeddedOs.Ddfs.InodeMap

/-!
# Allocation of inodes

Every inode that `ffs_nodealloccg` hands out was free and is initialised, whichever thread wrote
its block. The exception is a group that cannot be read again behind that write: the code returns
the error as if it were the number of an inode.
-/

namespace EmbeddedOs.Ddfs

open Lib BitMap

/-- What holds of the inodes of all groups between two operations. -/
structure InodesGood (l : FsLayout) (s : Groups) : Prop where
  /-- The inodes of each group. -/
  group : ∀ c, c < l.ncg → InodesOk l (s.cg c)
  /-- There is no inode 0. -/
  zero : s.inodeUsed l 0 = true

/-- The same inodes are used, and the same fragments are free. -/
structure SameUsed (l : FsLayout) (s s' : Groups) : Prop where
  used : ∀ ino, s'.inodeUsed l ino = s.inodeUsed l ino
  free : ∀ d, s'.free l d = s.free l d
  cs : s'.cs = s.cs

/-- An inode is allocated, and no other inode and no fragment changes. -/
structure TakesInode (l : FsLayout) (s s' : Groups) (ino : ℕ) : Prop where
  /-- It is an inode of the file system. -/
  lt : ino < l.ipg * l.ncg
  /-- It was free. -/
  was : s.inodeUsed l ino = false
  /-- It is all that is used more. -/
  used : ∀ i, s'.inodeUsed l i = (i == ino || s.inodeUsed l i)
  /-- It is initialised. -/
  inited : ino % l.ipg < (s'.cg (ino / l.ipg)).initediblk
  /-- The free map is as before. -/
  free : ∀ d, s'.free l d = s.free l d

section Macros

variable {l : FsLayout} {s s' t : Groups} {cg i ino : ℕ} {c' : Cg} {dir : Bool}

theorem ino_div (hi : i < l.ipg) : (cg * l.ipg + i) / l.ipg = cg := by
  rw [Nat.mul_comm, Nat.mul_add_div l.ipg_pos, Nat.div_eq_of_lt hi, Nat.add_zero]

theorem ino_mod (hi : i < l.ipg) : (cg * l.ipg + i) % l.ipg = i := by
  rw [Nat.mul_comm, Nat.mul_add_mod, Nat.mod_eq_of_lt hi]

theorem inodeUsed_setCg : (s.setCg cg c').inodeUsed l ino =
    if ino / l.ipg = cg then c'.inosused.isset (ino % l.ipg) else s.inodeUsed l ino := by
  unfold Groups.inodeUsed
  by_cases h : ino / l.ipg = cg
  · rw [if_pos h, h, Groups.cg_setCg_self]
  · rw [if_neg h, Groups.cg_setCg_of_ne _ _ _ h]

theorem shift_inodes (d e : ℤ) :
    Shift fun cs => { cs with nifree := cs.nifree + d, ndir := cs.ndir + e } := by
  intro φ hφ
  simp only [csumFields, List.mem_cons, List.not_mem_nil, or_false] at hφ
  rcases hφ with rfl | rfl | rfl | rfl
  · exact ⟨e, fun _ => rfl⟩
  · exact ⟨0, fun x => (Int.add_zero _).symm⟩
  · exact ⟨d, fun _ => rfl⟩
  · exact ⟨0, fun x => (Int.add_zero _).symm⟩

theorem shift_inodeTaken (dir : Bool) : Shift (inodeTaken dir) := by
  cases dir with
  | true => exact shift_inodes (-1) 1
  | false =>
    have heq : inodeTaken false = fun cs : Csum =>
        { cs with nifree := cs.nifree + -1, ndir := cs.ndir + 0 } := by
      funext cs
      simp [inodeTaken, sub_eq_add_neg]
    rw [heq]
    exact shift_inodes (-1) 0

theorem shift_inodeFreed (dir : Bool) : Shift (inodeFreed dir) := by
  cases dir with
  | true => exact shift_inodes 1 (-1)
  | false =>
    have heq : inodeFreed false = fun cs : Csum =>
        { cs with nifree := cs.nifree + 1, ndir := cs.ndir + 0 } := by
      funext cs
      simp [inodeFreed]
    rw [heq]
    exact shift_inodes 1 0

/-- A write of the inodes of a group keeps the invariant of the free maps. -/
theorem Good.writeInodes (hgood : Good l s) (hcg : cg < l.ncg) {f : Csum → Csum} (hf : Shift f)
    (hok : GroupOk l cg c') (hcs : c'.cs = f (s.cg cg).cs)
    (hsum : c'.clustersum = (s.cg cg).clustersum) (hfree : c'.blksfree = (s.cg cg).blksfree) :
    Good l ((s.account cg f).setCg cg c') ∧
      ∀ d, ((s.account cg f).setCg cg c').free l d = s.free l d := by
  refine ⟨hgood.writeLoose hcg hf hok hcs hsum ?_, fun d => ?_⟩
  · refine hgood.zero_of_subset fun i hi => ?_
    rwa [hfree] at hi
  · rw [free_setCg]
    split
    · rename_i h
      rw [hfree, Groups.free, h]
    · rfl

/-- The same for the invariant of the inodes. -/
theorem InodesGood.write (hinodes : InodesGood l s) (hok : InodesOk l c') (f : Csum → Csum)
    (hzero : cg = 0 → c'.inosused.isset 0 = true) :
    InodesGood l ((s.account cg f).setCg cg c') := by
  constructor
  · intro b hb
    by_cases h : b = cg
    · subst b
      rw [Groups.cg_setCg_self]
      exact hok
    · rw [Groups.cg_setCg_of_ne _ _ _ h]
      exact hinodes.group b hb
  · have hg0 : 0 / l.ipg = 0 := Nat.zero_div _
    have hz : 0 % l.ipg = 0 := Nat.zero_mod _
    rw [inodeUsed_setCg, hg0, hz]
    split
    · rename_i h
      exact hzero h.symm
    · exact hinodes.zero

/-- Operations on the blocks keep what holds of the inodes. -/
theorem InodesGood.same (hinodes : InodesGood l s) (h : ∀ c, SameInodes (s.cg c) (s'.cg c)) :
    InodesGood l s' := by
  refine ⟨fun c hc => (hinodes.group c hc).same (h c), ?_⟩
  have hzero := hinodes.zero
  unfold Groups.inodeUsed at hzero ⊢
  rw [(h _).inosused]
  exact hzero

end Macros

section Turns

variable {l : FsLayout} {s s' t : Groups} {cg i ino old ipref : ℕ} {dir : Bool}

theorem inopb_pos (l : FsLayout) : 0 < l.geom.inopb := by
  obtain ⟨k, hk⟩ := l.inopb_dvd_ipg
  have hpos := l.ipg_pos
  rcases Nat.eq_zero_or_pos l.geom.inopb with h | h
  · rw [hk, h, Nat.zero_mul] at hpos
    exact absurd hpos (Nat.lt_irrefl 0)
  · exact h

theorem SameUsed.trans (h : SameUsed l s t) (h' : SameUsed l t s') : SameUsed l s s' :=
  ⟨fun i => (h'.used i).trans (h.used i), fun d => (h'.free d).trans (h.free d),
    h'.cs.trans h.cs⟩

theorem SameUsed.takesInode (h : SameUsed l s t) (h' : TakesInode l t s' ino) :
    TakesInode l s s' ino := by
  refine ⟨h'.lt, (h.used ino).symm.trans h'.was, fun i => ?_, h'.inited,
    fun d => (h'.free d).trans (h.free d)⟩
  rw [h'.used, h.used]

/-- A free inode that is initialised is allocated. -/
theorem takesInode (hgood : Good l s) (hinodes : InodesGood l s) (hcg : cg < l.ncg)
    (hi : i < l.ipg) (hclr : (s.cg cg).inosused.isset i = false)
    (hinit : i < (s.cg cg).initediblk) (dir : Bool) :
    ∃ s', (s.account cg (inodeTaken dir)).setCg cg (takeInode (s.cg cg) i dir) = s' ∧
      Good l s' ∧ InodesGood l s' ∧ TakesInode l s s' (cg * l.ipg + i) := by
  have hok := hgood.group cg hcg
  have hok' : GroupOk l cg (takeInode (s.cg cg) i dir) :=
    hok.inodes i (s.cg cg).initediblk ((s.cg cg).inosused.setbit i) _ _
  obtain ⟨hgood', hfree⟩ :=
    hgood.writeInodes hcg (shift_inodeTaken dir) hok' rfl rfl rfl
  refine ⟨_, rfl, hgood', hinodes.write ((hinodes.group cg hcg).takeInode hi hclr hinit dir) _ ?_,
    ?_, ?_, fun ino => ?_, ?_, hfree⟩
  · rintro rfl
    have hzero := hinodes.zero
    have hg0 : 0 / l.ipg = 0 := Nat.zero_div _
    have hz : 0 % l.ipg = 0 := Nat.zero_mod _
    rw [Groups.inodeUsed, hg0, hz] at hzero
    have hmap : (takeInode (s.cg 0) i dir).inosused = (s.cg 0).inosused.setbit i := rfl
    rw [hmap, BitMap.isset_setbit, hzero, Bool.or_true]
  · have hmul : (cg + 1) * l.ipg ≤ l.ncg * l.ipg := Nat.mul_le_mul_right _ hcg
    rw [Nat.succ_mul, Nat.mul_comm l.ncg] at hmul
    omega
  · rw [Groups.inodeUsed, ino_div hi, ino_mod hi]
    exact hclr
  · rw [inodeUsed_setCg]
    have hmap : (takeInode (s.cg cg) i dir).inosused = (s.cg cg).inosused.setbit i := rfl
    have hdiv : ino / l.ipg * l.ipg + ino % l.ipg = ino := Nat.div_add_mod' ino l.ipg
    by_cases h : ino / l.ipg = cg
    · rw [if_pos h, hmap, BitMap.isset_setbit, Groups.inodeUsed, h]
      have hiff : (ino % l.ipg == i) = (ino == cg * l.ipg + i) := by
        rw [h] at hdiv
        rw [Bool.eq_iff_iff, beq_iff_eq, beq_iff_eq]
        omega
      rw [hiff]
    · have hne : (ino == cg * l.ipg + i) = false := beq_eq_false_iff_ne.mpr fun heq => h (by
        rw [heq, ino_div hi])
      rw [if_neg h, hne, Bool.false_or]
      rfl
  · rw [ino_div hi, ino_mod hi, Groups.cg_setCg_self]
    exact hinit

/-- The counter of the inodes that are initialised changes, and nothing else. -/
theorem setInited_spec (old : ℕ) (hgood : Good l s) (hinodes : InodesGood l s) (hcg : cg < l.ncg)
    (hlt : (s.cg cg).initediblk = old → old < l.ipg) :
    Good l (setInited l s cg old) ∧ InodesGood l (setInited l s cg old) ∧
      SameUsed l s (setInited l s cg old) ∧ ((s.cg cg).initediblk = old →
        ((setInited l s cg old).cg cg).initediblk = old + l.geom.inopb) := by
  have hok := hinodes.group cg hcg
  have hid : s.account cg (fun x => x) = s := by
    unfold Groups.account
    rw [Function.update_eq_self]
  have hdef : setInited l s cg old = (s.account cg fun x => x).setCg cg { s.cg cg with
      initediblk := if (s.cg cg).initediblk = old then (s.cg cg).initediblk + l.geom.inopb
        else (s.cg cg).initediblk } := by
    rw [hid]
    rfl
  have hshift : Shift fun x => x := fun φ _ => ⟨0, fun x => (Int.add_zero _).symm⟩
  rw [hdef]
  obtain ⟨hgood', hfree⟩ := hgood.writeInodes hcg hshift
    ((hgood.group cg hcg).inodes (s.cg cg).irotor
      (if (s.cg cg).initediblk = old then (s.cg cg).initediblk + l.geom.inopb
        else (s.cg cg).initediblk) (s.cg cg).inosused _ _) rfl rfl rfl
  refine ⟨hgood', ?_, ⟨fun ino => ?_, hfree, ?_⟩, fun h => ?_⟩
  · refine hinodes.write ?_ _ fun h => ?_
    · refine ⟨hok.niblk, hok.irotor_lt, hok.nifree, ?_, ?_, fun i hi hset => ?_⟩
      · simp only
        split
        · exact Nat.dvd_add hok.inited_dvd (Nat.dvd_refl _)
        · exact hok.inited_dvd
      · simp only
        split
        · rename_i h
          exact hok.inited_next (h ▸ hlt h)
        · exact hok.inited_le
      · have := hok.inited i hi hset
        simp only
        split
        · omega
        · exact this
    · have hzero := hinodes.zero
      have hg0 : 0 / l.ipg = 0 := Nat.zero_div _
      have hz : 0 % l.ipg = 0 := Nat.zero_mod _
      rw [Groups.inodeUsed, hg0, hz] at hzero
      rw [h]
      exact hzero
  · rw [inodeUsed_setCg]
    split
    · rename_i h
      rw [Groups.inodeUsed, h]
    · rfl
  · rw [hid]
    rfl
  · rw [Groups.cg_setCg_self]
    simp only [h, if_true]

/-- A turn of `ffs_nodealloccg` does not panic: it finds the group full exactly if it is, and
otherwise it chooses a free inode, which it allocates if it is initialised. -/
theorem nodeallocTurn_spec (hgood : Good l s) (hinodes : InodesGood l s) (hcg : cg < l.ncg)
    (ipref : ℕ) (dir : Bool) :
    ((s.cg cg).cs.nifree = 0 → nodeallocTurn l s cg ipref dir = some .full) ∧
    ((s.cg cg).cs.nifree ≠ 0 → ∃ i, pickInode l (s.cg cg) ipref = some i ∧ i < l.ipg ∧
      (s.cg cg).inosused.isset i = false ∧
      (nodeallocTurn l s cg ipref dir = some (.init i) ∧ (s.cg cg).initediblk < l.ipg ∨
        ∃ s', nodeallocTurn l s cg ipref dir = some (.done s' (cg * l.ipg + i)) ∧ Good l s' ∧
          InodesGood l s' ∧ TakesInode l s s' (cg * l.ipg + i))) := by
  have hok := hinodes.group cg hcg
  unfold nodeallocTurn
  constructor
  · intro hz
    simp only [hz, if_true]
  · intro hne
    obtain ⟨j, hj, hjfree⟩ := hok.exists_free hne
    have hsome := pickInode_ne_none ipref hok.irotor_lt hj hjfree
    obtain ⟨i, hpick⟩ := Option.ne_none_iff_exists'.mp hsome
    obtain ⟨hi, hclr⟩ := pickInode_some hok.irotor_lt hpick
    refine ⟨i, hpick, hi, hclr, ?_⟩
    simp only [hne, if_false, hpick]
    by_cases hinit : (s.cg cg).initediblk < i + l.geom.inopb ∧
        (s.cg cg).initediblk < (s.cg cg).niblk
    · left
      rw [if_pos hinit]
      exact ⟨rfl, hok.niblk ▸ hinit.2⟩
    · right
      have hlt : i < (s.cg cg).initediblk := by
        have hpos := inopb_pos l
        have hn := hok.niblk
        omega
      obtain ⟨s', heq, hgood', hinodes', htakes⟩ := takesInode hgood hinodes hcg hi hclr hlt dir
      rw [if_neg hinit, heq]
      exact ⟨s', rfl, hgood', hinodes', htakes⟩

/-- The preferred inode of a group is allocated, if it is not the first of the group. -/
def PrefersInode (l : FsLayout) (s : Groups) (cg ipref ino : ℕ) : Prop :=
  ipref % l.ipg ≠ 0 → (s.cg cg).inosused.isset (ipref % l.ipg) = false →
    ino = cg * l.ipg + ipref % l.ipg

theorem nodeallocTurns_spec (env : ℕ → InitBy) (dir : Bool) {n : ℕ} (hgood : Good l s)
    (hinodes : InodesGood l s) (hcg : cg < l.ncg) (hn : l.ipg < (s.cg cg).initediblk + n)
    (ipref : ℕ) :
    ∃ s' r, nodeallocTurns l env cg dir n s ipref = some (s', r) ∧ Good l s' ∧ InodesGood l s' ∧
      (TakesInode l s s' r ∧ r / l.ipg = cg ∧ PrefersInode l s cg ipref r ∨
        SameUsed l s s' ∧ (r = 0 ∧ ((s.cg cg).cs.nifree = 0 ∨ ∃ n, env n = .other false) ∨
          ∃ n, env n = .failed r)) := by
  induction n generalizing s ipref with
  | zero =>
    have := (hinodes.group cg hcg).inited_le
    omega
  | succ n ih =>
    obtain ⟨hfull, hsome⟩ := nodeallocTurn_spec hgood hinodes hcg ipref dir
    have hsame : SameUsed l s s := ⟨fun _ => rfl, fun _ => rfl, rfl⟩
    unfold nodeallocTurns
    by_cases hz : (s.cg cg).cs.nifree = 0
    · rw [hfull hz]
      exact ⟨s, 0, rfl, hgood, hinodes, .inr ⟨hsame, .inl ⟨rfl, .inl hz⟩⟩⟩
    obtain ⟨i, hpick, hi, hclr, hinit | hdone⟩ := hsome hz
    · obtain ⟨hturn, hlt⟩ := hinit
      obtain ⟨hgood', hinodes', hused, hnext⟩ :=
        setInited_spec (s.cg cg).initediblk hgood hinodes hcg fun _ => hlt
      have hpos := inopb_pos l
      -- the group behind the write of a block of inodes
      have hcont : ∃ s' r, nodeallocTurns l env cg dir n (setInited l s cg (s.cg cg).initediblk) i =
          some (s', r) ∧ Good l s' ∧ InodesGood l s' ∧
          (TakesInode l s s' r ∧ r / l.ipg = cg ∧ PrefersInode l s cg ipref r ∨
            SameUsed l s s' ∧ (r = 0 ∧ ((s.cg cg).cs.nifree = 0 ∨ ∃ n, env n = .other false) ∨
              ∃ n, env n = .failed r)) := by
        obtain ⟨s', r, heq, hgood'', hinodes'', hres⟩ :=
          ih hgood' hinodes' (by rw [hnext rfl]; omega) i
        have hcgs : ((setInited l s cg (s.cg cg).initediblk).cg cg).inosused =
            (s.cg cg).inosused := by
          rw [setInited, Groups.cg_setCg_self]
        have hnifree : ((setInited l s cg (s.cg cg).initediblk).cg cg).cs.nifree =
            (s.cg cg).cs.nifree := by
          rw [setInited, Groups.cg_setCg_self]
        refine ⟨s', r, heq, hgood'', hinodes'', ?_⟩
        rcases hres with ⟨htakes, hdiv, hpref⟩ | ⟨hsame', hr⟩
        · refine .inl ⟨hused.takesInode htakes, hdiv, fun hne hfree => ?_⟩
          have hne' : ipref ≠ 0 := by
            rintro rfl
            exact hne (Nat.zero_mod _)
          rw [pickInode_pref hne' hfree] at hpick
          obtain rfl := Option.some.inj hpick
          have hmod : ipref % l.ipg % l.ipg = ipref % l.ipg := Nat.mod_mod _ _
          have hpref' := hpref (by rwa [hmod]) (by rwa [hmod, hcgs])
          rwa [hmod] at hpref'
        · rw [hnifree] at hr
          exact .inr ⟨hused.trans hsame', hr⟩
      rw [hturn]
      cases henv : env n with
      | failed error => exact ⟨s, error, rfl, hgood, hinodes, .inr ⟨hsame, .inr ⟨n, henv⟩⟩⟩
      | self => exact hcont
      | other readable =>
        have hcs : ((setInited l s cg (s.cg cg).initediblk).cs cg).nifree ≠ 0 := by
          rw [hused.cs, hgood.cs cg hcg]
          exact hz
        cases readable with
        | true =>
          simp only [hcs, false_or, Bool.true_eq_false, if_false]
          exact hcont
        | false =>
          simp only [or_true, if_true]
          exact ⟨_, 0, rfl, hgood', hinodes', .inr ⟨hused, .inl ⟨rfl, .inr ⟨n, henv⟩⟩⟩⟩
    · obtain ⟨s', hturn, hgood', hinodes', htakes⟩ := hdone
      rw [hturn]
      refine ⟨s', _, rfl, hgood', hinodes', .inl ⟨htakes, ino_div hi, fun hne hfree => ?_⟩⟩
      have hne' : ipref ≠ 0 := by
        rintro rfl
        exact hne (Nat.zero_mod _)
      rw [pickInode_pref hne' hfree] at hpick
      rw [Option.some.inj hpick]

/-- `ffs_nodealloccg` does not panic and comes to an end. Either it allocates an inode of the group
that was free, is initialised, and is the preferred one if that is possible, or the inodes that are
used and the free map are as before: then it returns 0 if the group is full or cannot be read, and
the error of a group that cannot be read behind the write of its inodes. -/
theorem ffsNodealloccg_spec (readable : ℕ → Bool) (env : ℕ → InitBy) (dir : Bool)
    (hgood : Good l s) (hinodes : InodesGood l s) (hcg : cg < l.ncg) (ipref : ℕ) :
    ∃ s' r, ffsNodealloccg l readable env s cg ipref dir = some (s', r) ∧ Good l s' ∧
      InodesGood l s' ∧
      (TakesInode l s s' r ∧ r / l.ipg = cg ∧ PrefersInode l s cg ipref r ∨
        SameUsed l s s' ∧ (r = 0 ∧ ((s.cg cg).cs.nifree = 0 ∨ readable cg = false ∨
          ∃ n, env n = .other false) ∨ ∃ n, env n = .failed r)) := by
  have hsame : SameUsed l s s := ⟨fun _ => rfl, fun _ => rfl, rfl⟩
  unfold ffsNodealloccg
  by_cases hz : (s.cs cg).nifree = 0
  · rw [if_pos hz]
    rw [hgood.cs cg hcg] at hz
    exact ⟨s, 0, rfl, hgood, hinodes, .inr ⟨hsame, .inl ⟨rfl, .inl hz⟩⟩⟩
  rw [if_neg hz, ffsGetcg_eq readable (hgood.group cg hcg)]
  cases hread : readable cg with
  | false => exact ⟨s, 0, rfl, hgood, hinodes, .inr ⟨hsame, .inl ⟨rfl, .inr (.inl rfl)⟩⟩⟩
  | true =>
    simp only [if_true]
    obtain ⟨s', r, heq, hgood', hinodes', hres⟩ :=
      nodeallocTurns_spec env dir hgood hinodes hcg (n := l.ipg + 1) (by omega) ipref
    refine ⟨s', r, heq, hgood', hinodes', ?_⟩
    rcases hres with htakes | ⟨hsame', ⟨hr, hwhy⟩ | herr⟩
    · exact .inl htakes
    · refine .inr ⟨hsame', .inl ⟨hr, ?_⟩⟩
      rcases hwhy with h | h
      · exact .inl h
      · exact .inr (.inr h)
    · exact .inr ⟨hsame', .inr herr⟩

/-- An inode is freed, and no other inode and no fragment changes. -/
structure GivesInode (l : FsLayout) (s s' : Groups) (ino : ℕ) : Prop where
  /-- It was used. -/
  was : s.inodeUsed l ino = true
  /-- It is all that is not used any more. -/
  used : ∀ i, s'.inodeUsed l i = (i != ino && s.inodeUsed l i)
  /-- The free map is as before. -/
  free : ∀ d, s'.free l d = s.free l d

/-- `ffs_freefile` of an inode that is used frees it. The code panics if the inode is free, and
nothing changes if its group cannot be read. -/
theorem ffsFreefile_spec (readable : ℕ → Bool) (dir : Bool) (hgood : Good l s)
    (hinodes : InodesGood l s) (hino : ino < l.ipg * l.ncg) (hne : ino ≠ 0) :
    (readable (ino / l.ipg) = true → s.inodeUsed l ino = true →
      ∃ s', ffsFreefile l readable false s ino dir = some (s', true) ∧ Good l s' ∧
        InodesGood l s' ∧ GivesInode l s s' ino) ∧
    (readable (ino / l.ipg) = true → s.inodeUsed l ino = false →
      ffsFreefile l readable false s ino dir = none) ∧
    (readable (ino / l.ipg) = false →
      ffsFreefile l readable false s ino dir = some (s, false)) := by
  have hcg : ino / l.ipg < l.ncg := Nat.div_lt_of_lt_mul hino
  have hok := hgood.group _ hcg
  have hi := hinodes.group _ hcg
  have hlt : ino % l.ipg < l.ipg := Nat.mod_lt _ l.ipg_pos
  have hrange : ¬ l.ipg * l.ncg ≤ ino := Nat.not_le_of_lt hino
  unfold ffsFreefile
  simp only [if_neg hrange, ffsGetcg_eq readable hok]
  refine ⟨fun hread hused => ?_, fun hread hfree => ?_, fun hread => ?_⟩
  · have hset : (s.cg (ino / l.ipg)).inosused.isset (ino % l.ipg) = true := hused
    simp only [hread, if_true, hset, Bool.not_true, Bool.false_eq_true, false_and, if_false]
    refine ⟨_, rfl, ?_⟩
    obtain ⟨hgood', hfree⟩ := hgood.writeInodes hcg (shift_inodeFreed dir)
      (hok.inodes (if ino % l.ipg < (s.cg (ino / l.ipg)).irotor then ino % l.ipg
        else (s.cg (ino / l.ipg)).irotor) (s.cg (ino / l.ipg)).initediblk
        ((s.cg (ino / l.ipg)).inosused.clrbit (ino % l.ipg))
        (inodeFreed dir (s.cg (ino / l.ipg)).cs).ndir
        (inodeFreed dir (s.cg (ino / l.ipg)).cs).nifree) rfl rfl rfl
    refine ⟨hgood', hinodes.write ?_ _ fun h0 => ?_, hused, fun j => ?_, hfree⟩
    · refine ⟨hi.niblk, ?_, ?_, hi.inited_dvd, hi.inited_le, fun j hj hjset => ?_⟩
      · simp only
        split
        · exact hlt
        · exact hi.irotor_lt
      · have hcount := freeInodes_clrbit hlt hset
        simp only
        rw [hcount, ← hi.nifree]
        rfl
      · simp only [BitMap.isset_clrbit, Bool.and_eq_true] at hjset
        exact hi.inited j hj hjset.2
    · have hzero := hinodes.zero
      have hg0 : 0 / l.ipg = 0 := Nat.zero_div _
      have hz : 0 % l.ipg = 0 := Nat.zero_mod _
      have hdiv : ino / l.ipg * l.ipg + ino % l.ipg = ino := Nat.div_add_mod' ino l.ipg
      rw [Groups.inodeUsed, hg0, hz] at hzero
      rw [h0, Nat.zero_mul, Nat.zero_add] at hdiv
      have hne' : (0 != ino % l.ipg) = true := by
        rw [hdiv]
        exact bne_iff_ne.mpr (Ne.symm hne)
      simp only
      rw [BitMap.isset_clrbit, hne', Bool.true_and, h0]
      exact hzero
    · rw [inodeUsed_setCg]
      have hdivj : j / l.ipg * l.ipg + j % l.ipg = j := Nat.div_add_mod' j l.ipg
      have hdiv : ino / l.ipg * l.ipg + ino % l.ipg = ino := Nat.div_add_mod' ino l.ipg
      by_cases h : j / l.ipg = ino / l.ipg
      · rw [if_pos h]
        simp only
        rw [BitMap.isset_clrbit, Groups.inodeUsed, h]
        have hiff : (j % l.ipg != ino % l.ipg) = (j != ino) := by
          rw [h] at hdivj
          rw [Bool.eq_iff_iff, bne_iff_ne, bne_iff_ne]
          omega
        rw [hiff]
      · have hne' : (j != ino) = true := bne_iff_ne.mpr fun heq => h (by rw [heq])
        rw [if_neg h, hne', Bool.true_and]
        rfl
  · have hclr : (s.cg (ino / l.ipg)).inosused.isset (ino % l.ipg) = false := hfree
    simp only [hread, if_true, hclr, Bool.not_false, and_self]
  · simp only [hread, Bool.false_eq_true, if_false]

end Turns

end EmbeddedOs.Ddfs
