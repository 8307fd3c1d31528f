import EmbeddedOs.Ddfs.ClusterAlloc
import EmbeddedOs.Ddfs.InodeCalls
import EmbeddedOs.Lib.Machine

/-!
# Runs of the cylinder groups

Any number of files allocate and free at the same time. The buffer of a group is locked while an
operation has the group, so that a run is a sequence of operations on single groups, in any order;
a search over the groups and the initialisation of inodes are several of them. Whoever calls frees
and extends only what it has.
-/

namespace EmbeddedOs.Ddfs

open Lib

/-- The groups, and who has the fragments and inodes that are handed out. -/
structure Held (ι : Type) where
  /-- The groups. -/
  groups : Groups
  /-- The owners of the fragments. -/
  owner : ℕ → Option ι
  /-- The owners of the inodes. -/
  inode : ℕ → Option ι
  /-- The blocks of inodes that threads are writing: the group and the first inode. -/
  pending : List (ℕ × ℕ)

/-- An operation of `f` on a group, with the groups that can be read. -/
inductive GroupCall (ι : Type) where
  /-- `ffs_alloccg`. -/
  | alloc (f : ι) (readable : ℕ → Bool) (cg bpref size rsize : ℕ)
  /-- `ffs_fragextend`, from `o` to `n` fragments. -/
  | extend (f : ι) (readable : ℕ → Bool) (bprev o n : ℕ)
  /-- `ffs_clusteralloc`. -/
  | cluster (f : ι) (readable : ℕ → Bool) (cg bpref len : ℕ)
  /-- `ffs_blkfree_cg` of `n` fragments. -/
  | free (f : ι) (readable : ℕ → Bool) (bno n : ℕ)
  /-- `ffs_nodealloccg` up to where it gives up the group. -/
  | inode (f : ι) (readable : ℕ → Bool) (cg ipref : ℕ) (dir : Bool)
  /-- `ffs_nodealloccg` behind the write of the inodes from `old` on. -/
  | inited (cg old : ℕ)
  /-- `ffs_freefile`. -/
  | freefile (f : ι) (readable : ℕ → Bool) (ino : ℕ) (dir : Bool)

/-- `n` places at `r` go to `v`. -/
def own {ι : Type} (owner : ℕ → Option ι) (r n : ℕ) (v : Option ι) : ℕ → Option ι :=
  fun d => if r ≤ d ∧ d < r + n then v else owner d

namespace Held

variable {ι : Type} (l : FsLayout) (s : Held ι)

/-- The piece that an allocation returns goes to `f`, unless it is 0. -/
def grant (g : Groups) (r first n : ℕ) (f : ι) : Held ι :=
  if r = 0 then { s with groups := g }
  else { s with groups := g, owner := own s.owner first n (some f) }

/-- What an operation does; it is none where the code panics. -/
def run : GroupCall ι → Option (Held ι)
  | .alloc f readable cg bpref size rsize =>
    (ffsAlloccg l readable s.groups cg bpref size rsize).map fun p =>
      s.grant p.1 p.2 p.2 (l.numfrags rsize) f
  | .extend f readable bprev o n =>
    let p := ffsFragextend l readable s.groups (l.dtog bprev) bprev (o * l.geom.fsize)
      (n * l.geom.fsize)
    some (s.grant p.1 p.2 (bprev + o) (n - o) f)
  | .cluster f readable cg bpref len =>
    (ffsClusteralloc l readable s.groups cg bpref len).map fun p =>
      s.grant p.1 p.2 p.2 (len * l.frag) f
  | .free _ readable bno n =>
    (ffsBlkfreeCg l readable s.groups bno (n * l.geom.fsize)).map fun g =>
      -- a piece of a group that cannot be read is lost, not free
      if readable (l.dtog bno) then { s with groups := g, owner := own s.owner bno n none }
      else { s with groups := g }
  | .inode f readable cg ipref dir =>
    if (s.groups.cs cg).nifree = 0 ∨ readable cg = false then some s
    else
      match nodeallocTurn l s.groups cg ipref dir with
      | none => none
      | some .full => some s
      | some (.init _) =>
        some { s with pending := (cg, (s.groups.cg cg).initediblk) :: s.pending }
      | some (.done g ino) =>
        some { s with groups := g, inode := Function.update s.inode ino (some f) }
  | .inited cg old =>
    some { s with
      groups := setInited l s.groups cg old
      pending := s.pending.filter (· ≠ (cg, old)) }
  | .freefile _ readable ino dir =>
    (ffsFreefile l readable false s.groups ino dir).map fun p =>
      if p.2 then { s with groups := p.1, inode := Function.update s.inode ino none }
      else { s with groups := p.1 }

/-- What the callers keep to: groups of the file system, requests within a block, and pieces and
inodes that they have. -/
def Permits : GroupCall ι → Prop
  | .alloc _ _ cg _ size rsize => cg < l.ncg ∧ SizeOk l size rsize
  | .extend f _ bprev o n => 1 ≤ o ∧ o < n ∧ n ≤ l.frag ∧ bprev % l.frag + o ≤ l.frag ∧
      ∀ i, i < o → s.owner (bprev + i) = some f
  | .cluster _ _ cg _ len => cg < l.ncg ∧ 1 ≤ len
  | .free f _ bno n => 1 ≤ n ∧ bno % l.frag + n ≤ l.frag ∧
      ∀ i, i < n → s.owner (bno + i) = some f
  | .inode _ _ cg _ _ => cg < l.ncg
  | .inited cg old => (cg, old) ∈ s.pending
  | .freefile f _ ino _ => s.inode ino = some f

end Held

/-- What holds at all times of a run that begins with the groups `g₀`. -/
structure HeldOk {ι : Type} (l : FsLayout) (g₀ : Groups) (s : Held ι) : Prop where
  /-- The free maps. -/
  good : Good l s.groups
  /-- The inodes. -/
  inodes : InodesGood l s.groups
  /-- A fragment is free exactly if it was at first, and nobody has it. -/
  free : ∀ d, s.groups.free l d = (g₀.free l d && (s.owner d).isNone)
  /-- What somebody has was free at first. -/
  owner : ∀ d, s.owner d ≠ none → l.dtog d < l.ncg ∧ g₀.free l d = true
  /-- An inode is used exactly if it was at first, or somebody has it. -/
  used : ∀ ino, s.groups.inodeUsed l ino = (g₀.inodeUsed l ino || (s.inode ino).isSome)
  /-- An inode that somebody has was not used at first. -/
  inode : ∀ ino, s.inode ino ≠ none → ino < l.ipg * l.ncg ∧ g₀.inodeUsed l ino = false
  /-- Inodes that are being written are in a group. -/
  pending : ∀ p ∈ s.pending, p.1 < l.ncg ∧ p.2 < l.ipg

/-- A step hands out only what nobody had. -/
structure HandsOver {ι : Type} (s t : Held ι) : Prop where
  owner : ∀ d, t.owner d = s.owner d ∨ s.owner d = none ∨ t.owner d = none
  inode : ∀ ino, t.inode ino = s.inode ino ∨ s.inode ino = none ∨ t.inode ino = none

section Steps

variable {ι : Type} {l : FsLayout} {s t : Held ι} {g₀ g : Groups} {f : ι} {first n r : ℕ}

theorem own_of_mem {owner : ℕ → Option ι} {v : Option ι} {d : ℕ} (h : r ≤ d ∧ d < r + n) :
    own owner r n v d = v := if_pos h

theorem own_of_not_mem {owner : ℕ → Option ι} {v : Option ι} {d : ℕ}
    (h : ¬ (r ≤ d ∧ d < r + n)) : own owner r n v d = owner d := if_neg h

/-- A piece that was free, and is not any more, can be granted. -/
theorem HeldOk.grant (h : HeldOk l g₀ s) (hgood : Good l g)
    (hinodes : ∀ c, SameInodes (s.groups.cg c) (g.cg c))
    (hkeep : r = 0 → ∀ d, g.free l d = s.groups.free l d)
    (hwas : r ≠ 0 → ∀ i, i < n → s.groups.free l (first + i) = true ∧ l.dtog (first + i) < l.ncg)
    (hfree : r ≠ 0 → ∀ d, g.free l d =
      (!decide (first ≤ d ∧ d < first + n) && s.groups.free l d)) :
    HeldOk l g₀ (s.grant g r first n f) ∧ HandsOver s (s.grant g r first n f) := by
  have hused : ∀ ino, g.inodeUsed l ino = (g₀.inodeUsed l ino || (s.inode ino).isSome) :=
    fun ino => by
      rw [← h.used, Groups.inodeUsed, (hinodes _).inosused]
      rfl
  unfold Held.grant
  by_cases hr : r = 0
  · rw [if_pos hr]
    exact ⟨⟨hgood, h.inodes.same hinodes, fun d => (hkeep hr d).trans (h.free d), h.owner, hused,
      h.inode, h.pending⟩, fun _ => .inl rfl, fun _ => .inl rfl⟩
  · rw [if_neg hr]
    have hpiece : ∀ d, first ≤ d ∧ d < first + n →
        (g₀.free l d = true ∧ s.owner d = none) ∧ l.dtog d < l.ncg := by
      intro d hin
      obtain ⟨hset, hdtog⟩ := hwas hr (d - first) (by omega)
      rw [Nat.add_sub_cancel' hin.1] at hset hdtog
      rw [h.free, Bool.and_eq_true, Option.isNone_iff_eq_none] at hset
      exact ⟨hset, hdtog⟩
    refine ⟨⟨hgood, h.inodes.same hinodes, fun d => ?_, fun d hd => ?_, hused, h.inode,
      h.pending⟩, fun d => ?_, fun _ => .inl rfl⟩
    · simp only
      rw [hfree hr, h.free]
      by_cases hin : first ≤ d ∧ d < first + n
      · rw [own_of_mem hin, decide_eq_true hin, Option.isNone_some, Bool.and_false]
        rfl
      · rw [own_of_not_mem hin, decide_eq_false hin, Bool.not_false, Bool.true_and]
    · simp only at hd
      by_cases hin : first ≤ d ∧ d < first + n
      · exact ⟨(hpiece d hin).2, (hpiece d hin).1.1⟩
      · rw [own_of_not_mem hin] at hd
        exact h.owner d hd
    · by_cases hin : first ≤ d ∧ d < first + n
      · exact .inr (.inl (hpiece d hin).1.2)
      · exact .inl (own_of_not_mem hin)

/-- The fragments of a piece are in its group. -/
theorem dtog_piece (l : FsLayout) {r n i : ℕ} (hfits : r % l.frag + n ≤ l.frag) (hi : i < n) :
    l.dtog (r + i) = l.dtog r := by
  have hle := piece_le_fpg l (l.dtogd_lt r) (n := n) (by rwa [l.dtogd_mod])
  have hbase := l.cgbase_dtog r
  have heq : r + i = l.cgbase (l.dtog r) + (l.dtogd r + i) := by omega
  rw [heq, l.dtog_cgbase (by omega)]

/-- What somebody has is not free, and in the file system behind the boot block. -/
theorem HeldOk.held (h : HeldOk l g₀ s) (hgood₀ : Good l g₀) {d : ℕ} (hd : s.owner d = some f) :
    s.groups.free l d = false ∧ d < l.size ∧ d ≠ 0 := by
  obtain ⟨hdtog, hset⟩ := h.owner d (by rw [hd]; simp)
  refine ⟨?_, hgood₀.lt_size hdtog hset, ?_⟩
  · rw [h.free, hd, Option.isNone_some, Bool.and_false]
  · rintro rfl
    exact absurd (hset.symm.trans hgood₀.zero) (by decide)

theorem HeldOk.alloc (h : HeldOk l g₀ s) (readable : ℕ → Bool) {cg size rsize : ℕ} (bpref : ℕ)
    (hp : s.Permits l (.alloc f readable cg bpref size rsize)) :
    ∃ t, s.run l (.alloc f readable cg bpref size rsize) = some t ∧ HeldOk l g₀ t ∧
      HandsOver s t := by
  obtain ⟨hcg, hsize⟩ := hp
  obtain ⟨g, r, heq, hgood, hyes, hno⟩ := ffsAlloccg_spec readable h.good hcg bpref hsize
  have hrun : s.run l (.alloc f readable cg bpref size rsize) =
      some (s.grant g r r (l.numfrags rsize) f) := by
    rw [Held.run, heq]
    rfl
  refine ⟨_, hrun, ?_⟩
  by_cases hroom : readable cg = true ∧ HasRoom l (s.groups.cg cg).blksfree (l.numfrags size)
  · obtain ⟨hr, hdtog, htakes⟩ := hyes hroom
    refine h.grant hgood htakes.inodes (fun hz => absurd hz hr) (fun _ i hi => ?_)
      fun _ => htakes.free
    refine ⟨htakes.was i hi, ?_⟩
    rw [dtog_piece l htakes.fits hi, hdtog]
    exact hcg
  · obtain ⟨rfl, rfl⟩ := hno hroom
    exact h.grant hgood (fun c => SameInodes.refl _) (fun _ _ => rfl)
      (fun hz => absurd rfl hz) fun hz => absurd rfl hz

theorem HeldOk.extend (h : HeldOk l g₀ s) (hgood₀ : Good l g₀) (readable : ℕ → Bool)
    {bprev o : ℕ} (hp : s.Permits l (.extend f readable bprev o n)) :
    ∃ t, s.run l (.extend f readable bprev o n) = some t ∧ HeldOk l g₀ t ∧ HandsOver s t := by
  obtain ⟨ho, hon, hn, hfits, hown⟩ := hp
  obtain ⟨-, hlt, hne⟩ := h.held hgood₀ (hown 0 ho)
  have hcg : l.dtog bprev < l.ncg := l.dtog_lt hlt
  obtain ⟨g, r, heq, hgood, hyes, hno⟩ := ffsFragextend_spec readable h.good hcg ho hon hn hfits
    (h.held hgood₀ (hown (o - 1) (by omega))).1
  have hrun : s.run l (.extend f readable bprev o n) =
      some (s.grant g r (bprev + o) (n - o) f) := by
    rw [Held.run, heq]
  refine ⟨_, hrun, ?_⟩
  by_cases hcan : readable (l.dtog bprev) = true ∧ bprev % l.frag + n ≤ l.frag ∧
      ∀ i, o ≤ i → i < n → s.groups.free l (bprev + i) = true
  · obtain ⟨rfl, htakes⟩ := hyes hcan
    refine h.grant hgood htakes.inodes (fun hz => absurd hz hne) (fun _ i hi => ?_)
      fun _ => htakes.free
    refine ⟨htakes.was i hi, ?_⟩
    rw [Nat.add_assoc, dtog_piece l hcan.2.1 (by omega)]
    exact hcg
  · obtain ⟨rfl, rfl⟩ := hno hcan
    exact h.grant hgood (fun c => SameInodes.refl _) (fun _ _ => rfl)
      (fun hz => absurd rfl hz) fun hz => absurd rfl hz

theorem HeldOk.cluster (h : HeldOk l g₀ s) (readable : ℕ → Bool) {cg len : ℕ} (bpref : ℕ)
    (hp : s.Permits l (.cluster f readable cg bpref len)) :
    ∃ t, s.run l (.cluster f readable cg bpref len) = some t ∧ HeldOk l g₀ t ∧ HandsOver s t := by
  obtain ⟨hcg, hlen⟩ := hp
  obtain ⟨g, r, heq, hgood, hno, hyes⟩ := ffsClusteralloc_spec readable h.good hcg bpref hlen
  have hrun : s.run l (.cluster f readable cg bpref len) =
      some (s.grant g r r (len * l.frag) f) := by
    rw [Held.run, heq]
    rfl
  refine ⟨_, hrun, ?_⟩
  by_cases hr : r = 0
  · have hcgs := (hno hr).1
    refine h.grant hgood (fun c => ?_) (fun _ d => ?_) (fun hz => absurd hr hz)
      fun hz => absurd hr hz
    · rw [hcgs]
      exact SameInodes.refl _
    · rw [Groups.free, hcgs]
      rfl
  · obtain ⟨b, -, hb, hend, htakes, -⟩ := hyes hr
    refine h.grant hgood htakes.inodes (fun hz => absurd hz hr) (fun _ i hi => ?_)
      fun _ => htakes.free
    refine ⟨htakes.was i hi, ?_⟩
    have hmul : (b + len) * l.frag ≤ l.blocks * l.frag := Nat.mul_le_mul_right _ hend
    rw [l.blocks_mul, Nat.add_mul] at hmul
    rw [hb, Nat.add_assoc, l.dtog_cgbase (by omega)]
    exact hcg

theorem HeldOk.free_piece (h : HeldOk l g₀ s) (hgood₀ : Good l g₀) (readable : ℕ → Bool)
    {bno : ℕ} (hp : s.Permits l (.free f readable bno n)) :
    ∃ t, s.run l (.free f readable bno n) = some t ∧ HeldOk l g₀ t ∧ HandsOver s t := by
  obtain ⟨h1, hfits, hown⟩ := hp
  have hne : bno ≠ 0 := (h.held hgood₀ (d := bno) (hown 0 h1)).2.2
  have hend := (h.held hgood₀ (hown (n - 1) (by omega))).2.1
  obtain ⟨-, hfree, hunread⟩ := ffsBlkfreeCg_spec readable h.good hne h1 hfits (by omega)
  simp only [Held.run]
  cases hread : readable (l.dtog bno) with
  | false =>
    rw [hunread hread]
    exact ⟨s, rfl, h, fun _ => .inl rfl, fun _ => .inl rfl⟩
  | true =>
    obtain ⟨g, heq, hgood, hgives⟩ := hfree hread fun i hi => (h.held hgood₀ (hown i hi)).1
    rw [heq]
    refine ⟨_, rfl, ?_⟩
    simp only [if_true]
    refine ⟨⟨hgood, h.inodes.same hgives.inodes, fun d => ?_, fun d hd => ?_, fun ino => ?_,
      h.inode, h.pending⟩, fun d => ?_, fun _ => .inl rfl⟩
    · simp only
      rw [hgives.free, h.free]
      by_cases hin : bno ≤ d ∧ d < bno + n
      · have hset := (h.owner d (by
          have := hown (d - bno) (by omega)
          rw [Nat.add_sub_cancel' hin.1] at this
          rw [this]
          simp)).2
        rw [own_of_mem hin, decide_eq_true hin, hset]
        rfl
      · rw [own_of_not_mem hin, decide_eq_false hin, Bool.false_or]
    · simp only at hd
      by_cases hin : bno ≤ d ∧ d < bno + n
      · rw [own_of_mem hin] at hd
        exact absurd rfl hd
      · rw [own_of_not_mem hin] at hd
        exact h.owner d hd
    · rw [← h.used, Groups.inodeUsed, (hgives.inodes _).inosused]
      rfl
    · by_cases hin : bno ≤ d ∧ d < bno + n
      · exact .inr (.inr (own_of_mem hin))
      · exact .inl (own_of_not_mem hin)

theorem HeldOk.inode_turn (h : HeldOk l g₀ s) (readable : ℕ → Bool) {cg : ℕ} (ipref : ℕ)
    (dir : Bool) (hp : s.Permits l (.inode f readable cg ipref dir)) :
    ∃ t, s.run l (.inode f readable cg ipref dir) = some t ∧ HeldOk l g₀ t ∧ HandsOver s t := by
  obtain ⟨hfull, hsome⟩ := nodeallocTurn_spec h.good h.inodes hp ipref dir
  simp only [Held.run]
  by_cases hno : (s.groups.cs cg).nifree = 0 ∨ readable cg = false
  · rw [if_pos hno]
    exact ⟨s, rfl, h, fun _ => .inl rfl, fun _ => .inl rfl⟩
  rw [if_neg hno]
  by_cases hz : (s.groups.cg cg).cs.nifree = 0
  · rw [hfull hz]
    exact ⟨s, rfl, h, fun _ => .inl rfl, fun _ => .inl rfl⟩
  obtain ⟨i, -, hi, -, ⟨hturn, hlt⟩ | ⟨g, hturn, hgood, hinodes, htakes⟩⟩ := hsome hz
  · rw [hturn]
    refine ⟨_, rfl, ⟨h.good, h.inodes, h.free, h.owner, h.used, h.inode, fun p hmem => ?_⟩,
      fun _ => .inl rfl, fun _ => .inl rfl⟩
    rcases List.mem_cons.mp hmem with rfl | hmem
    · exact ⟨hp, hlt⟩
    · exact h.pending p hmem
  · rw [hturn]
    have hwas := htakes.was
    rw [h.used, Bool.or_eq_false_iff] at hwas
    refine ⟨_, rfl, ⟨hgood, hinodes, fun d => (htakes.free d).trans (h.free d), h.owner,
      fun ino => ?_, fun ino hne => ?_, h.pending⟩, fun _ => .inl rfl, fun ino => ?_⟩
    · simp only
      rw [htakes.used, h.used]
      by_cases heq : ino = cg * l.ipg + i
      · rw [heq, Function.update_self, beq_self_eq_true, Option.isSome_some, Bool.or_true]
        rfl
      · rw [Function.update_of_ne heq, beq_eq_false_iff_ne.mpr heq, Bool.false_or]
    · simp only at hne
      by_cases heq : ino = cg * l.ipg + i
      · rw [heq]
        exact ⟨htakes.lt, hwas.1⟩
      · rw [Function.update_of_ne heq] at hne
        exact h.inode ino hne
    · by_cases heq : ino = cg * l.ipg + i
      · rw [heq]
        exact .inr (.inl (Option.not_isSome_iff_eq_none.mp (by rw [hwas.2]; decide)))
      · exact .inl (Function.update_of_ne heq _ _)

theorem HeldOk.inited (h : HeldOk l g₀ s) {cg old : ℕ} (hp : s.Permits l (.inited cg old)) :
    ∃ t, s.run l (.inited cg old) = some t ∧ HeldOk l g₀ t ∧ HandsOver s t := by
  obtain ⟨hcg, hlt⟩ := h.pending _ hp
  obtain ⟨hgood, hinodes, hused, -⟩ := setInited_spec old h.good h.inodes hcg fun _ => hlt
  refine ⟨_, rfl, ⟨hgood, hinodes, fun d => (hused.free d).trans (h.free d), h.owner,
    fun ino => (hused.used ino).trans (h.used ino), h.inode, fun p hmem => ?_⟩,
    fun _ => .inl rfl, fun _ => .inl rfl⟩
  exact h.pending p (List.mem_filter.mp hmem).1

theorem HeldOk.freefile (h : HeldOk l g₀ s) (hinodes₀ : InodesGood l g₀) (readable : ℕ → Bool)
    {ino : ℕ} (dir : Bool) (hp : s.Permits l (.freefile f readable ino dir)) :
    ∃ t, s.run l (.freefile f readable ino dir) = some t ∧ HeldOk l g₀ t ∧ HandsOver s t := by
  have hown : s.inode ino = some f := hp
  obtain ⟨hino, hwas⟩ := h.inode ino (by rw [hown]; simp)
  have hne : ino ≠ 0 := by
    rintro rfl
    exact absurd (hwas.symm.trans hinodes₀.zero) (by decide)
  have hused : s.groups.inodeUsed l ino = true := by
    rw [h.used, hown, Option.isSome_some, Bool.or_true]
  obtain ⟨hfree, -, hunread⟩ := ffsFreefile_spec readable dir h.good h.inodes hino hne
  simp only [Held.run]
  cases hread : readable (ino / l.ipg) with
  | false =>
    rw [hunread hread]
    exact ⟨s, rfl, h, fun _ => .inl rfl, fun _ => .inl rfl⟩
  | true =>
    obtain ⟨g, heq, hgood, hinodes, hgives⟩ := hfree hread hused
    rw [heq]
    refine ⟨_, rfl, ?_⟩
    simp only [if_true]
    refine ⟨⟨hgood, hinodes, fun d => (hgives.free d).trans (h.free d), h.owner, fun i => ?_,
      fun i hi => ?_, h.pending⟩, fun _ => .inl rfl, fun i => ?_⟩
    · simp only
      rw [hgives.used, h.used]
      by_cases heq : i = ino
      · rw [heq, Function.update_self, bne_self_eq_false, hwas]
        rfl
      · rw [Function.update_of_ne heq, bne_iff_ne.mpr heq, Bool.true_and]
    · simp only at hi
      by_cases heq : i = ino
      · rw [heq]
        exact ⟨hino, hwas⟩
      · rw [Function.update_of_ne heq] at hi
        exact h.inode i hi
    · by_cases heq : i = ino
      · rw [heq]
        exact .inr (.inr (Function.update_self _ _ _))
      · exact .inl (Function.update_of_ne heq _ _)

/-- No operation that its caller may ask for panics, it keeps what holds at all times, and it
hands out only what nobody had. -/
theorem HeldOk.run (h : HeldOk l g₀ s) (hgood₀ : Good l g₀) (hinodes₀ : InodesGood l g₀)
    {a : GroupCall ι} (hp : s.Permits l a) :
    ∃ t, s.run l a = some t ∧ HeldOk l g₀ t ∧ HandsOver s t := by
  cases a with
  | alloc f readable cg bpref size rsize => exact h.alloc readable bpref hp
  | extend f readable bprev o n => exact h.extend hgood₀ readable hp
  | cluster f readable cg bpref len => exact h.cluster readable bpref hp
  | free f readable bno n => exact h.free_piece hgood₀ readable hp
  | inode f readable cg ipref dir => exact h.inode_turn readable ipref dir hp
  | inited cg old => exact h.inited hp
  | freefile f readable ino dir => exact h.freefile hinodes₀ readable dir hp

end Steps

section Runs

variable {ι : Type} {l : FsLayout} {s₀ s t : Held ι}

end Runs

end EmbeddedOs.Ddfs
