import EmbeddedOs.Ddfs.FreshFs

/-!
# Allocations and back

What the allocator hands out can be given back, once: behind that the free map and the counts of the
superblock are as before, and the code panics if the same piece or inode is freed again. The groups
that `mkfs` leaves are sound, so that all of this holds from the first mount on.
-/

namespace EmbeddedOs.Ddfs

open Lib

section Pieces

variable {l : FsLayout} {s s' : Groups} {cg bprev n o r : ℕ}

/-- A piece that was taken is given back by `ffs_blkfree_cg`, and only once. -/
theorem Takes.give_back (readable : ℕ → Bool) (h : Takes l s s' r n) (hgood : Good l s)
    (hgood' : Good l s') (h1 : 1 ≤ n) (hcg : l.dtog r < l.ncg)
    (hread : readable (l.dtog r) = true) :
    s'.countedFrags l = s.countedFrags l - n ∧
      ∃ u, ffsBlkfreeCg l readable s' r (n * l.geom.fsize) = some u ∧ Good l u ∧
        (∀ d, u.free l d = s.free l d) ∧ u.countedFrags l = s.countedFrags l ∧
        ffsBlkfreeCg l readable u r (n * l.geom.fsize) = none := by
  have hgroups := piece_le_groups l hcg h.fits
  have hne : r ≠ 0 := by
    rintro rfl
    exact absurd (hgood.zero.symm.trans (h.was 0 h1)) (by decide)
  have hlast : l.dtog (r + (n - 1)) < l.ncg := by
    rw [dtog_piece l h.fits (by omega)]
    exact hcg
  have hend := hgood.lt_size hlast (h.was (n - 1) (by omega))
  have hused : ∀ i, i < n → s'.free l (r + i) = false := by
    intro i hi
    have hin : r ≤ r + i ∧ r + i < r + n := by omega
    rw [h.free, decide_eq_true hin]
    rfl
  obtain ⟨-, hfree, -⟩ := ffsBlkfreeCg_spec readable hgood' hne h1 h.fits (by omega)
  obtain ⟨u, heq, hgoodu, hgives⟩ := hfree hread hused
  have hback : ∀ d, u.free l d = s.free l d := by
    intro d
    rw [hgives.free, h.free]
    by_cases hin : r ≤ d ∧ d < r + n
    · have hwas := h.was (d - r) (by omega)
      rw [Nat.add_sub_cancel' hin.1] at hwas
      rw [decide_eq_true hin, hwas]
      rfl
    · rw [decide_eq_false hin, Bool.false_or, Bool.not_false, Bool.true_and]
  have hless := h.countedFrags hgood hgood' hgroups
  have hmore := hgives.countedFrags hgood' hgoodu hgroups
  obtain ⟨hpanics, -⟩ := ffsBlkfreeCg_spec readable hgoodu hne h1 h.fits (by omega)
  refine ⟨hless, u, heq, hgoodu, hback, by omega, hpanics hread ⟨0, h1, ?_⟩⟩
  rw [hback]
  exact h.was 0 h1

/-- `ffs_alloccg` and `ffs_blkfree_cg`: a request to a group for `n` fragments succeeds exactly if
the group can be read and has them in one block. The superblock then counts `n` less. Freeing what
was allocated brings the free map and the count back, and freeing it again panics. -/
theorem ffsAlloccg_back (readable : ℕ → Bool) (hgood : Good l s) (hcg : cg < l.ncg) (bpref : ℕ)
    (h1 : 1 ≤ n) (hn : n ≤ l.frag) :
    ∃ s' r, ffsAlloccg l readable s cg bpref (n * l.geom.fsize) (n * l.geom.fsize) =
        some (s', r) ∧
      (r ≠ 0 ↔ readable cg = true ∧ HasRoom l (s.cg cg).blksfree n) ∧ (r = 0 → s' = s) ∧
      (r ≠ 0 → s'.countedFrags l = s.countedFrags l - n ∧
        ∃ u, ffsBlkfreeCg l readable s' r (n * l.geom.fsize) = some u ∧ Good l u ∧
          (∀ d, u.free l d = s.free l d) ∧ u.countedFrags l = s.countedFrags l ∧
          ffsBlkfreeCg l readable u r (n * l.geom.fsize) = none) := by
  obtain ⟨s', r, heq, hgood', hyes, hno⟩ :=
    ffsAlloccg_spec readable hgood hcg bpref (sizeOk_self l h1 hn)
  rw [numfrags_mul] at hyes hno
  refine ⟨s', r, heq, ⟨fun hr => ?_, fun hroom => (hyes hroom).1⟩, fun hr => ?_, fun hr => ?_⟩
  · by_contra hroom
    exact hr (hno hroom).1
  · by_cases hroom : readable cg = true ∧ HasRoom l (s.cg cg).blksfree n
    · exact absurd hr (hyes hroom).1
    · exact (hno hroom).2
  · have hroom : readable cg = true ∧ HasRoom l (s.cg cg).blksfree n := by
      by_contra hroom
      exact hr (hno hroom).1
    obtain ⟨-, rfl, htakes⟩ := hyes hroom
    exact htakes.give_back readable hgood hgood' h1 hcg hroom.1

/-- `ffs_fragextend` and `ffs_blkfree_cg`: a fragment of `o` fragments is extended to `n` in its
place exactly if the group can be read, the end stays within the block and is free. Freeing what was
added brings the free map and the count back, and freeing it again panics. -/
theorem ffsFragextend_back (readable : ℕ → Bool) (hgood : Good l s) (hcg : l.dtog bprev < l.ncg)
    (ho : 1 ≤ o) (hon : o < n) (hn : n ≤ l.frag) (hfits : bprev % l.frag + o ≤ l.frag)
    (halloc : s.free l (bprev + (o - 1)) = false) :
    ∃ s' r, ffsFragextend l readable s (l.dtog bprev) bprev (o * l.geom.fsize)
        (n * l.geom.fsize) = (s', r) ∧
      ((readable (l.dtog bprev) = true ∧ bprev % l.frag + n ≤ l.frag ∧
          ∀ i, o ≤ i → i < n → s.free l (bprev + i) = true) →
        r = bprev ∧ s'.countedFrags l = s.countedFrags l - (n - o : ℕ) ∧
        ∃ u, ffsBlkfreeCg l readable s' (bprev + o) ((n - o) * l.geom.fsize) = some u ∧
          Good l u ∧ (∀ d, u.free l d = s.free l d) ∧ u.countedFrags l = s.countedFrags l ∧
          ffsBlkfreeCg l readable u (bprev + o) ((n - o) * l.geom.fsize) = none) ∧
      (¬ (readable (l.dtog bprev) = true ∧ bprev % l.frag + n ≤ l.frag ∧
          ∀ i, o ≤ i → i < n → s.free l (bprev + i) = true) → r = 0 ∧ s' = s) := by
  obtain ⟨s', r, heq, hgood', hyes, hno⟩ :=
    ffsFragextend_spec readable hgood hcg ho hon hn hfits halloc
  refine ⟨s', r, heq, fun hcan => ?_, hno⟩
  obtain ⟨hr, htakes⟩ := hyes hcan
  have hdtog : l.dtog (bprev + o) = l.dtog bprev := dtog_piece l hcan.2.1 hon
  obtain ⟨hcount, hback⟩ := htakes.give_back readable hgood hgood' (by omega)
    (by rw [hdtog]; exact hcg) (by rw [hdtog]; exact hcan.1)
  exact ⟨hr, hcount, hback⟩

/-- `ffs_alloc` and `ffs_blkfree_cg`: an allocation of `n` fragments succeeds exactly if they are
available in one of its attempts, and changes nothing if it fails. What it allocates is `n`
fragments less in the free space, and an allocation without privilege leaves the reserve. Freeing it
brings the free map and the free space back. -/
theorem ffsAlloc_back (env : ℕ → Attempt) (privileged buflocked cleanup : Bool)
    (hgood : Good l s) {inoCg : ℕ} (hino : inoCg < l.ncg) (bpref : ℕ) (h1 : 1 ≤ n)
    (hn : n ≤ l.frag) :
    ∃ s' res, s.ffsAlloc l env privileged buflocked cleanup inoCg bpref (n * l.geom.fsize) =
        some (s', res) ∧
      ((∃ r, res = .ok r) ↔ Available l (env 0).readable privileged s n n ∨
        buflocked = false ∧ Available l (env 1).readable privileged s n n) ∧
      (∀ e, res = .error e → s' = s) ∧
      ∀ r, res = .ok r → s'.freespace l l.minfree = s.freespace l l.minfree - n ∧
        (privileged = false → 0 ≤ s'.freespace l l.minfree) ∧
        ∃ u, ffsBlkfreeCg l (fun _ => true) s' r (n * l.geom.fsize) = some u ∧ Good l u ∧
          (∀ d, u.free l d = s.free l d) ∧ u.freespace l l.minfree = s.freespace l l.minfree := by
  obtain ⟨s', res, heq, hgood', hyes, hno⟩ :=
    Groups.ffsAlloc_spec env privileged buflocked cleanup hgood hino bpref h1 hn
  refine ⟨s', res, heq, ⟨?_, fun h => ?_⟩, fun e he => ?_, fun r hr => ?_⟩
  · rintro ⟨r, hr⟩
    by_contra h
    rw [(hno h).1] at hr
    cases hr
  · obtain ⟨r, hr, -⟩ := hyes h
    exact ⟨r, hr⟩
  · by_cases h : Available l (env 0).readable privileged s n n ∨
        buflocked = false ∧ Available l (env 1).readable privileged s n n
    · obtain ⟨r, hr, -⟩ := hyes h
      rw [he] at hr
      cases hr
    · exact (hno h).2
  · by_cases h : Available l (env 0).readable privileged s n n ∨
        buflocked = false ∧ Available l (env 1).readable privileged s n n
    · obtain ⟨r', hr', -, hend, htakes, hreserve⟩ := hyes h
      obtain rfl : r' = r := by
        rw [hr'] at hr
        exact Except.ok.inj hr
      have hcg : l.dtog r' < l.ncg := Nat.div_lt_of_lt_mul (by omega)
      obtain ⟨hless, u, hu, hgoodu, hback, hmore, -⟩ :=
        htakes.give_back (fun _ => true) hgood hgood' h1 hcg rfl
      unfold Groups.countedFrags at hless hmore
      refine ⟨?_, hreserve, u, hu, hgoodu, hback, ?_⟩
      · unfold Groups.freespace
        omega
      · unfold Groups.freespace
        omega
    · rw [(hno h).1] at hr
      cases hr

end Pieces

section Inodes

variable {l : FsLayout} {s : Groups} {ino : ℕ}

/-- `ffs_freefile`: in a group that can be read an inode is freed exactly if it is used, and the
code panics otherwise. Freeing it again panics, and every other inode and every fragment is as
before. -/
theorem ffsFreefile_once (readable : ℕ → Bool) (dir : Bool) (hgood : Good l s)
    (hinodes : InodesGood l s) (hino : ino < l.ipg * l.ncg) (hne : ino ≠ 0)
    (hread : readable (ino / l.ipg) = true) :
    (ffsFreefile l readable false s ino dir = none ↔ s.inodeUsed l ino = false) ∧
      ∀ s' freed, ffsFreefile l readable false s ino dir = some (s', freed) →
        freed = true ∧ Good l s' ∧ InodesGood l s' ∧
        (∀ i, s'.inodeUsed l i = (i != ino && s.inodeUsed l i)) ∧
        (∀ d, s'.free l d = s.free l d) ∧ ffsFreefile l readable false s' ino dir = none := by
  obtain ⟨hused, hpanics, -⟩ := ffsFreefile_spec readable dir hgood hinodes hino hne
  cases huse : s.inodeUsed l ino with
  | false =>
    rw [hpanics hread huse]
    exact ⟨⟨fun _ => rfl, fun _ => rfl⟩, fun _ _ h => by cases h⟩
  | true =>
    obtain ⟨t, heq, hgood', hinodes', hgives⟩ := hused hread huse
    rw [heq]
    refine ⟨⟨fun h => (by cases h), fun h => (by cases h)⟩, fun s' freed h => ?_⟩
    obtain ⟨rfl, rfl⟩ := Prod.mk.inj (Option.some.inj h)
    obtain ⟨-, hagain, -⟩ := ffsFreefile_spec readable dir hgood' hinodes' hino hne
    refine ⟨rfl, hgood', hinodes', hgives.used, hgives.free, hagain hread ?_⟩
    rw [hgives.used, bne_self_eq_false, Bool.false_and]

end Inodes

section Mkfs

variable {g : Geometry} {o : MkfsOptions} {mediasize : ℕ} {m : MkfsLayout}

/-- `fsinit` on the groups of a completed run of `mkfs`: it fails exactly if the first group has
fewer free blocks than there are directories. Otherwise it takes the first fragments of the first
free blocks and the first inodes, and what it leaves is sound exactly if the first group has
`fs_contigsumsize` free blocks more: `alloc` of `mkfs.c` does not count the clusters. -/
theorem mkfs_directories (hm : Completes g o mediasize m) (hfrag : g.frag ∣ m.fpg)
    (hcover : m.size ≤ m.fpg * m.ncg) (optim : Optim) (nflag : Bool) :
    ∃ l : FsLayout, l.geom = g ∧ l.drift = mkfsDrift g m ∧ Laid l m ∧
      (fsinit l nflag (mkfsGroups g m optim) = none ↔ initcg g m 0 < if nflag then 1 else 2) ∧
      ∀ s bs, fsinit l nflag (mkfsGroups g m optim) = some (s, bs) →
        bs = dirBlocks l m (if nflag then 1 else 2) ∧
        (∀ d, s.free l d = (!decide (d ∈ bs) && (mkfsGroups g m optim).free l d)) ∧
        (∀ ino, ino < l.ipg → s.inodeUsed l ino =
          decide (ino < ufsRootino + if nflag then 1 else 2)) ∧
        InodesGood l s ∧
        (Good l s ↔ g.contigsumsize + (if nflag then 1 else 2) ≤ initcg g m 0) := by
  obtain ⟨l, rfl, -, -, -, hdrift, h⟩ := hm.laid hfrag hcover 0 0 0
  obtain ⟨hnone, hall⟩ := fsinit_spec h hdrift optim nflag
  exact ⟨l, rfl, hdrift, h, hnone, hall⟩

end Mkfs

section Pair

/-- The layout of a medium of 200 fragments. -/
def pairLayout : MkfsLayout := layoutOf .pair (200 * 8192) 128 64

/-- The groups that `mkfs` writes to it. -/
def pairGroups : Groups := mkfsGroups .pair pairLayout .time

variable {l : FsLayout}

theorem exists_pair : ∃ l : FsLayout, l.geom = .pair ∧ Laid l pairLayout ∧ Good l pairGroups ∧
    InodesGood l pairGroups := by
  obtain ⟨l, hgeom, hdrift, h⟩ := laid_pair
  have hgood := h.good hdrift .time
  have hinodes := h.inodesGood .time
  rw [hgeom] at hgood hinodes
  exact ⟨l, hgeom, h, hgood, hinodes⟩

theorem frag_pair (hgeom : l.geom = .pair) : l.frag = 2 := by
  rw [FsLayout.frag, hgeom]
  rfl

theorem fpg_pair (h : Laid l pairLayout) : l.fpg = 128 := h.fpg.symm.trans (by decide)

theorem ncg_pair (h : Laid l pairLayout) : l.ncg = 2 := h.ncg.symm.trans (by decide)

theorem size_pair (h : Laid l pairLayout) : l.size = 200 := h.size.symm.trans (by decide)

/-- What is free in these groups. -/
theorem free_pair (hgeom : l.geom = .pair) (h : Laid l pairLayout) {c i : ℕ} (hc : c < 2)
    (hi : i < 128) : pairGroups.free l (128 * c + i) =
      (decide (0 < c ∧ i < 38) || decide (dupper .pair pairLayout c ≤ i ∧
        i < min 128 (200 - 128 * c))) := by
  have hfpg := fpg_pair h
  have hncg := ncg_pair h
  have hround : roundup (dlower pairLayout) 2 = 38 := by decide
  have hfree := h.free_cgbase .time (show c < l.ncg by omega) (show i < l.fpg by omega)
  rw [hgeom, initcgIsfree, frag_pair hgeom, hround, hgeom, FsLayout.cgbase, hfpg,
    size_pair h] at hfree
  exact hfree

/-- The data begin with the fragment 45. -/
theorem last_pair (hgeom : l.geom = .pair) (h : Laid l pairLayout) :
    pairGroups.free l 44 = false ∧ pairGroups.free l 45 = true := by
  have hused := free_pair hgeom h (show 0 < 2 by decide) (show 44 < 128 by decide)
  have hfree := free_pair hgeom h (show 0 < 2 by decide) (show 45 < 128 by decide)
  exact ⟨hused.trans (by decide), hfree.trans (by decide)⟩

/-- A group whose first fragment is free has room for a fragment. -/
theorem hasRoom_first {s : Groups} {c : ℕ} (hgeom : l.geom = .pair)
    (hfree : s.free l (l.cgbase c) = true) : HasRoom l (s.cg c).blksfree 1 := by
  have hfrag := frag_pair hgeom
  have hfirst : s.free l (l.cgbase c + 0) = true := hfree
  rw [Groups.free, l.dtog_cgbase l.fpg_pos, l.dtogd_cgbase l.fpg_pos] at hfirst
  refine ⟨0, l.fpg_pos, by rw [hfrag]; decide, fun i hi => ?_⟩
  obtain rfl : i = 0 := by omega
  exact hfirst

/-- The second group has room for a fragment. -/
theorem hasRoom_pair (hgeom : l.geom = .pair) (h : Laid l pairLayout) :
    HasRoom l (pairGroups.cg 1).blksfree 1 := by
  apply hasRoom_first hgeom
  have hfree := free_pair hgeom h (show 1 < 2 by decide) (show 0 < 128 by decide)
  rw [FsLayout.cgbase, fpg_pair h]
  exact hfree.trans (by decide)

theorem ffsAlloccg_back_pair : ∃ (l : FsLayout) (s u : Groups) (r : ℕ), l.geom = .pair ∧
    ffsAlloccg l (fun _ => true) pairGroups 1 0 (1 * l.geom.fsize) (1 * l.geom.fsize) =
      some (s, r) ∧ r ≠ 0 ∧
    ffsBlkfreeCg l (fun _ => true) s r (1 * l.geom.fsize) = some u ∧
    ffsBlkfreeCg l (fun _ => true) u r (1 * l.geom.fsize) = none := by
  obtain ⟨l, hgeom, h, hgood, -⟩ := exists_pair
  obtain ⟨s, r, heq, hiff, -, hback⟩ := ffsAlloccg_back (fun _ => true) hgood
    (show 1 < l.ncg by rw [ncg_pair h]; decide) 0 (Nat.le_refl 1) l.frag_pos
  have hr : r ≠ 0 := hiff.mpr ⟨rfl, hasRoom_pair hgeom h⟩
  obtain ⟨-, u, hu, -, -, -, hagain⟩ := hback hr
  exact ⟨l, s, u, r, hgeom, heq, hr, hu, hagain⟩

theorem ffsFragextend_back_pair : ∃ (l : FsLayout) (s u : Groups), l.geom = .pair ∧
    ffsFragextend l (fun _ => true) pairGroups (l.dtog 44) 44 (1 * l.geom.fsize)
      (2 * l.geom.fsize) = (s, 44) ∧
    ffsBlkfreeCg l (fun _ => true) s (44 + 1) ((2 - 1) * l.geom.fsize) = some u ∧
    ∀ d, u.free l d = pairGroups.free l d := by
  obtain ⟨l, hgeom, h, hgood, -⟩ := exists_pair
  have hfrag := frag_pair hgeom
  have hdtog : l.dtog 44 = 0 := by rw [FsLayout.dtog, fpg_pair h]
  obtain ⟨hused, hfree⟩ := last_pair hgeom h
  obtain ⟨s, r, heq, hyes, -⟩ := ffsFragextend_back (o := 1) (n := 2) (fun _ => true) hgood
    (show l.dtog 44 < l.ncg by rw [hdtog]; exact l.ncg_pos) (by decide) (by decide)
    (Nat.le_of_eq hfrag.symm) (by rw [hfrag]; decide) hused
  obtain ⟨rfl, -, u, hu, -, hback, -⟩ := hyes ⟨rfl, by rw [hfrag], fun i hi1 hi2 => by
    obtain rfl : i = 1 := by omega
    exact hfree⟩
  exact ⟨l, s, u, hgeom, heq, hu, hback⟩

/-- A disk on which everything can be read. -/
def soundDisk : ℕ → Attempt := fun _ => ⟨fun _ => true, true⟩

theorem ffsAlloc_back_pair : ∃ (l : FsLayout) (s : Groups) (r : ℕ), l.geom = .pair ∧
    pairGroups.ffsAlloc l soundDisk true false false 0 0 (1 * l.geom.fsize) =
      some (s, .ok r) ∧
    s.freespace l l.minfree = pairGroups.freespace l l.minfree - 1 := by
  obtain ⟨l, hgeom, h, hgood, -⟩ := exists_pair
  have hfrag := frag_pair hgeom
  obtain ⟨s, res, heq, hiff, -, hok⟩ := ffsAlloc_back soundDisk true false false hgood l.ncg_pos 0
    (Nat.le_refl 1) l.frag_pos
  have havail : Available l (soundDisk 0).readable true pairGroups 1 1 :=
    ⟨.inl rfl, fun h1 => by omega, 1, by rw [ncg_pair h]; decide, rfl, hasRoom_pair hgeom h⟩
  obtain ⟨r, rfl⟩ := hiff.mpr (.inl havail)
  exact ⟨l, s, r, hgeom, heq, (hok r rfl).1⟩

theorem ffsFreefile_once_pair : ∃ (l : FsLayout) (s : Groups), l.geom = .pair ∧
    ffsFreefile l (fun _ => true) false pairGroups 1 false = some (s, true) ∧
    ffsFreefile l (fun _ => true) false s 1 false = none := by
  obtain ⟨l, hgeom, h, hgood, hinodes⟩ := exists_pair
  have hipg : l.ipg = 64 := h.ipg.symm.trans (by decide)
  have hused : pairGroups.inodeUsed l 1 = true := by
    have := h.inodeUsed .time (show 1 < l.ipg by omega)
    rw [hgeom] at this
    exact this.trans (by decide)
  obtain ⟨hiff, hall⟩ := ffsFreefile_once (fun _ => true) false hgood hinodes
    (show 1 < l.ipg * l.ncg by rw [hipg, ncg_pair h]; decide) (by decide) rfl
  cases hrun : ffsFreefile l (fun _ => true) false pairGroups 1 false with
  | none =>
    rw [hiff.mp hrun] at hused
    cases hused
  | some p =>
    obtain ⟨s, freed⟩ := p
    obtain ⟨rfl, -, -, -, -, hagain⟩ := hall s freed hrun
    exact ⟨l, s, hgeom, hrun, hagain⟩

theorem mkfs_directories_pair : ∃ (l : FsLayout) (s : Groups) (bs : List ℕ), l.geom = .pair ∧
    fsinit l false pairGroups = some (s, bs) ∧ bs = dirBlocks l pairLayout 2 ∧ Good l s := by
  obtain ⟨l, hgeom, -, -, hnone, hall⟩ :=
    mkfs_directories completes_pair (by decide) (by decide) .time false
  cases hrun : fsinit l false pairGroups with
  | none => exact absurd (hnone.mp hrun) (by decide)
  | some p =>
    obtain ⟨s, bs⟩ := p
    obtain ⟨hbs, -, -, -, hgood⟩ := hall s bs hrun
    exact ⟨l, s, bs, hgeom, hrun, hbs, hgood.mpr (by decide)⟩

/-- The first group has room for the directories. -/
theorem exists_fsinit_pair (hgeom : l.geom = .pair)
    (hdrift : l.drift = mkfsDrift l.geom pairLayout) (h : Laid l pairLayout) :
    ∃ s bs, fsinit l false pairGroups = some (s, bs) := by
  cases hrun : fsinit l false pairGroups with
  | none =>
    have hfew := (fsinit_spec h hdrift .time false).1.mp (by rw [hgeom]; exact hrun)
    rw [hgeom] at hfew
    exact absurd hfew (by decide)
  | some p => exact ⟨p.1, p.2, rfl⟩

theorem fresh_backup_free_iff_pair : ∃ (l : FsLayout) (s : Groups) (bs : List ℕ),
    l.geom = .pair ∧ fsinit l false pairGroups = some (s, bs) ∧
    s.free l (cgsblock l pairLayout 1) = true := by
  obtain ⟨l, hgeom, hdrift, h⟩ := laid_pair
  obtain ⟨s, bs, hrun⟩ := exists_fsinit_pair hgeom hdrift h
  have hncg : l.ncg = 2 := ncg_pair h
  have hfrag := frag_pair hgeom
  have hrun' : fsinit l false (mkfsGroups l.geom pairLayout .time) = some (s, bs) := by
    rw [hgeom]
    exact hrun
  have hiff := fresh_backup_free_iff (c := 1) h hdrift hrun' (by omega)
  exact ⟨l, s, bs, hgeom, hrun, hiff.mpr ⟨by decide, by rw [hfrag]; decide⟩⟩

/-- The buffer of the first block of a file whose fragment is at 44; `fs_fsbtodb` is 3. -/
def placedBuf : ℕ → ReallocAttempt := fun k => ⟨soundDisk k, fsbtodb 3 44⟩

/-- A buffer with the address of another fragment. -/
def staleBuf : ℕ → ReallocAttempt := fun k => ⟨soundDisk k, fsbtodb 3 42⟩

theorem ffsRealloccg_spec_pair : ∃ (l : FsLayout) (s : Groups) (r : ℕ), l.geom = .pair ∧
    pairGroups.ffsRealloccg l placedBuf true false false false 3 0 44 0 (1 * l.geom.fsize)
      (2 * l.geom.fsize) = some (s, .ok r) ∧ r ≠ 0 ∧
    pairGroups.ffsRealloccg l staleBuf true false false false 3 0 44 0 (1 * l.geom.fsize)
      (2 * l.geom.fsize) = none := by
  obtain ⟨l, hgeom, h, hgood, -⟩ := exists_pair
  have hfrag := frag_pair hgeom
  have hsize := size_pair h
  obtain ⟨hused, hfree⟩ := last_pair hgeom h
  have hown : ∀ i, i < 1 → pairGroups.free l (44 + i) = false := fun i hi => by
    obtain rfl : i = 0 := by omega
    exact hused
  have hcan : CanExtend l (soundDisk 0).readable pairGroups 44 1 2 :=
    ⟨rfl, by rw [hfrag], fun i hi1 hi2 => by
      obtain rfl : i = 1 := by omega
      exact hfree⟩
  have hspec := fun env => Groups.ffsRealloccg_spec (o := 1) (n := 2) env true false false false 3 0
    hgood (show 44 ≠ 0 by decide) (by decide) (by decide) (Nat.le_of_eq hfrag.symm)
    (by rw [hfrag]; decide) (by omega) hown 0
  obtain ⟨s, res, heq, -, hok, -, hyes⟩ := (hspec placedBuf).1 fun _ =>
    ⟨fun _ => by decide, fun _ => rfl⟩
  obtain ⟨r, rfl⟩ := hyes ⟨.inl rfl, rfl, .inl hcan⟩
  refine ⟨l, s, r, hgeom, heq, (hok r rfl).1, ?_⟩
  exact ((hspec staleBuf).2 (.inl rfl) rfl hcan).mpr fun h =>
    absurd (h.address (by decide)) (by decide)

theorem ffsNodealloccg_spec_pair : ∃ (l : FsLayout) (s : Groups) (r : ℕ), l.geom = .pair ∧
    ffsNodealloccg l (fun _ => true) (fun _ => .self) pairGroups 0 0 false = some (s, r) ∧
    Good l s ∧ InodesGood l s := by
  obtain ⟨l, hgeom, h, hgood, hinodes⟩ := exists_pair
  obtain ⟨s, r, heq, hgood', hinodes', -⟩ := ffsNodealloccg_spec (fun _ => true) (fun _ => .self)
    false hgood hinodes l.ncg_pos 0
  exact ⟨l, s, r, hgeom, heq, hgood', hinodes'⟩

end Pair

end EmbeddedOs.Ddfs
