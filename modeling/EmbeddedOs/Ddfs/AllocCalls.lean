import EmbeddedOs.Ddfs.HashAlloc
import EmbeddedOs.Ddfs.FreeSpace

/-!
# Allocation of blocks and fragments

`ffs_alloc` and `ffs_realloccg` on top of the search over the groups. An allocation fails only if
the reserve forbids it or no group that can be read has room. Soft updates are not compiled in, so
that the second attempt finds more only if a group can be read by then.
-/

namespace EmbeddedOs.Ddfs

open Lib Probe

/-- What `ffs_alloc` and `ffs_realloccg` fail with. -/
inductive AllocError where
  | ENOSPC
  | ENXIO
  /-- The error of `bread_gb`. -/
  | bread
  deriving DecidableEq

open AllocError (ENOSPC ENXIO)

/-- What the environment decides in one attempt. -/
structure Attempt where
  /-- Whether the block of a group can be read. -/
  readable : ℕ → Bool
  /-- Whether `bread_gb` can read the buffer of `ffs_realloccg`. -/
  bread : Bool

/-- What it decides in one attempt of `ffs_realloccg`. -/
structure ReallocAttempt extends Attempt where
  /-- `b_blkno` of the buffer that `bread_gb` hands out. -/
  blkno : ℤ

/-- `UFS_NDADDR`. -/
def ufsNdaddr : ℕ := 12

/-- `fsbtodb`, with the shift `fs_fsbtodb`. -/
def fsbtodb (shift b : ℕ) : ℤ := (b <<< shift : ℕ)

namespace Groups

/-- `freespace`. -/
def freespace (l : FsLayout) (s : Groups) (percentreserved : ℕ) : ℤ :=
  s.cstotal.nbfree * l.frag + s.cstotal.nffree - (l.dsize * percentreserved / 100 : ℕ)

/-- The preference of `ffs_alloc` and `ffs_realloccg`: none if it is behind the file system. -/
def bprefIn (l : FsLayout) (bpref : ℕ) : ℕ := if l.size ≤ bpref then 0 else bpref

/-- One attempt of `ffs_alloc` for an inode of the group `inoCg`, 0 for `nospace`. -/
def allocOnce (l : FsLayout) (readable : ℕ → Bool) (privileged : Bool) (s : Groups)
    (inoCg bpref size : ℕ) : Option (Groups × ℕ) :=
  if size = l.bsize ∧ s.cstotal.nbfree = 0 then some (s, 0)
  else if !privileged ∧ s.freespace l l.minfree - l.numfrags size < 0 then some (s, 0)
  else
    let bpref := bprefIn l bpref
    let cg := if bpref = 0 then inoCg else l.dtog bpref
    ffsHashalloc l.ncg (fun s c => ffsAlloccg l readable s c.1 c.2 size size) s cg bpref

/-- `ffs_alloc`: the block it allocates, or its error. The caller can have a buffer locked, and
there can be a cleanup of a failed file system on its way. -/
def ffsAlloc (l : FsLayout) (env : ℕ → Attempt) (privileged buflocked cleanup : Bool) (s : Groups)
    (inoCg bpref size : ℕ) : Option (Groups × Except AllocError ℕ) :=
  let nospace := if cleanup then ENXIO else ENOSPC
  match s.allocOnce l (env 0).readable privileged inoCg bpref size with
  | none => none
  | some (s, bno) =>
    if 0 < bno then some (s, .ok bno)
    else if buflocked then some (s, .error nospace)
    else
      match s.allocOnce l (env 1).readable privileged inoCg bpref size with
      | none => none
      | some (s, bno) => if 0 < bno then some (s, .ok bno) else some (s, .error nospace)

/-- The `switch` of `ffs_realloccg` over `fs_optim`: what to search for, and the next
`fs_optim`. -/
def reallocRequest (l : FsLayout) (s : Groups) (nsize : ℕ) : ℕ × Optim :=
  match s.optim with
  | .space =>
    (nsize, if l.minfree ≤ 5 ∨ (l.dsize * l.minfree / (2 * 100) : ℕ) < s.cstotal.nffree then .space
      else .time)
  | .time =>
    (l.bsize, if s.cstotal.nffree < (l.dsize * ((l.minfree : ℤ) - 2)).tdiv 100 then .time
      else .space)

/-- One attempt of `ffs_realloccg` for the block `lbprev` of a file; 0 is for `nospace`. If the
fragment cannot be extended, it is freed behind the allocation of another, unless `shared` tells
that the dedup table still has references to it. `fs_optim` is one of the two it can be. -/
def reallocOnce (l : FsLayout) (env : ReallocAttempt) (privileged shared : Bool) (shift : ℕ)
    (s : Groups) (lbprev : ℤ) (bprev bpref osize nsize : ℕ) :
    Option (Groups × Except AllocError ℕ) :=
  if !privileged ∧ s.freespace l l.minfree - l.numfrags (nsize - osize) < 0 then some (s, .ok 0)
  else if bprev = 0 then none
  else if !env.bread then some (s, .error .bread)
  -- panic: lbprev out of range
  else if env.blkno = lbprev ∧ ufsNdaddr ≤ lbprev then none
  else
    let blkno := if env.blkno = lbprev then fsbtodb shift bprev else env.blkno
    let cg := l.dtog bprev
    let ext := ffsFragextend l env.readable s cg bprev osize nsize
    if ext.2 ≠ 0 then
      -- panic: bad blockno
      if blkno ≠ fsbtodb shift ext.2 then none else some (ext.1, .ok ext.2)
    else
      let s := ext.1
      let request := s.reallocRequest l nsize
      match ffsHashalloc l.ncg (fun s c => ffsAlloccg l env.readable s c.1 c.2 request.1 nsize)
          { s with optim := request.2 } cg (bprefIn l bpref) with
      | none => none
      | some (s, bno) =>
        if bno = 0 then some (s, .ok 0)
        else if shared then some (s, .ok bno)
        else
          match ffsBlkfreeCg l env.readable s bprev osize with
          | none => none
          | some s => some (s, .ok bno)

/-- `ffs_realloccg`: the place of the larger fragment, or the error. -/
def ffsRealloccg (l : FsLayout) (env : ℕ → ReallocAttempt)
    (privileged buflocked cleanup shared : Bool) (shift : ℕ) (s : Groups) (lbprev : ℤ)
    (bprev bpref osize nsize : ℕ) : Option (Groups × Except AllocError ℕ) :=
  let nospace := if cleanup then ENXIO else ENOSPC
  match s.reallocOnce l (env 0) privileged shared shift lbprev bprev bpref osize nsize with
  | none => none
  | some (s, .error e) => some (s, .error e)
  | some (s, .ok bno) =>
    if bno ≠ 0 then some (s, .ok bno)
    else if buflocked then some (s, .error nospace)
    else
      match s.reallocOnce l (env 1) privileged shared shift lbprev bprev bpref osize nsize with
      | none => none
      | some (s, .error e) => some (s, .error e)
      | some (s, .ok bno) => if bno ≠ 0 then some (s, .ok bno) else some (s, .error nospace)

end Groups

/-- A request for `n` fragments that needs `more` fragments of the free space can be answered. -/
structure Available (l : FsLayout) (readable : ℕ → Bool) (privileged : Bool) (s : Groups)
    (more n : ℕ) : Prop where
  /-- The reserve is not touched, or the caller may touch it. -/
  reserve : privileged = true ∨ (more : ℤ) ≤ s.freespace l l.minfree
  /-- For a block, `fs_cstotal` has one. -/
  total : n = l.frag → s.cstotal.nbfree ≠ 0
  /-- A group that can be read has room. -/
  room : ∃ c, c < l.ncg ∧ readable c = true ∧ HasRoom l (s.cg c).blksfree n

/-- A request for `more` fragments is refused for the reserve unless the caller may touch it, or
the free space is enough. -/
theorem reserve_refuses_iff {privileged : Bool} {space more : ℤ} :
    ((!privileged) = true ∧ space - more < 0) ↔ ¬(privileged = true ∨ more ≤ space) := by
  cases privileged <;> simp

section Pieces

variable {l : FsLayout} {s s' : Groups} {c d n r : ℕ} {readable : ℕ → Bool}

/-- A piece of a group is within the groups. -/
theorem piece_le_groups (l : FsLayout) (hcg : l.dtog r < l.ncg) (hfits : r % l.frag + n ≤ l.frag) :
    r + n ≤ l.fpg * l.ncg := by
  have hle := piece_le_fpg l (l.dtogd_lt r) (n := n) (by rwa [l.dtogd_mod])
  have hbase : l.fpg * l.dtog r + l.dtogd r = r := l.cgbase_dtog r
  have hmul : l.fpg * (l.dtog r + 1) ≤ l.fpg * l.ncg := Nat.mul_le_mul_left _ hcg
  rw [Nat.mul_succ] at hmul
  omega

/-- What is free is in the file system. -/
theorem Good.lt_size (hgood : Good l s) (hcg : l.dtog d < l.ncg) (hfree : s.free l d = true) :
    d < l.size := by
  have hok := hgood.group _ hcg
  have hbytes : l.fpg ≤ howmany l.fpg 8 * 8 := le_howmany_mul (by decide)
  have hlt := l.dtogd_lt d
  have hbase := l.cgbase_dtog d
  by_contra hge
  have hend : (s.cg (l.dtog d)).ndblk ≤ l.dtogd d := by
    rw [hok.ndblk]
    omega
  have hzero := hok.tail _ hend (by omega)
  exact absurd (hfree.symm.trans hzero) (by decide)

theorem sizeOk_self (l : FsLayout) (h1 : 1 ≤ n) (hn : n ≤ l.frag) :
    SizeOk l (n * l.geom.fsize) (n * l.geom.fsize) := by
  have hnum := numfrags_mul l n
  by_cases heq : n * l.geom.fsize = l.bsize
  · exact .inl ⟨heq, by omega, by omega⟩
  · refine .inr ⟨heq, rfl, by omega, ?_⟩
    rcases Nat.lt_or_ge n l.frag with hlt | hge
    · omega
    · obtain rfl : n = l.frag := by omega
      exact absurd (Geometry.bsize_eq l.geom).symm heq

theorem sizeOk_bsize (l : FsLayout) (h1 : 1 ≤ n) (hn : n ≤ l.frag) :
    SizeOk l l.bsize (n * l.geom.fsize) := by
  have hnum := numfrags_mul l n
  exact .inl ⟨rfl, by omega, by omega⟩

end Pieces

section Search

variable {l : FsLayout} {s : Groups} {cg size rsize : ℕ}

/-- The search over the groups takes a piece exactly if a group that can be read has room, of the
preferred group if that one is such a group. Otherwise nothing changes. -/
theorem ffsHashalloc_takes (readable : ℕ → Bool) (hgood : Good l s) (hcg : cg < l.ncg) (pref : ℕ)
    (hsize : SizeOk l size rsize) :
    ∃ s' r, ffsHashalloc l.ncg (fun s c => ffsAlloccg l readable s c.1 c.2 size rsize) s cg pref =
        some (s', r) ∧ Good l s' ∧
      ((∃ c, c < l.ncg ∧ readable c = true ∧ HasRoom l (s.cg c).blksfree (l.numfrags size)) →
        r ≠ 0 ∧ l.dtog r < l.ncg ∧ Takes l s s' r (l.numfrags rsize) ∧
          (readable cg = true → HasRoom l (s.cg cg).blksfree (l.numfrags size) →
            l.dtog r = cg)) ∧
      (¬ (∃ c, c < l.ncg ∧ readable c = true ∧
        HasRoom l (s.cg c).blksfree (l.numfrags size)) → r = 0 ∧ s' = s) := by
  have hask : ∀ c, c < l.ncg → ∀ p, Answers
      (fun s c => ffsAlloccg l readable s c.1 c.2 size rsize) (Good l) (fun s t => t = s)
      (fun s b => ¬ (readable b.1 = true ∧ HasRoom l (s.cg b.1).blksfree (l.numfrags size)))
      (fun s b s' r => (readable b.1 = true ∧ HasRoom l (s.cg b.1).blksfree (l.numfrags size)) ∧
        l.dtog r = b.1 ∧ Takes l s s' r (l.numfrags rsize)) (c, p) := by
    refine fun c hc p => ⟨fun t ht => ?_⟩
    obtain ⟨s', r, heq, hs', hroom, hnone⟩ := ffsAlloccg_spec readable ht hc p hsize
    refine ⟨s', r, heq, hs', fun hr => ?_, fun hr => ?_⟩
    · have hno := fun h => (hroom h).1 hr
      obtain ⟨-, rfl⟩ := hnone hno
      exact ⟨rfl, hno⟩
    · have hyes := not_not.mp fun h => hr (hnone h).1
      exact ⟨hyes, (hroom hyes).2⟩
  obtain ⟨s', r, heq, hs', hzero, hpost⟩ := ffsHashalloc_rule (fun s t => t = s)
    (fun s b => ¬ (readable b = true ∧ HasRoom l (s.cg b).blksfree (l.numfrags size)))
    (fun s b s' r => (readable b = true ∧ HasRoom l (s.cg b).blksfree (l.numfrags size)) ∧
      l.dtog r = b ∧ Takes l s s' r (l.numfrags rsize)) hcg hask (fun _ => rfl)
    (fun s t u hst htu => htu.trans hst) (fun s t c hst h => by rwa [hst]) hgood
  refine ⟨s', r, heq, hs', ?_, ?_⟩
  · rintro ⟨c, hc, hread, hroom⟩
    have hr : r ≠ 0 := fun hr => by
      obtain ⟨rfl, hall⟩ := hzero hr
      exact hall c hc ⟨hread, hroom⟩
    obtain ⟨b, t, hb, -, rfl, ⟨-, hdtog, htakes⟩, hpref⟩ := hpost hr
    refine ⟨hr, hdtog ▸ hb, htakes, fun hread' hroom' => ?_⟩
    rcases hpref with rfl | hno
    · exact hdtog
    · exact absurd ⟨hread', hroom'⟩ hno
  · intro hno
    have hr : r = 0 := by
      by_contra hr
      obtain ⟨b, t, hb, -, rfl, ⟨⟨hread, hroom⟩, -⟩, -⟩ := hpost hr
      exact hno ⟨b, hb, hread, hroom⟩
    exact ⟨hr, (hzero hr).1⟩

end Search

section Alloc

variable {l : FsLayout} {s : Groups} {inoCg bpref n : ℕ}

theorem bprefIn_cg_lt (l : FsLayout) (hino : inoCg < l.ncg) (bpref : ℕ) :
    (if Groups.bprefIn l bpref = 0 then inoCg else l.dtog (Groups.bprefIn l bpref)) < l.ncg := by
  unfold Groups.bprefIn
  by_cases hsize : l.size ≤ bpref
  · rw [if_pos hsize, if_pos rfl]
    exact hino
  · rw [if_neg hsize]
    split
    · exact hino
    · exact l.dtog_lt (Nat.lt_of_not_le hsize)

/-- An attempt to allocate `n` fragments takes a piece exactly if they are available. Otherwise
nothing changes. -/
theorem Groups.allocOnce_spec (readable : ℕ → Bool) (privileged : Bool) (hgood : Good l s)
    (hino : inoCg < l.ncg) (bpref : ℕ) (h1 : 1 ≤ n) (hn : n ≤ l.frag) :
    ∃ s' r, s.allocOnce l readable privileged inoCg bpref (n * l.geom.fsize) = some (s', r) ∧
      Good l s' ∧
      (Available l readable privileged s n n → r ≠ 0 ∧ l.dtog r < l.ncg ∧ Takes l s s' r n) ∧
      (¬ Available l readable privileged s n n → r = 0 ∧ s' = s) := by
  have hnum := numfrags_mul l n
  unfold Groups.allocOnce
  by_cases hnone : n * l.geom.fsize = l.bsize ∧ s.cstotal.nbfree = 0
  · rw [if_pos hnone]
    refine ⟨s, 0, rfl, hgood, fun h => ?_, fun _ => ⟨rfl, rfl⟩⟩
    exact absurd hnone.2 (h.total (by rw [← hnum, hnone.1, l.numfrags_bsize]))
  rw [if_neg hnone, hnum]
  by_cases hres : (!privileged) = true ∧ s.freespace l l.minfree - (n : ℤ) < 0
  · rw [if_pos hres]
    exact ⟨s, 0, rfl, hgood, fun h => absurd h.reserve (reserve_refuses_iff.mp hres),
      fun _ => ⟨rfl, rfl⟩⟩
  rw [if_neg hres]
  have hreserve : privileged = true ∨ (n : ℤ) ≤ s.freespace l l.minfree :=
    not_not.mp fun h => hres (reserve_refuses_iff.mpr h)
  have htotal : n = l.frag → s.cstotal.nbfree ≠ 0 := by
    rintro rfl hz
    exact hnone ⟨(Geometry.bsize_eq l.geom).symm, hz⟩
  obtain ⟨s', r, heq, hgood', hroom, hno⟩ := ffsHashalloc_takes readable hgood
    (bprefIn_cg_lt l hino bpref) (Groups.bprefIn l bpref) (sizeOk_self l h1 hn)
  rw [hnum] at hroom hno
  refine ⟨s', r, heq, hgood', fun h => ?_, fun h => hno fun hr => h ⟨hreserve, htotal, hr⟩⟩
  obtain ⟨hr, hdtog, htakes, -⟩ := hroom h.room
  exact ⟨hr, hdtog, htakes⟩

/-- `ffs_alloc` for `n` fragments: it succeeds exactly if they are available in one of its
attempts, and what it allocates was free and is all that changes. An allocation without privilege
leaves the reserve. -/
theorem Groups.ffsAlloc_spec (env : ℕ → Attempt) (privileged buflocked cleanup : Bool)
    (hgood : Good l s) (hino : inoCg < l.ncg) (bpref : ℕ) (h1 : 1 ≤ n) (hn : n ≤ l.frag) :
    ∃ s' res, s.ffsAlloc l env privileged buflocked cleanup inoCg bpref (n * l.geom.fsize) =
        some (s', res) ∧ Good l s' ∧
      ((Available l (env 0).readable privileged s n n ∨
          buflocked = false ∧ Available l (env 1).readable privileged s n n) →
        ∃ r, res = .ok r ∧ r ≠ 0 ∧ r + n ≤ l.fpg * l.ncg ∧ Takes l s s' r n ∧
          (privileged = false → 0 ≤ s'.freespace l l.minfree)) ∧
      (¬ (Available l (env 0).readable privileged s n n ∨
          buflocked = false ∧ Available l (env 1).readable privileged s n n) →
        res = .error (if cleanup then ENXIO else ENOSPC) ∧ s' = s) := by
  have hdone : ∀ k s' r, Available l (env k).readable privileged s n n → Good l s' → r ≠ 0 →
      l.dtog r < l.ncg → Takes l s s' r n → r + n ≤ l.fpg * l.ncg ∧
        (privileged = false → 0 ≤ s'.freespace l l.minfree) := by
    intro k s' r havail hgood' hr hdtog htakes
    have hend := piece_le_groups l hdtog htakes.fits
    refine ⟨hend, fun hp => ?_⟩
    have hcount := htakes.countedFrags hgood hgood' hend
    have hle := havail.reserve.resolve_left (by rw [hp]; decide)
    unfold Groups.countedFrags at hcount
    unfold Groups.freespace at hle ⊢
    omega
  obtain ⟨s₀, r₀, heq₀, hgood₀, hyes₀, hno₀⟩ :=
    Groups.allocOnce_spec (env 0).readable privileged hgood hino bpref h1 hn
  unfold Groups.ffsAlloc
  rw [heq₀]
  by_cases h₀ : Available l (env 0).readable privileged s n n
  · obtain ⟨hr, hdtog, htakes⟩ := hyes₀ h₀
    obtain ⟨hend, hreserve⟩ := hdone 0 s₀ r₀ h₀ hgood₀ hr hdtog htakes
    refine ⟨s₀, .ok r₀, ?_, hgood₀, fun _ => ⟨r₀, rfl, hr, hend, htakes, hreserve⟩,
      fun h => absurd (.inl h₀) h⟩
    simp only [Nat.pos_of_ne_zero hr, if_true]
  obtain ⟨rfl, rfl⟩ := hno₀ h₀
  simp only [Nat.lt_irrefl, if_false]
  cases hlock : buflocked with
  | true =>
    refine ⟨s₀, _, rfl, hgood, fun h => ?_, fun _ => ⟨rfl, rfl⟩⟩
    rcases h with h | ⟨h, -⟩
    · exact absurd h h₀
    · exact absurd h (by decide)
  | false =>
    obtain ⟨s₁, r₁, heq₁, hgood₁, hyes₁, hno₁⟩ :=
      Groups.allocOnce_spec (env 1).readable privileged hgood hino bpref h1 hn
    simp only [Bool.false_eq_true, if_false, heq₁]
    by_cases h₁ : Available l (env 1).readable privileged s₀ n n
    · obtain ⟨hr, hdtog, htakes⟩ := hyes₁ h₁
      obtain ⟨hend, hreserve⟩ := hdone 1 s₁ r₁ h₁ hgood₁ hr hdtog htakes
      refine ⟨s₁, .ok r₁, ?_, hgood₁, fun _ => ⟨r₁, rfl, hr, hend, htakes, hreserve⟩,
        fun h => absurd (.inr ⟨trivial, h₁⟩) h⟩
      simp only [Nat.pos_of_ne_zero hr, if_true]
    · obtain ⟨rfl, rfl⟩ := hno₁ h₁
      refine ⟨s₁, _, rfl, hgood, fun h => ?_, fun _ => ⟨rfl, rfl⟩⟩
      rcases h with h | ⟨-, h⟩
      · exact absurd h h₀
      · exact absurd h h₁

end Alloc

section Realloc

variable {l : FsLayout} {s s' t : Groups} {bprev n o r : ℕ}

/-- The owner of `o` fragments at `bprev` gets `n` fragments at `r` for them. The old ones become
free unless they are part of the new ones, or `kept`. -/
structure Moves (l : FsLayout) (s s' : Groups) (bprev o r n : ℕ) (kept : Bool) : Prop where
  /-- The new piece is within a block. -/
  fits : r % l.frag + n ≤ l.frag
  /-- It was free, or is the old piece. -/
  was : ∀ i, i < n → s.free l (r + i) = true ∨ bprev ≤ r + i ∧ r + i < bprev + o
  /-- What is free behind the move. -/
  free : ∀ d, s'.free l d = (!decide (r ≤ d ∧ d < r + n) &&
    ((!kept && decide (bprev ≤ d ∧ d < bprev + o)) || s.free l d))
  /-- The inodes are as before. -/
  inodes : ∀ c, SameInodes (s.cg c) (s'.cg c)

/-- An extension is a move in place. -/
theorem Takes.moves (h : Takes l s s' (bprev + o) (n - o)) (hon : o < n)
    (hfits : bprev % l.frag + n ≤ l.frag) (hown : ∀ i, i < o → s.free l (bprev + i) = false)
    (kept : Bool) : Moves l s s' bprev o bprev n kept := by
  refine ⟨hfits, fun i hi => ?_, fun d => ?_, h.inodes⟩
  · rcases Nat.lt_or_ge i o with hlt | hge
    · exact .inr ⟨by omega, by omega⟩
    · left
      have := h.was (i - o) (by omega)
      rwa [Nat.add_assoc, Nat.add_sub_cancel' hge] at this
  · rw [h.free]
    by_cases hold : bprev ≤ d ∧ d < bprev + o
    · have hclr := hown (d - bprev) (by omega)
      rw [Nat.add_sub_cancel' hold.1] at hclr
      have hin : bprev ≤ d ∧ d < bprev + n := by omega
      rw [hclr, decide_eq_true hin, Bool.and_false]
      rfl
    · have hiff : (bprev + o ≤ d ∧ d < bprev + o + (n - o)) ↔ (bprev ≤ d ∧ d < bprev + n) := by
        omega
      rw [decide_eq_decide.mpr hiff, decide_eq_false hold, Bool.and_false, Bool.false_or]

/-- A new piece, and the old one given back, is a move. -/
theorem Takes.moves_gives (h : Takes l s t r n) (hg : Gives l t s' bprev o)
    (hown : ∀ i, i < o → s.free l (bprev + i) = false) : Moves l s s' bprev o r n false := by
  refine ⟨h.fits, fun i hi => .inl (h.was i hi), fun d => ?_,
    fun c => (h.inodes c).trans (hg.inodes c)⟩
  rw [hg.free, h.free, Bool.not_false, Bool.true_and]
  by_cases hold : bprev ≤ d ∧ d < bprev + o
  · have hclr := hown (d - bprev) (by omega)
    rw [Nat.add_sub_cancel' hold.1] at hclr
    have hout : ¬ (r ≤ d ∧ d < r + n) := fun hin => by
      have hwas := h.was (d - r) (by omega)
      rw [Nat.add_sub_cancel' hin.1] at hwas
      exact absurd (hwas.symm.trans hclr) (by decide)
    rw [decide_eq_true hold, decide_eq_false hout]
    rfl
  · rw [decide_eq_false hold, Bool.false_or, Bool.false_or]

/-- A new piece beside the old one is a move that keeps it. -/
theorem Takes.moves_kept (h : Takes l s s' r n) (bprev o : ℕ) : Moves l s s' bprev o r n true :=
  ⟨h.fits, fun i hi => .inl (h.was i hi), fun d => by
    rw [h.free, Bool.not_true, Bool.false_and, Bool.false_or], h.inodes⟩

/-- The fragment at `bprev` can be extended from `o` to `n` fragments in its place. -/
def CanExtend (l : FsLayout) (readable : ℕ → Bool) (s : Groups) (bprev o n : ℕ) : Prop :=
  readable (l.dtog bprev) = true ∧ bprev % l.frag + n ≤ l.frag ∧
    ∀ i, o ≤ i → i < n → s.free l (bprev + i) = true

/-- The buffer of the block `lbprev` has the address of the fragment, or is one of a direct block
and has none yet. -/
structure BufPlaced (shift : ℕ) (lbprev : ℤ) (bprev : ℕ) (blkno : ℤ) : Prop where
  /-- The block of a buffer without an address is a direct block. -/
  direct : blkno = lbprev → lbprev < ufsNdaddr
  /-- The address is that of the fragment. -/
  address : blkno ≠ lbprev → blkno = fsbtodb shift bprev

/-- An attempt of `ffs_realloccg` can be answered: the fragment can be extended in its place, or
there is room for what `fs_optim` makes of the request. -/
structure ReallocAvailable (l : FsLayout) (env : Attempt) (privileged : Bool) (s : Groups)
    (bprev o n : ℕ) : Prop where
  /-- The reserve is not touched, or the caller may touch it. -/
  reserve : privileged = true ∨ ((n - o : ℕ) : ℤ) ≤ s.freespace l l.minfree
  /-- The buffer of the fragment can be read. -/
  bread : env.bread = true
  /-- There is room. -/
  room : CanExtend l env.readable s bprev o n ∨ ∃ c, c < l.ncg ∧ env.readable c = true ∧
    HasRoom l (s.cg c).blksfree (l.numfrags (s.reallocRequest l (n * l.geom.fsize)).1)

theorem sizeOk_reallocRequest (l : FsLayout) (s : Groups) (h1 : 1 ≤ n) (hn : n ≤ l.frag) :
    SizeOk l (s.reallocRequest l (n * l.geom.fsize)).1 (n * l.geom.fsize) := by
  unfold Groups.reallocRequest
  cases s.optim with
  | space => exact sizeOk_self l h1 hn
  | time => exact sizeOk_bsize l h1 hn

/-- `fs_optim` does not matter for the invariant. -/
theorem Good.optim (hgood : Good l s) (optim : Optim) : Good l { s with optim := optim } :=
  ⟨hgood.group, hgood.cs, hgood.totals, hgood.maxcluster, hgood.zero⟩

/-- Whether a fragment that moved is kept: the dedup table has references to it, or the block of
its group cannot be read. -/
def keepsOld (l : FsLayout) (env : Attempt) (shared : Bool) (bprev : ℕ) : Bool :=
  shared || !env.readable (l.dtog bprev)

/-- The end of an attempt that found another place: the old fragment is freed, unless it is
kept. -/
theorem Takes.free_old (env : Attempt) (shared : Bool) (h : Takes l s t r n) (hgood : Good l t)
    (hb : bprev ≠ 0) (ho : 1 ≤ o) (hfits : bprev % l.frag + o ≤ l.frag)
    (hend : bprev + o ≤ l.size) (hown : ∀ i, i < o → s.free l (bprev + i) = false) :
    ∃ s', (if shared then some t
        else ffsBlkfreeCg l env.readable t bprev (o * l.geom.fsize)) = some s' ∧ Good l s' ∧
      Moves l s s' bprev o r n (keepsOld l env shared bprev) := by
  unfold keepsOld
  cases shared with
  | true => exact ⟨t, rfl, hgood, h.moves_kept bprev o⟩
  | false =>
    obtain ⟨-, hfree, hunread⟩ := ffsBlkfreeCg_spec env.readable hgood hb ho hfits hend
    cases hread : env.readable (l.dtog bprev) with
    | true =>
      obtain ⟨s', heq, hgood', hgives⟩ := hfree hread fun i hi => by
        rw [h.free, hown i hi, Bool.and_false]
      exact ⟨s', heq, hgood', h.moves_gives hgives hown⟩
    | false => exact ⟨t, hunread hread, hgood, h.moves_kept bprev o⟩

/-- With such a buffer an attempt of `ffs_realloccg` comes to extend the fragment. -/
theorem BufPlaced.blkno_eq {shift : ℕ} {lbprev blkno : ℤ}
    (h : BufPlaced shift lbprev bprev blkno) :
    ¬(blkno = lbprev ∧ (ufsNdaddr : ℤ) ≤ lbprev) ∧
      (if blkno = lbprev then fsbtodb shift bprev else blkno) = fsbtodb shift bprev := by
  refine ⟨fun hno => absurd (h.direct hno.1) (not_lt_of_ge hno.2), ?_⟩
  by_cases heq : blkno = lbprev
  · rw [if_pos heq]
  · rw [if_neg heq, h.address heq]

/-- An attempt of `ffs_realloccg` moves the fragment exactly if it can be answered. Otherwise only
`fs_optim` may change. -/
theorem Groups.reallocOnce_spec (env : ReallocAttempt) (privileged shared : Bool) {shift : ℕ}
    {lbprev : ℤ} (hbuf : BufPlaced shift lbprev bprev env.blkno) (hgood : Good l s)
    (hb : bprev ≠ 0) (ho : 1 ≤ o) (hon : o < n) (hn : n ≤ l.frag)
    (hfits : bprev % l.frag + o ≤ l.frag) (hend : bprev + o ≤ l.size)
    (hown : ∀ i, i < o → s.free l (bprev + i) = false) (bpref : ℕ) :
    ∃ s' res, s.reallocOnce l env privileged shared shift lbprev bprev bpref (o * l.geom.fsize)
        (n * l.geom.fsize) = some (s', res) ∧ Good l s' ∧
      (ReallocAvailable l env.toAttempt privileged s bprev o n → ∃ r, res = .ok r ∧ r ≠ 0 ∧
        Moves l s s' bprev o r n (keepsOld l env.toAttempt shared bprev)) ∧
      (¬ ReallocAvailable l env.toAttempt privileged s bprev o n →
        (res = .ok 0 ∨ res = .error .bread) ∧ ∃ optim, s' = { s with optim := optim }) := by
  have hcg : l.dtog bprev < l.ncg := l.dtog_lt (by omega)
  have hmore : l.numfrags (n * l.geom.fsize - o * l.geom.fsize) = n - o := by
    rw [← Nat.sub_mul, numfrags_mul]
  obtain ⟨hrange, haddr⟩ := hbuf.blkno_eq
  unfold Groups.reallocOnce
  rw [hmore]
  by_cases hres : (!privileged) = true ∧ s.freespace l l.minfree - ((n - o : ℕ) : ℤ) < 0
  · rw [if_pos hres]
    exact ⟨s, _, rfl, hgood, fun h => absurd h.reserve (reserve_refuses_iff.mp hres),
      fun _ => ⟨.inl rfl, s.optim, rfl⟩⟩
  have hreserve : privileged = true ∨ ((n - o : ℕ) : ℤ) ≤ s.freespace l l.minfree :=
    not_not.mp fun h => hres (reserve_refuses_iff.mpr h)
  rw [if_neg hres, if_neg hb]
  cases hbread : env.bread with
  | false =>
    exact ⟨s, _, rfl, hgood, fun h => absurd (hbread.symm.trans h.bread) (by decide),
      fun _ => ⟨.inr rfl, s.optim, rfl⟩⟩
  | true =>
    obtain ⟨t, r, hext, hgoodt, hyes, hno⟩ := ffsFragextend_spec env.readable hgood hcg ho hon hn
      hfits (hown (o - 1) (by omega))
    simp only [Bool.not_true, Bool.false_eq_true, if_false, if_neg hrange, haddr, hext]
    by_cases hcan : CanExtend l env.readable s bprev o n
    · obtain ⟨rfl, htakes⟩ := hyes hcan
      refine ⟨t, .ok r, by rw [if_pos hb, if_neg fun h => h rfl], hgoodt, fun _ => ?_,
        fun h => ?_⟩
      · exact ⟨r, rfl, hb, htakes.moves hon hcan.2.1 hown _⟩
      · exact absurd ⟨hreserve, hbread, .inl hcan⟩ h
    obtain ⟨rfl, rfl⟩ := hno hcan
    obtain ⟨u, r, hsearch, hgoodu, hroom, hnone⟩ := ffsHashalloc_takes env.readable
      (hgoodt.optim (t.reallocRequest l (n * l.geom.fsize)).2) hcg (Groups.bprefIn l bpref)
      (sizeOk_reallocRequest l t (by omega) hn)
    simp only [ne_eq, not_true, if_false, hsearch]
    by_cases hex : ∃ c, c < l.ncg ∧ env.readable c = true ∧ HasRoom l (t.cg c).blksfree
        (l.numfrags (t.reallocRequest l (n * l.geom.fsize)).1)
    · obtain ⟨hr, -, htakes, -⟩ := hroom hex
      rw [numfrags_mul] at htakes
      have htakes' : Takes l t u r n := ⟨htakes.fits, htakes.was, htakes.free, htakes.inodes⟩
      obtain ⟨s', heq, hgood', hmoves⟩ :=
        htakes'.free_old env.toAttempt shared hgoodu hb ho hfits hend hown
      refine ⟨s', .ok r, ?_, hgood', fun _ => ⟨r, rfl, hr, hmoves⟩,
        fun h => absurd ⟨hreserve, hbread, .inr hex⟩ h⟩
      rw [if_neg hr]
      cases hs : shared with
      | true =>
        rw [hs] at heq
        obtain rfl := Option.some.inj heq
        rfl
      | false =>
        simp only [hs, Bool.false_eq_true, if_false] at heq ⊢
        rw [heq]
    · obtain ⟨rfl, hu⟩ := hnone hex
      refine ⟨u, .ok 0, by rw [if_pos rfl], hgoodu, fun h => ?_,
        fun _ => ⟨.inl rfl, _, hu⟩⟩
      rcases h.room with h | h
      · exact absurd h hcan
      · exact absurd h hex

/-- With any other buffer, an attempt that could extend the fragment panics. -/
theorem Groups.reallocOnce_stale {env : ReallocAttempt} {privileged : Bool} (shared : Bool)
    {shift : ℕ} {lbprev : ℤ} (hbuf : ¬BufPlaced shift lbprev bprev env.blkno) (hgood : Good l s)
    (hb : bprev ≠ 0) (ho : 1 ≤ o) (hon : o < n) (hn : n ≤ l.frag)
    (hfits : bprev % l.frag + o ≤ l.frag) (hend : bprev + o ≤ l.size)
    (hown : ∀ i, i < o → s.free l (bprev + i) = false) (bpref : ℕ)
    (hreserve : privileged = true ∨ ((n - o : ℕ) : ℤ) ≤ s.freespace l l.minfree)
    (hbread : env.bread = true) (hcan : CanExtend l env.readable s bprev o n) :
    s.reallocOnce l env privileged shared shift lbprev bprev bpref (o * l.geom.fsize)
      (n * l.geom.fsize) = none := by
  have hcg : l.dtog bprev < l.ncg := l.dtog_lt (by omega)
  have hmore : l.numfrags (n * l.geom.fsize - o * l.geom.fsize) = n - o := by
    rw [← Nat.sub_mul, numfrags_mul]
  have hres : ¬((!privileged) = true ∧ s.freespace l l.minfree - ((n - o : ℕ) : ℤ) < 0) :=
    fun h => reserve_refuses_iff.mp h hreserve
  obtain ⟨t, r, hext, -, hyes, -⟩ := ffsFragextend_spec env.readable hgood hcg ho hon hn hfits
    (hown (o - 1) (by omega))
  obtain ⟨rfl, -⟩ := hyes hcan
  unfold Groups.reallocOnce
  rw [hmore, if_neg hres, if_neg hb, hbread]
  simp only [Bool.not_true, Bool.false_eq_true, if_false, hext]
  by_cases hrange : env.blkno = lbprev ∧ (ufsNdaddr : ℤ) ≤ lbprev
  · rw [if_pos hrange]
  · have hne : env.blkno ≠ lbprev := fun heq =>
      hbuf ⟨fun _ => not_le.mp fun hle => hrange ⟨heq, hle⟩, fun hno => absurd heq hno⟩
    have hstale : env.blkno ≠ fsbtodb shift r := fun heq =>
      hbuf ⟨fun hno => absurd hno hne, fun _ => heq⟩
    rw [if_neg hrange, if_pos hb, if_neg hne, if_pos hstale]

/-- `ffs_realloccg` with a buffer that has its address. -/
theorem Groups.ffsRealloccg_moves {env : ℕ → ReallocAttempt} (privileged buflocked cleanup : Bool)
    (shared : Bool) {shift : ℕ} {lbprev : ℤ}
    (hbuf : ∀ k, BufPlaced shift lbprev bprev (env k).blkno) (hgood : Good l s)
    (hb : bprev ≠ 0) (ho : 1 ≤ o) (hon : o < n) (hn : n ≤ l.frag)
    (hfits : bprev % l.frag + o ≤ l.frag) (hend : bprev + o ≤ l.size)
    (hown : ∀ i, i < o → s.free l (bprev + i) = false) (bpref : ℕ) :
    ∃ s' res, s.ffsRealloccg l env privileged buflocked cleanup shared shift lbprev bprev bpref
        (o * l.geom.fsize) (n * l.geom.fsize) = some (s', res) ∧ Good l s' ∧
      (∀ r, res = .ok r → r ≠ 0 ∧ ∃ k, k < 2 ∧
        Moves l s s' bprev o r n (keepsOld l (env k).toAttempt shared bprev)) ∧
      (∀ e, res = .error e → ∀ d, s'.free l d = s.free l d) ∧
      (ReallocAvailable l (env 0).toAttempt privileged s bprev o n → ∃ r, res = .ok r) := by
  obtain ⟨s₀, res₀, heq₀, hgood₀, hyes₀, hno₀⟩ := Groups.reallocOnce_spec (env 0) privileged
    shared (hbuf 0) hgood hb ho hon hn hfits hend hown bpref
  unfold Groups.ffsRealloccg
  rw [heq₀]
  by_cases h₀ : ReallocAvailable l (env 0).toAttempt privileged s bprev o n
  · obtain ⟨r, rfl, hr, hmoves⟩ := hyes₀ h₀
    refine ⟨s₀, .ok r, by simp only [ne_eq, hr, not_false_eq_true, if_true], hgood₀, ?_,
      fun e he => by simp at he, fun _ => ⟨r, rfl⟩⟩
    intro r' hr'
    obtain rfl := Except.ok.inj hr'
    exact ⟨hr, 0, by decide, hmoves⟩
  obtain ⟨hres₀, optim, rfl⟩ := hno₀ h₀
  have hfree : ∀ d, Groups.free l { s with optim := optim } d = s.free l d := fun _ => rfl
  rcases hres₀ with rfl | rfl
  · simp only [ne_eq, not_true, if_false]
    cases hlock : buflocked with
    | true =>
      exact ⟨_, _, rfl, hgood₀, fun r hr => by simp at hr, fun _ _ => hfree,
        fun h => absurd h h₀⟩
    | false =>
      obtain ⟨s₁, res₁, heq₁, hgood₁, hyes₁, hno₁⟩ := Groups.reallocOnce_spec (env 1) privileged
        shared (hbuf 1) hgood₀ hb ho hon hn hfits hend hown bpref
      simp only [Bool.false_eq_true, if_false, heq₁]
      by_cases h₁ : ReallocAvailable l (env 1).toAttempt privileged { s with optim := optim }
          bprev o n
      · obtain ⟨r, rfl, hr, hmoves⟩ := hyes₁ h₁
        refine ⟨s₁, .ok r, by simp only [hr, not_false_eq_true, if_true], hgood₁, ?_,
          fun e he => by simp at he, fun h => absurd h h₀⟩
        intro r' hr'
        obtain rfl := Except.ok.inj hr'
        exact ⟨hr, 1, by decide, ⟨hmoves.fits, hmoves.was, hmoves.free, hmoves.inodes⟩⟩
      · obtain ⟨hres₁, optim₁, rfl⟩ := hno₁ h₁
        rcases hres₁ with rfl | rfl
        · exact ⟨_, _, rfl, hgood₁, fun r hr => by simp at hr, fun _ _ _ => rfl,
            fun h => absurd h h₀⟩
        · exact ⟨_, _, rfl, hgood₁, fun r hr => by simp at hr, fun _ _ _ => rfl,
            fun h => absurd h h₀⟩
  · exact ⟨_, _, rfl, hgood₀, fun r hr => by simp at hr, fun _ _ => hfree,
      fun h => absurd h h₀⟩

/-- `ffs_realloccg` for a fragment of `o` fragments that is to have `n`, with a buffer that has its
address: it never panics, the fragment has moved if it succeeds, and the free map is as before if
it fails. It succeeds if its first attempt can be answered. Where the first attempt can extend the
fragment in its place, it panics if and only if its buffer has another address. -/
theorem Groups.ffsRealloccg_spec (env : ℕ → ReallocAttempt)
    (privileged buflocked cleanup shared : Bool) (shift : ℕ) (lbprev : ℤ) (hgood : Good l s)
    (hb : bprev ≠ 0) (ho : 1 ≤ o) (hon : o < n) (hn : n ≤ l.frag)
    (hfits : bprev % l.frag + o ≤ l.frag) (hend : bprev + o ≤ l.size)
    (hown : ∀ i, i < o → s.free l (bprev + i) = false) (bpref : ℕ) :
    ((∀ k, BufPlaced shift lbprev bprev (env k).blkno) →
      ∃ s' res, s.ffsRealloccg l env privileged buflocked cleanup shared shift lbprev bprev bpref
          (o * l.geom.fsize) (n * l.geom.fsize) = some (s', res) ∧ Good l s' ∧
        (∀ r, res = .ok r → r ≠ 0 ∧ ∃ k, k < 2 ∧
          Moves l s s' bprev o r n (keepsOld l (env k).toAttempt shared bprev)) ∧
        (∀ e, res = .error e → ∀ d, s'.free l d = s.free l d) ∧
        (ReallocAvailable l (env 0).toAttempt privileged s bprev o n → ∃ r, res = .ok r)) ∧
    (privileged = true ∨ ((n - o : ℕ) : ℤ) ≤ s.freespace l l.minfree → (env 0).bread = true →
      CanExtend l (env 0).readable s bprev o n →
      (s.ffsRealloccg l env privileged buflocked cleanup shared shift lbprev bprev bpref
          (o * l.geom.fsize) (n * l.geom.fsize) = none ↔
        ¬BufPlaced shift lbprev bprev (env 0).blkno)) := by
  refine ⟨fun hbuf => Groups.ffsRealloccg_moves privileged buflocked cleanup shared hbuf hgood hb
    ho hon hn hfits hend hown bpref, fun hreserve hbread hcan => ⟨fun hnone hbuf => ?_,
      fun hbuf => ?_⟩⟩
  · obtain ⟨s₀, res₀, heq₀, -, hyes₀, -⟩ := Groups.reallocOnce_spec (env 0) privileged
      shared hbuf hgood hb ho hon hn hfits hend hown bpref
    obtain ⟨r, rfl, hr, -⟩ := hyes₀ ⟨hreserve, hbread, .inl hcan⟩
    simp [Groups.ffsRealloccg, heq₀, hr] at hnone
  · have hnone := Groups.reallocOnce_stale shared hbuf hgood hb ho hon hn hfits hend hown bpref
      hreserve hbread hcan
    simp only [Groups.ffsRealloccg, hnone]

end Realloc

end EmbeddedOs.Ddfs
