import EmbeddedOs.Ddfs.Statddfs
import Mathlib.Tactic.Ring

/-!
# The layout `mkfs` chooses

The computation of the superblock in `mkfs.c`: the place and the size of the dedup table, and the
loops that choose the size of the cylinder groups, up to the free blocks that are counted for each
group. The loops run by a fuel, and `mkfs` completes if some fuel is enough. It is no completed
run where the code exits, or where it divides by zero.
-/

namespace EmbeddedOs.Ddfs

/-- `howmany`. -/
def howmany (x y : ℕ) : ℕ := (x + (y - 1)) / y

/-- `roundup`. -/
def roundup (x y : ℕ) : ℕ := howmany x y * y

section Rounding

variable {x x' y : ℕ}

theorem le_howmany_mul (hy : 0 < y) : x ≤ howmany x y * y := by
  have hdiv := Nat.div_add_mod (x + (y - 1)) y
  have hmod := Nat.mod_lt (x + (y - 1)) hy
  rw [howmany, Nat.mul_comm]
  omega

theorem howmany_mul_lt (hy : 0 < y) : howmany x y * y < x + y := by
  have hdiv := Nat.div_add_mod (x + (y - 1)) y
  rw [howmany, Nat.mul_comm]
  omega

theorem howmany_mono (h : x ≤ x') (y : ℕ) : howmany x y ≤ howmany x' y :=
  Nat.div_le_div_right (by omega)

theorem le_roundup (hy : 0 < y) : x ≤ roundup x y := le_howmany_mul hy

theorem dvd_roundup : y ∣ roundup x y := Nat.dvd_mul_left y _

theorem roundup_mono (h : x ≤ x') (y : ℕ) : roundup x y ≤ roundup x' y :=
  Nat.mul_le_mul_right y (howmany_mono h y)

end Rounding

/-- The block and fragment sizes that `mkfs` accepts, with `fs_contigsumsize`. -/
structure Geometry where
  /-- `fs_fshift`. -/
  fshift : ℕ
  /-- `fs_fragshift`. -/
  fragshift : ℕ
  /-- `fs_contigsumsize`. -/
  contigsumsize : ℕ
  /-- A fragment has at least a sector. -/
  le_fshift : 9 ≤ fshift
  /-- `MAXFRAG`. -/
  fragshift_le : fragshift ≤ 3
  /-- `MINBSIZE`. -/
  le_bshift : 12 ≤ fshift + fragshift
  /-- `MAXBSIZE`. -/
  bshift_le : fshift + fragshift ≤ 16

namespace Geometry

variable (g : Geometry)

/-- `fs_fsize`. -/
def fsize : ℕ := 2 ^ g.fshift

/-- `fs_frag`. -/
def frag : ℕ := 2 ^ g.fragshift

/-- `fs_bsize`. -/
def bsize : ℕ := 2 ^ (g.fshift + g.fragshift)

/-- `INOPB`: a `ufs2_dinode` has 256 bytes. -/
def inopb : ℕ := g.bsize / 256

/-- `INOPF`. -/
def inopf : ℕ := g.inopb / g.frag

/-- `CGSIZE`: `sizeof(struct cg)` is 176. -/
def cgsize (ipg fpg : ℕ) : ℕ :=
  176 + 4 + howmany ipg 8 + howmany fpg 8 +
    if g.contigsumsize = 0 then 0 else g.contigsumsize * 4 + howmany (fpg / g.frag) 8

/-- `fs_size` on a medium of `mediasize` bytes. -/
def size (mediasize : ℕ) : ℕ := mediasize / 512 / (g.fsize / 512)

/-- `fs_sblkno`. -/
def sblkno : ℕ := roundup (howmany (65536 + 8192) g.fsize) g.frag

/-- `fs_ddblkno`. -/
def ddblkno : ℕ := g.sblkno + howmany 8192 g.fsize

/-- The number of fragments for the dedup table, in 64 bits. -/
def extraFrags (mediasize : ℕ) : ℕ :=
  roundup (howmany (roundup (mediasize / 8) g.fsize) g.fsize) g.frag

/-- `fs_dedupfrags`. -/
def dedupfrags (mediasize : ℕ) : ℤ := int32 (g.extraFrags mediasize)

/-- `fs_cblkno`, unless the table ends in front of the medium. -/
def cblkno (mediasize : ℕ) : ℕ :=
  roundup (g.ddblkno + g.dedupfrags mediasize).toNat g.frag + roundup (howmany 8192 g.fsize) g.frag

/-- `fs_iblkno`. -/
def iblkno (mediasize : ℕ) : ℕ := g.cblkno mediasize + g.frag

theorem fsize_pos : 0 < g.fsize := Nat.two_pow_pos _

theorem frag_pos : 0 < g.frag := Nat.two_pow_pos _

theorem frag_le : g.frag ≤ 8 := Nat.pow_le_pow_right (by decide) g.fragshift_le

theorem bsize_le : g.bsize ≤ 65536 := Nat.pow_le_pow_right (by decide) g.bshift_le

theorem bsize_eq : g.bsize = g.frag * g.fsize := by
  rw [bsize, Nat.add_comm, Nat.pow_add]
  rfl

/-- A fragment has whole sectors. -/
theorem fsize_eq : g.fsize = g.fsize / 512 * 512 :=
  (Nat.div_mul_cancel (Nat.pow_dvd_pow 2 g.le_fshift : 2 ^ 9 ∣ g.fsize)).symm

/-- The map of a group in a block limits the number of its fragments. -/
theorem lt_of_cgsize_lt {ipg fpg : ℕ} (h : g.cgsize ipg fpg < g.bsize) : fpg < 8 * g.bsize := by
  have hmap : howmany fpg 8 < g.bsize := by
    rw [cgsize] at h
    omega
  have hle : fpg ≤ howmany fpg 8 * 8 := le_howmany_mul (by decide)
  omega

/-- The table ends in front of the first group. -/
theorem tableEnd_le_cblkno (mediasize : ℕ) :
    g.ddblkno + g.dedupfrags mediasize ≤ g.cblkno mediasize := by
  have hround : (g.ddblkno + g.dedupfrags mediasize).toNat ≤
      roundup (g.ddblkno + g.dedupfrags mediasize).toNat g.frag := le_roundup g.frag_pos
  rw [cblkno]
  omega

/-- Blocks and fragments of 4096 bytes. -/
def whole : Geometry := ⟨12, 0, 16, by decide, by decide, by decide, by decide⟩

end Geometry

/-- The options of `newfs-ddfs` for the cylinder groups; the file system takes the whole medium. -/
structure MkfsOptions where
  /-- `density`, 0 for the default. -/
  density : ℕ
  /-- `maxblkspercg`. -/
  maxblkspercg : ℕ

/-- The options of a call without options. -/
def defaultOptions : MkfsOptions := ⟨0, 0x7fffffff⟩

section Loops

variable (g : Geometry) (size iblkno : ℕ)

/-- `fs_ipg` for `fs_fpg`. -/
def ipgOf (fragsperinode fpg : ℕ) : ℕ := roundup (howmany fpg fragsperinode) g.inopb

/-- The least `fs_fpg` that holds the table and the inodes. -/
def metaFrags (ipg : ℕ) : ℕ := roundup (iblkno + ipg / g.inopf) g.frag

/-- The loop for the density: `fragsperinode`, `fs_fpg` and `fs_ipg`. A restart with larger blocks
is a run with another geometry. -/
def densityLoop (minfragsperinode : ℕ) : ℕ → ℤ → Option (ℕ × ℕ × ℕ)
  | 0, _ => none
  | fuel + 1, density =>
    let fragsperinode := max (density / g.fsize).toNat 1
    if fragsperinode < minfragsperinode then none
    else
      let minfpg := min (fragsperinode * g.inopb) size
      let fpg := max (metaFrags g iblkno g.inopb) minfpg
      let ipg := ipgOf g fragsperinode fpg
      let fpg := max (metaFrags g iblkno ipg) minfpg
      let ipg := ipgOf g fragsperinode fpg
      if g.cgsize ipg fpg < g.bsize then some (fragsperinode, fpg, ipg)
      else densityLoop minfragsperinode fuel (density - g.fsize)

/-- The loop that packs blocks into the cylinder groups; `MINCYLGRPS` is 1. -/
def packLoop (maxblkspercg fragsperinode : ℕ) : ℕ → ℕ → ℕ → Option (ℕ × ℕ)
  | 0, _, _ => none
  | fuel + 1, fpg, ipg =>
    if fpg < maxblkspercg then
      let ipg := ipgOf g fragsperinode fpg
      if size / fpg < 1 then some (fpg, ipg)
      else if g.cgsize ipg fpg < g.bsize then
        packLoop maxblkspercg fragsperinode fuel (fpg + g.frag) ipg
      else if g.cgsize ipg fpg = g.bsize then some (fpg, ipg)
      else
        let fpg := fpg - g.frag
        some (fpg, ipgOf g fragsperinode fpg)
    else some (fpg, ipg)

/-- The loop that makes the last cylinder group large enough. -/
def lastGroupLoop (fragsperinode : ℕ) : ℕ → ℕ → ℕ → Option (ℕ × ℕ)
  | 0, _, _ => none
  | fuel + 1, fpg, ipg =>
    if fpg = 0 then none
    else
      let lastminfpg := metaFrags g iblkno ipg
      -- `exit(28)`
      if size < lastminfpg then none
      else if lastminfpg ≤ size % fpg ∨ size % fpg = 0 then some (fpg, ipg)
      else
        let fpg := fpg - g.frag
        lastGroupLoop fragsperinode fuel fpg (ipgOf g fragsperinode fpg)

end Loops

/-- The fields of the superblock. -/
structure MkfsLayout where
  /-- `fs_size`. -/
  size : ℕ
  /-- `fs_sblkno`. -/
  sblkno : ℕ
  /-- `fs_ddblkno`. -/
  ddblkno : ℕ
  /-- `fs_dedupfrags`. -/
  dedupfrags : ℤ
  /-- `fs_cblkno`. -/
  cblkno : ℕ
  /-- `fs_iblkno`. -/
  iblkno : ℕ
  /-- `fs_dblkno`. -/
  dblkno : ℕ
  /-- `fs_fpg`. -/
  fpg : ℕ
  /-- `fs_ipg`. -/
  ipg : ℕ
  /-- `fs_ncg`. -/
  ncg : ℕ
  /-- `fs_cssize`. -/
  cssize : ℕ
  /-- `fs_cstotal.cs_nbfree` before the root directory is allocated. -/
  nbfree : ℤ

/-! ## `initcg` -/

/-- The number of rounds of a `for` loop over the fragments from `d` on, a block at a time. -/
def countBlocksWhile (frag : ℕ) (inside : ℕ → Bool) : ℕ → ℕ → ℕ
  | 0, _ => 0
  | fuel + 1, d => if inside d then countBlocksWhile frag inside fuel (d + frag) + 1 else 0

/-- The `cg_cs.cs_nbfree` that `initcg` counts. -/
def initcg (g : Geometry) (l : MkfsLayout) (cylno : ℕ) : ℕ :=
  let cbase := cylno * l.fpg
  let dmax := min (cbase + l.fpg) l.size
  let dlower := (l.ddblkno + l.dedupfrags).toNat
  let dupper := l.dblkno + if cylno = 0 then howmany l.cssize g.fsize else 0
  let ndblk := dmax - cbase
  let front := if 0 < cylno then countBlocksWhile g.frag (fun d => d < dlower) dlower 0 else 0
  front + countBlocksWhile g.frag (fun d => d + g.frag ≤ ndblk) ndblk (roundup dupper g.frag)

/-- The rounds of a loop from `d` to a block that ends behind `n`. -/
theorem countBlocksWhile_ends {frag : ℕ} (hfrag : 0 < frag) (n : ℕ) {fuel d : ℕ}
    (hfuel : n ≤ fuel + d) :
    countBlocksWhile frag (fun d => d + frag ≤ n) fuel d = (n - d) / frag := by
  induction fuel generalizing d with
  | zero => rw [countBlocksWhile, show n - d = 0 by omega, Nat.zero_div]
  | succ fuel ih =>
    rw [countBlocksWhile]
    by_cases hin : d + frag ≤ n
    · rw [if_pos (decide_eq_true hin), ih (by omega), ← Nat.add_div_right _ hfrag]
      congr 1
      omega
    · rw [if_neg (by simpa using hin), Nat.div_eq_of_lt (by omega)]

/-- The free blocks of the first group are those behind the summary. -/
theorem initcg_zero (g : Geometry) (l : MkfsLayout) : initcg g l 0 =
    (min l.fpg l.size - roundup (l.dblkno + howmany l.cssize g.fsize) g.frag) / g.frag := by
  simp only [initcg, Nat.lt_irrefl, if_false, Nat.zero_mul, Nat.zero_add, Nat.sub_zero, if_true]
  exact countBlocksWhile_ends g.frag_pos _ (by omega)

/-- There is a free block in the first group only if it goes on behind the inodes. -/
theorem lt_fpg_of_initcg {g : Geometry} {l : MkfsLayout} (h : initcg g l 0 ≠ 0) :
    l.dblkno < l.fpg := by
  have hround := le_roundup (x := l.dblkno + howmany l.cssize g.fsize) g.frag_pos
  rw [initcg_zero] at h
  by_contra hle
  apply h
  rw [show min l.fpg l.size - roundup (l.dblkno + howmany l.cssize g.fsize) g.frag = 0 by omega,
    Nat.zero_div]

/-! ## `mkfs` -/

/-- The superblock, once the size of the groups is chosen. -/
def layoutOf (g : Geometry) (mediasize fpg ipg : ℕ) : MkfsLayout :=
  let size := g.size mediasize
  let iblkno := g.iblkno mediasize
  -- `fs_ncg` and its product have 32 bits
  let ncg := howmany size fpg % 2 ^ 32
  let dblkno := iblkno + ipg / g.inopf
  let cssize := roundup (ncg * 16) g.fsize
  let csfrags := howmany cssize g.fsize
  let dsize : ℤ := size - g.sblkno - (ncg * ((dblkno : ℤ) - g.sblkno)) % 2 ^ 32
  { size := size
    sblkno := g.sblkno
    ddblkno := g.ddblkno
    dedupfrags := g.dedupfrags mediasize
    cblkno := g.cblkno mediasize
    iblkno := iblkno
    dblkno := dblkno
    fpg := fpg
    ipg := ipg
    ncg := ncg
    cssize := cssize
    nbfree := dsize / g.frag - howmany csfrags g.frag }

/-- `minfragsperinode`. -/
def minFragsPerInode (g : Geometry) (mediasize : ℕ) : ℕ := 1 + g.size mediasize / (2 ^ 32 - g.inopb)

/-- `density` before the loop that lowers it. -/
def startDensity (g : Geometry) (o : MkfsOptions) (mediasize : ℕ) : ℕ :=
  if o.density = 0 then max 2 (minFragsPerInode g mediasize) * g.fsize
  else max o.density (minFragsPerInode g mediasize * g.fsize)

/-- `mkfs`, as far as the layout goes. -/
def mkfs (g : Geometry) (o : MkfsOptions) (mediasize fuel : ℕ) : Option MkfsLayout :=
  let size := g.size mediasize
  let iblkno := g.iblkno mediasize
  -- `initcg` cannot write a backup superblock in front of the medium
  if g.ddblkno + g.dedupfrags mediasize < 0 then none
  else
    match densityLoop g size iblkno (minFragsPerInode g mediasize) fuel
      (startDensity g o mediasize) with
    | none => none
    | some (fragsperinode, fpg, ipg) =>
      match packLoop g size o.maxblkspercg fragsperinode fuel fpg ipg with
      | none => none
      | some (fpg, ipg) =>
        match lastGroupLoop g size iblkno fragsperinode fuel fpg ipg with
        | none => none
        | some (fpg, ipg) =>
          let l := layoutOf g mediasize fpg ipg
          -- the summary of all groups is in an `int`, and `alloc` wants a free block in group 0
          if l.ncg = 0 ∨ 2 ^ 31 ≤ l.cssize ∨ initcg g l 0 = 0 then none else some l

/-- `mkfs` completes with a layout. -/
def Completes (g : Geometry) (o : MkfsOptions) (mediasize : ℕ) (l : MkfsLayout) : Prop :=
  ∃ fuel, mkfs g o mediasize fuel = some l

/-! ## What the loops choose -/

section Choice

variable {g : Geometry} {size iblkno minfragsperinode maxblkspercg fragsperinode fpg ipg : ℕ}
  {fpg' ipg' fuel : ℕ}

/-- The map of a group with `fpg` fragments fits into a block. -/
def Fits (g : Geometry) (fragsperinode fpg : ℕ) : Prop :=
  g.cgsize (ipgOf g fragsperinode fpg) fpg < g.bsize

instance (g : Geometry) (fragsperinode fpg : ℕ) : Decidable (Fits g fragsperinode fpg) :=
  inferInstanceAs (Decidable (_ < _))

theorem ipgOf_mono {fpg fpg' : ℕ} (h : fpg ≤ fpg') (fragsperinode : ℕ) :
    ipgOf g fragsperinode fpg ≤ ipgOf g fragsperinode fpg' :=
  roundup_mono (howmany_mono h _) _

theorem cgsize_mono (hipg : ipg ≤ ipg') (hfpg : fpg ≤ fpg') :
    g.cgsize ipg fpg ≤ g.cgsize ipg' fpg' := by
  have hinodes := howmany_mono hipg 8
  have hfrags := howmany_mono hfpg 8
  have hblocks := howmany_mono (Nat.div_le_div_right (c := g.frag) hfpg) 8
  simp only [Geometry.cgsize]
  split <;> omega

theorem Fits.mono (h : Fits g fragsperinode fpg') (hle : fpg ≤ fpg') : Fits g fragsperinode fpg :=
  Nat.lt_of_le_of_lt (cgsize_mono (ipgOf_mono hle _) hle) h

theorem Fits.lt (h : Fits g fragsperinode fpg) : fpg < 8 * g.bsize := g.lt_of_cgsize_lt h

/-- What the loop for the density chooses. -/
structure DensityChoice (g : Geometry) (size iblkno minfragsperinode : ℕ) (density : ℤ)
    (fragsperinode fpg ipg : ℕ) : Prop where
  fits : Fits g fragsperinode fpg
  ipg : ipg = ipgOf g fragsperinode fpg
  min_le : minfragsperinode ≤ fragsperinode
  le_density : fragsperinode ≤ max (density / g.fsize).toNat 1
  minfpg_le : min (fragsperinode * g.inopb) size ≤ fpg
  iblkno_le : iblkno ≤ fpg

/-- The density is lowered until the map of a group fits into a block. -/
theorem densityLoop_some {density : ℤ}
    (h : densityLoop g size iblkno minfragsperinode fuel density =
      some (fragsperinode, fpg, ipg)) :
    DensityChoice g size iblkno minfragsperinode density fragsperinode fpg ipg := by
  induction fuel generalizing density with
  | zero => cases h
  | succ fuel ih =>
    simp only [densityLoop] at h
    split at h
    · cases h
    · next hmin =>
      split at h
      · next hfits =>
        simp only [Option.some.injEq, Prod.mk.injEq] at h
        obtain ⟨rfl, rfl, rfl⟩ := h
        have hround := fun ipg => le_roundup (x := iblkno + ipg / g.inopf) g.frag_pos
        refine ⟨hfits, rfl, Nat.le_of_not_lt hmin, le_rfl, Nat.le_max_right _ _, ?_⟩
        exact (Nat.le_add_right _ _).trans ((hround _).trans (Nat.le_max_left _ _))
      · have hrest := ih h
        have hlower : (density - g.fsize) / g.fsize ≤ density / g.fsize :=
          Int.ediv_le_ediv (by exact_mod_cast g.fsize_pos) (by omega)
        have hle := hrest.le_density
        exact ⟨hrest.fits, hrest.ipg, hrest.min_le, by omega, hrest.minfpg_le, hrest.iblkno_le⟩

/-- A group of `fpg` fragments fits, or it does without its last block; it has `least` fragments. -/
def Tried (g : Geometry) (fragsperinode least fpg : ℕ) : Prop :=
  (least ≤ fpg ∧ Fits g fragsperinode fpg) ∨
    ∃ n, least ≤ n ∧ fpg = n + g.frag ∧ Fits g fragsperinode n

/-- What the packing chooses, starting with `least` fragments. -/
structure PackChoice (g : Geometry) (size maxblkspercg fragsperinode least fpg ipg : ℕ) : Prop where
  tried : Tried g fragsperinode least fpg
  /-- The reasons to stop. -/
  stop : maxblkspercg ≤ fpg ∨ size < fpg ∨
    g.cgsize (ipgOf g fragsperinode fpg) fpg = g.bsize ∨
    (Fits g fragsperinode fpg ∧ ¬Fits g fragsperinode (fpg + g.frag))
  ipg : fpg < maxblkspercg → ipg = ipgOf g fragsperinode fpg

/-- Blocks are packed until there are no more of them or the map does not fit. -/
theorem packLoop_some {least : ℕ} (hpos : 0 < least) (htried : Tried g fragsperinode least fpg)
    (h : packLoop g size maxblkspercg fragsperinode fuel fpg ipg = some (fpg', ipg')) :
    PackChoice g size maxblkspercg fragsperinode least fpg' ipg' := by
  induction fuel generalizing fpg ipg with
  | zero => cases h
  | succ fuel ih =>
    have hfpg : 0 < fpg := by
      rcases htried with ⟨hle, -⟩ | ⟨n, hle, rfl, -⟩ <;> omega
    simp only [packLoop] at h
    split at h
    · split at h
      · next hfew =>
        simp only [Option.some.injEq, Prod.mk.injEq] at h
        obtain ⟨rfl, rfl⟩ := h
        have hsize : size < fpg := by
          rw [Nat.lt_one_iff, Nat.div_eq_zero_iff] at hfew
          omega
        exact ⟨htried, Or.inr (Or.inl hsize), fun _ => rfl⟩
      · split at h
        · next hfits =>
          -- the next group has this one as the one it does without its last block
          have hleast : least ≤ fpg := by
            rcases htried with ⟨hle, -⟩ | ⟨n, hle, rfl, -⟩ <;> omega
          exact ih (Or.inr ⟨fpg, hleast, rfl, hfits⟩) h
        · next hbig =>
          split at h
          · next hfull =>
            simp only [Option.some.injEq, Prod.mk.injEq] at h
            obtain ⟨rfl, rfl⟩ := h
            exact ⟨htried, Or.inr (Or.inr (Or.inl hfull)), fun _ => rfl⟩
          · simp only [Option.some.injEq, Prod.mk.injEq] at h
            obtain ⟨rfl, rfl⟩ := h
            rcases htried with ⟨-, hfits⟩ | ⟨n, hle, rfl, hfits⟩
            · exact absurd hfits hbig
            · rw [Nat.add_sub_cancel]
              exact ⟨Or.inl ⟨hle, hfits⟩, Or.inr (Or.inr (Or.inr ⟨hfits, hbig⟩)), fun _ => rfl⟩
    · next hmax =>
      simp only [Option.some.injEq, Prod.mk.injEq] at h
      obtain ⟨rfl, rfl⟩ := h
      exact ⟨htried, Or.inl (Nat.le_of_not_lt hmax), fun hlt => absurd hlt hmax⟩

/-- Blocks are packed as long as there are enough of them and the map of the group fits. -/
theorem packLoop_advance {n : ℕ} (hmax : fpg + n * g.frag < maxblkspercg)
    (hsize : fpg + n * g.frag ≤ size) (hpos : 0 < fpg)
    (hfits : Fits g fragsperinode (fpg + n * g.frag)) (fuel : ℕ) :
    ∃ ipg', packLoop g size maxblkspercg fragsperinode (fuel + (n + 1)) fpg ipg =
      packLoop g size maxblkspercg fragsperinode fuel (fpg + (n + 1) * g.frag) ipg' := by
  have hone : ∀ fuel fpg ipg, fpg < maxblkspercg → fpg ≤ size → 0 < fpg →
      Fits g fragsperinode fpg →
      packLoop g size maxblkspercg fragsperinode (fuel + 1) fpg ipg =
        packLoop g size maxblkspercg fragsperinode fuel (fpg + g.frag)
          (ipgOf g fragsperinode fpg) := by
    intro fuel fpg ipg hmax hsize hpos hfits
    have hmany : ¬size / fpg < 1 := by
      rw [Nat.not_lt]
      exact Nat.div_pos hsize hpos
    rw [packLoop, if_pos hmax]
    simp only [if_neg hmany]
    exact if_pos hfits
  induction n generalizing fpg ipg with
  | zero =>
    simp only [Nat.zero_mul, Nat.add_zero] at hmax hsize hfits
    refine ⟨ipgOf g fragsperinode fpg, ?_⟩
    rw [Nat.zero_add, Nat.one_mul]
    exact hone fuel fpg ipg hmax hsize hpos hfits
  | succ n ih =>
    have hmul : (n + 1) * g.frag = n * g.frag + g.frag := Nat.succ_mul _ _
    have hnext : fpg + g.frag + n * g.frag = fpg + (n + 1) * g.frag := by omega
    have hlast : fpg + g.frag + (n + 1) * g.frag = fpg + (n + 1 + 1) * g.frag := by ring
    have hfirst : Fits g fragsperinode fpg := hfits.mono (by omega)
    rw [← Nat.add_assoc, hone _ _ _ (by omega) (by omega) hpos hfirst, ← hlast]
    apply ih
    · rw [hnext]
      exact hmax
    · rw [hnext]
      exact hsize
    · omega
    · rw [hnext]
      exact hfits

/-- Groups only shrink for the sake of the last one. -/
theorem lastGroupLoop_le (h : lastGroupLoop g size iblkno fragsperinode fuel fpg ipg =
    some (fpg', ipg')) : fpg' ≤ fpg := by
  induction fuel generalizing fpg ipg with
  | zero => cases h
  | succ fuel ih =>
    simp only [lastGroupLoop] at h
    split at h
    · cases h
    · split at h
      · cases h
      · split at h
        · simp only [Option.some.injEq, Prod.mk.injEq] at h
          omega
        · have hle := ih h
          omega

/-- The last group is whole or large enough for its inodes. -/
theorem lastGroupLoop_some (h : lastGroupLoop g size iblkno fragsperinode fuel fpg ipg =
    some (fpg', ipg')) :
    0 < fpg' ∧ (metaFrags g iblkno ipg' ≤ size % fpg' ∨ size % fpg' = 0) := by
  induction fuel generalizing fpg ipg with
  | zero => cases h
  | succ fuel ih =>
    simp only [lastGroupLoop] at h
    split at h
    · cases h
    · next hpos =>
      split at h
      · cases h
      · split at h
        · next hstop =>
          simp only [Option.some.injEq, Prod.mk.injEq] at h
          obtain ⟨rfl, rfl⟩ := h
          exact ⟨Nat.pos_of_ne_zero hpos, hstop⟩
        · exact ih h

/-- One group is enough for a medium that fits into it. -/
theorem lastGroupLoop_one (hsize : size ≤ fpg)
    (h : lastGroupLoop g size iblkno fragsperinode fuel fpg ipg = some (fpg', ipg')) :
    fpg' = fpg := by
  cases fuel with
  | zero => cases h
  | succ fuel =>
    simp only [lastGroupLoop] at h
    split at h
    · cases h
    · split at h
      · cases h
      · next hroom =>
        have hstop : metaFrags g iblkno ipg ≤ size % fpg ∨ size % fpg = 0 := by
          rcases hsize.lt_or_eq with hlt | rfl
          · rw [Nat.mod_eq_of_lt hlt]
            exact Or.inl (Nat.le_of_not_lt hroom)
          · exact Or.inr (Nat.mod_self _)
        rw [if_pos hstop] at h
        simp only [Option.some.injEq, Prod.mk.injEq] at h
        exact h.1.symm

end Choice

/-- A run that completes is one of its loops. -/
theorem completes_iff {g : Geometry} {o : MkfsOptions} {mediasize : ℕ} {l : MkfsLayout} :
    Completes g o mediasize l ↔ 0 ≤ g.ddblkno + g.dedupfrags mediasize ∧
      ∃ fuel fragsperinode fpg₀ ipg₀ fpg₁ ipg₁ fpg ipg,
        densityLoop g (g.size mediasize) (g.iblkno mediasize) (minFragsPerInode g mediasize) fuel
          (startDensity g o mediasize) = some (fragsperinode, fpg₀, ipg₀) ∧
        packLoop g (g.size mediasize) o.maxblkspercg fragsperinode fuel fpg₀ ipg₀ =
          some (fpg₁, ipg₁) ∧
        lastGroupLoop g (g.size mediasize) (g.iblkno mediasize) fragsperinode fuel fpg₁ ipg₁ =
          some (fpg, ipg) ∧
        l = layoutOf g mediasize fpg ipg ∧ l.ncg ≠ 0 ∧ l.cssize < 2 ^ 31 ∧ initcg g l 0 ≠ 0 := by
  constructor
  · rintro ⟨fuel, h⟩
    simp only [mkfs] at h
    split at h
    · cases h
    · next hfront =>
      split at h
      · cases h
      · next hdensity =>
        split at h
        · cases h
        · next hpack =>
          split at h
          · cases h
          · next hlast =>
            split at h
            · cases h
            · next hok =>
              obtain rfl := Option.some.inj h
              exact ⟨by omega, fuel, _, _, _, _, _, _, _, hdensity, hpack, hlast, rfl,
                fun hncg => hok (Or.inl hncg), by omega, fun hzero => hok (Or.inr (Or.inr hzero))⟩
  · rintro
      ⟨hfront, fuel, _, _, _, _, _, fpg, ipg, hdensity, hpack, hlast, rfl, hncg, hcssize, hfree⟩
    refine ⟨fuel, ?_⟩
    simp only [mkfs, hdensity, hpack, hlast]
    rw [if_neg (by omega), if_neg]
    rintro (hzero | hbig | hzero)
    · exact hncg hzero
    · omega
    · exact hfree hzero

theorem Tried.lt {g : Geometry} {fragsperinode least fpg : ℕ}
    (h : Tried g fragsperinode least fpg) : fpg < 8 * g.bsize + g.frag := by
  rcases h with ⟨-, hfits⟩ | ⟨n, -, rfl, hfits⟩
  · have hlt := hfits.lt
    omega
  · have hlt := hfits.lt
    omega

theorem Geometry.iblkno_pos (g : Geometry) (mediasize : ℕ) : 0 < g.iblkno mediasize :=
  Nat.lt_of_lt_of_le g.frag_pos (Nat.le_add_left _ _)

/-- What a completed run has chosen. -/
theorem Completes.chosen {g : Geometry} {o : MkfsOptions} {mediasize : ℕ} {l : MkfsLayout}
    (h : Completes g o mediasize l) : ∃ fpg ipg, l = layoutOf g mediasize fpg ipg ∧
      0 ≤ g.ddblkno + g.dedupfrags mediasize ∧ fpg < 8 * g.bsize + g.frag ∧ initcg g l 0 ≠ 0 := by
  obtain ⟨hfront, fuel, fragsperinode, fpg₀, _, fpg₁, _, fpg, ipg, hdensity, hpack, hlast, hl, -, -,
    hfree⟩ := completes_iff.mp h
  have hstart := densityLoop_some hdensity
  have hpos := Nat.lt_of_lt_of_le (g.iblkno_pos mediasize) hstart.iblkno_le
  have htried := (packLoop_some hpos (Or.inl ⟨le_rfl, hstart.fits⟩) hpack).tried
  have hlt := htried.lt
  have hle := lastGroupLoop_le hlast
  exact ⟨fpg, ipg, hl, hfront, by omega, hfree⟩

/-- A medium of 43 blocks. -/
theorem completes_small :
    Completes .whole defaultOptions (43 * 4096) (layoutOf .whole (43 * 4096) 44 32) := by
  refine completes_iff.mpr ⟨?_, 20, 2, 32, 16, 44, 32, 44, 32, ?_, ?_, ?_, rfl, ?_, ?_, ?_⟩
  all_goals decide +kernel

end EmbeddedOs.Ddfs
