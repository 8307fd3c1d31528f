import EmbeddedOs.Ddfs.MkfsLayout

/-!
# When the loop for the density ends

`mkfs` lowers the density until the map of a cylinder group fits into a block. A lower density
makes the map of the inodes larger, and every group has to hold the dedup table that is in front
of its inodes. So the map fits in the first round, or in none that has a positive density.
-/

namespace EmbeddedOs.Ddfs

/-- `roundup` of an `int`. -/
def roundupInt (x : ℤ) (y : ℕ) : ℤ := (x + (y - 1)).tdiv y * y

/-- `fs_iblkno`, also where the table ends in front of the medium. -/
def Geometry.iblknoInt (g : Geometry) (mediasize : ℕ) : ℤ :=
  roundupInt (g.ddblkno + g.dedupfrags mediasize) g.frag +
    (roundup (howmany 8192 g.fsize) g.frag : ℕ) + g.frag

section Loop

variable (g : Geometry) (size : ℕ) (iblkno : ℤ)

/-- `fs_fpg` of a round for `fs_ipg`. -/
def densityFpg (fragsperinode ipg : ℕ) : ℕ :=
  (max (roundupInt (iblkno + (ipg / g.inopf : ℕ)) g.frag)
    (min (fragsperinode * g.inopb) size : ℕ)).toNat

/-- `fs_fpg` and `fs_ipg` of a round. -/
def densityGroup (fragsperinode : ℕ) : ℕ × ℕ :=
  let ipg := ipgOf g fragsperinode (densityFpg g size iblkno fragsperinode g.inopb)
  let fpg := densityFpg g size iblkno fragsperinode ipg
  (fpg, ipgOf g fragsperinode fpg)

/-- The map of the group of a round fits into a block. -/
def GroupFits (fragsperinode : ℕ) : Prop :=
  g.cgsize (densityGroup g size iblkno fragsperinode).2
    (densityGroup g size iblkno fragsperinode).1 < g.bsize

instance (fragsperinode : ℕ) : Decidable (GroupFits g size iblkno fragsperinode) :=
  inferInstanceAs (Decidable (_ < _))

/-- The loop for the density, with the density at its `break`. -/
def densityBreak (minfragsperinode : ℕ) : ℕ → ℤ → Option ℤ
  | 0, _ => none
  | fuel + 1, density =>
    let fragsperinode := max (density / g.fsize).toNat 1
    if fragsperinode < minfragsperinode then none
    else if GroupFits g size iblkno fragsperinode then some density
    else densityBreak minfragsperinode fuel (density - g.fsize)

end Loop

/-- The loop reaches its `break` with a positive density. -/
def ReachesBreak (g : Geometry) (o : MkfsOptions) (mediasize : ℕ) : Prop :=
  ∃ fuel density, densityBreak g (g.size mediasize) (g.iblknoInt mediasize)
    (minFragsPerInode g mediasize) fuel (startDensity g o mediasize) = some density ∧ 0 < density

/-! ## The loop of the layout -/

theorem roundupInt_natCast (x : ℕ) {y : ℕ} (hy : 0 < y) : roundupInt x y = (roundup x y : ℕ) := by
  rw [roundupInt, roundup, howmany, Int.tdiv_eq_ediv_of_nonneg (by omega)]
  push_cast [Nat.cast_sub hy]
  rfl

theorem densityFpg_natCast (g : Geometry) (size iblkno fragsperinode ipg : ℕ) :
    densityFpg g size iblkno fragsperinode ipg =
      max (metaFrags g iblkno ipg) (min (fragsperinode * g.inopb) size) := by
  rw [densityFpg, ← Int.natCast_add, roundupInt_natCast _ g.frag_pos, metaFrags]
  omega

/-! ## Blocks and fragments of 4096 bytes -/

/-- `fs_fpg` of a round, where a block is a fragment. -/
theorem densityFpg_whole (size : ℕ) (iblkno : ℤ) (fragsperinode ipg : ℕ) :
    densityFpg .whole size iblkno fragsperinode ipg =
      (max (iblkno + (ipg / 16 : ℕ)) (min (fragsperinode * 16) size : ℕ)).toNat := by
  have hinopb : Geometry.whole.inopb = 16 := by decide
  have hinopf : Geometry.whole.inopf = 16 := by decide
  have hfrag : Geometry.whole.frag = 1 := by decide
  have hround : ∀ x : ℤ, roundupInt x 1 = x := by
    intro x
    simp [roundupInt]
  rw [densityFpg, hinopb, hinopf, hfrag, hround]

theorem ipgOf_whole (fragsperinode fpg : ℕ) :
    ipgOf .whole fragsperinode fpg =
      ((fpg + (fragsperinode - 1)) / fragsperinode + 15) / 16 * 16 := by
  have hinopb : Geometry.whole.inopb = 16 := by decide
  rw [ipgOf, hinopb]
  rfl

theorem cgsize_whole (ipg fpg : ℕ) :
    Geometry.whole.cgsize ipg fpg = 244 + (ipg + 7) / 8 + 2 * ((fpg + 7) / 8) := by
  have hfrag : Geometry.whole.frag = 1 := by decide
  have hsum : Geometry.whole.contigsumsize = 16 := rfl
  simp only [Geometry.cgsize, hsum, hfrag, howmany, Nat.div_one]
  rw [if_neg (by decide)]
  omega

/-- `fs_iblkno` behind a table that has `n` fragments. -/
theorem iblknoInt_whole (mediasize : ℕ) :
    Geometry.whole.iblknoInt mediasize = 23 + Geometry.whole.dedupfrags mediasize := by
  have hfrag : Geometry.whole.frag = 1 := by decide
  have hdd : Geometry.whole.ddblkno = 20 := by decide
  have hcg : roundup (howmany 8192 Geometry.whole.fsize) 1 = 2 := by decide
  rw [Geometry.iblknoInt, hfrag, hdd, hcg]
  simp only [roundupInt, Nat.cast_one, sub_self, add_zero, Int.tdiv_one, mul_one]
  push_cast
  omega

/-- The number of fragments of the table. -/
theorem extraFrags_whole (mediasize : ℕ) :
    Geometry.whole.extraFrags mediasize = (mediasize / 8 + 4095) / 4096 := by
  have hfrag : Geometry.whole.frag = 1 := by decide
  have hfsize : Geometry.whole.fsize = 4096 := by decide
  rw [Geometry.extraFrags, hfrag, hfsize]
  simp only [roundup, howmany]
  omega

theorem size_whole (mediasize : ℕ) : Geometry.whole.size mediasize = mediasize / 4096 := by
  have hfsize : Geometry.whole.fsize = 4096 := by decide
  rw [Geometry.size, hfsize, Nat.div_div_eq_div_mul]

/-- The group of a round that has to hold a table. -/
theorem densityFpg_table {size x fragsperinode ipg : ℕ} (hx : fragsperinode * 16 ≤ x) :
    densityFpg .whole size x fragsperinode ipg = x + ipg / 16 := by
  rw [densityFpg_whole]
  omega

/-- With an inode for two fragments, the map fits as long as the inodes start by 11946. -/
theorem groupFits_two_iff {size x : ℕ} (hx : 32 ≤ x) :
    GroupFits .whole size x 2 ↔ x ≤ 11946 := by
  have hbsize : Geometry.whole.bsize = 4096 := by decide
  have hinopb : Geometry.whole.inopb = 16 := by decide
  have htwo : 2 * 16 ≤ x := hx
  simp only [GroupFits, densityGroup, cgsize_whole, ipgOf_whole, densityFpg_table htwo, hbsize,
    hinopb]
  -- the blocks for the inodes of the group
  generalize hinodes : ((x + 16 / 16 + (2 - 1)) / 2 + 15) / 16 * 16 / 16 = inodes
  generalize hmap : ((x + inodes + (2 - 1)) / 2 + 15) / 16 = map
  constructor
  · intro hlt
    by_contra hgt
    have hle : 374 ≤ inodes := by omega
    have hle' : 386 ≤ map := by omega
    omega
  · intro hle
    have hle' : inodes ≤ 374 := by omega
    have hle'' : map ≤ 385 := by omega
    omega

/-- One inode for every fragment makes the map larger. -/
theorem groupFits_one {size x : ℕ} (hx : 32 ≤ x) (h : GroupFits .whole size x 1) : x ≤ 11946 := by
  have hbsize : Geometry.whole.bsize = 4096 := by decide
  have hinopb : Geometry.whole.inopb = 16 := by decide
  have hone : 1 * 16 ≤ x := by omega
  simp only [GroupFits, densityGroup, cgsize_whole, ipgOf_whole, densityFpg_table hone, hbsize,
    hinopb] at h
  omega

/-! ## When the loop ends -/

section Ends

variable {mediasize : ℕ}

theorem startDensity_whole (mediasize : ℕ) : startDensity .whole defaultOptions mediasize =
    max 2 (minFragsPerInode .whole mediasize) * 4096 := by
  have hfsize : Geometry.whole.fsize = 4096 := by decide
  rw [startDensity, hfsize]
  rfl

/-- Below 16 TiB the density may be lowered to one inode for every fragment. -/
theorem minFragsPerInode_whole :
    minFragsPerInode .whole mediasize = 1 + mediasize / 4096 / (2 ^ 32 - 16) := by
  have hinopb : Geometry.whole.inopb = 16 := by decide
  rw [minFragsPerInode, size_whole, hinopb]

/-- A table on a medium below 16 TiB. -/
theorem iblknoInt_small (hmax : mediasize < 2 ^ 44) : Geometry.whole.iblknoInt mediasize =
    (23 + (mediasize / 8 + 4095) / 4096 : ℕ) := by
  rw [iblknoInt_whole, Geometry.dedupfrags, extraFrags_whole, int32_of_fits (by omega) (by omega)]
  omega

/-- The density is only lowered. -/
theorem densityBreak_le {g : Geometry} {size minfragsperinode fuel : ℕ} {iblkno density d : ℤ}
    (h : densityBreak g size iblkno minfragsperinode fuel density = some d) : d ≤ density := by
  induction fuel generalizing density with
  | zero => cases h
  | succ fuel ih =>
    simp only [densityBreak] at h
    split at h
    · cases h
    · split at h
      · exact (Option.some.inj h).ge
      · have hle := ih h
        omega

/-- The loop ends in its first round, or not with a positive density. -/
theorem reachesBreak_iff_first (hmin : 2 ^ 23 ≤ mediasize) :
    ReachesBreak .whole defaultOptions mediasize ↔
      GroupFits .whole (Geometry.whole.size mediasize) (Geometry.whole.iblknoInt mediasize)
        (max 2 (minFragsPerInode .whole mediasize)) := by
  have hfsize : Geometry.whole.fsize = 4096 := by decide
  have hminpos : 1 ≤ minFragsPerInode .whole mediasize := Nat.le_add_right _ _
  have hround : ∀ n : ℕ, 1 ≤ n → max (((n * 4096 : ℕ) : ℤ) / (4096 : ℕ)).toNat 1 = n := by
    intro n hn
    omega
  constructor
  · rintro ⟨fuel, density, hbreak, hpos⟩
    rw [startDensity_whole] at hbreak
    cases fuel with
    | zero => cases hbreak
    | succ fuel =>
      simp only [densityBreak, hfsize] at hbreak
      rw [hround _ (by omega), if_neg (by omega)] at hbreak
      split at hbreak
      · next hfits => exact hfits
      · next hfirst =>
        exfalso
        cases fuel with
        | zero => cases hbreak
        | succ fuel =>
          have hlower : ((max 2 (minFragsPerInode .whole mediasize) * 4096 : ℕ) : ℤ) - (4096 : ℕ) =
              ((max 2 (minFragsPerInode .whole mediasize) - 1) * 4096 : ℕ) := by omega
          rw [hlower] at hbreak
          simp only [densityBreak, hfsize] at hbreak
          rw [hround _ (by omega)] at hbreak
          split at hbreak
          · cases hbreak
          · next hmore =>
            -- there was room to lower the density: the medium is below 16 TiB
            have hone : minFragsPerInode .whole mediasize = 1 := by omega
            have hsmall : mediasize < 2 ^ 44 := by
              rw [minFragsPerInode_whole] at hone
              omega
            have hiblkno := iblknoInt_small hsmall
            rw [hone] at hbreak
            split at hbreak
            · next hfits =>
              rw [hiblkno] at hfits hfirst
              rw [hone] at hfirst
              exact hfirst ((groupFits_two_iff (by omega)).mpr (groupFits_one (by omega) hfits))
            · have hle := densityBreak_le hbreak
              omega
  · intro hfits
    refine ⟨1, startDensity .whole defaultOptions mediasize, ?_, Int.natCast_pos.mpr ?_⟩
    · simp only [densityBreak, startDensity_whole, hfsize]
      rw [hround _ (by omega), if_neg (by omega), if_pos hfits]
    · rw [startDensity_whole]
      omega

/-- On a medium of at least 8 MiB the loop reaches its `break` with a positive density if and
only if the map of the first group it tries fits into a block. Below 16 TiB these are the media
of at most 390692871 bytes. -/
theorem reachesBreak_iff (hmin : 2 ^ 23 ≤ mediasize) :
    (ReachesBreak .whole defaultOptions mediasize ↔
      GroupFits .whole (Geometry.whole.size mediasize) (Geometry.whole.iblknoInt mediasize)
        (max 2 (minFragsPerInode .whole mediasize))) ∧
    (mediasize < 2 ^ 44 - 2 ^ 16 →
      (ReachesBreak .whole defaultOptions mediasize ↔ mediasize ≤ 390692871)) := by
  refine ⟨reachesBreak_iff_first hmin, fun hmax => ?_⟩
  have htwo : max 2 (minFragsPerInode .whole mediasize) = 2 := by
    rw [minFragsPerInode_whole]
    omega
  rw [reachesBreak_iff_first hmin, htwo, iblknoInt_small (by omega), groupFits_two_iff (by omega)]
  omega

/-- A medium of 8 MiB. -/
theorem reachesBreak_iff_small : 2 ^ 23 ≤ 2 ^ 23 ∧ ReachesBreak .whole defaultOptions (2 ^ 23) :=
  ⟨le_rfl, ((reachesBreak_iff (le_refl (2 ^ 23))).2 (by decide)).mpr (by decide)⟩

/-- On a medium of 512 MiB the table alone is too large for the map of a group. -/
theorem reachesBreak_fails :
    ¬∀ mediasize, 2 ^ 23 ≤ mediasize → ReachesBreak .whole defaultOptions mediasize := by
  intro hall
  have hfits := (reachesBreak_iff_first (by decide)).mp (hall (2 ^ 29) (by decide))
  have htwo : max 2 (minFragsPerInode .whole (2 ^ 29)) = 2 := by
    rw [minFragsPerInode_whole]
    decide
  rw [htwo, iblknoInt_small (by decide), groupFits_two_iff (by decide)] at hfits
  exact absurd hfits (by decide)

end Ends

end EmbeddedOs.Ddfs
