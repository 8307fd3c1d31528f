import EmbeddedOs.Ddfs.InitGood

/-!
# The layouts of `mkfs`

A layout that `mkfs` chooses is one of a superblock: the inodes fill whole blocks, every group has
room for them, and the first one for the summary. So what a completed run leaves is sound.
-/

namespace EmbeddedOs.Ddfs

open Lib BitRuns BitMap

section Completed

variable {g : Geometry} {o : MkfsOptions} {m : MkfsLayout}
  {size iblkno maxblkspercg fragsperinode fpg ipg fpg' ipg' fuel mediasize c : ℕ}

theorem Geometry.inopb_pos (g : Geometry) : 0 < g.inopb := by
  have hle := g.le_bshift
  have hpow : 2 ^ 12 ≤ g.bsize := Nat.pow_le_pow_right (by decide) hle
  exact Nat.div_pos (by omega) (by decide)

/-- A group has inodes, and they fill whole blocks. -/
def IpgOk (g : Geometry) (ipg : ℕ) : Prop := 0 < ipg ∧ g.inopb ∣ ipg

theorem ipgOf_ok (hpos : 0 < fragsperinode) (hfpg : 0 < fpg) :
    IpgOk g (ipgOf g fragsperinode fpg) := by
  refine ⟨?_, dvd_roundup⟩
  have hle : howmany fpg fragsperinode ≤ ipgOf g fragsperinode fpg := le_roundup g.inopb_pos
  have hone : 0 < howmany fpg fragsperinode := Nat.div_pos (by omega) hpos
  omega

theorem packLoop_ipg (hpos : 0 < fragsperinode) (hipg : IpgOk g ipg) (hfpg : 0 < fpg')
    (h : packLoop g size maxblkspercg fragsperinode fuel fpg ipg = some (fpg', ipg')) :
    IpgOk g ipg' := by
  induction fuel generalizing fpg ipg with
  | zero => cases h
  | succ fuel ih =>
    simp only [packLoop] at h
    split at h
    · split at h
      · simp only [Option.some.injEq, Prod.mk.injEq] at h
        obtain ⟨rfl, rfl⟩ := h
        exact ipgOf_ok hpos hfpg
      · rename_i hmany
        have hne : 0 < fpg := by
          rw [Nat.pos_iff_ne_zero]
          rintro rfl
          exact hmany (by rw [Nat.div_zero]; decide)
        split at h
        · exact ih (ipgOf_ok hpos hne) h
        · split at h
          · simp only [Option.some.injEq, Prod.mk.injEq] at h
            obtain ⟨rfl, rfl⟩ := h
            exact ipgOf_ok hpos hfpg
          · simp only [Option.some.injEq, Prod.mk.injEq] at h
            obtain ⟨rfl, rfl⟩ := h
            exact ipgOf_ok hpos hfpg
    · simp only [Option.some.injEq, Prod.mk.injEq] at h
      obtain ⟨rfl, rfl⟩ := h
      exact hipg

theorem lastGroupLoop_ipg (hpos : 0 < fragsperinode) (hipg : 0 < fpg → IpgOk g ipg)
    (h : lastGroupLoop g size iblkno fragsperinode fuel fpg ipg = some (fpg', ipg')) :
    IpgOk g ipg' := by
  induction fuel generalizing fpg ipg with
  | zero => cases h
  | succ fuel ih =>
    simp only [lastGroupLoop] at h
    split at h
    · cases h
    · rename_i hne
      split at h
      · cases h
      · split at h
        · simp only [Option.some.injEq, Prod.mk.injEq] at h
          obtain ⟨rfl, rfl⟩ := h
          exact hipg (Nat.pos_of_ne_zero hne)
        · exact ih (fun hfpg => ipgOf_ok hpos hfpg) h

/-- The inodes of a group that `mkfs` chooses. -/
theorem Completes.ipgOk (h : Completes g o mediasize m) : IpgOk g m.ipg := by
  obtain ⟨-, fuel, fragsperinode, fpg₀, ipg₀, fpg₁, ipg₁, fpg, ipg, hdensity, hpack, hlast, rfl,
    -⟩ := completes_iff.mp h
  have hstart := densityLoop_some hdensity
  have hfirst := hstart.min_le
  have hone : 0 < minFragsPerInode g mediasize :=
    Nat.lt_of_lt_of_le Nat.one_pos (Nat.le_add_right _ _)
  have hiblkno := g.iblkno_pos mediasize
  have hle := hstart.iblkno_le
  have hfpg : 0 < fpg₁ := by
    rcases (packLoop_some (by omega) (.inl ⟨Nat.le_refl _, hstart.fits⟩) hpack).tried with
      ⟨hge, -⟩ | ⟨n, hge, rfl, -⟩ <;> omega
  have hok₀ : IpgOk g ipg₀ := by
    rw [hstart.ipg]
    exact ipgOf_ok (by omega) (by omega)
  exact lastGroupLoop_ipg (by omega) (fun _ => packLoop_ipg (by omega) hok₀ hfpg hpack) hlast

theorem Geometry.frag_dvd_inopb (g : Geometry) : g.frag ∣ g.inopb :=
  g.frag_dvd.trans (eight_dvd_inopb g)

/-- The inodes fill whole blocks. -/
theorem frag_dvd_dblkno (g : Geometry) (mediasize : ℕ) (hipg : g.inopb ∣ ipg) :
    g.frag ∣ g.iblkno mediasize + ipg / g.inopf := by
  have hcblkno : g.frag ∣ g.cblkno mediasize := Nat.dvd_add dvd_roundup dvd_roundup
  refine Nat.dvd_add (Nat.dvd_add hcblkno (Nat.dvd_refl _)) ?_
  obtain ⟨k, rfl⟩ := hipg
  have hinopb : g.inopb = g.inopf * g.frag := (Nat.div_mul_cancel g.frag_dvd_inopb).symm
  have hpos : 0 < g.inopf := by
    have := g.inopb_pos
    rw [hinopb] at this
    exact Nat.pos_of_mul_pos_right this
  have heq : g.inopb * k / g.inopf = g.frag * k := by
    rw [hinopb, Nat.mul_assoc, Nat.mul_div_cancel_left _ hpos]
  rw [heq]
  exact Nat.dvd_mul_right _ _

/-- The groups of a medium that the number of groups does not wrap around for. -/
theorem start_lt_size (hfpg : 0 < fpg) (hncg : c < howmany size fpg) : c * fpg < size := by
  have hmul := Nat.mul_le_mul_right fpg hncg
  have hend : howmany size fpg * fpg < size + fpg := howmany_mul_lt hfpg
  rw [Nat.succ_mul] at hmul
  omega

/-- The superblock of a layout that `mkfs` has chosen, where the groups have whole blocks and make
up the medium. -/
theorem Completes.laid (h : Completes g o mediasize m) (hfrag : g.frag ∣ m.fpg)
    (hcover : m.size ≤ m.fpg * m.ncg) (metaspace dsize minfree : ℕ) : ∃ l : FsLayout,
      l.geom = g ∧ l.metaspace = metaspace ∧ l.dsize = dsize ∧ l.minfree = minfree ∧
        l.drift = mkfsDrift g m ∧ Laid l m := by
  obtain ⟨hipg, hinopb⟩ := h.ipgOk
  obtain ⟨-, fuel, _, _, _, _, _, fpg, ipg, -, -, hlast, rfl, hncg, -, hfree⟩ := completes_iff.mp h
  have hlt := lt_fpg_of_initcg hfree
  have hfirst : roundup (dupper g (layoutOf g mediasize fpg ipg) 0) g.frag ≤ min fpg
      (g.size mediasize) := by
    rw [initcg_zero] at hfree
    by_contra hgt
    have hzero : min fpg (g.size mediasize) -
        roundup (dupper g (layoutOf g mediasize fpg ipg) 0) g.frag = 0 := by omega
    apply hfree
    have hsub : min (layoutOf g mediasize fpg ipg).fpg (layoutOf g mediasize fpg ipg).size -
        roundup ((layoutOf g mediasize fpg ipg).dblkno +
          howmany (layoutOf g mediasize fpg ipg).cssize g.fsize) g.frag = 0 := hzero
    rw [hsub, Nat.zero_div]
  obtain ⟨hfpg, hroom⟩ := lastGroupLoop_some hlast
  have hmeta : g.iblkno mediasize + ipg / g.inopf ≤ metaFrags g (g.iblkno mediasize) ipg :=
    le_roundup g.frag_pos
  refine ⟨{
    geom := g
    size := g.size mediasize
    fpg := fpg
    ipg := ipg
    ncg := (layoutOf g mediasize fpg ipg).ncg
    dblkno := g.iblkno mediasize + ipg / g.inopf
    metaspace := metaspace
    dsize := dsize
    minfree := minfree
    drift := mkfsDrift g (layoutOf g mediasize fpg ipg)
    fpg_pos := hfpg
    frag_dvd_fpg := hfrag
    ipg_pos := hipg
    inopb_dvd_ipg := hinopb
    ncg_pos := Nat.pos_of_ne_zero hncg
    size_le := hcover }, rfl, rfl, rfl, rfl, rfl, rfl, rfl, rfl, rfl, rfl, ?_, ?_, ?_, ?_, hfirst⟩
  · have hiblkno := g.iblkno_pos mediasize
    exact Nat.lt_of_lt_of_le hiblkno (Nat.le_add_right _ _)
  · exact frag_dvd_dblkno g mediasize hinopb
  · -- the block of the group is between the table and the inodes
    have hpos := g.frag_pos
    have hend : dlower (layoutOf g mediasize fpg ipg) =
        (g.ddblkno + g.dedupfrags mediasize).toNat := by
      simp only [dlower, layoutOf]
    have hle : roundup (dlower (layoutOf g mediasize fpg ipg)) g.frag ≤ g.cblkno mediasize := by
      rw [hend, Geometry.cblkno]
      exact Nat.le_add_right _ _
    have hiblkno : g.iblkno mediasize = g.cblkno mediasize + g.frag := rfl
    have hinodes : g.iblkno mediasize ≤ g.iblkno mediasize + ipg / g.inopf := Nat.le_add_right _ _
    refine Nat.lt_of_le_of_lt hle (Nat.lt_of_lt_of_le ?_ hinodes)
    omega
  · intro c hc
    have hlt' : g.iblkno mediasize + ipg / g.inopf < fpg := hlt
    have hstart : c * fpg < g.size mediasize :=
      start_lt_size hfpg (Nat.lt_of_lt_of_le hc (Nat.mod_le _ _))
    refine ⟨?_, Nat.le_of_lt hlt'⟩
    show fpg * c + (g.iblkno mediasize + ipg / g.inopf) ≤ g.size mediasize
    rw [Nat.mul_comm]
    by_cases hwhole : c * fpg + fpg ≤ g.size mediasize
    · omega
    · -- it is the last group, and no whole one
      have hmod : g.size mediasize % fpg = g.size mediasize - c * fpg := by
        have hsplit : g.size mediasize = g.size mediasize - c * fpg + c * fpg := by omega
        rw [hsplit, Nat.add_mul_mod_self_right, Nat.mod_eq_of_lt (by omega)]
        omega
      omega

end Completed

end EmbeddedOs.Ddfs
