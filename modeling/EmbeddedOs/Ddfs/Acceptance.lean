import EmbeddedOs.Ddfs.MkfsTable

/-!
# Which images `statddfs` accepts

The images `newfs-ddfs` makes, against the checks of `statddfs`. The check for an empty file takes
the superblock for a string, which begins with `fs_dedupfrags`: it rejects every image whose table
has a multiple of 256 fragments, whatever the magic number is.
-/

namespace EmbeddedOs.Ddfs

/-- The bytes of the superblock: `fs_dedupfrags`, `fs_magic` and other fields. -/
def sblockBytes (l : MkfsLayout) (rest : ℕ → UInt8) (o : ℕ) : UInt8 :=
  if o < 4 then UInt8.ofInt (l.dedupfrags / 256 ^ o)
  else if 1372 ≤ o ∧ o < 1376 then UInt8.ofInt (fsDdfsMagic / 256 ^ (o - 1372))
  else rest o

/-- The image on a medium of `mediasize` bytes, with the superblock at `SBLOCK_UFS2`. -/
def newfsImage (l : MkfsLayout) (mediasize : ℕ) (rest disk : ℕ → UInt8) : Image where
  size := mediasize
  bytes a := if 65536 ≤ a ∧ a < 65536 + 8192 then sblockBytes l rest (a - 65536) else disk a

/-- `fs_dedupfrags` of an image. -/
def Image.dedupfrags (img : Image) : ℤ := int32At (fun o => img.bytes (65536 + o)) 0

/-- `fs_magic` of an image. -/
def Image.magic (img : Image) : ℤ := int32At (fun o => img.bytes (65536 + o)) 1372

/-- The superblock can be read. -/
def Image.Readable (img : Image) : Prop := 65536 + 8192 ≤ img.size

variable {img : Image} {g : Geometry} {o : MkfsOptions} {mediasize : ℕ} {l : MkfsLayout}

/-! ## The checks -/

/-- A superblock that can be read is rejected for its magic number, or if the low byte of
`fs_dedupfrags` is zero. -/
theorem statddfs_eq_none (h : img.Readable) :
    statddfs img = none ↔ img.dedupfrags % 256 = 0 ∨ img.magic ≠ fsDdfsMagic := by
  have hread : 65536 + 8192 ≤ img.size := h
  have hmagic : int32At (readbuffer (img.read 65536 8192)) 1372 = img.magic :=
    int32At_congr fun i hi => readbuffer_read hread (by omega)
  have hbyte : readbuffer (img.read 65536 8192) 0 = 0 ↔ img.dedupfrags % 256 = 0 := by
    rw [readbuffer_read hread (by decide), Image.dedupfrags, int32At_emod, ← UInt8.toNat_inj]
    simp
  simp only [statddfs, hbyte, hmagic]
  by_cases hzero : img.dedupfrags % 256 = 0
  · simp [hzero]
  · by_cases hbad : img.magic = fsDdfsMagic
    · simp [hzero, hbad]
    · simp [hzero, hbad]

/-! ## The images of `newfs-ddfs` -/

/-- A number is made of its bytes. -/
theorem int32At_bytes {buf : ℕ → UInt8} {k : ℕ} {x : ℤ}
    (h : ∀ i < 4, buf (k + i) = UInt8.ofInt (x / 256 ^ i)) : int32At buf k = int32 x := by
  have hbyte (i : ℕ) (hi : i < 4) : ((buf (k + i)).toNat : ℤ) = x / 256 ^ i % 256 := by
    rw [h i hi, UInt8.ofInt, UInt8.toNat_ofNat']
    omega
  have h0 := hbyte 0 (by decide)
  have h1 := hbyte 1 (by decide)
  have h2 := hbyte 2 (by decide)
  have h3 := hbyte 3 (by decide)
  simp only [Nat.add_zero, pow_zero, pow_one, Int.ediv_one] at h0 h1 h2 h3
  have hsum : ((buf k).toNat + 2 ^ 8 * (buf (k + 1)).toNat + 2 ^ 16 * (buf (k + 2)).toNat +
      2 ^ 24 * (buf (k + 3)).toNat : ℤ) = x % 2 ^ 32 := by
    omega
  rw [int32At, hsum]
  exact Int.emod_bmod x (2 ^ 32)

theorem dedupfrags_newfsImage (rest disk : ℕ → UInt8) :
    (newfsImage l mediasize rest disk).dedupfrags = int32 l.dedupfrags := by
  refine int32At_bytes fun i hi => ?_
  simp only [newfsImage, sblockBytes, Nat.zero_add, Nat.add_sub_cancel_left]
  rw [if_pos (by omega), if_pos hi]

theorem magic_newfsImage (rest disk : ℕ → UInt8) :
    (newfsImage l mediasize rest disk).magic = fsDdfsMagic := by
  have hmagic : fsDdfsMagic = int32 fsDdfsMagic := by decide
  rw [hmagic]
  refine int32At_bytes fun i hi => ?_
  simp only [newfsImage, sblockBytes, Nat.add_sub_cancel_left]
  rw [if_pos (by omega), if_neg (by omega), if_pos (by omega)]

/-- The table has no more fragments than bytes, up to two roundings. -/
theorem Geometry.extraFrags_le (g : Geometry) (mediasize : ℕ) :
    g.extraFrags mediasize ≤ mediasize / 8 + g.fsize + g.frag := by
  have hround : roundup (mediasize / 8) g.fsize < mediasize / 8 + g.fsize :=
    howmany_mul_lt g.fsize_pos
  have hmany (x : ℕ) : howmany x g.fsize ≤ x := by
    have hle := howmany_mul_lt (x := x) g.fsize_pos
    have hpos := g.fsize_pos
    by_contra hlt
    have hmul : (x + 1) * g.fsize ≤ howmany x g.fsize * g.fsize :=
      Nat.mul_le_mul_right _ (by omega)
    have hx : x ≤ x * g.fsize := Nat.le_mul_of_pos_right x hpos
    rw [Nat.succ_mul] at hmul
    omega
  have htop := howmany_mul_lt (x := howmany (roundup (mediasize / 8) g.fsize) g.fsize) g.frag_pos
  have hfrags := hmany (roundup (mediasize / 8) g.fsize)
  rw [Geometry.extraFrags, roundup]
  omega

/-- `newfs-ddfs` completes only on a medium that the superblock is on. -/
theorem Completes.readable (h : Completes g o mediasize l) (rest disk : ℕ → UInt8) :
    (newfsImage l mediasize rest disk).Readable := by
  change 65536 + 8192 ≤ mediasize
  by_contra hsmall
  have horder := h.inOrder
  obtain ⟨fpg, ipg, rfl, -, -, hfree⟩ := h.chosen
  have hle := g.extraFrags_le mediasize
  have hfrag := g.frag_le
  have hfsize : g.fsize ≤ 65536 := by
    have hbsize := g.bsize_le
    have hmul : g.fsize ≤ g.frag * g.fsize := Nat.le_mul_of_pos_left _ g.frag_pos
    rw [g.bsize_eq] at hbsize
    omega
  have hfrags : g.dedupfrags mediasize = g.extraFrags mediasize :=
    int32_of_fits (by omega) (by omega)
  -- the first group has a free block, so that the medium goes on behind the superblock
  have hsize : (layoutOf g mediasize fpg ipg).dblkno < g.size mediasize := by
    have hround := le_roundup (x := (layoutOf g mediasize fpg ipg).dblkno +
      howmany (layoutOf g mediasize fpg ipg).cssize g.fsize) g.frag_pos
    rw [initcg_zero] at hfree
    by_contra hge
    apply hfree
    have hzero : min (layoutOf g mediasize fpg ipg).fpg (layoutOf g mediasize fpg ipg).size -
        roundup ((layoutOf g mediasize fpg ipg).dblkno +
          howmany (layoutOf g mediasize fpg ipg).cssize g.fsize) g.frag = 0 := by
      change min fpg (g.size mediasize) - _ = 0
      omega
    rw [hzero, Nat.zero_div]
  have hsblkno : howmany (65536 + 8192) g.fsize ≤ g.size mediasize := by
    have hround := le_roundup (x := howmany (65536 + 8192) g.fsize) g.frag_pos
    have hcblkno := horder.end_le_cblkno
    have hiblkno := horder.cblkno_le_iblkno
    have hdblkno := horder.iblkno_le_dblkno
    rw [horder.ddblkno, horder.dedupfrags, Geometry.ddblkno, Geometry.sblkno] at hcblkno
    omega
  have hbytes : 65536 + 8192 ≤ howmany (65536 + 8192) g.fsize * g.fsize :=
    le_howmany_mul g.fsize_pos
  have hmedium : g.size mediasize * g.fsize ≤ mediasize := by
    have hsectors := g.fsize_eq
    have hdiv : g.size mediasize * (g.fsize / 512) ≤ mediasize / 512 := Nat.div_mul_le_self _ _
    have hdiv' : mediasize / 512 * 512 ≤ mediasize := Nat.div_mul_le_self _ _
    calc g.size mediasize * g.fsize = g.size mediasize * (g.fsize / 512) * 512 := by
          rw [Nat.mul_assoc, ← hsectors]
      _ ≤ mediasize / 512 * 512 := Nat.mul_le_mul_right _ hdiv
      _ ≤ mediasize := hdiv'
  have hmul : howmany (65536 + 8192) g.fsize * g.fsize ≤ g.size mediasize * g.fsize :=
    Nat.mul_le_mul_right _ hsblkno
  omega

/-- The number of fragments is a multiple of 256 in 32 bits if it is one in 64 bits. -/
theorem dedupfrags_emod (g : Geometry) (mediasize : ℕ) :
    int32 (g.dedupfrags mediasize) % 256 = 0 ↔ g.extraFrags mediasize % 256 = 0 := by
  obtain ⟨-, -, k, hk⟩ := int32_spec (g.extraFrags mediasize)
  obtain ⟨-, -, k', hk'⟩ := int32_spec (g.dedupfrags mediasize)
  have hfrags : g.dedupfrags mediasize = int32 (g.extraFrags mediasize) := rfl
  omega

/-- `statddfs` accepts the image that `newfs-ddfs` makes on a medium if and only if the number of
fragments of the table is no multiple of 256. Of an image with a superblock that can be read and
the right magic number the same is true of `fs_dedupfrags`: only then, or for another magic number,
is the error one of the superblock. -/
theorem statddfs_accepts_iff (h : Completes g o mediasize l) (rest disk : ℕ → UInt8) (img : Image) :
    ((statddfs (newfsImage l mediasize rest disk)).isSome ↔ g.extraFrags mediasize % 256 ≠ 0) ∧
      ((statddfs img = none → ¬img.Readable ∨ img.magic ≠ fsDdfsMagic) ↔
        ¬img.Readable ∨ img.magic ≠ fsDdfsMagic ∨ img.dedupfrags % 256 ≠ 0) := by
  constructor
  · rw [← Option.not_isNone, Bool.not_eq_true', ← Bool.not_eq_true, Option.isNone_iff_eq_none,
      statddfs_eq_none (h.readable rest disk), dedupfrags_newfsImage, h.inOrder.dedupfrags,
      dedupfrags_emod, magic_newfsImage]
    simp
  · by_cases hread : img.Readable
    · rw [statddfs_eq_none hread]
      by_cases hmagic : img.magic = fsDdfsMagic
      · simp [hread, hmagic]
      · simp [hread, hmagic]
    · simp [hread]

/-- A medium of 43 blocks has six fragments for its table. -/
theorem statddfs_accepts_iff_small :
    ((statddfs (newfsImage (layoutOf .whole (43 * 4096) 44 32) (43 * 4096) (fun _ => 0)
        fun _ => 0)).isSome ↔
      Geometry.whole.extraFrags (43 * 4096) % 256 ≠ 0) ∧
      ((statddfs DdfsImage.oneEntryImage.toImage = none →
          ¬DdfsImage.oneEntryImage.Readable ∨ DdfsImage.oneEntryImage.toImage.magic ≠ fsDdfsMagic) ↔
        ¬DdfsImage.oneEntryImage.Readable ∨ DdfsImage.oneEntryImage.toImage.magic ≠ fsDdfsMagic ∨
          DdfsImage.oneEntryImage.toImage.dedupfrags % 256 ≠ 0) :=
  statddfs_accepts_iff completes_small (fun _ => 0) (fun _ => 0) DdfsImage.oneEntryImage.toImage

/-- A medium of 8 MiB has one group. -/
theorem completes_eightMega : Completes .whole defaultOptions (2 ^ 23)
    (layoutOf .whole (2 ^ 23) 2049 1040) := by
  obtain ⟨ipg', hadvance⟩ : ∃ ipg', packLoop .whole (Geometry.whole.size (2 ^ 23))
      defaultOptions.maxblkspercg 2 (2 + (1760 + 1)) 288 144 =
        packLoop .whole (Geometry.whole.size (2 ^ 23)) defaultOptions.maxblkspercg 2 2
          (288 + (1760 + 1) * Geometry.whole.frag) ipg' := by
    apply packLoop_advance
    all_goals decide +kernel
  have hstop : packLoop .whole (Geometry.whole.size (2 ^ 23)) defaultOptions.maxblkspercg 2 2
      2049 ipg' = some (2049, 1040) := by
    rw [packLoop, if_pos (by decide +kernel)]
    dsimp only
    rw [if_pos (by decide +kernel)]
    decide +kernel
  refine completes_iff.mpr ⟨by decide +kernel, 1763, 2, 288, 144, 2049, 1040, 2049, 1040, ?_,
    hadvance.trans hstop, ?_, rfl, ?_, ?_, ?_⟩
  · decide +kernel
  · decide +kernel
  · decide +kernel
  · decide +kernel
  · rw [initcg_zero]
    decide +kernel

/-- The table of a medium of 8 MiB has 256 fragments. -/
theorem statddfs_accepts_fails : ¬∀ mediasize l, Completes .whole defaultOptions mediasize l →
    ∀ rest disk, (statddfs (newfsImage l mediasize rest disk)).isSome := by
  intro hall
  have hread : (newfsImage (layoutOf .whole (2 ^ 23) 2049 1040) (2 ^ 23) 0 0).Readable :=
    completes_eightMega.readable 0 0
  have hnone := (statddfs_eq_none hread).mpr (Or.inl (by
    rw [dedupfrags_newfsImage]
    decide +kernel))
  have hsome := hall _ _ completes_eightMega 0 0
  rw [hnone] at hsome
  exact absurd hsome (by decide)

end EmbeddedOs.Ddfs
