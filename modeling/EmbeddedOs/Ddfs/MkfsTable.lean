import EmbeddedOs.Ddfs.MkfsLayout
import Mathlib.Algebra.Order.Ring.Int
import Mathlib.Data.Int.ConditionallyCompleteOrder
import Mathlib.Order.CompletePartialOrder

/-!
# The dedup table of a new file system

`mkfs` fills the table fragment by fragment, at sectors; `ddtable_locate` reads it block by block,
at device blocks. Where the table has a size at all, both compute the same bytes, between the
superblock and the backup superblock of the first group.
-/

namespace EmbeddedOs.Ddfs

/-! ## Filling the table -/

/-- A number in little-endian order. -/
def leBytes (width n : ℕ) : List UInt8 := (List.range width).map fun i => UInt8.ofNat (n / 256 ^ i)

/-- The bytes of an entry. -/
def entryBytes (e : DdfsDedup) : List UInt8 :=
  e.key.toList ++ leBytes 2 e.flags.toNat ++ leBytes 2 e.refCount.toNat ++
    leBytes 8 (e.blockptr % 2 ^ 64).toNat

/-- The buffer of free entries that `mkfs` writes. -/
def freeBuf (o : ℕ) : UInt8 := (entryBytes freeEntry).getD (o % dedupSize) 0

/-- `bwrite` of the first `n` bytes of a buffer at sector `lbn`. -/
def diskWrite (disk : ℤ → UInt8) (lbn : ℤ) (buf : ℕ → UInt8) (n : ℕ) (a : ℤ) : UInt8 :=
  if lbn * 512 ≤ a ∧ a < lbn * 512 + n then buf (a - lbn * 512).toNat else disk a

section Table

variable (g : Geometry) (l : MkfsLayout)

/-- The sector of fragment `i` of the table. -/
def fragSector (i : ℕ) : ℤ := int32 ((g.fsize / 512 : ℕ) * int32 (l.ddblkno + i))

/-- The loop of `mkfs` over the fragments of the table. -/
def initTable (disk : ℤ → UInt8) : ℤ → UInt8 :=
  (List.range l.dedupfrags.toNat).foldl
    (fun disk i => diskWrite disk (fragSector g l i) freeBuf g.fsize) disk

/-- The bytes that it fills. -/
def filled : Set ℤ :=
  {a | ∃ i : ℕ, (i : ℤ) < l.dedupfrags ∧ fragSector g l i * 512 ≤ a ∧
    a < fragSector g l i * 512 + g.fsize}

/-- `num_blocks` of `ddtable_locate`. -/
def numBlocks : ℕ := (l.dedupfrags.tdiv g.frag % 2 ^ 64).toNat

/-- `dd_lbn` of block `i` of the table. -/
def ddLbn (i : ℕ) : ℤ := int32 (l.ddblkno + int32 (i * g.frag)) * 2 ^ (g.fshift - 9)

/-- The bytes that `ddtable_locate` scans unless it finds its entry. -/
def scanned : Set ℤ :=
  {a | ∃ i : ℕ, i < numBlocks g l ∧ ddLbn g l i * 512 ≤ a ∧ a < ddLbn g l i * 512 + g.bsize}

/-- The buffer of block `i` of the table. -/
def tableBuf (disk : ℤ → UInt8) (i o : ℕ) : UInt8 := disk (ddLbn g l i * 512 + o)

/-! ## What else is written -/

/-- The bytes of the superblock at `SBLOCK_UFS2`. -/
def superblock : Set ℤ := Set.Ico 65536 (65536 + 8192)

/-- The bytes of `n` fragments from fragment `b` on. -/
def frags (b n : ℤ) : Set ℤ := Set.Ico (b * g.fsize) ((b + n) * g.fsize)

/-- The backup superblock of the first group, at `cgsblock`. -/
def backupSuperblock : Set ℤ :=
  Set.Ico ((l.ddblkno + l.dedupfrags) * g.fsize) ((l.ddblkno + l.dedupfrags) * g.fsize + 8192)

/-- The header of the first group, `fs_cgsize` bytes at `cgtod`. -/
def groupHeader : Set ℤ :=
  frags g l.cblkno (howmany (g.cgsize l.ipg l.fpg) g.fsize)

/-- The inode blocks of the first group, from `cgimin` on. -/
def inodeBlocks : Set ℤ := frags g l.iblkno (l.dblkno - l.iblkno)

/-- The data blocks, from `cgdmin` of the first group on, and the other groups. -/
def dataBlocks : Set ℤ := frags g l.dblkno (l.size - l.dblkno)

/-- The agreement between `mkfs` and the kernel about the table. -/
structure TableAgreed : Prop where
  /-- `mkfs` fills what the kernel scans. -/
  ranges : filled g l = scanned g l
  /-- The kernel reads free entries. -/
  free : ∀ disk i k, i < numBlocks g l → k < g.bsize / dedupSize →
    flagsAt (tableBuf g l (initTable g l disk) i) k &&& ddfsDedupFree ≠ 0
  /-- The superblock is not overwritten. -/
  superblock : Disjoint (scanned g l) superblock
  /-- Nor is its backup. -/
  backup : Disjoint (scanned g l) (backupSuperblock g l)
  /-- Nor is the header of the group. -/
  header : Disjoint (scanned g l) (groupHeader g l)
  /-- Nor are the inodes. -/
  inodes : Disjoint (scanned g l) (inodeBlocks g l)
  /-- Nor are the data. -/
  data : Disjoint (scanned g l) (dataBlocks g l)
  /-- Whatever is outside the range stays as it was written before. -/
  kept : ∀ disk a, a ∉ scanned g l → initTable g l disk a = disk a

end Table

/-! ## The ranges -/

/-- Ranges of `s` bytes one behind the other are one range. -/
theorem exists_tile {s : ℕ} (hs : 0 < s) {a b : ℤ} {n : ℕ} :
    (∃ i : ℕ, i < n ∧ b + i * s ≤ a ∧ a < b + i * s + s) ↔ b ≤ a ∧ a < b + n * s := by
  have hs' : (0 : ℤ) < s := by exact_mod_cast hs
  constructor
  · rintro ⟨i, hi, hle, hlt⟩
    have hnonneg : (0 : ℤ) ≤ i * s := Int.mul_nonneg (Int.natCast_nonneg i) hs'.le
    have hend : ((i : ℤ) + 1) * s ≤ n * s := by
      apply Int.mul_le_mul_of_nonneg_right _ hs'.le
      omega
    rw [Int.add_mul] at hend
    omega
  · rintro ⟨hle, hlt⟩
    have hq : 0 ≤ (a - b) / s := Int.ediv_nonneg (by omega) hs'.le
    have hn : (a - b) / s < n := Int.ediv_lt_of_lt_mul hs' (by omega)
    have hlow : (a - b) / s * s ≤ a - b := Int.ediv_mul_le _ hs'.ne'
    have hhigh : a - b < ((a - b) / s + 1) * s := Int.lt_ediv_add_one_mul_self _ hs'
    rw [Int.add_mul] at hhigh
    refine ⟨((a - b) / s).toNat, by omega, ?_, ?_⟩
    · rw [Int.toNat_of_nonneg hq]
      omega
    · rw [Int.toNat_of_nonneg hq]
      omega

variable {g : Geometry} {l : MkfsLayout} {disk : ℤ → UInt8} {a : ℤ}

/-- A sector holds whole entries, so it does not matter where a buffer starts. -/
theorem diskWrite_freeBuf {lbn : ℤ} {n : ℕ} (ha : lbn * 512 ≤ a ∧ a < lbn * 512 + n) :
    diskWrite disk lbn freeBuf n a = freeBuf (a % dedupSize).toNat := by
  have hmod : (a - lbn * 512).toNat % dedupSize = (a % dedupSize).toNat % dedupSize := by
    simp only [dedupSize]
    omega
  rw [diskWrite, if_pos ha, freeBuf, freeBuf, hmod]

/-- What the first fragments of the loop write and leave. -/
theorem foldl_diskWrite (sector : ℕ → ℤ) (size n : ℕ) (disk : ℤ → UInt8) (a : ℤ) :
    (List.range n).foldl (fun disk i => diskWrite disk (sector i) freeBuf size) disk a =
      if ∃ i < n, sector i * 512 ≤ a ∧ a < sector i * 512 + size then freeBuf (a % dedupSize).toNat
      else disk a := by
  induction n with
  | zero => simp
  | succ n ih =>
    rw [List.range_succ, List.foldl_append, List.foldl_cons, List.foldl_nil]
    by_cases hlast : sector n * 512 ≤ a ∧ a < sector n * 512 + size
    · rw [diskWrite_freeBuf hlast, if_pos ⟨n, Nat.lt_succ_self n, hlast⟩]
    · have hiff : (∃ i < n + 1, sector i * 512 ≤ a ∧ a < sector i * 512 + size) ↔
          ∃ i < n, sector i * 512 ≤ a ∧ a < sector i * 512 + size := by
        constructor
        · rintro ⟨i, hi, hin⟩
          have hne : i ≠ n := by
            rintro rfl
            exact hlast hin
          exact ⟨i, by omega, hin⟩
        · rintro ⟨i, hi, hin⟩
          exact ⟨i, by omega, hin⟩
      rw [diskWrite, if_neg hlast, ih]
      simp only [hiff]

theorem mem_filled : a ∈ filled g l ↔ ∃ i < l.dedupfrags.toNat, fragSector g l i * 512 ≤ a ∧
    a < fragSector g l i * 512 + g.fsize := by
  have hlt : ∀ i : ℕ, (i : ℤ) < l.dedupfrags ↔ i < l.dedupfrags.toNat := by omega
  exact exists_congr fun i => and_congr_left fun _ => hlt i

/-- The table is filled with free entries. -/
theorem initTable_of_mem (ha : a ∈ filled g l) :
    initTable g l disk a = freeBuf (a % dedupSize).toNat := by
  rw [initTable, foldl_diskWrite, if_pos (mem_filled.mp ha)]

/-- Everything else is left alone. -/
theorem initTable_of_notMem (ha : a ∉ filled g l) : initTable g l disk a = disk a := by
  rw [initTable, foldl_diskWrite, if_neg (fun h => ha (mem_filled.mpr h))]

/-- The order of the first group, and the bound that the map of the group sets to it. -/
structure InOrder (g : Geometry) (mediasize : ℕ) (l : MkfsLayout) : Prop where
  ddblkno : l.ddblkno = g.ddblkno
  dedupfrags : l.dedupfrags = g.dedupfrags mediasize
  end_nonneg : 0 ≤ l.ddblkno + l.dedupfrags
  end_le_cblkno : l.ddblkno + l.dedupfrags ≤ l.cblkno
  cblkno_le_iblkno : l.cblkno ≤ l.iblkno
  iblkno_le_dblkno : l.iblkno ≤ l.dblkno
  dblkno_lt : l.dblkno < 8 * 65536 + 16

theorem Completes.inOrder {o : MkfsOptions} {mediasize : ℕ} (h : Completes g o mediasize l) :
    InOrder g mediasize l := by
  obtain ⟨fpg, ipg, rfl, hfront, hlt, hinit⟩ := h.chosen
  have hdblkno : (layoutOf g mediasize fpg ipg).dblkno < fpg := lt_fpg_of_initcg hinit
  have hbsize := g.bsize_le
  have hfrag := g.frag_le
  have hend : (layoutOf g mediasize fpg ipg).dblkno < 8 * 65536 + 16 := by omega
  have hcblkno := g.tableEnd_le_cblkno mediasize
  refine ⟨?_, ?_, ?_, ?_, Nat.le_add_right _ _, Nat.le_add_right _ _, hend⟩ <;>
    simp only [layoutOf, hfront, hcblkno]

namespace InOrder

variable {mediasize : ℕ} (h : InOrder g mediasize l)
include h

/-- No address in front of the data overflows. -/
theorem mul_lt {b : ℤ} (hb : b ≤ l.ddblkno + l.dedupfrags) : (g.fsize / 512 : ℕ) * b < 2 ^ 31 := by
  have hsectors : g.fsize / 512 ≤ 128 := by
    have hle : g.fsize ≤ g.bsize := by
      rw [g.bsize_eq]
      exact Nat.le_mul_of_pos_left _ g.frag_pos
    have hbsize := g.bsize_le
    omega
  have hend : l.ddblkno + l.dedupfrags ≤ 8 * 65536 + 16 := by
    have hc := h.end_le_cblkno
    have hi := h.cblkno_le_iblkno
    have hd := h.iblkno_le_dblkno
    have hlt := h.dblkno_lt
    omega
  have hfirst : ((g.fsize / 512 : ℕ) : ℤ) * b ≤ (g.fsize / 512 : ℕ) * (8 * 65536 + 16) :=
    Int.mul_le_mul_of_nonneg_left (hb.trans hend) (Int.natCast_nonneg _)
  omega

/-- The bytes of a fragment of the table. -/
theorem fragSector_mul {i : ℕ} (hi : (i : ℤ) < l.dedupfrags) :
    fragSector g l i * 512 = l.ddblkno * g.fsize + i * g.fsize := by
  have hfits := h.mul_lt (b := l.ddblkno + i) (by omega)
  have hsector : 1 ≤ g.fsize / 512 := by
    have hpos := g.fsize_pos
    have heq := g.fsize_eq
    omega
  have hle : (l.ddblkno : ℤ) + i ≤ (g.fsize / 512 : ℕ) * (l.ddblkno + i) :=
    le_mul_of_one_le_left (by omega) (by exact_mod_cast hsector)
  rw [fragSector, int32_of_fits (x := l.ddblkno + i) (by omega) (by omega),
    int32_of_fits (by omega) hfits]
  conv_rhs => rw [g.fsize_eq]
  push_cast
  ring

/-- The bytes of a block of the table. -/
theorem ddLbn_mul {i : ℕ} (hi : (i : ℤ) * g.frag ≤ l.dedupfrags) :
    ddLbn g l i * 512 = l.ddblkno * g.fsize + i * g.bsize := by
  have hend : l.ddblkno + l.dedupfrags < 2 ^ 31 := by
    have hc := h.end_le_cblkno
    have hi := h.cblkno_le_iblkno
    have hd := h.iblkno_le_dblkno
    have hlt := h.dblkno_lt
    omega
  have hnonneg : (0 : ℤ) ≤ i * g.frag :=
    Int.mul_nonneg (Int.natCast_nonneg i) (Int.natCast_nonneg _)
  have hshift : (2 : ℤ) ^ (g.fshift - 9) * 512 = g.fsize := by
    have hpow : (2 : ℤ) ^ (g.fshift - 9) * 2 ^ 9 = 2 ^ g.fshift := pow_sub_mul_pow 2 g.le_fshift
    rw [Geometry.fsize, Nat.cast_pow, Nat.cast_two, ← hpow]
    norm_num
  rw [ddLbn, int32_of_fits (x := i * g.frag) (by omega) (by omega),
    int32_of_fits (by omega) (by omega), Int.mul_assoc, hshift, g.bsize_eq]
  push_cast
  ring

/-- The table in bytes, as `mkfs` fills it. -/
theorem filled_eq (hpos : 0 ≤ l.dedupfrags) : filled g l =
    Set.Ico ((l.ddblkno : ℤ) * g.fsize) (l.ddblkno * g.fsize + l.dedupfrags * g.fsize) := by
  have hn : ((l.dedupfrags.toNat : ℕ) : ℤ) = l.dedupfrags := Int.toNat_of_nonneg hpos
  ext a
  rw [mem_filled, Set.mem_Ico, ← hn, ← exists_tile g.fsize_pos]
  refine exists_congr fun i => and_congr_right fun hi => ?_
  rw [h.fragSector_mul (by omega)]

omit h in
/-- The table has whole blocks. -/
theorem dvd_dedupfrags (g : Geometry) (mediasize : ℕ) : (g.frag : ℤ) ∣ g.dedupfrags mediasize := by
  obtain ⟨-, -, k, hk⟩ := int32_spec (g.extraFrags mediasize)
  have hextra : (g.frag : ℤ) ∣ g.extraFrags mediasize := Int.natCast_dvd_natCast.mpr dvd_roundup
  have hfrag : g.frag ∣ 2 ^ 32 := Nat.pow_dvd_pow 2 (le_trans g.fragshift_le (by decide))
  have hwrap : (g.frag : ℤ) ∣ 2 ^ 32 := by exact_mod_cast Int.natCast_dvd_natCast.mpr hfrag
  rw [Geometry.dedupfrags, hk]
  exact Int.dvd_sub hextra (Int.dvd_mul_of_dvd_left hwrap)

/-- The kernel counts the blocks of the table. -/
theorem numBlocks_mul (hpos : 0 ≤ l.dedupfrags) :
    (numBlocks g l : ℤ) * g.frag = l.dedupfrags := by
  have hdvd : (g.frag : ℤ) ∣ l.dedupfrags := by
    rw [h.dedupfrags]
    exact dvd_dedupfrags g mediasize
  have hle : l.dedupfrags / g.frag ≤ l.dedupfrags := Int.ediv_le_self _ hpos
  have hnonneg : 0 ≤ l.dedupfrags / g.frag := Int.ediv_nonneg hpos (Int.natCast_nonneg _)
  have hsmall : l.dedupfrags < 2 ^ 31 := by
    rw [h.dedupfrags]
    exact (int32_spec _).2.1
  rw [numBlocks, Int.tdiv_eq_ediv_of_nonneg hpos, Int.emod_eq_of_lt hnonneg (by omega),
    Int.toNat_of_nonneg hnonneg, Int.ediv_mul_cancel hdvd]

/-- The table in bytes, as the kernel scans it. -/
theorem scanned_eq (hpos : 0 ≤ l.dedupfrags) : scanned g l =
    Set.Ico ((l.ddblkno : ℤ) * g.fsize) (l.ddblkno * g.fsize + l.dedupfrags * g.fsize) := by
  have hbytes : l.dedupfrags * g.fsize = (numBlocks g l : ℤ) * g.bsize := by
    rw [← h.numBlocks_mul hpos, g.bsize_eq]
    push_cast
    ring
  have hbsize : 0 < g.bsize := Nat.two_pow_pos _
  ext a
  rw [Set.mem_Ico, hbytes, ← exists_tile hbsize]
  refine exists_congr fun i => and_congr_right fun hi => ?_
  have hle : (i : ℤ) * g.frag ≤ numBlocks g l * g.frag :=
    Int.mul_le_mul_of_nonneg_right (by omega) (Int.natCast_nonneg _)
  rw [h.ddLbn_mul (by rw [h.numBlocks_mul hpos] at hle; exact hle)]

end InOrder

/-- A free entry read back. -/
theorem flagsAt_free {buf : ℕ → UInt8} {k : ℕ} (hlow : buf (dedupSize * k + 20) = freeBuf 20)
    (hhigh : buf (dedupSize * k + 20 + 1) = freeBuf 21) :
    flagsAt buf k &&& ddfsDedupFree ≠ 0 := by
  rw [flagsAt, uint16At, hlow, hhigh]
  decide

namespace InOrder

variable {mediasize : ℕ} (h : InOrder g mediasize l)
include h

/-- Every entry that the kernel reads is free. -/
theorem entries_free (hpos : 0 ≤ l.dedupfrags) {i k : ℕ} (hi : i < numBlocks g l)
    (hk : k < g.bsize / dedupSize) :
    flagsAt (tableBuf g l (initTable g l disk) i) k &&& ddfsDedupFree ≠ 0 := by
  have hend : k * dedupSize + dedupSize ≤ g.bsize := by
    have hmul := Nat.div_mul_le_self g.bsize dedupSize
    have hle := Nat.mul_le_mul_right dedupSize (Nat.succ_le_of_lt hk)
    rw [Nat.succ_mul] at hle
    omega
  simp only [dedupSize] at hend
  have hbyte : ∀ o, o < g.bsize →
      tableBuf g l (initTable g l disk) i o = freeBuf (o % dedupSize) := by
    intro o ho
    have hmem : ddLbn g l i * 512 + o ∈ filled g l := by
      rw [h.filled_eq hpos, ← h.scanned_eq hpos]
      exact ⟨i, hi, by omega, by omega⟩
    have hmod : ∀ x : ℤ, ((x * 512 + o) % dedupSize).toNat = o % dedupSize := by
      intro x
      simp only [dedupSize]
      omega
    rw [tableBuf, initTable_of_mem hmem, hmod]
  have hlow : (dedupSize * k + 20) % dedupSize = 20 := by
    simp only [dedupSize]
    omega
  have hhigh : (dedupSize * k + 20 + 1) % dedupSize = 21 := by
    simp only [dedupSize]
    omega
  refine flagsAt_free ?_ ?_
  · rw [hbyte _ (by simp only [dedupSize]; omega), hlow]
  · rw [hbyte _ (by simp only [dedupSize]; omega), hhigh]

/-- A range behind the end of the table is disjoint from it. -/
theorem disjoint_of_le (hpos : 0 ≤ l.dedupfrags) {b n : ℤ} (hb : l.ddblkno + l.dedupfrags ≤ b) :
    Disjoint (scanned g l) (frags g b n) := by
  rw [h.scanned_eq hpos, Set.disjoint_left]
  intro a ha hin
  have hle : ((l.ddblkno : ℤ) + l.dedupfrags) * g.fsize ≤ b * g.fsize :=
    Int.mul_le_mul_of_nonneg_right hb (Int.natCast_nonneg _)
  rw [Int.add_mul] at hle
  have htable := ha.2
  have hstart := hin.1
  omega

/-- A table that has a size is the same for `mkfs` and the kernel. -/
theorem tableAgreed (hpos : 0 ≤ l.dedupfrags) : TableAgreed g l := by
  have hranges : filled g l = scanned g l := by rw [h.filled_eq hpos, h.scanned_eq hpos]
  have hcblkno := h.end_le_cblkno
  have hiblkno := h.cblkno_le_iblkno
  have hdblkno := h.iblkno_le_dblkno
  refine ⟨hranges, fun disk i k hi hk => h.entries_free hpos hi hk, ?_, ?_, ?_, ?_, ?_, ?_⟩
  · -- the table starts behind the superblock
    rw [h.scanned_eq hpos, Set.disjoint_left]
    intro a ha hin
    have hstart : 65536 + 8192 ≤ l.ddblkno * g.fsize := by
      rw [h.ddblkno, Geometry.ddblkno, Geometry.sblkno, Nat.add_mul]
      have hsblkno : 65536 + 8192 ≤ howmany (65536 + 8192) g.fsize * g.fsize :=
        le_howmany_mul g.fsize_pos
      have hround := Nat.mul_le_mul_right g.fsize
        (le_roundup (x := howmany (65536 + 8192) g.fsize) g.frag_pos)
      omega
    have hlow := ha.1
    have hhigh := hin.2
    have hstart' : (65536 + 8192 : ℤ) ≤ l.ddblkno * g.fsize := by exact_mod_cast hstart
    omega
  · rw [h.scanned_eq hpos, Set.disjoint_left]
    intro a ha hin
    have hend := ha.2
    have hstart := hin.1
    rw [Int.add_mul] at hstart
    omega
  · exact h.disjoint_of_le hpos hcblkno
  · exact h.disjoint_of_le hpos (by omega)
  · exact h.disjoint_of_le hpos (by omega)
  · intro disk a ha
    exact initTable_of_notMem (by rwa [hranges])

end InOrder

/-- A table of a negative size is empty for `mkfs`, but not for the kernel. -/
theorem not_tableAgreed (hneg : l.dedupfrags < 0) (hfits : -2 ^ 31 ≤ l.dedupfrags)
    (hdvd : (g.frag : ℤ) ∣ l.dedupfrags) : ¬TableAgreed g l := by
  intro h
  have hblocks : 0 < numBlocks g l := by
    obtain ⟨q, hq⟩ := hdvd
    have hfrag : (0 : ℤ) < g.frag := by exact_mod_cast g.frag_pos
    have hquot : l.dedupfrags.tdiv g.frag = q := by
      rw [hq]
      exact Int.mul_tdiv_cancel_left q hfrag.ne'
    have hqneg : q < 0 := by
      by_contra hq0
      have hprod : 0 ≤ (g.frag : ℤ) * q := Int.mul_nonneg hfrag.le (by omega)
      omega
    have hqlow : -2 ^ 31 ≤ q := by
      have hle : (g.frag : ℤ) * q ≤ 1 * q := Int.mul_le_mul_of_nonpos_right (by omega) hqneg.le
      omega
    rw [numBlocks, hquot]
    omega
  have hbsize : (0 : ℤ) < g.bsize := by exact_mod_cast Nat.two_pow_pos _
  have hscanned : ddLbn g l 0 * 512 ∈ scanned g l := ⟨0, hblocks, le_rfl, by omega⟩
  rw [← h.ranges, mem_filled] at hscanned
  obtain ⟨i, hi, -⟩ := hscanned
  omega

/-- For every medium and geometry for which `mkfs` completes, it and the kernel agree on the table
if and only if the number of its fragments, modulo 2³², is not negative as an `int32_t`. -/
theorem tableAgreed_iff (g : Geometry) (o : MkfsOptions) (mediasize : ℕ) (l : MkfsLayout)
    (h : Completes g o mediasize l) :
    TableAgreed g l ↔ g.extraFrags mediasize % 2 ^ 32 < 2 ^ 31 := by
  have hsign : 0 ≤ l.dedupfrags ↔ g.extraFrags mediasize % 2 ^ 32 < 2 ^ 31 := by
    rw [h.inOrder.dedupfrags, Geometry.dedupfrags, int32, Int.bmod]
    split <;> omega
  rw [← hsign]
  constructor
  · intro hagreed
    by_contra hneg
    refine not_tableAgreed (by omega) ?_ ?_ hagreed
    · rw [h.inOrder.dedupfrags]
      exact (int32_spec _).1
    · rw [h.inOrder.dedupfrags]
      exact InOrder.dvd_dedupfrags g mediasize
  · exact h.inOrder.tableAgreed

/-- A medium of 43 blocks. -/
theorem tableAgreed_iff_small :
    TableAgreed .whole (layoutOf .whole (43 * 4096) 44 32) ↔
      Geometry.whole.extraFrags (43 * 4096) % 2 ^ 32 < 2 ^ 31 :=
  tableAgreed_iff .whole defaultOptions (43 * 4096) _ completes_small

/-- A medium with 2³² - 1 fragments for the table. -/
def wrappedSize : ℕ := 2 ^ 47 - 2 ^ 15

theorem completes_wrappedSize : Completes .whole defaultOptions wrappedSize
    (layoutOf .whole wrappedSize 14585 1632) := by
  obtain ⟨ipg', hadvance⟩ : ∃ ipg', packLoop .whole (Geometry.whole.size wrappedSize)
      defaultOptions.maxblkspercg 9 (2 + (14440 + 1)) 144 16 =
        packLoop .whole (Geometry.whole.size wrappedSize) defaultOptions.maxblkspercg 9 2
          (144 + (14440 + 1) * Geometry.whole.frag) ipg' := by
    apply packLoop_advance
    all_goals decide +kernel
  have hstop : packLoop .whole (Geometry.whole.size wrappedSize) defaultOptions.maxblkspercg 9 2
      14585 ipg' = some (14585, 1632) := by
    rw [packLoop, if_pos (by decide +kernel)]
    rw [if_neg (by decide +kernel), if_neg (by decide +kernel), if_pos (by decide +kernel)]
    decide +kernel
  refine completes_iff.mpr ⟨by decide +kernel, 14443, 9, 144, 16, 14585, 1632, 14585, 1632, ?_,
    hadvance.trans hstop, ?_, rfl, ?_, ?_, ?_⟩
  · decide +kernel
  · decide +kernel
  · decide +kernel
  · decide +kernel
  · rw [initcg_zero]
    decide +kernel

/-- That medium has -1 fragments for the table, which `mkfs` does not write and the kernel scans. -/
theorem tableAgreed_fails : ¬∀ mediasize l, Completes .whole defaultOptions mediasize l →
    TableAgreed .whole l := by
  intro hall
  refine not_tableAgreed ?_ ?_ ?_ (hall _ _ completes_wrappedSize)
  all_goals decide +kernel

end EmbeddedOs.Ddfs
