import EmbeddedOs.Ddfs.DedupTable
import Mathlib.Algebra.BigOperators.Intervals
import Mathlib.Algebra.Order.BigOperators.Group.Finset

/-!
# `statddfs`

The tool of `statddfs.c` against the table that the kernel uses. It reads the superblock, and then
the blocks that follow it in the file, as many as the table has.
-/

namespace EmbeddedOs.Ddfs

open Finset

/-- A value of an `int` or `int32_t`. -/
def int32 (x : ℤ) : ℤ := Int.bmod x (2 ^ 32)

/-- `FS_DDFS_MAGIC`. -/
def fsDdfsMagic : ℤ := 0x52386261

/-- A 16-bit number of a buffer, in little-endian order. -/
def uint16At (buf : ℕ → UInt8) (o : ℕ) : UInt16 :=
  (buf o).toUInt16 ||| (buf (o + 1)).toUInt16 <<< 8

/-- A signed 32-bit number of a buffer. -/
def int32At (buf : ℕ → UInt8) (o : ℕ) : ℤ :=
  int32 ((buf o).toNat + 2 ^ 8 * (buf (o + 1)).toNat + 2 ^ 16 * (buf (o + 2)).toNat +
    2 ^ 24 * (buf (o + 3)).toNat)

/-- `flags` of entry `i` of a buffer. -/
def flagsAt (buf : ℕ → UInt8) (i : ℕ) : UInt16 := uint16At buf (dedupSize * i + 20)

/-- `ref_count` of entry `i` of a buffer. -/
def refCountAt (buf : ℕ → UInt8) (i : ℕ) : UInt16 := uint16At buf (dedupSize * i + 22)

/-- A file with the bytes of a device. -/
structure Image where
  /-- Its size. -/
  size : ℕ
  /-- Its bytes. -/
  bytes : ℕ → UInt8

/-- `read` of `n` bytes at `pos`: fewer at the end of the file. -/
def Image.read (img : Image) (pos n : ℕ) : List UInt8 :=
  (List.range (min n (img.size - pos))).map fun i => img.bytes (pos + i)

/-- `readbuffer`, cleared before it was read into. -/
def readbuffer (data : List UInt8) (o : ℕ) : UInt8 := data.getD o 0

/-- `num_used_dedup_entries` and `tot_ref_count`. -/
structure Counts where
  /-- `num_used_dedup_entries`. -/
  used : ℤ
  /-- `tot_ref_count`. -/
  refs : ℤ

/-- Count entry `i` of a block. -/
def countEntry (buf : ℕ → UInt8) (c : Counts) (i : ℕ) : Counts :=
  if flagsAt buf i &&& ddfsDedupActive ≠ 0 then
    ⟨int32 (c.used + 1), int32 (c.refs + (refCountAt buf i).toNat)⟩
  else c

/-- Count the entries of a block. -/
def countBlock (buf : ℕ → UInt8) (c : Counts) : Counts :=
  (List.range entriesPerBlock).foldl (countEntry buf) c

/-- Read `n` blocks from `pos` on, and count their entries. -/
def countBlocks (img : Image) : ℕ → ℕ → Counts → Counts
  | 0, _, c => c
  | n + 1, pos, c =>
    let data := img.read pos 4096
    countBlocks img n (pos + data.length) (countBlock (readbuffer data) c)

/-- What `statddfs` prints. -/
structure Report where
  /-- The used data blocks. -/
  used : ℤ
  /-- The references to them. -/
  refs : ℤ
  /-- The space saved. -/
  saved : ℤ

/-- `main` of `statddfs.c`; `none` if it gives up on the file. -/
def statddfs (img : Image) : Option Report :=
  let data := img.read 65536 8192
  -- `strlen(readbuffer) == 0`
  if readbuffer data 0 = 0 then none
  else if int32At (readbuffer data) 1372 ≠ fsDdfsMagic then none
  else
    let nDedupBlocks := int32At (readbuffer data) 0
    let c := countBlocks img nDedupBlocks.toNat (65536 + data.length) ⟨0, 0⟩
    some ⟨c.used, c.refs, int32 (int32 (c.refs - c.used) * 4096)⟩

/-! ## The table of the kernel -/

/-- An image of a `ddfs` with blocks of 4096 bytes, as far as `statddfs` and the dedup table go. -/
structure DdfsImage extends Image where
  /-- `fs_magic` of the superblock at `SBLOCK_UFS2`. -/
  magic : int32At (fun o => bytes (65536 + o)) 1372 = fsDdfsMagic
  /-- `fs_ddblkno`, from two blocks behind `fs_sblkno` on. -/
  ddblkno : int32At (fun o => bytes (65536 + o)) 4 = 20
  /-- The table is inside the image. -/
  holds : (20 + (int32At (fun o => bytes (65536 + o)) 0).toNat) * 4096 ≤ size

namespace DdfsImage

variable (img : DdfsImage)

/-- `fs_dedupfrags`. -/
def dedupfrags : ℤ := int32At (fun o => img.bytes (65536 + o)) 0

/-- `fs_ddblkno`. -/
def ddblknoOf : ℤ := int32At (fun o => img.bytes (65536 + o)) 4

/-- The bytes of a block. -/
def block (b : ℕ) (o : ℕ) : UInt8 := img.bytes (b * 4096 + o)

/-- The entries of a block that are active. -/
def activeEntries (b : ℕ) : Finset ℕ :=
  (range entriesPerBlock).filter fun i => flagsAt (img.block b) i &&& ddfsDedupActive ≠ 0

/-- The number of the active entries of a block. -/
def usedIn (b : ℕ) : ℤ := ∑ _i ∈ img.activeEntries b, 1

/-- The sum of their reference counts. -/
def refsIn (b : ℕ) : ℤ := ∑ i ∈ img.activeEntries b, (refCountAt (img.block b) i).toNat

/-- The references of a block that are not the first ones to their data blocks. -/
def sharedIn (b : ℕ) : ℤ :=
  ∑ i ∈ img.activeEntries b, (((refCountAt (img.block b) i).toNat : ℤ) - 1)

/-- The blocks of the table. -/
def tableBlocks : Finset ℕ :=
  Ico img.ddblknoOf.toNat (img.ddblknoOf.toNat + img.dedupfrags.toNat)

/-- What `statddfs` should print. -/
def truth : Report where
  used := ∑ b ∈ img.tableBlocks, img.usedIn b
  refs := ∑ b ∈ img.tableBlocks, img.refsIn b
  saved := 4096 * ∑ b ∈ img.tableBlocks, img.sharedIn b

end DdfsImage

/-! ## What is read -/

section Read

variable {img : Image} {pos n : ℕ}

theorem length_read (h : pos + n ≤ img.size) : (img.read pos n).length = n := by
  simp only [Image.read, List.length_map, List.length_range]
  omega

/-- A read inside the file fills the buffer. -/
theorem readbuffer_read (h : pos + n ≤ img.size) {o : ℕ} (ho : o < n) :
    readbuffer (img.read pos n) o = img.bytes (pos + o) := by
  have hmin : o < min n (img.size - pos) := by omega
  simp [readbuffer, Image.read, hmin]

/-- A number depends on its bytes. -/
theorem int32At_congr {buf buf' : ℕ → UInt8} {o : ℕ} (h : ∀ i, i < o + 4 → buf i = buf' i) :
    int32At buf o = int32At buf' o := by
  simp only [int32At, h o (by omega), h (o + 1) (by omega), h (o + 2) (by omega),
    h (o + 3) (by omega)]

theorem uint16At_congr {buf buf' : ℕ → UInt8} {o : ℕ} (h : ∀ i, i < o + 2 → buf i = buf' i) :
    uint16At buf o = uint16At buf' o := by
  simp only [uint16At, h o (by omega), h (o + 1) (by omega)]

/-- The low byte of a signed number. -/
theorem int32At_emod (buf : ℕ → UInt8) (o : ℕ) : int32At buf o % 256 = (buf o).toNat := by
  have hlt : (buf o).toNat < 256 := (buf o).toNat_lt
  simp only [int32At, int32, Int.bmod]
  split <;> omega

end Read

/-! ## What is counted -/

section Count

/-- What an entry adds to the counts. -/
def entryCounts (buf : ℕ → UInt8) (i : ℕ) : ℤ × ℤ :=
  if flagsAt buf i &&& ddfsDedupActive ≠ 0 then (1, (refCountAt buf i).toNat) else (0, 0)

theorem countEntry_eq (buf : ℕ → UInt8) (u r : ℤ) (i : ℕ) :
    countEntry buf ⟨int32 u, int32 r⟩ i =
      ⟨int32 (u + (entryCounts buf i).1), int32 (r + (entryCounts buf i).2)⟩ := by
  simp only [countEntry, entryCounts]
  split
  · simp only [int32, Int.bmod_add_bmod]
  · simp only [add_zero]

/-- The counts of a block are those of its entries. -/
theorem countBlock_eq (buf : ℕ → UInt8) (u r : ℤ) : countBlock buf ⟨int32 u, int32 r⟩ =
    ⟨int32 (u + ∑ i ∈ range entriesPerBlock, (entryCounts buf i).1),
      int32 (r + ∑ i ∈ range entriesPerBlock, (entryCounts buf i).2)⟩ := by
  unfold countBlock
  induction entriesPerBlock with
  | zero => simp
  | succ n ih =>
    rw [List.range_succ, List.foldl_append, ih, List.foldl_cons, List.foldl_nil, countEntry_eq,
      sum_range_succ, sum_range_succ, add_assoc, add_assoc]

/-- An entry depends on the bytes of its block. -/
theorem entryCounts_congr {buf buf' : ℕ → UInt8} (h : ∀ o, o < 4096 → buf o = buf' o) {i : ℕ}
    (hi : i < entriesPerBlock) : entryCounts buf i = entryCounts buf' i := by
  have hi : i < 128 := hi
  have hflags : flagsAt buf i = flagsAt buf' i :=
    uint16At_congr fun o ho => h o (by simp only [dedupSize] at ho; omega)
  have hrefs : refCountAt buf i = refCountAt buf' i :=
    uint16At_congr fun o ho => h o (by simp only [dedupSize] at ho; omega)
  simp only [entryCounts, hflags, hrefs]

namespace DdfsImage

variable (img : DdfsImage)

theorem usedIn_eq (b : ℕ) :
    img.usedIn b = ∑ i ∈ range entriesPerBlock, (entryCounts (img.block b) i).1 := by
  simp only [usedIn, activeEntries, sum_filter, entryCounts]
  exact sum_congr rfl fun i _ => by split <;> rfl

theorem refsIn_eq (b : ℕ) :
    img.refsIn b = ∑ i ∈ range entriesPerBlock, (entryCounts (img.block b) i).2 := by
  simp only [refsIn, activeEntries, sum_filter, entryCounts]
  exact sum_congr rfl fun i _ => by split <;> rfl

theorem sharedIn_eq (b : ℕ) : img.sharedIn b = img.refsIn b - img.usedIn b := by
  rw [sharedIn, refsIn, usedIn, sum_sub_distrib]

/-- The blocks that are read one after the other are counted. -/
theorem countBlocks_eq (n b : ℕ) (u r : ℤ) (h : (b + n) * 4096 ≤ img.size) :
    countBlocks img.toImage n (b * 4096) ⟨int32 u, int32 r⟩ =
      ⟨int32 (u + ∑ b' ∈ Ico b (b + n), img.usedIn b'),
        int32 (r + ∑ b' ∈ Ico b (b + n), img.refsIn b')⟩ := by
  induction n generalizing b u r with
  | zero => simp [countBlocks]
  | succ n ih =>
    have hread : b * 4096 + 4096 ≤ img.size := by omega
    have hnext : b * 4096 + 4096 = (b + 1) * 4096 := by omega
    have hend : b + 1 + n = b + (n + 1) := by omega
    have hrest : (b + 1 + n) * 4096 ≤ img.size := hend ▸ h
    have hlt : b < b + (n + 1) := by omega
    have hbuf : ∀ o, o < 4096 → readbuffer (img.read (b * 4096) 4096) o = img.block b o :=
      fun o ho => readbuffer_read hread ho
    have hused : ∑ i ∈ range entriesPerBlock,
        (entryCounts (readbuffer (img.read (b * 4096) 4096)) i).1 = img.usedIn b := by
      rw [usedIn_eq]
      exact sum_congr rfl fun i hi => by rw [entryCounts_congr hbuf (mem_range.mp hi)]
    have hrefs : ∑ i ∈ range entriesPerBlock,
        (entryCounts (readbuffer (img.read (b * 4096) 4096)) i).2 = img.refsIn b := by
      rw [refsIn_eq]
      exact sum_congr rfl fun i hi => by rw [entryCounts_congr hbuf (mem_range.mp hi)]
    rw [countBlocks]
    simp only [length_read hread, countBlock_eq, hused, hrefs, hnext]
    rw [ih (b + 1) _ _ hrest, hend, sum_eq_sum_Ico_succ_bot hlt img.usedIn,
      sum_eq_sum_Ico_succ_bot hlt img.refsIn, add_assoc, add_assoc]

end DdfsImage

end Count

/-! ## The report -/

/-- Two windows of a sequence, two places apart, differ in what is in one of them only. -/
theorem sum_window (f : ℕ → ℤ) (a n : ℕ) :
    ∑ b ∈ Ico a (a + n), f b + (f (a + n) + f (a + n + 1)) =
      f a + f (a + 1) + ∑ b ∈ Ico (a + 2) (a + 2 + n), f b := by
  have hfront : ∑ b ∈ Ico a (a + 2 + n), f b =
      f a + (f (a + 1) + ∑ b ∈ Ico (a + 2) (a + 2 + n), f b) := by
    rw [sum_eq_sum_Ico_succ_bot (by omega), sum_eq_sum_Ico_succ_bot (by omega)]
  have hback : ∑ b ∈ Ico a (a + 2 + n), f b =
      ∑ b ∈ Ico a (a + n), f b + f (a + n) + f (a + n + 1) := by
    rw [show a + 2 + n = a + n + 1 + 1 by omega, sum_Ico_succ_top (by omega),
      sum_Ico_succ_top (by omega)]
  rw [hfront] at hback
  omega

/-- The overflow takes a value into the range of an `int`, by a multiple of 2³². -/
theorem int32_spec (x : ℤ) :
    -2 ^ 31 ≤ int32 x ∧ int32 x < 2 ^ 31 ∧ ∃ k, int32 x = x - 2 ^ 32 * k := by
  refine ⟨?_, ?_, ?_⟩
  · simp only [int32, Int.bmod]
    split <;> omega
  · simp only [int32, Int.bmod]
    split <;> omega
  · simp only [int32, Int.bmod]
    split
    · exact ⟨x / 2 ^ 32, by omega⟩
    · exact ⟨x / 2 ^ 32 + 1, by omega⟩

/-- What fits into an `int` stays. -/
theorem int32_of_fits {x : ℤ} (hle : -2 ^ 31 ≤ x) (hlt : x < 2 ^ 31) : int32 x = x := by
  obtain ⟨hle', hlt', k, hk⟩ := int32_spec x
  omega

/-- Sums of `int`s that are close to others agree with them exactly if they are the same and
fit. -/
theorem int32_eq_iff {x y : ℤ} (h : |x - y| < 2 ^ 31) :
    int32 x = y ↔ x = y ∧ -2 ^ 31 ≤ y ∧ y < 2 ^ 31 := by
  obtain ⟨hle, hlt, k, hk⟩ := int32_spec x
  rw [abs_lt] at h
  constructor
  · rintro rfl
    omega
  · rintro ⟨rfl, hy⟩
    omega

namespace DdfsImage

variable (img : DdfsImage)

/-- The blocks that `statddfs` reads for the table: those behind the superblock. -/
def readBlocks : Finset ℕ := Ico 18 (18 + img.dedupfrags.toNat)

theorem tableBlocks_eq : img.tableBlocks = Ico 20 (20 + img.dedupfrags.toNat) := by
  have hddblkno : img.ddblknoOf = 20 := img.ddblkno
  rw [tableBlocks, hddblkno]
  rfl

/-- `statddfs` reports the counts of the blocks it reads, unless the low byte of
`fs_dedupfrags` is 0. -/
theorem statddfs_eq : statddfs img.toImage =
    if img.dedupfrags % 256 = 0 then none
    else
      let used := ∑ b ∈ img.readBlocks, img.usedIn b
      let refs := ∑ b ∈ img.readBlocks, img.refsIn b
      some ⟨int32 used, int32 refs, int32 ((refs - used) * 4096)⟩ := by
  have hsize : (20 + img.dedupfrags.toNat) * 4096 ≤ img.size := img.holds
  have hread : 65536 + 8192 ≤ img.size := by omega
  have htable : (18 + img.dedupfrags.toNat) * 4096 ≤ img.size :=
    (Nat.mul_le_mul_right 4096 (by omega)).trans hsize
  have hfields (k : ℕ) (hk : k + 4 ≤ 8192) : int32At (readbuffer (img.read 65536 8192)) k =
      int32At (fun o => img.bytes (65536 + o)) k :=
    int32At_congr fun i hi => readbuffer_read hread (by omega)
  have hbyte : readbuffer (img.read 65536 8192) 0 = 0 ↔ img.dedupfrags % 256 = 0 := by
    rw [readbuffer_read hread (by decide), dedupfrags, int32At_emod, ← UInt8.toNat_inj]
    simp
  have hcount := img.countBlocks_eq img.dedupfrags.toNat 18 0 0 htable
  have hfrags : int32At (readbuffer (img.read 65536 8192)) 0 = img.dedupfrags :=
    hfields 0 (by decide)
  simp only [statddfs, hbyte, hfields 1372 (by decide), img.magic, hfrags, length_read hread,
    ne_eq, not_true_eq_false, if_false]
  have hzero : (⟨0, 0⟩ : Counts) = ⟨int32 0, int32 0⟩ := rfl
  split
  · rfl
  · rw [hzero, hcount]
    simp only [zero_add, int32, Int.sub_bmod_bmod, Int.bmod_sub_bmod, Int.bmod_mul_bmod,
      readBlocks]

theorem usedIn_bounds (b : ℕ) : 0 ≤ img.usedIn b ∧ img.usedIn b ≤ 128 := by
  have hcard : (img.activeEntries b).card ≤ 128 :=
    (card_filter_le (range entriesPerBlock) _).trans_eq (card_range _)
  simp only [usedIn, sum_const, nsmul_eq_mul, mul_one]
  omega

theorem refsIn_bounds (b : ℕ) : 0 ≤ img.refsIn b ∧ img.refsIn b ≤ 128 * 65535 := by
  have hle : img.refsIn b ≤ (img.activeEntries b).card • 65535 := by
    refine sum_le_card_nsmul _ _ _ fun i _ => ?_
    have hlt := (refCountAt (img.block b) i).toNat_lt
    omega
  have hcard : ((img.activeEntries b).card : ℤ) ≤ 128 := by
    simpa [usedIn] using (img.usedIn_bounds b).2
  rw [nsmul_eq_mul] at hle
  exact ⟨sum_nonneg fun i _ => by omega, by omega⟩

theorem truth_eq : img.truth =
    ⟨∑ b ∈ img.tableBlocks, img.usedIn b, ∑ b ∈ img.tableBlocks, img.refsIn b,
      4096 * (∑ b ∈ img.tableBlocks, img.refsIn b - ∑ b ∈ img.tableBlocks, img.usedIn b)⟩ := by
  simp only [truth, sharedIn_eq, sum_sub_distrib]

/-- The blocks that are read and those of the table differ in four blocks. -/
theorem sum_readBlocks (f : ℕ → ℤ) : ∑ b ∈ img.readBlocks, f b =
    ∑ b ∈ img.tableBlocks, f b + (f 18 + f 19 -
      (f (18 + img.dedupfrags.toNat) + f (19 + img.dedupfrags.toNat))) := by
  have hwindow := sum_window f 18 img.dedupfrags.toNat
  rw [show 18 + img.dedupfrags.toNat + 1 = 19 + img.dedupfrags.toNat by omega] at hwindow
  simp only [Nat.reduceAdd] at hwindow
  rw [readBlocks, tableBlocks_eq]
  omega

/-- `statddfs` reports the truth exactly if the low byte of `fs_dedupfrags` is not 0, the two
blocks before the table have the counts of its last two, and the counts fit into an `int`. -/
theorem reports_truth_iff : statddfs img.toImage = some img.truth ↔
    img.dedupfrags % 256 ≠ 0 ∧
    img.usedIn 18 + img.usedIn 19 =
      img.usedIn (18 + img.dedupfrags.toNat) + img.usedIn (19 + img.dedupfrags.toNat) ∧
    img.refsIn 18 + img.refsIn 19 =
      img.refsIn (18 + img.dedupfrags.toNat) + img.refsIn (19 + img.dedupfrags.toNat) ∧
    img.truth.used < 2 ^ 31 ∧ img.truth.refs < 2 ^ 31 ∧
    -2 ^ 31 ≤ img.truth.saved ∧ img.truth.saved < 2 ^ 31 := by
  have hbounds := fun b => And.intro (img.usedIn_bounds b) (img.refsIn_bounds b)
  have h18 := hbounds 18
  have h19 := hbounds 19
  have hn := hbounds (18 + img.dedupfrags.toNat)
  have hn' := hbounds (19 + img.dedupfrags.toNat)
  have hused : 0 ≤ ∑ b ∈ img.tableBlocks, img.usedIn b :=
    sum_nonneg fun b _ => (img.usedIn_bounds b).1
  have hrefs : 0 ≤ ∑ b ∈ img.tableBlocks, img.refsIn b :=
    sum_nonneg fun b _ => (img.refsIn_bounds b).1
  rw [statddfs_eq, truth_eq, sum_readBlocks, sum_readBlocks]
  generalize ∑ b ∈ img.tableBlocks, img.usedIn b = used at hused ⊢
  generalize ∑ b ∈ img.tableBlocks, img.refsIn b = refs at hrefs ⊢
  generalize hx : img.usedIn 18 + img.usedIn 19 - _ = x
  generalize hy : img.refsIn 18 + img.refsIn 19 - _ = y
  have hxabs : |used + x - used| < 2 ^ 31 := by
    rw [abs_lt]
    omega
  have hyabs : |refs + y - refs| < 2 ^ 31 := by
    rw [abs_lt]
    omega
  by_cases hbyte : img.dedupfrags % 256 = 0
  · simp [hbyte]
  · rw [if_neg hbyte]
    simp only [Option.some.injEq, Report.mk.injEq, int32_eq_iff hxabs, int32_eq_iff hyabs, ne_eq,
      hbyte, not_false_eq_true, true_and]
    constructor
    · rintro ⟨⟨hx0, -, hfit⟩, ⟨hy0, -, hfit'⟩, hsaved⟩
      have hspec := int32_spec ((refs + y - (used + x)) * 4096)
      omega
    · rintro ⟨hx0, hy0, hfit, hfit', hlow, hhigh⟩
      obtain ⟨-, -, k, hk⟩ := int32_spec ((refs + y - (used + x)) * 4096)
      have hspec := int32_spec ((refs + y - (used + x)) * 4096)
      refine ⟨by omega, by omega, by omega⟩

/-- An image of 43 blocks with a table of six blocks, and one entry in the last of them. -/
def oneEntryImage : DdfsImage where
  size := 43 * 4096
  bytes o :=
    if o = 65536 then 6
    else if o = 65536 + 4 then 20
    else if o = 65536 + 1372 then 0x61
    else if o = 65536 + 1373 then 0x62
    else if o = 65536 + 1374 then 0x38
    else if o = 65536 + 1375 then 0x52
    else if o = 25 * 4096 + 20 then 0x10
    else if o = 25 * 4096 + 22 then 1
    else 0
  magic := by decide
  ddblkno := by decide
  holds := by decide

/-- `statddfs` does not come as far as the last blocks of the table. -/
theorem reports_truth_fails : ¬∀ img : DdfsImage, statddfs img.toImage = some img.truth := by
  intro hall
  obtain ⟨-, hused, -⟩ := oneEntryImage.reports_truth_iff.mp (hall oneEntryImage)
  have hfrags : oneEntryImage.dedupfrags = 6 := by decide
  rw [hfrags] at hused
  exact absurd hused (by decide +kernel)

end DdfsImage

end EmbeddedOs.Ddfs
