import EmbeddedOs.Kvfs.BlockSearch
import EmbeddedOs.Kvfs.Steps
import Mathlib.Data.Set.Lattice
import Mathlib.Order.CompletePartialOrder

/-!
# The places of the slots

`memnode_update` and `kvfs_vget_internal` split the place of an inode into a sector and an offset,
`kvfs_lookup` and `kvfs_readdir` read the table as a whole, and `kvfs_create` and `kvfs_remove`
compute the byte of a bit in 64 and in 32 bits. In every layout of `init_superblock` they address
the same bytes, and no bit of the device is addressed for two slots: `memnode_update`,
`kvfs_create` and `kvfs_remove` change bits of one slot. The number of blocks may be less than the
one the regions were made for, but is never more.
-/

namespace EmbeddedOs.Kvfs

open Lib.Bytes

/-- The fields of the mount that `kvfs_mount` takes from the superblock. -/
def Superblock.mount (sb : Superblock) : KvfsMount where
  freelistOff := sb.freelistOff.toNat
  inodeOff := sb.inodeOff.toNat
  dataOff := sb.dataOff.toNat
  blockCount := sb.blockCount
  flags := sb.flags

/-- `kvfs_mount` mounts with the layout of the superblock. -/
theorem mp_kvfsMount {d : Disk} {s : Fs} (h : kvfsMount d = .ok s) :
    s.mp = (Superblock.ofBytes (get d 0 48)).mount := by
  unfold kvfsMount at h
  dsimp only at h
  split at h
  · cases h
  · rw [← Except.ok.inj h]
    rfl

namespace KvfsMount

variable (mp : KvfsMount) (i : ℕ)

/-! ## Places of a slot -/

/-- The bytes of the inode that `memnode_update` writes and `kvfs_vget_internal` reads. -/
def memnodeBytes : Set ℕ := Set.Ico (mp.inodeLoc (32 * i)) (mp.inodeLoc (32 * i) + 32)

/-- The bytes of the sector that they read for it. -/
def memnodeSector : Set ℕ :=
  Set.Ico (dbtob (btodb (mp.inodeOff + 32 * i))) (dbtob (btodb (mp.inodeOff + 32 * i)) + 512)

/-- The bytes of the inode in the buffer of the whole table. -/
def tableBytes : Set ℕ := Set.Ico (mp.tableLoc (32 * i)) (mp.tableLoc (32 * i) + 32)

/-- The bytes that `kvfs_lookup` and `kvfs_readdir` read for the whole table. -/
def tableRead : Set ℕ := Set.Ico (mp.tableLoc 0) (mp.tableLoc 0 + pad (32 * mp.slots))

/-- The byte that `kvfs_create` changes in the bitmap. -/
def createByte : ℕ :=
  dbtob (btodb (inoToFreeByte (32 * i) mp)) + inoToFreeByte (32 * i) mp % 512

/-- The byte that `kvfs_remove` changes in the bitmap. -/
def removeByte : ℕ :=
  dbtob (btodb (inoToFreeByte (32 * i) mp % 2 ^ 32)) + inoToFreeByte (32 * i) mp % 2 ^ 32 % 512

/-- The bytes of the data block that `kvfs_read` and `kvfs_write` use. -/
def dataBytes : Set ℕ :=
  Set.Ico (dbtob (mp.dataLbn (32 * i))) (dbtob (mp.dataLbn (32 * i)) + 4096)

/-- The bits of the device that belong to a slot: those of its inode and of its data, and the one
in the bitmap. -/
def slotBits : Set (ℕ × ℕ) :=
  {p | p.2 < 8 ∧ (p.1 ∈ mp.memnodeBytes i ∨ p.1 ∈ mp.dataBytes i ∨
    p.1 = mp.createByte i ∧ (inoToFreeBitMask (32 * i)).toNat.testBit p.2)}

/-! ## Regions -/

/-- The block of the superblock. -/
def superblockRegion : Set ℕ := Set.Ico 0 4096

/-- The region of the bitmap. -/
def bitmapRegion : Set ℕ := Set.Ico mp.freelistOff mp.inodeOff

/-- The region of the inodes. -/
def inodeRegion : Set ℕ := Set.Ico mp.inodeOff mp.dataOff

/-- The region of the data. -/
def dataRegion : Set ℕ := Set.Ico mp.dataOff (mp.dataOff + 4096 * mp.slots)

/-- All places of slot `i` agree, and lie in their regions. -/
structure SlotPlaced : Prop where
  /-- The inode is in one place. -/
  inode : mp.memnodeBytes i = mp.tableBytes i
  /-- It does not straddle a sector. -/
  sector : mp.memnodeBytes i ⊆ mp.memnodeSector i
  /-- It is in the buffer of the whole table. -/
  table : mp.tableBytes i ⊆ mp.tableRead
  /-- It is in the region of the inodes. -/
  inodeRegion : mp.memnodeBytes i ⊆ mp.inodeRegion
  /-- The bit is in one byte. -/
  byte : mp.removeByte i = mp.createByte i
  /-- The byte is in the region of the bitmap. -/
  bitmapRegion : mp.createByte i ∈ mp.bitmapRegion
  /-- The data is in the region of the data. -/
  dataRegion : mp.dataBytes i ⊆ mp.dataRegion

/-- The slots are in places of their own, and so are the regions. -/
structure Addressed : Prop where
  /-- Every slot is placed. -/
  slot : ∀ i < mp.slots, mp.SlotPlaced i
  /-- Different slots have no bit in common. -/
  distinct : ∀ i < mp.slots, ∀ j < mp.slots, i ≠ j → Disjoint (mp.slotBits i) (mp.slotBits j)
  /-- The table is read from the region of the inodes. -/
  tableRead : mp.tableRead ⊆ mp.inodeRegion
  /-- The superblock and the regions do not overlap. -/
  regions : [superblockRegion, mp.bitmapRegion, mp.inodeRegion, mp.dataRegion].Pairwise Disjoint

variable {mp i} {j : ℕ}

/-! ## Layouts whose regions start sectors -/

theorem Wf.memnodeBytes_eq (h : mp.Wf) :
    mp.memnodeBytes i = Set.Ico (mp.inodeOff + 32 * i) (mp.inodeOff + 32 * i + 32) := by
  rw [memnodeBytes, h.inodeLoc_eq]

theorem Wf.dataBytes_eq (h : mp.Wf) :
    mp.dataBytes i = Set.Ico (mp.dataOff + 4096 * i) (mp.dataOff + 4096 * i + 4096) := by
  rw [dataBytes, h.dataLbn_eq]

theorem createByte_eq : mp.createByte i = mp.freelistOff + i / 8 := by
  rw [createByte, dbtob_btodb_add_mod, inoToFreeByte_slot]

/-- The place of a bit fits 32 bits. -/
theorem Wf.removeByte_eq (h : mp.Wf) (hi : i < mp.slots) : mp.removeByte i = mp.createByte i := by
  have hbitmap := h.bitmap
  have hfree := h.freeByte
  have hbyte := inoToFreeByte_slot mp i
  rw [removeByte, createByte, Nat.mod_eq_of_lt (by omega)]

/-- The bits of the bitmap are those of one byte and one place in it. -/
theorem mem_slotBits (h : mp.Wf) {o k : ℕ} : (o, k) ∈ mp.slotBits i ↔ k < 8 ∧
    (mp.inodeOff + 32 * i ≤ o ∧ o < mp.inodeOff + 32 * i + 32 ∨
      mp.dataOff + 4096 * i ≤ o ∧ o < mp.dataOff + 4096 * i + 4096 ∨
      o = mp.freelistOff + i / 8 ∧ k = i % 8) := by
  have hmask (hk : k < 8) : (inoToFreeBitMask (32 * i)).toNat.testBit k = decide (k = i % 8) := by
    rw [inoToFreeBitMask_slot]
    exact testBit_mask hk (Nat.mod_lt _ (by decide))
  simp only [slotBits, Set.mem_ofPred_eq, h.memnodeBytes_eq, h.dataBytes_eq, createByte_eq,
    Set.mem_Ico]
  refine and_congr_right fun hk => ?_
  rw [hmask hk, decide_eq_true_eq]

theorem Wf.slotPlaced (h : mp.Wf) (hi : i < mp.slots) : mp.SlotPlaced i := by
  have hbitmap := h.bitmap
  have htable := h.table
  have hsector := h.tableSector
  have hpad := pad_le (32 * mp.slots)
  constructor
  · rw [h.memnodeBytes_eq, tableBytes, h.tableLoc_eq]
  · rw [h.memnodeBytes_eq, memnodeSector]
    apply Set.Ico_subset_Ico
    · simp only [dbtob, btodb]
      omega
    · simp only [dbtob, btodb]
      omega
  · rw [tableBytes, tableRead, h.tableLoc_eq, h.tableLoc_eq]
    exact Set.Ico_subset_Ico (by omega) (by omega)
  · rw [h.memnodeBytes_eq]
    exact Set.Ico_subset_Ico (by omega) (by omega)
  · exact h.removeByte_eq hi
  · rw [createByte_eq]
    exact ⟨by omega, by omega⟩
  · rw [h.dataBytes_eq]
    exact Set.Ico_subset_Ico (by omega) (by omega)

theorem Wf.slotBits_disjoint (h : mp.Wf) (hi : i < mp.slots) (hj : j < mp.slots) (hij : i ≠ j) :
    Disjoint (mp.slotBits i) (mp.slotBits j) := by
  have hbitmap := h.bitmap
  have htable := h.table
  rw [Set.disjoint_left]
  rintro ⟨o, k⟩ hoi hoj
  obtain ⟨hk, hoi⟩ := (mem_slotBits h).mp hoi
  obtain ⟨-, hoj⟩ := (mem_slotBits h).mp hoj
  rcases hoi with hinode | hdata | ⟨hbyte, hbit⟩
  · omega
  · omega
  · have hbits : ¬(i / 8 = j / 8 ∧ i % 8 = j % 8) := by omega
    omega

theorem Wf.addressed (h : mp.Wf) (hfree : 4096 ≤ mp.freelistOff)
    (hpadded : mp.inodeOff + pad (32 * mp.slots) ≤ mp.dataOff) : mp.Addressed := by
  have hbitmap := h.bitmap
  have htable := h.table
  have hbehind {a b c d : ℕ} (hbc : b ≤ c) : Disjoint (Set.Ico a b) (Set.Ico c d) := by
    rw [Set.disjoint_left]
    rintro o ⟨-, hob⟩ ⟨hco, -⟩
    omega
  refine ⟨fun i hi => h.slotPlaced hi, fun i hi j hj hij => h.slotBits_disjoint hi hj hij,
    ?_, ?_⟩
  · rw [KvfsMount.tableRead, h.tableLoc_eq]
    exact Set.Ico_subset_Ico (by omega) (by omega)
  · simp only [List.pairwise_cons, List.mem_cons, List.not_mem_nil, or_false, forall_eq_or_imp,
      forall_eq, false_imp_iff, implies_true, List.Pairwise.nil, and_true]
    exact ⟨⟨hbehind hfree, hbehind (by omega), hbehind (by omega)⟩,
      ⟨hbehind le_rfl, hbehind (by omega)⟩, hbehind le_rfl⟩

end KvfsMount

/-! ## What the operations change -/

/-- The bits in which two devices differ. -/
def changedBits (d e : Disk) : Set (ℕ × ℕ) :=
  {p | p.2 < 8 ∧ (e p.1).toNat.testBit p.2 ≠ (d p.1).toNat.testBit p.2}

section Changes

variable {d e f : Disk} {s t : Fs} {i vp : ℕ} {knode : Memnode} {S : Set (ℕ × ℕ)}

theorem changedBits_self : changedBits d d = ∅ :=
  Set.eq_empty_of_forall_notMem fun _ hp => hp.2 rfl

/-- Two steps change what one of them changes. -/
theorem changedBits_subset_of (hde : changedBits d e ⊆ S) (hef : changedBits e f ⊆ S) :
    changedBits d f ⊆ S := by
  rintro p ⟨hp, hne⟩
  by_cases hfirst : (e p.1).toNat.testBit p.2 = (d p.1).toNat.testBit p.2
  · exact hef ⟨hp, fun heq => hne (heq.trans hfirst)⟩
  · exact hde ⟨hp, hfirst⟩

/-- A write changes its range. -/
theorem changedBits_put (d : Disk) (off : ℕ) (xs : List UInt8) :
    changedBits d (put d off xs) ⊆ {p | p.2 < 8 ∧ p.1 ∈ Set.Ico off (off + xs.length)} := by
  rintro p ⟨hp, hne⟩
  refine ⟨hp, ?_⟩
  by_contra hout
  rw [Set.mem_Ico] at hout
  exact hne (by rw [put_of_not_mem (by omega)])

/-- Setting the bits of a mask changes no others. -/
theorem changedBits_or {o : ℕ} {mask : UInt8} : changedBits d (d.modify o (· ||| mask)) ⊆
    {p | p.2 < 8 ∧ p.1 = o ∧ mask.toNat.testBit p.2} := by
  rintro p ⟨hp, hne⟩
  by_cases ho : p.1 = o
  · refine ⟨hp, ho, ?_⟩
    by_contra hmask
    rw [Disk.modify, ho, Function.update_self, UInt8.toNat_or, Nat.testBit_or,
      Bool.eq_false_of_not_eq_true hmask, Bool.or_false] at hne
    exact hne rfl
  · rw [Disk.modify, Function.update_of_ne ho] at hne
    exact absurd rfl hne

/-- Clearing the bit of a slot changes no other. -/
theorem changedBits_and_not {o k : ℕ} :
    changedBits d (d.modify o (· &&& ~~~(inoToFreeBitMask (32 * k)))) ⊆
      {p | p.2 < 8 ∧ p.1 = o ∧ (inoToFreeBitMask (32 * k)).toNat.testBit p.2} := by
  rintro p ⟨hp, hne⟩
  by_cases ho : p.1 = o
  · refine ⟨hp, ho, ?_⟩
    by_contra hmask
    rw [inoToFreeBitMask_slot, KvfsMount.testBit_mask hp (Nat.mod_lt _ (by decide))] at hmask
    rw [Disk.modify, ho, Function.update_self, inoToFreeBitMask_slot, UInt8.toNat_and,
      Nat.testBit_and, KvfsMount.testBit_not_mask hp (Nat.mod_lt _ (by decide)),
      Bool.eq_false_of_not_eq_true hmask, Bool.not_false, Bool.and_true] at hne
    exact hne rfl
  · rw [Disk.modify, Function.update_of_ne ho] at hne
    exact absurd rfl hne

variable {mp : KvfsMount}

theorem KvfsMount.memnodeBytes_subset :
    {p : ℕ × ℕ | p.2 < 8 ∧ p.1 ∈ mp.memnodeBytes i} ⊆ mp.slotBits i :=
  fun _ hp => ⟨hp.1, Or.inl hp.2⟩

theorem KvfsMount.dataBytes_subset :
    {p : ℕ × ℕ | p.2 < 8 ∧ p.1 ∈ mp.dataBytes i} ⊆ mp.slotBits i :=
  fun _ hp => ⟨hp.1, Or.inr (Or.inl hp.2)⟩

theorem KvfsMount.createByte_subset :
    {p : ℕ × ℕ | p.2 < 8 ∧ p.1 = mp.createByte i ∧
      (inoToFreeBitMask (32 * i)).toNat.testBit p.2} ⊆ mp.slotBits i :=
  fun _ hp => ⟨hp.1, Or.inr (Or.inr hp.2)⟩

/-- An inode is written to the bytes of its slot. -/
theorem changedBits_putInode (x : Inode) :
    changedBits d (put d (mp.inodeLoc (32 * i)) x.bytes) ⊆ mp.slotBits i := by
  have hput := changedBits_put d (mp.inodeLoc (32 * i)) x.bytes
  rw [Inode.length_bytes] at hput
  exact hput.trans KvfsMount.memnodeBytes_subset

/-- `memnode_update` changes bits of its slot only. -/
theorem memnodeUpdate_changes (hino : knode.ino = 32 * i) (x : Inode) :
    changedBits s.disk (memnodeUpdate s knode x).disk ⊆ s.mp.slotBits i := by
  rw [memnodeUpdate, hino]
  exact changedBits_putInode x

theorem kvfsVgetInternal_changes (keystr : Option (Name × Timespec)) :
    changedBits s.disk (kvfsVgetInternal s (32 * i) keystr).1.disk ⊆ s.mp.slotBits i := by
  have hsame : changedBits s.disk s.disk ⊆ s.mp.slotBits i := by
    rw [changedBits_self]
    exact Set.empty_subset _
  unfold kvfsVgetInternal
  dsimp only
  split
  · exact hsame
  · rw [if_neg (slot_ne_root i)]
    split
    · split
      · exact hsame
      · split
        · exact hsame
        · exact changedBits_putInode _
    · exact hsame

/-- `kvfs_create` changes bits of the slot that it takes only. -/
theorem kvfsCreate_changes {freelist : List ℕ} (hfree : s.freelist = 32 * i :: freelist)
    (name : Name) (ts : Timespec) :
    changedBits s.disk (kvfsCreate s name ts).1.disk ⊆ s.mp.slotBits i := by
  simp only [kvfsCreate, hfree]
  refine changedBits_subset_of (changedBits_or.trans KvfsMount.createByte_subset) ?_
  exact kvfsVgetInternal_changes (some (name, ts))

/-- `kvfs_remove` changes bits of the slot of its file only. -/
theorem kvfsRemove_changes (hplaced : s.mp.SlotPlaced i)
    (hfile : s.vnodes vp = some (.file knode)) (hino : knode.ino = 32 * i)
    (hlbn : knode.lbn = s.mp.dataLbn (32 * i)) (hrun : kvfsRemove s vp = some t) :
    changedBits s.disk t.disk ⊆ s.mp.slotBits i := by
  simp only [kvfsRemove, hfile, hino, hlbn, Option.some.injEq] at hrun
  have hdata : changedBits (memnodeUpdate s knode .empty).disk
      (put (memnodeUpdate s knode .empty).disk (dbtob (s.mp.dataLbn (32 * i)))
        (List.replicate 4096 0)) ⊆ s.mp.slotBits i := by
    have hput := changedBits_put (memnodeUpdate s knode .empty).disk
      (dbtob (s.mp.dataLbn (32 * i))) (List.replicate 4096 0)
    rw [List.length_replicate] at hput
    exact hput.trans KvfsMount.dataBytes_subset
  rw [← hrun]
  refine changedBits_subset_of (memnodeUpdate_changes hino .empty)
    (changedBits_subset_of hdata ?_)
  have hbyte := hplaced.byte
  rw [KvfsMount.removeByte] at hbyte
  change changedBits _ (Disk.modify _ (dbtob (btodb (inoToFreeByte (32 * i) s.mp % 2 ^ 32)) +
    inoToFreeByte (32 * i) s.mp % 2 ^ 32 % 512) _) ⊆ _
  rw [hbyte]
  exact changedBits_and_not.trans KvfsMount.createByte_subset

end Changes

/-! ## The layouts of `init_superblock` -/

variable {D n m : ℕ} {sb : Superblock}

/-- The regions may be made for more blocks than there are. -/
theorem wf_mount (h : sb.Placed n) (hcount : sb.blockCount.toNat = m) (hmn : m ≤ n)
    (hm : m < 2 ^ 31) (hn : n < 2 ^ 34) : sb.mount.Wf := by
  have hfree := h.freelistOff
  have hinode := h.inodeOff
  have hdata := h.dataOff
  simp only [formattedMount, pad, ceil] at hinode hdata
  constructor <;> simp only [Superblock.mount, KvfsMount.slots] <;> omega

theorem pad_mono {a b : ℕ} (h : a ≤ b) : pad a ≤ pad b := by
  unfold pad ceil
  omega

theorem addressed_mount (h : sb.Placed n) (hcount : sb.blockCount.toNat = m) (hmn : m ≤ n)
    (hm : m < 2 ^ 31) (hn : n < 2 ^ 34) : sb.mount.Addressed := by
  have hpad : pad (32 * m) ≤ pad (n * 32) := pad_mono (by omega)
  apply (wf_mount h hcount hmn hm hn).addressed
  · exact h.freelistOff.ge
  · change sb.inodeOff.toNat + pad (32 * sb.blockCount.toNat) ≤ sb.dataOff.toNat
    rw [hcount, h.inodeOff, h.dataOff]
    simp only [formattedMount]
    omega

/-- The regions are made for the number of blocks, or for one block more. -/
theorem searchBlocks_near {fuel : ℕ} {b δ : ℤ} {sizes : Sizes} (hD : D < 2 ^ 45)
    (h : SearchInv D b δ) (hsearch : searchBlocks D fuel b δ = some sizes) :
    sizes.blocks ≤ sizes.inodeCount ∧ sizes.inodeCount ≤ sizes.blocks + 1 := by
  obtain ⟨b, δ, hinv, -, -, hstops⟩ := searchBlocks_rule (P := fun _ _ => True) hD
    (fun _ _ _ _ _ _ _ => trivial) (fun _ _ _ _ _ _ => trivial) h trivial hsearch
  have hnonneg := hinv.nonneg
  rw [hstops.inodeCount]
  rcases hstops.fit with ⟨-, hblocks⟩ | ⟨-, hδ, hblocks⟩
  · omega
  · omega

/-- The search ends on every device of at least a block and at most 2⁴² bytes, and in the layout
it makes every slot has one place for its inode, which does not straddle a sector, one for its bit
and one for its data, different slots have different places, and neither the superblock nor the
regions overlap. -/
theorem slots_addressed (hmin : 4096 ≤ D) (hmax : D ≤ 2 ^ 42) :
    (∃ fuel sb, searchSuperblock fuel D = some sb) ∧
      ∀ fuel sb, searchSuperblock fuel D = some sb → sb.mount.Addressed := by
  have hD : D < 2 ^ 45 := hmax.trans_lt (by decide)
  refine ⟨exists_superblock hD, fun fuel sb hsb => ?_⟩
  obtain ⟨sizes, hsearch, rfl⟩ := Option.map_eq_some_iff.mp hsb
  obtain ⟨n, hends⟩ := searchBlocks_ends hD (SearchInv.init D) hsearch
  obtain ⟨m, hblocks, hfits, -⟩ :=
    searchBlocks_best hD hmin (SearchInv.init D) (tooLow_init hD hmin) hsearch
  have hnear := searchBlocks_near hD (SearchInv.init D) hsearch
  rw [hblocks, hends.inodeCount] at hnear
  have hm : m < 2 ^ 31 := by
    unfold layoutSize at hfits
    omega
  have hcount := blockCount_superblock hblocks (by omega)
  exact addressed_mount (hends.placed hD) hcount (by omega) hm (by omega)

/-- A device of 256 blocks, which gets 252 slots. -/
theorem slots_addressed_mebibyte : (∃ fuel sb, searchSuperblock fuel 1048576 = some sb) ∧
    ∀ fuel sb, searchSuperblock fuel 1048576 = some sb → sb.mount.Addressed :=
  slots_addressed (by decide) (by decide)

end EmbeddedOs.Kvfs
