import EmbeddedOs.Kvfs.Mount
import Mathlib.Data.List.Nodup

/-!
# Freshly formatted devices

What `kvfs_mount` reads from the bitmap, and what it finds on a device that `mkkvfs` wrote.
The mount takes the bits of a byte from the most significant one on, so that bit `7 - j` of
byte `i` decides about slot `8 * i + j`.
-/

namespace EmbeddedOs.Kvfs

open Lib.Bytes

/-! ## The free list of a mount -/

/-- The bit that `kvfs_mount` takes for that of slot `i`, in a bitmap at `base`. -/
def mountBit (d : Disk) (base i : ℕ) : Bool := (d (base + i / 8)).toNat.testBit (7 - i % 8)

/-- The test of a bit by its mask. -/
theorem and_mask_eq_zero {b : UInt8} {j : ℕ} (hj : j < 8) :
    b &&& ((1 : UInt8) <<< 7) >>> UInt8.ofNat j = 0 ↔ b.toNat.testBit (7 - j) = false := by
  have hall : ∀ j : Fin 8, (((1 : UInt8) <<< 7) >>> UInt8.ofNat j.val).toNat = 2 ^ (7 - j.val) := by
    decide
  have hmask : (((1 : UInt8) <<< 7) >>> UInt8.ofNat j).toNat = 2 ^ (7 - j) := hall ⟨j, hj⟩
  rw [← UInt8.toNat_inj, UInt8.toNat_and, hmask, Nat.and_two_pow]
  cases b.toNat.testBit (7 - j) <;> simp

/-- The loop over the bits of a byte puts the slots of its clear bits on the list. The
`break` skips only bits behind the last slot. -/
theorem mountByte_eq {n i : ℕ} {byte : UInt8} {js : List ℕ} (hjs : js.Pairwise (· < ·))
    (hlt : ∀ j ∈ js, j < 8) (fl : List ℕ × UInt32) :
    mountByte n i byte js fl =
      (((js.filter fun j => !byte.toNat.testBit (7 - j) && decide (8 * i + j < n)).map
          fun j => 32 * (8 * i + j)).reverse ++ fl.1,
        fl.2 + UInt32.ofNat
          (js.filter fun j => !byte.toNat.testBit (7 - j) && decide (8 * i + j < n)).length) := by
  induction js generalizing fl with
  | nil => simp [mountByte]
  | cons j js ih =>
    obtain ⟨hj, hrest⟩ := List.pairwise_cons.mp hjs
    have hj8 := hlt j (by simp)
    have hnext := ih hrest (fun k hk => hlt k (by simp [hk]))
    rw [mountByte]
    simp only [and_mask_eq_zero hj8]
    cases hbit : byte.toNat.testBit (7 - j) with
    | true =>
      rw [if_neg (by simp), hnext, List.filter_cons_of_neg (by simp [hbit])]
    | false =>
      rw [if_pos rfl]
      by_cases hend : n ≤ i * 8 + j
      · have hnone : (j :: js).filter (fun j => !byte.toNat.testBit (7 - j) &&
            decide (8 * i + j < n)) = [] := by
          rw [List.filter_eq_nil_iff]
          intro k hk
          have hjk : j ≤ k := by
            rcases List.mem_cons.mp hk with rfl | hk
            · exact le_rfl
            · exact (hj k hk).le
          simp only [Bool.and_eq_true, decide_eq_true_eq, not_and]
          omega
        rw [if_pos hend, hnone]
        simp
      · have hin : decide (8 * i + j < n) = true := decide_eq_true (by omega)
        rw [if_neg hend, hnext, List.filter_cons_of_pos (by simp [hbit, hin])]
        simp only [List.map_cons, List.reverse_cons, List.append_assoc, List.cons_append,
          List.nil_append, List.length_cons, Prod.mk.injEq]
        refine ⟨?_, ?_⟩
        · rw [show i * 8 * 32 + j * 32 = 32 * (8 * i + j) by omega]
        · rw [Nat.add_comm _ 1, UInt32.ofNat_add, UInt32.add_assoc]
          rfl

/-- The slots that `kvfs_mount` finds free, in order. -/
def mountSlots (d : Disk) (base n m : ℕ) : List ℕ :=
  (List.range (8 * m)).filter fun i => !mountBit d base i && decide (i < n)

/-- The loop of `kvfs_mount` over the first `m` bytes of the bitmap. -/
theorem foldl_mountByte (d : Disk) (base n m : ℕ) :
    (List.range m).foldl (fun fl i => mountByte n i (d (base + i)) (List.range 8) fl) ([], 0) =
      (((mountSlots d base n m).map (32 * ·)).reverse,
        UInt32.ofNat (mountSlots d base n m).length) := by
  induction m with
  | zero => simp [mountSlots]
  | succ m ih =>
    have hbyte : ∀ j ∈ List.range 8,
        (!(d (base + m)).toNat.testBit (7 - j) && decide (8 * m + j < n)) =
          (!mountBit d base (8 * m + j) && decide (8 * m + j < n)) := by
      intro j hj
      have hj8 := List.mem_range.mp hj
      rw [mountBit, show (8 * m + j) / 8 = m by omega, show (8 * m + j) % 8 = j by omega]
    have hslots : mountSlots d base n (m + 1) = mountSlots d base n m ++
        ((List.range 8).filter fun j => !(d (base + m)).toNat.testBit (7 - j) &&
          decide (8 * m + j < n)).map (8 * m + ·) := by
      rw [mountSlots, Nat.mul_succ, List.range_add, List.filter_append, List.filter_map,
        List.filter_congr hbyte]
      rfl
    rw [List.range_succ (n := m), List.foldl_append, ih, List.foldl_cons, List.foldl_nil,
      mountByte_eq List.pairwise_lt_range (fun j hj => List.mem_range.mp hj), hslots]
    simp only [List.map_append, List.reverse_append, List.map_map, List.length_append,
      List.length_map, UInt32.ofNat_add]
    rfl

/-! ## The device `mkkvfs` writes -/

/-- The layout of a device with `n` blocks. -/
def formattedMount (n : ℕ) : KvfsMount where
  freelistOff := 4096
  inodeOff := pad (ceil n 8) + 4096
  dataOff := pad (n * 32) + (pad (ceil n 8) + 4096)
  blockCount := UInt32.ofNat n
  flags := 0

variable {n : ℕ}

theorem slots_formattedMount (h : n < 2 ^ 32) : (formattedMount n).slots = n := by
  simp only [KvfsMount.slots, formattedMount, UInt32.toNat_ofNat']
  omega

theorem wf_formattedMount (h : n < 2 ^ 31) : (formattedMount n).Wf := by
  have hslots := slots_formattedMount (n := n) (by omega)
  constructor <;> (try rw [hslots]) <;> (try simp only [formattedMount, pad, ceil]) <;> omega

/-- The bitmap lies before the inodes, for every number of slots. -/
theorem formattedMount_bitmap (n : ℕ) : 4096 + (n + 7) / 8 ≤ (formattedMount n).inodeOff := by
  simp only [formattedMount, pad, ceil]
  omega

/-- The inodes lie before the data. -/
theorem formattedMount_table (n : ℕ) :
    (formattedMount n).inodeOff + 32 * n ≤ (formattedMount n).dataOff := by
  simp only [formattedMount, pad, ceil]
  omega

/-- The inodes start a block. -/
theorem formattedMount_inodeOff_mod (n : ℕ) : (formattedMount n).inodeOff % 4096 = 0 := by
  simp only [formattedMount, pad]
  omega

/-- The data starts a block. -/
theorem formattedMount_dataOff_mod (n : ℕ) : (formattedMount n).dataOff % 4096 = 0 := by
  simp only [formattedMount, pad]
  omega

/-- The superblock has the layout. -/
theorem initSuperblock_offsets (h : n < 2 ^ 32) :
    (initSuperblock n).freelistOff.toNat = (formattedMount n).freelistOff ∧
      (initSuperblock n).inodeOff.toNat = (formattedMount n).inodeOff ∧
      (initSuperblock n).dataOff.toNat = (formattedMount n).dataOff ∧
      (initSuperblock n).fsSize.toNat = (formattedMount n).dataOff + 4096 * n := by
  simp only [initSuperblock, formattedMount, UInt64.toNat_ofNat', pad, ceil]
  refine ⟨trivial, ?_, ?_, ?_⟩ <;> omega

/-- The byte of a formatted device at `o`. -/
def formattedByte (n o : ℕ) : UInt8 :=
  if o < 4096 then ((initSuperblock n).bytes[o]?).getD 0
  else if (formattedMount n).inodeOff ≤ o ∧ o < (formattedMount n).dataOff then
    (Inode.empty.bytes[(o - (formattedMount n).inodeOff) % 32]?).getD 0
  else 0

/-- The slot whose bit `kvfs_mount` takes for that of slot `i`: the one at the mirrored place
of the same byte. -/
def mirror (i : ℕ) : ℕ := 8 * (i / 8) + (7 - i % 8)

theorem mirror_mirror (i : ℕ) : mirror (mirror i) = i := by
  simp only [mirror]
  omega

theorem mirror_div (i : ℕ) : mirror i / 8 = i / 8 := by
  simp only [mirror]
  omega

/-- `kvfs_mount` and the operations number the bits of a byte in opposite orders. -/
theorem mountBit_eq (d : Disk) (n i : ℕ) :
    mountBit d 4096 i = (formattedMount n).bitAt d (mirror i) := by
  have hmod : mirror i % 8 = 7 - i % 8 := by
    simp only [mirror]
    omega
  rw [mountBit, KvfsMount.bitAt, mirror_div, hmod]
  rfl

/-- What `mkkvfs` has written so far has the bytes `pat`. -/
def Device.Holds (pat : ℕ → UInt8) (fd : Device) : Prop := ∀ o, o < fd.pos → fd.disk o = pat o

variable {pat : ℕ → UInt8} {fd : Device}

theorem pos_writebuf (buf : List UInt8) : (writebuf fd buf).pos = fd.pos + buf.length := rfl

/-- A loop that writes `m` buffers of zeros writes `m` blocks. -/
theorem pos_zeros (fd : Device) (m : ℕ) :
    ((List.range m).foldl (fun fd _ => writebuf fd zeroBuf) fd).pos = fd.pos + 4096 * m := by
  have hlen : zeroBuf.length = 4096 := List.length_replicate
  induction m with
  | zero => rfl
  | succ m ih =>
    rw [List.range_succ, List.foldl_append, List.foldl_cons, List.foldl_nil, pos_writebuf, ih,
      hlen]
    omega

/-- The loop over the inodes writes a block for every 128 of them. -/
theorem pos_inodes (fd : Device) {inodeOff : ℕ} (halign : inodeOff % 4096 = 0) (m : ℕ) :
    ((List.range m).foldl (fun fd k =>
      if (inodeOff + 32 * k) % 4096 = 0 then writebuf fd inodeBuf else fd) fd).pos =
        fd.pos + 4096 * ((m + 127) / 128) := by
  have hlen : inodeBuf.length = 4096 := by simp [inodeBuf]
  induction m with
  | zero => rfl
  | succ m ih =>
    rw [List.range_succ, List.foldl_append, List.foldl_cons, List.foldl_nil]
    by_cases hblock : (inodeOff + 32 * m) % 4096 = 0
    · rw [if_pos hblock, pos_writebuf, ih, hlen]
      omega
    · rw [if_neg hblock, ih]
      omega

theorem Device.Holds.writebuf (h : fd.Holds pat) {buf : List UInt8}
    (hbuf : ∀ j, (hj : j < buf.length) → buf[j] = pat (fd.pos + j)) :
    (Kvfs.writebuf fd buf).Holds pat := by
  intro o ho
  simp only [Kvfs.writebuf] at ho ⊢
  by_cases hold : o < fd.pos
  · rw [put_of_not_mem (Or.inl hold)]
    exact h o hold
  · rw [put_of_mem (by omega) ho, hbuf _ (by omega), show fd.pos + (o - fd.pos) = o by omega]

/-- A loop that writes `m` buffers of zeros. -/
theorem Device.Holds.zeros (h : fd.Holds pat) {m : ℕ}
    (hpat : ∀ o, fd.pos ≤ o → o < fd.pos + 4096 * m → pat o = 0) :
    ((List.range m).foldl (fun fd _ => Kvfs.writebuf fd zeroBuf) fd).Holds pat := by
  induction m with
  | zero => exact h
  | succ m ih =>
    have hholds := ih (fun o hle hlt => hpat o hle (by omega))
    have hlen : zeroBuf.length = 4096 := List.length_replicate
    rw [List.range_succ, List.foldl_append, List.foldl_cons, List.foldl_nil]
    apply hholds.writebuf
    intro j hj
    rw [hlen] at hj
    rw [pos_zeros, hpat _ (by omega) (by omega)]
    exact List.getElem_replicate _

/-- A byte of the buffer of inodes. -/
theorem getElem_inodeBuf {j : ℕ} (hj : j < inodeBuf.length) :
    inodeBuf[j] = (Inode.empty.bytes[j % 32]?).getD 0 := by
  have hflat : ∀ m j, j < 32 * m →
      ((List.replicate m Inode.empty.bytes).flatten)[j]? = Inode.empty.bytes[j % 32]? := by
    intro m
    induction m with
    | zero => intro j hj; omega
    | succ m ih =>
      intro j hj
      rw [List.replicate_succ, List.flatten_cons]
      by_cases hlow : j < 32
      · rw [List.getElem?_append_left (by rw [Inode.length_bytes]; exact hlow),
          Nat.mod_eq_of_lt hlow]
      · rw [List.getElem?_append_right (by rw [Inode.length_bytes]; omega), Inode.length_bytes,
          ih _ (by omega), show (j - 32) % 32 = j % 32 by omega]
  have hlen : inodeBuf.length = 4096 := by simp [inodeBuf]
  have hsome : (List.replicate 128 Inode.empty.bytes).flatten[j]? = some inodeBuf[j] :=
    List.getElem?_eq_getElem hj
  rw [hflat 128 j (by omega)] at hsome
  rw [hsome]
  rfl

/-- The loop that writes the inodes writes a buffer for every 128 of them. -/
theorem Device.Holds.inodes (h : fd.Holds pat) {inodeOff m : ℕ} (hpos : fd.pos = inodeOff)
    (halign : inodeOff % 4096 = 0)
    (hpat : ∀ o, inodeOff ≤ o → o < inodeOff + 4096 * ((m + 127) / 128) →
      pat o = (Inode.empty.bytes[(o - inodeOff) % 32]?).getD 0) :
    ((List.range m).foldl (fun fd k =>
      if (inodeOff + 32 * k) % 4096 = 0 then Kvfs.writebuf fd inodeBuf else fd) fd).Holds pat := by
  induction m with
  | zero => exact h
  | succ m ih =>
    have hholds := ih (fun o hle hlt => hpat o hle (by omega))
    have hlen : inodeBuf.length = 4096 := by simp [inodeBuf]
    rw [List.range_succ, List.foldl_append, List.foldl_cons, List.foldl_nil]
    by_cases hblock : (inodeOff + 32 * m) % 4096 = 0
    · rw [if_pos hblock]
      apply hholds.writebuf
      intro j hj
      rw [getElem_inodeBuf hj, pos_inodes fd halign, hpos, hpat _ (by omega) (by omega),
        show (inodeOff + 4096 * ((m + 127) / 128) + j - inodeOff) % 32 = j % 32 by omega]
    · rw [if_neg hblock]
      exact hholds

theorem length_superblockBuf (sb : Superblock) : (superblockBuf sb).length = 4096 := by
  rw [superblockBuf, List.length_append, Superblock.length_bytes, List.length_replicate]

/-- The superblock comes first. -/
theorem Device.Holds.superblock (disk : Disk) :
    (Kvfs.writebuf ⟨0, disk⟩ (superblockBuf (initSuperblock n))).Holds (formattedByte n) := by
  apply Device.Holds.writebuf (fun o ho => absurd ho (Nat.not_lt_zero o))
  intro j hj
  rw [length_superblockBuf] at hj
  rw [Nat.zero_add, formattedByte, if_pos hj]
  by_cases hlow : j < 48
  · have hin : j < (initSuperblock n).bytes.length := by rwa [Superblock.length_bytes]
    simp only [superblockBuf, List.getElem_append_left hin, List.getElem?_eq_getElem hin,
      Option.getD_some]
  · have hout : (initSuperblock n).bytes.length ≤ j := by rw [Superblock.length_bytes]; omega
    simp only [superblockBuf, List.getElem_append_right hout, List.getElem_replicate,
      List.getElem?_eq_none hout, Option.getD_none]

/-- The buffers that `mkkvfs` writes behind the superblock, for offsets that are multiples of
the block size. -/
theorem Device.Holds.regions (h : fd.Holds pat) {inodeOff dataOff size : ℕ} (hpos : fd.pos = 4096)
    (hinodeOff : inodeOff % 4096 = 0) (hdataOff : dataOff % 4096 = 0) (hlow : 4096 ≤ inodeOff)
    (hhigh : inodeOff ≤ dataOff) (hbitmap : ∀ o, 4096 ≤ o → o < inodeOff → pat o = 0)
    (hinode : ∀ o, inodeOff ≤ o → o < dataOff →
      pat o = (Inode.empty.bytes[(o - inodeOff) % 32]?).getD 0)
    (hvalue : ∀ o, dataOff ≤ o → pat o = 0) :
    let fd := (List.range (ceil (inodeOff - 4096) 4096)).foldl
      (fun fd _ => Kvfs.writebuf fd zeroBuf) fd
    let fd := (List.range (ceil (dataOff - inodeOff) 32)).foldl
      (fun fd k => if (inodeOff + 32 * k) % 4096 = 0 then Kvfs.writebuf fd inodeBuf else fd) fd
    let fd := (List.range (ceil size 4096)).foldl (fun fd _ => Kvfs.writebuf fd zeroBuf) fd
    fd.Holds pat ∧ dataOff + size ≤ fd.pos := by
  have hbitmapCount : 4096 + 4096 * ceil (inodeOff - 4096) 4096 = inodeOff := by
    simp only [ceil]
    omega
  have hinodeCount : inodeOff + 4096 * ((ceil (dataOff - inodeOff) 32 + 127) / 128) = dataOff := by
    simp only [ceil]
    omega
  have hvalueCount : size ≤ 4096 * ceil size 4096 := by
    simp only [ceil]
    omega
  have h₁ := h.zeros (m := ceil (inodeOff - 4096) 4096) (by
    rw [hpos, hbitmapCount]
    exact hbitmap)
  have hpos₁ := pos_zeros fd (ceil (inodeOff - 4096) 4096)
  rw [hpos, hbitmapCount] at hpos₁
  have h₂ := h₁.inodes (m := ceil (dataOff - inodeOff) 32) hpos₁ hinodeOff (by
    rw [hinodeCount]
    exact hinode)
  have hpos₂ := pos_inodes ((List.range (ceil (inodeOff - 4096) 4096)).foldl
    (fun fd _ => Kvfs.writebuf fd zeroBuf) fd) hinodeOff (ceil (dataOff - inodeOff) 32)
  rw [hpos₁, hinodeCount] at hpos₂
  have h₃ := h₂.zeros (m := ceil size 4096) (by
    rw [hpos₂]
    exact fun o hle _ => hvalue o hle)
  refine ⟨h₃, ?_⟩
  simp only [pos_zeros, hpos₂]
  omega

/-- `mkkvfs` writes a device with `n` blocks. -/
theorem mkkvfs_apply (h : n < 2 ^ 32) (disk : Disk) {o : ℕ}
    (ho : o < (formattedMount n).dataOff + 4096 * n) :
    mkkvfs (initSuperblock n) disk o = formattedByte n o := by
  obtain ⟨hfree, hinode, hdata, hsize⟩ := initSuperblock_offsets h
  have hbitmap := formattedMount_bitmap n
  have htable := formattedMount_table n
  have hfreelistOff : (formattedMount n).freelistOff = 4096 := rfl
  have hinodeMod := formattedMount_inodeOff_mod n
  have hdataMod := formattedMount_dataOff_mod n
  have hpos : (writebuf ⟨0, disk⟩ (superblockBuf (initSuperblock n))).pos = 4096 := by
    rw [pos_writebuf, length_superblockBuf]
  obtain ⟨hholds, hend⟩ := (Device.Holds.superblock (n := n) disk).regions hpos hinodeMod hdataMod
    (by omega) (by omega)
    (fun o hle hlt => by rw [formattedByte, if_neg (by omega), if_neg (by omega)])
    (fun o hle hlt => by rw [formattedByte, if_neg (by omega), if_pos ⟨hle, hlt⟩])
    (fun o hle => by rw [formattedByte, if_neg (by omega), if_neg (by omega)])
  rw [hfreelistOff] at hfree
  rw [mkkvfs, hfree, hinode, hdata, hsize, Nat.add_sub_cancel_left]
  exact hholds o (ho.trans_le hend)

/-! ## Mounting a formatted device -/

/-- The device has the superblock that `mkkvfs` makes for `n` blocks. -/
def HasSuperblock (n : ℕ) (d : Disk) : Prop :=
  Superblock.ofBytes (get d 0 48) = initSuperblock n

/-- The state after a mount of a device with `n` blocks. -/
def mountState (n : ℕ) (d : Disk) : Fs where
  mp := formattedMount n
  freelist := ((mountSlots d 4096 n ((n + 7) / 8)).map (32 * ·)).reverse
  freelistCount := UInt32.ofNat (mountSlots d 4096 n ((n + 7) / 8)).length
  disk := d
  vnodes _ := none
  hash := []
  nextVp := 0

variable {d : Disk}

/-- A device with the superblock of `mkkvfs` is mounted. -/
theorem kvfsMount_eq (h : n ≤ 2 ^ 31) (hsb : HasSuperblock n d) :
    kvfsMount d = .ok (mountState n d) := by
  obtain ⟨hfree, hinode, hdata, -⟩ := initSuperblock_offsets (n := n) (by omega)
  have hsb' : Superblock.ofBytes (get d 0 48) = initSuperblock n := hsb
  have hcount : (initSuperblock n).blockCount.toNat = n := slots_formattedMount (by omega)
  have hbytes : ((initSuperblock n).blockCount + 7).toNat / 8 = (n + 7) / 8 := by
    rw [UInt32.toNat_add, hcount]
    simp only [UInt32.reduceToNat]
    omega
  have hmagic : (initSuperblock n).magicnum = kvfsSuperblockMagic := rfl
  have hbase : dbtob (btodb (formattedMount n).freelistOff) = 4096 :=
    dbtob_btodb (Nat.mod_eq_zero_of_dvd ⟨8, rfl⟩)
  simp only [kvfsMount, hsb', hmagic, ne_eq, not_true_eq_false, if_false, hbytes, hfree, hbase,
    hcount, foldl_mountByte, hinode, hdata]
  rfl

/-- The free list of a mount has the slots whose bits are clear. -/
theorem mem_freelist_mountState {ino : ℕ} : ino ∈ (mountState n d).freelist ↔
    ∃ i < n, ino = 32 * i ∧ mountBit d 4096 i = false := by
  simp only [mountState, List.mem_reverse, List.mem_map, mountSlots, List.mem_filter,
    List.mem_range, Bool.and_eq_true, Bool.not_eq_true', decide_eq_true_eq]
  constructor
  · rintro ⟨i, ⟨-, hbit, hlt⟩, rfl⟩
    exact ⟨i, hlt, rfl, hbit⟩
  · rintro ⟨i, hlt, rfl, hbit⟩
    exact ⟨i, ⟨by omega, hbit, hlt⟩, rfl⟩

theorem nodup_freelist_mountState : (mountState n d).freelist.Nodup := by
  have hinj : Function.Injective (32 * · : ℕ → ℕ) := fun i j h => by
    simp only at h
    omega
  exact List.nodup_reverse.mpr ((List.nodup_range.filter _).map hinj)

theorem freelistCount_mountState (h : n ≤ 2 ^ 31) :
    (mountState n d).freelistCount.toNat = (mountState n d).freelist.length := by
  have hle : (mountSlots d 4096 n ((n + 7) / 8)).length ≤ 8 * ((n + 7) / 8) := by
    have hfilter := List.length_filter_le (fun i => !mountBit d 4096 i && decide (i < n))
      (List.range (8 * ((n + 7) / 8)))
    rwa [List.length_range] at hfilter
  simp only [mountState, List.length_reverse, List.length_map, UInt32.toNat_ofNat']
  omega

/-- A write behind the superblock leaves it in place. -/
theorem HasSuperblock.congr {d' : Disk} (h : HasSuperblock n d)
    (hd : ∀ o, o < 48 → d' o = d o) : HasSuperblock n d' := by
  have hget : get d' 0 48 = get d 0 48 := by
    apply get_congr
    intro i hi
    rw [Nat.zero_add]
    exact hd i hi
  rw [HasSuperblock, hget]
  exact h

namespace HasSuperblock

variable {i : ℕ}

theorem putInode (h : HasSuperblock n d) (x : Inode) :
    HasSuperblock n ((formattedMount n).putInode d i x) := by
  have hlow : 4096 ≤ (formattedMount n).inodeOff := Nat.le_add_left 4096 _
  exact h.congr fun o ho => put_of_not_mem (Or.inl (by omega))

theorem putData (h : HasSuperblock n d) (off : ℕ) (xs : List UInt8) :
    HasSuperblock n ((formattedMount n).putData d i off xs) := by
  have hlow : 4096 ≤ (formattedMount n).dataOff :=
    (Nat.le_add_left 4096 _).trans (Nat.le_add_left _ _)
  exact h.congr fun o ho => put_of_not_mem (Or.inl (by omega))

theorem modify (h : HasSuperblock n d) {o : ℕ} (ho : 4096 ≤ o) (f : UInt8 → UInt8) :
    HasSuperblock n (d.modify o f) :=
  h.congr fun o' ho' => Function.update_of_ne (by omega) _ _

theorem setBit (h : HasSuperblock n d) : HasSuperblock n ((formattedMount n).setBit d i) :=
  h.modify (Nat.le_add_right 4096 _) _

theorem clearBit (h : HasSuperblock n d) : HasSuperblock n ((formattedMount n).clearBit d i) :=
  h.modify (Nat.le_add_right 4096 _) _

end HasSuperblock

/-- A freshly formatted device: it has its superblock, all slots are free and have zeros as
values, and the bitmap is clear. -/
structure Formatted (n : ℕ) (d : Disk) : Prop where
  /-- The superblock. -/
  superblock : HasSuperblock n d
  /-- The inodes are free. -/
  inode : ∀ i < n, (formattedMount n).inodeAt d i = .empty
  /-- The bitmap is clear, with its last byte. -/
  bit : ∀ i, i < 8 * ((n + 7) / 8) → (formattedMount n).bitAt d i = false
  /-- The values are zeros. -/
  value : ∀ i < n, (formattedMount n).valueAt d i = List.replicate 4096 0

/-- `mkkvfs` formats a device. -/
theorem formatted_mkkvfs (h : n < 2 ^ 32) (disk : Disk) :
    Formatted n (mkkvfs (initSuperblock n) disk) := by
  have hbyte := fun {o} ho => mkkvfs_apply h disk (o := o) ho
  have hbitmap := formattedMount_bitmap n
  have htable := formattedMount_table n
  have hfreelistOff : (formattedMount n).freelistOff = 4096 := rfl
  refine ⟨?_, fun i hi => ?_, fun i hi => ?_, fun i hi => ?_⟩
  · have hget : get (mkkvfs (initSuperblock n) disk) 0 48 = (initSuperblock n).bytes := by
      apply get_eq_of_forall (Superblock.length_bytes _)
      intro j hj
      rw [Superblock.length_bytes] at hj
      rw [Nat.zero_add, hbyte (by omega), formattedByte, if_pos (by omega),
        List.getElem?_eq_getElem]
      rfl
    rw [HasSuperblock, hget, Superblock.ofBytes_bytes]
  · have hget : get (mkkvfs (initSuperblock n) disk) ((formattedMount n).inodeOff + 32 * i) 32 =
        Inode.empty.bytes := by
      apply get_eq_of_forall (Inode.length_bytes _)
      intro j hj
      rw [Inode.length_bytes] at hj
      rw [hbyte (by omega), formattedByte, if_neg (by omega), if_pos (by omega),
        show ((formattedMount n).inodeOff + 32 * i + j - (formattedMount n).inodeOff) % 32 = j by
          omega, List.getElem?_eq_getElem]
      rfl
    rw [KvfsMount.inodeAt, hget, Inode.ofBytes_bytes]
  · rw [KvfsMount.bitAt, hfreelistOff, hbyte (by omega), formattedByte, if_neg (by omega),
      if_neg (by omega)]
    simp
  · apply get_eq_of_forall List.length_replicate
    intro j hj
    rw [List.length_replicate] at hj
    rw [hbyte (by omega), formattedByte, if_neg (by omega), if_neg (by omega),
      List.getElem_replicate]

/-- The mount of a formatted device finds the slots in order. -/
theorem Formatted.mountSlots_eq {d : Disk} (h : Formatted n d) :
    mountSlots d 4096 n ((n + 7) / 8) = List.range n := by
  have hbit : ∀ i ∈ List.range (8 * ((n + 7) / 8)),
      (!mountBit d 4096 i && decide (i < n)) = decide (i < n) := by
    intro i hi
    have hlt : mirror i < 8 * ((n + 7) / 8) := by
      have hdiv := mirror_div i
      have hi' := List.mem_range.mp hi
      omega
    rw [mountBit_eq d n, h.bit _ hlt]
    simp
  have hsplit : 8 * ((n + 7) / 8) = n + (8 * ((n + 7) / 8) - n) := by omega
  unfold mountSlots
  rw [List.filter_congr hbit, hsplit, List.range_add, List.filter_append, List.filter_eq_self.mpr,
    List.filter_eq_nil_iff.mpr, List.append_nil]
  · intro i hi
    obtain ⟨k, -, rfl⟩ := List.mem_map.mp hi
    simp
  · intro i hi
    simpa using hi

/-- The last slot is the first one on the free list. -/
theorem Formatted.freelist_mountState {d : Disk} (h : Formatted n d) :
    (mountState n d).freelist = ((List.range n).map (32 * ·)).reverse := by
  rw [mountState, h.mountSlots_eq]

end EmbeddedOs.Kvfs
