import EmbeddedOs.Kvfs.Steps
import Mathlib.Data.List.Perm.Subperm

/-!
# The representation invariant

A mounted file system says four times which slots are in use: on the free list, in its
counter, in the bitmap and in the flags of the inodes. It says twice what the inode of a
file is that has a vnode. `Consistent` is what the operations keep of this, one lemma for
each kind of change.
-/

namespace EmbeddedOs.Kvfs

open Lib Lib.Bytes

/-- A slot that has a file. -/
def Fs.present (s : Fs) (i : ℕ) : Bool := decide (i < s.mp.slots) && !(s.inodeAt i).free

/-- The free list, its counter, the bitmap and the inodes agree on the slots in use. -/
structure Allocated (n : ℕ) (s : Fs) : Prop where
  /-- The number of blocks fits into the counters of the driver. -/
  blocks : n < 2 ^ 31
  /-- The layout is that of the format. -/
  mp : s.mp = formattedMount n
  /-- The superblock is in place. -/
  superblock : HasSuperblock n s.disk
  /-- No slot is twice on the free list. -/
  nodup : s.freelist.Nodup
  /-- The free list has the slots whose inodes are free. -/
  mem : ∀ ino, ino ∈ s.freelist ↔ ∃ i < n, ino = 32 * i ∧ (s.inodeAt i).free = true
  /-- The counter is the length of the free list. -/
  count : s.freelistCount.toNat = s.freelist.length
  /-- The bits are set for the slots in use, and for none behind the last slot. -/
  bit : ∀ i, i / 8 < (n + 7) / 8 → s.bitAt i = s.present i
  /-- A free inode has nothing but its flag. -/
  empty : ∀ i < n, (s.inodeAt i).free = true → s.inodeAt i = .empty
  /-- An inode that is not free is that of a file. -/
  active : ∀ i < n, (s.inodeAt i).free = false → (s.inodeAt i).Active

/-- The vnodes in the hash agree with the slots. -/
structure Cached (n : ℕ) (s : Fs) : Prop where
  /-- A vnode that was not handed out has no `v_data`. -/
  fresh : ∀ vp, s.nextVp ≤ vp → s.vnodes vp = none
  /-- A memnode has the `ino` and the `lbn` of one slot, and the inode of a file. -/
  node : ∀ vp knode, s.vnodes vp = some (.file knode) →
    ∃ i < n, ∃ x : Inode, x.Active ∧ knode = s.slotNode i x
  /-- The hash has the root, and files with the inodes of their slots. -/
  entry : ∀ ino vp, (ino, vp) ∈ s.hash → (ino = kvfsRootIno ∧ s.vnodes vp = some .root) ∨
    ∃ i < n, (s.inodeAt i).free = false ∧ ino = 32 * i ∧
      s.vnodes vp = some (.file (s.slotNode i (s.inodeAt i)))
  /-- The hash has one vnode for an inode. -/
  unique : ∀ ino vp vp', (ino, vp) ∈ s.hash → (ino, vp') ∈ s.hash → vp = vp'

/-- The representation invariant of a mounted device of `n` blocks. -/
structure Consistent (n : ℕ) (s : Fs) : Prop extends Allocated n s, Cached n s

variable {n i j vp : ℕ} {s t : Fs} {x y : Inode}

/-! ## The slots after a change -/

namespace Fs

theorem inodeAt_mountState {d : Disk} :
    (mountState n d).inodeAt i = (formattedMount n).inodeAt d i := rfl

theorem vnodes_addVnode {ino : ℕ} {node : Vnode} :
    (s.addVnode ino node).vnodes s.nextVp = some node := Function.update_self _ _ _

theorem inodeAt_addVnode {ino : ℕ} {node : Vnode} :
    (s.addVnode ino node).inodeAt j = s.inodeAt j := rfl

theorem freelist_addVnode {ino : ℕ} {node : Vnode} :
    (s.addVnode ino node).freelist = s.freelist := rfl

theorem inodeAt_putInode : (s.putInode i x).inodeAt j = if j = i then x else s.inodeAt j :=
  KvfsMount.inodeAt_putInode x

theorem bitAt_putInode (h : s.mp.Wf) (hj : j / 8 < (s.mp.slots + 7) / 8) :
    (s.putInode i x).bitAt j = s.bitAt j := KvfsMount.bitAt_putInode h hj x

theorem valueAt_putInode (h : s.mp.Wf) (hi : i < s.mp.slots) :
    (s.putInode i x).valueAt j = s.valueAt j := KvfsMount.valueAt_putInode h hi x

theorem inodeAt_putData (h : s.mp.Wf) (hj : j < s.mp.slots) {off : ℕ} {xs : List UInt8} :
    (s.putData i off xs).inodeAt j = s.inodeAt j := KvfsMount.inodeAt_putData h hj off xs

theorem bitAt_putData (h : s.mp.Wf) (hj : j / 8 < (s.mp.slots + 7) / 8) {off : ℕ}
    {xs : List UInt8} : (s.putData i off xs).bitAt j = s.bitAt j :=
  KvfsMount.bitAt_putData h hj off xs

theorem inodeAt_takeSlot (h : s.mp.Wf) (hi : i < s.mp.slots) :
    (s.takeSlot i).inodeAt j = s.inodeAt j := KvfsMount.inodeAt_setBit h hi

theorem bitAt_takeSlot : (s.takeSlot i).bitAt j = (decide (j = i) || s.bitAt j) :=
  KvfsMount.bitAt_setBit

theorem valueAt_takeSlot (h : s.mp.Wf) (hi : i < s.mp.slots) :
    (s.takeSlot i).valueAt j = s.valueAt j := KvfsMount.valueAt_setBit h hi

theorem inodeAt_giveSlot (h : s.mp.Wf) (hi : i < s.mp.slots) :
    (s.giveSlot i).inodeAt j = s.inodeAt j := KvfsMount.inodeAt_clearBit h hi

theorem bitAt_giveSlot : (s.giveSlot i).bitAt j = (!decide (j = i) && s.bitAt j) :=
  KvfsMount.bitAt_clearBit

theorem valueAt_giveSlot (h : s.mp.Wf) (hi : i < s.mp.slots) :
    (s.giveSlot i).valueAt j = s.valueAt j := KvfsMount.valueAt_clearBit h hi

theorem inodeAt_updateFile :
    (s.updateFile vp i x).inodeAt j = if j = i then x else s.inodeAt j :=
  inodeAt_putInode (s := s.setVnode vp _)

theorem valueAt_updateFile (h : s.mp.Wf) (hi : i < s.mp.slots) :
    (s.updateFile vp i x).valueAt j = s.valueAt j :=
  valueAt_putInode (s := s.setVnode vp _) h hi

/-- A slot is cleared when its file is removed. -/
theorem inodeAt_removeFile (h : s.mp.Wf) (hi : i < s.mp.slots) (hj : j < s.mp.slots) :
    (s.removeFile vp i).inodeAt j = if j = i then .empty else s.inodeAt j := by
  have hgive : (s.removeFile vp i).inodeAt j =
      ((s.putInode i .empty).putData i 0 (List.replicate 4096 0)).inodeAt j :=
    inodeAt_giveSlot (s := (s.putInode i .empty).putData i 0 _) h hi
  rw [hgive, inodeAt_putData (s := s.putInode i .empty) h hj, inodeAt_putInode]

theorem bitAt_removeFile (h : s.mp.Wf) (hj : j / 8 < (s.mp.slots + 7) / 8) :
    (s.removeFile vp i).bitAt j = (!decide (j = i) && s.bitAt j) := by
  have hgive : (s.removeFile vp i).bitAt j = (!decide (j = i) &&
      ((s.putInode i .empty).putData i 0 (List.replicate 4096 0)).bitAt j) := bitAt_giveSlot
  rw [hgive, bitAt_putData (s := s.putInode i .empty) h hj, bitAt_putInode h hj]

/-- The value of a file that is removed is cleared. -/
theorem valueAt_removeFile (h : s.mp.Wf) (hi : i < s.mp.slots) :
    (s.removeFile vp i).valueAt j = if j = i then List.replicate 4096 0 else s.valueAt j := by
  have hgive : (s.removeFile vp i).valueAt j =
      ((s.putInode i .empty).putData i 0 (List.replicate 4096 0)).valueAt j :=
    valueAt_giveSlot (s := (s.putInode i .empty).putData i 0 _) h hi
  rw [hgive]
  split
  · next hji =>
    rw [hji]
    exact KvfsMount.valueAt_putData_self List.length_replicate
  · next hji =>
    have hfit : 0 + (List.replicate 4096 (0 : UInt8)).length ≤ 4096 := by
      rw [Nat.zero_add, List.length_replicate]
    have hother : ((s.putInode i .empty).putData i 0 (List.replicate 4096 0)).valueAt j =
        (s.putInode i .empty).valueAt j := KvfsMount.valueAt_putData_of_ne hji hfit
    exact hother.trans (KvfsMount.valueAt_putInode h hi _)

end Fs

/-! ## The slots in use -/

namespace Allocated

theorem slots (h : Allocated n s) : s.mp.slots = n := by
  rw [h.mp]
  exact slots_formattedMount (h.blocks.trans (by decide))

theorem wf (h : Allocated n s) : s.mp.Wf := by
  rw [h.mp]
  exact wf_formattedMount h.blocks

/-- A change that takes no slot and gives none back only changes the inodes of files. -/
theorem keep (h : Allocated n s) (hmp : t.mp = s.mp) (hfree : t.freelist = s.freelist)
    (hcount : t.freelistCount = s.freelistCount) (hsb : HasSuperblock n t.disk)
    (hbit : ∀ j, j / 8 < (n + 7) / 8 → t.bitAt j = s.bitAt j)
    (hinode : ∀ j < n, t.inodeAt j = s.inodeAt j ∨
      ((s.inodeAt j).free = false ∧ (t.inodeAt j).Active)) : Allocated n t := by
  have hsame : ∀ j < n, (t.inodeAt j).free = (s.inodeAt j).free := by
    intro j hj
    rcases hinode j hj with heq | ⟨hused, hactive⟩
    · rw [heq]
    · rw [hused, hactive.not_free]
  constructor
  case blocks => exact h.blocks
  case mp => exact hmp.trans h.mp
  case superblock => exact hsb
  case nodup => rw [hfree]; exact h.nodup
  case mem =>
    intro ino
    rw [hfree, h.mem]
    refine exists_congr fun j => and_congr_right fun hj => ?_
    rw [hsame j hj]
  case count => rw [hcount, hfree]; exact h.count
  case bit =>
    intro j hj
    rw [hbit j hj, h.bit j hj, Fs.present, Fs.present, hmp]
    by_cases hjn : j < n
    · rw [hsame j hjn]
    · simp [h.slots, hjn]
  case empty =>
    intro j hj hjfree
    rcases hinode j hj with heq | ⟨-, hactive⟩
    · rw [heq] at hjfree ⊢
      exact h.empty j hj hjfree
    · rw [hactive.not_free] at hjfree
      cases hjfree
  case active =>
    intro j hj hjfree
    rcases hinode j hj with heq | ⟨-, hactive⟩
    · rw [heq] at hjfree ⊢
      exact h.active j hj hjfree
    · exact hactive

/-- The vnodes are not part of the invariant. -/
theorem congr (h : Allocated n s) (hmp : t.mp = s.mp) (hfree : t.freelist = s.freelist)
    (hcount : t.freelistCount = s.freelistCount) (hdisk : t.disk = s.disk) : Allocated n t := by
  refine h.keep hmp hfree hcount (by rw [hdisk]; exact h.superblock) (fun j _ => ?_)
    fun j _ => Or.inl ?_
  · rw [Fs.bitAt, Fs.bitAt, hmp, hdisk]
  · rw [Fs.inodeAt, Fs.inodeAt, hmp, hdisk]

/-- There are no more free slots than slots. -/
theorem length_le (hnodup : s.freelist.Nodup)
    (hmem : ∀ ino ∈ s.freelist, ∃ i < n, ino = 32 * i) : s.freelist.length ≤ n := by
  have hsub : s.freelist ⊆ (List.range n).map (32 * ·) := by
    intro ino hino
    obtain ⟨i, hi, rfl⟩ := hmem ino hino
    exact List.mem_map.mpr ⟨i, List.mem_range.mpr hi, rfl⟩
  have hle := (hnodup.subperm hsub).length_le
  rwa [List.length_map, List.length_range] at hle

/-- A slot that is taken off the free list gets the inode of a file. -/
theorem create (h : Allocated n s) {freelist : List ℕ} (hfree : s.freelist = 32 * i :: freelist)
    (hx : x.Active) : Allocated n ((s.takeSlot i).putInode i x) := by
  have hslots := h.slots
  obtain ⟨i', hi, hii', hempty⟩ := (h.mem (32 * i)).mp (by rw [hfree]; exact List.mem_cons_self)
  obtain rfl : i = i' := by omega
  have hnodup := h.nodup
  rw [hfree, List.nodup_cons] at hnodup
  have hlist : ((s.takeSlot i).putInode i x).freelist = freelist := by
    change s.freelist.tail = freelist
    rw [hfree, List.tail_cons]
  have hinode : ∀ j, ((s.takeSlot i).putInode i x).inodeAt j =
      if j = i then x else s.inodeAt j := fun j => by
    rw [Fs.inodeAt_putInode, Fs.inodeAt_takeSlot h.wf (by omega)]
  constructor
  case blocks => exact h.blocks
  case mp => exact h.mp
  case superblock =>
    have hsb := h.superblock.setBit (i := i) |>.putInode (i := i) x
    rw [← h.mp] at hsb
    exact hsb
  case nodup => rw [hlist]; exact hnodup.2
  case mem =>
    intro ino
    rw [hlist]
    constructor
    · intro hino
      obtain ⟨j, hj, rfl, hjfree⟩ :=
        (h.mem ino).mp (by rw [hfree]; exact List.mem_cons_of_mem _ hino)
      have hji : j ≠ i := by
        rintro rfl
        exact hnodup.1 hino
      exact ⟨j, hj, rfl, by rw [hinode, if_neg hji]; exact hjfree⟩
    · rintro ⟨j, hj, rfl, hjfree⟩
      rw [hinode] at hjfree
      by_cases hji : j = i
      · rw [if_pos hji, hx.not_free] at hjfree
        cases hjfree
      · rw [if_neg hji] at hjfree
        have hmem := (h.mem (32 * j)).mpr ⟨j, hj, rfl, hjfree⟩
        rw [hfree, List.mem_cons] at hmem
        rcases hmem with heq | hmem
        · exact absurd heq (by omega)
        · exact hmem
  case count =>
    have hcount := h.count
    rw [hfree, List.length_cons] at hcount
    rw [hlist]
    change (s.freelistCount - 1).toNat = freelist.length
    rw [UInt32.toNat_sub_of_le _ _ (UInt32.le_iff_toNat_le.mpr (by rw [hcount]; simp)), hcount]
    simp
  case bit =>
    intro j hj
    rw [Fs.bitAt_putInode (s := s.takeSlot i) h.wf (by rw [← hslots] at hj; exact hj),
      Fs.bitAt_takeSlot, h.bit j hj, Fs.present, Fs.present, hinode]
    change _ = (decide (j < s.mp.slots) && _)
    by_cases hji : j = i
    · subst hji
      simp [hx.not_free, hslots, hi]
    · simp [hji]
  case empty =>
    intro j hj hjfree
    rw [hinode] at hjfree ⊢
    by_cases hji : j = i
    · rw [if_pos hji, hx.not_free] at hjfree
      cases hjfree
    · rw [if_neg hji] at hjfree ⊢
      exact h.empty j hj hjfree
  case active =>
    intro j hj hjfree
    rw [hinode] at hjfree ⊢
    by_cases hji : j = i
    · rw [if_pos hji]
      exact hx
    · rw [if_neg hji] at hjfree ⊢
      exact h.active j hj hjfree

/-- A slot in use is cleared and put on the free list. -/
theorem removeFile (h : Allocated n s) (hi : i < n) (hused : (s.inodeAt i).free = false) :
    Allocated n (s.removeFile vp i) := by
  have hslots := h.slots
  have hinode : ∀ j, j < n → (s.removeFile vp i).inodeAt j =
      if j = i then .empty else s.inodeAt j := fun j hj =>
    Fs.inodeAt_removeFile h.wf (by omega) (by omega)
  have hnotin : 32 * i ∉ s.freelist := by
    intro hmem
    obtain ⟨i', -, hii', hempty⟩ := (h.mem _).mp hmem
    obtain rfl : i = i' := by omega
    rw [hused] at hempty
    cases hempty
  have hlist : (s.removeFile vp i).freelist = 32 * i :: s.freelist := rfl
  have hnodup : (s.removeFile vp i).freelist.Nodup := List.nodup_cons.mpr ⟨hnotin, h.nodup⟩
  have hmem : ∀ ino, ino ∈ (s.removeFile vp i).freelist ↔
      ∃ j < n, ino = 32 * j ∧ ((s.removeFile vp i).inodeAt j).free = true := by
    intro ino
    rw [hlist, List.mem_cons]
    constructor
    · rintro (rfl | hino)
      · exact ⟨i, hi, rfl, by rw [hinode i hi, if_pos rfl]; rfl⟩
      · obtain ⟨j, hj, rfl, hjfree⟩ := (h.mem ino).mp hino
        refine ⟨j, hj, rfl, ?_⟩
        rw [hinode j hj]
        split
        · rfl
        · exact hjfree
    · rintro ⟨j, hj, rfl, hjfree⟩
      by_cases hji : j = i
      · exact Or.inl (by rw [hji])
      · rw [hinode j hj, if_neg hji] at hjfree
        exact Or.inr ((h.mem _).mpr ⟨j, hj, rfl, hjfree⟩)
  constructor
  case blocks => exact h.blocks
  case mp => exact h.mp
  case superblock =>
    have hsb := ((h.superblock.putInode (i := i) .empty).putData (i := i) 0
      (List.replicate 4096 0)).clearBit (i := i)
    rw [← h.mp] at hsb
    exact hsb
  case nodup => exact hnodup
  case mem => exact hmem
  case count =>
    have hle := length_le hnodup fun ino hino => by
      obtain ⟨j, hj, heq, -⟩ := (hmem ino).mp hino
      exact ⟨j, hj, heq⟩
    have hblocks := h.blocks
    rw [hlist, List.length_cons] at hle ⊢
    change (s.freelistCount + 1).toNat = _
    rw [UInt32.toNat_add, h.count, Nat.mod_eq_of_lt (by simp only [UInt32.reduceToNat]; omega)]
    rfl
  case bit =>
    intro j hj
    rw [Fs.bitAt_removeFile h.wf (by rw [hslots]; exact hj), h.bit j hj, Fs.present, Fs.present]
    change _ = (decide (j < s.mp.slots) && _)
    by_cases hjn : j < n
    · rw [hinode j hjn]
      by_cases hji : j = i <;> simp [hji]
    · simp [hslots, hjn]
  case empty =>
    intro j hj hjfree
    rw [hinode j hj] at hjfree ⊢
    split
    · rfl
    · next hji =>
      rw [if_neg hji] at hjfree
      exact h.empty j hj hjfree
  case active =>
    intro j hj hjfree
    rw [hinode j hj] at hjfree ⊢
    by_cases hji : j = i
    · rw [if_pos hji] at hjfree
      cases hjfree
    · rw [if_neg hji] at hjfree ⊢
      exact h.active j hj hjfree

/-- The inode of a file is changed. -/
theorem updateFile (h : Allocated n s) (hused : (s.inodeAt i).free = false) (hx : x.Active) :
    Allocated n (s.updateFile vp i x) := by
  have hsb := h.superblock.putInode (i := i) x
  rw [← h.mp] at hsb
  refine h.keep rfl rfl rfl hsb (fun j hj => ?_) fun j hj => ?_
  · exact Fs.bitAt_putInode (s := s.setVnode vp _) h.wf (by
      rw [← h.slots] at hj
      exact hj)
  · rw [Fs.inodeAt_updateFile]
    by_cases hji : j = i
    · rw [if_pos hji, hji]
      exact Or.inr ⟨hused, hx⟩
    · rw [if_neg hji]
      exact Or.inl rfl

/-- A value is changed. -/
theorem putData (h : Allocated n s) (off : ℕ) (xs : List UInt8) :
    Allocated n (s.putData i off xs) := by
  have hsb := h.superblock.putData (i := i) off xs
  rw [← h.mp] at hsb
  refine h.keep rfl rfl rfl hsb (fun j hj => ?_) fun j hj => Or.inl ?_
  · exact Fs.bitAt_putData h.wf (by rw [h.slots]; exact hj)
  · exact Fs.inodeAt_putData h.wf (by rw [h.slots]; exact hj)

end Allocated

/-! ## The vnodes -/

theorem vfsHashGet_eq_some {ino : ℕ} (h : s.vfsHashGet ino = some vp) : (ino, vp) ∈ s.hash := by
  simp only [Fs.vfsHashGet, Option.map_eq_some_iff] at h
  obtain ⟨e, he, rfl⟩ := h
  have hino := List.find?_some he
  rw [beq_iff_eq] at hino
  rw [← hino]
  exact List.mem_of_find?_eq_some he

theorem vfsHashGet_eq_none {ino : ℕ} : s.vfsHashGet ino = none ↔ ∀ vp, (ino, vp) ∉ s.hash := by
  simp only [Fs.vfsHashGet, Option.map_eq_none_iff, List.find?_eq_none, beq_iff_eq, Prod.forall]
  constructor
  · exact fun h vp hvp => h ino vp hvp rfl
  · rintro h ino' vp hvp rfl
    exact h vp hvp

/-- The memnode says which slot a file has. -/
theorem slotNode_inj {s' : Fs} (h : s.slotNode i x = s'.slotNode j y) : i = j ∧ x = y := by
  simp only [Fs.slotNode, Memnode.mk.injEq] at h
  exact ⟨by omega, h.2.2⟩

namespace Cached

/-- A vnode in the hash has been handed out. -/
theorem lt_nextVp (h : Cached n s) {ino : ℕ} (hvp : (ino, vp) ∈ s.hash) : vp < s.nextVp := by
  by_contra hle
  have hnone := h.fresh vp (by omega)
  rcases h.entry ino vp hvp with ⟨-, hroot⟩ | ⟨i, -, -, -, hfile⟩
  · rw [hnone] at hroot
    cases hroot
  · rw [hnone] at hfile
    cases hfile

/-- The vnode of a present file is that of a slot. -/
theorem slot_of_live (h : Cached n s) (hlive : s.Live vp) :
    ∃ i < n, (s.inodeAt i).free = false ∧ (32 * i, vp) ∈ s.hash ∧
      s.vnodes vp = some (.file (s.slotNode i (s.inodeAt i))) := by
  obtain ⟨knode, hknode, hhash⟩ := hlive
  rcases h.entry _ _ hhash with ⟨-, hroot⟩ | ⟨i, hi, hused, hino, hfile⟩
  · rw [hknode] at hroot
    cases hroot
  · rw [hino] at hhash
    exact ⟨i, hi, hused, hhash, hfile⟩

/-- The vnode of a slot in the hash is that of its file. -/
theorem file_of_hash (h : Cached n s) (hhash : (32 * i, vp) ∈ s.hash) :
    s.vnodes vp = some (.file (s.slotNode i (s.inodeAt i))) := by
  rcases h.entry _ _ hhash with ⟨hino, -⟩ | ⟨j, -, -, hij, hfile⟩
  · exact absurd hino (slot_ne_root i)
  · obtain rfl : i = j := by omega
    exact hfile

/-- The inodes of the files in the hash are those of their slots after a change that leaves
the inodes of all files alone. -/
theorem congr (h : Cached n s) (hmp : t.mp = s.mp)
    (hinode : ∀ i < n, (s.inodeAt i).free = false → t.inodeAt i = s.inodeAt i)
    (hvnodes : t.vnodes = s.vnodes) (hhash : t.hash = s.hash) (hnext : s.nextVp ≤ t.nextVp) :
    Cached n t := by
  have hnode : ∀ i x, t.slotNode i x = s.slotNode i x := fun i x => by
    rw [Fs.slotNode, Fs.slotNode, hmp]
  constructor
  case fresh => rw [hvnodes]; exact fun vp hvp => h.fresh vp (hnext.trans hvp)
  case node => simp only [hvnodes, hnode]; exact h.node
  case entry =>
    intro ino vp hvp
    rw [hhash] at hvp
    rw [hvnodes]
    refine (h.entry ino vp hvp).imp id ?_
    rintro ⟨i, hi, hused, hrest⟩
    exact ⟨i, hi, by rw [hinode i hi hused, hnode]; exact ⟨hused, hrest⟩⟩
  case unique => rw [hhash]; exact h.unique

/-- A vnode is brought into the hash. -/
theorem addVnode (h : Cached n s) {ino : ℕ} {node : Vnode} (hnone : s.vfsHashGet ino = none)
    (hnode : (ino = kvfsRootIno ∧ node = .root) ∨ ∃ i < n, (s.inodeAt i).Active ∧ ino = 32 * i ∧
      node = .file (s.slotNode i (s.inodeAt i))) : Cached n (s.addVnode ino node) := by
  have hvnodes : (s.addVnode ino node).vnodes = Function.update s.vnodes s.nextVp (some node) :=
    rfl
  have hnew : (s.addVnode ino node).vnodes s.nextVp = some node := by
    rw [hvnodes, Function.update_self]
  have hold : ∀ vp, vp ≠ s.nextVp → (s.addVnode ino node).vnodes vp = s.vnodes vp := by
    intro vp hvp
    rw [hvnodes, Function.update_of_ne hvp]
  have hhash : (s.addVnode ino node).hash = (ino, s.nextVp) :: s.hash := rfl
  constructor
  case fresh =>
    intro vp hvp
    change s.nextVp + 1 ≤ vp at hvp
    rw [hold vp (by omega)]
    exact h.fresh vp (by omega)
  case node =>
    intro vp knode hknode
    by_cases hvp : vp = s.nextVp
    · rw [hvp, hnew, Option.some.injEq] at hknode
      rcases hnode with ⟨-, hroot⟩ | ⟨i, hi, hactive, -, hfile⟩
      · rw [hroot] at hknode
        cases hknode
      · rw [hfile, Vnode.file.injEq] at hknode
        exact ⟨i, hi, _, hactive, hknode.symm⟩
    · rw [hold vp hvp] at hknode
      exact h.node vp knode hknode
  case entry =>
    intro ino' vp hvp
    rw [hhash, List.mem_cons, Prod.mk.injEq] at hvp
    rcases hvp with ⟨rfl, rfl⟩ | hvp
    · rw [hnew]
      rcases hnode with ⟨hino, rfl⟩ | ⟨i, hi, hactive, hino, rfl⟩
      · exact Or.inl ⟨hino, rfl⟩
      · exact Or.inr ⟨i, hi, hactive.not_free, hino, rfl⟩
    · have hlt := h.lt_nextVp hvp
      rw [hold vp (by omega)]
      exact h.entry ino' vp hvp
  case unique =>
    have hnot := vfsHashGet_eq_none.mp hnone
    intro ino' vp vp' hvp hvp'
    rw [hhash, List.mem_cons, Prod.mk.injEq] at hvp hvp'
    rcases hvp with ⟨rfl, rfl⟩ | hvp <;> rcases hvp' with ⟨hino', rfl⟩ | hvp'
    · rfl
    · exact absurd hvp' (hnot vp')
    · rw [hino'] at hvp
      exact absurd hvp (hnot vp)
    · exact h.unique ino' vp vp' hvp hvp'

/-- A vnode is taken out of the hash, and may lose its `v_data`. -/
theorem forget (h : Cached n s) (hmp : t.mp = s.mp)
    (hinode : ∀ j < n, (32 * j, vp) ∉ s.hash → t.inodeAt j = s.inodeAt j)
    (hvnodes : t.vnodes vp = s.vnodes vp ∨ t.vnodes vp = none)
    (hother : ∀ vp', vp' ≠ vp → t.vnodes vp' = s.vnodes vp')
    (hhash : t.hash = s.hash.filter fun e => e.2 != vp) (hnext : t.nextVp = s.nextVp) :
    Cached n t := by
  have hnode : ∀ i x, t.slotNode i x = s.slotNode i x := fun i x => by
    rw [Fs.slotNode, Fs.slotNode, hmp]
  have hmem : ∀ ino vp', (ino, vp') ∈ t.hash ↔ (ino, vp') ∈ s.hash ∧ vp' ≠ vp := by
    intro ino vp'
    rw [hhash, List.mem_filter, bne_iff_ne]
  constructor
  case fresh =>
    intro vp' hvp'
    rw [hnext] at hvp'
    by_cases heq : vp' = vp
    · subst heq
      rcases hvnodes with hsame | hnone
      · rw [hsame]
        exact h.fresh vp' hvp'
      · exact hnone
    · rw [hother vp' heq]
      exact h.fresh vp' hvp'
  case node =>
    intro vp' knode hknode
    simp only [hnode]
    by_cases heq : vp' = vp
    · subst heq
      rcases hvnodes with hsame | hnone
      · rw [hsame] at hknode
        exact h.node vp' knode hknode
      · rw [hnone] at hknode
        cases hknode
    · rw [hother vp' heq] at hknode
      exact h.node vp' knode hknode
  case entry =>
    intro ino vp' hvp'
    obtain ⟨hold, hne⟩ := (hmem ino vp').mp hvp'
    rw [hother vp' hne]
    refine (h.entry ino vp' hold).imp id ?_
    rintro ⟨j, hj, hused, rfl, hfile⟩
    have hnot : (32 * j, vp) ∉ s.hash := fun hin => hne (h.unique _ _ _ hold hin)
    exact ⟨j, hj, by rw [hinode j hj hnot]; exact hused, rfl, by
      rw [hinode j hj hnot, hnode]
      exact hfile⟩
  case unique =>
    intro ino vp₁ vp₂ h₁ h₂
    exact h.unique ino vp₁ vp₂ ((hmem _ _).mp h₁).1 ((hmem _ _).mp h₂).1

/-- The inode of a file is changed, in its slot and in its memnode. A vnode that is not in
the hash may write to a slot what is there. -/
theorem updateFile (h : Cached n s) (hfile : s.vnodes vp = some (.file (s.slotNode i y)))
    (hx : x.Active) (hlive : (32 * i, vp) ∈ s.hash ∨ x = s.inodeAt i) :
    Cached n (s.updateFile vp i x) := by
  have hinode : ∀ j, (s.updateFile vp i x).inodeAt j = if j = i then x else s.inodeAt j :=
    fun j => Fs.inodeAt_updateFile
  have hvnodes : (s.updateFile vp i x).vnodes =
      Function.update s.vnodes vp (some (.file (s.slotNode i x))) := rfl
  constructor
  case fresh =>
    intro vp' hvp'
    have hnone := h.fresh vp' hvp'
    have hne : vp' ≠ vp := by
      rintro rfl
      rw [hnone] at hfile
      cases hfile
    rw [hvnodes, Function.update_of_ne hne]
    exact hnone
  case node =>
    intro vp' knode hknode
    by_cases hvp : vp' = vp
    · rw [hvnodes, hvp, Function.update_self, Option.some.injEq, Vnode.file.injEq] at hknode
      obtain ⟨i', hi', y', -, hslot⟩ := h.node vp _ hfile
      obtain ⟨rfl, -⟩ := slotNode_inj hslot
      exact ⟨i, hi', x, hx, hknode.symm⟩
    · rw [hvnodes, Function.update_of_ne hvp] at hknode
      exact h.node vp' knode hknode
  case entry =>
    intro ino vp' hvp'
    rcases h.entry ino vp' hvp' with ⟨hino, hroot⟩ | ⟨j, hj, hused, rfl, hslot⟩
    · have hne : vp' ≠ vp := by
        rintro rfl
        rw [hfile] at hroot
        cases hroot
      exact Or.inl ⟨hino, by rw [hvnodes, Function.update_of_ne hne]; exact hroot⟩
    · refine Or.inr ⟨j, hj, ?_, rfl, ?_⟩
      · rw [hinode]
        split
        · exact hx.not_free
        · exact hused
      · rw [hinode, hvnodes]
        by_cases hvp : vp' = vp
        · subst hvp
          rw [hfile, Option.some.injEq, Vnode.file.injEq] at hslot
          rw [(slotNode_inj hslot).1, if_pos rfl, Function.update_self]
          rfl
        · rw [Function.update_of_ne hvp, hslot]
          by_cases hji : j = i
          · subst hji
            rcases hlive with hlive | hsame
            · exact absurd (h.unique _ _ _ hvp' hlive) hvp
            · rw [if_pos rfl, hsame]
              rfl
          · rw [if_neg hji]
            rfl
  case unique => exact h.unique

end Cached

end EmbeddedOs.Kvfs
