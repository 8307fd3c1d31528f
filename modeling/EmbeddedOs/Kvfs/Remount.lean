import EmbeddedOs.Kvfs.Consistency

/-!
# Mounting again

`kvfs_create` and `kvfs_remove` number the bits of a byte of the bitmap from the least
significant one on, `kvfs_mount` from the most significant one on. What a mount takes for
free are therefore the slots whose mirrors are free, and the free list survives a remount
exactly if every slot is in use when its mirror is.
-/

namespace EmbeddedOs.Kvfs

open Lib Lib.Bytes

variable {n i : ℕ} {s t : Fs}

/-- In each group of eight slots those in use are symmetric to the middle; slots behind the
last one count as free. -/
def Mirrored (s : Fs) : Prop := ∀ i < s.mp.slots, s.present (mirror i) = s.present i

namespace Consistent

/-- A consistent device is mounted again. -/
theorem kvfsMount (h : Consistent n s) :
    Kvfs.kvfsMount (kvfsUnmount s) = .ok (Kvfs.mountState n s.disk) :=
  kvfsMount_eq h.blocks.le h.superblock

/-- The bit that a mount takes for that of a slot is that of its mirror. -/
theorem mountBit (h : Consistent n s) (hi : i < n) :
    Kvfs.mountBit s.disk 4096 i = s.present (mirror i) := by
  have hdiv := mirror_div i
  rw [mountBit_eq s.disk n, ← h.bit (mirror i) (by omega), Fs.bitAt, h.mp]

/-- The free list of the next mount. -/
theorem mem_freelist_remount (h : Consistent n s) {ino : ℕ} :
    ino ∈ (Kvfs.mountState n s.disk).freelist ↔
      ∃ i < n, ino = 32 * i ∧ s.present (mirror i) = false := by
  rw [mem_freelist_mountState]
  refine exists_congr fun i => and_congr_right fun hi => ?_
  rw [h.mountBit hi]

/-- The free list, by the slots in use. -/
theorem mem_freelist (h : Consistent n s) {ino : ℕ} :
    ino ∈ s.freelist ↔ ∃ i < n, ino = 32 * i ∧ s.present i = false := by
  rw [h.mem]
  refine exists_congr fun i => and_congr_right fun hi => and_congr_right fun _ => ?_
  simp [Fs.present, h.slots, hi]

/-- A slot in use is one of the device. -/
theorem lt_of_present (h : Consistent n s) (hi : s.present i = true) : i < n := by
  simp only [Fs.present, Bool.and_eq_true, decide_eq_true_eq, h.slots] at hi
  exact hi.1

/-- The free list survives the remount of a mirrored device. -/
theorem freelist_of_mirrored (h : Consistent n s) (hmirror : Mirrored s) {ino : ℕ} :
    ino ∈ (Kvfs.mountState n s.disk).freelist ↔ ino ∈ s.freelist := by
  rw [h.mem_freelist_remount, h.mem_freelist]
  refine exists_congr fun i => and_congr_right fun hi => and_congr_right fun _ => ?_
  rw [hmirror i (by rw [h.slots]; exact hi)]

/-- If the next mount takes no slot in use for free, the device is mirrored. -/
theorem mirrored_of_freelist (h : Consistent n s)
    (hfree : ∀ ino ∈ (Kvfs.mountState n s.disk).freelist, ino ∈ s.freelist) : Mirrored s := by
  have hused : ∀ i, s.present i = true → s.present (mirror i) = true := by
    intro i hi
    by_contra hmirror
    have hin := h.lt_of_present hi
    have hmem := hfree (32 * i)
      (h.mem_freelist_remount.mpr ⟨i, hin, rfl, Bool.not_eq_true _ ▸ hmirror⟩)
    obtain ⟨j, -, hij, hj⟩ := h.mem_freelist.mp hmem
    obtain rfl : i = j := by omega
    rw [hi] at hj
    cases hj
  intro i _
  cases hi : s.present i with
  | true => exact hused i hi
  | false =>
    by_contra hmirror
    have hback := hused (mirror i) (Bool.not_eq_false _ ▸ hmirror)
    rw [mirror_mirror, hi] at hback
    cases hback

/-- The remount of a mirrored device keeps the invariant. -/
theorem remount (h : Consistent n s) (hmirror : Mirrored s) :
    Consistent n (Kvfs.mountState n s.disk) := by
  have hinode : ∀ i, (formattedMount n).inodeAt s.disk i = s.inodeAt i := fun i => by
    rw [Fs.inodeAt, h.mp]
  have hpresent : ∀ i < n, s.present i = !(s.inodeAt i).free := fun i hi => by
    rw [Fs.present, h.slots, decide_eq_true hi, Bool.true_and]
  refine Consistent.mountState h.blocks h.superblock (fun i hi => ?_) (fun i hi => ?_) ?_ ?_
  · rw [h.mountBit hi, hmirror i (by rw [h.slots]; exact hi), hinode, hpresent i hi]
  · have hbit := h.bit i hi
    rw [Fs.bitAt, Fs.present, h.slots, h.mp] at hbit
    rw [hinode]
    exact hbit
  · simp only [hinode]
    exact h.empty
  · simp only [hinode]
    exact h.active

end Consistent

/-- What a run that mounts its device again may do: promised calls, and remounts of a
mirrored device. -/
def Remounts (s : Fs) (c : Call) : Prop := Promised s c ∨ (c = .remount ∧ Mirrored s)

/-- Runs with remounts of mirrored devices keep the invariant. -/
theorem consistent_of_remounts (h : (kvfs n).Reachable Remounts s) : Consistent n s := by
  refine h.invariant (fun _ hs => Consistent.init hs) ?_
  rintro s c t hs (hok | ⟨rfl, hmirror⟩) ⟨r, hrun⟩
  · exact hs.exec hok hrun
  · simp only [exec, hs.kvfsMount, Option.some.injEq, Prod.mk.injEq] at hrun
    rw [← hrun.1]
    exact hs.remount hmirror

/-- After every run the device is mounted again. The free list that is rebuilt has the inodes
that were on the free list if and only if the device is mirrored; the same holds for the
slots with a free inode; and only then no slot of a present file is handed out. -/
theorem remount_freelist (h : (kvfs n).Reachable Remounts s) :
    ∃ t, kvfsMount (kvfsUnmount s) = .ok t ∧
      ((∀ ino, ino ∈ t.freelist ↔ ino ∈ s.freelist) ↔ Mirrored s) ∧
      ((∀ ino, ino ∈ t.freelist ↔ ∃ idx < n, ino = 32 * idx ∧ (s.inodeAt idx).free = true) ↔
        Mirrored s) ∧
      ((∀ ino ∈ t.freelist, ∃ idx < n, ino = 32 * idx ∧ (s.inodeAt idx).free = true) ↔
        Mirrored s) := by
  have hs := consistent_of_remounts h
  refine ⟨_, hs.kvfsMount, ?_⟩
  simp only [← hs.mem]
  have hsame : (∀ ino, ino ∈ (mountState n s.disk).freelist ↔ ino ∈ s.freelist) ↔ Mirrored s :=
    ⟨fun hall => hs.mirrored_of_freelist fun ino hino => (hall ino).mp hino,
      fun hmirror _ => hs.freelist_of_mirrored hmirror⟩
  exact ⟨hsame, hsame, fun hall => hs.mirrored_of_freelist hall,
    fun hmirror _ hino => (hs.freelist_of_mirrored hmirror).mp hino⟩

/-- A new device of five blocks, whose slots 3 and 4 are mirrors of each other. -/
def fiveFs : Fs := (mountState 5 (mkkvfs (initSuperblock 5) fun _ => 0)).addVnode kvfsRootIno .root

/-- A file is created in the last slot. -/
def lastFs : Fs := fiveFs.createFile 4 (newInode (nameKey (digitName 48)) 0)

/-- A second one is created in the slot before it. -/
def twoFilesFs : Fs := lastFs.createFile 3 (newInode (nameKey (digitName 49)) 0)

theorem fiveFs_reachable : (kvfs 5).Reachable Promised fiveFs := by
  have hinit : (kvfs 5).init (mountState 5 (mkkvfs (initSuperblock 5) fun _ => 0)) :=
    ⟨by decide, fun _ => 0, kvfsMount_eq (by decide) (formatted_mkkvfs (by decide) _).superblock⟩
  refine .step (a := .root) (.init hinit) trivial
    ⟨.vnode (.ok (mountState 5 (mkkvfs (initSuperblock 5) fun _ => 0)).nextVp), ?_⟩
  rw [exec, kvfsRoot, kvfsVgetInternal_root rfl]
  rfl

theorem freelist_fiveFs : fiveFs.freelist = [32 * 4, 32 * 3, 32 * 2, 32 * 1, 32 * 0] := by
  have hlist := (formatted_mkkvfs (n := 5) (by decide) fun _ => 0).freelist_mountState
  rw [fiveFs, Fs.freelist_addVnode, hlist]
  rfl

theorem free_fiveFs (hi : i < 5) : (fiveFs.inodeAt i).free = true := by
  rw [fiveFs, Fs.inodeAt_addVnode, Fs.inodeAt_mountState,
    (formatted_mkkvfs (by decide) _).inode i hi]
  rfl

theorem vnodes_fiveFs : fiveFs.vnodes 0 = some .root := Fs.vnodes_addVnode

theorem lastFs_reachable : (kvfs 5).Reachable Promised lastFs := by
  have hs := consistent_of_reachable fiveFs_reachable
  have hnone : fiveFs.lookupKey (nameKey (digitName 48)) = none :=
    lookupKey_eq_none.mpr fun i hi hused => by
      rw [hs.slots] at hi
      rw [free_fiveFs hi] at hused
      cases hused
  exact .step fiveFs_reachable (hs.create_promised vnodes_fiveFs lowerHex_zero hnone ⟨0, 0⟩)
    ⟨_, hs.exec_create lowerHex_zero freelist_fiveFs _ ⟨0, 0⟩⟩

theorem inodeAt_lastFs :
    lastFs.inodeAt i = if i = 4 then newInode (nameKey (digitName 48)) 0 else fiveFs.inodeAt i := by
  have hs := consistent_of_reachable fiveFs_reachable
  have hlast : 4 < fiveFs.mp.slots := by
    rw [hs.slots]
    decide
  exact Fs.inodeAt_createFile hs.wf hlast

theorem twoFilesFs_reachable : (kvfs 5).Reachable Promised twoFilesFs := by
  have hs := consistent_of_reachable lastFs_reachable
  have hroot : lastFs.vnodes 0 = some .root := by
    have hne : 0 ≠ fiveFs.nextVp := (Nat.succ_ne_self _).symm
    rw [lastFs, Fs.vnodes_createFile_of_ne hne]
    exact vnodes_fiveFs
  have hnone : lastFs.lookupKey (nameKey (digitName 49)) = none :=
    lookupKey_eq_none.mpr fun i hi hused heq => by
      rw [hs.slots] at hi
      rw [inodeAt_lastFs] at hused heq
      split at hused
      · next hlast =>
        rw [if_pos hlast] at heq
        exact absurd (nameKey_inj lowerHex_zero lowerHex_one heq) (by decide)
      · rw [free_fiveFs hi] at hused
        cases hused
  have hlist : lastFs.freelist = 32 * 3 :: [32 * 2, 32 * 1, 32 * 0] := by
    rw [lastFs, Fs.freelist_createFile, freelist_fiveFs, List.tail_cons]
  exact .step lastFs_reachable (hs.create_promised hroot lowerHex_one hnone ⟨0, 0⟩)
    ⟨_, hs.exec_create lowerHex_one hlist _ ⟨0, 0⟩⟩

theorem present_twoFilesFs (i : ℕ) : twoFilesFs.present i = decide (i = 3 ∨ i = 4) := by
  have hs := consistent_of_reachable lastFs_reachable
  have hslots := (consistent_of_reachable twoFilesFs_reachable).slots
  have hthree : 3 < lastFs.mp.slots := by
    rw [hs.slots]
    decide
  have hinode : twoFilesFs.inodeAt i =
      if i = 3 then newInode (nameKey (digitName 49)) 0 else lastFs.inodeAt i :=
    Fs.inodeAt_createFile hs.wf hthree
  by_cases hi : i < 5
  · rw [Fs.present, hslots, hinode, inodeAt_lastFs]
    by_cases h3 : i = 3
    · simp [h3, (newInode_active _ _).not_free]
    · by_cases h4 : i = 4
      · simp [h4, (newInode_active _ _).not_free]
      · simp [h3, h4, free_fiveFs hi]
  · have hout : ¬(i = 3 ∨ i = 4) := by omega
    rw [Fs.present, hslots, decide_eq_false hi, Bool.false_and, decide_eq_false hout]

theorem mirrored_twoFilesFs : Mirrored twoFilesFs := by
  intro i hi
  rw [(consistent_of_reachable twoFilesFs_reachable).slots] at hi
  rw [present_twoFilesFs, present_twoFilesFs, decide_eq_decide, mirror]
  omega

/-- The device with the two files is mounted again, and then once more. -/
theorem remount_freelist_mirrored :
    ∃ t, kvfsMount (kvfsUnmount (mountState 5 twoFilesFs.disk)) = .ok t ∧
      ((∀ ino, ino ∈ t.freelist ↔ ino ∈ (mountState 5 twoFilesFs.disk).freelist) ↔
        Mirrored (mountState 5 twoFilesFs.disk)) ∧
      ((∀ ino, ino ∈ t.freelist ↔ ∃ idx < 5, ino = 32 * idx ∧
          ((mountState 5 twoFilesFs.disk).inodeAt idx).free = true) ↔
        Mirrored (mountState 5 twoFilesFs.disk)) ∧
      ((∀ ino ∈ t.freelist, ∃ idx < 5, ino = 32 * idx ∧
          ((mountState 5 twoFilesFs.disk).inodeAt idx).free = true) ↔
        Mirrored (mountState 5 twoFilesFs.disk)) := by
  have hs := consistent_of_reachable twoFilesFs_reachable
  have hexec : exec twoFilesFs .remount = some (mountState 5 twoFilesFs.disk, .status none) := by
    rw [exec, hs.kvfsMount]
  exact remount_freelist (.step (a := .remount) (twoFilesFs_reachable.mono fun _ _ h => Or.inl h)
    (Or.inr ⟨rfl, mirrored_twoFilesFs⟩) ⟨_, hexec⟩)

/-- A file is created on a device with one block; the next mount takes its slot for free. -/
theorem remount_freelist_fails : ¬∀ n s t, (kvfs n).Reachable Promised s →
    kvfsMount (kvfsUnmount s) = .ok t → ∀ ino, ino ∈ t.freelist ↔ ino ∈ s.freelist := by
  intro hall
  have hs := consistent_oneFileFs
  have hsame := hall 1 oneFileFs _ (oneFileFs_reachable fun _ _ h => h) hs.kvfsMount (32 * 0)
  have hbehind : oneFileFs.present (mirror 0) = false := by
    by_contra hused
    have hlt := hs.lt_of_present (Bool.not_eq_false _ ▸ hused)
    exact absurd hlt (by decide)
  have hlisted := hsame.mp (hs.mem_freelist_remount.mpr ⟨0, by decide, rfl, hbehind⟩)
  rw [oneFileFs, Fs.freelist_createFile,
    consistent_rootFs.freelist_one (by rw [inodeAt_rootFs]; rfl)] at hlisted
  cases hlisted

end EmbeddedOs.Kvfs
