import EmbeddedOs.Kvfs.Consistency

/-!
# Files that are removed while they are open

`kvfs_remove` gives the slot of a file back at once, but the vnode stays open and its
memnode keeps the `ino`, the `lbn` and an inode with `KVFS_INODE_ACTIVE`. A later
`kvfs_setattr` or `kvfs_write` on it goes to whatever has the slot then. These calls are
harmless exactly under the condition `LateOk`, which compares what they write with what is
in the slot.
-/

namespace EmbeddedOs.Kvfs

open Lib Lib.Bytes

variable {n i vp : ℕ} {s t : Fs} {x : Inode}

/-- A call on the open vnode of a file that was removed. -/
def Late (s : Fs) : Call → Prop
  | .setattr vp _ => (∃ knode, s.vnodes vp = some (.file knode)) ∧ ¬s.Live vp
  | .read vp _ _ _ => (∃ knode, s.vnodes vp = some (.file knode)) ∧ ¬s.Live vp
  | .write vp _ _ _ _ _ => (∃ knode, s.vnodes vp = some (.file knode)) ∧ ¬s.Live vp
  | _ => False

/-- The condition under which a late call does no harm: a time is set only to the slot of a
file with the old key and that time, and bytes are stored only in a free slot, or where they
are already. -/
def LateOk (s : Fs) : Call → Prop
  | .setattr vp vaMtime =>
    vaMtime.tvSec = -1 ∨ ∃ knode i, s.vnodes vp = some (.file knode) ∧ knode.ino = 32 * i ∧
      (s.inodeAt i).free = false ∧ (s.inodeAt i).key = knode.inode.key ∧
      (s.inodeAt i).timestamp = timespecToUint64 vaMtime
  | .write vp ioAppend offset data fault kept =>
    ¬Stores ioAppend data fault kept ∨ ∃ knode i, s.vnodes vp = some (.file knode) ∧
      knode.ino = 32 * i ∧ ((s.inodeAt i).free = true ∨
        ((s.valueAt i).drop offset).take (moved data fault).length = moved data fault)
  | _ => True

/-- A step leaves the key, the value, the timestamp and the flags of every present file
alone, and no slot on the free list looks active after it. -/
structure Harmless (s t : Fs) : Prop where
  /-- The keys. -/
  key : ∀ i, s.present i = true → (t.inodeAt i).key = (s.inodeAt i).key
  /-- The values. -/
  value : ∀ i, s.present i = true → t.valueAt i = s.valueAt i
  /-- The timestamps. -/
  timestamp : ∀ i, s.present i = true → (t.inodeAt i).timestamp = (s.inodeAt i).timestamp
  /-- The flags. -/
  flags : ∀ i, s.present i = true → (t.inodeAt i).flags = (s.inodeAt i).flags
  /-- The free slots. -/
  free : ∀ i, 32 * i ∈ s.freelist → (t.inodeAt i).free = true

/-- What a run with open files may do: promised calls, and late calls that do no harm. -/
def LateRuns (s : Fs) (c : Call) : Prop := Promised s c ∨ (Late s c ∧ LateOk s c)

theorem Harmless.refl (h : Consistent n s) : Harmless s s where
  key _ _ := rfl
  value _ _ := rfl
  timestamp _ _ := rfl
  flags _ _ := rfl
  free i hi := by
    obtain ⟨j, -, hij, hfree⟩ := (h.mem _).mp hi
    obtain rfl : i = j := by omega
    exact hfree

namespace Consistent

/-- Slots that are not free are those of present files. -/
theorem present_iff (h : Consistent n s) (hi : i < n) :
    s.present i = true ↔ (s.inodeAt i).free = false := by
  simp [Fs.present, h.slots, hi]

/-- A write of an inode with the flags of a file is harmless exactly if its key and its
timestamp are in the slot. -/
theorem harmless_updateFile (h : Consistent n s) (vp : ℕ) (hi : i < n) (hx : x.Active) :
    Harmless s (s.updateFile vp i x) ↔ (s.inodeAt i).free = false ∧
      (s.inodeAt i).key = x.key ∧ (s.inodeAt i).timestamp = x.timestamp := by
  have hinode : ∀ j, (s.updateFile vp i x).inodeAt j = if j = i then x else s.inodeAt j :=
    fun j => Fs.inodeAt_updateFile
  have hself : (s.updateFile vp i x).inodeAt i = x := by rw [hinode, if_pos rfl]
  constructor
  · intro hharm
    cases hfree : (s.inodeAt i).free with
    | true =>
      have hkept := hharm.free i ((h.mem _).mpr ⟨i, hi, rfl, hfree⟩)
      rw [hself, hx.not_free] at hkept
      cases hkept
    | false =>
      have hpresent := (h.present_iff hi).mpr hfree
      have hkey := hharm.key i hpresent
      have htime := hharm.timestamp i hpresent
      rw [hself] at hkey htime
      exact ⟨rfl, hkey.symm, htime.symm⟩
  · rintro ⟨hused, hkey, htime⟩
    have hsame : x = s.inodeAt i := by
      rw [hx.eq_new, (h.active i hi hused).eq_new, ← hkey, ← htime]
    have hall : ∀ j, (s.updateFile vp i x).inodeAt j = s.inodeAt j := by
      intro j
      rw [hinode]
      split
      · next hji => rw [hji, hsame]
      · rfl
    have hrefl := Harmless.refl h
    refine ⟨fun j _ => by rw [hall], fun j _ => ?_, fun j _ => by rw [hall],
      fun j _ => by rw [hall], fun j hj => by rw [hall]; exact hrefl.free j hj⟩
    exact Fs.valueAt_updateFile h.wf (by rw [h.slots]; exact hi)

/-- A write of bytes is harmless exactly if its slot is free or has them already. -/
theorem harmless_putData (h : Consistent n s) (hi : i < n) {off : ℕ} {xs : List UInt8}
    (hfit : off + xs.length ≤ 4096) : Harmless s (s.putData i off xs) ↔
      (s.inodeAt i).free = true ∨ ((s.valueAt i).drop off).take xs.length = xs := by
  have hvalue : (s.putData i off xs).valueAt i = overwrite (s.valueAt i) off xs :=
    get_put_overwrite hfit
  have hother : ∀ j, j ≠ i → (s.putData i off xs).valueAt j = s.valueAt j := fun j hji =>
    KvfsMount.valueAt_putData_of_ne hji hfit
  have hinode : ∀ j < n, (s.putData i off xs).inodeAt j = s.inodeAt j := fun j hj =>
    Fs.inodeAt_putData h.wf (by rw [h.slots]; exact hj)
  rw [← overwrite_eq_self, ← hvalue]
  constructor
  · intro hharm
    cases hfree : (s.inodeAt i).free with
    | true => exact Or.inl rfl
    | false => exact Or.inr (hharm.value i ((h.present_iff hi).mpr hfree))
  · intro hok
    have hlt : ∀ j, s.present j = true → j < n := fun j hj => by
      simp only [Fs.present, Bool.and_eq_true, decide_eq_true_eq, h.slots] at hj
      exact hj.1
    refine ⟨fun j hj => by rw [hinode j (hlt j hj)], fun j hj => ?_,
      fun j hj => by rw [hinode j (hlt j hj)], fun j hj => by rw [hinode j (hlt j hj)],
      fun j hj => ?_⟩
    · by_cases hji : j = i
      · subst hji
        rcases hok with hfree | hsame
        · rw [(h.present_iff hi).mp hj] at hfree
          cases hfree
        · exact hsame
      · exact hother j hji
    · obtain ⟨k, hk, hjk, hfree⟩ := (h.mem _).mp hj
      obtain rfl : j = k := by omega
      rw [hinode j hk]
      exact hfree

/-- What holds of the slot that an open file names holds of the slot that its memnode was made
for. -/
theorem exists_slot_iff (hknode : s.vnodes vp = some (.file (s.slotNode i x)))
    {P : Memnode → ℕ → Prop} :
    (∃ knode j, s.vnodes vp = some (.file knode) ∧ knode.ino = 32 * j ∧ P knode j) ↔
      P (s.slotNode i x) i := by
  constructor
  · rintro ⟨knode, j, hknode', hino, hslot⟩
    rw [hknode, Option.some.injEq, Vnode.file.injEq] at hknode'
    subst hknode'
    obtain rfl : i = j := by
      simp only [Fs.slotNode] at hino
      omega
    exact hslot
  · exact fun hslot => ⟨s.slotNode i x, i, hknode, rfl, hslot⟩

/-- What a late call does, and when it is harmless. -/
theorem late (h : Consistent n s) {c : Call} {r : Reply} (hlate : Late s c)
    (hrun : Kvfs.exec s c = some (t, r)) :
    (Harmless s t ↔ LateOk s c) ∧ (LateOk s c → Consistent n t) := by
  cases c with
  | setattr vp vaMtime =>
    obtain ⟨⟨knode, hknode⟩, -⟩ := hlate
    obtain ⟨i, hi, x, hx, rfl⟩ := h.node vp knode hknode
    simp only [Kvfs.exec, kvfsSetattr_slot h.wf hknode, Option.map_some, Option.some.injEq,
      Prod.mk.injEq] at hrun
    rw [← hrun.1]
    have hok : LateOk s (.setattr vp vaMtime) ↔ vaMtime.tvSec = -1 ∨
        ((s.inodeAt i).free = false ∧ (s.inodeAt i).key = x.key ∧
          (s.inodeAt i).timestamp = timespecToUint64 vaMtime) :=
      or_congr_right (exists_slot_iff hknode)
    rw [hok]
    by_cases htime : vaMtime.tvSec = -1
    · rw [if_neg (not_not.mpr htime)]
      exact ⟨⟨fun _ => Or.inl htime, fun _ => Harmless.refl h⟩, fun _ => h⟩
    · rw [if_pos htime]
      have hx' : ({ x with timestamp := timespecToUint64 vaMtime } : Inode).Active :=
        ⟨hx.flags, hx.refCount⟩
      have hiff := h.harmless_updateFile vp hi hx'
      refine ⟨⟨fun hharm => Or.inr (hiff.mp hharm),
        fun hcond => hiff.mpr (hcond.resolve_left htime)⟩, fun hcond => ?_⟩
      obtain ⟨hused, hkey, htimestamp⟩ := hcond.resolve_left htime
      refine h.updateFile hused hknode hx' (Or.inr ?_)
      rw [hx'.eq_new, (h.active i hi hused).eq_new, hkey, htimestamp]
  | read vp offset resid fault =>
    simp only [Kvfs.exec, Option.map_eq_some_iff, Prod.mk.injEq] at hrun
    obtain ⟨-, -, rfl, -⟩ := hrun
    exact ⟨⟨fun _ => trivial, fun _ => Harmless.refl h⟩, fun _ => h⟩
  | write vp ioAppend offset data fault kept =>
    obtain ⟨⟨knode, hknode⟩, -⟩ := hlate
    obtain ⟨i, hi, x, hx, rfl⟩ := h.node vp knode hknode
    simp only [Kvfs.exec, Option.map_eq_some_iff, Prod.mk.injEq] at hrun
    obtain ⟨r', hrun', rfl, -⟩ := hrun
    have hok : LateOk s (.write vp ioAppend offset data fault kept) ↔
        ¬Stores ioAppend data fault kept ∨ ((s.inodeAt i).free = true ∨
          ((s.valueAt i).drop offset).take (moved data fault).length = moved data fault) :=
      or_congr_right (exists_slot_iff hknode)
    rw [hok]
    rcases kvfsWrite_slot h.wf hknode hrun' with ⟨hstores, ht⟩ | ⟨hstores, hfit, ht⟩
    · rw [ht]
      exact ⟨⟨fun _ => Or.inl hstores, fun _ => Harmless.refl h⟩, fun _ => h⟩
    · rw [ht]
      have hiff := h.harmless_putData hi hfit
      exact ⟨⟨fun hharm => Or.inr (hiff.mp hharm),
        fun hcond => hiff.mpr (hcond.resolve_left (not_not.mpr hstores))⟩, fun _ => h.putData _ _⟩
  | root => exact hlate.elim
  | vget ino => exact hlate.elim
  | lookup vdp cnp => exact hlate.elim
  | create dvp name ts => exact hlate.elim
  | remove vp => exact hlate.elim
  | rename fvp tdvp tvp name => exact hlate.elim
  | reclaim vp => exact hlate.elim
  | remount => exact hlate.elim

end Consistent

/-- Runs whose late calls do no harm keep the invariant. -/
theorem consistent_of_lateRuns (h : (kvfs n).Reachable LateRuns s) : Consistent n s := by
  refine h.invariant (fun _ hs => Consistent.init hs) ?_
  rintro s c t hs (hok | ⟨hlate, hok⟩) ⟨r, hrun⟩
  · exact hs.exec hok hrun
  · exact (hs.late hlate hrun).2 hok

/-- After every run whose late calls meet the condition, a late call is harmless to the
present files and the free slots if and only if it meets the condition. -/
theorem late_call_harmless (h : (kvfs n).Reachable LateRuns s) {c : Call} {r : Reply}
    (hlate : Late s c) (hrun : exec s c = some (t, r)) : Harmless s t ↔ LateOk s c :=
  ((consistent_of_lateRuns h).late hlate hrun).1

/-! ## A file that is removed while it is open -/

/-- The file of `oneFileFs` is removed. -/
def removedFs : Fs := oneFileFs.removeFile rootFs.nextVp 0

theorem Fs.vnodes_removeFile : (s.removeFile vp i).vnodes = s.vnodes := rfl

theorem Fs.nextVp_removeFile : (s.removeFile vp i).nextVp = s.nextVp := rfl

/-- A vnode keeps its memnode when its file is removed. -/
theorem vnodes_removeFile (hfile : s.vnodes vp = some (.file (s.slotNode i x))) {j : ℕ} :
    (s.removeFile vp j).vnodes vp = some (.file ((s.removeFile vp j).slotNode i x)) := hfile

/-- The vnode of a file that was removed is not in the hash. -/
theorem not_mem_hash_removeFile {ino : ℕ} : (ino, vp) ∉ (s.removeFile vp i).hash := by
  intro hhash
  have hmem := (List.mem_filter.mp hhash).2
  simp at hmem

theorem vnodes_oneFileFs : oneFileFs.vnodes rootFs.nextVp =
    some (.file (oneFileFs.slotNode 0 (newInode (nameKey (digitName 48)) 0))) := by
  rw [oneFileFs]
  exact Fs.vnodes_createFile

theorem vnodes_removedFs : removedFs.vnodes rootFs.nextVp =
    some (.file (removedFs.slotNode 0 (newInode (nameKey (digitName 48)) 0))) := by
  rw [removedFs]
  exact vnodes_removeFile vnodes_oneFileFs

theorem live_oneFileFs : oneFileFs.Live rootFs.nextVp := by
  rw [oneFileFs]
  exact live_createFile

theorem exec_oneFileFs :
    exec oneFileFs (.remove rootFs.nextVp) = some (removedFs, .status none) := by
  have hslots := consistent_oneFileFs.slots
  rw [exec, kvfsRemove_slot consistent_oneFileFs.wf (by rw [hslots]; decide) vnodes_oneFileFs,
    removedFs]
  rfl

theorem removedFs_reachable {ok : Fs → Call → Prop} (hok : ∀ s c, Promised s c → ok s c) :
    (kvfs 1).Reachable ok removedFs :=
  .step (oneFileFs_reachable hok) (hok _ (.remove rootFs.nextVp) live_oneFileFs)
    ⟨.status none, exec_oneFileFs⟩

theorem consistent_removedFs : Consistent 1 removedFs :=
  consistent_of_reachable (removedFs_reachable fun _ _ h => h)

/-- A name of one digit is created in the slot that was given back. -/
def reusedFs (c : UInt8) : Fs := removedFs.createFile 0 (newInode (nameKey (digitName c)) 0)

theorem inodeAt_removedFs : removedFs.inodeAt 0 = .empty := by
  have hslots := consistent_oneFileFs.slots
  rw [removedFs, Fs.inodeAt_removeFile consistent_oneFileFs.wf (by rw [hslots]; decide)
    (by rw [hslots]; decide), if_pos rfl]

theorem inodeAt_reusedFs (c : UInt8) :
    (reusedFs c).inodeAt 0 = newInode (nameKey (digitName c)) 0 := by
  have hslots := consistent_removedFs.slots
  rw [reusedFs, Fs.inodeAt_createFile consistent_removedFs.wf (by rw [hslots]; decide), if_pos rfl]

theorem reusedFs_reachable {ok : Fs → Call → Prop} (hok : ∀ s c, Promised s c → ok s c)
    {c : UInt8} (hc : LowerDigit c) : (kvfs 1).Reachable ok (reusedFs c) := by
  have hname : LowerHex (digitName c) := lowerHex_digitName hc
  have hfree := consistent_removedFs.freelist_one (by rw [inodeAt_removedFs]; rfl)
  have hnone : removedFs.lookupKey (nameKey (digitName c)) = none := by
    rw [lookupKey_eq_none, consistent_removedFs.slots]
    intro i hi hused
    obtain rfl : i = 0 := by omega
    rw [inodeAt_removedFs] at hused
    cases hused
  have hroot : removedFs.vnodes freshFs.nextVp = some .root := by
    have hne : freshFs.nextVp ≠ rootFs.nextVp := (Nat.succ_ne_self _).symm
    rw [removedFs, Fs.vnodes_removeFile, oneFileFs, Fs.vnodes_createFile_of_ne hne]
    exact vnodes_rootFs
  refine .step (removedFs_reachable hok)
    (hok _ _ (consistent_removedFs.create_promised hroot hname hnone ⟨0, 0⟩))
    ⟨_, consistent_removedFs.exec_create hname hfree _ ⟨0, 0⟩⟩

theorem nextVp_ne_removedFs : rootFs.nextVp ≠ removedFs.nextVp := by
  rw [removedFs, Fs.nextVp_removeFile, oneFileFs, Fs.nextVp_createFile]
  exact (Nat.succ_ne_self _).symm

theorem vnodes_reusedFs (c : UInt8) : (reusedFs c).vnodes rootFs.nextVp =
    some (.file ((reusedFs c).slotNode 0 (newInode (nameKey (digitName 48)) 0))) := by
  rw [reusedFs, Fs.vnodes_createFile_of_ne nextVp_ne_removedFs, Fs.slotNode_createFile]
  exact vnodes_removedFs

/-- Setting a time of the first file is a late call. -/
theorem late_reusedFs (c : UInt8) : Late (reusedFs c) (.setattr rootFs.nextVp ⟨0, 0⟩) := by
  refine ⟨⟨_, vnodes_reusedFs c⟩, fun ⟨_, _, hhash⟩ => ?_⟩
  rw [reusedFs, Fs.hash_createFile, List.mem_cons, Prod.mk.injEq] at hhash
  rcases hhash with ⟨-, heq⟩ | hhash
  · exact nextVp_ne_removedFs heq
  · rw [removedFs] at hhash
    exact not_mem_hash_removeFile hhash

theorem exec_reusedFs {c : UInt8} (hc : LowerDigit c) :
    exec (reusedFs c) (.setattr rootFs.nextVp ⟨0, 0⟩) =
      some ((reusedFs c).updateFile rootFs.nextVp 0 (newInode (nameKey (digitName 48)) 0),
        .status none) := by
  have hs := consistent_of_reachable (reusedFs_reachable (fun _ _ h => h) hc)
  rw [exec, kvfsSetattr_slot hs.wf (vnodes_reusedFs c), if_pos (by decide)]
  rfl

/-- The name of the removed file is created again, and its time set through the first vnode. -/
theorem late_call_harmless_recreated :
    Harmless (reusedFs 48)
        ((reusedFs 48).updateFile rootFs.nextVp 0 (newInode (nameKey (digitName 48)) 0)) ↔
      LateOk (reusedFs 48) (.setattr rootFs.nextVp ⟨0, 0⟩) := by
  have hc : LowerDigit 48 := Or.inl (by decide)
  exact late_call_harmless (reusedFs_reachable (fun _ _ h => Or.inl h) hc) (late_reusedFs 48)
    (exec_reusedFs hc)

/-- A file is removed while it is open, another one is created in its slot, and a time is set
to the first: the slot of the second file gets the key of the first. -/
theorem late_call_harmless_fails : ¬∀ n s c t r,
    (kvfs n).Reachable (fun s c => Promised s c ∨ Late s c) s → Late s c →
      exec s c = some (t, r) → Harmless s t := by
  intro hall
  have hc : LowerDigit 49 := Or.inl (by decide)
  have hs := consistent_of_reachable (reusedFs_reachable (fun _ _ h => h) hc)
  have hharm := hall 1 _ _ _ _ (reusedFs_reachable (fun _ _ h => Or.inl h) hc) (late_reusedFs 49)
    (exec_reusedFs hc)
  have hkey := ((hs.harmless_updateFile _ Nat.one_pos (newInode_active _ _)).mp hharm).2.1
  rw [inodeAt_reusedFs] at hkey
  have hnames := nameKey_inj (lowerHex_digitName hc) lowerHex_zero hkey
  exact absurd hnames (by decide)

end EmbeddedOs.Kvfs
