import EmbeddedOs.Kvfs.Invariant

/-!
# Runs keep the representation invariant

What each call does to a consistent file system, and that it stays consistent. From this it
follows that the number of free slots, the bitmap, the inodes and the number of files that
`statfs` reports agree after every run.
-/

namespace EmbeddedOs.Kvfs

open Lib Lib.Bytes

variable {n i j vp : ℕ} {s t : Fs} {x y : Inode}

/-- Take a slot for a new file. -/
def Fs.createFile (s : Fs) (i : ℕ) (x : Inode) : Fs :=
  ((s.takeSlot i).putInode i x).addVnode (32 * i) (.file (s.slotNode i x))

theorem Fs.freelist_createFile : (s.createFile i x).freelist = s.freelist.tail := rfl

theorem Fs.hash_createFile : (s.createFile i x).hash = (32 * i, s.nextVp) :: s.hash := rfl

theorem Fs.vnodes_createFile :
    (s.createFile i x).vnodes s.nextVp = some (.file ((s.createFile i x).slotNode i x)) :=
  Function.update_self _ _ _

theorem Fs.vnodes_createFile_of_ne (h : vp ≠ s.nextVp) :
    (s.createFile i x).vnodes vp = s.vnodes vp := Function.update_of_ne h _ _

theorem Fs.slotNode_createFile {j : ℕ} {y : Inode} :
    (s.createFile i x).slotNode j y = s.slotNode j y := rfl

theorem Fs.nextVp_createFile : (s.createFile i x).nextVp = s.nextVp + 1 := rfl

/-- The slots after a file is created. -/
theorem Fs.inodeAt_createFile (h : s.mp.Wf) (hi : i < s.mp.slots) :
    (s.createFile i x).inodeAt j = if j = i then x else s.inodeAt j := by
  rw [createFile, inodeAt_addVnode, inodeAt_putInode, inodeAt_takeSlot h hi]

theorem Fs.valueAt_createFile (h : s.mp.Wf) (hi : i < s.mp.slots) :
    (s.createFile i x).valueAt j = s.valueAt j := by
  have hput : (s.createFile i x).valueAt j = (s.takeSlot i).valueAt j :=
    valueAt_putInode (s := s.takeSlot i) h hi
  rw [hput, valueAt_takeSlot h hi]

/-- A file that was created is present. -/
theorem live_createFile : (s.createFile i x).Live s.nextVp :=
  ⟨_, Fs.vnodes_createFile, by rw [Fs.hash_createFile]; exact List.mem_cons_self⟩

namespace Consistent

/-! ## What the calls do -/

/-- A slot has a vnode, or is free, or gets a vnode. -/
theorem vget (h : Consistent n s) (i : ℕ) :
    (∃ vp, (32 * i, vp) ∈ s.hash ∧ kvfsVget s (32 * i) = (s, .ok vp)) ∨
      ((s.inodeAt i).free = true ∧
        kvfsVget s (32 * i) = ({ s with nextVp := s.nextVp + 1 }, .error .ENOENT)) ∨
      ((s.inodeAt i).free = false ∧ s.vfsHashGet (32 * i) = none ∧ kvfsVget s (32 * i) =
        (s.addVnode (32 * i) (.file (s.slotNode i (s.inodeAt i))), .ok s.nextVp)) := by
  cases hget : s.vfsHashGet (32 * i) with
  | some vp =>
    exact Or.inl ⟨vp, vfsHashGet_eq_some hget, kvfsVgetInternal_cached hget none⟩
  | none =>
    cases hfree : (s.inodeAt i).free with
    | true =>
      have hfresh : ∀ e ∈ s.hash, e.2 ≠ s.nextVp := fun e he => (h.lt_nextVp he).ne
      exact Or.inr (Or.inl ⟨rfl, kvfsVgetInternal_free h.wf hget hfree hfresh⟩)
    | false => exact Or.inr (Or.inr ⟨rfl, rfl, kvfsVgetInternal_file h.wf hget hfree none⟩)

/-- A slot that is free has no vnode in the hash. -/
theorem vfsHashGet_free (h : Consistent n s) (hfree : (s.inodeAt i).free = true) :
    s.vfsHashGet (32 * i) = none := by
  rw [vfsHashGet_eq_none]
  intro vp hvp
  rcases h.entry _ _ hvp with ⟨hroot, -⟩ | ⟨j, -, hused, hij, -⟩
  · exact slot_ne_root i hroot
  · obtain rfl : i = j := by omega
    rw [hfree] at hused
    cases hused

/-- The first slot of the free list. -/
theorem first_free (h : Consistent n s) {ino : ℕ} {freelist : List ℕ}
    (hfree : s.freelist = ino :: freelist) : ∃ i < n, ino = 32 * i ∧ s.inodeAt i = .empty := by
  obtain ⟨i, hi, hino, hempty⟩ := (h.mem ino).mp (by rw [hfree]; exact List.mem_cons_self)
  exact ⟨i, hi, hino, h.empty i hi hempty⟩

/-- A file is created in the first slot of the free list. -/
theorem create (h : Consistent n s) {name : Name} {key : Key} (hkey : strToKey name = some key)
    (ts : Timespec) : (s.freelist = [] ∧ kvfsCreate s name ts = (s, .error .ENOSPC)) ∨
      ∃ i < n, ∃ freelist, s.freelist = 32 * i :: freelist ∧ s.inodeAt i = .empty ∧
        kvfsCreate s name ts =
          (s.createFile i (newInode key (timespecToUint64 ts)), .ok s.nextVp) := by
  cases hfree : s.freelist with
  | nil => exact Or.inl ⟨rfl, kvfsCreate_full hfree name ts⟩
  | cons ino freelist =>
    obtain ⟨i, hi, rfl, hempty⟩ := h.first_free hfree
    refine Or.inr ⟨i, hi, freelist, rfl, hempty, ?_⟩
    have hinode : (s.takeSlot i).inodeAt i = .empty := by
      rw [Fs.inodeAt_takeSlot h.wf (by rw [h.slots]; exact hi), hempty]
    have hget : (s.takeSlot i).vfsHashGet (32 * i) = none :=
      h.vfsHashGet_free (by rw [hempty]; rfl)
    rw [kvfsCreate_slot hfree, kvfsVgetInternal_new (s := s.takeSlot i) h.wf hget hinode hkey]
    rfl

/-- The name of a file to create has a key that no slot has. -/
theorem key_of_lookup (h : Consistent n s) {vdp : ℕ} (hroot : s.vnodes vdp = some .root)
    {cnp : ComponentName} (hlookup : (kvfsLookup s vdp cnp).2 = .error .EJUSTRETURN) :
    ∃ key, cnp.name.length = 40 ∧ strToKey cnp.name = some key ∧ s.lookupKey key = none := by
  rcases kvfsLookup_cases hroot cnp with hres | hres | ⟨key, hlen, hkey⟩
  · rw [hres] at hlookup
    cases hlookup
  · rw [hres] at hlookup
    cases hlookup
  · refine ⟨key, hlen, hkey, ?_⟩
    rw [kvfsLookup_key h.wf hroot hlen hkey] at hlookup
    cases hfound : s.lookupKey key with
    | none => rfl
    | some i =>
      simp only [hfound] at hlookup
      rcases h.vget i with ⟨vp, -, hvget⟩ | ⟨-, hvget⟩ | ⟨-, -, hvget⟩ <;>
        (rw [hvget] at hlookup; cases hlookup)

/-- The name of a file to replace has its key. -/
theorem key_of_target (h : Consistent n s) {vdp : ℕ} (hroot : s.vnodes vdp = some .root)
    {cnp : ComponentName} (hlookup : (kvfsLookup s vdp cnp).2 = .ok vp) (hlive : s.Live vp) :
    ∃ key i, cnp.name.length = 40 ∧ strToKey cnp.name = some key ∧ s.lookupKey key = some i ∧
      (32 * i, vp) ∈ s.hash := by
  obtain ⟨j, hj, hused, hhash, hfile⟩ := h.slot_of_live hlive
  rcases kvfsLookup_cases hroot cnp with hres | hres | ⟨key, hlen, hkey⟩
  · rw [hres, Except.ok.injEq] at hlookup
    rw [hlookup, hfile] at hroot
    cases hroot
  · rw [hres] at hlookup
    cases hlookup
  · rw [kvfsLookup_key h.wf hroot hlen hkey] at hlookup
    cases hfound : s.lookupKey key with
    | none =>
      simp only [hfound] at hlookup
      cases hlookup
    | some i =>
      simp only [hfound] at hlookup
      refine ⟨key, i, hlen, hkey, hfound, ?_⟩
      rcases h.vget i with ⟨vp', hvp', hvget⟩ | ⟨-, hvget⟩ | ⟨-, -, hvget⟩
      · rw [hvget, Except.ok.injEq] at hlookup
        rw [← hlookup]
        exact hvp'
      · rw [hvget] at hlookup
        cases hlookup
      · rw [hvget, Except.ok.injEq] at hlookup
        have hlt := h.lt_nextVp hhash
        omega

/-- A file that is present is removed. -/
theorem remove (h : Consistent n s) (hlive : s.Live vp) :
    ∃ i < n, (s.inodeAt i).free = false ∧ (32 * i, vp) ∈ s.hash ∧
      s.vnodes vp = some (.file (s.slotNode i (s.inodeAt i))) ∧
      kvfsRemove s vp = some (s.removeFile vp i) := by
  obtain ⟨i, hi, hused, hhash, hfile⟩ := h.slot_of_live hlive
  exact ⟨i, hi, hused, hhash, hfile, kvfsRemove_slot h.wf (by rw [h.slots]; exact hi) hfile⟩

/-- A file that is present gets a new timestamp, or nothing changes. -/
theorem setattr (h : Consistent n s) {vaMtime : Timespec} {r : Reply}
    (hok : Promised s (.setattr vp vaMtime))
    (hrun : Kvfs.exec s (.setattr vp vaMtime) = some (t, r)) :
    t = s ∨ ∃ i < n, (s.inodeAt i).free = false ∧ (32 * i, vp) ∈ s.hash ∧
      s.vnodes vp = some (.file (s.slotNode i (s.inodeAt i))) ∧
      t = s.updateFile vp i { s.inodeAt i with timestamp := timespecToUint64 vaMtime } := by
  simp only [Kvfs.exec, Option.map_eq_some_iff, Prod.mk.injEq] at hrun
  obtain ⟨t', hrun, rfl, -⟩ := hrun
  rcases hok with hroot | hlive
  · simp only [kvfsSetattr, hroot, Option.some.injEq] at hrun
    exact Or.inl hrun.symm
  · obtain ⟨i, hi, hused, hhash, hfile⟩ := h.slot_of_live hlive
    rw [kvfsSetattr_slot h.wf hfile, Option.some.injEq] at hrun
    by_cases htime : vaMtime.tvSec ≠ -1
    · rw [if_pos htime] at hrun
      exact Or.inr ⟨i, hi, hused, hhash, hfile, hrun.symm⟩
    · rw [if_neg htime] at hrun
      exact Or.inl hrun.symm

/-- The data block of a file that is present is written, or nothing changes. -/
theorem write (h : Consistent n s) {ioAppend kept : Bool} {offset : ℕ} {data : List UInt8}
    {fault : Option ℕ} {r : Reply} (hok : Promised s (.write vp ioAppend offset data fault kept))
    (hrun : Kvfs.exec s (.write vp ioAppend offset data fault kept) = some (t, r)) :
    t = s ∨ ∃ i < n, t = s.putData i offset (moved data fault) := by
  simp only [Kvfs.exec, Option.map_eq_some_iff, Prod.mk.injEq] at hrun
  obtain ⟨r', hrun, rfl, -⟩ := hrun
  rcases hok with hroot | hlive
  · simp only [kvfsWrite, hroot, Option.some.injEq] at hrun
    rw [← hrun]
    exact Or.inl rfl
  · obtain ⟨i, hi, -, -, hfile⟩ := h.slot_of_live hlive
    rcases kvfsWrite_slot h.wf hfile hrun with ⟨-, ht⟩ | ⟨-, -, ht⟩
    · exact Or.inl ht
    · exact Or.inr ⟨i, hi, ht⟩

/-- A file that is present gets a new key. -/
theorem renameNew (h : Consistent n s) {tdvp : ℕ} {name : Name}
    (hok : Promised s (.rename vp tdvp none name)) :
    ∃ key, ∃ i < n, strToKey name = some key ∧ s.lookupKey key = none ∧
      (s.inodeAt i).free = false ∧ (32 * i, vp) ∈ s.hash ∧
      s.vnodes vp = some (.file (s.slotNode i (s.inodeAt i))) ∧
      kvfsRename s vp none name =
        some (s.updateFile vp i { s.inodeAt i with key := key }, none) := by
  obtain ⟨hlive, hroot, hlookup⟩ := hok
  obtain ⟨i, hi, hused, hhash, hfile⟩ := h.slot_of_live hlive
  obtain ⟨key, -, hkey, hnone⟩ := h.key_of_lookup hroot hlookup
  exact ⟨key, i, hi, hkey, hnone, hused, hhash, hfile, kvfsRename_new h.wf hkey hfile⟩

/-- A file that is present gets the key of another one, which is removed. -/
theorem renameOver (h : Consistent n s) {tdvp tvp : ℕ} {name : Name}
    (hok : Promised s (.rename vp tdvp (some tvp) name)) :
    ∃ key, ∃ i < n, ∃ j < n, strToKey name = some key ∧ s.lookupKey key = some j ∧ i ≠ j ∧
      (s.inodeAt i).free = false ∧ (32 * i, vp) ∈ s.hash ∧
      s.vnodes vp = some (.file (s.slotNode i (s.inodeAt i))) ∧
      (s.inodeAt j).free = false ∧ (32 * j, tvp) ∈ s.hash ∧ vp ≠ tvp ∧
      kvfsRename s vp (some tvp) name = some ((s.removeFile tvp j).updateFile vp i
        { s.inodeAt i with key := key }, none) := by
  obtain ⟨hlive, hroot, hlookup, htarget, hne⟩ := hok
  obtain ⟨i, hi, hused, hhash, hfile⟩ := h.slot_of_live hlive
  obtain ⟨j, hj, hjused, hjhash, hjfile⟩ := h.slot_of_live htarget
  obtain ⟨key, j', -, hkey, hfound, hjhash'⟩ := h.key_of_target hroot hlookup htarget
  have hjj' : j = j' := by
    rcases h.entry _ _ hjhash' with ⟨hino, -⟩ | ⟨k, -, -, hino, hfile'⟩
    · exact absurd hino (slot_ne_root j')
    · rw [hjfile, Option.some.injEq, Vnode.file.injEq] at hfile'
      obtain ⟨rfl, -⟩ := slotNode_inj hfile'
      omega
  subst hjj'
  have hij : i ≠ j := by
    rintro rfl
    exact hne (h.unique _ _ _ hjhash hhash)
  exact ⟨key, i, hi, j, hj, hkey, hfound, hij, hused, hhash, hfile, hjused, hjhash, hne.symm,
    kvfsRename_over h.wf hkey (by rw [h.slots]; exact hj) hjfile hfile⟩

/-! ## What the calls keep -/

/-- A vnode is lost. -/
theorem skipVnode (h : Consistent n s) : Consistent n { s with nextVp := s.nextVp + 1 } :=
  ⟨h.toAllocated.congr rfl rfl rfl rfl,
    h.toCached.congr rfl (fun _ _ _ => rfl) rfl rfl (Nat.le_succ s.nextVp)⟩

/-- The root gets a vnode. -/
theorem addRoot (h : Consistent n s) (hnone : s.vfsHashGet kvfsRootIno = none) :
    Consistent n (s.addVnode kvfsRootIno .root) :=
  ⟨h.toAllocated.congr rfl rfl rfl rfl, h.toCached.addVnode hnone (Or.inl ⟨rfl, rfl⟩)⟩

/-- A file gets a vnode. -/
theorem addFile (h : Consistent n s) (hi : i < n) (hused : (s.inodeAt i).free = false)
    (hnone : s.vfsHashGet (32 * i) = none) :
    Consistent n (s.addVnode (32 * i) (.file (s.slotNode i (s.inodeAt i)))) :=
  ⟨h.toAllocated.congr rfl rfl rfl rfl,
    h.toCached.addVnode hnone (Or.inr ⟨i, hi, h.active i hi hused, rfl, rfl⟩)⟩

/-- A file is created. -/
theorem createFile (h : Consistent n s) {freelist : List ℕ}
    (hfree : s.freelist = 32 * i :: freelist) (hx : x.Active) :
    Consistent n (s.createFile i x) := by
  obtain ⟨i', hi, hii', hempty⟩ := h.first_free hfree
  obtain rfl : i = i' := by omega
  have hslot : ∀ j, ((s.takeSlot i).putInode i x).inodeAt j =
      if j = i then x else s.inodeAt j := fun j =>
    Fs.inodeAt_createFile h.wf (by rw [h.slots]; exact hi)
  have hcached : Cached n ((s.takeSlot i).putInode i x) := by
    refine h.toCached.congr rfl (fun j _ hused => ?_) rfl rfl le_rfl
    rw [hslot, if_neg]
    rintro rfl
    rw [hempty] at hused
    cases hused
  have hinode : ((s.takeSlot i).putInode i x).inodeAt i = x := by rw [hslot, if_pos rfl]
  have hnode : (s.slotNode i x) = ((s.takeSlot i).putInode i x).slotNode i
      (((s.takeSlot i).putInode i x).inodeAt i) := by
    rw [hinode]
    rfl
  refine ⟨(h.toAllocated.create hfree hx).congr rfl rfl rfl rfl, hcached.addVnode ?_
    (Or.inr ⟨i, hi, by rw [hinode]; exact hx, rfl, by rw [← hnode]⟩)⟩
  exact h.vfsHashGet_free (by rw [hempty]; rfl)

/-- A file is removed. -/
theorem removeFile (h : Consistent n s) (hi : i < n) (hused : (s.inodeAt i).free = false)
    (hhash : (32 * i, vp) ∈ s.hash) : Consistent n (s.removeFile vp i) := by
  refine ⟨h.toAllocated.removeFile hi hused, h.toCached.forget rfl (fun j hj hnot => ?_)
    (Or.inl rfl) (fun _ _ => rfl) rfl rfl⟩
  rw [Fs.inodeAt_removeFile h.wf (by rw [h.slots]; exact hi) (by rw [h.slots]; exact hj), if_neg]
  rintro rfl
  exact hnot hhash

/-- A file gets another key or timestamp. -/
theorem updateFile (h : Consistent n s) (hused : (s.inodeAt i).free = false)
    (hfile : s.vnodes vp = some (.file (s.slotNode i y))) (hx : x.Active)
    (hlive : (32 * i, vp) ∈ s.hash ∨ x = s.inodeAt i) : Consistent n (s.updateFile vp i x) :=
  ⟨h.toAllocated.updateFile hused hx, h.toCached.updateFile hfile hx hlive⟩

/-- A value is written. -/
theorem putData (h : Consistent n s) (off : ℕ) (xs : List UInt8) :
    Consistent n (s.putData i off xs) := by
  refine ⟨h.toAllocated.putData off xs, h.toCached.congr rfl (fun j hj _ => ?_) rfl rfl le_rfl⟩
  exact Fs.inodeAt_putData h.wf (by rw [h.slots]; exact hj)

/-- A vnode is reclaimed. -/
theorem reclaim (h : Consistent n s) (vp : ℕ) : Consistent n (kvfsReclaim s vp) := by
  rw [kvfsReclaim]
  split
  · exact h
  · refine ⟨h.toAllocated.congr rfl rfl rfl rfl, h.toCached.forget rfl (fun _ _ _ => rfl)
      (Or.inr (Function.update_self _ _ _)) (fun vp' hvp' => ?_) rfl rfl⟩
    exact Function.update_of_ne hvp' _ _

/-- A file takes the place of another one. -/
theorem replaceFile (h : Consistent n s) {tvp : ℕ} (hi : i < n) (hj : j < n) (hij : i ≠ j)
    (hused : (s.inodeAt i).free = false) (hhash : (32 * i, vp) ∈ s.hash)
    (hfile : s.vnodes vp = some (.file (s.slotNode i y))) (hjused : (s.inodeAt j).free = false)
    (hjhash : (32 * j, tvp) ∈ s.hash) (hne : vp ≠ tvp) (hx : x.Active) :
    Consistent n ((s.removeFile tvp j).updateFile vp i x) := by
  have hremove := h.removeFile hj hjused hjhash
  refine hremove.updateFile (y := y) ?_ hfile hx (Or.inl ?_)
  · rw [Fs.inodeAt_removeFile h.wf (by rw [h.slots]; exact hj) (by rw [h.slots]; exact hi),
      if_neg hij]
    exact hused
  · exact List.mem_filter.mpr ⟨hhash, bne_iff_ne.mpr hne⟩

/-- A vnode of a slot is handed out. -/
theorem vget_keep (h : Consistent n s) (hi : i < n) : Consistent n (kvfsVget s (32 * i)).1 := by
  rcases h.vget i with ⟨vp, -, hres⟩ | ⟨-, hres⟩ | ⟨hused, hnone, hres⟩
  · rw [hres]
    exact h
  · rw [hres]
    exact h.skipVnode
  · rw [hres]
    exact h.addFile hi hused hnone

/-- The root is handed out. -/
theorem root_keep (h : Consistent n s) : Consistent n (kvfsRoot s).1 := by
  cases hget : s.vfsHashGet kvfsRootIno with
  | some vp =>
    rw [kvfsRoot, kvfsVgetInternal_cached hget]
    exact h
  | none =>
    rw [kvfsRoot, kvfsVgetInternal_root hget]
    exact h.addRoot hget

/-- A name is looked up. -/
theorem lookup_keep (h : Consistent n s) {vdp : ℕ} (hroot : s.vnodes vdp = some .root)
    (cnp : ComponentName) : Consistent n (kvfsLookup s vdp cnp).1 := by
  rcases kvfsLookup_cases hroot cnp with hres | hres | ⟨key, hlen, hkey⟩
  · rw [hres]
    exact h
  · rw [hres]
    exact h
  · rw [kvfsLookup_key h.wf hroot hlen hkey]
    cases hfound : s.lookupKey key with
    | none => exact h
    | some i =>
      have hi := (of_lookupKey hfound).1
      rw [h.slots] at hi
      exact h.vget_keep hi

/-- A file is renamed. -/
theorem rename_keep (h : Consistent n s) {tdvp : ℕ} {tvp : Option ℕ} {name : Name}
    (hok : Promised s (.rename vp tdvp tvp name)) {e : Option Errno}
    (hrun : kvfsRename s vp tvp name = some (t, e)) : Consistent n t := by
  cases tvp with
  | none =>
    obtain ⟨key, i, hi, -, -, hused, hhash, hfile, hres⟩ := h.renameNew hok
    rw [hres, Option.some.injEq, Prod.mk.injEq] at hrun
    rw [← hrun.1]
    have hactive := h.active i hi hused
    exact h.updateFile hused hfile ⟨hactive.flags, hactive.refCount⟩ (Or.inl hhash)
  | some tvp =>
    obtain ⟨key, i, hi, j, hj, -, -, hij, hused, hhash, hfile, hjused, hjhash, hne, hres⟩ :=
      h.renameOver hok
    rw [hres, Option.some.injEq, Prod.mk.injEq] at hrun
    rw [← hrun.1]
    have hactive := h.active i hi hused
    exact h.replaceFile hi hj hij hused hhash hfile hjused hjhash hne
      ⟨hactive.flags, hactive.refCount⟩

/-- A promised call keeps the invariant. -/
theorem exec (h : Consistent n s) {c : Call} {r : Reply} (hok : Promised s c)
    (hrun : Kvfs.exec s c = some (t, r)) : Consistent n t := by
  cases c with
  | root =>
    simp only [Kvfs.exec, Option.some.injEq, Prod.mk.injEq] at hrun
    rw [← hrun.1]
    exact h.root_keep
  | vget ino =>
    obtain ⟨i, hi, rfl⟩ := hok
    simp only [Kvfs.exec, Option.some.injEq, Prod.mk.injEq] at hrun
    rw [← hrun.1]
    rw [h.slots] at hi
    exact h.vget_keep hi
  | lookup vdp cnp =>
    simp only [Kvfs.exec, Option.some.injEq, Prod.mk.injEq] at hrun
    rw [← hrun.1]
    exact h.lookup_keep hok cnp
  | create dvp name ts =>
    simp only [Kvfs.exec, Option.some.injEq, Prod.mk.injEq] at hrun
    rw [← hrun.1]
    obtain ⟨key, -, hkey, -⟩ := h.key_of_lookup hok.1 hok.2
    rcases h.create hkey ts with ⟨-, hres⟩ | ⟨i, -, freelist, hfree, -, hres⟩
    · rw [hres]
      exact h
    · rw [hres]
      exact h.createFile hfree (newInode_active _ _)
  | remove vp =>
    obtain ⟨i, hi, hused, hhash, -, hres⟩ := h.remove hok
    simp only [Kvfs.exec, hres, Option.map_some, Option.some.injEq, Prod.mk.injEq] at hrun
    rw [← hrun.1]
    exact h.removeFile hi hused hhash
  | rename fvp tdvp tvp name =>
    simp only [Kvfs.exec, Option.map_eq_some_iff, Prod.mk.injEq] at hrun
    obtain ⟨r', hrun', rfl, -⟩ := hrun
    exact h.rename_keep hok hrun'
  | setattr vp vaMtime =>
    rcases h.setattr hok hrun with ht | ⟨i, hi, hused, hhash, hfile, ht⟩
    · rw [ht]
      exact h
    · rw [ht]
      have hactive := h.active i hi hused
      exact h.updateFile hused hfile ⟨hactive.flags, hactive.refCount⟩ (Or.inl hhash)
  | read vp offset resid fault =>
    simp only [Kvfs.exec, Option.map_eq_some_iff, Prod.mk.injEq] at hrun
    obtain ⟨-, -, rfl, -⟩ := hrun
    exact h
  | write vp ioAppend offset data fault kept =>
    rcases h.write hok hrun with ht | ⟨i, -, ht⟩
    · rw [ht]
      exact h
    · rw [ht]
      exact h.putData _ _
  | reclaim vp =>
    simp only [Kvfs.exec, Option.some.injEq, Prod.mk.injEq] at hrun
    rw [← hrun.1]
    exact h.reclaim vp
  | remount => exact hok.elim

/-- A mount finds a consistent device if the bits it reads are those of the slots. -/
theorem mountState {d : Disk} (hn : n < 2 ^ 31) (hsb : HasSuperblock n d)
    (hmount : ∀ i < n, mountBit d 4096 i = !((formattedMount n).inodeAt d i).free)
    (hbit : ∀ i, i / 8 < (n + 7) / 8 → (formattedMount n).bitAt d i =
      (decide (i < n) && !((formattedMount n).inodeAt d i).free))
    (hempty : ∀ i < n, ((formattedMount n).inodeAt d i).free = true →
      (formattedMount n).inodeAt d i = .empty)
    (hactive : ∀ i < n, ((formattedMount n).inodeAt d i).free = false →
      ((formattedMount n).inodeAt d i).Active) : Consistent n (Kvfs.mountState n d) := by
  have hslots : (Kvfs.mountState n d).mp.slots = n :=
    slots_formattedMount (by omega)
  constructor
  · constructor
    case blocks => exact hn
    case mp => rfl
    case superblock => exact hsb
    case nodup => exact nodup_freelist_mountState
    case mem =>
      intro ino
      rw [mem_freelist_mountState]
      refine exists_congr fun i => and_congr_right fun hi => and_congr_right fun _ => ?_
      rw [hmount i hi, Bool.not_eq_false']
      rfl
    case count => exact freelistCount_mountState hn.le
    case bit =>
      intro i hi
      rw [Fs.present, hslots]
      exact hbit i hi
    case empty => exact hempty
    case active => exact hactive
  · constructor
    case fresh => exact fun _ _ => rfl
    case node => exact fun _ _ hnode => by cases hnode
    case entry => exact fun _ _ hentry => by cases hentry
    case unique => exact fun _ _ _ hentry => by cases hentry

/-- The first mount finds a consistent device. -/
theorem init (h : (kvfs n).init s) : Consistent n s := by
  obtain ⟨hn, d, hformat, rfl⟩ := kvfs_init h
  have hfree : ∀ i < n, ((formattedMount n).inodeAt d i).free = true := fun i hi => by
    rw [hformat.inode i hi]
    rfl
  refine Consistent.mountState hn hformat.superblock (fun i hi => ?_) (fun i hi => ?_)
    (fun i hi _ => hformat.inode i hi) fun i hi hused => ?_
  · rw [mountBit_eq d n, hformat.bit (mirror i) (by have hdiv := mirror_div i; omega), hfree i hi]
    rfl
  · rw [hformat.bit i (by omega)]
    by_cases hin : i < n
    · rw [hfree i hin]
      simp
    · simp [hin]
  · rw [hfree i hi] at hused
    cases hused

end Consistent

/-- Runs of promised calls keep the invariant. -/
theorem consistent_of_reachable (h : (kvfs n).Reachable Promised s) : Consistent n s :=
  h.invariant (fun _ hs => Consistent.init hs) fun _ _ _ hs hok ⟨_, hrun⟩ => hs.exec hok hrun

/-- The slots in use and the free ones are all slots. -/
theorem Consistent.files_add_free (h : Consistent n s) :
    ((List.range n).filter s.present).length + s.freelist.length = n := by
  have hperm : s.freelist.Perm (((List.range n).filter fun i => !s.present i).map (32 * ·)) := by
    have hinj : Function.Injective (32 * · : ℕ → ℕ) := fun i j hij => by
      simp only at hij
      omega
    rw [List.perm_ext_iff_of_nodup h.nodup ((List.nodup_range.filter _).map hinj)]
    intro ino
    simp only [h.mem, List.mem_map, List.mem_filter, List.mem_range, Fs.present, h.slots]
    constructor
    · rintro ⟨i, hi, rfl, hfree⟩
      exact ⟨i, ⟨hi, by simp [hfree]⟩, rfl⟩
    · rintro ⟨i, ⟨hi, hfree⟩, rfl⟩
      exact ⟨i, hi, rfl, by simpa [hi] using hfree⟩
  have hlength := List.length_eq_length_filter_add (l := List.range n) s.present
  rw [List.length_range] at hlength
  rw [hperm.length_eq, List.length_map]
  exact hlength.symm

/-- After every run of promised calls from the first mount on, the free list has no slot
twice and has the slots with a free inode, whose bits are those that are 0; the counter is
its length, so that `statfs` reports the number of present files; and the inode of a file in
the hash is the one in its slot. -/
theorem kvfs_representation (h : (kvfs n).Reachable Promised s) :
    (s.freelist.Nodup ∧
      (∀ ino, ino ∈ s.freelist ↔ ∃ idx < n, ino = 32 * idx ∧ (s.inodeAt idx).free = true) ∧
      ∀ idx < n, (s.inodeAt idx).free = true ↔ s.bitAt idx = false) ∧
    (s.freelistCount.toNat = s.freelist.length ∧ s.freelistCount.toNat ≤ n ∧
      (kvfsStatfs s).fBlocks = n ∧
      (kvfsStatfs s).fFiles + s.freelistCount.toNat = n ∧
      (kvfsStatfs s).fFiles = ((List.range n).filter s.present).length) ∧
    ∀ ino vp, (ino, vp) ∈ s.hash → ino ≠ kvfsRootIno → ∃ idx < n, ∃ knode,
      ino = 32 * idx ∧ s.vnodes vp = some (.file knode) ∧ knode.ino = ino ∧
        knode.inode = s.inodeAt idx := by
  have hs := consistent_of_reachable h
  have hcount := hs.count
  have hfiles := hs.files_add_free
  have hblocks : s.mp.blockCount.toNat = n := hs.slots
  have hle : s.freelistCount ≤ s.mp.blockCount := by
    rw [UInt32.le_iff_toNat_le, hblocks, hcount]
    omega
  have hstatfs : (kvfsStatfs s).fFiles = n - s.freelistCount.toNat := by
    rw [← hblocks]
    exact UInt32.toNat_sub_of_le _ _ hle
  refine ⟨⟨hs.nodup, hs.mem, fun idx hidx => ?_⟩, ⟨hcount, by omega, hblocks, by omega, by omega⟩,
    fun ino vp hhash hino => ?_⟩
  · rw [hs.bit idx (by omega), Fs.present, hs.slots]
    simp [hidx]
  · rcases hs.entry ino vp hhash with ⟨hroot, -⟩ | ⟨idx, hidx, -, rfl, hfile⟩
    · exact absurd hroot hino
    · exact ⟨idx, hidx, _, rfl, hfile, rfl, rfl⟩

/-! ## Runs on one block -/

/-- A name that is not on the device may be created. -/
theorem Consistent.create_promised (h : Consistent n s) {vdp : ℕ}
    (hroot : s.vnodes vdp = some .root) {name : Name} (hname : LowerHex name)
    (hnone : s.lookupKey (nameKey name) = none) (ts : Timespec) :
    Promised s (.create vdp name ts) := by
  refine ⟨hroot, ?_⟩
  rw [kvfsLookup_key h.wf hroot hname.length (strToKey_lower hname),
    hnone]
  rfl

/-- A name is created in the first slot of the free list. -/
theorem Consistent.exec_create (h : Consistent n s) {name : Name} (hname : LowerHex name)
    {freelist : List ℕ} (hfree : s.freelist = 32 * i :: freelist) (vdp : ℕ) (ts : Timespec) :
    Kvfs.exec s (.create vdp name ts) =
      some (s.createFile i (newInode (nameKey name) (timespecToUint64 ts)),
        .vnode (.ok s.nextVp)) := by
  rcases h.create (strToKey_lower hname) ts with ⟨hnil, -⟩ | ⟨j, -, freelist', hfree', -, hres⟩
  · rw [hfree] at hnil
    cases hnil
  · rw [hfree, List.cons.injEq] at hfree'
    obtain rfl : i = j := by omega
    simp only [Kvfs.exec, hres]

/-- The free list of a device with one block, if that is free. -/
theorem Consistent.freelist_one (h : Consistent 1 s) (hfree : (s.inodeAt 0).free = true) :
    s.freelist = [32 * 0] := by
  have hall : ∀ ino ∈ s.freelist, ino = 32 * 0 := fun ino hino => by
    obtain ⟨i, hi, rfl, -⟩ := (h.mem ino).mp hino
    omega
  have hmem := (h.mem (32 * 0)).mpr ⟨0, by omega, rfl, hfree⟩
  have hlength := Allocated.length_le (n := 1) h.nodup fun ino hino => ⟨0, by omega, hall ino hino⟩
  cases hlist : s.freelist with
  | nil =>
    rw [hlist] at hmem
    cases hmem
  | cons ino freelist =>
    rw [hlist, List.length_cons] at hlength
    rw [hlist] at hall
    rw [hall ino List.mem_cons_self, List.length_eq_zero_iff.mp (show freelist.length = 0 by omega)]

/-- A device of zeros that is formatted with one block and mounted. -/
def freshFs : Fs := Kvfs.mountState 1 (mkkvfs (initSuperblock 1) fun _ => 0)

theorem freshFs_init : (kvfs 1).init freshFs :=
  ⟨by decide, fun _ => 0, kvfsMount_eq (by decide) (formatted_mkkvfs (by decide) _).superblock⟩

/-- The root gets a vnode. -/
def rootFs : Fs := freshFs.addVnode kvfsRootIno .root

theorem exec_freshFs : Kvfs.exec freshFs .root = some (rootFs, .vnode (.ok freshFs.nextVp)) := by
  rw [Kvfs.exec, kvfsRoot, kvfsVgetInternal_root (s := freshFs) rfl]
  rfl

theorem vnodes_rootFs : rootFs.vnodes freshFs.nextVp = some .root := by
  rw [rootFs, Fs.vnodes_addVnode]

theorem rootFs_reachable {ok : Fs → Call → Prop} (hok : ∀ s c, Promised s c → ok s c) :
    (kvfs 1).Reachable ok rootFs :=
  .step (.init freshFs_init) (hok _ .root trivial) ⟨_, exec_freshFs⟩

theorem consistent_rootFs : Consistent 1 rootFs :=
  consistent_of_reachable (rootFs_reachable fun _ _ h => h)

theorem inodeAt_rootFs : rootFs.inodeAt 0 = .empty := by
  rw [rootFs, Fs.inodeAt_addVnode, freshFs, Fs.inodeAt_mountState]
  exact (formatted_mkkvfs (by decide) _).inode 0 Nat.one_pos

/-- A name of one digit. -/
def digitName (c : UInt8) : Name := List.replicate 40 c

theorem lowerHex_digitName {c : UInt8} (h : LowerDigit c) : LowerHex (digitName c) :=
  ⟨List.length_replicate, fun _ hc => by rw [List.eq_of_mem_replicate hc]; exact h⟩

theorem lowerHex_zero : LowerHex (digitName 48) := lowerHex_digitName (Or.inl (by decide))

theorem lowerHex_one : LowerHex (digitName 49) := lowerHex_digitName (Or.inl (by decide))

theorem create_promised_rootFs :
    Promised rootFs (.create freshFs.nextVp (digitName 48) ⟨0, 0⟩) := by
  have hnone : rootFs.lookupKey (nameKey (digitName 48)) = none := by
    rw [lookupKey_eq_none, consistent_rootFs.slots]
    intro i hi hused
    obtain rfl : i = 0 := by omega
    rw [inodeAt_rootFs] at hused
    cases hused
  exact consistent_rootFs.create_promised vnodes_rootFs lowerHex_zero hnone ⟨0, 0⟩

/-- The name of zeros is created. -/
def oneFileFs : Fs := rootFs.createFile 0 (newInode (nameKey (digitName 48)) 0)

theorem exec_rootFs : Kvfs.exec rootFs (.create freshFs.nextVp (digitName 48) ⟨0, 0⟩) =
    some (oneFileFs, .vnode (.ok rootFs.nextVp)) := by
  have hfree := consistent_rootFs.freelist_one (by rw [inodeAt_rootFs]; rfl)
  exact consistent_rootFs.exec_create lowerHex_zero hfree _ ⟨0, 0⟩

theorem oneFileFs_reachable {ok : Fs → Call → Prop} (hok : ∀ s c, Promised s c → ok s c) :
    (kvfs 1).Reachable ok oneFileFs :=
  .step (rootFs_reachable hok) (hok _ _ create_promised_rootFs) ⟨_, exec_rootFs⟩

theorem consistent_oneFileFs : Consistent 1 oneFileFs :=
  consistent_of_reachable (oneFileFs_reachable fun _ _ h => h)

/-- The representation of the device with one file. -/
theorem kvfs_representation_one :
    (oneFileFs.freelist.Nodup ∧
      (∀ ino, ino ∈ oneFileFs.freelist ↔
        ∃ idx < 1, ino = 32 * idx ∧ (oneFileFs.inodeAt idx).free = true) ∧
      ∀ idx < 1, (oneFileFs.inodeAt idx).free = true ↔ oneFileFs.bitAt idx = false) ∧
    (oneFileFs.freelistCount.toNat = oneFileFs.freelist.length ∧
      oneFileFs.freelistCount.toNat ≤ 1 ∧ (kvfsStatfs oneFileFs).fBlocks = 1 ∧
      (kvfsStatfs oneFileFs).fFiles + oneFileFs.freelistCount.toNat = 1 ∧
      (kvfsStatfs oneFileFs).fFiles = ((List.range 1).filter oneFileFs.present).length) ∧
    ∀ ino vp, (ino, vp) ∈ oneFileFs.hash → ino ≠ kvfsRootIno → ∃ idx < 1, ∃ knode,
      ino = 32 * idx ∧ oneFileFs.vnodes vp = some (.file knode) ∧ knode.ino = ino ∧
        knode.inode = oneFileFs.inodeAt idx :=
  kvfs_representation (oneFileFs_reachable fun _ _ h => h)

end EmbeddedOs.Kvfs
