import EmbeddedOs.Kvfs.Failures
import EmbeddedOs.Kvfs.Unlinked

/-!
# Failure atomicity

When a create, a remove and a rename are all or nothing, whatever the functions they call
return. Each of them drops errors: a create takes its slot before the steps that may fail and
does not give it back, a remove puts a slot on the free list that it may not have cleared, and
a rename removes its target before the source is locked and forgets what the write of the
inode returns.
-/

namespace EmbeddedOs.Kvfs

open Lib Lib.Bytes

variable {n i j k vp dvp tdvp : ℕ} {s t : Fs} {x : Inode} {key : Key} {name : Name}
  {tvp : Option ℕ}

/-! ## Creates -/

/-- The free list, its counter, the bitmap and the inodes are as they were. -/
structure Untouched (n : ℕ) (s t : Fs) : Prop where
  /-- The free list. -/
  freelist : t.freelist = s.freelist
  /-- `freelist_count`. -/
  freelistCount : t.freelistCount = s.freelistCount
  /-- The bitmap. -/
  bit : ∀ j, j / 8 < (n + 7) / 8 → t.bitAt j = s.bitAt j
  /-- The inodes. -/
  inode : ∀ j < n, t.inodeAt j = s.inodeAt j

/-- A vnode has a slot that is active on the device with the key of a name, and that is not on
the free list. -/
def Fs.HasNewFile (t : Fs) (n : ℕ) (name : Name) (vp : ℕ) : Prop :=
  ∃ i < n, t.vnodes vp = some (.file (t.slotNode i (t.inodeAt i))) ∧ (t.inodeAt i).Active ∧
    strToKey name = some (t.inodeAt i).key ∧ 32 * i ∉ t.freelist

/-- An error leaves everything as it was, and a success hands out the vnode of the new file. -/
def CreateAtomic (n : ℕ) (s : Fs) (name : Name) (ts : Timespec) (calls : CreateCalls) : Prop :=
  ∀ t e vpp, kvfsCreateCalls s name ts calls = some (t, e, vpp) →
    (e ≠ 0 → Untouched n s t) ∧ (e = 0 → ∃ vp, vpp = some vp ∧ t.HasNewFile n name vp)

/-- A create that succeeds has its file. -/
theorem Consistent.hasNewFile_createFile (h : Consistent n s) (hi : i < n) {freelist : List ℕ}
    (hfree : s.freelist = 32 * i :: freelist) (hkey : strToKey name = some key)
    (timestamp : UInt64) :
    (s.createFile i (newInode key timestamp)).HasNewFile n name s.nextVp := by
  have hinode : (s.createFile i (newInode key timestamp)).inodeAt i = newInode key timestamp := by
    rw [Fs.inodeAt_createFile h.wf (by rw [h.slots]; exact hi), if_pos rfl]
  have hnodup := h.nodup
  rw [hfree, List.nodup_cons] at hnodup
  refine ⟨i, hi, ?_, ?_, ?_, ?_⟩
  · rw [hinode]
    exact Fs.vnodes_createFile
  · rw [hinode]
    exact newInode_active key timestamp
  · rw [hinode]
    exact hkey
  · rw [Fs.freelist_createFile, hfree, List.tail_cons]
    exact hnodup.1

/-- In runs whose calls withstand their failures, `kvfs_create` is all or nothing exactly if
there is no slot to take, or the bitmap is read and the vnode is found, made, locked, inserted
and hashed without an error. -/
theorem create_atomic_iff (h : (failingKvfs n).Reachable WithstandingRuns s) {ts : Timespec}
    (hok : Promised s (.create dvp name ts)) (calls : CreateCalls) :
    CreateAtomic n s name ts calls ↔ s.freelist = [] ∨ calls.Succeed := by
  obtain ⟨hs, -⟩ := consistent_of_withstandingRuns h
  obtain ⟨key, -, hkey, -⟩ := hs.key_of_lookup hok.1 hok.2
  rcases hs.createCalls name ts calls with ⟨hnil, hres⟩ | ⟨i, hi, freelist, hfree, hget, hres⟩
  · refine ⟨fun _ => Or.inl hnil, fun _ t e vpp hrun => ?_⟩
    rw [hres, Option.some.injEq, Prod.mk.injEq, Prod.mk.injEq] at hrun
    obtain ⟨rfl, rfl, rfl⟩ := hrun
    exact ⟨fun _ => ⟨rfl, rfl, fun _ _ => rfl, fun _ _ => rfl⟩, fun hzero => by cases hzero⟩
  · constructor
    · intro hatomic
      refine Or.inr ⟨?_, ?_⟩
      · -- the bitmap was not read: success, but no vnode
        by_contra hbread
        rw [if_pos hbread] at hres
        obtain ⟨vp, hvpp, -⟩ := (hatomic _ _ _ hres).2 rfl
        cases hvpp
      · -- the slot that was taken is not given back
        by_contra hvget
        by_cases hbread : calls.bread = 0
        · obtain ⟨t, e, hfails, he, hlist⟩ := kvfsVgetInternalCalls_fails hvget hget
            (some (name, ts))
          rw [if_neg (not_not.mpr hbread), hfails] at hres
          have hsame := ((hatomic _ _ _ hres).1 he).freelist
          rw [hlist] at hsame
          change s.freelist.tail = s.freelist at hsame
          rw [hfree, List.tail_cons] at hsame
          exact absurd hsame (List.cons_ne_self _ _).symm
        · rw [if_pos hbread] at hres
          obtain ⟨vp, hvpp, -⟩ := (hatomic _ _ _ hres).2 rfl
          cases hvpp
    · intro hsucceed t e vpp hrun
      have hsucceed : calls.Succeed := hsucceed.resolve_left (by simp [hfree])
      by_cases hbread : calls.vget.bread = 0
      · rcases hs.create hkey ts with ⟨hnil, -⟩ | ⟨i', -, freelist', hfree', -, hcreate⟩
        · rw [hfree] at hnil
          cases hnil
        · obtain rfl : i = i' := by
            rw [hfree, List.cons.injEq] at hfree'
            omega
          rw [kvfsCreateCalls_eq hsucceed hbread, hcreate, Option.some.injEq] at hrun
          simp only [returned, Prod.mk.injEq] at hrun
          obtain ⟨rfl, rfl, rfl⟩ := hrun
          exact ⟨fun hne => absurd rfl hne, fun _ =>
            ⟨_, rfl, hs.hasNewFile_createFile hi hfree hkey _⟩⟩
      · rw [hres, if_neg (not_not.mpr hsucceed.1),
          kvfsVgetInternalCalls_panic hsucceed.2 hbread hget] at hrun
        cases hrun

theorem rootFs_withstandingRuns : (failingKvfs 1).Reachable WithstandingRuns rootFs :=
  withstandingRuns_of_promised (rootFs_reachable fun _ _ h => h)

theorem create_atomic_iff_root :
    CreateAtomic 1 rootFs (digitName 48) ⟨0, 0⟩ noFailures.create ↔
      rootFs.freelist = [] ∨ noFailures.create.Succeed :=
  create_atomic_iff rootFs_withstandingRuns create_promised_rootFs _

/-- What the callees of `kvfs_create` return if the bitmap cannot be read. -/
def bitmapError : CreateCalls := { noFailures.create with bread := 5 }

/-- The bitmap cannot be read: `kvfs_create` returns 0 without a vnode. -/
theorem create_atomic_fails : ¬∀ n s dvp name ts calls,
    (failingKvfs n).Reachable (fun s a => Promised s a.1) s →
      Promised s (.create dvp name ts) → CreateAtomic n s name ts calls := by
  intro hall
  have hreach : (failingKvfs 1).Reachable (fun s a => Promised s a.1) rootFs :=
    rootFs_withstandingRuns.mono fun _ _ h => h.1
  have hatomic := hall 1 rootFs _ _ _ bitmapError hreach create_promised_rootFs
  have hfree := consistent_rootFs.freelist_one (by rw [inodeAt_rootFs]; rfl)
  have hbread : bitmapError.bread ≠ 0 := by decide
  have hres := kvfsCreateCalls_slot hfree (digitName 48) ⟨0, 0⟩ bitmapError
  rw [if_pos hbread] at hres
  obtain ⟨vp, hvpp, -⟩ := (hatomic _ _ _ hres).2 rfl
  cases hvpp

/-! ## Removes -/

/-- A success leaves the slot free, with its bit clear, and once on the free list; an error
leaves the slot as it was; and the slot is not on the free list while its inode is active. -/
def RemoveAtomic (s : Fs) (vp : ℕ) (calls : RemoveCalls) : Prop :=
  ∀ i t e, s.slotOf vp = some i → kvfsRemoveCalls s vp calls = some (t, e) →
    (e = 0 → (t.inodeAt i).free = true ∧ t.bitAt i = false ∧ t.freelist.count (32 * i) = 1) ∧
    (e ≠ 0 → t.inodeAt i = s.inodeAt i ∧ t.bitAt i = s.bitAt i ∧
      t.freelist.count (32 * i) = s.freelist.count (32 * i) ∧ t.valueAt i = s.valueAt i) ∧
    ¬(32 * i ∈ t.freelist ∧ (t.inodeAt i).free = false)

/-- A slot in use is not on the free list. -/
theorem Consistent.not_mem_freelist (h : Consistent n s) (hused : (s.inodeAt i).free = false) :
    32 * i ∉ s.freelist := by
  intro hmem
  obtain ⟨j, -, hij, hfree⟩ := (h.mem _).mp hmem
  obtain rfl : i = j := by omega
  rw [hused] at hfree
  cases hfree

/-- In runs whose calls withstand their failures, `kvfs_remove` is all or nothing exactly if
the inode is written and the bitmap is read. -/
theorem remove_atomic_iff (h : (failingKvfs n).Reachable WithstandingRuns s)
    (hok : Promised s (.remove vp)) (calls : RemoveCalls) :
    RemoveAtomic s vp calls ↔ calls.Succeed := by
  obtain ⟨hs, -⟩ := consistent_of_withstandingRuns h
  have hslots := hs.slots
  obtain ⟨i, hi, hused, -, hfile⟩ := hs.slot_of_live hok
  have hres := kvfsRemoveCalls_slot hs.wf (by omega) hfile calls
  have hslot : s.slotOf vp = some i := Represents.slotOf_slot hfile
  have hinode : (s.removeWith vp i calls).inodeAt i =
      if calls.update.Succeed then .empty else s.inodeAt i := by
    rw [Fs.inodeAt_removeWith hs.wf (by omega) (by omega)]
    simp only [true_and]
  have hset : s.bitAt i = true := by
    rw [hs.bit i (by omega), Fs.present, hused, hslots]
    simp [hi]
  have hbit : (s.removeWith vp i calls).bitAt i = if calls.bread ≠ 0 then true else false := by
    rw [Fs.bitAt_removeWith hs.wf (by omega), hset]
    simp
  constructor
  · intro hatomic
    obtain ⟨hzero, -, -⟩ := hatomic i _ _ hslot hres
    obtain ⟨hfree, hclear, -⟩ := hzero rfl
    constructor
    · by_contra hupdate
      rw [hinode, if_neg hupdate, hused] at hfree
      cases hfree
    · by_contra hbread
      rw [hbit, if_pos hbread] at hclear
      cases hclear
  · rintro ⟨hupdate, hbread⟩ j t e hj hrun
    obtain rfl : i = j := by
      rw [hslot, Option.some.injEq] at hj
      exact hj
    rw [hres, Option.some.injEq, Prod.mk.injEq] at hrun
    obtain ⟨rfl, rfl⟩ := hrun
    have hfree : ((s.removeWith vp i calls).inodeAt i).free = true := by
      rw [hinode, if_pos hupdate, Inode.free_empty]
    have hclear : (s.removeWith vp i calls).bitAt i = false := by
      rw [hbit, if_neg (not_not.mpr hbread)]
    have honce : (s.removeWith vp i calls).freelist.count (32 * i) = 1 := by
      change (32 * i :: s.freelist).count (32 * i) = 1
      rw [List.count_cons_self, List.count_eq_zero_of_not_mem (hs.not_mem_freelist hused)]
    refine ⟨fun _ => ⟨hfree, hclear, honce⟩, fun hne => absurd rfl hne, fun hboth => ?_⟩
    rw [hfree] at hboth
    cases hboth.2

theorem inodeAt_oneFileFs : oneFileFs.inodeAt 0 = newInode (nameKey (digitName 48)) 0 := by
  rw [oneFileFs, Fs.inodeAt_createFile consistent_rootFs.wf
    (by rw [consistent_rootFs.slots]; decide), if_pos rfl]

theorem oneFileFs_withstandingRuns : (failingKvfs 1).Reachable WithstandingRuns oneFileFs :=
  withstandingRuns_of_promised (oneFileFs_reachable fun _ _ h => h)

theorem remove_atomic_iff_one :
    RemoveAtomic oneFileFs rootFs.nextVp noFailures.remove ↔ noFailures.remove.Succeed :=
  remove_atomic_iff oneFileFs_withstandingRuns live_oneFileFs _

/-- What the callees of `kvfs_remove` return if the inode cannot be written. -/
def inodeError : RemoveCalls := { noFailures.remove with update := ⟨0, 5⟩ }

/-- The inode cannot be written: `kvfs_remove` returns 0, and the slot of the file is on the
free list while its inode is active. -/
theorem remove_atomic_fails : ¬∀ n s vp calls,
    (failingKvfs n).Reachable (fun s a => Promised s a.1) s →
      Promised s (.remove vp) → RemoveAtomic s vp calls := by
  intro hall
  have hreach : (failingKvfs 1).Reachable (fun s a => Promised s a.1) oneFileFs :=
    oneFileFs_withstandingRuns.mono fun _ _ h => h.1
  have hatomic := hall 1 oneFileFs _ inodeError hreach live_oneFileFs
  have hs := consistent_oneFileFs
  have hslots := hs.slots
  have hres := kvfsRemoveCalls_slot hs.wf (by omega) vnodes_oneFileFs inodeError
  have hslot : oneFileFs.slotOf rootFs.nextVp = some 0 := Represents.slotOf_slot vnodes_oneFileFs
  obtain ⟨hzero, -, -⟩ := hatomic 0 _ _ hslot hres
  have hfree := (hzero rfl).1
  have hupdate : ¬inodeError.update.Succeed := by decide
  rw [Fs.inodeAt_removeWith hs.wf (by omega) (by omega), if_neg fun hand => hupdate hand.2,
    inodeAt_oneFileFs, (newInode_active _ _).not_free] at hfree
  cases hfree

/-! ## Renames -/

/-- The file of a slot still exists with its key and its value. -/
structure FileKept (s t : Fs) (i : ℕ) : Prop where
  /-- The inode, with the key. -/
  inode : t.inodeAt i = s.inodeAt i
  /-- The value. -/
  value : t.valueAt i = s.valueAt i
  /-- The slot is not free. -/
  used : 32 * i ∉ t.freelist

/-- A success maps the new key to the slot of the source, and the old key to none; an error
keeps the source and the target. -/
def RenameAtomic (n : ℕ) (s : Fs) (fvp : ℕ) (tvp : Option ℕ) (name : Name)
    (calls : RenameCalls) : Prop :=
  ∀ i t e, s.slotOf fvp = some i → kvfsRenameCalls s fvp tvp name calls = some (t, e) →
    (e = 0 → ∃ key, strToKey name = some key ∧ (∀ k < n, t.keyAt k = some key ↔ k = i) ∧
      ∀ k < n, t.keyAt k ≠ s.keyAt i) ∧
    (e ≠ 0 → FileKept s t i ∧
      ∀ target ∈ tvp, ∀ j, s.slotOf target = some j → FileKept s t j)

/-- The source is locked and written, and so is the target; or the source is not locked, and
there is no target. -/
def RenameCalls.Writes (calls : RenameCalls) (tvp : Option ℕ) : Prop :=
  (calls.vnLock = 0 ∧ calls.update.Succeed ∧ (tvp ≠ none → calls.remove.update.Succeed)) ∨
    (calls.vnLock ≠ 0 ∧ tvp = none)

/-- What a remove does to the keys. -/
theorem keyAt_removeWith (h : s.mp.Wf) (hi : i < s.mp.slots) (hj : j < s.mp.slots)
    (calls : RemoveCalls) : (s.removeWith vp i calls).keyAt j =
      if j = i ∧ calls.update.Succeed then none else s.keyAt j := by
  have hinode : (s.removeWith vp i calls).inodeAt j =
      if j = i ∧ calls.update.Succeed then .empty else s.inodeAt j :=
    Fs.inodeAt_removeWith h hi hj calls
  by_cases hboth : j = i ∧ calls.update.Succeed
  · rw [if_pos hboth] at hinode ⊢
    exact keyAt_free (by rw [hinode, Inode.free_empty])
  · rw [if_neg hboth] at hinode ⊢
    exact keyAt_congr hinode

/-- What a rename does to the keys. -/
theorem keyAt_rekeyWith (hused : x.free = false) (calls : UpdateCalls) :
    (s.rekeyWith vp i x calls).keyAt j =
      if j = i ∧ calls.Succeed then some x.key else s.keyAt j := by
  have hinode : (s.rekeyWith vp i x calls).inodeAt j =
      if j = i ∧ calls.Succeed then x else s.inodeAt j := Fs.inodeAt_rekeyWith calls
  by_cases hboth : j = i ∧ calls.Succeed
  · rw [if_pos hboth] at hinode ⊢
    rw [keyAt_used (by rw [hinode, hused]), hinode]
  · rw [if_neg hboth] at hinode ⊢
    exact keyAt_congr hinode

/-- A key that no other slot has is put into a slot whose own key no other slot has. -/
theorem renamed_keys (hkeys : s.DistinctKeys) (hn : s.mp.slots = n) (hi : i < n)
    (hold : s.keyAt i ≠ none) (hne : s.keyAt i ≠ some key) {g : ℕ → Option Key}
    (hg : ∀ k < n, g k ≠ some key ∧ (g k ≠ none → g k = s.keyAt k))
    (ht : ∀ k < n, t.keyAt k = if k = i then some key else g k) :
    (∀ k < n, t.keyAt k = some key ↔ k = i) ∧ ∀ k < n, t.keyAt k ≠ s.keyAt i := by
  rw [distinctKeys_iff, hn] at hkeys
  obtain ⟨old, hold⟩ := Option.ne_none_iff_exists'.mp hold
  refine ⟨fun k hk => ?_, fun k hk => ?_⟩
  · rw [ht k hk]
    by_cases hki : k = i
    · simp [hki]
    · rw [if_neg hki]
      exact iff_of_false (hg k hk).1 hki
  · rw [ht k hk]
    by_cases hki : k = i
    · rw [if_pos hki]
      exact hne.symm
    · rw [if_neg hki]
      intro hsame
      have hsome : g k ≠ none := by rw [hsame, hold]; exact Option.some_ne_none old
      rw [(hg k hk).2 hsome] at hsame
      exact hki (hkeys k hk i hi old (hsame.trans hold) hold)

/-- A rename to a key that no file has. -/
theorem rename_atomic_new (hs : Consistent n s) (hkeys : s.DistinctKeys)
    (hok : Promised s (.rename vp tdvp none name)) (calls : RenameCalls) :
    RenameAtomic n s vp none name calls ↔ calls.Writes none := by
  have hslots := hs.slots
  obtain ⟨key, i, hi, hkey, hnone, hused, -, hfile, -⟩ := hs.renameNew hok
  have hslot : s.slotOf vp = some i := Represents.slotOf_slot hfile
  have hres := kvfsRenameCalls_new hs.wf hkey hfile calls
  have hnew : ∀ k < n, s.keyAt k ≠ some key := fun k hk => keyAt_ne_of_lookupKey hnone (by omega)
  have hfree : ({ s.inodeAt i with key := key } : Inode).free = false :=
    (free_with_key _ key).trans hused
  constructor
  · intro hatomic
    by_cases hlock : calls.vnLock = 0
    · refine Or.inl ⟨hlock, ?_, fun h => absurd rfl h⟩
      rw [if_neg (not_not.mpr hlock)] at hres
      obtain ⟨key', hkey', hmaps, -⟩ := (hatomic i _ _ hslot hres).1 rfl
      rw [hkey, Option.some.injEq] at hkey'
      subst hkey'
      -- the inode on the device has its old key unless it is written
      by_contra hupdate
      have hthere := (hmaps i hi).mpr rfl
      rw [keyAt_rekeyWith hfree, if_neg fun hand => hupdate hand.2] at hthere
      exact hnew i hi hthere
    · exact Or.inr ⟨hlock, rfl⟩
  · intro hwrites j t e hj hrun
    obtain rfl : i = j := by
      rw [hslot, Option.some.injEq] at hj
      exact hj
    rw [hres, Option.some.injEq] at hrun
    rcases hwrites with ⟨hlock, hupdate, -⟩ | ⟨hlock, -⟩
    · rw [if_neg (not_not.mpr hlock), Prod.mk.injEq] at hrun
      obtain ⟨rfl, rfl⟩ := hrun
      refine ⟨fun _ => ⟨key, hkey, ?_⟩, fun hne => absurd rfl hne⟩
      refine renamed_keys hkeys hslots hi (by simp [keyAt_used hused]) (hnew i hi)
        (fun k hk => ⟨hnew k hk, fun _ => rfl⟩) fun k _ => ?_
      rw [keyAt_rekeyWith hfree]
      simp only [hupdate, and_true]
    · rw [if_pos hlock, Prod.mk.injEq] at hrun
      obtain ⟨rfl, rfl⟩ := hrun
      exact ⟨fun hzero => absurd hzero hlock, fun _ =>
        ⟨⟨rfl, rfl, hs.not_mem_freelist hused⟩, fun _ htarget => by cases htarget⟩⟩

/-- A rename to the key of another file. -/
theorem rename_atomic_over (hs : Consistent n s) (hkeys : s.DistinctKeys) {target : ℕ}
    (hok : Promised s (.rename vp tdvp (some target) name)) (calls : RenameCalls) :
    RenameAtomic n s vp (some target) name calls ↔ calls.Writes (some target) := by
  have hslots := hs.slots
  obtain ⟨key, i, hi, j, hj, hkey, hfound, hij, hused, -, hfile, hjused, hjhash, -, -⟩ :=
    hs.renameOver hok
  have hjfile := hs.file_of_hash hjhash
  have hslot : s.slotOf vp = some i := Represents.slotOf_slot hfile
  have hjslot : s.slotOf target = some j := Represents.slotOf_slot hjfile
  have hjkey : s.keyAt j = some key := by
    rw [keyAt_used hjused, (of_lookupKey hfound).2.2]
  have hnew : ∀ k < n, k ≠ j → s.keyAt k ≠ some key := fun k hk hkj hkkey =>
    hkj (distinctKeys_iff.mp hkeys k (by omega) j (by omega) key hkkey hjkey)
  have hfree : ({ s.inodeAt i with key := key } : Inode).free = false :=
    (free_with_key _ key).trans hused
  have hremove : ∀ k < n, (s.removeWith target j calls.remove).keyAt k =
      if k = j ∧ calls.remove.update.Succeed then none else s.keyAt k := fun k hk =>
    keyAt_removeWith hs.wf (by omega) (by omega) _
  have hremoved : kvfsRenameCalls s vp (some target) name calls =
      kvfsRenameCalls (s.removeWith target j calls.remove) vp none name calls :=
    kvfsRenameCalls_over hs.wf hkey (by omega) hjfile calls
  have hres := hremoved.trans (kvfsRenameCalls_new (s := s.removeWith target j calls.remove)
    hs.wf hkey hfile calls)
  constructor
  · intro hatomic
    by_cases hlock : calls.vnLock = 0
    · rw [if_neg (not_not.mpr hlock)] at hres
      obtain ⟨key', hkey', hmaps, -⟩ := (hatomic i _ _ hslot hres).1 rfl
      rw [hkey, Option.some.injEq] at hkey'
      subst hkey'
      refine Or.inl ⟨hlock, ?_, fun _ => ?_⟩
      · by_contra hupdate
        have hthere := (hmaps i hi).mpr rfl
        rw [keyAt_rekeyWith hfree, if_neg fun hand => hupdate hand.2, hremove i hi,
          if_neg fun hand => hij hand.1] at hthere
        exact hnew i hi hij hthere
      · -- the target keeps its key unless its inode is cleared
        by_contra hclear
        refine hij ((hmaps j hj).mp ?_).symm
        rw [keyAt_rekeyWith hfree, if_neg fun hand => hij hand.1.symm, hremove j hj,
          if_neg fun hand => hclear hand.2]
        exact hjkey
    · -- the target is removed before the lock fails
      rw [if_pos hlock] at hres
      have hkept := ((hatomic i _ _ hslot hres).2 hlock).2 target rfl j hjslot
      exact absurd List.mem_cons_self hkept.used
  · intro hwrites k t e hk hrun
    obtain rfl : i = k := by
      rw [hslot, Option.some.injEq] at hk
      exact hk
    rcases hwrites with ⟨hlock, hupdate, hclear⟩ | ⟨-, hnone⟩
    · rw [hres, if_neg (not_not.mpr hlock), Option.some.injEq, Prod.mk.injEq] at hrun
      obtain ⟨rfl, rfl⟩ := hrun
      have hclear : calls.remove.update.Succeed := hclear (Option.some_ne_none target)
      refine ⟨fun _ => ⟨key, hkey, ?_⟩, fun hne => absurd rfl hne⟩
      refine renamed_keys hkeys hslots hi (by simp [keyAt_used hused]) (hnew i hi hij)
        (g := fun k => if k = j then none else s.keyAt k) (fun k hk => ?_) fun k hk => ?_
      · by_cases hkj : k = j
        · simp [hkj]
        · simp only [if_neg hkj]
          exact ⟨hnew k hk hkj, fun _ => trivial⟩
      · rw [keyAt_rekeyWith hfree, hremove k hk]
        simp only [hupdate, hclear, and_true]
    · cases hnone

/-- In runs whose calls withstand their failures, `kvfs_rename` inside a mount is all or
nothing exactly if the source is locked and its inode and that of the target are written, or
the source is not locked and there is no target. -/
theorem rename_atomic_iff (h : (failingKvfs n).Reachable WithstandingRuns s)
    (hok : Promised s (.rename vp tdvp tvp name)) (calls : RenameCalls) :
    RenameAtomic n s vp tvp name calls ↔ calls.Writes tvp := by
  obtain ⟨hs, hkeys⟩ := consistent_of_withstandingRuns h
  cases tvp with
  | none => exact rename_atomic_new hs hkeys hok calls
  | some target => exact rename_atomic_over hs hkeys hok calls

/-- The file of `oneFileFs` may be renamed to the name of ones. -/
theorem rename_promised_oneFileFs :
    Promised oneFileFs (.rename rootFs.nextVp freshFs.nextVp none (digitName 49)) := by
  have hs := consistent_oneFileFs
  have hroot : oneFileFs.vnodes freshFs.nextVp = some .root := by
    have hne : freshFs.nextVp ≠ rootFs.nextVp := (Nat.succ_ne_self _).symm
    rw [oneFileFs, Fs.vnodes_createFile_of_ne hne]
    exact vnodes_rootFs
  have hnone : oneFileFs.lookupKey (nameKey (digitName 49)) = none := by
    rw [lookupKey_eq_none, hs.slots]
    intro i hi _ hkey
    obtain rfl : i = 0 := by omega
    rw [inodeAt_oneFileFs] at hkey
    exact absurd (nameKey_inj lowerHex_zero lowerHex_one hkey) (by decide)
  refine ⟨live_oneFileFs, hroot, ?_⟩
  rw [kvfsLookup_key hs.wf hroot lowerHex_one.length (strToKey_lower lowerHex_one), hnone]
  rfl

theorem rename_atomic_iff_one :
    RenameAtomic 1 oneFileFs rootFs.nextVp none (digitName 49) noFailures.rename ↔
      noFailures.rename.Writes none :=
  rename_atomic_iff oneFileFs_withstandingRuns rename_promised_oneFileFs _

/-- What the callees of `kvfs_rename` return if the inode of the source cannot be read. -/
def sourceError : RenameCalls := { noFailures.rename with update := ⟨5, 0⟩ }

/-- The inode of the source cannot be read: `kvfs_rename` returns 0, and the device has the old
key. -/
theorem rename_atomic_fails : ¬∀ n s fvp tdvp tvp name calls,
    (failingKvfs n).Reachable (fun s a => Promised s a.1) s →
      Promised s (.rename fvp tdvp tvp name) → RenameAtomic n s fvp tvp name calls := by
  intro hall
  have hreach : (failingKvfs 1).Reachable (fun s a => Promised s a.1) oneFileFs :=
    oneFileFs_withstandingRuns.mono fun _ _ h => h.1
  have hatomic := hall 1 oneFileFs _ _ none _ sourceError hreach rename_promised_oneFileFs
  have hs := consistent_oneFileFs
  have hslot : oneFileFs.slotOf rootFs.nextVp = some 0 := Represents.slotOf_slot vnodes_oneFileFs
  have hlock : ¬sourceError.vnLock ≠ 0 := by decide
  have hupdate : ¬sourceError.update.Succeed := by decide
  have hres := kvfsRenameCalls_new hs.wf (strToKey_lower lowerHex_one) vnodes_oneFileFs sourceError
  rw [if_neg hlock] at hres
  obtain ⟨key, hkey, hmaps, -⟩ := (hatomic 0 _ _ hslot hres).1 rfl
  rw [strToKey_lower lowerHex_one, Option.some.injEq] at hkey
  have hthere := (hmaps 0 Nat.one_pos).mpr rfl
  have hfree := (free_with_key (newInode (nameKey (digitName 48)) 0) (nameKey (digitName 49))).trans
    (newInode_active _ _).not_free
  rw [← hkey, keyAt_rekeyWith hfree, if_neg fun hand => hupdate hand.2, keyAt_eq_some,
    inodeAt_oneFileFs] at hthere
  exact absurd (nameKey_inj lowerHex_zero lowerHex_one hthere.2) (by decide)

end EmbeddedOs.Kvfs
