import EmbeddedOs.Kvfs.KeySlots

/-!
# Reading the directory while it changes

A sequence of calls of `kvfs_readdir` on one open directory, with creates and removes of other
keys between them. The offset of a call counts the entries of the listing at that time, so that
a change in a slot before a key moves the key by one place: what counts is whether the place of
the key is before or behind the offset.
-/

namespace EmbeddedOs.Kvfs

open Lib Lib.Bytes Lib.Paging

variable {n i j k vp dvp : ℕ} {s t : Fs} {x : Inode} {key : Key} {c : Call}

/-- The state of a sequence of calls on one open directory. -/
structure Session where
  /-- The file system. -/
  fs : Fs
  /-- The offset at which the next call resumes. -/
  offset : ℤ
  /-- The entries that were returned so far. -/
  returned : List Dirent

/-- A step of a session. -/
inductive SessionCall
  /-- `kvfs_readdir` with a buffer of `resid` bytes. -/
  | readdir (resid : ℕ)
  /-- Another call. -/
  | call (c : Call)

/-- Sessions on the directory `dvp`, which start after a run of promised calls. -/
def session (n dvp : ℕ) : Machine Session SessionCall where
  init x := (kvfs n).Reachable Promised x.fs ∧ x.fs.vnodes dvp = some .root ∧ x.offset = 0 ∧
    x.returned = []
  step x a y :=
    match a with
    | .readdir resid => ∃ uio error,
      kvfsReaddir x.fs dvp ⟨x.offset, resid, []⟩ = some (uio, error) ∧
        y = ⟨x.fs, uio.offset, x.returned ++ uio.dirents⟩
    | .call c => ∃ t r, exec x.fs c = some (t, r) ∧ y = ⟨t, x.offset, x.returned⟩

/-- The key has a file. -/
def Fs.HasKey (s : Fs) (key : Key) : Prop := ∃ i < s.mp.slots, s.keyAt i = some key

/-- A call leaves the directory open and renames no file. -/
def Call.LeavesOpen (dvp : ℕ) : Call → Prop
  | .reclaim vp => vp ≠ dvp
  | .rename _ _ _ _ => False
  | _ => True

/-- What a session may do while the key `key` has a file: pages, and promised calls of other
operations. -/
def Interleaved (dvp : ℕ) (key : Key) (x : Session) (a : SessionCall) : Prop :=
  x.fs.HasKey key ∧ ∀ c, a = .call c → Promised x.fs c ∧ c.LeavesOpen dvp

/-- The number of files before an offset. -/
def filesBefore (offset : ℤ) : ℕ := ((offset - 64) / 72).toNat

/-- No file is created in a slot before that of the key while the key is the last file before
the offset, and no file is removed from a slot before it while it is the first one behind. -/
def PlaceKept (key : Key) (x : Session) (a : SessionCall) : Prop :=
  ∀ i < x.fs.mp.slots, x.fs.keyAt i = some key →
    (∀ dvp name ts j, a = .call (.create dvp name ts) → x.fs.freelist.head? = some (32 * j) →
      j < i → x.fs.rank i + 1 ≠ filesBefore x.offset) ∧
    ∀ vp j, a = .call (.remove vp) → x.fs.slotOf vp = some j → j < i →
      x.fs.rank i ≠ filesBefore x.offset

/-- What a session may do if a key is to be returned once. -/
def Undisturbing (dvp : ℕ) (key : Key) (x : Session) (a : SessionCall) : Prop :=
  Interleaved dvp key x a ∧ PlaceKept key x a

/-! ## What a session keeps -/

theorem vnodes_addVnode_of_ne {ino : ℕ} {node : Vnode} (hne : vp ≠ s.nextVp) :
    (s.addVnode ino node).vnodes vp = s.vnodes vp := Function.update_of_ne hne _ _

/-- A file is not the directory. -/
theorem vnodes_updateFile_of_root (hroot : s.vnodes dvp = some .root) {knode : Memnode}
    (hfile : s.vnodes vp = some (.file knode)) :
    (s.updateFile vp i x).vnodes dvp = some .root := by
  have hne : dvp ≠ vp := by
    rintro rfl
    rw [hroot] at hfile
    cases hfile
  exact (Function.update_of_ne hne _ _).trans hroot

namespace Consistent

/-- The directory stays open when a vnode is handed out. -/
theorem root_vget (h : Consistent n s) (hroot : s.vnodes dvp = some .root) (i : ℕ) :
    (kvfsVget s (32 * i)).1.vnodes dvp = some .root := by
  have hne : dvp ≠ s.nextVp := by
    rintro rfl
    rw [h.fresh _ le_rfl] at hroot
    cases hroot
  rcases h.vget i with ⟨vp, -, hres⟩ | ⟨-, hres⟩ | ⟨-, -, hres⟩
  · rw [hres]
    exact hroot
  · rw [hres]
    exact hroot
  · rw [hres]
    exact (vnodes_addVnode_of_ne hne).trans hroot

/-- The directory stays open. -/
theorem root_kept (h : Consistent n s) {r : Reply} (hok : Promised s c) (hopen : c.LeavesOpen dvp)
    (hroot : s.vnodes dvp = some .root) (hrun : Kvfs.exec s c = some (t, r)) :
    t.vnodes dvp = some .root := by
  have hne : dvp ≠ s.nextVp := by
    rintro rfl
    rw [h.fresh _ le_rfl] at hroot
    cases hroot
  cases c with
  | root =>
    simp only [Kvfs.exec, Option.some.injEq, Prod.mk.injEq] at hrun
    rw [← hrun.1]
    unfold kvfsRoot
    cases hget : s.vfsHashGet kvfsRootIno with
    | some vp =>
      rw [kvfsVgetInternal_cached hget]
      exact hroot
    | none =>
      rw [kvfsVgetInternal_root hget]
      exact (vnodes_addVnode_of_ne hne).trans hroot
  | vget ino =>
    obtain ⟨i, -, rfl⟩ := hok
    simp only [Kvfs.exec, Option.some.injEq, Prod.mk.injEq] at hrun
    rw [← hrun.1]
    exact h.root_vget hroot i
  | lookup vdp cnp =>
    simp only [Kvfs.exec, Option.some.injEq, Prod.mk.injEq] at hrun
    rw [← hrun.1]
    rcases kvfsLookup_cases hok cnp with hres | hres | ⟨key, hlen, hkey⟩
    · rw [hres]
      exact hroot
    · rw [hres]
      exact hroot
    · rw [kvfsLookup_key h.wf hok hlen hkey]
      cases s.lookupKey key with
      | none => exact hroot
      | some i => exact h.root_vget hroot i
  | create dvp' name ts =>
    simp only [Kvfs.exec, Option.some.injEq, Prod.mk.injEq] at hrun
    rw [← hrun.1]
    obtain ⟨key, -, hkey, -⟩ := h.key_of_lookup hok.1 hok.2
    rcases h.create hkey ts with ⟨-, hres⟩ | ⟨i, -, -, -, -, hres⟩
    · rw [hres]
      exact hroot
    · rw [hres]
      exact (Fs.vnodes_createFile_of_ne hne).trans hroot
  | remove vp =>
    obtain ⟨i, -, -, -, -, hres⟩ := h.remove hok
    simp only [Kvfs.exec, hres, Option.map_some, Option.some.injEq, Prod.mk.injEq] at hrun
    rw [← hrun.1]
    exact hroot
  | rename fvp tdvp tvp name => exact hopen.elim
  | setattr vp vaMtime =>
    rcases h.setattr hok hrun with ht | ⟨i, -, -, -, hfile, ht⟩
    · rw [ht]
      exact hroot
    · rw [ht]
      exact vnodes_updateFile_of_root hroot hfile
  | read vp offset resid fault =>
    simp only [Kvfs.exec, Option.map_eq_some_iff, Prod.mk.injEq] at hrun
    obtain ⟨-, -, rfl, -⟩ := hrun
    exact hroot
  | write vp ioAppend offset data fault kept =>
    rcases h.write hok hrun with ht | ⟨i, -, ht⟩
    · rw [ht]
      exact hroot
    · rw [ht]
      exact hroot
  | reclaim vp =>
    simp only [Kvfs.exec, Option.some.injEq, Prod.mk.injEq] at hrun
    rw [← hrun.1]
    unfold kvfsReclaim
    split
    · exact hroot
    · exact (Function.update_of_ne (Ne.symm hopen) _ _).trans hroot
  | remount => exact hok.elim

end Consistent

/-- The directory is open, and the offset is that of an entry, or behind the last one. -/
structure OpenAt (n dvp k : ℕ) (x : Session) : Prop where
  /-- The file system is consistent. -/
  consistent : Consistent n x.fs
  /-- No two files have the same key. -/
  keys : x.fs.DistinctKeys
  /-- The directory is open. -/
  root : x.fs.vnodes dvp = some .root
  /-- The offset is that of an entry. -/
  offset : x.offset = position k

/-- The number of times a key was returned. -/
def Session.count (x : Session) (key : Key) : ℕ :=
  x.returned.countP fun d => d.entry.isKey key

/-- A key was returned once if its place is before the offset, and never otherwise. -/
def Placed (k : ℕ) (key : Key) (x : Session) : Prop :=
  ∀ i < x.fs.mp.slots, x.fs.keyAt i = some key → x.count key = if x.fs.rank i + 2 < k then 1 else 0

variable {y z : Session} {a : SessionCall}

/-- What a call of `kvfs_readdir` returns in a session, and where the next one resumes. -/
theorem OpenAt.readdir (h : OpenAt n dvp k y) (resid : ℕ) :
    let es := y.fs.entries.drop k
    let page := fill Entry.reclen resid es
    ∃ uio, kvfsReaddir y.fs dvp ⟨y.offset, resid, []⟩ =
        some (uio, if page = [] ∧ es ≠ [] then some .EINVAL else none) ∧
      uio.offset = position (k + page.length) ∧ uio.dirents.map Dirent.entry = page := by
  intro es page
  have hcall := kvfsReaddir_eq h.consistent.wf h.root ⟨y.offset, resid, []⟩ h.offset
  refine ⟨_, hcall, ?_, map_entry_direntsFrom _ _⟩
  rw [← position_add (fill_isPrefix Entry.reclen resid es), Int.natCast_add, ← h.offset]
  rfl

/-- A buffer of 72 bytes has room for the next entry. -/
theorem OpenAt.readdir_succeeds (h : OpenAt n dvp k y) {resid : ℕ} (hresid : 72 ≤ resid) :
    ∃ uio, kvfsReaddir y.fs dvp ⟨y.offset, resid, []⟩ = some (uio, none) := by
  obtain ⟨uio, hcall, -, -⟩ := h.readdir resid
  rw [if_neg] at hcall
  · exact ⟨uio, hcall⟩
  · rintro ⟨hnil, hsome⟩
    refine hsome ((fill_eq_nil fun e he => ?_).mp hnil)
    exact (reclen_le (List.mem_of_mem_drop he)).trans hresid

/-- The offset of a session is always that of an entry. -/
theorem OpenAt.step (h : OpenAt n dvp k y) (hok : Interleaved dvp key y a)
    (hstep : (session n dvp).step y a z) : ∃ k, OpenAt n dvp k z := by
  cases a with
  | readdir resid =>
    obtain ⟨uio', hcall', hoffset, -⟩ := h.readdir resid
    obtain ⟨uio, error, hcall, rfl⟩ := hstep
    rw [hcall', Option.some.injEq, Prod.mk.injEq] at hcall
    rw [← hcall.1]
    exact ⟨_, h.consistent, h.keys, h.root, hoffset⟩
  | call c =>
    obtain ⟨t, r, hrun, rfl⟩ := hstep
    obtain ⟨hpromised, hopen⟩ := hok.2 c rfl
    have ht := h.consistent.exec hpromised hrun
    exact ⟨k, ht, (h.consistent.slotStep h.keys hpromised hrun).distinctKeys h.consistent.slots
      ht.slots h.keys, h.consistent.root_kept hpromised hopen h.root hrun, h.offset⟩

theorem OpenAt.init (h : (session n dvp).init y) : OpenAt n dvp 0 y := by
  obtain ⟨hreach, hroot, hoffset, -⟩ := h
  exact ⟨consistent_of_reachable hreach, distinctKeys_of_reachable hreach, hroot, hoffset⟩

/-- Whatever is created and removed between them, calls with buffers of at least 72 bytes do not
fail. -/
theorem session_never_fails (h : (session n dvp).Reachable (Interleaved dvp key) y) {resid : ℕ}
    (hresid : 72 ≤ resid) :
    ∃ uio, kvfsReaddir y.fs dvp ⟨y.offset, resid, []⟩ = some (uio, none) := by
  obtain ⟨k, hopen⟩ := h.invariant (I := fun y => ∃ k, OpenAt n dvp k y)
    (fun _ hs => ⟨0, OpenAt.init hs⟩) fun _ _ _ ⟨_, hs⟩ hok hstep => hs.step hok hstep
  exact hopen.readdir_succeeds hresid

theorem count_append (y : Session) (fs : Fs) (offset : ℤ) (ds : List Dirent) :
    (Session.mk fs offset (y.returned ++ ds)).count key =
      y.count key + (ds.map Dirent.entry).countP (Entry.isKey key) := by
  unfold Session.count
  rw [List.countP_append, List.countP_map]
  rfl

theorem filesBefore_position (k : ℕ) : filesBefore (position (k + 2)) = k := by
  have hpos : position (k + 2) = 64 + 72 * k := rfl
  unfold filesBefore
  omega

/-- The next page has the key if its place is on it. -/
theorem Placed.readdir (h : OpenAt n dvp k y) (hplace : Placed k key y) {resid : ℕ} {uio : Uio}
    {error : Option Errno}
    (hcall : kvfsReaddir y.fs dvp ⟨y.offset, resid, []⟩ = some (uio, error)) :
    ∃ k', OpenAt n dvp k' ⟨y.fs, uio.offset, y.returned ++ uio.dirents⟩ ∧
      Placed k' key ⟨y.fs, uio.offset, y.returned ++ uio.dirents⟩ := by
  obtain ⟨uio', hcall', hoffset, hdirents⟩ := h.readdir resid
  rw [hcall', Option.some.injEq, Prod.mk.injEq] at hcall
  obtain ⟨rfl, -⟩ := hcall
  refine ⟨_, ⟨h.consistent, h.keys, h.root, hoffset⟩, fun i hi hkey => ?_⟩
  have hpage := fill_isPrefix Entry.reclen resid (y.fs.entries.drop k)
  have hcount := countP_take_entries h.keys hi hkey
  have hsplit := hcount (k + (fill Entry.reclen resid (y.fs.entries.drop k)).length)
  rw [List.take_add, List.countP_append, ← List.prefix_iff_eq_take.mp hpage, hcount k] at hsplit
  rw [count_append, hdirents, hplace i hi hkey]
  exact hsplit

/-- A call that keeps the place of the key leaves it returned as often as it should be. -/
theorem Placed.call (h : OpenAt n dvp k y) (hplace : Placed k key y) {t : Fs} {r : Reply}
    (hok : Undisturbing dvp key y (.call c)) (hrun : exec y.fs c = some (t, r)) :
    Placed k key ⟨t, y.offset, y.returned⟩ := by
  obtain ⟨⟨⟨i₀, hi₀, hkey₀⟩, hcall⟩, hkept⟩ := hok
  obtain ⟨hpromised, hopen⟩ := hcall c rfl
  have hslots := h.consistent.slots
  have htslots := (h.consistent.exec hpromised hrun).slots
  have hstep := h.consistent.slotStep h.keys hpromised hrun
  -- before the third entry there is no file that could be one too many
  have hfiles : ∀ k', k = k' + 2 → filesBefore y.offset = k' := by
    rintro k' rfl
    rw [h.offset, filesBefore_position]
  intro i hi hkey
  change i < t.mp.slots at hi
  change t.keyAt i = some key at hkey
  change y.count key = if t.rank i + 2 < k then 1 else 0
  cases hstep with
  | keep hsame =>
    rw [hsame i (by omega)] at hkey
    rw [rank_congr (by omega) hsame]
    exact hplace i (by omega) hkey
  | @create dvp' j name ts key' hj hhead hfree hnew hsame =>
    have hne : i ≠ j := by
      rintro rfl
      rw [hsame i hj, if_pos rfl] at hkey
      cases hkey
      exact hnew i₀ (by omega) hkey₀
    rw [hsame i (by omega), if_neg hne] at hkey
    rw [rank_create (by omega) hfree hsame hj, hplace i (by omega) hkey]
    have hrank := (hkept i (by omega) hkey).1 dvp' name ts j rfl hhead
    by_cases hji : j < i
    · have hnot := hrank hji
      rw [if_pos hji]
      by_cases hk : k = y.fs.rank i + 1 + 2
      · exact absurd (hfiles _ hk).symm hnot
      · refine if_congr ?_ rfl rfl
        omega
    · rw [if_neg hji, Nat.add_zero]
  | @remove vp j hj hslot hused hsame =>
    have hne : i ≠ j := by
      rintro rfl
      rw [hsame i hj, if_pos rfl] at hkey
      cases hkey
    rw [hsame i (by omega), if_neg hne] at hkey
    have hmoved := rank_remove (show i ≤ n by omega) hused hsame hj
    rw [hplace i (by omega) hkey]
    have hrank := (hkept i (by omega) hkey).2 vp j rfl hslot
    by_cases hji : j < i
    · have hnot := hrank hji
      rw [if_pos hji] at hmoved
      by_cases hk : k = y.fs.rank i + 2
      · exact absurd (hfiles _ hk).symm hnot
      · refine if_congr ?_ rfl rfl
        omega
    · rw [if_neg hji, Nat.add_zero] at hmoved
      rw [hmoved]
  | rename _ _ _ _ => exact hopen.elim

/-- After every session in which the place of a key is kept, a call on the directory succeeds if
its buffer has 72 bytes, the key was returned at most once, and a call that returns no entries
comes after the key was returned exactly once. -/
theorem paging_reports_once (h : (session n dvp).Reachable (Undisturbing dvp key) y)
    (hkey : y.fs.HasKey key) (resid : ℕ) :
    ∃ uio error, kvfsReaddir y.fs dvp ⟨y.offset, resid, []⟩ = some (uio, error) ∧
      (72 ≤ resid → error = none) ∧ y.count key ≤ 1 ∧
      (error = none → uio.dirents = [] → y.count key = 1) := by
  obtain ⟨k, hopen, hplace⟩ : ∃ k, OpenAt n dvp k y ∧ Placed k key y := by
    refine h.invariant (I := fun y => ∃ k, OpenAt n dvp k y ∧ Placed k key y)
      (fun y hs => ⟨0, OpenAt.init hs, fun i _ _ => ?_⟩) ?_
    · rw [if_neg (Nat.not_lt_zero _), Session.count, hs.2.2.2]
      rfl
    · rintro y a z ⟨k, hopen, hplace⟩ hok hstep
      cases a with
      | readdir resid =>
        obtain ⟨uio, error, hcall, rfl⟩ := hstep
        exact Placed.readdir hopen hplace hcall
      | call c =>
        obtain ⟨k', hopen'⟩ := hopen.step hok.1 hstep
        obtain ⟨t, r, hrun, rfl⟩ := hstep
        exact ⟨k, ⟨hopen'.consistent, hopen'.keys, hopen'.root, hopen.offset⟩,
          Placed.call hopen hplace hok hrun⟩
  obtain ⟨i, hi, hslot⟩ := hkey
  have hcount := hplace i hi hslot
  obtain ⟨uio, hcall, -, hdirents⟩ := hopen.readdir resid
  refine ⟨uio, _, hcall, fun hresid => ?_, by rw [hcount]; split <;> omega, fun herror hnil => ?_⟩
  · obtain ⟨uio', hcall'⟩ := hopen.readdir_succeeds hresid
    rw [hcall, Option.some.injEq, Prod.mk.injEq] at hcall'
    exact hcall'.2
  · -- nothing is left behind the offset, and the key is in the listing
    have hpage : fill Entry.reclen resid (y.fs.entries.drop k) = [] := by
      rw [← hdirents, hnil]
      rfl
    have hend : y.fs.entries.drop k = [] := by
      by_contra hsome
      rw [if_pos ⟨hpage, hsome⟩] at herror
      cases herror
    have hall := countP_take_entries hopen.keys hi hslot k
    have hlast := countP_take_entries hopen.keys hi hslot (y.fs.rank i + 3)
    have hfull : y.fs.entries.take k = y.fs.entries :=
      List.take_of_length_le (List.drop_eq_nil_iff.mp hend)
    rw [hfull] at hall
    have hle : (y.fs.entries.take (y.fs.rank i + 3)).countP (Entry.isKey key) ≤
        y.fs.entries.countP (Entry.isKey key) := (List.take_sublist _ _).countP_le
    rw [hlast, if_pos (by omega), hall] at hle
    rw [hcount]
    split at hle
    · next hlt => rw [if_pos hlt]
    · omega

/-! ## A file that moves before the offset -/

/-- A device of zeros that is formatted with two blocks and mounted. -/
def emptyFs : Fs := mountState 2 (mkkvfs (initSuperblock 2) fun _ => 0)

theorem emptyFs_init : (kvfs 2).init emptyFs :=
  ⟨by decide, fun _ => 0, kvfsMount_eq (by decide) (formatted_mkkvfs (by decide) _).superblock⟩

/-- The last slot is the first one on the free list. -/
theorem freelist_emptyFs : emptyFs.freelist = [32 * 1, 32 * 0] :=
  (formatted_mkkvfs (by decide) _).freelist_mountState

/-- The root gets a vnode. -/
def dirFs : Fs := emptyFs.addVnode kvfsRootIno .root

/-- The name of zeros is created in the second slot. -/
def firstFs : Fs := dirFs.createFile 1 (newInode (nameKey (digitName 48)) 0)

/-- The name of ones is created in the first slot. -/
def secondFs : Fs := firstFs.createFile 0 (newInode (nameKey (digitName 49)) 0)

theorem freelist_dirFs : dirFs.freelist = 32 * 1 :: [32 * 0] := by
  rw [dirFs, Fs.freelist_addVnode, freelist_emptyFs]

theorem root_dirFs : dirFs.vnodes emptyFs.nextVp = some .root := Fs.vnodes_addVnode

theorem dirFs_reachable : (kvfs 2).Reachable Promised dirFs := by
  have hexec : exec emptyFs .root = some (dirFs, .vnode (.ok emptyFs.nextVp)) := by
    rw [exec, kvfsRoot, kvfsVgetInternal_root (s := emptyFs) rfl]
    rfl
  exact .step (a := .root) (.init emptyFs_init) trivial ⟨_, hexec⟩

theorem keyAt_dirFs (hi : i < 2) : dirFs.keyAt i = none := by
  refine keyAt_free ?_
  rw [dirFs, Fs.inodeAt_addVnode, emptyFs, Fs.inodeAt_mountState,
    (formatted_mkkvfs (by decide) _).inode i hi]
  rfl

theorem lookupKey_eq_none_of_keyAt (h : ∀ i < s.mp.slots, s.keyAt i ≠ some key) :
    s.lookupKey key = none :=
  lookupKey_eq_none.mpr fun i hi hused hkey => h i hi (keyAt_eq_some.mpr ⟨hused, hkey⟩)

theorem firstFs_reachable : (kvfs 2).Reachable Promised firstFs := by
  have hs := consistent_of_reachable dirFs_reachable
  have hnone : dirFs.lookupKey (nameKey (digitName 48)) = none :=
    lookupKey_eq_none_of_keyAt fun i hi => by
      rw [hs.slots] at hi
      simp [keyAt_dirFs hi]
  have hexec : exec dirFs (.create emptyFs.nextVp (digitName 48) ⟨0, 0⟩) =
      some (firstFs, .vnode (.ok dirFs.nextVp)) :=
    hs.exec_create lowerHex_zero freelist_dirFs _ ⟨0, 0⟩
  have hok := hs.create_promised root_dirFs lowerHex_zero hnone ⟨0, 0⟩
  exact .step dirFs_reachable hok ⟨_, hexec⟩

theorem keyAt_firstFs (hi : i < 2) :
    firstFs.keyAt i = if i = 1 then some (nameKey (digitName 48)) else none := by
  have hs := consistent_of_reachable dirFs_reachable
  rw [firstFs, keyAt_createFile hs.wf (by rw [hs.slots]; decide), keyAt_dirFs hi]

theorem root_firstFs : firstFs.vnodes emptyFs.nextVp = some .root := by
  have hne : emptyFs.nextVp ≠ dirFs.nextVp := (Nat.succ_ne_self _).symm
  rw [firstFs, Fs.vnodes_createFile_of_ne hne]
  exact root_dirFs

theorem nameKey_ne : nameKey (digitName 48) ≠ nameKey (digitName 49) := fun heq =>
  absurd (nameKey_inj lowerHex_zero lowerHex_one heq) (by decide)

/-- The second name is in no slot of the first state, and is created in the first one. -/
theorem exec_firstFs : firstFs.lookupKey (nameKey (digitName 49)) = none ∧
    exec firstFs (.create emptyFs.nextVp (digitName 49) ⟨0, 0⟩) =
      some (secondFs, .vnode (.ok firstFs.nextVp)) := by
  have hs := consistent_of_reachable firstFs_reachable
  have hnone : firstFs.lookupKey (nameKey (digitName 49)) = none :=
    lookupKey_eq_none_of_keyAt fun i hi => by
      rw [hs.slots] at hi
      rw [keyAt_firstFs hi]
      split
      · exact fun heq => nameKey_ne (Option.some.inj heq)
      · exact fun heq => by cases heq
  have hfree : firstFs.freelist = 32 * 0 :: [] := by
    rw [firstFs, Fs.freelist_createFile, freelist_dirFs, List.tail_cons]
  exact ⟨hnone, hs.exec_create lowerHex_one hfree _ ⟨0, 0⟩⟩

theorem secondFs_reachable : (kvfs 2).Reachable Promised secondFs := by
  have hs := consistent_of_reachable firstFs_reachable
  have hok := hs.create_promised root_firstFs lowerHex_one exec_firstFs.1 ⟨0, 0⟩
  exact .step firstFs_reachable hok ⟨_, exec_firstFs.2⟩

theorem keyAt_secondFs (hi : i < 2) : secondFs.keyAt i =
    if i = 0 then some (nameKey (digitName 49)) else some (nameKey (digitName 48)) := by
  have hs := consistent_of_reachable firstFs_reachable
  rw [secondFs, keyAt_createFile hs.wf (by rw [hs.slots]; decide), keyAt_firstFs hi]
  by_cases hzero : i = 0
  · rw [if_pos hzero, if_pos hzero]
  · rw [if_neg hzero, if_neg hzero, if_pos (by omega)]

theorem root_secondFs : secondFs.vnodes emptyFs.nextVp = some .root := by
  have hnext : firstFs.nextVp = emptyFs.nextVp + 2 := rfl
  have hne : emptyFs.nextVp ≠ firstFs.nextVp := by omega
  rw [secondFs, Fs.vnodes_createFile_of_ne hne]
  exact root_firstFs

theorem session_init_secondFs : (session 2 emptyFs.nextVp).init ⟨secondFs, 0, []⟩ :=
  ⟨secondFs_reachable, root_secondFs, rfl, rfl⟩

theorem hasKey_secondFs : secondFs.HasKey (nameKey (digitName 48)) := by
  have hslots := (consistent_of_reachable secondFs_reachable).slots
  exact ⟨1, by rw [hslots]; decide, by rw [keyAt_secondFs (by decide)]; rfl⟩

/-- The file in the first slot is removed. -/
def thirdFs : Fs := secondFs.removeFile firstFs.nextVp 0

theorem vnodes_secondFs : secondFs.vnodes firstFs.nextVp =
    some (.file (secondFs.slotNode 0 (newInode (nameKey (digitName 49)) 0))) := by
  rw [secondFs]
  exact Fs.vnodes_createFile

theorem exec_secondFs :
    exec secondFs (.remove firstFs.nextVp) = some (thirdFs, .status none) := by
  have hs := consistent_of_reachable secondFs_reachable
  rw [exec, kvfsRemove_slot hs.wf (by rw [hs.slots]; decide) vnodes_secondFs, thirdFs]
  rfl

theorem live_secondFs : secondFs.Live firstFs.nextVp := by
  rw [secondFs]
  exact live_createFile

theorem thirdFs_reachable : (kvfs 2).Reachable Promised thirdFs :=
  .step (a := .remove firstFs.nextVp) secondFs_reachable live_secondFs ⟨_, exec_secondFs⟩

theorem consistent_thirdFs : Consistent 2 thirdFs := consistent_of_reachable thirdFs_reachable

theorem keyAt_thirdFs (hi : i < 2) :
    thirdFs.keyAt i = if i = 0 then none else some (nameKey (digitName 48)) := by
  have hs := consistent_of_reachable secondFs_reachable
  rw [thirdFs, keyAt_removeFile hs.wf (by rw [hs.slots]; decide) (by rw [hs.slots]; exact hi),
    keyAt_secondFs hi]
  split <;> rfl

theorem hasKey_thirdFs : thirdFs.HasKey (nameKey (digitName 48)) :=
  ⟨1, by rw [consistent_thirdFs.slots]; decide, by rw [keyAt_thirdFs (by decide)]; rfl⟩

theorem rank_secondFs : secondFs.rank 1 = 1 := by
  rw [rank_eq]
  simp [keyAt_secondFs]

theorem rank_thirdFs : thirdFs.rank 2 = 1 := by
  rw [rank_eq]
  simp [keyAt_thirdFs, List.range_succ]

/-- A buffer of 64 bytes has room for `.` and `..`. -/
theorem fill_dots (s : Fs) : (fill Entry.reclen 64 s.entries).length = 2 := by
  have hdot : Entry.reclen ⟨dotName, kvfsRootIno, dtDir⟩ = 32 := rfl
  have hdotdot : Entry.reclen ⟨dotdotName, kvfsRootIno, dtDir⟩ = 32 := rfl
  have hnone : fill Entry.reclen 0 (s.fileEntries (List.range s.mp.slots)) = [] := by
    cases hfiles : s.fileEntries (List.range s.mp.slots) with
    | nil => rfl
    | cons e es =>
      have he : e ∈ s.fileEntries (List.range s.mp.slots) := by
        rw [hfiles]
        exact List.mem_cons_self
      obtain ⟨i, -, rfl⟩ := List.mem_map.mp he
      exact fill_cons_of_lt (by rw [reclen_fileEntry]; decide)
  rw [Fs.entries, fill_cons_of_le (by rw [hdot]; decide), hdot,
    fill_cons_of_le (by rw [hdotdot]), hdotdot, hnone]
  rfl

/-- A session after a call of `kvfs_readdir`. -/
def Session.page (x : Session) (dvp resid : ℕ) : Session :=
  match kvfsReaddir x.fs dvp ⟨x.offset, resid, []⟩ with
  | some (uio, _) => ⟨x.fs, uio.offset, x.returned ++ uio.dirents⟩
  | none => x

/-- A call returns `.` and `..`; then a file is created before the only one and removed again,
and the next call returns the only one. -/
def pagedSession : Session :=
  Session.page { Session.page ⟨firstFs, 0, []⟩ emptyFs.nextVp 64 with fs := thirdFs }
    emptyFs.nextVp 72

/-- A call of `kvfs_readdir` is a step of a session. -/
theorem OpenAt.step_page (h : OpenAt n dvp k y) (resid : ℕ) :
    (session n dvp).step y (.readdir resid) (y.page dvp resid) := by
  obtain ⟨uio, hcall, -, -⟩ := h.readdir resid
  refine ⟨uio, _, hcall, ?_⟩
  rw [Session.page, hcall]

/-- A page disturbs no key. -/
theorem undisturbing_readdir (hkey : y.fs.HasKey key) (resid : ℕ) :
    Undisturbing dvp key y (.readdir resid) :=
  ⟨⟨hkey, fun _ heq => (by cases heq)⟩,
    fun _ _ _ => ⟨fun _ _ _ _ heq => (by cases heq), fun _ _ heq => (by cases heq)⟩⟩

theorem Session.fs_page (y : Session) (dvp resid : ℕ) : (y.page dvp resid).fs = y.fs := by
  unfold Session.page
  split <;> rfl

theorem hasKey_firstFs : firstFs.HasKey (nameKey (digitName 48)) := by
  have hslots := (consistent_of_reachable firstFs_reachable).slots
  exact ⟨1, by rw [hslots]; decide, by rw [keyAt_firstFs (by decide)]; rfl⟩

/-- The second file may be created between two calls. -/
theorem interleaved_create (o : ℤ) (returned : List Dirent) :
    Interleaved emptyFs.nextVp (nameKey (digitName 48)) ⟨firstFs, o, returned⟩
      (.call (.create emptyFs.nextVp (digitName 49) ⟨0, 0⟩)) := by
  refine ⟨hasKey_firstFs, ?_⟩
  rintro c heq
  cases heq
  have hs := consistent_of_reachable firstFs_reachable
  exact ⟨hs.create_promised root_firstFs lowerHex_one exec_firstFs.1 ⟨0, 0⟩, trivial⟩

/-- And be removed again. -/
theorem interleaved_remove (o : ℤ) (returned : List Dirent) :
    Interleaved emptyFs.nextVp (nameKey (digitName 48)) ⟨secondFs, o, returned⟩
      (.call (.remove firstFs.nextVp)) := by
  refine ⟨hasKey_secondFs, ?_⟩
  rintro c heq
  cases heq
  exact ⟨live_secondFs, trivial⟩

/-- Before the first file was returned, it may be created. -/
theorem undisturbing_create {o : ℤ} (ho : filesBefore o = 0) (returned : List Dirent) :
    Undisturbing emptyFs.nextVp (nameKey (digitName 48)) ⟨firstFs, o, returned⟩
      (.call (.create emptyFs.nextVp (digitName 49) ⟨0, 0⟩)) := by
  refine ⟨interleaved_create o returned, fun i _ _ => ⟨fun _ _ _ _ _ _ _ => ?_, fun _ _ heq =>
    (by cases heq)⟩⟩
  change firstFs.rank i + 1 ≠ filesBefore o
  rw [ho]
  exact Nat.succ_ne_zero _

theorem undisturbing_remove {o : ℤ} (ho : filesBefore o = 0) (returned : List Dirent) :
    Undisturbing emptyFs.nextVp (nameKey (digitName 48)) ⟨secondFs, o, returned⟩
      (.call (.remove firstFs.nextVp)) := by
  refine ⟨interleaved_remove o returned, fun i hi _ => ⟨fun _ _ _ _ heq => (by cases heq),
    fun vp j _ _ hji => ?_⟩⟩
  change secondFs.rank i ≠ filesBefore o
  have hslots := (consistent_of_reachable secondFs_reachable).slots
  rw [hslots] at hi
  obtain rfl : i = 1 := by omega
  rw [ho, rank_secondFs]
  decide

theorem pagedSession_reachable : (session 2 emptyFs.nextVp).Reachable
    (Undisturbing emptyFs.nextVp (nameKey (digitName 48))) pagedSession := by
  have hinit : (session 2 emptyFs.nextVp).init ⟨firstFs, 0, []⟩ :=
    ⟨firstFs_reachable, root_firstFs, rfl, rfl⟩
  have hopen := OpenAt.init hinit
  obtain ⟨uio, hcall, hoffset, -⟩ := hopen.readdir 64
  rw [List.drop_zero, fill_dots] at hoffset
  have hbefore : filesBefore uio.offset = 0 := by
    rw [hoffset]
    exact filesBefore_position 0
  have hpage : Session.page ⟨firstFs, 0, []⟩ emptyFs.nextVp 64 =
      ⟨firstFs, uio.offset, [] ++ uio.dirents⟩ := by
    rw [Session.page, hcall]
  have hstart : (session 2 emptyFs.nextVp).Reachable
      (Undisturbing emptyFs.nextVp (nameKey (digitName 48)))
      ⟨firstFs, uio.offset, [] ++ uio.dirents⟩ := by
    rw [← hpage]
    exact .step (.init hinit) (a := .readdir 64) (undisturbing_readdir hasKey_firstFs 64)
      (hopen.step_page 64)
  have hcreate := hstart.step (undisturbing_create hbefore _) ⟨secondFs, _, exec_firstFs.2, rfl⟩
  have hremove := hcreate.step (undisturbing_remove hbefore _) ⟨thirdFs, _, exec_secondFs, rfl⟩
  have hlast : OpenAt 2 emptyFs.nextVp (0 + 2) ⟨thirdFs, uio.offset, [] ++ uio.dirents⟩ :=
    ⟨consistent_thirdFs, distinctKeys_of_reachable thirdFs_reachable, root_secondFs, hoffset⟩
  rw [pagedSession, hpage]
  exact .step hremove (a := .readdir 72) (undisturbing_readdir hasKey_thirdFs 72)
    (hlast.step_page 72)

/-- The session with a create and a remove between its calls. -/
theorem paging_reports_once_interleaved :
    ∃ uio error, kvfsReaddir pagedSession.fs emptyFs.nextVp ⟨pagedSession.offset, 72, []⟩ =
        some (uio, error) ∧ (72 ≤ 72 → error = none) ∧
      pagedSession.count (nameKey (digitName 48)) ≤ 1 ∧
      (error = none → uio.dirents = [] → pagedSession.count (nameKey (digitName 48)) = 1) := by
  have hkey : pagedSession.fs.HasKey (nameKey (digitName 48)) := by
    rw [pagedSession, Session.fs_page]
    exact hasKey_thirdFs
  exact paging_reports_once pagedSession_reachable hkey 72

/-- A buffer of 136 bytes has room for `.`, `..` and one file. -/
theorem fill_secondFs : (fill Entry.reclen 136 secondFs.entries).length = 3 := by
  have hs := consistent_of_reachable secondFs_reachable
  have hused : ∀ i < 2, (secondFs.inodeAt i).free = false := fun i hi => by
    have hkey := keyAt_secondFs hi
    split at hkey
    · exact (keyAt_eq_some.mp hkey).1
    · exact (keyAt_eq_some.mp hkey).1
  have hentries : secondFs.entries = [⟨dotName, kvfsRootIno, dtDir⟩,
      ⟨dotdotName, kvfsRootIno, dtDir⟩, secondFs.fileEntry 0, secondFs.fileEntry 1] := by
    unfold Fs.entries Fs.fileEntries
    rw [hs.slots]
    simp [List.range_succ, hused]
  have hdot : Entry.reclen ⟨dotName, kvfsRootIno, dtDir⟩ = 32 := rfl
  have hdotdot : Entry.reclen ⟨dotdotName, kvfsRootIno, dtDir⟩ = 32 := rfl
  rw [hentries, fill_cons_of_le (by rw [hdot]; decide), hdot,
    fill_cons_of_le (by rw [hdotdot]; decide), hdotdot,
    fill_cons_of_le (by rw [reclen_fileEntry]), reclen_fileEntry,
    fill_cons_of_lt (by rw [reclen_fileEntry]; decide)]
  rfl

/-- A call returns `.`, `..` and the first file, which is then removed: the next call returns
nothing, and the second file is never returned. -/
theorem paging_reports_once_fails : ¬∀ n dvp key y resid uio,
    (session n dvp).Reachable (Interleaved dvp key) y → y.fs.HasKey key →
      kvfsReaddir y.fs dvp ⟨y.offset, resid, []⟩ = some (uio, none) → uio.dirents = [] →
        y.count key = 1 := by
  intro hall
  have hs := consistent_of_reachable secondFs_reachable
  have hopen := OpenAt.init session_init_secondFs
  obtain ⟨uio, hcall, hoffset, hdirents⟩ := hopen.readdir 136
  simp only [List.drop_zero, Nat.zero_add] at hcall hoffset hdirents
  rw [fill_secondFs] at hoffset
  have hfirst : (session 2 emptyFs.nextVp).Reachable
      (Interleaved emptyFs.nextVp (nameKey (digitName 48)))
      ⟨secondFs, uio.offset, [] ++ uio.dirents⟩ :=
    .step (.init session_init_secondFs) (a := .readdir 136)
      ⟨hasKey_secondFs, fun _ heq => by cases heq⟩ ⟨uio, _, hcall, rfl⟩
  have hreach : (session 2 emptyFs.nextVp).Reachable
      (Interleaved emptyFs.nextVp (nameKey (digitName 48)))
      ⟨thirdFs, uio.offset, [] ++ uio.dirents⟩ :=
    .step hfirst (a := .call (.remove firstFs.nextVp)) (interleaved_remove _ _)
      ⟨thirdFs, _, exec_secondFs, rfl⟩
  have hopen' : OpenAt 2 emptyFs.nextVp 3 ⟨thirdFs, uio.offset, [] ++ uio.dirents⟩ :=
    ⟨consistent_thirdFs, distinctKeys_of_reachable thirdFs_reachable, root_secondFs, hoffset⟩
  obtain ⟨uio', hcall', -, hdirents'⟩ := hopen'.readdir 72
  have hend : thirdFs.entries.drop 3 = [] := by
    refine List.drop_eq_nil_iff.mpr ?_
    have hlen : thirdFs.entries.length = thirdFs.rank thirdFs.mp.slots + 2 := rfl
    rw [hlen, consistent_thirdFs.slots, rank_thirdFs]
  simp only [hend, fill_nil, ne_eq, not_true_eq_false, and_false, if_false] at hcall' hdirents'
  have hone := hall 2 emptyFs.nextVp _ _ 72 uio' hreach hasKey_thirdFs hcall'
    (List.map_eq_nil_iff.mp hdirents')
  -- the first page has the first file only
  have hkey : secondFs.keyAt 1 = some (nameKey (digitName 48)) := by
    rw [keyAt_secondFs (by decide)]
    rfl
  have hcount := countP_take_entries hopen.keys (i := 1) (by rw [hs.slots]; decide) hkey 3
  have hpage := List.prefix_iff_eq_take.mp (fill_isPrefix Entry.reclen 136 secondFs.entries)
  rw [fill_secondFs] at hpage
  rw [rank_secondFs, ← hpage, ← hdirents] at hcount
  rw [Session.count, List.nil_append, ← Function.comp_def, ← List.countP_map, hcount] at hone
  cases hone

end EmbeddedOs.Kvfs
