import EmbeddedOs.Kvfs.Readdir
import EmbeddedOs.Kvfs.Consistency

/-!
# The listing of a table

While the table does not change, calls of `kvfs_readdir` that resume where the last one ended
return the listing of the table page by page, and each file in it is found under its name. The
name is that of the key, which is the name the file was created with, in lower case, only if no
upper-case digit of it disturbs its neighbour.
-/

namespace EmbeddedOs.Kvfs

open Lib Lib.Bytes Lib.Paging

variable {n i k vp : ℕ} {s t : Fs} {es es' : List Entry} {pages : List (List Entry)}

/-- The listing of the directory. -/
def Fs.listing (s : Fs) : List Dirent := direntsFrom 0 s.entries

/-- No two files have the same key. -/
def Fs.DistinctKeys (s : Fs) : Prop :=
  ∀ i < s.mp.slots, ∀ j < s.mp.slots, (s.inodeAt i).free = false → (s.inodeAt j).free = false →
    (s.inodeAt i).key = (s.inodeAt j).key → i = j

/-! ## Pages -/

/-- What an entry that was returned is about. -/
def Dirent.entry (d : Dirent) : Entry := ⟨d.name, d.fileno, d.type⟩

@[simp] theorem map_entry_direntsFrom (offset : ℤ) (es : List Entry) :
    (direntsFrom offset es).map Dirent.entry = es := by
  induction es generalizing offset with
  | nil => rfl
  | cons e es ih => exact congrArg (e :: ·) (ih _)

@[simp] theorem length_direntsFrom (offset : ℤ) (es : List Entry) :
    (direntsFrom offset es).length = es.length := by
  rw [← List.length_map Dirent.entry, map_entry_direntsFrom]

/-- Entries that are returned from one offset on are the same if they are about the same. -/
theorem direntsFrom_inj {offset : ℤ} :
    direntsFrom offset es = direntsFrom offset es' ↔ es = es' := by
  constructor
  · intro heq
    rw [← map_entry_direntsFrom offset es, heq, map_entry_direntsFrom]
  · rintro rfl
    rfl

/-- Pages as they are returned from `offset` on. -/
def direntPages : ℤ → List (List Entry) → List (List Dirent)
  | _, [] => []
  | offset, page :: pages =>
    direntsFrom offset page :: direntPages (offset + width Entry.reclen page) pages

theorem flatten_take_direntPages (offset : ℤ) (pages : List (List Entry)) (k : ℕ) :
    ((direntPages offset pages).take k).flatten = direntsFrom offset (pages.take k).flatten := by
  induction pages generalizing offset k with
  | nil => simp [direntPages, direntsFrom]
  | cons page pages ih =>
    cases k with
    | zero => simp [direntsFrom]
    | succ k =>
      unfold direntPages
      rw [List.take_succ_cons, List.flatten_cons, ih, List.take_succ_cons, List.flatten_cons,
        direntsFrom_append]

theorem flatten_direntPages (offset : ℤ) (pages : List (List Entry)) :
    (direntPages offset pages).flatten = direntsFrom offset pages.flatten := by
  induction pages generalizing offset with
  | nil => rfl
  | cons page pages ih =>
    unfold direntPages
    rw [List.flatten_cons, ih, List.flatten_cons, direntsFrom_append]

theorem getElem?_direntPages_eq_nil (offset : ℤ) (pages : List (List Entry)) (k : ℕ) :
    (direntPages offset pages)[k]? = some [] ↔ pages[k]? = some [] := by
  induction pages generalizing offset k with
  | nil => simp [direntPages]
  | cons page pages ih =>
    unfold direntPages
    cases k with
    | zero => simp [← List.length_eq_zero_iff]
    | succ k => exact ih _ k

/-- Each entry has room in a buffer of 72 bytes. -/
theorem reclen_le {e : Entry} (he : e ∈ s.entries) : e.reclen ≤ 72 := by
  unfold Fs.entries at he
  simp only [List.mem_cons] at he
  rcases he with rfl | rfl | he
  · decide
  · decide
  · obtain ⟨i, -, rfl⟩ := List.mem_map.mp he
    rw [reclen_fileEntry]

/-- Calls with buffers of at least 72 bytes all succeed, and return the pages of what is left. -/
theorem kvfsReaddirs_eq (hwf : s.mp.Wf) (hroot : s.vnodes vp = some .root) {resids : List ℕ}
    (hresids : ∀ resid ∈ resids, 72 ≤ resid) :
    kvfsReaddirs s vp (position k) resids =
      some ((direntPages (position k) (Paging.pages Entry.reclen resids (s.entries.drop k))).map
        fun page => (page, none)) := by
  induction resids generalizing k with
  | nil => rfl
  | cons resid resids ih =>
    have hpage := fill_isPrefix Entry.reclen resid (s.entries.drop k)
    have hcall := kvfsReaddir_eq hwf hroot ⟨position k, resid, []⟩ rfl
    have hok : ¬(fill Entry.reclen resid (s.entries.drop k) = [] ∧ s.entries.drop k ≠ []) := by
      rintro ⟨hnil, hsome⟩
      refine hsome ((fill_eq_nil fun e he => ?_).mp hnil)
      exact (reclen_le (List.mem_of_mem_drop he)).trans (hresids resid List.mem_cons_self)
    simp only [if_neg hok] at hcall
    have hnext :
        (position k : ℤ) + width Entry.reclen (fill Entry.reclen resid (s.entries.drop k)) =
        position (k + (fill Entry.reclen resid (s.entries.drop k)).length) := by
      rw [← position_add hpage]
      exact (Int.natCast_add _ _).symm
    have hrest := ih (k := k + (fill Entry.reclen resid (s.entries.drop k)).length)
      fun resid' hresid' => hresids resid' (List.mem_cons_of_mem _ hresid')
    unfold kvfsReaddirs Paging.pages direntPages
    simp only [hcall, Uio.move, hnext, hrest, Option.map_some, List.drop_drop, List.map_cons,
      List.nil_append]

/-! ## Lookups of the files in the listing -/

/-- A file has its key for itself. -/
theorem Fs.DistinctKeys.lookupKey (h : s.DistinctKeys) (hi : i < s.mp.slots)
    (hused : (s.inodeAt i).free = false) : s.lookupKey (s.inodeAt i).key = some i := by
  cases hfound : s.lookupKey (s.inodeAt i).key with
  | none => exact absurd rfl (lookupKey_eq_none.mp hfound i hi hused)
  | some j =>
    obtain ⟨hj, hjused, hkey⟩ := of_lookupKey hfound
    rw [h j hj i hi hjused hused hkey]

/-- The name of a file in the listing is found, and leads to the vnode of its inode. -/
theorem lookup_keyToStr (hwf : s.mp.Wf) (hroot : s.vnodes vp = some .root) (hkeys : s.DistinctKeys)
    (hi : i < s.mp.slots) (hused : (s.inodeAt i).free = false) (nameiop : Nameiop) (last : Bool) :
    ∃ t vp', kvfsLookup s vp ⟨keyToStr (s.inodeAt i).key, nameiop, last⟩ = (t, .ok vp') ∧
      t.vfsHashGet (32 * i) = some vp' ∧ (s.vfsHashGet (32 * i) = none →
        ∃ knode, t.vnodes vp' = some (.file knode) ∧ knode.ino = 32 * i) := by
  let cnp : ComponentName := ⟨keyToStr (s.inodeAt i).key, nameiop, last⟩
  have hlen : cnp.name.length = 40 := length_keyToStr
  have hkey : strToKey cnp.name = some (s.inodeAt i).key := strToKey_keyToStr _
  change ∃ t vp', kvfsLookup s vp cnp = (t, .ok vp') ∧ _
  rw [kvfsLookup_key hwf hroot hlen hkey, hkeys.lookupKey hi hused]
  unfold kvfsVget
  cases hget : s.vfsHashGet (32 * i) with
  | some vp' =>
    refine ⟨s, vp', kvfsVgetInternal_cached hget none, hget, fun hnone => ?_⟩
    cases hnone
  | none =>
    refine ⟨_, _, kvfsVgetInternal_file hwf hget hused none, ?_, fun _ =>
      ⟨_, Fs.vnodes_addVnode, rfl⟩⟩
    simp [Fs.vfsHashGet, Fs.addVnode, Fs.vfsHashInsert, Fs.setVnode]

/-- A file in the listing is that of a slot. -/
theorem slot_of_listing {d : Dirent} (hd : d ∈ s.listing) (htype : d.type = dtReg) :
    ∃ i < s.mp.slots, (s.inodeAt i).free = false ∧ d.fileno = 32 * i ∧
      d.name = keyToStr (s.inodeAt i).key := by
  have hentry : d.entry ∈ s.entries := by
    rw [← map_entry_direntsFrom 0 s.entries]
    exact List.mem_map_of_mem hd
  unfold Fs.entries at hentry
  simp only [List.mem_cons] at hentry
  rcases hentry with hdot | hdotdot | hfile
  · have hdir : d.type = dtDir := congrArg Entry.type hdot
    rw [htype] at hdir
    exact absurd hdir (by decide)
  · have hdir : d.type = dtDir := congrArg Entry.type hdotdot
    rw [htype] at hdir
    exact absurd hdir (by decide)
  · obtain ⟨i, hi, hslot⟩ := List.mem_map.mp hfile
    obtain ⟨hrange, hused⟩ := List.mem_filter.mp hi
    have hfileno : d.fileno = 32 * i := (congrArg Entry.fileno hslot).symm
    have hname : d.name = keyToStr (s.inodeAt i).key := (congrArg Entry.name hslot).symm
    exact ⟨i, List.mem_range.mp hrange, by simpa using hused, hfileno, hname⟩

/-- Calls of `kvfs_readdir` with buffers of at least 72 bytes, the first at offset 0 and each at
the offset where the one before it ended, all succeed. What they return is a prefix of the
listing, a call returns nothing exactly if the calls before it have returned all of the
listing, and as many calls as there are entries are enough for that. A lookup of the name of a
file in the listing leads to the vnode of its inode. -/
theorem readdir_lists_table (hwf : s.mp.Wf) (hroot : s.vnodes vp = some .root)
    (hkeys : s.DistinctKeys) {resids : List ℕ} (hresids : ∀ resid ∈ resids, 72 ≤ resid) :
    ∃ pages : List (List Dirent),
      kvfsReaddirs s vp 0 resids = some (pages.map fun page => (page, none)) ∧
      pages.flatten <+: s.listing ∧
      (∀ k < resids.length, pages[k]? = some [] ↔ (pages.take k).flatten = s.listing) ∧
      (s.listing.length ≤ resids.length → pages.flatten = s.listing) ∧
      ∀ d ∈ s.listing, d.type = dtReg → ∀ nameiop last,
        ∃ t vp', kvfsLookup s vp ⟨d.name, nameiop, last⟩ = (t, .ok vp') ∧
          t.vfsHashGet d.fileno = some vp' ∧ (s.vfsHashGet d.fileno = none →
            ∃ knode, t.vnodes vp' = some (.file knode) ∧ knode.ino = d.fileno) := by
  have hroom : ∀ resid ∈ resids, ∀ e ∈ s.entries, e.reclen ≤ resid := fun resid hresid e he =>
    (reclen_le he).trans (hresids resid hresid)
  have hcalls := kvfsReaddirs_eq (k := 0) hwf hroot hresids
  rw [List.drop_zero] at hcalls
  refine ⟨_, hcalls, ?_, fun k hk => ?_, fun hlen => ?_, fun d hd htype nameiop last => ?_⟩
  · have hflat := flatten_pages Entry.reclen resids s.entries
    rw [flatten_direntPages]
    unfold Fs.listing
    conv_rhs => rw [← hflat]
    rw [direntsFrom_append]
    exact List.prefix_append _ _
  · rw [getElem?_direntPages_eq_nil, flatten_take_direntPages,
      getElem?_pages_eq_nil hroom hk]
    exact direntsFrom_inj.symm
  · rw [flatten_direntPages, flatten_pages_eq hroom]
    · rfl
    · unfold Fs.listing at hlen
      rwa [length_direntsFrom] at hlen
  · obtain ⟨i, hi, hused, hfileno, hname⟩ := slot_of_listing hd htype
    rw [hfileno, hname]
    exact lookup_keyToStr hwf hroot hkeys hi hused nameiop last

theorem root_oneFileFs : oneFileFs.vnodes freshFs.nextVp = some .root := by
  have hne : freshFs.nextVp ≠ rootFs.nextVp := (Nat.succ_ne_self _).symm
  rw [oneFileFs, Fs.vnodes_createFile_of_ne hne]
  exact vnodes_rootFs

theorem distinctKeys_oneFileFs : oneFileFs.DistinctKeys := by
  intro i hi j hj _ _ _
  rw [consistent_oneFileFs.slots] at hi hj
  omega

/-- The listing of one file in buffers of 72, 72, 100 and 100 bytes. -/
theorem readdir_lists_table_one : ∃ pages : List (List Dirent),
    kvfsReaddirs oneFileFs freshFs.nextVp 0 [72, 72, 100, 100] =
      some (pages.map fun page => (page, none)) ∧
    pages.flatten <+: oneFileFs.listing ∧
    (∀ k < [72, 72, 100, 100].length,
      pages[k]? = some [] ↔ (pages.take k).flatten = oneFileFs.listing) ∧
    (oneFileFs.listing.length ≤ [72, 72, 100, 100].length → pages.flatten = oneFileFs.listing) ∧
    ∀ d ∈ oneFileFs.listing, d.type = dtReg → ∀ nameiop last,
      ∃ t vp', kvfsLookup oneFileFs freshFs.nextVp ⟨d.name, nameiop, last⟩ = (t, .ok vp') ∧
        t.vfsHashGet d.fileno = some vp' ∧ (oneFileFs.vfsHashGet d.fileno = none →
          ∃ knode, t.vnodes vp' = some (.file knode) ∧ knode.ino = d.fileno) :=
  readdir_lists_table consistent_oneFileFs.wf root_oneFileFs distinctKeys_oneFileFs (by decide)

/-! ## The names of new files -/

/-- The file of a slot is in the listing. -/
theorem mem_listing (hi : i < s.mp.slots) (hused : (s.inodeAt i).free = false) :
    ∃ d ∈ s.listing, d.entry = s.fileEntry i := by
  have hfile : s.fileEntry i ∈ s.listing.map Dirent.entry := by
    unfold Fs.listing
    rw [map_entry_direntsFrom]
    refine List.mem_cons_of_mem _ (List.mem_cons_of_mem _ (List.mem_map_of_mem ?_))
    exact List.mem_filter.mpr ⟨List.mem_range.mpr hi, by simp [hused]⟩
  exact List.mem_map.mp hfile

/-- A call with a large buffer returns the whole listing. -/
theorem kvfsReaddir_all (hwf : s.mp.Wf) (hroot : s.vnodes vp = some .root) (resid : ℕ)
    (hresid : 72 * (s.mp.slots + 2) ≤ resid) :
    ∃ uio, kvfsReaddir s vp ⟨0, resid, []⟩ = some (uio, none) ∧ uio.dirents = s.listing := by
  have hlen : s.entries.length ≤ s.mp.slots + 2 := by
    have hfiles := List.length_filter_le (fun i => !(s.inodeAt i).free) (List.range s.mp.slots)
    unfold Fs.entries Fs.fileEntries
    rw [List.length_range] at hfiles
    simpa using hfiles
  have hwidth := width_le Entry.reclen s.entries fun _ => reclen_le
  have hroom : width Entry.reclen s.entries ≤ resid :=
    hwidth.trans ((Nat.mul_le_mul_left 72 hlen).trans hresid)
  have hcall := kvfsReaddir_eq (k := 0) hwf hroot ⟨0, resid, []⟩ rfl
  simp only [List.drop_zero, fill_eq_self hroom] at hcall
  rw [if_neg fun hcond => hcond.2 hcond.1] at hcall
  exact ⟨_, hcall, rfl⟩

/-- A file that was just created is in the listing, with the name of its key. -/
theorem created_listed (h : Consistent n s) {dvp : ℕ} {name : Name} {key : Key} {ts : Timespec}
    (hok : Promised s (.create dvp name ts)) (hkey : strToKey name = some key)
    (hrun : exec s (.create dvp name ts) = some (t, .vnode (.ok vp))) :
    Consistent n t ∧ t.vnodes dvp = some .root ∧
      ∃ d ∈ t.listing, t.vfsHashGet d.fileno = some vp ∧ d.name = keyToStr key := by
  have ht := h.exec hok hrun
  simp only [exec, Option.some.injEq, Prod.mk.injEq, Reply.vnode.injEq] at hrun
  rcases h.create hkey ts with ⟨-, hres⟩ | ⟨i, hi, freelist, hfree, -, hres⟩
  · rw [hres] at hrun
    cases hrun.2
  · rw [hres, Except.ok.injEq] at hrun
    obtain ⟨rfl, rfl⟩ := hrun
    have hne : dvp ≠ s.nextVp := by
      rintro rfl
      have hnone := h.fresh s.nextVp le_rfl
      rw [hok.1] at hnone
      cases hnone
    have hinode : (s.createFile i (newInode key (timespecToUint64 ts))).inodeAt i =
        newInode key (timespecToUint64 ts) := by
      rw [Fs.inodeAt_createFile h.wf (by rw [h.slots]; exact hi), if_pos rfl]
    obtain ⟨d, hd, hentry⟩ := mem_listing (i := i) (by rw [ht.slots]; exact hi)
      (by rw [hinode]; exact (newInode_active _ _).not_free)
    have hfileno : d.fileno = 32 * i := congrArg Entry.fileno hentry
    have hname : d.name = keyToStr key := by
      have hslot : d.name = keyToStr _ := congrArg Entry.name hentry
      rwa [hinode] at hslot
    refine ⟨ht, (Fs.vnodes_createFile_of_ne hne).trans hok.1, d, hd, ?_, hname⟩
    rw [hfileno]
    simp [Fs.vfsHashGet, Fs.hash_createFile]

/-- `str_to_key` accepts the names of 40 hexadecimal digits. The key of such a name has the name
in lower case if and only if no digit of it is disturbed. Two accepted names both come back, and
have the same key exactly if they differ at most in case, if and only if no digit of either is
disturbed. The name that is listed for a new file is the one it was created with, in lower case,
if and only if no digit of that is disturbed. -/
theorem names_and_keys {str : Name} (h : str.length = 40) :
    ((strToKey str).isSome ↔ ∀ c ∈ str, HexDigit c) ∧
    ∀ key, strToKey str = some key →
      (keyToStr key = str.lower ↔ Undisturbed str) ∧
      (∀ str' key', str'.length = 40 → strToKey str' = some key' →
        ((keyToStr key = str.lower ∧ keyToStr key' = str'.lower ∧
          (key = key' ↔ str.lower = str'.lower)) ↔ Undisturbed str ∧ Undisturbed str')) ∧
      ∀ n s dvp ts t vp resid, (kvfs n).Reachable Promised s →
        Promised s (.create dvp str ts) → exec s (.create dvp str ts) = some (t, .vnode (.ok vp)) →
        72 * (n + 2) ≤ resid → ∃ uio d, kvfsReaddir t dvp ⟨0, resid, []⟩ = some (uio, none) ∧
          d ∈ uio.dirents ∧ t.vfsHashGet d.fileno = some vp ∧
          (d.name = str.lower ↔ Undisturbed str) := by
  refine ⟨isSome_strToKey h, fun key hkey => ⟨keyToStr_eq_lower h hkey, ?_, ?_⟩⟩
  · intro str' key' h' hkey'
    rw [keyToStr_eq_lower h hkey, keyToStr_eq_lower h' hkey']
    constructor
    · exact fun hall => ⟨hall.1, hall.2.1⟩
    · exact fun hok => ⟨hok.1, hok.2, same_key_iff h h' hkey hkey' hok.1 hok.2⟩
  · intro n s dvp ts t vp resid hs hok hrun hresid
    obtain ⟨ht, hroot, d, hd, hvp, hname⟩ :=
      created_listed (consistent_of_reachable hs) hok hkey hrun
    obtain ⟨uio, hcall, hlisting⟩ := kvfsReaddir_all ht.wf hroot resid
      (by rw [ht.slots]; exact hresid)
    refine ⟨uio, d, hcall, by rw [hlisting]; exact hd, hvp, ?_⟩
    rw [hname]
    exact keyToStr_eq_lower h hkey

/-- The name of zeros. -/
theorem names_and_keys_zero :
    ((strToKey (digitName 48)).isSome ↔ ∀ c ∈ digitName 48, HexDigit c) ∧
    ∀ key, strToKey (digitName 48) = some key →
      (keyToStr key = (digitName 48).lower ↔ Undisturbed (digitName 48)) ∧
      (∀ str' key', str'.length = 40 → strToKey str' = some key' →
        ((keyToStr key = (digitName 48).lower ∧ keyToStr key' = str'.lower ∧
          (key = key' ↔ (digitName 48).lower = str'.lower)) ↔
            Undisturbed (digitName 48) ∧ Undisturbed str')) ∧
      ∀ n s dvp ts t vp resid, (kvfs n).Reachable Promised s →
        Promised s (.create dvp (digitName 48) ts) →
        exec s (.create dvp (digitName 48) ts) = some (t, .vnode (.ok vp)) →
        72 * (n + 2) ≤ resid → ∃ uio d, kvfsReaddir t dvp ⟨0, resid, []⟩ = some (uio, none) ∧
          d ∈ uio.dirents ∧ t.vfsHashGet d.fileno = some vp ∧
          (d.name = (digitName 48).lower ↔ Undisturbed (digitName 48)) :=
  names_and_keys (by decide)

/-- The name `0A0A...` has the key of the name `eaea...`. -/
theorem names_and_keys_fails : ¬∀ str : Name, str.length = 40 → ∀ key, strToKey str = some key →
    keyToStr key = str.lower := by
  intro hall
  have hlen : ((List.replicate 20 [48, 65]).flatten : Name).length = 40 := by decide
  have hdigits : ∀ c ∈ ((List.replicate 20 [48, 65]).flatten : Name), HexDigit c := by
    intro c hc
    obtain ⟨pair, hpair, hmem⟩ := List.mem_flatten.mp hc
    rw [List.eq_of_mem_replicate hpair, List.mem_cons, List.mem_singleton] at hmem
    rcases hmem with rfl | rfl
    · decide
    · decide
  have hsome : (strToKey (List.replicate 20 [48, 65]).flatten).isSome :=
    (isSome_strToKey hlen).mpr hdigits
  obtain ⟨key, hkey⟩ := Option.isSome_iff_exists.mp hsome
  have hok := (keyToStr_eq_lower hlen hkey).mp (hall _ hlen key hkey) 0 (by decide) (by decide)
  exact absurd hok (by decide)

end EmbeddedOs.Kvfs
