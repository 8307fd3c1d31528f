import EmbeddedOs.Kvfs.Listing
import EmbeddedOs.Kvfs.Namespace

/-!
# The keys of the slots

What each call does to the keys that the slots have, for names of any case: a create puts a new
key into a free slot, a remove takes a key away, and a rename puts a new key into a slot. No
two files ever have the same key, so that the name of a key is in the listing once, at a place
that is the number of files in the slots before its own.
-/

namespace EmbeddedOs.Kvfs

open Lib Lib.Bytes Lib.Paging

variable {n i j k vp dvp : ℕ} {s t : Fs} {x : Inode} {key : Key} {c : Call}

/-- The key of a slot that is not free. -/
def Fs.keyAt (s : Fs) (i : ℕ) : Option Key :=
  if (s.inodeAt i).free then none else some (s.inodeAt i).key

/-- What a call does to the keys of the slots. -/
inductive SlotStep (n : ℕ) (s t : Fs) : Call → Prop
  /-- Nothing. -/
  | keep {c : Call} : (∀ j < n, t.keyAt j = s.keyAt j) → SlotStep n s t c
  /-- A new key is put into the first slot of the free list. -/
  | create {dvp i : ℕ} {name : Name} {ts : Timespec} {key : Key} : i < n →
      s.freelist.head? = some (32 * i) → s.keyAt i = none → (∀ j < n, s.keyAt j ≠ some key) →
      (∀ j < n, t.keyAt j = if j = i then some key else s.keyAt j) →
      SlotStep n s t (.create dvp name ts)
  /-- The key of a file is removed. -/
  | remove {vp i : ℕ} : i < n → s.slotOf vp = some i → s.keyAt i ≠ none →
      (∀ j < n, t.keyAt j = if j = i then none else s.keyAt j) → SlotStep n s t (.remove vp)
  /-- A file gets a new key. -/
  | rename {fvp tdvp i : ℕ} {tvp : Option ℕ} {name : Name} (key : Key) : i < n →
      (∀ j < n, t.keyAt j ≠ none → t.keyAt j = if j = i then some key else s.keyAt j) →
      (∀ j < n, t.keyAt j = some key → j = i) → SlotStep n s t (.rename fvp tdvp tvp name)

/-- The key and the timestamp of an inode are no flags. -/
theorem free_with_key (x : Inode) (key : Key) : ({ x with key := key } : Inode).free = x.free := rfl

theorem free_with_timestamp (x : Inode) (timestamp : UInt64) :
    ({ x with timestamp := timestamp } : Inode).free = x.free := rfl

theorem keyAt_used (hused : (s.inodeAt i).free = false) : s.keyAt i = some (s.inodeAt i).key := by
  rw [Fs.keyAt, hused, if_neg Bool.false_ne_true]

theorem keyAt_free (hfree : (s.inodeAt i).free = true) : s.keyAt i = none := by
  rw [Fs.keyAt, hfree, if_pos rfl]

theorem keyAt_eq_some : s.keyAt i = some key ↔
    (s.inodeAt i).free = false ∧ (s.inodeAt i).key = key := by
  unfold Fs.keyAt
  cases (s.inodeAt i).free <;> simp

/-- A slot with another inode has another key. -/
theorem keyAt_of_inodeAt (h : t.inodeAt j = if j = i then x else s.inodeAt j) :
    t.keyAt j = if j = i then (if x.free then none else some x.key) else s.keyAt j := by
  unfold Fs.keyAt
  rw [h]
  split <;> rfl

theorem keyAt_congr (h : t.inodeAt j = s.inodeAt j) : t.keyAt j = s.keyAt j := by
  unfold Fs.keyAt
  rw [h]

/-- A key is removed. -/
theorem keyAt_removeFile (h : s.mp.Wf) (hi : i < s.mp.slots) (hj : j < s.mp.slots) :
    (s.removeFile vp i).keyAt j = if j = i then none else s.keyAt j := by
  rw [keyAt_of_inodeAt (Fs.inodeAt_removeFile h hi hj), Inode.free_empty, if_pos rfl]

/-- A key is created. -/
theorem keyAt_createFile (h : s.mp.Wf) (hi : i < s.mp.slots) {timestamp : UInt64} :
    (s.createFile i (newInode key timestamp)).keyAt j = if j = i then some key else s.keyAt j := by
  rw [keyAt_of_inodeAt (Fs.inodeAt_createFile h hi), (newInode_active _ _).not_free,
    if_neg Bool.false_ne_true]
  rfl

/-- A file gets another inode. -/
theorem keyAt_updateFile (hused : x.free = false) :
    (s.updateFile vp i x).keyAt j = if j = i then some x.key else s.keyAt j := by
  rw [keyAt_of_inodeAt Fs.inodeAt_updateFile, hused, if_neg Bool.false_ne_true]

/-- The keys are distinct. -/
theorem distinctKeys_iff : s.DistinctKeys ↔
    ∀ i < s.mp.slots, ∀ j < s.mp.slots, ∀ key,
      s.keyAt i = some key → s.keyAt j = some key → i = j := by
  simp only [keyAt_eq_some]
  constructor
  · rintro h i hi j hj key ⟨hused, hkey⟩ ⟨hjused, hjkey⟩
    exact h i hi j hj hused hjused (hkey.trans hjkey.symm)
  · exact fun h i hi j hj hused hjused hkey => h i hi j hj _ ⟨hused, rfl⟩ ⟨hjused, hkey.symm⟩

/-- A key that is not found is in no slot. -/
theorem keyAt_ne_of_lookupKey (h : s.lookupKey key = none) (hj : j < s.mp.slots) :
    s.keyAt j ≠ some key := by
  rw [Ne, keyAt_eq_some]
  rintro ⟨hused, hkey⟩
  exact lookupKey_eq_none.mp h j hj hused hkey

namespace Consistent

/-- A vnode of a slot is handed out, and no slot changes. -/
theorem inodeAt_vget (h : Consistent n s) (i j : ℕ) :
    (kvfsVget s (32 * i)).1.inodeAt j = s.inodeAt j := by
  rcases h.vget i with ⟨vp, -, hres⟩ | ⟨-, hres⟩ | ⟨-, -, hres⟩ <;> rw [hres] <;> rfl

/-- A lookup changes no slot. -/
theorem inodeAt_lookup (h : Consistent n s) {vdp : ℕ} (hroot : s.vnodes vdp = some .root)
    (cnp : ComponentName) (j : ℕ) : (kvfsLookup s vdp cnp).1.inodeAt j = s.inodeAt j := by
  rcases kvfsLookup_cases hroot cnp with hres | hres | ⟨key, hlen, hkey⟩
  · rw [hres]
  · rw [hres]
  · rw [kvfsLookup_key h.wf hroot hlen hkey]
    cases s.lookupKey key with
    | none => rfl
    | some i => exact h.inodeAt_vget i j

/-- The root is handed out, and no slot changes. -/
theorem inodeAt_root (s : Fs) (j : ℕ) : (kvfsRoot s).1.inodeAt j = s.inodeAt j := by
  unfold kvfsRoot
  cases hget : s.vfsHashGet kvfsRootIno with
  | some vp => rw [kvfsVgetInternal_cached hget]
  | none => rw [kvfsVgetInternal_root hget, Fs.inodeAt_addVnode]

/-- What a rename does to the keys. -/
theorem slotStep_rename (h : Consistent n s) {tdvp : ℕ} {tvp : Option ℕ} {name : Name}
    (hok : Promised s (.rename vp tdvp tvp name)) (hkeys : s.DistinctKeys) {e : Option Errno}
    (hrun : kvfsRename s vp tvp name = some (t, e)) :
    SlotStep n s t (.rename vp tdvp tvp name) := by
  have hslots := h.slots
  cases tvp with
  | none =>
    obtain ⟨key, i, hi, -, hnone, hused, -, -, hres⟩ := h.renameNew hok
    rw [hres, Option.some.injEq, Prod.mk.injEq] at hrun
    rw [← hrun.1]
    have hkey : ∀ j, (s.updateFile vp i { s.inodeAt i with key := key }).keyAt j =
        if j = i then some key else s.keyAt j := by
      exact fun j => keyAt_updateFile ((free_with_key _ key).trans hused)
    refine .rename key hi (fun j _ _ => hkey j) fun j hj hjkey => ?_
    by_contra hne
    rw [hkey, if_neg hne] at hjkey
    exact keyAt_ne_of_lookupKey hnone (by omega) hjkey
  | some tvp =>
    obtain ⟨key, i, hi, j, hj, -, hfound, hij, hused, -, -, hjused, -, -, hres⟩ := h.renameOver hok
    rw [hres, Option.some.injEq, Prod.mk.injEq] at hrun
    rw [← hrun.1]
    have hkey : ∀ k < n,
        ((s.removeFile tvp j).updateFile vp i { s.inodeAt i with key := key }).keyAt k =
        if k = i then some key else if k = j then none else s.keyAt k := by
      intro k hk
      rw [keyAt_updateFile ((free_with_key _ key).trans hused),
        keyAt_removeFile h.wf (by omega) (by omega)]
    refine .rename key hi (fun k hk hsome => ?_) fun k hk hkkey => ?_
    · rw [hkey k hk] at hsome ⊢
      by_cases hki : k = i
      · rw [if_pos hki, if_pos hki]
      · rw [if_neg hki] at hsome ⊢
        by_cases hkj : k = j
        · exact absurd (if_pos hkj) hsome
        · rw [if_neg hkj, if_neg hki]
    · by_contra hne
      rw [hkey k hk, if_neg hne] at hkkey
      by_cases hkj : k = j
      · rw [if_pos hkj] at hkkey
        cases hkkey
      · rw [if_neg hkj] at hkkey
        obtain ⟨-, -, hjkey⟩ := of_lookupKey hfound
        exact hkj (distinctKeys_iff.mp hkeys k (by omega) j (by omega) key hkkey
          (keyAt_eq_some.mpr ⟨hjused, hjkey⟩))

/-- What a promised call does to the keys. -/
theorem slotStep (h : Consistent n s) (hkeys : s.DistinctKeys) {r : Reply} (hok : Promised s c)
    (hrun : Kvfs.exec s c = some (t, r)) : SlotStep n s t c := by
  have hslots := h.slots
  cases c with
  | root =>
    simp only [Kvfs.exec, Option.some.injEq, Prod.mk.injEq] at hrun
    rw [← hrun.1]
    exact .keep fun j _ => keyAt_congr (inodeAt_root s j)
  | vget ino =>
    obtain ⟨i, -, rfl⟩ := hok
    simp only [Kvfs.exec, Option.some.injEq, Prod.mk.injEq] at hrun
    rw [← hrun.1]
    exact .keep fun j _ => keyAt_congr (h.inodeAt_vget i j)
  | lookup vdp cnp =>
    simp only [Kvfs.exec, Option.some.injEq, Prod.mk.injEq] at hrun
    rw [← hrun.1]
    exact .keep fun j _ => keyAt_congr (h.inodeAt_lookup hok cnp j)
  | create dvp name ts =>
    simp only [Kvfs.exec, Option.some.injEq, Prod.mk.injEq] at hrun
    rw [← hrun.1]
    obtain ⟨key, -, hkey, hnone⟩ := h.key_of_lookup hok.1 hok.2
    rcases h.create hkey ts with ⟨-, hres⟩ | ⟨i, hi, freelist, hfree, hempty, hres⟩
    · rw [hres]
      exact .keep fun _ _ => rfl
    · rw [hres]
      refine .create hi (by rw [hfree]; rfl) (keyAt_free (by rw [hempty]; rfl))
        (fun j hj => keyAt_ne_of_lookupKey hnone (by omega)) fun j _ => ?_
      exact keyAt_createFile h.wf (by omega)
  | remove vp =>
    obtain ⟨i, hi, hused, -, hfile, hres⟩ := h.remove hok
    simp only [Kvfs.exec, hres, Option.map_some, Option.some.injEq, Prod.mk.injEq] at hrun
    rw [← hrun.1]
    refine .remove hi (Represents.slotOf_slot hfile) (by simp [keyAt_used hused]) fun j hj => ?_
    exact keyAt_removeFile h.wf (by omega) (by omega)
  | rename fvp tdvp tvp name =>
    simp only [Kvfs.exec, Option.map_eq_some_iff, Prod.mk.injEq] at hrun
    obtain ⟨r', hrun', rfl, -⟩ := hrun
    exact h.slotStep_rename hok hkeys hrun'
  | setattr vp vaMtime =>
    rcases h.setattr hok hrun with ht | ⟨i, -, hused, -, -, ht⟩
    · rw [ht]
      exact .keep fun _ _ => rfl
    · rw [ht]
      refine .keep fun j _ => ?_
      rw [keyAt_updateFile ((free_with_timestamp _ _).trans hused)]
      split
      · next hji => rw [hji, keyAt_used hused]
      · rfl
  | read vp offset resid fault =>
    simp only [Kvfs.exec, Option.map_eq_some_iff, Prod.mk.injEq] at hrun
    obtain ⟨-, -, rfl, -⟩ := hrun
    exact .keep fun _ _ => rfl
  | write vp ioAppend offset data fault kept =>
    rcases h.write hok hrun with ht | ⟨i, hi, ht⟩
    · rw [ht]
      exact .keep fun _ _ => rfl
    · rw [ht]
      exact .keep fun j hj => keyAt_congr (Fs.inodeAt_putData h.wf (by omega))
  | reclaim vp =>
    simp only [Kvfs.exec, Option.some.injEq, Prod.mk.injEq] at hrun
    rw [← hrun.1]
    refine .keep fun j _ => ?_
    unfold kvfsReclaim
    split <;> rfl
  | remount => exact hok.elim

end Consistent

/-- A promised call keeps the keys distinct. -/
theorem SlotStep.distinctKeys (hstep : SlotStep n s t c) (hs : s.mp.slots = n) (ht : t.mp.slots = n)
    (hkeys : s.DistinctKeys) : t.DistinctKeys := by
  rw [distinctKeys_iff, hs] at hkeys
  rw [distinctKeys_iff, ht]
  intro i hi j hj key' hkey hjkey
  cases hstep with
  | keep hsame =>
    rw [hsame i hi] at hkey
    rw [hsame j hj] at hjkey
    exact hkeys i hi j hj key' hkey hjkey
  | create _ _ _ hnew hsame =>
    rw [hsame i hi] at hkey
    rw [hsame j hj] at hjkey
    split at hkey <;> split at hjkey
    · omega
    · cases hkey
      exact absurd hjkey (hnew j hj)
    · cases hjkey
      exact absurd hkey (hnew i hi)
    · exact hkeys i hi j hj key' hkey hjkey
  | remove _ _ _ hsame =>
    rw [hsame i hi] at hkey
    rw [hsame j hj] at hjkey
    split at hkey
    · cases hkey
    · split at hjkey
      · cases hjkey
      · exact hkeys i hi j hj key' hkey hjkey
  | @rename _ _ k _ _ key hk hsame hunique =>
    by_cases heq : key' = key
    · subst heq
      rw [hunique i hi hkey, hunique j hj hjkey]
    · have hold : ∀ l < n, t.keyAt l = some key' → s.keyAt l = some key' := by
        intro l hl hlkey
        have hlsame := hsame l hl (by simp [hlkey])
        rw [hlkey] at hlsame
        split at hlsame
        · exact absurd (Option.some.inj hlsame) heq
        · exact hlsame.symm
      exact hkeys i hi j hj key' (hold i hi hkey) (hold j hj hjkey)

/-- Runs of promised calls keep the keys distinct. -/
theorem distinctKeys_of_reachable (h : (kvfs n).Reachable Promised s) : s.DistinctKeys := by
  refine h.invariant_of_reachable ?_ ?_
  · intro s hs
    have hslots := (Consistent.init hs).slots
    obtain ⟨hn, d, hformat, rfl⟩ := kvfs_init hs
    intro i hi j hj hused
    have hfree : ((mountState n d).inodeAt i).free = true := by
      rw [Fs.inodeAt_mountState, hformat.inode i (by omega)]
      rfl
    rw [hfree] at hused
    cases hused
  · rintro s c t hs hkeys hok ⟨r, hrun⟩
    have hcons := consistent_of_reachable hs
    exact (hcons.slotStep hkeys hok hrun).distinctKeys hcons.slots (hcons.exec hok hrun).slots hkeys

/-! ## The place of a key -/

/-- The number of files in the slots before `i`. -/
def Fs.rank (s : Fs) (i : ℕ) : ℕ := (s.fileEntries (List.range i)).length

theorem rank_eq : s.rank i = (List.range i).countP fun j => (s.keyAt j).isSome := by
  unfold Fs.rank Fs.fileEntries Fs.keyAt
  rw [List.length_map, ← List.countP_eq_length_filter]
  refine List.countP_congr fun j _ => ?_
  cases (s.inodeAt j).free <;> simp

/-- Two predicates that differ in one number only. -/
theorem countP_range_of_differ {p q : ℕ → Bool} (hp : p j = false) (hq : q j = true)
    (hsame : ∀ k < i, k ≠ j → p k = q k) :
    (List.range i).countP q = (List.range i).countP p + if j < i then 1 else 0 := by
  induction i with
  | zero => rfl
  | succ i ih =>
    have hrest := ih fun k hk => hsame k (by omega)
    rw [List.range_succ, List.countP_append, List.countP_append, hrest]
    by_cases hij : i = j
    · subst hij
      simp [hp, hq]
    · have hlast := hsame i (by omega) hij
      by_cases hlt : j < i
      · simp [hlast, hlt, show j < i + 1 by omega]
        omega
      · simp [hlast, hlt, show ¬j < i + 1 by omega]

/-- A file that is created before a slot moves it one place on. -/
theorem rank_create (hi : i ≤ n) (hfree : s.keyAt j = none)
    (hsame : ∀ k < n, t.keyAt k = if k = j then some key else s.keyAt k) (hj : j < n) :
    t.rank i = s.rank i + if j < i then 1 else 0 := by
  rw [rank_eq, rank_eq]
  refine countP_range_of_differ (by simp [hfree]) (by simp [hsame j hj]) fun k hk hkj => ?_
  rw [hsame k (by omega), if_neg hkj]

/-- A file that is removed before a slot moves it one place back. -/
theorem rank_remove (hi : i ≤ n) (hused : s.keyAt j ≠ none)
    (hsame : ∀ k < n, t.keyAt k = if k = j then none else s.keyAt k) (hj : j < n) :
    s.rank i = t.rank i + if j < i then 1 else 0 := by
  rw [rank_eq, rank_eq]
  refine countP_range_of_differ (by simp [hsame j hj])
    (by simpa [Option.isSome_iff_ne_none] using hused)
    fun k hk hkj => ?_
  rw [hsame k (by omega), if_neg hkj]

theorem rank_congr (hi : i ≤ n) (hsame : ∀ k < n, t.keyAt k = s.keyAt k) : t.rank i = s.rank i := by
  rw [rank_eq, rank_eq]
  refine List.countP_congr fun k hk => ?_
  rw [hsame k (by have hlt := List.mem_range.mp hk; omega)]

/-- The entry that has a property counts in a prefix that is long enough. -/
theorem countP_take_of_unique {α : Type*} {p : α → Bool} {x : α} {before after : List α}
    (hx : p x = true) (hbefore : ∀ y ∈ before, p y = false) (hafter : ∀ y ∈ after, p y = false)
    (m : ℕ) : ((before ++ x :: after).take m).countP p = if before.length < m then 1 else 0 := by
  have hnone : ∀ m, (after.take m).countP p = 0 := fun m =>
    List.countP_eq_zero.mpr fun y hy => by simp [hafter y (List.mem_of_mem_take hy)]
  induction before generalizing m with
  | nil =>
    cases m with
    | zero => rfl
    | succ m => simp [hx, hnone]
  | cons y before ih =>
    cases m with
    | zero => rfl
    | succ m =>
      have hrest := ih (fun z hz => hbefore z (List.mem_cons_of_mem _ hz)) m
      rw [List.cons_append, List.take_succ_cons, List.countP_cons_of_neg, hrest]
      · simp
      · simp [hbefore y List.mem_cons_self]

/-- Different keys have different names. -/
theorem keyToStr_inj {key' : Key} (h : keyToStr key = keyToStr key') : key = key' := by
  have hback := congrArg strToKey h
  rw [strToKey_keyToStr, strToKey_keyToStr] at hback
  exact Option.some.inj hback

/-- The name of an entry is that of a key. -/
def Entry.isKey (key : Key) (e : Entry) : Bool := e.name == keyToStr key

/-- The entry of a key has the place of its slot in the listing, behind `.` and `..`. -/
theorem countP_take_entries (hkeys : s.DistinctKeys) (hi : i < s.mp.slots)
    (hkey : s.keyAt i = some key) (m : ℕ) :
    (s.entries.take m).countP (Entry.isKey key) = if s.rank i + 2 < m then 1 else 0 := by
  obtain ⟨hused, hslot⟩ := keyAt_eq_some.mp hkey
  have hother : ∀ j < s.mp.slots, j ≠ i → (s.inodeAt j).free = false →
      (s.fileEntry j).isKey key = false := by
    intro j hj hji hjused
    unfold Entry.isKey Fs.fileEntry
    rw [beq_eq_false_iff_ne, ← hslot]
    exact fun hname => hji (hkeys j hj i hi hjused hused (keyToStr_inj hname))
  have hfiles : ∀ js : List ℕ, (∀ j ∈ js, j < s.mp.slots ∧ j ≠ i) →
      ∀ e ∈ s.fileEntries js, e.isKey key = false := by
    intro js hjs e he
    obtain ⟨j, hj, rfl⟩ := List.mem_map.mp he
    obtain ⟨hmem, hjused⟩ := List.mem_filter.mp hj
    exact hother j (hjs j hmem).1 (hjs j hmem).2 (by simpa using hjused)
  have hshort : ∀ name : Name, name.length ≠ 40 → (name == keyToStr key) = false := by
    intro name hlen
    rw [beq_eq_false_iff_ne]
    rintro rfl
    exact hlen length_keyToStr
  obtain ⟨rest, hrest⟩ : ∃ rest, s.mp.slots = i + (rest + 1) := ⟨s.mp.slots - i - 1, by omega⟩
  have hrange : List.range s.mp.slots =
      List.range i ++ i :: ((List.range rest).map Nat.succ).map (i + ·) := by
    rw [hrest, List.range_add, List.range_succ_eq_map]
    simp
  have hentries : s.entries =
      (⟨dotName, kvfsRootIno, dtDir⟩ :: ⟨dotdotName, kvfsRootIno, dtDir⟩ ::
        s.fileEntries (List.range i)) ++ s.fileEntry i ::
          s.fileEntries (((List.range rest).map Nat.succ).map (i + ·)) := by
    unfold Fs.entries
    rw [hrange]
    simp [Fs.fileEntries, hused]
  have hself : (s.fileEntry i).isKey key = true := by
    unfold Entry.isKey Fs.fileEntry
    rw [hslot]
    exact beq_self_eq_true _
  rw [hentries, countP_take_of_unique hself]
  · rfl
  · intro e he
    rw [List.mem_cons, List.mem_cons] at he
    rcases he with rfl | rfl | he
    · exact hshort _ (by decide)
    · exact hshort _ (by decide)
    · exact hfiles _ (fun j hj => by have hlt := List.mem_range.mp hj; omega) e he
  · intro e he
    refine hfiles _ (fun j hj => ?_) e he
    simp only [List.map_map, List.mem_map, List.mem_range, Function.comp_apply] at hj
    obtain ⟨a, ha, rfl⟩ := hj
    omega

end EmbeddedOs.Kvfs
