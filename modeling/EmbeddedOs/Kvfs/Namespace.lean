import EmbeddedOs.Kvfs.Consistency
import EmbeddedOs.Lib.SlotMap

/-!
# The namespace is a finite map

What the component is for: a partial map from keys to values with timestamps, each in a slot
of the device. The inode table and the data blocks are the table of this map, and each call
of a run on names of lower-case digits is one step of it.
-/

namespace EmbeddedOs.Kvfs

open Lib Lib.Bytes

variable {n i j vp : ℕ} {s t : Fs} {x : Inode}

/-! ## The map -/

/-- What is stored for a key. -/
structure Value where
  /-- The bytes of the data block. -/
  bytes : List UInt8
  /-- The timestamp. -/
  timestamp : UInt64

/-- A partial map from keys to values on `n` slots. -/
abbrev KeyMap (n : ℕ) := SlotMap Key Value n

/-- What a call is to the map. -/
inductive Event
  /-- A key is looked up and found in a slot, or not found. -/
  | lookup (key : Key) (slot : Option ℕ)
  /-- A key is created at a time and put into a slot, or there is none. -/
  | create (key : Key) (timestamp : UInt64) (slot : Option ℕ)
  /-- A key is removed. -/
  | remove (key : Key)
  /-- A key gets another name. -/
  | rename (key key' : Key)
  /-- A key gets a timestamp. -/
  | setattr (key : Key) (timestamp : UInt64)
  /-- Bytes of a value are written. -/
  | write (key : Key) (off : ℕ) (xs : List UInt8)
  /-- Nothing happens. -/
  | idle
  /-- The call returns what the map does not. -/
  | failed

/-- A step of the map. -/
inductive MapStep : KeyMap n → Event → KeyMap n → Prop
  /-- A lookup finds the keys that are present, in their slots. -/
  | lookup (m : KeyMap n) (key : Key) :
    MapStep m (.lookup key ((m.entry key).map fun e => e.1.val)) m
  /-- A new key gets a free slot, with zeros as its value. -/
  | create {m : KeyMap n} {key : Key} {i : Fin n} (timestamp : UInt64)
    (hkey : m.entry key = none) (hfree : m.Free i) :
    MapStep m (.create key timestamp (some i.val))
      (m.insert key i ⟨List.replicate 4096 0, timestamp⟩ hfree)
  /-- There are as many keys as slots. -/
  | full {m : KeyMap n} {key : Key} (timestamp : UInt64) (hkey : m.entry key = none)
    (hfull : m.keys.ncard = n) : MapStep m (.create key timestamp none) m
  /-- A key that is present is removed. -/
  | remove {m : KeyMap n} {key : Key} (hkey : key ∈ m.keys) :
    MapStep m (.remove key) (m.erase key)
  /-- A key that is present moves to another name, and what had that name is dropped. -/
  | rename {m : KeyMap n} {key key' : Key} (hkey : key ∈ m.keys) (hne : key ≠ key') :
    MapStep m (.rename key key') (m.rekey key key')
  /-- The timestamp of a key that is present is set. -/
  | setattr {m : KeyMap n} {key : Key} (timestamp : UInt64) (hkey : key ∈ m.keys) :
    MapStep m (.setattr key timestamp) (m.adjust key fun v => { v with timestamp := timestamp })
  /-- Bytes inside the value of a key that is present are written. -/
  | write {m : KeyMap n} {key : Key} {off : ℕ} {xs : List UInt8} (hkey : key ∈ m.keys)
    (hfit : off + xs.length ≤ 4096) :
    MapStep m (.write key off xs)
      (m.adjust key fun v => { v with bytes := overwrite v.bytes off xs })
  /-- Nothing happens. -/
  | idle (m : KeyMap n) : MapStep m .idle m

/-- The map on `n` slots, which is empty at first. -/
def keyMap (n : ℕ) : Machine (KeyMap n) Event where
  init m := m = SlotMap.empty
  step := MapStep

/-! ## The calls of the file system -/

/-- The slot of the file of a vnode. -/
def Fs.slotOf (s : Fs) (vp : ℕ) : Option ℕ :=
  match s.vnodes vp with
  | some (.file knode) => some (knode.ino / 32)
  | _ => none

/-- The key of the file of a vnode. -/
def Fs.keyOf (s : Fs) (vp : ℕ) : Option Key :=
  match s.vnodes vp with
  | some (.file knode) => some knode.inode.key
  | _ => none

/-- What a call from `s` to `t` with its reply is to the map. -/
def event (s : Fs) (c : Call) (r : Reply) (t : Fs) : Event :=
  match c, r with
  | .root, .vnode (.ok _) => .idle
  | .vget _, .vnode _ => .idle
  | .lookup _ cnp, .vnode (.ok vp) =>
    match t.slotOf vp with
    | some i => .lookup (nameKey cnp.name) (some i)
    | none => .failed
  | .lookup _ cnp, .vnode (.error .ENOENT) => .lookup (nameKey cnp.name) none
  | .lookup _ cnp, .vnode (.error .EJUSTRETURN) => .lookup (nameKey cnp.name) none
  | .create _ name ts, .vnode (.ok vp) =>
    match t.slotOf vp with
    | some i => .create (nameKey name) (timespecToUint64 ts) (some i)
    | none => .failed
  | .create _ name ts, .vnode (.error .ENOSPC) => .create (nameKey name) (timespecToUint64 ts) none
  | .remove vp, .status none =>
    match s.keyOf vp with
    | some key => .remove key
    | none => .failed
  | .rename fvp _ _ name, .status none =>
    match s.keyOf fvp with
    | some key => .rename key (nameKey name)
    | none => .failed
  | .setattr vp vaMtime, .status none =>
    match s.keyOf vp with
    | some key => if vaMtime.tvSec = -1 then .idle else .setattr key (timespecToUint64 vaMtime)
    | none => .idle
  | .write vp ioAppend offset data fault kept, .status _ =>
    match s.keyOf vp with
    | some key =>
      if Stores ioAppend data fault kept then .write key offset (moved data fault) else .idle
    | none => .idle
  | .read _ _ _ _, .bytes _ _ => .idle
  | .reclaim _, .status none => .idle
  | _, _ => .failed

/-- The names of a call are 40 lower-case digits. -/
def Named : Call → Prop
  | .lookup _ cnp => LowerHex cnp.name
  | .create _ name _ => LowerHex name
  | .rename _ _ _ name => LowerHex name
  | _ => True

/-- What a run on such names may do. -/
def NamedRuns (s : Fs) (c : Call) : Prop := Promised s c ∧ Named c

/-- The file system with its calls as steps of the map. -/
def namedKvfs (n : ℕ) : Machine Fs Event where
  init := (kvfs n).init
  step s ev t := ∃ c r, NamedRuns s c ∧ exec s c = some (t, r) ∧ ev = event s c r t

/-! ## The table of the map -/

/-- The file in a slot. -/
def Fs.fileAt (s : Fs) (i : ℕ) : Option (Key × Value) :=
  if s.present i then some ((s.inodeAt i).key, ⟨s.valueAt i, (s.inodeAt i).timestamp⟩) else none

/-- The slots of the device are the table of the map, and free slots have zeros as values. -/
structure Represents (n : ℕ) (s : Fs) (m : KeyMap n) : Prop extends Consistent n s where
  /-- The files. -/
  table : m.Tabled fun i => s.fileAt i.val
  /-- The values of the free slots. -/
  zeros : ∀ i < n, (s.inodeAt i).free = true → s.valueAt i = List.replicate 4096 0

theorem Consistent.fileAt_used (h : Consistent n s) (hi : i < n)
    (hused : (s.inodeAt i).free = false) :
    s.fileAt i = some ((s.inodeAt i).key, ⟨s.valueAt i, (s.inodeAt i).timestamp⟩) := by
  have hpresent : s.present i = true := by simp [Fs.present, h.slots, hi, hused]
  rw [Fs.fileAt, if_pos hpresent]

theorem Fs.fileAt_free (hfree : (s.inodeAt i).free = true) : s.fileAt i = none := by
  have hpresent : ¬s.present i = true := by simp [Fs.present, hfree]
  rw [Fs.fileAt, if_neg hpresent]

/-- The table after a change of one slot. -/
theorem table_update (hs : Consistent n s) (ht : Consistent n t) (i : Fin n)
    (hinode : ∀ j < n, j ≠ i → t.inodeAt j = s.inodeAt j)
    (hvalue : ∀ j < n, j ≠ i → t.valueAt j = s.valueAt j) :
    (fun j : Fin n => t.fileAt j.val) =
      Function.update (fun j : Fin n => s.fileAt j.val) i (t.fileAt i.val) := by
  funext j
  by_cases hji : j = i
  · rw [hji, Function.update_self]
  · have hne : j.val ≠ i.val := fun h => hji (Fin.ext h)
    rw [Function.update_of_ne hji]
    simp only [Fs.fileAt, Fs.present, hs.slots, ht.slots, hinode j j.isLt hne,
      hvalue j j.isLt hne]

namespace Represents

variable {m m' : KeyMap n}

/-- A step that leaves the slots alone. -/
theorem same (h : Represents n s m) (ht : Consistent n t)
    (hinode : ∀ j < n, t.inodeAt j = s.inodeAt j) (hvalue : ∀ j < n, t.valueAt j = s.valueAt j) :
    Represents n t m where
  toConsistent := ht
  table := by
    have htable : (fun j : Fin n => t.fileAt j.val) = fun j : Fin n => s.fileAt j.val := by
      funext j
      simp only [Fs.fileAt, Fs.present, h.slots, ht.slots, hinode j j.isLt, hvalue j j.isLt]
    rw [htable]
    exact h.table
  zeros i hi hfree := by
    rw [hinode i hi] at hfree
    rw [hvalue i hi]
    exact h.zeros i hi hfree

/-- The entry of a key is that of the slot `kvfs_lookup` finds. -/
theorem entry_of_lookupKey (h : Represents n s m) {key : Key} (hfound : s.lookupKey key = some i) :
    ∃ hi : i < n, m.entry key = some (⟨i, hi⟩, ⟨s.valueAt i, (s.inodeAt i).timestamp⟩) := by
  obtain ⟨hi, hused, hkey⟩ := of_lookupKey hfound
  rw [h.slots] at hi
  have hfile := h.fileAt_used hi hused
  rw [hkey] at hfile
  exact ⟨hi, h.table.entry_eq (i := ⟨i, hi⟩) hfile⟩

theorem entry_eq_none (h : Represents n s m) {key : Key} (hnone : s.lookupKey key = none) :
    m.entry key = none := by
  rw [lookupKey_eq_none, h.slots] at hnone
  rw [h.table.entry_eq_none]
  intro i v hfile
  simp only [Fs.fileAt] at hfile
  split at hfile
  · next hpresent =>
    simp only [Fs.present, Bool.and_eq_true, decide_eq_true_eq, Bool.not_eq_true'] at hpresent
    rw [Option.some.injEq, Prod.mk.injEq] at hfile
    exact hnone i i.isLt hpresent.2 hfile.1
  · cases hfile

/-- The key of a slot in use is present. -/
theorem mem_keys (h : Represents n s m) (hi : i < n) (hused : (s.inodeAt i).free = false) :
    (s.inodeAt i).key ∈ m.keys := by
  have hentry := h.table.entry_eq (i := ⟨i, hi⟩) (h.fileAt_used hi hused)
  rw [SlotMap.keys, Set.mem_ofPred_eq, hentry]
  exact Option.some_ne_none _

/-! ### The steps -/

/-- A file is created in a free slot. -/
theorem createFile (h : Represents n s m) {freelist : List ℕ} (hi : i < n)
    (hfree : s.freelist = 32 * i :: freelist) (hempty : s.inodeAt i = .empty) {key : Key}
    (hkey : m.entry key = none) (timestamp : UInt64) :
    ∃ hslot : m.Free ⟨i, hi⟩, Represents n (s.createFile i (newInode key timestamp))
      (m.insert key ⟨i, hi⟩ ⟨List.replicate 4096 0, timestamp⟩ hslot) := by
  have ht := h.toConsistent.createFile hfree (newInode_active key timestamp)
  have hinode : ∀ j, (s.createFile i (newInode key timestamp)).inodeAt j =
      if j = i then newInode key timestamp else s.inodeAt j := fun j =>
    Fs.inodeAt_createFile h.wf (by rw [h.slots]; exact hi)
  have hvalue : ∀ j, (s.createFile i (newInode key timestamp)).valueAt j = s.valueAt j :=
    fun j => Fs.valueAt_createFile h.wf (by rw [h.slots]; exact hi)
  have hfreeSlot : (s.inodeAt i).free = true := by rw [hempty]; rfl
  have hslot : m.Free ⟨i, hi⟩ := h.table.free_iff.mpr (Fs.fileAt_free hfreeSlot)
  refine ⟨hslot, ht, ?_, fun j hj hjfree => ?_⟩
  · rw [table_update h.toConsistent ht ⟨i, hi⟩ (fun j _ hji => by rw [hinode, if_neg hji])
      fun j _ _ => hvalue j,
      ht.fileAt_used hi (by rw [hinode, if_pos rfl]; exact (newInode_active _ _).not_free),
      hinode, if_pos rfl, hvalue, h.zeros i hi hfreeSlot]
    exact h.table.insert hkey hslot
  · rw [hinode] at hjfree
    rw [hvalue]
    by_cases hji : j = i
    · rw [hji]
      exact h.zeros i hi hfreeSlot
    · rw [if_neg hji] at hjfree
      exact h.zeros j hj hjfree

/-- A file is removed. -/
theorem removeFile (h : Represents n s m) (hi : i < n) (hused : (s.inodeAt i).free = false)
    (hhash : (32 * i, vp) ∈ s.hash) :
    Represents n (s.removeFile vp i) (m.erase (s.inodeAt i).key) := by
  have ht := h.toConsistent.removeFile hi hused hhash
  have hinode : ∀ j < n, (s.removeFile vp i).inodeAt j =
      if j = i then .empty else s.inodeAt j := fun j hj =>
    Fs.inodeAt_removeFile h.wf (by rw [h.slots]; exact hi) (by rw [h.slots]; exact hj)
  have hvalue : ∀ j, (s.removeFile vp i).valueAt j =
      if j = i then List.replicate 4096 0 else s.valueAt j := fun j =>
    Fs.valueAt_removeFile h.wf (by rw [h.slots]; exact hi)
  refine ⟨ht, ?_, fun j hj hjfree => ?_⟩
  · rw [table_update h.toConsistent ht ⟨i, hi⟩ (fun j hj hji => by rw [hinode j hj, if_neg hji])
      fun j _ hji => by rw [hvalue, if_neg hji]]
    rw [Fs.fileAt_free (by rw [hinode i hi, if_pos rfl]; rfl)]
    exact h.table.erase (i := ⟨i, hi⟩) (h.fileAt_used hi hused)
  · rw [hinode j hj] at hjfree
    rw [hvalue]
    by_cases hji : j = i
    · rw [if_pos hji]
    · rw [if_neg hji] at hjfree ⊢
      exact h.zeros j hj hjfree

/-- A change of the inode of a file is one of its entry. -/
theorem updateFile (h : Represents n s m) (hi : i < n)
    (hx : x.Active) (ht : Consistent n (s.updateFile vp i x))
    (htable : m'.Tabled (Function.update (fun j : Fin n => s.fileAt j.val) ⟨i, hi⟩
      (some (x.key, ⟨s.valueAt i, x.timestamp⟩)))) : Represents n (s.updateFile vp i x) m' := by
  have hinode : ∀ j, (s.updateFile vp i x).inodeAt j = if j = i then x else s.inodeAt j :=
    fun j => Fs.inodeAt_updateFile
  have hvalue : ∀ j, (s.updateFile vp i x).valueAt j = s.valueAt j := fun j =>
    Fs.valueAt_updateFile h.wf (by rw [h.slots]; exact hi)
  refine ⟨ht, ?_, fun j hj hjfree => ?_⟩
  · rw [table_update h.toConsistent ht ⟨i, hi⟩ (fun j _ hji => by rw [hinode, if_neg hji])
      fun j _ _ => hvalue j, ht.fileAt_used hi (by rw [hinode, if_pos rfl]; exact hx.not_free),
      hinode, if_pos rfl, hvalue]
    exact htable
  · rw [hinode] at hjfree
    rw [hvalue]
    by_cases hji : j = i
    · rw [if_pos hji, hx.not_free] at hjfree
      cases hjfree
    · rw [if_neg hji] at hjfree
      exact h.zeros j hj hjfree

/-- Bytes are written to the value of a file. -/
theorem putData (h : Represents n s m) (hi : i < n) (hused : (s.inodeAt i).free = false)
    {off : ℕ} {xs : List UInt8} (hfit : off + xs.length ≤ 4096) :
    Represents n (s.putData i off xs)
      (m.adjust (s.inodeAt i).key fun v => { v with bytes := overwrite v.bytes off xs }) := by
  have ht := h.toConsistent.putData (i := i) off xs
  have hinode : ∀ j < n, (s.putData i off xs).inodeAt j = s.inodeAt j := fun j hj =>
    Fs.inodeAt_putData h.wf (by rw [h.slots]; exact hj)
  have hother : ∀ j, j ≠ i → (s.putData i off xs).valueAt j = s.valueAt j := fun j hji =>
    KvfsMount.valueAt_putData_of_ne hji hfit
  have hvalue : (s.putData i off xs).valueAt i = overwrite (s.valueAt i) off xs :=
    get_put_overwrite hfit
  refine ⟨ht, ?_, fun j hj hjfree => ?_⟩
  · rw [table_update h.toConsistent ht ⟨i, hi⟩ (fun j hj _ => hinode j hj)
      fun j _ hji => hother j hji, ht.fileAt_used hi (by rw [hinode i hi]; exact hused),
      hinode i hi, hvalue]
    have htable := h.table.adjust (i := ⟨i, hi⟩) (h.fileAt_used hi hused)
      fun v => { v with bytes := overwrite v.bytes off xs }
    simp only at htable
    exact htable
  · rw [hinode j hj] at hjfree
    rw [hother j fun hji => by rw [hji, hused] at hjfree; cases hjfree]
    exact h.zeros j hj hjfree

theorem keyOf_slot (hfile : s.vnodes vp = some (.file (s.slotNode i x))) :
    s.keyOf vp = some x.key := by
  simp only [Fs.keyOf, hfile]
  rfl

theorem slotOf_slot (hfile : s.vnodes vp = some (.file (s.slotNode i x))) :
    s.slotOf vp = some i := by
  have hdiv : 32 * i / 32 = i := Nat.mul_div_cancel_left i (by decide)
  simp only [Fs.slotOf, hfile, Fs.slotNode, hdiv]

theorem keyOf_root (hroot : s.vnodes vp = some .root) : s.keyOf vp = none := by
  simp only [Fs.keyOf, hroot]

/-- A vnode of a slot is handed out; the map does nothing. -/
theorem vget_same (h : Represents n s m) (hi : i < n) : Represents n (kvfsVget s (32 * i)).1 m := by
  have ht := h.toConsistent.vget_keep hi
  rcases h.vget i with ⟨vp, -, hres⟩ | ⟨-, hres⟩ | ⟨-, -, hres⟩
  · rw [hres]
    exact h
  · rw [hres] at ht ⊢
    exact h.same ht (fun _ _ => rfl) fun _ _ => rfl
  · rw [hres] at ht ⊢
    exact h.same ht (fun _ _ => rfl) fun _ _ => rfl

theorem root_same (h : Represents n s m) : Represents n (kvfsRoot s).1 m := by
  have ht := h.toConsistent.root_keep
  cases hget : s.vfsHashGet kvfsRootIno with
  | some vp =>
    rw [kvfsRoot, kvfsVgetInternal_cached hget]
    exact h
  | none =>
    rw [kvfsRoot, kvfsVgetInternal_root hget] at ht ⊢
    exact h.same ht (fun _ _ => rfl) fun _ _ => rfl

/-- The slot whose vnode is handed out for a key that is found. -/
theorem slotOf_vget (h : Represents n s m) (hused : (s.inodeAt i).free = false) :
    ∃ vp, (kvfsVget s (32 * i)).2 = .ok vp ∧ (kvfsVget s (32 * i)).1.slotOf vp = some i := by
  rcases h.vget i with ⟨vp, hhash, hres⟩ | ⟨hfree, -⟩ | ⟨-, -, hres⟩
  · rw [hres]
    exact ⟨vp, rfl, slotOf_slot (h.file_of_hash hhash)⟩
  · rw [hused] at hfree
    cases hfree
  · rw [hres]
    refine ⟨s.nextVp, rfl, slotOf_slot (x := s.inodeAt i) ?_⟩
    exact Function.update_self _ _ _

/-- A lookup of a name is one of its key. -/
theorem lookup (h : Represents n s m) {vdp : ℕ} (hroot : s.vnodes vdp = some .root)
    {cnp : ComponentName} (hname : LowerHex cnp.name) :
    let res := kvfsLookup s vdp cnp
    MapStep m (event s (.lookup vdp cnp) (.vnode res.2) res.1) m ∧ Represents n res.1 m := by
  have heq := kvfsLookup_key h.wf hroot hname.length (strToKey_lower hname)
  have hstep := MapStep.lookup m (nameKey cnp.name)
  cases hfound : s.lookupKey (nameKey cnp.name) with
  | none =>
    rw [h.entry_eq_none hfound] at hstep
    simp only [heq, hfound]
    refine ⟨?_, h⟩
    split <;> exact hstep
  | some i =>
    obtain ⟨hi, hentry⟩ := h.entry_of_lookupKey hfound
    obtain ⟨vp, hvp, hslot⟩ := h.slotOf_vget (of_lookupKey hfound).2.1
    rw [hentry] at hstep
    simp only [heq, hfound, hvp]
    refine ⟨?_, h.vget_same hi⟩
    simp only [event, hslot]
    exact hstep

/-- A name is created, or there is no slot for it. -/
theorem create (h : Represents n s m) {dvp : ℕ} {name : Name} {ts : Timespec}
    (hok : Promised s (.create dvp name ts)) (hname : LowerHex name) :
    let res := kvfsCreate s name ts
    ∃ m', MapStep m (event s (.create dvp name ts) (.vnode res.2) res.1) m' ∧
      Represents n res.1 m' := by
  obtain ⟨key, -, hkey, hnone⟩ := h.key_of_lookup hok.1 hok.2
  have hlower := strToKey_lower hname
  rw [show strToKey name = some key from hkey, Option.some.injEq] at hlower
  have hentry := h.entry_eq_none hnone
  rcases h.toConsistent.create hkey ts with ⟨hnil, hres⟩ | ⟨i, hi, freelist, hfree, hempty, hres⟩
  · simp only [hres]
    have hfull : m.keys.ncard = n := by
      rw [SlotMap.ncard_keys_eq]
      intro j hj
      rw [h.table.free_iff] at hj
      cases hjfree : (s.inodeAt j).free with
      | true =>
        have hmem := (h.mem _).mpr ⟨j, j.isLt, rfl, hjfree⟩
        rw [hnil] at hmem
        cases hmem
      | false =>
        rw [h.fileAt_used j.isLt hjfree] at hj
        cases hj
    refine ⟨m, ?_, h⟩
    simp only [event, ← hlower]
    exact .full _ hentry hfull
  · simp only [hres]
    obtain ⟨hslot, hrep⟩ := h.createFile hi hfree hempty hentry (timespecToUint64 ts)
    refine ⟨_, ?_, hrep⟩
    have hslotOf : (s.createFile i (newInode key (timespecToUint64 ts))).slotOf s.nextVp = some i :=
      slotOf_slot Fs.vnodes_createFile
    simp only [event, hslotOf, ← hlower]
    exact .create _ hentry hslot

/-- A file is renamed. -/
theorem rename (h : Represents n s m) {tdvp : ℕ} {tvp : Option ℕ} {name : Name}
    (hok : Promised s (.rename vp tdvp tvp name)) (hname : LowerHex name) :
    ∃ t m', kvfsRename s vp tvp name = some (t, none) ∧
      MapStep m (event s (.rename vp tdvp tvp name) (.status none) t) m' ∧ Represents n t m' := by
  have hlower := strToKey_lower hname
  cases tvp with
  | none =>
    obtain ⟨key, i, hi, hkey, hnone, hused, hhash, hfile, hres⟩ := h.renameNew hok
    rw [hkey, Option.some.injEq] at hlower
    have hentry := h.entry_eq_none hnone
    have hactive := h.active i hi hused
    have hx : ({ s.inodeAt i with key := key } : Inode).Active := ⟨hactive.flags, hactive.refCount⟩
    have hne : (s.inodeAt i).key ≠ key :=
      (lookupKey_eq_none.mp hnone) i (by rw [h.slots]; exact hi) hused
    refine ⟨_, m.rekey (s.inodeAt i).key key, hres, ?_, ?_⟩
    · simp only [event, keyOf_slot hfile, ← hlower]
      exact .rename (h.mem_keys hi hused) hne
    · exact h.updateFile hi hx (h.toConsistent.updateFile hused hfile hx (Or.inl hhash))
        (h.table.rekey (i := ⟨i, hi⟩) (h.fileAt_used hi hused) hentry)
  | some tvp =>
    obtain ⟨key, i, hi, j, hj, hkey, hfound, hij, hused, hhash, hfile, hjused, hjhash, hvp, hres⟩ :=
      h.renameOver hok
    rw [hkey, Option.some.injEq] at hlower
    have hjkey := (of_lookupKey hfound).2.2
    have hactive := h.active i hi hused
    have hx : ({ s.inodeAt i with key := key } : Inode).Active := ⟨hactive.flags, hactive.refCount⟩
    have hi' := h.table.entry_eq (i := ⟨i, hi⟩) (h.fileAt_used hi hused)
    have hj' := h.table.entry_eq (i := ⟨j, hj⟩) (h.fileAt_used hj hjused)
    have hne : (s.inodeAt i).key ≠ key := by
      rintro heq
      rw [hjkey, ← heq, hi', Option.some.injEq, Prod.mk.injEq, Fin.mk.injEq] at hj'
      exact hij hj'.1
    refine ⟨_, m.rekey (s.inodeAt i).key key, hres, ?_, ?_⟩
    · simp only [event, keyOf_slot hfile, ← hlower]
      exact .rename (h.mem_keys hi hused) hne
    · have hremoved := h.removeFile hj hjused hjhash
      have hinode : (s.removeFile tvp j).inodeAt i = s.inodeAt i := by
        rw [Fs.inodeAt_removeFile h.wf (by rw [h.slots]; exact hj) (by rw [h.slots]; exact hi),
          if_neg hij]
      have hkept : ((s.removeFile tvp j).inodeAt i).free = false := by rw [hinode, hused]
      have htable := hremoved.table.rekey (i := ⟨i, hi⟩) (hremoved.fileAt_used hi hkept)
        (by rw [hjkey]; exact Function.update_self _ _ _)
      have hsame : ((s.removeFile tvp j).inodeAt i).key = (s.inodeAt i).key := by rw [hinode]
      simp only at htable
      rw [hsame, hjkey, SlotMap.erase_rekey m hne, hinode] at htable
      exact hremoved.updateFile hi hx (h.toConsistent.replaceFile hi hj hij hused hhash hfile hjused
        hjhash hvp hx) htable

/-- The timestamp of a file is set. -/
theorem setattr (h : Represents n s m) {vaMtime : Timespec} {r : Reply}
    (hok : Promised s (.setattr vp vaMtime))
    (hrun : exec s (.setattr vp vaMtime) = some (t, r)) :
    ∃ m', MapStep m (event s (.setattr vp vaMtime) r t) m' ∧ Represents n t m' := by
  rcases hok with hroot | hlive
  · simp only [exec, kvfsSetattr, hroot, Option.map_some, Option.some.injEq,
      Prod.mk.injEq] at hrun
    obtain ⟨rfl, rfl⟩ := hrun
    simp only [event, keyOf_root hroot]
    exact ⟨m, .idle m, h⟩
  · obtain ⟨i, hi, hused, hhash, hfile⟩ := h.slot_of_live hlive
    simp only [exec, kvfsSetattr_slot h.wf hfile, Option.map_some, Option.some.injEq,
      Prod.mk.injEq] at hrun
    obtain ⟨rfl, rfl⟩ := hrun
    simp only [event, keyOf_slot hfile]
    by_cases htime : vaMtime.tvSec = -1
    · rw [if_neg (not_not.mpr htime), if_pos htime]
      exact ⟨m, .idle m, h⟩
    · rw [if_pos htime, if_neg htime]
      have hactive := h.active i hi hused
      have hx : ({ s.inodeAt i with timestamp := timespecToUint64 vaMtime } : Inode).Active :=
        ⟨hactive.flags, hactive.refCount⟩
      have htable := h.table.adjust (i := ⟨i, hi⟩) (h.fileAt_used hi hused)
        fun v => { v with timestamp := timespecToUint64 vaMtime }
      simp only at htable
      exact ⟨_, .setattr _ (h.mem_keys hi hused), h.updateFile hi hx
        (h.toConsistent.updateFile hused hfile hx (Or.inl hhash)) htable⟩

/-- A part of the value of a file is written. -/
theorem write (h : Represents n s m) {ioAppend kept : Bool} {offset : ℕ} {data : List UInt8}
    {fault : Option ℕ} {r : Reply} (hok : Promised s (.write vp ioAppend offset data fault kept))
    (hrun : exec s (.write vp ioAppend offset data fault kept) = some (t, r)) :
    ∃ m', MapStep m (event s (.write vp ioAppend offset data fault kept) r t) m' ∧
      Represents n t m' := by
  simp only [exec, Option.map_eq_some_iff, Prod.mk.injEq] at hrun
  obtain ⟨r', hrun', rfl, rfl⟩ := hrun
  rcases hok with hroot | hlive
  · simp only [kvfsWrite, hroot, Option.some.injEq] at hrun'
    subst hrun'
    simp only [event, keyOf_root hroot]
    exact ⟨m, .idle m, h⟩
  · obtain ⟨i, hi, hused, hhash, hfile⟩ := h.slot_of_live hlive
    simp only [event, keyOf_slot hfile]
    rcases kvfsWrite_slot h.wf hfile hrun' with ⟨hstores, ht⟩ | ⟨hstores, hfit, ht⟩
    · rw [ht, if_neg hstores]
      exact ⟨m, .idle m, h⟩
    · rw [ht, if_pos hstores]
      exact ⟨_, .write (h.mem_keys hi hused) hfit, h.putData hi hused hfit⟩

/-- A guarded call is a step of the map. -/
theorem step (h : Represents n s m) {c : Call} {r : Reply} (hok : NamedRuns s c)
    (hrun : exec s c = some (t, r)) : ∃ m', MapStep m (event s c r t) m' ∧ Represents n t m' := by
  obtain ⟨hok, hnamed⟩ := hok
  cases c with
  | root =>
    simp only [exec, Option.some.injEq, Prod.mk.injEq] at hrun
    obtain ⟨rfl, rfl⟩ := hrun
    refine ⟨m, ?_, h.root_same⟩
    cases hget : s.vfsHashGet kvfsRootIno with
    | some vp =>
      rw [kvfsRoot, kvfsVgetInternal_cached hget]
      exact .idle m
    | none =>
      rw [kvfsRoot, kvfsVgetInternal_root hget]
      exact .idle m
  | vget ino =>
    obtain ⟨i, hi, rfl⟩ := hok
    simp only [exec, Option.some.injEq, Prod.mk.injEq] at hrun
    obtain ⟨rfl, rfl⟩ := hrun
    rw [h.slots] at hi
    exact ⟨m, .idle m, h.vget_same hi⟩
  | lookup vdp cnp =>
    simp only [exec, Option.some.injEq, Prod.mk.injEq] at hrun
    obtain ⟨rfl, rfl⟩ := hrun
    exact ⟨m, h.lookup hok hnamed⟩
  | create dvp name ts =>
    simp only [exec, Option.some.injEq, Prod.mk.injEq] at hrun
    obtain ⟨rfl, rfl⟩ := hrun
    exact h.create hok hnamed
  | remove vp =>
    obtain ⟨i, hi, hused, hhash, hfile, hres⟩ := h.remove hok
    simp only [exec, hres, Option.map_some, Option.some.injEq, Prod.mk.injEq] at hrun
    obtain ⟨rfl, rfl⟩ := hrun
    refine ⟨_, ?_, h.removeFile hi hused hhash⟩
    simp only [event, keyOf_slot hfile]
    exact .remove (h.mem_keys hi hused)
  | rename fvp tdvp tvp name =>
    obtain ⟨t', m', hres, hstep, hrep⟩ := h.rename hok hnamed
    simp only [exec, hres, Option.map_some, Option.some.injEq, Prod.mk.injEq] at hrun
    obtain ⟨rfl, rfl⟩ := hrun
    exact ⟨m', hstep, hrep⟩
  | setattr vp vaMtime => exact h.setattr hok hrun
  | read vp offset resid fault =>
    simp only [exec, Option.map_eq_some_iff, Prod.mk.injEq] at hrun
    obtain ⟨-, -, rfl, rfl⟩ := hrun
    exact ⟨m, .idle m, h⟩
  | write vp ioAppend offset data fault kept => exact h.write hok hrun
  | reclaim vp =>
    simp only [exec, Option.some.injEq, Prod.mk.injEq] at hrun
    obtain ⟨rfl, rfl⟩ := hrun
    have hdisk : (kvfsReclaim s vp).mp = s.mp ∧ (kvfsReclaim s vp).disk = s.disk := by
      rw [kvfsReclaim]
      split <;> exact ⟨rfl, rfl⟩
    refine ⟨m, .idle m, h.same (h.toConsistent.reclaim vp) (fun j _ => ?_) fun j _ => ?_⟩
    · rw [Fs.inodeAt, Fs.inodeAt, hdisk.1, hdisk.2]
    · rw [Fs.valueAt, Fs.valueAt, hdisk.1, hdisk.2]
  | remount => exact hok.elim

/-- The first mount represents the empty map. -/
theorem init (h : (kvfs n).init s) : Represents n s SlotMap.empty := by
  have hs := Consistent.init h
  obtain ⟨hn, d, hformat, rfl⟩ := kvfs_init h
  refine ⟨hs, SlotMap.Tabled.of_empty fun i => ?_, fun i hi _ => hformat.value i hi⟩
  have hempty : (mountState n d).inodeAt i.val = .empty := hformat.inode i i.isLt
  exact Fs.fileAt_free (by rw [hempty]; rfl)

end Represents

/-- The map simulates the calls of the file system. -/
theorem namedKvfs_simulation (n : ℕ) :
    Machine.Simulation (namedKvfs n) (fun _ _ => True) (keyMap n) (Represents n) where
  init _ hs := ⟨SlotMap.empty, rfl, Represents.init hs⟩
  step := by
    rintro s ev t m h - ⟨c, r, hok, hrun, rfl⟩
    exact h.step hok hrun

/-- A call that copies bytes from or to user space, which may leave its buffer. -/
def Call.Copies : Call → Prop
  | .read _ _ _ _ => True
  | .write _ _ _ _ _ _ => True
  | _ => False

/-- The other calls return. -/
theorem Represents.returns {m : KeyMap n} (h : Represents n s m) {c : Call} (hok : NamedRuns s c)
    (hc : ¬c.Copies) : ∃ t r, exec s c = some (t, r) := by
  obtain ⟨hok, hnamed⟩ := hok
  cases c with
  | root => exact ⟨_, _, rfl⟩
  | vget ino => exact ⟨_, _, rfl⟩
  | lookup vdp cnp => exact ⟨_, _, rfl⟩
  | create dvp name ts => exact ⟨_, _, rfl⟩
  | remove vp =>
    obtain ⟨i, -, -, -, -, hres⟩ := h.remove hok
    rw [exec, hres]
    exact ⟨_, _, rfl⟩
  | rename fvp tdvp tvp name =>
    obtain ⟨t, -, hres, -⟩ := h.rename hok hnamed
    rw [exec, hres]
    exact ⟨_, _, rfl⟩
  | setattr vp vaMtime =>
    rcases hok with hroot | hlive
    · simp only [exec, kvfsSetattr, hroot]
      exact ⟨_, _, rfl⟩
    · obtain ⟨i, -, -, -, hfile⟩ := h.slot_of_live hlive
      rw [exec, kvfsSetattr_slot h.wf hfile]
      exact ⟨_, _, rfl⟩
  | reclaim vp => exact ⟨_, _, rfl⟩
  | read vp offset resid fault => exact absurd trivial hc
  | write vp ioAppend offset data fault kept => exact absurd trivial hc
  | remount => exact hok.elim

/-- Within a mount of a freshly formatted device the namespace is a finite map: every run of
promised calls on names of lower-case digits is, call by call and reply by reply, a run of
the map from the empty one, whose entries are the slots in use with their keys, values and
timestamps. No two slots in use have the same key, and every such call that copies nothing
returns. -/
theorem namespace_refines_map (n : ℕ) :
    (∀ s evs t, (namedKvfs n).init s → (namedKvfs n).Run (fun _ _ => True) s evs t →
      ∃ m : KeyMap n, (keyMap n).Run (fun _ _ => True) SlotMap.empty evs m ∧
        ∀ key (i : Fin n) v, m.entry key = some (i, v) ↔ t.fileAt i = some (key, v)) ∧
    ∀ s, (namedKvfs n).Reachable (fun _ _ => True) s →
      (∀ i j, s.present i = true → s.present j = true →
        (s.inodeAt i).key = (s.inodeAt j).key → i = j) ∧
      ∀ c, NamedRuns s c → ¬c.Copies → ∃ t r, exec s c = some (t, r) := by
  have hsim := namedKvfs_simulation n
  refine ⟨fun s evs t hinit hrun => ?_, fun s hreach => ?_⟩
  · obtain ⟨m, hmap, hrep⟩ := hsim.run hrun (Represents.init hinit)
    exact ⟨m, hmap, hrep.table⟩
  · obtain ⟨m, hrep⟩ : ∃ m, Represents n s m := by
      refine hreach.invariant (fun s hs => (hsim.init s hs).imp fun _ hm => hm.2) ?_
      rintro s ev t ⟨m, hm⟩ - hstep
      obtain ⟨m', -, hm'⟩ := hsim.step _ _ _ _ hm trivial hstep
      exact ⟨m', hm'⟩
    refine ⟨fun i j hi hj hkey => ?_, fun c hok hc => hrep.returns hok hc⟩
    simp only [Fs.present, Bool.and_eq_true, decide_eq_true_eq, Bool.not_eq_true', hrep.slots]
      at hi hj
    have hi' := hrep.table.entry_eq (i := ⟨i, hi.1⟩) (hrep.fileAt_used hi.1 hi.2)
    have hj' := hrep.table.entry_eq (i := ⟨j, hj.1⟩) (hrep.fileAt_used hj.1 hj.2)
    rw [hkey, hj', Option.some.injEq, Prod.mk.injEq, Fin.mk.injEq] at hi'
    exact hi'.1.symm

/-- The name of zeros is created in slot 0 of a device with one block. -/
theorem namespace_refines_map_one : ∃ m : KeyMap 1,
    (keyMap 1).Run (fun _ _ => True) SlotMap.empty
      [.idle, .create (nameKey (digitName 48)) 0 (some 0)] m ∧
    ∀ key (i : Fin 1) v, m.entry key = some (i, v) ↔ oneFileFs.fileAt i = some (key, v) := by
  have hslot : oneFileFs.slotOf rootFs.nextVp = some 0 := by
    rw [oneFileFs]
    exact Represents.slotOf_slot Fs.vnodes_createFile
  have hroot : (namedKvfs 1).Run (fun _ _ => True) freshFs ([] ++ [.idle]) rootFs :=
    .snoc (.nil freshFs) trivial ⟨.root, _, ⟨trivial, trivial⟩, exec_freshFs, rfl⟩
  have hcreate : (namedKvfs 1).step rootFs (.create (nameKey (digitName 48)) 0 (some 0))
      oneFileFs := by
    refine ⟨_, _, ⟨create_promised_rootFs, lowerHex_zero⟩, exec_rootFs, ?_⟩
    simp only [event, hslot]
    rfl
  exact (namespace_refines_map 1).1 _ _ _ freshFs_init (.snoc hroot trivial hcreate)

end EmbeddedOs.Kvfs
