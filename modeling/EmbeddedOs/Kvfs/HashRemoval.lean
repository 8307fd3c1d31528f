import EmbeddedOs.Kvfs.Unlinked

/-!
# Removals from the vfs hash

`vfs_hash_remove` takes a vnode off the list it is on, and is defined only for a vnode that
is in the hash. The calls of `vfs_hash_insert` and `vfs_hash_remove` that each operation
makes, in their order, are a list; the hash after a call is the hash before it with this list
applied. `kvfs_remove` takes the vnode out of the hash and leaves its `v_data`, so that
`kvfs_reclaim` takes it out once more.
-/

namespace EmbeddedOs.Kvfs

open Lib

variable {n i vp : ℕ} {s t : Fs} {c : Call} {x : Inode}

/-- A change of the vfs hash. -/
inductive HashOp
  /-- `vfs_hash_insert`. -/
  | insert (ino vp : ℕ)
  /-- `vfs_hash_remove`. -/
  | remove (vp : ℕ)

namespace HashOp

/-- The hash as a set of vnodes with their inodes, after a change. -/
def apply (hash : List (ℕ × ℕ)) : HashOp → List (ℕ × ℕ)
  | insert ino vp => (ino, vp) :: hash
  | remove vp => hash.filter fun e => e.2 != vp

/-- A removal is of a vnode that is in the hash. -/
def Defined (hash : List (ℕ × ℕ)) : HashOp → Prop
  | insert _ _ => True
  | remove vp => ∃ ino, (ino, vp) ∈ hash

end HashOp

/-- Each of the removals in a list of changes is of a vnode that is in the hash then. -/
def AllDefined : List (ℕ × ℕ) → List HashOp → Prop
  | _, [] => True
  | hash, op :: ops => op.Defined hash ∧ AllDefined (op.apply hash) ops

/-! ## The changes each operation makes -/

/-- `kvfs_vget_internal` inserts the new vnode, and removes it at `error_exit`. -/
def kvfsVgetInternalOps (s : Fs) (ino : ℕ) (keystr : Option (Name × Timespec)) : List HashOp :=
  match s.vfsHashGet ino with
  | some _ => []
  | none => .insert ino s.nextVp ::
    match (kvfsVgetInternal s ino keystr).2 with
    | .ok _ => []
    | .error _ => [.remove s.nextVp]

/-- `kvfs_lookup` comes to `kvfs_vget` for the first slot with the key. -/
def kvfsLookupOps (s : Fs) (vdp : ℕ) (cnp : ComponentName) : List HashOp :=
  if s.vnodes vdp = some .root ∧ cnp.name.length = 40 then
    match (strToKey cnp.name).bind s.lookupKey with
    | some i => kvfsVgetInternalOps s (32 * i) none
    | none => []
  else []

/-- `kvfs_create` comes to `kvfs_vget_internal` for the first inode of the free list. -/
def kvfsCreateOps (s : Fs) (name : Name) (ts : Timespec) : List HashOp :=
  match s.freelist with
  | [] => []
  | ino :: freelist =>
    let freeByte := inoToFreeByte ino s.mp
    let mask := inoToFreeBitMask ino
    let s := { s with freelist := freelist, freelistCount := s.freelistCount - 1 }
    let s := { s with disk := s.disk.modify (dbtob (btodb freeByte) + freeByte % 512) (· ||| mask) }
    kvfsVgetInternalOps s ino (some (name, ts))

/-- `kvfs_rename` comes to `kvfs_remove` for a target that has a `v_data`. -/
def kvfsRenameOps (s : Fs) (tvp : Option ℕ) (name : Name) : List HashOp :=
  match strToKey name, tvp with
  | some _, some tvp => if s.vnodes tvp = none then [] else [.remove tvp]
  | _, _ => []

/-- `kvfs_reclaim` removes a vnode that has a `v_data`. -/
def kvfsReclaimOps (s : Fs) (vp : ℕ) : List HashOp :=
  if s.vnodes vp = none then [] else [.remove vp]

/-- The changes of the vfs hash that a call makes. -/
def hashOps (s : Fs) : Call → List HashOp
  | .root => kvfsVgetInternalOps s kvfsRootIno none
  | .vget ino => kvfsVgetInternalOps s ino none
  | .lookup vdp cnp => kvfsLookupOps s vdp cnp
  | .create _ name ts => kvfsCreateOps s name ts
  | .remove vp => [.remove vp]
  | .rename _ _ tvp name => kvfsRenameOps s tvp name
  | .reclaim vp => kvfsReclaimOps s vp
  | .setattr _ _ => []
  | .read _ _ _ _ => []
  | .write _ _ _ _ _ _ => []
  | .remount => []

/-- The calls of a run: the promised ones, and `VOP_RECLAIM` of any vnode. -/
def Recycles (s : Fs) (c : Call) : Prop := Promised s c ∨ ∃ vp, c = .reclaim vp

/-- The call removes the file of a vnode. -/
def Call.Removes : Call → ℕ → Prop
  | .remove vp, vp' => vp = vp'
  | .rename _ _ (some tvp) _, vp' => tvp = vp'
  | _, _ => False

/-- The vnode is one whose file an earlier call has removed. -/
def RemovedIn (past : List Call) (vp : ℕ) : Prop := ∃ c ∈ past, c.Removes vp

/-- What a run may do if no vnode is to leave the hash twice: no vnode is reclaimed whose file
was removed. -/
def ReclaimsKept (s : Fs × List Call) (c : Call) : Prop :=
  Recycles s.1 c ∧ ∀ vp, c = .reclaim vp → ¬RemovedIn s.2 vp

/-! ## What a call does to the hash -/

/-- The call neither removes a file nor reclaims a vnode. -/
def Call.KeepsVnodes : Call → Prop
  | .remove _ => False
  | .rename _ _ (some _) _ => False
  | .reclaim _ => False
  | _ => True

theorem Call.KeepsVnodes.not_removes (hc : c.KeepsVnodes) (vp : ℕ) : ¬c.Removes vp := by
  intro hremoves
  cases c with
  | remove _ => exact hc
  | rename _ _ tvp _ =>
    cases tvp with
    | none => exact hremoves
    | some _ => exact hc
  | _ => exact hremoves

theorem Call.KeepsVnodes.not_reclaim (hc : c.KeepsVnodes) (vp : ℕ) : c ≠ .reclaim vp := by
  rintro rfl
  exact hc

/-- What a call does to the hash and to the `v_data` of the vnodes. -/
inductive HashStep (s t : Fs) : Call → List HashOp → Prop
  /-- Nothing. -/
  | keep {c : Call} : c.KeepsVnodes → t.hash = s.hash →
      (∀ vp, t.vnodes vp = none ↔ s.vnodes vp = none) → HashStep s t c []
  /-- A new vnode is lost. -/
  | lost {c : Call} (ino : ℕ) : c.KeepsVnodes → t.hash = s.hash →
      (∀ vp, t.vnodes vp = none ↔ s.vnodes vp = none) →
      HashStep s t c [.insert ino s.nextVp, .remove s.nextVp]
  /-- A vnode is handed out. -/
  | added {c : Call} (ino : ℕ) : c.KeepsVnodes → t.hash = (ino, s.nextVp) :: s.hash →
      (∀ vp, t.vnodes vp = none ↔ vp ≠ s.nextVp ∧ s.vnodes vp = none) →
      HashStep s t c [.insert ino s.nextVp]
  /-- The file of a vnode in the hash is removed. -/
  | removed {c : Call} {ino vp : ℕ} : (∀ vp', c.Removes vp' ↔ vp = vp') →
      (∀ vp, c ≠ .reclaim vp) → (ino, vp) ∈ s.hash →
      t.hash = s.hash.filter (fun e => e.2 != vp) →
      (∀ vp, t.vnodes vp = none ↔ s.vnodes vp = none) → HashStep s t c [.remove vp]
  /-- A vnode without `v_data` is reclaimed. -/
  | reclaimedNone {vp : ℕ} : s.vnodes vp = none → t = s → HashStep s t (.reclaim vp) []
  /-- A vnode with `v_data` is reclaimed. -/
  | reclaimed {vp : ℕ} : s.vnodes vp ≠ none → t.hash = s.hash.filter (fun e => e.2 != vp) →
      (∀ vp', t.vnodes vp' = none ↔ vp' = vp ∨ s.vnodes vp' = none) →
      HashStep s t (.reclaim vp) [.remove vp]

/-- A vnode that is added to the hash has a `v_data`, and the others are as before. -/
theorem Fs.vnodes_addVnode_eq_none (ino : ℕ) {node : Vnode} :
    (s.addVnode ino node).vnodes vp = none ↔ vp ≠ s.nextVp ∧ s.vnodes vp = none := by
  have hvnodes : (s.addVnode ino node).vnodes = Function.update s.vnodes s.nextVp (some node) :=
    rfl
  rw [hvnodes]
  by_cases hvp : vp = s.nextVp
  · simp [hvp]
  · simp [hvp]

/-- A memnode is changed, but no vnode loses it. -/
theorem Fs.vnodes_updateFile_eq_none {vp' : ℕ} {knode : Memnode}
    (hfile : s.vnodes vp = some (.file knode)) :
    (s.updateFile vp i x).vnodes vp' = none ↔ s.vnodes vp' = none := by
  have hvnodes : (s.updateFile vp i x).vnodes =
      Function.update s.vnodes vp (some (.file (s.slotNode i x))) := rfl
  rw [hvnodes]
  by_cases hvp : vp' = vp
  · simp [hvp, hfile]
  · simp [hvp]

theorem kvfsCreateOps_slot {freelist : List ℕ} (h : s.freelist = 32 * i :: freelist) (name : Name)
    (ts : Timespec) : kvfsCreateOps s name ts =
      kvfsVgetInternalOps (s.takeSlot i) (32 * i) (some (name, ts)) := by
  simp only [kvfsCreateOps, h, dbtob_btodb_add_mod, inoToFreeByte_slot, inoToFreeBitMask_slot,
    Fs.takeSlot, List.tail_cons]
  rfl

/-- An inode that has a vnode in the hash is not inserted again. -/
theorem vgetOps_cached {ino : ℕ} (hvp : (ino, vp) ∈ s.hash)
    (keystr : Option (Name × Timespec)) : kvfsVgetInternalOps s ino keystr = [] := by
  unfold kvfsVgetInternalOps
  cases hget : s.vfsHashGet ino with
  | some _ => rfl
  | none => exact absurd hvp (vfsHashGet_eq_none.mp hget vp)

/-- What `kvfs_root` does to the hash. -/
theorem hashStep_root (hc : c.KeepsVnodes) :
    HashStep s (kvfsRoot s).1 c (kvfsVgetInternalOps s kvfsRootIno none) := by
  cases hget : s.vfsHashGet kvfsRootIno with
  | some vp =>
    rw [vgetOps_cached (vfsHashGet_eq_some hget), kvfsRoot, kvfsVgetInternal_cached hget]
    exact .keep hc rfl fun _ => Iff.rfl
  | none =>
    have hops : kvfsVgetInternalOps s kvfsRootIno none = [.insert kvfsRootIno s.nextVp] := by
      unfold kvfsVgetInternalOps
      rw [hget, kvfsVgetInternal_root hget]
    rw [hops, kvfsRoot, kvfsVgetInternal_root hget]
    exact .added _ hc rfl fun _ => Fs.vnodes_addVnode_eq_none _

namespace Consistent

/-- What `kvfs_vget` of a slot does to the hash. -/
theorem hashStep_vget (h : Consistent n s) (i : ℕ) (hc : c.KeepsVnodes) :
    HashStep s (kvfsVget s (32 * i)).1 c (kvfsVgetInternalOps s (32 * i) none) := by
  rcases h.vget i with ⟨vp, hvp, hres⟩ | ⟨hfree, hres⟩ | ⟨-, hnone, hres⟩
  · rw [vgetOps_cached hvp, hres]
    exact .keep hc rfl fun _ => Iff.rfl
  · have hops : kvfsVgetInternalOps s (32 * i) none =
        [.insert (32 * i) s.nextVp, .remove s.nextVp] := by
      unfold kvfsVgetInternalOps
      unfold kvfsVget at hres
      rw [h.vfsHashGet_free hfree, hres]
    rw [hops, hres]
    exact .lost _ hc rfl fun _ => Iff.rfl
  · have hops : kvfsVgetInternalOps s (32 * i) none = [.insert (32 * i) s.nextVp] := by
      unfold kvfsVgetInternalOps
      unfold kvfsVget at hres
      rw [hnone, hres]
    rw [hops, hres]
    exact .added _ hc rfl fun _ => Fs.vnodes_addVnode_eq_none _

/-- What `kvfs_lookup` does to the hash. -/
theorem hashStep_lookup (h : Consistent n s) {vdp : ℕ} (hroot : s.vnodes vdp = some .root)
    (cnp : ComponentName) (hc : c.KeepsVnodes) :
    HashStep s (kvfsLookup s vdp cnp).1 c (kvfsLookupOps s vdp cnp) := by
  unfold kvfsLookupOps
  by_cases hlen : cnp.name.length = 40
  · rw [if_pos ⟨hroot, hlen⟩]
    cases hkey : strToKey cnp.name with
    | none =>
      have hres : (kvfsLookup s vdp cnp).1 = s := by
        rcases kvfsLookup_cases hroot cnp with hres | hres | ⟨key, -, hkey'⟩
        · rw [hres]
        · rw [hres]
        · rw [hkey] at hkey'
          cases hkey'
      rw [hres]
      exact .keep hc rfl fun _ => Iff.rfl
    | some key =>
      rw [kvfsLookup_key h.wf hroot hlen hkey, Option.bind_some]
      cases s.lookupKey key with
      | some i => exact h.hashStep_vget i hc
      | none => exact .keep hc rfl fun _ => Iff.rfl
  · rw [if_neg fun hcond => hlen hcond.2]
    have hres : (kvfsLookup s vdp cnp).1 = s := by
      rcases kvfsLookup_cases hroot cnp with hres | hres | ⟨key, hlen', -⟩
      · rw [hres]
      · rw [hres]
      · exact absurd hlen' hlen
    rw [hres]
    exact .keep hc rfl fun _ => Iff.rfl

/-- What `kvfs_create` does to the hash. -/
theorem hashStep_create (h : Consistent n s) {name : Name} {key : Key}
    (hkey : strToKey name = some key) (ts : Timespec) (hc : c.KeepsVnodes) :
    HashStep s (kvfsCreate s name ts).1 c (kvfsCreateOps s name ts) := by
  rcases h.create hkey ts with ⟨hnil, hres⟩ | ⟨i, -, freelist, hfree, hempty, hres⟩
  · have hops : kvfsCreateOps s name ts = [] := by
      unfold kvfsCreateOps
      rw [hnil]
    rw [hops, hres]
    exact .keep hc rfl fun _ => Iff.rfl
  · have hget : (s.takeSlot i).vfsHashGet (32 * i) = none :=
      h.vfsHashGet_free (by rw [hempty]; rfl)
    have hops : kvfsCreateOps s name ts = [.insert (32 * i) s.nextVp] := by
      rw [kvfsCreateOps_slot hfree]
      unfold kvfsVgetInternalOps
      rw [hget, ← kvfsCreate_slot hfree, hres]
      rfl
    rw [hops, hres]
    have hvnodes : ∀ vp, (s.createFile i (newInode key (timespecToUint64 ts))).vnodes vp = none ↔
        vp ≠ s.nextVp ∧ s.vnodes vp = none := fun _ =>
      Fs.vnodes_addVnode_eq_none (32 * i) (s := (s.takeSlot i).putInode i _)
    exact .added _ hc rfl hvnodes

/-- What `kvfs_rename` does to the hash. -/
theorem hashStep_rename (h : Consistent n s) {tdvp : ℕ} {tvp : Option ℕ} {name : Name}
    (hok : Promised s (.rename vp tdvp tvp name)) {e : Option Errno}
    (hrun : kvfsRename s vp tvp name = some (t, e)) :
    HashStep s t (.rename vp tdvp tvp name) (kvfsRenameOps s tvp name) := by
  unfold kvfsRenameOps
  cases tvp with
  | none =>
    obtain ⟨key, i, -, hkey, -, -, -, hfile, hres⟩ := h.renameNew hok
    rw [hres, Option.some.injEq, Prod.mk.injEq] at hrun
    rw [← hrun.1, hkey]
    exact .keep trivial rfl fun _ =>
      Fs.vnodes_updateFile_eq_none hfile
  | some tvp =>
    obtain ⟨key, i, -, j, -, hkey, -, -, -, -, hfile, -, hjhash, -, hres⟩ := h.renameOver hok
    rw [hres, Option.some.injEq, Prod.mk.injEq] at hrun
    obtain ⟨-, -, -, ⟨knode, hknode, -⟩, -⟩ := hok
    have hsome : ¬s.vnodes tvp = none := by simp [hknode]
    simp only [hkey, if_neg hsome]
    rw [← hrun.1]
    exact .removed (fun _ => Iff.rfl) (fun _ heq => by cases heq) hjhash rfl fun _ =>
      Fs.vnodes_updateFile_eq_none (s := s.removeFile tvp j) hfile

/-- What `kvfs_reclaim` does to the hash. -/
theorem hashStep_reclaim (s : Fs) (vp : ℕ) :
    HashStep s (kvfsReclaim s vp) (.reclaim vp) (kvfsReclaimOps s vp) := by
  unfold kvfsReclaim kvfsReclaimOps
  by_cases hnone : s.vnodes vp = none
  · rw [if_pos hnone, if_pos hnone]
    exact .reclaimedNone hnone rfl
  · rw [if_neg hnone, if_neg hnone]
    refine .reclaimed hnone rfl fun vp' => ?_
    have hvnodes : ((s.vfsHashRemove vp).setVnode vp none).vnodes =
      Function.update s.vnodes vp none := rfl
    rw [hvnodes]
    by_cases hvp : vp' = vp
    · simp [hvp]
    · simp [hvp]

/-- What a promised call does to the hash. -/
theorem hashStep_promised (h : Consistent n s) {r : Reply} (hok : Promised s c)
    (hrun : Kvfs.exec s c = some (t, r)) : HashStep s t c (hashOps s c) := by
  cases c with
  | root =>
    simp only [Kvfs.exec, Option.some.injEq, Prod.mk.injEq] at hrun
    rw [← hrun.1]
    exact hashStep_root trivial
  | vget ino =>
    obtain ⟨i, -, rfl⟩ := hok
    simp only [Kvfs.exec, Option.some.injEq, Prod.mk.injEq] at hrun
    rw [← hrun.1]
    exact h.hashStep_vget i trivial
  | lookup vdp cnp =>
    simp only [Kvfs.exec, Option.some.injEq, Prod.mk.injEq] at hrun
    rw [← hrun.1]
    exact h.hashStep_lookup hok cnp trivial
  | create dvp name ts =>
    simp only [Kvfs.exec, Option.some.injEq, Prod.mk.injEq] at hrun
    rw [← hrun.1]
    obtain ⟨key, -, hkey, -⟩ := h.key_of_lookup hok.1 hok.2
    exact h.hashStep_create hkey ts trivial
  | remove vp =>
    obtain ⟨i, -, -, hhash, -, hres⟩ := h.remove hok
    simp only [Kvfs.exec, hres, Option.map_some, Option.some.injEq, Prod.mk.injEq] at hrun
    rw [← hrun.1]
    exact .removed (fun _ => Iff.rfl) (fun _ heq => by cases heq) hhash rfl fun _ => Iff.rfl
  | rename fvp tdvp tvp name =>
    simp only [Kvfs.exec, Option.map_eq_some_iff, Prod.mk.injEq] at hrun
    obtain ⟨r', hrun', rfl, -⟩ := hrun
    exact h.hashStep_rename hok hrun'
  | setattr vp vaMtime =>
    rcases h.setattr hok hrun with ht | ⟨i, -, -, -, hfile, ht⟩
    · rw [ht]
      exact .keep trivial rfl fun _ => Iff.rfl
    · rw [ht]
      exact .keep trivial rfl fun _ => Fs.vnodes_updateFile_eq_none hfile
  | read vp offset resid fault =>
    simp only [Kvfs.exec, Option.map_eq_some_iff, Prod.mk.injEq] at hrun
    obtain ⟨-, -, rfl, -⟩ := hrun
    exact .keep trivial rfl fun _ => Iff.rfl
  | write vp ioAppend offset data fault kept =>
    rcases h.write hok hrun with ht | ⟨i, -, ht⟩
    · rw [ht]
      exact .keep trivial rfl fun _ => Iff.rfl
    · rw [ht]
      exact .keep trivial rfl fun _ => Iff.rfl
  | reclaim vp =>
    simp only [Kvfs.exec, Option.some.injEq, Prod.mk.injEq] at hrun
    rw [← hrun.1]
    exact hashStep_reclaim s vp
  | remount => exact hok.elim

/-- What a call does to the hash. -/
theorem hashStep (h : Consistent n s) {r : Reply} (hok : Recycles s c)
    (hrun : Kvfs.exec s c = some (t, r)) : HashStep s t c (hashOps s c) := by
  rcases hok with hok | ⟨vp, rfl⟩
  · exact h.hashStep_promised hok hrun
  · simp only [Kvfs.exec, Option.some.injEq, Prod.mk.injEq] at hrun
    rw [← hrun.1]
    exact hashStep_reclaim s vp

/-- `kvfs_inactive` leaves the vnodes alone: no memnode has `KVFS_INODE_FREE`. -/
theorem kvfsInactive_eq (h : Consistent n s) (vp : ℕ) : kvfsInactive s vp = s := by
  unfold kvfsInactive
  cases hnode : s.vnodes vp with
  | none => simp only [kvfsReclaim, hnode, if_true]
  | some node =>
    cases node with
    | root => rfl
    | file knode =>
      obtain ⟨i, -, x, hx, rfl⟩ := h.node vp knode hnode
      have hfree : (s.slotNode i x).inode.free = false := hx.not_free
      simp only [hfree, Bool.false_eq_true, if_false]

/-- The calls of these runs keep the invariant. -/
theorem exec_recycles (h : Consistent n s) {r : Reply} (hok : Recycles s c)
    (hrun : Kvfs.exec s c = some (t, r)) : Consistent n t := by
  rcases hok with hok | ⟨vp, rfl⟩
  · exact h.exec hok hrun
  · simp only [Kvfs.exec, Option.some.injEq, Prod.mk.injEq] at hrun
    rw [← hrun.1]
    exact h.reclaim vp

/-- A vnode in the hash has a `v_data`. -/
theorem vnodes_of_hash (h : Consistent n s) {ino : ℕ} (hvp : (ino, vp) ∈ s.hash) :
    s.vnodes vp ≠ none := by
  rcases h.entry ino vp hvp with ⟨-, hroot⟩ | ⟨i, -, -, -, hfile⟩
  · simp [hroot]
  · simp [hfile]

end Consistent

/-! ## The vnodes outside the hash -/

/-- A vnode with a `v_data` is in the hash, or its file was removed; it is not both. -/
structure Tracked (s : Fs) (past : List Call) : Prop where
  /-- A vnode with a `v_data` is in the hash, or its file was removed. -/
  held : ∀ vp, s.vnodes vp ≠ none → (∃ ino, (ino, vp) ∈ s.hash) ∨ RemovedIn past vp
  /-- The vnode of a file that was removed has a `v_data`. -/
  stale : ∀ vp, RemovedIn past vp → s.vnodes vp ≠ none
  /-- The vnode of a file that was removed is not in the hash. -/
  gone : ∀ vp, RemovedIn past vp → ∀ ino, (ino, vp) ∉ s.hash

variable {past : List Call} {ops : List HashOp}

theorem removedIn_append :
    RemovedIn (past ++ [c]) vp ↔ RemovedIn past vp ∨ c.Removes vp := by
  simp only [RemovedIn, List.mem_append, List.mem_singleton]
  constructor
  · rintro ⟨c', hc' | rfl, hremoves⟩
    · exact Or.inl ⟨c', hc', hremoves⟩
    · exact Or.inr hremoves
  · rintro (⟨c', hc', hremoves⟩ | hremoves)
    · exact ⟨c', Or.inl hc', hremoves⟩
    · exact ⟨c, Or.inr rfl, hremoves⟩

namespace HashStep

/-- The hash after a call is the hash before it, with the changes applied. -/
theorem hash (hstep : HashStep s t c ops) (hfresh : ∀ ino, (ino, s.nextVp) ∉ s.hash) :
    t.hash = ops.foldl HashOp.apply s.hash := by
  cases hstep with
  | keep _ hhash _ => exact hhash
  | lost ino _ hhash _ =>
    have hfilter : s.hash.filter (fun e => e.2 != s.nextVp) = s.hash := by
      rw [List.filter_eq_self]
      rintro ⟨ino', vp'⟩ he
      rw [bne_iff_ne]
      rintro rfl
      exact hfresh ino' he
    simp only [List.foldl_cons, List.foldl_nil, HashOp.apply]
    rw [List.filter_cons_of_neg (by simp), hfilter, hhash]
  | added _ _ hhash _ => exact hhash
  | removed _ _ _ hhash _ => exact hhash
  | reclaimedNone _ hsame => rw [hsame, List.foldl_nil]
  | reclaimed _ hhash _ => exact hhash

/-- The removals of a call are of vnodes in the hash if and only if it reclaims no vnode whose
file was removed. -/
theorem allDefined_iff (hstep : HashStep s t c ops) (hs : Tracked s past) :
    AllDefined s.hash ops ↔ ∀ vp, c = .reclaim vp → ¬RemovedIn past vp := by
  cases hstep with
  | keep hc _ _ => exact ⟨fun _ vp heq => absurd heq (hc.not_reclaim vp), fun _ => trivial⟩
  | lost ino hc _ _ =>
    exact ⟨fun _ vp heq => absurd heq (hc.not_reclaim vp),
      fun _ => ⟨trivial, ⟨ino, List.mem_cons_self⟩, trivial⟩⟩
  | added ino hc _ _ =>
    exact ⟨fun _ vp heq => absurd heq (hc.not_reclaim vp), fun _ => ⟨trivial, trivial⟩⟩
  | removed _ hc hmem _ _ =>
    exact ⟨fun _ vp heq => absurd heq (hc vp), fun _ => ⟨⟨_, hmem⟩, trivial⟩⟩
  | reclaimedNone hnone _ =>
    refine ⟨fun _ vp heq hremoved => ?_, fun _ => trivial⟩
    cases heq
    exact hs.stale _ hremoved hnone
  | reclaimed hsome _ _ =>
    constructor
    · rintro ⟨⟨ino, hmem⟩, -⟩ vp heq hremoved
      cases heq
      exact hs.gone _ hremoved ino hmem
    · intro hok
      exact ⟨(hs.held _ hsome).resolve_right (hok _ rfl), trivial⟩

/-- A call that reclaims no vnode whose file was removed keeps track of the vnodes. -/
theorem tracked (hstep : HashStep s t c ops) (hs : Tracked s past)
    (hfresh : s.vnodes s.nextVp = none) (hhash : ∀ ino vp, (ino, vp) ∈ s.hash → s.vnodes vp ≠ none)
    (hok : ∀ vp, c = .reclaim vp → ¬RemovedIn past vp) : Tracked t (past ++ [c]) := by
  have hkeeps : c.KeepsVnodes → ∀ vp, RemovedIn (past ++ [c]) vp ↔ RemovedIn past vp :=
    fun hc vp => by rw [removedIn_append, or_iff_left (hc.not_removes vp)]
  cases hstep with
  | keep hc hsame hnone =>
    constructor <;> intro vp <;> simp only [ne_eq, hkeeps hc, hsame, hnone]
    exacts [hs.held vp, hs.stale vp, hs.gone vp]
  | lost _ hc hsame hnone =>
    constructor <;> intro vp <;> simp only [ne_eq, hkeeps hc, hsame, hnone]
    exacts [hs.held vp, hs.stale vp, hs.gone vp]
  | added ino hc hadd hnone =>
    constructor <;> intro vp <;>
      simp only [ne_eq, hkeeps hc, hadd, hnone, List.mem_cons, Prod.mk.injEq]
    · intro hvp
      by_cases heq : vp = s.nextVp
      · exact Or.inl ⟨ino, Or.inl ⟨rfl, heq⟩⟩
      · refine (hs.held vp fun hn => hvp ⟨heq, hn⟩).imp (fun ⟨ino', hmem⟩ => ⟨ino', Or.inr hmem⟩) id
    · exact fun hremoved hn => hs.stale vp hremoved hn.2
    · rintro hremoved ino' (⟨-, rfl⟩ | hmem)
      · exact hs.stale _ hremoved hfresh
      · exact hs.gone vp hremoved ino' hmem
  | @removed _ ino vp hremoves hc hmem hrem hnone =>
    have hpast : ∀ vp', RemovedIn (past ++ [c]) vp' ↔ RemovedIn past vp' ∨ vp = vp' := fun vp' => by
      rw [removedIn_append, hremoves]
    constructor <;> intro vp' <;>
      simp only [ne_eq, hpast, hrem, hnone, List.mem_filter, bne_iff_ne, not_and, not_not]
    · intro hvp'
      by_cases heq : vp = vp'
      · exact Or.inr (Or.inr heq)
      · exact (hs.held vp' hvp').imp (fun ⟨ino', hmem'⟩ => ⟨ino', hmem', Ne.symm heq⟩) Or.inl
    · rintro (hremoved | rfl)
      · exact hs.stale vp' hremoved
      · exact hhash _ _ hmem
    · rintro (hremoved | rfl) ino' hmem'
      · exact absurd hmem' (hs.gone vp' hremoved ino')
      · rfl
  | @reclaimedNone vp hnone hsame =>
    have hpast : ∀ vp', RemovedIn (past ++ [.reclaim vp]) vp' ↔ RemovedIn past vp' := fun vp' => by
      rw [removedIn_append]
      exact or_iff_left id
    rw [hsame]
    constructor <;> intro vp' <;> rw [hpast]
    exacts [hs.held vp', hs.stale vp', hs.gone vp']
  | @reclaimed vp hsome hrem hnone =>
    have hpast : ∀ vp', RemovedIn (past ++ [.reclaim vp]) vp' ↔ RemovedIn past vp' := fun vp' => by
      rw [removedIn_append]
      exact or_iff_left id
    constructor <;> intro vp' <;>
      simp only [ne_eq, hpast, hrem, hnone, List.mem_filter, bne_iff_ne, not_and, not_not, not_or]
    · rintro ⟨hne, hvp'⟩
      exact (hs.held vp' hvp').imp (fun ⟨ino', hmem'⟩ => ⟨ino', hmem', hne⟩) id
    · intro hremoved
      exact ⟨fun heq => hok vp rfl (heq ▸ hremoved), hs.stale vp' hremoved⟩
    · exact fun hremoved ino' hmem' => absurd hmem' (hs.gone vp' hremoved ino')

end HashStep

/-- What holds after every run that reclaims no vnode whose file was removed. -/
theorem tracked_of_reachable (h : (kvfs n).logged.Reachable ReclaimsKept (s, past)) :
    Consistent n s ∧ Tracked s past := by
  refine h.logged_invariant (I := fun s past => Consistent n s ∧ Tracked s past) ?_ ?_
  · intro s hs
    have hcons := Consistent.init hs
    obtain ⟨-, d, -, rfl⟩ := kvfs_init hs
    exact ⟨hcons, ⟨fun vp hvp => absurd rfl hvp,
      fun vp ⟨_, hmem, _⟩ => absurd hmem List.not_mem_nil,
      fun vp ⟨_, hmem, _⟩ => absurd hmem List.not_mem_nil⟩⟩
  · rintro s past c t ⟨hcons, hs⟩ ⟨hok, hkept⟩ ⟨r, hrun⟩
    exact ⟨hcons.exec_recycles hok hrun, (hcons.hashStep hok hrun).tracked hs
      (hcons.fresh _ le_rfl) (fun _ _ => hcons.vnodes_of_hash) hkept⟩

/-- After every run that reclaims no vnode whose file was removed, the hash after the next
call is the hash with the changes the call makes, and each `vfs_hash_remove` among them is of
a vnode in the hash if and only if the call does not reclaim such a vnode. -/
theorem hash_removals_defined (h : (kvfs n).logged.Reachable ReclaimsKept (s, past)) {r : Reply}
    (hok : Recycles s c) (hrun : exec s c = some (t, r)) :
    t.hash = (hashOps s c).foldl HashOp.apply s.hash ∧
      (AllDefined s.hash (hashOps s c) ↔ ∀ vp, c = .reclaim vp → ¬RemovedIn past vp) := by
  obtain ⟨hcons, hs⟩ := tracked_of_reachable h
  have hstep := hcons.hashStep hok hrun
  exact ⟨hstep.hash fun ino hmem => (hcons.lt_nextVp hmem).ne rfl, hstep.allDefined_iff hs⟩

/-- The calls that lead to the file system with one file. -/
def oneFileCalls : List Call := [.root, .create freshFs.nextVp (digitName 48) ⟨0, 0⟩]

theorem oneFileFs_reachable_logged :
    (kvfs 1).logged.Reachable ReclaimsKept (oneFileFs, oneFileCalls) := by
  refine .step (.step (.init (s := (freshFs, [])) ⟨freshFs_init, rfl⟩)
    (t := (rootFs, [.root])) (a := .root) ⟨Or.inl trivial, fun _ heq => by cases heq⟩
    ⟨⟨_, exec_freshFs⟩, rfl⟩) (a := .create freshFs.nextVp (digitName 48) ⟨0, 0⟩) ⟨?_, ?_⟩ ?_
  · exact Or.inl create_promised_rootFs
  · exact fun _ heq => by cases heq
  · exact ⟨⟨_, exec_rootFs⟩, rfl⟩

/-- The removal of the only file takes its vnode out of the hash. -/
theorem hash_removals_defined_remove :
    removedFs.hash = (hashOps oneFileFs (.remove rootFs.nextVp)).foldl HashOp.apply oneFileFs.hash ∧
      (AllDefined oneFileFs.hash (hashOps oneFileFs (.remove rootFs.nextVp)) ↔
        ∀ vp, Call.remove rootFs.nextVp = .reclaim vp → ¬RemovedIn oneFileCalls vp) :=
  hash_removals_defined oneFileFs_reachable_logged (Or.inl live_oneFileFs) exec_oneFileFs

/-- A file is removed, and its vnode is reclaimed. -/
theorem hash_removals_defined_fails : ¬∀ n s c t r, (kvfs n).Reachable Recycles s → Recycles s c →
    exec s c = some (t, r) → AllDefined s.hash (hashOps s c) := by
  intro hall
  have hreach : (kvfs 1).Reachable Recycles removedFs := removedFs_reachable fun _ _ => Or.inl
  have hdefined := hall 1 removedFs (.reclaim rootFs.nextVp) _ _ hreach (Or.inr ⟨_, rfl⟩) rfl
  have hops : hashOps removedFs (.reclaim rootFs.nextVp) = [.remove rootFs.nextVp] := by
    have hsome : removedFs.vnodes rootFs.nextVp ≠ none := by simp [vnodes_removedFs]
    have hreclaim : kvfsReclaimOps removedFs rootFs.nextVp = [.remove rootFs.nextVp] := if_neg hsome
    exact hreclaim
  rw [hops] at hdefined
  obtain ⟨⟨ino, hmem⟩, -⟩ := hdefined
  rw [removedFs] at hmem
  exact not_mem_hash_removeFile hmem

end EmbeddedOs.Kvfs
