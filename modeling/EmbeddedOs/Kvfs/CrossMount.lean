import EmbeddedOs.Kvfs.FailureAtomicity

/-!
# Renames between mounts

`kvfs_rename` on several mounted devices, each with its own state. A vnode is on a mount. The
check for a rename between mounts sets `error` and goes on, and the next statement assigns
`error` anew, so that such a rename is carried out: the target is removed from its mount, and
the source gets the key on its own. Inside one mount the function is that of the model with a
single device.
-/

namespace EmbeddedOs.Kvfs

open Lib Lib.Bytes

variable {M : Type*} [DecidableEq M] {n i j : ℕ} {x y : Inode} {fss : M → Fs} {fvp tdvp : M × ℕ}
  {tvp : Option (M × ℕ)} {name : Name} {key : Key} {calls : RenameCalls}

/-- `EXDEV`. -/
def exdev : ℤ := 18

/-- The mount of the source is not that of the target directory, or not that of the target. -/
def CrossMount (fvp tdvp : M × ℕ) (tvp : Option (M × ℕ)) : Prop :=
  fvp.1 ≠ tdvp.1 ∨ ∃ target, tvp = some target ∧ fvp.1 ≠ target.1

instance (fvp tdvp : M × ℕ) (tvp : Option (M × ℕ)) : Decidable (CrossMount fvp tdvp tvp) :=
  match tvp with
  | none => decidable_of_iff (fvp.1 ≠ tdvp.1) (by simp [CrossMount])
  | some target =>
    decidable_of_iff (fvp.1 ≠ tdvp.1 ∨ fvp.1 ≠ target.1) (by simp [CrossMount])

/-- `kvfs_rename` of the vnode `fvp` to `name` in the directory `tdvp`, where `tvp` may have the
name. -/
def kvfsRenameMounts (fss : M → Fs) (fvp tdvp : M × ℕ) (tvp : Option (M × ℕ)) (name : Name)
    (calls : RenameCalls) : Option ((M → Fs) × ℤ) :=
  let _error := if CrossMount fvp tdvp tvp then exdev else 0
  -- `error = str_to_key(..)`: what the check has set is lost
  match strToKey name with
  | none => some (fss, Errno.EINVAL.toInt)
  | some testkey =>
    let removed := match tvp with
      | some (m, vp) =>
        if (fss m).vnodes vp = none then some fss
        else (kvfsRemoveCalls (fss m) vp calls.remove).map fun r => Function.update fss m r.1
      | none => some fss
    match removed with
    | none => none
    | some fss =>
      if calls.vnLock ≠ 0 then some (fss, calls.vnLock)
      else
        let s := fss fvp.1
        match s.vnodes fvp.2 with
        | some (.file knode) =>
          let knode := { knode with inode := { knode.inode with key := testkey } }
          let s := s.setVnode fvp.2 (some (.file knode))
          some (Function.update fss fvp.1
            (memnodeUpdateCalls s knode knode.inode calls.update).1, 0)
        | _ => none

/-- The steps after the target is removed, on the state of the mount of the source. -/
theorem kvfsRenameMounts_new (fss : M → Fs) (m : M) (fvp : ℕ) (tdvp : M × ℕ) (name : Name)
    (calls : RenameCalls) : kvfsRenameMounts fss (m, fvp) tdvp none name calls =
      (kvfsRenameCalls (fss m) fvp none name calls).map fun r =>
        (Function.update fss m r.1, r.2) := by
  unfold kvfsRenameMounts kvfsRenameCalls
  cases strToKey name with
  | none => simp only [Option.map_some, Function.update_eq_self]
  | some key =>
    simp only
    by_cases hlock : calls.vnLock = 0
    · simp only [hlock, ne_eq, not_true_eq_false, if_false]
      cases (fss m).vnodes fvp with
      | none => rfl
      | some node => cases node <;> rfl
    · simp only [ne_eq, hlock, not_false_eq_true, if_true, Option.map_some,
        Function.update_eq_self]

/-- The target is removed from its mount first. -/
theorem kvfsRenameMounts_over {m : M} {vp : ℕ} (hkey : strToKey name = some key)
    (hnode : (fss m).vnodes vp ≠ none) :
    kvfsRenameMounts fss fvp tdvp (some (m, vp)) name calls =
      (kvfsRemoveCalls (fss m) vp calls.remove).bind fun r =>
        kvfsRenameMounts (Function.update fss m r.1) fvp tdvp none name calls := by
  simp only [kvfsRenameMounts, hkey, if_neg hnode]
  cases kvfsRemoveCalls (fss m) vp calls.remove <;> rfl

/-- Inside a mount the operation is that on its device. -/
theorem kvfsRenameMounts_same (fss : M → Fs) (m : M) (fvp : ℕ) (tdvp : M × ℕ) (tvp : Option ℕ)
    (name : Name) (calls : RenameCalls) :
    kvfsRenameMounts fss (m, fvp) tdvp (tvp.map (m, ·)) name calls =
      (kvfsRenameCalls (fss m) fvp tvp name calls).map fun r =>
        (Function.update fss m r.1, r.2) := by
  cases tvp with
  | none => exact kvfsRenameMounts_new fss m fvp tdvp name calls
  | some tvp =>
    have hnew := kvfsRenameMounts_new fss m fvp tdvp name calls
    cases hkey : strToKey name with
    | none =>
      simp only [kvfsRenameMounts, kvfsRenameCalls, hkey, Option.map_some,
        Function.update_eq_self]
    | some key =>
      by_cases hnode : (fss m).vnodes tvp = none
      · simp only [kvfsRenameMounts, kvfsRenameCalls, hkey, Option.map_some, if_pos hnode] at hnew ⊢
        exact hnew
      · rw [Option.map_some, kvfsRenameMounts_over hkey hnode]
        cases hrun : kvfsRemoveCalls (fss m) tvp calls.remove with
        | none =>
          simp only [kvfsRenameCalls, hkey, if_neg hnode, hrun, Option.map_none, Option.bind_none]
        | some r =>
          have hgo := kvfsRenameMounts_new (Function.update fss m r.1) m fvp tdvp name calls
          rw [Function.update_self] at hgo
          rw [Option.bind_some, hgo]
          simp only [kvfsRenameCalls, hkey, if_neg hnode, hrun, Option.map_some,
            Function.update_idem]

/-- A rename between mounts removes the target from its mount, and gives the source its key. -/
theorem kvfsRenameMounts_slots (fss : M → Fs) (tdvp : M × ℕ) (calls : RenameCalls) {m m' : M}
    (hne : m ≠ m') {vp target : ℕ} (hwf : (fss m).mp.Wf) (hwf' : (fss m').mp.Wf)
    (hkey : strToKey name = some key) (hj : j < (fss m').mp.slots)
    (hfile : (fss m).vnodes vp = some (.file ((fss m).slotNode i x)))
    (htarget : (fss m').vnodes target = some (.file ((fss m').slotNode j y)))
    (hlock : calls.vnLock = 0) :
    kvfsRenameMounts fss (m, vp) tdvp (some (m', target)) name calls =
      some (Function.update (Function.update fss m' ((fss m').removeWith target j calls.remove)) m
        ((fss m).rekeyWith vp i { x with key := key } calls.update), 0) := by
  have hnode : (fss m').vnodes target ≠ none := by simp [htarget]
  rw [kvfsRenameMounts_over hkey hnode, kvfsRemoveCalls_slot hwf' hj htarget, Option.bind_some,
    kvfsRenameMounts_new, Function.update_of_ne hne, kvfsRenameCalls_new hwf hkey hfile,
    if_neg (not_not.mpr hlock), Option.map_some]

/-! ## What is asked for -/

/-- The request is refused, and no mount changes. -/
def Refused (fss : M → Fs) (fvp tdvp : M × ℕ) (tvp : Option (M × ℕ)) (name : Name)
    (calls : RenameCalls) : Prop :=
  kvfsRenameMounts fss fvp tdvp tvp name calls = some (fss, exdev)

/-- No request is refused: `vn_lock` does not return `EXDEV`. -/
theorem not_refused (hlock : calls.vnLock ≠ exdev) : ¬Refused fss fvp tdvp tvp name calls := by
  intro hrefused
  simp only [Refused, kvfsRenameMounts] at hrefused
  split at hrefused
  · simp [Errno.toInt, exdev] at hrefused
  · split at hrefused
    · cases hrefused
    · split at hrefused
      · rw [Option.some.injEq, Prod.mk.injEq] at hrefused
        exact hlock hrefused.2
      · split at hrefused
        · rw [Option.some.injEq, Prod.mk.injEq] at hrefused
          exact absurd hrefused.2 (by decide)
        · cases hrefused

/-- A request is refused if it is one between mounts: this is so for no request between mounts,
whatever the states of the mounts and whatever the callees return, but that `vn_lock` does not
return `EXDEV`. -/
theorem cross_mount_refused_iff (hlock : calls.vnLock ≠ exdev) :
    (CrossMount fvp tdvp tvp → Refused fss fvp tdvp tvp name calls) ↔
      ¬CrossMount fvp tdvp tvp :=
  ⟨fun h hcross => not_refused hlock (h hcross), fun h hcross => absurd hcross h⟩

/-- Two mounts, each with the file of zeros. -/
def twoMounts : Bool → Fs := fun _ => oneFileFs

theorem cross_mount_refused_iff_two :
    (CrossMount (false, rootFs.nextVp) (true, freshFs.nextVp) (some (true, rootFs.nextVp)) →
      Refused twoMounts (false, rootFs.nextVp) (true, freshFs.nextVp)
        (some (true, rootFs.nextVp)) (digitName 48) noFailures.rename) ↔
      ¬CrossMount (false, rootFs.nextVp) (true, freshFs.nextVp) (some (true, rootFs.nextVp)) :=
  cross_mount_refused_iff (by decide)

/-- A file is renamed to the name of a file on another mount: `kvfs_rename` returns 0, and the
other file is removed. -/
theorem cross_mount_refused_fails : ¬∀ (fss : Bool → Fs) fvp tdvp tvp name,
    (∀ m, (failingKvfs 1).Reachable WithstandingRuns (fss m)) → CrossMount fvp tdvp tvp →
      Refused fss fvp tdvp tvp name noFailures.rename := by
  intro hall
  have hs := consistent_oneFileFs
  have hcross : CrossMount (false, rootFs.nextVp) (true, freshFs.nextVp)
      (some (true, rootFs.nextVp)) := Or.inl Bool.false_ne_true
  have hrefused := hall twoMounts _ _ _ (digitName 48) (fun _ => oneFileFs_withstandingRuns) hcross
  have hslots : 0 < (twoMounts true).mp.slots := by
    have hone : (twoMounts true).mp.slots = 1 := hs.slots
    omega
  have hres := kvfsRenameMounts_slots twoMounts (true, freshFs.nextVp) noFailures.rename
    Bool.false_ne_true hs.wf hs.wf (strToKey_lower lowerHex_zero) hslots vnodes_oneFileFs
    vnodes_oneFileFs rfl
  rw [Refused, hres, Option.some.injEq, Prod.mk.injEq] at hrefused
  have hmount := congrFun hrefused.1 true
  rw [Function.update_of_ne Bool.false_ne_true.symm, Function.update_self] at hmount
  exact absurd (congrArg Fs.freelist hmount) (List.cons_ne_self _ _)

end EmbeddedOs.Kvfs
