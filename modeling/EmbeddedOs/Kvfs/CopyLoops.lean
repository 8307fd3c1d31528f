import EmbeddedOs.Kvfs.Transfers

/-!
# When the copy loops end

The loops of `kvfs_read` and `kvfs_write` as far as `amt` and `uio_resid` go: `amt` is an `int`,
and starts as the low 32 bits of `uio_resid`. If these are zero nothing is ever moved; otherwise
every round moves the same number of bytes, of which there are at most 4096.
-/

namespace EmbeddedOs.Kvfs

open Lib.Bytes

/-- `min` of the kernel, which compares numbers of type `u_int`. -/
def umin (a b : UInt32) : UInt32 := if a < b then a else b

/-- The variables of a copy loop. -/
structure CopyState where
  /-- `amt`. -/
  amt : Int32
  /-- `uio_resid`. -/
  resid : ℕ

/-- The variables before the first round. -/
def CopyState.start (resid : ℕ) : CopyState := ⟨Int32.ofNat resid, resid⟩

/-- A round of a copy loop, where `uiomove` moves the bytes that are left, or `amt` of them. -/
def copyRound (x : CopyState) : CopyState :=
  let amt := (umin x.amt.toUInt32 4096).toInt32
  ⟨amt, x.resid - min amt.toInt.toNat x.resid⟩

/-- A call of `kvfs_read` or `kvfs_write` on a file. -/
inductive CopyCall
  /-- `kvfs_read`. -/
  | read (offset : ℤ) (resid : ℕ)
  /-- `kvfs_write`. -/
  | write (ioAppend : Bool) (offset : ℤ) (resid : ℕ)

namespace CopyCall

/-- `uio_resid` at the start. -/
def resid : CopyCall → ℕ
  | read _ resid => resid
  | write _ _ resid => resid

/-- The checks before the loop do not return. -/
def Enters : CopyCall → Prop
  | read offset resid => ¬offset < 0 ∧ ¬(resid = 0 ∨ 4096 ≤ offset)
  | write ioAppend _ resid => resid ≠ 0 ∧ ioAppend = false

/-- The loop, if the call comes to it, ends after some number of rounds. -/
def Ends (c : CopyCall) : Prop := c.Enters → ∃ n, (copyRound^[n] (.start c.resid)).resid = 0

end CopyCall

/-- The number of bytes that a round moves. -/
def roundBytes (resid : ℕ) : ℕ := min (resid % 2 ^ 32) 4096

theorem toNat_umin (a b : UInt32) : (umin a b).toNat = min a.toNat b.toNat := by
  unfold umin
  split
  · next h => rw [min_eq_left (UInt32.le_iff_toNat_le.mp (UInt32.le_of_lt h))]
  · next h => rw [min_eq_right (UInt32.le_iff_toNat_le.mp (UInt32.not_lt.mp h))]

/-- The minimum is no negative `int`. -/
theorem toInt_umin (a : UInt32) : (umin a 4096).toInt32.toInt.toNat = min a.toNat 4096 := by
  have hmin : (umin a 4096).toNat = min a.toNat 4096 := toNat_umin a 4096
  have hint : (umin a 4096).toInt32.toInt = ((umin a 4096).toNat : ℤ) := by
    change (umin a 4096).toBitVec.toInt = _
    rw [BitVec.toInt_eq_toNat_of_lt]
    · rfl
    · rw [UInt32.toNat_toBitVec, hmin]
      omega
  rw [hint, hmin, Int.toNat_natCast]

/-- A round moves the smaller of `amt`, without its sign, and 4096. -/
theorem copyRound_eq (x : CopyState) : copyRound x =
    ⟨(umin x.amt.toUInt32 4096).toInt32, x.resid - min x.amt.toUInt32.toNat 4096⟩ := by
  simp only [copyRound, toInt_umin, CopyState.mk.injEq, true_and]
  omega

/-- After the first round `amt` stays as it is. -/
theorem copyRound_iterate (resid n : ℕ) : copyRound^[n + 1] (.start resid) =
    ⟨(umin (UInt32.ofNat resid) 4096).toInt32, resid - (n + 1) * roundBytes resid⟩ := by
  induction n with
  | zero =>
    rw [Nat.zero_add, Function.iterate_one, copyRound_eq]
    simp [CopyState.start, roundBytes]
  | succ n ih =>
    have hfirst : (umin (UInt32.ofNat resid) 4096).toNat = roundBytes resid := by
      rw [toNat_umin, UInt32.toNat_ofNat']
      rfl
    have hagain : umin (umin (UInt32.ofNat resid) 4096) 4096 = umin (UInt32.ofNat resid) 4096 := by
      apply UInt32.toNat_inj.mp
      rw [toNat_umin, toNat_umin, Nat.min_assoc, Nat.min_self]
    have hle : roundBytes resid ≤ 4096 := Nat.min_le_right _ _
    rw [Function.iterate_succ_apply', ih, copyRound_eq]
    simp only [UInt32.toUInt32_toInt32, hagain, hfirst, min_eq_left hle, CopyState.mk.injEq,
      true_and]
    rw [Nat.sub_sub, ← Nat.succ_mul]

/-- A copy loop ends if and only if its rounds move bytes, or there are none to move. -/
theorem exists_copyRound_iff (resid : ℕ) : (∃ n, (copyRound^[n] (.start resid)).resid = 0) ↔
    resid = 0 ∨ resid % 2 ^ 32 ≠ 0 := by
  constructor
  · rintro ⟨n, hn⟩
    by_contra hstuck
    obtain ⟨hpos, hmod⟩ := not_or.mp hstuck
    have hzero : roundBytes resid = 0 := by
      unfold roundBytes
      omega
    cases n with
    | zero => exact hpos hn
    | succ n =>
      rw [copyRound_iterate] at hn
      simp only [hzero, Nat.mul_zero, Nat.sub_zero] at hn
      exact hpos hn
  · rintro (hzero | hmod)
    · exact ⟨0, hzero⟩
    · have hpos : 1 ≤ roundBytes resid := by
        unfold roundBytes
        omega
      refine ⟨resid + 1, ?_⟩
      rw [copyRound_iterate]
      have hle : (resid + 1) * 1 ≤ (resid + 1) * roundBytes resid := Nat.mul_le_mul_left _ hpos
      simp only
      omega

/-! ## The loops of the model -/

/-- The loop of `kvfs_read` ends after `fuel` rounds if these move all bytes. -/
theorem isSome_kvfsReadUioLoop {buf : List UInt8} {amt fuel : ℕ} (hamt : amt ≤ buf.length)
    (uio : ReadUio) :
    (kvfsReadUioLoop buf amt fuel uio).isSome ↔ uio.resid ≤ fuel * amt := by
  induction fuel generalizing uio with
  | zero =>
    unfold kvfsReadUioLoop
    split
    · next hdone => simp [hdone]
    · next hleft => simp [hleft]
  | succ fuel ih =>
    unfold kvfsReadUioLoop
    split
    · next hdone => simp [hdone]
    · rw [ih, Nat.succ_mul]
      simp only [uiomove, List.length_take]
      omega

/-- The loop of `kvfs_write` ends after `fuel` rounds if these move all bytes. -/
theorem isSome_kvfsWriteStores {amt fuel : ℕ} (offset : ℕ) (data : List UInt8) :
    (kvfsWriteStores amt fuel offset data none).isSome ↔ data.length ≤ fuel * amt := by
  induction fuel generalizing offset data with
  | zero =>
    unfold kvfsWriteStores
    split
    · next hdone => simp [hdone]
    · next hleft => simpa using hleft
  | succ fuel ih =>
    unfold kvfsWriteStores
    split
    · next hdone => simp [hdone]
    · simp only [moved, Nat.lt_irrefl, if_false, Option.isSome_map, Option.map_none, ih,
        List.length_drop, List.length_take, Nat.succ_mul]
      omega

/-- With as many rounds as bytes, the loop ends if it does at all. -/
theorem le_mul_roundBytes_iff (resid : ℕ) :
    resid ≤ resid * roundBytes resid ↔ resid = 0 ∨ resid % 2 ^ 32 ≠ 0 := by
  by_cases hmod : resid % 2 ^ 32 = 0
  · have hzero : roundBytes resid = 0 := by
      unfold roundBytes
      omega
    rw [hzero]
    omega
  · have hpos : 1 ≤ roundBytes resid := by
      unfold roundBytes
      omega
    have hle : resid * 1 ≤ resid * roundBytes resid := Nat.mul_le_mul_left _ hpos
    simp only [hmod, ne_eq, not_false_eq_true, or_true, iff_true]
    omega

/-- A read of a file returns if and only if its copy loop ends. -/
theorem isSome_kvfsReadUio {s : Fs} {vp : ℕ} {knode : Memnode}
    (hvp : s.vnodes vp = some (.file knode)) (uio : ReadUio) :
    (kvfsReadUio s vp uio).isSome ↔ (CopyCall.read uio.offset uio.resid).Ends := by
  have hle : roundBytes uio.resid ≤ (get s.disk (dbtob knode.lbn) 4096).length := by
    rw [length_get]
    exact Nat.min_le_right _ _
  unfold kvfsReadUio CopyCall.Ends
  simp only [hvp, CopyCall.Enters, CopyCall.resid, exists_copyRound_iff]
  split
  · next hneg => simp [hneg]
  · next hneg =>
    split
    · next hstop => simp [hstop]
    · next hstop =>
      rw [Option.isSome_map]
      change (kvfsReadUioLoop _ (roundBytes uio.resid) uio.resid uio).isSome ↔ _
      rw [isSome_kvfsReadUioLoop hle, le_mul_roundBytes_iff]
      simp [hneg, hstop]

/-- A write to a file returns if and only if its copy loop ends. -/
theorem isSome_kvfsWriteCall (old : ℕ → UInt8) (ioAppend : Bool) (offset : ℕ)
    (data : List UInt8) :
    (kvfsWriteCall old ioAppend offset data none).isSome ↔
      (CopyCall.write ioAppend offset data.length).Ends := by
  unfold kvfsWriteCall CopyCall.Ends
  simp only [CopyCall.Enters, CopyCall.resid, exists_copyRound_iff]
  split
  · next hnil => simp [hnil]
  · next hdata =>
    split
    · next happend => simp [happend]
    · next happend =>
      rw [Option.isSome_map]
      change (kvfsWriteStores (roundBytes data.length) data.length offset data none).isSome ↔ _
      rw [isSome_kvfsWriteStores, le_mul_roundBytes_iff]
      simp [hdata, happend]

/-! ## When they end -/

/-- The copy loops of `kvfs_read` and `kvfs_write` end if and only if the call does not come to
them, or the number of bytes is no multiple of 2³². -/
theorem copyCall_ends_iff (c : CopyCall) : c.Ends ↔ ¬c.Enters ∨ c.resid % 2 ^ 32 ≠ 0 := by
  have hpos : c.Enters → c.resid ≠ 0 := by
    cases c with
    | read offset resid => exact fun h hzero => h.2 (Or.inl hzero)
    | write ioAppend offset resid => exact fun h => h.1
  unfold CopyCall.Ends
  rw [exists_copyRound_iff]
  constructor
  · intro h
    by_cases henters : c.Enters
    · exact Or.inr ((h henters).resolve_left (hpos henters))
    · exact Or.inl henters
  · rintro (hout | hmod) henters
    · exact absurd henters hout
    · exact Or.inr hmod

/-- A read of 4 GiB from the start of a file. -/
theorem copyCall_ends_fails : ¬∀ c : CopyCall, c.resid < 2 ^ 63 → c.Ends := by
  intro hall
  have hends := hall (.read 0 (2 ^ 32)) (by decide) ⟨by decide, by decide⟩
  simp only [CopyCall.resid, exists_copyRound_iff] at hends
  omega

end EmbeddedOs.Kvfs
