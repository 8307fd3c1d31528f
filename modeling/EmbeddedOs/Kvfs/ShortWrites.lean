import EmbeddedOs.Kvfs.Mount

/-!
# Short writes of `mkkvfs`

`writebuf` of `mkkvfs.c` with the results of its calls of `write`. The loop keeps the result of the
last call instead of the sum of all, so that it resumes at the wrong place and, since no later
result reaches the size of the buffer, never ends.
-/

namespace EmbeddedOs.Kvfs

/-- How `writebuf` ends. -/
inductive WritebufEnd
  /-- It returns. -/
  | ret
  /-- A call fails, and it exits. -/
  | exit
  deriving DecidableEq

/-- The loop of `writebuf`, from call `k` on, for at most `fuel` rounds. `write k n` is the result
of call `k`, for `n` bytes, and `out` has the place in the buffer and the result of each call. -/
def writebufLoop (write : ℕ → ℕ → ℤ) (size : ℕ) :
    ℕ → ℕ → ℕ → List (ℕ × ℕ) → Option (List (ℕ × ℕ) × WritebufEnd)
  | 0, _, _, _ => none
  | fuel + 1, k, writeSize, out =>
    if writeSize < size then
      let result := write k (size - writeSize)
      if result < 0 then some (out, .exit)
      else writebufLoop write size fuel (k + 1) result.toNat (out ++ [(writeSize, result.toNat)])
    else some (out, .ret)

/-- `writebuf` of a buffer of `size` bytes. -/
def writebufCalls (write : ℕ → ℕ → ℤ) (size fuel : ℕ) : Option (List (ℕ × ℕ) × WritebufEnd) :=
  let writeSize := write 0 size
  if writeSize < 0 then some ([], .exit)
  else writebufLoop write size fuel 1 writeSize.toNat [(0, writeSize.toNat)]

/-- Each call writes between 1 byte and the length requested. -/
def ShortWrites (write : ℕ → ℕ → ℤ) : Prop :=
  ∀ k n, 0 ≤ write k n ∧ write k n ≤ n ∧ (0 < n → 1 ≤ write k n)

/-- The places of the bytes of the buffer in the order in which they are written. -/
def writtenBytes (out : List (ℕ × ℕ)) : List ℕ := out.flatMap fun call => List.range' call.1 call.2

/-- The device after the calls. -/
def afterCalls (fd : Device) (buf : List UInt8) (out : List (ℕ × ℕ)) : Device :=
  out.foldl (fun fd call => writebuf fd ((buf.drop call.1).take call.2)) fd

variable {write : ℕ → ℕ → ℤ} {size fuel k writeSize : ℕ} {out : List (ℕ × ℕ)}

/-- After a short write every request is for less than the buffer, and the loop goes on. -/
theorem writebufLoop_short (h : ShortWrites write) (hpos : 0 < writeSize)
    (hshort : writeSize < size) : writebufLoop write size fuel k writeSize out = none := by
  induction fuel generalizing k writeSize out with
  | zero => rfl
  | succ fuel ih =>
    obtain ⟨hnonneg, hle, hone⟩ := h k (size - writeSize)
    have hpos' : 0 < (write k (size - writeSize)).toNat := by
      have hres := hone (by omega)
      omega
    have hshort' : (write k (size - writeSize)).toNat < size := by omega
    rw [writebufLoop, if_pos hshort]
    simp only [if_neg (show ¬write k (size - writeSize) < 0 by omega)]
    exact ih hpos' hshort'

/-- After a first write that is short `writebuf` never ends. -/
theorem writebufCalls_short (h : ShortWrites write) (hpos : 0 < size)
    (hshort : write 0 size ≠ size) : writebufCalls write size fuel = none := by
  obtain ⟨hnonneg, hle, hone⟩ := h 0 size
  have hres := hone hpos
  have hfirst : ¬write 0 size < 0 := by omega
  simp only [writebufCalls, if_neg hfirst]
  exact writebufLoop_short h (by omega) (by omega)

/-- A first write of the whole buffer ends the loop. -/
theorem writebufCalls_full (hfull : write 0 size = size) :
    writebufCalls write size (fuel + 1) = some ([(0, size)], .ret) := by
  have hnonneg : ¬((size : ℤ) < 0) := by omega
  simp only [writebufCalls, hfull, if_neg hnonneg, Int.toNat_natCast, writebufLoop,
    if_neg (lt_irrefl size)]

/-- `writebuf` ends after it has written the bytes of the buffer, each of them once and in their
order, if and only if the first call writes all of them. -/
theorem writebuf_once_iff (h : ShortWrites write) (fd : Device) (buf : List UInt8) :
    (∃ fuel out, writebufCalls write buf.length fuel = some (out, .ret) ∧
      writtenBytes out = List.range buf.length ∧ afterCalls fd buf out = writebuf fd buf) ↔
      write 0 buf.length = buf.length := by
  obtain ⟨hnonneg, hle, hone⟩ := h 0 buf.length
  constructor
  · rintro ⟨fuel, out, hcalls, -, -⟩
    by_contra hne
    have hpos : 0 < buf.length := by
      rcases Nat.eq_zero_or_pos buf.length with hzero | hpos
      · omega
      · exact hpos
    rw [writebufCalls_short h hpos hne] at hcalls
    cases hcalls
  · intro hfull
    refine ⟨1, [(0, buf.length)], writebufCalls_full hfull, ?_, ?_⟩
    · simp [writtenBytes, List.range_eq_range']
    · simp [afterCalls]

/-- A write of a block that is complete at once. -/
theorem writebuf_once_iff_block :
    ∃ fuel out, writebufCalls (fun _ n => n) zeroBuf.length fuel = some (out, .ret) ∧
      writtenBytes out = List.range zeroBuf.length ∧
      afterCalls ⟨0, fun _ => 0⟩ zeroBuf out = writebuf ⟨0, fun _ => 0⟩ zeroBuf := by
  have hwrite : ShortWrites fun _ n => n := by
    intro k n
    dsimp only
    omega
  exact (writebuf_once_iff hwrite ⟨0, fun _ => 0⟩ zeroBuf).mpr rfl

/-- A block of which the first call writes 1000 bytes. -/
theorem writebuf_once_fails : ¬∀ write, ShortWrites write → ∀ fd buf,
    ∃ fuel out, writebufCalls write buf.length fuel = some (out, .ret) ∧
      writtenBytes out = List.range buf.length ∧ afterCalls fd buf out = writebuf fd buf := by
  intro hall
  have hshort : ShortWrites fun k n => if k = 0 then min n 1000 else n := by
    intro k n
    dsimp only
    split <;> omega
  have hlen : zeroBuf.length = 4096 := List.length_replicate
  obtain ⟨fuel, out, hcalls, -, -⟩ := hall _ hshort ⟨0, fun _ => 0⟩ zeroBuf
  rw [hlen, writebufCalls_short hshort (by decide) (by decide)] at hcalls
  cases hcalls

end EmbeddedOs.Kvfs
