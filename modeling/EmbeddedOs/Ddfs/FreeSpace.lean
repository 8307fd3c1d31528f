import EmbeddedOs.Ddfs.GroupFree
import Mathlib.Algebra.BigOperators.Ring.Finset

/-!
# The free space of a file system

The superblock counts free blocks, and the free fragments of other blocks. Together they are the
number of free fragments, up to what `mkfs` left, so that each operation changes the free space by
the size of its piece.
-/

namespace EmbeddedOs.Ddfs

open Lib BitRuns Finset

section Counting

variable {f : ℕ → Bool} {g : ℕ → ℤ}

/-- The number of free fragments among the first `n`. -/
def freeCount (f : ℕ → Bool) (n : ℕ) : ℤ := ∑ d ∈ range n, if f d then 1 else 0

theorem sum_range_mul (g : ℕ → ℤ) (k n : ℕ) :
    ∑ d ∈ range (k * n), g d = ∑ c ∈ range n, ∑ i ∈ range k, g (k * c + i) := by
  induction n with
  | zero => rw [Nat.mul_zero, range_zero, sum_empty, sum_empty]
  | succ n ih => rw [Nat.mul_succ, sum_range_add, ih, sum_range_succ]

theorem count_seg (f : ℕ → Bool) (a n : ℕ) :
    (((seg f a n).count true : ℕ) : ℤ) = ∑ i ∈ range n, if f (a + i) then 1 else 0 := by
  induction n generalizing a with
  | zero => rfl
  | succ n ih =>
    rw [seg_succ, List.count_cons, sum_range_succ', Nat.cast_add, ih]
    congr 1
    · exact sum_congr rfl fun i _ => by rw [Nat.add_assoc, Nat.add_comm 1]
    · rw [Nat.add_zero]
      cases f a with
      | false => rfl
      | true => rfl

/-- A piece that is not free any more, or that becomes free, is what the free space changes by. -/
theorem freeCount_piece {g : ℕ → Bool} {r n N : ℕ} (hend : r + n ≤ N)
    (hwas : ∀ i, i < n → f (r + i) = true)
    (hfree : ∀ d, g d = (!decide (r ≤ d ∧ d < r + n) && f d)) :
    freeCount g N = freeCount f N - n := by
  obtain ⟨k, rfl⟩ : ∃ k, N = r + n + k := ⟨N - (r + n), by omega⟩
  have hbefore : ∑ d ∈ range r, (if g d then (1 : ℤ) else 0) =
      ∑ d ∈ range r, if f d then 1 else 0 := sum_congr rfl fun d hd => by
    have hlt := mem_range.mp hd
    have hout : ¬ (r ≤ d ∧ d < r + n) := by omega
    rw [hfree, decide_eq_false hout, Bool.not_false, Bool.true_and]
  have hin : ∑ i ∈ range n, (if g (r + i) then (1 : ℤ) else 0) = 0 :=
    sum_eq_zero fun i hi => by
      have hlt := mem_range.mp hi
      have hmem : r ≤ r + i ∧ r + i < r + n := by omega
      rw [hfree, decide_eq_true hmem]
      rfl
  have hold : ∑ i ∈ range n, (if f (r + i) then (1 : ℤ) else 0) = n := by
    rw [sum_congr rfl fun i hi => by rw [hwas i (mem_range.mp hi), if_pos rfl], sum_const,
      card_range, nsmul_eq_mul, mul_one]
  have hbehind : ∑ i ∈ range k, (if g (r + n + i) then (1 : ℤ) else 0) =
      ∑ i ∈ range k, if f (r + n + i) then 1 else 0 := sum_congr rfl fun i _ => by
    have hout : ¬ (r ≤ r + n + i ∧ r + n + i < r + n) := by omega
    rw [hfree, decide_eq_false hout, Bool.not_false, Bool.true_and]
  unfold freeCount
  rw [sum_range_add, sum_range_add, sum_range_add, sum_range_add, hbefore, hin, hold, hbehind]
  omega

end Counting

section Space

variable {l : FsLayout} {s s' : Groups} {r n : ℕ}

/-- The free fragments of the file system. -/
def Groups.freeFrags (l : FsLayout) (s : Groups) : ℤ := freeCount (s.free l) (l.fpg * l.ncg)

/-- The number of free fragments as the superblock has it: the free blocks in fragments, and the
free fragments of other blocks. -/
def Groups.countedFrags (l : FsLayout) (s : Groups) : ℤ :=
  s.cstotal.nbfree * l.frag + s.cstotal.nffree

/-- The two counts of a block have all of its free fragments. -/
theorem wholeOf_mul_add_looseOf (f : ℕ → Bool) (a k : ℕ) :
    wholeOf (seg f a k) * k + looseOf (seg f a k) = (seg f a k).count true := by
  unfold wholeOf looseOf
  split
  · rename_i hall
    rw [seg_eq_replicate (all_seg.mp hall), List.count_replicate_self, one_mul, add_zero]
  · rw [zero_mul, zero_add]

/-- The counts of a group are the number of its free fragments. -/
theorem CountsExact.freeCount {c : Cg} (hc : CountsExact l c) :
    c.cs.nbfree * l.frag + c.cs.nffree = freeCount c.blksfree.isset l.fpg := by
  rw [hc.nbfree, hc.nffree, blockTotal, blockTotal, sum_mul, ← sum_add_distrib, Ddfs.freeCount,
    ← l.blocks_mul, Nat.mul_comm, sum_range_mul]
  refine sum_congr rfl fun h _ => ?_
  rw [blockFrags, wholeOf_mul_add_looseOf, count_seg, Nat.mul_comm h]

/-- What the superblock counts is the number of the free fragments, up to what `mkfs` left. -/
theorem Good.countedFrags (hgood : Good l s) : s.countedFrags l =
    s.freeFrags l + (l.drift.nbfree * l.frag + l.drift.nffree) := by
  have hnb := hgood.totals Csum.nbfree (by simp [csumFields])
  have hnf := hgood.totals Csum.nffree (by simp [csumFields])
  have hsum : (∑ c ∈ range l.ncg, (s.cs c).nbfree) * l.frag + ∑ c ∈ range l.ncg, (s.cs c).nffree =
      s.freeFrags l := by
    rw [Groups.freeFrags, freeCount, sum_range_mul, sum_mul, ← sum_add_distrib]
    refine sum_congr rfl fun c hc => ?_
    have hlt := mem_range.mp hc
    rw [hgood.cs c hlt, (hgood.group c hlt).counts.freeCount, freeCount]
    refine sum_congr rfl fun i hi => ?_
    have hi' := mem_range.mp hi
    have hdtog : l.dtog (l.fpg * c + i) = c := l.dtog_cgbase hi'
    have hdtogd : l.dtogd (l.fpg * c + i) = i := l.dtogd_cgbase hi'
    rw [Groups.free, hdtog, hdtogd]
  rw [Groups.countedFrags, hnb, hnf, ← hsum, add_mul]
  omega

/-- A piece that is taken is what the superblock counts less. -/
theorem Takes.countedFrags (h : Takes l s s' r n) (hgood : Good l s) (hgood' : Good l s')
    (hend : r + n ≤ l.fpg * l.ncg) : s'.countedFrags l = s.countedFrags l - n := by
  have hpiece := freeCount_piece hend h.was h.free
  rw [hgood.countedFrags, hgood'.countedFrags]
  unfold Groups.freeFrags
  omega

/-- A piece that is given back is what the superblock counts more. -/
theorem Gives.countedFrags (h : Gives l s s' r n) (hgood : Good l s) (hgood' : Good l s')
    (hend : r + n ≤ l.fpg * l.ncg) : s'.countedFrags l = s.countedFrags l + n := by
  rw [hgood.countedFrags, hgood'.countedFrags]
  -- taking the piece again would lead back
  have hback := freeCount_piece (f := s'.free l) (g := s.free l) hend (fun i hi => by
    have hin : r ≤ r + i ∧ r + i < r + n := by omega
    rw [h.free, decide_eq_true hin, Bool.true_or]) fun d => by
      rw [h.free]
      by_cases hin : r ≤ d ∧ d < r + n
      · have hwas := h.was (d - r) (by omega)
        rw [Nat.add_sub_cancel' hin.1] at hwas
        rw [decide_eq_true hin, hwas]
        rfl
      · rw [decide_eq_false hin, Bool.not_false, Bool.true_and, Bool.false_or]
  unfold Groups.freeFrags
  omega

end Space

end EmbeddedOs.Ddfs
