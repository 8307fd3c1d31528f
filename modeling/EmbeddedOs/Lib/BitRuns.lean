import Mathlib.Data.List.Basic
import Mathlib.Tactic.Common

/-!
# Maximal runs of set bits

A summary of a bit map counts its maximal runs of set bits by length. Here are the lengths of
the runs of a list of bits, and what they become when the list is cut at a clear bit, when a
run is cut into two, and when a single bit changes between two runs.
-/

namespace EmbeddedOs.Lib.BitRuns

/-- The lengths of the maximal runs of set bits, after a run of `n` set bits. -/
def runsFrom : ℕ → List Bool → List ℕ
  | n, [] => if n = 0 then [] else [n]
  | n, true :: xs => runsFrom (n + 1) xs
  | n, false :: xs => if n = 0 then runsFrom 0 xs else n :: runsFrom 0 xs

/-- The lengths of the maximal runs of set bits. -/
def runs (xs : List Bool) : List ℕ := runsFrom 0 xs

/-- The runs of `k` set bits in a row: one run, or none. -/
def runOf (k : ℕ) : List ℕ := if k = 0 then [] else [k]

@[simp] theorem runOf_zero : runOf 0 = [] := if_pos rfl

theorem runOf_of_pos {k : ℕ} (h : 0 < k) : runOf k = [k] := if_neg (by omega)

@[simp] theorem runs_nil : runs [] = [] := rfl

/-- A clear bit ends the run before it. -/
theorem runsFrom_append_false (n : ℕ) (xs ys : List Bool) :
    runsFrom n (xs ++ false :: ys) = runsFrom n xs ++ runs ys := by
  induction xs generalizing n with
  | nil =>
    by_cases hn : n = 0
    · simp [runsFrom, runs, hn]
    · simp [runsFrom, runs, hn]
  | cons x xs ih =>
    cases x with
    | true => exact ih (n + 1)
    | false =>
      by_cases hn : n = 0
      · simp [runsFrom, hn, ih]
      · simp [runsFrom, hn, ih]

theorem runs_append_false (xs ys : List Bool) :
    runs (xs ++ false :: ys) = runs xs ++ runs ys := runsFrom_append_false 0 xs ys

theorem runs_cons_false (ys : List Bool) : runs (false :: ys) = runs ys := by
  simpa using runs_append_false [] ys

/-- Runs do not cross a place where one of the two neighbours is clear. -/
theorem runs_append {xs ys : List Bool}
    (h : xs.getLast? ≠ some true ∨ ys.head? ≠ some true) :
    runs (xs ++ ys) = runs xs ++ runs ys := by
  rcases h with h | h
  · rcases List.eq_nil_or_concat xs with rfl | ⟨zs, b, rfl⟩
    · simp
    · have hb : b = false := by simpa using h
      subst b
      have hlast := runs_append_false zs []
      rw [List.concat_eq_append, List.append_assoc, List.singleton_append, runs_append_false,
        hlast, runs_nil, List.append_nil]
  · cases ys with
    | nil => simp
    | cons b zs =>
      have hb : b = false := by simpa using h
      subst b
      rw [runs_append_false, runs_cons_false]

theorem runsFrom_replicate_true (n k : ℕ) :
    runsFrom n (List.replicate k true) = runOf (n + k) := by
  induction k generalizing n with
  | zero => rfl
  | succ k ih =>
    rw [List.replicate_succ, runsFrom, ih]
    congr 1
    omega

theorem runs_replicate_true (k : ℕ) : runs (List.replicate k true) = runOf k := by
  rw [runs, runsFrom_replicate_true, Nat.zero_add]

theorem runs_replicate_false (k : ℕ) : runs (List.replicate k false) = [] := by
  induction k with
  | zero => exact runs_nil
  | succ k ih => rw [List.replicate_succ, runs_cons_false, ih]

theorem le_of_mem_runsFrom {n k : ℕ} {xs : List Bool} (h : k ∈ runsFrom n xs) :
    k ≤ n + xs.length := by
  induction xs generalizing n with
  | nil =>
    by_cases hn : n = 0
    · simp [runsFrom, hn] at h
    · simp only [runsFrom, hn, if_false, List.mem_singleton] at h
      omega
  | cons x xs ih =>
    rw [List.length_cons]
    cases x with
    | true =>
      have := ih h
      omega
    | false =>
      by_cases hn : n = 0
      · simp only [runsFrom, hn, if_true] at h
        have := ih h
        omega
      · simp only [runsFrom, hn, if_false, List.mem_cons] at h
        rcases h with rfl | h
        · omega
        · have := ih h
          omega

/-- A run is no longer than the list. -/
theorem le_of_mem_runs {k : ℕ} {xs : List Bool} (h : k ∈ runs xs) : k ≤ xs.length := by
  have := le_of_mem_runsFrom h
  omega

/-! ### Segments of a map -/

/-- The `n` bits of a map from `a` on. -/
def seg (f : ℕ → Bool) : ℕ → ℕ → List Bool
  | _, 0 => []
  | a, n + 1 => f a :: seg f (a + 1) n

variable {f g : ℕ → Bool} {a b i k n p : ℕ}

@[simp] theorem seg_zero : seg f a 0 = [] := rfl

theorem seg_succ : seg f a (n + 1) = f a :: seg f (a + 1) n := rfl

@[simp] theorem length_seg : (seg f a n).length = n := by
  induction n generalizing a with
  | zero => rfl
  | succ n ih => rw [seg_succ, List.length_cons, ih]

theorem seg_append (f : ℕ → Bool) (a m n : ℕ) :
    seg f a (m + n) = seg f a m ++ seg f (a + m) n := by
  induction m generalizing a with
  | zero => simp
  | succ m ih =>
    have h : m + 1 + n = m + n + 1 := by omega
    have h' : a + 1 + m = a + (m + 1) := by omega
    rw [h, seg_succ, ih, seg_succ, List.cons_append, h']

/-- A segment is cut into two. -/
theorem seg_cut (f : ℕ → Bool) (a : ℕ) {m n k : ℕ} (h : k = m + n) :
    seg f a k = seg f a m ++ seg f (a + m) n := by rw [h, seg_append]

theorem seg_congr (h : ∀ i, i < n → f (a + i) = g (b + i)) : seg f a n = seg g b n := by
  induction n generalizing a b with
  | zero => rfl
  | succ n ih =>
    have hz := h 0 (by omega)
    have htail : seg f (a + 1) n = seg g (b + 1) n := ih fun i hi => by
      have := h (i + 1) (by omega)
      simpa [Nat.add_assoc, Nat.add_comm 1] using this
    rw [seg_succ, seg_succ, htail]
    simpa using hz

theorem seg_eq_replicate {v : Bool} (h : ∀ i, i < n → f (a + i) = v) :
    seg f a n = List.replicate n v := by
  induction n generalizing a with
  | zero => rfl
  | succ n ih =>
    have hz := h 0 (by omega)
    have htail : seg f (a + 1) n = List.replicate n v := ih fun i hi => by
      have := h (i + 1) (by omega)
      simpa [Nat.add_assoc, Nat.add_comm 1] using this
    rw [seg_succ, htail, List.replicate_succ]
    simpa using hz

theorem head?_seg (h : 0 < n) : (seg f a n).head? = some (f a) := by
  obtain ⟨m, rfl⟩ := Nat.exists_eq_add_of_lt h
  rw [Nat.zero_add, seg_succ, List.head?_cons]

theorem getLast?_seg (h : 0 < n) : (seg f a n).getLast? = some (f (a + (n - 1))) := by
  obtain ⟨m, rfl⟩ := Nat.exists_eq_add_of_lt h
  have hlast : seg f (a + m) 1 = [f (a + m)] := rfl
  rw [Nat.zero_add, seg_append, hlast, List.getLast?_append, List.getLast?_singleton,
    Option.some_or, Nat.add_sub_cancel]

theorem mem_seg (h : i < n) : f (a + i) ∈ seg f a n := by
  have hcut : n = i + (1 + (n - (i + 1))) := by omega
  have hone : seg f (a + i) 1 = [f (a + i)] := rfl
  rw [seg_cut f a hcut, seg_append, hone]
  simp

/-- A map is cut into three where no run crosses. -/
theorem runs_seg_split (hk : p + k ≤ n) (hl : p = 0 ∨ f (a + (p - 1)) = false)
    (hr : p + k = n ∨ f (a + (p + k)) = false) :
    runs (seg f a n) =
      runs (seg f a p) ++ (runs (seg f (a + p) k) ++
        runs (seg f (a + (p + k)) (n - (p + k)))) := by
  have hn : n = p + (k + (n - (p + k))) := by omega
  have hcut : seg f a n =
      seg f a p ++ (seg f (a + p) k ++ seg f (a + (p + k)) (n - (p + k))) := by
    rw [seg_cut f a hn, seg_append, Nat.add_assoc]
  have hright : runs (seg f (a + p) k ++ seg f (a + (p + k)) (n - (p + k))) =
      runs (seg f (a + p) k) ++ runs (seg f (a + (p + k)) (n - (p + k))) := by
    apply runs_append
    right
    rcases hr with hr | hr
    · simp [hr]
    · rcases Nat.eq_zero_or_pos (n - (p + k)) with hz | hz
      · simp [hz]
      · simp [head?_seg hz, hr]
  have hleft : (seg f a p).getLast? ≠ some true := by
    rcases hl with rfl | hl
    · simp
    · rcases Nat.eq_zero_or_pos p with rfl | hz
      · simp
      · simp [getLast?_seg hz, hl]
  rw [hcut, runs_append (Or.inl hleft), hright]

/-! ### The runs next to one bit -/

/-- The number of set bits in a row from `i` upwards, of the next `n`. -/
def forward (f : ℕ → Bool) : ℕ → ℕ → ℕ
  | 0, _ => 0
  | n + 1, i => if f i then forward f n (i + 1) + 1 else 0

/-- The number of set bits in a row below `i` downwards, of the next `n`. -/
def backward (f : ℕ → Bool) : ℕ → ℕ → ℕ
  | 0, _ => 0
  | _ + 1, 0 => 0
  | n + 1, i + 1 => if f i then backward f n i + 1 else 0

theorem forward_le (f : ℕ → Bool) (n i : ℕ) : forward f n i ≤ n := by
  induction n generalizing i with
  | zero => exact Nat.le_refl 0
  | succ n ih =>
    have := ih (i + 1)
    unfold forward
    split <;> omega

theorem forward_set (h : k < forward f n i) : f (i + k) = true := by
  induction n generalizing i k with
  | zero => exact absurd h (Nat.not_lt_zero k)
  | succ n ih =>
    unfold forward at h
    split at h
    · rename_i hi
      cases k with
      | zero => exact hi
      | succ k =>
        have := ih (i := i + 1) (k := k) (by omega)
        have heq : i + 1 + k = i + (k + 1) := by omega
        rwa [heq] at this
    · exact absurd h (Nat.not_lt_zero k)

theorem forward_stop (h : forward f n i < n) : f (i + forward f n i) = false := by
  induction n generalizing i with
  | zero => exact absurd h (Nat.not_lt_zero _)
  | succ n ih =>
    unfold forward at h ⊢
    split
    · rename_i hi
      rw [if_pos hi] at h
      have := ih (i := i + 1) (by omega)
      have heq : i + 1 + forward f n (i + 1) = i + (forward f n (i + 1) + 1) := by omega
      rwa [heq] at this
    · rename_i hi
      simpa using hi

/-- A bounded count is the bound on the count. -/
theorem forward_min (f : ℕ → Bool) (m n i : ℕ) :
    forward f (min m n) i = min m (forward f n i) := by
  induction n generalizing m i with
  | zero => simp [forward]
  | succ n ih =>
    cases m with
    | zero => simp [forward]
    | succ m =>
      rw [Nat.succ_min_succ]
      unfold forward
      split
      · rw [ih, Nat.succ_min_succ]
      · exact (Nat.min_zero _).symm

theorem forward_congr (h : ∀ j, i ≤ j → f j = g j) : forward f n i = forward g n i := by
  induction n generalizing i with
  | zero => rfl
  | succ n ih =>
    have htail : forward f n (i + 1) = forward g n (i + 1) := ih fun j hj => h j (by omega)
    unfold forward
    rw [h i (Nat.le_refl i), htail]

theorem backward_le_index (f : ℕ → Bool) (n i : ℕ) : backward f n i ≤ i := by
  induction n generalizing i with
  | zero => exact Nat.zero_le _
  | succ n ih =>
    cases i with
    | zero => exact Nat.zero_le _
    | succ i =>
      have := ih i
      unfold backward
      split <;> omega

theorem backward_set (h : k < backward f n i) : f (i - (k + 1)) = true := by
  induction n generalizing i k with
  | zero => exact absurd h (Nat.not_lt_zero k)
  | succ n ih =>
    cases i with
    | zero => exact absurd h (Nat.not_lt_zero k)
    | succ i =>
      unfold backward at h
      split at h
      · rename_i hi
        cases k with
        | zero => simpa using hi
        | succ k =>
          have := ih (i := i) (k := k) (by omega)
          have heq : i - (k + 1) = i + 1 - (k + 1 + 1) := by omega
          rwa [heq] at this
      · exact absurd h (Nat.not_lt_zero k)

theorem backward_stop (h : backward f n i < min n i) :
    f (i - (backward f n i + 1)) = false := by
  induction n generalizing i with
  | zero => exact absurd h (by omega)
  | succ n ih =>
    cases i with
    | zero => exact absurd h (by omega)
    | succ i =>
      unfold backward at h ⊢
      split
      · rename_i hi
        rw [if_pos hi] at h
        have := ih (i := i) (by omega)
        have heq : i - (backward f n i + 1) = i + 1 - (backward f n i + 1 + 1) := by omega
        rwa [heq] at this
      · rename_i hi
        simpa using hi

theorem backward_min (f : ℕ → Bool) (m n i : ℕ) :
    backward f (min m n) i = min m (backward f n i) := by
  induction n generalizing m i with
  | zero => simp [backward]
  | succ n ih =>
    cases m with
    | zero => simp [backward]
    | succ m =>
      rw [Nat.succ_min_succ]
      cases i with
      | zero => exact (Nat.min_zero _).symm
      | succ i =>
        unfold backward
        split
        · rw [ih, Nat.succ_min_succ]
        · exact (Nat.min_zero _).symm

theorem backward_congr (h : ∀ j, j < i → f j = g j) : backward f n i = backward g n i := by
  induction n generalizing i with
  | zero => rfl
  | succ n ih =>
    cases i with
    | zero => rfl
    | succ i =>
      have htail : backward f n i = backward g n i := ih fun j hj => h j (by omega)
      unfold backward
      rw [h i (Nat.lt_succ_self i), htail]

/-- Set bits in a row are in a run that is at least as long. -/
theorem exists_run (hn : 1 ≤ n) (hp : p + n ≤ k) (hset : ∀ i, i < n → f (a + p + i) = true) :
    ∃ r, n ≤ r ∧ r ∈ runs (seg f a k) := by
  let g := fun i => f (a + i)
  have hseg : seg f a k = seg g 0 k := seg_congr fun i _ => by simp only [g, Nat.zero_add]
  generalize hB : backward g p p = B
  generalize hF : forward g (k - p) p = F
  have hBp : B ≤ p := hB ▸ backward_le_index g p p
  have hFk : F ≤ k - p := hF ▸ forward_le g _ _
  have hnF : n ≤ F := by
    by_contra hlt
    have hstop := forward_stop (f := g) (n := k - p) (i := p) (by omega)
    have hone := hset F (by omega)
    rw [hF] at hstop
    rw [Nat.add_assoc] at hone
    exact absurd (hone.symm.trans hstop) (by decide)
  have hlow : p - B = 0 ∨ g (0 + (p - B - 1)) = false := by
    rcases Nat.eq_zero_or_pos (p - B) with h | h
    · exact Or.inl h
    · right
      have hstop := backward_stop (f := g) (n := p) (i := p) (by omega)
      rw [hB] at hstop
      have heq : 0 + (p - B - 1) = p - (B + 1) := by omega
      rwa [heq]
  have hhigh : p - B + (B + F) = k ∨ g (0 + (p - B + (B + F))) = false := by
    rcases Nat.lt_or_ge F (k - p) with h | h
    · right
      have hstop := forward_stop (f := g) (n := k - p) (i := p) (by omega)
      rw [hF] at hstop
      have heq : 0 + (p - B + (B + F)) = p + F := by omega
      rwa [heq]
    · left
      omega
  have hmid : seg g (0 + (p - B)) (B + F) = List.replicate (B + F) true := by
    refine seg_eq_replicate fun i hi => ?_
    rcases Nat.lt_or_ge i B with h | h
    · have := backward_set (f := g) (n := p) (i := p) (k := B - (i + 1)) (by omega)
      have heq : 0 + (p - B) + i = p - (B - (i + 1) + 1) := by omega
      rwa [heq]
    · have := forward_set (f := g) (n := k - p) (i := p) (k := i - B) (by omega)
      have heq : 0 + (p - B) + i = p + (i - B) := by omega
      rwa [heq]
  refine ⟨B + F, by omega, ?_⟩
  rw [hseg, runs_seg_split (by omega) hlow hhigh, hmid, runs_replicate_true,
    runOf_of_pos (by omega)]
  simp

/-- Setting one bit joins the run below it and the run above it. -/
theorem runs_flip (hp : p < n) (hfg : ∀ i, i ≠ p → f i = g i) (hf : f p = false)
    (hg : g p = true) :
    ∃ left right : List ℕ,
      runs (seg f 0 n) = left ++ (runOf (backward f p p) ++
        (runOf (forward f (n - (p + 1)) (p + 1)) ++ right)) ∧
      runs (seg g 0 n) =
        left ++ (backward f p p + forward f (n - (p + 1)) (p + 1) + 1) :: right := by
  generalize hB : backward f p p = B
  generalize hF : forward f (n - (p + 1)) (p + 1) = F
  have hBp : B ≤ p := hB ▸ backward_le_index f p p
  have hFn : F ≤ n - (p + 1) := hF ▸ forward_le f _ _
  have hlow : p - B = 0 ∨ f (0 + (p - B - 1)) = false := by
    rcases Nat.eq_zero_or_pos (p - B) with h | h
    · exact Or.inl h
    · right
      have := backward_stop (f := f) (n := p) (i := p) (by omega)
      rw [hB] at this
      have heq : 0 + (p - B - 1) = p - (B + 1) := by omega
      rwa [heq]
  have hhigh : p - B + (B + 1 + F) = n ∨ f (0 + (p - B + (B + 1 + F))) = false := by
    rcases Nat.lt_or_ge F (n - (p + 1)) with h | h
    · right
      have := forward_stop (f := f) (n := n - (p + 1)) (i := p + 1) (by omega)
      rw [hF] at this
      have heq : 0 + (p - B + (B + 1 + F)) = p + 1 + F := by omega
      rwa [heq]
    · left
      omega
  have hbelow : ∀ i, i < B → f (0 + (p - B) + i) = true := fun i hi => by
    have := backward_set (f := f) (n := p) (i := p) (k := B - (i + 1)) (by omega)
    have heq : 0 + (p - B) + i = p - (B - (i + 1) + 1) := by omega
    rwa [heq]
  have habove : ∀ i, i < F → f (p + 1 + i) = true := fun i hi =>
    forward_set (f := f) (n := n - (p + 1)) (i := p + 1) (k := i) (by omega)
  refine ⟨runs (seg f 0 (p - B)),
    runs (seg f (0 + (p - B + (B + 1 + F))) (n - (p - B + (B + 1 + F)))), ?_, ?_⟩
  · have hmid : seg f (0 + (p - B)) (B + 1 + F) =
        List.replicate B true ++ false :: List.replicate F true := by
      have hbit : seg f (0 + (p - B) + B) 1 = [false] := by
        have heq : 0 + (p - B) + B = p := by omega
        rw [heq, seg_succ, hf, seg_zero]
      have hup : seg f (0 + (p - B) + (B + 1)) F = List.replicate F true := by
        have heq : 0 + (p - B) + (B + 1) = p + 1 := by omega
        rw [heq]
        exact seg_eq_replicate habove
      rw [seg_append, seg_append, seg_eq_replicate hbelow, hbit, hup, List.append_assoc,
        List.singleton_append]
    rw [runs_seg_split (by omega) hlow hhigh, hmid, runs_append_false, runs_replicate_true,
      runs_replicate_true, List.append_assoc]
  · have hlow' : p - B = 0 ∨ g (0 + (p - B - 1)) = false := by
      rcases hlow with h | h
      · exact Or.inl h
      · rcases Nat.eq_zero_or_pos (p - B) with hz | hz
        · exact Or.inl hz
        · exact Or.inr (by rwa [← hfg _ (by omega)])
    have hhigh' : p - B + (B + 1 + F) = n ∨ g (0 + (p - B + (B + 1 + F))) = false := by
      rcases hhigh with h | h
      · exact Or.inl h
      · exact Or.inr (by rwa [← hfg _ (by omega)])
    have hmid : seg g (0 + (p - B)) (B + 1 + F) = List.replicate (B + 1 + F) true := by
      refine seg_eq_replicate fun i hi => ?_
      rcases Nat.lt_trichotomy i B with h | h | h
      · rw [← hfg _ (by omega)]
        exact hbelow i h
      · have heq : 0 + (p - B) + i = p := by omega
        rw [heq, hg]
      · have := habove (i - (B + 1)) (by omega)
        have heq : p + 1 + (i - (B + 1)) = 0 + (p - B) + i := by omega
        rw [heq] at this
        rw [← hfg _ (by omega), this]
    have hleft : seg g 0 (p - B) = seg f 0 (p - B) :=
      seg_congr fun i hi => (hfg _ (by omega)).symm
    have hright : seg g (0 + (p - B + (B + 1 + F))) (n - (p - B + (B + 1 + F))) =
        seg f (0 + (p - B + (B + 1 + F))) (n - (p - B + (B + 1 + F))) :=
      seg_congr fun i hi => (hfg _ (by omega)).symm
    have hsum : B + 1 + F = B + F + 1 := by omega
    rw [runs_seg_split (by omega) hlow' hhigh', hmid, hleft, hright, runs_replicate_true,
      runOf_of_pos (by omega), List.singleton_append, hsum]

/-! ## The first run of a length -/

section Find

variable {f : ℕ → Bool} {len n got run e : ℕ}

/-- The last place of the first run of `len`, among `n` places from `got` on; `run` places right
before `got` are set. -/
def findRun (f : ℕ → Bool) (len : ℕ) : ℕ → ℕ → ℕ → Option ℕ
  | 0, _, _ => none
  | n + 1, got, run =>
    if f got then if run + 1 = len then some got else findRun f len n (got + 1) (run + 1)
    else findRun f len n (got + 1) 0

/-- A place that is not set is in no run. -/
theorem not_run_of_clear (hclr : f got = false) {p : ℕ} (hp : p ≤ got) (hlen : got < p + len) :
    ∃ i, i < len ∧ f (p + i) = false :=
  ⟨got - p, by omega, by rwa [Nat.add_sub_cancel' hp]⟩

/-- If nothing is found, there is no run of the length. -/
theorem findRun_none (hle : run ≤ got) (hrun : run < len) (h : findRun f len n got run = none)
    {p : ℕ} (hp : got - run ≤ p) (hend : p + len ≤ got + n) : ∃ i, i < len ∧ f (p + i) = false := by
  induction n generalizing got run with
  | zero => omega
  | succ n ih =>
    unfold findRun at h
    cases hf : f got with
    | true =>
      rw [hf, if_pos rfl] at h
      split at h
      · exact absurd h (by simp)
      · exact ih (Nat.succ_le_succ hle) (by omega) h (by omega) (by omega)
    | false =>
      rw [hf, if_neg (by decide)] at h
      rcases Nat.lt_or_ge got p with hlt | hge
      · exact ih (Nat.zero_le _) (by omega) h (by omega) (by omega)
      · exact not_run_of_clear hf hge (by omega)

/-- What is found is a run of the length, and the first one. -/
theorem findRun_some (hle : run ≤ got) (hrun : run < len)
    (hset : ∀ i, i < run → f (got - run + i) = true) (h : findRun f len n got run = some e) :
    e < got + n ∧ got - run + len ≤ e + 1 ∧ (∀ i, i < len → f (e + 1 - len + i) = true) ∧
      ∀ p, got - run ≤ p → p + len ≤ e → ∃ i, i < len ∧ f (p + i) = false := by
  induction n generalizing got run with
  | zero => exact absurd h (by simp [findRun])
  | succ n ih =>
    unfold findRun at h
    cases hf : f got with
    | true =>
      rw [hf, if_pos rfl] at h
      split at h
      · rename_i hlen
        obtain rfl := Option.some.inj h
        refine ⟨by omega, by omega, fun i hi => ?_, fun p hp hend => by omega⟩
        rcases Nat.lt_or_ge i run with hlt | hge
        · have hplace : got + 1 - len + i = got - run + i := by omega
          rw [hplace]
          exact hset i hlt
        · have hplace : got + 1 - len + i = got := by omega
          rw [hplace]
          exact hf
      · have hbase : got + 1 - (run + 1) = got - run := by omega
        have hmore := ih (Nat.succ_le_succ hle) (by omega) (fun i hi => by
          rw [hbase]
          rcases Nat.lt_or_ge i run with hlt | hge
          · exact hset i hlt
          · have hplace : got - run + i = got := by omega
            rw [hplace]
            exact hf) h
        rw [hbase] at hmore
        obtain ⟨hlt, hlow, hall, hfirst⟩ := hmore
        exact ⟨by omega, hlow, hall, hfirst⟩
    | false =>
      rw [hf, if_neg (by decide)] at h
      obtain ⟨hlt, hlow, hall, hfirst⟩ :=
        ih (Nat.zero_le _) (by omega) (fun i hi => absurd hi (Nat.not_lt_zero i)) h
      refine ⟨by omega, by omega, hall, fun p hp hend => ?_⟩
      rcases Nat.lt_or_ge got p with hgt | hge
      · exact hfirst p (by omega) hend
      · exact not_run_of_clear hf hge (by omega)

end Find

end EmbeddedOs.Lib.BitRuns
