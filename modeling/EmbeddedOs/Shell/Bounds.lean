import EmbeddedOs.Shell.Arguments

/-!
# The bounds of the arrays

A line is handled inside its arrays if no access of `main` and of the child fails, and if what is
handed to `execvp` has a null pointer in it that is not its first element.
-/

namespace EmbeddedOs.Shell

open Lib.NullArray

variable {st st' : ShellState} {line : Line} {arg : Token} {tokens : List Token}
  {argv : List (Option Token)}

/-- An array that `execvp` can read: it follows the first pointer, and goes on to the null
pointer. -/
def Executable (argv : List (Option Token)) : Prop := none ∈ argv ∧ argv.head? ≠ some none

/-- No access for a line is out of bounds, and no null pointer is followed. -/
def StaysInBounds (st : ShellState) (line : Line) : Prop :=
  ∃ event st', runLine st line = some (event, st') ∧
    ∀ child, event = .forked child → ∃ argv, child.argv = some argv ∧ Executable argv

/-! ## The string of `echo` -/

/-- The number of words in the second argument, without its first and its last character. -/
def quotedWords : List Token → ℕ
  | _ :: arg1 :: _ => (words arg1.tail.dropLast).length
  | _ => 0

/-- The loop over the words fills the array from `idx` on. -/
theorem storeWords_eq (ptrs : List Token) {idx : ℕ} {argslist : List (Option Token)}
    (hidx : idx ≤ argslist.length) :
    storeWords ptrs idx argslist =
      if idx + ptrs.length ≤ argslist.length then
        some (argslist.take idx ++ (ptrs.map some ++ argslist.drop (idx + ptrs.length)))
      else none := by
  induction ptrs generalizing idx argslist with
  | nil => simp [storeWords, hidx]
  | cons ptr ptrs ih =>
    rw [storeWords]
    by_cases hroom : idx < argslist.length
    · rw [if_pos hroom, ih (by rw [List.length_set]; omega), List.length_set, List.length_cons,
        show idx + 1 + ptrs.length = idx + (ptrs.length + 1) by omega]
      have htake :
          (argslist.set idx (some ptr)).take (idx + 1) = argslist.take idx ++ [some ptr] := by
        rw [List.take_add_one, List.take_set_of_le (Nat.le_refl _), List.getElem?_set_self hroom]
        rfl
      rw [htake, List.drop_set_of_lt (by omega), List.append_assoc]
      rfl
    · rw [if_neg hroom, if_neg (by rw [List.length_cons]; omega)]

/-- The array of 100 pointers has room for 98 words, `echo` and the null pointer. -/
theorem echoArgs_iff (h : isQuotedEcho tokens = true) :
    (∃ argv, echoArgs (ofList tokens) = some argv ∧ Executable argv) ↔
      quotedWords tokens ≤ 98 := by
  match tokens with
  | [] => cases h
  | [_] => cases h
  | arg0 :: arg1 :: rest =>
    have hargs : echoArgs (ofList (arg0 :: arg1 :: rest)) =
        storeWords (words arg1.tail.dropLast) 1 (some echoName :: List.replicate 99 none) := rfl
    rw [hargs, storeWords_eq _ (by simp), quotedWords]
    generalize words arg1.tail.dropLast = ptrs
    have hdrop : (some echoName :: List.replicate 99 none).drop (1 + ptrs.length) =
        List.replicate (99 - ptrs.length) none := by
      rw [Nat.add_comm, List.drop_succ_cons, List.drop_replicate]
    have hnull : none ∈ [some echoName] ++ (ptrs.map some ++
        List.replicate (99 - ptrs.length) none) ↔ ptrs.length ≤ 98 := by
      simp
      omega
    rw [hdrop]
    constructor
    · rintro ⟨argv, hargv, hmem, -⟩
      split_ifs at hargv
      cases hargv
      exact hnull.mp hmem
    · intro hle
      rw [if_pos (by simp; omega)]
      exact ⟨_, rfl, hnull.mpr hle, by simp⟩

/-! ## The loops of the child -/

/-- The last argument is no operator, or it is behind the null pointer when the second loop is run:
then it is `>>`, and the first loop deletes the operator before it. -/
def LastBounded (inFlag : Bool) (tokens : List Token) : Prop :=
  ∀ b ∈ tokens.getLast?, b ∈ operators →
    b = appendOp ∧ inFlag = true ∧ ∃ ys a, tokens = ys ++ [a, b] ∧ a ∈ inOps

/-- The loops do not delete the first argument. -/
def HeadRemains (inFlag outFlag : Bool) (tokens : List Token) : Prop :=
  (∀ op file, tokens = [op, file] → op ∉ operators) ∧
    ∀ op file op' file', tokens = [op, file, op', file'] → inFlag = true → outFlag = true →
      op' ∈ inOps → op ∉ operators

/-- The only operator that the first loop does not delete. -/
theorem eq_appendOp (h : arg ∈ operators) (hin : arg ∉ inOps) : arg = appendOp := by
  simp only [operators, inOps, List.mem_cons, List.not_mem_nil, or_false] at h hin
  tauto

/-- A loop reads behind the array exactly if the last argument is not bounded. -/
theorem rewriteArgs_eq_none_iff (hin : raisesIn tokens = true → st.inFlag = true)
    (hout : raisesOut tokens = true → st.outFlag = true) :
    rewriteArgs st (ofList tokens) = none ↔ ¬ LastBounded st.inFlag tokens := by
  rw [rewriteArgs_eq, closeUp_twice_eq_none_iff]
  constructor
  · rintro ⟨b, hb, hfirst | ⟨hsecond, hstay⟩⟩ hbounded
    · have hmem := (inFlag_of_inHit hfirst).2
      obtain ⟨rfl, -⟩ := hbounded b hb (mem_operators_of_inOps hmem)
      revert hmem
      decide
    · obtain ⟨-, hinFlag, ys, a, rfl, ha⟩ := hbounded b hb (outFlag_of_outHit hsecond).2
      rw [dropPair_pair, if_pos (inHit_of_mem hinFlag ha)] at hstay
      simpa using congrArg List.length hstay
  · intro hbounded
    simp only [LastBounded, not_forall] at hbounded
    obtain ⟨b, hb, hop, hlast⟩ := hbounded
    refine ⟨b, hb, ?_⟩
    cases hfirst : inHit st b with
    | true => exact Or.inl rfl
    | false =>
      have hsecond := outHit_of_inHit_eq_false hin hout (List.mem_of_getLast? hb) hop hfirst
      refine Or.inr ⟨hsecond, ?_⟩
      obtain rfl | ⟨x, rfl⟩ | ⟨ys, a, b', rfl⟩ := pair_cases tokens
      · rfl
      · rfl
      · have hb' : b' = b := by simpa using hb
        subst hb'
        rw [dropPair_pair, if_neg]
        intro ha
        obtain ⟨hinFlag, hmem⟩ := inFlag_of_inHit ha
        have hnot : b' ∉ inOps := by
          intro hmem'
          rw [inHit_of_mem hinFlag hmem'] at hfirst
          cases hfirst
        exact hlast ⟨eq_appendOp hop hnot, hinFlag, ys, a, rfl, hmem⟩

/-- The loops leave a first argument exactly if the head remains. -/
theorem dropPair_ne_nil_iff (hne : tokens ≠ [])
    (hin : raisesIn tokens = true → st.inFlag = true)
    (hout : raisesOut tokens = true → st.outFlag = true) :
    dropPair (outHit st) (dropPair (inHit st) tokens) ≠ [] ↔
      HeadRemains st.inFlag st.outFlag tokens := by
  constructor
  · intro h
    constructor
    · rintro op file rfl hop
      apply h
      cases hfirst : inHit st op with
      | true => rw [dropPair_eq_nil_iff.mpr (Or.inr ⟨op, file, rfl, hfirst⟩), dropPair_nil]
      | false =>
        have hsecond := outHit_of_inHit_eq_false hin hout List.mem_cons_self hop hfirst
        rw [dropPair_eq_pair_iff.mpr (Or.inl ⟨rfl, hfirst⟩)]
        exact dropPair_eq_nil_iff.mpr (Or.inr ⟨op, file, rfl, hsecond⟩)
    · rintro op file op' file' rfl hinFlag houtFlag hop' hop
      apply h
      rw [dropPair_eq_pair_iff.mpr (Or.inr ⟨op', file', rfl, inHit_of_mem hinFlag hop'⟩)]
      exact dropPair_eq_nil_iff.mpr (Or.inr ⟨op, file, rfl, outHit_of_mem houtFlag hop⟩)
  · rintro ⟨hpair, hfour⟩ hnil
    rcases dropPair_eq_nil_iff.mp hnil with hempty | ⟨op, file, hleft, hop⟩
    · rcases dropPair_eq_nil_iff.mp hempty with rfl | ⟨op, file, rfl, hop⟩
      · exact hne rfl
      · exact hpair op file rfl (mem_operators_of_inOps (inFlag_of_inHit hop).2)
    · obtain ⟨houtFlag, hmem⟩ := outFlag_of_outHit hop
      rcases dropPair_eq_pair_iff.mp hleft with ⟨rfl, -⟩ | ⟨op', file', rfl, hop'⟩
      · exact hpair op file rfl hmem
      · obtain ⟨hinFlag, hmem'⟩ := inFlag_of_inHit hop'
        exact hfour op file op' file' rfl hinFlag houtFlag hmem' hmem

theorem head?_iff (h : none ∈ argv) : argv.head? ≠ some none ↔ toList argv ≠ [] := by
  match argv with
  | [] => cases h
  | none :: cells => simp [toList]
  | some x :: cells => simp [toList]

/-- What the loops leave can be handed to `execvp`. -/
theorem rewriteArgs_executable_iff (hne : tokens ≠ [])
    (hin : raisesIn tokens = true → st.inFlag = true)
    (hout : raisesOut tokens = true → st.outFlag = true) :
    (∃ argv, rewriteArgs st (ofList tokens) = some argv ∧ Executable argv) ↔
      LastBounded st.inFlag tokens ∧ HeadRemains st.inFlag st.outFlag tokens := by
  cases hargs : rewriteArgs st (ofList tokens) with
  | none =>
    have hbounded := (rewriteArgs_eq_none_iff hin hout).mp hargs
    simp [hbounded]
  | some argv =>
    have hbounded : LastBounded st.inFlag tokens := by
      by_contra hnot
      rw [(rewriteArgs_eq_none_iff hin hout).mpr hnot] at hargs
      cases hargs
    rw [rewriteArgs_eq] at hargs
    obtain ⟨mid, hmid, hout'⟩ := Option.bind_eq_some_iff.mp hargs
    have hnull := null_mem_closeUp hout'
    have hlen := length_toList_twice (outHit_of_inHit st) hmid hout'
    have hhead : argv.head? ≠ some none ↔ HeadRemains st.inFlag st.outFlag tokens := by
      rw [head?_iff hnull, ← dropPair_ne_nil_iff hne hin hout, ← List.length_pos_iff, hlen,
        List.length_pos_iff]
    constructor
    · rintro ⟨argv', hargv, -, hhead'⟩
      cases hargv
      exact ⟨hbounded, hhead.mp hhead'⟩
    · rintro ⟨-, hremains⟩
      exact ⟨argv, rfl, hnull, hhead.mpr hremains⟩

/-! ## Lines -/

/-- The child of a command. -/
theorem staysInBounds_command (hcommand : isCommand line.tokens = true)
    (h : parseArgs line.opens 0 (ofList line.tokens) st = some st') :
    StaysInBounds st line ↔
      ∃ argv, (child st' (ofList line.tokens)).argv = some argv ∧ Executable argv := by
  rw [StaysInBounds, runLine_command hcommand h]
  constructor
  · rintro ⟨event, st₁, hrun, hchild⟩
    cases hrun
    exact hchild _ rfl
  · intro hargv
    refine ⟨_, _, rfl, ?_⟩
    rintro child ⟨⟩
    exact hargv

theorem staysInBounds_builtin (h : isCommand line.tokens = false) : StaysInBounds st line := by
  obtain ⟨inFd, outFd, hparse⟩ := parseArgs_eq line.opens 0 line.tokens
  obtain ⟨event, hrun, hevent⟩ := runLine_builtin h (hparse st)
  exact ⟨event, _, hrun, fun child heq => absurd heq (hevent child)⟩

theorem not_staysInBounds_echo (h : line.tokens = [echoName]) : ¬ StaysInBounds st line := by
  have hcommand : isCommand line.tokens = true := by
    rw [h]
    rfl
  obtain ⟨inFd, outFd, hparse⟩ := parseArgs_eq line.opens 0 line.tokens
  rw [staysInBounds_command hcommand (hparse st), h, child_echo]
  simp

/-- A line stays in bounds exactly if no child is forked for it; if it is `echo` with a string of 98
words or less in quotes; or else if it is not `echo` alone, its last argument is bounded and its
first one remains. -/
theorem staysInBounds_iff (st : ShellState) (line : Line) :
    StaysInBounds st line ↔
      isCommand line.tokens = false ∨
        isQuotedEcho line.tokens = true ∧ quotedWords line.tokens ≤ 98 ∨
        isQuotedEcho line.tokens = false ∧ line.tokens ≠ [echoName] ∧
          LastBounded (st.inFlag || raisesIn line.tokens) line.tokens ∧
          HeadRemains (st.inFlag || raisesIn line.tokens) (st.outFlag || raisesOut line.tokens)
            line.tokens := by
  cases hcommand : isCommand line.tokens with
  | false => simp [staysInBounds_builtin hcommand]
  | true =>
    have hne := ne_nil_of_isCommand hcommand
    by_cases hecho : line.tokens = [echoName]
    · have hquoted : isQuotedEcho [echoName] = false := rfl
      simp [not_staysInBounds_echo hecho, hquoted, hecho]
    · obtain ⟨inFd, outFd, hparse⟩ := parseArgs_eq line.opens 0 line.tokens
      rw [staysInBounds_command hcommand (hparse st)]
      cases hquoted : isQuotedEcho line.tokens with
      | true =>
        rw [child_quotedEcho hquoted, echoArgs_iff hquoted]
        simp
      | false =>
        rw [child_other hne hecho hquoted, rewriteArgs_executable_iff hne]
        · simp [hecho]
        · intro hraises
          simp [hraises]
        · intro hraises
          simp [hraises]

/-- The line `echo` is one that the lexer returns. -/
theorem staysInBounds_fails : ¬ ∀ (st : ShellState) (input : List UInt8) (opens : Opens),
    StaysInBounds st ⟨(lineTokens input).take 1023, opens⟩ := by
  intro hall
  have hline : (lineTokens echoName).take 1023 = [echoName] := by
    have hword : ∀ x ∈ (101 : UInt8) :: [99, 104, 111], wordChar x = true := by
      intro x hx
      simp only [List.mem_cons, List.not_mem_nil, or_false] at hx
      rcases hx with rfl | rfl | rfl | rfl <;> rfl
    have hscan : scanLine echoName = ([echoName], []) := scanLine_word hword
    rw [lineTokens, hscan]
    rfl
  have hbounds := hall .init echoName fun _ _ _ => 3
  rw [hline] at hbounds
  exact not_staysInBounds_echo rfl hbounds

end EmbeddedOs.Shell
