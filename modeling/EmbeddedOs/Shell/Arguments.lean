import EmbeddedOs.Shell.Commands

/-!
# The arguments of a command

What `execvp` should be given is the line without its operators and the file names behind them. Each
of the two loops of the child takes two arguments from the end at most, and only if the next to last
one is an operator.
-/

namespace EmbeddedOs.Shell

open Lib.NullArray

variable {st st' : ShellState} {line : Line} {arg file : Token} {tokens pre rest : List Token}

/-! ## Deleting redirections -/

/-- A line without its operators and the file names behind them. -/
def deleteRedirections : List Token → List Token
  | [] => []
  | [arg] => if isOperator arg then [] else [arg]
  | arg :: file :: rest =>
    if isOperator arg then deleteRedirections rest
    else arg :: deleteRedirections (file :: rest)

/-- Every operator has a file name behind it. -/
def FilesFollow : List Token → Prop
  | [] => True
  | [arg] => arg ∉ operators
  | arg :: file :: rest => (arg ∈ operators → file ∉ operators) ∧ FilesFollow (file :: rest)

instance FilesFollow.decidable : (tokens : List Token) → Decidable (FilesFollow tokens)
  | [] => inferInstanceAs (Decidable True)
  | [arg] => inferInstanceAs (Decidable (arg ∉ operators))
  | arg :: file :: rest =>
    have := FilesFollow.decidable (file :: rest)
    inferInstanceAs (Decidable ((arg ∈ operators → file ∉ operators) ∧ FilesFollow (file :: rest)))

theorem isOperator_iff : isOperator arg = true ↔ arg ∈ operators := decide_eq_true_iff

theorem deleteRedirections_cons (h : arg ∉ operators) (rest : List Token) :
    deleteRedirections (arg :: rest) = arg :: deleteRedirections rest := by
  cases rest <;> simp [deleteRedirections, isOperator_iff, h]

theorem deleteRedirections_operator (h : arg ∈ operators) (file : Token) (rest : List Token) :
    deleteRedirections (arg :: file :: rest) = deleteRedirections rest := by
  rw [deleteRedirections, if_pos (isOperator_iff.mpr h)]

/-- Arguments before the first operator stay. -/
theorem deleteRedirections_append (h : ∀ arg ∈ pre, arg ∉ operators) (rest : List Token) :
    deleteRedirections (pre ++ rest) = pre ++ deleteRedirections rest := by
  induction pre with
  | nil => rfl
  | cons arg pre ih =>
    obtain ⟨harg, hpre⟩ := List.forall_mem_cons.mp h
    rw [List.cons_append, deleteRedirections_cons harg, ih hpre, List.cons_append]

theorem deleteRedirections_of_forall (h : ∀ arg ∈ tokens, arg ∉ operators) :
    deleteRedirections tokens = tokens := by
  have happend := deleteRedirections_append h []
  rwa [List.append_nil, deleteRedirections, List.append_nil] at happend

theorem FilesFollow.tail (h : FilesFollow (arg :: rest)) : FilesFollow rest := by
  cases rest with
  | nil => trivial
  | cons file rest => exact h.2

theorem FilesFollow.of_append (h : FilesFollow (pre ++ rest)) : FilesFollow rest := by
  induction pre with
  | nil => exact h
  | cons arg pre ih => exact ih h.tail

/-- Each operator takes two arguments away. -/
theorem length_deleteRedirections (h : FilesFollow tokens) :
    (deleteRedirections tokens).length + 2 * tokens.countP (· ∈ operators) = tokens.length := by
  induction tokens using deleteRedirections.induct with
  | case1 => rfl
  | case2 arg hop => exact absurd (isOperator_iff.mp hop) h
  | case3 arg hop =>
    have harg : arg ∉ operators := h
    rw [deleteRedirections, if_neg hop, List.countP_cons_of_neg (by simpa using harg)]
    rfl
  | case4 arg file rest hop ih =>
    have harg : arg ∈ operators := isOperator_iff.mp hop
    have hfile : file ∉ operators := h.1 harg
    have hrest := ih h.tail.tail
    rw [deleteRedirections_operator harg, List.countP_cons_of_pos (by simpa using harg),
      List.countP_cons_of_neg (by simpa using hfile), List.length_cons, List.length_cons]
    omega
  | case5 arg file rest hop ih =>
    have harg : arg ∉ operators := fun hmem => hop (isOperator_iff.mpr hmem)
    have hrest := ih h.tail
    rw [deleteRedirections_cons harg, List.countP_cons_of_neg (by simpa using harg),
      List.length_cons, List.length_cons]
    omega

/-! ## The loops of the child -/

/-- The arguments that `execvp` is given for a line. -/
def commandArgv (st : ShellState) (line : Line) : Option (List Token) :=
  match runLine st line with
  | some (.forked child, _) => child.argv.map toList
  | _ => none

/-- The lines whose arguments the two loops get right: no argument is an operator, the next to last
one only, or the two that are the fourth and the second from the end, if both loops are run and the
first one deletes the later of them. -/
def Deletable (inFlag outFlag : Bool) (tokens : List Token) : Prop :=
  (∀ arg ∈ tokens, arg ∉ operators) ∨
    (∃ pre op file, tokens = pre ++ [op, file] ∧ op ∈ operators ∧ ∀ arg ∈ pre, arg ∉ operators) ∨
    inFlag = true ∧ outFlag = true ∧ ∃ pre op file op' file',
      tokens = pre ++ [op, file, op', file'] ∧ op ∈ operators ∧ op' ∈ inOps ∧
        ∀ arg ∈ pre, arg ∉ operators

theorem mem_operators_of_inOps (h : arg ∈ inOps) : arg ∈ operators := by
  simp only [inOps, operators, List.mem_cons, List.not_mem_nil, or_false] at h ⊢
  tauto

theorem mem_outOps_iff : arg ∈ outOps ↔ arg ∈ operators := by
  simp only [outOps, operators, List.mem_cons, List.not_mem_nil, or_false]
  tauto

theorem inHit_eq_false (h : arg ∉ operators) : inHit st arg = false := by
  simp only [inHit, Bool.and_eq_false_iff, decide_eq_false_iff_not]
  exact Or.inr fun hmem => h (mem_operators_of_inOps hmem)

theorem outHit_eq_false (h : arg ∉ operators) : outHit st arg = false := by
  simp only [outHit, Bool.and_eq_false_iff, decide_eq_false_iff_not, mem_outOps_iff]
  exact Or.inr h

theorem inHit_of_mem (hin : st.inFlag = true) (h : arg ∈ inOps) : inHit st arg = true := by
  rw [inHit, hin, Bool.true_and]
  exact decide_eq_true h

theorem outHit_of_mem (hout : st.outFlag = true) (h : arg ∈ operators) : outHit st arg = true := by
  rw [outHit, hout, Bool.true_and]
  exact decide_eq_true (mem_outOps_iff.mpr h)

/-- One of the loops deletes an operator of the line. -/
theorem inHit_or_outHit (hin : raisesIn tokens = true → st.inFlag = true)
    (hout : raisesOut tokens = true → st.outFlag = true) (hmem : arg ∈ tokens)
    (hop : arg ∈ operators) : inHit st arg = true ∨ outHit st arg = true := by
  by_cases hlt : arg = inOp
  · left
    subst hlt
    exact inHit_of_mem (hin (decide_eq_true hmem)) List.mem_cons_self
  · right
    have hraises : raisesOut tokens = true := by
      refine List.any_eq_true.mpr ⟨arg, hmem, decide_eq_true ?_⟩
      simp only [operators, List.mem_cons, List.not_mem_nil, or_false] at hop ⊢
      tauto
    exact outHit_of_mem (hout hraises) hop

/-- An operator that the first loop leaves is deleted by the second one. -/
theorem outHit_of_inHit_eq_false (hin : raisesIn tokens = true → st.inFlag = true)
    (hout : raisesOut tokens = true → st.outFlag = true) (hmem : arg ∈ tokens)
    (hop : arg ∈ operators) (hfirst : inHit st arg = false) : outHit st arg = true := by
  rcases inHit_or_outHit hin hout hmem hop with hhit | hhit
  · rw [hfirst] at hhit
    cases hhit
  · exact hhit

theorem countP_eq_zero_iff :
    tokens.countP (· ∈ operators) = 0 ↔ ∀ arg ∈ tokens, arg ∉ operators := by
  simp [List.countP_eq_zero]

theorem inFlag_of_inHit (h : inHit st arg = true) : st.inFlag = true ∧ arg ∈ inOps :=
  ⟨(Bool.and_eq_true_iff.mp h).1, of_decide_eq_true (Bool.and_eq_true_iff.mp h).2⟩

theorem outFlag_of_outHit (h : outHit st arg = true) : st.outFlag = true ∧ arg ∈ operators :=
  ⟨(Bool.and_eq_true_iff.mp h).1,
    mem_outOps_iff.mp (of_decide_eq_true (Bool.and_eq_true_iff.mp h).2)⟩

/-- Two arguments for each operator are taken away for these lines only. -/
theorem deletable_of_length (hfiles : FilesFollow tokens)
    (hlen : (dropPair (outHit st) (dropPair (inHit st) tokens)).length +
      2 * tokens.countP (· ∈ operators) = tokens.length) :
    Deletable st.inFlag st.outFlag tokens := by
  obtain rfl | ⟨arg, rfl⟩ | ⟨ys, a, b, rfl⟩ := pair_cases tokens
  · exact Or.inl (by simp)
  · have harg : arg ∉ operators := hfiles
    exact Or.inl (by simpa using harg)
  · have hb : b ∉ operators := hfiles.of_append.2
    have hone : a ∈ operators → ys.countP (· ∈ operators) = 0 →
        Deletable st.inFlag st.outFlag (ys ++ [a, b]) := fun ha hys =>
      Or.inr (Or.inl ⟨ys, a, b, rfl, ha, countP_eq_zero_iff.mp hys⟩)
    have hcount : (ys ++ [a, b]).countP (· ∈ operators) =
        ys.countP (· ∈ operators) + if a ∈ operators then 1 else 0 := by
      simp [List.countP_append, List.countP_cons, hb]
    rw [dropPair_pair] at hlen
    cases hin : inHit st a with
    | false =>
      rw [hin, if_neg (by simp), dropPair_pair] at hlen
      cases hout : outHit st a with
      | false =>
        rw [hout, if_neg (by simp)] at hlen
        exact Or.inl (countP_eq_zero_iff.mp (by omega))
      | true =>
        have ha := (outFlag_of_outHit hout).2
        rw [hout, if_pos rfl, List.length_append, List.length_cons, List.length_singleton] at hlen
        rw [if_pos ha] at hcount
        exact hone ha (by omega)
    | true =>
      have ha := mem_operators_of_inOps (inFlag_of_inHit hin).2
      rw [if_pos ha] at hcount
      rw [hin, if_pos rfl, List.length_append, List.length_cons, List.length_singleton] at hlen
      obtain rfl | ⟨y, rfl⟩ | ⟨ws, c, d, rfl⟩ := pair_cases ys
      · exact hone ha rfl
      · rw [dropPair_singleton] at hlen
        exact hone ha (by omega)
      · rw [dropPair_pair] at hlen
        cases hout : outHit st c with
        | false =>
          rw [hout, if_neg (by simp)] at hlen
          exact hone ha (by omega)
        | true =>
          obtain ⟨houtFlag, hc⟩ := outFlag_of_outHit hout
          have hpre : (ws ++ [c, d]).countP (· ∈ operators) = ws.countP (· ∈ operators) +
              (1 + [d].countP (· ∈ operators)) := by
            rw [List.countP_append, List.countP_cons_of_pos (by simpa using hc), Nat.add_comm 1]
          rw [hout, if_pos rfl, List.length_append, List.length_cons, List.length_singleton] at hlen
          exact Or.inr (Or.inr ⟨(inFlag_of_inHit hin).1, houtFlag, ws, c, d, a, b, by simp, hc,
            (inFlag_of_inHit hin).2, countP_eq_zero_iff.mp (by omega)⟩)

theorem inHit_of_pre (h : ∀ arg ∈ pre, arg ∉ operators) : ∀ arg ∈ pre, inHit st arg = false :=
  fun arg harg => inHit_eq_false (h arg harg)

theorem outHit_of_pre (h : ∀ arg ∈ pre, arg ∉ operators) : ∀ arg ∈ pre, outHit st arg = false :=
  fun arg harg => outHit_eq_false (h arg harg)

/-- The second loop, where the null pointer is two places behind an operator. -/
theorem closeUp_outHit {op : Token} {cells : List (Option Token)}
    (hpre : ∀ arg ∈ pre, arg ∉ operators) (hfile : file ∉ operators)
    (hop : outHit st op = true) :
    closeUp (outHit st) (pre.map some ++ some op :: some file :: none :: cells) =
      some (pre.map some ++ none :: some file :: none :: cells) := by
  rw [closeUp_delete (outHit_of_pre hpre) hop (outHit_eq_false hfile), closeUp_null]
  rfl

/-- An operator before the last argument. -/
theorem rewriteArgs_one {op : Token} (hpre : ∀ arg ∈ pre, arg ∉ operators)
    (hfile : file ∉ operators) (hop : inHit st op = true ∨ outHit st op = true) :
    rewriteArgs st (ofList (pre ++ [op, file])) =
      some (pre.map some ++ none :: [some file, none]) := by
  have hcells : ofList (pre ++ [op, file]) = pre.map some ++ some op :: some file :: [none] := by
    simp [ofList]
  rw [rewriteArgs_eq, hcells]
  cases hin : inHit st op with
  | true =>
    rw [closeUp_delete (inHit_of_pre hpre) hin (inHit_eq_false hfile), closeUp_null,
      Option.map_some, Option.bind_some, closeUp_of_forall (outHit_of_pre hpre)]
  | false =>
    have hout : outHit st op = true := by simpa [hin] using hop
    rw [closeUp_append (inHit_of_pre hpre), closeUp_cons_neg hin,
      closeUp_cons_neg (inHit_eq_false hfile), closeUp_null, Option.map_some, Option.map_some,
      Option.map_some, Option.bind_some, closeUp_outHit hpre hfile hout]

/-- Two operators, the second of which is deleted by both loops. The first loop leaves one of them
before the null pointer. -/
theorem rewriteArgs_two {op op' file' : Token} (hpre : ∀ arg ∈ pre, arg ∉ operators)
    (hfile : file ∉ operators) (hfile' : file' ∉ operators)
    (hop : inHit st op = true ∨ outHit st op = true) (hin' : inHit st op' = true)
    (hout' : outHit st op' = true) :
    rewriteArgs st (ofList (pre ++ [op, file, op', file'])) =
      some (pre.map some ++ none :: some file :: none :: [some file', none]) := by
  have hcells : ofList (pre ++ [op, file, op', file']) =
      pre.map some ++ some op :: some file :: some op' :: some file' :: [none] := by
    simp [ofList]
  have hrest : closeUp (inHit st) (some op' :: some file' :: [none]) =
      some (none :: some file' :: [none]) := by
    rw [closeUp_cons_pos hin', closeUp_cons_neg (inHit_eq_false hfile'), closeUp_null]
    rfl
  rw [rewriteArgs_eq, hcells]
  cases hin : inHit st op with
  | true =>
    rw [closeUp_delete (inHit_of_pre hpre) hin (inHit_eq_false hfile), hrest, Option.map_some,
      Option.bind_some, closeUp_outHit hpre hfile hout']
  | false =>
    have hout : outHit st op = true := by simpa [hin] using hop
    rw [closeUp_append (inHit_of_pre hpre), closeUp_cons_neg hin,
      closeUp_cons_neg (inHit_eq_false hfile), hrest, Option.map_some, Option.map_some,
      Option.map_some, Option.bind_some, closeUp_outHit hpre hfile hout]

/-- For these lines the loops leave the line without its redirections. -/
theorem rewriteArgs_of_deletable (hfiles : FilesFollow tokens)
    (hin : raisesIn tokens = true → st.inFlag = true)
    (hout : raisesOut tokens = true → st.outFlag = true)
    (h : Deletable st.inFlag st.outFlag tokens) :
    (rewriteArgs st (ofList tokens)).map toList = some (deleteRedirections tokens) := by
  rcases h with hnone | ⟨pre, op, file, rfl, hop, hpre⟩ | ⟨hinFlag, houtFlag, pre, op, file, op',
    file', rfl, hop, hop', hpre⟩
  · rw [deleteRedirections_of_forall hnone, rewriteArgs_eq, ofList,
      closeUp_of_forall (inHit_of_pre hnone), Option.bind_some,
      closeUp_of_forall (outHit_of_pre hnone), Option.map_some, toList_append]
  · have hfile : file ∉ operators := hfiles.of_append.2
    rw [deleteRedirections_append hpre, deleteRedirections_operator hop, deleteRedirections,
      List.append_nil, rewriteArgs_one hpre hfile (inHit_or_outHit hin hout (by simp) hop),
      Option.map_some, toList_append]
  · have hrest := hfiles.of_append
    have hfile : file ∉ operators := hrest.1 hop
    have hfile' : file' ∉ operators := hrest.tail.tail.2
    have hop'mem := mem_operators_of_inOps hop'
    have hin' := inHit_of_mem hinFlag hop'
    have hout' := outHit_of_mem houtFlag hop'mem
    rw [deleteRedirections_append hpre, deleteRedirections_operator hop,
      deleteRedirections_operator hop'mem, deleteRedirections, List.append_nil,
      rewriteArgs_two hpre hfile hfile' (inHit_or_outHit hin hout (by simp) hop) hin' hout',
      Option.map_some, toList_append]

/-- The loops leave the line without its redirections for these lines only. -/
theorem rewriteArgs_iff (hfiles : FilesFollow tokens)
    (hin : raisesIn tokens = true → st.inFlag = true)
    (hout : raisesOut tokens = true → st.outFlag = true) :
    (rewriteArgs st (ofList tokens)).map toList = some (deleteRedirections tokens) ↔
      Deletable st.inFlag st.outFlag tokens := by
  refine ⟨fun h => ?_, rewriteArgs_of_deletable hfiles hin hout⟩
  obtain ⟨out, hargs, hlist⟩ := Option.map_eq_some_iff.mp h
  rw [rewriteArgs_eq] at hargs
  obtain ⟨mid, hmid, hout'⟩ := Option.bind_eq_some_iff.mp hargs
  have hlen := length_toList_twice (outHit_of_inHit st) hmid hout'
  rw [hlist] at hlen
  have hdelete := length_deleteRedirections hfiles
  rw [hlen] at hdelete
  exact deletable_of_length hfiles hdelete

/-- What `execvp` is given for a command. -/
theorem commandArgv_eq (hcommand : isCommand line.tokens = true)
    (h : parseArgs line.opens 0 (ofList line.tokens) st = some st') :
    commandArgv st line = (child st' (ofList line.tokens)).argv.map toList := by
  rw [commandArgv, runLine_command hcommand h]

/-- A command whose operators have file names behind them, and that is not `echo` with a string in
quotes, is given the line without its redirections exactly if it is not `echo` alone and the line is
one that the two loops get right. -/
theorem commandArgv_iff (st : ShellState) (hcommand : isCommand line.tokens = true)
    (hquoted : isQuotedEcho line.tokens = false) (hfiles : FilesFollow line.tokens) :
    commandArgv st line = some (deleteRedirections line.tokens) ↔
      line.tokens ≠ [echoName] ∧
        Deletable (st.inFlag || raisesIn line.tokens) (st.outFlag || raisesOut line.tokens)
          line.tokens := by
  have hne := ne_nil_of_isCommand hcommand
  obtain ⟨inFd, outFd, hparse⟩ := parseArgs_eq line.opens 0 line.tokens
  rw [commandArgv_eq hcommand (hparse st)]
  by_cases hecho : line.tokens = [echoName]
  · rw [hecho, child_echo]
    simp
  · rw [child_other hne hecho hquoted, rewriteArgs_iff hfiles]
    · simp [hecho]
    · intro hraises
      simp [hraises]
    · intro hraises
      simp [hraises]

/-- `cat < a > b` in a new shell. -/
theorem commandArgv_iff_both :
    commandArgv .init ⟨[[99, 97, 116], inOp, [97], outOp, [98]], fun _ _ _ => 3⟩ =
      some (deleteRedirections [[99, 97, 116], inOp, [97], outOp, [98]]) := by
  refine (commandArgv_iff .init rfl rfl (by decide)).mpr ⟨by decide, Or.inr (Or.inr ⟨rfl, rfl, ?_⟩)⟩
  exact ⟨[[99, 97, 116]], inOp, [97], outOp, [98], rfl, by decide, by decide, by decide⟩

/-- With `ls > x y`, the file name is still an argument. -/
theorem commandArgv_fails : ¬ ∀ (st : ShellState) (line : Line), isCommand line.tokens = true →
    isQuotedEcho line.tokens = false → FilesFollow line.tokens →
      commandArgv st line = some (deleteRedirections line.tokens) := by
  intro hall
  have hargv := hall .init ⟨[[108, 115], outOp, [120], [121]], fun _ _ _ => 3⟩ rfl rfl (by decide)
  revert hargv
  decide

end EmbeddedOs.Shell
