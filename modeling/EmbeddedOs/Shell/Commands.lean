import EmbeddedOs.Lib.Flags
import EmbeddedOs.Lib.NullArray
import EmbeddedOs.Shell.Lexer

/-!
# The commands of the shell

The loop of `main` over command lines. A line is the array that `get_args` returns and what the
calls of `open` for it return. Every access to the array is checked: where one is behind the null
pointer at its end, or a null pointer is followed, there is no result.
-/

namespace EmbeddedOs.Shell

open Lib.NullArray

/-! ## Strings of the source -/

/-- `<`. -/
def inOp : Token := [60]

/-- `>`. -/
def outOp : Token := [62]

/-- `>>`. -/
def appendOp : Token := [62, 62]

/-- `>&`. -/
def bothOp : Token := [62, 38]

/-- The operators. -/
def operators : List Token := [inOp, outOp, appendOp, bothOp]

/-- Whether an argument is an operator. -/
def isOperator (arg : Token) : Bool := decide (arg ∈ operators)

/-- The operators of the loop after `in_flag`. -/
def inOps : List Token := [inOp, outOp, bothOp]

/-- The operators of the loop after `out_flag`. -/
def outOps : List Token := [outOp, inOp, bothOp, appendOp]

/-- `exit`. -/
def exitName : Token := [101, 120, 105, 116]

/-- `cd`. -/
def cdName : Token := [99, 100]

/-- `echo`. -/
def echoName : Token := [101, 99, 104, 111]

/-- `quote`. -/
def quote : UInt8 := 34

/-- The character of `delim`. -/
def delim : UInt8 := 32

/-! ## State -/

/-- The flags that the shell gives to `open`. -/
inductive OpenFlags
  /-- `O_RDONLY`. -/
  | rdonly
  /-- `O_WRONLY | O_APPEND`. -/
  | append
  /-- `O_RDWR | O_CREAT | O_TRUNC`. -/
  | create
  deriving DecidableEq

/-- A call of the child on its descriptors. -/
inductive Call
  /-- `close`. -/
  | close (fd : ℤ)
  /-- `dup2`. -/
  | dup2 (oldfd newfd : ℤ)
  deriving DecidableEq

/-- The variables of `main` that outlive a line. -/
structure ShellState where
  /-- `in_fd`. -/
  inFd : ℤ
  /-- `out_fd`. -/
  outFd : ℤ
  /-- `in_flag`. -/
  inFlag : Bool
  /-- `out_flag`. -/
  outFlag : Bool
  /-- `ampersand`. -/
  ampersand : Bool
  /-- `redir_app`. -/
  redirApp : Bool
  deriving DecidableEq

/-- The variables before the first line. -/
def ShellState.init : ShellState := ⟨0, 0, false, false, false, false⟩

/-- What `open` returns for the argument `i`, with its path and flags. -/
abbrev Opens := ℕ → Option Token → OpenFlags → ℤ

/-- A line of input. -/
structure Line where
  /-- The arguments. -/
  tokens : List Token
  /-- What the calls of `open` return. -/
  opens : Opens

/-! ## Arguments -/

/-- A round of the first loop: `args[i]` is `arg`, and `rest` is behind it. -/
def parseArg (opens : Opens) (i : ℕ) (arg : Token) (rest : List (Option Token)) (st : ShellState) :
    Option ShellState := do
  let st ← if arg = inOp then
      rest[0]?.map fun path => { st with inFlag := true, inFd := opens i path .rdonly }
    else some st
  let st ← if arg = appendOp then
      rest[0]?.map fun path =>
        { st with redirApp := true, outFlag := true, outFd := opens i path .append }
    else if arg = outOp ∨ arg = bothOp then
      rest[0]?.map fun path => { st with outFlag := true, outFd := opens i path .create }
    else some st
  some (if arg = bothOp then { st with ampersand := true } else st)

/-- The loop over the arguments from `i` on. -/
def parseArgs (opens : Opens) : ℕ → List (Option Token) → ShellState → Option ShellState
  | _, [], _ => none
  | _, none :: _, st => some st
  | i, some arg :: rest, st => (parseArg opens i arg rest st).bind (parseArgs opens (i + 1) rest)

/-! ## The child -/

/-- What a child does up to `execvp`. -/
structure Child where
  /-- The calls that set up its descriptors. -/
  setup : List Call
  /-- The array that is handed to `execvp`. -/
  argv : Option (List (Option Token))

/-- Whether the command is `echo` with a string in quotes. -/
def quotedEcho (args : List (Option Token)) : Option Bool := do
  let arg0 ← (← args[0]?)
  if arg0 = echoName then
    let arg1 ← (← args[1]?)
    some (arg1.head? = some quote && arg1.getLast? = some quote)
  else some false

/-- The words of a string, as `strtok` finds them. -/
def words (s : Token) : List Token := (s.splitOn delim).filter (· ≠ [])

/-- `argslist[idx++] = ptr` for each word. -/
def storeWords : List Token → ℕ → List (Option Token) → Option (List (Option Token))
  | [], _, argslist => some argslist
  | ptr :: ptrs, idx, argslist =>
    if idx < argslist.length then storeWords ptrs (idx + 1) (argslist.set idx (some ptr)) else none

/-- The arguments of `echo`: the string without its first and its last character is split. -/
def echoArgs (args : List (Option Token)) : Option (List (Option Token)) := do
  let arg1 ← (← args[1]?)
  let argslist := (List.replicate 100 none).set 0 (some echoName)
  storeWords (words arg1.tail.dropLast) 1 argslist

/-- A loop that deletes operators and what is behind them. -/
def deleteArgs (ops : List Token) (args : List (Option Token)) : Option (List (Option Token)) :=
  closeUp (fun arg => decide (arg ∈ ops)) args

/-- The calls before and after the loops that delete arguments. -/
def setupCalls (st : ShellState) : List Call :=
  let input := if st.inFlag then [Call.close st.inFd] else []
  let both := if st.ampersand then [Call.dup2 2 1] else []
  let output := if st.outFlag then both ++ [Call.dup2 st.outFd 1, Call.close st.outFd] else []
  input ++ output

/-- The loops that delete arguments. -/
def rewriteArgs (st : ShellState) (args : List (Option Token)) : Option (List (Option Token)) :=
  let args := if st.inFlag then deleteArgs inOps args else some args
  if st.outFlag then args.bind (deleteArgs outOps) else args

/-- The child of a command. What it sets up does not depend on what the loops read. -/
def child (st : ShellState) (args : List (Option Token)) : Child :=
  match quotedEcho args with
  | none => ⟨[], none⟩
  | some true => ⟨[], echoArgs args⟩
  | some false => ⟨setupCalls st, rewriteArgs st args⟩

/-! ## Lines -/

/-- What becomes of a line. -/
inductive Event
  /-- There are no arguments. -/
  | noArguments
  /-- The shell ends. -/
  | exiting
  /-- `chdir`, with its path. -/
  | chdir (path : Option Token)
  /-- A child is forked. -/
  | forked (child : Child)

/-- A round of the main loop. -/
def runLine (st : ShellState) (line : Line) : Option (Event × ShellState) := do
  let args := ofList line.tokens
  let st ← parseArgs line.opens 0 args st
  match ← args[0]? with
  | none => some (.noArguments, st)
  | some arg0 =>
    if arg0 = exitName then some (.exiting, st)
    else if arg0 = cdName then args[1]?.map fun path => (.chdir path, st)
    else some (.forked (child st args),
      { st with inFlag := false, outFlag := false, ampersand := false })

/-- The variables after lines, if the shell still reads lines then. -/
def run (st : ShellState) : List Line → Option ShellState
  | [] => some st
  | line :: lines =>
    match runLine st line with
    | some (.noArguments, st) => run st lines
    | some (.chdir _, st) => run st lines
    | some (.forked _, st) => run st lines
    | some (.exiting, _) => none
    | none => none

/-! ## Arguments of a line -/

variable {st st' : ShellState} {line : Line} {tokens : List Token}

/-- Whether a line sets `in_flag`. -/
def raisesIn (tokens : List Token) : Bool := decide (inOp ∈ tokens)

/-- Whether a line sets `out_flag`. -/
def raisesOut (tokens : List Token) : Bool :=
  tokens.any fun arg => arg ∈ [appendOp, outOp, bothOp]

/-- Whether a line sets `ampersand`. -/
def raisesBoth (tokens : List Token) : Bool := decide (bothOp ∈ tokens)

theorem raisesIn_cons (arg : Token) :
    raisesIn (arg :: tokens) = (decide (arg = inOp) || raisesIn tokens) := by
  simp [raisesIn, eq_comm]

theorem raisesOut_cons (arg : Token) :
    raisesOut (arg :: tokens) =
      (decide (arg ∈ [appendOp, outOp, bothOp]) || raisesOut tokens) := by
  simp [raisesOut]

theorem raisesBoth_cons (arg : Token) :
    raisesBoth (arg :: tokens) = (decide (arg = bothOp) || raisesBoth tokens) := by
  simp [raisesBoth, eq_comm]

/-- A round of the first loop. -/
theorem parseArg_eq (opens : Opens) (i : ℕ) (arg : Token) (path : Option Token)
    (rest : List (Option Token)) (st : ShellState) :
    parseArg opens i arg (path :: rest) st = some
      { inFd := if arg = inOp then opens i path .rdonly else st.inFd
        outFd := if arg = appendOp then opens i path .append
          else if arg = outOp ∨ arg = bothOp then opens i path .create else st.outFd
        inFlag := st.inFlag || arg = inOp
        outFlag := st.outFlag || arg ∈ [appendOp, outOp, bothOp]
        ampersand := st.ampersand || arg = bothOp
        redirApp := st.redirApp || arg = appendOp } := by
  by_cases hin : arg = inOp
  · subst hin
    simp [parseArg, inOp, appendOp, outOp, bothOp]
  by_cases happend : arg = appendOp
  · subst happend
    simp [parseArg, inOp, appendOp, outOp, bothOp]
  by_cases hout : arg = outOp
  · subst hout
    simp [parseArg, inOp, appendOp, outOp, bothOp]
  by_cases hboth : arg = bothOp
  · subst hboth
    simp [parseArg, inOp, appendOp, outOp, bothOp]
  simp [parseArg, hin, happend, hout, hboth]

/-- The first loop stays inside the array. A descriptor that the line does not open and a flag that
it does not set are those from before. -/
theorem parseArgs_eq (opens : Opens) (i : ℕ) (tokens : List Token) : ∃ inFd outFd : ℤ, ∀ st,
    parseArgs opens i (ofList tokens) st = some
      { inFd := if raisesIn tokens then inFd else st.inFd
        outFd := if raisesOut tokens then outFd else st.outFd
        inFlag := st.inFlag || raisesIn tokens
        outFlag := st.outFlag || raisesOut tokens
        ampersand := st.ampersand || raisesBoth tokens
        redirApp := st.redirApp || decide (appendOp ∈ tokens) } := by
  induction tokens generalizing i with
  | nil => exact ⟨0, 0, fun st => by simp [ofList, parseArgs, raisesIn, raisesOut, raisesBoth]⟩
  | cons arg tokens ih =>
    obtain ⟨inFd, outFd, hih⟩ := ih (i + 1)
    obtain ⟨path, rest, hrest⟩ : ∃ path rest, ofList tokens = path :: rest :=
      List.exists_cons_of_ne_nil (by simp [ofList])
    have hcons : ofList (arg :: tokens) = some arg :: ofList tokens := rfl
    refine ⟨if raisesIn tokens then inFd else opens i path .rdonly,
      if raisesOut tokens then outFd
        else if arg = appendOp then opens i path .append else opens i path .create, fun st => ?_⟩
    have harg := parseArg_eq opens i arg path rest st
    rw [← hrest] at harg
    have hout : arg ∈ [appendOp, outOp, bothOp] ↔ arg = appendOp ∨ arg = outOp ∨ arg = bothOp := by
      simp
    rw [hcons, parseArgs, harg, Option.bind_some, hih, raisesIn_cons, raisesOut_cons,
      raisesBoth_cons, Option.some.injEq, ShellState.mk.injEq]
    refine ⟨?_, ?_, Bool.or_assoc _ _ _, Bool.or_assoc _ _ _, Bool.or_assoc _ _ _, ?_⟩
    · cases raisesIn tokens <;> simp
    · cases raisesOut tokens with
      | true => simp
      | false =>
        by_cases happend : arg = appendOp
        · simp [happend]
        · by_cases hcreate : arg = outOp ∨ arg = bothOp <;> simp [happend, hcreate]
    · simp [Bool.or_assoc, eq_comm]

/-- Whether a line is `echo` with a string in quotes. -/
def isQuotedEcho : List Token → Bool
  | arg0 :: arg1 :: _ =>
    decide (arg0 = echoName) && (arg1.head? = some quote && arg1.getLast? = some quote)
  | _ => false

/-- A null pointer is followed if `echo` has no argument. -/
theorem quotedEcho_eq (hne : tokens ≠ []) :
    quotedEcho (ofList tokens) =
      if tokens = [echoName] then none else some (isQuotedEcho tokens) := by
  match tokens with
  | [] => exact absurd rfl hne
  | [arg0] =>
    by_cases hecho : arg0 = echoName <;> simp [quotedEcho, ofList, isQuotedEcho, hecho]
  | arg0 :: arg1 :: rest =>
    by_cases hecho : arg0 = echoName <;> simp [quotedEcho, ofList, isQuotedEcho, hecho]

theorem child_echo : child st (ofList [echoName]) = ⟨[], none⟩ := by
  rw [child, quotedEcho_eq (List.cons_ne_nil _ _), if_pos rfl]

theorem child_quotedEcho (h : isQuotedEcho tokens = true) :
    child st (ofList tokens) = ⟨[], echoArgs (ofList tokens)⟩ := by
  have hne : tokens ≠ [] := by
    rintro rfl
    cases h
  have hecho : tokens ≠ [echoName] := by
    rintro rfl
    cases h
  rw [child, quotedEcho_eq hne, if_neg hecho, h]

theorem child_other (hne : tokens ≠ []) (hecho : tokens ≠ [echoName])
    (h : isQuotedEcho tokens = false) :
    child st (ofList tokens) = ⟨setupCalls st, rewriteArgs st (ofList tokens)⟩ := by
  rw [child, quotedEcho_eq hne, if_neg hecho, h]

/-! ## The loops of the child -/

/-- The operators that the first loop deletes. -/
def inHit (st : ShellState) : Token → Bool := fun arg => st.inFlag && decide (arg ∈ inOps)

/-- The operators that the second loop deletes. -/
def outHit (st : ShellState) : Token → Bool := fun arg => st.outFlag && decide (arg ∈ outOps)

/-- A loop that is not run is a walk that deletes nothing. -/
theorem closeUp_flag (flag : Bool) (ops : List Token) {args : List (Option Token)}
    (h : none ∈ args) : closeUp (fun arg => flag && decide (arg ∈ ops)) args =
      if flag then deleteArgs ops args else some args := by
  cases flag with
  | true =>
    simp only [Bool.true_and]
    rfl
  | false => exact closeUp_false h

/-- The loops are two walks over the array. -/
theorem rewriteArgs_eq : rewriteArgs st (ofList tokens) =
    (closeUp (inHit st) (ofList tokens)).bind (closeUp (outHit st)) := by
  have hfirst : (if st.inFlag then deleteArgs inOps (ofList tokens) else some (ofList tokens)) =
      closeUp (inHit st) (ofList tokens) :=
    (closeUp_flag st.inFlag inOps (by simp [ofList])).symm
  rw [rewriteArgs, hfirst]
  cases hmid : closeUp (inHit st) (ofList tokens) with
  | none =>
    cases st.outFlag <;> rfl
  | some mid =>
    rw [Option.bind_some, Option.bind_some]
    exact (closeUp_flag st.outFlag outOps (null_mem_closeUp hmid)).symm

theorem outHit_of_inHit (st : ShellState) :
    (∀ arg, inHit st arg = true → outHit st arg = true) ∨ ∀ arg, outHit st arg = false := by
  cases hout : st.outFlag with
  | true =>
    left
    intro arg harg
    have hmem : arg ∈ inOps := of_decide_eq_true (Bool.and_eq_true_iff.mp harg).2
    simp only [outHit, hout, Bool.true_and, decide_eq_true_eq]
    simp only [inOps, outOps, List.mem_cons, List.not_mem_nil, or_false] at hmem ⊢
    tauto
  | false =>
    right
    intro arg
    rw [outHit, hout, Bool.false_and]

/-! ## Rounds of the main loop -/

/-- Whether a line is a command that a child is forked for. -/
def isCommand : List Token → Bool
  | [] => false
  | arg0 :: _ => decide (arg0 ≠ exitName ∧ arg0 ≠ cdName)

theorem ne_nil_of_isCommand (h : isCommand tokens = true) : tokens ≠ [] := by
  rintro rfl
  cases h

/-- What a round does with the arguments, once the first loop has set the flags. -/
theorem runLine_eq (h : parseArgs line.opens 0 (ofList line.tokens) st = some st') :
    runLine st line =
      match line.tokens with
      | [] => some (.noArguments, st')
      | arg0 :: rest =>
        if arg0 = exitName then some (.exiting, st')
        else if arg0 = cdName then some (.chdir rest.head?, st')
        else some (.forked (child st' (ofList line.tokens)),
          { st' with inFlag := false, outFlag := false, ampersand := false }) := by
  rw [runLine, h]
  cases line.tokens with
  | nil => rfl
  | cons arg0 rest =>
    cases rest <;> rfl

theorem runLine_command (hcommand : isCommand line.tokens = true)
    (h : parseArgs line.opens 0 (ofList line.tokens) st = some st') :
    runLine st line = some (.forked (child st' (ofList line.tokens)),
      { st' with inFlag := false, outFlag := false, ampersand := false }) := by
  rw [runLine_eq h]
  cases htokens : line.tokens with
  | nil => rw [htokens] at hcommand; cases hcommand
  | cons arg0 rest =>
    rw [htokens] at hcommand
    obtain ⟨hexit, hcd⟩ := of_decide_eq_true hcommand
    simp only [if_neg hexit, if_neg hcd]

theorem runLine_builtin (hbuiltin : isCommand line.tokens = false)
    (h : parseArgs line.opens 0 (ofList line.tokens) st = some st') :
    ∃ event, runLine st line = some (event, st') ∧ ∀ child, event ≠ .forked child := by
  rw [runLine_eq h]
  cases htokens : line.tokens with
  | nil => exact ⟨.noArguments, rfl, by simp⟩
  | cons arg0 rest =>
    rw [htokens] at hbuiltin
    by_cases hexit : arg0 = exitName
    · exact ⟨.exiting, if_pos hexit, by simp⟩
    · by_cases hcd : arg0 = cdName
      · exact ⟨.chdir rest.head?, by simp only [if_neg hexit, if_pos hcd], by simp⟩
      · exact absurd ⟨hexit, hcd⟩ (of_decide_eq_false hbuiltin)

/-- A flag outlives a line that is no command. -/
theorem runLine_flags {event : Event} (h : runLine st line = some (event, st')) :
    st'.inFlag = Lib.Flags.step (raisesIn ·.tokens) (isCommand ·.tokens) st.inFlag line ∧
      st'.outFlag = Lib.Flags.step (raisesOut ·.tokens) (isCommand ·.tokens) st.outFlag line ∧
      st'.ampersand =
        Lib.Flags.step (raisesBoth ·.tokens) (isCommand ·.tokens) st.ampersand line := by
  obtain ⟨inFd, outFd, hparse⟩ := parseArgs_eq line.opens 0 line.tokens
  simp only [Lib.Flags.step]
  cases hcommand : isCommand line.tokens with
  | true =>
    rw [runLine_command hcommand (hparse st)] at h
    cases h
    exact ⟨rfl, rfl, rfl⟩
  | false =>
    obtain ⟨event', hrun, -⟩ := runLine_builtin hcommand (hparse st)
    rw [hrun] at h
    cases h
    simp

/-- A line that the shell goes on after. -/
theorem run_cons {lines : List Line} (h : run st (line :: lines) = some st') :
    ∃ event st₁, runLine st line = some (event, st₁) ∧ run st₁ lines = some st' := by
  rw [run] at h
  split at h
  case h_1 st₁ hrun => exact ⟨_, st₁, hrun, h⟩
  case h_2 st₁ hrun => exact ⟨_, st₁, hrun, h⟩
  case h_3 st₁ hrun => exact ⟨_, st₁, hrun, h⟩
  all_goals cases h

/-- The flags after lines. -/
theorem run_flags {lines : List Line} (h : run st lines = some st') :
    st'.inFlag = Lib.Flags.after (raisesIn ·.tokens) (isCommand ·.tokens) st.inFlag lines ∧
      st'.outFlag = Lib.Flags.after (raisesOut ·.tokens) (isCommand ·.tokens) st.outFlag lines ∧
      st'.ampersand =
        Lib.Flags.after (raisesBoth ·.tokens) (isCommand ·.tokens) st.ampersand lines := by
  induction lines generalizing st with
  | nil =>
    cases h
    exact ⟨rfl, rfl, rfl⟩
  | cons line lines ih =>
    obtain ⟨event, st₁, hline, hlines⟩ := run_cons h
    obtain ⟨hin, hout, hboth⟩ := runLine_flags hline
    have hrest := ih hlines
    rwa [hin, hout, hboth] at hrest

end EmbeddedOs.Shell
