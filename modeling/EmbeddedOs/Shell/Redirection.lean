import EmbeddedOs.Shell.Commands

/-!
# Redirection over several lines

The flags of a line are cleared behind a command only. Behind `cd` they stay, and the next command
is redirected by them.
-/

namespace EmbeddedOs.Shell

open Lib.NullArray

variable {st st' : ShellState} {line : Line} {lines : List Line}

/-- What the child of a line sets up, if there is a child. -/
def lineSetup (st : ShellState) (line : Line) : Option (List Call) :=
  match runLine st line with
  | some (.forked child, _) => some child.setup
  | _ => none

/-- The lines since the last command. -/
def pendingLines (lines : List Line) : List Line := Lib.Flags.pending (isCommand ·.tokens) lines

/-- A flag that a line since the last command sets is set by the next line as well. -/
def Covered (raises : List Token → Bool) (lines : List Line) (line : Line) : Prop :=
  ∀ earlier ∈ pendingLines lines, raises earlier.tokens = true → raises line.tokens = true

/-- What is set up depends on the flags, and on the descriptors whose flags are set. -/
theorem setupCalls_eq_iff : setupCalls st = setupCalls st' ↔
    (st.inFlag = st'.inFlag ∧ (st.inFlag = true → st.inFd = st'.inFd)) ∧
      st.outFlag = st'.outFlag ∧
        (st.outFlag = true → st.ampersand = st'.ampersand ∧ st.outFd = st'.outFd) := by
  obtain ⟨inFd, outFd, inFlag, outFlag, ampersand, redirApp⟩ := st
  obtain ⟨inFd', outFd', inFlag', outFlag', ampersand', redirApp'⟩ := st'
  cases inFlag <;> cases inFlag' <;> cases outFlag <;> cases outFlag' <;>
    cases ampersand <;> cases ampersand' <;> simp [setupCalls]

theorem lineSetup_builtin (h : isCommand line.tokens = false) : lineSetup st line = none := by
  obtain ⟨inFd, outFd, hparse⟩ := parseArgs_eq line.opens 0 line.tokens
  obtain ⟨event, hrun, hevent⟩ := runLine_builtin h (hparse st)
  rw [lineSetup, hrun]
  cases event with
  | forked child => exact absurd rfl (hevent child)
  | noArguments => rfl
  | exiting => rfl
  | chdir path => rfl

theorem lineSetup_command (h : isCommand line.tokens = true)
    (hparse : parseArgs line.opens 0 (ofList line.tokens) st = some st') :
    lineSetup st line = some (child st' (ofList line.tokens)).setup := by
  rw [lineSetup, runLine_command h hparse]

/-- For `echo` without an argument or with a string in quotes, nothing is set up. -/
theorem lineSetup_echo (hcommand : isCommand line.tokens = true)
    (h : line.tokens = [echoName] ∨ isQuotedEcho line.tokens = true) :
    lineSetup st line = some [] := by
  obtain ⟨inFd, outFd, hparse⟩ := parseArgs_eq line.opens 0 line.tokens
  rw [lineSetup_command hcommand (hparse st)]
  rcases h with hecho | hquoted
  · rw [hecho, child_echo]
  · rw [child_quotedEcho hquoted]

/-- A command is redirected as in a new shell exactly if it sets the flags that are set before
it. -/
theorem lineSetup_iff (st : ShellState) (hcommand : isCommand line.tokens = true)
    (hecho : line.tokens ≠ [echoName]) (hquoted : isQuotedEcho line.tokens = false) :
    lineSetup st line = lineSetup .init line ↔
      (st.inFlag = true → raisesIn line.tokens = true) ∧
        (st.outFlag = true → raisesOut line.tokens = true) ∧
        (st.outFlag = true ∨ raisesOut line.tokens = true → st.ampersand = true →
          raisesBoth line.tokens = true) := by
  have hne := ne_nil_of_isCommand hcommand
  obtain ⟨inFd, outFd, hparse⟩ := parseArgs_eq line.opens 0 line.tokens
  rw [lineSetup_command hcommand (hparse st), lineSetup_command hcommand (hparse .init),
    child_other hne hecho hquoted, child_other hne hecho hquoted, Option.some.injEq,
    setupCalls_eq_iff]
  simp only [ShellState.init, Bool.false_or]
  cases raisesIn line.tokens <;> cases raisesOut line.tokens <;>
    cases raisesBoth line.tokens <;> cases st.inFlag <;> cases st.outFlag <;> simp

/-- A line that sets `ampersand` sets `out_flag`. -/
theorem raisesOut_of_raisesBoth {tokens : List Token} (h : raisesBoth tokens = true) :
    raisesOut tokens = true :=
  List.any_eq_true.mpr ⟨bothOp, of_decide_eq_true h, rfl⟩

/-- The flags before a line are those that the lines since the last command set. -/
theorem flags_of_run (h : run .init lines = some st) :
    (st.inFlag = true ↔ ∃ earlier ∈ pendingLines lines, raisesIn earlier.tokens = true) ∧
      (st.outFlag = true ↔ ∃ earlier ∈ pendingLines lines, raisesOut earlier.tokens = true) ∧
      (st.ampersand = true ↔ ∃ earlier ∈ pendingLines lines, raisesBoth earlier.tokens = true) := by
  obtain ⟨hin, hout, hboth⟩ := run_flags h
  rw [hin, hout, hboth]
  simp only [ShellState.init, Lib.Flags.after_false, List.any_eq_true, pendingLines, and_self]

/-- In every run, the child of a line that is read is redirected as in a new shell exactly if there
is none, if it is an `echo` that no redirection is made for, or if every flag that a line since the
last command sets is set by the line itself. -/
theorem own_redirection_iff (hrun : run .init lines = some st) :
    lineSetup st line = lineSetup .init line ↔
      isCommand line.tokens = false ∨ line.tokens = [echoName] ∨ isQuotedEcho line.tokens = true ∨
        Covered raisesIn lines line ∧ Covered raisesOut lines line ∧
          Covered raisesBoth lines line := by
  cases hcommand : isCommand line.tokens with
  | false =>
    rw [lineSetup_builtin hcommand, lineSetup_builtin hcommand]
    simp
  | true =>
    by_cases hunredirected : line.tokens = [echoName] ∨ isQuotedEcho line.tokens = true
    · rw [lineSetup_echo hcommand hunredirected, lineSetup_echo hcommand hunredirected]
      simp only [true_iff]
      exact Or.inr (or_assoc.mp (Or.inl hunredirected))
    · obtain ⟨hecho, hquoted⟩ := not_or.mp hunredirected
      obtain ⟨hin, hout, hboth⟩ := flags_of_run hrun
      rw [lineSetup_iff st hcommand hecho (Bool.eq_false_iff.mpr hquoted), hin, hout, hboth]
      simp only [hecho, hquoted, false_or, Bool.true_eq_false, Bool.false_eq_true]
      constructor
      · intro ⟨hin, hout, hboth⟩
        refine ⟨fun earlier hmem hraises => hin ⟨earlier, hmem, hraises⟩,
          fun earlier hmem hraises => hout ⟨earlier, hmem, hraises⟩,
          fun earlier hmem hraises => hboth (Or.inl ?_) ⟨earlier, hmem, hraises⟩⟩
        exact ⟨earlier, hmem, raisesOut_of_raisesBoth hraises⟩
      · intro ⟨hin, hout, hboth⟩
        exact ⟨fun ⟨earlier, hmem, hraises⟩ => hin earlier hmem hraises,
          fun ⟨earlier, hmem, hraises⟩ => hout earlier hmem hraises,
          fun _ ⟨earlier, hmem, hraises⟩ => hboth earlier hmem hraises⟩

/-- A command behind `cd / > x` that has an output file itself. -/
theorem own_redirection_iff_cd :
    lineSetup ⟨0, 3, false, true, false, false⟩ ⟨[[108, 115], outOp, [121]], fun _ _ _ => 4⟩ =
      lineSetup .init ⟨[[108, 115], outOp, [121]], fun _ _ _ => 4⟩ := by
  have hrun : run .init [⟨[cdName, [47], outOp, [120]], fun _ _ _ => 3⟩] =
      some ⟨0, 3, false, true, false, false⟩ := rfl
  have hcovered : ∀ earlier ∈ pendingLines [⟨[cdName, [47], outOp, [120]], fun _ _ _ => 3⟩],
      raisesIn earlier.tokens = false ∧ raisesBoth earlier.tokens = false := by
    intro earlier hmem
    rw [List.mem_singleton.mp hmem]
    exact ⟨rfl, rfl⟩
  refine (own_redirection_iff hrun).mpr (Or.inr (Or.inr (Or.inr ⟨?_, fun _ _ _ => rfl, ?_⟩)))
  · intro earlier hmem hraises
    rw [(hcovered earlier hmem).1] at hraises
    cases hraises
  · intro earlier hmem hraises
    rw [(hcovered earlier hmem).2] at hraises
    cases hraises

/-- A file that `cd` is given is the output of the next command. -/
theorem own_redirection_fails : ¬ ∀ (lines : List Line) (line : Line) (st : ShellState),
    run .init lines = some st → lineSetup st line = lineSetup .init line := by
  intro hall
  have hsetup := hall [⟨[cdName, [47], outOp, [120]], fun _ _ _ => 3⟩]
    ⟨[[108, 115]], fun _ _ _ => 4⟩ ⟨0, 3, false, true, false, false⟩ rfl
  revert hsetup
  decide

end EmbeddedOs.Shell
