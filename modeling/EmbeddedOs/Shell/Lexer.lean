import EmbeddedOs.Lib.Bytes
import Mathlib.Algebra.BigOperators.Group.List.Basic
import Mathlib.Algebra.Ring.Nat
import Mathlib.Data.List.TakeWhile

/-!
# The lexer of the shell

The rules of `shell.l` and their actions. A token is copied to `_linebuf` if there is room for it in
`_args`; how much room there is in `_linebuf` is not looked at. Memory goes on behind the arrays,
and the places that are stored to are recorded.
-/

namespace EmbeddedOs.Shell

open Lib.Bytes

/-- The characters of a string, without its zero. -/
abbrev Token := List UInt8

/-! ## Rules -/

/-- The characters of `WORD`. -/
def wordChar (c : UInt8) : Bool :=
  (97 ≤ c && c ≤ 122) || (65 ≤ c && c ≤ 90) || (48 ≤ c && c ≤ 57) ||
    c ∈ ([95, 47, 46, 45] : List UInt8)

/-- The characters of `SPECIAL`. -/
def specialChar (c : UInt8) : Bool := c ∈ ([40, 41, 62, 60, 124, 38, 59, 42] : List UInt8)

/-- The quotes of `QUOTE`. -/
def quoteChar (c : UInt8) : Bool := c ∈ ([39, 34] : List UInt8)

/-- A space or a tab. -/
def blankChar (c : UInt8) : Bool := c ∈ ([32, 9] : List UInt8)

/-- The end of a line. -/
def newline : UInt8 := 10

/-- What the scanner matches next. -/
inductive Match
  /-- A `WORD`, a `SPECIAL` or a `QUOTE`. -/
  | token (yytext rest : List UInt8)
  /-- The end of the line. -/
  | newline (rest : List UInt8)
  /-- Blanks, or a character that no other rule matches. -/
  | skip (rest : List UInt8)
  /-- The end of the input. -/
  | eof

/-- The next match: the first character decides which rule has the longest one. A quote that is not
closed is a character of its own. -/
def nextMatch : List UInt8 → Match
  | [] => .eof
  | c :: cs =>
    if wordChar c then .token (c :: cs.takeWhile wordChar) (cs.dropWhile wordChar)
    else if specialChar c then .token (c :: cs.takeWhile specialChar) (cs.dropWhile specialChar)
    else if quoteChar c && cs.contains c then
      .token (c :: cs.takeWhile (· != c) ++ [c]) (cs.dropWhile (· != c)).tail
    else if c = newline then .newline cs
    else if blankChar c then .skip (cs.dropWhile blankChar)
    else .skip cs

theorem length_dropWhile_le {α : Type*} (p : α → Bool) (cs : List α) :
    (cs.dropWhile p).length ≤ cs.length := (List.dropWhile_sublist p).length_le

/-- A token takes at least one character. -/
theorem length_token {input yytext rest : List UInt8} (h : nextMatch input = .token yytext rest) :
    rest.length < input.length := by
  cases input with
  | nil => cases h
  | cons c cs =>
    have hword := length_dropWhile_le wordChar cs
    have hspecial := length_dropWhile_le specialChar cs
    have hquote := length_dropWhile_le (· != c) cs
    simp only [nextMatch] at h
    split_ifs at h
    · cases h
      exact Nat.lt_succ_of_le hword
    · cases h
      exact Nat.lt_succ_of_le hspecial
    · cases h
      rw [List.length_tail, List.length_cons]
      omega

/-- So does what is skipped. -/
theorem length_skip {input rest : List UInt8} (h : nextMatch input = .skip rest) :
    rest.length < input.length := by
  cases input with
  | nil => cases h
  | cons c cs =>
    have hblank := length_dropWhile_le blankChar cs
    simp only [nextMatch] at h
    split_ifs at h
    · cases h
      exact Nat.lt_succ_of_le hblank
    · cases h
      exact Nat.lt_succ_self _

/-! ## Longest matches -/

/-- The pattern of the first rule. -/
inductive Pattern : List UInt8 → Prop
  /-- `WORD`. -/
  | word {c : UInt8} {cs : List UInt8} (h : ∀ x ∈ c :: cs, wordChar x = true) : Pattern (c :: cs)
  /-- `SPECIAL`. -/
  | special {c : UInt8} {cs : List UInt8} (h : ∀ x ∈ c :: cs, specialChar x = true) :
    Pattern (c :: cs)
  /-- `QUOTE`. -/
  | quote {c : UInt8} {cs : List UInt8} (hc : quoteChar c = true) (hcs : c ∉ cs) :
    Pattern (c :: (cs ++ [c]))

theorem specialChar_eq_false {c : UInt8} (h : wordChar c = true) : specialChar c = false := by
  rw [Bool.eq_false_iff]
  intro hspecial
  have hmem : c ∈ ([40, 41, 62, 60, 124, 38, 59, 42] : List UInt8) := of_decide_eq_true hspecial
  simp only [List.mem_cons, List.not_mem_nil, or_false] at hmem
  rcases hmem with rfl | rfl | rfl | rfl | rfl | rfl | rfl | rfl <;> cases h

theorem quoteChar_eq_false {c : UInt8} (h : wordChar c = true ∨ specialChar c = true) :
    quoteChar c = false := by
  rw [Bool.eq_false_iff]
  intro hquote
  have hmem : c ∈ ([39, 34] : List UInt8) := of_decide_eq_true hquote
  simp only [List.mem_cons, List.not_mem_nil, or_false] at hmem
  rcases hmem with rfl | rfl <;> rcases h with h | h <;> cases h

/-- A prefix of characters of one kind is inside the longest one. -/
theorem length_le_takeWhile {p : UInt8 → Bool} {cs w : List UInt8} (hw : w <+: cs)
    (h : ∀ x ∈ w, p x = true) : w.length ≤ (cs.takeWhile p).length := by
  obtain ⟨rest, rfl⟩ := hw
  rw [List.takeWhile_append_of_pos h, List.length_append]
  exact Nat.le_add_right _ _

/-- What the first character says about a prefix that has the pattern. -/
theorem Pattern.bound {c : UInt8} {cs w : List UInt8} (hw : w <+: c :: cs) (h : Pattern w) :
    wordChar c = true ∧ w.length ≤ (cs.takeWhile wordChar).length + 1 ∨
      specialChar c = true ∧ w.length ≤ (cs.takeWhile specialChar).length + 1 ∨
        quoteChar c = true ∧ c ∈ cs ∧ w.length ≤ (cs.takeWhile (· != c)).length + 2 := by
  cases h with
  | word h =>
    obtain ⟨rfl, hcs⟩ := List.cons_prefix_cons.mp hw
    obtain ⟨hc, hrest⟩ := List.forall_mem_cons.mp h
    exact Or.inl ⟨hc, Nat.succ_le_succ (length_le_takeWhile hcs hrest)⟩
  | special h =>
    obtain ⟨rfl, hcs⟩ := List.cons_prefix_cons.mp hw
    obtain ⟨hc, hrest⟩ := List.forall_mem_cons.mp h
    exact Or.inr (Or.inl ⟨hc, Nat.succ_le_succ (length_le_takeWhile hcs hrest)⟩)
  | @quote q body hq hbody =>
    obtain ⟨rfl, hcs⟩ := List.cons_prefix_cons.mp hw
    have hmem : q ∈ cs := hcs.subset (by simp)
    have hlen := length_le_takeWhile ((List.prefix_append body [q]).trans hcs)
      (p := (· != q)) (by
        intro x hx
        simp only [bne_iff_ne]
        rintro rfl
        exact hbody hx)
    refine Or.inr (Or.inr ⟨hq, hmem, ?_⟩)
    rw [List.length_cons, List.length_append, List.length_singleton]
    exact Nat.succ_le_succ (Nat.succ_le_succ hlen)

/-- A quote that is closed. -/
theorem dropWhile_quote {c : UInt8} {cs : List UInt8} (h : c ∈ cs) :
    cs.dropWhile (· != c) = c :: (cs.dropWhile (· != c)).tail := by
  induction cs with
  | nil => cases h
  | cons x cs ih =>
    by_cases hx : x = c
    · simp [hx]
    · have hmem : c ∈ cs := (List.mem_cons.mp h).resolve_left fun heq => hx heq.symm
      rw [List.dropWhile_cons_of_pos (by simpa using hx)]
      exact ih hmem

/-- A token is the longest prefix of the input that has the pattern. -/
theorem nextMatch_token {input yytext rest : List UInt8}
    (h : nextMatch input = .token yytext rest) :
    input = yytext ++ rest ∧ Pattern yytext ∧
      ∀ w, w <+: input → Pattern w → w.length ≤ yytext.length := by
  cases input with
  | nil => cases h
  | cons c cs =>
    simp only [nextMatch] at h
    split_ifs at h with hword hspecial hquote
    · cases h
      refine ⟨by simp, .word ?_, fun w hw hpattern => ?_⟩
      · exact List.forall_mem_cons.mpr ⟨hword, fun x hx => List.mem_takeWhile_imp hx⟩
      · have hbound := hpattern.bound hw
        simpa [hword, specialChar_eq_false hword, quoteChar_eq_false (.inl hword)] using hbound
    · cases h
      refine ⟨by simp, .special ?_, fun w hw hpattern => ?_⟩
      · exact List.forall_mem_cons.mpr ⟨hspecial, fun x hx => List.mem_takeWhile_imp hx⟩
      · have hbound := hpattern.bound hw
        simpa [hword, hspecial, quoteChar_eq_false (.inr hspecial)] using hbound
    · cases h
      obtain ⟨hq, hmem⟩ := Bool.and_eq_true_iff.mp hquote
      refine ⟨?_, .quote hq ?_, fun w hw hpattern => ?_⟩
      · have hdrop := dropWhile_quote (List.contains_iff_mem.mp hmem)
        rw [List.cons_append, List.cons_append, List.append_assoc, List.singleton_append, ← hdrop,
          List.takeWhile_append_dropWhile]
      · intro hc
        have hne := List.mem_takeWhile_imp hc
        simp at hne
      · have hbound := hpattern.bound hw
        rcases hbound with ⟨hc, -⟩ | ⟨hc, -⟩ | ⟨-, -, hlen⟩
        · exact absurd hc hword
        · exact absurd hc hspecial
        · simpa using hlen

/-- Where no token is matched, no prefix has the pattern. -/
theorem not_pattern {input w : List UInt8} (h : ∀ yytext rest, nextMatch input ≠ .token yytext rest)
    (hw : w <+: input) : ¬ Pattern w := by
  intro hpattern
  cases input with
  | nil =>
    rw [List.prefix_nil] at hw
    subst hw
    cases hpattern
  | cons c cs =>
    simp only [nextMatch] at h
    rcases hpattern.bound hw with ⟨hword, -⟩ | ⟨hspecial, -⟩ | ⟨hquote, hmem, -⟩
    · rw [if_pos hword] at h
      exact h _ _ rfl
    · have hword : ¬ wordChar c = true := by
        intro hword
        rw [specialChar_eq_false hword] at hspecial
        cases hspecial
      rw [if_neg hword, if_pos hspecial] at h
      exact h _ _ rfl
    · have hother : ¬ (wordChar c = true ∨ specialChar c = true) := by
        intro hother
        rw [quoteChar_eq_false hother] at hquote
        cases hquote
      obtain ⟨hword, hspecial⟩ := not_or.mp hother
      rw [if_neg hword, if_neg hspecial,
        if_pos (Bool.and_eq_true_iff.mpr ⟨hquote, List.contains_iff_mem.mpr hmem⟩)] at h
      exact h _ _ rfl

/-! ## Lines -/

/-- The matches of the first rule up to the end of the line, and the input behind it. -/
def scanLine (input : List UInt8) : List (List UInt8) × List UInt8 :=
  match h : nextMatch input with
  | .eof => ([], [])
  | .newline rest => ([], rest)
  | .skip rest =>
    have := length_skip h
    scanLine rest
  | .token yytext rest =>
    have := length_token h
    let line := scanLine rest
    (yytext :: line.1, line.2)
termination_by input.length

theorem scanLine_token {input yytext rest : List UInt8} (h : nextMatch input = .token yytext rest) :
    scanLine input = (yytext :: (scanLine rest).1, (scanLine rest).2) := by
  rw [scanLine]
  split <;> simp_all

theorem scanLine_skip {input rest : List UInt8} (h : nextMatch input = .skip rest) :
    scanLine input = scanLine rest := by
  rw [scanLine]
  split <;> simp_all

theorem scanLine_newline {input rest : List UInt8} (h : nextMatch input = .newline rest) :
    scanLine input = ([], rest) := by
  rw [scanLine]
  split <;> simp_all

theorem scanLine_eof {input : List UInt8} (h : nextMatch input = .eof) :
    scanLine input = ([], []) := by
  rw [scanLine]
  split <;> simp_all

@[simp] theorem scanLine_nil : scanLine [] = ([], []) := scanLine_eof rfl

/-- Every match has the pattern. -/
theorem pattern_of_mem {input yytext : List UInt8} (h : yytext ∈ (scanLine input).1) :
    Pattern yytext := by
  induction input using scanLine.induct with
  | case1 input hmatch =>
    rw [scanLine_eof hmatch] at h
    cases h
  | case2 input rest hmatch =>
    rw [scanLine_newline hmatch] at h
    cases h
  | case3 input rest hmatch _ ih =>
    rw [scanLine_skip hmatch] at h
    exact ih h
  | case4 input yytext' rest hmatch _ ih =>
    rw [scanLine_token hmatch] at h
    rcases List.mem_cons.mp h with rfl | hmem
    · exact (nextMatch_token hmatch).2.1
    · exact ih hmem

/-! ## Actions -/

/-- The variables of the lexer. -/
structure LexState where
  /-- `_args`, with places in `_linebuf` for pointers. -/
  args : ℕ → Option ℕ
  /-- `_argcount`. -/
  argcount : ℕ
  /-- The memory from `_linebuf` on. -/
  linebuf : ℕ → UInt8
  /-- `_bufpos`. -/
  bufpos : ℕ
  /-- The places in `_args` that were stored to. -/
  argStores : List ℕ
  /-- The places in `_linebuf` that were stored to. -/
  bufStores : List ℕ

namespace LexState

/-- What `yylex` does before the first match. -/
def start (st : LexState) : LexState :=
  { st with
    argcount := 0
    bufpos := 0
    args := Function.update st.args 0 none
    argStores := [0]
    bufStores := [] }

/-- `_args[k] = p`. -/
def setArg (st : LexState) (k : ℕ) (p : Option ℕ) : LexState :=
  { st with args := Function.update st.args k p, argStores := st.argStores ++ [k] }

/-- `_linebuf[_bufpos++] = c`. -/
def putChar (st : LexState) (c : UInt8) : LexState :=
  { st with
    linebuf := Function.update st.linebuf st.bufpos c
    bufpos := st.bufpos + 1
    bufStores := st.bufStores ++ [st.bufpos] }

/-- The loop over `yytext`, which ends at a zero. -/
def copyText (st : LexState) : List UInt8 → LexState
  | [] => st
  | c :: cs => if c = 0 then st else (st.putChar c).copyText cs

/-- The action of the first rule. -/
def action (st : LexState) (yytext : List UInt8) : LexState :=
  if st.argcount < 1024 - 1 then
    let st := st.setArg st.argcount (some st.bufpos)
    let st := { st with argcount := st.argcount + 1 }
    let st := st.setArg st.argcount none
    let st := st.copyText yytext
    st.putChar 0
  else st

end LexState

/-- `yylex`, and the input behind the line. -/
def yylex (st : LexState) (input : List UInt8) : LexState × List UInt8 :=
  let line := scanLine input
  (line.1.foldl LexState.action st.start, line.2)

/-- The characters of a match that are copied: those before the first zero. -/
def copied (yytext : List UInt8) : Token := yytext.takeWhile (· != 0)

/-- The tokens of a line. -/
def lineTokens (input : List UInt8) : List Token := (scanLine input).1.map copied

/-- The bytes that tokens take with their zeros. -/
def textSize (ts : List Token) : ℕ := (ts.map fun t => t.length + 1).sum

/-- The tokens with their zeros. -/
def textBytes (ts : List Token) : List UInt8 := ts.flatMap fun t => t ++ [0]

/-- The tokens of a line that `_args` has room for are in `_linebuf`, and no other memory was
stored to. -/
structure LexState.Holds (st : LexState) (tokens : List Token) : Prop where
  /-- The stores to `_linebuf` are inside it. -/
  bufStores : ∀ o ∈ st.bufStores, o < 4096
  /-- No place in it is stored to twice. -/
  bufOnce : st.bufStores.Nodup
  /-- The stores to `_args` are inside it. -/
  argStores : ∀ k ∈ st.argStores, k < 1024
  /-- `_args` ends with a null pointer. -/
  terminated : st.args (min tokens.length 1023) = none
  /-- The entries before it are the first tokens, with their zeros and inside `_linebuf`. -/
  entry : ∀ k, (hk : k < tokens.length) → k < 1023 → ∃ p, st.args k = some p ∧
    p + tokens[k].length < 4096 ∧
    get st.linebuf p (tokens[k].length + 1) = tokens[k] ++ [0]

theorem copied_cons {c : UInt8} (hc : c ≠ 0) (cs : List UInt8) :
    copied (c :: cs) = c :: copied cs := by
  simp [copied, hc]

/-- A match does not begin with a zero. -/
theorem Pattern.head_ne_zero {yytext : List UInt8} (h : Pattern yytext) :
    ∃ c cs, yytext = c :: cs ∧ c ≠ 0 := by
  cases h with
  | @word c cs h =>
    refine ⟨c, cs, rfl, ?_⟩
    rintro rfl
    cases h 0 List.mem_cons_self
  | @special c cs h =>
    refine ⟨c, cs, rfl, ?_⟩
    rintro rfl
    cases h 0 List.mem_cons_self
  | @quote c cs hc _ =>
    refine ⟨c, cs ++ [c], rfl, ?_⟩
    rintro rfl
    cases hc

/-- A token has a character, and no zero. -/
theorem lineTokens_wellFormed {input : List UInt8} {t : Token} (h : t ∈ lineTokens input) :
    t ≠ [] ∧ 0 ∉ t := by
  obtain ⟨yytext, hmem, rfl⟩ := List.mem_map.mp h
  have hzero : 0 ∉ copied yytext := by
    intro hzero
    have hne := List.mem_takeWhile_imp hzero
    cases hne
  obtain ⟨c, cs, rfl, hc⟩ := (pattern_of_mem hmem).head_ne_zero
  exact ⟨by rw [copied_cons hc]; exact List.cons_ne_nil _ _, hzero⟩

/-! ## The memory of a token list -/

variable {st : LexState} {ts us : List Token}

theorem textSize_append : textSize (ts ++ us) = textSize ts + textSize us := by
  simp [textSize]

theorem textBytes_append : textBytes (ts ++ us) = textBytes ts ++ textBytes us := by
  simp [textBytes]

@[simp] theorem textSize_singleton (t : Token) : textSize [t] = t.length + 1 := by
  simp [textSize]

@[simp] theorem textBytes_singleton (t : Token) : textBytes [t] = t ++ [0] := by
  simp [textBytes]

@[simp] theorem length_textBytes (ts : List Token) : (textBytes ts).length = textSize ts := by
  simp [textBytes, textSize]

/-- The token `k` starts where the first `k` tokens end. -/
theorem textSize_split {k : ℕ} (hk : k < ts.length) :
    textSize ts = textSize (ts.take k) + (ts[k].length + 1) + textSize (ts.drop (k + 1)) := by
  conv_lhs => rw [← List.take_append_drop k ts, List.drop_eq_getElem_cons hk]
  rw [textSize_append, ← List.singleton_append, textSize_append, textSize_singleton]
  exact (Nat.add_assoc _ _ _).symm

theorem textBytes_split {k : ℕ} (hk : k < ts.length) :
    textBytes ts = textBytes (ts.take k) ++ ((ts[k] ++ [0]) ++ textBytes (ts.drop (k + 1))) := by
  conv_lhs => rw [← List.take_append_drop k ts, List.drop_eq_getElem_cons hk]
  rw [textBytes_append, ← List.singleton_append, textBytes_append, textBytes_singleton]

/-- Memory that begins with a token list has the token `k` where the first `k` tokens end. -/
theorem get_entry {c : ℕ → UInt8} {k : ℕ} (hk : k < ts.length)
    (htext : get c 0 (textSize ts) = textBytes ts) :
    get c (textSize (ts.take k)) (ts[k].length + 1) = ts[k] ++ [0] := by
  have hbytes : ∀ o, (ho : o < (textBytes ts).length) → c o = (textBytes ts)[o] := by
    rw [← htext]
    intro o ho
    rw [getElem_get, Nat.zero_add]
  have hsize := textSize_split hk
  apply get_eq_of_forall (by simp)
  intro i hi
  have hi' : i < ts[k].length + 1 := by simpa using hi
  rw [hbytes _ (by rw [length_textBytes]; omega)]
  simp only [textBytes_split hk]
  rw [List.getElem_append_right (by simp), List.getElem_append_left (by simpa using hi')]
  simp

/-! ## Copying tokens -/

namespace LexState

/-- The loop over `yytext` stores the characters before the first zero. -/
theorem copyText_eq (st : LexState) (yytext : List UInt8) :
    st.copyText yytext =
      { st with
        linebuf := put st.linebuf st.bufpos (copied yytext)
        bufpos := st.bufpos + (copied yytext).length
        bufStores := st.bufStores ++ List.range' st.bufpos (copied yytext).length } := by
  induction yytext generalizing st with
  | nil => simp [copyText, copied]
  | cons c cs ih =>
    by_cases hc : c = 0
    · simp [copyText, copied, hc]
    · have hput : put (Function.update st.linebuf st.bufpos c) (st.bufpos + 1) (copied cs) =
          put st.linebuf st.bufpos (c :: copied cs) := by
        rw [update_eq_put]
        exact put_put_append
      rw [copyText, if_neg hc, ih, copied_cons hc]
      simp only [putChar, hput, List.length_cons, List.range'_succ, List.append_assoc,
        List.singleton_append]
      rw [show st.bufpos + 1 + (copied cs).length = st.bufpos + ((copied cs).length + 1) by omega]

/-- A token that `_args` has room for. -/
theorem action_eq (h : st.argcount < 1023) (yytext : List UInt8) :
    st.action yytext =
      { args := Function.update (Function.update st.args st.argcount (some st.bufpos))
          (st.argcount + 1) none
        argcount := st.argcount + 1
        linebuf := put st.linebuf st.bufpos (copied yytext ++ [0])
        bufpos := st.bufpos + ((copied yytext).length + 1)
        argStores := st.argStores ++ [st.argcount, st.argcount + 1]
        bufStores := st.bufStores ++ List.range' st.bufpos ((copied yytext).length + 1) } := by
  rw [action, if_pos h]
  simp only [setArg, copyText_eq, putChar, update_eq_put, put_put_append, List.range'_concat,
    Nat.one_mul, List.append_assoc, List.singleton_append, Nat.add_assoc]

end LexState

/-! ## A line -/

/-- The variables after the tokens `ts` were copied. -/
structure Copied (ts : List Token) (st : LexState) : Prop where
  argcount : st.argcount = ts.length
  bufpos : st.bufpos = textSize ts
  text : get st.linebuf 0 (textSize ts) = textBytes ts
  entry : ∀ k < ts.length, st.args k = some (textSize (ts.take k))
  terminated : st.args ts.length = none
  bufStores : st.bufStores = List.range (textSize ts)
  argStores : ∀ k ∈ st.argStores, k ≤ ts.length

namespace Copied

theorem start (st : LexState) : Copied [] st.start where
  argcount := rfl
  bufpos := rfl
  text := rfl
  entry := by simp
  terminated := by simp [LexState.start]
  bufStores := rfl
  argStores := by simp [LexState.start]

/-- A match that there is room for adds a token. -/
theorem action (h : Copied ts st) (hroom : ts.length < 1023) (yytext : List UInt8) :
    Copied (ts ++ [copied yytext]) (st.action yytext) := by
  have hlength : (ts ++ [copied yytext]).length = ts.length + 1 := by simp
  have hsize : textSize (ts ++ [copied yytext]) = textSize ts + ((copied yytext).length + 1) := by
    rw [textSize_append, textSize_singleton]
  rw [LexState.action_eq (by rw [h.argcount]; exact hroom)]
  constructor
  case argcount => rw [hlength, h.argcount]
  case bufpos => rw [hsize, h.bufpos]
  case text =>
    rw [hsize, h.bufpos, get_add, Nat.zero_add, get_put_self (by simp),
      get_put_of_disjoint (by simp), h.text, textBytes_append, textBytes_singleton]
  case entry =>
    intro k hk
    rw [hlength] at hk
    simp only [h.argcount]
    rw [Function.update_of_ne (by omega)]
    by_cases hlast : k = ts.length
    · rw [hlast, Function.update_self, List.take_left, h.bufpos]
    · rw [Function.update_of_ne hlast, List.take_append_of_le_length (by omega)]
      exact h.entry k (by omega)
  case terminated => simp only [hlength, h.argcount, Function.update_self]
  case bufStores =>
    have hrange := (List.range'_append_1 (s := 0) (m := textSize ts)
      (n := (copied yytext).length + 1)).symm
    rw [Nat.zero_add] at hrange
    simp only [hsize, h.bufStores, h.bufpos, List.range_eq_range', hrange]
  case argStores =>
    intro k hk
    simp only [h.argcount] at hk
    rw [hlength]
    rcases List.mem_append.mp hk with hold | hnew
    · exact Nat.le_succ_of_le (h.argStores k hold)
    · simp only [List.mem_cons, List.not_mem_nil, or_false] at hnew
      omega

/-- The matches there is no room for are dropped. -/
theorem foldl (h : Copied ts st) (hroom : ts.length ≤ 1023) (yytexts : List (List UInt8)) :
    Copied ((ts ++ yytexts.map copied).take 1023) (yytexts.foldl LexState.action st) := by
  induction yytexts generalizing ts st with
  | nil =>
    rw [List.map_nil, List.append_nil, List.take_of_length_le hroom]
    exact h
  | cons yytext yytexts ih =>
    by_cases hfull : ts.length < 1023
    · have hstep := ih (h.action hfull yytext) (by rw [List.length_append]; exact hfull)
      rwa [List.append_assoc] at hstep
    · have hstep : st.action yytext = st := by
        rw [LexState.action, if_neg]
        rw [h.argcount]
        exact hfull
      have hlast := ih h hroom
      rw [List.take_append_of_le_length (by omega)] at hlast ⊢
      rwa [List.foldl_cons, hstep]

end Copied

theorem copied_yylex (st : LexState) (input : List UInt8) :
    Copied ((lineTokens input).take 1023) (yylex st input).1 :=
  (Copied.start st).foldl (by simp) (scanLine input).1

/-- A store outside `_linebuf` follows from tokens that do not fit. -/
theorem fits_of_holds {input : List UInt8} (h : (yylex st input).1.Holds (lineTokens input)) :
    textSize ((lineTokens input).take 1023) ≤ 4096 := by
  by_contra hover
  have hstore : 4096 ∈ (yylex st input).1.bufStores := by
    rw [(copied_yylex st input).bufStores, List.mem_range]
    omega
  exact absurd (h.bufStores _ hstore) (Nat.lt_irrefl _)

theorem holds_of_fits {input : List UInt8}
    (hfit : textSize ((lineTokens input).take 1023) ≤ 4096) :
    (yylex st input).1.Holds (lineTokens input) := by
  have hcopied := copied_yylex st input
  constructor
  case bufStores =>
    intro o ho
    rw [hcopied.bufStores, List.mem_range] at ho
    omega
  case bufOnce =>
    rw [hcopied.bufStores]
    exact List.nodup_range
  case argStores =>
    intro k hk
    have hle := hcopied.argStores k hk
    rw [List.length_take] at hle
    omega
  case terminated =>
    have hnone := hcopied.terminated
    rwa [List.length_take, Nat.min_comm] at hnone
  case entry =>
    intro k hk hroom
    have hk' : k < ((lineTokens input).take 1023).length := by
      rw [List.length_take]
      omega
    have hsize := textSize_split hk'
    have hentry := get_entry hk' hcopied.text
    simp only [List.getElem_take] at hsize hentry
    exact ⟨_, hcopied.entry k hk', by omega, hentry⟩

/-- The lexer stays inside `_linebuf`, and leaves the line's tokens in it, exactly if the tokens
that `_args` has room for fit into it with their zeros. -/
theorem linebuf_holds_iff (st : LexState) (input : List UInt8) :
    (yylex st input).1.Holds (lineTokens input) ↔
      textSize ((lineTokens input).take 1023) ≤ 4096 :=
  ⟨fits_of_holds, holds_of_fits⟩

/-- A line that is one word. -/
theorem scanLine_word {c : UInt8} {cs : List UInt8} (h : ∀ x ∈ c :: cs, wordChar x = true) :
    scanLine (c :: cs) = ([c :: cs], []) := by
  obtain ⟨hc, hcs⟩ := List.forall_mem_cons.mp h
  have hmatch : nextMatch (c :: cs) = .token (c :: cs) [] := by
    rw [nextMatch, if_pos hc, List.takeWhile_eq_self_iff.mpr hcs,
      List.dropWhile_eq_nil_iff.mpr hcs]
  rw [scanLine_token hmatch, scanLine_nil]

/-- A word of 4096 letters is stored to `_linebuf` with the zero behind it. -/
theorem linebuf_holds_fails : ¬ ∀ (st : LexState) (input : List UInt8),
    (yylex st input).1.Holds (lineTokens input) := by
  intro hall
  have hline : lineTokens (List.replicate 4096 97) = [List.replicate 4096 97] := by
    have hword : ∀ x ∈ (97 : UInt8) :: List.replicate 4095 97, wordChar x = true := by
      intro x hx
      rw [← List.replicate_succ] at hx
      rw [List.eq_of_mem_replicate hx]
      rfl
    have hscan := scanLine_word hword
    rw [← List.replicate_succ] at hscan
    rw [lineTokens, hscan, List.map_singleton, copied, List.takeWhile_replicate]
    rfl
  have hfit := fits_of_holds (hall ⟨fun _ => none, 0, fun _ => 0, 0, [], []⟩
    (List.replicate 4096 97))
  rw [hline, List.take_succ_cons, List.take_nil, textSize_singleton,
    List.length_replicate] at hfit
  omega

end EmbeddedOs.Shell
