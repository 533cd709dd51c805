import Cexp.Shell.Script
import Mathlib.Data.List.DropRight

/-!
# Sourcing a script at the prompt

A line that is entered at the prompt is looked at by `getp` without delimiting the name; what
`process_script` gets is the rest of the line, from which it makes a line of its own. It opens the
same file as the line does in a script unless the name is in quotes: then the closing quote is still
there (`prompt_agrees_iff`).
-/

namespace Cexp

/-- The script that is opened for a line at the prompt, if it sources one. There is no result if the
line does not fit into the buffer of `process_script`. -/
def promptOpens (line : List UInt8) : Option (Option (List UInt8)) :=
  (skipsp (line ++ [0])).bind fun tmp => (getp tmp).bind fun found =>
    match found with
    | none => some none
    | some r => (scriptStart (textOf r.p)).bind sourcedBy

/-- The script that is opened for the next line of a file. -/
def scriptOpens (file : List UInt8) : Option (Option (List UInt8)) :=
  (fgets scriptBufSize file).bind fun (line, _) => sourcedBy line

/-- A line that sources a script with `.`. It is short enough for the buffer that the lines of a
script are read into. -/
structure DotLine where
  bytes : List UInt8
  noNul : 0 ∉ bytes
  noNewline : 10 ∉ bytes
  short : bytes.length + 1 < scriptBufSize
  found : Source
  accepted : (skipsp (bytes ++ [0])).bind getp = some (some found)
  dot : found.warn = false

/-- The argument of the line. -/
def DotLine.arg (line : DotLine) : List UInt8 :=
  ((sourceArg (line.bytes.dropWhile isBlank)).map Prod.snd).getD []

/-- At the prompt and in a script the line opens the same file. -/
def PromptAgrees (line : DotLine) : Prop :=
  ∃ path, promptOpens line.bytes = some (some path) ∧
    scriptOpens line.bytes = some (some path) ∧
    ∀ file, scriptOpens (line.bytes ++ 10 :: file) = some (some path)

/-! ## The line in a script -/

theorem sourceArg_some {t arg : List UInt8} {warn : Bool} (h : sourceArg t = some (warn, arg)) :
    ∃ c s, t = c :: s ∧ arg = s.dropWhile isBlank := by
  cases t with
  | nil => cases h
  | cons c s =>
    rw [sourceArg] at h
    split at h
    · cases h
      exact ⟨c, s, rfl, rfl⟩
    · split at h
      · cases h
        exact ⟨c, s, rfl, rfl⟩
      · cases h

/-- A newline belongs to the argument. -/
theorem sourceArg_newline {t arg : List UInt8} {warn : Bool} (h : sourceArg t = some (warn, arg)) :
    sourceArg (t ++ [10]) = some (warn, arg ++ [10]) := by
  have hten : isBlank 10 = false := rfl
  cases t with
  | nil => cases h
  | cons c s =>
    rw [sourceArg] at h
    rw [List.cons_append, sourceArg, (run_snoc hten s).2]
    split at h
    · next hlt =>
      cases h
      rw [if_pos hlt]
    · next hlt =>
      split at h
      · next hdot =>
        cases h
        rw [if_neg hlt, if_pos]
        refine ⟨hdot.1, ?_⟩
        cases s with
        | nil => cases hdot.2
        | cons d s => exact hdot.2
      · cases h

theorem pathStart_suffix (arg : List UInt8) : pathStart arg <:+ arg := by
  cases arg with
  | nil => exact List.suffix_refl _
  | cons q s =>
    rw [pathStart]
    split
    · exact List.suffix_cons q s
    · exact List.suffix_refl _

theorem fgetsLoop_newline {line : List UInt8} (hline : 10 ∉ line) (file : List UInt8) {n : Nat}
    (hn : line.length < n) : fgetsLoop n (line ++ 10 :: file) = (line ++ [10], file) := by
  induction line generalizing n with
  | nil =>
    obtain ⟨m, rfl⟩ := Nat.exists_eq_add_of_lt hn
    rfl
  | cons c line ih =>
    rw [List.mem_cons, not_or] at hline
    cases n with
    | zero => cases hn
    | succ n =>
      rw [List.length_cons] at hn
      rw [List.cons_append, fgetsLoop, if_neg (Ne.symm hline.1), ih hline.2 (by omega)]
      rfl

theorem fgetsLoop_end {line : List UInt8} (hline : 10 ∉ line) {n : Nat} (hn : line.length ≤ n) :
    fgetsLoop n line = (line, []) := by
  induction line generalizing n with
  | nil => cases n <;> rfl
  | cons c line ih =>
    rw [List.mem_cons, not_or] at hline
    cases n with
    | zero => cases hn
    | succ n =>
      rw [List.length_cons] at hn
      rw [fgetsLoop, if_neg (Ne.symm hline.1), ih hline.2 (by omega)]

section

variable {line : DotLine}

theorem DotLine.form (line : DotLine) :
    sourceArg (line.bytes.dropWhile isBlank) = some (false, line.arg) ∧
      (trailing line.arg).all isspace = true ∧ line.found.p = pathStart line.arg ++ [0] := by
  have haccepted := line.accepted
  rw [skipsp_eq line.noNul, Option.bind_some, getp_eq (noNul_dropWhile line.noNul _)] at haccepted
  rw [DotLine.arg]
  cases harg : sourceArg (line.bytes.dropWhile isBlank) with
  | none =>
    rw [harg] at haccepted
    cases haccepted
  | some form =>
    obtain ⟨warn, arg⟩ := form
    rw [harg, Option.bind_some, Option.some.injEq] at haccepted
    dsimp only at haccepted
    rw [foundIn] at haccepted
    split at haccepted
    · next hall =>
      have hfound := Option.some.inj haccepted
      have hwarn := line.dot
      rw [← hfound] at hwarn ⊢
      have hfalse : warn = false := hwarn
      rw [hfalse]
      exact ⟨rfl, hall, rfl⟩
    · cases haccepted

theorem DotLine.ne_nil (line : DotLine) : line.bytes ≠ [] := by
  intro hnil
  obtain ⟨c, s, hline, -⟩ := sourceArg_some line.form.1
  rw [hnil] at hline
  cases hline

/-- The argument is a part of the line that does not begin with a blank. -/
theorem DotLine.arg_suffix (line : DotLine) :
    line.arg <:+ line.bytes ∧ line.arg.dropWhile isBlank = line.arg := by
  obtain ⟨c, s, hline, harg⟩ := sourceArg_some line.form.1
  constructor
  · rw [harg]
    refine (List.dropWhile_suffix isBlank).trans ((List.suffix_cons c s).trans ?_)
    rw [← hline]
    exact List.dropWhile_suffix isBlank
  · rw [harg, List.dropWhile_idempotent]

/-- In a script the line opens the file that the manual says. -/
theorem DotLine.script (line : DotLine) :
    scriptOpens line.bytes = some (some (documentedPath line.arg)) ∧
      ∀ file, scriptOpens (line.bytes ++ 10 :: file) =
        some (some (documentedPath line.arg)) := by
  obtain ⟨hform, hall, -⟩ := line.form
  have hshort : line.bytes.length < scriptBufSize - 1 := by
    have hlt := line.short
    omega
  constructor
  · have hfgets : fgets scriptBufSize line.bytes = some (line.bytes, []) := by
      obtain ⟨c, s, hline⟩ := List.exists_cons_of_ne_nil line.ne_nil
      have hloop := fgetsLoop_end line.noNewline hshort.le
      rw [hline] at hloop ⊢
      rw [fgets, hloop]
    rw [scriptOpens, hfgets, Option.bind_some]
    dsimp only
    rw [sourcedBy_eq, sourcePath, textOf_eq line.noNul, hform, Option.bind_some]
    exact congrArg some (if_pos hall)
  · intro file
    have hfgets : fgets scriptBufSize (line.bytes ++ 10 :: file) =
        some (line.bytes ++ [10], file) := by
      obtain ⟨c, s, hline⟩ := List.exists_cons_of_ne_nil line.ne_nil
      have hloop := fgetsLoop_newline line.noNewline file hshort
      rw [hline, List.cons_append] at hloop ⊢
      rw [fgets, hloop]
    have hnul : 0 ∉ line.bytes ++ [10] := by
      simp [line.noNul]
    have hnl : 10 ∉ line.arg := fun hmem => line.noNewline (line.arg_suffix.1.subset hmem)
    have hten : isBlank 10 = false := rfl
    obtain ⟨hpath, htrailing⟩ := documentedPath_newline hnl
    rw [scriptOpens, hfgets, Option.bind_some]
    dsimp only
    rw [sourcedBy_eq, sourcePath, textOf_eq hnul, (run_snoc hten _).2, sourceArg_newline hform,
      Option.bind_some]
    dsimp only
    rw [htrailing, hpath, if_pos]
    rw [List.all_append, hall]
    rfl

/-! ## The line at the prompt -/

/-- What becomes of the line at the prompt. -/
theorem DotLine.prompt (line : DotLine) :
    promptOpens line.bytes =
      if (pathStart line.arg).length + 4 ≤ scriptBufSize then
        some (if (trailing ((pathStart line.arg).dropWhile isBlank)).all isspace then
          some (documentedPath ((pathStart line.arg).dropWhile isBlank)) else none)
      else none := by
  have hsuffix := (pathStart_suffix line.arg).trans line.arg_suffix.1
  have hnul : 0 ∉ pathStart line.arg := fun hmem => line.noNul (hsuffix.subset hmem)
  have hnl : 10 ∉ pathStart line.arg := fun hmem => line.noNewline (hsuffix.subset hmem)
  have htext : textOf (pathStart line.arg ++ [0]) = pathStart line.arg := by
    rw [textOf]
    exact (run_ne hnul []).1
  have haccepted := line.accepted
  obtain ⟨tmp, htmp, hfound⟩ := Option.bind_eq_some_iff.mp haccepted
  rw [promptOpens, htmp, Option.bind_some, hfound, Option.bind_some]
  dsimp only
  rw [line.form.2.2, htext, scriptStart]
  split
  · rw [Option.bind_some, sourcedBy_eq, sourcePath_dot hnul hnl]
  · rfl

/-- Without quotes the rest of the line is the name and white space. -/
theorem DotLine.prompt_word (h : quoted line.arg = false)
    (hfits : line.arg.length + 4 ≤ scriptBufSize) :
    promptOpens line.bytes = some (some (documentedPath line.arg)) := by
  obtain ⟨-, -, hstart⟩ := documentedPath_word h
  rw [line.prompt, hstart, if_pos hfits, line.arg_suffix.2, if_pos line.form.2.1]

/-- A name that is looked for in what is left of a quoted one has the closing quote. -/
theorem mem_documentedPath_rest {q : UInt8} {s : List UInt8} (hquote : isQuote q = true)
    (hmem : q ∈ s) (hclosed : (trailing (q :: s)).all isspace = true)
    (hall : (trailing (s.dropWhile isBlank)).all isspace = true) :
    q ∈ documentedPath (s.dropWhile isBlank) := by
  have hspace : ∀ {t : List UInt8}, t.all isspace = true → q ∉ t := by
    intro t ht hq
    have hsp := List.all_eq_true.mp ht q hq
    rw [not_isspace_of_isQuote hquote] at hsp
    cases hsp
  have hblank : q ∉ s.takeWhile isBlank := by
    intro hq
    have hb := List.mem_takeWhile_imp hq
    rw [not_isBlank_of_isQuote hquote] at hb
    cases hb
  have hrest : q ∈ s.dropWhile isBlank := by
    rw [← List.takeWhile_append_dropWhile (p := isBlank) (l := s), List.mem_append] at hmem
    exact hmem.resolve_left hblank
  cases hquoted : quoted (s.dropWhile isBlank) with
  | false =>
    obtain ⟨hpath, htrailing, -⟩ := documentedPath_word hquoted
    rw [htrailing] at hall
    rw [hpath]
    rw [← List.takeWhile_append_dropWhile (p := fun c => !isspace c) (l := s.dropWhile isBlank),
      List.mem_append] at hrest
    exact hrest.resolve_right (hspace hall)
  | true =>
    obtain ⟨q', t, heq, hquote', hmem'⟩ := quoted_mem hquoted
    rw [heq] at hquoted hrest hall ⊢
    obtain ⟨hpath, htrailing, -⟩ := documentedPath_quoted hquoted
    rw [htrailing] at hall
    rw [hpath]
    have hsplit := takeWhile_ne_append hmem'
    by_cases hqq : q = q'
    · -- the text between the quotes would be blank, and then the closing quote comes behind it
      subst hqq
      have hs : s = s.takeWhile isBlank ++ q :: t := by
        rw [← heq, List.takeWhile_append_dropWhile]
      have hq : quoted (q :: s) = true := by
        rw [quoted, hquote, Bool.true_and, decide_eq_true_eq]
        exact hmem
      obtain ⟨-, htrailing', -⟩ := documentedPath_quoted hq
      rw [htrailing', hs, (run_ne hblank t).2] at hclosed
      exact absurd hmem' (hspace hclosed)
    · have ht : q ∈ t := (List.mem_cons.mp hrest).resolve_left hqq
      rw [← hsplit, List.mem_append, List.mem_append, List.mem_singleton] at ht
      exact (ht.resolve_right (hspace hall)).resolve_right hqq

end

/-- A line opens the same file at the prompt as in a script exactly if its name is not in quotes and
fits into the buffer of `process_script`. -/
theorem prompt_agrees_iff (line : DotLine) :
    PromptAgrees line ↔ quoted line.arg = false ∧ line.arg.length + 4 ≤ scriptBufSize := by
  obtain ⟨hscript, hscript'⟩ := line.script
  constructor
  · rintro ⟨path, hprompt, hopens, -⟩
    rw [hscript] at hopens
    cases hopens
    rw [line.prompt] at hprompt
    split at hprompt
    · next hfits =>
      cases hquoted : quoted line.arg with
      | false =>
        obtain ⟨-, -, hstart⟩ := documentedPath_word hquoted
        rw [hstart] at hfits
        exact ⟨rfl, hfits⟩
      | true =>
        obtain ⟨q, s, harg, hquote, hmem⟩ := quoted_mem hquoted
        have hclosed := line.form.2.1
        rw [harg] at hclosed hprompt hquoted
        obtain ⟨hpath, -, hstart⟩ := documentedPath_quoted hquoted
        rw [hstart, hpath, Option.some.injEq] at hprompt
        split at hprompt
        · next hall =>
          have hq := mem_documentedPath_rest hquote hmem hclosed hall
          rw [Option.some.inj hprompt] at hq
          exact absurd hq (notMem_takeWhile_ne q s)
        · cases hprompt
    · cases hprompt
  · rintro ⟨hquoted, hfits⟩
    exact ⟨_, DotLine.prompt_word hquoted hfits, hscript, hscript'⟩

/-- `. 'a'` -/
def quotedLine : DotLine where
  bytes := [46, 32, 39, 97, 39]
  noNul := by decide
  noNewline := by decide
  short := by decide
  found := ⟨[97, 39, 0], 1, false⟩
  accepted := by decide
  dot := rfl

/-- In a script `a` is opened, at the prompt it is `a'`. -/
theorem quoted_line_differs : ¬PromptAgrees quotedLine := by
  rintro ⟨path, hprompt, hopens, -⟩
  have hprompt' : promptOpens quotedLine.bytes = some (some [97, 39]) := by decide
  have hopens' : scriptOpens quotedLine.bytes = some (some [97]) := by decide
  rw [hprompt'] at hprompt
  rw [hopens'] at hopens
  cases hprompt
  cases hopens

end Cexp
