import Cexp.Shell.Getp

/-!
# Scripts

`process_script` hands the lines of a script to the parser. A line that sources another script puts
that one on a stack of open files; at the end of a file the one below goes on. The stack does what a
recursive reading of the files does (`readScript`), for any files, also such that source each other
(`process_script_refines`).
-/

namespace Cexp

/-! ## Lines -/

/-- `sizeof(buf)` -/
def scriptBufSize : Nat := 500

/-- `ST_DEPTH` -/
def stDepth : Nat := 10

/-- At most `n` characters of a file, up to the end of a line. -/
def fgetsLoop : Nat → List UInt8 → List UInt8 × List UInt8
  | 0, file => ([], file)
  | _ + 1, [] => ([], [])
  | n + 1, c :: file =>
    if c = 10 then ([c], file)
    else
      let (line, rest) := fgetsLoop n file
      (c :: line, rest)

/-- `fgets`: what it puts into the buffer in front of the null byte, and the rest of the file. -/
def fgets (size : Nat) : List UInt8 → Option (List UInt8 × List UInt8)
  | [] => none
  | c :: file => some (fgetsLoop (size - 1) (c :: file))

/-- The name of the script that the line in a buffer sources, if it does. -/
def sourcedBy (line : List UInt8) : Option (Option (List UInt8)) :=
  (skipsp (line ++ [0])).bind fun p => (getp p).map fun found => found.map Source.path

/-- `'#' == *maybecomment` -/
def commentIn (line : List UInt8) : Option Bool :=
  (skipsp (line ++ [0])).map fun p => p.head?.any fun c => chr c = '#'

/-! ## The stack of files -/

/-- An open file: its number and what has not been read. -/
structure ScriptFile where
  id : Nat
  rest : List UInt8
  deriving DecidableEq

/-- Why a script contributes nothing. -/
inductive ScriptError where
  | noScript
  | tooDeep
  deriving DecidableEq

/-- `CEXP_MAIN_NO_SCRIPT` and `CEXP_MAIN_NO_MEM` -/
def ScriptError.code : ScriptError → Nat
  | noScript => 3
  | tooDeep => 5

inductive ScriptEvent where
  | fopen (id : Nat) (path : List UInt8)
  | fclose (id : Nat)
  | cexpparse (line : List UInt8)
  | message (e : ScriptError)
  deriving DecidableEq

/-- What `process_script` keeps. The first of the stack is the file at `sp`; `opened` counts the
files that have been opened. -/
structure ScriptState where
  buf : List UInt8
  filestack : List ScriptFile
  rval : Nat
  opened : Nat
  trace : List ScriptEvent
  deriving DecidableEq

/-- A script contributes nothing. -/
def ScriptState.fail (s : ScriptState) (e : ScriptError) : ScriptState :=
  { s with rval := e.code, trace := s.trace ++ [.message e] }

/-- A script is pushed on the stack. -/
def ScriptState.push (s : ScriptState) (path content : List UInt8) : ScriptState :=
  { s with
    filestack := ⟨s.opened, content⟩ :: s.filestack
    opened := s.opened + 1
    trace := s.trace ++ [.fopen s.opened path] }

/-- The parser gets the line. -/
def ScriptState.parse (s : ScriptState) : ScriptState :=
  { s with trace := s.trace ++ [.cexpparse s.buf] }

variable (files : List UInt8 → Option (List UInt8))

/-- The body of the loop with the line that is in the buffer. There is no result if it reads behind
the end of the line. -/
def scriptBody (s : ScriptState) : Option ScriptState :=
  (sourcedBy s.buf).bind fun found =>
    match found with
    | some p =>
      if stDepth ≤ s.filestack.length then some (s.fail .tooDeep)
      else match files p with
        | none => some (s.fail .noScript)
        | some content => some (s.push p content)
    | none => (commentIn s.buf).map fun comment => if comment then s else s.parse

/-- The loop that reads the next line. Files that have come to their end are popped. -/
def scriptRead (buf : List UInt8) (rval opened : Nat) :
    List ScriptFile → List ScriptEvent → ScriptState
  | [], trace => ⟨buf, [], rval, opened, trace⟩
  | file :: filestack, trace =>
    match fgets scriptBufSize file.rest with
    | none => scriptRead buf rval opened filestack (trace ++ [.fclose file.id])
    | some (line, rest) => ⟨line, ⟨file.id, rest⟩ :: filestack, rval, opened, trace⟩

def ScriptState.read (s : ScriptState) : ScriptState :=
  scriptRead s.buf s.rval s.opened s.filestack s.trace

/-- The loop over the lines, from its body on. `k` bounds the number of passes. -/
def scriptLoop : Nat → ScriptState → Option ScriptState
  | 0, _ => none
  | k + 1, s =>
    (scriptBody files s).bind fun s =>
      if s.read.filestack = [] then some s.read else scriptLoop k s.read

/-- `sprintf(buf,". %s\n",name)`, if the buffer is large enough. -/
def scriptStart (name : List UInt8) : Option (List UInt8) :=
  if name.length + 4 ≤ scriptBufSize then some (46 :: 32 :: name ++ [10]) else none

/-- `process_script` -/
def processScript (k : Nat) (name : List UInt8) : Option ScriptState :=
  (scriptStart name).bind fun buf => scriptLoop files k ⟨buf, [], 0, 0, []⟩

def parsedLines (trace : List ScriptEvent) : List (List UInt8) :=
  trace.filterMap fun e => match e with
    | .cexpparse line => some line
    | _ => none

def openedFiles (trace : List ScriptEvent) : List Nat :=
  trace.filterMap fun e => match e with
    | .fopen id _ => some id
    | _ => none

def closedFiles (trace : List ScriptEvent) : List Nat :=
  trace.filterMap fun e => match e with
    | .fclose id => some id
    | _ => none

/-! ## The recursive reading -/

/-- The lines of a file. All but the last one have a newline. -/
def splitLines : List UInt8 → List (List UInt8)
  | [] => []
  | c :: file =>
    if c = 10 then [c] :: splitLines file
    else match splitLines file with
      | [] => [[c]]
      | line :: lines => (c :: line) :: lines

/-- The script that a line sources. -/
def sourcePath (line : List UInt8) : Option (List UInt8) :=
  (sourceArg ((textOf line).dropWhile isBlank)).bind fun (_, arg) =>
    if (trailing arg).all isspace then some (documentedPath arg) else none

def isComment (line : List UInt8) : Bool :=
  ((textOf line).dropWhile isBlank).head?.any fun c => chr c = '#'

/-- The lines of a script, with those of the scripts it sources in their place, and what could not
be read. `room` is how much deeper scripts may be nested. -/
def readScript : Nat → List UInt8 → List (List UInt8) × List ScriptError
  | 0, _ => ([], [.tooDeep])
  | room + 1, path =>
    match files path with
    | none => ([], [.noScript])
    | some content =>
      let parts := (splitLines content).map fun line =>
        match sourcePath line with
        | some p => readScript room p
        | none => if isComment line then ([], []) else ([line], [])
      (parts.flatMap Prod.fst, parts.flatMap Prod.snd)

/-- What is returned after these errors. -/
def exitCode (errors : List ScriptError) : Nat := (errors.getLast?.map ScriptError.code).getD 0

/-- Scripts whose lines are shorter than the buffer. -/
structure ScriptFiles where
  read : List UInt8 → Option (List UInt8)
  short : ∀ path content, read path = some content →
    ∀ line ∈ splitLines content, line.length < scriptBufSize

/-- A name of a script without white space and quotes that the buffer has room for. -/
structure ScriptName where
  bytes : List UInt8
  plain : ∀ c ∈ bytes, c ≠ 0 ∧ isspace c = false ∧ isQuote c = false
  fits : bytes.length + 4 ≤ scriptBufSize

/-! ## Reading lines -/

theorem splitLines_eq_nil {file : List UInt8} (h : splitLines file = []) : file = [] := by
  cases file with
  | nil => rfl
  | cons c file =>
    rw [splitLines] at h
    split at h
    · cases h
    · cases hrest : splitLines file <;> rw [hrest] at h <;> cases h

theorem fgetsLoop_line {file line : List UInt8} {lines : List (List UInt8)}
    (h : splitLines file = line :: lines) {n : Nat} (hn : line.length ≤ n) :
    ∃ rest, fgetsLoop n file = (line, rest) ∧ splitLines rest = lines := by
  induction file generalizing n line lines with
  | nil => cases h
  | cons c file ih =>
    rw [splitLines] at h
    have hpos : ∀ tail, line = c :: tail → ∃ m, n = m + 1 ∧ tail.length ≤ m := by
      rintro tail rfl
      rw [List.length_cons] at hn
      exact ⟨n - 1, by omega, by omega⟩
    by_cases hc : c = 10
    · rw [if_pos hc, List.cons.injEq] at h
      obtain ⟨rfl, rfl⟩ := h
      obtain ⟨m, rfl, -⟩ := hpos [] rfl
      exact ⟨file, by rw [fgetsLoop, if_pos hc], rfl⟩
    · rw [if_neg hc] at h
      cases hrest : splitLines file with
      | nil =>
        rw [hrest] at h
        cases h
        obtain ⟨m, rfl, -⟩ := hpos [] rfl
        have hnil : fgetsLoop m [] = ([], []) := by cases m <;> rfl
        refine ⟨[], ?_, rfl⟩
        rw [splitLines_eq_nil hrest, fgetsLoop, if_neg hc, hnil]
      | cons l ls =>
        rw [hrest] at h
        cases h
        obtain ⟨m, rfl, hm⟩ := hpos l rfl
        obtain ⟨rest, hloop, hlines⟩ := ih hrest hm
        exact ⟨rest, by rw [fgetsLoop, if_neg hc, hloop], hlines⟩

/-- `fgets` gives the lines of a file if they are short. -/
theorem fgets_line {file line : List UInt8} {lines : List (List UInt8)}
    (h : splitLines file = line :: lines) {size : Nat} (hsize : line.length < size) :
    ∃ rest, fgets size file = some (line, rest) ∧ splitLines rest = lines := by
  obtain ⟨rest, hloop, hlines⟩ :=
    fgetsLoop_line h (show line.length ≤ size - 1 by omega)
  cases file with
  | nil => cases h
  | cons c file => exact ⟨rest, by rw [fgets, hloop], hlines⟩

theorem textOf_split (line : List UInt8) :
    ∃ beyond, line ++ [0] = textOf line ++ 0 :: beyond ∧ 0 ∉ textOf line := by
  induction line with
  | nil => exact ⟨[], rfl, List.not_mem_nil⟩
  | cons c line ih =>
    obtain ⟨beyond, heq, hnul⟩ := ih
    rw [textOf, List.takeWhile_cons]
    by_cases hc : c = 0
    · subst hc
      exact ⟨line ++ [0], rfl, List.not_mem_nil⟩
    · rw [if_pos (bne_iff_ne.mpr hc)]
      refine ⟨beyond, by rw [List.cons_append, heq]; rfl, ?_⟩
      rw [List.mem_cons, not_or]
      exact ⟨Ne.symm hc, hnul⟩

theorem sourcedBy_eq (line : List UInt8) : sourcedBy line = some (sourcePath line) := by
  obtain ⟨beyond, heq, hnul⟩ := textOf_split line
  rw [sourcedBy, heq, skipsp_eq hnul, Option.bind_some, getp_eq (noNul_dropWhile hnul _),
    Option.map_some, sourcePath]
  cases sourceArg ((textOf line).dropWhile isBlank) with
  | none => rfl
  | some found =>
    obtain ⟨warn, arg⟩ := found
    rw [Option.bind_some, Option.bind_some]
    exact congrArg some (foundIn_map_path warn arg beyond)

theorem commentIn_eq (line : List UInt8) : commentIn line = some (isComment line) := by
  obtain ⟨beyond, heq, hnul⟩ := textOf_split line
  rw [commentIn, heq, skipsp_eq hnul, Option.map_some, isComment]
  cases (textOf line).dropWhile isBlank <;> rfl

/-! ## The stack and the recursion -/

section

variable {files : List UInt8 → Option (List UInt8)} {s s' s'' : ScriptState}
  {r r' : List (List UInt8) × List ScriptError}

/-- What the loop does behind its body. -/
def scriptResume (files : List UInt8 → Option (List UInt8)) (k : Nat) (s : ScriptState) :
    Option ScriptState :=
  if s.read.filestack = [] then some s.read else scriptLoop files k s.read

theorem scriptLoop_succ (k : Nat) (s : ScriptState) :
    scriptLoop files (k + 1) s = (scriptBody files s).bind (scriptResume files k) := rfl

/-- `s'` comes after `s` when the lines and the errors of `r` have been dealt with, and all files
that were opened have been closed. -/
structure ScriptState.Adds (s : ScriptState) (r : List (List UInt8) × List ScriptError)
    (s' : ScriptState) : Prop where
  rval : s'.rval = (r.2.getLast?.map ScriptError.code).getD s.rval
  trace : ∃ seg n, s'.trace = s.trace ++ seg ∧ s'.opened = s.opened + n ∧
    parsedLines seg = r.1 ∧ openedFiles seg = List.range' s.opened n ∧
    (closedFiles seg).Perm (List.range' s.opened n)

theorem ScriptState.Adds.same (hrval : s'.rval = s.rval) (htrace : s'.trace = s.trace)
    (hopened : s'.opened = s.opened) : s.Adds ([], []) s' :=
  ⟨hrval, [], 0, by rw [htrace, List.append_nil], hopened, rfl, rfl, .nil⟩

theorem ScriptState.Adds.trans (h : s.Adds r s') (h' : s'.Adds r' s'') :
    s.Adds (r.1 ++ r'.1, r.2 ++ r'.2) s'' := by
  obtain ⟨hrval, seg, n, htrace, hopened, hparsed, hfopen, hfclose⟩ := h
  obtain ⟨hrval', seg', n', htrace', hopened', hparsed', hfopen', hfclose'⟩ := h'
  rw [hopened] at hopened' hfopen' hfclose'
  refine ⟨?_, seg ++ seg', n + n', ?_, by omega, ?_, ?_, ?_⟩
  · rw [hrval', hrval]
    dsimp only
    cases hlast : r'.2.getLast? with
    | none => rw [List.getLast?_eq_none_iff.mp hlast, List.append_nil]; rfl
    | some e => rw [List.getLast?_append, hlast]; rfl
  · rw [htrace', htrace, List.append_assoc]
  · rw [← hparsed, ← hparsed', parsedLines, parsedLines, parsedLines, List.filterMap_append]
  · rw [List.range'_append_1.symm, ← hfopen, ← hfopen', openedFiles, openedFiles, openedFiles,
      List.filterMap_append]
  · rw [List.range'_append_1.symm, closedFiles, List.filterMap_append]
    exact hfclose.append hfclose'

theorem ScriptState.Adds.fail (s : ScriptState) (e : ScriptError) :
    s.Adds ([], [e]) (s.fail e) :=
  ⟨rfl, [.message e], 0, rfl, rfl, rfl, rfl, .nil⟩

theorem ScriptState.Adds.parse (s : ScriptState) : s.Adds ([s.buf], []) s.parse :=
  ⟨rfl, [.cexpparse s.buf], 0, rfl, rfl, rfl, rfl, .nil⟩

/-- A file that was pushed and read is popped. -/
theorem ScriptState.Adds.file {path content : List UInt8}
    (h : (s.push path content).Adds r s') (hrval : s''.rval = s'.rval)
    (hopened : s''.opened = s'.opened) (htrace : s''.trace = s'.trace ++ [.fclose s.opened]) :
    s.Adds r s'' := by
  obtain ⟨hrval', seg, n, htrace', hopened', hparsed, hfopen, hfclose⟩ := h
  refine ⟨hrval.trans hrval', .fopen s.opened path :: (seg ++ [.fclose s.opened]), n + 1,
    ?_, ?_, ?_, ?_, ?_⟩
  · rw [htrace, htrace', ScriptState.push, List.append_assoc, List.append_assoc,
      List.singleton_append]
  · have hpush : (s.push path content).opened = s.opened + 1 := rfl
    rw [hopened, hopened', hpush]
    omega
  · rw [← hparsed, parsedLines, parsedLines, List.filterMap_cons, List.filterMap_append]
    exact List.append_nil _
  · rw [List.range'_succ, openedFiles, List.filterMap_cons, List.filterMap_append]
    exact congrArg (s.opened :: ·) ((List.append_nil _).trans hfopen)
  · rw [List.range'_succ, closedFiles, List.filterMap_cons, List.filterMap_append]
    refine (List.perm_append_singleton _ _).trans (.cons _ hfclose)

/-- What a line of a script stands for when scripts may be nested `room` times deeper. -/
def readLine (files : List UInt8 → Option (List UInt8)) (room : Nat) (line : List UInt8) :
    List (List UInt8) × List ScriptError :=
  match sourcePath line with
  | some p => readScript files room p
  | none => if isComment line then ([], []) else ([line], [])

/-- The stack has room for `room` more files, and the loop reads a script like the recursion. -/
def ReadsScripts (files : List UInt8 → Option (List UInt8)) (room : Nat) : Prop :=
  ∀ s path, s.filestack.length + room = stDepth → sourcePath s.buf = some path →
    ∃ j s', (∀ k, scriptLoop files (k + j + 1) s = scriptResume files k s') ∧
      s'.filestack = s.filestack ∧ s.Adds (readScript files room path) s'

/-- One line. -/
theorem ReadsScripts.line {room : Nat} (h : ReadsScripts files room)
    (hroom : s.filestack.length + room = stDepth) :
    ∃ j s', (∀ k, scriptLoop files (k + j + 1) s = scriptResume files k s') ∧
      s'.filestack = s.filestack ∧ s.Adds (readLine files room s.buf) s' := by
  rw [readLine]
  cases hpath : sourcePath s.buf with
  | some path => exact h s path hroom hpath
  | none =>
    have hbody : scriptBody files s = some (if isComment s.buf then s else s.parse) := by
      rw [scriptBody, sourcedBy_eq, hpath, Option.bind_some, commentIn_eq, Option.map_some]
    refine ⟨0, if isComment s.buf then s else s.parse, ?_, ?_, ?_⟩
    · intro k
      rw [Nat.add_zero, scriptLoop_succ, hbody, Option.bind_some]
    · split <;> rfl
    · dsimp only
      split
      · exact .same rfl rfl rfl
      · exact .parse s

/-- The lines of a file, up to its end. -/
theorem ReadsScripts.lines {room : Nat} (h : ReadsScripts files room) (id : Nat)
    (filestack : List ScriptFile) (hroom : filestack.length + 1 + room = stDepth)
    {lines : List (List UInt8)} (hshort : ∀ line ∈ lines, line.length < scriptBufSize)
    {rest : List UInt8} (hstack : s.filestack = ⟨id, rest⟩ :: filestack)
    (hlines : splitLines rest = lines) :
    ∃ j s', (∀ k, scriptResume files (k + j) s = scriptResume files k s') ∧
      s'.filestack = ⟨id, []⟩ :: filestack ∧
      s.Adds ((lines.map (readLine files room)).flatMap Prod.fst,
        (lines.map (readLine files room)).flatMap Prod.snd) s' := by
  induction lines generalizing s rest with
  | nil =>
    rw [splitLines_eq_nil hlines] at hstack
    exact ⟨0, s, fun _ => rfl, hstack, .same rfl rfl rfl⟩
  | cons line lines ih =>
    obtain ⟨rest', hfgets, hrest'⟩ := fgets_line hlines (hshort line List.mem_cons_self)
    have hread : s.read = { s with buf := line, filestack := ⟨id, rest'⟩ :: filestack } := by
      rw [ScriptState.read, hstack, scriptRead, hfgets]
    have hline := h.line (s := s.read)
      (by rw [hread, ← hroom, List.length_cons])
    obtain ⟨j, s₁, hrun, hstack₁, hadds⟩ := hline
    rw [hread] at hstack₁ hadds
    obtain ⟨j', s', hrun', hstack', hadds'⟩ :=
      ih (fun l hl => hshort l (List.mem_cons_of_mem line hl)) hstack₁ hrest'
    refine ⟨j' + (j + 1), s', ?_, hstack', ?_⟩
    · intro k
      have hne : s.read.filestack ≠ [] := by
        rw [hread]
        exact List.cons_ne_nil _ _
      rw [scriptResume, if_neg hne, ← Nat.add_assoc, ← Nat.add_assoc, hrun, hrun']
    · have hsame : s.Adds ([], []) { s with
          buf := line, filestack := ⟨id, rest'⟩ :: filestack } := .same rfl rfl rfl
      exact (hsame.trans hadds).trans hadds'

/-- At the end of a file it is popped. -/
theorem scriptResume_pop {id : Nat} {filestack : List ScriptFile}
    (hstack : s.filestack = ⟨id, []⟩ :: filestack) (k : Nat) :
    scriptResume files k s = scriptResume files k
      { s with filestack := filestack, trace := s.trace ++ [.fclose id] } := by
  have hread : s.read = scriptRead s.buf s.rval s.opened filestack (s.trace ++ [.fclose id]) := by
    rw [ScriptState.read, hstack, scriptRead]
    rfl
  rw [scriptResume, scriptResume, hread]
  rfl

/-- The loop reads scripts like the recursion, for any room that is left on the stack. -/
theorem readsScripts (hshort : ∀ path content, files path = some content →
    ∀ line ∈ splitLines content, line.length < scriptBufSize) (room : Nat) :
    ReadsScripts files room := by
  induction room with
  | zero =>
    intro s path hroom hpath
    have hbody : scriptBody files s = some (s.fail .tooDeep) := by
      rw [scriptBody, sourcedBy_eq, hpath, Option.bind_some]
      exact if_pos (Nat.le_of_eq hroom.symm)
    refine ⟨0, s.fail .tooDeep, ?_, rfl, .fail s .tooDeep⟩
    intro k
    rw [Nat.add_zero, scriptLoop_succ, hbody, Option.bind_some]
  | succ room ih =>
    intro s path hroom hpath
    have hdepth : ¬stDepth ≤ s.filestack.length := by omega
    have hbody : scriptBody files s = match files path with
        | none => some (s.fail .noScript)
        | some content => some (s.push path content) := by
      rw [scriptBody, sourcedBy_eq, hpath, Option.bind_some]
      exact if_neg hdepth
    rw [readScript]
    cases hfile : files path with
    | none =>
      rw [hfile] at hbody
      refine ⟨0, s.fail .noScript, ?_, rfl, .fail s .noScript⟩
      intro k
      rw [Nat.add_zero, scriptLoop_succ, hbody, Option.bind_some]
    | some content =>
      rw [hfile] at hbody
      obtain ⟨j, s', hrun, hstack, hadds⟩ := ih.lines (s := s.push path content) s.opened
        s.filestack (by omega) (hshort path content hfile) rfl rfl
      refine ⟨j, { s' with filestack := s.filestack, trace := s'.trace ++ [.fclose s.opened] },
        ?_, rfl, hadds.file rfl rfl rfl⟩
      intro k
      rw [scriptLoop_succ, hbody, Option.bind_some, hrun, scriptResume_pop hstack]

theorem exitCode_eq_zero_iff (errors : List ScriptError) : exitCode errors = 0 ↔ errors = [] := by
  rw [exitCode]
  cases hlast : errors.getLast? with
  | none => exact iff_of_true rfl (List.getLast?_eq_none_iff.mp hlast)
  | some e =>
    refine iff_of_false ?_ ?_
    · cases e <;> exact Nat.succ_ne_zero _
    · rintro rfl
      cases hlast

end

/-- The line that `process_script` makes of the text that it gets. -/
theorem sourcePath_dot {name : List UInt8} (hnul : 0 ∉ name) (hnl : 10 ∉ name) :
    sourcePath (46 :: 32 :: name ++ [10]) =
      if (trailing (name.dropWhile isBlank)).all isspace then
        some (documentedPath (name.dropWhile isBlank))
      else none := by
  have htext : textOf (46 :: 32 :: name ++ [10]) = 46 :: 32 :: name ++ [10] := by
    apply textOf_eq
    simp [hnul]
  have hnl' : 10 ∉ name.dropWhile isBlank :=
    fun hmem => hnl ((List.dropWhile_suffix isBlank).subset hmem)
  have hdrop : (32 :: (name ++ [10])).dropWhile isBlank = name.dropWhile isBlank ++ [10] := by
    have h32 : isBlank 32 = true := isBlank_iff.mpr (Or.inl rfl)
    rw [List.dropWhile_cons, if_pos h32]
    exact (run_snoc rfl name).2
  have harg : sourceArg (46 :: 32 :: name ++ [10]) =
      some (false, name.dropWhile isBlank ++ [10]) := by
    rw [← hdrop]
    rfl
  have hten : isspace 10 = true := rfl
  obtain ⟨hpath, htrailing⟩ := documentedPath_newline hnl'
  rw [sourcePath, htext]
  change (sourceArg (46 :: 32 :: name ++ [10])).bind _ = _
  rw [harg, Option.bind_some]
  dsimp only
  rw [hpath, htrailing, List.all_append, List.all_cons, hten, List.all_nil, Bool.and_true,
    Bool.and_true]

theorem sourcePath_start (name : ScriptName) :
    sourcePath (46 :: 32 :: name.bytes ++ [10]) = some name.bytes := by
  have hspace : ∀ c ∈ name.bytes, (!isspace c) = true := by
    intro c hc
    rw [(name.plain c hc).2.1, Bool.not_false]
  have hnl : 10 ∉ name.bytes := by
    intro hmem
    have hten := hspace 10 hmem
    cases hten
  have hdrop : name.bytes.dropWhile isBlank = name.bytes := by
    cases hbytes : name.bytes with
    | nil => rfl
    | cons c s =>
      have hc := hspace c (by rw [hbytes]; exact List.mem_cons_self)
      rw [List.dropWhile_cons, if_neg]
      intro hblank
      rw [isspace_of_isBlank hblank] at hc
      cases hc
  have hquoted : quoted name.bytes = false := by
    cases hbytes : name.bytes with
    | nil => rfl
    | cons c s =>
      have hc := name.plain c (by rw [hbytes]; exact List.mem_cons_self)
      rw [quoted, hc.2.2, Bool.false_and]
  obtain ⟨hpath, htrailing, -⟩ := documentedPath_word hquoted
  have hword := List.takeWhile_eq_self_iff.mpr hspace
  have hrest := List.dropWhile_eq_nil_iff.mpr hspace
  rw [sourcePath_dot (fun hmem => (name.plain 0 hmem).1 rfl) hnl, hdrop, hpath, htrailing, hword,
    hrest]
  rfl

/-- `process_script` returns. Its parser has got the lines of the recursive reading, what is
returned tells whether a script could not be read, and each file that was opened has been closed
once. -/
theorem process_script_refines (files : ScriptFiles) (name : ScriptName) :
    ∃ k s, (∀ m ≥ k, processScript files.read m name.bytes = some s) ∧
      parsedLines s.trace = (readScript files.read stDepth name.bytes).1 ∧
      s.rval = exitCode (readScript files.read stDepth name.bytes).2 ∧
      (s.rval ≠ 0 ↔ (readScript files.read stDepth name.bytes).2 ≠ []) ∧
      (openedFiles s.trace).Nodup ∧ (closedFiles s.trace).Perm (openedFiles s.trace) := by
  obtain ⟨j, s, hrun, hstack, hrval, seg, n, htrace, -, hparsed, hfopen, hfclose⟩ :=
    readsScripts files.short stDepth ⟨46 :: 32 :: name.bytes ++ [10], [], 0, 0, []⟩ name.bytes rfl
      (sourcePath_start name)
  have hread : s.read = s := by
    cases s
    dsimp only at hstack
    subst hstack
    rfl
  have hcode : s.rval = exitCode (readScript files.read stDepth name.bytes).2 := hrval
  rw [List.nil_append] at htrace
  refine ⟨j + 1, s, ?_, by rw [htrace, hparsed], hcode, ?_, ?_, ?_⟩
  · intro m hm
    obtain ⟨k, rfl⟩ := Nat.exists_eq_add_of_le' hm
    rw [processScript, scriptStart, if_pos name.fits, Option.bind_some, ← Nat.add_assoc, hrun,
      scriptResume, hread, if_pos hstack]
  · rw [hcode, Ne, exitCode_eq_zero_iff]
  · rw [htrace, hfopen]
    exact List.nodup_range'
  · rw [htrace, hfopen]
    exact hfclose

/-! ## Two scripts that source each other -/

/-- `1` and `. b` -/
def scriptA : List UInt8 := [49, 10, 46, 32, 98, 10]

/-- `2` and `. a` -/
def scriptB : List UInt8 := [50, 10, 46, 32, 97, 10]

def cycleFiles : ScriptFiles where
  read path := if path = [97] then some scriptA else if path = [98] then some scriptB else none
  short := by
    intro path content hread
    split at hread
    · cases hread
      decide
    · split at hread
      · cases hread
        decide
      · cases hread

/-- The script `a`. -/
def scriptNameA : ScriptName where
  bytes := [97]
  plain := by
    intro c hc
    rw [List.mem_singleton.mp hc]
    decide
  fits := by decide

/-- The reading ends when the stack is full. -/
theorem process_script_refines_cycle :
    ∃ k s, (∀ m ≥ k, processScript cycleFiles.read m [97] = some s) ∧
      parsedLines s.trace = (List.replicate 5 [[49, 10], [50, 10]]).flatten ∧ s.rval = 5 := by
  obtain ⟨k, s, hrun, hlines, hcode, -⟩ :=
    process_script_refines cycleFiles scriptNameA
  have hread : readScript cycleFiles.read stDepth scriptNameA.bytes =
      ((List.replicate 5 [[49, 10], [50, 10]]).flatten, [.tooDeep]) := by decide +kernel
  refine ⟨k, s, hrun, ?_, ?_⟩
  · rw [hlines, hread]
  · rw [hcode, hread]
    rfl

end Cexp
