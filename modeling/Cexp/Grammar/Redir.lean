import Cexp.Ctyps.Types

/-!
# Redirection of the standard streams

A line may begin with a redirection, which `cexpRedir` sets up before the rest of the
line is parsed and `cexpUnredir` takes back when `cexpparse` returns. The saved stream in
a field of the context is also the mark that this stream is redirected.

`cexpparse_undone_iff`: everything is as it was before the call, except when the input
file of a line with both redirections opens and the output file does not. Then `cexpRedir`
puts `stdin` back itself but leaves the mark, and `cexpUnredir` closes the stream that it
finds in `stdin`.

A `FILE*` is a number, given in the order in which the streams are opened; `0` is the
null pointer. The
function that a context may register is told of each change and has no part in it.
-/

namespace Cexp

/-- The standard streams, the streams and marks of the context, and what `fopen` and
`fclose` have done so far. -/
structure Streams where
  stdin : Nat
  stdout : Nat
  stderr : Nat
  outf : Nat
  errf : Nat
  o_stdin : Nat
  o_stdout : Nat
  o_stderr : Nat
  o_outf : Nat
  o_errf : Nat
  next : Nat
  closed : List Nat
  deriving DecidableEq, Repr

inductive Mode where
  | r | w | a
  deriving DecidableEq, Repr

/-- Which files can be opened. -/
abbrev Disk := String → Mode → Bool

def fopen (disk : Disk) (path : String) (mode : Mode) (s : Streams) : Nat × Streams :=
  if disk path mode then (s.next, { s with next := s.next + 1 }) else (0, s)

def fclose (f : Nat) (s : Streams) : Streams := { s with closed := f :: s.closed }

/-! ## Setting up -/

inductive RedirOp where
  | REDIR | REDIRAPPEND | REDIRBOTH | REDIRAPPENDBOTH
  deriving DecidableEq, Repr

def RedirOp.mode : Option RedirOp → Mode
  | some .REDIRAPPEND | some .REDIRAPPENDBOTH => .a
  | _ => .w

def RedirOp.both : Option RedirOp → Bool
  | some .REDIRBOTH | some .REDIRAPPENDBOTH => true
  | _ => false

/-- `ctx->o_stdin = stdin; stdin = nif;` -/
def installInput (nif : Nat) (s : Streams) : Streams :=
  { s with o_stdin := s.stdin, stdin := nif }

/-- `stdout` and `outf`, and for `>&` also `stderr` and `errf`, become `nof`. -/
def installOutput (op : Option RedirOp) (nof : Nat) (s : Streams) : Streams :=
  let s := { s with o_stdout := s.stdout, stdout := nof }
  let s := if s.outf ≠ 0 then { s with o_outf := s.outf, outf := nof } else s
  if RedirOp.both op then
    let s := { s with o_stderr := s.stderr, stderr := nof }
    if s.errf ≠ 0 then { s with o_errf := s.errf, errf := nof } else s
  else s

/-- The second half of `cexpRedir`; `nif` is the input stream that the first half opened. -/
def cexpRedirOutput (disk : Disk) (op : Option RedirOp) (opath : Option String) (nif : Nat)
    (s : Streams) : Int × Streams :=
  match opath with
  | none => (0, s)
  | some path =>
    match fopen disk path (RedirOp.mode op) s with
    | (0, s) => (-1, if nif ≠ 0 then fclose nif { s with stdin := s.o_stdin } else s)
    | (nof, s) => (0, installOutput op nof s)

/-- A path is a null pointer if the redirection is absent, or if the variable that should
hold it is null. -/
def cexpRedir (disk : Disk) (op : Option RedirOp) (opath ipath : Option String) (s : Streams) :
    Int × Streams :=
  if opath = none ∧ ipath = none then (-1, s)
  else if opath ≠ none ∧ (s.o_stdout ≠ 0 ∨ s.o_stderr ≠ 0) then (-1, s)
  else if ipath ≠ none ∧ s.o_stdin ≠ 0 then (-1, s)
  else match ipath with
    | none => cexpRedirOutput disk op opath 0 s
    | some path =>
      match fopen disk path .r s with
      | (0, s) => (-1, s)
      | (nif, s) => cexpRedirOutput disk op opath nif (installInput nif s)

/-! ## Taking back -/

def cexpUnredir (s : Streams) : Streams :=
  let s := if s.o_stdout ≠ 0 then
    { fclose s.stdout s with stdout := s.o_stdout, o_stdout := 0 } else s
  let s := if s.o_outf ≠ 0 then { s with outf := s.o_outf, o_outf := 0 } else s
  let s := if s.o_stderr ≠ 0 then { s with stderr := s.o_stderr, o_stderr := 0 } else s
  let s := if s.o_errf ≠ 0 then { s with errf := s.o_errf, o_errf := 0 } else s
  if s.o_stdin ≠ 0 then { fclose s.stdin s with stdin := s.o_stdin, o_stdin := 0 } else s

/-- No stream is redirected. -/
structure Streams.Idle (s : Streams) : Prop where
  o_stdin : s.o_stdin = 0
  o_stdout : s.o_stdout = 0
  o_stderr : s.o_stderr = 0
  o_outf : s.o_outf = 0
  o_errf : s.o_errf = 0

theorem cexpUnredir_of_idle {s : Streams} (h : s.Idle) : cexpUnredir s = s := by
  simp [cexpUnredir, h.o_stdin, h.o_stdout, h.o_stderr, h.o_outf, h.o_errf]

/-- Whatever the marks were, `cexpUnredir` clears them. -/
theorem idle_cexpUnredir (s : Streams) : (cexpUnredir s).Idle := by
  obtain ⟨_, _, _, _, _, o_stdin, o_stdout, o_stderr, o_outf, o_errf, _, _⟩ := s
  by_cases h₁ : o_stdout = 0 <;> by_cases h₂ : o_outf = 0 <;> by_cases h₃ : o_stderr = 0 <;>
    by_cases h₄ : o_errf = 0 <;> by_cases h₅ : o_stdin = 0 <;>
      exact ⟨by simp [cexpUnredir, fclose, *], by simp [cexpUnredir, fclose, *],
        by simp [cexpUnredir, fclose, *], by simp [cexpUnredir, fclose, *],
        by simp [cexpUnredir, fclose, *]⟩

/-! ## A line -/

/-- `redirarg`: a variable or a string constant. -/
inductive Redirarg where
  | nonfuncvar (type : CexpType) (p : Option String)
  | strConst (p : String)

/-- The path, unless the variable is no string. -/
def Redirarg.path : Redirarg → Option (Option String)
  | nonfuncvar type p => if type = CexpType.TUCharP then some p else none
  | strConst p => some (some p)

/-- `redir` -/
inductive Redir where
  | nothing
  | output (op : RedirOp) (o : Redirarg)
  | input (i : Redirarg)
  | inputOutput (i : Redirarg) (op : RedirOp) (o : Redirarg)
  | outputInput (op : RedirOp) (o i : Redirarg)

/-- The arguments `op`, `oarg` and `iarg` of the call of `cexpRedir`, if there is one. -/
def Redir.args : Redir → Option (Option RedirOp × Option String × Option String)
  | nothing => none
  | output op o => o.path.map fun opath => (some op, opath, none)
  | input i => i.path.map fun ipath => (none, none, ipath)
  | inputOutput i op o => i.path.bind fun ipath => o.path.map fun opath => (some op, opath, ipath)
  | outputInput op o i => o.path.bind fun opath => i.path.map fun ipath => (some op, opath, ipath)

/-- The parser that bison generates, `1` for a line that is rejected. `rest` is its result
on a line whose redirection is accepted. -/
def yyparse (disk : Disk) (redir : Redir) (rest : Int) (s : Streams) : Int × Streams :=
  match redir with
  | .nothing => (rest, s)
  | _ =>
    match redir.args with
    | none => (1, s)
    | some (op, opath, ipath) =>
      let (failed, s) := cexpRedir disk op opath ipath s
      if failed ≠ 0 then (1, s) else (rest, s)

def cexpparse (disk : Disk) (redir : Redir) (rest : Int) (s : Streams) : Int × Streams :=
  let (rval, s) := yyparse disk redir rest s
  (rval, cexpUnredir s)

/-! ## What is left after a line -/

/-- Every stream in use or closed is older than the next one. Only `outf` and `errf` may be
null. -/
structure Streams.Open (s : Streams) : Prop where
  stdin : s.stdin ≠ 0
  stdout : s.stdout ≠ 0
  stderr : s.stderr ≠ 0
  old : ∀ f ∈ [s.stdin, s.stdout, s.stderr, s.outf, s.errf], f < s.next
  next : ∀ f ∈ s.closed, f < s.next

/-- From `s` to `s'` everything that was redirected has been taken back. -/
structure Undone (s s' : Streams) : Prop where
  stdin : s'.stdin = s.stdin
  stdout : s'.stdout = s.stdout
  stderr : s'.stderr = s.stderr
  outf : s'.outf = s.outf
  errf : s'.errf = s.errf
  /-- no original stream has been closed -/
  kept : ∀ f ∈ [s.stdin, s.stdout, s.stderr, s.outf, s.errf], s'.closed.count f = s.closed.count f
  /-- every stream opened since is closed, once -/
  once : ∀ f, s.next ≤ f → f < s'.next → s'.closed.count f = 1
  again : cexpUnredir s' = s'

theorem undone_self {s : Streams} (h : s.Idle) : Undone s s :=
  ⟨rfl, rfl, rfl, rfl, rfl, fun _ _ => rfl, fun f h1 h2 => by omega, cexpUnredir_of_idle h⟩

/-- Closing exactly the streams that were opened, and nothing else. -/
theorem undone_of_closed {s : Streams} (ho : s.Open) (h : s.Idle) (fs : List Nat) (n : Nat)
    (hfs : ∀ f, fs.count f = if s.next ≤ f ∧ f < n then 1 else 0) :
    Undone s { s with next := n, closed := fs ++ s.closed } := by
  refine ⟨rfl, rfl, rfl, rfl, rfl, fun f hf => ?_, fun f h1 h2 => ?_, ?_⟩
  · have hlt := ho.old f hf
    rw [List.count_append, hfs, if_neg (by omega), Nat.zero_add]
  · have hnew : s.closed.count f = 0 := by
      rw [List.count_eq_zero]
      intro hmem
      have := ho.next f hmem
      omega
    rw [List.count_append, hfs, if_pos ⟨h1, h2⟩, hnew]
  · exact cexpUnredir_of_idle ⟨h.o_stdin, h.o_stdout, h.o_stderr, h.o_outf, h.o_errf⟩

/-- Undoing the output redirection closes the output file and goes on with the rest. -/
theorem cexpUnredir_installOutput {s : Streams} (hout : s.stdout ≠ 0) (herr : s.stderr ≠ 0)
    (h₁ : s.o_stdout = 0) (h₂ : s.o_stderr = 0) (h₃ : s.o_outf = 0) (h₄ : s.o_errf = 0)
    (op : Option RedirOp) (nof : Nat) :
    cexpUnredir (installOutput op nof s) = cexpUnredir (fclose nof s) := by
  obtain ⟨stdin, stdout, stderr, outf, errf, _, _, _, _, _, next, closed⟩ := s
  simp only at hout herr h₁ h₂ h₃ h₄
  subst h₁ h₂ h₃ h₄
  by_cases hf : outf = 0 <;> by_cases he : errf = 0 <;> cases hb : RedirOp.both op <;>
    simp [installOutput, cexpUnredir, fclose, *]

theorem cexpUnredir_installInput {s : Streams} (hin : s.stdin ≠ 0) (h : s.Idle) (nif : Nat) :
    cexpUnredir (installInput nif s) = fclose nif s := by
  simp [installInput, cexpUnredir, fclose, hin, h.o_stdin, h.o_stdout, h.o_stderr, h.o_outf,
    h.o_errf]

/-- Redirecting the output only. -/
theorem undone_output {s : Streams} (ho : s.Open) (h : s.Idle) (disk : Disk)
    (op : Option RedirOp) (path : String) :
    Undone s (cexpUnredir (cexpRedir disk op (some path) none s).2) := by
  have hnext : s.next ≠ 0 := by
    have := ho.old s.stdin (by simp)
    omega
  cases hopen : disk path (RedirOp.mode op) with
  | false =>
    have hres : cexpRedir disk op (some path) none s = (-1, s) := by
      simp [cexpRedir, cexpRedirOutput, fopen, hopen, h.o_stdout, h.o_stderr]
    rw [hres, cexpUnredir_of_idle h]
    exact undone_self h
  | true =>
    have hres : cexpRedir disk op (some path) none s =
        (0, installOutput op s.next { s with next := s.next + 1 }) := by
      simp [cexpRedir, cexpRedirOutput, fopen, hopen, h.o_stdout, h.o_stderr]
    have hidle : (fclose s.next { s with next := s.next + 1 }).Idle :=
      ⟨h.o_stdin, h.o_stdout, h.o_stderr, h.o_outf, h.o_errf⟩
    rw [hres, cexpUnredir_installOutput (by exact ho.stdout) (by exact ho.stderr) (by exact h.o_stdout)
      (by exact h.o_stderr) (by exact h.o_outf) (by exact h.o_errf), cexpUnredir_of_idle hidle]
    refine undone_of_closed ho h [s.next] (s.next + 1) fun f => ?_
    rw [List.count_singleton]
    simp only [beq_iff_eq]
    split <;> split <;> omega

/-- Redirecting the input only. -/
theorem undone_input {s : Streams} (ho : s.Open) (h : s.Idle) (disk : Disk)
    (op : Option RedirOp) (path : String) :
    Undone s (cexpUnredir (cexpRedir disk op none (some path) s).2) := by
  have hnext : s.next ≠ 0 := by
    have := ho.old s.stdin (by simp)
    omega
  cases hopen : disk path .r with
  | false =>
    have hres : cexpRedir disk op none (some path) s = (-1, s) := by
      simp [cexpRedir, fopen, hopen, h.o_stdin]
    rw [hres, cexpUnredir_of_idle h]
    exact undone_self h
  | true =>
    have hres : cexpRedir disk op none (some path) s =
        (0, installInput s.next { s with next := s.next + 1 }) := by
      simp [cexpRedir, cexpRedirOutput, fopen, hopen, h.o_stdin]
    have hidle : ({ s with next := s.next + 1 } : Streams).Idle :=
      ⟨h.o_stdin, h.o_stdout, h.o_stderr, h.o_outf, h.o_errf⟩
    rw [hres, cexpUnredir_installInput (by exact ho.stdin) hidle]
    refine undone_of_closed ho h [s.next] (s.next + 1) fun f => ?_
    rw [List.count_singleton]
    simp only [beq_iff_eq]
    split <;> split <;> omega

/-- With both, all depends on whether the input opens and the output does not. -/
theorem undone_both_iff {s : Streams} (ho : s.Open) (h : s.Idle) (disk : Disk)
    (op : Option RedirOp) (opath ipath : String) :
    Undone s (cexpUnredir (cexpRedir disk op (some opath) (some ipath) s).2) ↔
      ¬ (disk ipath .r = true ∧ disk opath (RedirOp.mode op) = false) := by
  have hnext : s.next ≠ 0 := by
    have := ho.old s.stdin (by simp)
    omega
  cases hin : disk ipath .r with
  | false =>
    have hres : cexpRedir disk op (some opath) (some ipath) s = (-1, s) := by
      simp [cexpRedir, fopen, hin, h.o_stdin, h.o_stdout, h.o_stderr]
    rw [hres, cexpUnredir_of_idle h]
    simpa using undone_self h
  | true =>
    cases hout : disk opath (RedirOp.mode op) with
    | false =>
      -- the mark in `o_stdin` is still set when `stdin` is the original stream again
      have hres : cexpUnredir (cexpRedir disk op (some opath) (some ipath) s).2 =
          { s with next := s.next + 1, closed := s.stdin :: s.next :: s.closed } := by
        simp [cexpRedir, cexpRedirOutput, cexpUnredir, fopen, fclose, installInput, hin, hout,
          h.o_stdin, h.o_stdout, h.o_stderr, h.o_outf, h.o_errf, hnext, ho.stdin]
      rw [hres]
      refine iff_of_false (fun hu => ?_) (by simp)
      have hkept := hu.kept s.stdin (by simp)
      simp only [List.count_cons_self] at hkept
      have hle : s.closed.count s.stdin ≤ (s.next :: s.closed).count s.stdin :=
        List.count_le_count_cons
      omega
    | true =>
      have hres : cexpRedir disk op (some opath) (some ipath) s = (0, installOutput op (s.next + 1)
          (installInput s.next { s with next := s.next + 2 })) := by
        simp [cexpRedir, cexpRedirOutput, fopen, installInput, hin, hout, h.o_stdin, h.o_stdout,
          h.o_stderr]
      have hidle : (fclose (s.next + 1) { s with next := s.next + 2 }).Idle :=
        ⟨h.o_stdin, h.o_stdout, h.o_stderr, h.o_outf, h.o_errf⟩
      have hundo : cexpUnredir (installOutput op (s.next + 1)
          (installInput s.next { s with next := s.next + 2 })) =
          { s with next := s.next + 2, closed := [s.next, s.next + 1] ++ s.closed } := by
        rw [cexpUnredir_installOutput (by exact ho.stdout) (by exact ho.stderr)
          (by exact h.o_stdout) (by exact h.o_stderr) (by exact h.o_outf) (by exact h.o_errf)]
        exact cexpUnredir_installInput (by exact ho.stdin) hidle s.next
      rw [hres, hundo]
      refine iff_of_true (undone_of_closed ho h [s.next, s.next + 1] (s.next + 2) fun f => ?_)
        (by simp)
      rw [List.count_cons, List.count_singleton]
      simp only [beq_iff_eq]
      split <;> split <;> split <;> omega

/-- The input file opens and the output file does not. -/
def HalfOpened (disk : Disk) (redir : Redir) : Prop :=
  ∃ op opath ipath, redir.args = some (op, some opath, some ipath) ∧ disk ipath .r = true ∧
    disk opath (RedirOp.mode op) = false

/-- Only the call of `cexpRedir` matters for the streams. -/
theorem cexpparse_streams (disk : Disk) (redir : Redir) (rest : Int) (s : Streams) :
    (cexpparse disk redir rest s).2 = cexpUnredir (match redir.args with
      | none => s
      | some (op, opath, ipath) => (cexpRedir disk op opath ipath s).2) := by
  unfold cexpparse yyparse
  cases redir with
  | nothing => rfl
  | output | input | inputOutput | outputInput =>
    dsimp only
    split
    · rfl
    · split <;> rfl

/-- Redirection is undone on every line, except when `HalfOpened`. -/
theorem cexpparse_undone_iff (disk : Disk) (redir : Redir) (rest : Int) (s : Streams)
    (ho : s.Open) (h : s.Idle) :
    Undone s (cexpparse disk redir rest s).2 ↔ ¬ HalfOpened disk redir := by
  rw [cexpparse_streams]
  unfold HalfOpened
  rcases hargs : redir.args with _ | ⟨op, _ | opath, _ | ipath⟩
  · simp only
    rw [cexpUnredir_of_idle h]
    simpa using undone_self h
  · have hres : cexpRedir disk op none none s = (-1, s) := by simp [cexpRedir]
    simp only [hres]
    rw [cexpUnredir_of_idle h]
    simpa using undone_self h
  · simpa using undone_input ho h disk op ipath
  · simpa using undone_output ho h disk op opath
  · have hboth := undone_both_iff ho h disk op opath ipath
    simpa using hboth

/-- Three open streams, nothing redirected. -/
def freshStreams : Streams := ⟨1, 2, 3, 2, 3, 0, 0, 0, 0, 0, 4, []⟩

theorem freshStreams_open : freshStreams.Open :=
  ⟨by decide, by decide, by decide, by decide, by decide⟩

/-- `> "out" : ...` -/
theorem cexpparse_undone_iff_output :
    Undone freshStreams
      (cexpparse (fun _ _ => true) (.output .REDIRBOTH (.strConst "out")) 0 freshStreams).2 ↔
        ¬ HalfOpened (fun _ _ => true) (.output .REDIRBOTH (.strConst "out")) :=
  cexpparse_undone_iff _ _ 0 freshStreams freshStreams_open ⟨rfl, rfl, rfl, rfl, rfl⟩

/-- `< "in" : > "out" : ...` with an output file that cannot be opened closes `stdin`. -/
theorem halfOpened_closes_stdin :
    ¬ ∀ (disk : Disk) (redir : Redir) (rest : Int) (s : Streams), s.Open → s.Idle →
      Undone s (cexpparse disk redir rest s).2 := by
  intro hall
  have hu := hall (fun _ mode => mode = .r) (.inputOutput (.strConst "in") .REDIR (.strConst "out"))
    0 freshStreams freshStreams_open ⟨rfl, rfl, rfl, rfl, rfl⟩
  have hkept := hu.kept 1 (by decide)
  revert hkept
  decide

end Cexp
