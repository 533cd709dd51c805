import Mathlib.Data.List.Induction
import Mathlib.Logic.Function.Basic
import Cexp.Grammar.Operations

/-!
# The parser that `ans` belongs to

A parser stores the result of a line in its own record (`ctx->rval`), but the lexer finds `ans` in
the parser of the innermost shell: `cexpVarLookup` asks `cexpContextGetCurrent`, whose chain holds
the shells of a task and not the parsers that a program creates itself. A `Session` runs parsers on
any number of tasks; a function that is called from a line may start shells, create parsers and
evaluate lines with any of them.

* `run_chained`: the chain of a task is the list of the shells on its call stack.
* `run_lastResult`: the record of a parser holds its last result.
* `ans_own_iff`: at every lookup of a run `ans` is the parser's own last result iff at every lookup
  no module has a symbol of that name and the innermost shell of the task runs this very parser.
-/

namespace Cexp

open CexpType EStateM

/-! ## The result of a line -/

/-- The result that a parser keeps after a line, if the line succeeds. -/
def keepResult (r v : CexpTypedVal) : CexpTypedVal := if v.type = TVoid then r else v

/-- The result that a parser keeps: a line that fails or defines nothing leaves it. -/
def resultAfter (r : CexpTypedVal) : Option CexpTypedVal → CexpTypedVal
  | none => r
  | some v => keepResult r v

/-- The value of a line that succeeded. -/
def lineValue : EStateM.Result Stop St CexpTypedVal → Option CexpTypedVal
  | .ok v _ => some v
  | .error _ _ => none

def finalState {α : Type} : EStateM.Result Stop St α → St
  | .ok _ s | .error _ s => s

/-- The computation leaves the last result as it is. -/
def KeepsRval {α : Type} (x : Ev α) : Prop := ∀ s, (finalState (x s)).rval = s.rval

section

variable {α β : Type}

theorem keepsRval_iff {x : Ev α} : KeepsRval x ↔
    ∀ s, Ends x s (fun _ s' => s'.rval = s.rval) fun _ s' => s'.rval = s.rval := by
  refine forall_congr' fun s => ?_
  rw [Ends]
  cases x s <;> rfl

theorem KeepsRval.bind {x : Ev α} {f : α → Ev β} (hx : KeepsRval x) (hf : ∀ a, KeepsRval (f a)) :
    KeepsRval (x >>= f) := by
  rw [keepsRval_iff] at hx ⊢
  intro s
  refine (hx s).bind fun a s' hs' => ?_
  rw [← hs']
  exact keepsRval_iff.mp (hf a) s'

theorem keepsRval_pure (a : α) : KeepsRval (pure a : Ev α) := fun _ => rfl

theorem keepsRval_throw (e : Stop) : KeepsRval (throw e : Ev α) := fun _ => rfl

theorem keepsRval_CHECK (r : Except Stop α) : KeepsRval (CHECK r) := by
  intro s
  cases r <;> rfl

theorem keepsRval_onWorld (x : EStateM Stop World α) : KeepsRval (onWorld x) := by
  intro s
  rw [onWorld]
  cases x s.world <;> rfl

theorem keepsRval_EVAL (k : ActionKind) (dflt : α) (stuff : EStateM Stop World α) :
    KeepsRval (EVAL k dflt stuff) := by
  intro s
  rw [EVAL]
  by_cases h : s.evalInhibit = 0
  · simp only [h, decide_true, if_true]
    exact keepsRval_onWorld stuff _
  · simp only [h, decide_false, if_false, Bool.false_eq_true]
    rfl

theorem keepsRval_eval (E : Env) {c : Cat} (n : Node c) : KeepsRval (eval E n) := by
  intro s
  have htrace := eval_traces E n s
  cases h : eval E n s with
  | ok v s' => exact congrArg Prod.fst (Traces.ok htrace h).2
  | error e s' => exact congrArg Prod.fst (Traces.error htrace h).2

end

theorem keepsRval_evalLine (E : Env) (line : Line) : KeepsRval (evalLine E line) := by
  cases line with
  | empty => exact keepsRval_pure _
  | ident name => exact keepsRval_throw _
  | newdef t name => exact (keepsRval_CHECK _).bind fun t => keepsRval_EVAL _ _ _
  | redef t x bang =>
    refine (keepsRval_CHECK _).bind fun t => (keepsRval_EVAL _ _ _).bind fun _ => ?_
    refine KeepsRval.bind (fun s => rfl) fun a => (keepsRval_onWorld _).bind fun v => ?_
    cases bang with
    | true => exact keepsRval_pure v
    | false => exact keepsRval_throw _
  | commaexp e =>
    exact (keepsRval_eval E e).bind fun v => (keepsRval_CHECK _).bind fun _ => keepsRval_pure v

/-- What `cexpparse` does to the result of its parser. -/
theorem parseLine_result (E : Env) (line : Line) (s : St) :
    (finalState (parseLine E line s)).rval =
      resultAfter s.rval (lineValue (parseLine E line s)) := by
  have hline := keepsRval_evalLine E line s
  cases h : evalLine E line s with
  | error e s₁ =>
    rw [h] at hline
    rw [parseLine, bind_error h]
    exact hline
  | ok v s₁ =>
    rw [h] at hline
    rw [parseLine, bind_ok h]
    change (if v.type = TVoid then s₁.rval else v) = keepResult s.rval v
    rw [keepResult, show s₁.rval = s.rval from hline]

/-! ## Sessions -/

abbrev ParserId := Nat
abbrev TaskId := Nat

/-- A running `cexp_main1` with the parser of its context, or a `cexpparse` with its parser. -/
inductive Frame where
  | shell (p : ParserId)
  | line (p : ParserId)
  deriving DecidableEq, Repr

/-- The parser of a shell. -/
def Frame.shellParser : Frame → Option ParserId
  | shell p => some p
  | line _ => none

/-- A task: the running shells and lines on its stack, and the chain that `cexpCurrentContext`
heads, each context by its `parser`. The innermost comes first in both. -/
structure Task where
  calls : List Frame
  current : List ParserId

/-- The last results of the parsers that exist, the tasks, and whether some module exports a symbol
`ans`. After a null pointer was followed nothing goes on. -/
structure Session where
  rval : ParserId → Option CexpTypedVal
  task : TaskId → Task
  moduleAns : Bool
  crashed : Bool

def Session.init : Session := ⟨fun _ => none, fun _ => ⟨[], []⟩, false, false⟩

/-- What the name `ans` is found to be. -/
inductive AnsRef where
  | fault
  | symbol
  | result (p : ParserId)
  deriving DecidableEq, Repr

/-- `yylex` looks for a symbol of a module first; `cexpVarLookup` returns the result of the parser
of the current context, which may be null. -/
def Session.lookupAns (s : Session) (t : TaskId) : AnsRef :=
  if s.moduleAns then .symbol
  else match (s.task t).current with
    | [] => .fault
    | p :: _ => .result p

/-- `ctx->rval` of `cexpCreateParserCtx` -/
def initialResult (dm : DataModel) : CexpTypedVal := ⟨0, TULong dm⟩

inductive Act where
  /-- `cexpCreateParserCtx` -/
  | create (p : ParserId)
  /-- `cexpFreeParserCtx` -/
  | free (p : ParserId)
  /-- a shell starts on a task and creates its parser -/
  | enter (t : TaskId) (p : ParserId)
  /-- the innermost shell of a task is back at the top of its loop, maybe by a `longjmp`, and
  creates a new parser -/
  | restart (t : TaskId) (p : ParserId)
  /-- the innermost shell of a task ends -/
  | leave (t : TaskId)
  /-- `cexpparse` is called on a task -/
  | parse (t : TaskId) (p : ParserId)
  /-- the line that a task evaluates contains the name `ans` -/
  | lookup (t : TaskId) (p : ParserId)
  /-- the line that a task evaluates ends, with a value if it succeeds -/
  | finish (t : TaskId) (p : ParserId) (v : Option CexpTypedVal)
  /-- a module is loaded or unloaded -/
  | modules (moduleAns : Bool)
  deriving DecidableEq, Repr

def Session.setTask (s : Session) (t : TaskId) (k : Task) : Session :=
  { s with task := fun u => if u = t then k else s.task u }

def Session.setRval (s : Session) (p : ParserId) (r : Option CexpTypedVal) : Session :=
  { s with rval := fun q => if q = p then r else s.rval q }

/-- The calls from the innermost shell on: the lines inside it are done or are given up. -/
def Task.unwound (k : Task) : List Frame := k.calls.dropWhile fun f => f.shellParser.isNone

variable (dm : DataModel)

def Session.act (s : Session) : Act → Option Session
  | .create p => if (s.rval p).isNone then some (s.setRval p (some (initialResult dm))) else none
  | .free p => if (s.rval p).isSome then some (s.setRval p none) else none
  | .enter t p =>
    if (s.rval p).isNone then
      some ((s.setRval p (some (initialResult dm))).setTask t
        ⟨.shell p :: (s.task t).calls, p :: (s.task t).current⟩)
    else none
  | .restart t p =>
    match (s.task t).unwound with
    | .shell q :: calls =>
      if ((s.setRval q none).rval p).isNone then
        some (((s.setRval q none).setRval p (some (initialResult dm))).setTask t
          ⟨.shell p :: calls, p :: (s.task t).current.tail⟩)
      else none
    | _ => none
  | .leave t =>
    match (s.task t).unwound with
    | .shell q :: calls =>
      some ((s.setRval q none).setTask t ⟨calls, (s.task t).current.tail⟩)
    | _ => none
  | .parse t p =>
    if (s.rval p).isSome then
      some (s.setTask t ⟨.line p :: (s.task t).calls, (s.task t).current⟩)
    else none
  | .lookup t p =>
    if (s.task t).calls.head? = some (.line p) ∧ (s.rval p).isSome then
      some { s with crashed := decide (s.lookupAns t = .fault) }
    else none
  | .finish t p v =>
    if (s.task t).calls.head? = some (.line p) then
      (s.rval p).map fun r => (s.setRval p (some (resultAfter r v))).setTask t
        ⟨(s.task t).calls.tail, (s.task t).current⟩
    else none
  | .modules b => some { s with moduleAns := b }

def Session.step (s : Session) (a : Act) : Option Session :=
  if s.crashed then none else s.act dm a

/-- The session after a sequence of acts, if it is possible. -/
def Session.run (acts : List Act) : Option Session := acts.foldlM (Session.step dm) Session.init

/-! ## The chain of contexts -/

section

variable {dm : DataModel} {s s' : Session} {acts : List Act} {a : Act}

theorem Session.run_snoc (acts : List Act) (a : Act) :
    Session.run dm (acts ++ [a]) = (Session.run dm acts).bind fun s => s.step dm a := by
  simp only [Session.run, List.foldlM_append, List.foldlM_cons, List.foldlM_nil, bind_pure]
  rfl

theorem Session.step_act (h : s.step dm a = some s') : s.act dm a = some s' := by
  rw [Session.step] at h
  split at h
  · cases h
  · exact h

/-- The chain of a task holds the shells on its stack. -/
def Session.Chained (s : Session) : Prop :=
  ∀ t, (s.task t).current = (s.task t).calls.filterMap Frame.shellParser

/-- Giving up lines takes no shell off the stack. -/
theorem Task.filterMap_unwound (k : Task) :
    k.unwound.filterMap Frame.shellParser = k.calls.filterMap Frame.shellParser := by
  rw [Task.unwound]
  induction k.calls with
  | nil => rfl
  | cons f calls ih =>
    cases f with
    | shell p => rfl
    | line p => exact ih

theorem Session.Chained.setRval (h : s.Chained) (p : ParserId) (r : Option CexpTypedVal) :
    (s.setRval p r).Chained := h

theorem Session.Chained.setTask (h : s.Chained) (t : TaskId) {k : Task}
    (hk : k.current = k.calls.filterMap Frame.shellParser) : (s.setTask t k).Chained := by
  intro u
  simp only [Session.setTask]
  by_cases hu : u = t
  · rw [if_pos hu, hk]
  · rw [if_neg hu]
    exact h u

/-- One act keeps the chain: shells are pushed on both and taken off both, lines on the stack
only. -/
theorem Session.Chained.act (hs : s.Chained) (h : s.act dm a = some s') : s'.Chained := by
  cases a with
  | create p =>
    rw [Session.act] at h
    split at h <;> cases h
    exact hs.setRval p _
  | free p =>
    rw [Session.act] at h
    split at h <;> cases h
    exact hs.setRval p _
  | enter t p =>
    rw [Session.act] at h
    split at h <;> cases h
    apply (hs.setRval p _).setTask t
    rw [hs t]
    rfl
  | restart t p =>
    have hsame := Task.filterMap_unwound (s.task t)
    rw [Session.act] at h
    split at h
    · rename_i q calls hcalls
      split at h <;> cases h
      rw [hcalls] at hsame
      apply ((hs.setRval q none).setRval p _).setTask t
      rw [hs t, ← hsame]
      rfl
    · cases h
  | leave t =>
    have hsame := Task.filterMap_unwound (s.task t)
    rw [Session.act] at h
    split at h
    · rename_i q calls hcalls
      cases h
      rw [hcalls] at hsame
      apply (hs.setRval q none).setTask t
      rw [hs t, ← hsame]
      rfl
    · cases h
  | parse t p =>
    rw [Session.act] at h
    split at h <;> cases h
    exact hs.setTask t (hs t)
  | lookup t p =>
    rw [Session.act] at h
    split at h <;> cases h
    exact hs
  | finish t p v =>
    rw [Session.act] at h
    split at h
    · rename_i hhead
      obtain ⟨r, -, rfl⟩ := Option.map_eq_some_iff.mp h
      apply (hs.setRval p _).setTask t
      obtain ⟨rest, hcalls⟩ := List.head?_eq_some_iff.mp hhead
      rw [hs t, hcalls]
      rfl
    · cases h
  | modules b =>
    cases h
    exact hs

theorem run_chained (h : Session.run dm acts = some s) : s.Chained := by
  induction acts using List.reverseRecOn generalizing s with
  | nil =>
    cases h
    exact fun t => rfl
  | append_singleton acts a ih =>
    rw [Session.run_snoc] at h
    obtain ⟨s₁, hs₁, hstep⟩ := Option.bind_eq_some_iff.mp h
    exact (ih hs₁).act (Session.step_act hstep)

/-! ## The last result of a parser -/

/-- What an act means for the last result of `p`, which is `r` before. -/
def Act.lastResult (dm : DataModel) (p : ParserId) (r : CexpTypedVal) : Act → CexpTypedVal
  | .create q | .enter _ q | .restart _ q => if q = p then initialResult dm else r
  | .finish _ q (some v) => if q = p ∧ v.type ≠ TVoid then v else r
  | .finish _ _ none => r
  | .free _ | .leave _ | .parse _ _ | .lookup _ _ | .modules _ => r

/-- The value and type of the last expression that `p` evaluated successfully; `0` before. -/
def lastResult (dm : DataModel) (acts : List Act) (p : ParserId) : CexpTypedVal :=
  acts.foldl (Act.lastResult dm p) (initialResult dm)

/-- A line counts if it succeeds with a value, that is, not with type `void`. -/
theorem lastResult_finish (t : TaskId) (p q : ParserId) (r : CexpTypedVal)
    (v : Option CexpTypedVal) :
    (Act.finish t q v).lastResult dm p r = if q = p then resultAfter r v else r := by
  cases v with
  | none => exact (ite_self r).symm
  | some v =>
    rw [Act.lastResult, resultAfter, keepResult]
    by_cases hq : q = p <;> by_cases hv : v.type = TVoid <;> simp [hq, hv]

theorem lastResult_snoc (acts : List Act) (a : Act) (p : ParserId) :
    lastResult dm (acts ++ [a]) p = a.lastResult dm p (lastResult dm acts p) := by
  simp [lastResult]

theorem Session.rval_setRval_some {p q : ParserId} {r v : CexpTypedVal}
    (h : (s.setRval q (some v)).rval p = some r) : q = p ∧ r = v ∨ q ≠ p ∧ s.rval p = some r := by
  simp only [Session.setRval] at h
  by_cases hpq : p = q
  · rw [if_pos hpq] at h
    exact .inl ⟨hpq.symm, (Option.some.inj h).symm⟩
  · rw [if_neg hpq] at h
    exact .inr ⟨Ne.symm hpq, h⟩

theorem Session.rval_setRval_none {p q : ParserId} {r : CexpTypedVal}
    (h : (s.setRval q none).rval p = some r) : s.rval p = some r := by
  simp only [Session.setRval] at h
  split at h
  · cases h
  · exact h

/-- The record of a parser after an act is what the act means for its last result. -/
theorem Session.act_rval {p : ParserId} {r : CexpTypedVal} (h : s.act dm a = some s')
    (hr : s'.rval p = some r) :
    (∃ q, s.rval p = some q ∧ r = a.lastResult dm p q) ∨
      (∀ q, a.lastResult dm p q = initialResult dm) ∧ r = initialResult dm := by
  cases a with
  | create q =>
    rw [Session.act] at h
    split at h <;> cases h
    rcases Session.rval_setRval_some hr with ⟨rfl, hinit⟩ | ⟨hne, hsame⟩
    · exact .inr ⟨fun _ => if_pos rfl, hinit⟩
    · exact .inl ⟨r, hsame, (if_neg hne).symm⟩
  | free q =>
    rw [Session.act] at h
    split at h <;> cases h
    exact .inl ⟨r, Session.rval_setRval_none hr, rfl⟩
  | enter t q =>
    rw [Session.act] at h
    split at h <;> cases h
    rcases Session.rval_setRval_some hr with ⟨rfl, hinit⟩ | ⟨hne, hsame⟩
    · exact .inr ⟨fun _ => if_pos rfl, hinit⟩
    · exact .inl ⟨r, hsame, (if_neg hne).symm⟩
  | restart t q =>
    rw [Session.act] at h
    split at h
    · split at h <;> cases h
      rcases Session.rval_setRval_some hr with ⟨rfl, hinit⟩ | ⟨hne, hsame⟩
      · exact .inr ⟨fun _ => if_pos rfl, hinit⟩
      · exact .inl ⟨r, Session.rval_setRval_none hsame, (if_neg hne).symm⟩
    · cases h
  | leave t =>
    rw [Session.act] at h
    split at h
    · cases h
      exact .inl ⟨r, Session.rval_setRval_none hr, rfl⟩
    · cases h
  | parse t q =>
    rw [Session.act] at h
    split at h <;> cases h
    exact .inl ⟨r, hr, rfl⟩
  | lookup t q =>
    rw [Session.act] at h
    split at h <;> cases h
    exact .inl ⟨r, hr, rfl⟩
  | finish t q v =>
    rw [Session.act] at h
    split at h
    · obtain ⟨r₀, hr₀, rfl⟩ := Option.map_eq_some_iff.mp h
      rcases Session.rval_setRval_some hr with ⟨rfl, hresult⟩ | ⟨hne, hsame⟩
      · exact .inl ⟨r₀, hr₀, hresult.trans ((lastResult_finish t q q r₀ v).trans (if_pos rfl)).symm⟩
      · exact .inl ⟨r, hsame, ((lastResult_finish t p q r v).trans (if_neg hne)).symm⟩
    · cases h
  | modules b =>
    cases h
    exact .inl ⟨r, hr, rfl⟩

/-- The record of a parser holds its last result. -/
theorem run_lastResult (h : Session.run dm acts = some s) {p : ParserId} {r : CexpTypedVal}
    (hr : s.rval p = some r) : r = lastResult dm acts p := by
  induction acts using List.reverseRecOn generalizing s r with
  | nil =>
    cases h
    cases hr
  | append_singleton acts a ih =>
    rw [Session.run_snoc] at h
    obtain ⟨s₁, hs₁, hstep⟩ := Option.bind_eq_some_iff.mp h
    rw [lastResult_snoc]
    rcases Session.act_rval (Session.step_act hstep) hr with ⟨q, hq, hrq⟩ | ⟨hinit, hr₀⟩
    · rw [hrq, ih hs₁ hq]
    · rw [hinit, hr₀]

/-! ## Lookups -/

/-- The parser of the shell that runs innermost on a task. -/
def Task.innermostShell (k : Task) : Option ParserId := k.calls.findSome? Frame.shellParser

/-- The value and type that `ans` denotes, if it is the result of a parser. -/
def Session.ans (s : Session) (t : TaskId) : Option CexpTypedVal :=
  match s.lookupAns t with
  | .result q => s.rval q
  | .symbol | .fault => none

/-- Whenever a line of `p` on task `t` contains the name `ans`, `Q` holds of the acts before and of
the session then. -/
def AtLookups (dm : DataModel) (Q : List Act → Session → TaskId → ParserId → Prop)
    (acts : List Act) : Prop :=
  ∀ before after t p s s', acts = before ++ .lookup t p :: after →
    Session.run dm before = some s → s.step dm (.lookup t p) = some s' → Q before s t p

/-- `ans` is the variable of this parser, and that is its last result. -/
def OwnResult (dm : DataModel) (before : List Act) (s : Session) (t : TaskId) (p : ParserId) :
    Prop :=
  s.lookupAns t = .result p ∧ s.ans t = some (lastResult dm before p)

/-- No module hides the name, and the innermost shell of the task runs this parser. -/
def OwnShell (s : Session) (t : TaskId) (p : ParserId) : Prop :=
  s.moduleAns = false ∧ (s.task t).innermostShell = some p

theorem Session.lookupAns_iff (hs : s.Chained) (t : TaskId) (p : ParserId) :
    s.lookupAns t = .result p ↔ OwnShell s t p := by
  have hhead : (s.task t).innermostShell = (s.task t).current.head? := by
    rw [hs t, List.head?_filterMap]
    rfl
  rw [OwnShell, hhead, Session.lookupAns]
  cases s.moduleAns with
  | true => simp
  | false =>
    cases (s.task t).current with
    | nil => simp
    | cons q rest => simp

-- a program that uses a parser without a shell: the current context is a null pointer
example : (Session.run .lp64 [.create 0, .parse 0 0]).map (fun s => s.lookupAns 0) = some .fault :=
  rfl

/-- A name is looked up in a line of a parser that exists. -/
theorem Session.step_lookup {t : TaskId} {p : ParserId} (h : s.step dm (.lookup t p) = some s') :
    ∃ r, s.rval p = some r := by
  have hact := Session.step_act h
  rw [Session.act] at hact
  split at hact
  · rename_i hline
    exact Option.isSome_iff_exists.mp hline.2
  · cases hact

theorem ownResult_iff (hrun : Session.run dm acts = some s) {t : TaskId} {p : ParserId}
    (hstep : s.step dm (.lookup t p) = some s') : OwnResult dm acts s t p ↔ OwnShell s t p := by
  have hiff := Session.lookupAns_iff (run_chained hrun) t p
  constructor
  · intro h
    exact hiff.mp h.1
  · intro h
    have hresult := hiff.mpr h
    obtain ⟨r, hr⟩ := Session.step_lookup hstep
    refine ⟨hresult, ?_⟩
    rw [Session.ans, hresult, ← run_lastResult hrun hr]
    exact hr

end

/-- In every sequence of acts, `ans` is at every lookup the own last result of the parser that
evaluates the line, iff at every lookup no module hides the name and the innermost shell of the
task runs this parser. -/
theorem ans_own_iff (dm : DataModel) (acts : List Act) :
    AtLookups dm (OwnResult dm) acts ↔ AtLookups dm (fun _ => OwnShell) acts := by
  constructor
  · intro h before after t p s s' hacts hrun hstep
    exact (ownResult_iff hrun hstep).mp (h before after t p s s' hacts hrun hstep)
  · intro h before after t p s s' hacts hrun hstep
    exact (ownResult_iff hrun hstep).mpr (h before after t p s s' hacts hrun hstep)

/-- A function called from the line of a shell evaluates `7` and then `ans` with a parser that it
created. -/
def nestedParser (dm : DataModel) : List Act :=
  [.enter 0 0, .parse 0 0, .create 1, .parse 0 1, .finish 0 1 (some ⟨7, TULong dm⟩), .parse 0 1]

/-- `ans` is the result of the shell, which has none yet. -/
theorem ans_of_the_shell :
    ¬ ∀ dm acts,
      AtLookups dm (fun before s t p => s.ans t = some (lastResult dm before p)) acts := by
  intro hall
  have hseven : some ⟨0, TULong .lp64⟩ = some (⟨7, TULong .lp64⟩ : CexpTypedVal) :=
    hall .lp64 (nestedParser .lp64 ++ [.lookup 0 1]) (nestedParser .lp64) [] 0 1 _ _ rfl rfl rfl
  exact absurd hseven (by decide)

end Cexp
