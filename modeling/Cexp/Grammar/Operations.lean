import Cexp.Grammar.Compound
import Cexp.Grammar.Stores
import Cexp.Lib.Trace

/-!
# The operations of an expression

An expression changes the world only through the operations that its `EVAL`s execute.
`operations` lists the ones that the evaluation of a tree begins, with the addresses and values
they work on, and `eval_traces` says that a run is just these: if it succeeds, all of them
succeeded, and if it stops, it stopped between two of them or in the last one.

Assignments, op-assignments and increments store one member of the union at their target, or stop
and change nothing (`Op.Assigns.run_error`). Any other operation that reports an error changes
nothing either (`Op.run_message`).
-/

namespace Cexp

open CexpType CexpBinOp EStateM

/-! ## Operations -/

/-- An executed `EVAL` of an expression: what it works on. -/
inductive Op where
  | post (a : CexpTypedAddr) (op : CexpBinOp)
  | pre (a : CexpTypedAddr) (op : CexpBinOp)
  | assign (a : CexpTypedAddr) (v : CexpTypedVal)
  | modop (a : CexpTypedAddr) (op : CexpBinOp) (x : CexpTypedVal)
  | create (name : String) (v : CexpTypedVal)
  | call (fn : CexpTypedVal) (args : List CexpTypedVal)
  | member (x : SymId) (mname : String) (args : List CexpTypedVal)

/-- What an action does to the world. -/
def effect {α : Type} (x : EStateM Stop World α) : EStateM Stop World Unit := fun w =>
  match x w with
  | .ok _ w' => .ok () w'
  | .error e w' => .error e w'

def Op.run (E : Env) : Op → EStateM Stop World Unit
  | post a op => effect (postfixAction E.machine a op)
  | pre a op => effect (prefixAction E.machine a op)
  | assign a v => effect (assignAction E.machine a v)
  | modop a op x => effect (modopAction E.machine a op x)
  | create name v => effect (createAction E name v)
  | call fn args => effect (callAction E fn args)
  | member x mname args => effect (memberAction E x mname args)

/-- The operation that an `EVAL` begins: none if it is inhibited. -/
def begun (op : Op) (s : St) : List Op := if s.evalInhibit = 0 then [op] else []

/-- The operations that the evaluation of a tree begins. -/
def operations (E : Env) : {c : Cat} → Node c → St → List Op
  | _, .number _, _ | _, .func _, _ | _, .addr _, _ | _, .var _, _ | _, .nil, _ => []
  | _, .post l op, s => operations E l s ++ following (eval E l s) fun a => begun (.post a op)
  | _, .pre l op, s => operations E l s ++ following (eval E l s) fun a => begun (.pre a op)
  | _, .not e, s | _, .unop _ e, s | _, .deref e, s => operations E e s
  | _, .cast t e, s => following (CHECK (t.type E.machine.dm) s) fun _ => operations E e
  | _, .binop _ e₁ e₂, s | _, .comma e₁ e₂, s =>
    operations E e₁ s ++ following (eval E e₁ s) fun _ => operations E e₂
  | _, .logic k e₁ e₂, s =>
    operations E e₁ s ++ following (eval E e₁ s) fun v s₁ =>
      following (CHECK (cexpTVTrueQ E.machine v) s₁) fun left s₂ =>
        following (noteLeft left s₂) fun _ s₃ =>
          following (PSHEVAL E.machine.dm ⟨k, left⟩ s₃) fun _ => operations E e₂
  | _, .assign l e, s =>
    operations E l s ++ following (eval E l s) fun a s₁ =>
      operations E e s₁ ++ following (eval E e s₁) fun v => begun (.assign a v)
  | _, .modop l op e, s =>
    operations E l s ++ following (eval E l s) fun a s₁ =>
      operations E e s₁ ++ following (eval E e s₁) fun v => begun (.modop a op v)
  | _, .create name e, s =>
    operations E e s ++ following (eval E e s) fun v => begun (.create name v)
  | _, .call f as, s =>
    operations E f s ++ following (eval E f s) fun fn s₁ =>
      operations E as s₁ ++ following (eval E as s₁) fun args => begun (.call fn args)
  | _, .member x mname as, s =>
    operations E as s ++ following (eval E as s) fun args => begun (.member x mname args)
  | _, .cons e as, s => operations E e s ++ following (eval E e s) fun _ => operations E as

/-! ## A run is its operations -/

/-- From `s` the computation begins `ops` and does nothing else to the world, the result and the
status. -/
def Begins {α : Type} (E : Env) (x : Ev α) (s : St) (ops : List Op) : Prop :=
  Traces (Op.run E) St.world (fun s => (s.rval, s.status)) x s ops

section

variable {α : Type} {E : Env}

theorem begins_of_same {x : Ev α} {s : St}
    (h : ∀ r, x s = r → match r with
      | .ok _ s' | .error _ s' =>
        s'.world = s.world ∧ s'.rval = s.rval ∧ s'.status = s.status) :
    Begins E x s [] := by
  apply traces_of_same
  · intro a s' hx
    obtain ⟨hworld, hrval, hstatus⟩ := h _ hx
    exact ⟨hworld, by rw [hrval, hstatus]⟩
  · intro e s' hx
    obtain ⟨hworld, hrval, hstatus⟩ := h _ hx
    exact ⟨hworld, by rw [hrval, hstatus]⟩

theorem begins_CHECK (r : Except Stop α) (s : St) : Begins E (CHECK r) s [] := by
  apply begins_of_same
  rintro _ rfl
  cases r <;> exact ⟨rfl, rfl, rfl⟩

theorem begins_noteLeft (left : Bool) (s : St) : Begins E (noteLeft left) s [] := by
  apply begins_of_same
  rintro _ rfl
  exact ⟨rfl, rfl, rfl⟩

theorem begins_PSHEVAL (dm : DataModel) (g : Guard) (s : St) : Begins E (PSHEVAL dm g) s [] := by
  apply begins_of_same
  rintro _ rfl
  exact ⟨rfl, rfl, rfl⟩

theorem begins_POPEVAL (s : St) : Begins E POPEVAL s [] := by
  apply begins_of_same
  rintro _ rfl
  exact ⟨rfl, rfl, rfl⟩

/-- An `EVAL` begins its operation if it is not inhibited. -/
theorem begins_EVAL (k : ActionKind) (dflt : α) {stuff : EStateM Stop World α} {op : Op}
    (hop : op.run E = effect stuff) (s : St) : Begins E (EVAL k dflt stuff) s (begun op s) := by
  unfold Begins Traces EVAL begun
  by_cases hrun : s.evalInhibit = 0
  · have hworld := congrFun hop s.world
    simp only [hrun, decide_true, if_true, onWorld]
    cases hstuff : stuff s.world with
    | ok a w =>
      rw [effect, hstuff] at hworld
      exact ⟨.single hworld, rfl⟩
    | error e w =>
      rw [effect, hstuff] at hworld
      exact ⟨.failed (.nil _) hworld, rfl⟩
  · simp only [hrun, decide_false, if_false, Bool.false_eq_true]
    exact ⟨.nil _, trivial⟩

end

/-- The actions of a tree run when its operands are there, so the operations of an operand come
before those of its parent. -/
theorem eval_traces (E : Env) {c : Cat} (n : Node c) :
    ∀ s, Begins E (eval E n) s (operations E n s) := by
  induction n with
  | number v => exact fun s => traces_pure _ s
  | func f => exact fun s => begins_of_same fun _ h => h ▸ ⟨rfl, rfl, rfl⟩
  | addr x => exact fun s => begins_CHECK _ s
  | post l op ih => exact fun s => (ih s).bind fun a s₁ _ => begins_EVAL _ _ rfl s₁
  | pre l op ih => exact fun s => (ih s).bind fun a s₁ _ => begins_EVAL _ _ rfl s₁
  | not e ih => exact fun s => (ih s).bind_silent fun v s₁ _ => begins_CHECK _ s₁
  | unop op e ih => exact fun s => (ih s).bind_silent fun v s₁ _ => begins_CHECK _ s₁
  | cast t e ih =>
    intro s
    exact (begins_CHECK _ s).bind fun t s₁ _ => (ih s₁).bind_silent fun v s₂ _ => begins_CHECK _ s₂
  | binop op e₁ e₂ ih₁ ih₂ =>
    intro s
    exact (ih₁ s).bind fun v₁ s₁ _ => (ih₂ s₁).bind_silent fun v₂ s₂ _ => begins_CHECK _ s₂
  | logic k e₁ e₂ ih₁ ih₂ =>
    intro s
    refine (ih₁ s).bind fun v₁ s₁ _ => (begins_CHECK _ s₁).bind fun left s₂ _ =>
      (begins_noteLeft _ s₂).bind fun _ s₃ _ => (begins_PSHEVAL _ _ s₃).bind fun _ s₄ _ =>
        (ih₂ s₄).bind_silent fun v₂ s₅ _ => ?_
    exact (begins_CHECK _ s₅).bind_silent fun r s₆ _ =>
      (begins_POPEVAL s₆).bind_silent fun _ s₇ _ => traces_pure _ s₇
  | assign l e ih₁ ih₂ =>
    intro s
    exact (ih₁ s).bind fun a s₁ _ => (ih₂ s₁).bind fun v s₂ _ =>
      (begins_EVAL _ _ rfl s₂).bind_silent fun _ s₃ _ => traces_pure _ s₃
  | modop l op e ih₁ ih₂ =>
    intro s
    exact (ih₁ s).bind fun a s₁ _ => (ih₂ s₁).bind fun v s₂ _ => begins_EVAL _ _ rfl s₂
  | create name e ih =>
    intro s
    exact (ih s).bind fun v s₁ _ =>
      (begins_EVAL _ _ rfl s₁).bind_silent fun _ s₂ _ => traces_pure _ s₂
  | comma e₁ e₂ ih₁ ih₂ => exact fun s => (ih₁ s).bind fun _ s₁ _ => ih₂ s₁
  | call f as ih₁ ih₂ =>
    intro s
    exact (ih₁ s).bind fun fn s₁ _ => (ih₂ s₁).bind fun args s₂ _ => begins_EVAL _ _ rfl s₂
  | member x mname as ih =>
    exact fun s => (ih s).bind fun args s₁ _ => begins_EVAL _ _ rfl s₁
  | var x => exact fun s => begins_of_same fun _ h => h ▸ ⟨rfl, rfl, rfl⟩
  | deref e ih => exact fun s => (ih s).bind_silent fun v s₁ _ => begins_CHECK _ s₁
  | nil => exact fun s => traces_pure _ s
  | cons e as ih₁ ih₂ =>
    intro s
    exact (ih₁ s).bind fun v s₁ _ => (ih₂ s₁).bind_silent fun vs s₂ _ => traces_pure _ s₂

/-! ## Operations on an address -/

/-- The action changes nothing, whether it succeeds or stops. -/
def Silent {α : Type} (x : EStateM Stop World α) : Prop :=
  ∀ w, Ends x w (fun _ w' => w' = w) fun _ w' => w' = w

/-- A member of the union was stored at `a`. -/
def Writes (dm : DataModel) (a : CexpTypedAddr) (w w' : World) : Prop :=
  ∃ n u, clearedSize dm a.type = .ok n ∧ w' = { w with mem := w.mem.store a.ptv u n }

/-- The action writes to `a`, or it stops and changes nothing. -/
def AtomicAt {α : Type} (dm : DataModel) (a : CexpTypedAddr) (x : EStateM Stop World α) : Prop :=
  ∀ w, Ends x w (fun _ w' => Writes dm a w w') fun _ w' => w' = w

section

variable {α β : Type} {dm : DataModel} {a : CexpTypedAddr}

theorem silent_pure (v : α) : Silent (pure v : EStateM Stop World α) := fun _ => rfl

theorem silent_CHECK (r : Except Stop α) : Silent (CHECK r : EStateM Stop World α) := by
  intro w
  cases r <;> rfl

theorem silent_readAction (m : Machine) (a : CexpTypedAddr) : Silent (readAction m a) := by
  intro w
  unfold Ends readAction
  cases cexpTA2TV m w.mem a <;> rfl

theorem Silent.bind_atomicAt {x : EStateM Stop World α} {f : α → EStateM Stop World β}
    (hx : Silent x) (hf : ∀ v, AtomicAt dm a (f v)) : AtomicAt dm a (x >>= f) := by
  intro w
  refine (hx w).bind fun v w' hw => ?_
  rw [hw]
  exact hf v w

theorem Silent.bind {x : EStateM Stop World α} {f : α → EStateM Stop World β}
    (hx : Silent x) (hf : ∀ v, Silent (f v)) : Silent (x >>= f) := by
  intro w
  refine (hx w).bind fun v w' hw => ?_
  rw [hw]
  exact hf v w

theorem AtomicAt.bind_pure {x : EStateM Stop World α} (hx : AtomicAt dm a x) (r : β) :
    AtomicAt dm a (x >>= fun _ => pure r) :=
  fun w => (hx w).bind fun _ _ hw => hw

end

theorem assignAction_atomicAt (m : Machine) (a : CexpTypedAddr) (v : CexpTypedVal) :
    AtomicAt m.dm a (assignAction m a v) := by
  intro w
  unfold Ends assignAction
  cases h : cexpTVAssign m w.mem a v with
  | error e => rfl
  | ok mem =>
    obtain ⟨n, u, hn, rfl⟩ := cexpTVAssign_ok h
    exact ⟨n, u, hn, rfl⟩

theorem modopAction_atomicAt (m : Machine) (a : CexpTypedAddr) (op : CexpBinOp)
    (x : CexpTypedVal) : AtomicAt m.dm a (modopAction m a op x) :=
  (silent_readAction m a).bind_atomicAt fun v =>
    (silent_CHECK (cexpTVBinOp m .x1 v x op)).bind_atomicAt fun r =>
      (assignAction_atomicAt m a r).bind_pure r

theorem postfixAction_atomicAt (m : Machine) (a : CexpTypedAddr) {op : CexpBinOp}
    (hop : op ≠ .ONoop) : AtomicAt m.dm a (postfixAction m a op) := by
  refine (silent_readAction m a).bind_atomicAt fun v => ?_
  simp only [if_pos hop]
  exact (silent_CHECK (cexpTVBinOp m .x2 v one op)).bind_atomicAt fun tmp =>
    (assignAction_atomicAt m a tmp).bind_pure v

theorem prefixAction_atomicAt (m : Machine) (a : CexpTypedAddr) {op : CexpBinOp}
    (hop : op ≠ .ONoop) : AtomicAt m.dm a (prefixAction m a op) := by
  refine (silent_readAction m a).bind_atomicAt fun v => ?_
  simp only [if_pos hop]
  exact (silent_CHECK (cexpTVBinOp m .x1 v one op)).bind_atomicAt fun r =>
      (assignAction_atomicAt m a r).bind_pure r

/-- Without an operator the variable is only read. -/
theorem postfixAction_silent (m : Machine) (a : CexpTypedAddr) :
    Silent (postfixAction m a .ONoop) :=
  (silent_readAction m a).bind fun v => silent_pure v

theorem prefixAction_silent (m : Machine) (a : CexpTypedAddr) :
    Silent (prefixAction m a .ONoop) :=
  (silent_readAction m a).bind fun v => silent_pure v

/-! ## New variables -/

theorem cexpVarLookupCreate_cases (E : Env) (name : String) (w : World) :
    cexpVarLookupCreate E name w = .ok none w ∨
      ∃ x w', cexpVarLookupCreate E name w = .ok (some x) w' ∧ w'.mem = w.mem ∧
        ∀ y, y ≠ x → w'.sym y = w.sym y := by
  rw [cexpVarLookupCreate]
  cases w.uvar.lookup name with
  | some x => exact .inr ⟨x, w, rfl, rfl, fun _ _ => rfl⟩
  | none =>
    cases hnew : E.newVar w with
    | none => exact .inl rfl
    | some new =>
      obtain ⟨x, cell⟩ := new
      refine .inr ⟨x, _, rfl, rfl, fun y hy => ?_⟩
      simp only [if_neg hy]

/-- Making a variable reports an error only if there is none, or else it sets the record of one
variable and clears its cell. -/
theorem varCreate_cases (E : Env) (name : String) (t : CexpType) (w : World) :
    (∃ msg, varCreate E name t w = .error (.error msg) w) ∨
      (∃ e w', varCreate E name t w = .error (.fault e) w') ∨
      ∃ x n w', varCreate E name t w = .ok x w' ∧ clearedSize E.machine.dm t = .ok n ∧
        w'.mem = w.mem.store (w'.sym x).ptv 0 n ∧ (w'.sym x).type = t ∧
        ∀ y, y ≠ x → w'.sym y = w.sym y := by
  rcases cexpVarLookupCreate_cases E name w with hnone | ⟨x, w₁, hsome, hmem, hsym⟩
  · exact .inl ⟨_, bind_ok hnone⟩
  · have hrun : varCreate E name t w = (do
        modify fun w => { w with sym := fun y => if y = x then ⟨(w.sym x).ptv, t⟩ else w.sym y }
        let n ← CHECK (clearedSize E.machine.dm t)
        modify fun w => { w with mem := w.mem.store (w.sym x).ptv 0 n }
        return x : EStateM Stop World SymId) w₁ := bind_ok hsome
    cases hn : clearedSize E.machine.dm t with
    | error stop =>
      obtain ⟨e, rfl⟩ := clearedSize_error hn
      rw [hn] at hrun
      exact .inr (.inl ⟨e, _, hrun⟩)
    | ok n =>
      rw [hn] at hrun
      refine .inr (.inr ⟨x, n, _, hrun, rfl, ?_, ?_, ?_⟩)
      · simp [hmem]
      · simp
      · intro y hy
        simp [hy, hsym y hy]

/-- The assignment to a new variable cannot fail. -/
theorem createAction_cases (E : Env) (name : String) (v : CexpTypedVal) (w : World) :
    (∃ msg, createAction E name v w = .error (.error msg) w) ∨
      (∃ e w', createAction E name v w = .error (.fault e) w') ∨
      ∃ x w₁ w', varCreate E name v.type w = .ok x w₁ ∧ createAction E name v w = .ok () w' ∧
        (∀ y, y ≠ x → w₁.sym y = w.sym y) ∧
        ∃ n u, clearedSize E.machine.dm (w₁.sym x).type = .ok n ∧ w' = { w₁ with
          mem := (w.mem.store (w₁.sym x).ptv 0 n).store (w₁.sym x).ptv u n } := by
  rcases varCreate_cases E name v.type w with ⟨msg, h⟩ | ⟨e, w', h⟩ | ⟨x, n, w₁, h, hn, hmem,
    htype, hsym⟩
  · exact .inl ⟨msg, bind_error h⟩
  · exact .inr (.inl ⟨e, w', bind_error h⟩)
  · obtain ⟨mem, hassign⟩ := cexpTVAssign_own hn w₁.mem (w₁.sym x).ptv
    have hrun : createAction E name v w = .ok () { w₁ with mem := mem } := by
      refine (bind_ok h).trans ?_
      change assignAction E.machine (w₁.sym x) v w₁ = _
      have haddr : w₁.sym x = ⟨(w₁.sym x).ptv, v.type⟩ := by rw [← htype]
      rw [assignAction, haddr, hassign]
    obtain ⟨n', u, hn', rfl⟩ := cexpTVAssign_ok hassign
    cases hn.symm.trans hn'
    refine .inr (.inr ⟨x, w₁, _, h, hrun, hsym, n, u, ?_, ?_⟩)
    · rw [htype]
      exact hn
    · rw [← hmem]

/-! ## An operation that fails -/

theorem effect_ok {α : Type} {x : EStateM Stop World α} {w w' : World}
    (h : effect x w = .ok () w') : ∃ a, x w = .ok a w' := by
  rw [effect] at h
  cases hx : x w with
  | ok a w₁ =>
    rw [hx] at h
    cases h
    exact ⟨a, rfl⟩
  | error e w₁ =>
    rw [hx] at h
    cases h

theorem effect_error {α : Type} {x : EStateM Stop World α} {w w' : World} {e : Stop}
    (h : effect x w = .error e w') : x w = .error e w' := by
  rw [effect] at h
  cases hx : x w with
  | ok a w₁ =>
    rw [hx] at h
    cases h
  | error e₁ w₁ =>
    rw [hx] at h
    cases h
    rfl

theorem callAction_error {E : Env} {fn : CexpTypedVal} {args : List CexpTypedVal} {w w' : World}
    {e : Stop} (h : callAction E fn args w = .error e w') : w' = w := by
  cases hframe : callFrame E.machine fn args with
  | error e' =>
    rw [callAction, hframe] at h
    cases h
    rfl
  | ok frame =>
    rw [callAction, hframe] at h
    cases h

theorem memberAction_error {E : Env} {x : SymId} {mname : String} {args : List CexpTypedVal}
    {w w' : World} {e : Stop} (h : memberAction E x mname args w = .error e w') : w' = w := by
  rw [memberAction] at h
  split at h
  · cases hnew : newHelp E.machine.dm args with
    | error e' =>
      rw [hnew] at h
      cases h
      rfl
    | ok new =>
      rw [hnew] at h
      cases new <;> cases h
  · cases h
    rfl

/-- An assignment to an lvalue, an op-assignment or an increment. -/
def Op.Assigns : Op → Prop
  | post _ _ | pre _ _ | assign _ _ | modop _ _ _ => True
  | create _ _ | call _ _ | member _ _ _ => False

theorem Op.Assigns.run_error {E : Env} {op : Op} (hop : op.Assigns) {w w' : World} {e : Stop}
    (h : op.run E w = .error e w') : w' = w := by
  cases op with
  | post a op =>
    by_cases hnoop : op = .ONoop
    · subst hnoop
      exact (postfixAction_silent E.machine a w).of_error (effect_error h)
    · exact (postfixAction_atomicAt E.machine a hnoop w).of_error (effect_error h)
  | pre a op =>
    by_cases hnoop : op = .ONoop
    · subst hnoop
      exact (prefixAction_silent E.machine a w).of_error (effect_error h)
    · exact (prefixAction_atomicAt E.machine a hnoop w).of_error (effect_error h)
  | assign a v => exact (assignAction_atomicAt E.machine a v w).of_error (effect_error h)
  | modop a op x => exact (modopAction_atomicAt E.machine a op x w).of_error (effect_error h)
  | create name v => cases hop
  | call fn args => cases hop
  | member x mname args => cases hop

/-- An operation that reports an error leaves the world as it was. -/
theorem Op.run_message {E : Env} {op : Op} {w w' : World} {msg : String}
    (h : op.run E w = .error (.error msg) w') : w' = w := by
  cases op with
  | post a op => exact Op.Assigns.run_error (show (Op.post a op).Assigns from trivial) h
  | pre a op => exact Op.Assigns.run_error (show (Op.pre a op).Assigns from trivial) h
  | assign a v => exact Op.Assigns.run_error (show (Op.assign a v).Assigns from trivial) h
  | modop a op x => exact Op.Assigns.run_error (show (Op.modop a op x).Assigns from trivial) h
  | create name v =>
    have hrun := effect_error h
    rcases createAction_cases E name v w with ⟨msg', h'⟩ | ⟨e, w₁, h'⟩ | ⟨x, w₁, w₂, -, h', -⟩
    · cases h'.symm.trans hrun
      rfl
    · cases h'.symm.trans hrun
    · cases h'.symm.trans hrun
  | call fn args => exact callAction_error (effect_error h)
  | member x mname args => exact memberAction_error (effect_error h)

end Cexp
