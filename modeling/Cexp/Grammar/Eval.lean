import Cexp.Grammar.Syntax

/-!
# Semantic actions of the expression grammar

`eval` runs the actions of `cexp.y` over a parse tree. The inhibit state `evalInhibit` is
the `unsigned long` shift register that `PSHEVAL` and `POPEVAL` move and that `EVAL` tests.

An action whose `EVAL` is inhibited leaves `$$` as the parser preset it, a copy of `$1`.
Where `$1` is another member of the union `YYSTYPE`, the bits are read back as a value;
how they lie in the union depends on the target (`Env.fixexpAsVal`, `Env.lvalAsVal`,
`Env.methodAsVal`).

One field of the state is a ghost that no action reads: `log` records the truth of every left
operand of `&&` and `||`, and each `EVAL` that was reached.
-/

namespace Cexp

/-! ## State -/

/-- What actions can change besides the parser context: memory, the typed addresses of
all symbol records, the user variables by name, and the help strings. -/
structure World where
  mem : Mem
  sym : SymId → CexpTypedAddr
  uvar : List (String × SymId)
  help : SymId → BitVec 64

/-- The code that is called and the layout of the parser's union. -/
structure Env where
  machine : Machine
  /-- the called function -/
  call : CallFrame → World → BitVec 64 × World
  /-- allocate a user variable: its record and the cell for its value -/
  newVar : World → Option (SymId × BitVec 64)
  strdup : BitVec 64 → World → BitVec 64 × World
  fixexpAsVal : CexpTypedAddr → CexpBinOp → CexpTypedVal
  lvalAsVal : CexpTypedAddr → CexpTypedVal
  methodAsVal : SymId → String → CexpTypedVal

/-- A short-circuit operator and the truth of its left operand. -/
structure Guard where
  op : Logic
  left : Bool
  deriving DecidableEq, Repr

/-- The argument of `PSHEVAL`: `$$` for `or`, `! $$` for `and`. -/
def Guard.inhibits (g : Guard) : Bool :=
  match g.op with
  | .and => !g.left
  | .or => g.left

/-- The right operand of the operator is to be evaluated. -/
def Guard.Passes (g : Guard) : Prop :=
  match g.op with
  | .and => g.left = true
  | .or => g.left = false

theorem Guard.passes_iff (g : Guard) : g.Passes ↔ g.inhibits = false := by
  obtain ⟨op, left⟩ := g
  cases op <;> cases left <;> simp [Guard.Passes, Guard.inhibits]

theorem Guard.inhibits_of_not_passes {g : Guard} (h : ¬g.Passes) : g.inhibits = true := by
  rwa [Guard.passes_iff, Bool.not_eq_false] at h

instance (g : Guard) : Decidable g.Passes := decidable_of_iff _ g.passes_iff.symm

inductive ActionKind where
  | call | member | assign | opAssign | incDec | create | declare
  deriving DecidableEq, Repr

/-- What is recorded of a parse: the truth of a left operand, and an `EVAL` with whether it was
executed. -/
inductive Event where
  | left (truth : Bool)
  | action (kind : ActionKind) (executed : Bool)
  deriving DecidableEq, Repr

/-- The parser context. -/
structure St where
  evalInhibit : Nat
  rval : CexpTypedVal
  status : Int
  world : World
  log : List Event

abbrev Ev := EStateM Stop St

/-- An outcome of the type engine; an error message is reported and stops the parse
(`CHECK`). -/
def CHECK {σ α : Type} : Except Stop α → EStateM Stop σ α
  | .ok a => fun s => .ok a s
  | .error e => fun s => .error e s

/-- Run an action on the world. What it changed before it failed stays changed. -/
def onWorld {α : Type} (x : EStateM Stop World α) : Ev α := fun s =>
  match x s.world with
  | .ok a w => .ok a { s with world := w }
  | .error e w => .error e { s with world := w }

/-! ## The inhibit register -/

def PSHEVAL (dm : DataModel) (g : Guard) : Ev Unit := fun s =>
  .ok () { s with evalInhibit := s.evalInhibit * 2 % 2 ^ dm.longBits + g.inhibits.toNat }

def POPEVAL : Ev Unit := fun s => .ok () { s with evalInhibit := s.evalInhibit / 2 }

/-- `EVAL(stuff)`; `dflt` is what `$$` holds already. -/
def EVAL {α : Type} (k : ActionKind) (dflt : α) (stuff : EStateM Stop World α) : Ev α := fun s =>
  let run := decide (s.evalInhibit = 0)
  let s' := { s with log := s.log ++ [.action k run] }
  if run then onWorld stuff s' else .ok dflt s'

/-- Record the truth of a left operand. -/
def noteLeft (left : Bool) : Ev Unit := fun s => .ok () { s with log := s.log ++ [.left left] }

/-! ## Actions on the world -/

/-- `cexpTVAssign` on the memory of the world. -/
def assignAction (m : Machine) (a : CexpTypedAddr) (v : CexpTypedVal) : EStateM Stop World Unit :=
  fun w => match cexpTVAssign m w.mem a v with
    | .ok mem => .ok () { w with mem := mem }
    | .error e => .error e w

/-- `cexpTA2TV` on the memory of the world. -/
def readAction (m : Machine) (a : CexpTypedAddr) : EStateM Stop World CexpTypedVal :=
  fun w => match cexpTA2TV m w.mem a with
    | .ok v => .ok v w
    | .error e => .error e w

/-- The constant `1` of type `TUChar` in the rules for `++` and `--`. -/
def one : CexpTypedVal := ⟨1, CexpType.TUChar⟩

/-- `funcp: postfix`. The sum goes to a temporary that is also the second operand. -/
def postfixAction (m : Machine) (a : CexpTypedAddr) (op : CexpBinOp) :
    EStateM Stop World CexpTypedVal := do
  let v ← readAction m a
  if op ≠ .ONoop then
    let tmp ← CHECK (cexpTVBinOp m .x2 v one op)
    assignAction m a tmp
  return v

/-- `funcp: prefix`. The result overwrites the first operand. -/
def prefixAction (m : Machine) (a : CexpTypedAddr) (op : CexpBinOp) :
    EStateM Stop World CexpTypedVal := do
  let v ← readAction m a
  if op ≠ .ONoop then
    let r ← CHECK (cexpTVBinOp m .x1 v one op)
    assignAction m a r
    return r
  else return v

/-- `lval MODOP exp` -/
def modopAction (m : Machine) (a : CexpTypedAddr) (op : CexpBinOp) (x : CexpTypedVal) :
    EStateM Stop World CexpTypedVal := do
  let v ← readAction m a
  let r ← CHECK (cexpTVBinOp m .x1 v x op)
  assignAction m a r
  return r

/-- The width of the member that `varCreate` clears. -/
def clearedSize (dm : DataModel) (t : CexpType) : Except Stop Nat :=
  if t.ptrq then .ok dm.longSize
  else if t = CexpType.TUChar then .ok 1
  else if t = CexpType.TUShort then .ok 2
  else if t = CexpType.TUInt then .ok 4
  else if t = CexpType.TULong dm then .ok dm.longSize
  else if t = CexpType.TFloat then .ok 4
  else if t = CexpType.TDouble then .ok 8
  else .error (.fault (.assertFailed "!\"unknown type\""))

/-- `cexpVarLookup(name,1)`: find the variable or add it. -/
def cexpVarLookupCreate (E : Env) (name : String) : EStateM Stop World (Option SymId) := fun w =>
  match w.uvar.lookup name with
  | some x => .ok (some x) w
  | none =>
    match E.newVar w with
    | none => .ok none w
    | some (x, cell) => .ok (some x) { w with
        uvar := (name, x) :: w.uvar
        sym := fun y => if y = x then ⟨cell, CexpType.TVoid⟩ else w.sym y }

def varCreate (E : Env) (name : String) (t : CexpType) : EStateM Stop World SymId := do
  match ← cexpVarLookupCreate E name with
  | none => throw (.error "unable to add new user variable")
  | some x =>
    modify fun w => { w with sym := fun y => if y = x then ⟨(w.sym x).ptv, t⟩ else w.sym y }
    let n ← CHECK (clearedSize E.machine.dm t)
    modify fun w => { w with mem := w.mem.store (w.sym x).ptv 0 n }
    return x

/-- `IDENT '=' exp` -/
def createAction (E : Env) (name : String) (v : CexpTypedVal) : EStateM Stop World Unit := do
  let x ← varCreate E name v.type
  let w ← get
  assignAction E.machine (w.sym x) v

/-- `cexpTVFnCall` -/
def callAction (E : Env) (fn : CexpTypedVal) (args : List CexpTypedVal) :
    EStateM Stop World CexpTypedVal := do
  let frame ← CHECK (callFrame E.machine fn args)
  let w ← get
  let (r, w') := E.call frame w
  set w'
  return ⟨if frame.retDouble then r else CexpValU.l E.machine.dm r, fn.type.ptr2base⟩

/-- The new help string that the first argument of `help` gives, if any. -/
def newHelp (dm : DataModel) : List CexpTypedVal → Except Stop (Option (BitVec 64))
  | [] => .ok none
  | v :: _ =>
    if v.type = CexpType.TUCharP then
      .ok (if CexpValU.p dm v.tv = 0 then none else some (CexpValU.p dm v.tv))
    else if v.type = CexpType.TUInt ∨ v.type = CexpType.TULong dm then .ok none
    else .error (.error "Cexp Help: Warning, invalid argument")

/-- `cexpSymMember`; the only member is `help`. -/
def memberAction (E : Env) (x : SymId) (mname : String) (args : List CexpTypedVal) :
    EStateM Stop World CexpTypedVal := do
  if mname = "help" then
    let old := (← get).help x
    match ← CHECK (newHelp E.machine.dm args) with
    | none => pure ()
    | some s =>
      let (p, w) := E.strdup s (← get)
      set { w with help := fun y => if y = x then p else w.help y }
    return ⟨old, CexpType.TUCharP⟩
  else throw (.error "member not implemented")

/-! ## Reductions -/

/-- `lval: '*' castexp` -/
def derefLval (v : CexpTypedVal) : Except Stop CexpTypedAddr :=
  if !v.type.ptrq || v.type.funq then .error (.error "not a valid lval address")
  else .ok ⟨v.tv, v.type.ptr2base⟩

/-- `$1 || cexpTVTrueQ(&$2)` and `$1 && cexpTVTrueQ(&$2)`: the right operand is not
tested when the left one decides. -/
def logicResult (m : Machine) (k : Logic) (left : Bool) (b : CexpTypedVal) :
    Except Stop CexpTypedVal :=
  if left = (k = .or) then .ok ⟨ofBool left, CexpType.TULong m.dm⟩
  else match cexpTVTrueQ m b with
    | .ok r => .ok ⟨ofBool r, CexpType.TULong m.dm⟩
    | .error e => .error e

/-- `'!' castexp` -/
def notResult (m : Machine) (v : CexpTypedVal) : Except Stop CexpTypedVal :=
  match cexpTVTrueQ m v with
  | .ok r => .ok ⟨ofBool (!r), CexpType.TULong m.dm⟩
  | .error e => .error e

def eval (E : Env) : {c : Cat} → Node c → Ev c.Sem
  | _, .number v => pure v
  | _, .func f => fun s => .ok (⟨(s.world.sym f).ptv, (s.world.sym f).type⟩ : CexpTypedVal) s
  | _, .addr x => fun s => CHECK (cexpTVPtr (s.world.sym x)) s
  | _, .post l op => do
    let a ← eval E l
    EVAL .incDec (E.fixexpAsVal a op) (postfixAction E.machine a op)
  | _, .pre l op => do
    let a ← eval E l
    EVAL .incDec (E.fixexpAsVal a op) (prefixAction E.machine a op)
  | _, .not e => do
    let v ← eval E e
    CHECK (notResult E.machine v)
  | _, .unop op e => do
    let v ← eval E e
    CHECK (cexpTVUnOp E.machine v op)
  | _, .cast t e => do
    let t ← CHECK (t.type E.machine.dm)
    let v ← eval E e
    CHECK (cexpTypeCast E.machine v t true)
  | _, .binop op e₁ e₂ => do
    let v₁ ← eval E e₁
    let v₂ ← eval E e₂
    CHECK (cexpTVBinOp E.machine .none v₁ v₂ op)
  | _, .logic k e₁ e₂ => do
    let v₁ ← eval E e₁
    let left ← CHECK (cexpTVTrueQ E.machine v₁)
    noteLeft left
    PSHEVAL E.machine.dm ⟨k, left⟩
    let v₂ ← eval E e₂
    let r ← CHECK (logicResult E.machine k left v₂)
    POPEVAL
    return r
  | _, .assign l e => do
    let a ← eval E l
    let v ← eval E e
    EVAL .assign () (assignAction E.machine a v)
    return v
  | _, .modop l op e => do
    let a ← eval E l
    let v ← eval E e
    EVAL .opAssign (E.lvalAsVal a) (modopAction E.machine a op v)
  | _, .create name e => do
    let v ← eval E e
    EVAL .create () (createAction E name v)
    return v
  | _, .comma e₁ e₂ => do
    let _ ← eval E e₁
    eval E e₂
  | _, .call f as => do
    let fn ← eval E f
    let args ← eval E as
    EVAL .call fn (callAction E fn args)
  | _, .member x mname as => do
    let args ← eval E as
    EVAL .member (E.methodAsVal x mname) (memberAction E x mname args)
  | _, .var x => fun s => .ok (s.world.sym x) s
  | _, .deref e => do
    let v ← eval E e
    CHECK (derefLval v)
  | _, .nil => pure ([] : List CexpTypedVal)
  | _, .cons e as => do
    let v ← eval E e
    let vs ← eval E as
    pure (v :: vs : List CexpTypedVal)

/-! ## Lines -/

/-- The value of a line that defines nothing. -/
def voidVal : CexpTypedVal := ⟨0, CexpType.TVoid⟩

/-- `redef`: change the type of a symbol and read it. -/
def redefAction (t : CexpType) (x : SymId) : EStateM Stop World Unit :=
  modify fun w => { w with sym := fun y => if y = x then ⟨(w.sym x).ptv, t⟩ else w.sym y }

/-- `newdef` -/
def newdefAction (E : Env) (t : CexpType) (name : String) : EStateM Stop World CexpTypedVal := do
  let x ← varCreate E name t
  let w ← get
  readAction E.machine (w.sym x)

/-- The casts that only decide how a result is printed. -/
def printCast (m : Machine) (v : CexpTypedVal) : Except Stop Unit :=
  if v.type.fpq then
    match cexpTypeCast m v CexpType.TDouble false with
    | .ok _ => .ok ()
    | .error e => .error e
  else if v.type = CexpType.TUChar then .ok ()
  else
    match cexpTypeCast m v (CexpType.TULong m.dm) false with
    | .ok _ => .ok ()
    | .error e => .error e

/-- `line` -/
def evalLine (E : Env) : Line → Ev CexpTypedVal
  | .empty => pure voidVal
  | .ident _ => throw (.error "unknown symbol/variable; '=' expected")
  | .newdef t name => do
    let t ← CHECK (t.type E.machine.dm)
    EVAL .declare voidVal (newdefAction E t name)
  | .redef t x bang => do
    let t ← CHECK (t.type E.machine.dm)
    EVAL .declare () (redefAction t x)
    let a ← (fun s => .ok (s.world.sym x) s : Ev CexpTypedAddr)
    let v ← onWorld (readAction E.machine a)
    if bang then return v
    else throw (.error ": symbol already defined; append '!' to enforce recast\n")
  | .commaexp e => do
    let v ← eval E e
    CHECK (printCast E.machine v)
    return v

/-- `input`: the last result is kept in the context. -/
def parseLine (E : Env) (line : Line) : Ev CexpTypedVal := do
  let v ← evalLine E line
  modify fun s => { s with rval := if v.type = CexpType.TVoid then s.rval else v, status := 0 }
  return v

/-- `ctx->rval = v.tv; ctx->rval_sym.value.type = v.type`, where `ctx->rval` are the eight bytes to
which the symbol record of `ans` points. -/
def World.setRval (w : World) (ans : SymId) (v : CexpTypedVal) : World :=
  { w with
    mem := w.mem.store (w.sym ans).ptv v.tv 8
    sym := fun y => if y = ans then ⟨(w.sym ans).ptv, v.type⟩ else w.sym y }

/-- `if ( TVoid != $2.type ) ...` of the rule `input` -/
def World.keep (w : World) (ans : SymId) (v : CexpTypedVal) : World :=
  if v.type = CexpType.TVoid then w else w.setRval ans v

def St.keep (s : St) (ans : SymId) (v : CexpTypedVal) : St := { s with world := s.world.keep ans v }

/-- `parseLine` with the result in memory. -/
def parseLineAns (E : Env) (ans : SymId) (line : Line) : Ev CexpTypedVal := do
  let v ← parseLine E line
  modify fun s => s.keep ans v
  return v

/-- `cexpResetParserCtx` before a line is parsed. -/
def St.reset (s : St) : St :=
  { s with evalInhibit := 0, status := -1, log := [] }

/-! ## A target -/

/-- A 64-bit target whose shifter reduces the shift count, with functions that return `0`.
All members of the union begin with eight bytes and a type. -/
def hostEnv : Env where
  machine :=
    { dm := .lp64
      fpu := softFpu
      oneShl32 := 1
      wideShl := fun a b => a <<< (b.toNat % 64)
      wideShr := fun a b => a >>> (b.toNat % 64) }
  call _ w := (0, w)
  newVar _ := none
  strdup p w := (p, w)
  fixexpAsVal a _ := ⟨a.ptv, a.type⟩
  lvalAsVal a := ⟨a.ptv, a.type⟩
  methodAsVal _ _ := ⟨0x10, ⟨0x5550⟩⟩

/-- Symbol `0` is a function, symbol `1` a variable of type `long`. -/
def hostSt : St where
  evalInhibit := 0
  rval := ⟨0, CexpType.TULong .lp64⟩
  status := -1
  world :=
    { mem := fun _ => 0
      sym := fun x => if x = 0 then ⟨0x1003, CexpType.TFuncP .lp64⟩
        else ⟨0x2000, CexpType.TULong .lp64⟩
      uvar := []
      help := fun _ => 0 }
  log := []

def ulong (n : Nat) : Node .exp := .number ⟨BitVec.ofNat 64 n, CexpType.TULong .lp64⟩

/-- The log of a run that succeeded. -/
def logOf {α : Type} : EStateM.Result Stop St α → Option (List Event)
  | .ok _ s => some s.log
  | .error _ _ => none

end Cexp
