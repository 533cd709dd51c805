import Cexp.Ctyps.Engine

/-!
# Parse trees of the expression grammar

The productions of `cexp.y` that have a semantic action. A production that only passes
its operand up (`binexp: castexp`, `call: '(' commaexp ')'`) has no node of its own, so a
tree stands for every way of writing it with parentheses.

The parser runs an action when it reduces, which is the order of a walk that visits the
operands from left to right and the node last; the rules `or` and `and` are reduced
between the two operands.
-/

namespace Cexp

/-- A symbol record (`CexpSym`): entry of a symbol table or user variable. -/
abbrev SymId := Nat

/-- `typeid` -/
inductive TypeId where
  | KW_CHAR | KW_SHORT | KW_INT | KW_LONG | KW_FLOAT | KW_DOUBLE
  deriving DecidableEq, Repr

def TypeId.type (dm : DataModel) : TypeId → CexpType
  | KW_CHAR => CexpType.TUChar
  | KW_SHORT => CexpType.TUShort
  | KW_INT => CexpType.TUInt
  | KW_LONG => CexpType.TULong dm
  | KW_FLOAT => CexpType.TFloat
  | KW_DOUBLE => CexpType.TDouble

/-- The declarators of casts and definitions: `typeid`, `typeid '*'` and `fptype`. -/
inductive Declarator where
  | plain (t : TypeId)
  | pointer (t : TypeId)
  | function (t : TypeId)
  deriving DecidableEq, Repr

/-- The type that a declarator names; only `long` and `double` functions exist. -/
def Declarator.type (dm : DataModel) : Declarator → Except Stop CexpType
  | plain t => .ok (t.type dm)
  | pointer t => .ok (t.type dm).base2ptr
  | function .KW_DOUBLE => .ok CexpType.TDFuncP
  | function .KW_LONG => .ok (CexpType.TFuncP dm)
  | function _ => .error (.error "invalid type for function pointer cast")

/-- What a nonterminal stands for. -/
inductive Cat where
  | exp
  | lval
  | args
  deriving DecidableEq, Repr

/-- The semantic value of a nonterminal (`%union`). -/
def Cat.Sem : Cat → Type
  | .exp => CexpTypedVal
  | .lval => CexpTypedAddr
  | .args => List CexpTypedVal

/-- The short-circuit operators. -/
inductive Logic where
  | and
  | or
  deriving DecidableEq, Repr

inductive Node : Cat → Type where
  /-- `NUMBER`, `STR_CONST` -/
  | number (v : CexpTypedVal) : Node .exp
  /-- `FUNC`, `'&' FUNC` -/
  | func (f : SymId) : Node .exp
  /-- `'&' nonfuncvar` -/
  | addr (x : SymId) : Node .exp
  /-- `funcp: postfix`, with `OAdd`, `OSub` or `ONoop` -/
  | post (l : Node .lval) (op : CexpBinOp) : Node .exp
  /-- `funcp: prefix` -/
  | pre (l : Node .lval) (op : CexpBinOp) : Node .exp
  /-- `'!' castexp` -/
  | not (e : Node .exp) : Node .exp
  /-- `'~' castexp`, `'-' castexp` -/
  | unop (op : CexpUnOp) (e : Node .exp) : Node .exp
  /-- `cast castexp`, `pcast castexp`, `fpcast castexp` -/
  | cast (t : Declarator) (e : Node .exp) : Node .exp
  /-- `binexp` with an operator of the type engine -/
  | binop (op : CexpBinOp) (e₁ e₂ : Node .exp) : Node .exp
  /-- `and binexp`, `or binexp` -/
  | logic (k : Logic) (e₁ e₂ : Node .exp) : Node .exp
  /-- `lval '=' exp` -/
  | assign (l : Node .lval) (e : Node .exp) : Node .exp
  /-- `lval MODOP exp` -/
  | modop (l : Node .lval) (op : CexpBinOp) (e : Node .exp) : Node .exp
  /-- `IDENT '=' exp` -/
  | create (name : String) (e : Node .exp) : Node .exp
  /-- `commaexp ',' exp` -/
  | comma (e₁ e₂ : Node .exp) : Node .exp
  /-- `call '(' exp ',' ... ')'` -/
  | call (f : Node .exp) (as : Node .args) : Node .exp
  /-- `symmethod '(' exp ',' ... ')'` -/
  | member (x : SymId) (mname : String) (as : Node .args) : Node .exp
  /-- `lval: nonfuncvar` -/
  | var (x : SymId) : Node .lval
  /-- `lval: '*' castexp` -/
  | deref (e : Node .exp) : Node .lval
  | nil : Node .args
  | cons (e : Node .exp) (as : Node .args) : Node .args

/-- `line` -/
inductive Line where
  | empty
  /-- `IDENT '\n'` -/
  | ident (name : String)
  /-- `newdef` -/
  | newdef (t : Declarator) (name : String)
  /-- `redef`, with `'!'` or without -/
  | redef (t : Declarator) (x : SymId) (bang : Bool)
  | commaexp (e : Node .exp)

/-- How deep `&&` and `||` nest in a tree: the number of right operands around its
deepest part. -/
def guardDepth : {c : Cat} → Node c → Nat
  | _, .number _ | _, .func _ | _, .addr _ | _, .var _ | _, .nil => 0
  | _, .post l _ | _, .pre l _ => guardDepth l
  | _, .not e | _, .unop _ e | _, .cast _ e | _, .create _ e | _, .deref e => guardDepth e
  | _, .binop _ e₁ e₂ | _, .comma e₁ e₂ => max (guardDepth e₁) (guardDepth e₂)
  | _, .logic _ e₁ e₂ => max (guardDepth e₁) (guardDepth e₂ + 1)
  | _, .assign l e | _, .modop l _ e => max (guardDepth l) (guardDepth e)
  | _, .call f as => max (guardDepth f) (guardDepth as)
  | _, .member _ _ as => guardDepth as
  | _, .cons e as => max (guardDepth e) (guardDepth as)

end Cexp
