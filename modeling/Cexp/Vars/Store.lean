import Cexp.Lib.Linked
import Cexp.Syms.Table

/-!
# User variables and strings

The routines of `vars.c`. Variables and strings are records on the heap that begin with the link of
a linked list; the lists hang on the static records `gblList` and `strTab`. A routine holds the
recursive lock until it returns, so a call is one step. It yields nothing where it would read a
record that is not allocated or where a walk along a list is not over after `fuel` links.

The addresses that `calloc` and `malloc` return are arguments of the routines.
-/

namespace Cexp

open CLib

/-- `strcmp`; the strings end where the lists do. -/
def strcmp : List UInt8 → List UInt8 → Int
  | [], [] => 0
  | [], c :: _ => -c.toNat
  | c :: _, [] => c.toNat
  | c :: s, d :: t => if c = d then strcmp s t else c.toNat - d.toNat

/-- What a pointer `lh` points at: a list head or a record on the heap. -/
inductive Lh where
  | gblList
  | strTab
  | block (a : Nat)
  deriving DecidableEq, Repr

/-- `CexpVarRec` behind its link. Pointers into a record are the address of the record. -/
structure CexpVar where
  /-- the string that `sym.name` points into -/
  name : Nat
  /-- the record with the value that `sym.value.ptv` points at -/
  ptv : Nat
  type : CexpType
  size : Nat
  flags : Nat
  val : BitVec 64
  deriving DecidableEq, Repr

/-- What `calloc` and `memset` leave. -/
def CexpVar.zero : CexpVar := ⟨0, 0, CexpType.TVoid, 0, 0, 0⟩

/-- The links of all list elements and the rest of the records that are allocated. -/
structure VarMem where
  p : Lh → Option Lh
  var : Nat → Option CexpVar
  str : Nat → Option CStr

namespace VarMem

/-- `cexpVarInitOnce` -/
def init : VarMem := ⟨fun _ => none, fun _ => none, fun _ => none⟩

def callocVar (m : VarMem) (n : Nat) : VarMem :=
  { m with
    p := Function.update m.p (.block n) none
    var := Function.update m.var n (some .zero) }

/-- The new string of `cexpVarLookup` or `cexpStrLookup`; it is written before it is read. -/
def callocStr (m : VarMem) (s : Nat) : VarMem :=
  { m with
    p := Function.update m.p (.block s) none
    str := Function.update m.str s (some .empty) }

def freeVar (m : VarMem) (n : Nat) : VarMem :=
  { m with var := Function.update m.var n none }

def freeStr (m : VarMem) (s : Nat) : VarMem :=
  { m with str := Function.update m.str s none }

def setVar (m : VarMem) (n : Nat) (v : CexpVar) : VarMem :=
  { m with var := Function.update m.var n (some v) }

def strcpy (m : VarMem) (s : Nat) (name : CStr) : VarMem :=
  { m with str := Function.update m.str s (some name) }

/-! ## Lists -/

/-- Link `el` in behind `where_`. -/
def lhrAdd (m : VarMem) (el where_ : Lh) : VarMem :=
  { m with p := Function.update (Function.update m.p el (m.p where_)) where_ (some el) }

/-- The element that compares equal, and the one in front of its place. -/
def lhrFindN (m : VarMem) (fuel : Nat) (where_ : Lh) (comp : Lh → Option Int) :
    Option (Lh × Option Lh) :=
  findN m.p comp fuel (m.p where_) where_

/-- `lhrFlushN`: free the variables from `listel` on. -/
def lhrFlushN : Nat → Option Lh → VarMem → Option VarMem
  | 0, _, _ => none
  | _ + 1, none, m => some m
  | fuel + 1, some (.block a), m => lhrFlushN fuel (m.p (.block a)) (m.freeVar a)
  | _ + 1, some _, _ => none

def strcomp (m : VarMem) (what : CStr) : Lh → Option Int
  | .block a => do
    let x ← m.str a
    return strcmp x.bytes what.bytes
  | _ => none

def varcomp (m : VarMem) (what : CStr) : Lh → Option Int
  | .block a => do
    let v ← m.var a
    let x ← m.str v.name
    return strcmp x.bytes what.bytes
  | _ => none

def strFindN (m : VarMem) (fuel : Nat) (chpt : CStr) : Option (Lh × Option Lh) :=
  m.lhrFindN fuel .strTab (m.strcomp chpt)

/-- `findN` of `vars.c` -/
def varFindN (m : VarMem) (fuel : Nat) (name : CStr) : Option (Lh × Option Lh) :=
  m.lhrFindN fuel .gblList (m.varcomp name)

end VarMem

/-! ## Routines -/

/-- What a routine returns, as its caller sees it. -/
inductive VarResult where
  | null
  /-- the symbol in the record `a`, whose name is the string `name` -/
  | sym (a name : Nat)
  /-- the symbol with the parser's last result -/
  | lastResult
  | str (s : Nat)
  /-- of `cexpVarDelete`, whether it returns a nonzero value -/
  | deleted (found : Bool)
  /-- of `cexpVarWalk`: the calls of the walker and the value of the last one, or `0` -/
  | walked (calls : List (CStr × Nat)) (rval : Nat)
  | done
  deriving DecidableEq

/-- `CEXP_LAST_RESULT_VAR_NAME` -/
def lastResultVarName : List UInt8 := [97, 110, 115]

namespace VarMem

/-- The string for a new variable: the one in the table, or the new record `s`. What is left of
`s` is freed. -/
def internName (m : VarMem) (fuel : Nat) (name : CStr) (s : Nat) :
    Option (VarMem × Nat × Option Nat) := do
  match ← m.strFindN fuel name with
  | (_, some (.block t)) => return (m, t, some s)
  | (q, none) => return ((m.lhrAdd (.block s) q).strcpy s name, s, none)
  | _ => none

/-- The symbol of a list element. -/
def symOf (m : VarMem) : Lh → Option VarResult
  | .block a => do
    let v ← m.var a
    return .sym a v.name
  | _ => none

/-- `cexpVarLookup`; if `creat` is set, `n` and `s` are what the two calls of `calloc` return. -/
def cexpVarLookup (m : VarMem) (fuel : Nat) (name : CStr) (creat : Bool) (n s : Option Nat) :
    Option (VarMem × VarResult) :=
  if strcmp name.bytes lastResultVarName = 0 then some (m, .lastResult)
  else
    let n := if creat then n else none
    let s := if creat then s else none
    let m := n.elim m m.callocVar
    let m := s.elim m m.callocStr
    match m.varFindN fuel name, n, s with
    | none, _, _ => none
    | some (where_, none), some n, some s => do
      let (m, t, s) ← m.internName fuel name s
      let m := m.lhrAdd (.block n) where_
      let m := m.setVar n
        { name := t, ptv := n, type := CexpType.TVoid, size := 8, flags := 0, val := 0 }
      return (s.elim m m.freeStr, .sym n t)
    | some (_, v), n, s => do
      let r ← v.elim (some .null) m.symOf
      let m := n.elim m m.freeVar
      return (s.elim m m.freeStr, r)

/-- `cexpStrLookup`; if `creat` is set, `s` is what `malloc` returns. -/
def cexpStrLookup (m : VarMem) (fuel : Nat) (name : CStr) (creat : Bool) (s : Option Nat) :
    Option (VarMem × VarResult) := do
  let s := if creat then s else none
  let m := s.elim m m.callocStr
  match ← m.strFindN fuel name, s with
  | (q, none), some s => return ((m.lhrAdd (.block s) q).strcpy s name, .str s)
  | (_, none), none => return (m, .null)
  | (_, some (.block t)), s => return (s.elim m m.freeStr, .str t)
  | _, _ => none

def cexpVarDelete (m : VarMem) (fuel : Nat) (name : CStr) : Option (VarMem × VarResult) := do
  match ← m.varFindN fuel name with
  | (p, some (.block v)) =>
    let m := { m with p := Function.update m.p p (m.p (.block v)) }
    -- the record is cleared before it is freed
    let m := { m with p := Function.update m.p (.block v) none }
    return ((m.setVar v .zero).freeVar v, .deleted true)
  | (_, none) => return (m, .deleted false)
  | _ => none

def cexpVarsFlush (m : VarMem) (fuel : Nat) : Option (VarMem × VarResult) := do
  let m ← lhrFlushN fuel (m.p .gblList) m
  return ({ m with p := Function.update m.p .gblList none }, .done)

/-- The loop of `cexpVarWalk`. What the walker returns may depend on the calls before. -/
def walkFrom (m : VarMem) (walker : List (CStr × Nat) → Nat) :
    Nat → Option Lh → List (CStr × Nat) → Option VarResult
  | 0, _, _ => none
  | _ + 1, none, calls => some (.walked calls 0)
  | fuel + 1, some (.block a), calls => do
    let v ← m.var a
    let x ← m.str v.name
    let calls := calls ++ [(x, a)]
    if walker calls ≠ 0 then return .walked calls (walker calls)
    else m.walkFrom walker fuel (m.p (.block a)) calls
  | _ + 1, some _, _ => none

def cexpVarWalk (m : VarMem) (fuel : Nat) (walker : List (CStr × Nat) → Nat) :
    Option (VarMem × VarResult) := do
  let r ← m.walkFrom walker fuel (m.p .gblList) []
  return (m, r)

end VarMem

/-! ## Histories -/

/-- A call of a routine, or user code that writes the type and the value of a variable. -/
inductive VarCall where
  | varLookup (name : CStr) (creat : Bool) (n s : Option Nat)
  | strLookup (name : CStr) (creat : Bool) (s : Option Nat)
  | delete (name : CStr)
  | flush
  | walk (walker : List (CStr × Nat) → Nat)
  | assign (a : Nat) (type : CexpType) (val : BitVec 64)

/-- The state and the result of a call. -/
def VarMem.call (m : VarMem) (fuel : Nat) : VarCall → Option (VarMem × VarResult)
  | .varLookup name creat n s => m.cexpVarLookup fuel name creat n s
  | .strLookup name creat s => m.cexpStrLookup fuel name creat s
  | .delete name => m.cexpVarDelete fuel name
  | .flush => m.cexpVarsFlush fuel
  | .walk walker => m.cexpVarWalk fuel walker
  | .assign a type val => do
    let v ← m.var a
    return (m.setVar a { v with type := type, val := val }, .done)

/-- An address that is not in use. -/
def VarMem.Free (m : VarMem) (a : Nat) : Prop := m.var a = none ∧ m.str a = none

/-- Names are not that of the last result, `calloc` and `malloc` return new memory, and user code
writes to variables that exist. -/
def VarMem.Admits (m : VarMem) : VarCall → Prop
  | .varLookup name creat n s =>
    name.bytes ≠ lastResultVarName ∧
      (creat = true → ∃ a b, n = some a ∧ s = some b ∧ m.Free a ∧ m.Free b ∧ a ≠ b)
  | .strLookup _ creat s => creat = true → ∃ b, s = some b ∧ m.Free b
  | .delete _ => True
  | .flush => True
  | .walk _ => True
  | .assign a _ _ => (m.var a).isSome = true

/-- Calls that were made one after the other, from the start, with their results. -/
inductive VarMem.History : VarMem → List (VarCall × VarResult) → Prop where
  | start : History .init []
  | next {m m' : VarMem} {h : List (VarCall × VarResult)} {c : VarCall} {r : VarResult} (fuel : Nat) :
      History m h → m.Admits c → m.call fuel c = some (m', r) → History m' (h ++ [(c, r)])

end Cexp
