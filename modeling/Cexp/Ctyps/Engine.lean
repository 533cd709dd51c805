import Cexp.Ctyps.Types

/-!
# The C-type engine

The routines of `ctyps.c` on typed values. Each returns the modified value or stops: with
the routine's error message, or with a fault where the C code would divide by zero, fail
an assertion or read past a table.

`cexpTVBinOp` is called with its result aliased to one of the operands by the grammar.
The code writes the result's type before it has finished reading, so the aliasing is an
argument (`Alias`). A result that is not aliased holds a copy of the first operand when
the routine starts, because the parser presets `$$` to `$1`.
-/

namespace Cexp

open CexpType CexpBinOp

/-! ## Memory -/

/-- The target's memory, byte by byte. -/
abbrev Mem := BitVec 64 → BitVec 8

/-- Load `n` bytes, lowest address first. -/
def Mem.load (mem : Mem) (a : BitVec 64) : Nat → BitVec 64
  | 0 => 0
  | n + 1 => (mem.load (a + 1) n <<< 8) ||| (mem a).setWidth 64

/-- Store the low `n` bytes of `v`. -/
def Mem.store (mem : Mem) (a v : BitVec 64) : Nat → Mem
  | 0 => mem
  | n + 1 => Mem.store (fun x => if x = a then v.setWidth 8 else mem x) (a + 1) (v >>> 8) n

/-! ## Conversions -/

/-- The unsigned integer that the converters of row `row` read from the union. -/
def readUInt (dm : DataModel) (row : Nat) (v : BitVec 64) : BitVec 64 :=
  match row with
  | 0 => CexpValU.p dm v
  | 1 => CexpValU.c v
  | 2 => CexpValU.s v
  | 3 => CexpValU.i v
  | _ => CexpValU.l dm v

/-- The member of column `col` that an unsigned integer is truncated to. -/
def truncUInt (dm : DataModel) (col : Nat) (n : BitVec 64) : BitVec 64 :=
  match col with
  | 0 => CexpValU.p dm n
  | 1 => CexpValU.c n
  | 2 => CexpValU.s n
  | 3 => CexpValU.i n
  | _ => CexpValU.l dm n

/-- The number of bits of the integer member of column `col`. -/
def columnBits (dm : DataModel) (col : Nat) : Nat :=
  match col with
  | 1 => 8
  | 2 => 16
  | 3 => 32
  | _ => dm.longBits

/-- The converter matrix `ctab`, rows and columns by `CEXP_TYPE_INDX`. `none` is a null
entry (`f2p`, `d2p`). -/
def ctab (m : Machine) (row col : Nat) : Option (BitVec 64 → BitVec 64) :=
  if row ≤ 4 then
    if col ≤ 4 then some fun v => truncUInt m.dm col (readUInt m.dm row v)
    else if col = 5 then some fun v => (m.fpu.ofUIntF (readUInt m.dm row v)).setWidth 64
    else some fun v => m.fpu.ofUIntD (readUInt m.dm row v)
  else if row = 5 then
    if col = 0 then none
    else if col ≤ 4 then some fun v => m.fpu.f2u (columnBits m.dm col) (CexpValU.f v)
    else if col = 5 then some fun v => (CexpValU.f v).setWidth 64
    else some fun v => m.fpu.f2d (CexpValU.f v)
  else
    if col = 0 then none
    else if col ≤ 4 then some fun v => m.fpu.d2u (columnBits m.dm col) (CexpValU.d v)
    else if col = 5 then some fun v => (m.fpu.d2f (CexpValU.d v)).setWidth 64
    else some fun v => CexpValU.d v

/-- `1<<n` as an `int`; the width of `int` is 32. -/
def oneShl (m : Machine) (n : Nat) : Nat := if n < 32 then 2 ^ n else m.oneShl32

/-- The value that `fits` compares when the target is narrower than the source; a stray
type fails the assertion, a floating value never fits. -/
def fitsValue (m : Machine) (v : CexpTypedVal) : Except Stop (Option (BitVec 64)) :=
  if v.type.ptrq then .ok (some (CexpValU.p m.dm v.tv))
  else if v.type = TUChar then .ok (some (CexpValU.c v.tv))
  else if v.type = TUShort then .ok (some (CexpValU.s v.tv))
  else if v.type = TUInt then .ok (some (CexpValU.i v.tv))
  else if v.type = TULong m.dm then .ok (some (CexpValU.l m.dm v.tv))
  else if v.type = TFloat ∨ v.type = TDouble then .ok none
  else .error (.fault (.assertFailed "!\"Invalid Type - you found a BUG\""))

/-- Check whether `v` would fit into a variable of type `t`. -/
def fits (m : Machine) (v : CexpTypedVal) (t : CexpType) : Except Stop Bool :=
  let narrow : Except Stop Bool :=
    if t.typeSize m.dm < v.type.typeSize m.dm then
      match fitsValue m v with
      | .ok (some n) => .ok (decide (n.toNat < oneShl m (8 * t.typeSize m.dm)))
      | .ok none => .ok false
      | .error e => .error e
    else .ok true
  if t.fpq && !v.type.fpq then
    if t = TFloat then
      let n := if v.type = TULong m.dm then CexpValU.l m.dm v.tv
        else if v.type = TUInt then CexpValU.i v.tv else 0
      .ok (decide (n.toNat < 2 ^ 24))
    else narrow
  else if !t.fpq && v.type.fpq then .ok false
  else narrow

/-- `cexpTypeCast` works on the value that it is handed: the message, if any, and what `*v` holds
on return. -/
def castInPlace (m : Machine) (v : CexpTypedVal) (t : CexpType) (force : Bool) :
    Except Fault (Option String × CexpTypedVal) :=
  if v.type.ptrq && t.ptrq then
    if !force && decide (t.baseTypeSize > v.type.baseTypeSize) then
      .ok (some "cannot cast, target pointer element type too small", v)
    else .ok (none, { v with type := t })
  else
    let row := if v.type.ptrq then TVoidP.indx else v.type.indx
    let col := if v.type.ptrq then t.indx else if t.ptrq then TVoidP.indx else t.indx
    if 7 ≤ row ∨ 7 ≤ col then .error .badIndex
    else match ctab m row col with
      | none => .ok (some "forbidden cast", v)
      | some c =>
        match if force then .ok true else fits m v t with
        | .error (.fault e) => .error e
        | .error (.error msg) => .ok (some msg, v)
        | .ok false => .ok (some
            "cannot perform implicit cast; would truncate source value - use explicit cast to override",
            v)
        | .ok true =>
          let v := { v with tv := c v.tv }
          .ok (none, { v with type := t })

/-- The callers take the value if there is no message. -/
def cexpTypeCast (m : Machine) (v : CexpTypedVal) (t : CexpType) (force : Bool) :
    Except Stop CexpTypedVal :=
  match castInPlace m v t force with
  | .ok (none, w) => .ok w
  | .ok (some msg, _) => .error (.error msg)
  | .error e => .error (.fault e)

/-- Return a pointer to `a`'s data area. -/
def cexpTVPtr (a : CexpTypedAddr) : Except Stop CexpTypedVal :=
  if a.type.ptrq then .error (.error "refuse to take address of pointer")
  else .ok ⟨a.ptv, base2ptr a.type⟩

/-! ## Binary operators -/

/-- Which operand of `cexpTVBinOp` the result pointer equals. -/
inductive Alias where
  | none
  | x1
  | x2
  deriving DecidableEq, Repr

/-- A C truth value as an `unsigned long`. -/
def ofBool (b : Bool) : BitVec 64 := if b then 1 else 0

/-- The unsigned comparison of `compare`. -/
def compareUInt (op : CexpBinOp) (a b : BitVec 64) : Except Stop Bool :=
  match op with
  | OLt => .ok (a.ult b)
  | OLe => .ok (a.ule b)
  | OEq => .ok (a == b)
  | ONe => .ok (a != b)
  | OGe => .ok (b.ule a)
  | OGt => .ok (b.ult a)
  | _ => .error (.error "unknown comparison operator")

/-- The floating comparison of `compare`. -/
def compareD (fpu : Fpu) (op : CexpBinOp) (a b : BitVec 64) : Except Stop Bool :=
  match op with
  | OLt => .ok (fpu.ltD a b)
  | OLe => .ok (fpu.leD a b)
  | OEq => .ok (fpu.eqD a b)
  | ONe => .ok (!fpu.eqD a b)
  | OGe => .ok (fpu.leD b a)
  | OGt => .ok (fpu.ltD b a)
  | _ => .error (.error "unknown comparison operator")

/-- The result's type is set to `TULong` before the operands are copied. -/
def compare (m : Machine) (al : Alias) (x1 x2 : CexpTypedVal) (op : CexpBinOp) :
    Except Stop CexpTypedVal :=
  let f := x1.type.fpq || x2.type.fpq
  if f && (x1.type.ptrq || x2.type.ptrq) then
    .error (.error "cannot compare pointers with floats")
  else do
    let xx1 := if al = .x1 then { x1 with type := TULong m.dm } else x1
    let xx2 := if al = .x2 then { x2 with type := TULong m.dm } else x2
    let t := if f then TDouble else TULong m.dm
    let xx1 ← cexpTypeCast m xx1 t false
    let xx2 ← cexpTypeCast m xx2 t false
    let r ← if f then compareD m.fpu op (CexpValU.d xx1.tv) (CexpValU.d xx2.tv)
      else compareUInt op (CexpValU.l m.dm xx1.tv) (CexpValU.l m.dm xx2.tv)
    return ⟨ofBool r, TULong m.dm⟩

/-- The arithmetic of `binop` on two `unsigned long`. -/
def binopUInt (m : Machine) (op : CexpBinOp) (a b : BitVec 64) : Except Stop (BitVec 64) :=
  match op with
  | OAdd => .ok (CexpValU.l m.dm (a + b))
  | OSub => .ok (CexpValU.l m.dm (a - b))
  | OMul => .ok (CexpValU.l m.dm (a * b))
  | ODiv => if b = 0 then .error (.fault .divisionByZero) else .ok (a / b)
  | OMod => if b = 0 then .error (.fault .divisionByZero) else .ok (a % b)
  | OShL => .ok (if b.toNat < m.dm.longBits then CexpValU.l m.dm (a <<< b.toNat)
      else m.wideShl a b)
  | OShR => .ok (if b.toNat < m.dm.longBits then a >>> b.toNat else m.wideShr a b)
  | OAnd => .ok (a &&& b)
  | OXor => .ok (a ^^^ b)
  | OOr => .ok (a ||| b)
  | _ => .error (.error "invalid operator on scalars")

def binopF (fpu : Fpu) (op : CexpBinOp) (a b : BitVec 32) : Except Stop (BitVec 32) :=
  match op with
  | OAdd => .ok (fpu.addF a b)
  | OSub => .ok (fpu.subF a b)
  | OMul => .ok (fpu.mulF a b)
  | ODiv => .ok (fpu.divF a b)
  | _ => .error (.error "invalid operator on floats")

def binopD (fpu : Fpu) (op : CexpBinOp) (a b : BitVec 64) : Except Stop (BitVec 64) :=
  match op with
  | OAdd => .ok (fpu.addD a b)
  | OSub => .ok (fpu.subD a b)
  | OMul => .ok (fpu.mulD a b)
  | ODiv => .ok (fpu.divD a b)
  | _ => .error (.error "invalid operator on doubles")

/-- Arithmetic on two operands of one type. `y` is what the result holds on entry: it is
left as it is for a type that is neither integral nor floating. -/
def binop (m : Machine) (y x1 x2 : CexpTypedVal) (op : CexpBinOp) :
    Except Stop CexpTypedVal :=
  if x1.type ≠ x2.type ∨ x1.type.ptrq = true then
    .error (.fault (.assertFailed "x1->type == x2->type && !CEXP_TYPE_PTRQ(x1->type)"))
  else if x1.type.scalarq m.dm then do
    let res := x1.type
    let a ← cexpTypeCast m x1 (TULong m.dm) false
    let b ← cexpTypeCast m x2 (TULong m.dm) false
    let r ← binopUInt m op (CexpValU.l m.dm a.tv) (CexpValU.l m.dm b.tv)
    cexpTypeCast m ⟨r, TULong m.dm⟩ res true
  else if x1.type = TFloat then do
    let r ← binopF m.fpu op (CexpValU.f x1.tv) (CexpValU.f x2.tv)
    return ⟨r.setWidth 64, TFloat⟩
  else if x1.type = TDouble then do
    let r ← binopD m.fpu op (CexpValU.d x1.tv) (CexpValU.d x2.tv)
    return ⟨r, TDouble⟩
  else .ok ⟨y.tv, x1.type⟩

/-- Boost both values to the type of the larger one. -/
def cexpTypePromote (m : Machine) (a b : CexpTypedVal) :
    Except Stop (CexpTypedVal × CexpTypedVal) :=
  if a.type.ptrq || b.type.ptrq then .error (.error "refuse to promote pointer type")
  else
    let bigIsB := if a.type.fpq != b.type.fpq then b.type.fpq
      else !decide (a.type.baseTypeSize > b.type.baseTypeSize)
    if bigIsB then do
      let a' ← cexpTypeCast m a b.type false
      return (a', b)
    else do
      let b' ← cexpTypeCast m b a.type false
      return (a, b')

/-- The difference of two pointers. Writing the result's type first loses the element
size of an aliased first operand. -/
def subPointers (m : Machine) (al : Alias) (x1 x2 : CexpTypedVal) :
    Except Stop CexpTypedVal :=
  let diff := CexpValU.l m.dm (CexpValU.p m.dm x1.tv - CexpValU.p m.dm x2.tv)
  let s := (if al = .x1 then TULong m.dm else x1.type).baseTypeSize
  if s = 0 then .error (.fault .divisionByZero)
  else if diff.toNat % s ≠ 0 then .error (.error "subtracting misaligned pointers")
  else .ok ⟨BitVec.ofNat 64 (diff.toNat / s), TULong m.dm⟩

/-- Add an integer to a pointer or subtract it. -/
def stepPointer (m : Machine) (ptr inc : CexpTypedVal) (op : CexpBinOp) :
    Except Stop CexpTypedVal :=
  if OSub.code < op.code then .error (.error "invalid operator or pointer increment")
  else match cexpTypeCast m inc (TULong m.dm) false with
    | .error (.fault f) => .error (.fault f)
    | .error (.error _) => .error (.error "invalid operator or pointer increment")
    | .ok v =>
      let n := CexpValU.l m.dm v.tv * BitVec.ofNat 64 ptr.type.baseTypeSize
      let p := CexpValU.p m.dm ptr.tv
      .ok ⟨CexpValU.p m.dm (if op = OSub then p - n else p + n), ptr.type⟩

def cexpTVBinOp (m : Machine) (al : Alias) (x1 x2 : CexpTypedVal) (op : CexpBinOp) :
    Except Stop CexpTypedVal :=
  if OAdd.code > op.code then compare m al x1 x2 op
  else if x1.type.ptrq then
    if x2.type.ptrq then
      if x1.type ≠ x2.type then .error (.error "pointer type mismatch")
      else if op ≠ OSub then .error (.error "invalid operator on two pointers")
      else subPointers m al x1 x2
    else stepPointer m x1 x2 op
  else if x2.type.ptrq then
    if op = OSub then .error (.error "cannot subtract a pointer")
    else stepPointer m x2 x1 op
  else do
    let (v, w) ← cexpTypePromote m x1 x2
    binop m (if al = .x2 then x2 else x1) v w op

/-! ## Assignment, unary operators and reading a variable -/

/-- Store `x` at `y`, cast implicitly to the type of `y`. -/
def cexpTVAssign (m : Machine) (mem : Mem) (y : CexpTypedAddr) (x : CexpTypedVal) :
    Except Stop Mem := do
  let xx ← cexpTypeCast m x y.type false
  if y.type = TUChar then return mem.store y.ptv (CexpValU.c xx.tv) 1
  else if y.type = TUShort then return mem.store y.ptv (CexpValU.s xx.tv) 2
  else if y.type = TUInt then return mem.store y.ptv (CexpValU.i xx.tv) 4
  else if y.type = TULong m.dm then return mem.store y.ptv (CexpValU.l m.dm xx.tv) m.dm.longSize
  else if y.type = TFloat then return mem.store y.ptv ((CexpValU.f xx.tv).setWidth 64) 4
  else if y.type = TDouble then return mem.store y.ptv (CexpValU.d xx.tv) 8
  else if y.type.ptrq then return mem.store y.ptv (CexpValU.p m.dm xx.tv) m.dm.longSize
  else .error (.error "invalid left hand type for assignment")

def cexpTVUnOp (m : Machine) (x : CexpTypedVal) (op : CexpUnOp) : Except Stop CexpTypedVal :=
  match op with
  | .ONeg =>
    if x.type = TUChar then .ok ⟨CexpValU.c (-CexpValU.c x.tv), x.type⟩
    else if x.type = TUShort then .ok ⟨CexpValU.s (-CexpValU.s x.tv), x.type⟩
    else if x.type = TUInt then .ok ⟨CexpValU.i (-CexpValU.i x.tv), x.type⟩
    else if x.type = TULong m.dm then .ok ⟨CexpValU.l m.dm (-CexpValU.l m.dm x.tv), x.type⟩
    else if x.type = TFloat then .ok ⟨(m.fpu.negF (CexpValU.f x.tv)).setWidth 64, x.type⟩
    else if x.type = TDouble then .ok ⟨m.fpu.negD (CexpValU.d x.tv), x.type⟩
    else .error (.error "invalid type for NEG operator")
  | .OCpl =>
    if !x.type.scalarq m.dm then .error (.error "invalid type for bitwise complement")
    else do
      let y ← cexpTypeCast m x (TULong m.dm) false
      cexpTypeCast m ⟨CexpValU.l m.dm (~~~CexpValU.l m.dm y.tv), TULong m.dm⟩ x.type true

/-- Test for a nonzero value. -/
def cexpTVTrueQ (m : Machine) (v : CexpTypedVal) : Except Stop Bool :=
  if v.type.ptrq then .ok (CexpValU.p m.dm v.tv != 0)
  else if v.type = TUChar then .ok (CexpValU.c v.tv != 0)
  else if v.type = TUShort then .ok (CexpValU.s v.tv != 0)
  else if v.type = TUInt then .ok (CexpValU.i v.tv != 0)
  else if v.type = TULong m.dm then .ok (CexpValU.l m.dm v.tv != 0)
  else if v.type = TFloat then .ok (!m.fpu.eqF (CexpValU.f v.tv) (m.fpu.ofUIntF 0))
  else if v.type = TDouble then .ok (!m.fpu.eqD (CexpValU.d v.tv) (m.fpu.ofUIntD 0))
  else .error (.fault (.assertFailed "0==\"unknown type???\""))

/-- Convert a typed address to a typed value. -/
def cexpTA2TV (m : Machine) (mem : Mem) (a : CexpTypedAddr) : Except Stop CexpTypedVal :=
  if a.ptv = 0 then .error (.error "reject dereferencing NULL pointer")
  else if a.type = TVoid then .error (.error "cannot get 'void' value")
  else if a.type = TUChar then .ok ⟨mem.load a.ptv 1, a.type⟩
  else if a.type = TUShort then .ok ⟨mem.load a.ptv 2, a.type⟩
  else if a.type = TUInt then .ok ⟨mem.load a.ptv 4, a.type⟩
  else if a.type = TULong m.dm then .ok ⟨mem.load a.ptv m.dm.longSize, a.type⟩
  else if a.type = TFloat then .ok ⟨mem.load a.ptv 4, a.type⟩
  else if a.type = TDouble then .ok ⟨mem.load a.ptv 8, a.type⟩
  else if a.type.ptrq then .ok ⟨mem.load a.ptv m.dm.longSize, a.type⟩
  else .error (.error "unknown type in cexpTA2TV")

/-! ## Function calls -/

/-- The maximal number of mixed arguments (`gentab.c`) and of integer arguments. -/
def MAXBITS : Nat := 5
def MAXARGS : Nat := 10

/-- A call as the target sees it: the function, whether it returns `double`, and its
arguments, each with the class it is passed in. -/
structure CallFrame where
  fn : BitVec 64
  retDouble : Bool
  args : List (Bool × BitVec 64)

/-- Cast the first `MAXARGS` arguments to `unsigned long` or `double`. -/
def castArgs (m : Machine) : Nat → List CexpTypedVal → Except Stop (List (Bool × BitVec 64))
  | 0, _ | _, [] => .ok []
  | n + 1, v :: vs => do
    let d := v.type.fpq
    let v' ← cexpTypeCast m v (if d then TDouble else TULong m.dm) false
    let rest ← castArgs m n vs
    return (d, v'.tv) :: rest

/-- The frame that `cexpTVFnCall` builds (generic ABI): missing arguments are filled with
integer zeroes up to what the wrapper takes. -/
def callFrame (m : Machine) (fn : CexpTypedVal) (args : List CexpTypedVal) :
    Except Stop CallFrame :=
  if !fn.type.funq then .error (.error "need a function pointer")
  else if CexpValU.p m.dm fn.tv = 0 then
    .error (.error "reject dereferencing NULL function pointer")
  else do
    let as ← castArgs m MAXARGS args
    let fpargs := as.any Prod.fst
    if MAXARGS < args.length ∨ (fpargs = true ∧ MAXBITS < as.length) then
      .error (.error "too many function arguments")
    else
      return { fn := CexpValU.p m.dm fn.tv, retDouble := decide (fn.type = TDFuncP),
               args := as ++ List.replicate ((if fpargs then MAXBITS else MAXARGS) - as.length)
                 (false, 0) }

end Cexp
