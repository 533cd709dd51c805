import Mathlib.Data.BitVec

/-!
# The elementary types of the C-type engine

`CexpType` of `ctyps.h` is an enumeration whose members are bit codes, and every macro
that works on a type is arithmetic on that code. The code is kept here, because the
macros leave the enumeration: `CEXP_TYPE_BASE2PTR(TVoid)` is `1` and
`CEXP_TYPE_PTR2BASE(TVoidP)` is `0x100`, and neither is a member.

A typed value is a type and the 64 bits of the union `CexpValU`, first byte lowest.
A member that is narrower than the union is stored zero-extended; no path of the engine
reads a wider member than the type of the value names.

What C leaves to the target is a parameter (`Machine`): the sizes of `long` and of
pointers, the floating-point unit and the results of over-wide shifts.
-/

namespace Cexp

/-! ## The target -/

/-- The two data models the sources are built for. -/
inductive DataModel where
  | ilp32
  | lp64
  deriving DecidableEq, Repr

/-- `sizeof(unsigned long)`, which is also `sizeof(void*)`. -/
def DataModel.longSize : DataModel → Nat
  | .ilp32 => 4
  | .lp64 => 8

/-- The number of bits of an `unsigned long`. -/
def DataModel.longBits (dm : DataModel) : Nat := 8 * dm.longSize

/-- IEEE arithmetic of the target on the bit patterns of `float` and `double`. -/
structure Fpu where
  addF : BitVec 32 → BitVec 32 → BitVec 32
  subF : BitVec 32 → BitVec 32 → BitVec 32
  mulF : BitVec 32 → BitVec 32 → BitVec 32
  divF : BitVec 32 → BitVec 32 → BitVec 32
  negF : BitVec 32 → BitVec 32
  eqF : BitVec 32 → BitVec 32 → Bool
  addD : BitVec 64 → BitVec 64 → BitVec 64
  subD : BitVec 64 → BitVec 64 → BitVec 64
  mulD : BitVec 64 → BitVec 64 → BitVec 64
  divD : BitVec 64 → BitVec 64 → BitVec 64
  negD : BitVec 64 → BitVec 64
  ltD : BitVec 64 → BitVec 64 → Bool
  leD : BitVec 64 → BitVec 64 → Bool
  eqD : BitVec 64 → BitVec 64 → Bool
  /-- conversion of an unsigned integer -/
  ofUIntF : BitVec 64 → BitVec 32
  ofUIntD : BitVec 64 → BitVec 64
  f2d : BitVec 32 → BitVec 64
  d2f : BitVec 64 → BitVec 32
  /-- conversion to an unsigned integer of the given number of bits -/
  f2u : Nat → BitVec 32 → BitVec 64
  d2u : Nat → BitVec 64 → BitVec 64

/-- A unit without floating point. -/
def softFpu : Fpu where
  addF _ _ := 0
  subF _ _ := 0
  mulF _ _ := 0
  divF _ _ := 0
  negF _ := 0
  eqF a b := a == b
  addD _ _ := 0
  subD _ _ := 0
  mulD _ _ := 0
  divD _ _ := 0
  negD _ := 0
  ltD _ _ := false
  leD _ _ := false
  eqD a b := a == b
  ofUIntF _ := 0
  ofUIntD _ := 0
  f2d _ := 0
  d2f _ := 0
  f2u _ _ := 0
  d2u _ _ := 0

/-- What the C standard leaves open. `oneShl32` is the value of the `int` expression
`1<<32` in `fits`, `wideShl` and `wideShr` are shifts by at least the operand's width. -/
structure Machine where
  dm : DataModel
  fpu : Fpu
  oneShl32 : Nat
  wideShl : BitVec 64 → BitVec 64 → BitVec 64
  wideShr : BitVec 64 → BitVec 64 → BitVec 64

/-! ## Type codes -/

/-- A value of the C enumeration, by its code. -/
structure CexpType where
  code : BitVec 32
  deriving DecidableEq, Repr

namespace CexpType

/-- `order | (size<<8) | bits` -/
def mk' (order size bits : Nat) : CexpType := ⟨BitVec.ofNat 32 (order ||| (size <<< 8) ||| bits)⟩

def CEXP_PTR_BIT : Nat := 1
def CEXP_FUN_BIT : Nat := 64
def CEXP_ORDER_MASK : Nat := 0x1f

def TVoid : CexpType := mk' 0 0 0
/-- `void*` is treated like `char*`. -/
def TVoidP : CexpType := mk' 0 1 CEXP_PTR_BIT
def TUChar : CexpType := mk' 2 1 0
def TUCharP : CexpType := mk' 2 1 CEXP_PTR_BIT
def TUShort : CexpType := mk' 4 2 0
def TUShortP : CexpType := mk' 4 2 CEXP_PTR_BIT
def TUInt : CexpType := mk' 6 4 0
def TUIntP : CexpType := mk' 6 4 CEXP_PTR_BIT
def TULong (dm : DataModel) : CexpType := mk' 8 dm.longSize 0
def TULongP (dm : DataModel) : CexpType := mk' 8 dm.longSize CEXP_PTR_BIT
def TFloat : CexpType := mk' 10 4 0
def TFloatP : CexpType := mk' 10 4 CEXP_PTR_BIT
def TDouble : CexpType := mk' 12 8 0
def TDoubleP : CexpType := mk' 12 8 CEXP_PTR_BIT
def TFuncP (dm : DataModel) : CexpType := mk' 8 dm.longSize (CEXP_FUN_BIT ||| CEXP_PTR_BIT)
def TDFuncP : CexpType := mk' 12 8 (CEXP_FUN_BIT ||| CEXP_PTR_BIT)

/-- `CEXP_TYPE_PTRQ` -/
def ptrq (t : CexpType) : Bool := t.code &&& BitVec.ofNat 32 CEXP_PTR_BIT != 0

/-- `CEXP_TYPE_MASK_SIZE` -/
def maskSize (t : CexpType) : Nat := (t.code &&& BitVec.ofNat 32 CEXP_ORDER_MASK).toNat

/-- `CEXP_TYPE_INDX` -/
def indx (t : CexpType) : Nat := t.maskSize >>> 1

/-- `CEXP_TYPE_FUNQ` -/
def funq (t : CexpType) : Bool := t.code &&& BitVec.ofNat 32 CEXP_FUN_BIT != 0

/-- `CEXP_TYPE_SCALARQ` -/
def scalarq (dm : DataModel) (t : CexpType) : Bool :=
  !t.ptrq && decide (TUChar.indx ≤ t.indx) && decide ((TULong dm).indx ≥ t.indx)

/-- `CEXP_TYPE_FPQ` -/
def fpq (t : CexpType) : Bool := !t.ptrq && decide (TFloat.indx ≤ t.indx)

/-- `CEXP_BASE_TYPE_SIZE` -/
def baseTypeSize (t : CexpType) : Nat := ((t.code >>> 8) &&& 0xff).toNat

/-- `CEXP_TYPE_SIZE` -/
def typeSize (dm : DataModel) (t : CexpType) : Nat :=
  if t.ptrq then dm.longSize else t.baseTypeSize

/-- `CEXP_TYPE_PTR2BASE` -/
def ptr2base (t : CexpType) : CexpType :=
  ⟨t.code &&& ~~~(BitVec.ofNat 32 (CEXP_PTR_BIT ||| CEXP_FUN_BIT))⟩

/-- `CEXP_TYPE_BASE2PTR` -/
def base2ptr (t : CexpType) : CexpType := ⟨t.code ||| BitVec.ofNat 32 CEXP_PTR_BIT⟩

-- the address of a `void` symbol has a type code that is no member of the enumeration
example : base2ptr TVoid ≠ TVoidP ∧ ptr2base TVoidP ≠ TVoid := by decide

@[simp] theorem ptrq_base2ptr (t : CexpType) : (base2ptr t).ptrq = true := by
  have h : (t.code ||| BitVec.ofNat 32 1) &&& BitVec.ofNat 32 1 = 1 := by
    ext i
    simp only [BitVec.getElem_and, BitVec.getElem_or]
    cases (BitVec.ofNat 32 1)[i] <;> simp
  simp [ptrq, base2ptr, CEXP_PTR_BIT, h]

end CexpType

/-! ## Values and addresses -/

/-- `CexpTypedValRec` -/
structure CexpTypedVal where
  tv : BitVec 64
  type : CexpType
  deriving DecidableEq, Repr

/-- `CexpTypedAddrRec` -/
structure CexpTypedAddr where
  ptv : BitVec 64
  type : CexpType
  deriving DecidableEq, Repr

namespace CexpValU

/-- The low `n` bytes of the union, the member of that size. -/
def low (n : Nat) (u : BitVec 64) : BitVec 64 := u &&& BitVec.ofNat 64 (2 ^ (8 * n) - 1)

def c (u : BitVec 64) : BitVec 64 := low 1 u
def s (u : BitVec 64) : BitVec 64 := low 2 u
def i (u : BitVec 64) : BitVec 64 := low 4 u
def l (dm : DataModel) (u : BitVec 64) : BitVec 64 := low dm.longSize u
def p (dm : DataModel) (u : BitVec 64) : BitVec 64 := low dm.longSize u
def f (u : BitVec 64) : BitVec 32 := u.setWidth 32
def d (u : BitVec 64) : BitVec 64 := u

end CexpValU

/-! ## Outcomes of an operation -/

/-- Ways to leave the engine that no error message announces. -/
inductive Fault where
  | divisionByZero
  | assertFailed (expr : String)
  /-- a table of the engine indexed past its end -/
  | badIndex
  deriving DecidableEq, Repr

/-- The engine's routines return `0` or a static error message. -/
inductive Stop where
  | error (msg : String)
  | fault (f : Fault)
  deriving DecidableEq, Repr

/-! ## Operators -/

inductive CexpBinOp where
  | ONoop | OLt | OLe | OEq | ONe | OGe | OGt | OAdd | OSub | OMul | ODiv | OMod
  | OShL | OShR | OAnd | OXor | OOr
  deriving DecidableEq, Repr

/-- The order of the operators is used by the engine. -/
def CexpBinOp.code : CexpBinOp → Int
  | .ONoop => -1
  | .OLt => 5
  | .OLe => 6
  | .OEq => 7
  | .ONe => 8
  | .OGe => 9
  | .OGt => 10
  | .OAdd => 11
  | .OSub => 12
  | .OMul => 13
  | .ODiv => 14
  | .OMod => 15
  | .OShL => 16
  | .OShR => 17
  | .OAnd => 18
  | .OXor => 19
  | .OOr => 20

inductive CexpUnOp where
  | ONeg | OCpl
  deriving DecidableEq, Repr

end Cexp
