import Mathlib.Data.BitVec
import Cexp.Ctyps.Casts
import Cexp.Lib.Width

/-!
# Integral arithmetic

`cexpTVBinOp` on integers: both operands are cast to the wider type, then to `unsigned long`,
and the result is cut to the wider type. `integral_arithmetic` says that this is the unsigned
arithmetic of C at the width of the wider type (`unsignedOp`).
-/

namespace Cexp

open CexpType CexpBinOp CLib

/-! ## The arithmetic of C -/

/-- The number of bits of a value of type `t`. -/
def CexpType.bits (t : CexpType) : Nat := 8 * t.baseTypeSize

/-- The wider of two types; the second if they have the same size. -/
def CexpType.wider (s t : CexpType) : CexpType :=
  if s.baseTypeSize > t.baseTypeSize then s else t

/-- A value converted to `w` bits. -/
def CexpTypedVal.at (dm : DataModel) (w : Nat) (v : CexpTypedVal) : BitVec w :=
  (v.uint dm).setWidth w

/-- Unsigned arithmetic of C on `w` bits. -/
def unsignedOp {w : Nat} (op : CexpBinOp) (a b : BitVec w) : BitVec w :=
  match op with
  | OAdd => a + b
  | OSub => a - b
  | OMul => a * b
  | ODiv => a / b
  | OMod => a % b
  | OShL => a <<< b.toNat
  | OShR => a >>> b.toNat
  | OAnd => a &&& b
  | OXor => a ^^^ b
  | OOr => a ||| b
  | _ => 0

/-- Unsigned comparison of C. -/
def unsignedCompare (op : CexpBinOp) (a b : Nat) : Bool :=
  match op with
  | OLt => decide (a < b)
  | OLe => decide (a ≤ b)
  | OEq => decide (a = b)
  | ONe => decide (a ≠ b)
  | OGe => decide (a ≥ b)
  | OGt => decide (a > b)
  | _ => false

/-- Arithmetic, bitwise and shift operators. -/
def CexpBinOp.Arithmetic (op : CexpBinOp) : Prop := OAdd.code ≤ op.code

def CexpBinOp.Comparison (op : CexpBinOp) : Prop := OLt.code ≤ op.code ∧ op.code < OAdd.code

instance (op : CexpBinOp) : Decidable op.Arithmetic := inferInstanceAs (Decidable (_ ≤ _))

instance (op : CexpBinOp) : Decidable op.Comparison := inferInstanceAs (Decidable (_ ∧ _))

/-- The second operand of a division is not zero, that of a shift is below the width `w`. -/
structure CexpBinOp.Admits (op : CexpBinOp) (w : Nat) (b : BitVec 64) : Prop where
  divisor : op = ODiv ∨ op = OMod → b ≠ 0
  amount : op = OShL ∨ op = OShR → b.toNat < w

/-! ## Promotion -/

variable {dm : DataModel}

theorem CexpType.Integral.wider {s t : CexpType} (hs : Integral dm s) (ht : Integral dm t) :
    Integral dm (s.wider t) := by
  unfold CexpType.wider
  split
  · exact hs
  · exact ht

theorem baseTypeSize_le_wider (s t : CexpType) :
    s.baseTypeSize ≤ (s.wider t).baseTypeSize ∧ t.baseTypeSize ≤ (s.wider t).baseTypeSize := by
  unfold CexpType.wider
  split <;> omega

/-- A value that was cast to a type with room for it. -/
theorem uint_cast {t : CexpType} (ht : Uint dm t) {v : CexpTypedVal}
    (hsize : v.type.typeSize dm ≤ t.typeSize dm) :
    CexpTypedVal.uint dm ⟨v.uint dm, t⟩ = v.uint dm :=
  low_low_of_le ht.typeSize_le_eight hsize v.tv

theorem cexpTypePromote_integral (m : Machine) {x y : CexpTypedVal} (hx : Integral m.dm x.type)
    (hy : Integral m.dm y.type) :
    ∃ v w, cexpTypePromote m x y = .ok (v, w) ∧
      v.type = x.type.wider y.type ∧ w.type = x.type.wider y.type ∧
      v.uint m.dm = x.uint m.dm ∧ w.uint m.dm = y.uint m.dm := by
  have hx' := hx.facts
  have hy' := hy.facts
  have hptr : ¬(x.type.ptrq = true ∧ y.type.ptrq = true) := not_both_of_left hx'.ptrq
  unfold cexpTypePromote CexpType.wider
  rw [hx'.ptrq, hy'.ptrq, hx'.fpq, hy'.fpq]
  by_cases hsize : x.type.baseTypeSize > y.type.baseTypeSize
  · -- the second operand is smaller and is cast
    have hle : y.type.typeSize m.dm ≤ x.type.typeSize m.dm := by
      rw [hx.typeSize, hy.typeSize]
      omega
    have hcast : cexpTypeCast m y x.type false = .ok ⟨y.uint m.dm, x.type⟩ :=
      cexpTypeCast_widen m hy.uint hx.uint (fun h => hptr ⟨h.2, h.1⟩) hle
    rw [if_pos hsize]
    refine ⟨x, ⟨y.uint m.dm, x.type⟩, ?_, rfl, rfl, rfl, uint_cast hx.uint hle⟩
    simp [hsize, hcast]
  · have hle : x.type.typeSize m.dm ≤ y.type.typeSize m.dm := by
      rw [hx.typeSize, hy.typeSize]
      omega
    have hcast : cexpTypeCast m x y.type false = .ok ⟨x.uint m.dm, y.type⟩ :=
      cexpTypeCast_widen m hx.uint hy.uint hptr hle
    rw [if_neg hsize]
    refine ⟨⟨x.uint m.dm, y.type⟩, y, ?_, rfl, rfl, uint_cast hy.uint hle, rfl⟩
    simp [hsize, hcast]

/-! ## Computation in `unsigned long` -/

/-- An unsigned integer is cast to `unsigned long` as it is. -/
theorem cexpTypeCast_ulong (m : Machine) {v : CexpTypedVal} (hv : Uint m.dm v.type) :
    cexpTypeCast m v (TULong m.dm) false = .ok ⟨v.uint m.dm, TULong m.dm⟩ := by
  apply cexpTypeCast_widen m hv (integral_ulong m.dm).uint
  · rw [(integral_ulong m.dm).facts.ptrq]
    rintro ⟨-, ⟨⟩⟩
  · rw [typeSize_ulong]
    exact hv.typeSize_le

theorem toNat_uint_lt {v : CexpTypedVal} (hv : Integral dm v.type) :
    (v.uint dm).toNat < 2 ^ v.type.bits := by
  rw [CexpTypedVal.uint, hv.typeSize]
  exact toNat_low_lt (hv.facts.size_le.trans (longSize_le dm)) v.tv

/-- The `unsigned long` that holds an unsigned integer. -/
theorem l_uint {v : CexpTypedVal} (hv : Uint dm v.type) :
    CexpValU.l dm (v.uint dm) = v.uint dm :=
  low_low_of_le (longSize_le dm) hv.typeSize_le v.tv

/-- Two operands of one integral type: the result in `unsigned long` is cut to that type. -/
theorem binop_integral (m : Machine) (y : CexpTypedVal) {v w : CexpTypedVal} {op : CexpBinOp}
    {r : BitVec 64} (hv : Integral m.dm v.type) (hvw : w.type = v.type)
    (hr : binopUInt m op (v.uint m.dm) (w.uint m.dm) = .ok r) :
    binop m y v w op =
      .ok ⟨CexpValU.low v.type.baseTypeSize (CexpValU.l m.dm r), v.type⟩ := by
  have hfacts := hv.facts
  have hw : Uint m.dm w.type := hvw ▸ hv.uint
  have hback : cexpTypeCast m ⟨r, TULong m.dm⟩ v.type true =
      .ok ⟨CexpValU.low v.type.baseTypeSize (CexpValU.l m.dm r), v.type⟩ := by
    rw [cexpTypeCast_force m (integral_ulong m.dm).uint hv.uint, hv.typeSize,
      CexpTypedVal.uint, typeSize_ulong]
    · rfl
    · exact not_both_of_right hfacts.ptrq
  have hassert := binop_asserted hvw hfacts.ptrq
  rw [binop, if_neg hassert, if_pos hfacts.scalarq, cexpTypeCast_ulong m hv.uint,
    cexpTypeCast_ulong m hw]
  show (do
    let r ← binopUInt m op (CexpValU.l m.dm (v.uint m.dm)) (CexpValU.l m.dm (w.uint m.dm))
    cexpTypeCast m ⟨r, TULong m.dm⟩ v.type true) = _
  rw [l_uint hv.uint, l_uint hw, hr]
  exact hback

/-- The low bits of what `binopUInt` computes. -/
theorem binopUInt_setWidth (m : Machine) {op : CexpBinOp} {k : Nat} {a b : BitVec 64}
    (hk : k ≤ m.dm.longBits) (ha : a.toNat < 2 ^ k) (hb : b.toNat < 2 ^ k)
    (hop : op.Arithmetic) (hok : op.Admits k b) :
    ∃ r, binopUInt m op a b = .ok r ∧
      (CexpValU.l m.dm r).setWidth k = unsignedOp op (a.setWidth k) (b.setWidth k) := by
  have h64 : k ≤ 64 := by
    have hle := longSize_le m.dm
    rw [DataModel.longBits] at hk
    omega
  have hl : ∀ r : BitVec 64, (CexpValU.l m.dm r).setWidth k = r.setWidth k :=
    setWidth_low (longSize_le m.dm) hk
  have hll : ∀ r : BitVec 64, (CexpValU.l m.dm (CexpValU.l m.dm r)).setWidth k = r.setWidth k := by
    intro r
    rw [hl, hl]
  have hbk := toNat_setWidth_of_lt hb
  cases op with
  | OAdd => exact ⟨_, rfl, (hll _).trans (BitVec.setWidth_add a b h64)⟩
  | OSub => exact ⟨_, rfl, (hll _).trans (setWidth_sub h64 a b)⟩
  | OMul => exact ⟨_, rfl, (hll _).trans (BitVec.setWidth_mul a b h64)⟩
  | ODiv =>
    refine ⟨a / b, if_neg (hok.divisor (.inl rfl)), ?_⟩
    exact (hl _).trans (setWidth_udiv ha hb)
  | OMod =>
    refine ⟨a % b, if_neg (hok.divisor (.inr rfl)), ?_⟩
    exact (hl _).trans (setWidth_umod ha hb)
  | OShL =>
    have hlt : b.toNat < m.dm.longBits := lt_of_lt_of_le (hok.amount (.inl rfl)) hk
    refine ⟨CexpValU.l m.dm (a <<< b.toNat), by rw [binopUInt, if_pos hlt], ?_⟩
    rw [hll, unsignedOp, hbk]
    exact BitVec.setWidth_shiftLeft_of_le h64
  | OShR =>
    have hlt : b.toNat < m.dm.longBits := lt_of_lt_of_le (hok.amount (.inr rfl)) hk
    refine ⟨a >>> b.toNat, by rw [binopUInt, if_pos hlt], ?_⟩
    rw [hl, unsignedOp, hbk]
    exact setWidth_ushiftRight ha _
  | OAnd => exact ⟨_, rfl, (hl _).trans BitVec.setWidth_and⟩
  | OXor => exact ⟨_, rfl, (hl _).trans BitVec.setWidth_xor⟩
  | OOr => exact ⟨_, rfl, (hl _).trans BitVec.setWidth_or⟩
  | ONoop | OLt | OLe | OEq | ONe | OGe | OGt => exact absurd hop (by decide)

/-! ## Results -/

/-- The result of an operator on two integers that admits them. -/
theorem cexpTVBinOp_integral (m : Machine) (al : Alias) {x y : CexpTypedVal} {op : CexpBinOp}
    (hx : Integral m.dm x.type) (hy : Integral m.dm y.type) (hop : op.Arithmetic)
    (hok : op.Admits (x.type.wider y.type).bits (y.uint m.dm)) :
    ∃ r, cexpTVBinOp m al x y op = .ok ⟨r, x.type.wider y.type⟩ ∧
      r.setWidth (x.type.wider y.type).bits =
        unsignedOp op (x.at m.dm (x.type.wider y.type).bits) (y.at m.dm (x.type.wider y.type).bits)
        := by
  obtain ⟨v, w, hpromote, hv, hw, hvx, hwy⟩ := cexpTypePromote_integral m hx hy
  have ht := hx.wider hy
  have hfacts := ht.facts
  have hbits : (x.type.wider y.type).bits ≤ m.dm.longBits :=
    Nat.mul_le_mul_left 8 hfacts.size_le
  have hle := baseTypeSize_le_wider x.type y.type
  have hxlt : (x.uint m.dm).toNat < 2 ^ (x.type.wider y.type).bits :=
    lt_of_lt_of_le (toNat_uint_lt hx) (Nat.pow_le_pow_right (by decide)
      (Nat.mul_le_mul_left 8 hle.1))
  have hylt : (y.uint m.dm).toNat < 2 ^ (x.type.wider y.type).bits :=
    lt_of_lt_of_le (toNat_uint_lt hy) (Nat.pow_le_pow_right (by decide)
      (Nat.mul_le_mul_left 8 hle.2))
  obtain ⟨r, hr, hrw⟩ := binopUInt_setWidth m hbits hxlt hylt hop hok
  rw [← hvx, ← hwy] at hr
  have hbin := fun z => binop_integral m z (hv ▸ ht) (hw.trans hv.symm) hr
  refine ⟨CexpValU.low (x.type.wider y.type).baseTypeSize (CexpValU.l m.dm r), ?_, ?_⟩
  · have hcmp : ¬OAdd.code > op.code := not_lt.mpr hop
    rw [cexpTVBinOp, if_neg hcmp, hx.facts.ptrq, hy.facts.ptrq, hpromote]
    show binop m _ v w op = _
    rw [hbin, hv]
  · exact (setWidth_low (hfacts.size_le.trans (longSize_le m.dm)) (Nat.le_refl _) _).trans hrw

/-- Comparisons compare the values and give an `unsigned long`. -/
theorem cexpTVBinOp_compare (m : Machine) {x y : CexpTypedVal} {op : CexpBinOp}
    (hx : Integral m.dm x.type) (hy : Integral m.dm y.type) (hop : op.Comparison) :
    cexpTVBinOp m .none x y op =
      .ok ⟨ofBool (unsignedCompare op (x.uint m.dm).toNat (y.uint m.dm).toNat), TULong m.dm⟩ := by
  have hcompare : compareUInt op (x.uint m.dm) (y.uint m.dm) =
      .ok (unsignedCompare op (x.uint m.dm).toNat (y.uint m.dm).toNat) := by
    cases op with
    | OLt | OLe | OGe | OGt => rfl
    | OEq => exact congrArg Except.ok (decide_eq_decide.mpr BitVec.toNat_inj.symm)
    | ONe =>
      have heq : (x.uint m.dm == y.uint m.dm) = decide ((x.uint m.dm).toNat = (y.uint m.dm).toNat) :=
        decide_eq_decide.mpr BitVec.toNat_inj.symm
      exact congrArg Except.ok ((congrArg not heq).trans (decide_not).symm)
    | _ => exact absurd hop (by decide)
  rw [cexpTVBinOp, if_pos hop.2, compare, hx.facts.fpq, hy.facts.fpq]
  show (do
    let xx1 ← cexpTypeCast m x (TULong m.dm) false
    let xx2 ← cexpTypeCast m y (TULong m.dm) false
    let r ← compareUInt op (CexpValU.l m.dm xx1.tv) (CexpValU.l m.dm xx2.tv)
    return (⟨ofBool r, TULong m.dm⟩ : CexpTypedVal)) = _
  rw [cexpTypeCast_ulong m hx.uint, cexpTypeCast_ulong m hy.uint]
  show (do
    let r ← compareUInt op (CexpValU.l m.dm (x.uint m.dm)) (CexpValU.l m.dm (y.uint m.dm))
    return (⟨ofBool r, TULong m.dm⟩ : CexpTypedVal)) = _
  rw [l_uint hx.uint, l_uint hy.uint, hcompare]
  rfl

/-! ## Unary operators -/

theorem cexpTVUnOp_neg (m : Machine) {x : CexpTypedVal} (hx : Integral m.dm x.type) :
    cexpTVUnOp m x .ONeg = .ok ⟨CexpValU.low x.type.baseTypeSize (-x.uint m.dm), x.type⟩ := by
  rw [CexpTypedVal.uint, hx.typeSize]
  obtain ⟨tv, t⟩ := x
  dsimp only at hx ⊢
  rcases List.mem_cons.mp hx with rfl | hx
  · rfl
  rcases List.mem_cons.mp hx with rfl | hx
  · rfl
  rcases List.mem_cons.mp hx with rfl | hx
  · rfl
  · have hne : ∀ dm, TULong dm ≠ TUChar ∧ TULong dm ≠ TUShort ∧ TULong dm ≠ TUInt ∧
        (TULong dm).baseTypeSize = dm.longSize := by
      intro dm
      cases dm <;> decide
    obtain ⟨h₁, h₂, h₃, hsize⟩ := hne m.dm
    rw [List.mem_singleton.mp hx, hsize]
    dsimp only [cexpTVUnOp]
    rw [if_neg h₁, if_neg h₂, if_neg h₃, if_pos rfl]
    rfl

theorem cexpTVUnOp_cpl (m : Machine) {x : CexpTypedVal} (hx : Integral m.dm x.type) :
    cexpTVUnOp m x .OCpl = .ok ⟨CexpValU.low x.type.baseTypeSize (~~~x.uint m.dm), x.type⟩ := by
  have hfacts := hx.facts
  have hcut : ∀ r : BitVec 64, CexpValU.low x.type.baseTypeSize (CexpValU.l m.dm r) =
      CexpValU.low x.type.baseTypeSize r :=
    low_low (longSize_le m.dm) hfacts.size_le
  have hback : ∀ r : BitVec 64, cexpTypeCast m ⟨r, TULong m.dm⟩ x.type true =
      .ok ⟨CexpValU.low x.type.baseTypeSize r, x.type⟩ := by
    intro r
    have hptr : ¬((TULong m.dm).ptrq = true ∧ x.type.ptrq = true) :=
      not_both_of_right hfacts.ptrq
    rw [cexpTypeCast_force m (integral_ulong m.dm).uint hx.uint hptr, hx.typeSize,
      CexpTypedVal.uint, typeSize_ulong]
    exact congrArg (fun u => Except.ok (CexpTypedVal.mk u x.type)) (hcut r)
  rw [cexpTVUnOp, hfacts.scalarq, cexpTypeCast_ulong m hx.uint]
  show cexpTypeCast m ⟨CexpValU.l m.dm (~~~CexpValU.l m.dm (x.uint m.dm)), TULong m.dm⟩ x.type true
    = _
  rw [l_uint hx.uint, hback, hcut]

/-- The result of a unary operator at the width of its operand. -/
theorem at_low {x : CexpTypedVal} (hx : Integral dm x.type) (r : BitVec 64) :
    CexpTypedVal.at dm x.type.bits ⟨CexpValU.low x.type.baseTypeSize r, x.type⟩ =
      r.setWidth x.type.bits := by
  have hle := hx.facts.size_le.trans (longSize_le dm)
  rw [CexpTypedVal.at, CexpTypedVal.uint, hx.typeSize, low_low hle (Nat.le_refl _)]
  exact setWidth_low hle (Nat.le_refl _) r

/-- Operators on integers of any widths compute as unsigned integers of C do: arithmetic at the
width of the wider operand, negation and complement at the width of the operand. -/
theorem integral_arithmetic (m : Machine) (al : Alias) {x y : CexpTypedVal}
    (hx : Integral m.dm x.type) (hy : Integral m.dm y.type) :
    (∀ op : CexpBinOp, op.Arithmetic → op.Admits (x.type.wider y.type).bits (y.uint m.dm) →
      ∃ r, cexpTVBinOp m al x y op = .ok ⟨r, x.type.wider y.type⟩ ∧
        r.setWidth (x.type.wider y.type).bits =
          unsignedOp op (x.at m.dm (x.type.wider y.type).bits)
            (y.at m.dm (x.type.wider y.type).bits)) ∧
    (∀ op : CexpBinOp, op.Comparison → cexpTVBinOp m .none x y op =
      .ok ⟨ofBool (unsignedCompare op (x.uint m.dm).toNat (y.uint m.dm).toNat), TULong m.dm⟩) ∧
    (∃ n c, cexpTVUnOp m x .ONeg = .ok n ∧ cexpTVUnOp m x .OCpl = .ok c ∧
      n.type = x.type ∧ c.type = x.type ∧
      x.at m.dm x.type.bits + n.at m.dm x.type.bits = 0 ∧
      c.at m.dm x.type.bits = n.at m.dm x.type.bits - 1) := by
  refine ⟨?_, ?_, ?_⟩
  · intro op hop hok
    exact cexpTVBinOp_integral m al hx hy hop hok
  · intro op hop
    exact cexpTVBinOp_compare m hx hy hop
  · have h64 : x.type.bits ≤ 64 :=
      Nat.mul_le_mul_left 8 (hx.facts.size_le.trans (longSize_le m.dm))
    refine ⟨_, _, cexpTVUnOp_neg m hx, cexpTVUnOp_cpl m hx, rfl, rfl, ?_, ?_⟩
    · rw [at_low hx, BitVec.setWidth_neg_of_le h64]
      exact BitVec.add_right_neg _
    · rw [at_low hx, at_low hx, BitVec.setWidth_neg_of_le h64, BitVec.setWidth_not h64,
        BitVec.neg_eq_not_add]
      exact (BitVec.add_sub_cancel _ _).symm

/-- A target without floating point whose shifter reduces the shift count. -/
def softMachine (dm : DataModel) : Machine where
  dm := dm
  fpu := softFpu
  oneShl32 := 1
  wideShl a b := a <<< (b.toNat % 64)
  wideShr a b := a >>> (b.toNat % 64)

/-- `(char)200 * (short)1000` is computed as a `short` and `(char)200 < (short)1000` is true. -/
theorem integral_arithmetic_mixed :
    (∃ r, cexpTVBinOp (softMachine .lp64) .none ⟨200, TUChar⟩ ⟨1000, TUShort⟩ OMul =
        .ok ⟨r, TUShort⟩ ∧ r.setWidth 16 = (3392 : BitVec 16)) ∧
      cexpTVBinOp (softMachine .lp64) .none ⟨200, TUChar⟩ ⟨1000, TUShort⟩ OLt =
        .ok ⟨1, TULong .lp64⟩ := by
  have hx : Integral .lp64 (⟨200, TUChar⟩ : CexpTypedVal).type := by decide
  have hy : Integral .lp64 (⟨1000, TUShort⟩ : CexpTypedVal).type := by decide
  obtain ⟨harith, hcompare, -⟩ := integral_arithmetic (softMachine .lp64) .none hx hy
  exact ⟨harith OMul (by decide) ⟨by decide, by decide⟩, hcompare OLt (by decide)⟩

end Cexp
