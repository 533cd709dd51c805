import Mathlib.Data.BitVec
import Cexp.Ctyps.Total

/-!
# Operands that the engine accepts

When a routine of the engine returns a value and no error, in terms of its operands: almost
always their types decide (`UnOpAccepts`, `ForceAccepts`, `Switched` for a test of the truth).
`BinOpAccepts` looks at the values in three places: an integer next to a `float` must fit into its
mantissa, a pointer difference must be a multiple of the element size, and a divisor must not be
zero (`cexpTVBinOp_ok_iff`).
-/

namespace Cexp

open CexpType CexpBinOp

/-! ## One operand -/

/-- The operands of `-` and of `~`. -/
def UnOpAccepts (dm : DataModel) (op : CexpUnOp) (t : CexpType) : Prop :=
  match op with
  | .ONeg => Switched dm t ∧ t.ptrq = false
  | .OCpl => t.scalarq dm = true ∧ CastDefined dm t (TULong dm)

/-- An explicit cast from `s` to `t`: the types have their converters, and no floating value is
made a pointer. -/
def ForceAccepts (s t : CexpType) : Prop := s.row < 7 ∧ t.row < 7 ∧ (s.row < 5 ∨ t.row ≠ 0)

theorem cexpTVTrueQ_ok_iff (m : Machine) (v : CexpTypedVal) :
    (∃ b, cexpTVTrueQ m v = .ok b) ↔ Switched m.dm v.type := by
  rw [cexpTVTrueQ]
  split_ifs with hptr hchar hshort hint hlong hfloat hdouble
  · exact iff_of_true ⟨_, rfl⟩ (.inl (.inr hptr))
  · exact iff_of_true ⟨_, rfl⟩ (.inl (.inl (by simp [Integral, integralTypes, hchar])))
  · exact iff_of_true ⟨_, rfl⟩ (.inl (.inl (by simp [Integral, integralTypes, hshort])))
  · exact iff_of_true ⟨_, rfl⟩ (.inl (.inl (by simp [Integral, integralTypes, hint])))
  · exact iff_of_true ⟨_, rfl⟩ (.inl (.inl (by simp [Integral, integralTypes, hlong])))
  · exact iff_of_true ⟨_, rfl⟩ (.inr (.inl hfloat))
  · exact iff_of_true ⟨_, rfl⟩ (.inr (.inr hdouble))
  · refine iff_of_false (by rintro ⟨_, ⟨⟩⟩) ?_
    rintro ((hu | hu) | hf | hd)
    · simp [Integral, integralTypes, hchar, hshort, hint, hlong] at hu
    · exact hptr hu
    · exact hfloat hf
    · exact hdouble hd

theorem switched_numeric {dm : DataModel} {t : CexpType} :
    Switched dm t ∧ t.ptrq = false ↔
      t = TUChar ∨ t = TUShort ∨ t = TUInt ∨ t = TULong dm ∨ t = TFloat ∨ t = TDouble := by
  constructor
  · rintro ⟨(hu | hp) | hf | hd, hptr⟩
    · simp only [Integral, integralTypes, List.mem_cons, List.not_mem_nil, or_false] at hu
      tauto
    · rw [hp] at hptr
      cases hptr
    · tauto
    · tauto
  · intro h
    have hnot : ∀ dm, ∀ t ∈ [TUChar, TUShort, TUInt, TULong dm, TFloat, TDouble],
        Switched dm t ∧ t.ptrq = false := by
      intro dm
      cases dm <;> decide
    exact hnot dm t (by simpa using h)

theorem cexpTVUnOp_ok_iff (m : Machine) (v : CexpTypedVal) (op : CexpUnOp) :
    (∃ r, cexpTVUnOp m v op = .ok r) ↔ UnOpAccepts m.dm op v.type := by
  cases op with
  | ONeg =>
    rw [UnOpAccepts, switched_numeric, cexpTVUnOp]
    split_ifs <;> simp_all
  | OCpl =>
    rw [UnOpAccepts, cexpTVUnOp]
    cases hscalar : v.type.scalarq m.dm with
    | false => simp
    | true =>
      by_cases hcast : CastDefined m.dm v.type (TULong m.dm)
      · refine iff_of_true ?_ ⟨rfl, hcast⟩
        rw [scalarCast_ulong m hscalar hcast]
        exact ⟨_, ulongCast_scalar m hscalar _⟩
      · refine iff_of_false ?_ fun h => hcast h.2
        obtain ⟨e, he⟩ := compareCast_fault (f := false) m hcast
        have he' : cexpTypeCast m v (TULong m.dm) false = .error (.fault e) := he
        rw [he']
        rintro ⟨_, ⟨⟩⟩

/-- The converter matrix has no entry only from a floating type to a pointer or `void`. -/
theorem ctab_isSome_iff (m : Machine) {s t : CexpType} (hs : s.row < 7) :
    (∃ c, ctab m s.row t.row = some c) ↔ s.row < 5 ∨ t.row ≠ 0 := by
  by_cases hback : s.row < 5 ∨ t.row ≠ 0
  · refine iff_of_true ?_ hback
    by_cases hsmall : s.row ≤ 4
    · apply ctab_isSome
      rintro ⟨-, hfp⟩
      have hrow := fpq_iff_row.mp hfp
      omega
    · have hzero : t.row ≠ 0 := hback.resolve_left (by omega)
      rw [ctab, if_neg hsmall]
      split_ifs <;> exact ⟨_, rfl⟩
  · refine iff_of_false ?_ hback
    rw [not_or, not_not] at hback
    obtain ⟨hlarge, hzero⟩ := hback
    rw [ctab, if_neg (by omega), hzero]
    split_ifs <;> simp_all

theorem cexpTypeCast_force_ok_iff (m : Machine) (v : CexpTypedVal) (t : CexpType) :
    (∃ r, cexpTypeCast m v t true = .ok r) ↔ ForceAccepts v.type t := by
  by_cases hptr : v.type.ptrq = true ∧ t.ptrq = true
  · refine iff_of_true ?_ ?_
    · rw [cexpTypeCast_ptrs m true hptr]
      exact ⟨_, rfl⟩
    · have hv : v.type.row = 0 := by rw [row, hptr.1]; rfl
      have ht : t.row = 0 := by rw [row, hptr.2]; rfl
      rw [ForceAccepts, hv, ht]
      decide
  · rw [cexpTypeCast_eq m v t true hptr, ForceAccepts]
    by_cases hrows : 7 ≤ v.type.row ∨ 7 ≤ t.row
    · rw [if_pos hrows]
      exact iff_of_false (by rintro ⟨_, ⟨⟩⟩) (by omega)
    · rw [if_neg hrows, ← and_assoc, and_iff_right (by omega), ← ctab_isSome_iff m (by omega)]
      cases hc : ctab m v.type.row t.row with
      | none => exact iff_of_false (by rintro ⟨_, ⟨⟩⟩) (by rintro ⟨_, ⟨⟩⟩)
      | some c => exact iff_of_true ⟨_, rfl⟩ ⟨_, rfl⟩

/-- An implicit cast that is no cast of a pointer to a pointer. -/
theorem implicitCast_ok_iff (m : Machine) {v : CexpTypedVal} {t : CexpType}
    (hptr : ¬(v.type.ptrq = true ∧ t.ptrq = true)) :
    (∃ r, cexpTypeCast m v t false = .ok r) ↔
      (v.type.row < 7 ∧ t.row < 7) ∧ fits m v t = .ok true := by
  by_cases hrows : 7 ≤ v.type.row ∨ 7 ≤ t.row
  · rw [cexpTypeCast_eq m v t false hptr, if_pos hrows]
    exact iff_of_false (by rintro ⟨_, ⟨⟩⟩) fun h => by omega
  · rw [and_iff_right (by omega)]
    cases hc : ctab m v.type.row t.row with
    | some c =>
      rw [cexpTypeCast_fits m hptr hrows hc]
      cases fits m v t with
      | error e => exact iff_of_false (by rintro ⟨_, ⟨⟩⟩) (by rintro ⟨⟩)
      | ok b =>
        cases b with
        | true => exact iff_of_true ⟨_, rfl⟩ rfl
        | false => exact iff_of_false (by rintro ⟨_, ⟨⟩⟩) (by rintro ⟨⟩)
    | none =>
      rw [cexpTypeCast_eq m v t false hptr, if_neg hrows, hc]
      refine iff_of_false (by rintro ⟨_, ⟨⟩⟩) fun hfits => ?_
      -- a floating value never fits into a type that is not floating
      have hback : ¬(t.fpq = false ∧ v.type.fpq = true) := by
        rintro ⟨ht, hv⟩
        rw [fits_eq, ht, hv] at hfits
        cases hfits
      obtain ⟨c, hsome⟩ := ctab_isSome m hback
      cases hc.symm.trans hsome

/-! ## Two operands -/

/-- A comparison: no pointer next to a floating number, and both have their converters. -/
structure CompareAccepts (dm : DataModel) (op : CexpBinOp) (s t : CexpType) : Prop where
  comparison : op.Comparison
  comparable : ¬((s.fpq || t.fpq) && (s.ptrq || t.ptrq)) = true
  first : CastDefined dm s (compareType dm (s.fpq || t.fpq))
  second : CastDefined dm t (compareType dm (s.fpq || t.fpq))

/-- The difference of two pointers: one type, and a multiple of its element size. -/
structure DifferenceAccepts (dm : DataModel) (op : CexpBinOp) (x y : CexpTypedVal) : Prop where
  sub : op = OSub
  same : x.type = y.type
  sized : x.type.baseTypeSize ≠ 0
  aligned : (CexpValU.l dm (CexpValU.p dm x.tv - CexpValU.p dm y.tv)).toNat %
    x.type.baseTypeSize = 0

/-- The steps that a pointer is moved by. -/
def StepAccepts (dm : DataModel) (t : CexpType) : Prop :=
  t.fpq = false ∧ CastDefined dm t (TULong dm)

/-- Arithmetic on two numbers. The smaller one must fit into the type of the other; integers
divide by nonzero ones, and floating numbers have the four basic operators. -/
structure ArithmeticAccepts (m : Machine) (op : CexpBinOp) (x y : CexpTypedVal) : Prop where
  rows : (smallOperand x y).type.row < 7 ∧ (bigOperand x y).type.row < 7
  fits : fits m (smallOperand x y) (bigOperand x y).type = .ok true
  scalar : (bigOperand x y).type.scalarq m.dm = true →
    CastDefined m.dm (bigOperand x y).type (TULong m.dm) ∧
      (op = ODiv ∨ op = OMod → secondOperand m.dm x y ≠ 0)
  floating : (bigOperand x y).type = TFloat ∨ (bigOperand x y).type = TDouble →
    op = OAdd ∨ op = OSub ∨ op = OMul ∨ op = ODiv

/-- The operands of a binary operator. -/
def BinOpAccepts (m : Machine) (op : CexpBinOp) (x y : CexpTypedVal) : Prop :=
  if op.Arithmetic then
    match x.type.ptrq, y.type.ptrq with
    | true, true => DifferenceAccepts m.dm op x y
    | true, false => (op = OAdd ∨ op = OSub) ∧ StepAccepts m.dm y.type
    | false, true => op = OAdd ∧ StepAccepts m.dm x.type
    | false, false => ArithmeticAccepts m op x y
  else CompareAccepts m.dm op x.type y.type

/-! ## Binary operators -/

theorem compareUInt_ok_iff (op : CexpBinOp) (a b : BitVec 64) :
    (∃ r, compareUInt op a b = .ok r) ↔ op.Comparison := by
  cases op with
  | OLt | OLe | OEq | ONe | OGe | OGt => exact iff_of_true ⟨_, rfl⟩ (by decide)
  | _ => exact iff_of_false (by rintro ⟨_, ⟨⟩⟩) (by decide)

theorem compareD_ok_iff (fpu : Fpu) (op : CexpBinOp) (a b : BitVec 64) :
    (∃ r, compareD fpu op a b = .ok r) ↔ op.Comparison := by
  cases op with
  | OLt | OLe | OEq | ONe | OGe | OGt => exact iff_of_true ⟨_, rfl⟩ (by decide)
  | _ => exact iff_of_false (by rintro ⟨_, ⟨⟩⟩) (by decide)

/-- A step that is defined and whose rest succeeds. -/
theorem exists_bind_ok {α β : Type} {x : Except Stop α} {f : α → Except Stop β} {a : α}
    (hx : x = .ok a) : (∃ r, (x >>= f) = .ok r) ↔ ∃ r, f a = .ok r := by
  rw [hx]
  rfl

theorem not_exists_bind_ok {α β : Type} {x : Except Stop α} {f : α → Except Stop β} {e : Stop}
    (hx : x = .error e) : ¬∃ r, (x >>= f) = .ok r := by
  rw [hx]
  rintro ⟨_, ⟨⟩⟩

theorem exists_bind_pure_ok {α β : Type} (f : α → β) (x : Except Stop α) :
    (∃ r, (x >>= fun a => Except.ok (f a)) = .ok r) ↔ ∃ a, x = .ok a := by
  cases x with
  | error e => exact iff_of_false (by rintro ⟨_, ⟨⟩⟩) (by rintro ⟨_, ⟨⟩⟩)
  | ok a => exact iff_of_true ⟨_, rfl⟩ ⟨_, rfl⟩

theorem compare_ok_iff (m : Machine) (x y : CexpTypedVal) (op : CexpBinOp) :
    (∃ r, compare m .none x y op = .ok r) ↔ CompareAccepts m.dm op x.type y.type := by
  by_cases hrefused : ((x.type.fpq || y.type.fpq) && (x.type.ptrq || y.type.ptrq)) = true
  · refine iff_of_false ?_ fun h => h.comparable hrefused
    rw [compare, if_pos hrefused]
    rintro ⟨_, ⟨⟩⟩
  · have hnone : ∀ v : CexpTypedVal, (⟨v.tv, retyped m.dm (Alias.none = Alias.x1) v.type⟩ :
        CexpTypedVal) = v ∧ (⟨v.tv, retyped m.dm (Alias.none = Alias.x2) v.type⟩ :
        CexpTypedVal) = v := fun _ => ⟨rfl, rfl⟩
    rw [compare_eq m hrefused, (hnone x).1, (hnone y).2]
    have hxf : x.type.fpq = true → (x.type.fpq || y.type.fpq) = true := fun h => by simp [h]
    have hyf : y.type.fpq = true → (x.type.fpq || y.type.fpq) = true := fun h => by simp [h]
    by_cases hx : CastDefined m.dm x.type (compareType m.dm (x.type.fpq || y.type.fpq))
    · obtain ⟨a, ha⟩ := compareCast_ok m hxf hx
      rw [exists_bind_ok ha]
      by_cases hy : CastDefined m.dm y.type (compareType m.dm (x.type.fpq || y.type.fpq))
      · obtain ⟨b, hb⟩ := compareCast_ok m hyf hy
        rw [exists_bind_ok hb, exists_bind_pure_ok]
        have hop : (∃ r, (if x.type.fpq || y.type.fpq then compareD m.fpu op (CexpValU.d a)
            (CexpValU.d b) else compareUInt op (CexpValU.l m.dm a) (CexpValU.l m.dm b)) = .ok r) ↔
              op.Comparison := by
          split_ifs
          · exact compareD_ok_iff _ _ _ _
          · exact compareUInt_ok_iff _ _ _
        rw [hop]
        exact ⟨fun h => ⟨h, hrefused, hx, hy⟩, fun h => h.comparison⟩
      · obtain ⟨e, he⟩ := compareCast_fault m hy
        exact iff_of_false (not_exists_bind_ok he) fun h => hy h.second
    · obtain ⟨e, he⟩ := compareCast_fault m hx
      exact iff_of_false (not_exists_bind_ok he) fun h => hx h.first

theorem stepPointer_ok_iff (m : Machine) (ptr inc : CexpTypedVal) {op : CexpBinOp}
    (hop : op.Arithmetic) :
    (∃ r, stepPointer m ptr inc op = .ok r) ↔
      (op = OAdd ∨ op = OSub) ∧ StepAccepts m.dm inc.type := by
  have hstep : op.code ≤ OSub.code ↔ op = OAdd ∨ op = OSub := by
    cases op with
    | OAdd | OSub => exact iff_of_true (by decide) (by decide)
    | ONoop | OLt | OLe | OEq | ONe | OGe | OGt => exact absurd hop (by decide)
    | _ => exact iff_of_false (by decide) (by decide)
  rw [stepPointer, ← hstep]
  by_cases hcode : OSub.code < op.code
  · rw [if_pos hcode]
    exact iff_of_false (by rintro ⟨_, ⟨⟩⟩) fun h => absurd h.1 (not_le.mpr hcode)
  · rw [if_neg hcode, and_iff_right (not_lt.mp hcode), StepAccepts]
    have hcast : (∃ r, cexpTypeCast m inc (TULong m.dm) false = .ok r) ↔
        inc.type.fpq = false ∧ CastDefined m.dm inc.type (TULong m.dm) := by
      by_cases hdef : CastDefined m.dm inc.type (TULong m.dm)
      · rw [and_iff_left hdef]
        cases hfp : inc.type.fpq with
        | false =>
          obtain ⟨c, hc⟩ := compareCast_ok (f := false) m (fun h => absurd h (by simp [hfp])) hdef
          exact iff_of_true ⟨_, hc⟩ rfl
        | true =>
          refine iff_of_false ?_ Bool.noConfusion
          have hlong := (integral_ulong m.dm).facts
          rw [implicitCast_ok_iff m (not_both_of_right hlong.ptrq), fits_eq, hfp, hlong.fpq]
          rintro ⟨-, ⟨⟩⟩
      · obtain ⟨e, he⟩ := compareCast_fault (f := false) m hdef
        refine iff_of_false ?_ fun h => hdef h.2
        rintro ⟨r, hr⟩
        cases he.symm.trans hr
    rw [← hcast]
    cases hc : cexpTypeCast m inc (TULong m.dm) false with
    | ok v => exact iff_of_true ⟨_, rfl⟩ ⟨_, rfl⟩
    | error stop => cases stop <;> exact iff_of_false (by rintro ⟨_, ⟨⟩⟩) (by rintro ⟨_, ⟨⟩⟩)

theorem subPointers_ok_iff (m : Machine) (x y : CexpTypedVal) :
    (∃ r, subPointers m .none x y = .ok r) ↔ x.type.baseTypeSize ≠ 0 ∧
      (CexpValU.l m.dm (CexpValU.p m.dm x.tv - CexpValU.p m.dm y.tv)).toNat %
        x.type.baseTypeSize = 0 := by
  have hnone : (if Alias.none = Alias.x1 then TULong m.dm else x.type) = x.type := rfl
  simp only [subPointers, hnone]
  split_ifs with hsize haligned
  · exact iff_of_false (by rintro ⟨_, ⟨⟩⟩) fun h => h.1 hsize
  · exact iff_of_false (by rintro ⟨_, ⟨⟩⟩) fun h => haligned h.2
  · exact iff_of_true ⟨_, rfl⟩ ⟨hsize, not_not.mp haligned⟩

theorem binopUInt_ok_iff (m : Machine) {op : CexpBinOp} (hop : op.Arithmetic) (a b : BitVec 64) :
    (∃ r, binopUInt m op a b = .ok r) ↔ (op = ODiv ∨ op = OMod → b ≠ 0) := by
  cases op with
  | ODiv | OMod =>
    rw [binopUInt]
    split_ifs with hzero
    · exact iff_of_false (by rintro ⟨_, ⟨⟩⟩) fun h => h (by decide) hzero
    · exact iff_of_true ⟨_, rfl⟩ fun _ => hzero
  | ONoop | OLt | OLe | OEq | ONe | OGe | OGt => exact absurd hop (by decide)
  | _ => exact iff_of_true ⟨_, rfl⟩ fun h => absurd h (by decide)

theorem floating_ok_iff (m : Machine) (z : CexpTypedVal) {v w : CexpTypedVal} {op : CexpBinOp}
    (hop : op.Arithmetic) (hvw : w.type = v.type) (hptr : v.type.ptrq = false)
    (hscalar : v.type.scalarq m.dm = false) :
    (∃ r, binop m z v w op = .ok r) ↔ (v.type = TFloat ∨ v.type = TDouble →
      op = OAdd ∨ op = OSub ∨ op = OMul ∨ op = ODiv) := by
  rw [binop, if_neg (binop_asserted hvw hptr), hscalar, if_neg Bool.false_ne_true]
  split_ifs with hfloat hdouble
  · rw [imp_iff_right (.inl hfloat)]
    cases op with
    | OAdd | OSub | OMul | ODiv => exact iff_of_true ⟨_, rfl⟩ (by decide)
    | _ => exact iff_of_false (by rintro ⟨_, ⟨⟩⟩) (by decide)
  · rw [imp_iff_right (.inr hdouble)]
    cases op with
    | OAdd | OSub | OMul | ODiv => exact iff_of_true ⟨_, rfl⟩ (by decide)
    | _ => exact iff_of_false (by rintro ⟨_, ⟨⟩⟩) (by decide)
  · exact iff_of_true ⟨_, rfl⟩ fun h => absurd h (not_or.mpr ⟨hfloat, hdouble⟩)

/-- A scalar is no floating number. -/
theorem not_floating_of_scalarq {dm : DataModel} {t : CexpType} (h : t.scalarq dm = true) :
    ¬(t = TFloat ∨ t = TDouble) := by
  have hfp := (scalarq_facts h).2.1
  rintro (rfl | rfl)
  · cases hfp
  · cases hfp

theorem arithmetic_ok_iff (m : Machine) {x y : CexpTypedVal} {op : CexpBinOp}
    (hx : x.type.ptrq = false) (hy : y.type.ptrq = false) (hop : op.Arithmetic) :
    (∃ r, cexpTVBinOp m .none x y op = .ok r) ↔ ArithmeticAccepts m op x y := by
  obtain ⟨hsmallp, hbigp, hfpq, -⟩ := big_small m.dm hx hy
  have hnot : ¬((smallOperand x y).type.ptrq = true ∧ (bigOperand x y).type.ptrq = true) :=
    not_both_of_left hsmallp
  have hcast := implicitCast_ok_iff m (v := smallOperand x y) (t := (bigOperand x y).type) hnot
  rw [arithmetic_eq m .none hx hy hop]
  cases hc : cexpTypeCast m (smallOperand x y) (bigOperand x y).type false with
  | error e =>
    refine iff_of_false (by rintro ⟨_, ⟨⟩⟩) fun h => ?_
    obtain ⟨r, hr⟩ := hcast.mpr ⟨h.rows, h.fits⟩
    cases hc.symm.trans hr
  | ok c =>
    obtain ⟨hrows, hfits⟩ := hcast.mp ⟨c, hc⟩
    obtain ⟨hv, hw⟩ := promoted_type (cexpTypeCast_type hc)
    have hvw := hw.trans hv.symm
    show (∃ r, binop m x _ _ op = .ok r) ↔ _
    cases hscalar : (bigOperand x y).type.scalarq m.dm with
    | false =>
      rw [floating_ok_iff m x hop hvw (hv ▸ hbigp) (hv ▸ hscalar), hv]
      exact ⟨fun h => ⟨hrows, hfits, fun hs => absurd (hscalar.symm.trans hs) Bool.false_ne_true, h⟩,
        fun h => h.floating⟩
    | true =>
      have hsmall : (smallOperand x y).type.row ≤ 4 := by
        by_contra hlarge
        have hbig := fpq_iff_row.mp (hfpq (fpq_iff_row.mpr (by omega)))
        have hfour := (scalarq_facts hscalar).2.2.2
        omega
      have hrow := (scalarq_facts hscalar).2.2.2
      by_cases hdef : CastDefined m.dm (bigOperand x y).type (TULong m.dm)
      · have hsecond : readUInt m.dm (bigOperand x y).type.row
            (if secondIsBig x.type y.type then y else c).tv = secondOperand m.dm x y := by
          obtain ⟨conv, hconv⟩ := (ctab_isSome_iff m (s := (smallOperand x y).type)
            (t := (bigOperand x y).type) hrows.1).mpr (.inl (by omega))
          rw [cexpTypeCast_fits m hnot (by omega) hconv, hfits] at hc
          rw [← Except.ok.inj hc]
          exact readUInt_promoted m hsmall hrow hconv
        rw [binop_scalar m x (hv ▸ hscalar) hvw (hv ▸ hdef), hv, hsecond]
        rw [exists_bind_pure_ok, binopUInt_ok_iff m hop]
        exact ⟨fun h => ⟨hrows, hfits, fun _ => ⟨hdef, h⟩,
          fun hf => absurd hf (not_floating_of_scalarq hscalar)⟩, fun h => (h.scalar hscalar).2⟩
      · obtain ⟨e, he⟩ := binop_scalar_fault m x op hv hw hscalar hdef
        refine iff_of_false ?_ fun h => hdef (h.scalar hscalar).1
        rintro ⟨r, hr⟩
        cases he.symm.trans hr

/-- When a binary operator returns a value. -/
theorem cexpTVBinOp_ok_iff (m : Machine) (x y : CexpTypedVal) (op : CexpBinOp) :
    (∃ r, cexpTVBinOp m .none x y op = .ok r) ↔ BinOpAccepts m op x y := by
  by_cases hop : op.Arithmetic
  · rw [BinOpAccepts, if_pos hop]
    have hcmp : ¬OAdd.code > op.code := not_lt.mpr hop
    cases hx : x.type.ptrq with
    | false =>
      cases hy : y.type.ptrq with
      | false => exact arithmetic_ok_iff m hx hy hop
      | true =>
        rw [cexpTVBinOp, if_neg hcmp, hx, hy]
        by_cases hsub : op = OSub
        · rw [hsub]
          exact iff_of_false (by rintro ⟨_, ⟨⟩⟩) fun h => absurd h.1 (by decide)
        · have hstep := stepPointer_ok_iff m y x hop
          rw [or_iff_left hsub] at hstep
          simp only [Bool.false_eq_true, if_false, if_true, hsub]
          exact hstep
    | true =>
      cases hy : y.type.ptrq with
      | false =>
        rw [cexpTVBinOp, if_neg hcmp, hx, hy]
        exact stepPointer_ok_iff m x y hop
      | true =>
        rw [cexpTVBinOp, if_neg hcmp, hx, hy]
        simp only [if_true]
        split_ifs with htype hsub
        · exact iff_of_false (by rintro ⟨_, ⟨⟩⟩) fun h => htype h.same
        · exact iff_of_false (by rintro ⟨_, ⟨⟩⟩) fun h => hsub h.sub
        · rw [subPointers_ok_iff]
          exact ⟨fun h => ⟨not_not.mp hsub, not_not.mp htype, h.1, h.2⟩,
            fun h => ⟨h.sized, h.aligned⟩⟩
  · rw [BinOpAccepts, if_neg hop, cexpTVBinOp, if_pos (not_le.mp hop)]
    exact compare_ok_iff m x y op

end Cexp
