import Mathlib.Data.BitVec
import Cexp.Ctyps.Defined

/-!
# Which operations are defined

`binOp_defined_iff` says when a binary operation is defined, `binOp_defined_declared` what is left
of that condition for the types of the enumeration: the element size of a pointer difference, the
divisor and the shift count.
-/

namespace Cexp

open CexpType CexpBinOp

variable {dm : DataModel}

/-! ## Comparisons -/

/-- The comparisons of two numbers do not fault. -/
theorem compareUInt_defined (m : Machine) (op : CexpBinOp) (a b : BitVec 64) :
    Defined (fun _ => compareUInt op a b) m := by
  cases op with
  | OLt | OLe | OEq | ONe | OGe | OGt => exact defined_ok fun _ _ _ => rfl
  | _ => exact defined_message _ fun _ _ _ => rfl

theorem compareD_defined (m : Machine) (op : CexpBinOp) (a b : BitVec 64) :
    Defined (fun m => compareD m.fpu op a b) m := by
  cases op with
  | OLt => exact defined_ok (a := m.fpu.ltD a b) fun _ _ _ => rfl
  | OLe => exact defined_ok (a := m.fpu.leD a b) fun _ _ _ => rfl
  | OEq => exact defined_ok (a := m.fpu.eqD a b) fun _ _ _ => rfl
  | ONe => exact defined_ok (a := !m.fpu.eqD a b) fun _ _ _ => rfl
  | OGe => exact defined_ok (a := m.fpu.leD b a) fun _ _ _ => rfl
  | OGt => exact defined_ok (a := m.fpu.ltD b a) fun _ _ _ => rfl
  | _ => exact defined_message _ fun _ _ _ => rfl

/-- The type of an operand after the result's type was written. -/
def retyped (dm : DataModel) (aliased : Prop) [Decidable aliased] (t : CexpType) : CexpType :=
  if aliased then TULong dm else t

/-- A comparison is refused, or both casts are defined. -/
def CompareDefined (dm : DataModel) (al : Alias) (s t : CexpType) : Prop :=
  ((s.fpq || t.fpq) && (s.ptrq || t.ptrq)) = true ∨
    CastDefined dm (retyped dm (al = .x1) s) (compareType dm (s.fpq || t.fpq)) ∧
      CastDefined dm (retyped dm (al = .x2) t) (compareType dm (s.fpq || t.fpq))

theorem retyped_fpq {aliased : Prop} [Decidable aliased] {t : CexpType}
    (h : (retyped dm aliased t).fpq = true) : t.fpq = true := by
  unfold retyped at h
  split at h
  · rw [(integral_ulong dm).facts.fpq] at h
    cases h
  · exact h

/-- A comparison that is not refused. -/
theorem compare_eq (m : Machine) {al : Alias} {x y : CexpTypedVal} {op : CexpBinOp}
    (h : ¬((x.type.fpq || y.type.fpq) && (x.type.ptrq || y.type.ptrq)) = true) :
    compare m al x y op =
      (cexpTypeCast m ⟨x.tv, retyped m.dm (al = .x1) x.type⟩
          (compareType m.dm (x.type.fpq || y.type.fpq)) false >>= fun a =>
        cexpTypeCast m ⟨y.tv, retyped m.dm (al = .x2) y.type⟩
            (compareType m.dm (x.type.fpq || y.type.fpq)) false >>= fun b =>
          (if x.type.fpq || y.type.fpq then compareD m.fpu op (CexpValU.d a.tv) (CexpValU.d b.tv)
            else compareUInt op (CexpValU.l m.dm a.tv) (CexpValU.l m.dm b.tv)) >>= fun r =>
            .ok ⟨ofBool r, TULong m.dm⟩) := by
  rw [compare, if_neg h]
  cases x.type.fpq || y.type.fpq with
  | true => cases al <;> rfl
  | false => cases al <;> rfl

theorem compare_defined_iff (m : Machine) (al : Alias) (x y : CexpTypedVal) (op : CexpBinOp) :
    Defined (fun m => compare m al x y op) m ↔ CompareDefined m.dm al x.type y.type := by
  by_cases hrefused : ((x.type.fpq || y.type.fpq) && (x.type.ptrq || y.type.ptrq)) = true
  · refine iff_of_true ?_ (.inl hrefused)
    apply defined_message _
    intro k l r
    exact if_pos hrefused
  · -- the two operands and the type as they are on every target
    obtain ⟨v, hv⟩ : ∃ v : CexpTypedVal, v = ⟨x.tv, retyped m.dm (al = .x1) x.type⟩ := ⟨_, rfl⟩
    obtain ⟨w, hw⟩ : ∃ w : CexpTypedVal, w = ⟨y.tv, retyped m.dm (al = .x2) y.type⟩ := ⟨_, rfl⟩
    obtain ⟨f, hf⟩ : ∃ f, f = (x.type.fpq || y.type.fpq) := ⟨_, rfl⟩
    obtain ⟨t, ht⟩ : ∃ t, t = compareType m.dm f := ⟨_, rfl⟩
    have hvf : v.type.fpq = true → f = true := by
      rw [hv, hf, Bool.or_eq_true]
      exact fun h => .inl (retyped_fpq h)
    have hwf : w.type.fpq = true → f = true := by
      rw [hw, hf, Bool.or_eq_true]
      exact fun h => .inr (retyped_fpq h)
    have hrun : ∀ k l r, compare (m.reopen k l r) al x y op =
        (cexpTypeCast (m.reopen k l r) v t false >>= fun a =>
          cexpTypeCast (m.reopen k l r) w t false >>= fun b =>
            (if f then compareD (m.reopen k l r).fpu op (CexpValU.d a.tv) (CexpValU.d b.tv)
              else compareUInt op (CexpValU.l m.dm a.tv) (CexpValU.l m.dm b.tv)) >>= fun r =>
              .ok (⟨ofBool r, TULong m.dm⟩ : CexpTypedVal)) := by
      intro k l r
      rw [compare_eq _ hrefused, hv, hw, ht, hf]
      rfl
    have hcond : CompareDefined m.dm al x.type y.type ↔
        CastDefined m.dm v.type t ∧ CastDefined m.dm w.type t := by
      rw [CompareDefined, or_iff_right hrefused, hv, hw, ht, hf]
    rw [defined_congr (p := fun m' => cexpTypeCast m' v t false >>= fun a =>
      cexpTypeCast m' w t false >>= fun b =>
        (if f then compareD m'.fpu op (CexpValU.d a.tv) (CexpValU.d b.tv)
          else compareUInt op (CexpValU.l m.dm a.tv) (CexpValU.l m.dm b.tv)) >>= fun r =>
          .ok (⟨ofBool r, TULong m.dm⟩ : CexpTypedVal)) hrun, hcond]
    by_cases hcv : CastDefined m.dm v.type t
    · obtain ⟨a, ha⟩ := compareCast_ok m hvf (ht ▸ hcv)
      rw [← ht] at ha
      rw [(compareCast_defined m ht hcv).bind_iff ha]
      by_cases hcw : CastDefined m.dm w.type t
      · obtain ⟨b, hb⟩ := compareCast_ok m hwf (ht ▸ hcw)
        rw [← ht] at hb
        rw [(compareCast_defined m ht hcw).bind_iff hb]
        refine iff_of_true ?_ ⟨hcv, hcw⟩
        refine Defined.bind (f := fun m' => if f then compareD m'.fpu op a b
          else compareUInt op (CexpValU.l m.dm a) (CexpValU.l m.dm b)) ?_ ?_
        · cases f with
          | true => exact compareD_defined m op a b
          | false => exact compareUInt_defined m op _ _
        · intro r _
          exact defined_ok fun _ _ _ => rfl
      · obtain ⟨e, he⟩ := compareCast_fault m (ht ▸ hcw)
        rw [← ht] at he
        exact iff_of_false (not_defined_bind_of_fault (f := fun m => cexpTypeCast m w t false) he)
          fun h => hcw h.2
    · obtain ⟨e, he⟩ := compareCast_fault m (ht ▸ hcv)
      rw [← ht] at he
      exact iff_of_false (not_defined_bind_of_fault (f := fun m => cexpTypeCast m v t false) he)
        fun h => hcv h.1

/-! ## Pointers -/

/-- The size by which a pointer difference is divided. -/
theorem subPointers_defined_iff (m : Machine) (al : Alias) (x y : CexpTypedVal) :
    Defined (fun m => subPointers m al x y) m ↔
      (retyped m.dm (al = .x1) x.type).baseTypeSize ≠ 0 := by
  constructor
  · intro h hzero
    exact h.noFault .divisionByZero (if_pos hzero)
  · intro hsize
    have hrun : ∀ k l r, subPointers (m.reopen k l r) al x y = subPointers m al x y :=
      fun _ _ _ => rfl
    apply defined_of_eq _ hrun
    intro e he
    have hne : ¬(if al = .x1 then TULong m.dm else x.type).baseTypeSize = 0 := hsize
    unfold subPointers at he
    dsimp only at he
    rw [if_neg hne] at he
    by_cases hmod : (CexpValU.l m.dm (CexpValU.p m.dm x.tv - CexpValU.p m.dm y.tv)).toNat %
        (if al = .x1 then TULong m.dm else x.type).baseTypeSize = 0
    · rw [if_neg (not_not.mpr hmod)] at he
      cases he
    · rw [if_pos hmod] at he
      cases he

theorem stepPointer_defined_iff (m : Machine) {ptr inc : CexpTypedVal} {op : CexpBinOp}
    (hop : op.code ≤ OSub.code) :
    Defined (fun m => stepPointer m ptr inc op) m ↔ CastDefined m.dm inc.type (TULong m.dm) := by
  have hnot : ¬OSub.code < op.code := not_lt.mpr hop
  constructor
  · intro h
    by_contra hcast
    obtain ⟨e, he⟩ := compareCast_fault (f := false) m hcast
    have hfault : stepPointer m ptr inc op = .error (.fault e) := by
      have he' : cexpTypeCast m inc (TULong m.dm) false = .error (.fault e) := he
      rw [stepPointer, if_neg hnot, he']
    exact h.noFault e hfault
  · intro hcast
    obtain ⟨t, ht⟩ : ∃ t, t = compareType m.dm false := ⟨_, rfl⟩
    have hdefined : Defined (fun m => cexpTypeCast m inc t false) m :=
      compareCast_defined m ht (by rwa [ht])
    have hagree : ∀ k l r, cexpTypeCast (m.reopen k l r) inc (TULong m.dm) false =
        cexpTypeCast m inc (TULong m.dm) false := by
      rw [ht] at hdefined
      exact hdefined.agrees
    cases hc : cexpTypeCast m inc (TULong m.dm) false with
    | error stop =>
      cases stop with
      | fault e =>
        rw [ht] at hdefined
        exact absurd hc (hdefined.noFault e)
      | error msg =>
        apply defined_message "invalid operator or pointer increment"
        intro k l r
        have hc' : cexpTypeCast (m.reopen k l r) inc (TULong (m.reopen k l r).dm) false =
            .error (.error msg) := (hagree k l r).trans hc
        rw [stepPointer, if_neg hnot, hc']
    | ok v =>
      apply defined_ok (a := ⟨CexpValU.p m.dm (if op = OSub
        then CexpValU.p m.dm ptr.tv - CexpValU.l m.dm v.tv * BitVec.ofNat 64 ptr.type.baseTypeSize
        else CexpValU.p m.dm ptr.tv +
          CexpValU.l m.dm v.tv * BitVec.ofNat 64 ptr.type.baseTypeSize), ptr.type⟩)
      intro k l r
      have hc' : cexpTypeCast (m.reopen k l r) inc (TULong (m.reopen k l r).dm) false = .ok v :=
        (hagree k l r).trans hc
      rw [stepPointer, if_neg hnot, hc']
      rfl

/-! ## Arithmetic of one scalar type -/

/-- Every member of the union that an integer is cut to is a low part of it. -/
theorem truncUInt_eq_low (dm : DataModel) (k : Nat) :
    ∃ n, n ≤ dm.longSize ∧ ∀ u, truncUInt dm k u = CexpValU.low n u := by
  have hint : 4 ≤ dm.longSize := by
    cases dm <;> decide
  match k with
  | 0 => exact ⟨dm.longSize, le_refl _, fun _ => rfl⟩
  | 1 => exact ⟨1, by omega, fun _ => rfl⟩
  | 2 => exact ⟨2, by omega, fun _ => rfl⟩
  | 3 => exact ⟨4, hint, fun _ => rfl⟩
  | k + 4 => exact ⟨dm.longSize, le_refl _, fun _ => rfl⟩

theorem truncUInt_truncUInt (dm : DataModel) (k : Nat) (u : BitVec 64) :
    truncUInt dm k (truncUInt dm k u) = truncUInt dm k u := by
  obtain ⟨n, hn, h⟩ := truncUInt_eq_low dm k
  rw [h, h, low_low (hn.trans (longSize_le dm)) (le_refl _)]

theorem l_truncUInt (dm : DataModel) (k : Nat) (u : BitVec 64) :
    CexpValU.l dm (truncUInt dm k u) = truncUInt dm k u := by
  obtain ⟨n, hn, h⟩ := truncUInt_eq_low dm k
  rw [h]
  exact low_low_of_le (longSize_le dm) hn u

/-- What the macros say of a scalar type. -/
theorem scalarq_facts {t : CexpType} (h : t.scalarq dm = true) :
    t.ptrq = false ∧ t.fpq = false ∧ 0 < t.row ∧ t.row ≤ 4 := by
  rw [CexpType.scalarq, Bool.and_eq_true, Bool.and_eq_true, Bool.not_eq_true'] at h
  obtain ⟨⟨hptr, hlow⟩, hhigh⟩ := h
  have hrow : t.row = t.indx := by
    rw [row, hptr]
    rfl
  have hlow' : 1 ≤ t.indx := of_decide_eq_true hlow
  have hhigh' : t.indx ≤ 4 := by
    have hle := of_decide_eq_true hhigh
    cases dm <;> exact hle
  refine ⟨hptr, ?_, by omega, by omega⟩
  by_contra hfp
  have hfive := fpq_iff_row.mp (by simpa using hfp)
  omega

theorem row_ulong (dm : DataModel) : (TULong dm).row = 4 := by
  cases dm <;> rfl

theorem scalarCast_ulong (m : Machine) {v : CexpTypedVal} (hv : v.type.scalarq m.dm = true)
    (h : CastDefined m.dm v.type (TULong m.dm)) :
    cexpTypeCast m v (TULong m.dm) false =
      .ok ⟨readUInt m.dm v.type.row v.tv, TULong m.dm⟩ := by
  obtain ⟨hptr, hfp, -, hrow⟩ := scalarq_facts hv
  have hlong := (integral_ulong m.dm).facts
  obtain ⟨c, hc, hcast⟩ := cast_ok m (by rw [hptr]; rintro ⟨⟨⟩, -⟩) h
    (compareType_facts m.dm false).2.2.1 (fun _ => hfp)
    (fun hsw => (hsw.le_ulong hfp).trans (typeSize_ulong m.dm).ge)
  have hread : c = fun u => CexpValU.l m.dm (readUInt m.dm v.type.row u) := by
    rw [ctab, if_pos hrow, row_ulong, if_pos (by decide)] at hc
    exact (Option.some.inj hc).symm
  rw [hcast, hread]
  exact congrArg (fun u => Except.ok (CexpTypedVal.mk u (TULong m.dm))) (l_truncUInt m.dm _ _)

theorem ulongCast_scalar (m : Machine) {t : CexpType} (ht : t.scalarq m.dm = true)
    (r : BitVec 64) :
    cexpTypeCast m ⟨r, TULong m.dm⟩ t true =
      .ok ⟨truncUInt m.dm t.row (CexpValU.l m.dm r), t⟩ := by
  obtain ⟨hptr, -, -, hrow⟩ := scalarq_facts ht
  have hlong := row_ulong m.dm
  have hrows : ¬(7 ≤ (TULong m.dm).row ∨ 7 ≤ t.row) := by omega
  have hnot : ¬((TULong m.dm).ptrq = true ∧ t.ptrq = true) := by
    rw [hptr]
    rintro ⟨-, ⟨⟩⟩
  rw [cexpTypeCast_eq m _ t true hnot, if_neg hrows, ctab, hlong, if_pos (by decide), if_pos hrow]
  rfl

/-- Arithmetic of scalars is that of `unsigned long`. -/
theorem binop_scalar (m : Machine) (z : CexpTypedVal) {v w : CexpTypedVal} {op : CexpBinOp}
    (hv : v.type.scalarq m.dm = true) (hvw : w.type = v.type)
    (h : CastDefined m.dm v.type (TULong m.dm)) :
    binop m z v w op =
      (binopUInt m op (readUInt m.dm v.type.row v.tv) (readUInt m.dm v.type.row w.tv) >>= fun r =>
        .ok ⟨truncUInt m.dm v.type.row (CexpValU.l m.dm r), v.type⟩) := by
  have hassert := binop_asserted hvw (scalarq_facts hv).1
  have hw := scalarCast_ulong m (v := w) (hvw ▸ hv) (hvw ▸ h)
  rw [binop, if_neg hassert, if_pos hv, scalarCast_ulong m hv h, hw, hvw]
  show (binopUInt m op (CexpValU.l m.dm (truncUInt m.dm v.type.row v.tv))
    (CexpValU.l m.dm (truncUInt m.dm v.type.row w.tv)) >>= fun r =>
      cexpTypeCast m ⟨r, TULong m.dm⟩ v.type true) = _
  rw [l_truncUInt, l_truncUInt]
  congr 1
  funext r
  exact ulongCast_scalar m hv r

theorem binopUInt_defined (m : Machine) {op : CexpBinOp} {a b : BitVec 64}
    (h : op.Admits m.dm.longBits b) : Defined (fun m => binopUInt m op a b) m := by
  cases op with
  | ODiv =>
    apply defined_ok (a := a / b)
    intro k l r
    exact if_neg (h.divisor (.inl rfl))
  | OMod =>
    apply defined_ok (a := a % b)
    intro k l r
    exact if_neg (h.divisor (.inr rfl))
  | OShL =>
    apply defined_ok (a := CexpValU.l m.dm (a <<< b.toNat))
    intro k l r
    exact congrArg Except.ok (if_pos (h.amount (.inl rfl)))
  | OShR =>
    apply defined_ok (a := a >>> b.toNat)
    intro k l r
    exact congrArg Except.ok (if_pos (h.amount (.inr rfl)))
  | OAdd => exact defined_ok (a := CexpValU.l m.dm (a + b)) fun _ _ _ => rfl
  | OSub => exact defined_ok (a := CexpValU.l m.dm (a - b)) fun _ _ _ => rfl
  | OMul => exact defined_ok (a := CexpValU.l m.dm (a * b)) fun _ _ _ => rfl
  | OAnd => exact defined_ok (a := a &&& b) fun _ _ _ => rfl
  | OXor => exact defined_ok (a := a ^^^ b) fun _ _ _ => rfl
  | OOr => exact defined_ok (a := a ||| b) fun _ _ _ => rfl
  | ONoop | OLt | OLe | OEq | ONe | OGe | OGt => exact defined_message _ fun _ _ _ => rfl

/-- Otherwise it divides by zero, or the target decides. -/
theorem binopUInt_open (m : Machine) {op : CexpBinOp} {a b : BitVec 64}
    (h : ¬op.Admits m.dm.longBits b) :
    (∃ e, binopUInt m op a b = .error (.fault e)) ∨
      ∀ c : BitVec 64, ∃ l r, binopUInt (m.reopen m.oneShl32 l r) op a b = .ok c := by
  have hcases : ((op = ODiv ∨ op = OMod) ∧ b = 0) ∨
      (op = OShL ∨ op = OShR) ∧ ¬b.toNat < m.dm.longBits := by
    by_contra hno
    rw [not_or, not_and, not_and, not_not] at hno
    exact h ⟨hno.1, hno.2⟩
  rcases hcases with ⟨rfl | rfl, hzero⟩ | ⟨rfl | rfl, hwide⟩
  · exact .inl ⟨.divisionByZero, if_pos hzero⟩
  · exact .inl ⟨.divisionByZero, if_pos hzero⟩
  · right
    intro c
    exact ⟨fun _ _ => c, m.wideShr, congrArg Except.ok (if_neg hwide)⟩
  · right
    intro c
    exact ⟨m.wideShl, fun _ _ => c, congrArg Except.ok (if_neg hwide)⟩

/-- Two answers to an over-wide shift survive the cast to the type of the operands. -/
theorem truncUInt_zero_ne_one (dm : DataModel) (k : Nat) :
    truncUInt dm k (CexpValU.l dm 0) ≠ truncUInt dm k (CexpValU.l dm 1) := by
  match k with
  | 0 | 1 | 2 | 3 => cases dm <;> decide
  | k + 4 =>
    have h : CexpValU.l dm (CexpValU.l dm 0) ≠ CexpValU.l dm (CexpValU.l dm 1) := by
      cases dm <;> decide
    exact h

theorem binop_scalar_defined_iff (m : Machine) (z : CexpTypedVal) {v w : CexpTypedVal}
    {t : CexpType} {op : CexpBinOp} (hvt : v.type = t) (hvw : w.type = t)
    (hv : t.scalarq m.dm = true) (h : CastDefined m.dm t (TULong m.dm)) :
    Defined (fun m => binop m z v w op) m ↔
      op.Admits m.dm.longBits (readUInt m.dm t.row w.tv) := by
  subst hvt
  have hrun : ∀ k l r, binop (m.reopen k l r) z v w op =
      (binopUInt (m.reopen k l r) op (readUInt m.dm v.type.row v.tv)
        (readUInt m.dm v.type.row w.tv) >>= fun r =>
          .ok (⟨truncUInt m.dm v.type.row (CexpValU.l m.dm r), v.type⟩ : CexpTypedVal)) := by
    intro k l r
    exact binop_scalar (m.reopen k l r) z hv hvw h
  have hself := hrun m.oneShl32 m.wideShl m.wideShr
  rw [defined_congr (p := fun m' => binopUInt m' op (readUInt m.dm v.type.row v.tv)
    (readUInt m.dm v.type.row w.tv) >>= fun r =>
      .ok (⟨truncUInt m.dm v.type.row (CexpValU.l m.dm r), v.type⟩ : CexpTypedVal)) hrun]
  constructor
  · intro hs
    by_contra hno
    rcases binopUInt_open m (a := readUInt m.dm v.type.row v.tv) hno with ⟨e, he⟩ | hany
    · exact not_defined_bind_of_fault (f := fun m' => binopUInt m' op
        (readUInt m.dm v.type.row v.tv) (readUInt m.dm v.type.row w.tv)) he hs
    · obtain ⟨l, r, h₀⟩ := hany 0
      obtain ⟨l', r', h₁⟩ := hany 1
      have heq := (hs.agrees m.oneShl32 l r).trans (hs.agrees m.oneShl32 l' r').symm
      rw [h₀, h₁] at heq
      have htv := congrArg CexpTypedVal.tv (Except.ok.inj heq)
      exact truncUInt_zero_ne_one m.dm v.type.row htv
  · intro hok
    apply (binopUInt_defined m hok).bind
    intro r _
    exact defined_ok fun _ _ _ => rfl

/-! ## Arithmetic -/

/-- The operand that is not cast is the second. -/
def secondIsBig (s t : CexpType) : Bool :=
  if s.fpq != t.fpq then t.fpq else !decide (s.baseTypeSize > t.baseTypeSize)

/-- The operand that keeps its type. -/
def bigOperand (x y : CexpTypedVal) : CexpTypedVal := if secondIsBig x.type y.type then y else x

/-- The operand that is cast to the type of the other. -/
def smallOperand (x y : CexpTypedVal) : CexpTypedVal := if secondIsBig x.type y.type then x else y

/-- The second operand of a scalar operation, as it is read after the promotion. -/
def secondOperand (dm : DataModel) (x y : CexpTypedVal) : BitVec 64 :=
  truncUInt dm (bigOperand x y).type.row (readUInt dm y.type.row y.tv)

/-- Arithmetic is defined if its casts are and a scalar operation admits its operand. -/
def ArithmeticDefined (dm : DataModel) (x y : CexpTypedVal) (op : CexpBinOp) : Prop :=
  CastDefined dm (smallOperand x y).type (bigOperand x y).type ∧
    ((bigOperand x y).type.scalarq dm = true →
      CastDefined dm (bigOperand x y).type (TULong dm) ∧
        op.Admits dm.longBits (secondOperand dm x y))

theorem arithmetic_eq (m : Machine) (al : Alias) {x y : CexpTypedVal} {op : CexpBinOp}
    (hx : x.type.ptrq = false) (hy : y.type.ptrq = false) (hop : op.Arithmetic) :
    cexpTVBinOp m al x y op =
      (cexpTypeCast m (smallOperand x y) (bigOperand x y).type false >>= fun c =>
        binop m (if al = .x2 then y else x) (if secondIsBig x.type y.type then c else x)
          (if secondIsBig x.type y.type then y else c) op) := by
  have hcmp : ¬OAdd.code > op.code := not_lt.mpr hop
  have hpromote : cexpTypePromote m x y = if secondIsBig x.type y.type then do
      let a' ← cexpTypeCast m x y.type false
      return (a', y)
    else do
      let b' ← cexpTypeCast m y x.type false
      return (x, b') := by
    rw [cexpTypePromote, hx, hy]
    rfl
  rw [cexpTVBinOp, if_neg hcmp, hx, hy, hpromote, smallOperand, bigOperand]
  cases secondIsBig x.type y.type with
  | true =>
    show (cexpTypeCast m x y.type false >>= _) >>= _ = cexpTypeCast m x y.type false >>= _
    rw [bind_assoc]
    rfl
  | false =>
    show (cexpTypeCast m y x.type false >>= _) >>= _ = cexpTypeCast m y x.type false >>= _
    rw [bind_assoc]
    rfl

theorem binopF_cases (fpu : Fpu) (op : CexpBinOp) (a b : BitVec 32) :
    (∃ r, binopF fpu op a b = .ok r) ∨
      binopF fpu op a b = .error (.error "invalid operator on floats") := by
  cases op with
  | OAdd | OSub | OMul | ODiv => exact .inl ⟨_, rfl⟩
  | _ => exact .inr rfl

theorem binopD_cases (fpu : Fpu) (op : CexpBinOp) (a b : BitVec 64) :
    (∃ r, binopD fpu op a b = .ok r) ∨
      binopD fpu op a b = .error (.error "invalid operator on doubles") := by
  cases op with
  | OAdd | OSub | OMul | ODiv => exact .inl ⟨_, rfl⟩
  | _ => exact .inr rfl

/-- Arithmetic that is not scalar casts nothing and does not fault. -/
theorem binop_floating (m : Machine) (z : CexpTypedVal) {v w : CexpTypedVal} {t : CexpType}
    (op : CexpBinOp) (hvt : v.type = t) (hvw : w.type = t) (hv : t.scalarq m.dm = false)
    (hptr : t.ptrq = false) :
    ∃ x, (∀ k l r, binop (m.reopen k l r) z v w op = x) ∧ (∀ e, x ≠ .error (.fault e)) ∧
      x ≠ .error castRefused := by
  subst hvt
  have hassert := binop_asserted hvw hptr
  have hnot : ∀ k l r, ¬v.type.scalarq (m.reopen k l r).dm = true := by
    intro k l r h
    rw [show v.type.scalarq (m.reopen k l r).dm = false from hv] at h
    cases h
  have hrun : ∀ k l r, binop (m.reopen k l r) z v w op =
      if v.type = TFloat then
        binopF m.fpu op (CexpValU.f v.tv) (CexpValU.f w.tv) >>= fun r =>
          .ok (⟨r.setWidth 64, TFloat⟩ : CexpTypedVal)
      else if v.type = TDouble then
        binopD m.fpu op (CexpValU.d v.tv) (CexpValU.d w.tv) >>= fun r =>
          .ok (⟨r, TDouble⟩ : CexpTypedVal)
      else .ok ⟨z.tv, v.type⟩ := by
    intro k l r
    rw [binop, if_neg hassert, if_neg (hnot k l r)]
    rfl
  refine ⟨_, hrun, ?_⟩
  by_cases hfloat : v.type = TFloat
  · rw [if_pos hfloat]
    rcases binopF_cases m.fpu op (CexpValU.f v.tv) (CexpValU.f w.tv) with ⟨r, hr⟩ | hr
    · rw [hr]
      exact ⟨by rintro e ⟨⟩, by rintro ⟨⟩⟩
    · rw [hr]
      exact ⟨by rintro e ⟨⟩, by rw [castRefused]; exact fun h => absurd h (by decide)⟩
  rw [if_neg hfloat]
  by_cases hdouble : v.type = TDouble
  · rw [if_pos hdouble]
    rcases binopD_cases m.fpu op (CexpValU.d v.tv) (CexpValU.d w.tv) with ⟨r, hr⟩ | hr
    · rw [hr]
      exact ⟨by rintro e ⟨⟩, by rintro ⟨⟩⟩
    · rw [hr]
      exact ⟨by rintro e ⟨⟩, by rw [castRefused]; exact fun h => absurd h (by decide)⟩
  · rw [if_neg hdouble]
    exact ⟨by rintro e ⟨⟩, by rintro ⟨⟩⟩

theorem secondIsBig_true {s t : CexpType} (h : secondIsBig s t = true) :
    (s.fpq = true → t.fpq = true) ∧ (s.fpq = t.fpq → s.baseTypeSize ≤ t.baseTypeSize) := by
  rw [secondIsBig] at h
  split at h
  · next hne => exact ⟨fun _ => h, fun heq => absurd heq (bne_iff_ne.mp hne)⟩
  · next heq =>
    rw [Bool.not_eq_true, bne_eq_false_iff_eq] at heq
    rw [Bool.not_eq_true', decide_eq_false_iff_not] at h
    exact ⟨fun hs => heq ▸ hs, fun _ => not_lt.mp h⟩

theorem secondIsBig_false {s t : CexpType} (h : secondIsBig s t = false) :
    (t.fpq = true → s.fpq = true) ∧ (s.fpq = t.fpq → t.baseTypeSize ≤ s.baseTypeSize) := by
  rw [secondIsBig] at h
  split at h
  · next hne =>
    exact ⟨fun ht => absurd (h.symm.trans ht) Bool.false_ne_true,
      fun heq => absurd heq (bne_iff_ne.mp hne)⟩
  · next heq =>
    rw [Bool.not_eq_true, bne_eq_false_iff_eq] at heq
    rw [Bool.not_eq_false', decide_eq_true_eq] at h
    exact ⟨fun ht => heq ▸ ht, fun _ => h.le⟩

theorem typeSize_of_not_ptrq (dm : DataModel) {t : CexpType} (h : t.ptrq = false) :
    t.typeSize dm = t.baseTypeSize := by
  rw [CexpType.typeSize, h]
  rfl

/-- How the operands of a promotion compare. -/
theorem big_small (dm : DataModel) {x y : CexpTypedVal} (hx : x.type.ptrq = false)
    (hy : y.type.ptrq = false) :
    (smallOperand x y).type.ptrq = false ∧ (bigOperand x y).type.ptrq = false ∧
      ((smallOperand x y).type.fpq = true → (bigOperand x y).type.fpq = true) ∧
      ((bigOperand x y).type.fpq = false →
        (smallOperand x y).type.typeSize dm ≤ (bigOperand x y).type.typeSize dm) ∧
      ((smallOperand x y).type.fpq = true →
        (smallOperand x y).type.typeSize dm ≤ (bigOperand x y).type.typeSize dm) := by
  obtain ⟨hsmallp, hbigp, hfpq, hsize⟩ : (smallOperand x y).type.ptrq = false ∧
      (bigOperand x y).type.ptrq = false ∧
      ((smallOperand x y).type.fpq = true → (bigOperand x y).type.fpq = true) ∧
      ((smallOperand x y).type.fpq = (bigOperand x y).type.fpq →
        (smallOperand x y).type.baseTypeSize ≤ (bigOperand x y).type.baseTypeSize) := by
    rw [smallOperand, bigOperand]
    cases hbig : secondIsBig x.type y.type with
    | true => exact ⟨hx, hy, secondIsBig_true hbig⟩
    | false =>
      obtain ⟨hfpq, hsize⟩ := secondIsBig_false hbig
      exact ⟨hy, hx, hfpq, fun heq => hsize heq.symm⟩
  rw [typeSize_of_not_ptrq dm hsmallp, typeSize_of_not_ptrq dm hbigp]
  refine ⟨hsmallp, hbigp, hfpq, ?_, ?_⟩
  · intro hbig
    apply hsize
    rw [hbig]
    by_contra hsmall
    rw [hfpq (Bool.eq_true_of_not_eq_false hsmall)] at hbig
    exact Bool.noConfusion hbig
  · intro hsmall
    apply hsize
    rw [hsmall, hfpq hsmall]

/-- The operands of `binop` after the promotion. -/
theorem promoted_type {x y c : CexpTypedVal} (hc : c.type = (bigOperand x y).type) :
    (if secondIsBig x.type y.type then c else x).type = (bigOperand x y).type ∧
      (if secondIsBig x.type y.type then y else c).type = (bigOperand x y).type := by
  rw [bigOperand] at hc ⊢
  cases hbig : secondIsBig x.type y.type with
  | true =>
    rw [hbig] at hc
    exact ⟨hc, rfl⟩
  | false =>
    rw [hbig] at hc
    exact ⟨rfl, hc⟩

/-- The second operand is read as `secondOperand`, whether it was cast or not. -/
theorem readUInt_promoted (m : Machine) {x y : CexpTypedVal} {c : BitVec 64 → BitVec 64}
    (hsmall : (smallOperand x y).type.row ≤ 4) (hbig : (bigOperand x y).type.row ≤ 4)
    (hc : ctab m (smallOperand x y).type.row (bigOperand x y).type.row = some c) :
    readUInt m.dm (bigOperand x y).type.row (if secondIsBig x.type y.type then y
      else ⟨c (smallOperand x y).tv, (bigOperand x y).type⟩).tv = secondOperand m.dm x y := by
  rw [secondOperand]
  cases hsecond : secondIsBig x.type y.type with
  | true =>
    have htype : (bigOperand x y).type = y.type := by
      rw [bigOperand, hsecond]
      rfl
    rw [htype]
    exact (truncUInt_truncUInt m.dm y.type.row y.tv).symm
  | false =>
    have hy : smallOperand x y = y := by
      rw [smallOperand, hsecond]
      rfl
    rw [ctab, if_pos hsmall, if_pos hbig] at hc
    rw [← Option.some.inj hc, hy]
    exact truncUInt_truncUInt m.dm _ _

theorem binop_scalar_fault (m : Machine) (z : CexpTypedVal) {v w : CexpTypedVal} {t : CexpType}
    (op : CexpBinOp) (hvt : v.type = t) (hvw : w.type = t) (hv : t.scalarq m.dm = true)
    (h : ¬CastDefined m.dm t (TULong m.dm)) :
    ∃ e, binop m z v w op = .error (.fault e) := by
  subst hvt
  have hassert := binop_asserted hvw (scalarq_facts hv).1
  obtain ⟨e, he⟩ := compareCast_fault (f := false) m h
  have he' : cexpTypeCast m v (TULong m.dm) false = .error (.fault e) := he
  refine ⟨e, ?_⟩
  rw [binop, if_neg hassert, if_pos hv, he']
  rfl

/-- When scalar arithmetic is defined after the promotion. -/
theorem promoted_defined_iff (m : Machine) (z : CexpTypedVal) {x y : CexpTypedVal}
    {op : CexpBinOp} (hx : x.type.ptrq = false) (hy : y.type.ptrq = false)
    (hscalar : (bigOperand x y).type.scalarq m.dm = true)
    (hcast : CastDefined m.dm (smallOperand x y).type (bigOperand x y).type) :
    Defined (fun m => cexpTypeCast m (smallOperand x y) (bigOperand x y).type false >>= fun c =>
        binop m z (if secondIsBig x.type y.type then c else x)
          (if secondIsBig x.type y.type then y else c) op) m ↔
      CastDefined m.dm (bigOperand x y).type (TULong m.dm) ∧
        op.Admits m.dm.longBits (secondOperand m.dm x y) := by
  obtain ⟨hsmallp, hbigp, hfpq, hsize, -⟩ := big_small m.dm hx hy
  obtain ⟨-, hfp, -, hrow⟩ := scalarq_facts hscalar
  have hnot : ¬((smallOperand x y).type.ptrq = true ∧ (bigOperand x y).type.ptrq = true) :=
    not_both_of_left hsmallp
  have hsmallfp : (smallOperand x y).type.fpq = false := by
    by_contra hs
    rw [hfpq (by simpa using hs)] at hfp
    cases hfp
  have hsmallrow : (smallOperand x y).type.row ≤ 4 := by
    by_contra hr
    rw [fpq_iff_row.mpr (by omega)] at hsmallfp
    cases hsmallfp
  have hfloat : (bigOperand x y).type ≠ TFloat := by
    intro hf
    rw [hf] at hfp
    exact absurd hfp (by decide)
  obtain ⟨c, hc, hok⟩ := cast_ok m hnot hcast hfloat (fun _ => hsmallfp) (fun _ => hsize hfp)
  obtain ⟨hv, hw⟩ := promoted_type (c := ⟨c (smallOperand x y).tv, (bigOperand x y).type⟩) rfl
  rw [(cast_defined m hnot hcast).bind_iff hok]
  by_cases hlong : CastDefined m.dm (bigOperand x y).type (TULong m.dm)
  · rw [binop_scalar_defined_iff m z hv hw hscalar hlong, readUInt_promoted m hsmallrow hrow hc]
    exact (and_iff_right hlong).symm
  · obtain ⟨e, he⟩ := binop_scalar_fault m z op hv hw hscalar hlong
    exact iff_of_false (not_defined_of_fault (f := fun m => binop m z _ _ op) he)
      fun h => hlong h.1

theorem arithmetic_defined_iff (m : Machine) (al : Alias) {x y : CexpTypedVal} {op : CexpBinOp}
    (hx : x.type.ptrq = false) (hy : y.type.ptrq = false) (hop : op.Arithmetic) :
    Defined (fun m => cexpTVBinOp m al x y op) m ↔ ArithmeticDefined m.dm x y op := by
  obtain ⟨z, hz⟩ : ∃ z, z = if al = .x2 then y else x := ⟨_, rfl⟩
  obtain ⟨hsmallp, hbigp, -, hsize, -⟩ := big_small m.dm hx hy
  have hnot : ¬((smallOperand x y).type.ptrq = true ∧ (bigOperand x y).type.ptrq = true) :=
    not_both_of_left hsmallp
  rw [defined_congr (p := fun m => cexpTypeCast m (smallOperand x y) (bigOperand x y).type false
    >>= fun c => binop m z (if secondIsBig x.type y.type then c else x)
      (if secondIsBig x.type y.type then y else c) op)
    (fun k l r => hz ▸ arithmetic_eq (m.reopen k l r) al hx hy hop), ArithmeticDefined]
  by_cases hcast : CastDefined m.dm (smallOperand x y).type (bigOperand x y).type
  · rw [and_iff_right hcast]
    cases hscalar : (bigOperand x y).type.scalarq m.dm with
    | true =>
      rw [promoted_defined_iff m z hx hy hscalar hcast]
      exact ⟨fun h _ => h, fun h => h rfl⟩
    | false =>
      refine iff_of_true ?_ (by rintro ⟨⟩)
      apply (cast_defined m hnot hcast).bind
      intro c hc
      have hctype : c.type = (bigOperand x y).type := cexpTypeCast_type hc
      obtain ⟨hv, hw⟩ := promoted_type hctype
      obtain ⟨r, hr, hfault, -⟩ := binop_floating m z op hv hw hscalar hbigp
      exact defined_of_eq hfault hr
  · refine iff_of_false ?_ fun h => hcast h.1
    rcases cast_open m hnot hcast with ⟨e, he⟩ | ⟨hnarrow, hu, k, k', c, hk⟩
    · exact not_defined_bind_of_fault
        (f := fun m => cexpTypeCast m (smallOperand x y) (bigOperand x y).type false) he
    · intro hs
      have hfp : (bigOperand x y).type.fpq = true := by
        by_contra hfp
        refine hnarrow fun hlt => absurd (hsize (by simpa using hfp)) (by omega)
      have hscalar : (bigOperand x y).type.scalarq m.dm = false := by
        by_contra hsc
        rw [(scalarq_facts (by simpa using hsc)).2.1] at hfp
        cases hfp
      obtain ⟨hv, hw⟩ := promoted_type (c := ⟨c, (bigOperand x y).type⟩) rfl
      obtain ⟨r, hr, -, hrefused⟩ := binop_floating m z op hv hw hscalar hbigp
      have heq := (hs.agrees k m.wideShl m.wideShr).trans
        (hs.agrees k' m.wideShl m.wideShr).symm
      rw [(hk _ _).1, (hk _ _).2] at heq
      exact hrefused ((hr k' _ _).symm.trans heq.symm)

/-! ## All operators -/

/-- When a binary operation is defined: its casts are, a pointer difference has an element size,
and a division or a shift in `unsigned long` admits its second operand. -/
def BinOpDefined (dm : DataModel) (al : Alias) (x y : CexpTypedVal) (op : CexpBinOp) : Prop :=
  if op.code < OAdd.code then CompareDefined dm al x.type y.type
  else if x.type.ptrq then
    if y.type.ptrq then
      x.type = y.type → op = OSub → (retyped dm (al = .x1) x.type).baseTypeSize ≠ 0
    else op.code ≤ OSub.code → CastDefined dm y.type (TULong dm)
  else if y.type.ptrq then op = OAdd → CastDefined dm x.type (TULong dm)
  else ArithmeticDefined dm x y op

/-- The pointer operand comes first. -/
theorem pointer_defined_iff (m : Machine) (al : Alias) {x y : CexpTypedVal} {op : CexpBinOp}
    (hop : ¬op.code < OAdd.code) (hx : x.type.ptrq = true) :
    Defined (fun m => cexpTVBinOp m al x y op) m ↔ BinOpDefined m.dm al x y op := by
  have hcmp : ¬OAdd.code > op.code := hop
  rw [BinOpDefined, if_neg hop, if_pos hx]
  cases hy : y.type.ptrq with
  | true =>
    have hrun : ∀ m, cexpTVBinOp m al x y op =
        if x.type ≠ y.type then .error (.error "pointer type mismatch")
        else if op ≠ OSub then .error (.error "invalid operator on two pointers")
        else subPointers m al x y := by
      intro m
      rw [cexpTVBinOp, if_neg hcmp, if_pos hx, if_pos hy]
    simp only [hrun, if_true]
    by_cases htype : x.type = y.type
    · by_cases hsub : op = OSub
      · simp only [if_neg (not_not.mpr htype), if_neg (not_not.mpr hsub)]
        rw [subPointers_defined_iff]
        exact ⟨fun h _ _ => h, fun h => h htype hsub⟩
      · simp only [if_neg (not_not.mpr htype), if_pos hsub]
        exact iff_of_true (defined_message _ fun _ _ _ => rfl) fun _ h => absurd h hsub
    · simp only [if_pos htype]
      exact iff_of_true (defined_message _ fun _ _ _ => rfl) fun h => absurd h htype
  | false =>
    have hrun : ∀ m, cexpTVBinOp m al x y op = stepPointer m x y op := by
      intro m
      rw [cexpTVBinOp, if_neg hcmp, if_pos hx, hy]
      rfl
    simp only [hrun, if_neg Bool.false_ne_true]
    by_cases hstep : op.code ≤ OSub.code
    · rw [stepPointer_defined_iff m hstep]
      exact ⟨fun h _ => h, fun h => h hstep⟩
    · refine iff_of_true ?_ fun h => absurd h hstep
      apply defined_message _
      intro k l r
      exact if_pos (not_le.mp hstep)

theorem pointer_second_defined_iff (m : Machine) (al : Alias) {x y : CexpTypedVal}
    {op : CexpBinOp} (hop : ¬op.code < OAdd.code) (hx : x.type.ptrq = false)
    (hy : y.type.ptrq = true) :
    Defined (fun m => cexpTVBinOp m al x y op) m ↔ BinOpDefined m.dm al x y op := by
  have hcmp : ¬OAdd.code > op.code := hop
  have hrun : ∀ m, cexpTVBinOp m al x y op =
      if op = OSub then .error (.error "cannot subtract a pointer") else stepPointer m y x op := by
    intro m
    rw [cexpTVBinOp, if_neg hcmp, hx, hy]
    rfl
  rw [BinOpDefined, if_neg hop, hx, hy]
  simp only [hrun, if_neg Bool.false_ne_true, if_true]
  by_cases hsub : op = OSub
  · simp only [if_pos hsub]
    refine iff_of_true (defined_message _ fun _ _ _ => rfl) ?_
    rw [hsub]
    rintro ⟨⟩
  · simp only [if_neg hsub]
    by_cases hadd : op = OAdd
    · rw [stepPointer_defined_iff m (by rw [hadd]; decide)]
      exact ⟨fun h _ => h, fun h => h hadd⟩
    · refine iff_of_true ?_ fun h => absurd h hadd
      apply defined_message _
      intro k l r
      have hlater : OSub.code < op.code := by
        cases op with
        | OAdd => exact absurd rfl hadd
        | OSub => exact absurd rfl hsub
        | ONoop | OLt | OLe | OEq | ONe | OGe | OGt => exact absurd (by decide) hop
        | _ => decide
      exact if_pos hlater

/-- Which binary operations end with an error message or a defined result, for operands of all
types and values. -/
theorem binOp_defined_iff (m : Machine) (al : Alias) (x y : CexpTypedVal) (op : CexpBinOp) :
    Defined (fun m => cexpTVBinOp m al x y op) m ↔ BinOpDefined m.dm al x y op := by
  by_cases hop : op.code < OAdd.code
  · rw [BinOpDefined, if_pos hop, ← compare_defined_iff]
    apply defined_congr
    intro k l r
    rw [cexpTVBinOp]
    exact if_pos hop
  · cases hx : x.type.ptrq with
    | true => exact pointer_defined_iff m al hop hx
    | false =>
      cases hy : y.type.ptrq with
      | true => exact pointer_second_defined_iff m al hop hx hy
      | false =>
        rw [BinOpDefined, if_neg hop, hx, hy]
        exact arithmetic_defined_iff m al hx hy (not_lt.mp hop)

/-- The members of the enumeration, and the type of the address of a `void` symbol. -/
def declaredTypes (dm : DataModel) : List CexpType :=
  [TVoid, base2ptr TVoid, TVoidP, TUChar, TUCharP, TUShort, TUShortP, TUInt, TUIntP, TULong dm,
    TULongP dm, TFloat, TFloatP, TDouble, TDoubleP, TFuncP dm, TDFuncP]

/-- The casts of declared types are defined. -/
theorem castDefined_declared (dm : DataModel) : ∀ s ∈ declaredTypes dm, ∀ f,
    CastDefined dm s (compareType dm f) := by
  cases dm <;> decide

theorem castDefined_promoted (dm : DataModel) : ∀ s ∈ declaredTypes dm, ∀ t ∈ declaredTypes dm,
    s.ptrq = false → t.ptrq = false →
      CastDefined dm (if secondIsBig s t then s else t) (if secondIsBig s t then t else s) := by
  cases dm <;> decide

/-- On declared types the element size, the divisor and the shift count decide. -/
theorem binOp_defined_declared (m : Machine) (al : Alias) {x y : CexpTypedVal} (op : CexpBinOp)
    (hx : x.type ∈ declaredTypes m.dm) (hy : y.type ∈ declaredTypes m.dm) :
    Defined (fun m => cexpTVBinOp m al x y op) m ↔
      (x.type.ptrq = true → x.type = y.type → op = OSub →
        (retyped m.dm (al = .x1) x.type).baseTypeSize ≠ 0) ∧
      (x.type.ptrq = false → y.type.ptrq = false → op.Arithmetic →
        (bigOperand x y).type.scalarq m.dm = true →
          op.Admits m.dm.longBits (secondOperand m.dm x y)) := by
  have hcast := castDefined_declared m.dm
  have hretyped : ∀ (p : Prop) [Decidable p], ∀ t ∈ declaredTypes m.dm,
      retyped m.dm p t ∈ declaredTypes m.dm := by
    intro p _ t ht
    unfold retyped
    split
    · simp [declaredTypes]
    · exact ht
  rw [binOp_defined_iff, BinOpDefined]
  by_cases hop : op.code < OAdd.code
  · rw [if_pos hop]
    refine iff_of_true ?_ ⟨?_, fun _ _ h => absurd hop (not_lt.mpr h)⟩
    · exact .inr ⟨hcast _ (hretyped _ _ hx) _, hcast _ (hretyped _ _ hy) _⟩
    · rintro - - rfl
      exact absurd hop (by decide)
  rw [if_neg hop]
  cases hxp : x.type.ptrq with
  | true =>
    rw [if_pos rfl]
    cases hyp : y.type.ptrq with
    | true => exact ⟨fun h => ⟨fun _ => h, fun h' => absurd h' (by decide)⟩, fun h => h.1 rfl⟩
    | false =>
      refine iff_of_true (fun _ => hcast _ hy false) ⟨?_, fun h => absurd h (by decide)⟩
      intro _ htype
      rw [htype, hyp] at hxp
      cases hxp
  | false =>
    rw [if_neg Bool.false_ne_true]
    cases hyp : y.type.ptrq with
    | true =>
      exact iff_of_true (fun _ => hcast _ hx false)
        ⟨fun h => absurd h (by decide), fun _ h => absurd h (by decide)⟩
    | false =>
      rw [if_neg Bool.false_ne_true, ArithmeticDefined]
      have hpromoted : CastDefined m.dm (smallOperand x y).type (bigOperand x y).type := by
        rw [smallOperand, bigOperand, apply_ite CexpTypedVal.type, apply_ite CexpTypedVal.type]
        exact castDefined_promoted m.dm _ hx _ hy hxp hyp
      have hlong : CastDefined m.dm (bigOperand x y).type (TULong m.dm) := by
        rw [bigOperand]
        split
        · exact hcast _ hy false
        · exact hcast _ hx false
      constructor
      · rintro ⟨-, h⟩
        exact ⟨fun h' => absurd h' (by decide), fun _ _ _ hs => (h hs).2⟩
      · rintro ⟨-, h⟩
        exact ⟨hpromoted, fun hs => ⟨hlong, h rfl rfl (not_lt.mp hop) hs⟩⟩

/-- `1/0` divides by zero, and so does the difference of the addresses of two `void` symbols. -/
theorem division_by_zero_faults :
    ¬Defined (fun m => cexpTVBinOp m .none ⟨1, TULong .lp64⟩ ⟨0, TULong .lp64⟩ ODiv)
        (softMachine .lp64) ∧
      ¬Defined (fun m => cexpTVBinOp m .none ⟨0x2000, base2ptr TVoid⟩ ⟨0x1000, base2ptr TVoid⟩ OSub)
        (softMachine .lp64) := by
  constructor
  · exact not_defined_of_fault (e := .divisionByZero) (by decide)
  · exact not_defined_of_fault (e := .divisionByZero) (by decide)

end Cexp
