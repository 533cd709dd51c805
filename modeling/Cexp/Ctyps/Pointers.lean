import Cexp.Ctyps.Arith

/-!
# Pointers and the order of operands

A pointer is stepped by the size of what it points to (`cexpTVBinOp_add`, `cexpTVBinOp_step`), and
the difference of two pointers is divided by it (`cexpTVBinOp_diff`), so the usual laws hold as long
as that size is not zero (`pointer_laws_iff`). The address of a `void` symbol has the size zero:
`CEXP_TYPE_BASE2PTR(TVoid)` is not `TVoidP`.

The operators that are commutative in C give the same whichever operand comes first
(`operands_commute`).
-/

namespace Cexp

open CexpType CexpBinOp CLib

variable {dm : DataModel}

/-! ## Values as words -/

/-- An unsigned integer or a pointer as a word of the target. -/
def CexpTypedVal.word (dm : DataModel) (v : CexpTypedVal) : BitVec dm.longBits :=
  v.at dm dm.longBits

/-- The same value of the same type. -/
structure CexpTypedVal.Same (dm : DataModel) (v w : CexpTypedVal) : Prop where
  type : v.type = w.type
  uint : v.uint dm = w.uint dm

theorem longBits_le (dm : DataModel) : dm.longBits ≤ 64 := by
  cases dm <;> decide

theorem toNat_word {v : CexpTypedVal} (hv : Uint dm v.type) :
    (v.word dm).toNat = (v.uint dm).toNat := by
  have hlt : (v.uint dm).toNat < 2 ^ dm.longBits := by
    refine lt_of_lt_of_le (toNat_low_lt hv.typeSize_le_eight v.tv) ?_
    exact Nat.pow_le_pow_right (by decide) (Nat.mul_le_mul_left 8 hv.typeSize_le)
  exact toNat_setWidth_of_lt hlt

theorem uint_eq_iff {v w : CexpTypedVal} (hv : Uint dm v.type) (hw : Uint dm w.type) :
    v.uint dm = w.uint dm ↔ v.word dm = w.word dm := by
  rw [← BitVec.toNat_inj, ← BitVec.toNat_inj, toNat_word hv, toNat_word hw]

/-- A word that is stored in an `unsigned long` or in a pointer. -/
theorem word_low {t : CexpType} (ht : t.typeSize dm = dm.longSize) (u : BitVec 64) :
    CexpTypedVal.word dm ⟨CexpValU.low dm.longSize u, t⟩ = u.setWidth dm.longBits := by
  rw [CexpTypedVal.word, CexpTypedVal.at, CexpTypedVal.uint, ht,
    low_low (longSize_le dm) (Nat.le_refl _)]
  exact setWidth_low (longSize_le dm) (Nat.le_refl _) u

theorem setWidth_p {v : CexpTypedVal} (hv : v.type.ptrq = true) :
    (CexpValU.p dm v.tv).setWidth dm.longBits = v.word dm := by
  rw [CexpTypedVal.word, CexpTypedVal.at, CexpTypedVal.uint, typeSize_of_ptrq hv]
  rfl

/-! ## Steps and differences -/

/-- The distance of a step by `n` elements. -/
def stride (dm : DataModel) (p n : CexpTypedVal) : BitVec dm.longBits :=
  n.word dm * BitVec.ofNat dm.longBits p.type.baseTypeSize

theorem stepPointer_eq (m : Machine) {p n : CexpTypedVal} (hp : p.type.ptrq = true)
    (hn : Uint m.dm n.type) {op : CexpBinOp} (hop : op = OAdd ∨ op = OSub) :
    ∃ r, stepPointer m p n op = .ok r ∧ r.type = p.type ∧
      r.word m.dm = if op = OSub then p.word m.dm - stride m.dm p n
        else p.word m.dm + stride m.dm p n := by
  have hcode : ¬OSub.code < op.code := by
    rcases hop with rfl | rfl
    · decide
    · decide
  have h64 := longBits_le m.dm
  have hstride : (CexpValU.l m.dm (n.uint m.dm) * BitVec.ofNat 64 p.type.baseTypeSize).setWidth
      m.dm.longBits = stride m.dm p n := by
    rw [BitVec.setWidth_mul _ _ h64, l_uint hn, BitVec.setWidth_ofNat_of_le h64]
    rfl
  rw [stepPointer, if_neg hcode, cexpTypeCast_ulong m hn]
  refine ⟨_, rfl, rfl, ?_⟩
  have hword := @word_low m.dm p.type (typeSize_of_ptrq hp)
  refine (hword _).trans ?_
  split
  · rw [setWidth_sub h64, hstride, setWidth_p hp]
  · rw [BitVec.setWidth_add _ _ h64, hstride, setWidth_p hp]

theorem cexpTVBinOp_step (m : Machine) {p n : CexpTypedVal} (hp : p.type.ptrq = true)
    (hn : Integral m.dm n.type) {op : CexpBinOp} (hop : op = OAdd ∨ op = OSub) :
    ∃ r, cexpTVBinOp m .none p n op = .ok r ∧ r.type = p.type ∧
      r.word m.dm = if op = OSub then p.word m.dm - stride m.dm p n
        else p.word m.dm + stride m.dm p n := by
  have hcode : ¬OAdd.code > op.code := by
    rcases hop with rfl | rfl
    · decide
    · decide
  have heq : cexpTVBinOp m .none p n op = stepPointer m p n op := by
    rw [cexpTVBinOp, if_neg hcode, if_pos hp, hn.facts.ptrq]
    rfl
  rw [heq]
  exact stepPointer_eq m hp hn.uint hop

/-- The difference of two pointers of one type. -/
theorem cexpTVBinOp_diff (m : Machine) {p q : CexpTypedVal} (hp : p.type.ptrq = true)
    (hq : q.type = p.type) : cexpTVBinOp m .none q p OSub =
      if p.type.baseTypeSize = 0 then .error (.fault .divisionByZero)
      else if (q.word m.dm - p.word m.dm).toNat % p.type.baseTypeSize ≠ 0 then
        .error (.error "subtracting misaligned pointers")
      else .ok ⟨BitVec.ofNat 64 ((q.word m.dm - p.word m.dm).toNat / p.type.baseTypeSize),
        TULong m.dm⟩ := by
  have hq' : q.type.ptrq = true := by
    rw [hq]
    exact hp
  have hcode : ¬OAdd.code > OSub.code := by decide
  have hdiff : (CexpValU.l m.dm (CexpValU.p m.dm q.tv - CexpValU.p m.dm p.tv)).toNat =
      (q.word m.dm - p.word m.dm).toNat := by
    rw [CexpValU.l, toNat_low (longSize_le m.dm), ← setWidth_p hp, ← setWidth_p hq',
      ← setWidth_sub (longBits_le m.dm), BitVec.toNat_setWidth]
    rfl
  rw [cexpTVBinOp, if_neg hcode, if_pos hq', if_pos hp, if_neg (fun hne => hne hq),
    if_neg (fun hne => hne rfl), subPointers]
  rw [hdiff, if_neg (fun h => Alias.noConfusion h), hq]

/-! ## The laws -/

/-- What holds of the pointers `p` and `q` and the number `n`: stepping by `n` and back, the
difference after a step, the step by a difference, and the steps of a pointer to `void`. -/
structure PointerLaws (m : Machine) (p q n : CexpTypedVal) : Prop where
  addSub : ∃ r p', cexpTVBinOp m .none p n OAdd = .ok r ∧ cexpTVBinOp m .none r n OSub = .ok p' ∧
    p'.Same m.dm p
  sub : ∃ r d, cexpTVBinOp m .none p n OAdd = .ok r ∧ cexpTVBinOp m .none r p OSub = .ok d ∧
    d.Same m.dm ⟨n.uint m.dm, TULong m.dm⟩
  diff : p.type.baseTypeSize ∣ (q.word m.dm - p.word m.dm).toNat →
    ∃ d q', cexpTVBinOp m .none q p OSub = .ok d ∧ cexpTVBinOp m .none p d OAdd = .ok q' ∧
      q'.Same m.dm q
  void : p.type = TVoidP ∨ p.type = base2ptr TVoid →
    ∃ r r', cexpTVBinOp m .none p n OAdd = .ok r ∧
      cexpTVBinOp m .none { p with type := TUCharP } n OAdd = .ok r' ∧ r.uint m.dm = r'.uint m.dm

theorem same_of_word {v w : CexpTypedVal} (htype : v.type = w.type) (hw : w.type.ptrq = true)
    (h : v.word dm = w.word dm) : v.Same dm w := by
  refine ⟨htype, (uint_eq_iff (.inr ?_) (.inr hw)).mpr h⟩
  rw [htype]
  exact hw

theorem toNat_stride {p n : CexpTypedVal} (hn : Uint dm n.type) :
    (stride dm p n).toNat = (n.uint dm).toNat * p.type.baseTypeSize % 2 ^ dm.longBits := by
  rw [stride, BitVec.toNat_mul, toNat_word hn, BitVec.toNat_ofNat, Nat.mul_mod_mod]

theorem stride_congr {p r n : CexpTypedVal} (h : r.type = p.type) :
    stride dm r n = stride dm p n := by
  rw [stride, stride, h]

/-- An `unsigned long` of a number that fits. -/
theorem uint_ofNat {k : Nat} (hk : k < 2 ^ dm.longBits) :
    (CexpTypedVal.uint dm ⟨BitVec.ofNat 64 k, TULong dm⟩).toNat = k := by
  have hlt : k < 2 ^ 64 := lt_of_lt_of_le hk (Nat.pow_le_pow_right (by decide) (longBits_le dm))
  rw [CexpTypedVal.uint, typeSize_ulong, toNat_low (longSize_le dm), BitVec.toNat_ofNat,
    Nat.mod_eq_of_lt hlt]
  exact Nat.mod_eq_of_lt hk

theorem word_ofNat (k : Nat) :
    CexpTypedVal.word dm ⟨BitVec.ofNat 64 k, TULong dm⟩ = BitVec.ofNat dm.longBits k := by
  rw [CexpTypedVal.word, CexpTypedVal.at, CexpTypedVal.uint, typeSize_ulong]
  exact (setWidth_low (longSize_le dm) (Nat.le_refl _) _).trans
    (BitVec.setWidth_ofNat_of_le (longBits_le dm) k)

/-- The difference after a step is the number of elements exactly if the elements have a size and
the step does not go round. -/
theorem diff_of_step (m : Machine) {p r n : CexpTypedVal} (hp : p.type.ptrq = true)
    (hn : Integral m.dm n.type) (hr : r.type = p.type)
    (hword : r.word m.dm = p.word m.dm + stride m.dm p n) :
    (∃ d, cexpTVBinOp m .none r p OSub = .ok d ∧ d.Same m.dm ⟨n.uint m.dm, TULong m.dm⟩) ↔
      p.type.baseTypeSize ≠ 0 ∧
        (n.uint m.dm).toNat * p.type.baseTypeSize < 2 ^ m.dm.longBits := by
  have hdiff : (r.word m.dm - p.word m.dm).toNat =
      (n.uint m.dm).toNat * p.type.baseTypeSize % 2 ^ m.dm.longBits := by
    rw [hword, BitVec.add_comm, BitVec.add_sub_cancel, toNat_stride hn.uint]
  have hn' : CexpTypedVal.uint m.dm ⟨n.uint m.dm, TULong m.dm⟩ = n.uint m.dm := by
    rw [CexpTypedVal.uint, typeSize_ulong]
    exact l_uint hn.uint
  have hlt : ∀ k, k % 2 ^ m.dm.longBits / p.type.baseTypeSize < 2 ^ m.dm.longBits := by
    intro k
    exact lt_of_le_of_lt (Nat.div_le_self _ _) (Nat.mod_lt k (Nat.two_pow_pos _))
  rw [cexpTVBinOp_diff m hp hr, hdiff]
  constructor
  · rintro ⟨d, hrun, hsame⟩
    split at hrun
    · cases hrun
    · next hsize =>
      split at hrun
      · cases hrun
      · next haligned =>
        cases hrun
        refine ⟨hsize, ?_⟩
        have hvalue := congrArg BitVec.toNat hsame.uint
        rw [uint_ofNat (hlt _), hn'] at hvalue
        -- the number of elements is the quotient, so nothing went round
        have hdvd := Nat.dvd_of_mod_eq_zero (not_not.mp haligned)
        have hmul := Nat.div_mul_cancel hdvd
        rw [hvalue] at hmul
        rw [hmul]
        exact Nat.mod_lt _ (Nat.two_pow_pos _)
  · rintro ⟨hsize, hfits⟩
    have hmod := Nat.mod_eq_of_lt hfits
    have hquot := Nat.mul_div_cancel (n.uint m.dm).toNat (Nat.pos_of_ne_zero hsize)
    have haligned := Nat.mul_mod_left (n.uint m.dm).toNat p.type.baseTypeSize
    rw [if_neg hsize, hmod, if_neg (not_not.mpr haligned), hquot]
    refine ⟨_, rfl, rfl, ?_⟩
    apply BitVec.eq_of_toNat_eq
    have hvalue := hlt ((n.uint m.dm).toNat * p.type.baseTypeSize)
    rw [hmod, hquot] at hvalue
    rw [uint_ofNat hvalue, hn']

/-- The laws hold of two pointers of one type exactly if what they point to has a size, and the
step does not go round the memory. -/
theorem pointer_laws_iff (m : Machine) {p q n : CexpTypedVal} (hp : p.type.ptrq = true)
    (hq : q.type = p.type) (hn : Integral m.dm n.type) :
    PointerLaws m p q n ↔ p.type.baseTypeSize ≠ 0 ∧
      (n.uint m.dm).toNat * p.type.baseTypeSize < 2 ^ m.dm.longBits := by
  obtain ⟨r, hadd, hr, hword⟩ := cexpTVBinOp_step m hp hn (Or.inl rfl)
  rw [if_neg (fun h => CexpBinOp.noConfusion h)] at hword
  have hrp : r.type.ptrq = true := by
    rw [hr]
    exact hp
  have hq' : q.type.ptrq = true := by
    rw [hq]
    exact hp
  constructor
  · intro h
    obtain ⟨r', d, hadd', hsub, hsame⟩ := h.sub
    rw [hadd] at hadd'
    cases hadd'
    exact (diff_of_step m hp hn hr hword).mp ⟨d, hsub, hsame⟩
  · rintro ⟨hsize, hlt⟩
    constructor
    · obtain ⟨p', hsub, hp', hword'⟩ := cexpTVBinOp_step m hrp hn (Or.inr rfl)
      rw [if_pos rfl, hword, stride_congr hr, BitVec.add_sub_cancel] at hword'
      exact ⟨r, p', hadd, hsub, same_of_word (hp'.trans hr) hp hword'⟩
    · obtain ⟨d, hsub, hsame⟩ := (diff_of_step m hp hn hr hword).mpr ⟨hsize, hlt⟩
      exact ⟨r, d, hadd, hsub, hsame⟩
    · intro hdvd
      have hdiff := cexpTVBinOp_diff m hp hq
      rw [if_neg hsize, if_neg (not_not.mpr (Nat.mod_eq_zero_of_dvd hdvd))] at hdiff
      obtain ⟨q', hstep, hq'', hword'⟩ := cexpTVBinOp_step m hp
        (show Integral m.dm (CexpTypedVal.mk (BitVec.ofNat 64
          ((q.word m.dm - p.word m.dm).toNat / p.type.baseTypeSize)) (TULong m.dm)).type from
          integral_ulong m.dm) (Or.inl rfl)
      refine ⟨_, q', hdiff, hstep, same_of_word (hq''.trans hq.symm) hq' ?_⟩
      rw [hword', if_neg (fun h => CexpBinOp.noConfusion h), stride, word_ofNat,
        ← BitVec.ofNat_mul, Nat.div_mul_cancel hdvd, BitVec.ofNat_toNat, BitVec.setWidth_eq,
        BitVec.add_comm, BitVec.sub_add_cancel]
    · -- a pointer whose elements have a size is a `void*` of the enumeration
      rintro (hvoid | hvoid)
      · have hchar : TUCharP.ptrq = true := by decide
        obtain ⟨r', hadd', hr', hword'⟩ := cexpTVBinOp_step m
          (show (CexpTypedVal.mk p.tv TUCharP).type.ptrq = true from hchar) hn (Or.inl rfl)
        rw [if_neg (fun h => CexpBinOp.noConfusion h)] at hword'
        refine ⟨r, r', hadd, hadd', ?_⟩
        refine (uint_eq_iff (.inr hrp) (.inr ?_)).mpr ?_
        · rw [hr']
          exact hchar
        · have hsize' : TUCharP.baseTypeSize = p.type.baseTypeSize := by
            rw [hvoid]
            decide
          rw [hword, hword', stride, stride, hsize', ← setWidth_p hp,
            ← setWidth_p (show (CexpTypedVal.mk p.tv TUCharP).type.ptrq = true from hchar)]
      · rw [hvoid] at hsize
        exact absurd rfl hsize

/-- A `char*` and a distance of five. -/
theorem pointer_laws_char :
    PointerLaws (softMachine .lp64) ⟨0x1000, TUCharP⟩ ⟨0x2000, TUCharP⟩ ⟨5, TULong .lp64⟩ :=
  (@pointer_laws_iff (softMachine .lp64) ⟨0x1000, TUCharP⟩ ⟨0x2000, TUCharP⟩ ⟨5, TULong .lp64⟩
    (by decide) rfl (by decide)).mpr ⟨by decide, by decide⟩

/-- The address of a `void` symbol: the difference of two of them divides by zero. -/
theorem void_symbol_address : ∃ p, cexpTVPtr ⟨0x1000, TVoid⟩ = .ok p ∧
    cexpTVBinOp (softMachine .lp64) .none p p OSub = .error (.fault .divisionByZero) ∧
    ¬PointerLaws (softMachine .lp64) p p ⟨1, TULong .lp64⟩ := by
  refine ⟨⟨0x1000, base2ptr TVoid⟩, rfl, by decide, ?_⟩
  intro h
  obtain ⟨r, d, hadd, hsub, -⟩ := h.sub
  have hr : cexpTVBinOp (softMachine .lp64) .none ⟨0x1000, base2ptr TVoid⟩ ⟨1, TULong .lp64⟩ OAdd =
      .ok ⟨0x1000, base2ptr TVoid⟩ := by decide
  rw [hr] at hadd
  cases hadd
  have hfault : cexpTVBinOp (softMachine .lp64) .none ⟨0x1000, base2ptr TVoid⟩
      ⟨0x1000, base2ptr TVoid⟩ OSub = .error (.fault .divisionByZero) := by decide
  rw [hfault] at hsub
  cases hsub

/-! ## The order of the operands -/

/-- The operators that are commutative in C. -/
def CexpBinOp.Commutes (op : CexpBinOp) : Prop := op ∈ [OAdd, OMul, OAnd, OXor, OOr, OEq, ONe]

instance (op : CexpBinOp) : Decidable op.Commutes :=
  inferInstanceAs (Decidable (op ∈ [OAdd, OMul, OAnd, OXor, OOr, OEq, ONe]))

/-- Both fail with the same message, or both succeed with the same value and with types of the same
width. -/
inductive SameOutcome (dm : DataModel) :
    Except Stop CexpTypedVal → Except Stop CexpTypedVal → Prop where
  | failed (msg : String) : SameOutcome dm (.error (.error msg)) (.error (.error msg))
  | ok {v w : CexpTypedVal} (huint : v.uint dm = w.uint dm)
      (hsize : v.type.typeSize dm = w.type.typeSize dm) : SameOutcome dm (.ok v) (.ok w)

theorem SameOutcome.symm {r s : Except Stop CexpTypedVal} (h : SameOutcome dm r s) :
    SameOutcome dm s r := by
  cases h with
  | failed msg => exact .failed msg
  | ok huint hsize => exact .ok huint.symm hsize.symm

theorem SameOutcome.of_same {v w : CexpTypedVal} (h : v.Same dm w) :
    SameOutcome dm (.ok v) (.ok w) := by
  refine .ok h.uint ?_
  rw [h.type]

/-- Unsigned arithmetic with a commutative operator. -/
theorem unsignedOp_comm {w : Nat} {op : CexpBinOp} (h : op.Commutes) (a b : BitVec w) :
    unsignedOp op a b = unsignedOp op b a := by
  cases op with
  | OAdd => exact BitVec.add_comm a b
  | OMul => exact BitVec.mul_comm a b
  | OAnd => exact BitVec.and_comm a b
  | OXor => exact BitVec.xor_comm a b
  | OOr => exact BitVec.or_comm a b
  | ONoop | OLt | OLe | OEq | ONe | OGe | OGt => rfl
  | OSub | ODiv | OMod | OShL | OShR => exact absurd h (by decide)

/-- A comparison of two unsigned integers or pointers. -/
theorem cexpTVBinOp_compare_uint (m : Machine) {x y : CexpTypedVal} {op : CexpBinOp}
    (hx : Uint m.dm x.type) (hy : Uint m.dm y.type) (hop : op.code < OAdd.code) :
    cexpTVBinOp m .none x y op = (compareUInt op (x.uint m.dm) (y.uint m.dm)).map
      fun b => ⟨ofBool b, TULong m.dm⟩ := by
  rw [cexpTVBinOp, if_pos hop, compare, hx.fpq, hy.fpq]
  show (do
    let xx1 ← cexpTypeCast m x (TULong m.dm) false
    let xx2 ← cexpTypeCast m y (TULong m.dm) false
    let r ← compareUInt op (CexpValU.l m.dm xx1.tv) (CexpValU.l m.dm xx2.tv)
    return (⟨ofBool r, TULong m.dm⟩ : CexpTypedVal)) = _
  rw [cexpTypeCast_ulong m hx, cexpTypeCast_ulong m hy]
  show (do
    let r ← compareUInt op (CexpValU.l m.dm (x.uint m.dm)) (CexpValU.l m.dm (y.uint m.dm))
    return (⟨ofBool r, TULong m.dm⟩ : CexpTypedVal)) = _
  rw [l_uint hx, l_uint hy]
  cases compareUInt op (x.uint m.dm) (y.uint m.dm) with
  | error e => rfl
  | ok b => rfl

/-- The wider type is as wide whichever operand comes first. -/
theorem wider_comm_size (s t : CexpType) :
    (s.wider t).baseTypeSize = (t.wider s).baseTypeSize := by
  unfold CexpType.wider
  split
  · split
    · omega
    · rfl
  · split
    · rfl
    · omega

theorem toNat_uint_at {v : CexpTypedVal} (hv : Integral dm v.type) {w : Nat}
    (hw : v.type.bits = w) : (v.uint dm).toNat = (v.tv.setWidth w).toNat := by
  rw [CexpTypedVal.uint, hv.typeSize, toNat_low (hv.facts.size_le.trans (longSize_le dm)),
    BitVec.toNat_setWidth, ← hw]
  rfl

/-- Arithmetic on two integers. -/
theorem integral_commutes (m : Machine) {x y : CexpTypedVal} {op : CexpBinOp}
    (hx : Integral m.dm x.type) (hy : Integral m.dm y.type) (hop : op.Commutes)
    (harith : op.Arithmetic) :
    SameOutcome m.dm (cexpTVBinOp m .none x y op) (cexpTVBinOp m .none y x op) := by
  have hadmits : ∀ w b, op.Admits w b := by
    intro w b
    constructor
    · rintro (rfl | rfl)
      · exact absurd hop (by decide)
      · exact absurd hop (by decide)
    · rintro (rfl | rfl)
      · exact absurd hop (by decide)
      · exact absurd hop (by decide)
  obtain ⟨r, hrun, hr⟩ := cexpTVBinOp_integral m .none hx hy harith (hadmits _ _)
  obtain ⟨r', hrun', hr'⟩ := cexpTVBinOp_integral m .none hy hx harith (hadmits _ _)
  have hsize := wider_comm_size x.type y.type
  have hbits : (y.type.wider x.type).bits = (x.type.wider y.type).bits :=
    congrArg (8 * ·) hsize.symm
  have hval : r.setWidth (x.type.wider y.type).bits = r'.setWidth (x.type.wider y.type).bits := by
    rw [hbits] at hr'
    rw [hr, hr', unsignedOp_comm hop]
  rw [hrun, hrun']
  refine .ok ?_ ?_
  · apply BitVec.eq_of_toNat_eq
    have hfirst := @toNat_uint_at m.dm ⟨r, x.type.wider y.type⟩ (hx.wider hy)
      (x.type.wider y.type).bits rfl
    have hsecond := @toNat_uint_at m.dm ⟨r', y.type.wider x.type⟩ (hy.wider hx)
      (x.type.wider y.type).bits hbits
    exact hfirst.trans ((congrArg BitVec.toNat hval).trans hsecond.symm)
  · show (x.type.wider y.type).typeSize m.dm = (y.type.wider x.type).typeSize m.dm
    rw [(hx.wider hy).typeSize, (hy.wider hx).typeSize, hsize]

/-- A pointer and an integer. -/
theorem pointer_commutes (m : Machine) {p n : CexpTypedVal} {op : CexpBinOp}
    (hp : p.type.ptrq = true) (hn : Integral m.dm n.type) (hop : op.Commutes)
    (harith : op.Arithmetic) :
    SameOutcome m.dm (cexpTVBinOp m .none p n op) (cexpTVBinOp m .none n p op) := by
  have hcode : ¬OAdd.code > op.code := not_lt.mpr harith
  have hsub : op ≠ OSub := by
    rintro rfl
    exact absurd hop (by decide)
  have heq : cexpTVBinOp m .none n p op = cexpTVBinOp m .none p n op := by
    rw [cexpTVBinOp, cexpTVBinOp, if_neg hcode, if_neg hcode, hp, hn.facts.ptrq]
    show (if op = OSub then _ else stepPointer m p n op) = stepPointer m p n op
    rw [if_neg hsub]
  rw [heq]
  by_cases hadd : op = OAdd
  · obtain ⟨r, hrun, -, -⟩ := cexpTVBinOp_step m hp hn (Or.inl hadd)
    rw [hrun]
    exact .of_same ⟨rfl, rfl⟩
  · have hlater : OSub.code < op.code := by
      revert hop hadd harith hsub
      cases op <;> decide
    have hrun : cexpTVBinOp m .none p n op =
        .error (.error "invalid operator or pointer increment") := by
      rw [cexpTVBinOp, if_neg hcode, if_pos hp, hn.facts.ptrq]
      show stepPointer m p n op = _
      rw [stepPointer, if_pos hlater]
    rw [hrun]
    exact .failed _

/-- Two pointers. -/
theorem pointers_commute (m : Machine) {p q : CexpTypedVal} {op : CexpBinOp}
    (hp : p.type.ptrq = true) (hq : q.type.ptrq = true) (hop : op.Commutes)
    (harith : op.Arithmetic) :
    SameOutcome m.dm (cexpTVBinOp m .none p q op) (cexpTVBinOp m .none q p op) := by
  have hcode : ¬OAdd.code > op.code := not_lt.mpr harith
  have hsub : op ≠ OSub := by
    rintro rfl
    exact absurd hop (by decide)
  rw [cexpTVBinOp, cexpTVBinOp, if_neg hcode, if_neg hcode, if_pos hp, if_pos hq, if_pos hq,
    if_pos hp]
  by_cases htype : p.type = q.type
  · rw [if_neg (not_not.mpr htype), if_neg (not_not.mpr htype.symm), if_pos hsub, if_pos hsub]
    exact .failed _
  · rw [if_pos htype, if_pos (fun h => htype h.symm)]
    exact .failed _

/-- Equality and inequality. -/
theorem comparison_commutes (m : Machine) {x y : CexpTypedVal} {op : CexpBinOp}
    (hx : Uint m.dm x.type) (hy : Uint m.dm y.type) (hop : op.Commutes)
    (hcode : op.code < OAdd.code) :
    SameOutcome m.dm (cexpTVBinOp m .none x y op) (cexpTVBinOp m .none y x op) := by
  have hcomm : ∃ b, compareUInt op (x.uint m.dm) (y.uint m.dm) = .ok b ∧
      compareUInt op (y.uint m.dm) (x.uint m.dm) = .ok b := by
    cases op with
    | OEq => exact ⟨_, rfl, congrArg Except.ok (decide_eq_decide.mpr eq_comm)⟩
    | ONe => exact ⟨_, rfl, congrArg Except.ok bne_comm⟩
    | ONoop | OLt | OLe | OGe | OGt | OSub | ODiv | OMod | OShL | OShR =>
      exact absurd hop (by decide)
    | OAdd | OMul | OAnd | OXor | OOr => exact absurd hcode (by decide)
  obtain ⟨b, hxy, hyx⟩ := hcomm
  rw [cexpTVBinOp_compare_uint m hx hy hcode, cexpTVBinOp_compare_uint m hy hx hcode, hxy, hyx]
  exact .of_same ⟨rfl, rfl⟩

/-- The operators that are commutative in C give the same for the operands in either order, and a
comparison the same as the opposite comparison of the exchanged operands. -/
theorem operands_commute (m : Machine) {x y : CexpTypedVal} (hx : Uint m.dm x.type)
    (hy : Uint m.dm y.type) :
    (∀ op : CexpBinOp, op.Commutes →
      SameOutcome m.dm (cexpTVBinOp m .none x y op) (cexpTVBinOp m .none y x op)) ∧
    cexpTVBinOp m .none x y OLt = cexpTVBinOp m .none y x OGt ∧
    cexpTVBinOp m .none x y OLe = cexpTVBinOp m .none y x OGe := by
  refine ⟨?_, ?_, ?_⟩
  · intro op hop
    by_cases harith : op.Arithmetic
    · rcases hx with hx | hx
      · rcases hy with hy | hy
        · exact integral_commutes m hx hy hop harith
        · exact (pointer_commutes m hy hx hop harith).symm
      · rcases hy with hy | hy
        · exact pointer_commutes m hx hy hop harith
        · exact pointers_commute m hx hy hop harith
    · exact comparison_commutes m hx hy hop (not_le.mp harith)
  · rw [cexpTVBinOp_compare_uint m hx hy (by decide), cexpTVBinOp_compare_uint m hy hx (by decide)]
    rfl
  · rw [cexpTVBinOp_compare_uint m hx hy (by decide), cexpTVBinOp_compare_uint m hy hx (by decide)]
    rfl

/-- A `char*` and a `short`. -/
theorem operands_commute_char :
    SameOutcome .ilp32 (cexpTVBinOp (softMachine .ilp32) .none ⟨0x1000, TUCharP⟩ ⟨3, TUShort⟩ OAdd)
      (cexpTVBinOp (softMachine .ilp32) .none ⟨3, TUShort⟩ ⟨0x1000, TUCharP⟩ OAdd) :=
  (@operands_commute (softMachine .ilp32) ⟨0x1000, TUCharP⟩ ⟨3, TUShort⟩ (.inr (by decide))
    (.inl (by decide))).1 OAdd (by decide)

end Cexp
