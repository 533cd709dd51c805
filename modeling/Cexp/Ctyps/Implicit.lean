import Mathlib.Data.BitVec
import Mathlib.Data.Rat.Cast.Order
import Cexp.Ctyps.Defined
import Cexp.Lib.Interchange

/-!
# Implicit casts of integers and pointers

An implicit cast of an integer or a pointer keeps the value (`ImplicitCastPreserves`) except in
three places: where `fits` computes `1<<32` in an `int`, where it lets every pointer into a `float`,
and where it lets every eight-byte value into a `double` (`implicitCastPreserves_iff`).
-/

namespace Cexp

open CexpType CLib

/-! ## The value that is cast -/

/-- A cast with a message leaves the value. -/
theorem castInPlace_failure {m : Machine} {v w : CexpTypedVal} {t : CexpType} {force : Bool}
    {msg : String} (h : castInPlace m v t force = .ok (some msg, w)) : w = v := by
  unfold castInPlace at h
  dsimp only at h
  split at h
  · split at h <;> cases h
    rfl
  generalize (if v.type.ptrq then TVoidP.indx else v.type.indx) = row at h
  generalize (if v.type.ptrq then t.indx else if t.ptrq then TVoidP.indx else t.indx) = col at h
  by_cases hrows : 7 ≤ row ∨ 7 ≤ col
  · rw [if_pos hrows] at h
    cases h
  rw [if_neg hrows] at h
  cases hc : ctab m row col with
  | none =>
    rw [hc] at h
    cases h
    rfl
  | some c =>
    rw [hc] at h
    dsimp only at h
    split at h <;> cases h
    · rfl
    · rfl

theorem castInPlace_ok_iff {m : Machine} {v w : CexpTypedVal} {t : CexpType} {force : Bool} :
    castInPlace m v t force = .ok (none, w) ↔ cexpTypeCast m v t force = .ok w := by
  rw [cexpTypeCast]
  cases castInPlace m v t force with
  | error e => simp
  | ok r =>
    obtain ⟨msg, u⟩ := r
    cases msg <;> simp

/-! ## Floating values -/

def binary32 : Interchange := ⟨23, 8, Nat.le_of_ble_eq_true rfl⟩

def binary64 : Interchange := ⟨52, 11, Nat.le_of_ble_eq_true rfl⟩

/-- The number that a `float` or a `double` holds. -/
def CexpTypedVal.number (v : CexpTypedVal) : Option ℚ :=
  if v.type = TFloat then binary32.value (CexpValU.f v.tv).toNat
  else binary64.value (CexpValU.d v.tv).toNat

/-- The rule of the C standard for the conversion of an integer: a value that can be represented
exactly is unchanged. -/
structure Fpu.ExactConversions (fpu : Fpu) : Prop where
  single : ∀ n : BitVec 64, (∃ b : BitVec 32, binary32.value b.toNat = some (n.toNat : ℚ)) →
    binary32.value (fpu.ofUIntF n).toNat = some (n.toNat : ℚ)
  double : ∀ n : BitVec 64, (∃ b : BitVec 64, binary64.value b.toNat = some (n.toNat : ℚ)) →
    binary64.value (fpu.ofUIntD n).toNat = some (n.toNat : ℚ)

theorem exists_float_iff (n : BitVec 64) :
    (∃ b : BitVec 32, binary32.value b.toNat = some (n.toNat : ℚ)) ↔ Significant 24 n.toNat := by
  have hn : n.toNat < 2 ^ (binary32.bias + 1) :=
    n.isLt.trans_le (Nat.pow_le_pow_right (by decide) (by decide))
  constructor
  · rintro ⟨b, hb⟩
    exact binary32.significant_of_value hb
  · intro h
    obtain ⟨b, hlt, hb⟩ := (binary32.exists_value_iff hn).mpr h
    have hlt' : b < 2 ^ 32 := hlt
    refine ⟨BitVec.ofNat 32 b, ?_⟩
    rw [BitVec.toNat_ofNat, Nat.mod_eq_of_lt hlt']
    exact hb

theorem exists_double_iff (n : BitVec 64) :
    (∃ b : BitVec 64, binary64.value b.toNat = some (n.toNat : ℚ)) ↔ Significant 53 n.toNat := by
  have hn : n.toNat < 2 ^ (binary64.bias + 1) :=
    n.isLt.trans_le (Nat.pow_le_pow_right (by decide) (by decide))
  constructor
  · rintro ⟨b, hb⟩
    exact binary64.significant_of_value hb
  · intro h
    obtain ⟨b, hlt, hb⟩ := (binary64.exists_value_iff hn).mpr h
    have hlt' : b < 2 ^ 64 := hlt
    refine ⟨BitVec.ofNat 64 b, ?_⟩
    rw [BitVec.toNat_ofNat, Nat.mod_eq_of_lt hlt']
    exact hb

/-! ## What a cast preserves -/

/-- An implicit cast keeps the value: to an integer or a pointer it succeeds if the value has room
there, to a floating type it is exact, and if it fails it changes nothing. Casts from pointer to
pointer do not convert. -/
structure ImplicitCastPreserves (m : Machine) (v : CexpTypedVal) (t : CexpType) : Prop where
  succeeds : Uint m.dm t → ¬(v.type.ptrq = true ∧ t.ptrq = true) →
    ((∃ w, castInPlace m v t false = .ok (none, w)) ↔
      (v.uint m.dm).toNat < 2 ^ (8 * t.typeSize m.dm))
  value : Uint m.dm t → ¬(v.type.ptrq = true ∧ t.ptrq = true) →
    ∀ w, castInPlace m v t false = .ok (none, w) → w.type = t ∧ w.uint m.dm = v.uint m.dm
  floating : t = TFloat ∨ t = TDouble →
    ∀ w, castInPlace m v t false = .ok (none, w) →
      w.type = t ∧ w.number = some ((v.uint m.dm).toNat : ℚ)
  failure : ∀ msg w, castInPlace m v t false = .ok (some msg, w) → w = v

/-- The value stays clear of the three places: `1<<32` is the bound of an `unsigned int` for this
value, a pointer has room in a `float` and an eight-byte value in a `double`. -/
structure CastKeeps (m : Machine) (v : CexpTypedVal) (t : CexpType) : Prop where
  bound : t = TUInt → 4 < v.type.typeSize m.dm →
    ((v.uint m.dm).toNat < m.oneShl32 ↔ (v.uint m.dm).toNat < 2 ^ 32)
  single : t = TFloat → v.type.ptrq = true → Significant 24 (v.uint m.dm).toNat
  double : t = TDouble → 4 < v.type.typeSize m.dm → Significant 53 (v.uint m.dm).toNat

section

variable (m : Machine) {v w : CexpTypedVal} {t : CexpType}

/-- The bound that `fits` compares with, and the one it means. -/
theorem uint_cast_iff (hv : Uint m.dm v.type) (ht : Uint m.dm t)
    (hptr : ¬(v.type.ptrq = true ∧ t.ptrq = true)) :
    (∃ w, castInPlace m v t false = .ok (none, w)) ↔
      (t.typeSize m.dm < v.type.typeSize m.dm →
        (v.uint m.dm).toNat < oneShl m (8 * t.typeSize m.dm)) := by
  simp only [castInPlace_ok_iff, cexpTypeCast_uint m hv ht hptr]
  by_cases hbad : t.typeSize m.dm < v.type.typeSize m.dm ∧
      ¬(v.uint m.dm).toNat < oneShl m (8 * t.typeSize m.dm)
  · rw [if_pos hbad]
    constructor
    · rintro ⟨w, ⟨⟩⟩
    · intro h
      exact absurd (h hbad.1) hbad.2
  · rw [if_neg hbad]
    refine iff_of_true ⟨_, rfl⟩ fun hlt => ?_
    by_contra hnot
    exact hbad ⟨hlt, hnot⟩

theorem toNat_uint_lt_typeSize (hv : Uint m.dm v.type) :
    (v.uint m.dm).toNat < 2 ^ (8 * v.type.typeSize m.dm) :=
  toNat_low_lt hv.typeSize_le_eight v.tv

/-- Only `unsigned int` is a smaller target that is not below the width of an `int`. -/
theorem typeSize_of_lt (ht : Uint m.dm t) (h : t.typeSize m.dm < m.dm.longSize) :
    t.typeSize m.dm < 4 ∨ t = TUInt := by
  have hall : ∀ dm : DataModel, ∀ t ∈ integralTypes dm, t.typeSize dm < dm.longSize →
      t.typeSize dm < 4 ∨ t = TUInt := by
    intro dm
    cases dm <;> decide
  rcases ht with ht | ht
  · exact hall m.dm t ht h
  · rw [typeSize_of_ptrq ht] at h
    exact absurd h (lt_irrefl _)

theorem uint_succeeds_iff (hv : Uint m.dm v.type) (ht : Uint m.dm t)
    (hptr : ¬(v.type.ptrq = true ∧ t.ptrq = true)) :
    ((∃ w, castInPlace m v t false = .ok (none, w)) ↔
      (v.uint m.dm).toNat < 2 ^ (8 * t.typeSize m.dm)) ↔
    (t = TUInt → 4 < v.type.typeSize m.dm →
      ((v.uint m.dm).toNat < m.oneShl32 ↔ (v.uint m.dm).toNat < 2 ^ 32)) := by
  rw [uint_cast_iff m hv ht hptr]
  have hfit := toNat_uint_lt_typeSize m hv
  by_cases hsize : t.typeSize m.dm < v.type.typeSize m.dm
  · rcases typeSize_of_lt m ht (hsize.trans_le hv.typeSize_le) with hsmall | rfl
    · -- the bound is computed without overflow
      have hbits : 8 * t.typeSize m.dm < 32 := by omega
      refine iff_of_true ?_ ?_
      · rw [oneShl, if_pos hbits]
        exact ⟨fun h => h hsize, fun h _ => h⟩
      · rintro rfl
        exact absurd hsmall (lt_irrefl 4)
    · have hbound : oneShl m (8 * TUInt.typeSize m.dm) = m.oneShl32 := rfl
      have hfour : TUInt.typeSize m.dm = 4 := rfl
      rw [hbound, hfour] at *
      constructor
      · intro h _ _
        exact ⟨fun hlt => h.mp fun _ => hlt, fun hlt => h.mpr hlt hsize⟩
      · intro h
        have h' := h rfl hsize
        exact ⟨fun hlt => h'.mp (hlt hsize), fun hlt _ => h'.mpr hlt⟩
  · refine iff_of_true (iff_of_true (fun h => absurd h hsize) ?_) ?_
    · exact hfit.trans_le (Nat.pow_le_pow_right (by decide) (by omega))
    · rintro rfl hlong
      exact absurd hlong hsize

/-- A cast that succeeds keeps what has room in the target. -/
theorem uint_value (hv : Uint m.dm v.type) (ht : Uint m.dm t)
    (hptr : ¬(v.type.ptrq = true ∧ t.ptrq = true))
    (hfit : (v.uint m.dm).toNat < 2 ^ (8 * t.typeSize m.dm))
    (h : castInPlace m v t false = .ok (none, w)) : w.type = t ∧ w.uint m.dm = v.uint m.dm := by
  rw [castInPlace_ok_iff, cexpTypeCast_uint m hv ht hptr] at h
  split at h
  · cases h
  · rw [← Except.ok.inj h]
    refine ⟨rfl, ?_⟩
    rw [CexpTypedVal.uint, low_low ht.typeSize_le_eight (le_refl _),
      low_of_lt ht.typeSize_le_eight hfit]

/-! ## Floating targets -/

theorem floatCast (hv : Uint m.dm v.type) (ht : t = TFloat ∨ t = TDouble) :
    cexpTypeCast m v t false =
      (fits m v t >>= fun b => if b then .ok ⟨if t = TFloat
          then (m.fpu.ofUIntF (v.uint m.dm)).setWidth 64 else m.fpu.ofUIntD (v.uint m.dm), t⟩
        else .error castRefused) := by
  have hrow := hv.row_le
  have hfacts : t.ptrq = false ∧ t.row = if t = TFloat then 5 else 6 := by
    rcases ht with rfl | rfl
    · exact ⟨rfl, rfl⟩
    · exact ⟨rfl, rfl⟩
  have htrow : ¬(7 ≤ v.type.row ∨ 7 ≤ t.row) := by
    rw [hfacts.2]
    split <;> omega
  have hptr : ¬(v.type.ptrq = true ∧ t.ptrq = true) := not_both_of_right hfacts.1
  have hctab : ctab m v.type.row t.row = some fun u => if t = TFloat
      then (m.fpu.ofUIntF (CexpValU.low (v.type.typeSize m.dm) u)).setWidth 64
      else m.fpu.ofUIntD (CexpValU.low (v.type.typeSize m.dm) u) := by
    rw [ctab, if_pos hrow, hfacts.2]
    simp only [readUInt_row hv]
    rcases ht with rfl | rfl
    · rfl
    · rfl
  rw [cexpTypeCast_fits m hptr htrow hctab]
  rfl

theorem fits_float (hv : Uint m.dm v.type) : fits m v TFloat = .ok (fitsMantissa m.dm v) := by
  rw [fits_eq, hv.fpq]
  rfl

theorem fits_double (hv : Uint m.dm v.type) : fits m v TDouble = .ok true := by
  have hsize : ¬TDouble.typeSize m.dm < v.type.typeSize m.dm := not_lt.mpr hv.typeSize_le_eight
  rw [fits_eq, hv.fpq]
  exact fitsNarrow_wide m hsize

/-- A pointer passes the test for a `float`, whatever its value. -/
theorem fitsMantissa_ptr (dm : DataModel) (h : v.type.ptrq = true) : fitsMantissa dm v = true := by
  have hlong : v.type ≠ TULong dm := by
    intro hv
    rw [hv, (integral_ulong dm).facts.ptrq] at h
    cases h
  have hint : v.type ≠ TUInt := by
    intro hv
    rw [hv] at h
    exact absurd h (by decide)
  rw [fitsMantissa, if_neg hlong, if_neg hint]
  rfl

/-- An integer that passes the test has room in the significand. -/
theorem fitsMantissa_integral {dm : DataModel} (hv : Integral dm v.type)
    (h : fitsMantissa dm v = true) : (v.uint dm).toNat < 2 ^ 24 := by
  have hlt : (v.uint dm).toNat < 2 ^ v.type.bits := toNat_uint_lt hv
  have hcases : v.type = TUChar ∨ v.type = TUShort ∨ v.type = TUInt ∨ v.type = TULong dm := by
    simpa [Integral, integralTypes] using hv
  rw [fitsMantissa, decide_eq_true_iff] at h
  rcases hcases with hc | hs | hi | hl
  · rw [hc] at hlt
    exact hlt.trans_le (Nat.pow_le_pow_right (by decide) (by decide))
  · rw [hs] at hlt
    exact hlt.trans_le (Nat.pow_le_pow_right (by decide) (by decide))
  · have hne : TUInt ≠ TULong dm := by
      cases dm <;> decide
    rw [hi, if_neg hne, if_pos rfl] at h
    rw [CexpTypedVal.uint, hi]
    exact h
  · rw [hl, if_pos rfl] at h
    rw [CexpTypedVal.uint, hl, typeSize_ulong]
    exact h

theorem number_float (tv : BitVec 32) :
    CexpTypedVal.number ⟨tv.setWidth 64, TFloat⟩ = binary32.value tv.toNat := by
  have hback : (tv.setWidth 64).setWidth 32 = tv := BitVec.setWidth_setWidth_of_le tv (by decide)
  rw [CexpTypedVal.number, if_pos rfl, CexpValU.f, hback]

/-- Into a `float`. -/
theorem float_exact_iff (hf : m.fpu.ExactConversions) (hv : Uint m.dm v.type) :
    (∀ w, castInPlace m v TFloat false = .ok (none, w) →
        w.type = TFloat ∧ w.number = some ((v.uint m.dm).toNat : ℚ)) ↔
      (v.type.ptrq = true → Significant 24 (v.uint m.dm).toNat) := by
  have hcast := floatCast m hv (t := TFloat) (.inl rfl)
  rw [fits_float m hv, if_pos rfl] at hcast
  simp only [castInPlace_ok_iff, hcast]
  have hexact : Significant 24 (v.uint m.dm).toNat →
      binary32.value (m.fpu.ofUIntF (v.uint m.dm)).toNat = some ((v.uint m.dm).toNat : ℚ) :=
    fun h => hf.single _ ((exists_float_iff _).mpr h)
  cases hfits : fitsMantissa m.dm v with
  | true =>
    constructor
    · intro h _
      obtain ⟨-, hnum⟩ := h _ rfl
      rw [number_float] at hnum
      exact (exists_float_iff _).mp ⟨_, hnum⟩
    · rintro h w hw
      have hw' := (Except.ok.inj hw).symm
      rw [hw', number_float]
      refine ⟨rfl, hexact ?_⟩
      rcases hv with hi | hp
      · exact significant_of_lt (fitsMantissa_integral hi hfits)
      · exact h hp
  | false =>
    refine iff_of_true ?_ fun hp => ?_
    · rintro w ⟨⟩
    · rw [fitsMantissa_ptr m.dm hp] at hfits
      cases hfits

/-- Into a `double`. -/
theorem double_exact_iff (hf : m.fpu.ExactConversions) (hv : Uint m.dm v.type) :
    (∀ w, castInPlace m v TDouble false = .ok (none, w) →
        w.type = TDouble ∧ w.number = some ((v.uint m.dm).toNat : ℚ)) ↔
      (4 < v.type.typeSize m.dm → Significant 53 (v.uint m.dm).toNat) := by
  have hcast := floatCast m hv (t := TDouble) (.inr rfl)
  have hne : TDouble ≠ TFloat := by decide
  rw [fits_double m hv, if_neg hne] at hcast
  simp only [castInPlace_ok_iff, hcast]
  have hnumber : ∀ u, CexpTypedVal.number ⟨u, TDouble⟩ = binary64.value u.toNat :=
    fun u => if_neg hne
  constructor
  · intro h _
    obtain ⟨-, hnum⟩ := h _ rfl
    rw [hnumber] at hnum
    exact (exists_double_iff _).mp ⟨_, hnum⟩
  · rintro h w hw
    have hw' := (Except.ok.inj hw).symm
    rw [hw', hnumber]
    refine ⟨rfl, hf.double _ ((exists_double_iff _).mpr ?_)⟩
    by_cases hlong : 4 < v.type.typeSize m.dm
    · exact h hlong
    · apply significant_of_lt
      exact (toNat_uint_lt_typeSize m hv).trans_le
        (Nat.pow_le_pow_right (by decide) (by omega))

/-- When an implicit cast of an integer or a pointer keeps the value. -/
theorem implicitCastPreserves_iff (t : CexpType) (hf : m.fpu.ExactConversions)
    (hv : Uint m.dm v.type) : ImplicitCastPreserves m v t ↔ CastKeeps m v t := by
  have huint : Uint m.dm TUInt := .inl (by simp [Integral, integralTypes])
  constructor
  · intro h
    refine ⟨?_, ?_, ?_⟩
    · rintro rfl
      have hptr : ¬(v.type.ptrq = true ∧ TUInt.ptrq = true) := fun hp => absurd hp.2 (by decide)
      exact (uint_succeeds_iff m hv huint hptr).mp (h.succeeds huint hptr) rfl
    · rintro rfl
      exact (float_exact_iff m hf hv).mp (h.floating (.inl rfl))
    · rintro rfl
      exact (double_exact_iff m hf hv).mp (h.floating (.inr rfl))
  · rintro ⟨hbound, hsingle, hdouble⟩
    have hsucceeds := fun ht hptr => (uint_succeeds_iff m (t := t) hv ht hptr).mpr hbound
    refine ⟨hsucceeds, ?_, ?_, ?_⟩
    · intro ht hptr w hw
      exact uint_value m hv ht hptr ((hsucceeds ht hptr).mp ⟨w, hw⟩) hw
    · rintro (rfl | rfl)
      · exact (float_exact_iff m hf hv).mpr (hsingle rfl)
      · exact (double_exact_iff m hf hv).mpr (hdouble rfl)
    · intro msg w hw
      exact castInPlace_failure hw

end

/-! ## A target with exact conversions -/

/-- Conversions towards zero, and no other floating point. -/
def chopFpu : Fpu :=
  { softFpu with
    ofUIntF := fun n => BitVec.ofNat 32 (binary32.ofNat n.toNat)
    ofUIntD := fun n => BitVec.ofNat 64 (binary64.ofNat n.toNat) }

theorem chopFpu_exact : chopFpu.ExactConversions := by
  constructor
  · intro n hn
    have hlt : n.toNat < 2 ^ (binary32.bias + 1) :=
      n.isLt.trans_le (Nat.pow_le_pow_right (by decide) (by decide))
    obtain ⟨hval, hbits⟩ := binary32.value_ofNat ((exists_float_iff n).mp hn) hlt
    have hbits' : binary32.ofNat n.toNat < 2 ^ 32 := hbits.trans (by decide)
    show binary32.value (BitVec.ofNat 32 (binary32.ofNat n.toNat)).toNat = _
    rw [BitVec.toNat_ofNat, Nat.mod_eq_of_lt hbits', hval]
  · intro n hn
    have hlt : n.toNat < 2 ^ (binary64.bias + 1) :=
      n.isLt.trans_le (Nat.pow_le_pow_right (by decide) (by decide))
    obtain ⟨hval, hbits⟩ := binary64.value_ofNat ((exists_double_iff n).mp hn) hlt
    have hbits' : binary64.ofNat n.toNat < 2 ^ 64 := hbits.trans (by decide)
    show binary64.value (BitVec.ofNat 64 (binary64.ofNat n.toNat)).toNat = _
    rw [BitVec.toNat_ofNat, Nat.mod_eq_of_lt hbits', hval]

def chopMachine : Machine := { softMachine .lp64 with fpu := chopFpu }

/-- `(double)(1<<54)` keeps the value. -/
theorem implicitCastPreserves_double :
    ImplicitCastPreserves chopMachine ⟨0x40000000000000, TULong .lp64⟩ TDouble := by
  have hv : Uint chopMachine.dm (⟨0x40000000000000, TULong .lp64⟩ : CexpTypedVal).type := by decide
  refine (implicitCastPreserves_iff chopMachine TDouble chopFpu_exact hv).mpr ?_
  exact ⟨fun h => absurd h (by decide), fun h => absurd h (by decide), fun _ _ => ⟨1, 54, by decide⟩⟩

/-- `2^53+1` passes into a `double`, the pointer `2^24+1` into a `float`, and `5` does not pass into
an `unsigned int`. -/
theorem cast_loses_value :
    ¬ImplicitCastPreserves chopMachine ⟨0x20000000000001, TULong .lp64⟩ TDouble ∧
      ¬ImplicitCastPreserves chopMachine ⟨0x1000001, TVoidP⟩ TFloat ∧
      ¬ImplicitCastPreserves chopMachine ⟨5, TULong .lp64⟩ TUInt := by
  have hlong : ∀ n, Uint chopMachine.dm (⟨n, TULong .lp64⟩ : CexpTypedVal).type := by
    intro n
    exact .inl (integral_ulong .lp64)
  have hptr : Uint chopMachine.dm (⟨0x1000001, TVoidP⟩ : CexpTypedVal).type := .inr (by decide)
  refine ⟨?_, ?_, ?_⟩
  · intro h
    have hexact := (double_exact_iff chopMachine chopFpu_exact (hlong _)).mp
      (h.floating (.inr rfl)) (by decide)
    exact absurd (hexact.lt_of_odd (by decide)) (by decide)
  · intro h
    have hexact := (float_exact_iff chopMachine chopFpu_exact hptr).mp
      (h.floating (.inl rfl)) (by decide)
    exact absurd (hexact.lt_of_odd (by decide)) (by decide)
  · intro h
    have huint : Uint chopMachine.dm TUInt := by decide
    have hbound := (h.succeeds huint (by decide)).mpr (by decide)
    obtain ⟨w, hw⟩ := hbound
    have hrefused : castInPlace chopMachine ⟨5, TULong .lp64⟩ TUInt false = .ok (some
      "cannot perform implicit cast; would truncate source value - use explicit cast to override",
      ⟨5, TULong .lp64⟩) := by decide
    rw [hrefused] at hw
    cases hw

end Cexp
