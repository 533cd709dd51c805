import Mathlib.Data.BitVec
import Cexp.Ctyps.Engine

/-!
# Casts of integers and pointers

Integral types and pointers are the types whose values the engine reads as unsigned integers
(`CexpType.Uint`). The converter matrix does the same for all of them: read the member that the
type names, keep what the target has room for (`cexpTypeCast_force`, `cexpTypeCast_uint`).
-/

namespace Cexp

open CexpType

/-! ## Pointers among the operands -/

theorem not_both_of_left {s t : CexpType} (h : s.ptrq = false) :
    ¬(s.ptrq = true ∧ t.ptrq = true) := fun hboth => Bool.false_ne_true (h.symm.trans hboth.1)

theorem not_both_of_right {s t : CexpType} (h : t.ptrq = false) :
    ¬(s.ptrq = true ∧ t.ptrq = true) := fun hboth => Bool.false_ne_true (h.symm.trans hboth.2)

/-- What `binop` asserts. -/
theorem binop_asserted {v w : CexpTypedVal} (hvw : w.type = v.type) (h : v.type.ptrq = false) :
    ¬(v.type ≠ w.type ∨ v.type.ptrq = true) := by
  rw [hvw, h]
  exact fun hor => hor.elim (fun hne => hne rfl) Bool.false_ne_true

/-! ## The low bytes of a word -/

theorem toNat_low {n : Nat} (hn : n ≤ 8) (u : BitVec 64) :
    (CexpValU.low n u).toNat = u.toNat % 2 ^ (8 * n) := by
  have hle : 2 ^ (8 * n) ≤ 2 ^ 64 := Nat.pow_le_pow_right (by decide) (by omega)
  have hpos := Nat.two_pow_pos (8 * n)
  rw [CexpValU.low, BitVec.toNat_and, BitVec.toNat_ofNat, Nat.mod_eq_of_lt (by omega),
    Nat.and_two_pow_sub_one_eq_mod]

theorem low_of_lt {n : Nat} (hn : n ≤ 8) {u : BitVec 64} (h : u.toNat < 2 ^ (8 * n)) :
    CexpValU.low n u = u := by
  apply BitVec.eq_of_toNat_eq
  rw [toNat_low hn, Nat.mod_eq_of_lt h]

theorem toNat_low_lt {n : Nat} (hn : n ≤ 8) (u : BitVec 64) :
    (CexpValU.low n u).toNat < 2 ^ (8 * n) := by
  rw [toNat_low hn]
  exact Nat.mod_lt _ (Nat.two_pow_pos _)

theorem low_low {k n : Nat} (hn : n ≤ 8) (hkn : k ≤ n) (u : BitVec 64) :
    CexpValU.low k (CexpValU.low n u) = CexpValU.low k u := by
  apply BitVec.eq_of_toNat_eq
  rw [toNat_low (hkn.trans hn), toNat_low hn, toNat_low (hkn.trans hn),
    Nat.mod_mod_of_dvd _ (Nat.pow_dvd_pow 2 (by omega))]

theorem low_low_of_le {k n : Nat} (hk : k ≤ 8) (hnk : n ≤ k) (u : BitVec 64) :
    CexpValU.low k (CexpValU.low n u) = CexpValU.low n u := by
  apply low_of_lt hk
  exact lt_of_lt_of_le (toNat_low_lt (hnk.trans hk) u)
    (Nat.pow_le_pow_right (by decide) (by omega))

theorem setWidth_low {n w : Nat} (hn : n ≤ 8) (hw : w ≤ 8 * n) (u : BitVec 64) :
    (CexpValU.low n u).setWidth w = u.setWidth w := by
  apply BitVec.eq_of_toNat_eq
  rw [BitVec.toNat_setWidth, BitVec.toNat_setWidth, toNat_low hn,
    Nat.mod_mod_of_dvd _ (Nat.pow_dvd_pow 2 hw)]

/-! ## Integral types and pointers -/

namespace CexpType

def integralTypes (dm : DataModel) : List CexpType := [TUChar, TUShort, TUInt, TULong dm]

/-- An integral type. -/
def Integral (dm : DataModel) (t : CexpType) : Prop := t ∈ integralTypes dm

/-- A type whose values are read as unsigned integers. -/
def Uint (dm : DataModel) (t : CexpType) : Prop := Integral dm t ∨ t.ptrq = true

instance (dm : DataModel) (t : CexpType) : Decidable (Integral dm t) :=
  inferInstanceAs (Decidable (t ∈ integralTypes dm))

instance (dm : DataModel) (t : CexpType) : Decidable (Uint dm t) :=
  inferInstanceAs (Decidable (_ ∨ _))

/-- The matrix index by which a type is converted. -/
def row (t : CexpType) : Nat := if t.ptrq then TVoidP.indx else t.indx

variable {dm : DataModel} {t : CexpType}

/-- What the macros say of an integral type. -/
structure IntegralFacts (dm : DataModel) (t : CexpType) : Prop where
  ptrq : t.ptrq = false
  fpq : t.fpq = false
  scalarq : t.scalarq dm = true
  row_pos : 0 < t.row
  row_le : t.row ≤ 4
  size_pos : 0 < t.baseTypeSize
  size_le : t.baseTypeSize ≤ dm.longSize

theorem Integral.facts (h : Integral dm t) : IntegralFacts dm t := by
  have hall : ∀ dm, ∀ t ∈ integralTypes dm, t.ptrq = false ∧ t.fpq = false ∧
      t.scalarq dm = true ∧ 0 < t.row ∧ t.row ≤ 4 ∧ 0 < t.baseTypeSize ∧
      t.baseTypeSize ≤ dm.longSize := by
    intro dm
    cases dm <;> decide
  obtain ⟨h₁, h₂, h₃, h₄, h₅, h₆, h₇⟩ := hall dm t h
  exact ⟨h₁, h₂, h₃, h₄, h₅, h₆, h₇⟩

theorem Integral.uint (h : Integral dm t) : Uint dm t := .inl h

theorem integral_ulong (dm : DataModel) : Integral dm (TULong dm) := by
  simp [Integral, integralTypes]

theorem Integral.typeSize (h : Integral dm t) : t.typeSize dm = t.baseTypeSize := by
  rw [CexpType.typeSize, h.facts.ptrq]
  rfl

theorem typeSize_of_ptrq (h : t.ptrq = true) : t.typeSize dm = dm.longSize := by
  rw [CexpType.typeSize, if_pos h]

theorem longSize_le (dm : DataModel) : dm.longSize ≤ 8 := by
  cases dm <;> decide

theorem longSize_pos (dm : DataModel) : 0 < dm.longSize := by
  cases dm <;> decide

theorem typeSize_ulong (dm : DataModel) : (TULong dm).typeSize dm = dm.longSize := by
  cases dm <;> rfl

theorem Uint.typeSize_le (h : Uint dm t) : t.typeSize dm ≤ dm.longSize := by
  rcases h with h | h
  · rw [h.typeSize]
    exact h.facts.size_le
  · exact (typeSize_of_ptrq h).le

theorem Uint.typeSize_le_eight (h : Uint dm t) : t.typeSize dm ≤ 8 :=
  h.typeSize_le.trans (longSize_le dm)

theorem Uint.row_le (h : Uint dm t) : t.row ≤ 4 := by
  rcases h with h | h
  · exact h.facts.row_le
  · rw [row, if_pos h]
    decide

theorem Uint.fpq (h : Uint dm t) : t.fpq = false := by
  rcases h with h | h
  · exact h.facts.fpq
  · rw [CexpType.fpq, h]
    rfl

end CexpType

/-- The unsigned value of an integer or a pointer. -/
def CexpTypedVal.uint (dm : DataModel) (v : CexpTypedVal) : BitVec 64 :=
  CexpValU.low (v.type.typeSize dm) v.tv

/-! ## Conversions of unsigned integers -/

variable {dm : DataModel} {t : CexpType}

theorem readUInt_row (h : Uint dm t) (u : BitVec 64) :
    readUInt dm t.row u = CexpValU.low (t.typeSize dm) u := by
  rcases h with h | h
  · rcases List.mem_cons.mp h with rfl | h
    · rfl
    rcases List.mem_cons.mp h with rfl | h
    · rfl
    rcases List.mem_cons.mp h with rfl | h
    · rfl
    · rw [List.mem_singleton.mp h]
      cases dm <;> rfl
  · rw [row, if_pos h, typeSize_of_ptrq h]
    rfl

theorem truncUInt_row (h : Uint dm t) (u : BitVec 64) :
    truncUInt dm t.row u = CexpValU.low (t.typeSize dm) u := by
  rw [← readUInt_row h]
  rfl

/-- The converter from one unsigned integer to another. -/
theorem ctab_uint (m : Machine) {s t : CexpType} (hs : Uint m.dm s) (ht : Uint m.dm t) :
    ctab m s.row t.row = some fun u =>
      CexpValU.low (t.typeSize m.dm) (CexpValU.low (s.typeSize m.dm) u) := by
  rw [ctab, if_pos hs.row_le, if_pos ht.row_le]
  congr 1
  funext u
  rw [truncUInt_row ht, readUInt_row hs]

/-- The value that `fits` compares. -/
theorem fitsValue_uint (m : Machine) {v : CexpTypedVal} (h : Uint m.dm v.type) :
    fitsValue m v = .ok (some (v.uint m.dm)) := by
  rw [fitsValue, CexpTypedVal.uint]
  rcases h with h | h
  · rw [if_neg (by rw [h.facts.ptrq]; decide)]
    have hne : ∀ dm, (integralTypes dm).Pairwise (· ≠ ·) := by
      intro dm
      cases dm <;> decide
    obtain ⟨tv, t⟩ := v
    dsimp only at h ⊢
    rcases List.mem_cons.mp h with rfl | h
    · rfl
    rcases List.mem_cons.mp h with rfl | h
    · rfl
    rcases List.mem_cons.mp h with rfl | h
    · rfl
    · rw [List.mem_singleton.mp h]
      cases m.dm <;> rfl
  · rw [if_pos h, typeSize_of_ptrq h]
    rfl

/-- A pointer is cast to another one by its type alone. -/
theorem cexpTypeCast_ptrs (m : Machine) {v : CexpTypedVal} {t : CexpType} (force : Bool)
    (hptr : v.type.ptrq = true ∧ t.ptrq = true) :
    cexpTypeCast m v t force =
      if !force && decide (t.baseTypeSize > v.type.baseTypeSize) then
        .error (.error "cannot cast, target pointer element type too small")
      else .ok { v with type := t } := by
  rw [cexpTypeCast, castInPlace, if_pos (by simpa using hptr)]
  cases !force && decide (t.baseTypeSize > v.type.baseTypeSize) <;> rfl

/-- The type a cast looks up in the matrix. -/
theorem cexpTypeCast_eq (m : Machine) (v : CexpTypedVal) (t : CexpType) (force : Bool)
    (hptr : ¬(v.type.ptrq = true ∧ t.ptrq = true)) :
    cexpTypeCast m v t force =
      if 7 ≤ v.type.row ∨ 7 ≤ t.row then .error (.fault .badIndex)
      else match ctab m v.type.row t.row with
        | none => .error (.error "forbidden cast")
        | some c =>
          if force then .ok ⟨c v.tv, t⟩
          else match fits m v t with
            | .error e => .error e
            | .ok false => .error (.error
                "cannot perform implicit cast; would truncate source value - use explicit cast to override")
            | .ok true => .ok ⟨c v.tv, t⟩ := by
  have hrow : (if v.type.ptrq then t.indx else if t.ptrq then TVoidP.indx else t.indx) = t.row := by
    rw [row]
    by_cases hv : v.type.ptrq = true
    · rw [if_pos hv, if_neg (fun ht => hptr ⟨hv, ht⟩)]
    · rw [if_neg hv]
  have hcol : (if v.type.ptrq then TVoidP.indx else v.type.indx) = v.type.row := rfl
  rw [cexpTypeCast, castInPlace, if_neg (by simpa using hptr)]
  simp only [hrow, hcol]
  by_cases hrows : 7 ≤ v.type.row ∨ 7 ≤ t.row
  · rw [if_pos hrows, if_pos hrows]
  rw [if_neg hrows, if_neg hrows]
  cases ctab m v.type.row t.row with
  | none => rfl
  | some c =>
    cases force with
    | true => rfl
    | false =>
      dsimp only
      rw [if_neg Bool.false_ne_true, if_neg Bool.false_ne_true]
      cases fits m v t with
      | error stop => cases stop <;> rfl
      | ok b => cases b <;> rfl

/-- A forced cast keeps what the target has room for. -/
theorem cexpTypeCast_force (m : Machine) {v : CexpTypedVal} {t : CexpType}
    (hv : Uint m.dm v.type) (ht : Uint m.dm t) (hptr : ¬(v.type.ptrq = true ∧ t.ptrq = true)) :
    cexpTypeCast m v t true = .ok ⟨CexpValU.low (t.typeSize m.dm) (v.uint m.dm), t⟩ := by
  have hrows : ¬(7 ≤ v.type.row ∨ 7 ≤ t.row) := by
    have h₁ := hv.row_le
    have h₂ := ht.row_le
    omega
  rw [cexpTypeCast_eq m v t true hptr, if_neg hrows, ctab_uint m hv ht]
  rfl

/-- An implicit cast does so if the value is below the bound that `fits` computes. -/
theorem cexpTypeCast_uint (m : Machine) {v : CexpTypedVal} {t : CexpType}
    (hv : Uint m.dm v.type) (ht : Uint m.dm t) (hptr : ¬(v.type.ptrq = true ∧ t.ptrq = true)) :
    cexpTypeCast m v t false =
      if t.typeSize m.dm < v.type.typeSize m.dm ∧
          ¬(v.uint m.dm).toNat < oneShl m (8 * t.typeSize m.dm) then
        .error (.error
          "cannot perform implicit cast; would truncate source value - use explicit cast to override")
      else .ok ⟨CexpValU.low (t.typeSize m.dm) (v.uint m.dm), t⟩ := by
  have hrows : ¬(7 ≤ v.type.row ∨ 7 ≤ t.row) := by
    have h₁ := hv.row_le
    have h₂ := ht.row_le
    omega
  rw [cexpTypeCast_eq m v t false hptr, if_neg hrows, ctab_uint m hv ht]
  have hfits : fits m v t = .ok (decide (¬(t.typeSize m.dm < v.type.typeSize m.dm ∧
      ¬(v.uint m.dm).toNat < oneShl m (8 * t.typeSize m.dm)))) := by
    rw [fits, ht.fpq, hv.fpq, fitsValue_uint m hv]
    by_cases hsize : t.typeSize m.dm < v.type.typeSize m.dm
    · by_cases hlt : (v.uint m.dm).toNat < oneShl m (8 * t.typeSize m.dm) <;> simp [hsize, hlt]
    · simp [hsize]
  rw [hfits]
  by_cases hbad : t.typeSize m.dm < v.type.typeSize m.dm ∧
      ¬(v.uint m.dm).toNat < oneShl m (8 * t.typeSize m.dm)
  · rw [if_pos hbad, decide_eq_false (not_not.mpr hbad)]
    rfl
  · rw [if_neg hbad, decide_eq_true hbad]
    rfl

/-- A cast to a type that is not smaller keeps the value. -/
theorem cexpTypeCast_widen (m : Machine) {v : CexpTypedVal} {t : CexpType} {force : Bool}
    (hv : Uint m.dm v.type) (ht : Uint m.dm t) (hptr : ¬(v.type.ptrq = true ∧ t.ptrq = true))
    (hsize : v.type.typeSize m.dm ≤ t.typeSize m.dm) :
    cexpTypeCast m v t force = .ok ⟨v.uint m.dm, t⟩ := by
  have hlow : CexpValU.low (t.typeSize m.dm) (v.uint m.dm) = v.uint m.dm :=
    low_low_of_le ht.typeSize_le_eight hsize v.tv
  cases force with
  | true => rw [cexpTypeCast_force m hv ht hptr, hlow]
  | false =>
    rw [cexpTypeCast_uint m hv ht hptr, if_neg (fun h => absurd h.1 (by omega)), hlow]

end Cexp
