import Mathlib.Algebra.Order.Field.Basic
import Mathlib.Data.Nat.Log
import Mathlib.Data.Rat.Cast.Order
import Mathlib.Tactic.Linarith
import Mathlib.Tactic.NormNum
import Mathlib.Tactic.Positivity
import Mathlib.Tactic.Ring

/-!
# Integers in a binary interchange format

The value of a bit pattern of an IEEE format with `frac` fraction bits and `exp` exponent bits,
and which natural numbers such a pattern denotes: those with at most `frac + 1` significant bits
(`exists_value_iff`). `ofNat` is the conversion that drops the bits that have no room.
-/

namespace CLib

/-- At most `p` significant bits. -/
def Significant (p n : Nat) : Prop := ∃ s e, s < 2 ^ p ∧ n = s * 2 ^ e

theorem significant_of_lt {p n : Nat} (h : n < 2 ^ p) : Significant p n :=
  ⟨n, 0, h, by rw [Nat.pow_zero, Nat.mul_one]⟩

/-- An odd number has no zeros to spare. -/
theorem Significant.lt_of_odd {p n : Nat} (h : Significant p n) (hn : n % 2 = 1) : n < 2 ^ p := by
  obtain ⟨s, e, hs, rfl⟩ := h
  cases e with
  | zero =>
    rw [Nat.pow_zero, Nat.mul_one]
    exact hs
  | succ e =>
    rw [Nat.pow_succ, ← Nat.mul_assoc] at hn
    omega

/-- The widths of the fields of a format, below the sign. -/
structure Interchange where
  frac : Nat
  exp : Nat
  exp_ge : 2 ≤ exp

namespace Interchange

variable (F : Interchange)

/-- The bias of the exponent. -/
def bias : Nat := 2 ^ (F.exp - 1) - 1

/-- The magnitude that an exponent field and a fraction field denote. -/
def magnitude (e f : Nat) : ℚ :=
  (if e = 0 then f else 2 ^ F.frac + f : ℕ) * 2 ^ ((max e 1 : ℕ) - F.bias - F.frac : ℤ)

/-- The number that a bit pattern denotes; the last exponent is that of the infinities and of
what is no number. -/
def value (b : Nat) : Option ℚ :=
  let f := b % 2 ^ F.frac
  let e := b / 2 ^ F.frac % 2 ^ F.exp
  if e = 2 ^ F.exp - 1 then none
  else if b / 2 ^ F.frac / 2 ^ F.exp % 2 = 1 then some (-F.magnitude e f)
  else some (F.magnitude e f)

/-- Conversion of a natural number, towards zero. -/
def ofNat (n : Nat) : Nat :=
  if n = 0 then 0
  else
    let l := n.log2
    let s := if l ≤ F.frac then n * 2 ^ (F.frac - l) else n / 2 ^ (l - F.frac)
    (l + F.bias) * 2 ^ F.frac + (s - 2 ^ F.frac)

/-! ## Denoted numbers have few significant bits -/

theorem magnitude_nonneg (e f : Nat) : 0 ≤ F.magnitude e f := by
  unfold magnitude
  exact mul_nonneg (Nat.cast_nonneg _) (zpow_nonneg zero_le_two _)

/-- A natural number that is the magnitude of two fields. -/
theorem significant_of_magnitude {e f n : Nat} (hf : f < 2 ^ F.frac)
    (h : F.magnitude e f = n) : Significant (F.frac + 1) n := by
  unfold magnitude at h
  obtain ⟨s, hs⟩ : ∃ s, s = (if e = 0 then f else 2 ^ F.frac + f : ℕ) := ⟨_, rfl⟩
  have hlt : s < 2 ^ (F.frac + 1) := by
    rw [hs, Nat.pow_succ]
    split <;> omega
  rw [← hs] at h
  obtain ⟨z, hz⟩ : ∃ z : ℤ, z = (max e 1 : ℕ) - F.bias - F.frac := ⟨_, rfl⟩
  rw [← hz] at h
  rcases Int.eq_nat_or_neg z with ⟨k, rfl | rfl⟩
  · refine ⟨s, k, hlt, ?_⟩
    rw [zpow_natCast] at h
    exact_mod_cast h.symm
  · -- the number is a fraction of the significand
    refine ⟨n, 0, ?_, by simp⟩
    rw [zpow_neg, zpow_natCast, ← div_eq_mul_inv, div_eq_iff (by positivity)] at h
    have hsn : s = n * 2 ^ k := by exact_mod_cast h
    have hle : n ≤ n * 2 ^ k := Nat.le_mul_of_pos_right n (Nat.two_pow_pos k)
    omega

theorem significant_of_value {b n : Nat} (h : F.value b = some (n : ℚ)) :
    Significant (F.frac + 1) n := by
  have hf : b % 2 ^ F.frac < 2 ^ F.frac := Nat.mod_lt _ (Nat.two_pow_pos _)
  unfold value at h
  dsimp only at h
  split at h
  · cases h
  split at h
  · -- a negated magnitude is a natural number only if both are zero
    have hneg := Option.some.inj h
    have hmag := F.magnitude_nonneg (b / 2 ^ F.frac % 2 ^ F.exp) (b % 2 ^ F.frac)
    have hn : (0 : ℚ) ≤ n := Nat.cast_nonneg n
    have hzero : F.magnitude (b / 2 ^ F.frac % 2 ^ F.exp) (b % 2 ^ F.frac) = n := by
      linarith
    exact F.significant_of_magnitude hf hzero
  · exact F.significant_of_magnitude hf (Option.some.inj h)

/-! ## Conversion -/

theorem value_fields {e f : Nat} (he : e < 2 ^ F.exp - 1) (hf : f < 2 ^ F.frac) :
    F.value (e * 2 ^ F.frac + f) = some (F.magnitude e f) := by
  have hfrac : (e * 2 ^ F.frac + f) % 2 ^ F.frac = f := by
    rw [Nat.mul_add_mod', Nat.mod_eq_of_lt hf]
  have hrest : (e * 2 ^ F.frac + f) / 2 ^ F.frac = e := by
    rw [Nat.mul_comm, Nat.mul_add_div (Nat.two_pow_pos _), Nat.div_eq_of_lt hf, Nat.add_zero]
  have hlt : e < 2 ^ F.exp := by omega
  have hexp : e % 2 ^ F.exp = e := Nat.mod_eq_of_lt hlt
  have hsign : e / 2 ^ F.exp % 2 = 0 := by rw [Nat.div_eq_of_lt hlt]
  rw [value, hfrac, hrest, hexp, if_neg (by omega), hsign, if_neg (by decide)]

/-- The bits below the significand are zero. -/
theorem dvd_of_significant {p n : Nat} (h : Significant (p + 1) n) (hp : p < n.log2) :
    2 ^ (n.log2 - p) ∣ n := by
  obtain ⟨s, e, hs, hn⟩ := h
  have hn0 : n ≠ 0 := by
    rintro rfl
    rw [Nat.log2_zero] at hp
    omega
  have hle : n.log2 - p ≤ e := by
    by_contra hlt
    have hlog := Nat.log2_self_le hn0
    have hup : n < 2 ^ (p + 1 + e) := by
      rw [hn, Nat.pow_add]
      exact Nat.mul_lt_mul_of_pos_right hs (Nat.two_pow_pos e)
    have hmono : 2 ^ (p + 1 + e) ≤ 2 ^ n.log2 := Nat.pow_le_pow_right (by decide) (by omega)
    omega
  rw [hn] at hle ⊢
  exact Dvd.dvd.mul_left (Nat.pow_dvd_pow 2 hle) s

/-- A significand of full length for a number that is not zero. -/
structure IsSignificand (n s : Nat) : Prop where
  ge : 2 ^ F.frac ≤ s
  lt : s < 2 ^ (F.frac + 1)
  eq : (s : ℚ) * 2 ^ ((n.log2 : ℤ) - F.frac) = n

theorem isSignificand_ofNat {n : Nat} (hn : n ≠ 0) (h : Significant (F.frac + 1) n) :
    F.IsSignificand n
      (if n.log2 ≤ F.frac then n * 2 ^ (F.frac - n.log2) else n / 2 ^ (n.log2 - F.frac)) := by
  have hlow := Nat.log2_self_le hn
  have hhigh : n < 2 ^ (n.log2 + 1) := Nat.lt_log2_self
  by_cases hl : n.log2 ≤ F.frac
  · rw [if_pos hl]
    have hfrac : 2 ^ n.log2 * 2 ^ (F.frac - n.log2) = 2 ^ F.frac := by
      rw [← Nat.pow_add, Nat.add_sub_cancel' hl]
    have hpos := Nat.two_pow_pos (F.frac - n.log2)
    refine ⟨?_, ?_, ?_⟩
    · rw [← hfrac]
      exact Nat.mul_le_mul_right _ hlow
    · have hup := Nat.mul_lt_mul_of_pos_right hhigh hpos
      rw [Nat.pow_succ] at hup ⊢
      rw [← hfrac]
      linarith
    · have hexp : ((n.log2 : ℤ) - F.frac) = -((F.frac - n.log2 : ℕ) : ℤ) := by omega
      rw [hexp, zpow_neg, zpow_natCast, Nat.cast_mul, Nat.cast_pow, Nat.cast_ofNat]
      exact mul_inv_cancel_right₀ (by positivity) _
  · rw [if_neg hl]
    obtain ⟨s, hs⟩ := dvd_of_significant h (not_le.mp hl)
    have hpos := Nat.two_pow_pos (n.log2 - F.frac)
    have hdiv : n / 2 ^ (n.log2 - F.frac) = s := Nat.div_eq_of_eq_mul_right hpos hs
    have hfrac : 2 ^ (n.log2 - F.frac) * 2 ^ F.frac = 2 ^ n.log2 := by
      rw [← Nat.pow_add, Nat.sub_add_cancel (not_le.mp hl).le]
    rw [hdiv]
    refine ⟨?_, ?_, ?_⟩
    · apply Nat.le_of_mul_le_mul_left _ hpos
      rw [hfrac, ← hs]
      exact hlow
    · apply Nat.lt_of_mul_lt_mul_left (a := 2 ^ (n.log2 - F.frac))
      rw [Nat.pow_succ, ← Nat.mul_assoc, hfrac, ← hs, ← Nat.pow_succ]
      exact hhigh
    · have hexp : ((n.log2 : ℤ) - F.frac) = ((n.log2 - F.frac : ℕ) : ℤ) := by omega
      rw [hexp, zpow_natCast, mul_comm]
      exact_mod_cast hs.symm

theorem two_mul_bias : 2 * F.bias + 2 = 2 ^ F.exp := by
  have hge := F.exp_ge
  have hpos := Nat.two_pow_pos (F.exp - 1)
  have hsplit : 2 ^ F.exp = 2 ^ (F.exp - 1) * 2 := by
    rw [← Nat.pow_succ]
    congr 1
    omega
  rw [bias, hsplit]
  omega

theorem bias_pos : 0 < F.bias := by
  have hge := F.exp_ge
  have hpow : 2 ^ 1 ≤ 2 ^ (F.exp - 1) := Nat.pow_le_pow_right (by decide) (by omega)
  rw [bias]
  omega

/-- A number with few significant bits is converted exactly. -/
theorem value_ofNat {n : Nat} (h : Significant (F.frac + 1) n) (hn : n < 2 ^ (F.bias + 1)) :
    F.value (F.ofNat n) = some (n : ℚ) ∧ F.ofNat n < 2 ^ (F.exp + F.frac) := by
  have hbias := F.two_mul_bias
  have hbpos := F.bias_pos
  by_cases hn0 : n = 0
  · have hzero := F.value_fields (e := 0) (f := 0) (by omega) (Nat.two_pow_pos _)
    rw [Nat.zero_mul, Nat.zero_add] at hzero
    rw [hn0, ofNat, if_pos rfl, hzero, magnitude]
    exact ⟨by simp, Nat.two_pow_pos _⟩
  · obtain ⟨s, hs⟩ : ∃ s, s = if n.log2 ≤ F.frac then n * 2 ^ (F.frac - n.log2)
      else n / 2 ^ (n.log2 - F.frac) := ⟨_, rfl⟩
    obtain ⟨hge, hlt, heq⟩ := hs ▸ F.isSignificand_ofNat hn0 h
    have hl : n.log2 < F.bias + 1 := by
      rw [← Nat.pow_lt_pow_iff_right (a := 2) (by decide)]
      exact lt_of_le_of_lt (Nat.log2_self_le hn0) hn
    have hf : s - 2 ^ F.frac < 2 ^ F.frac := by
      rw [Nat.pow_succ] at hlt
      omega
    have he : n.log2 + F.bias < 2 ^ F.exp - 1 := by omega
    have hof : F.ofNat n = (n.log2 + F.bias) * 2 ^ F.frac + (s - 2 ^ F.frac) := by
      rw [ofNat, if_neg hn0, hs]
    rw [hof, F.value_fields he hf, magnitude, if_neg (by omega), Nat.add_sub_cancel' hge]
    refine ⟨congrArg some ?_, ?_⟩
    · have hexp : ((max (n.log2 + F.bias) 1 : ℕ) - F.bias - F.frac : ℤ) = n.log2 - F.frac := by
        omega
      rw [hexp]
      exact heq
    · have hup : (n.log2 + F.bias + 1) * 2 ^ F.frac ≤ 2 ^ F.exp * 2 ^ F.frac :=
        Nat.mul_le_mul_right _ (by omega)
      rw [Nat.pow_add]
      rw [Nat.add_mul, Nat.one_mul] at hup
      omega

/-- The integers that a bit pattern denotes. -/
theorem exists_value_iff {n : Nat} (hn : n < 2 ^ (F.bias + 1)) :
    (∃ b, b < 2 ^ (F.exp + F.frac + 1) ∧ F.value b = some (n : ℚ)) ↔
      Significant (F.frac + 1) n := by
  constructor
  · rintro ⟨b, -, hb⟩
    exact F.significant_of_value hb
  · intro h
    obtain ⟨hval, hlt⟩ := F.value_ofNat h hn
    refine ⟨F.ofNat n, hlt.trans ?_, hval⟩
    exact Nat.pow_lt_pow_right (by decide) (Nat.lt_succ_self _)

end Interchange

end CLib
