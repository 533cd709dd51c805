import Mathlib.Data.Nat.Bitwise
import Mathlib.Tactic.Ring

/-!
# Bit masks read from the highest bit

A list of flags that is shifted into a number, one after the other (`shiftIn`), and the bits of a
number from the highest of `n` down (`digitsDown`). The two are inverse to each other.
-/

namespace CLib

/-- The flags `bs` shifted into `mask` from below, the first first. -/
def shiftIn (mask : Nat) (bs : List Bool) : Nat := bs.foldl (fun k b => 2 * k + b.toNat) mask

/-- The lowest `n` bits of `mask`, the highest of them first. -/
def digitsDown : Nat → Nat → List Bool
  | 0, _ => []
  | n + 1, mask => mask.testBit n :: digitsDown n mask

@[simp] theorem shiftIn_nil (mask : Nat) : shiftIn mask [] = mask := rfl

@[simp] theorem shiftIn_cons (mask : Nat) (b : Bool) (bs : List Bool) :
    shiftIn mask (b :: bs) = shiftIn (2 * mask + b.toNat) bs := rfl

theorem shiftIn_append (mask : Nat) (bs cs : List Bool) :
    shiftIn mask (bs ++ cs) = shiftIn (shiftIn mask bs) cs := List.foldl_append

@[simp] theorem length_digitsDown (n mask : Nat) : (digitsDown n mask).length = n := by
  induction n with
  | zero => rfl
  | succ n ih => simp [digitsDown, ih]

/-- The number that the flags were shifted into stands above them. -/
theorem shiftIn_div (mask : Nat) (bs : List Bool) :
    shiftIn mask bs / 2 ^ bs.length = mask := by
  induction bs generalizing mask with
  | nil => simp
  | cons b bs ih =>
    have hb := Bool.toNat_lt b
    rw [shiftIn_cons, List.length_cons, Nat.pow_succ, ← Nat.div_div_eq_div_mul, ih]
    omega

theorem shiftIn_lt (bs : List Bool) : shiftIn 0 bs < 2 ^ bs.length := by
  apply Nat.lt_of_div_eq_zero (Nat.two_pow_pos _)
  exact shiftIn_div 0 bs

theorem digitsDown_shiftIn (mask : Nat) (bs : List Bool) :
    digitsDown bs.length (shiftIn mask bs) = bs := by
  induction bs generalizing mask with
  | nil => rfl
  | cons b bs ih =>
    have hbit : (shiftIn (2 * mask + b.toNat) bs).testBit bs.length = b := by
      rw [Nat.testBit_eq_decide_div_mod_eq, shiftIn_div]
      cases b <;> simp
    rw [List.length_cons, digitsDown, shiftIn_cons, ih, hbit]

theorem shiftIn_digitsDown (n mask k : Nat) :
    shiftIn k (digitsDown n mask) = k * 2 ^ n + mask % 2 ^ n := by
  induction n generalizing k with
  | zero => simp [digitsDown, Nat.mod_one]
  | succ n ih =>
    rw [digitsDown, shiftIn_cons, ih, Nat.pow_succ, Nat.mod_mul, Nat.toNat_testBit]
    ring

/-- A number is known by its bits. -/
theorem digitsDown_inj {n k l : Nat} (hk : k < 2 ^ n) (hl : l < 2 ^ n)
    (h : digitsDown n k = digitsDown n l) : k = l := by
  have hshift := congrArg (shiftIn 0) h
  rw [shiftIn_digitsDown, shiftIn_digitsDown, Nat.mod_eq_of_lt hk, Nat.mod_eq_of_lt hl] at hshift
  simpa using hshift

theorem shiftIn_eq_zero_iff (bs : List Bool) : shiftIn 0 bs = 0 ↔ bs.any id = false := by
  induction bs with
  | nil => simp
  | cons b bs ih =>
    cases b with
    | false => simpa using ih
    | true =>
      have hdiv := shiftIn_div 1 bs
      constructor
      · intro hzero
        rw [shiftIn_cons, Bool.toNat_true] at hzero
        rw [hzero] at hdiv
        simp at hdiv
      · intro hany
        simp at hany

/-- The values of `i` in `for (i=1<<(n-1); i; i>>=1)`. -/
def powersDown : Nat → List Nat
  | 0 => []
  | n + 1 => 2 ^ n :: powersDown n

theorem map_powersDown (n mask : Nat) :
    (powersDown n).map (fun i => mask &&& i != 0) = digitsDown n mask := by
  induction n with
  | zero => rfl
  | succ n ih =>
    rw [powersDown, List.map_cons, ih, digitsDown, Nat.and_two_pow]
    cases mask.testBit n <;> simp

end CLib
