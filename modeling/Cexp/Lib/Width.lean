import Mathlib.Data.BitVec

/-!
# Arithmetic at a smaller width

What a machine computes on wide registers agrees with the operation on the low `k` bits of the
operands: always for the ring and the bitwise operations and for left shifts, and for division,
remainder and right shifts if the operands have no higher bits.
-/

namespace CLib

variable {k w : Nat} {a b : BitVec w}

theorem toNat_setWidth_of_lt (ha : a.toNat < 2 ^ k) : (a.setWidth k).toNat = a.toNat := by
  rw [BitVec.toNat_setWidth, Nat.mod_eq_of_lt ha]

theorem setWidth_sub (h : k ≤ w) (a b : BitVec w) :
    (a - b).setWidth k = a.setWidth k - b.setWidth k := by
  rw [BitVec.sub_eq_add_neg, BitVec.setWidth_add _ _ h, BitVec.setWidth_neg_of_le h,
    ← BitVec.sub_eq_add_neg]

theorem setWidth_udiv (ha : a.toNat < 2 ^ k) (hb : b.toNat < 2 ^ k) :
    (a / b).setWidth k = a.setWidth k / b.setWidth k := by
  have hlt : a.toNat / b.toNat < 2 ^ k := lt_of_le_of_lt (Nat.div_le_self _ _) ha
  apply BitVec.eq_of_toNat_eq
  rw [BitVec.toNat_udiv, toNat_setWidth_of_lt ha, toNat_setWidth_of_lt hb,
    BitVec.toNat_setWidth, BitVec.toNat_udiv, Nat.mod_eq_of_lt hlt]

theorem setWidth_umod (ha : a.toNat < 2 ^ k) (hb : b.toNat < 2 ^ k) :
    (a % b).setWidth k = a.setWidth k % b.setWidth k := by
  have hlt : a.toNat % b.toNat < 2 ^ k := lt_of_le_of_lt (Nat.mod_le _ _) ha
  apply BitVec.eq_of_toNat_eq
  rw [BitVec.toNat_umod, toNat_setWidth_of_lt ha, toNat_setWidth_of_lt hb,
    BitVec.toNat_setWidth, BitVec.toNat_umod, Nat.mod_eq_of_lt hlt]

theorem setWidth_ushiftRight (ha : a.toNat < 2 ^ k) (n : Nat) :
    (a >>> n).setWidth k = a.setWidth k >>> n := by
  have hlt : a.toNat >>> n < 2 ^ k := by
    rw [Nat.shiftRight_eq_div_pow]
    exact lt_of_le_of_lt (Nat.div_le_self _ _) ha
  apply BitVec.eq_of_toNat_eq
  rw [BitVec.toNat_ushiftRight, toNat_setWidth_of_lt ha, BitVec.toNat_setWidth,
    BitVec.toNat_ushiftRight, Nat.mod_eq_of_lt hlt]

end CLib
