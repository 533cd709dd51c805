import Mathlib.Data.BitVec

/-!
# Memory and words

A memory maps addresses to bytes. A word whose size is a multiple of eight bits is loaded
from and stored to the addresses from `a` on, its lowest byte first or last. A loaded word
is the one that was stored (`load_store`), and a store leaves all other bytes as they are
(`store_outside`).

The second part says which words a narrower field can hold: those that come back when the
field is extended again.
-/

namespace CLib

abbrev ByteMem := Nat → BitVec 8

namespace ByteMem

/-- Where the byte number `k`, counted from the lowest one, of `n` bytes stands. -/
def slot (big : Bool) (n k : Nat) : Nat := if big then n - 1 - k else k

theorem slot_lt {big : Bool} {n k : Nat} (h : k < n) : slot big n k < n := by
  unfold slot
  split <;> omega

theorem slot_slot {big : Bool} {n k : Nat} (h : k < n) : slot big n (slot big n k) = k := by
  unfold slot
  split <;> omega

def load (big : Bool) (w : Nat) (m : ByteMem) (a : Nat) : BitVec w :=
  (BitVec.ofBoolListLE ((List.range w).map fun j =>
    (m (a + slot big (w / 8) (j / 8))).getLsbD (j % 8))).setWidth w

theorem getLsbD_load {big : Bool} {w : Nat} (m : ByteMem) (a : Nat) {j : Nat} (hj : j < w) :
    (m.load big w a).getLsbD j = (m (a + slot big (w / 8) (j / 8))).getLsbD (j % 8) := by
  rw [load, BitVec.getLsbD_setWidth, BitVec.getLsbD_ofBoolListLE]
  simp [hj]

/-- A load reads its own bytes only. -/
theorem load_congr {big : Bool} {w : Nat} (h8 : 8 ∣ w) {m m' : ByteMem} {a : Nat}
    (h : ∀ i, a ≤ i → i < a + w / 8 → m i = m' i) : m.load big w a = m'.load big w a := by
  apply BitVec.eq_of_getLsbD_eq
  intro j hj
  have hslot : slot big (w / 8) (j / 8) < w / 8 := slot_lt (by omega)
  rw [getLsbD_load _ _ hj, getLsbD_load _ _ hj, h _ (by omega) (by omega)]

def store (big : Bool) {w : Nat} (m : ByteMem) (a : Nat) (v : BitVec w) : ByteMem := fun i =>
  if a ≤ i ∧ i < a + w / 8 then v.extractLsb' (8 * slot big (w / 8) (i - a)) 8 else m i

theorem store_outside {big : Bool} {w : Nat} {m : ByteMem} {a i : Nat} {v : BitVec w}
    (h : i < a ∨ a + w / 8 ≤ i) : m.store big a v i = m i :=
  if_neg (by omega)

/-- What is stored does not depend on what was there. -/
theorem store_inside {big : Bool} {w : Nat} {m m' : ByteMem} {a i : Nat} {v : BitVec w}
    (h : a ≤ i) (h' : i < a + w / 8) : m.store big a v i = m'.store big a v i := by
  unfold store
  rw [if_pos ⟨h, h'⟩, if_pos ⟨h, h'⟩]

theorem load_store {big : Bool} {w : Nat} (h : 8 ∣ w) (m : ByteMem) (a : Nat) (v : BitVec w) :
    (m.store big a v).load big w a = v := by
  apply BitVec.eq_of_getLsbD_eq
  intro j hj
  have hk : j / 8 < w / 8 := by omega
  have hslot : slot big (w / 8) (j / 8) < w / 8 := slot_lt hk
  have hbyte : m.store big a v (a + slot big (w / 8) (j / 8)) = v.extractLsb' (8 * (j / 8)) 8 := by
    unfold store
    rw [if_pos (by omega), Nat.add_sub_cancel_left, slot_slot hk]
  have hbit : 8 * (j / 8) + j % 8 = j := by omega
  have hmod : j % 8 < 8 := by omega
  rw [getLsbD_load _ _ hj, hbyte, BitVec.getLsbD_extractLsb', hbit]
  simp [hmod]

end ByteMem

/-! ## Fields -/

section Fields

variable {w v : Nat}

/-- In a word whose bits under a mask are replaced, these bits are the new ones. -/
theorem merge_field (old new msk : BitVec w) :
    ((old &&& ~~~msk) ||| (new &&& msk)) &&& msk = new &&& msk := by
  ext i hi
  simp only [BitVec.getElem_and, BitVec.getElem_or, BitVec.getElem_not]
  cases msk[i] <;> simp

/-- All other bits are the old ones. -/
theorem merge_rest (old new msk : BitVec w) :
    ((old &&& ~~~msk) ||| (new &&& msk)) &&& ~~~msk = old &&& ~~~msk := by
  ext i hi
  simp only [BitVec.getElem_and, BitVec.getElem_or, BitVec.getElem_not]
  cases msk[i] <;> simp

theorem setWidth_setWidth_self {f : BitVec v} (h : v ≤ w) : (f.setWidth w).setWidth v = f := by
  rw [BitVec.setWidth_setWidth_of_le _ h, BitVec.setWidth_eq]

theorem signExtend_setWidth_self {f : BitVec v} (h : v ≤ w) : (f.signExtend w).setWidth v = f := by
  apply BitVec.eq_of_getLsbD_eq
  intro i hi
  have hiw : i < w := by omega
  rw [BitVec.getLsbD_setWidth, BitVec.getLsbD_signExtend]
  simp only [hi, hiw, decide_true, Bool.true_and, if_true]

/-- A word that a sign-extended field can hold. -/
def FitsSigned (v : Nat) (x : BitVec w) : Prop := (x.setWidth v).signExtend w = x

/-- A word that a zero-extended field can hold. -/
def FitsUnsigned (v : Nat) (x : BitVec w) : Prop := (x.setWidth v).setWidth w = x

theorem fitsSigned_of_signExtend {f : BitVec v} {x : BitVec w} (hv : v ≤ w)
    (h : f.signExtend w = x) : FitsSigned v x := by
  subst h
  rw [FitsSigned, signExtend_setWidth_self hv]

theorem fitsUnsigned_of_setWidth {f : BitVec v} {x : BitVec w} (hv : v ≤ w)
    (h : f.setWidth w = x) : FitsUnsigned v x := by
  subst h
  rw [FitsUnsigned, setWidth_setWidth_self hv]

theorem fitsSigned_iff {n : Nat} {x : BitVec w} (hv : n + 1 ≤ w) :
    FitsSigned (n + 1) x ↔ -2 ^ n ≤ x.toInt ∧ x.toInt < 2 ^ n := by
  have hmod : (x.setWidth (n + 1)).toInt = x.toInt.bmod (2 ^ (n + 1)) := by
    rw [← BitVec.toInt_signExtend_eq_toInt_bmod_of_le x hv, BitVec.signExtend_eq_setWidth_of_le x hv]
  have hpow : (2 : Int) ^ (n + 1) = 2 * 2 ^ n := by rw [Int.pow_succ, Int.mul_comm]
  have hpos : (0 : Int) < 2 ^ n := Int.pow_pos (by decide)
  unfold FitsSigned
  rw [← BitVec.toInt_inj, BitVec.toInt_signExtend_of_le hv, hmod]
  constructor
  · intro h
    have hle := BitVec.le_toInt (x.setWidth (n + 1))
    have hlt := BitVec.toInt_lt (x := x.setWidth (n + 1))
    rw [hmod, h] at hle hlt
    simpa using ⟨hle, hlt⟩
  · rintro ⟨hle, hlt⟩
    apply Int.bmod_eq_of_le
    · push_cast
      omega
    · push_cast
      omega

theorem fitsUnsigned_iff {x : BitVec w} (hv : v ≤ w) :
    FitsUnsigned v x ↔ x.toNat < 2 ^ v := by
  have hpow : 2 ^ v ≤ 2 ^ w := Nat.pow_le_pow_right (by decide) hv
  have hmod : x.toNat % 2 ^ v < 2 ^ v := Nat.mod_lt _ (Nat.two_pow_pos v)
  unfold FitsUnsigned
  rw [← BitVec.toNat_inj, BitVec.toNat_setWidth, BitVec.toNat_setWidth,
    Nat.mod_eq_of_lt (by omega)]
  constructor
  · intro h
    omega
  · exact Nat.mod_eq_of_lt

/-! ## Masks -/

theorem lowMask_toNat {n : Nat} (h : n < w) : ((1 : BitVec w) <<< n - 1).toNat = 2 ^ n - 1 := by
  have hpow : 2 ^ n < 2 ^ w := Nat.pow_lt_pow_right (by decide) h
  have hpos : 0 < 2 ^ n := Nat.two_pow_pos n
  have hone : (1 : BitVec w).toNat = 1 := by
    rw [BitVec.ofNat_eq_ofNat, BitVec.toNat_ofNat]
    exact Nat.mod_eq_of_lt (Nat.one_lt_two_pow (by omega))
  have hshift : ((1 : BitVec w) <<< n).toNat = 2 ^ n := by
    rw [BitVec.toNat_shiftLeft, hone, Nat.one_shiftLeft]
    exact Nat.mod_eq_of_lt hpow
  rw [BitVec.toNat_sub_of_le, hshift, hone]
  rw [BitVec.le_def, hone, hshift]
  exact hpos

theorem getLsbD_lowMask {n : Nat} (h : n < w) (i : Nat) :
    ((1 : BitVec w) <<< n - 1).getLsbD i = decide (i < n) := by
  rw [BitVec.getLsbD, lowMask_toNat h, Nat.testBit_two_pow_sub_one]

theorem lowMask_toInt {n : Nat} (h : n + 1 < w) :
    ((1 : BitVec w) <<< n - 1).toInt = 2 ^ n - 1 := by
  have hpow : 2 ^ (n + 1) < 2 ^ w := Nat.pow_lt_pow_right (by decide) h
  have hpos : 0 < 2 ^ n := Nat.two_pow_pos n
  have hnat := lowMask_toNat (show n < w by omega)
  rw [BitVec.toInt_eq_toNat_of_lt (by rw [hnat]; omega), hnat]
  push_cast [Nat.one_le_two_pow]
  rfl

theorem not_toInt (h : 0 < w) (x : BitVec w) : (~~~x).toInt = -x.toInt - 1 := by
  have hlt := x.isLt
  have heven : 2 ^ w = 2 * 2 ^ (w - 1) := by
    rw [← Nat.pow_succ', Nat.succ_eq_add_one, Nat.sub_add_cancel h]
  rw [BitVec.toInt_eq_toNat_cond, BitVec.toInt_eq_toNat_cond, BitVec.toNat_not]
  split <;> split <;> omega

end Fields

end CLib
