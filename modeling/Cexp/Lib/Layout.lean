import Cexp.Lib.Memory
import Mathlib.Logic.Function.Basic

/-!
# Layout of blocks in regions

Blocks are placed one after the other. Every region has a pointer; a block starts at the
pointer of its region, rounded up to its alignment, and moves the pointer behind itself. The
ranges of the blocks of one region follow each other (`placeAll_pairwise`), each is aligned
and lies between the pointers of its region before and after the run (`placeAll_range`), and a
pointer moves by at most the sizes of the blocks with their full padding (`placeAll_le`).

The second part rounds words up with a mask.
-/

namespace CLib

/-! ## Rounding up -/

def alignUp (a x : Nat) : Nat := (x + a - 1) / a * a

theorem dvd_alignUp (a x : Nat) : a ∣ alignUp a x := Nat.dvd_mul_left a _

theorem le_alignUp {a : Nat} (ha : 0 < a) (x : Nat) : x ≤ alignUp a x := by
  have hdiv := Nat.div_add_mod (x + a - 1) a
  have hmod := Nat.mod_lt (x + a - 1) ha
  rw [Nat.mul_comm] at hdiv
  unfold alignUp
  omega

theorem alignUp_le (a x : Nat) : alignUp a x ≤ x + a - 1 := Nat.div_mul_le_self _ _

theorem alignUp_of_dvd {a x : Nat} (ha : 0 < a) (h : a ∣ x) : alignUp a x = x := by
  obtain ⟨k, rfl⟩ := h
  have hsum : a * k + a - 1 = a * k + (a - 1) := by omega
  rw [alignUp, hsum, Nat.mul_add_div ha, Nat.div_eq_of_lt (by omega), Nat.add_zero, Nat.mul_comm]

/-- A number is rounded up to no more than a multiple above it. -/
theorem alignUp_le_of_dvd {a x n : Nat} (h : a ∣ n) (hx : x ≤ n) : alignUp a x ≤ n := by
  obtain ⟨k, rfl⟩ := h
  rcases Nat.eq_zero_or_pos a with rfl | ha
  · simp [alignUp]
  · have hdiv : (x + a - 1) / a ≤ k := by
      rw [Nat.div_le_iff_le_mul_add_pred ha]
      omega
    rw [alignUp, Nat.mul_comm a k]
    exact Nat.mul_le_mul_right a hdiv

/-! ## Blocks -/

/-- A block of `extent` bytes that is aligned to a power of two. -/
structure Block (R : Type) where
  region : R
  power : Nat
  extent : Nat

section

variable {R : Type}

def Block.addr (b : Block R) (ptr : R → Nat) : Nat := alignUp (2 ^ b.power) (ptr b.region)

theorem Block.le_addr (b : Block R) (ptr : R → Nat) : ptr b.region ≤ b.addr ptr :=
  le_alignUp (Nat.two_pow_pos _) _

theorem Block.addr_le (b : Block R) (ptr : R → Nat) :
    b.addr ptr ≤ ptr b.region + (2 ^ b.power - 1) := by
  have hle := alignUp_le (2 ^ b.power) (ptr b.region)
  have hpos := Nat.two_pow_pos b.power
  unfold Block.addr
  omega

variable [DecidableEq R]

def Block.advance (b : Block R) (ptr : R → Nat) : R → Nat :=
  Function.update ptr b.region (b.addr ptr + b.extent)

/-- The addresses of the blocks, and the pointers behind them. A `none` stands for a block that
is passed over. -/
def placeAll (ptr : R → Nat) : List (Option (Block R)) → List (Option Nat) × (R → Nat)
  | [] => ([], ptr)
  | none :: bs => (none :: (placeAll ptr bs).1, (placeAll ptr bs).2)
  | some b :: bs =>
    (some (b.addr ptr) :: (placeAll (b.advance ptr) bs).1, (placeAll (b.advance ptr) bs).2)

/-- The bytes that the blocks of a region need wherever the region starts. -/
def padded (r : R) : List (Option (Block R)) → Nat
  | [] => 0
  | none :: bs => padded r bs
  | some b :: bs => (if b.region = r then 2 ^ b.power - 1 + b.extent else 0) + padded r bs

theorem padded_cons_region (b : Block R) (bs : List (Option (Block R))) :
    padded b.region (some b :: bs) = 2 ^ b.power - 1 + b.extent + padded b.region bs := by
  rw [padded, if_pos rfl]

theorem padded_cons_other {b : Block R} {r : R} (h : r ≠ b.region) (bs : List (Option (Block R))) :
    padded r (some b :: bs) = padded r bs := by
  rw [padded, if_neg (Ne.symm h), Nat.zero_add]

theorem Block.advance_region (b : Block R) (ptr : R → Nat) :
    b.advance ptr b.region = b.addr ptr + b.extent := Function.update_self ..

theorem Block.advance_other {b : Block R} {r : R} (h : r ≠ b.region) (ptr : R → Nat) :
    b.advance ptr r = ptr r := Function.update_of_ne h ..

theorem Block.le_advance (b : Block R) (ptr : R → Nat) (r : R) : ptr r ≤ b.advance ptr r := by
  have hle := b.le_addr ptr
  by_cases h : r = b.region
  · subst h
    rw [b.advance_region]
    omega
  · rw [Block.advance_other h]

theorem le_placeAll (bs : List (Option (Block R))) (ptr : R → Nat) (r : R) :
    ptr r ≤ (placeAll ptr bs).2 r := by
  induction bs generalizing ptr with
  | nil => exact le_rfl
  | cons b bs ih =>
    cases b with
    | none => exact ih ptr
    | some b => exact (b.le_advance ptr r).trans (ih (b.advance ptr))

theorem placeAll_le (bs : List (Option (Block R))) (ptr : R → Nat) (r : R) :
    (placeAll ptr bs).2 r ≤ ptr r + padded r bs := by
  induction bs generalizing ptr with
  | nil => exact le_rfl
  | cons b bs ih =>
    cases b with
    | none => exact ih ptr
    | some b =>
      have htail := ih (b.advance ptr)
      have haddr := b.addr_le ptr
      show (placeAll (b.advance ptr) bs).2 r ≤ ptr r + ((if b.region = r then _ else 0) + _)
      by_cases h : b.region = r
      · subst h
        rw [b.advance_region] at htail
        rw [if_pos rfl]
        omega
      · rw [Block.advance_other (Ne.symm h)] at htail
        rw [if_neg h]
        omega

/-- The block number `i` is placed at `x`. -/
def PlacedAt (bs : List (Option (Block R))) (ptr : R → Nat) (i : Nat) (b : Block R) (x : Nat) :
    Prop :=
  bs[i]? = some (some b) ∧ (placeAll ptr bs).1[i]? = some (some x)

theorem exists_placedAt {bs : List (Option (Block R))} {i : Nat} {b : Block R}
    (h : bs[i]? = some (some b)) (ptr : R → Nat) : ∃ x, PlacedAt bs ptr i b x := by
  induction bs generalizing ptr i with
  | nil => cases h
  | cons c bs ih =>
    cases i with
    | zero =>
      cases h
      exact ⟨b.addr ptr, rfl, rfl⟩
    | succ i =>
      cases c with
      | none => exact ih h ptr
      | some c => exact ih h (c.advance ptr)

theorem placeAll_none {bs : List (Option (Block R))} {i : Nat} (h : bs[i]? = some none)
    (ptr : R → Nat) : (placeAll ptr bs).1[i]? = some none := by
  induction bs generalizing ptr i with
  | nil => cases h
  | cons c bs ih =>
    cases i with
    | zero =>
      cases h
      rfl
    | succ i =>
      cases c with
      | none => exact ih h ptr
      | some c => exact ih h (c.advance ptr)

theorem placeAll_range {bs : List (Option (Block R))} {ptr : R → Nat} {i x : Nat} {b : Block R}
    (h : PlacedAt bs ptr i b x) :
    2 ^ b.power ∣ x ∧ ptr b.region ≤ x ∧ x + b.extent ≤ (placeAll ptr bs).2 b.region := by
  induction bs generalizing ptr i with
  | nil => cases h.1
  | cons c bs ih =>
    cases i with
    | zero =>
      obtain ⟨hb, hx⟩ := h
      cases hb
      cases hx
      refine ⟨dvd_alignUp _ _, b.le_addr ptr, ?_⟩
      have htail := le_placeAll bs (b.advance ptr) b.region
      rw [b.advance_region] at htail
      exact htail
    | succ i =>
      cases c with
      | none => exact ih h
      | some c =>
        have hrest : PlacedAt bs (c.advance ptr) i b x := h
        obtain ⟨hdvd, hle, hstop⟩ := ih hrest
        exact ⟨hdvd, (c.le_advance ptr b.region).trans hle, hstop⟩

/-- The blocks of a region follow each other. -/
theorem placeAll_pairwise {bs : List (Option (Block R))} {ptr : R → Nat} {i j x y : Nat}
    {b c : Block R} (hi : PlacedAt bs ptr i b x) (hj : PlacedAt bs ptr j c y)
    (hreg : b.region = c.region) (hlt : i < j) : x + b.extent ≤ y := by
  induction bs generalizing ptr i j with
  | nil => cases hi.1
  | cons d bs ih =>
    cases j with
    | zero => omega
    | succ j =>
      cases i with
      | zero =>
        obtain ⟨hb, hx⟩ := hi
        cases hb
        cases hx
        have hrest : PlacedAt bs (b.advance ptr) j c y := hj
        have hrange := (placeAll_range hrest).2.1
        rw [← hreg, b.advance_region] at hrange
        exact hrange
      | succ i =>
        cases d with
        | none => exact ih hi hj (by omega)
        | some d =>
          have hi' : PlacedAt bs (d.advance ptr) i b x := hi
          have hj' : PlacedAt bs (d.advance ptr) j c y := hj
          exact ih hi' hj' (by omega)

end

/-! ## Words -/

section

variable {w : Nat}

theorem and_allOnes_shiftLeft (x : BitVec w) (k : Nat) :
    x &&& (BitVec.allOnes w <<< k) = (x >>> k) <<< k := by
  apply BitVec.eq_of_getLsbD_eq
  intro i hi
  rw [BitVec.getLsbD_and, BitVec.getLsbD_shiftLeft, BitVec.getLsbD_shiftLeft,
    BitVec.getLsbD_allOnes, BitVec.getLsbD_ushiftRight]
  by_cases hk : i < k
  · simp [hk]
  · have hsub : i - k < w := by omega
    have hsum : k + (i - k) = i := by omega
    simp [hi, hk, hsub, hsum]

/-- A sum that stays in the word is rounded up by the mask. -/
theorem alignUp_mask {x : BitVec w} {k : Nat} (hk : k < w) (h : x.toNat + (2 ^ k - 1) < 2 ^ w) :
    ((x + (1 : BitVec w) <<< k - 1) &&& (BitVec.allOnes w <<< k)).toNat =
      alignUp (2 ^ k) x.toNat := by
  have hpos := Nat.two_pow_pos k
  have hsum : (x + (1 : BitVec w) <<< k - 1).toNat = x.toNat + 2 ^ k - 1 := by
    rw [add_sub_assoc, BitVec.toNat_add, lowMask_toNat hk, Nat.mod_eq_of_lt h]
    omega
  have hle := Nat.div_mul_le_self (x.toNat + 2 ^ k - 1) (2 ^ k)
  rw [and_allOnes_shiftLeft, BitVec.toNat_shiftLeft, BitVec.toNat_ushiftRight, hsum,
    Nat.shiftRight_eq_div_pow, Nat.shiftLeft_eq]
  exact Nat.mod_eq_of_lt (by omega)

/-- Any word is rounded up by the mask, modulo the words. -/
theorem alignUp_mask_mod {k : Nat} (hk : k < w) (x : BitVec w) :
    ((x + (1 : BitVec w) <<< k - 1) &&& (BitVec.allOnes w <<< k)).toNat =
      alignUp (2 ^ k) x.toNat % 2 ^ w := by
  have hpos := Nat.two_pow_pos k
  have hup := alignUp_le (2 ^ k) x.toNat
  by_cases h : x.toNat + (2 ^ k - 1) < 2 ^ w
  · rw [alignUp_mask hk h]
    exact (Nat.mod_eq_of_lt (by omega)).symm
  · have hx := x.isLt
    have hpow : 2 ^ k < 2 ^ w := Nat.pow_lt_pow_right (by decide) hk
    have hdvd : 2 ^ k ∣ 2 ^ w := Nat.pow_dvd_pow 2 hk.le
    have hsum : (x + (1 : BitVec w) <<< k - 1).toNat = x.toNat + (2 ^ k - 1) - 2 ^ w := by
      rw [add_sub_assoc, BitVec.toNat_add, lowMask_toNat hk, Nat.mod_eq_sub_mod (by omega)]
      exact Nat.mod_eq_of_lt (by omega)
    have htop : alignUp (2 ^ k) x.toNat = 2 ^ w := by
      have hle := alignUp_le_of_dvd hdvd hx.le
      have hge := le_alignUp hpos x.toNat
      have hrest : 2 ^ k ∣ 2 ^ w - alignUp (2 ^ k) x.toNat :=
        Nat.dvd_sub hdvd (dvd_alignUp _ _)
      by_contra hne
      have := Nat.le_of_dvd (by omega) hrest
      omega
    rw [and_allOnes_shiftLeft, BitVec.toNat_shiftLeft, BitVec.toNat_ushiftRight, hsum,
      Nat.shiftRight_eq_div_pow, Nat.div_eq_of_lt (by omega), htop, Nat.mod_self,
      Nat.zero_shiftLeft, Nat.zero_mod]

/-- The mask of an alignment, which may be a shorter word, tells whether a word is aligned. -/
theorem alignMask_eq_zero_iff {v : Nat} {x : BitVec w} {a : BitVec v} {k : Nat}
    (ha : a.toNat = 2 ^ k) (hv : v ≤ w) : x &&& (a - 1).setWidth w = 0 ↔ a.toNat ∣ x.toNat := by
  have hpos := Nat.two_pow_pos k
  have hlt := a.isLt
  have hle : 2 ^ v ≤ 2 ^ w := Nat.pow_le_pow_right (by decide) hv
  have hone : (1 : BitVec v).toNat = 1 % 2 ^ v := BitVec.toNat_ofNat 1 v
  have hmask : ((a - 1).setWidth w).toNat = 2 ^ k - 1 := by
    have hle' : (1 : BitVec v) ≤ a := by
      rw [BitVec.le_def, hone, ha]
      exact (Nat.mod_le 1 _).trans hpos
    rw [BitVec.toNat_setWidth, BitVec.toNat_sub_of_le hle', hone, ha]
    rw [ha] at hlt
    have h1 : 1 < 2 ^ v := by omega
    rw [Nat.mod_eq_of_lt h1]
    exact Nat.mod_eq_of_lt (by omega)
  rw [← BitVec.toNat_inj, BitVec.toNat_and, hmask, Nat.and_two_pow_sub_one_eq_mod, ha]
  exact (Nat.dvd_iff_mod_eq_zero).symm

end

end CLib
