import Cexp.Ctyps.Types

/-!
# Bitmaps of module ids

A bitmap is an array of eight `unsigned long`s, and every one of them holds 32 bits
whatever its own width is. The masks are built from the `int` expression `1<<k`, so they
are sign-extended to the width of a word: setting bit 31 of a slot sets all the higher
bits of the word as well, and clearing it clears them again. Words therefore always are
the sign extensions of their slots, which is what the field `extended` says; under it a
word is nonzero exactly if one of the bits of its slot is set.
-/

namespace Cexp

def MAX_NUM_MODULES : Nat := 256

def LD_WORDLEN : Nat := 5

def BITMAP_DEPTH : Nat := MAX_NUM_MODULES >>> LD_WORDLEN

/-- The `int` expression `1<<((bitno)&((1<<LD_WORDLEN)-1))`. -/
def bitMask (bitno : Nat) : BitVec 32 := 1#32 <<< (bitno &&& ((1 <<< LD_WORDLEN) - 1))

/-- `BITMAP_DECLARE`. Only the words below `BITMAP_DEPTH` exist. -/
structure Bitmap (dm : DataModel) where
  word : Nat → BitVec dm.longBits
  extended : ∀ i, ∃ slot : BitVec 32, word i = slot.signExtend dm.longBits

namespace Bitmap

variable {dm : DataModel}

/-- A bitmap filled by `memset` with zeroes. -/
def zero : Bitmap dm where
  word _ := 0
  extended _ := ⟨0, by cases dm <;> rfl⟩

/-- `BITMAP_SET` -/
def set (bm : Bitmap dm) (bitno : Nat) : Bitmap dm where
  word i :=
    if i = bitno >>> LD_WORDLEN then bm.word i ||| (bitMask bitno).signExtend dm.longBits
    else bm.word i
  extended i := by
    obtain ⟨slot, hslot⟩ := bm.extended i
    split
    · exact ⟨slot ||| bitMask bitno, by rw [hslot, BitVec.signExtend_or]⟩
    · exact ⟨slot, hslot⟩

/-- `BITMAP_CLR` -/
def clr (bm : Bitmap dm) (bitno : Nat) : Bitmap dm where
  word i :=
    if i = bitno >>> LD_WORDLEN then bm.word i &&& (~~~bitMask bitno).signExtend dm.longBits
    else bm.word i
  extended i := by
    obtain ⟨slot, hslot⟩ := bm.extended i
    split
    · exact ⟨slot &&& ~~~bitMask bitno, by rw [hslot, BitVec.signExtend_and]⟩
    · exact ⟨slot, hslot⟩

/-- `BITMAP_TST` -/
def tst (bm : Bitmap dm) (bitno : Nat) : Bool :=
  bm.word (bitno >>> LD_WORDLEN) &&& (bitMask bitno).signExtend dm.longBits ≠ 0

/-- The test of `cexpModuleUnload`: no word has a bit set. -/
def isZero (bm : Bitmap dm) : Bool := (List.range BITMAP_DEPTH).all fun i => bm.word i = 0

/-! ## Bits and slots -/

theorem shift_LD_WORDLEN (k : Nat) : k >>> LD_WORDLEN = k / 32 := by
  rw [LD_WORDLEN, Nat.shiftRight_eq_div_pow]

theorem bitMask_eq (k : Nat) : bitMask k = BitVec.twoPow 32 (k % 32) := by
  have hand : k &&& ((1 <<< LD_WORDLEN) - 1) = k % 32 := Nat.and_two_pow_sub_one_eq_mod k 5
  rw [bitMask, hand, ← BitVec.twoPow_eq]

theorem le_longBits : 32 ≤ dm.longBits := by cases dm <;> decide

theorem setWidth_signExtend (x : BitVec 32) : (x.signExtend dm.longBits).setWidth 32 = x := by
  apply BitVec.eq_of_getLsbD_eq
  intro i hi
  have hle : i < dm.longBits := Nat.lt_of_lt_of_le hi le_longBits
  simp only [BitVec.getLsbD_setWidth, BitVec.getLsbD_signExtend, hi, hle, decide_true,
    Bool.true_and, if_true]

theorem signExtend_eq_zero (x : BitVec 32) : x.signExtend dm.longBits = 0 ↔ x = 0 := by
  constructor
  · intro hx
    rw [← setWidth_signExtend x, hx]
    exact BitVec.setWidth_zero 32 dm.longBits
  · rintro rfl
    cases dm <;> rfl

/-- The 32 bits of a word that count. -/
def slot (bm : Bitmap dm) (i : Nat) : BitVec 32 := (bm.word i).setWidth 32

theorem word_eq_signExtend_slot (bm : Bitmap dm) (i : Nat) :
    bm.word i = (bm.slot i).signExtend dm.longBits := by
  obtain ⟨x, hx⟩ := bm.extended i
  rw [slot, hx, setWidth_signExtend]

theorem slot_eq (bm : Bitmap dm) (i : Nat) (x : BitVec 32)
    (h : bm.word i = x.signExtend dm.longBits) : bm.slot i = x := by
  rw [slot, h, setWidth_signExtend]

theorem tst_eq (bm : Bitmap dm) (k : Nat) : bm.tst k = (bm.slot (k / 32)).getLsbD (k % 32) := by
  have hk : k % 32 < 32 := Nat.mod_lt k (by decide)
  rw [tst, word_eq_signExtend_slot, ← BitVec.signExtend_and, shift_LD_WORDLEN, bitMask_eq,
    BitVec.and_twoPow]
  cases hbit : (bm.slot (k / 32)).getLsbD (k % 32) with
  | false =>
    have hzero : (0#32).signExtend dm.longBits = 0 := (signExtend_eq_zero _).mpr rfl
    simp [hzero]
  | true =>
    have hne : BitVec.twoPow 32 (k % 32) ≠ 0 := by
      intro h0
      have hb := congrArg (fun y => y.getLsbD (k % 32)) h0
      simp [hk] at hb
    have hext : (BitVec.twoPow 32 (k % 32)).signExtend dm.longBits ≠ 0 :=
      fun h0 => hne ((signExtend_eq_zero _).mp h0)
    simpa using hext

/-! ## What the operations do -/

theorem tst_zero (k : Nat) : (zero : Bitmap dm).tst k = false := by simp [tst, zero]

theorem tst_set (bm : Bitmap dm) (k j : Nat) :
    (bm.set k).tst j = (bm.tst j || decide (j = k)) := by
  rw [tst_eq, tst_eq]
  by_cases hslot : j / 32 = k / 32
  · have hset : (bm.set k).slot (j / 32) = bm.slot (j / 32) ||| BitVec.twoPow 32 (k % 32) := by
      apply slot_eq
      simp only [set, shift_LD_WORDLEN, hslot, if_true]
      rw [bitMask_eq, BitVec.signExtend_or, ← word_eq_signExtend_slot]
    have hmod : k % 32 = j % 32 ↔ j = k := by omega
    have hk : k % 32 < 32 := Nat.mod_lt k (by decide)
    simp [hset, BitVec.getLsbD_twoPow, hmod, hk]
  · have hset : (bm.set k).slot (j / 32) = bm.slot (j / 32) := by
      apply slot_eq
      simp only [set, shift_LD_WORDLEN, hslot, if_false]
      exact word_eq_signExtend_slot bm (j / 32)
    have hne : j ≠ k := fun h => hslot (by rw [h])
    simp [hset, hne]

theorem tst_clr (bm : Bitmap dm) (k j : Nat) :
    (bm.clr k).tst j = (bm.tst j && decide (j ≠ k)) := by
  rw [tst_eq, tst_eq]
  by_cases hslot : j / 32 = k / 32
  · have hclr : (bm.clr k).slot (j / 32) = bm.slot (j / 32) &&& ~~~BitVec.twoPow 32 (k % 32) := by
      apply slot_eq
      simp only [clr, shift_LD_WORDLEN, hslot, if_true]
      rw [bitMask_eq, BitVec.signExtend_and, ← word_eq_signExtend_slot]
    have hmod : j % 32 = k % 32 ↔ j = k := by omega
    have hj : j % 32 < 32 := Nat.mod_lt j (by decide)
    simp [hclr, hmod, hj]
  · have hclr : (bm.clr k).slot (j / 32) = bm.slot (j / 32) := by
      apply slot_eq
      simp only [clr, shift_LD_WORDLEN, hslot, if_false]
      exact word_eq_signExtend_slot bm (j / 32)
    have hne : j ≠ k := fun h => hslot (by rw [h])
    simp [hclr, hne]

/-- Looking at the words finds the same as looking at the bits of all ids. -/
theorem isZero_iff (bm : Bitmap dm) :
    bm.isZero = true ↔ ∀ k, k < MAX_NUM_MODULES → bm.tst k = false := by
  have hdepth : BITMAP_DEPTH = 8 := rfl
  have hmax : MAX_NUM_MODULES = 256 := rfl
  simp only [isZero, List.all_eq_true, List.mem_range, decide_eq_true_eq, hdepth, hmax]
  constructor
  · intro h k hk
    have hword := h (k / 32) (by omega)
    rw [word_eq_signExtend_slot, signExtend_eq_zero] at hword
    rw [tst_eq, hword]
    exact BitVec.getLsbD_zero
  · intro h i hi
    rw [word_eq_signExtend_slot, signExtend_eq_zero]
    ext j hj
    have hbit := h (32 * i + j) (by omega)
    rw [tst_eq] at hbit
    have hdiv : (32 * i + j) / 32 = i := by omega
    have hmod : (32 * i + j) % 32 = j := by omega
    rw [hdiv, hmod] at hbit
    simpa [hj] using hbit

/-- A bitmap is given by its bits. -/
theorem ext_tst {a b : Bitmap dm} (h : ∀ k, a.tst k = b.tst k) : a = b := by
  have hslot : ∀ i, a.slot i = b.slot i := by
    intro i
    ext j hj
    have hbit := h (32 * i + j)
    have hdiv : (32 * i + j) / 32 = i := by omega
    have hmod : (32 * i + j) % 32 = j := by omega
    rw [tst_eq, tst_eq, hdiv, hmod] at hbit
    simpa [hj] using hbit
  have hword : a.word = b.word := by
    funext i
    rw [word_eq_signExtend_slot, word_eq_signExtend_slot, hslot]
  cases a
  cases b
  cases hword
  rfl

/-- Clearing a bit that is not set changes nothing. -/
theorem clr_of_not_tst {bm : Bitmap dm} {k : Nat} (h : bm.tst k = false) : bm.clr k = bm := by
  refine ext_tst fun j => ?_
  rw [tst_clr]
  by_cases hj : j = k
  · rw [hj, h, Bool.false_and]
  · rw [decide_eq_true hj, Bool.and_true]

/-- Clearing a bit takes back that it was set. -/
theorem clr_set {bm : Bitmap dm} {k : Nat} (h : bm.tst k = false) : (bm.set k).clr k = bm := by
  refine ext_tst fun j => ?_
  rw [tst_clr, tst_set]
  by_cases hj : j = k
  · rw [hj, h, decide_eq_false (not_not_intro rfl), Bool.and_false]
  · rw [decide_eq_true hj, decide_eq_false hj, Bool.or_false, Bool.and_true]

end Bitmap

end Cexp
