import Mathlib.Data.List.Basic
import Mathlib.Data.Nat.Bits
import Mathlib.Tactic.Ring

/-!
# A stack of flags kept in one machine word

A word of `W` bits used as a shift register holds a stack of flags, the innermost in the
lowest bit. Pushing shifts the word to the left, so a flag with `W` newer flags above it
leaves the word (`push`); popping shifts zeroes back in, so it never returns. After `d` more
flags were pushed and popped again, the word has its `W - d` innermost flags left (`kept`).
`toNat` reads the word off the flags.
-/

namespace BitStack

/-- The word, lowest bit for the innermost flag. -/
def toNat : List Bool → Nat
  | [] => 0
  | b :: st => b.toNat + 2 * toNat st

/-- Push a flag on a word of `W` bits. -/
def push (W : Nat) (b : Bool) (st : List Bool) : List Bool := (b :: st).take W

/-- What a word of `W` bits has left after `d` flags were above the stack. -/
def kept (W d : Nat) (st : List Bool) : List Bool := st.take (W - d)

theorem length_push (W : Nat) (b : Bool) (st : List Bool) : (push W b st).length ≤ W :=
  List.length_take_le _ _

theorem length_kept (W d : Nat) (st : List Bool) : (kept W d st).length ≤ W := by
  have h := List.length_take_le (W - d) st
  exact h.trans (Nat.sub_le W d)

theorem kept_nil (W d : Nat) : kept W d [] = [] := List.take_nil

theorem kept_zero {W : Nat} {st : List Bool} (h : st.length ≤ W) : kept W 0 st = st :=
  List.take_of_length_le h

/-- Two walks, one after the other. -/
theorem kept_kept (W d₁ d₂ : Nat) (st : List Bool) :
    kept W d₂ (kept W d₁ st) = kept W (max d₁ d₂) st := by
  rw [kept, kept, List.take_take, kept]
  congr 1
  omega

/-- The pushed flag takes one place more than what comes above it. -/
theorem tail_kept_push (W d : Nat) (b : Bool) (st : List Bool) :
    (kept W d (push W b st)).tail = kept W (d + 1) st := by
  rw [kept, push, List.take_take, Nat.min_eq_left (Nat.sub_le W d), kept]
  rcases Nat.lt_or_ge d W with h | h
  · obtain ⟨V, hV⟩ : ∃ V, W - d = V + 1 := ⟨W - d - 1, by omega⟩
    rw [hV, List.take_succ_cons, List.tail_cons]
    congr 1
    omega
  · rw [Nat.sub_eq_zero_of_le h, Nat.sub_eq_zero_of_le (h.trans (Nat.le_succ d)), List.take_zero,
      List.take_zero, List.tail_nil]

/-- Cutting the stack is reduction of the word. -/
theorem toNat_take (k : Nat) (st : List Bool) : toNat (st.take k) = toNat st % 2 ^ k := by
  induction st generalizing k with
  | nil => rw [List.take_nil, toNat, Nat.zero_mod]
  | cons b st ih =>
    cases k with
    | zero => rw [List.take_zero, toNat, Nat.pow_zero, Nat.mod_one]
    | succ k =>
      have hb := Bool.toNat_lt b
      rw [List.take_succ_cons, toNat, ih, toNat, Nat.pow_succ, Nat.mul_comm (2 ^ k) 2, Nat.mod_mul]
      have h₁ : (b.toNat + 2 * toNat st) % 2 = b.toNat := by omega
      have h₂ : (b.toNat + 2 * toNat st) / 2 = toNat st := by omega
      rw [h₁, h₂]

theorem toNat_lt {W : Nat} {st : List Bool} (h : st.length ≤ W) : toNat st < 2 ^ W := by
  rw [← List.take_of_length_le h, toNat_take]
  exact Nat.mod_lt _ (Nat.two_pow_pos W)

/-- Pushing is the shift by one with the new flag in the lowest bit. -/
theorem toNat_push {W : Nat} (hW : 0 < W) (b : Bool) (st : List Bool) :
    toNat (push W b st) = toNat st * 2 % 2 ^ W + b.toNat := by
  obtain ⟨V, rfl⟩ : ∃ V, W = V + 1 := ⟨W - 1, by omega⟩
  rw [push, List.take_succ_cons, toNat, toNat_take, Nat.pow_succ, Nat.mul_mod_mul_right]
  omega

/-- Popping is the shift by one to the right. -/
theorem toNat_tail (st : List Bool) : toNat st / 2 = toNat st.tail := by
  cases st with
  | nil => rfl
  | cons b st =>
    have hb := Bool.toNat_lt b
    rw [toNat, List.tail_cons]
    omega

/-- The word is zero exactly when it holds no set flag. -/
theorem toNat_eq_zero {st : List Bool} : toNat st = 0 ↔ true ∉ st := by
  induction st with
  | nil => simp [toNat]
  | cons b st ih =>
    rw [toNat, List.mem_cons, not_or, ← ih]
    cases b with
    | true => simp
    | false => simp

/-- A flag with room for `d` more above it is kept. -/
theorem kept_getElem? {W d i : Nat} {st : List Bool} (h : st[i]? = some true) (hi : i + d < W) :
    (kept W d st)[i]? = some true := by
  rw [kept, List.getElem?_take_of_lt (by omega), h]

theorem mem_kept {W d i : Nat} {st : List Bool} (h : st[i]? = some true) (hi : i + d < W) :
    true ∈ kept W d st := List.mem_of_getElem? (kept_getElem? h hi)

theorem push_getElem? {W i : Nat} {st : List Bool} (h : st[i]? = some true) (hi : i + 1 < W)
    (b : Bool) : (push W b st)[i + 1]? = some true := by
  rw [push, List.getElem?_take_of_lt hi, List.getElem?_cons_succ, h]

end BitStack
