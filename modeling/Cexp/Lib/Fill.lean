import Mathlib.Data.List.Basic

/-!
# Writing into a block of memory

`put` writes one element of a block, and has no result if the block does not have that element.
Elements that are written one after the other (`putAll`) lie over what the block held there
(`overlay`), if all of them are inside of the block.
-/

namespace CLib

variable {α : Type}

/-- The block with `x` at `i`. -/
def put (block : List α) (i : Nat) (x : α) : Option (List α) :=
  if i < block.length then some (block.set i x) else none

/-- The block with `xs` from `i` on. -/
def putAll (block : List α) (i : Nat) : List α → Option (List α)
  | [] => some block
  | x :: xs => (put block i x).bind fun block => putAll block (i + 1) xs

/-- What a block holds after `xs` was written from `i` on. -/
def overlay (block : List α) (i : Nat) (xs : List α) : List α :=
  block.take i ++ xs ++ block.drop (i + xs.length)

theorem overlay_nil (block : List α) (i : Nat) : overlay block i [] = block := by
  rw [overlay, List.append_nil, List.length_nil, Nat.add_zero, List.take_append_drop]

theorem length_overlay {block xs : List α} {i : Nat} (h : i + xs.length ≤ block.length) :
    (overlay block i xs).length = block.length := by
  rw [overlay, List.length_append, List.length_append, List.length_take, List.length_drop]
  omega

theorem take_succ_set {block : List α} {i : Nat} (hi : i < block.length) (x : α) :
    (block.set i x).take (i + 1) = block.take i ++ [x] := by
  rw [List.take_succ_eq_append_getElem (by rwa [List.length_set]), List.getElem_set_self,
    List.take_set_of_le (Nat.le_refl i)]

/-- The first element is written, and the others behind it. -/
theorem overlay_set {block : List α} {i : Nat} (hi : i < block.length) (x : α) (xs : List α) :
    overlay (block.set i x) (i + 1) xs = overlay block i (x :: xs) := by
  rw [overlay, overlay, take_succ_set hi, List.drop_set_of_lt (by omega), List.length_cons,
    List.append_assoc, List.append_assoc, List.append_assoc, List.singleton_append,
    List.cons_append, Nat.add_assoc, Nat.add_comm 1]

/-- All elements can be written exactly if there are none, or all of them are inside. -/
theorem putAll_eq (block : List α) (i : Nat) (xs : List α) :
    putAll block i xs =
      if xs = [] ∨ i + xs.length ≤ block.length then some (overlay block i xs) else none := by
  induction xs generalizing block i with
  | nil => rw [if_pos (Or.inl rfl), overlay_nil, putAll]
  | cons x xs ih =>
    rw [putAll, put]
    by_cases hi : i < block.length
    · rw [if_pos hi, Option.bind_some, ih, overlay_set hi, List.length_set]
      congr 1
      rw [List.length_cons, eq_iff_iff]
      constructor
      · rintro (rfl | h)
        · exact Or.inr hi
        · exact Or.inr (by omega)
      · rintro (h | h)
        · cases h
        · exact Or.inr (by omega)
    · rw [if_neg hi, Option.bind_none, if_neg]
      rintro (h | h)
      · cases h
      · rw [List.length_cons] at h
        omega

theorem putAll_some {block xs : List α} {i : Nat} (h : i + xs.length ≤ block.length) :
    putAll block i xs = some (overlay block i xs) := by
  rw [putAll_eq, if_pos (Or.inr h)]

theorem putAll_singleton (block : List α) (i : Nat) (x : α) :
    putAll block i [x] = put block i x := by
  rw [putAll]
  cases put block i x <;> rfl

theorem putAll_append (block : List α) (i : Nat) (xs ys : List α) :
    putAll block i (xs ++ ys) =
      (putAll block i xs).bind fun block => putAll block (i + xs.length) ys := by
  induction xs generalizing block i with
  | nil => rfl
  | cons x xs ih =>
    rw [List.cons_append, putAll, putAll]
    cases put block i x with
    | none => rfl
    | some block =>
      rw [Option.bind_some, Option.bind_some, ih, List.length_cons, Nat.add_assoc, Nat.add_comm 1]

/-- The block up to the end of what was written. -/
theorem take_overlay_end {block xs : List α} {i : Nat} (hi : i ≤ block.length) :
    (overlay block i xs).take (i + xs.length) = block.take i ++ xs := by
  have hlength : (block.take i ++ xs).length = i + xs.length := by
    rw [List.length_append, List.length_take]
    omega
  rw [overlay, ← hlength, List.take_left]

/-- A block that is written from its beginning to its end. -/
theorem overlay_all {block xs : List α} (h : xs.length = block.length) :
    overlay block 0 xs = xs := by
  rw [overlay, List.take_zero, List.nil_append, List.drop_eq_nil_of_le (by omega), List.append_nil]

end CLib
