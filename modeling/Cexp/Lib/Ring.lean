import Mathlib.Data.List.Chain

/-!
# Walks along a ring

A circular list is a function that gives each element its successor. A walk visits an element,
goes on to its successor, and is over when there is none or when the successor is the element
`frst`, where it set out. If the elements of a list follow each other, the walk along it visits
just these (`ringWalk_eq`).
-/

namespace CLib

variable {α : Type} [DecidableEq α] {next : α → Option α} {frst : α}

/-- The elements that a walk visits, unless it is not over after `n` of them. -/
def ringWalk (next : α → Option α) (frst : α) : Nat → α → Option (List α)
  | 0, _ => none
  | n + 1, a =>
    match next a with
    | none => some [a]
    | some b => if b = frst then some [a] else (ringWalk next frst n b).map (a :: ·)

/-- Each element is the successor of the one in front of it. -/
def Follow (next : α → Option α) (l : List α) : Prop := l.IsChain fun a b => next a = some b

/-- A walk stops behind an element: it has no successor, or the ring closes there. -/
def Stops (next : α → Option α) (frst a : α) : Prop := ∀ b, next a = some b → b = frst

theorem ringWalk_stop {a : α} (h : Stops next frst a) (n : Nat) :
    ringWalk next frst (n + 1) a = some [a] := by
  rw [ringWalk]
  split
  · rfl
  · next b hb => rw [if_pos (h b hb)]

theorem ringWalk_next {a b : α} (h : next a = some b) (hb : b ≠ frst) (n : Nat) :
    ringWalk next frst (n + 1) a = (ringWalk next frst n b).map (a :: ·) := by
  rw [ringWalk, h]
  exact if_neg hb

/-- The walk along a list whose elements follow each other. -/
theorem ringWalk_eq {a : α} {l : List α} (hfollow : Follow next (a :: l)) (hfrst : frst ∉ l)
    (hstop : Stops next frst ((a :: l).getLast (List.cons_ne_nil a l))) {n : Nat}
    (hn : l.length < n) : ringWalk next frst n a = some (a :: l) := by
  induction l generalizing a n with
  | nil =>
    obtain ⟨n, rfl⟩ := Nat.exists_eq_succ_of_ne_zero (Nat.ne_zero_of_lt hn)
    exact ringWalk_stop hstop n
  | cons b l ih =>
    obtain ⟨hab, hchain⟩ := List.isChain_cons_cons.mp hfollow
    rw [List.mem_cons, not_or] at hfrst
    obtain ⟨n, rfl⟩ := Nat.exists_eq_succ_of_ne_zero (Nat.ne_zero_of_lt hn)
    rw [ringWalk_next hab (Ne.symm hfrst.1)]
    rw [List.getLast_cons_cons] at hstop
    rw [ih hchain hfrst.2 hstop (Nat.lt_of_succ_lt_succ hn)]
    rfl

end CLib
