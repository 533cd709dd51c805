import Mathlib.Data.List.Pairwise
import Mathlib.Logic.Relation

/-!
# Lists whose elements rest on earlier ones

A list is stacked for the relation "rests on" if its elements rest only on elements that come
before them. Putting a new element on top and taking any elements out keep a list stacked, and
nothing in it comes back to itself (`Stacked.acyclic`).
-/

namespace Cexp

variable {α β : Type*} {R : α → α → Prop}

/-- Elements rest only on earlier ones. -/
structure Stacked (R : α → α → Prop) (l : List α) : Prop where
  later : l.Pairwise fun a b => ¬R a b
  irrefl : ∀ a ∈ l, ¬R a a

namespace Stacked

variable {l : List α}

theorem nil : Stacked R [] := ⟨List.Pairwise.nil, by simp⟩

theorem sublist {l' : List α} (h : Stacked R l) (hsub : l'.Sublist l) : Stacked R l' :=
  ⟨h.later.sublist hsub, fun a ha => h.irrefl a (hsub.subset ha)⟩

/-- Nothing rests on a new element, which does not rest on itself. -/
theorem concat (h : Stacked R l) {b : α} (hb : ∀ a ∈ l, ¬R a b) (hirrefl : ¬R b b) :
    Stacked R (l ++ [b]) := by
  refine ⟨List.pairwise_append.mpr ⟨h.later, List.pairwise_singleton _ _, ?_⟩, fun a ha => ?_⟩
  · intro a ha b' hb'
    rw [List.mem_singleton] at hb'
    exact hb' ▸ hb a ha
  · rcases List.mem_append.mp ha with ha | ha
    · exact h.irrefl a ha
    · rw [List.mem_singleton] at ha
      exact ha ▸ hirrefl

/-- A map after which elements rest only on what they rested on before. -/
theorem map {S : β → β → Prop} {f : α → β} (h : Stacked R l)
    (hf : ∀ a ∈ l, ∀ b ∈ l, S (f a) (f b) → R a b) : Stacked S (l.map f) := by
  refine ⟨List.pairwise_map.mpr ?_, fun b hb => ?_⟩
  · refine h.later.imp_of_mem fun ha hb hab hS => hab (hf _ ha _ hb hS)
  · obtain ⟨a, ha, rfl⟩ := List.mem_map.mp hb
    exact fun hS => h.irrefl a ha (hf a ha a ha hS)

/-- What rests on an element comes after it. -/
theorem after {l₁ l₂ : List α} {a b : α} (h : Stacked R (l₁ ++ b :: l₂)) (ha : a ∈ l₁ ++ b :: l₂)
    (hR : R a b) : a ∈ l₂ := by
  rcases List.mem_append.mp ha with ha | ha
  · exact absurd hR ((List.pairwise_append.mp h.later).2.2 a ha b List.mem_cons_self)
  · rcases List.mem_cons.mp ha with rfl | ha
    · exact absurd hR (h.irrefl a (by simp))
    · exact ha

/-- Going down in a stacked list never comes back. -/
theorem acyclic (h : Stacked R l) (a : α) :
    ¬Relation.TransGen (fun x y => x ∈ l ∧ y ∈ l ∧ R x y) a a := by
  induction l generalizing a with
  | nil =>
    intro hcycle
    obtain ⟨y, ⟨ha, -⟩, -⟩ := Relation.TransGen.head'_iff.mp hcycle
    cases ha
  | cons b l ih =>
    have hrest := h.sublist (List.sublist_cons_self b l)
    -- the first element rests on nothing, so no way down leads out of it
    have hbottom : ∀ y, ¬(b ∈ b :: l ∧ y ∈ b :: l ∧ R b y) := by
      rintro y ⟨-, hy, hR⟩
      rcases List.mem_cons.mp hy with rfl | hy
      · exact h.irrefl y List.mem_cons_self hR
      · exact (List.pairwise_cons.mp h.later).1 y hy hR
    intro hcycle
    refine ih hrest a ?_
    have hne : a ≠ b := by
      rintro rfl
      obtain ⟨y, hstep, -⟩ := Relation.TransGen.head'_iff.mp hcycle
      exact hbottom y hstep
    have hinside : ∀ {x}, Relation.TransGen (fun x y => x ∈ b :: l ∧ y ∈ b :: l ∧ R x y) x a →
        Relation.TransGen (fun x y => x ∈ l ∧ y ∈ l ∧ R x y) x a := by
      intro x hx
      have hmem : ∀ {z y}, z ∈ b :: l ∧ y ∈ b :: l ∧ R z y → z ∈ l := by
        intro z y hstep
        rcases List.mem_cons.mp hstep.1 with rfl | hz
        · exact absurd hstep (hbottom y)
        · exact hz
      induction hx using Relation.TransGen.head_induction_on with
      | single hstep =>
        exact Relation.TransGen.single
          ⟨hmem hstep, (List.mem_cons.mp hstep.2.1).resolve_left hne, hstep.2.2⟩
      | head hstep hlater ih =>
        obtain ⟨y, hnext, -⟩ := Relation.TransGen.head'_iff.mp hlater
        exact Relation.TransGen.head ⟨hmem hstep, hmem hnext, hstep.2.2⟩ ih
    exact hinside hcycle

end Stacked

end Cexp
