import Cexp.Syms.Table
import Mathlib.Data.List.Lex
import Mathlib.Order.Basic

/-!
# The comparison of names

`_cexp_namecomp` compares up to the end of its first argument. It yields zero when the
second one ends there too or goes on with the version separator, which is what a lookup
needs. In the other direction a name that goes on compares by its next character, so the
comparisons of a set of names are consistent only if no name of the set is continued in
another one by the separator or by a negative character (`Regular`). If they are, their
order is the lexicographic order of the characters (`namecomp_neg_iff`).
-/

namespace Cexp

open CLib

theorem CharSign.val_inj (cs : CharSign) {a b : UInt8} (h : cs.val a = cs.val b) : a = b := by
  have ha : a.toNat < 256 := a.toNat_lt
  have hb : b.toNat < 256 := b.toNat_lt
  apply UInt8.toNat_inj.mp
  cases cs with
  | signed =>
    simp only [CharSign.val] at h
    split at h <;> split at h <;> omega
  | unsigned =>
    simp only [CharSign.val] at h
    omega

@[simp] theorem CharSign.val_zero (cs : CharSign) : cs.val 0 = 0 := by cases cs <;> rfl

@[simp] theorem CharSign.val_separator (cs : CharSign) : cs.val separator = 64 := by
  cases cs <;> rfl

theorem CharSign.val_ne_zero {cs : CharSign} {a : UInt8} (h : a ≠ 0) : cs.val a ≠ 0 := by
  intro h0
  exact h (CharSign.val_inj cs (by rw [h0, val_zero]))

/-! ## Where two names part -/

/-- The ways in which two strings can differ. -/
inductive Parting : List UInt8 → List UInt8 → Prop
  | same (p : List UInt8) : Parting p p
  | longer (p : List UInt8) (y : UInt8) (t : List UInt8) : Parting p (p ++ y :: t)
  | shorter (p : List UInt8) (x : UInt8) (s : List UInt8) : Parting (p ++ x :: s) p
  | differ (p : List UInt8) (x y : UInt8) (s t : List UInt8) (h : x ≠ y) :
      Parting (p ++ x :: s) (p ++ y :: t)

theorem parting (a b : List UInt8) : Parting a b := by
  induction a generalizing b with
  | nil =>
    cases b with
    | nil => exact .same []
    | cons y t => exact .longer [] y t
  | cons x s ih =>
    cases b with
    | nil => exact .shorter [] x s
    | cons y t =>
      by_cases hxy : x = y
      · subst hxy
        cases ih t with
        | same => exact .same (x :: s)
        | longer _ y' t' => exact .longer (x :: s) y' t'
        | shorter _ x' s' => exact .shorter (x :: t) x' s'
        | differ p x' y' s' t' h => exact .differ (x :: p) x' y' s' t' h
      · exact .differ [] x y s t hxy

/-! ## The value of a comparison -/

@[simp] theorem namecomp_append (cs : CharSign) (p a b : List UInt8) :
    namecomp cs (p ++ a) (p ++ b) = namecomp cs a b := by
  induction p with
  | nil => rfl
  | cons x p ih => simpa [namecomp] using ih

@[simp] theorem namecomp_self (cs : CharSign) (a : List UInt8) : namecomp cs a a = 0 := by
  simpa [namecomp] using namecomp_append cs a [] []

@[simp] theorem namecomp_longer (cs : CharSign) (p : List UInt8) (y : UInt8) (t : List UInt8) :
    namecomp cs p (p ++ y :: t) = if y = separator then 0 else -1 := by
  simpa [namecomp] using namecomp_append cs p [] (y :: t)

@[simp] theorem namecomp_shorter (cs : CharSign) (p : List UInt8) (x : UInt8) (s : List UInt8) :
    namecomp cs (p ++ x :: s) p = cs.val x := by
  simpa [namecomp] using namecomp_append cs p (x :: s) []

theorem namecomp_differ (cs : CharSign) (p : List UInt8) {x y : UInt8} (s t : List UInt8)
    (h : x ≠ y) : namecomp cs (p ++ x :: s) (p ++ y :: t) = cs.val x - cs.val y := by
  have hne : cs.val x - cs.val y ≠ 0 := fun h0 => h (CharSign.val_inj cs (by omega))
  rw [namecomp_append, namecomp, if_pos hne]

/-- The names that a lookup of `k` accepts. -/
def Matches (k n : List UInt8) : Prop := n = k ∨ ∃ v, n = k ++ separator :: v

theorem namecomp_eq_zero_iff {cs : CharSign} {k n : List UInt8} (hk : 0 ∉ k) :
    namecomp cs k n = 0 ↔ Matches k n := by
  unfold Matches
  cases parting k n with
  | same => simp
  | longer _ y t => simp
  | shorter p x s =>
    have hx : x ≠ 0 := by
      rintro rfl
      simp at hk
    rw [namecomp_shorter]
    refine iff_of_false (CharSign.val_ne_zero hx) ?_
    rintro (h | ⟨v, h⟩)
    · simpa using congrArg List.length h
    · have := congrArg List.length h
      simp at this
  | differ p x y s t h =>
    rw [namecomp_differ cs p s t h]
    refine iff_of_false (fun h0 => h (CharSign.val_inj cs (by omega))) ?_
    rintro (h' | ⟨v, h'⟩)
    · simp only [List.append_cancel_left_eq, List.cons.injEq] at h'
      exact h h'.1.symm
    · rw [List.append_assoc, List.append_cancel_left_eq, List.cons_append, List.cons.injEq] at h'
      exact h h'.1.symm

/-- A positive comparison does not look behind the end of the key. -/
theorem namecomp_pos_append {cs : CharSign} {k m : List UInt8} (e : List UInt8)
    (h : 0 < namecomp cs k m) : 0 < namecomp cs (k ++ e) m := by
  cases parting k m with
  | same => simp at h
  | longer _ y t =>
    rw [namecomp_longer] at h
    split at h <;> omega
  | shorter p x s => simpa using h
  | differ p x y s t hxy =>
    rw [namecomp_differ cs p s t hxy] at h
    rw [List.append_assoc, List.cons_append, namecomp_differ cs p _ t hxy]
    exact h

/-- If `k` matches `n` then what lies before `k` lies before `n`. -/
theorem namecomp_pos_of_matches {cs : CharSign} {k n m : List UInt8} (hn : Matches k n)
    (h : 0 < namecomp cs k m) : 0 < namecomp cs n m := by
  rcases hn with rfl | ⟨v, rfl⟩
  · exact h
  · exact namecomp_pos_append _ h

/-- A negative comparison that a name of the key's family does not share: the other name
continues the key, or is continued by it with a negative character. -/
theorem namecomp_neg_of_matches {cs : CharSign} {k n m : List UInt8} (hn : Matches k n)
    (h : namecomp cs k m < 0) (hmn : namecomp cs m n ≤ 0) :
    (∃ c s, m = k ++ c :: s ∧ c ≠ separator ∧
      (n = k ∧ cs.val c ≤ 0 ∨ ∃ v, n = k ++ separator :: v ∧ cs.val c ≤ 64)) ∨
    ∃ c s, k = m ++ c :: s ∧ cs.val c < 0 := by
  cases parting k m with
  | same => simp at h
  | longer _ c s =>
    left
    have hc : c ≠ separator := by
      rintro rfl
      simp at h
    refine ⟨c, s, rfl, hc, ?_⟩
    rcases hn with rfl | ⟨v, rfl⟩
    · exact .inl ⟨rfl, by simpa using hmn⟩
    · rw [namecomp_differ cs k s v hc, CharSign.val_separator] at hmn
      exact .inr ⟨v, rfl, by omega⟩
  | shorter p c s => exact .inr ⟨c, s, rfl, by simpa using h⟩
  | differ p x y s t hxy =>
    rw [namecomp_differ cs p s t hxy] at h
    have hpos : namecomp cs (p ++ y :: t) n = cs.val y - cs.val x := by
      rcases hn with rfl | ⟨v, rfl⟩
      · exact namecomp_differ cs p t s (Ne.symm hxy)
      · rw [List.append_assoc, List.cons_append]
        exact namecomp_differ cs p t _ (Ne.symm hxy)
    omega

/-! ## Consistent comparisons -/

theorem CexpSym.noNul (s : CexpSym) : 0 ∉ s.bytes := by
  unfold CexpSym.bytes
  split
  · simp
  · rename_i n _
    exact n.noNul

/-- No name of the list is continued in another one by the separator or by a negative
character. -/
def Regular (cs : CharSign) (l : List CexpSym) : Prop :=
  ∀ a ∈ l, ∀ b ∈ l, ∀ c s, b.bytes = a.bytes ++ c :: s → c ≠ separator ∧ 0 < cs.val c

/-- The lexicographic order of the characters. -/
def nameLt (cs : CharSign) (a b : List UInt8) : Prop := a.map cs.val < b.map cs.val

theorem nameLt_longer (cs : CharSign) (p : List UInt8) (y : UInt8) (t : List UInt8) :
    nameLt cs p (p ++ y :: t) := by
  unfold nameLt
  induction p with
  | nil => exact List.Lex.nil
  | cons x p ih => exact List.Lex.cons ih

theorem nameLt_differ {cs : CharSign} (p : List UInt8) {x y : UInt8} (s t : List UInt8)
    (h : cs.val x < cs.val y) : nameLt cs (p ++ x :: s) (p ++ y :: t) := by
  unfold nameLt
  induction p with
  | nil => exact List.Lex.rel h
  | cons z p ih => exact List.Lex.cons ih

theorem nameLt_asymm {cs : CharSign} {a b : List UInt8} (h : nameLt cs a b) : ¬ nameLt cs b a :=
  lt_asymm h

theorem nameLt_irrefl {cs : CharSign} (a : List UInt8) : ¬ nameLt cs a a := lt_irrefl _

theorem nameLt_trans {cs : CharSign} {a b c : List UInt8} (h₁ : nameLt cs a b)
    (h₂ : nameLt cs b c) : nameLt cs a c := lt_trans h₁ h₂

/-- Names of a regular list: the comparison tells their order. -/
theorem Regular.compare {cs : CharSign} {l : List CexpSym} (hl : Regular cs l) {a b : CexpSym}
    (ha : a ∈ l) (hb : b ∈ l) :
    (a.bytes = b.bytes ∧ cexpNamecomp cs a b = 0) ∨
    (nameLt cs a.bytes b.bytes ∧ cexpNamecomp cs a b < 0) ∨
    (nameLt cs b.bytes a.bytes ∧ 0 < cexpNamecomp cs a b) := by
  unfold cexpNamecomp
  have hab := hl a ha b hb
  have hba := hl b hb a ha
  revert hab hba
  generalize a.bytes = x
  generalize b.bytes = y
  cases parting x y with
  | same p => exact fun _ _ => .inl ⟨rfl, namecomp_self cs _⟩
  | longer _ y t =>
    intro hab _
    obtain ⟨hy, -⟩ := hab y t rfl
    refine .inr (.inl ⟨nameLt_longer cs _ y t, ?_⟩)
    rw [namecomp_longer, if_neg hy]
    decide
  | shorter _ x s =>
    intro _ hba
    obtain ⟨-, hx⟩ := hba x s rfl
    refine .inr (.inr ⟨nameLt_longer cs _ x s, ?_⟩)
    rw [namecomp_shorter]
    exact hx
  | differ p x y s t hxy =>
    intro _ _
    rw [namecomp_differ cs p s t hxy]
    rcases lt_trichotomy (cs.val x) (cs.val y) with h | h | h
    · exact .inr (.inl ⟨nameLt_differ p s t h, by omega⟩)
    · exact absurd (CharSign.val_inj cs h) hxy
    · exact .inr (.inr ⟨nameLt_differ p t s h, by omega⟩)

theorem Regular.eq_of_zero {cs : CharSign} {l : List CexpSym} (hl : Regular cs l) {a b : CexpSym}
    (ha : a ∈ l) (hb : b ∈ l) (h : cexpNamecomp cs a b = 0) : a.bytes = b.bytes := by
  rcases hl.compare ha hb with ⟨heq, -⟩ | ⟨-, hlt⟩ | ⟨-, hgt⟩
  · exact heq
  · omega
  · omega

theorem Regular.nameLt_of_neg {cs : CharSign} {l : List CexpSym} (hl : Regular cs l)
    {a b : CexpSym} (ha : a ∈ l) (hb : b ∈ l) (h : cexpNamecomp cs a b < 0) :
    nameLt cs a.bytes b.bytes := by
  rcases hl.compare ha hb with ⟨-, h0⟩ | ⟨hlt, -⟩ | ⟨-, hgt⟩
  · omega
  · exact hlt
  · omega

/-- The comparisons of a list are consistent iff the list is regular. -/
theorem consistent_iff_regular (cs : CharSign) (l : List CexpSym) :
    Consistent (cexpNamecomp cs) l ↔ Regular cs l := by
  constructor
  · intro hc a ha b hb c s hbs
    have hswap := hc.swap a ha b hb
    unfold cexpNamecomp at hswap
    rw [hbs, namecomp_longer, namecomp_shorter] at hswap
    split at hswap
    · rename_i hsep
      subst hsep
      simp at hswap
    · rename_i hsep
      exact ⟨hsep, hswap.mp (by decide)⟩
  · intro hl
    refine ⟨fun a ha b hb => ?_, fun a ha b hb c hc hab hbc => ?_⟩
    · rcases hl.compare ha hb with ⟨h₁, h₁'⟩ | ⟨h₁, h₁'⟩ | ⟨h₁, h₁'⟩ <;>
        rcases hl.compare hb ha with ⟨h₂, h₂'⟩ | ⟨h₂, h₂'⟩ | ⟨h₂, h₂'⟩
      all_goals first
        | exact iff_of_true (by omega) (by omega)
        | exact iff_of_false (by omega) (by omega)
        | exact absurd h₂ (nameLt_asymm h₁)
        | (rw [h₁] at h₂; exact absurd h₂ (nameLt_irrefl _))
        | (rw [h₂] at h₁; exact absurd h₁ (nameLt_irrefl _))
    · by_contra hac
      have hca : nameLt cs c.bytes a.bytes := by
        rcases hl.compare ha hc with ⟨-, h⟩ | ⟨-, h⟩ | ⟨h, -⟩
        · omega
        · omega
        · exact h
      rcases hl.compare ha hb with ⟨h₁, -⟩ | ⟨h₁, -⟩ | ⟨-, h₁⟩ <;>
        rcases hl.compare hb hc with ⟨h₂, -⟩ | ⟨h₂, -⟩ | ⟨-, h₂⟩
      all_goals first
        | omega
        | (rw [h₁, h₂] at hca; exact nameLt_irrefl _ hca)
        | (rw [h₁] at hca; exact nameLt_asymm hca h₂)
        | (rw [← h₂] at hca; exact nameLt_asymm hca h₁)
        | exact nameLt_asymm hca (nameLt_trans h₁ h₂)

end Cexp
