import Mathlib.Logic.Relation

/-!
# While loops

`loop test body k s` runs `while (test) body` from the state `s` for at most `k` passes;
a pass may stop the loop with an error. It is `none` if the loop is still going then.

What a loop can do is said with the states that stand at the head of a pass (`Reach`): an
error of the loop is an error of the body in one of them (`loop_error_iff`), and a result is
one of them (`loop_ok_iff`). A loop whose passes make a measure smaller ends
(`loop_measure`), and `whileLoop` is its result.
-/

namespace CLib

variable {ε σ : Type}

def loop (test : σ → Bool) (body : σ → Except ε σ) : Nat → σ → Option (Except ε σ)
  | 0, _ => none
  | k + 1, s =>
    if test s then
      match body s with
      | .error e => some (.error e)
      | .ok t => loop test body k t
    else some (.ok s)

/-- One pass that does not stop the loop. -/
def Pass (test : σ → Bool) (body : σ → Except ε σ) (s t : σ) : Prop :=
  test s = true ∧ body s = .ok t

/-- `t` is at the head of a pass when the loop runs from `s`. -/
def Reach (test : σ → Bool) (body : σ → Except ε σ) : σ → σ → Prop :=
  Relation.ReflTransGen (Pass test body)

variable {test : σ → Bool} {body : σ → Except ε σ}

theorem loop_done {s : σ} (h : test s = false) (k : Nat) :
    loop test body (k + 1) s = some (.ok s) := by
  simp [loop, h]

theorem loop_stop {s : σ} {e : ε} (h : test s = true) (he : body s = .error e) (k : Nat) :
    loop test body (k + 1) s = some (.error e) := by
  simp [loop, h, he]

theorem loop_pass {s t : σ} (h : Pass test body s t) (k : Nat) :
    loop test body (k + 1) s = loop test body k t := by
  simp [loop, h.1, h.2]

theorem loop_reach {s t : σ} (h : Reach test body s t) {k : Nat} {r : Except ε σ}
    (hr : loop test body k t = some r) : ∃ m, loop test body m s = some r := by
  induction h using Relation.ReflTransGen.head_induction_on with
  | refl => exact ⟨k, hr⟩
  | head hpass _ ih =>
    obtain ⟨m, hm⟩ := ih
    exact ⟨m + 1, by rw [loop_pass hpass, hm]⟩

/-- A loop ends at the head of a pass: there the body stops it or the test fails. -/
theorem loop_end {k : Nat} {s : σ} {r : Except ε σ} (h : loop test body k s = some r) :
    ∃ t, Reach test body s t ∧
      ((test t = false ∧ r = .ok t) ∨ ∃ e, test t = true ∧ body t = .error e ∧ r = .error e) := by
  induction k generalizing s with
  | zero => cases h
  | succ k ih =>
    by_cases hs : test s = true
    · cases hb : body s with
      | error e =>
        rw [loop_stop hs hb] at h
        cases h
        exact ⟨s, .refl, .inr ⟨e, hs, hb, rfl⟩⟩
      | ok t =>
        rw [loop_pass ⟨hs, hb⟩] at h
        obtain ⟨u, htu, hu⟩ := ih h
        exact ⟨u, .head ⟨hs, hb⟩ htu, hu⟩
    · have hs' : test s = false := by simpa using hs
      rw [loop_done hs'] at h
      cases h
      exact ⟨s, .refl, .inl ⟨hs', rfl⟩⟩

theorem loop_error_iff {s : σ} {e : ε} :
    (∃ k, loop test body k s = some (.error e)) ↔
      ∃ t, Reach test body s t ∧ test t = true ∧ body t = .error e := by
  constructor
  · rintro ⟨k, hk⟩
    obtain ⟨t, hst, ⟨-, h⟩ | ⟨e', ht, hb, h⟩⟩ := loop_end hk
    · cases h
    · cases h
      exact ⟨t, hst, ht, hb⟩
  · rintro ⟨t, hst, ht, hb⟩
    exact loop_reach hst (loop_stop ht hb 0)

theorem loop_ok_iff {s t : σ} :
    (∃ k, loop test body k s = some (.ok t)) ↔ Reach test body s t ∧ test t = false := by
  constructor
  · rintro ⟨k, hk⟩
    obtain ⟨u, hsu, ⟨hu, h⟩ | ⟨e, -, -, h⟩⟩ := loop_end hk
    · cases h
      exact ⟨hsu, hu⟩
    · cases h
  · rintro ⟨hst, ht⟩
    exact loop_reach hst (loop_done ht 0)

/-! ## Loops that end -/

theorem loop_measure (μ : σ → Nat) {k : Nat} {s : σ}
    (h : ∀ t u, Reach test body s t → Pass test body t u → μ u < μ t) (hk : μ s < k) :
    (loop test body k s).isSome = true := by
  induction k generalizing s with
  | zero => omega
  | succ k ih =>
    by_cases hs : test s = true
    · cases hb : body s with
      | error e => rw [loop_stop hs hb]; rfl
      | ok t =>
        rw [loop_pass ⟨hs, hb⟩]
        have hlt := h s t .refl ⟨hs, hb⟩
        exact ih (fun u v hu hv => h u v (.head ⟨hs, hb⟩ hu) hv) (by omega)
    · rw [loop_done (by simpa using hs)]
      rfl

/-- The result of a loop whose passes make `μ` smaller. -/
def whileLoop (test : σ → Bool) (body : σ → Except ε σ) (μ : σ → Nat)
    (h : ∀ s t, Pass test body s t → μ t < μ s) (s : σ) : Except ε σ :=
  (loop test body (μ s + 1) s).get
    (loop_measure μ (fun t u _ => h t u) (Nat.lt_succ_self _))

theorem whileLoop_eq (μ : σ → Nat) (h : ∀ s t, Pass test body s t → μ t < μ s) (s : σ) :
    loop test body (μ s + 1) s = some (whileLoop test body μ h s) := by
  simp [whileLoop]

section

variable {μ : σ → Nat} {h : ∀ s t, Pass test body s t → μ t < μ s}

theorem loop_mono {k : Nat} {s : σ} {r : Except ε σ} (hr : loop test body k s = some r) (m : Nat) :
    loop test body (k + m) s = some r := by
  induction k generalizing s with
  | zero => cases hr
  | succ k ih =>
    rw [Nat.add_right_comm]
    by_cases hs : test s = true
    · cases hb : body s with
      | error e => rwa [loop_stop hs hb] at hr ⊢
      | ok t =>
        rw [loop_pass ⟨hs, hb⟩] at hr ⊢
        exact ih hr
    · rwa [loop_done (by simpa using hs)] at hr ⊢

/-- Any number of passes that gives a result gives the result. -/
theorem whileLoop_unique {k : Nat} {s : σ} {r : Except ε σ}
    (hr : loop test body k s = some r) : whileLoop test body μ h s = r := by
  have h₁ := loop_mono hr (μ s + 1)
  have h₂ := loop_mono (whileLoop_eq μ h s) k
  rw [Nat.add_comm, h₁] at h₂
  exact (Option.some.inj h₂).symm

theorem whileLoop_error_iff {s : σ} {e : ε} :
    whileLoop test body μ h s = .error e ↔
      ∃ t, Reach test body s t ∧ test t = true ∧ body t = .error e := by
  rw [← loop_error_iff]
  constructor
  · intro hw
    exact ⟨μ s + 1, by rw [whileLoop_eq μ h, hw]⟩
  · rintro ⟨k, hk⟩
    exact whileLoop_unique hk

theorem whileLoop_ok_iff {s t : σ} :
    whileLoop test body μ h s = .ok t ↔ Reach test body s t ∧ test t = false := by
  rw [← loop_ok_iff]
  constructor
  · intro hw
    exact ⟨μ s + 1, by rw [whileLoop_eq μ h, hw]⟩
  · rintro ⟨k, hk⟩
    exact whileLoop_unique hk

end

end CLib
