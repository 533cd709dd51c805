import Cexp.Lib.Post

/-!
# Simulation of computations

Run from one state, a computation over a large state `τ` follows one over a part of that state
(`view`) if both have the same result, or stop with the same error, and leave the same part behind.
Another part (`frame`) is left alone. What the large state has besides may go through phases: `J` is
the phase after the computation.

Simulations are composed along the program (`Follows.bind`). Steps that only change the phase have
no counterpart (`Follows.left`).

`OkLe` compares programs over the same state: one stops more often than the other.
-/

namespace EStateM

variable {ε σ τ φ α β : Type}

/-- Run from `t`, `x` does what `y` does. -/
def Follows (view : τ → σ) (frame : τ → φ) (J : τ → Prop) (x : EStateM ε τ α)
    (y : EStateM ε σ α) (t : τ) : Prop :=
  match x t with
  | .ok a t' => y (view t) = .ok a (view t') ∧ frame t' = frame t ∧ J t'
  | .error e t' => y (view t) = .error e (view t') ∧ frame t' = frame t

variable {view : τ → σ} {frame : τ → φ} {J K : τ → Prop} {x : EStateM ε τ α}
  {y : EStateM ε σ α} {t t' : τ}

theorem Follows.ok {a : α} (h : Follows view frame J x y t) (hx : x t = .ok a t') :
    y (view t) = .ok a (view t') ∧ frame t' = frame t ∧ J t' := by
  rwa [Follows, hx] at h

theorem Follows.error {e : ε} (h : Follows view frame J x y t) (hx : x t = .error e t') :
    y (view t) = .error e (view t') ∧ frame t' = frame t := by
  rwa [Follows, hx] at h

theorem follows_pure (a : α) (ht : J t) :
    Follows view frame J (pure a) (pure a : EStateM ε σ α) t := ⟨rfl, rfl, ht⟩

theorem follows_throw (e : ε) :
    Follows view frame J (throw e : EStateM ε τ α) (throw e) t := ⟨rfl, rfl⟩

theorem Follows.bind {f : α → EStateM ε τ β} {g : α → EStateM ε σ β}
    (hx : Follows view frame J x y t)
    (hf : ∀ a t', y (view t) = .ok a (view t') → J t' → Follows view frame K (f a) (g a) t') :
    Follows view frame K (x >>= f) (y >>= g) t := by
  unfold Follows
  cases hxt : x t with
  | error e t₁ =>
    obtain ⟨hy, hframe⟩ := hx.error hxt
    rw [bind_error hxt, bind_error hy]
    exact ⟨rfl, hframe⟩
  | ok a t₁ =>
    obtain ⟨hy, hframe, hphase⟩ := hx.ok hxt
    have hrest := hf a t₁ hy hphase
    rw [bind_ok hxt, bind_ok hy]
    unfold Follows at hrest
    cases hfa : f a t₁ with
    | error e t₂ =>
      rw [hfa] at hrest
      exact ⟨hrest.1, hrest.2.trans hframe⟩
    | ok b t₂ =>
      rw [hfa] at hrest
      exact ⟨hrest.1, hrest.2.1.trans hframe, hrest.2.2⟩

/-- A step that only changes the phase. -/
theorem Follows.left {u : EStateM ε τ Unit} {f : Unit → EStateM ε τ α}
    (hu : Follows view frame J u (pure ()) t)
    (hf : ∀ t', view t' = view t → J t' → Follows view frame K (f ()) y t') :
    Follows view frame K (u >>= f) y t := by
  have h := hu.bind (g := fun _ => y) fun _ t' hview => hf t' (EStateM.Result.ok.inj hview).2.symm
  rwa [pure_bind] at h

/-! ## Programs that stop less often -/

/-- Where `x` succeeds, `y` does the same. -/
def OkLe (x y : EStateM ε σ α) : Prop := ∀ s a s', x s = .ok a s' → y s = .ok a s'

theorem OkLe.refl (x : EStateM ε σ α) : OkLe x x := fun _ _ _ h => h

theorem OkLe.bind {x y : EStateM ε σ α} {f g : α → EStateM ε σ β} (hxy : OkLe x y)
    (hfg : ∀ a, OkLe (f a) (g a)) : OkLe (x >>= f) (y >>= g) := by
  intro s b s' h
  cases hx : x s with
  | error e s₁ =>
    rw [bind_error hx] at h
    cases h
  | ok a s₁ =>
    rw [bind_ok hx] at h
    rw [bind_ok (hxy s a s₁ hx)]
    exact hfg a s₁ b s' h

theorem OkLe.ite {p : Prop} [Decidable p] {x y x' y' : EStateM ε σ α} (h : OkLe x y)
    (h' : OkLe x' y') : OkLe (if p then x else x') (if p then y else y') := by
  by_cases hp : p
  · rw [if_pos hp, if_pos hp]
    exact h
  · rw [if_neg hp, if_neg hp]
    exact h'

end EStateM
