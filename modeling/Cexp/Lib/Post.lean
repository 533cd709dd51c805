/-!
# Postconditions of state-and-error computations

`Post x s Q` says that if `x` run from `s` succeeds, its result and final state satisfy
`Q`. Runs that stop with an error satisfy every postcondition. `Ends x s Q R` says what holds after
an error, too.
-/

namespace CLib

theorem ok_bind {ε α β : Type} {a : α} {f : α → Except ε β} : (Except.ok a >>= f) = f a := rfl

theorem bind_eq_ok {ε α β : Type} {x : Except ε α} {f : α → Except ε β} {b : β} :
    (x >>= f) = .ok b ↔ ∃ a, x = .ok a ∧ f a = .ok b := by
  cases x with
  | error e => simp [bind, Except.bind]
  | ok a => simp [bind, Except.bind]

theorem toOption_eq_some {ε α : Type} {x : Except ε α} {a : α} (h : x.toOption = some a) :
    x = .ok a := by
  cases x with
  | error e => cases h
  | ok a' => exact congrArg Except.ok (Option.some.inj h)

/-- Each element of the result comes from the element at its place. -/
theorem mapM_getElem? {ε α β : Type} {f : α → Except ε β} {l : List α} {l' : List β}
    (h : l.mapM f = .ok l') : l'.length = l.length ∧
      ∀ {k : Nat} {b : β}, l'[k]? = some b → ∃ a, l[k]? = some a ∧ f a = .ok b := by
  induction l generalizing l' with
  | nil =>
    cases h
    refine ⟨rfl, ?_⟩
    intro k b hk
    cases hk
  | cons a l ih =>
    rw [List.mapM_cons] at h
    obtain ⟨b, hb, h⟩ := bind_eq_ok.mp h
    obtain ⟨bs, hbs, h⟩ := bind_eq_ok.mp h
    cases h
    obtain ⟨hlength, hget⟩ := ih hbs
    refine ⟨congrArg (· + 1) hlength, ?_⟩
    intro k b' hk
    cases k with
    | zero =>
      cases hk
      exact ⟨a, rfl, hb⟩
    | succ k => exact hget hk

end CLib

namespace EStateM

variable {ε σ α β : Type}

def Post (x : EStateM ε σ α) (s : σ) (Q : α → σ → Prop) : Prop :=
  ∀ a s', x s = .ok a s' → Q a s'

theorem Post.pure {s : σ} {a : α} {Q : α → σ → Prop} (h : Q a s) :
    Post (Pure.pure a : EStateM ε σ α) s Q := by
  intro b s' hb
  cases hb
  exact h

theorem Post.throw {s : σ} {e : ε} {Q : α → σ → Prop} :
    Post (MonadExcept.throw e : EStateM ε σ α) s Q := by
  intro b s' hb
  cases hb

theorem Post.mono {x : EStateM ε σ α} {s : σ} {Q R : α → σ → Prop} (h : Post x s Q)
    (hQR : ∀ a s', Q a s' → R a s') : Post x s R := fun a s' ha => hQR a s' (h a s' ha)

theorem Post.bind {x : EStateM ε σ α} {f : α → EStateM ε σ β} {s : σ} {Q : α → σ → Prop}
    {R : β → σ → Prop} (hx : Post x s Q) (hf : ∀ a s', Q a s' → Post (f a) s' R) :
    Post (x >>= f) s R := by
  intro b s' hb
  have hb' : EStateM.bind x f s = .ok b s' := hb
  unfold EStateM.bind at hb'
  cases h : x s with
  | error e t => rw [h] at hb'; cases hb'
  | ok a t => rw [h] at hb'; exact hf a t (hx a t h) b s' hb'

/-- The equation of `>>=` after a run that succeeded. -/
theorem bind_ok {x : EStateM ε σ α} {f : α → EStateM ε σ β} {s t : σ} {a : α}
    (h : x s = .ok a t) : (x >>= f) s = f a t := by
  change EStateM.bind x f s = f a t
  simp only [EStateM.bind, h]

/-- The equation of `>>=` after a run that stopped. -/
theorem bind_error {x : EStateM ε σ α} {f : α → EStateM ε σ β} {s t : σ} {e : ε}
    (h : x s = .error e t) : (x >>= f) s = .error e t := by
  change EStateM.bind x f s = .error e t
  simp only [EStateM.bind, h]

/-- `Q` holds after a run that succeeded, `R` after one that stopped. -/
def Ends (x : EStateM ε σ α) (s : σ) (Q : α → σ → Prop) (R : ε → σ → Prop) : Prop :=
  match x s with
  | .ok a s' => Q a s'
  | .error e s' => R e s'

theorem Ends.of_ok {x : EStateM ε σ α} {s s' : σ} {a : α} {Q : α → σ → Prop} {R : ε → σ → Prop}
    (hx : Ends x s Q R) (h : x s = .ok a s') : Q a s' := by
  rwa [Ends, h] at hx

theorem Ends.of_error {x : EStateM ε σ α} {s s' : σ} {e : ε} {Q : α → σ → Prop}
    {R : ε → σ → Prop} (hx : Ends x s Q R) (h : x s = .error e s') : R e s' := by
  rwa [Ends, h] at hx

theorem Ends.bind {x : EStateM ε σ α} {f : α → EStateM ε σ β} {s : σ} {P : α → σ → Prop}
    {Q : β → σ → Prop} {R : ε → σ → Prop} (hx : Ends x s P R)
    (hf : ∀ a s', P a s' → Ends (f a) s' Q R) : Ends (x >>= f) s Q R := by
  cases h : x s with
  | error e s' =>
    rw [Ends, bind_error h]
    exact hx.of_error h
  | ok a s' =>
    rw [Ends, bind_ok h]
    exact hf a s' (hx.of_ok h)

end EStateM
