import Cexp.Lib.Post

/-!
# The operations that a computation performs

A program over a large state `τ` changes one part of it (`view`) only through operations, and
leaves another part (`frame`) alone. `Traces` says which operations a computation begins from a
given state: if it succeeds, all of them succeeded one after the other (`Performs`); if it stops
with an error, it stopped between two operations or in the last one (`Breaks`).

Traces are composed along the program (`Traces.bind`).
-/

namespace EStateM

variable {ε σ τ φ ω α β : Type}

/-- `ops` succeed one after the other. -/
inductive Performs (run : ω → EStateM ε σ Unit) : σ → List ω → σ → Prop where
  | nil (s : σ) : Performs run s [] s
  | cons {s s₁ s' : σ} {op : ω} {ops : List ω} (h : run op s = .ok () s₁)
      (hs : Performs run s₁ ops s') : Performs run s (op :: ops) s'

/-- After `ops` were begun the computation stops with `e`: between two operations, or because the
last one failed. -/
inductive Breaks (run : ω → EStateM ε σ Unit) (e : ε) : σ → List ω → σ → Prop where
  | between {s s' : σ} {ops : List ω} (h : Performs run s ops s') : Breaks run e s ops s'
  | failed {s w s' : σ} {ops : List ω} {op : ω} (h : Performs run s ops w)
      (hop : run op w = .error e s') : Breaks run e s (ops ++ [op]) s'

variable {run : ω → EStateM ε σ Unit} {s s' s₁ : σ} {ops ops' : List ω} {e : ε}

theorem Performs.append (h : Performs run s ops s₁) (h' : Performs run s₁ ops' s') :
    Performs run s (ops ++ ops') s' := by
  induction h with
  | nil s => exact h'
  | cons hop _ ih => exact .cons hop (ih h')

theorem Performs.single {op : ω} (h : run op s = .ok () s') : Performs run s [op] s' :=
  .cons h (.nil s')

theorem Breaks.append (h : Performs run s ops s₁) (h' : Breaks run e s₁ ops' s') :
    Breaks run e s (ops ++ ops') s' := by
  cases h' with
  | between hs => exact .between (h.append hs)
  | failed hs hop =>
    rw [← List.append_assoc]
    exact .failed (h.append hs) hop

/-! ## Computations -/

/-- The operations that begin after `r`: none if it stopped. -/
def following (r : Result ε τ α) (f : α → τ → List ω) : List ω :=
  match r with
  | .ok a t => f a t
  | .error _ _ => []

/-- From `t` the computation begins `ops`, and it leaves the frame as it is. -/
def Traces (run : ω → EStateM ε σ Unit) (view : τ → σ) (frame : τ → φ) (x : EStateM ε τ α)
    (t : τ) (ops : List ω) : Prop :=
  match x t with
  | .ok _ t' => Performs run (view t) ops (view t') ∧ frame t' = frame t
  | .error e t' => Breaks run e (view t) ops (view t') ∧ frame t' = frame t

variable {view : τ → σ} {frame : τ → φ} {x : EStateM ε τ α} {t t' : τ}

theorem Traces.ok {a : α} (h : Traces run view frame x t ops) (hx : x t = .ok a t') :
    Performs run (view t) ops (view t') ∧ frame t' = frame t := by
  rwa [Traces, hx] at h

theorem Traces.error (h : Traces run view frame x t ops) (hx : x t = .error e t') :
    Breaks run e (view t) ops (view t') ∧ frame t' = frame t := by
  rwa [Traces, hx] at h

theorem Traces.bind {f : α → EStateM ε τ β} {g : α → τ → List ω}
    (hx : Traces run view frame x t ops)
    (hf : ∀ a t₁, x t = .ok a t₁ → Traces run view frame (f a) t₁ (g a t₁)) :
    Traces run view frame (x >>= f) t (ops ++ following (x t) g) := by
  cases hxt : x t with
  | error e t₁ =>
    rw [Traces, bind_error hxt, following, List.append_nil]
    exact hx.error hxt
  | ok a t₁ =>
    obtain ⟨hops, hframe⟩ := hx.ok hxt
    have hrest := hf a t₁ hxt
    rw [Traces, bind_ok hxt, following]
    cases hfa : f a t₁ with
    | ok b t₂ =>
      obtain ⟨hops', hframe'⟩ := hrest.ok hfa
      exact ⟨hops.append hops', hframe'.trans hframe⟩
    | error e t₂ =>
      obtain ⟨hops', hframe'⟩ := hrest.error hfa
      exact ⟨Breaks.append hops hops', hframe'.trans hframe⟩

/-- A computation that changes neither part begins no operation. -/
theorem traces_of_same (hok : ∀ a t', x t = .ok a t' → view t' = view t ∧ frame t' = frame t)
    (herror : ∀ e t', x t = .error e t' → view t' = view t ∧ frame t' = frame t) :
    Traces run view frame x t [] := by
  unfold Traces
  cases hx : x t with
  | ok a t' =>
    obtain ⟨hview, hframe⟩ := hok a t' hx
    exact ⟨hview ▸ .nil _, hframe⟩
  | error e t' =>
    obtain ⟨hview, hframe⟩ := herror e t' hx
    exact ⟨hview ▸ .between (.nil _), hframe⟩

theorem traces_pure (a : α) (t : τ) : Traces run view frame (pure a) t [] := by
  apply traces_of_same
  · rintro b t' ⟨⟩
    exact ⟨rfl, rfl⟩
  · rintro e t' ⟨⟩

/-- The part after a computation that begins no operation. -/
theorem Traces.bind_silent {f : α → EStateM ε τ β} {ops : List ω}
    (hx : Traces run view frame x t ops)
    (hf : ∀ a t₁, x t = .ok a t₁ → Traces run view frame (f a) t₁ []) :
    Traces run view frame (x >>= f) t ops := by
  have h := hx.bind hf
  have hnone : following (x t) (fun _ _ => ([] : List ω)) = [] := by
    cases x t <;> rfl
  rwa [hnone, List.append_nil] at h

end EStateM
