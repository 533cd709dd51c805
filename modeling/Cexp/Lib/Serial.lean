import Mathlib.Logic.Function.Basic

/-!
# Calls that run side by side

Threads make calls on shared data. A call is a sequence of steps, and some calls only read. If
no thread runs beside one that writes (`Shared.Exclusive`), the calls that have returned could
have been made one after the other, in the order in which they returned, with the same results
(`Shared.Serializable`). What the calls are and how the threads keep apart are parameters.
-/

namespace CLib

variable {Thread σ ω κ ρ : Type}

/-! ## Calls -/

/-- Calls `ω` on data `σ`. A step leads to the next place `κ` in the call, or to its result. -/
structure Calls (σ ω κ ρ : Type) where
  writes : ω → Bool
  start : ω → κ
  step : ω → κ → σ → Option (σ × (κ ⊕ ρ))
  readonly : ∀ o k s s' x, writes o = false → step o k s = some (s', x) → s' = s

namespace Calls

variable (C : Calls σ ω κ ρ)

/-- The call `o` gets from a place to another one while nobody else does anything. -/
inductive Steps (o : ω) : κ → σ → κ → σ → Prop where
  | refl (k : κ) (s : σ) : Steps o k s k s
  | tail {k k₁ k' : κ} {s s₁ s' : σ} (h : Steps o k s k₁ s₁)
      (hstep : C.step o k₁ s₁ = some (s', .inl k')) : Steps o k s k' s'

/-- The call returns `r` if nobody else does anything. -/
def Returns (o : ω) (s s' : σ) (r : ρ) : Prop :=
  ∃ k s₁, C.Steps o (C.start o) s k s₁ ∧ C.step o k s₁ = some (s', .inr r)

variable {C}

theorem Steps.readonly {o : ω} {k k' : κ} {s s' : σ} (h : C.Steps o k s k' s')
    (ho : C.writes o = false) : s' = s := by
  induction h with
  | refl => rfl
  | tail h hstep ih => exact (C.readonly _ _ _ _ _ ho hstep).trans ih

/-- What holds at the start of a call and what its steps keep. -/
theorem Steps.invariant {o : ω} {k k' : κ} {s s' : σ} {I : κ → σ → Prop}
    (h : C.Steps o k s k' s') (hstart : I k s)
    (hstep : ∀ k s k' s', I k s → C.step o k s = some (s', .inl k') → I k' s') : I k' s' := by
  induction h with
  | refl => exact hstart
  | tail _ hlast ih => exact hstep _ _ _ _ (ih hstart) hlast

end Calls

/-- Calls with their results, made one after the other. `does` says what a call can do. -/
inductive Serial (does : ω → σ → σ → ρ → Prop) (s₀ : σ) : List (Thread × ω × ρ) → σ → Prop where
  | nil : Serial does s₀ [] s₀
  | call {calls : List (Thread × ω × ρ)} {s s' : σ} {o : ω} {r : ρ} (t : Thread)
      (h : Serial does s₀ calls s) (hcall : does o s s' r) :
      Serial does s₀ (calls ++ [(t, o, r)]) s'

/-- Calls do something else, as long as the data is as the calls keep it. -/
theorem Serial.mono {does does' : ω → σ → σ → ρ → Prop} {I : σ → Prop} {s₀ s : σ}
    {calls : List (Thread × ω × ρ)} (h : Serial does s₀ calls s) (hs₀ : I s₀)
    (hdoes : ∀ o s s' r, I s → does o s s' r → I s' ∧ does' o s s' r) :
    I s ∧ Serial does' s₀ calls s := by
  induction h with
  | nil => exact ⟨hs₀, .nil⟩
  | call t _ hcall ih =>
    obtain ⟨hs', hcall'⟩ := hdoes _ _ _ _ ih.1 hcall
    exact ⟨hs', .call t ih.2 hcall'⟩

/-! ## Threads -/

/-- The data, the calls that are running and those that have returned. -/
structure Shared (Thread σ ω κ ρ : Type) where
  data : σ
  running : Thread → Option (ω × κ)
  history : List (Thread × ω × ρ)

namespace Shared

variable [DecidableEq Thread] (C : Calls σ ω κ ρ)

def begin (t : Thread) (o : ω) (x : Shared Thread σ ω κ ρ) : Shared Thread σ ω κ ρ :=
  { x with running := Function.update x.running t (some (o, C.start o)) }

@[simp] theorem begin_self (t : Thread) (o : ω) (x : Shared Thread σ ω κ ρ) :
    (x.begin C t o).running t = some (o, C.start o) := Function.update_self ..

theorem begin_of_ne {t u : Thread} (h : u ≠ t) (o : ω) (x : Shared Thread σ ω κ ρ) :
    (x.begin C t o).running u = x.running u := Function.update_of_ne h ..

/-- The next step of the call of `t`. -/
def advance (t : Thread) (x : Shared Thread σ ω κ ρ) : Option (Shared Thread σ ω κ ρ) :=
  match x.running t with
  | none => none
  | some (o, k) =>
    match C.step o k x.data with
    | none => none
    | some (s, .inl k) =>
      some { x with data := s, running := Function.update x.running t (some (o, k)) }
    | some (s, .inr r) =>
      some {
        data := s
        running := Function.update x.running t none
        history := x.history ++ [(t, o, r)] }

/-- Nobody runs beside a thread that writes. -/
def Exclusive (x : Shared Thread σ ω κ ρ) : Prop :=
  ∀ t o k, x.running t = some (o, k) → C.writes o = true →
    ∀ u p, x.running u = some p → u = t

/-- Nobody writes. -/
def Still (x : Shared Thread σ ω κ ρ) : Prop :=
  ∀ t o k, x.running t = some (o, k) → C.writes o = false

/-- The calls that have returned were made one after the other, and those that are running have
got where they are from what these left. -/
structure SerialTo (s₀ : σ) (x : Shared Thread σ ω κ ρ) (base : σ) : Prop where
  serial : Serial C.Returns s₀ x.history base
  running : ∀ t o k, x.running t = some (o, k) → C.Steps o (C.start o) base k x.data
  still : Still C x → x.data = base

def Serializable (s₀ : σ) (x : Shared Thread σ ω κ ρ) : Prop := ∃ base, SerialTo C s₀ x base

variable {C} {x x' : Shared Thread σ ω κ ρ} {s₀ : σ} {t : Thread}

omit [DecidableEq Thread] in
theorem Exclusive.still {o : ω} {k : κ} (hx : Exclusive C x) (ht : x.running t = some (o, k))
    (ho : C.writes o = false) : Still C x := by
  intro u o' k' hu
  cases hw : C.writes o' with
  | false => rfl
  | true =>
    have heq := hx u o' k' hu hw t (o, k) ht
    subst heq
    rw [hu] at ht
    cases ht
    rw [ho] at hw
    cases hw

theorem Serializable.begin {o : ω} (h : Serializable C s₀ x) (hnew : x.running t = none)
    (hx : Exclusive C (x.begin C t o)) : Serializable C s₀ (x.begin C t o) := by
  obtain ⟨base, hserial, hrunning, hstill⟩ := h
  have hold : ∀ u p, x.running u = some p → (x.begin C t o).running u = some p := by
    intro u p hu
    have hne : u ≠ t := by
      rintro rfl
      rw [hnew] at hu
      cases hu
    rw [begin_of_ne C hne]
    exact hu
  have hstart := begin_self C t o x
  -- a thread that writes would run beside the new call
  have hdata : x.data = base := by
    refine hstill fun u o' k' hu => ?_
    cases hw : C.writes o' with
    | false => rfl
    | true =>
      have heq := hx u o' k' (hold u _ hu) hw t _ hstart
      rw [← heq, hnew] at hu
      cases hu
  refine ⟨base, hserial, fun u o' k' hu => ?_, fun _ => hdata⟩
  by_cases hne : u = t
  · subst hne
    rw [hstart] at hu
    cases hu
    show C.Steps _ _ base _ x.data
    rw [hdata]
    exact .refl _ _
  · rw [begin_of_ne C hne] at hu
    exact hrunning u o' k' hu

/-- What the next step of a call does. -/
inductive Advances (C : Calls σ ω κ ρ) (t : Thread) (x : Shared Thread σ ω κ ρ) :
    Shared Thread σ ω κ ρ → Prop where
  | goes {o : ω} {k k' : κ} {s : σ} (ht : x.running t = some (o, k))
      (hstep : C.step o k x.data = some (s, .inl k')) :
      Advances C t x { x with data := s, running := Function.update x.running t (some (o, k')) }
  | returns {o : ω} {k : κ} {s : σ} {r : ρ} (ht : x.running t = some (o, k))
      (hstep : C.step o k x.data = some (s, .inr r)) :
      Advances C t x {
        data := s
        running := Function.update x.running t none
        history := x.history ++ [(t, o, r)] }

theorem advance_cases (h : x.advance C t = some x') : Advances C t x x' := by
  rw [Shared.advance] at h
  split at h
  · cases h
  · next o k ht =>
    split at h
    · cases h
    · next hstep =>
      cases h
      exact .goes ht hstep
    · next hstep =>
      cases h
      exact .returns ht hstep

omit [DecidableEq Thread] in
/-- A step of a call leaves the other calls where they have got: none of them runs if it writes,
and the data stays if it does not. -/
theorem SerialTo.other {base s : σ} {o : ω} {k : κ} {y : κ ⊕ ρ} (h : SerialTo C s₀ x base)
    (hx : Exclusive C x) (ht : x.running t = some (o, k)) (hstep : C.step o k x.data = some (s, y))
    {u : Thread} {o' : ω} {k' : κ} (hne : u ≠ t) (hu : x.running u = some (o', k')) :
    C.writes o = false ∧ C.Steps o' (C.start o') base k' s := by
  cases hw : C.writes o with
  | true => exact absurd (hx t o k ht hw u _ hu) hne
  | false =>
    rw [C.readonly _ _ _ _ _ hw hstep]
    exact ⟨rfl, h.running u o' k' hu⟩

theorem Serializable.advance (h : Serializable C s₀ x) (hx : Exclusive C x)
    (hadvance : Advances C t x x') : Serializable C s₀ x' := by
  obtain ⟨base, h⟩ := h
  cases hadvance with
  | @goes o k k' s ht hstep =>
    refine ⟨base, h.serial, fun u o' k'' hu => ?_, fun hquiet => ?_⟩
    · dsimp only at hu
      by_cases hne : u = t
      · subst hne
        rw [Function.update_self] at hu
        cases hu
        exact (h.running u o k ht).tail hstep
      · rw [Function.update_of_ne hne] at hu
        exact (h.other hx ht hstep hne hu).2
    · have hw : C.writes o = false := hquiet t o k' (Function.update_self ..)
      exact (C.readonly _ _ _ _ _ hw hstep).trans (h.still (hx.still ht hw))
  | @returns o k s r ht hstep =>
    have hreturns : C.Returns o base s r := ⟨k, x.data, h.running t o k ht, hstep⟩
    refine ⟨s, .call t h.serial hreturns, fun u o' k' hu => ?_, fun _ => rfl⟩
    dsimp only at hu ⊢
    by_cases hne : u = t
    · subst hne
      rw [Function.update_self] at hu
      cases hu
    · rw [Function.update_of_ne hne] at hu
      obtain ⟨hw, hsteps⟩ := h.other hx ht hstep hne hu
      have hs : s = base := (C.readonly _ _ _ _ _ hw hstep).trans (h.still (hx.still ht hw))
      rwa [← hs] at hsteps

end Shared

end CLib
