import Mathlib.Logic.Relation

/-!
# Runs of a machine

`step s a` is the state after the action `a`, or `none` where `s` does not allow `a`. A run
(`Run`) is a sequence of allowed actions that all meet a condition on the state they start in;
what every such action keeps holds at the end of a run (`Run.invariant`).
-/

namespace CLib

variable {σ α : Type}

/-- `t` is reached from `s` by actions that meet `ok`. -/
inductive Run (step : σ → α → Option σ) (ok : σ → α → Prop) (s : σ) : σ → Prop where
  | start : Run step ok s s
  | next {t u : σ} (a : α) : Run step ok s t → ok t a → step t a = some u → Run step ok s u

variable {step : σ → α → Option σ} {ok : σ → α → Prop} {s t : σ}

theorem Run.invariant {I : σ → Prop}
    (hstep : ∀ t a u, I t → ok t a → step t a = some u → I u)
    (hrun : Run step ok s t) (hs : I s) : I t := by
  induction hrun with
  | start => exact hs
  | next a _ hok hta ih => exact hstep _ a _ ih hok hta

theorem Run.trans {u : σ} (hst : Run step ok s t) (htu : Run step ok t u) : Run step ok s u := by
  induction htu with
  | start => exact hst
  | next a _ hok hta ih => exact .next a ih hok hta

/-- Actions that can be executed one after the other are a run. -/
theorem Run.of_foldlM (hok : ∀ s a, ok s a) {as : List α} (h : as.foldlM step s = some t) :
    Run step ok s t := by
  induction as generalizing s with
  | nil =>
    cases h
    exact .start
  | cons a as ih =>
    rw [List.foldlM_cons] at h
    obtain ⟨u, hu, hrest⟩ := Option.bind_eq_some_iff.mp h
    exact Run.trans (.next a .start (hok s a) hu) (ih hrest)

/-- Actions that can be executed one after the other and meet the condition, where it can be
decided. -/
theorem Run.of_checked [∀ s a, Decidable (ok s a)] {as : List α}
    (h : as.foldlM (fun s a => if ok s a then step s a else none) s = some t) :
    Run step ok s t := by
  induction as generalizing s with
  | nil =>
    cases h
    exact .start
  | cons a as ih =>
    rw [List.foldlM_cons] at h
    obtain ⟨u, hu, hrest⟩ := Option.bind_eq_some_iff.mp h
    split at hu
    · next hok => exact Run.trans (.next a .start hok hu) (ih hrest)
    · cases hu

end CLib
