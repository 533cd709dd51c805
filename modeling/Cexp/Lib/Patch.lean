import Mathlib.Data.Set.Function
import Mathlib.Data.Set.Lattice
import Mathlib.Order.CompletePartialOrder

/-!
# Patches of a memory

A `Patch` changes a memory only at the places of its footprint, and what it does there depends
on what is there and on nothing else. Patches with disjoint footprints do not notice each other:
when all of them have run, every place is as the patch over it makes it of the first memory
(`runAll_eq_some_iff`), so their order is free (`runAll_perm`). Patches that run one after the
other inside of a region are a patch of that region (`Patch.within`).
-/

namespace CLib

open Set

variable {α β : Type}

/-- A change of a memory that may be refused. -/
structure Patch (α β : Type) where
  foot : Set α
  run : (α → β) → Option (α → β)
  frame : ∀ {m m' : α → β}, run m = some m' → EqOn m' m footᶜ
  inner : ∀ {m₁ m₂ m₁' : α → β}, EqOn m₁ m₂ foot → run m₁ = some m₁' →
    ∃ m₂', run m₂ = some m₂' ∧ EqOn m₁' m₂' foot

/-- The patches run one after the other. -/
def runAll (ps : List (Patch α β)) (m : α → β) : Option (α → β) :=
  ps.foldlM (fun m p => p.run m) m

@[simp] theorem runAll_nil (m : α → β) : runAll [] m = some m := rfl

theorem runAll_cons (p : Patch α β) (ps : List (Patch α β)) (m : α → β) :
    runAll (p :: ps) m = (p.run m).bind (runAll ps) := rfl

/-! ## Patches that do not meet -/

/-- No two patches of the list have a place in common. -/
def Separate (ps : List (Patch α β)) : Prop := ps.Pairwise fun p q => Disjoint p.foot q.foot

/-- Each patch has run on the first memory, as far as its footprint goes. -/
structure AllRun (ps : List (Patch α β)) (m m' : α → β) : Prop where
  done : ∀ p ∈ ps, ∃ m₁, p.run m = some m₁ ∧ EqOn m' m₁ p.foot
  rest : ∀ a, (∀ p ∈ ps, a ∉ p.foot) → m' a = m a

variable {ps qs : List (Patch α β)} {p : Patch α β} {m m₁ m' : α → β}

/-- A patch is not noticed elsewhere. -/
theorem Patch.eqOn_of_disjoint {F : Set α} (h : Disjoint p.foot F)
    (hrun : p.run m = some m₁) : EqOn m₁ m F := by
  intro a ha
  exact p.frame hrun (disjoint_right.mp h ha)

theorem AllRun.cons (hap : ∀ q ∈ ps, Disjoint p.foot q.foot) (hrun : p.run m = some m₁)
    (h : AllRun ps m₁ m') : AllRun (p :: ps) m m' := by
  refine ⟨?_, ?_⟩
  · intro q hq
    rcases List.mem_cons.mp hq with rfl | hq
    · refine ⟨m₁, hrun, ?_⟩
      intro a ha
      exact h.rest a fun q hq => disjoint_left.mp (hap q hq) ha
    · obtain ⟨m₂, hq₁, heq⟩ := h.done q hq
      have hsame : EqOn m₁ m q.foot := Patch.eqOn_of_disjoint (hap q hq) hrun
      obtain ⟨m₃, hq₂, heq'⟩ := q.inner hsame hq₁
      exact ⟨m₃, hq₂, heq.trans heq'⟩
  · intro a ha
    have htail := h.rest a fun q hq => ha q (List.mem_cons_of_mem p hq)
    exact htail.trans (p.frame hrun (ha p List.mem_cons_self))

theorem AllRun.of_cons (hap : ∀ q ∈ ps, Disjoint p.foot q.foot)
    (h : AllRun (p :: ps) m m') : ∃ m₁, p.run m = some m₁ ∧ AllRun ps m₁ m' := by
  obtain ⟨m₁, hrun, heq⟩ := h.done p List.mem_cons_self
  refine ⟨m₁, hrun, ?_, ?_⟩
  · intro q hq
    obtain ⟨m₂, hq₁, heq'⟩ := h.done q (List.mem_cons_of_mem p hq)
    have hsame : EqOn m₁ m q.foot := Patch.eqOn_of_disjoint (hap q hq) hrun
    obtain ⟨m₃, hq₂, heq₃⟩ := q.inner hsame.symm hq₁
    exact ⟨m₃, hq₂, heq'.trans heq₃⟩
  · intro a ha
    by_cases hin : a ∈ p.foot
    · exact heq hin
    · rw [p.frame hrun hin]
      apply h.rest
      intro q hq
      rcases List.mem_cons.mp hq with rfl | hq
      · exact hin
      · exact ha q hq

/-- Patches that do not meet leave the memory that each of them alone asks for. -/
theorem runAll_eq_some_iff (hap : Separate ps) : runAll ps m = some m' ↔ AllRun ps m m' := by
  induction ps generalizing m with
  | nil =>
    constructor
    · intro h
      cases h
      exact ⟨fun p hp => absurd hp List.not_mem_nil, fun a _ => rfl⟩
    · intro h
      exact congrArg some (funext fun a => (h.rest a fun p hp => absurd hp List.not_mem_nil).symm)
  | cons p ps ih =>
    obtain ⟨hhead, htail⟩ := List.pairwise_cons.mp hap
    rw [runAll_cons, Option.bind_eq_some_iff]
    constructor
    · rintro ⟨m₁, hrun, hrest⟩
      exact AllRun.cons hhead hrun ((ih htail).mp hrest)
    · intro h
      obtain ⟨m₁, hrun, hrest⟩ := h.of_cons hhead
      exact ⟨m₁, hrun, (ih htail).mpr hrest⟩

theorem AllRun.perm (hperm : ps.Perm qs) (h : AllRun ps m m') : AllRun qs m m' where
  done p hp := h.done p (hperm.mem_iff.mpr hp)
  rest a ha := h.rest a fun p hp => ha p (hperm.mem_iff.mp hp)

theorem Separate.perm (hperm : ps.Perm qs) (hap : Separate ps) : Separate qs :=
  (hperm.pairwise_iff fun h => h.symm).mp hap

/-- The order of patches that do not meet is free. -/
theorem runAll_perm (hperm : ps.Perm qs) (hap : Separate ps) (m : α → β) :
    runAll ps m = runAll qs m := by
  ext m'
  rw [runAll_eq_some_iff hap, runAll_eq_some_iff (hap.perm hperm)]
  exact ⟨fun h => h.perm hperm, fun h => h.perm hperm.symm⟩

/-! ## Regions -/

theorem runAll_frame {F : Set α} (hsub : ∀ p ∈ ps, p.foot ⊆ F) (hrun : runAll ps m = some m') :
    EqOn m' m Fᶜ := by
  induction ps generalizing m with
  | nil =>
    cases hrun
    exact eqOn_refl _ _
  | cons p ps ih =>
    rw [runAll_cons] at hrun
    obtain ⟨m₁, hp, hrest⟩ := Option.bind_eq_some_iff.mp hrun
    have htail : EqOn m' m₁ Fᶜ := ih (fun q hq => hsub q (List.mem_cons_of_mem p hq)) hrest
    have hhead : EqOn m₁ m Fᶜ :=
      (p.frame hp).mono (compl_subset_compl.mpr (hsub p List.mem_cons_self))
    exact htail.trans hhead

/-- Memories that agree in a region agree there after a patch that keeps to the region. -/
theorem Patch.inner_of_subset {F : Set α} {m₂ : α → β} (hsub : p.foot ⊆ F) (heq : EqOn m m₂ F)
    (hrun : p.run m = some m₁) : ∃ m₂', p.run m₂ = some m₂' ∧ EqOn m₁ m₂' F := by
  obtain ⟨m₂', hrun₂, heq'⟩ := p.inner (heq.mono hsub) hrun
  refine ⟨m₂', hrun₂, ?_⟩
  intro a ha
  by_cases hin : a ∈ p.foot
  · exact heq' hin
  · rw [p.frame hrun hin, p.frame hrun₂ hin]
    exact heq ha

theorem runAll_inner {F : Set α} {m₂ : α → β} (hsub : ∀ p ∈ ps, p.foot ⊆ F) (heq : EqOn m m₂ F)
    (hrun : runAll ps m = some m') : ∃ m₂', runAll ps m₂ = some m₂' ∧ EqOn m' m₂' F := by
  induction ps generalizing m m₂ with
  | nil =>
    cases hrun
    exact ⟨m₂, rfl, heq⟩
  | cons p ps ih =>
    rw [runAll_cons] at hrun
    obtain ⟨m₁, hp, hrest⟩ := Option.bind_eq_some_iff.mp hrun
    obtain ⟨m₃, hp₃, heq₃⟩ := p.inner_of_subset (hsub p List.mem_cons_self) heq hp
    obtain ⟨m₂', hrest', heq'⟩ := ih (fun q hq => hsub q (List.mem_cons_of_mem p hq)) heq₃ hrest
    refine ⟨m₂', ?_, heq'⟩
    rw [runAll_cons, hp₃]
    exact hrest'

/-- Patches inside of a region, as one patch of it. -/
def Patch.within (F : Set α) (ps : List (Patch α β)) (hsub : ∀ p ∈ ps, p.foot ⊆ F) :
    Patch α β where
  foot := F
  run := runAll ps
  frame := runAll_frame hsub
  inner := runAll_inner hsub

end CLib
