import Cexp.Modules.Nested

/-!
# Callbacks that unload modules

The callbacks of a module may unload other modules, and those may unload further ones in their
finalizers. As long as no callback loads a module, all that such callbacks do to the list is to
take modules out of it (`Shrunk`). An outermost load then adds its own module at the end of what
is left (`load_outcome_unloads`).
-/

namespace Cexp

/-! ## Unloads inside of requests -/

mutual

/-- An unload whose callbacks make nothing but such unloads. -/
def Request.OnlyUnloads : Request → Prop
  | .load _ _ => False
  | .unload _ finalizer _ destructors =>
    OnlyUnloadsList finalizer ∧ OnlyUnloadsList destructors

def OnlyUnloadsList : List Request → Prop
  | [] => True
  | r :: rs => r.OnlyUnloads ∧ OnlyUnloadsList rs

end

/-- No callback of the request loads a module. -/
def Request.NoNestedLoads : Request → Prop
  | .load _ callbacks => OnlyUnloadsList callbacks
  | .unload _ finalizer _ destructors =>
    OnlyUnloadsList finalizer ∧ OnlyUnloadsList destructors

variable {dm : DataModel}

/-- The records of the list with their symbol tables. -/
def listed (modules : List (CexpModuleRec dm)) : List (CexpModule × CexpSymTbl) :=
  modules.map fun m => (m.handle, m.symtbl)

/-- Modules have been taken out of the list, and no other records have been freed. -/
structure Shrunk (s s' : Store dm) : Prop where
  sub : (listed s'.modules).Sublist (listed s.modules)
  used : ∀ h ∈ s.used, h ∉ handles s.modules → h ∈ s'.used

section

variable {s s' s'' : Store dm}

theorem handles_listed (modules : List (CexpModuleRec dm)) :
    (listed modules).map Prod.fst = handles modules := by
  rw [listed, List.map_map]
  rfl

theorem Shrunk.handles_sub (h : Shrunk s s') : (handles s'.modules).Sublist (handles s.modules) := by
  rw [← handles_listed, ← handles_listed]
  exact h.sub.map Prod.fst

theorem Shrunk.of_same (hmodules : listed s'.modules = listed s.modules) (hused : s'.used = s.used) :
    Shrunk s s' := by
  refine ⟨hmodules ▸ List.Sublist.refl _, ?_⟩
  intro h hh _
  rw [hused]
  exact hh

theorem Shrunk.trans (h : Shrunk s s') (h' : Shrunk s' s'') : Shrunk s s'' := by
  refine ⟨h'.sub.trans h.sub, ?_⟩
  intro x hx hnot
  exact h'.used x (h.used x hx hnot) fun hmem => hnot (h.handles_sub.subset hmem)

theorem listed_clearDependencies (id : Nat) (s : Store dm) :
    listed (clearDependencies id s).modules = listed s.modules := by
  rw [listed, clearDependencies, List.map_map]
  rfl

theorem Fresh.of_same (hf : Fresh s) (hmodules : listed s'.modules = listed s.modules)
    (hused : s'.used = s.used) : Fresh s' := by
  have hhandles : handles s'.modules = handles s.modules := by
    rw [← handles_listed, ← handles_listed, hmodules]
  constructor
  · rw [hhandles]
    exact hf.nodup
  · rw [hhandles, hused]
    exact hf.used

end

/-! ## One unload -/

/-- Two neighbours stay neighbours when elements around them are taken out. -/
theorem neighbours_of_sublist {α : Type} {l₁ l₂ l : List α} {a b : α}
    (hnodup : (l₁ ++ a :: b :: l₂).Nodup) (hsub : l.Sublist (l₁ ++ a :: b :: l₂)) (ha : a ∈ l)
    (hb : b ∈ l) : ∃ k₁ k₂, l = k₁ ++ a :: b :: k₂ := by
  obtain ⟨k₁, k, rfl, hk₁, hk⟩ := List.sublist_append_iff.mp hsub
  obtain ⟨-, htail, hdisjoint⟩ := List.nodup_append.mp hnodup
  obtain ⟨hanot, htail'⟩ := List.nodup_cons.mp htail
  obtain ⟨hbnot, -⟩ := List.nodup_cons.mp htail'
  have hak : a ∈ k := by
    refine (List.mem_append.mp ha).resolve_left ?_
    intro hmem
    exact hdisjoint a (hk₁.subset hmem) a List.mem_cons_self rfl
  have hbk : b ∈ k := by
    refine (List.mem_append.mp hb).resolve_left ?_
    intro hmem
    exact hdisjoint b (hk₁.subset hmem) b (by simp) rfl
  cases hk with
  | cons _ hk => exact absurd (hk.subset hak) hanot
  | cons_cons _ hk =>
    have hba : b ≠ a := by
      rintro rfl
      exact hanot List.mem_cons_self
    have hbrest := (List.mem_cons.mp hbk).resolve_left hba
    cases hk with
    | cons _ hk => exact absurd (hk.subset hbrest) hbnot
    | cons_cons _ hk => exact ⟨k₁, _, rfl⟩

variable {host : Host}

/-- The end of an unload, after its callbacks. -/
theorem unlink_shrinks {l₁ l₂ : List (CexpModuleRec dm)} {a m : CexpModuleRec dm}
    {s s₁ s' : Store dm} (hf : Fresh s) (hmodules : s.modules = l₁ ++ a :: m :: l₂)
    (hshrunk : Shrunk s s₁) (hf₁ : Fresh s₁) (h : unlink m a.handle s₁ = some s') :
    Shrunk s s' ∧ Fresh s' := by
  have hboth : a.handle ∈ handles s₁.modules ∧ m.handle ∈ handles s₁.modules ∧
      m.builtin = false := by
    by_contra hnot
    rw [unlink, if_neg hnot] at h
    cases h
  have hhandles : handles s.modules = handles l₁ ++ a.handle :: m.handle :: handles l₂ := by
    rw [hmodules, handles_append]
    rfl
  have hsub : (handles s₁.modules).Sublist (handles l₁ ++ a.handle :: m.handle :: handles l₂) :=
    hhandles ▸ hshrunk.handles_sub
  have hnodup : (handles l₁ ++ a.handle :: m.handle :: handles l₂).Nodup := hhandles ▸ hf.nodup
  obtain ⟨k₁, k₂, hk⟩ := neighbours_of_sublist hnodup hsub hboth.1 hboth.2.1
  obtain ⟨p, rest, hsplit, rfl, hrest⟩ := List.map_eq_append_iff.mp hk
  obtain ⟨a', rest', rfl, ha', hrest'⟩ := List.map_eq_cons_iff.mp hrest
  obtain ⟨m', q, rfl, hm', rfl⟩ := List.map_eq_cons_iff.mp hrest'
  have hunlink := unlink_eq (m := m) hsplit hf₁.nodup hm' hboth.2.2
  rw [ha', h] at hunlink
  cases hunlink
  have hkeep : (p ++ a' :: q).Sublist s₁.modules := by
    rw [hsplit]
    exact List.Sublist.append_left (List.Sublist.cons_cons a' (List.sublist_cons_self m' q)) p
  have hmem : m.handle ∈ handles s.modules := by
    rw [hhandles]
    simp
  have hgone : m.handle ∉ handles (p ++ a' :: q) := hm' ▸ handle_taken_out hsplit hf₁.nodup
  refine ⟨⟨(hkeep.map _).trans hshrunk.sub, ?_⟩, ⟨hf₁.nodup.sublist (hkeep.map _), ?_⟩⟩
  · intro x hx hnot
    have hne : x ≠ m.handle := fun heq => hnot (heq ▸ hmem)
    exact (List.mem_erase_of_ne hne).mpr (hshrunk.used x hx hnot)
  · intro x hx
    have hne : x ≠ m.handle := fun heq => hgone (heq ▸ hx)
    exact (List.mem_erase_of_ne hne).mpr (hf₁.used x ((hkeep.map _).subset hx))

/-- One unload, from what is known of its callbacks. -/
theorem unload_shrinks_step {mod : CexpModule} {finalizer destructors : List Request}
    {rejects : Bool} {s s' : Store host.dm} {resp : Response}
    (hfinalizer : ∀ t t' : Store host.dm, Fresh t → requests host finalizer t = some t' →
      Shrunk t t' ∧ Fresh t')
    (hdestructors : ∀ t t' : Store host.dm, Fresh t → requests host destructors t = some t' →
      Shrunk t t' ∧ Fresh t')
    (hf : Fresh s)
    (h : request host (.unload mod finalizer rejects destructors) s = some (s', resp)) :
    Shrunk s s' ∧ Fresh s' := by
  cases unload_run h with
  | refused _ hs' =>
    rw [hs']
    exact ⟨Shrunk.of_same rfl rfl, hf⟩
  | rejected _ hrun _ => exact hfinalizer s s' hf hrun
  | @unloaded m pred s₁ s₂ hcheck hrun _ hrun₂ hunlink =>
    obtain ⟨l₁, a, l₂, hmodules, rfl, rfl, -⟩ := checkUnload_some hf.nodup hcheck
    obtain ⟨hshrunk₁, hf₁⟩ := hfinalizer s s₁ hf hrun
    have hclear := listed_clearDependencies m.id s₁
    obtain ⟨hshrunk₂, hf₂⟩ := hdestructors _ s₂ (hf₁.of_same hclear rfl) hrun₂
    have hshrunk := (hshrunk₁.trans (Shrunk.of_same hclear rfl)).trans hshrunk₂
    exact unlink_shrinks hf hmodules hshrunk hf₂ hunlink

theorem unloads_shrink (rs : List Request) {s s' : Store host.dm} (hrs : OnlyUnloadsList rs)
    (hf : Fresh s) (h : requests host rs s = some s') : Shrunk s s' ∧ Fresh s' := by
  induction rs using requests_induction generalizing s s' with
  | nil =>
    rw [requests_nil_some h]
    exact ⟨Shrunk.of_same rfl rfl, hf⟩
  | load args callbacks rs _ _ =>
    rw [OnlyUnloadsList, Request.OnlyUnloads] at hrs
    exact hrs.1.elim
  | unload mod finalizer rejects destructors rs ihfinalizer ihdestructors ih =>
    rw [OnlyUnloadsList, Request.OnlyUnloads] at hrs
    obtain ⟨s₁, resp, hr, hrest⟩ := requests_cons_some h
    obtain ⟨hshrunk₁, hf₁⟩ := unload_shrinks_step (fun _ _ => ihfinalizer hrs.1.1)
      (fun _ _ => ihdestructors hrs.1.2) hf hr
    obtain ⟨hshrunk, hf'⟩ := ih hrs.2 hf₁ hrest
    exact ⟨hshrunk₁.trans hshrunk, hf'⟩

theorem unload_shrinks {mod : CexpModule} {finalizer destructors : List Request} {rejects : Bool}
    {s s' : Store host.dm} {resp : Response}
    (hr : (Request.unload mod finalizer rejects destructors).NoNestedLoads) (hf : Fresh s)
    (h : request host (.unload mod finalizer rejects destructors) s = some (s', resp)) :
    Shrunk s s' ∧ Fresh s' :=
  unload_shrinks_step (fun _ _ => unloads_shrink finalizer hr.1)
    (fun _ _ => unloads_shrink destructors hr.2) hf h

/-! ## One load -/

/-- What a load comes to whose callbacks unload modules at most. -/
inductive LoadExtends (host : Host) (args : LoadArgs) (s s' : Store host.dm) : Response → Prop where
  | refused (hsame : SameStore s s') : LoadExtends host args s s' .refused
  | loaded {nmod : CexpModuleRec host.dm} {l : List (CexpModule × CexpSymTbl)}
      (hnew : NewModule host args s nmod) (hsub : l.Sublist (listed s.modules))
      (hlisted : listed s'.modules = l ++ [(nmod.handle, nmod.symtbl)]) :
      LoadExtends host args s s' (.loaded nmod.handle)

theorem listed_addDependencies (nmod : CexpModuleRec dm) (l : List (CexpModuleRec dm)) :
    listed (addDependencies nmod l) = listed l :=
  map_addDependencies _ nmod (fun m => by simp) l

theorem through_sublist (tail : CexpModule) (l : List (CexpModuleRec dm)) :
    (through tail l).Sublist l := by
  induction l with
  | nil => exact List.Sublist.refl _
  | cons m l ih =>
    rw [through]
    split
    · exact List.Sublist.cons_cons m (List.nil_sublist l)
    · exact ih.cons_cons m

/-- Chaining the new module drops what is behind the old end of the list, if anything. -/
theorem finishLoad_extends {nmod : CexpModuleRec dm} {tail : Option CexpModule} {s s' : Store dm}
    (h : finishLoad nmod tail s = some s') :
    ∃ l, l.Sublist (listed s.modules) ∧ listed s'.modules = l ++ [(nmod.handle, nmod.symtbl)] ∧
      s'.used = s.used := by
  obtain ⟨modules, hchain, rfl⟩ := Option.map_eq_some_iff.mp h
  cases tail with
  | none =>
    rw [chain] at hchain
    cases hchain
    exact ⟨[], List.nil_sublist _, rfl, rfl⟩
  | some t =>
    rw [chain] at hchain
    split at hchain
    · cases hchain
      refine ⟨listed (through t (addDependencies nmod s.modules)), ?_, ?_, rfl⟩
      · rw [← listed_addDependencies nmod s.modules]
        exact (through_sublist t _).map _
      · exact List.map_append
    · cases hchain

theorem load_outcome_unloads {args : LoadArgs} {callbacks : List Request} {s s' : Store host.dm}
    {resp : Response} (hr : (Request.load args callbacks).NoNestedLoads) (hf : Fresh s)
    (h : request host (.load args callbacks) s = some (s', resp)) :
    LoadExtends host args s s' resp ∧ Fresh s' := by
  cases load_run h with
  | refused hprepare =>
    have hsame := prepareLoad_refused hprepare
    exact ⟨.refused hsame, hf.of_same (congrArg listed hsame.modules) hsame.used⟩
  | @loaded nmod tail s₁ s₂ hprepare hrun hfinish =>
    obtain ⟨hnew, -, rfl⟩ := prepareLoad_ready hprepare
    have hf₁ : Fresh { s with id := nmod.id, used := nmod.handle :: s.used } :=
      ⟨hf.nodup, fun x hx => List.mem_cons_of_mem _ (hf.used x hx)⟩
    obtain ⟨hshrunk, hf₂⟩ := unloads_shrink callbacks hr hf₁ hrun
    obtain ⟨l, hsub, hlisted, hused⟩ := finishLoad_extends hfinish
    refine ⟨.loaded hnew (hsub.trans hshrunk.sub) hlisted, ?_⟩
    -- the record of the new module is none of those in the list
    have hnot : nmod.handle ∉ handles s.modules := fun hmem =>
      hnew.handle_fresh (hf.used _ hmem)
    have hhandles : handles s'.modules = l.map Prod.fst ++ [nmod.handle] := by
      rw [← handles_listed, hlisted, List.map_append]
      rfl
    have hold : (l.map Prod.fst).Sublist (handles s₂.modules) := by
      rw [← handles_listed]
      exact hsub.map Prod.fst
    constructor
    · rw [hhandles]
      refine List.nodup_append.mpr ⟨hf₂.nodup.sublist hold, List.nodup_singleton _, ?_⟩
      intro x hx y hy heq
      rw [List.mem_singleton.mp hy] at heq
      rw [heq] at hx
      exact hnot (hshrunk.handles_sub.subset (hold.subset hx))
    · intro x hx
      rw [hused]
      rw [hhandles, List.mem_append, List.mem_singleton] at hx
      rcases hx with hx | rfl
      · exact hf₂.used x (hold.subset hx)
      · exact hshrunk.used _ List.mem_cons_self hnot

end Cexp
