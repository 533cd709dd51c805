import Cexp.Lib.Stacked
import Cexp.Modules.Dependency

/-!
# Taking modules down

A module is linked against the modules that are loaded at that time, so the list is stacked:
modules need only modules in front of them, and the dependencies have no cycle
(`needs_acyclic`). Going through the list from its end, every module can therefore be unloaded
unless one that stays needs it; but the symbols of a builtin module are a static array, which must
not be freed. The sets of modules that unloads can leave are exactly those that have all builtin
modules and are closed under what they need (`unloads_leave_iff`), and modules that have been
loaded from files can be unloaded again in the reverse order, after which the store is what it was
(`loads_undone`).
-/

namespace Cexp

variable {dm : DataModel}

/-! ## The order of the list -/

/-- `a` has been linked against `b`. -/
def NeedsModule (a b : CexpModuleRec dm) : Prop := a.needs.tst b.id = true

/-- Modules need only modules that were loaded before them. -/
def Ordered (s : Store dm) : Prop := Stacked NeedsModule s.modules

theorem Ordered.cleared {l l' : List (CexpModuleRec dm)} (h : Stacked NeedsModule l)
    (hsub : l'.Sublist l) (id : Nat) : Stacked NeedsModule (l'.map (clearDependency id)) :=
  (h.sublist hsub).map fun _ _ _ _ hneeds => hneeds

theorem sublist_without {α : Type*} (l₁ l₂ : List α) (a m : α) :
    (l₁ ++ a :: l₂).Sublist (l₁ ++ a :: m :: l₂) :=
  List.Sublist.append_left (List.Sublist.cons_cons a (List.sublist_cons_self m l₂)) l₁

section

variable {host : Host} {s s' : Store host.dm}

theorem Outcome.ordered {r : Request} {resp : Response} (h : Outcome host r s s' resp)
    (hs : s.Inv) (ho : Ordered s) : Ordered s' := by
  cases h with
  | refused hsame =>
    rw [Ordered, hsame.modules]
    exact ho
  | @loaded args callbacks nmod s₁ _ hnew hsame hs' =>
    have hmodules : s₁.modules = s.modules := hsame.modules
    rw [hs', Ordered, appended, hmodules]
    refine (ho.map ?_).concat ?_ ?_
    · intro a _ b _ hneeds
      rwa [NeedsModule, addDependency_needs, addDependency_id] at hneeds
    · intro a' ha' hneeds
      obtain ⟨a, ha, rfl⟩ := List.mem_map.mp ha'
      have hfree := tst_fresh hnew.id_fresh (hs.needs_loaded a ha)
      rw [NeedsModule, addDependency_needs, hfree] at hneeds
      cases hneeds
    · intro hneeds
      have hfree := tst_fresh hnew.id_fresh hnew.sound.1.depend
      rw [NeedsModule, hfree] at hneeds
      cases hneeds
  | @unloaded finalizer destructors l₁ l₂ a m s₁ _ hmodules _ _ _ hs' =>
    rw [Ordered, hmodules] at ho
    rw [hs', Ordered, removed]
    exact Ordered.cleared ho (sublist_without l₁ l₂ a m) m.id

theorem requests_ordered {rs : List Request} (hs : s.Inv) (ho : Ordered s)
    (hq : QuietRun host rs s) (h : requests host rs s = some s') : Ordered s' := by
  induction rs generalizing s with
  | nil =>
    rw [requests_nil_some h]
    exact ho
  | cons r rs ih =>
    obtain ⟨s₁, resp, hr, hrest⟩ := requests_cons_some h
    have hout := request_outcome hs hq.1 hr
    exact ih (hout.inv hs) (hout.ordered hs ho) (hq.2 s₁ resp hr) hrest

theorem ordered_init : Ordered (Store.init : Store dm) := Stacked.nil

end

/-- In every state between operations the modules are listed in an order in which each one needs
only earlier ones, so no module needs itself, directly or through others. -/
theorem needs_acyclic (host : Host) (rs : List Request) (hq : QuietRun host rs Store.init)
    (s : Store host.dm) (h : requests host rs Store.init = some s) :
    (s.modules.Pairwise fun a b => a.needs.tst b.id = false) ∧
      ∀ m, ¬Relation.TransGen
        (fun a b => a ∈ s.modules ∧ b ∈ s.modules ∧ a.needs.tst b.id = true) m m := by
  have ho := requests_ordered Store.inv_init ordered_init hq h
  exact ⟨ho.later.imp fun hnot => Bool.eq_false_iff.mpr hnot, ho.acyclic⟩

theorem needs_acyclic_weak :
    ∃ s, requests plainHost weakRun Store.init = some s ∧
      (∃ a ∈ s.modules, ∃ b ∈ s.modules, a.needs.tst b.id = true) ∧
      (s.modules.Pairwise fun a b => a.needs.tst b.id = false) ∧
      ∀ m, ¬Relation.TransGen
        (fun a b => a ∈ s.modules ∧ b ∈ s.modules ∧ a.needs.tst b.id = true) m m := by
  have heval : (requests plainHost weakRun Store.init).any (fun s =>
      s.modules.any fun a => s.modules.any fun b => a.needs.tst b.id) = true := by
    decide +kernel
  obtain ⟨s, hs, hneeds⟩ := (Option.any_eq_true _ _).mp heval
  have hplain : ∀ r ∈ weakRun, r.Plain := by simp [weakRun, loadA, loadB, Request.Plain]
  refine ⟨s, hs, ?_, needs_acyclic plainHost weakRun (plain_quietRun hplain _) s hs⟩
  simpa only [List.any_eq_true] using hneeds

/-! ## One module -/

theorem predecessor_eq {l₁ l₂ : List (CexpModuleRec dm)} {a m : CexpModuleRec dm}
    (h : m.handle ∉ handles (l₁ ++ [a])) :
    predecessor m.handle (l₁ ++ a :: m :: l₂) = some a.handle := by
  induction l₁ with
  | nil => rw [List.nil_append, predecessor, if_pos rfl]
  | cons b l₁ ih =>
    have hrest : m.handle ∉ handles (l₁ ++ [a]) := fun hmem => h (List.mem_cons_of_mem _ hmem)
    cases l₁ with
    | nil =>
      have hne : a.handle ≠ m.handle := fun heq => hrest (heq ▸ List.mem_cons_self)
      have hlater := ih hrest
      rw [List.nil_append] at hlater
      rw [List.cons_append, List.nil_append, predecessor, if_neg hne, hlater]
    | cons c l₁ =>
      have hne : c.handle ≠ m.handle := fun heq => hrest (heq ▸ List.mem_cons_self)
      have hlater := ih hrest
      rw [List.cons_append] at hlater
      rw [List.cons_append, List.cons_append, predecessor, if_neg hne, hlater]

theorem checkUnload_eq {l₁ l₂ : List (CexpModuleRec dm)} {a m : CexpModuleRec dm} {s : Store dm}
    (hnodup : (handles s.modules).Nodup) (hmodules : s.modules = l₁ ++ a :: m :: l₂)
    (hzero : m.neededby.isZero = true) : checkUnload m.handle s = some (m, a.handle) := by
  have hsplit : s.modules = (l₁ ++ [a]) ++ m :: l₂ := by rw [hmodules]; simp
  have hbefore : m.handle ∉ handles (l₁ ++ [a]) := by
    intro hmem
    rw [hsplit, handles_append] at hnodup
    exact (List.nodup_append.mp hnodup).2.2 _ hmem _ List.mem_cons_self rfl
  have hhead : (handles s.modules).head? ≠ some m.handle := by
    intro heq
    rw [hsplit, handles_append, List.head?_append] at heq
    cases hfirst : (handles (l₁ ++ [a])).head? with
    | none =>
      rw [List.head?_eq_none_iff, handles_append, handles, List.append_eq_nil_iff] at hfirst
      cases hfirst.2
    | some x =>
      rw [hfirst, Option.some_or] at heq
      exact hbefore (List.mem_of_head? (hfirst.trans heq))
  have hmem : m ∈ s.modules := by rw [hmodules]; simp
  have hfind := find_handle hnodup hmem
  have hpred : predecessor m.handle s.modules = some a.handle := by
    rw [hmodules]
    exact predecessor_eq hbefore
  rw [checkUnload, if_neg hhead, hpred, hfind]
  simp only [hzero, if_true]

/-- A call of `cexpModuleUnload` whose callbacks do nothing. -/
def plainUnload (mod : CexpModule) : Request := .unload mod [] false []

theorem plainUnload_plain (mod : CexpModule) : (plainUnload mod).Plain := ⟨rfl, rfl⟩

theorem plainUnload_removes {host : Host} {s : Store host.dm}
    {l₁ l₂ : List (CexpModuleRec host.dm)} {a m : CexpModuleRec host.dm} (hs : s.Inv)
    (hmodules : s.modules = l₁ ++ a :: m :: l₂) (hzero : m.neededby.isZero = true)
    (hstatic : m.builtin = false) : request host (plainUnload m.handle) s =
      some (removed l₁ a m l₂ (clearDependencies m.id s), .unloaded) := by
  have hcheck := checkUnload_eq hs.handles_nodup hmodules hzero
  have hunlink := unlink_removed hmodules hs.handles_nodup (SameStore.refl _) hstatic
  simp only [plainUnload, request, hcheck, requests, Bool.false_eq_true, if_false, hunlink,
    Option.map_some]

/-- A module that only modules behind it may need can be unloaded if none of those does. -/
theorem neededby_isZero {s : Store dm} (hs : s.Inv) (ho : Ordered s)
    {l₁ l₂ : List (CexpModuleRec dm)} {m : CexpModuleRec dm} (hmodules : s.modules = l₁ ++ m :: l₂)
    (hfree : ∀ n ∈ l₂, n.needs.tst m.id = false) : m.neededby.isZero = true := by
  have hm : m ∈ s.modules := by rw [hmodules]; simp
  refine (Bitmap.isZero_iff _).mpr fun k _ => ?_
  cases hbit : m.neededby.tst k with
  | false => rfl
  | true =>
    obtain ⟨n, hn, rfl⟩ := hs.neededby_loaded m hm k hbit
    rw [hs.mirror m hm n hn] at hbit
    have hafter : n ∈ l₂ := by
      rw [Ordered, hmodules] at ho
      rw [hmodules] at hn
      exact ho.after hn hbit
    rw [hfree n hafter] at hbit
    cases hbit

/-! ## Sets of modules -/

/-- The modules of the list that are kept need no others. -/
def Closed (keep : CexpModule → Bool) (l : List (CexpModuleRec dm)) : Prop :=
  ∀ m ∈ l, ∀ n ∈ l, m.needs.tst n.id = true → keep m.handle = true → keep n.handle = true

theorem handles_cleared (id : Nat) (l : List (CexpModuleRec dm)) :
    handles (l.map (clearDependency id)) = handles l := by
  rw [handles, List.map_map]
  rfl

/-- The modules that are kept can do without the others, and the system module and all builtin ones
are kept. -/
structure Sustains (keep : CexpModule → Bool) (s : Store dm) : Prop where
  inv : s.Inv
  ordered : Ordered s
  closed : Closed keep s.modules
  system : ∀ sys, cexpSystemModule s = some sys → keep sys = true
  builtin : ∀ m ∈ s.modules, m.builtin = true → keep m.handle = true

theorem cexpSystemModule_removed {l₁ l₂ : List (CexpModuleRec dm)} {a m : CexpModuleRec dm}
    {s s' : Store dm} (hmodules : s.modules = l₁ ++ a :: m :: l₂) :
    cexpSystemModule (removed l₁ a m l₂ s') = cexpSystemModule s := by
  rw [cexpSystemModule, cexpSystemModule, removed, handles_cleared, hmodules]
  cases l₁ with
  | nil => rfl
  | cons b l₁ => rfl

theorem Sustains.removed {keep : CexpModule → Bool} {s : Store dm} (h : Sustains keep s)
    {l₁ l₂ : List (CexpModuleRec dm)} {a m : CexpModuleRec dm}
    (hmodules : s.modules = l₁ ++ a :: m :: l₂) (hzero : m.neededby.isZero = true) :
    Sustains keep (removed l₁ a m l₂ (clearDependencies m.id s)) where
  inv := removed_inv h.inv hmodules hzero (SameStore.refl _)
  ordered := Ordered.cleared (hmodules ▸ h.ordered) (sublist_without l₁ l₂ a m) m.id
  closed := by
    intro k' hk' n' hn' hneeds hkeep
    obtain ⟨k, hk, rfl⟩ := List.mem_map.mp hk'
    obtain ⟨n, hn, rfl⟩ := List.mem_map.mp hn'
    have hsub : l₁ ++ a :: l₂ ⊆ s.modules := hmodules ▸ (sublist_without l₁ l₂ a m).subset
    exact h.closed k (hsub hk) n (hsub hn) hneeds hkeep
  system sys hsys := h.system sys ((cexpSystemModule_removed hmodules).symm.trans hsys)
  builtin := by
    intro k' hk' hbuiltin
    obtain ⟨k, hk, rfl⟩ := List.mem_map.mp hk'
    have hsub : l₁ ++ a :: l₂ ⊆ s.modules := hmodules ▸ (sublist_without l₁ l₂ a m).subset
    exact h.builtin k (hsub hk) hbuiltin

/-- The last module that is not kept has a predecessor and symbols of its own, and nobody needs
it. -/
theorem Sustains.last {keep : CexpModule → Bool} {s : Store dm} (h : Sustains keep s)
    {l l₂ : List (CexpModuleRec dm)} {m : CexpModuleRec dm} (hmodules : s.modules = l ++ m :: l₂)
    (hm : keep m.handle = false) (hback : ∀ n ∈ l₂, keep n.handle = true) :
    m.neededby.isZero = true ∧ m.builtin = false ∧
      ∃ l₁ a, s.modules = l₁ ++ a :: m :: l₂ := by
  refine ⟨neededby_isZero h.inv h.ordered hmodules fun n hn => ?_, ?_, ?_⟩
  · cases hbit : n.needs.tst m.id with
    | false => rfl
    | true =>
      have hkept := h.closed n (by rw [hmodules]; simp [hn]) m (by rw [hmodules]; simp) hbit
        (hback n hn)
      rw [hm] at hkept
      cases hkept
  · refine Bool.eq_false_iff.mpr fun hbuiltin => ?_
    rw [h.builtin m (by rw [hmodules]; simp) hbuiltin] at hm
    cases hm
  · rcases List.eq_nil_or_concat l with rfl | ⟨l₁, a, rfl⟩
    · have hfirst : cexpSystemModule s = some m.handle := by
        rw [cexpSystemModule, hmodules]
        rfl
      rw [h.system m.handle hfirst] at hm
      cases hm
    · exact ⟨l₁, a, by rw [hmodules]; simp⟩

section

variable {host : Host} {s s' : Store host.dm}

theorem requests_append {rs₁ rs₂ : List Request} (h : requests host rs₁ s = some s') :
    requests host (rs₁ ++ rs₂) s = requests host rs₂ s' := by
  induction rs₁ generalizing s with
  | nil => rw [requests_nil_some h, List.nil_append]
  | cons r rs₁ ih =>
    obtain ⟨s₁, resp, hr, hrest⟩ := requests_cons_some h
    rw [List.cons_append, requests, hr]
    exact ih hrest

/-- The requests that unload what is not kept, from the end of the list on. -/
def teardown (keep : CexpModule → Bool) (mods : List CexpModule) : List Request :=
  (mods.filter fun h => !keep h).reverse.map plainUnload

theorem teardown_concat (keep : CexpModule → Bool) (mods : List CexpModule) (h : CexpModule) :
    teardown keep (mods ++ [h]) =
      if keep h then teardown keep mods else plainUnload h :: teardown keep mods := by
  rw [teardown, teardown, List.filter_append]
  cases hkeep : keep h with
  | true => simp [hkeep]
  | false => simp [hkeep]

/-- What is not kept goes. Everything behind `front` is kept. -/
theorem teardown_front {keep : CexpModule → Bool} {front back : List CexpModule}
    (h : Sustains keep s) (hhandles : handles s.modules = front ++ back)
    (hback : ∀ mod ∈ back, keep mod = true) :
    ∃ s', requests host (teardown keep front) s = some s' ∧
      handles s'.modules = front.filter keep ++ back := by
  induction front using List.reverseRecOn generalizing s back with
  | nil => exact ⟨s, rfl, hhandles⟩
  | append_singleton front mod ih =>
    have hsplit : handles s.modules = front ++ mod :: back := by rw [hhandles]; simp
    rw [teardown_concat, List.filter_append]
    cases hmod : keep mod with
    | true =>
      have hkept : ∀ mod' ∈ mod :: back, keep mod' = true := by
        intro mod' hmod'
        rcases List.mem_cons.mp hmod' with rfl | hmod'
        · exact hmod
        · exact hback mod' hmod'
      obtain ⟨s', hrun, hleft⟩ := ih h hsplit hkept
      refine ⟨s', hrun, ?_⟩
      rw [hleft]
      simp [hmod]
    | false =>
      obtain ⟨l, m, l₂, hmodules, rfl, rfl, rfl⟩ :
          ∃ l m l₂, s.modules = l ++ m :: l₂ ∧ handles l = front ∧ m.handle = mod ∧
            handles l₂ = back := by
        obtain ⟨l, ml, hmodules, hl, hml⟩ := List.map_eq_append_iff.mp hsplit
        obtain ⟨m, l₂, rfl, hm, hl₂⟩ := List.map_eq_cons_iff.mp hml
        exact ⟨l, m, l₂, hmodules, hl, hm, hl₂⟩
      have hkept : ∀ n ∈ l₂, keep n.handle = true := fun n hn => hback _ (mem_handles hn)
      obtain ⟨hzero, hstatic, l₁, a, hmodules'⟩ := h.last hmodules hmod hkept
      have hl : l = l₁ ++ [a] := by
        rw [hmodules] at hmodules'
        have hlength := congrArg List.length hmodules'
        refine (List.append_inj (hmodules'.trans (?_ : _ = (l₁ ++ [a]) ++ m :: l₂)) ?_).1
        · simp
        · simp at hlength ⊢
          omega
      subst hl
      have hafter : handles (removed l₁ a m l₂ (clearDependencies m.id s)).modules =
          handles (l₁ ++ [a]) ++ handles l₂ := by
        rw [removed, handles_cleared, ← handles_append]
        simp
      obtain ⟨s', hrun, hleft⟩ := ih (h.removed hmodules' hzero) hafter hback
      refine ⟨s', ?_, ?_⟩
      · rw [if_neg Bool.false_ne_true, requests, plainUnload_removes h.inv hmodules' hzero hstatic]
        exact hrun
      · rw [hleft]
        simp [hmod]

/-! ## What unloads leave -/

/-- The modules of the store were modules before and need what they needed, and the system
module and the builtin ones are still there. -/
structure Remnant (s s' : Store dm) : Prop where
  old : ∀ m' ∈ s'.modules, ∃ m ∈ s.modules,
    m'.handle = m.handle ∧ m'.id = m.id ∧ m'.needs = m.needs
  system : ∀ sys, cexpSystemModule s = some sys → cexpSystemModule s' = some sys
  builtin : ∀ m ∈ s.modules, m.builtin = true →
    ∃ m' ∈ s'.modules, m'.handle = m.handle ∧ m'.builtin = true

theorem Remnant.trans {s₁ s₂ s₃ : Store dm} (h : Remnant s₁ s₂) (h' : Remnant s₂ s₃) :
    Remnant s₁ s₃ where
  old m'' hm'' := by
    obtain ⟨m', hm', hhandle', hid', hneeds'⟩ := h'.old m'' hm''
    obtain ⟨m, hm, hhandle, hid, hneeds⟩ := h.old m' hm'
    exact ⟨m, hm, hhandle'.trans hhandle, hid'.trans hid, hneeds'.trans hneeds⟩
  system sys hsys := h'.system sys (h.system sys hsys)
  builtin m hm hbuiltin := by
    obtain ⟨m', hm', hhandle, hbuiltin'⟩ := h.builtin m hm hbuiltin
    obtain ⟨m'', hm'', hhandle', hbuiltin''⟩ := h'.builtin m' hm' hbuiltin'
    exact ⟨m'', hm'', hhandle'.trans hhandle, hbuiltin''⟩

theorem plainUnload_remnant {mod : CexpModule} {resp : Response} (hs : s.Inv)
    (h : request host (plainUnload mod) s = some (s', resp)) : s'.Inv ∧ Remnant s s' := by
  have hout := request_outcome hs ((plainUnload_plain mod).quiet s) h
  refine ⟨hout.inv hs, ?_, (hout.law hs).system, ?_⟩
  · intro m' hm'
    cases hout with
    | refused hsame =>
      rw [hsame.modules] at hm'
      exact ⟨m', hm', rfl, rfl, rfl⟩
    | loaded hr => cases hr
    | @unloaded finalizer destructors l₁ l₂ a m s₁ _ hmodules _ _ _ hs' =>
      rw [hs', removed] at hm'
      obtain ⟨m₀, hm₀, rfl⟩ := List.mem_map.mp hm'
      rw [hmodules]
      exact ⟨m₀, (sublist_without l₁ l₂ a m).subset hm₀, rfl, rfl, rfl⟩
  · intro k hk hbuiltin
    cases hout with
    | refused hsame => exact ⟨k, hsame.modules ▸ hk, rfl, hbuiltin⟩
    | loaded hr => cases hr
    | @unloaded finalizer destructors l₁ l₂ a m s₁ _ hmodules _ hstatic _ hs' =>
      -- the module that goes is not a builtin one
      have hne : k ≠ m := by
        rintro rfl
        rw [hstatic] at hbuiltin
        cases hbuiltin
      rw [hmodules] at hk
      have hstays : k ∈ l₁ ++ a :: l₂ := by
        simp only [List.mem_append, List.mem_cons] at hk ⊢
        rcases hk with hk | rfl | rfl | hk
        · exact .inl hk
        · exact .inr (.inl rfl)
        · exact absurd rfl hne
        · exact .inr (.inr hk)
      rw [hs', removed]
      exact ⟨clearDependency m.id k, List.mem_map_of_mem hstays, rfl, hbuiltin⟩

theorem unloads_remnant {mods : List CexpModule} (hs : s.Inv)
    (h : requests host (mods.map plainUnload) s = some s') : s'.Inv ∧ Remnant s s' := by
  induction mods generalizing s with
  | nil =>
    rw [requests_nil_some h]
    exact ⟨hs, fun m hm => ⟨m, hm, rfl, rfl, rfl⟩, fun sys hsys => hsys,
      fun m hm hbuiltin => ⟨m, hm, rfl, hbuiltin⟩⟩
  | cons mod mods ih =>
    obtain ⟨s₁, resp, hr, hrest⟩ := requests_cons_some h
    obtain ⟨hs₁, hremnant⟩ := plainUnload_remnant hs hr
    obtain ⟨hs', hremnant'⟩ := ih hs₁ hrest
    exact ⟨hs', hremnant.trans hremnant'⟩

/-- Modules that are left are not without a module that they need. -/
theorem Remnant.closed {keep : CexpModule → Bool} (h : Remnant s s') (hs : s.Inv) (hs' : s'.Inv)
    (hleft : handles s'.modules = (handles s.modules).filter keep) : Closed keep s.modules := by
  intro m hm n hn hneeds hkeep
  have hm' : m.handle ∈ handles s'.modules := by
    rw [hleft]
    exact List.mem_filter.mpr ⟨mem_handles hm, hkeep⟩
  obtain ⟨m', hm', hhandle⟩ := List.mem_map.mp hm'
  obtain ⟨m₀, hm₀, hhandle₀, -, hneeds₀⟩ := h.old m' hm'
  have hsame : m₀ = m := eq_of_handle_eq hs.handles_nodup hm₀ hm (hhandle₀.symm.trans hhandle)
  rw [hsame] at hneeds₀
  obtain ⟨n', hn', hid⟩ := hs'.needs_loaded m' hm' n.id (hneeds₀ ▸ hneeds)
  obtain ⟨n₀, hn₀, hnhandle, hnid, -⟩ := h.old n' hn'
  have hsame' : n₀ = n := List.inj_on_of_nodup_map hs.ids_nodup hn₀ hn (hnid.symm.trans hid)
  have hmem : n'.handle ∈ handles s'.modules := mem_handles hn'
  rw [hleft, hnhandle, hsame'] at hmem
  exact (List.mem_filter.mp hmem).2

/-- Unloads can leave exactly those sets of modules that have the system module, every builtin module
and with each module everything that it needs. -/
theorem unloads_leave_iff (host : Host) (rs : List Request) (hq : QuietRun host rs Store.init)
    (s : Store host.dm) (h : requests host rs Store.init = some s) (keep : CexpModule → Bool) :
    (∃ (mods : List CexpModule) (s' : Store host.dm),
        requests host (mods.map plainUnload) s = some s' ∧
        handles s'.modules = (handles s.modules).filter keep) ↔
      (∀ sys, cexpSystemModule s = some sys → keep sys = true) ∧
        (∀ m ∈ s.modules, m.builtin = true → keep m.handle = true) ∧
        ∀ m ∈ s.modules, ∀ n ∈ s.modules, m.needs.tst n.id = true → keep m.handle = true →
          keep n.handle = true := by
  have hs : s.Inv := requests_inv Store.inv_init hq h
  have ho : Ordered s := requests_ordered Store.inv_init ordered_init hq h
  constructor
  · rintro ⟨mods, s', hrun, hleft⟩
    obtain ⟨hs', hremnant⟩ := unloads_remnant hs hrun
    have hkept : ∀ mod ∈ handles s'.modules, keep mod = true := by
      intro mod hmod
      rw [hleft] at hmod
      exact (List.mem_filter.mp hmod).2
    refine ⟨fun sys hsys => ?_, fun m hm hbuiltin => ?_, hremnant.closed hs hs' hleft⟩
    · exact hkept sys (List.mem_of_head? (hremnant.system sys hsys))
    · obtain ⟨m', hm', hhandle, -⟩ := hremnant.builtin m hm hbuiltin
      exact hkept m.handle (hhandle ▸ mem_handles hm')
  · rintro ⟨hsys, hbuiltin, hclosed⟩
    have hkeeps : Sustains keep s := ⟨hs, ho, hclosed, hsys, hbuiltin⟩
    obtain ⟨s', hrun, hleft⟩ := teardown_front hkeeps (List.append_nil _).symm (by simp)
    exact ⟨_, s', hrun, hleft.trans (List.append_nil _)⟩

/-- The first of two modules cannot go without the second one. -/
theorem unloads_leave_iff_weak :
    ∃ s, requests plainHost weakRun Store.init = some s ∧ handles s.modules = [16, 32, 48] ∧
      ¬∃ (mods : List CexpModule) (s' : Store plainHost.dm),
        requests plainHost (mods.map plainUnload) s = some s' ∧ handles s'.modules = [16, 48] := by
  have heval : (requests plainHost weakRun Store.init).any (fun s =>
      handles s.modules = [16, 32, 48] ∧ s.modules.any fun m => s.modules.any fun n =>
        m.handle = 48 ∧ n.handle = 32 ∧ m.needs.tst n.id) = true := by
    decide +kernel
  obtain ⟨s, hs, hstate⟩ := (Option.any_eq_true _ _).mp heval
  obtain ⟨hhandles, hneeds⟩ := of_decide_eq_true hstate
  refine ⟨s, hs, hhandles, ?_⟩
  rintro ⟨mods, s', hrun, hleft⟩
  have hplain : ∀ r ∈ weakRun, r.Plain := by simp [weakRun, loadA, loadB, Request.Plain]
  have hfilter : handles s'.modules = (handles s.modules).filter fun h => h ≠ 32 := by
    rw [hleft, hhandles]
    rfl
  have hclosed := ((unloads_leave_iff plainHost weakRun (plain_quietRun hplain _) s hs
    fun h => h ≠ 32).mp ⟨mods, s', hrun, hfilter⟩).2.2
  simp only [List.any_eq_true, decide_eq_true_eq] at hneeds
  obtain ⟨m, hm, n, hn, hmh, hnh, hbit⟩ := hneeds
  have hkept := hclosed m hm n hn hbit (by rw [hmh]; rfl)
  rw [hnh] at hkept
  cases hkept

/-! ## Loading and unloading again -/

/-- The request loads a module from a file. -/
def Request.Loads : Request → Prop
  | .load args _ => args.filename ≠ none
  | .unload _ _ _ _ => False

/-- A module from a file has symbols of its own. -/
theorem NewModule.own_symbols {args : LoadArgs} {nmod : CexpModuleRec host.dm}
    (h : NewModule host args s nmod) (hfile : args.filename ≠ none) : nmod.builtin = false := by
  obtain ⟨linked, hlinked, heq⟩ := h.linked
  obtain ⟨filename, hfilename⟩ := Option.ne_none_iff_exists'.mp hfile
  rw [loadSource, hfilename] at hlinked
  obtain ⟨ld, cst, -, rfl⟩ := cexpLoadFile_ok hlinked
  exact congrArg CexpModuleRec.builtin heq

/-- Unloading the module that has just been loaded undoes the load. -/
theorem unload_appended {args : LoadArgs} {s₁ s₂ : Store host.dm}
    {nmod : CexpModuleRec host.dm} (hs : s.Inv) (hne : s.modules ≠ [])
    (hnew : NewModule host args s nmod) (hfile : args.filename ≠ none)
    (hsame : SameStore { s with id := nmod.id, used := nmod.handle :: s.used } s₁)
    (hback : SameStore (appended nmod s₁) s₂) :
    ∃ s₃, request host (plainUnload nmod.handle) s₂ = some (s₃, .unloaded) ∧ SameStore s s₃ := by
  obtain ⟨hsound, hnone⟩ := hnew.sound
  have hinv : s₂.Inv := hback.inv (appended_inv hs hnew hsame)
  obtain ⟨l, a, hl⟩ := (List.eq_nil_or_concat s.modules).resolve_left hne
  rw [List.concat_eq_append] at hl
  have hmodules : s₂.modules =
      addDependencies nmod l ++ addDependency nmod a :: nmod :: [] := by
    rw [hback.modules, appended, hsame.modules, hl, addDependencies, addDependencies]
    simp
  have hzero : nmod.neededby.isZero = true := by
    rw [hnone, Bitmap.isZero_iff]
    exact fun k _ => Bitmap.tst_zero k
  refine ⟨_, plainUnload_removes hinv hmodules hzero (hnew.own_symbols hfile), ?_, ?_, ?_,
    fun _ => hinv.static⟩
  · have hclear : ∀ m ∈ s.modules, clearDependency nmod.id (addDependency nmod m) = m := by
      intro m hm
      have hfree := tst_fresh hnew.id_fresh (hs.neededby_loaded m hm)
      rw [addDependency]
      split
      · rw [clearDependency, Bitmap.clr_set hfree]
      · rw [clearDependency, Bitmap.clr_of_not_tst hfree]
    have hlist : addDependencies nmod l ++ [addDependency nmod a] =
        s.modules.map (addDependency nmod) := by
      rw [hl, List.map_append]
      rfl
    rw [removed, hlist, List.map_map]
    exact (List.map_congr_left hclear).trans (List.map_id' _)
  · show s₂.used.erase nmod.handle = s.used
    rw [hback.used, appended, hsame.used, List.erase_cons_head]
  · show s₂.loaded.erase (nmod.handle, nmod.id) = s.loaded
    have hfresh : (nmod.handle, nmod.id) ∉ s.loaded := by
      rw [hs.loaded_eq]
      intro hmem
      obtain ⟨m, hm, heq⟩ := List.mem_map.mp hmem
      exact hnew.id_fresh m hm (congrArg Prod.snd heq)
    rw [hback.loaded, appended, hsame.loaded, List.erase_append_right _ hfresh,
      List.erase_cons_head, List.append_nil]

theorem loads_undone_run {rs : List Request} (hs : s.Inv) (hne : s.modules ≠ [])
    (hloads : ∀ r ∈ rs, r.Loads) (hq : QuietRun host rs s) (h : requests host rs s = some s') :
    ∃ new s₂, handles s'.modules = handles s.modules ++ new ∧
      requests host (new.reverse.map plainUnload) s' = some s₂ ∧ SameStore s s₂ := by
  induction rs generalizing s with
  | nil =>
    rw [requests_nil_some h]
    exact ⟨[], s, (List.append_nil _).symm, rfl, SameStore.refl s⟩
  | cons r rs ih =>
    obtain ⟨s₁, resp, hr, hrest⟩ := requests_cons_some h
    have hout := request_outcome hs hq.1 hr
    have hinv := hout.inv hs
    have hlater := hq.2 s₁ resp hr
    have hloads' := fun r' hr' => hloads r' (List.mem_cons_of_mem r hr')
    cases hout with
    | refused hsame =>
      obtain ⟨new, s₂, hnew, hrun, hback⟩ := ih hinv (hsame.modules ▸ hne) hloads' hlater hrest
      rw [hsame.modules] at hnew
      exact ⟨new, s₂, hnew, hrun, hsame.trans hback⟩
    | @loaded args callbacks nmod s₀ hr' hmod hsame hs₁ =>
      subst hs₁
      have hfile : args.filename ≠ none := by
        have hload := hloads r List.mem_cons_self
        rwa [hr'] at hload
      have hne' : (appended nmod s₀).modules ≠ [] := by simp [appended]
      obtain ⟨new, s₂, hnew, hrun, hback⟩ := ih hinv hne' hloads' hlater hrest
      obtain ⟨s₃, hlast, hsame₃⟩ := unload_appended hs hne hmod hfile hsame hback
      refine ⟨nmod.handle :: new, s₃, ?_, ?_, hsame₃⟩
      · rw [hnew, appended, hsame.modules, handles_append, handles_addDependencies,
          List.append_assoc]
        rfl
      · rw [List.reverse_cons, List.map_append, requests_append hrun]
        simp only [List.map_cons, List.map_nil, requests, hlast]
    | unloaded hr' =>
      have hload := hloads r List.mem_cons_self
      rw [hr'] at hload
      exact absurd hload id

/-- Modules that are loaded from files, in any number, can be unloaded in the reverse order. The list
with its bitmaps, the allocated records and the ids are then what they were before. -/
theorem loads_undone (host : Host) (rs : List Request) (hq : QuietRun host rs Store.init)
    (s : Store host.dm) (h : requests host rs Store.init = some s) (hne : s.modules ≠ [])
    (ls : List Request) (hloads : ∀ r ∈ ls, r.Loads) (hls : QuietRun host ls s)
    (s' : Store host.dm) (hrun : requests host ls s = some s') :
    ∃ new s₂, handles s'.modules = handles s.modules ++ new ∧
      requests host (new.reverse.map plainUnload) s' = some s₂ ∧
      s₂.modules = s.modules ∧ s₂.used = s.used ∧ s₂.loaded = s.loaded := by
  obtain ⟨new, s₂, hnew, hback, hsame⟩ :=
    loads_undone_run (requests_inv Store.inv_init hq h) hne hloads hls hrun
  exact ⟨new, s₂, hnew, hback, hsame.modules, hsame.used, hsame.loaded⟩

theorem loads_undone_weak :
    ∃ s s', requests plainHost [.load loadSystem []] Store.init = some s ∧
      requests plainHost weakRun.tail s = some s' ∧ handles s'.modules = [16, 32, 48] ∧
      ∃ new s₂, handles s'.modules = handles s.modules ++ new ∧
        requests plainHost (new.reverse.map plainUnload) s' = some s₂ ∧
        s₂.modules = s.modules ∧ s₂.used = s.used ∧ s₂.loaded = s.loaded := by
  have heval : (requests plainHost [.load loadSystem []] Store.init).any (fun s =>
      handles s.modules = [16] ∧ (requests plainHost weakRun.tail s).any fun s' =>
        handles s'.modules = [16, 32, 48]) = true := by
    decide +kernel
  obtain ⟨s, hs, hstate⟩ := (Option.any_eq_true _ _).mp heval
  obtain ⟨hhandles, hloads⟩ := of_decide_eq_true hstate
  obtain ⟨s', hs', hhandles'⟩ := (Option.any_eq_true _ _).mp hloads
  have hne : s.modules ≠ [] := by
    intro hnil
    rw [hnil] at hhandles
    cases hhandles
  refine ⟨s, s', hs, hs', of_decide_eq_true hhandles',
    loads_undone plainHost _ (plain_quietRun ?_ _) s hs hne _ ?_ (plain_quietRun ?_ _) s' hs'⟩
  · simp [Request.Plain]
  · simp [weakRun, loadA, loadB, loadNamed, Request.Loads]
  · simp [weakRun, loadA, loadB, Request.Plain]

end

end Cexp
