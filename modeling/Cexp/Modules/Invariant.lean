import Cexp.Modules.Bound
import Cexp.Modules.Store
import Mathlib.Data.List.Basic

/-!
# Invariants of the module store

A request whose callbacks achieve nothing (`Quiet`) does one of three things: it is refused
and changes at most the static variable of `idAlloc`, it appends one new module to the list
and enters its dependencies, or it takes one module that nobody needs out of the list
(`request_cases`). The invariants of the store (`Store.Inv`) follow from that.
-/

namespace Cexp

variable {dm : DataModel}

/-! ## Ids -/

theorem idSearch_some {inUse : Bitmap dm} {id n newId k : Nat}
    (h : idSearch inUse id n newId = some k) :
    k < MAX_NUM_MODULES ∧ inUse.tst k = false := by
  induction n generalizing newId with
  | zero => cases h
  | succ n ih =>
    simp only [idSearch] at h
    split at h
    · cases h
    · split at h
      · exact ih h
      · next hfree =>
        cases h
        exact ⟨Nat.mod_lt _ (by decide), by simpa using hfree⟩

theorem tst_usedIds (modules : List (CexpModuleRec dm)) (k : Nat) :
    (usedIds modules).tst k = true ↔ ∃ m ∈ modules, m.id = k := by
  have hfold : ∀ (ms : List (CexpModuleRec dm)) (bm : Bitmap dm),
      (ms.foldl (fun bm m => bm.set m.id) bm).tst k = true ↔
        bm.tst k = true ∨ ∃ m ∈ ms, m.id = k := by
    intro ms
    induction ms with
    | nil => simp
    | cons m ms ih =>
      intro bm
      rw [List.foldl_cons, ih, Bitmap.tst_set]
      simp only [Bool.or_eq_true, decide_eq_true_eq, List.exists_mem_cons_iff, or_assoc,
        @eq_comm Nat k]
  rw [usedIds, hfold]
  simp [Bitmap.tst_zero]

/-- A new id is in range and not in use. -/
theorem idAlloc_some {modules : List (CexpModuleRec dm)} {id k : Nat}
    (h : idAlloc modules id = some k) :
    k < MAX_NUM_MODULES ∧ ∀ m ∈ modules, m.id ≠ k := by
  obtain ⟨hlt, hfree⟩ := idSearch_some h
  refine ⟨hlt, fun m hm heq => ?_⟩
  have hused := (tst_usedIds modules k).mpr ⟨m, hm, heq⟩
  rw [hused] at hfree
  cases hfree

/-! ## The list -/

theorem handles_append (l₁ l₂ : List (CexpModuleRec dm)) :
    handles (l₁ ++ l₂) = handles l₁ ++ handles l₂ := List.map_append

theorem mem_handles {l : List (CexpModuleRec dm)} {m : CexpModuleRec dm} (h : m ∈ l) :
    m.handle ∈ handles l := List.mem_map_of_mem h

theorem through_append {l₁ : List (CexpModuleRec dm)} (m : CexpModuleRec dm)
    (l₂ : List (CexpModuleRec dm)) (h : m.handle ∉ handles l₁) :
    through m.handle (l₁ ++ m :: l₂) = l₁ ++ [m] := by
  induction l₁ with
  | nil => simp [through]
  | cons a l₁ ih =>
    have hne : a.handle ≠ m.handle := fun heq => h (heq ▸ List.mem_cons_self)
    have ih' := ih fun hmem => h (List.mem_cons_of_mem a.handle hmem)
    rw [List.cons_append, through, if_neg hne, ih', List.cons_append]

/-- Chaining behind the record that is last in `l₁` drops what follows it. -/
theorem chain_append {l₁ : List (CexpModuleRec dm)} (l₂ : List (CexpModuleRec dm))
    (nmod : CexpModuleRec dm) (hnodup : (handles l₁).Nodup) :
    chain (handles l₁).getLast? nmod (l₁ ++ l₂) = some (l₁ ++ [nmod]) := by
  rcases List.eq_nil_or_concat l₁ with rfl | ⟨l, m, rfl⟩
  · rfl
  · rw [List.concat_eq_append] at hnodup ⊢
    rw [handles_append] at hnodup ⊢
    have hlast : (handles l ++ handles [m]).getLast? = some m.handle := by
      simp [handles]
    have hmem : m.handle ∈ handles (l ++ [m] ++ l₂) :=
      mem_handles (List.mem_append_left l₂ (List.mem_append_right l List.mem_cons_self))
    have hfresh : m.handle ∉ handles l := by
      intro h
      exact (List.nodup_append.mp hnodup).2.2 _ h _ List.mem_cons_self rfl
    rw [hlast, chain]
    simp only [hmem, if_true]
    rw [List.append_assoc, List.singleton_append, through_append m l₂ hfresh]

/-! ## Dependencies -/

section Dependencies

variable (nmod m : CexpModuleRec dm)

@[simp] theorem addDependency_handle : (addDependency nmod m).handle = m.handle := by
  rw [addDependency]
  split <;> rfl

@[simp] theorem addDependency_id : (addDependency nmod m).id = m.id := by
  rw [addDependency]
  split <;> rfl

@[simp] theorem addDependency_name : (addDependency nmod m).name = m.name := by
  rw [addDependency]
  split <;> rfl

@[simp] theorem addDependency_needs : (addDependency nmod m).needs = m.needs := by
  rw [addDependency]
  split <;> rfl

@[simp] theorem addDependency_refs : (addDependency nmod m).refs = m.refs := by
  rw [addDependency]
  split <;> rfl

@[simp] theorem addDependency_symtbl : (addDependency nmod m).symtbl = m.symtbl := by
  rw [addDependency]
  split <;> rfl

theorem tst_addDependency (k : Nat) : (addDependency nmod m).neededby.tst k =
    (m.neededby.tst k || nmod.needs.tst m.id && decide (k = nmod.id)) := by
  rw [addDependency]
  cases hneeds : nmod.needs.tst m.id with
  | true => simp [Bitmap.tst_set]
  | false => simp

@[simp] theorem tst_clearDependency (id k : Nat) : (clearDependency id m).neededby.tst k =
    (m.neededby.tst k && decide (k ≠ id)) := Bitmap.tst_clr m.neededby id k

end Dependencies

theorem handles_addDependencies (nmod : CexpModuleRec dm) (l : List (CexpModuleRec dm)) :
    handles (addDependencies nmod l) = handles l := by
  rw [handles, handles, addDependencies, List.map_map]
  exact List.map_congr_left fun m _ => addDependency_handle nmod m

/-! ## Predecessors -/

theorem predecessor_some {mod pred : CexpModule} {l : List (CexpModuleRec dm)}
    (h : predecessor mod l = some pred) :
    ∃ l₁ a m l₂, l = l₁ ++ a :: m :: l₂ ∧ a.handle = pred ∧ m.handle = mod := by
  induction l with
  | nil => cases h
  | cons a l ih =>
    cases l with
    | nil => cases h
    | cons b l =>
      rw [predecessor] at h
      split at h
      · next heq =>
        cases h
        exact ⟨[], a, b, l, rfl, rfl, heq⟩
      · obtain ⟨l₁, a', m, l₂, heq, ha, hm⟩ := ih h
        exact ⟨a :: l₁, a', m, l₂, by rw [heq, List.cons_append], ha, hm⟩

theorem eq_of_handle_eq {l : List (CexpModuleRec dm)} (hnodup : (handles l).Nodup)
    {m n : CexpModuleRec dm} (hm : m ∈ l) (hn : n ∈ l) (h : m.handle = n.handle) : m = n :=
  List.inj_on_of_nodup_map hnodup hm hn h

theorem find_handle {l : List (CexpModuleRec dm)} (hnodup : (handles l).Nodup)
    {m : CexpModuleRec dm} (hm : m ∈ l) : (l.find? fun n => n.handle = m.handle) = some m := by
  obtain ⟨n, hn⟩ := Option.isSome_iff_exists.mp
    (List.find?_isSome (p := fun n : CexpModuleRec dm => n.handle = m.handle).mpr
      ⟨m, hm, decide_eq_true rfl⟩)
  have hhandle : n.handle = m.handle := by simpa using List.find?_some hn
  rw [hn, eq_of_handle_eq hnodup (List.mem_of_find?_eq_some hn) hm hhandle]

theorem dropWhile_handle {l₁ : List (CexpModuleRec dm)} (m : CexpModuleRec dm)
    (l₂ : List (CexpModuleRec dm)) (h : m.handle ∉ handles l₁) :
    (l₁ ++ m :: l₂).dropWhile (fun n => n.handle ≠ m.handle) = m :: l₂ := by
  induction l₁ with
  | nil => simp
  | cons a l₁ ih =>
    have hne : a.handle ≠ m.handle := fun heq => h (heq ▸ List.mem_cons_self)
    have ih' := ih fun hmem => h (List.mem_cons_of_mem a.handle hmem)
    rw [List.cons_append, List.dropWhile_cons]
    simp only [hne, ne_eq, not_false_eq_true, decide_true, if_true]
    exact ih'

/-! ## Invariants -/

structure Store.Inv (s : Store dm) : Prop where
  static : s.id < MAX_NUM_MODULES
  ids_lt : ∀ m ∈ s.modules, m.id < MAX_NUM_MODULES
  ids_nodup : (s.modules.map CexpModuleRec.id).Nodup
  names_nodup : (s.modules.map CexpModuleRec.name).Nodup
  handles_nodup : (handles s.modules).Nodup
  handles_used : ∀ h ∈ handles s.modules, h ∈ s.used
  mirror : ∀ m ∈ s.modules, ∀ n ∈ s.modules, m.neededby.tst n.id = n.needs.tst m.id
  needs_loaded : ∀ m ∈ s.modules, ∀ k, m.needs.tst k = true → ∃ n ∈ s.modules, n.id = k
  neededby_loaded : ∀ m ∈ s.modules, ∀ k, m.neededby.tst k = true → ∃ n ∈ s.modules, n.id = k
  loaded_eq : s.loaded = s.modules.map fun m => (m.handle, m.id)

theorem Store.inv_init : (Store.init : Store dm).Inv where
  static := show MAX_NUM_MODULES - 1 < MAX_NUM_MODULES by decide
  ids_lt := by intro m hm; cases hm
  ids_nodup := List.nodup_nil
  names_nodup := List.nodup_nil
  handles_nodup := List.nodup_nil
  handles_used := by intro h hh; cases hh
  mirror := by intro m hm; cases hm
  needs_loaded := by intro m hm; cases hm
  neededby_loaded := by intro m hm; cases hm
  loaded_eq := rfl

/-- Nothing but the static variable of `idAlloc` has changed. -/
structure SameStore (s s' : Store dm) : Prop where
  modules : s'.modules = s.modules
  used : s'.used = s.used
  loaded : s'.loaded = s.loaded
  static : s.id < MAX_NUM_MODULES → s'.id < MAX_NUM_MODULES

theorem SameStore.refl (s : Store dm) : SameStore s s := ⟨rfl, rfl, rfl, id⟩

theorem SameStore.trans {s s' s'' : Store dm} (h : SameStore s s') (h' : SameStore s' s'') :
    SameStore s s'' :=
  ⟨h'.modules.trans h.modules, h'.used.trans h.used, h'.loaded.trans h.loaded,
    fun hid => h'.static (h.static hid)⟩

theorem SameStore.inv {s s' : Store dm} (h : SameStore s s') (hs : s.Inv) : s'.Inv where
  static := h.static hs.static
  ids_lt := h.modules ▸ hs.ids_lt
  ids_nodup := h.modules ▸ hs.ids_nodup
  names_nodup := h.modules ▸ hs.names_nodup
  handles_nodup := h.modules ▸ hs.handles_nodup
  handles_used := by rw [h.modules, h.used]; exact hs.handles_used
  mirror := h.modules ▸ hs.mirror
  needs_loaded := h.modules ▸ hs.needs_loaded
  neededby_loaded := h.modules ▸ hs.neededby_loaded
  loaded_eq := by rw [h.modules, h.loaded]; exact hs.loaded_eq

/-! ## Loading -/

/-- What is known of the record of a module before its callbacks are called. -/
structure NewModule (host : Host) (args : LoadArgs) (s : Store host.dm)
    (nmod : CexpModuleRec host.dm) : Prop where
  linked : ∃ linked, loadSource host s.modules nmod.handle args = .ok linked ∧
    nmod = newRecord nmod.handle nmod.name nmod.id linked
  handle_eq : nmod.handle = host.malloc s.used
  name_fresh : ∀ m ∈ s.modules, m.name ≠ nmod.name
  id_lt : nmod.id < MAX_NUM_MODULES
  id_fresh : ∀ m ∈ s.modules, m.id ≠ nmod.id

theorem prepareLoad_refused {host : Host} {args : LoadArgs} {s s' : Store host.dm}
    (h : prepareLoad host args s = .refused s') : SameStore s s' := by
  rw [prepareLoad] at h
  split at h
  · cases h
    exact SameStore.refl s
  · split at h
    · cases h
      exact SameStore.refl s
    · split at h
      · cases h
        exact SameStore.refl s
      · next id hid =>
        have hsame : SameStore s { s with id := id } :=
          ⟨rfl, rfl, rfl, fun _ => (idAlloc_some hid).1⟩
        split at h
        · cases h
          exact hsame
        · split at h
          · cases h
            exact hsame
          · cases h
          · cases h

theorem prepareLoad_ready {host : Host} {args : LoadArgs} {s s' : Store host.dm}
    {nmod : CexpModuleRec host.dm} {tail : Option CexpModule}
    (h : prepareLoad host args s = .ready nmod tail s') :
    NewModule host args s nmod ∧ tail = (handles s.modules).getLast? ∧
      s' = { s with id := nmod.id, used := nmod.handle :: s.used } := by
  rw [prepareLoad] at h
  split at h
  · cases h
  · split at h
    · cases h
    · next hname =>
      split at h
      · cases h
      · next id hid =>
        split at h
        · cases h
        · split at h
          · cases h
          · cases h
          · next linked hlinked =>
            cases h
            obtain ⟨hlt, hfresh⟩ := idAlloc_some hid
            refine ⟨⟨⟨linked, hlinked, rfl⟩, rfl, ?_, hlt, hfresh⟩, rfl, rfl⟩
            intro m hm heq
            exact hname (List.any_eq_true.mpr ⟨m, hm, decide_eq_true heq⟩)

theorem cexpLoadFile_ok {host : Host} {modules : List (CexpModuleRec host.dm)}
    {nmod : CexpModule} {file : ObjFile} {linked : Linked host.dm}
    (h : cexpLoadFile host modules nmod file = .ok linked) :
    ∃ ld cst, link host modules nmod file = .ok (ld, cst) ∧
      linked = {
        symtbl := cst
        builtin := false
        sectionSyms := recordSectionNames host modules nmod cst
          (sBasic (file.sections.map sNsects))
        needs := ld.depend
        bound := ld.bound } := by
  unfold cexpLoadFile at h
  cases hsys : completeInitSystem host modules with
  | error e => rw [hsys] at h; cases h
  | ok u =>
    simp only [hsys, bind, Except.bind] at h
    split at h
    · cases h
    · cases hlink : link host modules nmod file with
      | error e => rw [hlink] at h; cases h
      | ok p =>
        obtain ⟨ld, cst⟩ := p
        refine ⟨ld, cst, rfl, ?_⟩
        simp only [hlink] at h
        split at h
        · cases h
        · split at h
          · split at h
            · cases h
            · cases h
              rfl
          · cases h
            rfl

/-- The dependencies of a module that has been linked. -/
theorem loadSource_sound {host : Host} {modules : List (CexpModuleRec host.dm)}
    {nmod : CexpModule} {args : LoadArgs} {linked : Linked host.dm}
    (h : loadSource host modules nmod args = .ok linked) :
    Sound modules linked.bound linked.needs := by
  rw [loadSource] at h
  split at h
  · obtain ⟨ld, cst, hlink, rfl⟩ := cexpLoadFile_ok h
    exact link_sound hlink
  · rw [cexpLoadBuiltinSymtab] at h
    split at h
    · cases h
    · split at h
      · cases h
      · dsimp only at h
        split at h
        · cases h
        · split at h
          · cases h
            refine ⟨fun r hr => absurd hr List.not_mem_nil, fun k hk => ?_⟩
            rw [Bitmap.tst_zero] at hk
            cases hk
          · cases h

theorem NewModule.handle_fresh {host : Host} {args : LoadArgs} {s : Store host.dm}
    {nmod : CexpModuleRec host.dm} (h : NewModule host args s nmod) : nmod.handle ∉ s.used :=
  h.handle_eq ▸ host.malloc_fresh s.used

/-- Linking starts with an empty map `neededby`, and the dependencies are among the loaded
modules. -/
theorem NewModule.sound {host : Host} {args : LoadArgs} {s : Store host.dm}
    {nmod : CexpModuleRec host.dm} (h : NewModule host args s nmod) :
    Sound s.modules nmod.bound nmod.needs ∧ nmod.neededby = Bitmap.zero := by
  obtain ⟨linked, hlinked, heq⟩ := h.linked
  have hsound := loadSource_sound hlinked
  have hneeds : nmod.needs = linked.needs := congrArg CexpModuleRec.needs heq
  have hbound : nmod.bound = linked.bound := congrArg CexpModuleRec.bound heq
  rw [hneeds, hbound]
  exact ⟨hsound, congrArg CexpModuleRec.neededby heq⟩

/-- The store after a module has been chained to the end of the list. -/
def appended (nmod : CexpModuleRec dm) (s : Store dm) : Store dm where
  modules := addDependencies nmod s.modules ++ [nmod]
  id := s.id
  used := s.used
  loaded := s.loaded ++ [(nmod.handle, nmod.id)]

theorem finishLoad_last (nmod : CexpModuleRec dm) {s : Store dm}
    (h : (handles s.modules).Nodup) :
    finishLoad nmod (handles s.modules).getLast? s = some (appended nmod s) := by
  have hnodup : (handles (addDependencies nmod s.modules)).Nodup := by
    rw [handles_addDependencies]
    exact h
  have hchain := chain_append [] nmod hnodup
  rw [handles_addDependencies, List.append_nil] at hchain
  rw [finishLoad, hchain]
  rfl

theorem map_addDependencies {α : Type} (f : CexpModuleRec dm → α) (nmod : CexpModuleRec dm)
    (hf : ∀ m, f (addDependency nmod m) = f m) (l : List (CexpModuleRec dm)) :
    (addDependencies nmod l).map f = l.map f := by
  rw [addDependencies, List.map_map]
  exact List.map_congr_left fun m _ => hf m

theorem mem_appended {nmod m : CexpModuleRec dm} {l : List (CexpModuleRec dm)}
    (h : m ∈ addDependencies nmod l ++ [nmod]) :
    (∃ m₀ ∈ l, m = addDependency nmod m₀) ∨ m = nmod := by
  rcases List.mem_append.mp h with h | h
  · obtain ⟨m₀, hm₀, rfl⟩ := List.mem_map.mp h
    exact Or.inl ⟨m₀, hm₀, rfl⟩
  · exact Or.inr (List.mem_singleton.mp h)

/-- A map of loaded modules has no bit for an id that is not in use. -/
theorem tst_fresh {l : List (CexpModuleRec dm)} {id : Nat} (hfresh : ∀ m ∈ l, m.id ≠ id)
    {bm : Bitmap dm} (hloaded : ∀ k, bm.tst k = true → ∃ n ∈ l, n.id = k) :
    bm.tst id = false := by
  cases hbit : bm.tst id with
  | false => rfl
  | true =>
    obtain ⟨n, hn, heq⟩ := hloaded id hbit
    exact absurd heq (hfresh n hn)

/-- A field that `addDependency` keeps is unique in the longer list if it is new. -/
theorem nodup_appended {α : Type} (f : CexpModuleRec dm → α) {nmod : CexpModuleRec dm}
    (hf : ∀ m, f (addDependency nmod m) = f m) {l : List (CexpModuleRec dm)}
    (hnodup : (l.map f).Nodup) (hfresh : ∀ m ∈ l, f m ≠ f nmod) :
    ((addDependencies nmod l ++ [nmod]).map f).Nodup := by
  rw [List.map_append, map_addDependencies f nmod hf]
  refine List.nodup_append.mpr ⟨hnodup, List.nodup_singleton _, ?_⟩
  intro k hk k' hk'
  obtain ⟨m, hm, rfl⟩ := List.mem_map.mp hk
  rw [List.map_singleton, List.mem_singleton] at hk'
  rw [hk']
  exact hfresh m hm

/-- The new module is entered in the maps of the modules that it needs, and nobody needs it. -/
theorem mirror_appended {nmod : CexpModuleRec dm} {l : List (CexpModuleRec dm)}
    (hmirror : ∀ m ∈ l, ∀ n ∈ l, m.neededby.tst n.id = n.needs.tst m.id)
    (hfresh : ∀ m ∈ l, m.id ≠ nmod.id) (hzero : nmod.neededby = Bitmap.zero)
    (hself : nmod.needs.tst nmod.id = false) (hneeds : ∀ m ∈ l, m.needs.tst nmod.id = false)
    (hneededby : ∀ m ∈ l, m.neededby.tst nmod.id = false) :
    ∀ m ∈ addDependencies nmod l ++ [nmod], ∀ n ∈ addDependencies nmod l ++ [nmod],
      m.neededby.tst n.id = n.needs.tst m.id := by
  intro m hm n hn
  rcases mem_appended hm with ⟨m₀, hm₀, rfl⟩ | rfl
  · rcases mem_appended hn with ⟨n₀, hn₀, rfl⟩ | rfl
    · simp only [tst_addDependency, addDependency_id, addDependency_needs, hfresh n₀ hn₀,
        decide_false, Bool.and_false, Bool.or_false]
      exact hmirror m₀ hm₀ n₀ hn₀
    · simp only [tst_addDependency, addDependency_id, hneededby m₀ hm₀, decide_true,
        Bool.and_true, Bool.false_or]
  · rw [hzero, Bitmap.tst_zero]
    rcases mem_appended hn with ⟨n₀, hn₀, rfl⟩ | rfl
    · rw [addDependency_needs]
      exact (hneeds n₀ hn₀).symm
    · exact hself.symm

/-- Appending a new module keeps the invariants. `s'` is the store after the callbacks. -/
theorem appended_inv {host : Host} {args : LoadArgs} {s s' : Store host.dm}
    {nmod : CexpModuleRec host.dm} (hs : s.Inv) (hnew : NewModule host args s nmod)
    (hsame : SameStore { s with id := nmod.id, used := nmod.handle :: s.used } s') :
    (appended nmod s').Inv := by
  obtain ⟨hsound, hzero⟩ := hnew.sound
  have hmodules : s'.modules = s.modules := hsame.modules
  have hused : s'.used = nmod.handle :: s.used := hsame.used
  have hloaded : s'.loaded = s.loaded := hsame.loaded
  have hold : ∀ k, (∃ n ∈ s.modules, n.id = k) →
      ∃ n ∈ addDependencies nmod s.modules ++ [nmod], n.id = k := by
    rintro k ⟨n, hn, rfl⟩
    exact ⟨addDependency nmod n, List.mem_append_left _ (List.mem_map_of_mem hn),
      addDependency_id nmod n⟩
  constructor
  · exact hsame.static hnew.id_lt
  · intro m hm
    rw [appended, hmodules] at hm
    rcases mem_appended hm with ⟨m₀, hm₀, rfl⟩ | rfl
    · rw [addDependency_id]
      exact hs.ids_lt m₀ hm₀
    · exact hnew.id_lt
  · rw [appended, hmodules]
    exact nodup_appended CexpModuleRec.id (addDependency_id nmod) hs.ids_nodup hnew.id_fresh
  · rw [appended, hmodules]
    exact nodup_appended CexpModuleRec.name (addDependency_name nmod) hs.names_nodup
      hnew.name_fresh
  · rw [appended, hmodules]
    apply nodup_appended CexpModuleRec.handle (addDependency_handle nmod) hs.handles_nodup
    intro m hm heq
    exact hnew.handle_fresh (heq ▸ hs.handles_used m.handle (mem_handles hm))
  · intro h hh
    rw [appended, hmodules, handles_append, handles_addDependencies] at hh
    rw [appended, hused]
    rcases List.mem_append.mp hh with hh | hh
    · exact List.mem_cons_of_mem _ (hs.handles_used h hh)
    · rw [handles, List.map_singleton, List.mem_singleton] at hh
      exact hh ▸ List.mem_cons_self
  · rw [appended, hmodules]
    apply mirror_appended hs.mirror hnew.id_fresh hzero
    · exact tst_fresh hnew.id_fresh hsound.depend
    · exact fun m hm => tst_fresh hnew.id_fresh (hs.needs_loaded m hm)
    · exact fun m hm => tst_fresh hnew.id_fresh (hs.neededby_loaded m hm)
  · intro m hm k hk
    rw [appended, hmodules] at hm ⊢
    rcases mem_appended hm with ⟨m₀, hm₀, rfl⟩ | rfl
    · rw [addDependency_needs] at hk
      exact hold k (hs.needs_loaded m₀ hm₀ k hk)
    · exact hold k (hsound.depend k hk)
  · intro m hm k hk
    rw [appended, hmodules] at hm ⊢
    rcases mem_appended hm with ⟨m₀, hm₀, rfl⟩ | rfl
    · rw [tst_addDependency, Bool.or_eq_true, Bool.and_eq_true, decide_eq_true_eq] at hk
      rcases hk with hk | ⟨-, rfl⟩
      · exact hold k (hs.neededby_loaded m₀ hm₀ k hk)
      · exact ⟨nmod, List.mem_append_right _ List.mem_cons_self, rfl⟩
    · rw [hzero, Bitmap.tst_zero] at hk
      cases hk
  · have hmap := map_addDependencies (fun m => (m.handle, m.id)) nmod
      (fun m => by rw [addDependency_handle, addDependency_id]) s.modules
    show s'.loaded ++ [(nmod.handle, nmod.id)] =
      (addDependencies nmod s'.modules ++ [nmod]).map fun m => (m.handle, m.id)
    rw [hmodules, hloaded, hs.loaded_eq, List.map_append, hmap]
    rfl

/-! ## Unloading -/

theorem checkUnload_some {mod pred : CexpModule} {s : Store dm} {m : CexpModuleRec dm}
    (hnodup : (handles s.modules).Nodup) (h : checkUnload mod s = some (m, pred)) :
    ∃ l₁ a l₂, s.modules = l₁ ++ a :: m :: l₂ ∧ a.handle = pred ∧ m.handle = mod ∧
      m.neededby.isZero = true := by
  rw [checkUnload] at h
  split at h
  · cases h
  · split at h
    · next hpred hfind =>
      split at h
      · next hzero =>
        cases h
        obtain ⟨l₁, a, n, l₂, heq, ha, hn⟩ := predecessor_some hpred
        have hmem : n ∈ s.modules := heq ▸ by simp
        have hm : m.handle = mod := by simpa using List.find?_some hfind
        have hnm : n = m :=
          eq_of_handle_eq hnodup hmem (List.mem_of_find?_eq_some hfind) (hn.trans hm.symm)
        subst hnm
        exact ⟨l₁, a, l₂, heq, ha, hn, hzero⟩
      · cases h
    · cases h

/-- Only a module with symbols of its own can be freed. -/
theorem unlink_static {m : CexpModuleRec dm} {pred : CexpModule} {s s' : Store dm}
    (h : unlink m pred s = some s') : m.builtin = false := by
  rw [unlink] at h
  split at h
  · next hmem => exact hmem.2.2
  · cases h

/-- Taking a record out of the list of the store. -/
theorem unlink_eq {l₁ l₂ : List (CexpModuleRec dm)} {a n m : CexpModuleRec dm} {s : Store dm}
    (hmodules : s.modules = l₁ ++ a :: n :: l₂) (hnodup : (handles s.modules).Nodup)
    (hn : n.handle = m.handle) (hstatic : m.builtin = false) :
    unlink m a.handle s = some { s with
      modules := l₁ ++ a :: l₂
      used := s.used.erase m.handle
      loaded := s.loaded.erase (m.handle, m.id) } := by
  have hsplit : s.modules = (l₁ ++ [a]) ++ n :: l₂ := by rw [hmodules]; simp
  have ha : a.handle ∉ handles l₁ := by
    intro h
    rw [hmodules, handles_append] at hnodup
    exact (List.nodup_append.mp hnodup).2.2 _ h _ List.mem_cons_self rfl
  have hn' : n.handle ∉ handles (l₁ ++ [a]) := by
    intro h
    rw [hsplit, handles_append] at hnodup
    exact (List.nodup_append.mp hnodup).2.2 _ h _ List.mem_cons_self rfl
  have hmem : a.handle ∈ handles s.modules ∧ m.handle ∈ handles s.modules ∧
      m.builtin = false := by
    rw [hmodules, ← hn]
    exact ⟨mem_handles (by simp), mem_handles (by simp), hstatic⟩
  have hthrough : through a.handle s.modules = l₁ ++ [a] := by
    rw [hmodules, through_append a (n :: l₂) ha]
  have hdrop : (s.modules.dropWhile fun k => k.handle ≠ m.handle).tail = l₂ := by
    rw [hsplit, ← hn, dropWhile_handle n l₂ hn', List.tail_cons]
  rw [unlink, if_pos hmem, hthrough, hdrop, List.append_assoc, List.singleton_append]

/-- The store after a module has been taken out. -/
def removed (l₁ : List (CexpModuleRec dm)) (a m : CexpModuleRec dm)
    (l₂ : List (CexpModuleRec dm)) (s : Store dm) : Store dm where
  modules := (l₁ ++ a :: l₂).map (clearDependency m.id)
  id := s.id
  used := s.used.erase m.handle
  loaded := s.loaded.erase (m.handle, m.id)

theorem unlink_removed {l₁ l₂ : List (CexpModuleRec dm)} {a m : CexpModuleRec dm}
    {s s' : Store dm} (hmodules : s.modules = l₁ ++ a :: m :: l₂)
    (hnodup : (handles s.modules).Nodup) (hsame : SameStore (clearDependencies m.id s) s')
    (hstatic : m.builtin = false) : unlink m a.handle s' = some (removed l₁ a m l₂ s') := by
  have hs' : s'.modules = l₁.map (clearDependency m.id) ++ clearDependency m.id a ::
      clearDependency m.id m :: l₂.map (clearDependency m.id) := by
    rw [hsame.modules, clearDependencies, hmodules]
    simp
  have hhandles : handles s'.modules = handles s.modules := by
    rw [hsame.modules, clearDependencies, handles, List.map_map]
    rfl
  have heq := unlink_eq hs' (hhandles ▸ hnodup)
    (show (clearDependency m.id m).handle = m.handle from rfl) hstatic
  rw [removed, List.map_append, List.map_cons]
  exact heq

/-- The other modules differ from the one that is taken out in a field that is unique. -/
theorem ne_of_perm_cons {α : Type} (f : CexpModuleRec dm → α) {modules l : List (CexpModuleRec dm)}
    {m : CexpModuleRec dm} (hperm : modules.Perm (m :: l)) (hnodup : (modules.map f).Nodup) :
    ∀ n ∈ l, f n ≠ f m := by
  have hcons := (hperm.map f).nodup_iff.mp hnodup
  rw [List.map_cons, List.nodup_cons] at hcons
  intro n hn heq
  exact hcons.1 (heq ▸ List.mem_map_of_mem hn)

/-- Taking out a module that nobody needs keeps the invariants. -/
theorem removed_inv {l₁ l₂ : List (CexpModuleRec dm)} {a m : CexpModuleRec dm}
    {s s' : Store dm} (hs : s.Inv) (hmodules : s.modules = l₁ ++ a :: m :: l₂)
    (hzero : m.neededby.isZero = true) (hsame : SameStore (clearDependencies m.id s) s') :
    (removed l₁ a m l₂ s').Inv := by
  have hused : s'.used = s.used := hsame.used
  have hloaded : s'.loaded = s.loaded := hsame.loaded
  have hsub : (l₁ ++ a :: l₂).Sublist (l₁ ++ a :: m :: l₂) :=
    List.Sublist.append_left (List.Sublist.cons_cons a (List.sublist_cons_self m l₂)) l₁
  have hmem : ∀ n ∈ l₁ ++ a :: l₂, n ∈ s.modules := fun n hn => hmodules ▸ hsub.subset hn
  have hm : m ∈ s.modules := by
    rw [hmodules]
    simp
  have hperm : s.modules.Perm (m :: (l₁ ++ a :: l₂)) := by
    have hmiddle : (l₁ ++ [a] ++ m :: l₂).Perm (m :: (l₁ ++ [a] ++ l₂)) := List.perm_middle
    rw [hmodules]
    simpa using hmiddle
  have hids := ne_of_perm_cons CexpModuleRec.id hperm hs.ids_nodup
  have hhandles := ne_of_perm_cons CexpModuleRec.handle hperm hs.handles_nodup
  -- nobody needs the module that is taken out
  have hunneeded : ∀ n ∈ l₁ ++ a :: l₂, n.needs.tst m.id = false := by
    intro n hn
    rw [← hs.mirror m hm n (hmem n hn)]
    exact (Bitmap.isZero_iff _).mp hzero n.id (hs.ids_lt n (hmem n hn))
  have hstays : ∀ k, k ≠ m.id → (∃ n ∈ s.modules, n.id = k) →
      ∃ n ∈ (l₁ ++ a :: l₂).map (clearDependency m.id), n.id = k := by
    rintro k hk ⟨n, hn, rfl⟩
    rcases List.mem_cons.mp (hperm.mem_iff.mp hn) with rfl | hn
    · exact absurd rfl hk
    · exact ⟨clearDependency m.id n, List.mem_map_of_mem hn, rfl⟩
  constructor
  · exact hsame.static hs.static
  · intro n' hn'
    obtain ⟨n, hn, rfl⟩ := List.mem_map.mp hn'
    exact hs.ids_lt n (hmem n hn)
  · rw [removed, List.map_map]
    exact (hmodules ▸ hs.ids_nodup).sublist (hsub.map _)
  · rw [removed, List.map_map]
    exact (hmodules ▸ hs.names_nodup).sublist (hsub.map _)
  · rw [removed, handles, List.map_map]
    exact (hmodules ▸ hs.handles_nodup).sublist (hsub.map _)
  · intro h hh
    rw [removed, handles, List.map_map] at hh
    obtain ⟨n, hn, rfl⟩ := List.mem_map.mp hh
    rw [removed, hused]
    exact (List.mem_erase_of_ne (hhandles n hn)).mpr
      (hs.handles_used n.handle (mem_handles (hmem n hn)))
  · intro k' hk' n' hn'
    obtain ⟨k, hk, rfl⟩ := List.mem_map.mp hk'
    obtain ⟨n, hn, rfl⟩ := List.mem_map.mp hn'
    have hne : (clearDependency m.id n).id ≠ m.id := hids n hn
    rw [tst_clearDependency, decide_eq_true hne, Bool.and_true]
    exact hs.mirror k (hmem k hk) n (hmem n hn)
  · intro n' hn' k hk
    obtain ⟨n, hn, rfl⟩ := List.mem_map.mp hn'
    have hbit : n.needs.tst k = true := hk
    refine hstays k ?_ (hs.needs_loaded n (hmem n hn) k hk)
    rintro rfl
    rw [hunneeded n hn] at hbit
    cases hbit
  · intro n' hn' k hk
    obtain ⟨n, hn, rfl⟩ := List.mem_map.mp hn'
    rw [tst_clearDependency, Bool.and_eq_true, decide_eq_true_eq] at hk
    exact hstays k hk.2 (hs.neededby_loaded n (hmem n hn) k hk.1)
  · have hnot : (m.handle, m.id) ∉ l₁.map fun n => (n.handle, n.id) := by
      intro h
      obtain ⟨n, hn, heq⟩ := List.mem_map.mp h
      exact hhandles n (List.mem_append_left _ hn) (congrArg Prod.fst heq)
    have hne : (a.handle, a.id) ≠ (m.handle, m.id) := fun heq =>
      hhandles a (by simp) (congrArg Prod.fst heq)
    show s'.loaded.erase (m.handle, m.id) =
      ((l₁ ++ a :: l₂).map (clearDependency m.id)).map fun n => (n.handle, n.id)
    rw [hloaded, hs.loaded_eq, hmodules, List.map_append, List.map_cons, List.map_cons,
      List.erase_append_right _ hnot, List.erase_cons_tail (by simpa using hne),
      List.erase_cons_head, List.map_map, List.map_append, List.map_cons]
    rfl

/-! ## Requests -/

/-- The lists of requests, with those that callbacks make. -/
theorem requests_induction {motive : List Request → Prop} (nil : motive [])
    (load : ∀ args callbacks rs, motive callbacks → motive rs →
      motive (.load args callbacks :: rs))
    (unload : ∀ mod finalizer rejects destructors rs, motive finalizer → motive destructors →
      motive rs → motive (.unload mod finalizer rejects destructors :: rs))
    (rs : List Request) : motive rs := by
  have hrequest : ∀ r : Request, ∀ rs, motive rs → motive (r :: rs) := by
    intro r
    refine Request.rec ?_ ?_ nil ?_ r
    · exact fun args callbacks hcallbacks rs => load args callbacks rs hcallbacks
    · exact fun mod finalizer rejects destructors hfinalizer hdestructors rs =>
        unload mod finalizer rejects destructors rs hfinalizer hdestructors
    · exact fun _ rs hr hrs => hr rs hrs
  induction rs with
  | nil => exact nil
  | cons r rs ih => exact hrequest r rs ih

section

variable {host : Host} {s s' : Store host.dm} {resp : Response}

theorem requests_nil_some (h : requests host [] s = some s') : s' = s := by
  rw [requests] at h
  exact (Option.some.inj h).symm

theorem requests_cons_some {r : Request} {rs : List Request}
    (h : requests host (r :: rs) s = some s') :
    ∃ s₁ resp, request host r s = some (s₁, resp) ∧ requests host rs s₁ = some s' := by
  rw [requests] at h
  split at h
  · cases h
  · next s₁ resp hr => exact ⟨s₁, resp, hr, h⟩

/-- The steps of a load that comes to an end. -/
inductive LoadRun (host : Host) (args : LoadArgs) (callbacks : List Request)
    (s s' : Store host.dm) : Response → Prop where
  | refused (hprepare : prepareLoad host args s = .refused s') :
      LoadRun host args callbacks s s' .refused
  | loaded {nmod : CexpModuleRec host.dm} {tail : Option CexpModule} {s₁ s₂ : Store host.dm}
      (hprepare : prepareLoad host args s = .ready nmod tail s₁)
      (hcallbacks : requests host callbacks s₁ = some s₂)
      (hfinish : finishLoad nmod tail s₂ = some s') :
      LoadRun host args callbacks s s' (.loaded nmod.handle)

theorem load_run {args : LoadArgs} {callbacks : List Request}
    (h : request host (.load args callbacks) s = some (s', resp)) :
    LoadRun host args callbacks s s' resp := by
  rw [request] at h
  split at h
  · next hprepare =>
    cases h
    exact .refused hprepare
  · cases h
  · next nmod tail s₁ hprepare =>
    split at h
    · cases h
    · next s₂ hcallbacks =>
      obtain ⟨s₃, hfinish, heq⟩ := Option.map_eq_some_iff.mp h
      cases heq
      exact .loaded hprepare hcallbacks hfinish

/-- The steps of an unload that comes to an end. -/
inductive UnloadRun (host : Host) (mod : CexpModule) (finalizer : List Request) (rejects : Bool)
    (destructors : List Request) (s s' : Store host.dm) : Response → Prop where
  | refused (hcheck : checkUnload mod s = none) (hs' : s' = s) :
      UnloadRun host mod finalizer rejects destructors s s' .refused
  | rejected {m : CexpModuleRec host.dm} {pred : CexpModule}
      (hcheck : checkUnload mod s = some (m, pred))
      (hfinalizer : requests host finalizer s = some s') (hrejects : rejects = true) :
      UnloadRun host mod finalizer rejects destructors s s' .refused
  | unloaded {m : CexpModuleRec host.dm} {pred : CexpModule} {s₁ s₂ : Store host.dm}
      (hcheck : checkUnload mod s = some (m, pred))
      (hfinalizer : requests host finalizer s = some s₁) (hrejects : rejects = false)
      (hdestructors : requests host destructors (clearDependencies m.id s₁) = some s₂)
      (hunlink : unlink m pred s₂ = some s') :
      UnloadRun host mod finalizer rejects destructors s s' .unloaded

theorem unload_run {mod : CexpModule} {finalizer destructors : List Request} {rejects : Bool}
    (h : request host (.unload mod finalizer rejects destructors) s = some (s', resp)) :
    UnloadRun host mod finalizer rejects destructors s s' resp := by
  rw [request] at h
  split at h
  · next hcheck =>
    cases h
    exact .refused hcheck rfl
  · next m pred hcheck =>
    split at h
    · cases h
    · next s₁ hfinalizer =>
      cases rejects with
      | true =>
        cases h
        exact .rejected hcheck hfinalizer rfl
      | false =>
        rw [if_neg Bool.false_ne_true] at h
        split at h
        · cases h
        · next s₂ hdestructors =>
          obtain ⟨s₃, hunlink, heq⟩ := Option.map_eq_some_iff.mp h
          cases heq
          exact .unloaded hcheck hfinalizer rfl hdestructors hunlink

end

mutual

/-- The callbacks of the request achieve nothing: whatever they request is refused. -/
def Quiet (host : Host) : Request → Store host.dm → Prop
  | .load args callbacks, s =>
    match prepareLoad host args s with
    | .ready _ _ s => AllRefused host callbacks s
    | _ => True
  | .unload mod finalizer rejects destructors, s =>
    match checkUnload mod s with
    | none => True
    | some (m, _) =>
      AllRefused host finalizer s ∧
        ∀ s', requests host finalizer s = some s' → rejects = false →
          AllRefused host destructors (clearDependencies m.id s')

def AllRefused (host : Host) : List Request → Store host.dm → Prop
  | [], _ => True
  | r :: rs, s =>
    Quiet host r s ∧ ∃ s', request host r s = some (s', .refused) ∧ AllRefused host rs s'

end

theorem allRefused_same {host : Host} (rs : List Request) {s s' : Store host.dm}
    (hq : AllRefused host rs s) (h : requests host rs s = some s') : SameStore s s' := by
  induction rs using requests_induction generalizing s s' with
  | nil =>
    rw [requests_nil_some h]
    exact SameStore.refl s
  | load args callbacks rs _ ih =>
    rw [AllRefused] at hq
    obtain ⟨-, s₁, hr, hrest⟩ := hq
    rw [requests, hr] at h
    cases load_run hr with
    | refused hprepare => exact (prepareLoad_refused hprepare).trans (ih hrest h)
  | unload mod finalizer rejects destructors rs ihfinalizer _ ih =>
    rw [AllRefused] at hq
    obtain ⟨hquiet, s₁, hr, hrest⟩ := hq
    rw [requests, hr] at h
    cases unload_run hr with
    | refused _ hs₁ =>
      subst hs₁
      exact ih hrest h
    | rejected hcheck hfinalizer _ =>
      rw [Quiet, hcheck] at hquiet
      exact (ihfinalizer hquiet.1 hfinalizer).trans (ih hrest h)

/-- What a request can do. -/
inductive Outcome (host : Host) (r : Request) (s s' : Store host.dm) : Response → Prop where
  | refused (hsame : SameStore s s') : Outcome host r s s' .refused
  | loaded {args : LoadArgs} {callbacks : List Request} {nmod : CexpModuleRec host.dm}
      {s₁ : Store host.dm} (hr : r = .load args callbacks) (hnew : NewModule host args s nmod)
      (hsame : SameStore { s with id := nmod.id, used := nmod.handle :: s.used } s₁)
      (hs' : s' = appended nmod s₁) : Outcome host r s s' (.loaded nmod.handle)
  | unloaded {finalizer destructors : List Request} {l₁ l₂ : List (CexpModuleRec host.dm)}
      {a m : CexpModuleRec host.dm} {s₁ : Store host.dm}
      (hr : r = .unload m.handle finalizer false destructors)
      (hmodules : s.modules = l₁ ++ a :: m :: l₂) (hzero : m.neededby.isZero = true)
      (hstatic : m.builtin = false) (hsame : SameStore (clearDependencies m.id s) s₁)
      (hs' : s' = removed l₁ a m l₂ s₁) : Outcome host r s s' .unloaded

theorem request_outcome {host : Host} {r : Request} {s s' : Store host.dm} {resp : Response}
    (hs : s.Inv) (hq : Quiet host r s) (h : request host r s = some (s', resp)) :
    Outcome host r s s' resp := by
  cases r with
  | load args callbacks =>
    rw [Quiet] at hq
    cases load_run h with
    | refused hprepare => exact .refused (prepareLoad_refused hprepare)
    | @loaded nmod tail s₁ s₂ hprepare hcallbacks hfinish =>
      rw [hprepare] at hq
      obtain ⟨hnew, rfl, rfl⟩ := prepareLoad_ready hprepare
      have hsame := allRefused_same callbacks hq hcallbacks
      have hmodules : s₂.modules = s.modules := hsame.modules
      have hlast := finishLoad_last nmod (hmodules ▸ hs.handles_nodup : (handles s₂.modules).Nodup)
      rw [hmodules, hfinish] at hlast
      cases hlast
      exact .loaded rfl hnew hsame rfl
  | unload mod finalizer rejects destructors =>
    rw [Quiet] at hq
    cases unload_run h with
    | refused _ hs' =>
      rw [hs']
      exact .refused (SameStore.refl s)
    | rejected hcheck hfinalizer _ =>
      rw [hcheck] at hq
      exact .refused (allRefused_same finalizer hq.1 hfinalizer)
    | @unloaded m pred s₁ s₂ hcheck hfinalizer hrejects hdestructors hunlink =>
      rw [hcheck] at hq
      obtain ⟨l₁, a, l₂, hmodules, rfl, rfl, hzero⟩ := checkUnload_some hs.handles_nodup hcheck
      have hsame := allRefused_same finalizer hq.1 hfinalizer
      have hsame₂ := allRefused_same destructors (hq.2 s₁ hfinalizer hrejects) hdestructors
      have hclear : SameStore (clearDependencies m.id s) (clearDependencies m.id s₁) :=
        ⟨congrArg (List.map (clearDependency m.id)) hsame.modules, hsame.used, hsame.loaded,
          hsame.static⟩
      have hsame' := hclear.trans hsame₂
      have hstatic := unlink_static hunlink
      rw [unlink_removed hmodules hs.handles_nodup hsame' hstatic] at hunlink
      cases hunlink
      rw [hrejects]
      exact .unloaded rfl hmodules hzero hstatic hsame' rfl

theorem Outcome.inv {host : Host} {r : Request} {s s' : Store host.dm} {resp : Response}
    (h : Outcome host r s s' resp) (hs : s.Inv) : s'.Inv := by
  cases h with
  | refused hsame => exact hsame.inv hs
  | loaded _ hnew hsame hs' => exact hs' ▸ appended_inv hs hnew hsame
  | unloaded _ hmodules hzero _ hsame hs' => exact hs' ▸ removed_inv hs hmodules hzero hsame

/-! ## Runs -/

/-- All requests of the run are quiet in the states in which they are made. -/
def QuietRun (host : Host) : List Request → Store host.dm → Prop
  | [], _ => True
  | r :: rs, s =>
    Quiet host r s ∧ ∀ s' resp, request host r s = some (s', resp) → QuietRun host rs s'

theorem requests_inv {host : Host} {rs : List Request} {s s' : Store host.dm} (hs : s.Inv)
    (hq : QuietRun host rs s) (h : requests host rs s = some s') : s'.Inv := by
  induction rs generalizing s with
  | nil =>
    rw [requests_nil_some h]
    exact hs
  | cons r rs ih =>
    obtain ⟨s₁, resp, hr, hrest⟩ := requests_cons_some h
    exact ih ((request_outcome hs hq.1 hr).inv hs) (hq.2 s₁ resp hr) hrest

end Cexp
