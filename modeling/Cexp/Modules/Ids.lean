import Cexp.Modules.Consistency
import Cexp.Modules.Unloads

/-!
# Ids of modules

`idAlloc` looks at the ids behind the one it gave out last, around the end of the range, and stops
when it is back at that one (`idSearch_none_iff`). It does not look at that one itself, so it fails
with 255 modules when it is the id that is left (`idLaw_iff`).
-/

namespace Cexp

variable {dm : DataModel}

/-! ## The loop -/

/-- The loop of `idAlloc` ends with the result when it is at `newId`. -/
inductive IdLoop (inUse : Bitmap dm) (id : Nat) : Nat → Option Nat → Prop where
  | back {newId : Nat} (h : (newId + 1) % MAX_NUM_MODULES = id) : IdLoop inUse id newId none
  | next {newId : Nat} {result : Option Nat} (h : (newId + 1) % MAX_NUM_MODULES ≠ id)
      (hused : inUse.tst ((newId + 1) % MAX_NUM_MODULES) = true)
      (hrest : IdLoop inUse id ((newId + 1) % MAX_NUM_MODULES) result) :
      IdLoop inUse id newId result
  | found {newId : Nat} (h : (newId + 1) % MAX_NUM_MODULES ≠ id)
      (hfree : inUse.tst ((newId + 1) % MAX_NUM_MODULES) = false) :
      IdLoop inUse id newId (some ((newId + 1) % MAX_NUM_MODULES))

/-- The search goes round once: it is back at `id` after `MAX_NUM_MODULES` steps, not before. -/
theorem round_step {id d : Nat} (hid : id < MAX_NUM_MODULES) (hd : d < MAX_NUM_MODULES) :
    ((id + d) % MAX_NUM_MODULES + 1) % MAX_NUM_MODULES = (id + (d + 1)) % MAX_NUM_MODULES ∧
      ((id + (d + 1)) % MAX_NUM_MODULES = id ↔ d + 1 = MAX_NUM_MODULES) := by
  rw [MAX_NUM_MODULES] at *
  omega

theorem idSearch_loop {inUse : Bitmap dm} {id d n : Nat} (hid : id < MAX_NUM_MODULES)
    (hd : d < MAX_NUM_MODULES) (hn : d + n = MAX_NUM_MODULES) :
    IdLoop inUse id ((id + d) % MAX_NUM_MODULES)
      (idSearch inUse id n ((id + d) % MAX_NUM_MODULES)) := by
  induction n generalizing d with
  | zero => omega
  | succ n ih =>
    obtain ⟨hstep, hback⟩ := round_step hid hd
    rw [idSearch]
    by_cases hid' : ((id + d) % MAX_NUM_MODULES + 1) % MAX_NUM_MODULES = id
    · rw [if_pos hid']
      exact .back hid'
    · rw [if_neg hid']
      cases hused : inUse.tst (((id + d) % MAX_NUM_MODULES + 1) % MAX_NUM_MODULES) with
      | true =>
        have hlt : d + 1 < MAX_NUM_MODULES := by
          rw [hstep, hback] at hid'
          omega
        have hrest := ih hlt (by omega)
        rw [← hstep] at hrest
        exact .next hid' hused hrest
      | false => exact .found hid' hused

/-- The search fails exactly if all ids between `d` steps and a whole round behind `id` are in
use. -/
theorem idSearch_none_iff {inUse : Bitmap dm} {id d n : Nat} (hid : id < MAX_NUM_MODULES)
    (hn : d + n = MAX_NUM_MODULES) :
    idSearch inUse id n ((id + d) % MAX_NUM_MODULES) = none ↔
      ∀ e, d < e → e < MAX_NUM_MODULES → inUse.tst ((id + e) % MAX_NUM_MODULES) = true := by
  induction n generalizing d with
  | zero =>
    rw [idSearch]
    refine iff_of_true rfl ?_
    intro e hde he
    omega
  | succ n ih =>
    obtain ⟨hstep, hback⟩ := round_step hid (show d < MAX_NUM_MODULES by omega)
    rw [idSearch, hstep]
    by_cases hd : d + 1 = MAX_NUM_MODULES
    · rw [if_pos (hback.mpr hd)]
      refine iff_of_true rfl ?_
      intro e hde he
      omega
    · rw [if_neg (fun h => hd (hback.mp h))]
      cases hused : inUse.tst ((id + (d + 1)) % MAX_NUM_MODULES) with
      | true =>
        rw [if_pos rfl, ih (by omega)]
        constructor
        · intro h e hde he
          rcases Nat.eq_or_lt_of_le (Nat.succ_le_of_lt hde) with rfl | hlt
          · exact hused
          · exact h e hlt he
        · intro h e hde he
          exact h e (by omega) he
      | false =>
        rw [if_neg Bool.false_ne_true]
        refine iff_of_false (by simp) ?_
        intro h
        have htrue := h (d + 1) (Nat.lt_succ_self d) (by omega)
        rw [hused] at htrue
        cases htrue

/-- Every other id is some steps behind `id`. -/
theorem exists_steps {id k : Nat} (hid : id < MAX_NUM_MODULES) (hk : k < MAX_NUM_MODULES)
    (hne : k ≠ id) : ∃ e, 0 < e ∧ e < MAX_NUM_MODULES ∧ (id + e) % MAX_NUM_MODULES = k := by
  rw [MAX_NUM_MODULES] at *
  refine ⟨(k + (256 - id)) % 256, ?_, ?_, ?_⟩ <;> omega

/-- `idAlloc` fails exactly if all ids but the last one that it gave out are in use. -/
theorem idAlloc_none_iff {modules : List (CexpModuleRec dm)} {id : Nat}
    (hid : id < MAX_NUM_MODULES) : idAlloc modules id = none ↔
      ∀ k, k < MAX_NUM_MODULES → k ≠ id → ∃ m ∈ modules, m.id = k := by
  have hsearch := @idSearch_none_iff dm (usedIds modules) id 0 _ hid (Nat.zero_add _)
  rw [Nat.add_zero, Nat.mod_eq_of_lt hid] at hsearch
  rw [idAlloc, hsearch]
  constructor
  · intro h k hk hne
    obtain ⟨e, hpos, hlt, rfl⟩ := exists_steps hid hk hne
    exact (tst_usedIds modules _).mp (h e hpos hlt)
  · intro h e hpos hlt
    refine (tst_usedIds modules _).mpr (h _ (Nat.mod_lt _ (Nat.zero_lt_of_lt hid)) ?_)
    rw [MAX_NUM_MODULES] at *
    omega

/-! ## What an allocator should do -/

/-- The allocator stops, gives out an id that is free, and fails only if none is. -/
structure IdLaw (modules : List (CexpModuleRec dm)) (id : Nat) : Prop where
  terminates : IdLoop (usedIds modules) id id (idAlloc modules id)
  fresh : ∀ k, idAlloc modules id = some k →
    k < MAX_NUM_MODULES ∧ ∀ m ∈ modules, m.id ≠ k
  succeeds : modules.length < MAX_NUM_MODULES → idAlloc modules id ≠ none
  full : idAlloc modules id = none → ∀ k, k < MAX_NUM_MODULES → ∃ m ∈ modules, m.id = k

/-- The static variable of `idAlloc` and the ids of the modules are in range. -/
structure InRange (s : Store dm) : Prop where
  static : s.id < MAX_NUM_MODULES
  ids : ∀ i ∈ s.modules.map CexpModuleRec.id, i < MAX_NUM_MODULES

/-- If all ids are in use, there are as many modules. -/
theorem le_length_of_full {modules : List (CexpModuleRec dm)}
    (h : ∀ k, k < MAX_NUM_MODULES → ∃ m ∈ modules, m.id = k) :
    MAX_NUM_MODULES ≤ modules.length := by
  have hsub : List.range MAX_NUM_MODULES ⊆ modules.map CexpModuleRec.id := by
    intro k hk
    obtain ⟨m, hm, rfl⟩ := h k (List.mem_range.mp hk)
    exact List.mem_map_of_mem hm
  have hle := (List.subperm_of_subset List.nodup_range hsub).length_le
  rw [List.length_range, List.length_map] at hle
  exact hle

theorem idLaw_iff {modules : List (CexpModuleRec dm)} {id : Nat} (hid : id < MAX_NUM_MODULES) :
    IdLaw modules id ↔ (∃ m ∈ modules, m.id = id) ∨
      ∃ k, k < MAX_NUM_MODULES ∧ k ≠ id ∧ ∀ m ∈ modules, m.id ≠ k := by
  constructor
  · intro h
    by_cases hother : ∃ k, k < MAX_NUM_MODULES ∧ k ≠ id ∧ ∀ m ∈ modules, m.id ≠ k
    · exact Or.inr hother
    · have hnone : idAlloc modules id = none := by
        rw [idAlloc_none_iff hid]
        intro k hk hne
        by_contra hfree
        exact hother ⟨k, hk, hne, fun m hm heq => hfree ⟨m, hm, heq⟩⟩
      exact Or.inl (h.full hnone id hid)
  · intro h
    have hfull : idAlloc modules id = none →
        ∀ k, k < MAX_NUM_MODULES → ∃ m ∈ modules, m.id = k := by
      intro hnone k hk
      have hused := (idAlloc_none_iff hid).mp hnone
      rcases h with hstatic | ⟨j, hj, hne, hfree⟩
      · by_cases hk' : k = id
        · rw [hk']
          exact hstatic
        · exact hused k hk hk'
      · obtain ⟨m, hm, heq⟩ := hused j hj hne
        exact absurd heq (hfree m hm)
    have hloop := @idSearch_loop dm (usedIds modules) id 0 _ hid (Nat.zero_lt_of_lt hid)
      (Nat.zero_add _)
    rw [Nat.add_zero, Nat.mod_eq_of_lt hid] at hloop
    refine ⟨hloop, fun k hk => idAlloc_some hk, ?_, hfull⟩
    intro hlt hnone
    have hle := le_length_of_full (hfull hnone)
    omega

/-! ## Histories -/

/-- The stores in which requests are made: after the requests of a history, and in the callbacks
of a load or an unload that is going on. -/
inductive Reached (host : Host) : Store host.dm → Prop where
  | init : Reached host Store.init
  | request {r : Request} {s s' : Store host.dm} {resp : Response} (hs : Reached host s)
      (h : request host r s = some (s', resp)) : Reached host s'
  | callbacks {args : LoadArgs} {s s' : Store host.dm} {nmod : CexpModuleRec host.dm}
      {tail : Option CexpModule} (hs : Reached host s)
      (h : prepareLoad host args s = .ready nmod tail s') : Reached host s'
  | destructors {mod pred : CexpModule} {s s' : Store host.dm} {m : CexpModuleRec host.dm}
      {finalizer : List Request} (hs : Reached host s) (h : checkUnload mod s = some (m, pred))
      (hfinalizer : requests host finalizer s = some s') :
      Reached host (clearDependencies m.id s')

theorem InRange.of_sublist {s s' : Store dm} (hs : InRange s) (hid : s'.id < MAX_NUM_MODULES)
    (hsub : (s'.modules.map CexpModuleRec.id).Sublist (s.modules.map CexpModuleRec.id)) :
    InRange s' := ⟨hid, fun i hi => hs.ids i (hsub.subset hi)⟩

theorem SameStore.inRange {s s' : Store dm} (h : SameStore s s') (hs : InRange s) :
    InRange s' := by
  refine hs.of_sublist (h.static hs.static) ?_
  rw [h.modules]

theorem clearDependencies_inRange {s : Store dm} (hs : InRange s) (id : Nat) :
    InRange (clearDependencies id s) := by
  refine hs.of_sublist hs.static ?_
  rw [clearDependencies, List.map_map]
  exact List.Sublist.refl _

theorem prepareLoad_inRange {host : Host} {args : LoadArgs} {s s' : Store host.dm}
    {nmod : CexpModuleRec host.dm} {tail : Option CexpModule} (hs : InRange s)
    (h : prepareLoad host args s = .ready nmod tail s') :
    InRange s' ∧ nmod.id < MAX_NUM_MODULES := by
  obtain ⟨hnew, -, rfl⟩ := prepareLoad_ready h
  exact ⟨⟨hnew.id_lt, hs.ids⟩, hnew.id_lt⟩

theorem finishLoad_inRange {nmod : CexpModuleRec dm} {tail : Option CexpModule} {s s' : Store dm}
    (hs : InRange s) (hnew : nmod.id < MAX_NUM_MODULES) (h : finishLoad nmod tail s = some s') :
    InRange s' := by
  obtain ⟨modules, hchain, rfl⟩ := Option.map_eq_some_iff.mp h
  have hids : (addDependencies nmod s.modules).map CexpModuleRec.id =
      s.modules.map CexpModuleRec.id :=
    map_addDependencies _ nmod (fun m => addDependency_id nmod m) s.modules
  refine ⟨hs.static, ?_⟩
  intro i hi
  cases tail with
  | none =>
    cases hchain
    rw [List.map_singleton, List.mem_singleton] at hi
    rw [hi]
    exact hnew
  | some t =>
    rw [chain] at hchain
    split at hchain
    · cases hchain
      rw [List.map_append, List.mem_append, List.map_singleton, List.mem_singleton] at hi
      rcases hi with hi | rfl
      · have hsub := (through_sublist t (addDependencies nmod s.modules)).map CexpModuleRec.id
        rw [hids] at hsub
        exact hs.ids i (hsub.subset hi)
      · exact hnew
    · cases hchain

theorem unlink_inRange {m : CexpModuleRec dm} {pred : CexpModule} {s s' : Store dm}
    (hs : InRange s) (h : unlink m pred s = some s') : InRange s' := by
  rw [unlink] at h
  split at h
  · cases h
    refine ⟨hs.static, ?_⟩
    intro i hi
    rw [List.map_append, List.mem_append] at hi
    rcases hi with hi | hi
    · exact hs.ids i (((through_sublist pred s.modules).map _).subset hi)
    · have hsub := (List.tail_sublist _).trans
        (List.dropWhile_sublist (l := s.modules) fun n => n.handle ≠ m.handle)
      exact hs.ids i ((hsub.map _).subset hi)
  · cases h

theorem requests_inRange {host : Host} (rs : List Request) {s s' : Store host.dm} (hs : InRange s)
    (h : requests host rs s = some s') : InRange s' := by
  induction rs using requests_induction generalizing s s' with
  | nil =>
    rw [requests_nil_some h]
    exact hs
  | load args callbacks rs ihcallbacks ih =>
    obtain ⟨s₁, resp, hr, hrest⟩ := requests_cons_some h
    refine ih ?_ hrest
    cases load_run hr with
    | refused hprepare => exact (prepareLoad_refused hprepare).inRange hs
    | loaded hprepare hcallbacks hfinish =>
      obtain ⟨hready, hnew⟩ := prepareLoad_inRange hs hprepare
      exact finishLoad_inRange (ihcallbacks hready hcallbacks) hnew hfinish
  | unload mod finalizer rejects destructors rs ihfinalizer ihdestructors ih =>
    obtain ⟨s₁, resp, hr, hrest⟩ := requests_cons_some h
    refine ih ?_ hrest
    cases unload_run hr with
    | refused _ hs₁ =>
      rw [hs₁]
      exact hs
    | rejected _ hfinalizer _ => exact ihfinalizer hs hfinalizer
    | @unloaded m _ _ _ _ hfinalizer _ hdestructors hunlink =>
      have hcleared := clearDependencies_inRange (ihfinalizer hs hfinalizer) m.id
      exact unlink_inRange (ihdestructors hcleared hdestructors) hunlink

theorem Reached.inRange {host : Host} {s : Store host.dm} (h : Reached host s) : InRange s := by
  induction h with
  | init =>
    refine ⟨Nat.sub_lt (Nat.succ_pos _) Nat.one_pos, ?_⟩
    intro i hi
    cases hi
  | @request r _ _ _ _ hr ih =>
    refine requests_inRange [r] ih ?_
    rw [requests, hr]
    rfl
  | callbacks _ hprepare ih => exact (prepareLoad_inRange ih hprepare).1
  | destructors _ _ hfinalizer ih =>
    exact clearDependencies_inRange (requests_inRange _ ih hfinalizer) _

/-- Whenever an id is asked for, the allocator does what it should exactly if the id that it gave
out last is in use or another one is free. -/
theorem idAlloc_complete_iff {host : Host} {s : Store host.dm} (h : Reached host s) :
    IdLaw s.modules s.id ↔ (∃ m ∈ s.modules, m.id = s.id) ∨
      ∃ k, k < MAX_NUM_MODULES ∧ k ≠ s.id ∧ ∀ m ∈ s.modules, m.id ≠ k :=
  idLaw_iff h.inRange.static

/-! ## A history that uses up the ids -/

/-- A name of `n + 1` letters. -/
def longName (n : Nat) : CStr where
  bytes := List.replicate (n + 1) 97
  noNul h := by
    have heq := List.eq_of_mem_replicate h
    contradiction

/-- Load the builtin symbols as a module with its own name. -/
def loadNumbered (n : Nat) : LoadArgs := { loadSystem with modulename := some (longName n) }

/-- `n` modules are loaded. -/
structure Numbered (n : Nat) (s : Store dm) : Prop where
  static : s.id = (n + (MAX_NUM_MODULES - 1)) % MAX_NUM_MODULES
  ids : s.modules.map CexpModuleRec.id = List.range n
  names : s.modules.map CexpModuleRec.name = (List.range n).map longName
  handles_nodup : (handles s.modules).Nodup
  handles_used : ∀ h ∈ handles s.modules, h ∈ s.used

theorem longName_injective : Function.Injective longName := by
  intro a b h
  have hlength := congrArg (fun x => x.bytes.length) h
  simp only [longName, List.length_replicate] at hlength
  omega

/-- The next id is that of the next module. -/
theorem Numbered.idAlloc {n : Nat} {s : Store dm} (hs : Numbered n s)
    (hn : n < MAX_NUM_MODULES) : idAlloc s.modules s.id = some n := by
  have hstep : (s.id + 1) % MAX_NUM_MODULES = n := by
    rw [hs.static]
    rw [MAX_NUM_MODULES] at *
    omega
  have hne : n ≠ s.id := by
    rw [hs.static]
    rw [MAX_NUM_MODULES] at *
    omega
  have hfree : (usedIds s.modules).tst n = false := by
    rw [Bool.eq_false_iff, ne_eq, tst_usedIds]
    rintro ⟨m, hm, hid⟩
    have hmem := List.mem_map_of_mem (f := CexpModuleRec.id) hm
    rw [hs.ids, hid, List.mem_range] at hmem
    exact Nat.lt_irrefl n hmem
  show idSearch (usedIds s.modules) s.id (255 + 1) s.id = some n
  rw [idSearch, hstep, if_neg hne, hfree, if_neg Bool.false_ne_true]

/-- What is loaded of the builtin symbols. -/
def systemLinked : Linked dm where
  symtbl := ⟨1, [guessType dm (newSym symbolS), zeroSym]⟩
  builtin := true
  sectionSyms := []
  needs := Bitmap.zero
  bound := []

theorem sort_systemSyms :
    cexpSortSymTbl plainHost.cs (plainHost.qsort CexpSym (cexpNamecomp plainHost.cs))
      ⟨1, [newSym symbolS, zeroSym]⟩ = some ⟨1, [newSym symbolS, zeroSym]⟩ := by
  decide +kernel

theorem loadSource_numbered (modules : List (CexpModuleRec plainHost.dm)) (handle : CexpModule)
    (n : Nat) : loadSource plainHost modules handle (loadNumbered n) = .ok systemLinked := by
  have hbuiltin : (loadNumbered n).builtin = some [newSym symbolS, zeroSym] := rfl
  have hcount : ([newSym symbolS, zeroSym].takeWhile fun s => s.name.isSome).length = 1 := rfl
  show cexpLoadBuiltinSymtab plainHost handle (loadNumbered n) = _
  unfold cexpLoadBuiltinSymtab
  rw [hbuiltin]
  dsimp only
  rw [hcount, sort_systemSyms]
  rfl

theorem Numbered.name_free {n : Nat} {s : Store dm} (hs : Numbered n s) :
    (s.modules.any fun m => m.name = longName n) = false := by
  rw [Bool.eq_false_iff, ne_eq, List.any_eq_true]
  rintro ⟨m, hm, hname⟩
  have hmem := List.mem_map_of_mem (f := CexpModuleRec.name) hm
  rw [hs.names, of_decide_eq_true hname] at hmem
  obtain ⟨k, hk, heq⟩ := List.mem_map.mp hmem
  rw [longName_injective heq, List.mem_range] at hk
  exact Nat.lt_irrefl n hk

theorem Numbered.prepareLoad {n : Nat} {s : Store plainHost.dm} (hs : Numbered n s)
    (hn : n < MAX_NUM_MODULES) : prepareLoad plainHost (loadNumbered n) s =
      .ready (newRecord (plainHost.malloc s.used) (longName n) n systemLinked)
        (handles s.modules).getLast?
        { s with id := n, used := plainHost.malloc s.used :: s.used } := by
  have hname : moduleName (loadNumbered n).filename (loadNumbered n).modulename = longName n := rfl
  rw [Cexp.prepareLoad, hname, hs.name_free, hs.idAlloc hn, loadSource_numbered]
  rfl

/-- The store in which the callbacks of the next module are called. -/
def preparing (n : Nat) (s : Store plainHost.dm) : Store plainHost.dm :=
  { s with id := n, used := plainHost.malloc s.used :: s.used }

theorem Numbered.load {n : Nat} {s : Store plainHost.dm} (hs : Numbered n s)
    (hn : n < MAX_NUM_MODULES) : ∃ s' resp,
      request plainHost (.load (loadNumbered n) []) s = some (s', resp) ∧ Numbered (n + 1) s' := by
  let nmod : CexpModuleRec plainHost.dm :=
    newRecord (plainHost.malloc s.used) (longName n) n systemLinked
  have hfinish := finishLoad_last nmod (s := preparing n s) hs.handles_nodup
  refine ⟨appended nmod (preparing n s), .loaded nmod.handle, ?_, ?_⟩
  · rw [request, hs.prepareLoad hn]
    show (finishLoad nmod (handles (preparing n s).modules).getLast? (preparing n s)).map _ = _
    rw [hfinish]
    rfl
  · have hfresh : nmod.handle ∉ handles s.modules := fun hmem =>
      plainHost.malloc_fresh s.used (hs.handles_used _ hmem)
    constructor
    · show n = (n + 1 + (MAX_NUM_MODULES - 1)) % MAX_NUM_MODULES
      rw [MAX_NUM_MODULES] at *
      omega
    · show (addDependencies nmod s.modules ++ [nmod]).map CexpModuleRec.id = List.range (n + 1)
      rw [List.map_append, map_addDependencies _ _ (fun m => addDependency_id _ m), hs.ids,
        List.range_succ]
      rfl
    · show (addDependencies nmod s.modules ++ [nmod]).map CexpModuleRec.name = _
      rw [List.map_append, map_addDependencies _ _ (fun m => addDependency_name _ m), hs.names,
        List.range_succ, List.map_append]
      rfl
    · show (handles (addDependencies nmod s.modules ++ [nmod])).Nodup
      rw [handles_append, handles_addDependencies]
      refine List.nodup_append.mpr ⟨hs.handles_nodup, List.nodup_singleton _, ?_⟩
      intro a ha b hb heq
      rw [heq, List.mem_singleton.mp hb] at ha
      exact hfresh ha
    · show ∀ h ∈ handles (addDependencies nmod s.modules ++ [nmod]), h ∈ nmod.handle :: s.used
      intro h hh
      rw [handles_append, handles_addDependencies, List.mem_append] at hh
      rcases hh with hh | hh
      · exact List.mem_cons_of_mem _ (hs.handles_used h hh)
      · rw [List.mem_singleton.mp hh]
        exact List.mem_cons_self

/-- `n` modules can be loaded. -/
theorem reached_numbered {n : Nat} (hn : n ≤ MAX_NUM_MODULES) :
    ∃ s, Reached plainHost s ∧ Numbered n s := by
  induction n with
  | zero => exact ⟨Store.init, .init, rfl, rfl, rfl, List.nodup_nil, List.forall_mem_nil _⟩
  | succ n ih =>
    obtain ⟨s, hreached, hs⟩ := ih (Nat.le_of_lt hn)
    obtain ⟨s', resp, hrequest, hs'⟩ := hs.load hn
    exact ⟨s', .request hreached hrequest, hs'⟩

/-- A load for which the memory does not suffice. -/
def loadFailing (n : Nat) : LoadArgs := { loadNumbered n with nameMem := false }

/-- A load that fails has used up an id. -/
theorem Numbered.load_failing {n : Nat} {s : Store plainHost.dm} (hs : Numbered n s)
    (hn : n < MAX_NUM_MODULES) :
    request plainHost (.load (loadFailing n) []) s = some ({ s with id := n }, .refused) := by
  have hname : moduleName (loadFailing n).filename (loadFailing n).modulename = longName n := rfl
  rw [request, Cexp.prepareLoad, hname, hs.name_free, hs.idAlloc hn]
  rfl

/-- 255 modules are loaded, the next load fails, and from then on there is no id any more. -/
theorem idAlloc_not_complete : ∃ s : Store plainHost.dm, Reached plainHost s ∧
    s.modules.length = 255 ∧ idAlloc s.modules s.id = none ∧ ¬IdLaw s.modules s.id := by
  obtain ⟨s, hreached, hs⟩ := reached_numbered (n := 255) (by decide)
  have hlength : s.modules.length = 255 := by
    have hids := congrArg List.length hs.ids
    rw [List.length_map, List.length_range] at hids
    exact hids
  have hnone : idAlloc s.modules 255 = none := by
    rw [idAlloc_none_iff (by decide)]
    intro k hk hne
    have hmem : k ∈ s.modules.map CexpModuleRec.id := by
      rw [hs.ids, List.mem_range]
      rw [MAX_NUM_MODULES] at hk
      omega
    exact List.mem_map.mp hmem
  refine ⟨{ s with id := 255 }, .request hreached (hs.load_failing (by decide)), hlength, hnone, ?_⟩
  intro hlaw
  refine hlaw.succeeds ?_ hnone
  rw [hlength]
  decide

/-- When 255 modules have been loaded there is one id left. -/
theorem idAlloc_complete_numbered : ∃ s : Store plainHost.dm, Reached plainHost s ∧
    s.modules.length = 255 ∧ IdLaw s.modules s.id := by
  obtain ⟨s, hreached, hs⟩ := reached_numbered (n := 255) (by decide)
  have hids := congrArg List.length hs.ids
  rw [List.length_map, List.length_range] at hids
  refine ⟨s, hreached, hids, (idAlloc_complete_iff hreached).mpr (Or.inl ?_)⟩
  have hmem : s.id ∈ s.modules.map CexpModuleRec.id := by
    rw [hs.ids, hs.static]
    decide
  exact List.mem_map.mp hmem

end Cexp
