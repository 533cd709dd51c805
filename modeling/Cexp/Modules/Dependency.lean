import Cexp.Lib.Post
import Cexp.Modules.Consistency
import Cexp.Modules.Tables
import Cexp.Syms.Lookup

/-!
# References to other modules

While a module is linked, relocations, weak and common symbols and recorded section names
are bound to symbols of other modules. All of them but the section names go through
`asymFromCexpSym`, which raises the bit of the owner. A section name that is not in the
table of the new module is looked up in all modules, and nothing is raised for the owner of
what is found. The references are protected if a section name that another module has is always
one of the object's own symbols too, or the object refers to that module in another way
(`SectionNamesCovered`).
-/

namespace Cexp

open CLib

/-- The symbols of the object that go into the table of the new module. -/
def keptSyms (host : Host) (modules : List (CexpModuleRec host.dm)) (file : ObjFile)
    (sections : List Section) : List CexpSym :=
  acceptedSyms (filter sections) (assign host.dm file.vma (textSection sections))
    ((List.range file.symtab.length).zip (file.symtab.map
      (resolvedSym host modules (linkInit sections file.symtab : LinkData host.dm).allocated)))

/-- The object has a symbol of that name itself, and its symbols make a table in which every search
finds its way. -/
def OwnName (host : Host) (modules : List (CexpModuleRec host.dm)) (file : ObjFile)
    (name : CStr) : Prop :=
  separator ∉ name.bytes ∧ ∃ sections, keptSections host modules file = .ok sections ∧
    Lookable host.cs (keptSyms host modules file sections) ∧
    ∃ s ∈ keptSyms host modules file sections, Matches name.bytes s.bytes

/-- Whenever the name of a section that was to be allocated is found in a loaded module, it is also a
name of the object's own, or the object takes a symbol from that module. -/
def SectionNamesCovered (host : Host) (modules : List (CexpModuleRec host.dm))
    (file : ObjFile) : Prop :=
  ∀ name ∈ sBasic (file.sections.map sNsects), ∀ ts m,
    cexpSymLookup host name modules = some (ts, m) →
      OwnName host modules file name ∨ RefersTo host modules file m

def Request.Covered (host : Host) (s : Store host.dm) : Request → Prop
  | .load args _ => args.filename ≠ none → SectionNamesCovered host s.modules args.file
  | .unload _ _ _ _ => True

/-- In the run the callbacks achieve nothing and the section names of the objects are
covered. -/
def CoveredRun (host : Host) : List Request → Store host.dm → Prop
  | [], _ => True
  | r :: rs, s =>
    Quiet host r s ∧ r.Covered host s ∧
      ∀ s' resp, request host r s = some (s', resp) → CoveredRun host rs s'

/-- The symbols that loaded modules point to belong to loaded modules that they need. -/
def Protected {dm : DataModel} (s : Store dm) : Prop :=
  ∀ b ∈ s.modules, ∀ r ∈ b.refs, ∃ a ∈ s.modules,
    a.handle = r.owner ∧ r.sym ∈ a.symtbl.entries ∧ b.needs.tst a.id = true

variable {host : Host}

theorem recordSectionNames_mem {modules : List (CexpModuleRec host.dm)} {nmod : CexpModule}
    {cst : CexpSymTbl} {names : List CStr} {r : SymRef}
    (h : r ∈ recordSectionNames host modules nmod cst names) (howner : r.owner ≠ nmod) :
    ∃ name ∈ names, ∃ m, host.cexpSymTblLookup name cst = none ∧
      cexpSymLookup host name modules = some (r.sym, m) ∧ m.handle = r.owner := by
  induction names with
  | nil => cases h
  | cons name names ih =>
    have hrest : r ∈ recordSectionNames host modules nmod cst names →
        ∃ name' ∈ name :: names, ∃ m, host.cexpSymTblLookup name' cst = none ∧
          cexpSymLookup host name' modules = some (r.sym, m) ∧ m.handle = r.owner := by
      intro hr
      obtain ⟨name', hname', hfound⟩ := ih hr
      exact ⟨name', List.mem_cons_of_mem name hname', hfound⟩
    rw [recordSectionNames] at h
    split at h
    · rcases List.mem_cons.mp h with rfl | h
      · exact absurd rfl howner
      · exact hrest h
    · next hown =>
      split at h
      · exact hrest h
      · next hother =>
        rcases List.mem_cons.mp h with rfl | h
        · exact ⟨name, List.mem_cons_self, _, hown, hother, rfl⟩
        · exact hrest h

/-- The values that symbols get do not matter for a lookup. -/
theorem isSome_lookup_setValues (vma : Nat → BitVec 64) (st : List Asymbol) (name : CStr)
    (t : CexpSymTbl) :
    (host.cexpSymTblLookup name (cexpSymTabSetValues vma st t)).isSome =
      (host.cexpSymTblLookup name t).isSome := by
  have hnames : ∀ l l' : List CexpSym, l.map CexpSym.tag = l'.map CexpSym.tag →
      l.map (fun s => namecomp host.cs name.bytes s.bytes) =
        l'.map fun s => namecomp host.cs name.bytes s.bytes := by
    intro l l' h
    have hbytes := congrArg
      (List.map fun p : Option CStr × Nat => namecomp host.cs name.bytes (p.1.elim [] CStr.bytes)) h
    rw [List.map_map, List.map_map] at hbytes
    have hcomp : ∀ s : CexpSym, s.tag.1.elim [] CStr.bytes = s.bytes := fun s => by
      rw [CexpSym.tag, CexpSym.bytes]
      cases s.name <;> rfl
    simpa only [Function.comp_def, hcomp] using hbytes
  have htake := congrArg (List.take t.nentries) (setValues_tags vma st t.syms)
  rw [← List.map_take, ← List.map_take] at htake
  exact isSome_bsearch_congr host.bsearch (hnames _ _ htake)

/-- A name of the object's own is found in the table of the new module. -/
theorem OwnName.found {modules : List (CexpModuleRec host.dm)} {nmod : CexpModule}
    {file : ObjFile} {name : CStr} {ld : LinkData host.dm} {cst : CexpSymTbl}
    (h : OwnName host modules file name) (hlink : link host modules nmod file = .ok (ld, cst)) :
    host.cexpSymTblLookup name cst ≠ none := by
  obtain ⟨hsep, sections, hsections, hlookable, s, hs, hmatches⟩ := h
  obtain ⟨sections', ld₁, cst₁, hsections', hslurp, -, rfl⟩ := link_ok hlink
  obtain rfl : sections' = sections := Except.ok.inj (hsections'.symm.trans hsections)
  have htable := (slurpSymtab_ok hslurp).2
  have hst := sortedData_st host modules file sections'
  rw [sortedData_allocated] at hst
  have hlength : (sortedData host modules file sections').st.length = file.symtab.length := by
    rw [hst, List.length_map]
  change host.cexpCreateSymTbl (filter (sortedData host modules file sections').sections)
    (assign host.dm file.vma (textSection sections'))
    ((List.range (sortedData host modules file sections').st.length).zip
      (sortedData host modules file sections').st) = some cst₁ at htable
  rw [sortedData_sections, hlength, hst] at htable
  obtain ⟨t, ht, hok⟩ := (lookup_iff_lookable host.cs _ _ zeroSym _).mpr hlookable
    (host.qsort CexpSym (cexpNamecomp host.cs)) (host.qsort_sorts _ _ _)
  obtain rfl : cst₁ = t := Option.some.inj (htable.symm.trans ht)
  obtain ⟨e, he⟩ := (hok host.bsearch name hsep).1.mpr ⟨s, hs, hmatches⟩
  refine Option.ne_none_iff_isSome.mpr ?_
  rw [isSome_lookup_setValues]
  exact Option.isSome_of_eq_some he

/-- What a new module is bound to is protected as long as its section names are covered. -/
theorem NewModule.refs_protected {args : LoadArgs} {s : Store host.dm}
    {nmod : CexpModuleRec host.dm} (hnew : NewModule host args s nmod)
    (hcovered : args.filename ≠ none → SectionNamesCovered host s.modules args.file) :
    ∀ r ∈ nmod.refs, ∃ a ∈ s.modules,
      a.handle = r.owner ∧ r.sym ∈ a.symtbl.entries ∧ nmod.needs.tst a.id = true := by
  intro r hr
  rcases List.mem_append.mp hr with hr | hr
  · exact hnew.sound.1.bound r hr
  · obtain ⟨hmem, howner⟩ := List.mem_filter.mp hr
    rw [decide_eq_true_eq] at howner
    obtain ⟨linked, hlinked, heq⟩ := hnew.linked
    have hsyms : nmod.sectionSyms = linked.sectionSyms :=
      congrArg CexpModuleRec.sectionSyms heq
    have hneeds : nmod.needs = linked.needs := congrArg CexpModuleRec.needs heq
    rw [hsyms] at hmem
    rw [loadSource] at hlinked
    cases hfile : args.filename with
    | some filename =>
      simp only [hfile] at hlinked
      obtain ⟨ld, cst, hlink, rfl⟩ := cexpLoadFile_ok hlinked
      obtain ⟨name, hname, m, hown, hother, hm⟩ := recordSectionNames_mem hmem howner
      have hrefers := (hcovered (by simp [hfile]) name hname r.sym m hother).resolve_left
        fun h => h.found hlink hown
      refine ⟨m, cexpSymLookup_mem hother, hm,
        cexpSymTblLookup_mem (cexpSymLookup_symtbl hother), ?_⟩
      rw [hneeds]
      exact link_refersTo hlink hrefers
    | none =>
      simp only [hfile] at hlinked
      rw [cexpLoadBuiltinSymtab] at hlinked
      split at hlinked
      · cases hlinked
      · split at hlinked
        · cases hlinked
        · dsimp only at hlinked
          split at hlinked
          · cases hlinked
          · split at hlinked
            · cases hlinked
              obtain ⟨sym, -, rfl⟩ := List.mem_map.mp hmem
              exact absurd rfl howner
            · cases hlinked

theorem Outcome.protected {r : Request} {s s' : Store host.dm} {resp : Response}
    (h : Outcome host r s s' resp) (hs : s.Inv) (hcovered : r.Covered host s)
    (hprotected : Protected s) : Protected s' := by
  cases h with
  | refused hsame =>
    rw [Protected, hsame.modules]
    exact hprotected
  | @loaded args callbacks nmod s₁ hr hnew hsame hs' =>
    subst hr hs'
    have hmodules : s₁.modules = s.modules := hsame.modules
    have hadded : ∀ a ∈ s.modules, addDependency nmod a ∈ (appended nmod s₁).modules := by
      intro a ha
      rw [appended, hmodules]
      exact List.mem_append_left _ (List.mem_map_of_mem ha)
    have hlift : ∀ (needs : Bitmap host.dm) (ref : SymRef),
        (∃ a ∈ s.modules, a.handle = ref.owner ∧ ref.sym ∈ a.symtbl.entries ∧
          needs.tst a.id = true) →
        ∃ a ∈ (appended nmod s₁).modules, a.handle = ref.owner ∧
          ref.sym ∈ a.symtbl.entries ∧ needs.tst a.id = true := by
      rintro needs ref ⟨a, ha, howner, hsym, hbit⟩
      refine ⟨addDependency nmod a, hadded a ha, ?_, ?_, ?_⟩
      · rw [addDependency_handle, howner]
      · rw [addDependency_symtbl]
        exact hsym
      · rw [addDependency_id]
        exact hbit
    intro b hb ref href
    rw [appended, hmodules] at hb
    rcases mem_appended hb with ⟨b₀, hb₀, rfl⟩ | rfl
    · rw [addDependency_refs] at href
      rw [addDependency_needs]
      exact hlift _ ref (hprotected b₀ hb₀ ref href)
    · exact hlift _ ref (hnew.refs_protected hcovered ref href)
  | @unloaded finalizer destructors l₁ l₂ a m s₁ hr hmodules hzero _ hsame hs' =>
    subst hs'
    intro b' hb' ref href
    obtain ⟨b, hb, rfl⟩ := List.mem_map.mp hb'
    have hmem : ∀ n ∈ l₁ ++ a :: l₂, n ∈ s.modules := by
      intro n hn
      rw [hmodules]
      rcases List.mem_append.mp hn with hn | hn
      · exact List.mem_append_left _ hn
      · rcases List.mem_cons.mp hn with rfl | hn
        · simp
        · exact List.mem_append_right _ (List.mem_cons_of_mem _ (List.mem_cons_of_mem _ hn))
    obtain ⟨o, ho, howner, hsym, hbit⟩ := hprotected b (hmem b hb) ref href
    have hm : m ∈ s.modules := by
      rw [hmodules]
      simp
    -- the owner is needed, so it is not the module that is unloaded
    have hne : o ≠ m := by
      rintro rfl
      have hmirror := hs.mirror o hm b (hmem b hb)
      rw [(Bitmap.isZero_iff _).mp hzero b.id (hs.ids_lt b (hmem b hb)), hbit] at hmirror
      cases hmirror
    have ho' : o ∈ l₁ ++ a :: l₂ := by
      rw [hmodules] at ho
      rcases List.mem_append.mp ho with ho | ho
      · exact List.mem_append_left _ ho
      · rcases List.mem_cons.mp ho with rfl | ho
        · simp
        · rcases List.mem_cons.mp ho with rfl | ho
          · exact absurd rfl hne
          · exact List.mem_append_right _ (List.mem_cons_of_mem _ ho)
    exact ⟨clearDependency m.id o, List.mem_map_of_mem ho', howner, hsym, hbit⟩

theorem requests_protected {rs : List Request} {s s' : Store host.dm} (hs : s.Inv)
    (hprotected : Protected s) (hrun : CoveredRun host rs s)
    (h : requests host rs s = some s') : s'.Inv ∧ Protected s' := by
  induction rs generalizing s with
  | nil =>
    rw [requests_nil_some h]
    exact ⟨hs, hprotected⟩
  | cons r rs ih =>
    obtain ⟨hquiet, hcovered, hrest⟩ := hrun
    obtain ⟨s₁, resp, hr, hlater⟩ := requests_cons_some h
    have hout := request_outcome hs hquiet hr
    exact ih (hout.inv hs) (hout.protected hs hcovered hprotected) (hrest s₁ resp hr) hlater

/-- A module that a loaded module needs cannot be unloaded. -/
theorem unload_refused {s : Store host.dm} (hs : s.Inv) {a b : CexpModuleRec host.dm}
    (ha : a ∈ s.modules) (hb : b ∈ s.modules) (hbit : b.needs.tst a.id = true)
    (finalizer : List Request) (rejects : Bool) (destructors : List Request) :
    request host (.unload a.handle finalizer rejects destructors) s = some (s, .refused) := by
  have hcheck : checkUnload a.handle s = none := by
    cases hcheck : checkUnload a.handle s with
    | none => rfl
    | some p =>
      obtain ⟨m, pred⟩ := p
      obtain ⟨l₁, c, l₂, hmodules, -, hm, hzero⟩ := checkUnload_some hs.handles_nodup hcheck
      have hmem : m ∈ s.modules := by
        rw [hmodules]
        simp
      have ham : m = a := eq_of_handle_eq hs.handles_nodup hmem ha hm
      subst ham
      have hmirror := hs.mirror m hmem b hb
      rw [(Bitmap.isZero_iff _).mp hzero b.id (hs.ids_lt b hb), hbit] at hmirror
      cases hmirror
  rw [request, hcheck]

/-- As long as section names are covered, every symbol of another module that a loaded module
points to belongs to a module that it needs and that therefore cannot be unloaded. -/
theorem kept_references_protected (host : Host) (rs : List Request)
    (hrun : CoveredRun host rs Store.init) (s : Store host.dm)
    (h : requests host rs Store.init = some s) :
    ∀ b ∈ s.modules, ∀ r ∈ b.refs, ∃ a ∈ s.modules,
      a.handle = r.owner ∧ r.sym ∈ a.symtbl.entries ∧ b.needs.tst a.id = true ∧
        ∀ finalizer rejects destructors,
          request host (.unload a.handle finalizer rejects destructors) s =
            some (s, .refused) := by
  have hinit : Protected (Store.init : Store host.dm) := fun b hb => by cases hb
  obtain ⟨hs, hprotected⟩ := requests_protected Store.inv_init hinit hrun h
  intro b hb r hr
  obtain ⟨a, ha, howner, hsym, hbit⟩ := hprotected b hb r hr
  exact ⟨a, ha, howner, hsym, hbit, unload_refused hs ha hb hbit⟩

/-! ## Runs -/

/-- A global function in the ABS section. -/
def globalFunction (name : CStr) (isWeak : Bool) : Asymbol :=
  { absSymbol (some name) 0x1000 with isGlobal := true, isFunction := true, isWeak := isWeak }

/-- An object with the section `.text`, its section symbol and others. -/
def textFile (syms : List Asymbol) : ObjFile :=
  objFile [wordSection TEXT_SECTION_NAME []]
    ({ localSymbol TEXT_SECTION_NAME (.sect 0) with isSectionSym := true } :: syms)

/-- The module `a`. -/
def loadA : Request :=
  .load (loadNamed moduleA (textFile [globalFunction moduleA false])) []

/-- The module `b`: a function of its own and a weak definition of the one of `a`. -/
def loadB : Request :=
  .load (loadNamed moduleB (textFile [globalFunction moduleB false, globalFunction moduleA true])) []

def weakRun : List Request := [.load loadSystem [], loadA, loadB]

/-- All that is noted for an object with the section `.text` only is this name. -/
theorem mem_sBasic_textFile {syms : List Asymbol} {name : CStr}
    (h : name ∈ sBasic ((textFile syms).sections.map sNsects)) : name = TEXT_SECTION_NAME := by
  have heq : sBasic ((textFile syms).sections.map sNsects) = [TEXT_SECTION_NAME] := rfl
  rw [heq] at h
  exact List.mem_singleton.mp h

/-- `.text` is found in the module `a` when `b` is loaded, but `b` has that name itself. -/
theorem weakRun_covered : CoveredRun plainHost weakRun Store.init := by
  refine ⟨Request.Plain.quiet (by rfl) _, fun h => absurd rfl h, fun s₁ r₁ h₁ => ?_⟩
  have hnone : cexpSymLookup plainHost TEXT_SECTION_NAME s₁.modules = none := by
    have heval : (request plainHost (.load loadSystem []) Store.init).map
        (fun p => (cexpSymLookup plainHost TEXT_SECTION_NAME p.1.modules).isNone) = some true := by
      decide +kernel
    rw [h₁] at heval
    exact Option.isNone_iff_eq_none.mp (Option.some.inj heval)
  refine ⟨Request.Plain.quiet (by rfl) s₁, fun _ name hname ts m hfound => ?_, fun s₂ r₂ h₂ => ?_⟩
  · rw [mem_sBasic_textFile hname, hnone] at hfound
    cases hfound
  have hkept : (keptSections plainHost s₂.modules (textFile
      [globalFunction moduleB false, globalFunction moduleA true])).toOption.map (fun sections =>
        (keptSyms plainHost s₂.modules (textFile
          [globalFunction moduleB false, globalFunction moduleA true]) sections).map
            CexpSym.bytes) = some [TEXT_SECTION_NAME.bytes, moduleB.bytes] := by
    have heval : ((request plainHost (.load loadSystem []) Store.init).bind fun p =>
        (request plainHost loadA p.1).map fun q =>
          (keptSections plainHost q.1.modules (textFile
            [globalFunction moduleB false, globalFunction moduleA true])).toOption.map
              fun sections => (keptSyms plainHost q.1.modules (textFile
                [globalFunction moduleB false, globalFunction moduleA true]) sections).map
                  CexpSym.bytes) = some (some [TEXT_SECTION_NAME.bytes, moduleB.bytes]) := by
      decide +kernel
    rw [h₁, Option.bind_some, h₂] at heval
    exact Option.some.inj heval
  refine ⟨Request.Plain.quiet (by rfl) s₂, fun _ name hname ts m _ => .inl ?_, fun _ _ _ => trivial⟩
  rw [mem_sBasic_textFile hname]
  obtain ⟨sections, hsections, hbytes⟩ := Option.map_eq_some_iff.mp hkept
  refine ⟨by decide, sections, ?_, lookable_of_names hbytes (by decide) (by decide) (by decide)
    (by decide), ?_⟩
  · exact toOption_eq_some hsections
  · have hmem : TEXT_SECTION_NAME.bytes ∈ (keptSyms plainHost s₂.modules (textFile
        [globalFunction moduleB false, globalFunction moduleA true]) sections).map
          CexpSym.bytes := by
      rw [hbytes]
      exact List.mem_cons_self
    obtain ⟨e, he, heq⟩ := List.mem_map.mp hmem
    exact ⟨e, he, .inl heq⟩

theorem kept_references_protected_weak :
    ∃ s, requests plainHost weakRun Store.init = some s ∧
      (∃ b ∈ s.modules, b.handle = 48 ∧ b.refs.map SymRef.owner = [32]) ∧
      ∀ b ∈ s.modules, ∀ r ∈ b.refs, ∃ a ∈ s.modules,
        a.handle = r.owner ∧ r.sym ∈ a.symtbl.entries ∧ b.needs.tst a.id = true ∧
          ∀ finalizer rejects destructors,
            request plainHost (.unload a.handle finalizer rejects destructors) s =
              some (s, .refused) := by
  have heval : (requests plainHost weakRun Store.init).any (fun s =>
      s.modules.any fun b => b.handle = 48 ∧ b.refs.map SymRef.owner = [32]) = true := by
    decide +kernel
  obtain ⟨s, hs, hb⟩ := (Option.any_eq_true _ _).mp heval
  obtain ⟨b, hb, hrefs⟩ := List.any_eq_true.mp hb
  exact ⟨s, hs, ⟨b, hb, by simpa using hrefs⟩,
    kept_references_protected plainHost weakRun weakRun_covered s hs⟩

def sectionT : CStr := ⟨[116], by decide⟩

/-- An object with a `linkonce` section and a function. -/
def linkonceFile (name : CStr) : ObjFile :=
  objFile [{ wordSection sectionT [] with linkOnce := true }]
    [{ localSymbol sectionT (.sect 0) with isSectionSym := true }, globalFunction name false]

/-- The second module discards its section in favour of the one of the first. -/
def linkonceRun : List Request :=
  [.load loadSystem [], .load (loadNamed moduleA (linkonceFile moduleA)) [],
    .load (loadNamed moduleB (linkonceFile moduleB)) []]

/-- The second module points to the section symbol of the first one, which is unloaded all the
same. -/
theorem discarded_linkonce_unprotected :
    ∃ s s', requests plainHost linkonceRun Store.init = some s ∧
      (∃ b ∈ s.modules, ∃ r ∈ b.refs, ∃ a ∈ s.modules,
        a.handle = r.owner ∧ b.needs.tst a.id = false) ∧
      request plainHost (.unload 32 [] false []) s = some (s', .unloaded) ∧
      ∃ b ∈ s'.modules, ∃ r ∈ b.refs, r.owner ∉ handles s'.modules := by
  have heval : (requests plainHost linkonceRun Store.init).any (fun s =>
      (s.modules.any fun b => b.refs.any fun r => s.modules.any fun a =>
        a.handle = r.owner ∧ b.needs.tst a.id = false) ∧
      (request plainHost (.unload 32 [] false []) s).any fun p => p.2 = .unloaded ∧
        p.1.modules.any fun b => b.refs.any fun r => r.owner ∉ handles p.1.modules) = true := by
    decide +kernel
  obtain ⟨s, hs, hbefore⟩ := (Option.any_eq_true _ _).mp heval
  obtain ⟨hbit, hunload⟩ := of_decide_eq_true hbefore
  obtain ⟨⟨s', resp⟩, hs', hafter⟩ := (Option.any_eq_true _ _).mp hunload
  obtain ⟨rfl, howner⟩ := of_decide_eq_true hafter
  refine ⟨s, s', hs, ?_, hs', ?_⟩
  · simpa only [List.any_eq_true, decide_eq_true_eq] using hbit
  · simpa only [List.any_eq_true, decide_eq_true_eq] using howner

end Cexp
