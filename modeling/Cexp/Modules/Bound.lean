import Cexp.Modules.Link
import Mathlib.Logic.Relation

/-!
# What linking binds

Every pass of the linker only adds to the dependencies (`Grows`): it binds references to
symbols that a lookup in the loaded modules finds, and it sets the bit of the owner with
each. So the map `depend` names exactly owners of symbols that were bound
(`link_sound`), and an object that refers to a symbol of a module has the bit of that
module set when it is linked (`link_refersTo`).
-/

namespace Cexp

variable {dm : DataModel}

/-! ## Dependencies only grow -/

/-- The symbols that were bound belong to loaded modules, and `depend` has the bits of their
owners and only bits of loaded modules. -/
structure Sound (modules : List (CexpModuleRec dm)) (bound : List SymRef) (depend : Bitmap dm) :
    Prop where
  bound : ∀ r ∈ bound, ∃ m ∈ modules,
    m.handle = r.owner ∧ r.sym ∈ m.symtbl.entries ∧ depend.tst m.id = true
  depend : ∀ k, depend.tst k = true → ∃ m ∈ modules, m.id = k

structure Grows (modules : List (CexpModuleRec dm)) (ld ld' : LinkData dm) : Prop where
  sound : Sound modules ld.bound ld.depend → Sound modules ld'.bound ld'.depend
  depend : ∀ k, ld.depend.tst k = true → ld'.depend.tst k = true
  errors : ld.errors ≤ ld'.errors

section Passes

variable {host : Host} {modules : List (CexpModuleRec dm)} {ld ld' : LinkData dm}

theorem Grows.of_same (hdepend : ld'.depend = ld.depend) (hbound : ld'.bound = ld.bound)
    (herrors : ld.errors ≤ ld'.errors) : Grows modules ld ld' := by
  refine ⟨fun h => ⟨?_, ?_⟩, ?_, herrors⟩
  · rw [hdepend, hbound]
    exact h.bound
  · rw [hdepend]
    exact h.depend
  · rw [hdepend]
    exact fun _ hk => hk

theorem Grows.refl : Grows modules ld ld := Grows.of_same rfl rfl (Nat.le_refl _)

theorem Grows.trans {ld'' : LinkData dm} (h : Grows modules ld ld') (h' : Grows modules ld' ld'') :
    Grows modules ld ld'' where
  sound hs := h'.sound (h.sound hs)
  depend k hk := h'.depend k (h.depend k hk)
  errors := Nat.le_trans h.errors h'.errors

variable (modules) in
theorem grows_foldl {α : Type} {f : LinkData dm → α → LinkData dm}
    (hf : ∀ ld a, Grows modules ld (f ld a)) (l : List α) (ld : LinkData dm) :
    Grows modules ld (l.foldl f ld) := by
  induction l generalizing ld with
  | nil => exact Grows.refl
  | cons a l ih => exact (hf ld a).trans (ih (f ld a))

theorem tst_asymFromCexpSym (ld : LinkData dm) (slot : Nat) (csym : CexpSym)
    (mod : CexpModuleRec dm) :
    (asymFromCexpSym ld slot csym mod).depend.tst mod.id = true := by
  simp [asymFromCexpSym, Bitmap.tst_set]

theorem grows_asymFromCexpSym (slot : Nat) {name : CStr} {csym : CexpSym}
    {mod : CexpModuleRec dm} (h : cexpSymLookup host name modules = some (csym, mod)) :
    Grows modules ld (asymFromCexpSym ld slot csym mod) := by
  have hmono : ∀ k, ld.depend.tst k = true →
      (asymFromCexpSym ld slot csym mod).depend.tst k = true := by
    intro k hk
    simp [asymFromCexpSym, Bitmap.tst_set, hk]
  refine ⟨fun hs => ⟨?_, ?_⟩, hmono, Nat.le_refl _⟩
  · intro r hr
    have hr' : r ∈ ld.bound ++ [⟨mod.handle, csym⟩] := hr
    rcases List.mem_append.mp hr' with hr | hr
    · obtain ⟨m, hm, hown, hsym, hbit⟩ := hs.bound r hr
      exact ⟨m, hm, hown, hsym, hmono m.id hbit⟩
    · cases List.mem_singleton.mp hr
      exact ⟨mod, cexpSymLookup_mem h, rfl, cexpSymTblLookup_mem (cexpSymLookup_symtbl h),
        tst_asymFromCexpSym ld slot csym mod⟩
  · intro k hk
    have hk' : (ld.depend.set mod.id).tst k = true := hk
    rw [Bitmap.tst_set, Bool.or_eq_true, decide_eq_true_eq] at hk'
    rcases hk' with hk | hk
    · exact hs.depend k hk
    · exact ⟨mod, cexpSymLookup_mem h, hk.symm⟩

/-! ## What a pass does to a slot -/

/-- What the passes over the symbols and the relocations do with the symbol in `slot`. -/
inductive SlotStep (host : Host) (modules : List (CexpModuleRec dm)) (slot : Nat) :
    LinkData dm → LinkData dm → Prop where
  | error (l : LinkData dm) : SlotStep host modules slot l l.addError
  | setSym (l : LinkData dm) (sp : Asymbol) : SlotStep host modules slot l (l.setSym slot sp)
  | callbacks (l : LinkData dm) (ini fini : Option Nat) :
      SlotStep host modules slot l { l with iniCallback := ini, finiCallback := fini }
  | common (l : LinkData dm) :
      SlotStep host modules slot l { l with newCommons := l.newCommons ++ [slot] }
  | bind (l : LinkData dm) {name : CStr} {csym : CexpSym} {mod : CexpModuleRec dm}
      (h : cexpSymLookup host name modules = some (csym, mod)) :
      SlotStep host modules slot l (asymFromCexpSym l slot csym mod)

abbrev SlotSteps (host : Host) (modules : List (CexpModuleRec dm)) (slot : Nat) :
    LinkData dm → LinkData dm → Prop :=
  Relation.ReflTransGen (SlotStep host modules slot)

theorem SlotStep.grows {slot : Nat} (h : SlotStep host modules slot ld ld') :
    Grows modules ld ld' := by
  cases h with
  | error => exact Grows.of_same rfl rfl (Nat.le_succ _)
  | setSym sp => exact Grows.of_same rfl rfl (Nat.le_refl _)
  | callbacks ini fini => exact Grows.of_same rfl rfl (Nat.le_refl _)
  | common => exact Grows.of_same rfl rfl (Nat.le_refl _)
  | bind h => exact grows_asymFromCexpSym slot h

theorem SlotSteps.grows {slot : Nat} (h : SlotSteps host modules slot ld ld') :
    Grows modules ld ld' := by
  induction h with
  | refl => exact Grows.refl
  | tail _ hstep ih => exact ih.trans hstep.grows

/-- Nothing else is touched. -/
theorem SlotSteps.frame {slot : Nat} (h : SlotSteps host modules slot ld ld') :
    ld'.sections = ld.sections ∧ (∀ i, i ≠ slot → ld'.st[i]? = ld.st[i]?) ∧
      (∀ i ∈ ld'.newCommons, i ∈ ld.newCommons ∨ i = slot) := by
  induction h with
  | refl => exact ⟨rfl, fun _ _ => rfl, fun _ hi => Or.inl hi⟩
  | tail _ hstep ih =>
    obtain ⟨hsections, hst, hcommons⟩ := ih
    cases hstep with
    | error => exact ⟨hsections, hst, hcommons⟩
    | callbacks ini fini => exact ⟨hsections, hst, hcommons⟩
    | setSym sp =>
      refine ⟨hsections, fun i hi => ?_, hcommons⟩
      rw [← hst i hi]
      exact List.getElem?_set_ne (Ne.symm hi)
    | bind _ =>
      refine ⟨hsections, fun i hi => ?_, hcommons⟩
      rw [← hst i hi]
      exact List.getElem?_set_ne (Ne.symm hi)
    | common =>
      refine ⟨hsections, hst, fun i hi => ?_⟩
      rcases List.mem_append.mp hi with hi | hi
      · exact hcommons i hi
      · exact Or.inr (List.mem_singleton.mp hi)

theorem SlotSteps.single {slot : Nat} (h : SlotStep host modules slot ld ld') :
    SlotSteps host modules slot ld ld' := Relation.ReflTransGen.single h

theorem noteCallback_steps (slot : Nat) (sp : Asymbol) :
    SlotSteps host modules slot ld (noteCallback ld slot sp) := by
  rw [noteCallback]
  split
  · dsimp only
    split
    · exact (SlotSteps.single (.setSym ld _)).tail (.error _)
    · exact (SlotSteps.single (.setSym ld _)).tail (.callbacks _ (some slot) _)
  · split
    · dsimp only
      split
      · exact (SlotSteps.single (.setSym ld _)).tail (.error _)
      · exact (SlotSteps.single (.setSym ld _)).tail (.callbacks _ _ (some slot))
    · exact Relation.ReflTransGen.refl

theorem addNewCommon_steps (slot : Nat) (sp : Asymbol) :
    SlotSteps host modules slot ld (addNewCommon ld slot sp) :=
  (SlotSteps.single (.setSym ld _)).tail (.common _)

theorem checkCommon_steps (slot : Nat) (sp : Asymbol) (ts : CexpSym) :
    SlotSteps host modules slot ld (checkCommon ld sp ts) := by
  have hsize : SlotSteps host modules slot ld
      (if ts.size < sp.size then ld.addError else ld) := by
    split
    · exact SlotSteps.single (.error ld)
    · exact Relation.ReflTransGen.refl
  rw [checkCommon]
  split
  · exact hsize.tail (.error _)
  · exact hsize

variable (host modules ld) in
theorem resolveSym_steps (slot : Nat) :
    SlotSteps host modules slot ld (resolveSym host modules ld slot) := by
  rw [resolveSym]
  split
  · exact Relation.ReflTransGen.refl
  · next sp _ =>
    have hnote : SlotSteps host modules slot ld (noteCallback ld slot sp) :=
      noteCallback_steps slot sp
    dsimp only
    split
    · split
      · exact hnote.tail (.setSym _ _)
      · exact hnote
    · split
      · exact hnote
      · refine hnote.trans ?_
        split
        · split
          · exact SlotSteps.single (.setSym _ _)
          · split
            · exact addNewCommon_steps slot sp
            · exact Relation.ReflTransGen.refl
        · exact Relation.ReflTransGen.refl
        · next h => exact (checkCommon_steps slot sp _).tail (.bind _ h)
        · exact addNewCommon_steps slot sp
        · next h _ _ =>
          split
          · exact SlotSteps.single (.bind _ h)
          · exact SlotSteps.single (.error _)
        · exact SlotSteps.single (.setSym _ _)

variable (host modules ld) in
theorem performRelocation_steps (file : ObjFile) (i k slot s : Nat) :
    SlotSteps host modules s ld (performRelocation file i k ld slot) := by
  rw [performRelocation]
  split
  · exact Relation.ReflTransGen.refl
  · split
    · exact Relation.ReflTransGen.refl
    · exact SlotSteps.single (.error ld)

variable (host modules ld) in
theorem relocate_steps (nmod : CexpModule) (file : ObjFile) (i slot k : Nat) :
    SlotSteps host modules slot ld
      (relocate host modules nmod file i ld (some slot, k)) := by
  simp only [relocate]
  split
  · exact SlotSteps.single (.error ld)
  · split
    · split
      · exact SlotSteps.single (.error ld)
      · next h =>
        split
        · split
          · exact (SlotSteps.single (.setSym ld _)).trans
              (performRelocation_steps host modules _ file i _ _ _)
          · exact SlotSteps.single (.error ld)
        · exact (SlotSteps.single (.bind ld h)).trans
            (performRelocation_steps host modules _ file i _ _ _)
    · split
      · exact performRelocation_steps host modules _ file i _ _ _
      · exact Relation.ReflTransGen.refl
    · exact performRelocation_steps host modules _ file i _ _ _

/-! ## The passes only add dependencies -/

theorem grows_resolveSyms : Grows modules ld (resolveSyms host modules ld) :=
  grows_foldl modules (fun ld slot => (resolveSym_steps host modules ld slot).grows) _ ld

variable (modules) in
theorem grows_makeNewCommons {file : ObjFile} (h : makeNewCommons file ld = .ok ld') :
    Grows modules ld ld' := by
  rw [makeNewCommons] at h
  split at h
  · cases h
    exact Grows.refl
  · split at h
    · cases h
      exact Grows.of_same rfl rfl (Nat.le_refl _)
    · cases h

theorem grows_addError : Grows modules ld ld.addError :=
  Grows.of_same rfl rfl (Nat.le_succ _)

variable (host modules ld) in
theorem grows_relocate (nmod : CexpModule) (file : ObjFile) (i : Nat) (r : Option Nat × Nat) :
    Grows modules ld (relocate host modules nmod file i ld r) := by
  obtain ⟨_ | slot, k⟩ := r
  · exact grows_addError
  · exact (relocate_steps host modules ld nmod file i slot k).grows

variable (host modules ld) in
theorem grows_sReloc (nmod : CexpModule) (file : ObjFile) (i : Nat) :
    Grows modules ld (sReloc host modules nmod file ld i) := by
  rw [sReloc]
  split
  · exact Grows.refl
  · split
    · split
      · exact grows_addError
      · split
        · split
          · exact grows_addError
          · exact grows_foldl modules (fun ld r => grows_relocate host modules ld nmod file i r) _ ld
        · exact Grows.refl
    · exact Grows.refl

theorem grows_relocateAll {nmod : CexpModule} {file : ObjFile}
    (h : relocateAll host modules nmod file ld = .ok ld') : Grows modules ld ld' := by
  rw [relocateAll] at h
  split at h
  · split at h
    · cases h
      exact Grows.refl
    · cases h
  · split at h
    · dsimp only at h
      split at h
      · cases h
      · cases h
        exact grows_foldl modules (fun ld i => grows_sReloc host modules ld nmod file i) _ ld
    · cases h

end Passes

/-! ## Linking is sound -/

variable {host : Host} {modules : List (CexpModuleRec host.dm)} {nmod : CexpModule}
  {file : ObjFile}

theorem slurpSymtab_ok {text : Option Nat} {ld ld' : LinkData host.dm} {cst : CexpSymTbl}
    (h : slurpSymtab host modules file text ld = .ok (ld', cst)) :
    makeNewCommons file (sortCommons host (resolveSyms host modules ld)) = .ok ld' ∧
      host.cexpCreateSymTbl (filter (sortCommons host (resolveSyms host modules ld)).sections)
        (assign host.dm file.vma text)
        ((List.range (sortCommons host (resolveSyms host modules ld)).st.length).zip
          (sortCommons host (resolveSyms host modules ld)).st) = some cst := by
  rw [slurpSymtab] at h
  dsimp only at h
  split at h
  · cases h
  · split at h
    · cases h
    · split at h
      · cases h
      · next cst' hcst =>
        cases hcommons : makeNewCommons file (sortCommons host (resolveSyms host modules ld)) with
        | error e => rw [hcommons] at h; cases h
        | ok ld'' =>
          rw [hcommons] at h
          cases h
          exact ⟨rfl, hcst⟩

theorem link_ok {ld : LinkData host.dm} {cst : CexpSymTbl}
    (h : link host modules nmod file = .ok (ld, cst)) :
    ∃ sections ld₁ cst₁, keptSections host modules file = .ok sections ∧
      slurpSymtab host modules file (textSection sections) (linkInit sections file.symtab) =
        .ok (ld₁, cst₁) ∧
      relocateAll host modules nmod file ld₁ = .ok ld ∧
      cst = cexpSymTabSetValues file.vma ld.st cst₁ := by
  rw [link] at h
  split at h
  · cases h
  · next sections hsections =>
    split at h
    · cases h
    · next ld₁ cst₁ hslurp =>
      cases hreloc : relocateAll host modules nmod file ld₁ with
      | error e => rw [hreloc] at h; cases h
      | ok ld₂ =>
        rw [hreloc] at h
        cases h
        exact ⟨sections, ld₁, cst₁, hsections, hslurp, hreloc, rfl⟩

theorem grows_slurpSymtab {text : Option Nat} {ld ld' : LinkData host.dm} {cst : CexpSymTbl}
    (h : slurpSymtab host modules file text ld = .ok (ld', cst)) : Grows modules ld ld' := by
  have hsyms : Grows modules ld (resolveSyms host modules ld) := grows_resolveSyms
  have hsorted : Grows modules (resolveSyms host modules ld)
      (sortCommons host (resolveSyms host modules ld)) :=
    Grows.of_same rfl rfl (Nat.le_refl _)
  exact (hsyms.trans hsorted).trans (grows_makeNewCommons modules (slurpSymtab_ok h).1)

/-- The dependencies of a linked module are exactly the owners of what it was bound to. -/
theorem link_sound {ld : LinkData host.dm} {cst : CexpSymTbl}
    (h : link host modules nmod file = .ok (ld, cst)) : Sound modules ld.bound ld.depend := by
  obtain ⟨sections, ld₁, cst₁, -, hslurp, hreloc, -⟩ := link_ok h
  refine ((grows_slurpSymtab hslurp).trans (grows_relocateAll hreloc)).sound ⟨?_, ?_⟩
  · intro r hr
    cases hr
  · intro k hk
    simp [linkInit, Bitmap.tst_zero] at hk

/-! ## References to a module set its bit -/

section References

variable {host : Host} {modules : List (CexpModuleRec dm)} {ld ld' : LinkData dm}
  {file : ObjFile} {slot : Nat} {ts : CexpSym} {m : CexpModuleRec dm}

/-- The symbol in `slot` of the object is one that the linker takes from the module `m`: a
weak definition or a common symbol that exists there, or an undefined symbol that a
relocation of an allocated section uses. -/
def TakenFrom (host : Host) (modules : List (CexpModuleRec dm)) (file : ObjFile)
    (sections : List Section) (slot : Nat) (m : CexpModuleRec dm) : Prop :=
  ∃ sp ts, file.symtab[slot]? = some sp ∧ cexpSymLookup host sp.name modules = some (ts, m) ∧
    ((sp.sect = .und ∧ myDsoHandle host modules ≠ some ⟨m.handle, ts⟩ ∧
        ∃ sect ∈ sections, sect.alloc ∧ sect.reloc ∧ some slot ∈ sect.relocs) ∨
      (localSym sp = false ∧ sp.isThreadLocal = false ∧
        (sp.sect = .com ∨ sp.sect ≠ .und ∧ sp.isWeak)))

def RefersTo (host : Host) (modules : List (CexpModuleRec dm)) (file : ObjFile)
    (m : CexpModuleRec dm) : Prop :=
  ∃ sections slot, keptSections host modules file = .ok sections ∧
    TakenFrom host modules file sections slot m

theorem noteCallback_of_not_local {sp : Asymbol} (h : localSym sp = false) :
    noteCallback ld slot sp = ld := by
  simp only [localSym, Bool.or_eq_false_iff, decide_eq_false_iff_not] at h
  simp only [noteCallback, h, if_false]

/-- A weak or common symbol that exists is taken from its owner. -/
theorem resolveSym_taken {sp : Asymbol} (hst : ld.st[slot]? = some sp)
    (hts : cexpSymLookup host sp.name modules = some (ts, m)) (hlocal : localSym sp = false)
    (htls : sp.isThreadLocal = false) (hsp : sp.sect = .com ∨ sp.sect ≠ .und ∧ sp.isWeak) :
    (resolveSym host modules ld slot).depend.tst m.id = true := by
  simp only [resolveSym, hst, noteCallback_of_not_local hlocal, hlocal, htls, hts,
    Bool.false_eq_true, if_false]
  rcases hsp with hcom | ⟨hund, hweak⟩
  · rw [hcom]
    exact tst_asymFromCexpSym _ slot ts m
  · cases hsect : sp.sect with
    | und => exact absurd hsect hund
    | com => exact tst_asymFromCexpSym _ slot ts m
    | abs => simp only [hweak, if_true]; exact tst_asymFromCexpSym _ slot ts m
    | sect j => simp only [hweak, if_true]; exact tst_asymFromCexpSym _ slot ts m

/-- The symbol in the slot is still to be looked up by the relocations. -/
def Pending (ld : LinkData dm) (slot : Nat) (name : CStr) : Prop :=
  ∃ sp, ld.st[slot]? = some sp ∧ sp.sect = .und ∧ sp.name = name

/-- An undefined symbol that exists is left to the relocations. -/
theorem resolveSym_und {sp : Asymbol} (hst : ld.st[slot]? = some sp) (hund : sp.sect = .und)
    (hts : cexpSymLookup host sp.name modules = some (ts, m)) :
    Pending (resolveSym host modules ld slot) slot sp.name ∧
      (resolveSym host modules ld slot).newCommons = ld.newCommons := by
  have hlt : slot < ld.st.length := (List.getElem?_eq_some_iff.mp hst).1
  have heq : resolveSym host modules ld slot = noteCallback ld slot sp := by
    simp only [resolveSym, hst, hund, hts, LinkData.allocated, Bool.false_eq_true, and_false,
      if_false, ite_self]
  rw [heq, noteCallback]
  have hset : (ld.st.set slot { sp with isLocal := true })[slot]? =
      some { sp with isLocal := true } := by rw [List.getElem?_set_self hlt]
  split
  · dsimp only
    split
    · exact ⟨⟨_, hset, hund, rfl⟩, rfl⟩
    · exact ⟨⟨_, hset, hund, rfl⟩, rfl⟩
  · split
    · dsimp only
      split
      · exact ⟨⟨_, hset, hund, rfl⟩, rfl⟩
      · exact ⟨⟨_, hset, hund, rfl⟩, rfl⟩
    · exact ⟨⟨sp, hst, hund, rfl⟩, rfl⟩

variable (host modules ld) in
/-- The symbols before and behind a slot do not touch it. -/
theorem foldl_resolveSym_frame (slots : List Nat) (h : slot ∉ slots) :
    (slots.foldl (resolveSym host modules) ld).st[slot]? = ld.st[slot]? ∧
      (slot ∈ (slots.foldl (resolveSym host modules) ld).newCommons → slot ∈ ld.newCommons) := by
  induction slots generalizing ld with
  | nil => exact ⟨rfl, id⟩
  | cons s slots ih =>
    obtain ⟨hst, hcommons⟩ := ih (resolveSym host modules ld s)
      (fun hmem => h (List.mem_cons_of_mem s hmem))
    have hne : slot ≠ s := fun heq => h (heq ▸ List.mem_cons_self)
    obtain ⟨-, hst', hcommons'⟩ := (resolveSym_steps host modules ld s).frame
    refine ⟨hst.trans (hst' slot hne), fun hmem => ?_⟩
    exact (hcommons' slot (hcommons hmem)).resolve_right hne

variable (host modules ld) in
theorem foldl_resolveSym_sections (slots : List Nat) :
    (slots.foldl (resolveSym host modules) ld).sections = ld.sections := by
  induction slots generalizing ld with
  | nil => rfl
  | cons s slots ih =>
    exact (ih _).trans (resolveSym_steps host modules ld s).frame.1

/-- The slots of a symbol table, cut at one of them. -/
theorem range_split {n : Nat} (h : slot < n) :
    ∃ before after, List.range n = before ++ slot :: after ∧ slot ∉ before ∧ slot ∉ after := by
  obtain ⟨before, after, heq⟩ := List.append_of_mem (List.mem_range.mpr h)
  have hnodup : (before ++ slot :: after).Nodup := heq ▸ List.nodup_range
  rw [List.nodup_middle, List.nodup_cons, List.mem_append, not_or] at hnodup
  exact ⟨before, after, heq, hnodup.1.1, hnodup.1.2⟩

theorem resolveSyms_taken {sp : Asymbol} (hst : ld.st[slot]? = some sp)
    (hts : cexpSymLookup host sp.name modules = some (ts, m)) (hlocal : localSym sp = false)
    (htls : sp.isThreadLocal = false) (hsp : sp.sect = .com ∨ sp.sect ≠ .und ∧ sp.isWeak) :
    (resolveSyms host modules ld).depend.tst m.id = true := by
  obtain ⟨before, after, hsplit, hbefore, -⟩ :=
    range_split (List.getElem?_eq_some_iff.mp hst).1
  rw [resolveSyms, hsplit, List.foldl_append, List.foldl_cons]
  refine (grows_foldl modules (fun ld s => (resolveSym_steps host modules ld s).grows)
    after _).depend
    m.id ?_
  refine resolveSym_taken ?_ hts hlocal htls hsp
  rw [(foldl_resolveSym_frame host modules ld before hbefore).1, hst]

theorem resolveSyms_und {sp : Asymbol} (hst : ld.st[slot]? = some sp) (hund : sp.sect = .und)
    (hts : cexpSymLookup host sp.name modules = some (ts, m)) (hcommons : slot ∉ ld.newCommons) :
    Pending (resolveSyms host modules ld) slot sp.name ∧
      slot ∉ (resolveSyms host modules ld).newCommons := by
  obtain ⟨before, after, hsplit, hbefore, hafter⟩ :=
    range_split (List.getElem?_eq_some_iff.mp hst).1
  rw [resolveSyms, hsplit, List.foldl_append, List.foldl_cons]
  obtain ⟨hst₁, hcommons₁⟩ :=
    foldl_resolveSym_frame host modules ld before hbefore
  obtain ⟨⟨sp₂, hst₂, hund₂, hname₂⟩, hcommons₂⟩ := resolveSym_und (hst₁.trans hst) hund hts
  obtain ⟨hst₃, hcommons₃⟩ := foldl_resolveSym_frame host modules
    (resolveSym host modules (before.foldl (resolveSym host modules) ld) slot) after hafter
  refine ⟨⟨sp₂, hst₃.trans hst₂, hund₂, hname₂⟩, fun hmem => ?_⟩
  have hmem₂ := hcommons₃ hmem
  rw [hcommons₂] at hmem₂
  exact hcommons (hcommons₁ hmem₂)

theorem placeCommons_frame (csect : Nat) (st : List Asymbol) (val : BitVec 64)
    (slots : List Nat) (h : slot ∉ slots) :
    (placeCommons csect st val slots).1[slot]? = st[slot]? := by
  induction slots generalizing st val with
  | nil => rfl
  | cons s slots ih =>
    have hne : slot ≠ s := fun heq => h (heq ▸ List.mem_cons_self)
    have hslots : slot ∉ slots := fun hmem => h (List.mem_cons_of_mem s hmem)
    rw [placeCommons]
    split
    · exact ih st val hslots
    · exact (ih _ _ hslots).trans (List.getElem?_set_ne (Ne.symm hne))

variable (slot) in
theorem makeNewCommons_frame (h : makeNewCommons file ld = .ok ld') :
    (∃ extra, ld'.sections = ld.sections ++ extra) ∧
      (slot ∉ ld.newCommons → ld'.st[slot]? = ld.st[slot]?) := by
  rw [makeNewCommons] at h
  split at h
  · cases h
    exact ⟨⟨[], (List.append_nil _).symm⟩, fun _ => rfl⟩
  · split at h
    · cases h
      exact ⟨⟨_, rfl⟩, placeCommons_frame _ _ _ _⟩
    · cases h

/-- Either the symbol still waits for the relocations or its owner is a dependency. -/
def PendingOrSet (slot : Nat) (name : CStr) (m : CexpModuleRec dm) (ld : LinkData dm) : Prop :=
  Pending ld slot name ∨ ld.depend.tst m.id = true

variable {name : CStr}

theorem PendingOrSet.steps {s : Nat} (h : PendingOrSet slot name m ld)
    (hsteps : SlotSteps host modules s ld ld') (hne : slot ≠ s) :
    PendingOrSet slot name m ld' := by
  rcases h with ⟨sp, hst, hund, hname⟩ | hbit
  · refine Or.inl ⟨sp, ?_, hund, hname⟩
    rw [hsteps.frame.2.1 slot hne, hst]
  · exact Or.inr (hsteps.grows.depend m.id hbit)

/-- A relocation against the symbol binds it. -/
theorem relocate_pending {nmod : CexpModule} {i k : Nat} (h : PendingOrSet slot name m ld)
    (hts : cexpSymLookup host name modules = some (ts, m))
    (hdso : myDsoHandle host modules ≠ some ⟨m.handle, ts⟩) :
    (relocate host modules nmod file i ld (some slot, k)).depend.tst m.id = true := by
  rcases h with ⟨sp, hst, hund, hname⟩ | hbit
  · have hlookup : cexpSymLookup host sp.name modules = some (ts, m) := by rw [hname, hts]
    simp only [relocate, hst, hund, hlookup, if_neg hdso]
    exact (performRelocation_steps host modules _ file i k slot slot).grows.depend
      m.id (tst_asymFromCexpSym ld slot ts m)
  · exact (grows_relocate host modules ld nmod file i (some slot, k)).depend m.id hbit

theorem PendingOrSet.relocate {nmod : CexpModule} {i : Nat} (r : Option Nat × Nat)
    (h : PendingOrSet slot name m ld)
    (hts : cexpSymLookup host name modules = some (ts, m))
    (hdso : myDsoHandle host modules ≠ some ⟨m.handle, ts⟩) :
    PendingOrSet slot name m (Cexp.relocate host modules nmod file i ld r) := by
  obtain ⟨_ | s, k⟩ := r
  · exact h
  · by_cases heq : slot = s
    · subst heq
      exact Or.inr (relocate_pending h hts hdso)
    · exact h.steps (relocate_steps host modules ld nmod file i s k) heq

theorem PendingOrSet.foldl_relocate {nmod : CexpModule} {i : Nat}
    (hts : cexpSymLookup host name modules = some (ts, m))
    (hdso : myDsoHandle host modules ≠ some ⟨m.handle, ts⟩) (rs : List (Option Nat × Nat))
    (h : PendingOrSet slot name m ld) :
    PendingOrSet slot name m (rs.foldl (Cexp.relocate host modules nmod file i) ld) := by
  induction rs generalizing ld with
  | nil => exact h
  | cons r rs ih => exact ih (h.relocate r hts hdso)

theorem PendingOrSet.sReloc {nmod : CexpModule} {i : Nat}
    (hts : cexpSymLookup host name modules = some (ts, m))
    (hdso : myDsoHandle host modules ≠ some ⟨m.handle, ts⟩)
    (h : PendingOrSet slot name m ld) :
    PendingOrSet slot name m (Cexp.sReloc host modules nmod file ld i) := by
  rw [Cexp.sReloc]
  split
  · exact h
  · split
    · split
      · exact h
      · split
        · split
          · exact h
          · exact h.foldl_relocate hts hdso _
        · exact h
    · exact h

/-- When a section is relocated without an error, the symbols of its relocations are
bound. -/
theorem sReloc_binds {nmod : CexpModule} {i : Nat} {sect : Section}
    (hts : cexpSymLookup host name modules = some (ts, m))
    (hdso : myDsoHandle host modules ≠ some ⟨m.handle, ts⟩)
    (h : PendingOrSet slot name m ld) (hsect : ld.sections[i]? = some sect)
    (halloc : sect.alloc = true) (hreloc : sect.reloc = true) (hslot : some slot ∈ sect.relocs)
    (herrors : (sReloc host modules nmod file ld i).errors = 0) :
    (sReloc host modules nmod file ld i).depend.tst m.id = true := by
  have hne : sect.relocs ≠ [] := List.ne_nil_of_mem hslot
  simp only [sReloc, hsect, halloc, hreloc, if_true, if_neg hne] at herrors ⊢
  split at herrors
  · cases herrors
  · next hread =>
    rw [if_neg hread]
    obtain ⟨k, hk⟩ := List.mem_iff_getElem?.mp hslot
    have hmem : (some slot, k) ∈ sect.relocs.zipIdx :=
      List.mem_iff_getElem?.mpr ⟨k, by simp [hk]⟩
    obtain ⟨before, after, hsplit⟩ := List.append_of_mem hmem
    rw [hsplit, List.foldl_append, List.foldl_cons]
    refine (grows_foldl modules (fun ld r => grows_relocate host modules ld nmod file i r)
      after _).depend m.id ?_
    exact relocate_pending (h.foldl_relocate hts hdso before) hts hdso

variable (host modules ld file) in
theorem sReloc_sections (nmod : CexpModule) (i : Nat) :
    (sReloc host modules nmod file ld i).sections = ld.sections := by
  have hfold : ∀ rs : List (Option Nat × Nat),
      (rs.foldl (relocate host modules nmod file i) ld).sections = ld.sections := by
    intro rs
    induction rs generalizing ld with
    | nil => rfl
    | cons r rs ih =>
      refine (ih _).trans ?_
      obtain ⟨_ | s, k⟩ := r
      · rfl
      · exact (relocate_steps host modules _ nmod file i s k).frame.1
  rw [sReloc]
  split
  · rfl
  · split
    · split
      · rfl
      · split
        · split
          · rfl
          · exact hfold _
        · rfl
    · rfl

variable (file) in
theorem foldl_sReloc_frame (nmod : CexpModule) (is : List Nat)
    (hts : cexpSymLookup host name modules = some (ts, m))
    (hdso : myDsoHandle host modules ≠ some ⟨m.handle, ts⟩)
    (h : PendingOrSet slot name m ld) :
    PendingOrSet slot name m (is.foldl (sReloc host modules nmod file) ld) ∧
      (is.foldl (sReloc host modules nmod file) ld).sections = ld.sections := by
  induction is generalizing ld with
  | nil => exact ⟨h, rfl⟩
  | cons i is ih =>
    obtain ⟨h', hsections⟩ := ih (h.sReloc hts hdso)
    exact ⟨h', hsections.trans (sReloc_sections host modules ld file nmod i)⟩

/-- All relocations together bind the symbols that the allocated sections use. -/
theorem relocateAll_binds {nmod : CexpModule} {sect : Section}
    (hall : relocateAll host modules nmod file ld = .ok ld')
    (hts : cexpSymLookup host name modules = some (ts, m))
    (hdso : myDsoHandle host modules ≠ some ⟨m.handle, ts⟩)
    (h : PendingOrSet slot name m ld) (hsect : sect ∈ ld.sections)
    (halloc : sect.alloc = true) (hreloc : sect.reloc = true)
    (hslot : some slot ∈ sect.relocs) : ld'.depend.tst m.id = true := by
  have hmodules : modules ≠ [] := List.ne_nil_of_mem (cexpSymLookup_mem hts)
  rw [relocateAll, if_neg hmodules] at hall
  split at hall
  · dsimp only at hall
    split at hall
    · cases hall
    · next herrors =>
      cases hall
      obtain ⟨i, hi⟩ := List.mem_iff_getElem?.mp hsect
      obtain ⟨before, after, hsplit, -, -⟩ := range_split (List.getElem?_eq_some_iff.mp hi).1
      rw [hsplit, List.foldl_append, List.foldl_cons] at herrors ⊢
      have hgrows := grows_foldl modules
        (fun ld i => grows_sReloc host modules ld nmod file i) after
        (sReloc host modules nmod file (before.foldl (sReloc host modules nmod file) ld) i)
      obtain ⟨hpending, hsections⟩ :=
        foldl_sReloc_frame file nmod before hts hdso h
      refine hgrows.depend m.id (sReloc_binds hts hdso hpending ?_ halloc hreloc hslot ?_)
      · rw [hsections, hi]
      · have hle := hgrows.errors
        omega
  · cases hall

end References

/-- An object that refers to a module has the bit of that module set. -/
theorem link_refersTo {ld : LinkData host.dm} {cst : CexpSymTbl} {m : CexpModuleRec host.dm}
    (h : link host modules nmod file = .ok (ld, cst)) (hrefers : RefersTo host modules file m) :
    ld.depend.tst m.id = true := by
  obtain ⟨sections, ld₁, cst₁, hsections, hslurp, hall, -⟩ := link_ok h
  obtain ⟨sections', slot, hsections', sp, ts, hsp, hts, htaken⟩ := hrefers
  rw [hsections] at hsections'
  cases hsections'
  have hcommons := (slurpSymtab_ok hslurp).1
  rcases htaken with ⟨hund, hdso, sect, hsect, halloc, hreloc, hslot⟩ | ⟨hlocal, htls, hkind⟩
  · obtain ⟨hpending, hnew⟩ := resolveSyms_und
      (show (linkInit sections file.symtab : LinkData host.dm).st[slot]? = some sp from hsp) hund hts
      List.not_mem_nil
    have hsorted : slot ∉
        (sortCommons host (resolveSyms host modules (linkInit sections file.symtab))).newCommons :=
      fun hmem => hnew ((host.qsort_perm _ _).mem_iff.mp hmem)
    obtain ⟨⟨extra, hextra⟩, hst⟩ := makeNewCommons_frame slot hcommons
    obtain ⟨sp', hsp', hund', hname'⟩ := hpending
    refine relocateAll_binds hall hts hdso (Or.inl ⟨sp', ?_, hund', hname'⟩) ?_ halloc hreloc hslot
    · exact (hst hsorted).trans hsp'
    · rw [hextra]
      refine List.mem_append_left extra ?_
      have hkept := foldl_resolveSym_sections host modules (linkInit sections file.symtab)
        (List.range file.symtab.length)
      rw [sortCommons, resolveSyms]
      refine hkept.symm ▸ ?_
      exact hsect
  · have hbit := resolveSyms_taken
      (show (linkInit sections file.symtab : LinkData host.dm).st[slot]? = some sp from hsp) hts hlocal
      htls hkind
    have hbit' := (grows_makeNewCommons modules hcommons).depend m.id hbit
    exact (grows_relocateAll hall).depend m.id hbit'

end Cexp
