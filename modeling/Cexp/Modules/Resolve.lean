import Cexp.Modules.Bound

/-!
# What `resolve_syms` leaves

`resolve_syms` deals with each symbol on its own. What it leaves in the slot of a symbol
(`resolvedSym`), whether it puts the slot onto the list of new commons (`isNewCommon`) and which
errors it counts (`symErrors`) depend on nothing but the symbol and the loaded modules, so the
whole pass is one map over the symbol table.
-/

namespace Cexp

variable {dm : DataModel}

/-! ## One symbol -/

section

variable (host : Host) (modules : List (CexpModuleRec dm))

/-- The symbol is looked up in the loaded modules. -/
def Asymbol.Sought (sp : Asymbol) : Prop := localSym sp = false ∧ sp.isThreadLocal = false

instance (sp : Asymbol) : Decidable sp.Sought := inferInstanceAs (Decidable (_ ∧ _))

/-- The symbol is undefined and has a value of its own all the same: it is in a shared
library. -/
def Asymbol.Shared (sp : Asymbol) : Prop := sp.value ≠ 0 ∧ sp.isFunction = true

instance (sp : Asymbol) : Decidable sp.Shared := inferInstanceAs (Decidable (_ ∧ _))

/-- A common symbol or a weak undefined one that no module has. -/
def isNewCommon (sp : Asymbol) : Bool :=
  decide sp.Sought && (cexpSymLookup host sp.name modules).isNone &&
    match sp.sect with
    | .com => true
    | .und => sp.isWeak && !decide sp.Shared
    | _ => false

/-- What is left in the slot of a symbol, where `allocated` says whether its section is. -/
def resolvedSym (allocated : SecRef → Bool) (sp : Asymbol) : Asymbol :=
  if localSym sp then
    if sp.isSectionSym ∧ allocated sp.sect then { sp with isLocal := true, keep := true }
    else { sp with isLocal := true }
  else if sp.isThreadLocal then sp
  else
    match sp.sect, cexpSymLookup host sp.name modules with
    | .und, none =>
      if sp.Shared then { sp with keep := true }
      else if sp.isWeak then { sp with keep := true, isOldCommon := true }
      else sp
    | .und, some _ => sp
    | .com, some (ts, _) => { absSymbol ts.name ts.value.ptv with isGlobal := true }
    | .com, none => { sp with keep := true, isOldCommon := true }
    | _, some (ts, _) =>
      if sp.isWeak then { absSymbol ts.name ts.value.ptv with isGlobal := true } else sp
    | _, none => { sp with keep := true }

/-- The errors that are counted for a symbol that is looked up. -/
def symErrors (sp : Asymbol) : Nat :=
  match sp.sect, cexpSymLookup host sp.name modules with
  | .und, _ => 0
  | .com, some (ts, _) =>
    (if ts.size < sp.size then 1 else 0) +
      if ts.value.ptv &&& (sp.align - 1).setWidth 64 ≠ 0 then 1 else 0
  | _, some _ => if sp.isWeak then 0 else 1
  | _, none => 0

end

section

variable {host : Host} {modules : List (CexpModuleRec dm)} {ld : LinkData dm} {slot : Nat}
  {sp : Asymbol}

@[simp] theorem addError_st : ld.addError.st = ld.st := rfl

@[simp] theorem addError_newCommons : ld.addError.newCommons = ld.newCommons := rfl

@[simp] theorem addError_errors : ld.addError.errors = ld.errors + 1 := rfl

@[simp] theorem setSym_st (slot : Nat) (sp : Asymbol) : (ld.setSym slot sp).st = ld.st.set slot sp :=
  rfl

@[simp] theorem setSym_newCommons (slot : Nat) (sp : Asymbol) :
    (ld.setSym slot sp).newCommons = ld.newCommons := rfl

@[simp] theorem setSym_errors (slot : Nat) (sp : Asymbol) :
    (ld.setSym slot sp).errors = ld.errors := rfl

/-- A slot keeps its symbol. -/
theorem set_same (hst : ld.st[slot]? = some sp) : ld.st.set slot sp = ld.st := by
  apply List.ext_getElem?
  intro i
  rw [List.getElem?_set]
  split
  · next h =>
    subst h
    rw [hst, if_pos (List.getElem?_eq_some_iff.mp hst).1]
  · rfl

/-- The magic names make a symbol local. -/
theorem noteCallback_st (hst : ld.st[slot]? = some sp) :
    (noteCallback ld slot sp).st =
      ld.st.set slot (if localSym sp then { sp with isLocal := true } else sp) := by
  have hsame : ld.st.set slot sp = ld.st := set_same hst
  rw [noteCallback]
  split
  · next hini =>
    have hlocal : localSym sp = true := by simp [localSym, hini]
    rw [if_pos hlocal]
    dsimp only
    split <;> rfl
  · next hini =>
    split
    · next hfini =>
      have hlocal : localSym sp = true := by simp [localSym, hfini]
      rw [if_pos hlocal]
      dsimp only
      split <;> rfl
    · next hfini =>
      have hlocal : localSym sp = sp.isLocal := by simp [localSym, hini, hfini]
      rw [hlocal]
      split
      · next htrue =>
        have hself : { sp with isLocal := true } = sp := by rw [← htrue]
        rw [hself, hsame]
      · exact hsame.symm

theorem noteCallback_newCommons (slot : Nat) (sp : Asymbol) :
    (noteCallback ld slot sp).newCommons = ld.newCommons := by
  rw [noteCallback]
  split
  · dsimp only
    split <;> rfl
  · split
    · dsimp only
      split <;> rfl
    · rfl

theorem noteCallback_sections (slot : Nat) (sp : Asymbol) :
    (noteCallback ld slot sp).sections = ld.sections := by
  rw [noteCallback]
  split
  · dsimp only
    split <;> rfl
  · split
    · dsimp only
      split <;> rfl
    · rfl

/-- What the loop does with the symbol of a slot. -/
structure Resolves (host : Host) (modules : List (CexpModuleRec dm)) (slot : Nat) (sp : Asymbol)
    (ld ld' : LinkData dm) : Prop where
  st : ld'.st = ld.st.set slot (resolvedSym host modules ld.allocated sp)
  newCommons : ld'.newCommons = ld.newCommons ++ if isNewCommon host modules sp then [slot] else []
  errors : sp.Sought → ld'.errors = ld.errors + symErrors host modules sp

theorem resolveSym_local (hst : ld.st[slot]? = some sp) (hlocal : localSym sp = true) :
    Resolves host modules slot sp ld (resolveSym host modules ld slot) := by
  have hnote := noteCallback_st hst
  rw [if_pos hlocal] at hnote
  have hcommons : isNewCommon host modules sp = false := by
    simp [isNewCommon, Asymbol.Sought, hlocal]
  have hallocated : (noteCallback ld slot sp).allocated sp.sect = ld.allocated sp.sect := by
    unfold LinkData.allocated
    rw [noteCallback_sections slot sp]
  rw [resolveSym]
  simp only [hst]
  rw [if_pos hlocal, hallocated]
  refine ⟨?_, ?_, fun hsought => ?_⟩
  · rw [resolvedSym, if_pos hlocal]
    split
    · rw [setSym_st, hnote, List.set_set]
    · exact hnote
  · rw [hcommons]
    split
    · exact (noteCallback_newCommons slot sp).trans (List.append_nil _).symm
    · exact (noteCallback_newCommons slot sp).trans (List.append_nil _).symm
  · rw [hsought.1] at hlocal
    cases hlocal

variable (ld sp) in
/-- `checkCommon` only counts errors. -/
theorem checkCommon_eq (ts : CexpSym) : ∃ n, checkCommon ld sp ts = { ld with errors := n } ∧
    n = ld.errors + ((if ts.size < sp.size then 1 else 0) +
      if ts.value.ptv &&& (sp.align - 1).setWidth 64 ≠ 0 then 1 else 0) := by
  unfold checkCommon
  split
  · split
    · exact ⟨_, rfl, rfl⟩
    · exact ⟨_, rfl, rfl⟩
  · split
    · exact ⟨_, rfl, rfl⟩
    · exact ⟨_, rfl, rfl⟩

theorem resolveSym_sought (hst : ld.st[slot]? = some sp) (hlocal : localSym sp = false) :
    Resolves host modules slot sp ld (resolveSym host modules ld slot) := by
  have hsame : ld.st = ld.st.set slot sp := (set_same hst).symm
  have hnil : ld.newCommons = ld.newCommons ++ [] := (List.append_nil _).symm
  rw [resolveSym]
  simp only [hst]
  rw [noteCallback_of_not_local hlocal, hlocal, if_neg Bool.false_ne_true]
  by_cases htls : sp.isThreadLocal = true
  · rw [if_pos htls]
    refine ⟨?_, ?_, fun hsought => ?_⟩
    · rw [resolvedSym, hlocal, if_neg Bool.false_ne_true, if_pos htls]
      exact hsame
    · have hcommons : isNewCommon host modules sp = false := by
        simp [isNewCommon, Asymbol.Sought, htls]
      rw [hcommons]
      exact hnil
    · rw [hsought.2] at htls
      cases htls
  · have hsought : sp.Sought := ⟨hlocal, (Bool.not_eq_true _).mp htls⟩
    rw [if_neg htls]
    cases hts : cexpSymLookup host sp.name modules with
    | none =>
      cases hsect : sp.sect with
      | und =>
        dsimp only
        by_cases hshared : sp.value ≠ 0 ∧ sp.isFunction = true
        · rw [if_pos hshared]
          have hcond : sp.Shared := hshared
          constructor <;>
            simp [resolvedSym, isNewCommon, symErrors, hlocal, htls, hts, hsect, hcond]
        · rw [if_neg hshared]
          have hcond : ¬sp.Shared := hshared
          by_cases hweak : sp.isWeak = true
          · constructor <;>
              simp [resolvedSym, isNewCommon, symErrors, hlocal, htls, hts, hsect, hcond, hweak,
                hsought, addNewCommon]
          · constructor <;>
              simp [resolvedSym, isNewCommon, symErrors, hlocal, htls, hts, hsect, hcond, hweak,
                set_same hst]
      | com =>
        constructor <;>
          simp [resolvedSym, isNewCommon, symErrors, hlocal, htls, hts, hsect, hsought, addNewCommon]
      | abs =>
        constructor <;>
          simp [resolvedSym, isNewCommon, symErrors, hlocal, htls, hts, hsect, hsought]
      | sect i =>
        constructor <;>
          simp [resolvedSym, isNewCommon, symErrors, hlocal, htls, hts, hsect, hsought]
    | some p =>
      obtain ⟨ts, mod⟩ := p
      have hdefined : sp.sect ≠ .und → sp.sect ≠ .com →
          Resolves host modules slot sp ld
            (if sp.isWeak then asymFromCexpSym ld slot ts mod else ld.addError) := by
        intro hund hcom
        clear hsame hnil
        by_cases hweak : sp.isWeak = true
        · rw [if_pos hweak]
          constructor <;> cases hsect : sp.sect <;>
            simp_all [resolvedSym, isNewCommon, symErrors, asymFromCexpSym]
        · rw [if_neg hweak]
          constructor <;> cases hsect : sp.sect <;>
            simp_all [resolvedSym, isNewCommon, symErrors, set_same]
      cases hsect : sp.sect with
      | und =>
        constructor <;>
          simp [resolvedSym, isNewCommon, symErrors, hlocal, htls, hts, hsect, hsought, ← hsame]
      | com =>
        obtain ⟨n, hcheck, hn⟩ := checkCommon_eq ld sp ts
        dsimp only
        rw [hcheck]
        constructor
        · simp [resolvedSym, hlocal, htls, hts, hsect, asymFromCexpSym]
        · simp [isNewCommon, hts, asymFromCexpSym]
        · intro _
          simp only [symErrors, hts, hsect]
          exact hn
      | abs => exact hdefined (by simp [hsect]) (by simp [hsect])
      | sect i => exact hdefined (by simp [hsect]) (by simp [hsect])

variable (host modules) in
theorem resolveSym_resolves (hst : ld.st[slot]? = some sp) :
    Resolves host modules slot sp ld (resolveSym host modules ld slot) := by
  cases hlocal : localSym sp with
  | true => exact resolveSym_local hst hlocal
  | false => exact resolveSym_sought hst hlocal

/-! ## All symbols -/

/-- The slots of the new commons in a symbol table. -/
def commonSlots (host : Host) (modules : List (CexpModuleRec dm)) (st : List Asymbol)
    (slots : List Nat) : List Nat :=
  slots.filter fun i => (st[i]?).any (isNewCommon host modules)

variable (host modules) in
theorem foldl_resolves (slots : List Nat) (hnodup : slots.Nodup) (ld : LinkData dm) :
    (∀ i, (slots.foldl (resolveSym host modules) ld).st[i]? =
        if i ∈ slots then (ld.st[i]?).map (resolvedSym host modules ld.allocated)
        else ld.st[i]?) ∧
      (slots.foldl (resolveSym host modules) ld).newCommons =
        ld.newCommons ++ commonSlots host modules ld.st slots ∧
      ∀ i ∈ slots, ∀ sp, ld.st[i]? = some sp → sp.Sought →
        ld.errors + symErrors host modules sp ≤
          (slots.foldl (resolveSym host modules) ld).errors := by
  induction slots generalizing ld with
  | nil =>
    refine ⟨fun i => rfl, (List.append_nil _).symm, ?_⟩
    intro i hi
    cases hi
  | cons slot slots ih =>
    obtain ⟨hslot, hrest⟩ := List.nodup_cons.mp hnodup
    obtain ⟨hih, hihcommons, hiherrors⟩ := ih hrest (resolveSym host modules ld slot)
    obtain ⟨hsections, hframe, -⟩ := (resolveSym_steps host modules ld slot).frame
    have hgrows := (resolveSym_steps host modules ld slot).grows.errors
    have hallocated : (resolveSym host modules ld slot).allocated = ld.allocated := by
      funext sect
      unfold LinkData.allocated
      rw [hsections]
    rw [List.foldl_cons]
    refine ⟨?_, ?_, ?_⟩
    · intro i
      rw [hih i, hallocated]
      by_cases hi : i = slot
      · subst hi
        rw [if_neg hslot, if_pos List.mem_cons_self]
        cases hst : ld.st[i]? with
        | none =>
          have hnone : resolveSym host modules ld i = ld := by
            rw [resolveSym, hst]
          rw [hnone, hst]
          rfl
        | some sp =>
          rw [(resolveSym_resolves host modules hst).st,
            List.getElem?_set_self (List.getElem?_eq_some_iff.mp hst).1]
          rfl
      · rw [hframe i hi]
        simp only [List.mem_cons, hi, false_or]
    · rw [hihcommons]
      have hkept : commonSlots host modules (resolveSym host modules ld slot).st slots =
          commonSlots host modules ld.st slots := by
        apply List.filter_congr
        intro i hi
        rw [hframe i (fun heq => hslot (heq ▸ hi))]
      rw [hkept]
      unfold commonSlots
      rw [List.filter_cons]
      cases hst : ld.st[slot]? with
      | none =>
        have hnone : resolveSym host modules ld slot = ld := by
          rw [resolveSym, hst]
        rw [hnone]
        rfl
      | some sp =>
        rw [(resolveSym_resolves host modules hst).newCommons, List.append_assoc,
          Option.any_some]
        cases isNewCommon host modules sp with
        | true => rfl
        | false => rfl
    · intro i hi sp hst hsought
      rcases List.mem_cons.mp hi with rfl | hi
      · have hself := (resolveSym_resolves host modules hst).errors hsought
        have hlater := (grows_foldl modules
          (fun ld s => (resolveSym_steps host modules ld s).grows) slots
          (resolveSym host modules ld i)).errors
        omega
      · have hst' : (resolveSym host modules ld slot).st[i]? = some sp := by
          rw [hframe i (fun heq => hslot (heq ▸ hi)), hst]
        have hlater := hiherrors i hi sp hst' hsought
        omega

variable (host modules ld) in
/-- The pass is a map over the symbol table. -/
theorem resolveSyms_st : (resolveSyms host modules ld).st =
    ld.st.map (resolvedSym host modules ld.allocated) := by
  apply List.ext_getElem?
  intro i
  rw [resolveSyms, (foldl_resolves host modules _ List.nodup_range ld).1 i, List.getElem?_map]
  split
  · rfl
  · next hi =>
    rw [List.mem_range, Nat.not_lt] at hi
    rw [List.getElem?_eq_none hi]
    rfl

variable (host modules ld) in
theorem resolveSyms_newCommons : (resolveSyms host modules ld).newCommons =
    ld.newCommons ++ commonSlots host modules ld.st (List.range ld.st.length) :=
  (foldl_resolves host modules _ List.nodup_range ld).2.1

variable (host modules) in
/-- The errors of each symbol that is looked up are counted. -/
theorem resolveSyms_errors (hst : ld.st[slot]? = some sp) (hsought : sp.Sought) :
    symErrors host modules sp ≤ (resolveSyms host modules ld).errors := by
  have hmem : slot ∈ List.range ld.st.length :=
    List.mem_range.mpr (List.getElem?_eq_some_iff.mp hst).1
  have hle := (foldl_resolves host modules _ List.nodup_range ld).2.2 slot hmem sp hst hsought
  rw [resolveSyms]
  omega

/-! ## Relocations -/

/-- The relocations leave the symbol as it is: it has a value already, or they find none. -/
def Settled (host : Host) (modules : List (CexpModuleRec dm)) (sp : Asymbol) : Prop :=
  sp.sect = .und → cexpSymLookup host sp.name modules = none

theorem performRelocation_st (file : ObjFile) (i k s : Nat) :
    (performRelocation file i k ld s).st = ld.st := by
  rw [performRelocation]
  split
  · rfl
  · split
    · rfl
    · rfl

variable {nmod : CexpModule} {file : ObjFile}

theorem relocate_keeps {i : Nat} (r : Option Nat × Nat) (hst : ld.st[slot]? = some sp)
    (h : Settled host modules sp) :
    (relocate host modules nmod file i ld r).st[slot]? = some sp := by
  obtain ⟨_ | s, k⟩ := r
  · exact hst
  · by_cases hs : slot = s
    · subst hs
      simp only [relocate, hst]
      split
      · next hund =>
        rw [h hund]
        exact hst
      · split
        · rw [performRelocation_st, hst]
        · exact hst
      · rw [performRelocation_st, hst]
    · rw [(relocate_steps host modules ld nmod file i s k).frame.2.1 slot hs, hst]

theorem foldl_relocate_keeps {i : Nat} (rs : List (Option Nat × Nat))
    (hst : ld.st[slot]? = some sp) (h : Settled host modules sp) :
    (rs.foldl (relocate host modules nmod file i) ld).st[slot]? = some sp := by
  induction rs generalizing ld with
  | nil => exact hst
  | cons r rs ih => exact ih (relocate_keeps r hst h)

theorem sReloc_keeps (i : Nat) (hst : ld.st[slot]? = some sp) (h : Settled host modules sp) :
    (sReloc host modules nmod file ld i).st[slot]? = some sp := by
  rw [sReloc]
  split
  · exact hst
  · split
    · split
      · exact hst
      · split
        · split
          · exact hst
          · exact foldl_relocate_keeps _ hst h
        · exact hst
    · exact hst

theorem foldl_sReloc_keeps (is : List Nat) (hst : ld.st[slot]? = some sp)
    (h : Settled host modules sp) :
    (is.foldl (sReloc host modules nmod file) ld).st[slot]? = some sp := by
  induction is generalizing ld with
  | nil => exact hst
  | cons i is ih => exact ih (sReloc_keeps i hst h)

variable (host modules nmod file ld) in
theorem foldl_sReloc_sections (is : List Nat) :
    (is.foldl (sReloc host modules nmod file) ld).sections = ld.sections := by
  induction is generalizing ld with
  | nil => rfl
  | cons i is ih => exact (ih _).trans (sReloc_sections host modules ld file nmod i)

theorem relocateAll_keeps {ld' : LinkData dm}
    (hall : relocateAll host modules nmod file ld = .ok ld') :
    ld'.sections = ld.sections ∧
      ∀ (slot : Nat) (sp : Asymbol), ld.st[slot]? = some sp → Settled host modules sp →
        ld'.st[slot]? = some sp := by
  rw [relocateAll] at hall
  split at hall
  · split at hall
    · cases hall
      exact ⟨rfl, fun _ _ hst _ => hst⟩
    · cases hall
  · split at hall
    · dsimp only at hall
      split at hall
      · cases hall
      · cases hall
        exact ⟨foldl_sReloc_sections host modules ld nmod file _,
          fun _ _ hst h => foldl_sReloc_keeps _ hst h⟩
    · cases hall

end

/-! ## What linking leaves -/

section

variable {host : Host} {modules : List (CexpModuleRec host.dm)} {nmod : CexpModule}
  {file : ObjFile}

/-- The linker's data when the new commons are placed. -/
def sortedData (host : Host) (modules : List (CexpModuleRec host.dm)) (file : ObjFile)
    (sections : List Section) : LinkData host.dm :=
  sortCommons host (resolveSyms host modules (linkInit sections file.symtab))

variable (host modules file) in
theorem sortedData_allocated (sections : List Section) :
    (sortedData host modules file sections).allocated =
      (linkInit sections file.symtab : LinkData host.dm).allocated := by
  funext sect
  unfold LinkData.allocated
  have hkept := foldl_resolveSym_sections host modules
    (linkInit sections file.symtab : LinkData host.dm) (List.range file.symtab.length)
  have hsorted : (sortedData host modules file sections).sections = _ := hkept
  rw [hsorted]

variable (host modules file) in
theorem sortedData_st (sections : List Section) : (sortedData host modules file sections).st =
    file.symtab.map (resolvedSym host modules (sortedData host modules file sections).allocated) := by
  rw [sortedData_allocated]
  exact resolveSyms_st host modules (linkInit sections file.symtab)

variable (host modules file) in
theorem sortedData_newCommons (sections : List Section) :
    (sortedData host modules file sections).newCommons.Perm
      (commonSlots host modules file.symtab (List.range file.symtab.length)) := by
  have hsort := host.qsort_perm
    (alignSizeCompare (resolveSyms host modules (linkInit sections file.symtab)).st)
    (resolveSyms host modules (linkInit sections file.symtab)).newCommons
  exact hsort.trans (List.Perm.of_eq (resolveSyms_newCommons host modules _))

variable (host modules file) in
theorem sortedData_sections (sections : List Section) :
    (sortedData host modules file sections).sections = sections :=
  foldl_resolveSym_sections host modules (linkInit sections file.symtab) _

theorem clearAlloc_length (l : List Section) (sect : SecRef) :
    (clearAlloc l sect).length = l.length := by
  cases sect with
  | sect i => exact List.length_modify ..
  | und => rfl
  | abs => rfl
  | com => rfl

theorem clearGroup_length {n : Nat} {frst sect : SecRef} {l l' : List Section}
    (h : clearGroup frst n l sect = .ok l') : l'.length = l.length := by
  induction n generalizing l sect with
  | zero => cases h
  | succ n ih =>
    unfold clearGroup at h
    dsimp only at h
    split at h
    · cases h
      exact clearAlloc_length l sect
    · split at h
      · cases h
        exact clearAlloc_length l sect
      · exact (ih h).trans (clearAlloc_length l sect)

theorem sEliminateLinkonce_length {l l' : List Section} {i : Nat}
    (h : sEliminateLinkonce host modules l i = .ok l') : l'.length = l.length := by
  unfold sEliminateLinkonce at h
  split at h
  · cases h
    rfl
  · split at h
    · dsimp only at h
      split at h
      · split at h
        · cases h
          exact clearAlloc_length l _
        · exact (clearGroup_length h).trans (clearAlloc_length l _)
      · cases h
        exact clearAlloc_length l _
    · cases h
      rfl

theorem foldlM_eliminate_length {is : List Nat} {l l' : List Section}
    (h : is.foldlM (sEliminateLinkonce host modules) l = .ok l') : l'.length = l.length := by
  induction is generalizing l with
  | nil =>
    cases h
    rfl
  | cons i is ih =>
    rw [List.foldlM_cons] at h
    cases hi : sEliminateLinkonce host modules l i with
    | error e =>
      rw [hi] at h
      cases h
    | ok l₁ =>
      rw [hi] at h
      exact (ih h).trans (sEliminateLinkonce_length hi)

/-- No section is taken out of the list. -/
theorem keptSections_length {sections : List Section}
    (h : keptSections host modules file = .ok sections) :
    sections.length = file.sections.length :=
  (foldlM_eliminate_length h).trans (List.length_map ..)

/-- What the relocations start with for a symbol that is no new common. -/
theorem slurpSymtab_resolved {sections : List Section} {text : Option Nat}
    {ld : LinkData host.dm} {cst : CexpSymTbl}
    (h : slurpSymtab host modules file text (linkInit sections file.symtab) = .ok (ld, cst))
    {slot : Nat} {sp : Asymbol} (hsp : file.symtab[slot]? = some sp)
    (hold : isNewCommon host modules sp = false) :
    ∃ allocated, ld.st[slot]? = some (resolvedSym host modules allocated sp) := by
  have hcommons : makeNewCommons file (sortedData host modules file sections) = .ok ld :=
    (slurpSymtab_ok h).1
  have hslot : slot ∉ (sortedData host modules file sections).newCommons := by
    intro hmem
    have hnew := (List.mem_filter.mp
      ((sortedData_newCommons host modules file sections).mem_iff.mp hmem)).2
    rw [hsp, Option.any_some, hold] at hnew
    cases hnew
  have hst := (makeNewCommons_frame slot hcommons).2 hslot
  rw [sortedData_st host modules file, List.getElem?_map, hsp] at hst
  exact ⟨_, hst⟩

/-- A symbol that is no new common stays as it was resolved. -/
theorem link_resolved {ld : LinkData host.dm} {cst : CexpSymTbl}
    (h : link host modules nmod file = .ok (ld, cst)) {slot : Nat} {sp : Asymbol}
    (hsp : file.symtab[slot]? = some sp) (hold : isNewCommon host modules sp = false)
    (hsettled : ∀ allocated, Settled host modules (resolvedSym host modules allocated sp)) :
    ∃ allocated, ld.st[slot]? = some (resolvedSym host modules allocated sp) := by
  obtain ⟨sections, ld₁, cst₁, -, hslurp, hreloc, -⟩ := link_ok h
  obtain ⟨allocated, hst⟩ := slurpSymtab_resolved hslurp hsp hold
  exact ⟨allocated, (relocateAll_keeps hreloc).2 slot _ hst (hsettled allocated)⟩

end

end Cexp
