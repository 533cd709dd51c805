import Cexp.Linker.Image
import Cexp.Modules.Unique

/-!
# The values of symbols

A symbol of a file has one value for all relocations (`Asymbol.linkedValue`): that of the loaded
module from which the linker takes it, or the one that the file gives it. A relocation is performed
against a symbol with that value (`symTarget_linked`), or its symbol is in a section that has been
dropped. The symbol table that is made before the sections have their addresses does not depend on
them (`slurpSymtab_vma`).
-/

namespace Cexp

section

variable {dm : DataModel} (host : Host) (modules : List (CexpModuleRec dm)) (nmod : CexpModule)
  (vma : Nat → BitVec 64)

/-- The value of a symbol of the file: that of the loaded module from which the linker takes it, or
the one that the file gives it. There is none for a common symbol that no module has, and for an
undefined one. -/
def Asymbol.linkedValue (sp : Asymbol) : Option (BitVec 64) :=
  match sp.sect with
  | .und => (cexpSymLookup host sp.name modules).map fun t =>
    if myDsoHandle host modules = some ⟨t.2.handle, t.1⟩ then BitVec.ofNat 64 nmod
    else t.1.value.ptv
  | .com =>
    if sp.Sought then (cexpSymLookup host sp.name modules).map fun t => t.1.value.ptv else none
  | _ =>
    if sp.Sought ∧ sp.isWeak then
      some ((cexpSymLookup host sp.name modules).elim (asymbolValue vma sp) fun t => t.1.value.ptv)
    else some (asymbolValue vma sp)

variable {host modules nmod vma} {sp sp' tp : Asymbol} {value : BitVec 64}
  {allocated allocated' : SecRef → Bool}

theorem isNewCommon_of_linkedValue (h : sp.linkedValue host modules nmod vma = some value) :
    isNewCommon host modules sp = false := by
  unfold Asymbol.linkedValue at h
  unfold isNewCommon
  cases hsect : sp.sect with
  | und =>
    rw [hsect] at h
    obtain ⟨t, hlookup, -⟩ := Option.map_eq_some_iff.mp h
    simp [hlookup]
  | com =>
    rw [hsect] at h
    dsimp only at h
    split at h
    · obtain ⟨t, hlookup, -⟩ := Option.map_eq_some_iff.mp h
      simp [hlookup]
    · cases h
  | abs => simp
  | sect j => simp

/-- The symbols have the same place. -/
structure SamePlace (sp sp' : Asymbol) : Prop where
  sect : sp'.sect = sp.sect
  name : sp'.name = sp.name
  value : sp'.value = sp.value

theorem SamePlace.asymbolValue (h : SamePlace sp sp') (hcom : sp.sect ≠ .com) :
    Cexp.asymbolValue vma sp' = Cexp.asymbolValue vma sp := by
  unfold Cexp.asymbolValue
  rw [h.sect, h.value]
  cases hsect : sp.sect with
  | com => exact absurd hsect hcom
  | und => rfl
  | abs => rfl
  | sect j => rfl

/-- An undefined symbol gets the value of the one that is found, or the handle of the module. -/
theorem SamePlace.symTarget_und (hsame : SamePlace sp sp') (hund : sp.sect = .und)
    (h : symTarget host modules nmod allocated sp' = .found tp) :
    tp.sect = .abs ∧ sp.linkedValue host modules nmod vma = some tp.value := by
  unfold symTarget at h
  unfold Asymbol.linkedValue
  rw [hsame.sect, hsame.name, hund] at h
  rw [hund]
  dsimp only at h ⊢
  cases hlookup : cexpSymLookup host sp.name modules with
  | none =>
    rw [hlookup] at h
    cases h
  | some t =>
    rw [hlookup] at h
    dsimp only at h
    rw [Option.map_some]
    split at h
    · next hdso =>
      rw [if_pos hdso]
      split at h
      · cases h
        exact ⟨rfl, rfl⟩
      · cases h
    · next hdso =>
      rw [if_neg hdso]
      cases h
      exact ⟨rfl, rfl⟩

/-- The symbol is one that a symbol of a loaded module replaces. -/
def Asymbol.Yields (sp : Asymbol) : Prop :=
  sp.Sought ∧ (sp.sect = .com ∨ sp.sect ≠ .und ∧ sp.isWeak = true)

theorem resolvedSym_same (hno : sp.Yields → cexpSymLookup host sp.name modules = none) :
    SamePlace sp (resolvedSym host modules allocated sp) := by
  unfold resolvedSym
  split
  · split <;> exact ⟨rfl, rfl, rfl⟩
  next hlocal =>
  split
  · exact ⟨rfl, rfl, rfl⟩
  next htls =>
  have hsought : sp.Sought := ⟨by simpa using hlocal, by simpa using htls⟩
  split
  · split
    · exact ⟨rfl, rfl, rfl⟩
    · split <;> exact ⟨rfl, rfl, rfl⟩
  · exact ⟨rfl, rfl, rfl⟩
  · next hcom hlookup =>
    rw [hno ⟨hsought, .inl hcom⟩] at hlookup
    cases hlookup
  · exact ⟨rfl, rfl, rfl⟩
  · next hlookup hund _ =>
    split
    · next hweak =>
      rw [hno ⟨hsought, .inr ⟨hund, hweak⟩⟩] at hlookup
      cases hlookup
    · exact ⟨rfl, rfl, rfl⟩
  · exact ⟨rfl, rfl, rfl⟩

theorem linkedValue_yields {ts : CexpSym} {m : CexpModuleRec dm} (hyields : sp.Yields)
    (hlookup : cexpSymLookup host sp.name modules = some (ts, m)) :
    sp.linkedValue host modules nmod vma = some ts.value.ptv := by
  obtain ⟨hsought, hcases⟩ := hyields
  unfold Asymbol.linkedValue
  rw [hlookup]
  rcases hcases with hcom | ⟨hund, hweak⟩
  · rw [hcom]
    exact if_pos hsought
  · cases hsect : sp.sect with
    | und => exact absurd hsect hund
    | com => exact if_pos hsought
    | abs => exact if_pos ⟨hsought, hweak⟩
    | sect j => exact if_pos ⟨hsought, hweak⟩

/-- A symbol that stays has the value that the file gives it. -/
theorem linkedValue_own (hno : sp.Yields → cexpSymLookup host sp.name modules = none)
    (hund : sp.sect ≠ .und) (h : sp.linkedValue host modules nmod vma = some value) :
    sp.sect ≠ .com ∧ asymbolValue vma sp = value := by
  have hown : (if sp.Sought ∧ sp.isWeak then
      some ((cexpSymLookup host sp.name modules).elim (asymbolValue vma sp) fun t => t.1.value.ptv)
      else some (asymbolValue vma sp)) = some (asymbolValue vma sp) := by
    split
    · next hweak =>
      rw [hno ⟨hweak.1, .inr ⟨hund, hweak.2⟩⟩, Option.elim_none]
    · rfl
  unfold Asymbol.linkedValue at h
  cases hsect : sp.sect with
  | und => exact absurd hsect hund
  | com =>
    rw [hsect] at h
    dsimp only at h
    split at h
    · next hsought =>
      rw [hno ⟨hsought, .inl hsect⟩] at h
      cases h
    · cases h
  | abs =>
    rw [hsect] at h
    exact ⟨by simp, Option.some.inj (hown.symm.trans h)⟩
  | sect j =>
    rw [hsect] at h
    exact ⟨by simp, Option.some.inj (hown.symm.trans h)⟩

/-- What is left in the slot of a symbol: a symbol of a loaded module in its stead, or the symbol
itself. -/
theorem resolvedSym_cases (host : Host) (modules : List (CexpModuleRec host.dm)) (sp : Asymbol)
    (allocated : SecRef → Bool) :
    (∃ ts m, cexpSymLookup host sp.name modules = some (ts, m) ∧ sp.Yields ∧
      resolvedSym host modules allocated sp = boundSym ts) ∨
    (sp.Yields → cexpSymLookup host sp.name modules = none) ∧
      SamePlace sp (resolvedSym host modules allocated sp) := by
  by_cases hno : sp.Yields → cexpSymLookup host sp.name modules = none
  · exact .inr ⟨hno, resolvedSym_same hno⟩
  · rw [Classical.not_imp] at hno
    obtain ⟨hyields, hlookup⟩ := hno
    obtain ⟨⟨ts, m⟩, hlookup⟩ := Option.ne_none_iff_exists'.mp hlookup
    exact .inl ⟨ts, m, hlookup, hyields, resolvedSym_bound hyields.1 hlookup hyields.2 allocated⟩

end

section

variable {host : Host} {modules : List (CexpModuleRec host.dm)} {nmod : CexpModule}
  {vma : Nat → BitVec 64} {sp tp : Asymbol} {value : BitVec 64}
  {allocated allocated' : SecRef → Bool}

/-- A relocation is performed against a symbol that has the value of the symbol in the file. -/
theorem symTarget_linked (h : sp.linkedValue host modules nmod vma = some value)
    (hfound : symTarget host modules nmod allocated
      (resolvedSym host modules allocated' sp) = .found tp) :
    tp.sect ≠ .com ∧ asymbolValue vma tp = value := by
  rcases resolvedSym_cases host modules sp allocated' with
    ⟨ts, m, hlookup, hyields, hbound⟩ | ⟨hno, hsame⟩
  · rw [hbound] at hfound
    cases hfound
    rw [linkedValue_yields hyields hlookup] at h
    exact ⟨by simp [boundSym, absSymbol], Option.some.inj h⟩
  · by_cases hund : sp.sect = .und
    · have hdone : tp.sect = .abs ∧ sp.linkedValue host modules nmod vma = some tp.value :=
        hsame.symTarget_und hund hfound
      rw [hdone.2] at h
      refine ⟨by simp [hdone.1], ?_⟩
      unfold asymbolValue
      rw [hdone.1]
      exact Option.some.inj h
    · obtain ⟨hcom, hvalue⟩ := linkedValue_own hno hund h
      rcases symTarget_cases hfound with ⟨-, rfl⟩ | ⟨hund', -⟩
      · exact ⟨hsame.sect ▸ hcom, (hsame.asymbolValue hcom).trans hvalue⟩
      · exact absurd (hsame.sect.symm.trans hund') hund

/-- A relocation that is ignored is against a symbol in a section that has been dropped. -/
theorem symTarget_dropped (h : symTarget host modules nmod allocated
      (resolvedSym host modules allocated' sp) = .dropped) :
    ∃ j, sp.sect = .sect j ∧ allocated (.sect j) = false := by
  rcases resolvedSym_cases host modules sp allocated' with ⟨ts, m, -, -, hbound⟩ | ⟨-, hsame⟩
  · rw [hbound] at h
    cases h
  · unfold symTarget at h
    rw [hsame.sect] at h
    split at h
    · split at h
      · cases h
      · split at h
        · split at h <;> cases h
        · cases h
    · next j hsect =>
      split at h
      · cases h
      · next halloc => exact ⟨j, hsect, by simpa using halloc⟩
    · cases h

/-- A symbol that the file defines has a value. -/
theorem linkedValue_defined (hund : sp.sect ≠ .und) (hcom : sp.sect ≠ .com) :
    ∃ value, sp.linkedValue host modules nmod vma = some value := by
  unfold Asymbol.linkedValue
  cases hsect : sp.sect with
  | und => exact absurd hsect hund
  | com => exact absurd hsect hcom
  | abs =>
    dsimp only
    split
    · exact ⟨_, rfl⟩
    · exact ⟨_, rfl⟩
  | sect j =>
    dsimp only
    split
    · exact ⟨_, rfl⟩
    · exact ⟨_, rfl⟩

/-- A relocation whose symbol has been found is against one that has a value, or against a common
symbol. -/
theorem linkedValue_found (hcom : sp.sect ≠ .com)
    (hfound : symTarget host modules nmod allocated
      (resolvedSym host modules allocated' sp) = .found tp) :
    ∃ value, sp.linkedValue host modules nmod vma = some value := by
  by_cases hund : sp.sect = .und
  · rcases resolvedSym_cases host modules sp allocated' with
      ⟨ts, m, hlookup, hyields, -⟩ | ⟨-, hsame⟩
    · exact ⟨_, linkedValue_yields hyields hlookup⟩
    · exact ⟨_, (hsame.symTarget_und hund hfound).2⟩
  · exact linkedValue_defined hund hcom

end

/-! ## Addresses and symbols -/

section

variable {dm : DataModel} {host : Host} {vma vma' : Nat → BitVec 64}

/-- The address of a section is no part of an undefined or common symbol. -/
theorem asymbolValue_unplaced (vma vma' : Nat → BitVec 64) {sp : Asymbol}
    (h : sp.sect = .und ∨ sp.sect = .com) :
    asymbolValue vma sp = asymbolValue vma' sp := by
  unfold asymbolValue
  rcases h with h | h
  · rw [h]
  · rw [h]

theorem assign_vma {text : Option Nat} {ext : Nat × Asymbol}
    (h : ext.2.isOldCommon = true → ext.2.sect = .und ∨ ext.2.sect = .com) :
    assign dm vma text ext = assign dm vma' text ext := by
  funext cesp
  unfold assign
  dsimp only
  by_cases hold : ext.2.isOldCommon = true
  · rw [asymbolValue_unplaced vma vma' (h hold)]
  · rw [Bool.not_eq_true] at hold
    simp only [hold, Bool.and_false, Bool.false_eq_true, if_false]

theorem acceptedSyms_congr {Ext : Type} {filter : Ext → Option CStr}
    {assign assign' : Ext → CexpSym → CexpSym} {syms : List Ext}
    (h : ∀ e ∈ syms, assign e = assign' e) :
    acceptedSyms filter assign syms = acceptedSyms filter assign' syms := by
  induction syms with
  | nil => rfl
  | cons e syms ih =>
    rw [List.forall_mem_cons] at h
    rw [acceptedSyms, acceptedSyms, ih h.2, h.1]

/-- Symbols that are set apart as commons are undefined or common. -/
theorem resolvedSym_oldCommon {modules : List (CexpModuleRec dm)} {allocated : SecRef → Bool}
    {sp : Asymbol} (hnew : sp.isOldCommon = false)
    (hold : (resolvedSym host modules allocated sp).isOldCommon = true) :
    (resolvedSym host modules allocated sp).sect = .und ∨
      (resolvedSym host modules allocated sp).sect = .com := by
  unfold resolvedSym at hold ⊢
  by_cases hlocal : localSym sp = true
  · rw [if_pos hlocal] at hold
    split at hold
    · exact absurd hold (by simp [hnew])
    · exact absurd hold (by simp [hnew])
  by_cases hthread : sp.isThreadLocal = true
  · rw [if_neg hlocal, if_pos hthread, hnew] at hold
    cases hold
  rw [if_neg hlocal, if_neg hthread] at hold ⊢
  cases hsect : sp.sect with
  | und =>
    rw [hsect] at hold
    left
    cases hfound : cexpSymLookup host sp.name modules with
    | none =>
      dsimp only
      split
      · rfl
      · split
        · rfl
        · exact hsect
    | some found => exact hsect
  | com =>
    rw [hsect] at hold
    cases hfound : cexpSymLookup host sp.name modules with
    | none => exact .inr rfl
    | some found =>
      rw [hfound] at hold
      cases hold
  | abs =>
    rw [hsect] at hold
    cases hfound : cexpSymLookup host sp.name modules with
    | none =>
      rw [hfound, hnew] at hold
      cases hold
    | some found =>
      rw [hfound] at hold
      dsimp only at hold
      split at hold
      · cases hold
      · rw [hnew] at hold
        cases hold
  | sect j =>
    rw [hsect] at hold
    cases hfound : cexpSymLookup host sp.name modules with
    | none =>
      rw [hfound, hnew] at hold
      cases hold
    | some found =>
      rw [hfound] at hold
      dsimp only at hold
      split at hold
      · cases hold
      · rw [hnew] at hold
        cases hold

/-- The symbol table of a file, up to the values, does not depend on the addresses. -/
theorem slurpSymtab_vma {modules : List (CexpModuleRec host.dm)} {text : Option Nat}
    {ld : LinkData host.dm} (file : ObjFile) (placed : Bool) (vma : Nat → BitVec 64)
    (hnew : ∀ sp ∈ ld.st, sp.isOldCommon = false) :
    slurpSymtab host modules { file with placed := placed, vma := vma } text ld =
      slurpSymtab host modules file text ld := by
  have hst : (sortCommons host (resolveSyms host modules ld)).st =
      ld.st.map (resolvedSym host modules ld.allocated) := resolveSyms_st host modules ld
  have htable : ∀ sects : List Section,
      host.cexpCreateSymTbl (filter sects) (assign host.dm vma text)
          ((List.range (sortCommons host (resolveSyms host modules ld)).st.length).zip
            (sortCommons host (resolveSyms host modules ld)).st) =
        host.cexpCreateSymTbl (filter sects) (assign host.dm file.vma text)
          ((List.range (sortCommons host (resolveSyms host modules ld)).st.length).zip
            (sortCommons host (resolveSyms host modules ld)).st) := by
    intro sects
    unfold Host.cexpCreateSymTbl Cexp.cexpCreateSymTbl cexpAddSymTbl
    rw [acceptedSyms_congr]
    intro ext hext
    apply assign_vma
    intro hold
    have hmem := (List.of_mem_zip hext).2
    rw [hst] at hmem
    obtain ⟨sp, hsp, heq⟩ := List.mem_map.mp hmem
    rw [← heq] at hold ⊢
    exact resolvedSym_oldCommon (hnew sp hsp) hold
  unfold slurpSymtab
  dsimp only
  rw [htable]
  rfl

end

end Cexp
