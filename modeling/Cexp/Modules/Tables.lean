import Cexp.Modules.Resolve
import Cexp.Modules.Store

/-!
# The names in the table of a new module

The table of a new module has the symbols that `resolve_syms` marks to be kept. Those that are no
section names are names that no loaded module has (`link_defines`). Sorting a table adds no names
but the one of the marker that stops its inner loop.
-/

namespace Cexp

/-! ## Sorting -/

section

variable {cs : CharSign} {syms syms' : List CexpSym}

/-- The loop does nothing but copy elements. -/
theorem squeezeLoop_subset {n to' fr last : Nat}
    (h : squeezeLoop cs n syms to' fr = some (syms', last)) : syms' ⊆ syms := by
  fun_induction squeezeLoop cs n syms to' fr with
  | case1 => cases h
  | case2 => cases h
  | case3 syms to' fr _ fr' _ s hs ih =>
    intro e he
    rcases List.mem_or_eq_of_mem_set (ih h he) with hmem | rfl
    · exact hmem
    · exact List.mem_of_getElem? hs
  | case4 =>
    cases h
    exact List.Subset.refl _

theorem mem_setName {i : Nat} {name : Option CStr} {e : CexpSym} (h : e ∈ setName syms i name) :
    e ∈ syms ∨ e.name = name := by
  unfold setName at h
  split at h
  · exact .inl h
  · rcases List.mem_or_eq_of_mem_set h with hmem | rfl
    · exact .inl hmem
    · exact .inr rfl

/-- What a sorted table holds was in the table before, but for the marker. The table ends where an
element has no name. -/
theorem mem_of_sorted {qsort : List CexpSym → List CexpSym} (hperm : ∀ l, (qsort l).Perm l)
    {t t' : CexpSymTbl} (hlast : (t.syms[t.nentries]?).bind CexpSym.name = none)
    (h : cexpSortSymTbl cs qsort t = some t') {e : CexpSym} {n : CStr} (he : e ∈ t'.syms)
    (hname : e.name = some n) (hn : n ≠ marker) : e ∈ t.syms := by
  unfold cexpSortSymTbl at h
  split at h
  · cases h
    exact he
  · dsimp only at h
    split at h
    · cases h
    · next syms to' hloop =>
      cases h
      have hlength : (qsort t.entries).length = min t.nentries t.syms.length := by
        rw [(hperm t.entries).length_eq, CexpSymTbl.entries, List.length_take]
      have hold : ((qsort t.entries ++ t.syms.drop t.nentries)[t.nentries]?).bind CexpSym.name =
          none := by
        rw [List.getElem?_append_right (by omega), List.getElem?_drop]
        by_cases hle : t.nentries ≤ t.syms.length
        · rw [hlength, Nat.min_eq_left hle, Nat.sub_self, Nat.add_zero]
          exact hlast
        · rw [List.getElem?_eq_none (by omega)]
          rfl
      rcases mem_setName he with hmem | hnone
      · rcases mem_setName (squeezeLoop_subset hloop hmem) with hmem | hmarker
        · rcases List.mem_append.mp hmem with hmem | hmem
          · exact List.mem_of_mem_take ((hperm t.entries).mem_iff.mp hmem)
          · exact List.mem_of_mem_drop hmem
        · rw [hname, Option.some.injEq] at hmarker
          exact absurd hmarker hn
      · rw [hname, hold] at hnone
        cases hnone

end

/-- A table that has been filled ends where an element has no name. -/
theorem CexpSymTbl.Filled.ends {t : CexpSymTbl} {entries : List CexpSym} {last : CexpSym}
    (h : t.Filled entries last) : (t.syms[t.nentries]?).bind CexpSym.name = none := by
  rw [h.nentries, h.syms, List.getElem?_append_right le_rfl, Nat.sub_self]
  exact h.last

/-! ## Names -/

/-- What tells the names of a table: the name of an entry and its flags. -/
def CexpSym.tag (e : CexpSym) : Option CStr × Nat := (e.name, e.flags)

/-- The table has an entry of the name. -/
def Names (t : CexpSymTbl) (n : CStr) : Prop := ∃ e ∈ t.entries, e.name = some n

/-- The table has an entry of the name that stands for no section. The marker is no name. -/
def Defines (t : CexpSymTbl) (n : CStr) : Prop :=
  n ≠ marker ∧ ∃ e ∈ t.entries, e.name = some n ∧ e.flags &&& CEXP_SYMFLG_SECT = 0

section

variable {t t' : CexpSymTbl} {n : CStr}

theorem Defines.names (h : Defines t n) : Names t n := by
  obtain ⟨-, e, he, hname, -⟩ := h
  exact ⟨e, he, hname⟩

/-- The values do not matter. -/
theorem Defines.of_tags (h : Defines t' n)
    (htags : t'.syms.map CexpSym.tag = t.syms.map CexpSym.tag) (hcount : t'.nentries = t.nentries) :
    Defines t n := by
  obtain ⟨hn, e', he', hname, hflags⟩ := h
  have hentries : t'.entries.map CexpSym.tag = t.entries.map CexpSym.tag := by
    unfold CexpSymTbl.entries
    rw [List.map_take, List.map_take, htags, hcount]
  have hmem : e'.tag ∈ t.entries.map CexpSym.tag := hentries ▸ List.mem_map_of_mem he'
  obtain ⟨e, he, htag⟩ := List.mem_map.mp hmem
  rw [CexpSym.tag, CexpSym.tag, Prod.mk.injEq] at htag
  exact ⟨hn, e, he, htag.1.trans hname, htag.2 ▸ hflags⟩

/-- A name of a sorted table. -/
theorem Defines.of_sorted {cs : CharSign} {qsort : List CexpSym → List CexpSym} (h : Defines t' n)
    (hperm : ∀ l, (qsort l).Perm l)
    (hlast : (t.syms[t.nentries]?).bind CexpSym.name = none)
    (hsort : cexpSortSymTbl cs qsort t = some t') :
    ∃ e ∈ t.syms, e.name = some n ∧ e.flags &&& CEXP_SYMFLG_SECT = 0 := by
  obtain ⟨hn, e, he, hname, hflags⟩ := h
  exact ⟨e, mem_of_sorted hperm hlast hsort (List.mem_of_mem_take he) hname hn, hname, hflags⟩

end

/-! ## The table of an object file -/

/-- The symbols are as `bfd_canonicalize_symtab` reads them: none is marked to be kept. -/
def ObjFile.Read (file : ObjFile) : Prop := ∀ sp ∈ file.symtab, sp.keep = false

instance (file : ObjFile) : Decidable file.Read :=
  inferInstanceAs (Decidable (∀ sp ∈ file.symtab, sp.keep = false))

section

variable {dm : DataModel} {host : Host} {modules : List (CexpModuleRec dm)} {sp : Asymbol}

/-- A symbol that is kept is a section name, or no loaded module has its name. -/
theorem resolvedSym_keep {allocated : SecRef → Bool} (hsp : sp.keep = false)
    (h : (resolvedSym host modules allocated sp).keep = true) :
    (resolvedSym host modules allocated sp).isSectionSym = true ∨
      (resolvedSym host modules allocated sp).name = sp.name ∧
        cexpSymLookup host sp.name modules = none := by
  have hnot : sp.keep ≠ true := by
    rw [hsp]
    exact Bool.false_ne_true
  unfold resolvedSym at h ⊢
  split at h
  · next hlocal =>
    rw [if_pos hlocal]
    split at h
    · next hsect =>
      rw [if_pos hsect]
      exact .inl hsect.1
    · exact absurd h hnot
  · next hlocal =>
    rw [if_neg hlocal]
    split at h
    · exact absurd h hnot
    · next htls =>
      rw [if_neg htls]
      split at h
      · next hund hnone =>
        rw [hund, hnone]
        split at h
        · next hshared =>
          rw [if_pos hshared]
          exact .inr ⟨rfl, rfl⟩
        · next hshared =>
          rw [if_neg hshared]
          split at h
          · next hweak =>
            rw [if_pos hweak]
            exact .inr ⟨rfl, rfl⟩
          · exact absurd h hnot
      · exact absurd h hnot
      · cases h
      · next hcom hnone =>
        rw [hcom, hnone]
        exact .inr ⟨rfl, rfl⟩
      · split at h
        · cases h
        · exact absurd h hnot
      · next hnone _ _ => exact .inr ⟨rfl, hnone⟩

end

theorem mem_acceptedSyms {Ext : Type} {filter : Ext → Option CStr}
    {assign : Ext → CexpSym → CexpSym} {l : List Ext} {e : CexpSym}
    (h : e ∈ acceptedSyms filter assign l) : ∃ x ∈ l, ∃ name, filter x = some name ∧
      e = { assign x (newSym name) with name := some name } := by
  induction l with
  | nil => cases h
  | cons x l ih =>
    unfold acceptedSyms at h
    split at h
    · obtain ⟨y, hy, name, hname, heq⟩ := ih h
      exact ⟨y, List.mem_cons_of_mem x hy, name, hname, heq⟩
    · next name hname =>
      rcases List.mem_cons.mp h with rfl | h
      · exact ⟨x, List.mem_cons_self, name, hname, rfl⟩
      · obtain ⟨y, hy, name', hname', heq⟩ := ih h
        exact ⟨y, List.mem_cons_of_mem x hy, name', hname', heq⟩

theorem setValues_tags (vma : Nat → BitVec 64) (st : List Asymbol) (syms : List CexpSym) :
    (setValues vma st syms).map CexpSym.tag = syms.map CexpSym.tag := by
  induction syms with
  | nil => rfl
  | cons e syms ih =>
    unfold setValues
    split
    · rfl
    · split
      · rw [List.map_cons, List.map_cons, ih]
      · rw [List.map_cons, List.map_cons, ih]
        rfl

/-- The flag of section names. -/
theorem assign_section {dm : DataModel} {vma : Nat → BitVec 64} {text : Option Nat}
    {ext : Nat × Asymbol} {name : CStr}
    (h : (assign dm vma text ext (newSym name)).flags &&& CEXP_SYMFLG_SECT = 0) :
    ext.2.isSectionSym = false := by
  cases hsect : ext.2.isSectionSym with
  | false => rfl
  | true =>
    have hflags : (assign dm vma text ext (newSym name)).flags =
        (0 ||| (if ext.2.isGlobal then CEXP_SYMFLG_GLBL else 0) |||
          (if ext.2.isWeak then CEXP_SYMFLG_WEAK else 0) ||| CEXP_SYMFLG_SECT) := by
      unfold assign newSym
      dsimp only
      rw [if_pos hsect]
    rw [hflags] at h
    cases hglobal : ext.2.isGlobal <;> cases hweak : ext.2.isWeak <;>
      rw [hglobal, hweak] at h <;> exact absurd h (by decide)

/-- A name that a new module defines is the name of a symbol that no loaded module has. -/
theorem link_defines {host : Host} {modules : List (CexpModuleRec host.dm)} {nmod : CexpModule}
    {file : ObjFile} {ld : LinkData host.dm} {cst : CexpSymTbl} {n : CStr}
    (h : link host modules nmod file = .ok (ld, cst)) (hread : file.Read) (hn : Defines cst n) :
    ∃ sp ∈ file.symtab, sp.name = n ∧ cexpSymLookup host n modules = none := by
  obtain ⟨sections, ld₁, cst₁, -, hslurp, -, rfl⟩ := link_ok h
  have hdefines : Defines cst₁ n := hn.of_tags (setValues_tags _ _ _) rfl
  have htable := (slurpSymtab_ok hslurp).2
  obtain ⟨t, hadd, hsort⟩ := Option.bind_eq_some_iff.mp htable
  have hfilled := cexpAddSymTbl_filled hadd
  obtain ⟨e, he, hname, hflags⟩ :=
    hdefines.of_sorted (host.qsort_perm _) hfilled.ends hsort
  rw [hfilled.syms, List.mem_append] at he
  have haccepted := he.resolve_right fun hmem => by
    rw [List.mem_singleton.mp hmem] at hname
    cases hname
  obtain ⟨⟨i, sp'⟩, hx, name, hfilter, rfl⟩ := mem_acceptedSyms haccepted
  cases hname
  have hsection := assign_section hflags
  dsimp only at hsection
  have hst : sp' ∈ file.symtab.map
      (resolvedSym host modules (sortedData host modules file sections).allocated) := by
    rw [← sortedData_st host modules file sections]
    exact (List.of_mem_zip hx).2
  obtain ⟨sp, hsp, rfl⟩ := List.mem_map.mp hst
  unfold filter at hfilter
  dsimp only at hfilter
  split at hfilter
  · next hkeep =>
    rw [hsection, if_neg Bool.false_ne_true, Option.some.injEq] at hfilter
    rcases resolvedSym_keep (hread sp hsp) hkeep with htrue | ⟨hsame, hnone⟩
    · rw [hsection] at htrue
      cases htrue
    · rw [← hfilter, hsame]
      exact ⟨sp, hsp, rfl, hnone⟩
  · cases hfilter

/-! ## The table of the builtin symbols -/

theorem guessType_tag (dm : DataModel) (e : CexpSym) : (guessType dm e).tag = e.tag := by
  unfold guessType
  split
  · rfl
  · rfl

/-- The array of the builtin symbols ends where an element has no name. -/
theorem builtin_ends (syms : List CexpSym) :
    (syms[(syms.takeWhile fun s => s.name.isSome).length]?).bind CexpSym.name = none := by
  have hsplit := List.takeWhile_append_dropWhile (p := fun s : CexpSym => s.name.isSome) (l := syms)
  have hhead := List.head?_dropWhile_not (fun s : CexpSym => s.name.isSome) syms
  have hget : syms[(syms.takeWhile fun s => s.name.isSome).length]? =
      (syms.dropWhile fun s => s.name.isSome).head? := by
    have hcut := congrArg
      (fun l : List CexpSym => l[(syms.takeWhile fun s => s.name.isSome).length]?) hsplit.symm
    refine hcut.trans ?_
    rw [List.getElem?_append_right le_rfl, Nat.sub_self, List.head?_eq_getElem?]
  rw [hget]
  cases hd : (syms.dropWhile fun s => s.name.isSome).head? with
  | none => rfl
  | some e =>
    rw [hd] at hhead
    exact Option.isNone_iff_eq_none.mp (Option.isSome_eq_false_iff.mp hhead)

/-- Guessing types leaves names and flags alone. -/
theorem guessed_tags (dm : DataModel) (syms : List CexpSym) (n : Nat) :
    ((syms.take n).map (guessType dm) ++ syms.drop n).map CexpSym.tag = syms.map CexpSym.tag := by
  have hguess : CexpSym.tag ∘ guessType dm = CexpSym.tag := by
    funext e
    exact guessType_tag dm e
  rw [List.map_append, List.map_map, hguess, ← List.map_append, List.take_append_drop]

/-- A name that the builtin table defines is a name of the array. -/
theorem builtin_defines {host : Host} {nmod : CexpModule} {args : LoadArgs}
    {linked : Linked host.dm} {n : CStr} (h : cexpLoadBuiltinSymtab host nmod args = .ok linked)
    (hn : Defines linked.symtbl n) :
    ∃ syms, args.builtin = some syms ∧
      ∃ e ∈ syms, e.name = some n ∧ e.flags &&& CEXP_SYMFLG_SECT = 0 := by
  unfold cexpLoadBuiltinSymtab at h
  split at h
  · cases h
  · next syms hsyms =>
    split at h
    · cases h
    · dsimp only at h
      split at h
      · cases h
      · next t hsort =>
        split at h
        · cases h
          have hdefines : Defines t n := hn.of_tags (guessed_tags host.dm t.syms _) rfl
          exact ⟨syms, hsyms,
            hdefines.of_sorted (host.qsort_perm _) (builtin_ends syms) hsort⟩
        · cases h

end Cexp
