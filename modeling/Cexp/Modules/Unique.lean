import Cexp.Linker.Commons
import Cexp.Modules.Tables
import Cexp.Modules.Unloads
import Cexp.Syms.Lookup

/-!
# Unique definitions

A name that is no section name is defined by one module at most. A module that defines it again
is bound to the definition that exists if its own one is weak, or common and not too large, and is
refused otherwise (`unique_definitions`).

Only `resolve_syms` looks for names that are defined already. The table of the builtin symbols
does not pass through it, and the sizes and alignments of common symbols reach it as `int` and
`unsigned`.
-/

namespace Cexp

open CLib

/-! ## Definitions -/

section

variable {dm : DataModel}

/-- Lookups of names without a version find the entries of just these names. -/
def LookupExact (host : Host) (t : CexpSymTbl) : Prop :=
  ∀ n : CStr, separator ∉ n.bytes → ∀ e : CexpSym,
    host.cexpSymTblLookup n t = some e ↔ e ∈ t.entries ∧ e.name = some n

/-- The symbol `ts` of the module `m` defines the name. -/
structure DefinedBy (modules : List (CexpModuleRec dm)) (n : CStr) (ts : CexpSym)
    (m : CexpModuleRec dm) : Prop where
  loaded : m ∈ modules
  entry : ts ∈ m.symtbl.entries
  name : ts.name = some n
  symbol : ts.flags &&& CEXP_SYMFLG_SECT = 0
  unmarked : n ≠ marker

/-- No two modules define the same name. -/
def UniqueNames (modules : List (CexpModuleRec dm)) : Prop :=
  modules.Pairwise fun m m' => ∀ n, ¬(Defines m.symtbl n ∧ Defines m'.symtbl n)

/-- What a table defines is not to be found in the tables in front of it. -/
def Apart (tables : List CexpSymTbl) : Prop :=
  tables.Pairwise fun t t' => ∀ n, Defines t' n → ¬Names t n

/-- The symbol tables of the modules in the list. -/
def tables (modules : List (CexpModuleRec dm)) : List CexpSymTbl := (listed modules).map Prod.snd

theorem tables_eq (modules : List (CexpModuleRec dm)) :
    tables modules = modules.map CexpModuleRec.symtbl := by
  rw [tables, listed, List.map_map]
  rfl

variable {host : Host} {modules : List (CexpModuleRec dm)} {n : CStr} {ts : CexpSym}
  {m : CexpModuleRec dm}

theorem DefinedBy.defines (h : DefinedBy modules n ts m) : Defines m.symtbl n :=
  ⟨h.unmarked, ts, h.entry, h.name, h.symbol⟩

theorem Apart.unique (h : Apart (tables modules)) : UniqueNames modules := by
  rw [tables_eq, Apart, List.pairwise_map] at h
  refine h.imp ?_
  rintro m m' hm n ⟨hdef, hdef'⟩
  exact hm n hdef' hdef.names

/-- A name that is not found is in no table. -/
theorem not_names_of_lookup (hexact : ∀ m ∈ modules, LookupExact host m.symtbl)
    (hn : separator ∉ n.bytes) (h : cexpSymLookup host n modules = none) :
    ∀ m ∈ modules, ¬Names m.symtbl n := by
  induction modules with
  | nil => exact List.forall_mem_nil _
  | cons m₀ ms ih =>
    rw [List.forall_mem_cons] at hexact ⊢
    unfold cexpSymLookup at h
    split at h
    · cases h
    · next hnone =>
      refine ⟨?_, ih hexact.2 h⟩
      rintro ⟨e, he, hname⟩
      rw [(hexact.1 n hn e).mpr ⟨he, hname⟩] at hnone
      cases hnone

/-- The definition of a name is what a lookup of it finds. -/
theorem lookup_of_defined (hexact : ∀ m ∈ modules, LookupExact host m.symtbl)
    (hapart : Apart (tables modules)) (hn : separator ∉ n.bytes) (h : DefinedBy modules n ts m) :
    cexpSymLookup host n modules = some (ts, m) := by
  have hdefines := h.defines
  obtain ⟨hmem, hentry, hname, hsymbol, hmarker⟩ := h
  induction modules with
  | nil => cases hmem
  | cons m₀ ms ih =>
    rw [List.forall_mem_cons] at hexact
    rw [tables_eq, List.map_cons, Apart, List.pairwise_cons] at hapart
    unfold cexpSymLookup
    rcases List.mem_cons.mp hmem with rfl | hmem
    · rw [(hexact.1 n hn ts).mpr ⟨hentry, hname⟩]
    · have hnot := hapart.1 m.symtbl (List.mem_map_of_mem hmem) n hdefines
      have hnone : host.cexpSymTblLookup n m₀.symtbl = none := by
        cases hfound : host.cexpSymTblLookup n m₀.symtbl with
        | none => rfl
        | some e =>
          have hboth := (hexact.1 n hn e).mp hfound
          exact absurd ⟨e, hboth.1, hboth.2⟩ hnot
      rw [hnone]
      refine ih hexact.2 ?_ hmem
      rw [tables_eq]
      exact hapart.2

end

/-! ## Runs -/

section

variable {host : Host}

/-- The names of an object's symbols have no versions, and its symbols are as they are read. -/
structure ObjFile.Unversioned (file : ObjFile) : Prop where
  read : file.Read
  names : ∀ sp ∈ file.symtab, separator ∉ sp.name.bytes

/-- No loaded module has a name that the builtin table defines. -/
def BuiltinFresh {dm : DataModel} (args : LoadArgs) (modules : List (CexpModuleRec dm)) : Prop :=
  ∀ syms, args.builtin = some syms → ∀ e ∈ syms, ∀ n, e.name = some n →
    e.flags &&& CEXP_SYMFLG_SECT = 0 → ∀ m ∈ modules, ¬Names m.symtbl n

/-- Callbacks do not load modules, lookups are exact, names have no versions, and the builtin
table is loaded only where it defines no name again. -/
def Admitted (host : Host) : Request → Store host.dm → Prop
  | .load args callbacks, s =>
    OnlyUnloadsList callbacks ∧ (∀ m ∈ s.modules, LookupExact host m.symtbl) ∧
      match args.filename with
      | some _ => args.file.Unversioned
      | none => BuiltinFresh args s.modules
  | .unload _ finalizer _ destructors, _ =>
    OnlyUnloadsList finalizer ∧ OnlyUnloadsList destructors

/-- All requests of the run are admitted in the states in which they are made. -/
def AdmittedRun (host : Host) : List Request → Store host.dm → Prop
  | [], _ => True
  | r :: rs, s =>
    Admitted host r s ∧ ∀ s' resp, request host r s = some (s', resp) → AdmittedRun host rs s'

/-- The list has each record once, and what a module defines is not to be found in front of it. -/
structure Orderly {dm : DataModel} (s : Store dm) : Prop where
  fresh : Fresh s
  apart : Apart (tables s.modules)

theorem orderly_init {dm : DataModel} : Orderly (Store.init : Store dm) :=
  ⟨⟨List.nodup_nil, List.forall_mem_nil _⟩, List.Pairwise.nil⟩

theorem Apart.shrunk {dm : DataModel} {s s' : Store dm} (h : Apart (tables s.modules))
    (hshrunk : Shrunk s s') : Apart (tables s'.modules) :=
  h.sublist (hshrunk.sub.map Prod.snd)

/-- The names that a new module defines are not to be found in the loaded ones. -/
theorem new_names_fresh {args : LoadArgs} {callbacks : List Request} {s : Store host.dm}
    {nmod : CexpModuleRec host.dm} (ha : Admitted host (.load args callbacks) s)
    (hnew : NewModule host args s nmod) {n : CStr} (hn : Defines nmod.symtbl n) :
    ∀ m ∈ s.modules, ¬Names m.symtbl n := by
  obtain ⟨-, hexact, hsource⟩ := ha
  obtain ⟨linked, hlinked, heq⟩ := hnew.linked
  have hsymtbl : nmod.symtbl = linked.symtbl := congrArg CexpModuleRec.symtbl heq
  rw [hsymtbl] at hn
  unfold loadSource at hlinked
  cases hfilename : args.filename with
  | some filename =>
    rw [hfilename] at hlinked hsource
    obtain ⟨ld, cst, hlink, rfl⟩ := cexpLoadFile_ok hlinked
    obtain ⟨sp, hsp, rfl, hnone⟩ := link_defines hlink hsource.read hn
    exact not_names_of_lookup hexact (hsource.names sp hsp) hnone
  | none =>
    rw [hfilename] at hlinked hsource
    obtain ⟨syms, hsyms, e, he, hname, hflags⟩ := builtin_defines hlinked hn
    exact hsource syms hsyms e he n hname hflags

/-- Every request keeps the store orderly. -/
theorem request_orderly {r : Request} {s s' : Store host.dm} {resp : Response} (ho : Orderly s)
    (ha : Admitted host r s) (h : request host r s = some (s', resp)) : Orderly s' := by
  cases r with
  | unload mod finalizer rejects destructors =>
    obtain ⟨hshrunk, hfresh⟩ := unload_shrinks ha ho.fresh h
    exact ⟨hfresh, ho.apart.shrunk hshrunk⟩
  | load args callbacks =>
    obtain ⟨hextends, hfresh⟩ := load_outcome_unloads ha.1 ho.fresh h
    refine ⟨hfresh, ?_⟩
    cases hextends with
    | refused hsame =>
      rw [hsame.modules]
      exact ho.apart
    | @loaded nmod l hnew hsub hlisted =>
      rw [tables, hlisted, List.map_append]
      have hold : (l.map Prod.snd).Sublist (tables s.modules) := hsub.map Prod.snd
      refine List.pairwise_append.mpr ⟨ho.apart.sublist hold, List.pairwise_singleton _ _, ?_⟩
      intro t ht t' ht' n hn
      rw [List.map_singleton, List.mem_singleton] at ht'
      subst ht'
      have hmem := hold.subset ht
      rw [tables_eq] at hmem
      obtain ⟨m, hm, rfl⟩ := List.mem_map.mp hmem
      exact new_names_fresh ha hnew hn m hm

theorem requests_orderly {rs : List Request} {s s' : Store host.dm} (ho : Orderly s)
    (ha : AdmittedRun host rs s) (h : requests host rs s = some s') : Orderly s' := by
  induction rs generalizing s with
  | nil =>
    rw [requests_nil_some h]
    exact ho
  | cons r rs ih =>
    obtain ⟨s₁, resp, hr, hrest⟩ := requests_cons_some h
    exact ih (request_orderly ho ha.1 hr) (ha.2 s₁ resp hr) hrest

end

/-! ## Redefinitions -/

/-- The symbol is looked up, and it is no reference. -/
def Asymbol.Defining (sp : Asymbol) : Prop := sp.Sought ∧ sp.sect ≠ .und

/-- The symbol that `asymFromCexpSym` makes of a definition. -/
def boundSym (ts : CexpSym) : Asymbol := { absSymbol ts.name ts.value.ptv with isGlobal := true }

section

variable {dm : DataModel} (host : Host) (modules : List (CexpModuleRec dm)) (nmod : CexpModule)
  (file : ObjFile)

/-- The linker's data before the relocation number `k` of section number `i`. -/
def beforeReloc (ld : LinkData dm) (i : Nat) (sect : Section) (k : Nat) : LinkData dm :=
  (sect.relocs.zipIdx.take k).foldl (relocate host modules nmod file i)
    ((List.range i).foldl (sReloc host modules nmod file) ld)

end

/-- The symbol in the slot is bound to the definition `ts`: it counts no error, and every
relocation that refers to it is performed against the definition. -/
structure BoundTo (host : Host) (modules : List (CexpModuleRec host.dm)) (file : ObjFile)
    (slot : Nat) (ts : CexpSym) : Prop where
  accepted : ∀ ld : LinkData host.dm, ld.st[slot]? = file.symtab[slot]? →
    (resolveSym host modules ld slot).errors = ld.errors
  relocated : ∀ (nmod : CexpModule) (sections : List Section) (text : Option Nat)
    (ld : LinkData host.dm) (cst : CexpSymTbl),
    slurpSymtab host modules file text (linkInit sections file.symtab) = .ok (ld, cst) →
    ∀ (i k : Nat) (sect : Section), sect.relocs[k]? = some (some slot) →
      relocate host modules nmod file i (beforeReloc host modules nmod file ld i sect k)
          (some slot, k) =
        if file.performs i k (boundSym ts) then beforeReloc host modules nmod file ld i sect k
        else (beforeReloc host modules nmod file ld i sect k).addError

/-- The load is refused and leaves the store as it is, unless an earlier pass does not come to an
end. -/
structure LoadFails (host : Host) (args : LoadArgs) (callbacks : List Request)
    (s : Store host.dm) : Prop where
  refused : ∀ s' resp, request host (.load args callbacks) s = some (s', resp) →
    resp = .refused ∧ SameStore s s'
  returns : ∀ sections, completeInitSystem host s.modules = .ok () →
    keptSections host s.modules args.file = .ok sections →
    ∃ s', request host (.load args callbacks) s = some (s', .refused)

/-- What `resolve_syms` sees of the common symbol `c` is `sp`. -/
structure NewCommon.Of {w : Nat} (c : NewCommon w) (sp : Asymbol) : Prop where
  sound : c.Sound
  common : c.isCom = true
  size : sp.size = c.elfGetSize.toInt
  align : sp.align = c.elfGetAlign

/-- The definition has the size and the alignment of the common symbol. -/
def Satisfies {w : Nat} (ts : CexpSym) (c : NewCommon w) : Prop :=
  (c.size.toNat : Int) ≤ ts.size ∧ c.val.toNat ∣ ts.value.ptv.toNat

/-- The size of the common symbol is an `int`, and its alignment an `unsigned`. -/
def NewCommon.Uncut {w : Nat} (c : NewCommon w) : Prop :=
  c.size.toNat < 2 ^ 31 ∧ c.val.toNat < 2 ^ 32

section

variable {host : Host} {modules : List (CexpModuleRec host.dm)} {file : ObjFile} {slot : Nat}
  {sp : Asymbol} {ts : CexpSym} {m : CexpModuleRec host.dm}

theorem resolvedSym_bound (hsought : sp.Sought)
    (hts : cexpSymLookup host sp.name modules = some (ts, m))
    (hsp : sp.sect = .com ∨ sp.sect ≠ .und ∧ sp.isWeak = true) (allocated : SecRef → Bool) :
    resolvedSym host modules allocated sp = boundSym ts := by
  obtain ⟨hlocal, htls⟩ := hsought
  unfold resolvedSym
  rw [if_neg (by rw [hlocal]; exact Bool.false_ne_true),
    if_neg (by rw [htls]; exact Bool.false_ne_true), hts]
  rcases hsp with hcom | ⟨hund, hweak⟩
  · rw [hcom]
    rfl
  · cases hsect : sp.sect with
    | und => exact absurd hsect hund
    | com => rfl
    | abs =>
      dsimp only
      rw [if_pos hweak]
      rfl
    | sect i =>
      dsimp only
      rw [if_pos hweak]
      rfl

/-- The symbol of a definition stays in its slot. -/
theorem beforeReloc_slot {nmod : CexpModule} {ld : LinkData host.dm}
    (hst : ld.st[slot]? = some (boundSym ts)) (i : Nat) (sect : Section) (k : Nat) :
    (beforeReloc host modules nmod file ld i sect k).st[slot]? = some (boundSym ts) := by
  have hsettled : Settled host modules (boundSym ts) := fun hund => nomatch hund
  exact foldl_relocate_keeps _ (foldl_sReloc_keeps _ hst hsettled) hsettled

theorem relocate_bound {nmod : CexpModule} {ld : LinkData host.dm}
    (hst : ld.st[slot]? = some (boundSym ts)) (i k : Nat) :
    relocate host modules nmod file i ld (some slot, k) =
      if file.performs i k (boundSym ts) then ld else ld.addError := by
  unfold relocate
  dsimp only
  rw [hst]
  show performRelocation file i k ld slot = _
  unfold performRelocation
  rw [hst]

/-- A symbol that counts no error is bound to the definition that a lookup finds. -/
theorem bound_of_lookup (hsp : file.symtab[slot]? = some sp) (hsought : sp.Sought)
    (hts : cexpSymLookup host sp.name modules = some (ts, m))
    (hsect : sp.sect = .com ∨ sp.sect ≠ .und ∧ sp.isWeak = true)
    (herrors : symErrors host modules sp = 0) : BoundTo host modules file slot ts := by
  constructor
  · intro ld hst
    rw [hsp] at hst
    rw [(resolveSym_resolves host modules hst).errors hsought, herrors, Nat.add_zero]
  · intro nmod sections text ld cst hslurp i k sect _
    have hold : isNewCommon host modules sp = false := by
      simp [isNewCommon, hts]
    obtain ⟨allocated, hst⟩ := slurpSymtab_resolved hslurp hsp hold
    rw [resolvedSym_bound hsought hts hsect allocated] at hst
    exact relocate_bound (beforeReloc_slot hst i sect k) i k

/-! ## Loads that fail -/

/-- A symbol that counts an error ends the linking. -/
theorem slurpSymtab_fails (hsp : file.symtab[slot]? = some sp) (hsought : sp.Sought)
    (herrors : symErrors host modules sp ≠ 0) (sections : List Section) (text : Option Nat) :
    slurpSymtab host modules file text (linkInit sections file.symtab) = .error .error := by
  have hne : (linkInit sections file.symtab : LinkData host.dm).st ≠ [] :=
    List.ne_nil_of_mem (List.mem_of_getElem? hsp)
  have hst : (linkInit sections file.symtab : LinkData host.dm).st[slot]? = some sp := hsp
  have hle := resolveSyms_errors host modules hst hsought
  unfold slurpSymtab
  rw [if_neg hne]
  dsimp only
  rw [if_pos (by omega)]

theorem cexpLoadFile_fails (hsp : file.symtab[slot]? = some sp) (hsought : sp.Sought)
    (herrors : symErrors host modules sp ≠ 0) (nmod : CexpModule) :
    (∀ linked, cexpLoadFile host modules nmod file ≠ .ok linked) ∧
      ∀ sections, completeInitSystem host modules = .ok () →
        keptSections host modules file = .ok sections →
        cexpLoadFile host modules nmod file = .error .error := by
  constructor
  · intro linked hok
    obtain ⟨ld, cst, hlink, -⟩ := cexpLoadFile_ok hok
    obtain ⟨sections, ld₁, cst₁, -, hslurp, -⟩ := link_ok hlink
    rw [slurpSymtab_fails hsp hsought herrors] at hslurp
    cases hslurp
  · intro sections hsystem hkept
    have hlink : link host modules nmod file = .error .error := by
      unfold link
      rw [hkept]
      dsimp only
      rw [slurpSymtab_fails hsp hsought herrors]
    unfold cexpLoadFile
    rw [hsystem, hlink]
    show (if (!file.opens) = true then Except.error LinkStop.error
      else Except.error LinkStop.error) = _
    rw [ite_self]

theorem load_fails {args : LoadArgs} {callbacks : List Request} {s : Store host.dm}
    (hfilename : args.filename.isSome = true) (hsp : args.file.symtab[slot]? = some sp)
    (hsought : sp.Sought) (herrors : symErrors host s.modules sp ≠ 0) :
    LoadFails host args callbacks s := by
  obtain ⟨filename, hfile⟩ := Option.isSome_iff_exists.mp hfilename
  have hsource : ∀ nmod, loadSource host s.modules nmod args =
      cexpLoadFile host s.modules nmod args.file := by
    intro nmod
    unfold loadSource
    rw [hfile]
  constructor
  · intro s' resp h
    cases load_run h with
    | refused hprepare => exact ⟨rfl, prepareLoad_refused hprepare⟩
    | loaded hprepare _ _ =>
      obtain ⟨linked, hlinked, -⟩ := (prepareLoad_ready hprepare).1.linked
      rw [hsource] at hlinked
      exact absurd hlinked ((cexpLoadFile_fails hsp hsought herrors _).1 linked)
  · intro sections hsystem hkept
    have herror := (cexpLoadFile_fails hsp hsought herrors (host.malloc s.used)).2 sections
      hsystem hkept
    have hprepare : ∃ s', prepareLoad host args s = .refused s' := by
      unfold prepareLoad
      dsimp only
      split
      · exact ⟨_, rfl⟩
      · split
        · exact ⟨_, rfl⟩
        · split
          · exact ⟨_, rfl⟩
          · split
            · exact ⟨_, rfl⟩
            · rw [hsource, herror]
              exact ⟨_, rfl⟩
    obtain ⟨s', hs'⟩ := hprepare
    refine ⟨s', ?_⟩
    rw [request, hs']

end

/-! ## Sizes and alignments -/

section

variable {dm : DataModel} {host : Host} {modules : List (CexpModuleRec dm)} {sp : Asymbol}
  {ts : CexpSym} {m : CexpModuleRec dm}

/-- A common symbol whose size and alignment are not cut is checked as it should be. -/
theorem symErrors_common {w : Nat} {c : NewCommon w} (hc : c.Of sp) (huncut : c.Uncut)
    (hsect : sp.sect = .com) (hts : cexpSymLookup host sp.name modules = some (ts, m)) :
    symErrors host modules sp = 0 ↔ Satisfies ts c := by
  have hsize : sp.size = (c.size.toNat : Int) := by
    have hmod : c.elfGetSize.toNat = c.size.toNat := by
      rw [NewCommon.elfGetSize, BitVec.toNat_setWidth]
      exact Nat.mod_eq_of_lt (huncut.1.trans (by decide))
    have hlt : 2 * c.elfGetSize.toNat < 2 ^ 32 := by
      have := huncut.1
      omega
    rw [hc.size, BitVec.toInt_eq_toNat_of_lt hlt, hmod]
  obtain ⟨k, -, hnat, -, hval⟩ := hc.sound.align
  have halign : c.elfGetAlign.toNat = c.val.toNat := by
    rw [hnat, hval hc.common huncut.2]
  have hmask : ts.value.ptv &&& (sp.align - 1).setWidth 64 = 0 ↔
      c.val.toNat ∣ ts.value.ptv.toNat := by
    rw [← halign, hc.align]
    exact alignMask_eq_zero_iff hnat (by decide)
  unfold symErrors Satisfies
  rw [hsect, hts]
  dsimp only
  rw [← hmask, hsize]
  by_cases hlarge : ts.size < (c.size.toNat : Int)
  · rw [if_pos hlarge]
    constructor
    · intro hzero
      omega
    · rintro ⟨hle, -⟩
      omega
  · rw [if_neg hlarge, Nat.zero_add]
    by_cases haligned : ts.value.ptv &&& (sp.align - 1).setWidth 64 = 0
    · rw [if_neg (not_not_intro haligned)]
      exact iff_of_true rfl ⟨not_lt.mp hlarge, haligned⟩
    · rw [if_pos haligned]
      exact iff_of_false Nat.one_ne_zero fun hboth => haligned hboth.2

/-- A definition of the object meets one that exists. -/
theorem symErrors_defined (hund : sp.sect ≠ .und) (hcom : sp.sect ≠ .com)
    (hts : cexpSymLookup host sp.name modules = some (ts, m)) :
    symErrors host modules sp = if sp.isWeak = true then 0 else 1 := by
  unfold symErrors
  rw [hts]
  cases hsect : sp.sect with
  | und => exact absurd hsect hund
  | com => exact absurd hsect hcom
  | abs => rfl
  | sect i => rfl

end

/-! ## Unique definitions -/

/-- What becomes of a symbol of a new object that is defined already. -/
structure Redefinition (host : Host) (s : Store host.dm) (args : LoadArgs)
    (callbacks : List Request) (slot : Nat) (sp : Asymbol) (ts : CexpSym) : Prop where
  weak : sp.sect ≠ .com → sp.isWeak = true → BoundTo host s.modules args.file slot ts
  strong : sp.sect ≠ .com → sp.isWeak = false → LoadFails host args callbacks s
  common : ∀ {w : Nat} (c : NewCommon w), sp.sect = .com → c.Of sp → c.Uncut →
    (Satisfies ts c → BoundTo host s.modules args.file slot ts) ∧
      (¬Satisfies ts c → LoadFails host args callbacks s)

/-- In every admitted run names are defined once, and an object that defines one of them again is
bound to the definition that exists, or is refused. -/
theorem unique_definitions (host : Host) (rs : List Request) (s : Store host.dm)
    (hrun : requests host rs Store.init = some s) (hadmitted : AdmittedRun host rs Store.init) :
    UniqueNames s.modules ∧
      ∀ (args : LoadArgs) (callbacks : List Request), args.filename.isSome = true →
        Admitted host (.load args callbacks) s → ∀ (slot : Nat) (sp : Asymbol),
        args.file.symtab[slot]? = some sp → sp.Defining → ∀ (ts : CexpSym)
        (m : CexpModuleRec host.dm), DefinedBy s.modules sp.name ts m →
        Redefinition host s args callbacks slot sp ts := by
  have horderly := requests_orderly orderly_init hadmitted hrun
  refine ⟨horderly.apart.unique, ?_⟩
  rintro args callbacks hfilename ⟨-, hexact, hsource⟩ slot sp hsp ⟨hsought, hund⟩ ts m hdefined
  have hversion : separator ∉ sp.name.bytes := by
    obtain ⟨filename, hfile⟩ := Option.isSome_iff_exists.mp hfilename
    rw [hfile] at hsource
    exact hsource.names sp (List.mem_of_getElem? hsp)
  have hts := lookup_of_defined hexact horderly.apart hversion hdefined
  constructor
  · intro hcom hweak
    have herrors := symErrors_defined hund hcom hts
    rw [if_pos hweak] at herrors
    exact bound_of_lookup hsp hsought hts (.inr ⟨hund, hweak⟩) herrors
  · intro hcom hstrong
    have herrors := symErrors_defined hund hcom hts
    rw [if_neg (by rw [hstrong]; exact Bool.false_ne_true)] at herrors
    exact load_fails hfilename hsp hsought (by rw [herrors]; exact Nat.one_ne_zero)
  · intro w c hcom hc huncut
    have herrors := symErrors_common hc huncut hcom hts
    constructor
    · intro hsatisfies
      exact bound_of_lookup hsp hsought hts (.inl hcom) (herrors.mpr hsatisfies)
    · intro hsatisfies
      exact load_fails hfilename hsp hsought fun hzero => hsatisfies (herrors.mp hzero)

/-! ## Two runs -/

/-- Lookups in a table of one name are exact. -/
theorem lookupExact_single (host : Host) {t : CexpSymTbl} {k : CStr} {flags : Nat}
    (ht : t.entries.map CexpSym.tag = [(some k, flags)]) (hk : separator ∉ k.bytes) :
    LookupExact host t := by
  obtain ⟨e, hentries, htag⟩ := List.map_eq_singleton_iff.mp ht
  have hname : e.name = some k := congrArg Prod.fst htag
  have hbytes : e.bytes = k.bytes := by
    unfold CexpSym.bytes
    rw [hname]
  intro n hn e'
  constructor
  · intro hfound
    obtain ⟨hmem, hzero⟩ := bsearch_sound hfound
    refine ⟨hmem, ?_⟩
    rw [hentries] at hmem
    rw [List.mem_singleton.mp hmem] at hzero ⊢
    rw [hname]
    rcases (namecomp_eq_zero_iff n.noNul).mp hzero with heq | ⟨v, heq⟩
    · rw [CStr.ext (hbytes.symm.trans heq)]
    · rw [hbytes] at heq
      rw [heq] at hk
      exact absurd (by simp) hk
  · rintro ⟨hmem, hname'⟩
    have he' : e' = e := by
      rw [hentries] at hmem
      exact List.mem_singleton.mp hmem
    subst he'
    have hkn : k = n := Option.some.inj (hname.symm.trans hname')
    have hzero : namecomp host.cs n.bytes e'.bytes = 0 := by
      rw [hbytes, ← hkn]
      exact (namecomp_eq_zero_iff k.noNul).mpr (.inl rfl)
    have hguides : Guides (fun s : CexpSym => namecomp host.cs n.bytes s.bytes) t.entries := by
      rw [hentries]
      exact List.pairwise_singleton _ _
    obtain ⟨b, hb⟩ := bsearch_complete (p := host.bsearch) hguides hmem hzero
    have hbmem := (bsearch_sound hb).1
    rw [hentries] at hbmem
    rw [List.mem_singleton.mp hbmem] at hb
    exact hb

/-- Load the builtin table of one symbol of four bytes. -/
def loadBuiltin (modulename : Option CStr) : LoadArgs :=
  { loadSystem with
    modulename := modulename
    builtin := some [{ newSym moduleA with size := 4 }, zeroSym] }

/-- A symbol of the ABS section. -/
def definedSymbol (name : CStr) (weak : Bool) : Asymbol :=
  { absSymbol (some name) 16 with isGlobal := !weak, isWeak := weak }

/-- The tags of the entries of all tables. -/
def tags {dm : DataModel} (s : Store dm) : List (List (Option CStr × Nat)) :=
  s.modules.map fun m => m.symtbl.entries.map CexpSym.tag

theorem lookupExact_of_tags (host : Host) {s : Store host.dm}
    (h : ∀ l ∈ tags s, ∃ (k : CStr) (flags : Nat), l = [(some k, flags)] ∧ separator ∉ k.bytes) :
    ∀ m ∈ s.modules, LookupExact host m.symtbl := by
  intro m hm
  obtain ⟨k, flags, hl, hk⟩ := h _ (List.mem_map_of_mem hm)
  exact lookupExact_single host hl hk

theorem entry_of_tag {t : CexpSymTbl} {n : CStr}
    (h : t.entries.map CexpSym.tag = [(some n, 0)]) :
    ∃ ts ∈ t.entries, ts.name = some n ∧ ts.flags &&& CEXP_SYMFLG_SECT = 0 := by
  obtain ⟨ts, hentries, htag⟩ := List.map_eq_singleton_iff.mp h
  have hflags : ts.flags = 0 := congrArg Prod.snd htag
  refine ⟨ts, ?_, congrArg Prod.fst htag, ?_⟩
  · rw [hentries]
    exact List.mem_cons_self
  · rw [hflags, Nat.zero_and]

/-- An object that defines the name of the system module again, weakly, and another one. -/
def weakLoad : LoadArgs :=
  loadNamed moduleB (objFile [] [definedSymbol moduleA true, definedSymbol moduleB false])

/-- An object that defines the name of the system module once more. -/
def strongLoad : LoadArgs :=
  loadNamed moduleC (objFile [] [definedSymbol moduleA false])

theorem onlyUnloads_nil : OnlyUnloadsList [] := by
  rw [OnlyUnloadsList]
  trivial

theorem weakLoad_admitted : AdmittedRun plainHost [.load (loadBuiltin none) [], .load weakLoad []]
    Store.init := by
  refine ⟨⟨onlyUnloads_nil, List.forall_mem_nil _, ?_⟩, ?_⟩
  · intro syms _ e _ n _ _ m hm
    cases hm
  · intro s' resp h
    refine ⟨⟨onlyUnloads_nil, lookupExact_of_tags plainHost ?_, ?_⟩, fun _ _ _ => trivial⟩
    · have heval : (request plainHost (.load (loadBuiltin none) []) Store.init).map
          (fun p => tags p.1) = some [[(some moduleA, 0)]] := by decide +kernel
      rw [h, Option.map_some, Option.some.injEq] at heval
      rw [heval]
      intro l hl
      exact ⟨moduleA, 0, List.mem_singleton.mp hl, by decide⟩
    · exact ⟨by decide, by decide⟩

/-- The weak definition gives way, and the strong one is refused. -/
theorem unique_definitions_weakLoad : ∃ s,
    requests plainHost [.load (loadBuiltin none) [], .load weakLoad []] Store.init = some s ∧
      UniqueNames s.modules ∧ LoadFails plainHost strongLoad [] s := by
  have heval : (requests plainHost [.load (loadBuiltin none) [], .load weakLoad []]
      Store.init).map tags = some [[(some moduleA, 0)], [(some moduleB, 1)]] := by decide +kernel
  obtain ⟨s, hrun, htags⟩ := Option.map_eq_some_iff.mp heval
  obtain ⟨hunique, hlaw⟩ := unique_definitions plainHost _ s hrun weakLoad_admitted
  have hadmitted : Admitted plainHost (.load strongLoad []) s := by
    refine ⟨onlyUnloads_nil, lookupExact_of_tags plainHost ?_, ⟨by decide, by decide⟩⟩
    rw [htags]
    intro l hl
    rcases List.mem_cons.mp hl with rfl | hl
    · exact ⟨moduleA, 0, rfl, by decide⟩
    · exact ⟨moduleB, 1, List.mem_singleton.mp hl, by decide⟩
  obtain ⟨m, ms, hmodules, hm, -⟩ := List.map_eq_cons_iff.mp htags
  obtain ⟨ts, hts, hname, hflags⟩ := entry_of_tag hm
  have hdefined : DefinedBy s.modules moduleA ts m := by
    refine ⟨?_, hts, hname, hflags, by decide⟩
    rw [hmodules]
    exact List.mem_cons_self
  have hredefined := hlaw strongLoad [] rfl hadmitted 0 (definedSymbol moduleA false) rfl
    ⟨by decide, by decide⟩ ts m hdefined
  exact ⟨s, hrun, hunique, hredefined.strong (by decide) rfl⟩

/-- A common symbol of more than four gigabytes. -/
def hugeCommon : NewCommon 64 := ⟨true, 4, 0x100000004⟩

/-- What is seen of the common symbol. -/
def hugeSymbol : Asymbol :=
  { absSymbol (some moduleA) 4 with sect := .com, size := 4, align := 4 }

/-- An object with the common symbol and a symbol of its own. -/
def hugeLoad : LoadArgs :=
  loadNamed moduleB (objFile [] [hugeSymbol, definedSymbol moduleB false])

/-- The builtin table is loaded once more, under another name, and the common symbol is accepted
although the definition has four bytes. -/
theorem redefinitions_accepted :
    (∃ s, requests plainHost [.load (loadBuiltin none) [], .load (loadBuiltin (some moduleB)) []]
      Store.init = some s ∧ ¬UniqueNames s.modules) ∧
    ∃ s s' ts m h, requests plainHost [.load (loadBuiltin none) []] Store.init = some s ∧
      DefinedBy s.modules moduleA ts m ∧ hugeCommon.Of hugeSymbol ∧ ¬Satisfies ts hugeCommon ∧
      request plainHost (.load hugeLoad []) s = some (s', .loaded h) := by
  constructor
  · have heval : (requests plainHost [.load (loadBuiltin none) [],
        .load (loadBuiltin (some moduleB)) []] Store.init).map tags =
        some [[(some moduleA, 0)], [(some moduleA, 0)]] := by decide +kernel
    obtain ⟨s, hrun, htags⟩ := Option.map_eq_some_iff.mp heval
    refine ⟨s, hrun, ?_⟩
    obtain ⟨m, ms, hmodules, hm, hms⟩ := List.map_eq_cons_iff.mp htags
    obtain ⟨m', hms', hm'⟩ := List.map_eq_singleton_iff.mp hms
    intro hunique
    rw [UniqueNames, hmodules, hms', List.pairwise_pair] at hunique
    exact hunique moduleA ⟨⟨by decide, entry_of_tag hm⟩, ⟨by decide, entry_of_tag hm'⟩⟩
  · have heval : ((requests plainHost [.load (loadBuiltin none) []] Store.init).any fun s =>
        (s.modules.any fun m => m.symtbl.entries.any fun ts =>
          ts.tag = (some moduleA, 0) ∧ ts.size = 4) ∧
        (request plainHost (.load hugeLoad []) s).any fun p => p.2 = .loaded 32) = true := by
      decide +kernel
    obtain ⟨s, hrun, hs⟩ := (Option.any_eq_true _ _).mp heval
    obtain ⟨hdefines, hload⟩ := of_decide_eq_true hs
    obtain ⟨m, hm, hts⟩ := List.any_eq_true.mp hdefines
    obtain ⟨ts, hts, hsize⟩ := List.any_eq_true.mp hts
    obtain ⟨htag, hsize⟩ := of_decide_eq_true hsize
    obtain ⟨⟨s', resp⟩, hrequest, hresp⟩ := (Option.any_eq_true _ _).mp hload
    have hloaded : resp = .loaded 32 := of_decide_eq_true hresp
    subst hloaded
    have hflags : ts.flags = 0 := congrArg Prod.snd htag
    refine ⟨s, s', ts, m, 32, hrun, ⟨hm, hts, congrArg Prod.fst htag, ?_, by decide⟩, ?_, ?_,
      hrequest⟩
    · rw [hflags, Nat.zero_and]
    · exact ⟨⟨fun _ => ⟨2, rfl⟩, fun hcom => nomatch hcom⟩, rfl, rfl, rfl⟩
    · rintro ⟨hle, -⟩
      rw [hsize] at hle
      exact absurd hle (by decide)

end Cexp
