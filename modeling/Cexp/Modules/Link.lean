import Cexp.Modules.Record
import Mathlib.Data.Nat.Log

/-!
# Linking an object file

`cexpLoadFile` runs several passes over an object file: it counts and notes the names of
the sections to be allocated, drops the `linkonce` sections that a loaded module has
already, resolves the symbols against the loaded modules, makes the symbol table of the
new module, performs the relocations and finally replaces the noted section names by
symbols.

Only `asymFromCexpSym` sets bits of the map `depend`, the dependencies of the new module.
The pass over the section names looks symbols up without it.

What the object file library (BFD) and the memory of the target contribute is part of the
object file: whether the file can be opened and its sections can be read and placed, the
addresses of the sections and the outcome of each relocation.
-/

namespace Cexp

open CLib

/-! ## Object files -/

/-- The section of a symbol: one of the three standard sections, or a section of the
file. -/
inductive SecRef where
  | und
  | abs
  | com
  | sect (i : Nat)
  deriving DecidableEq, Repr

/-- `asection`. A relocation is given by the index of its symbol, `none` if the index is
bad. -/
structure Section where
  name : CStr
  size : Nat
  alloc : Bool
  linkOnce : Bool
  group : Bool
  reloc : Bool
  nextInGroup : Option SecRef
  relocs : List (Option Nat)

/-- `asymbol`, with a field for each of the flags `BSF_...`. -/
structure Asymbol where
  name : CStr
  sect : SecRef
  value : BitVec 64
  size : Int
  align : BitVec 32
  isLocal : Bool
  isGlobal : Bool
  isWeak : Bool
  isFunction : Bool
  isObject : Bool
  isSectionSym : Bool
  isThreadLocal : Bool
  isOldCommon : Bool
  keep : Bool

/-- An object file, and what opening, placing and relocating it come to. -/
structure ObjFile where
  /-- the file is found, its format and architecture are right, its attributes match -/
  opens : Bool
  sections : List Section
  symtab : List Asymbol
  /-- the section for new commons can be made -/
  dummy : Bool
  /-- memory for the segments is found and no section is refused -/
  placed : Bool
  vma : Nat → BitVec 64
  readable : Nat → Bool
  /-- the relocation (section, index, symbol) succeeds -/
  performs : Nat → Nat → Asymbol → Bool
  /-- the index by addresses can be made -/
  indexed : Bool
  /-- the exception frames are in memory -/
  ehPlaced : Bool

/-- Why `cexpLoadFile` does not return 0: it returns an error, or an assertion fails or a
loop does not end. -/
inductive LinkStop where
  | error
  | crash
  deriving DecidableEq, Repr

/-- `".text"` -/
def TEXT_SECTION_NAME : CStr := ⟨[46, 116, 101, 120, 116], by decide⟩

/-- `"__dso_handle"` -/
def DSO_HANDLE_NAME : CStr := ⟨[95, 95, 100, 115, 111, 95, 104, 97, 110, 100, 108, 101], by decide⟩

/-- `"__cxa_finalize"` -/
def CXA_FINALIZE : CStr := ⟨[95, 95, 99, 120, 97, 95, 102, 105, 110, 97, 108, 105, 122, 101], by
  decide⟩

/-- `"_cexpModuleInitialize"` -/
def CEXPMOD_INITIALIZER_SYM : CStr := ⟨[95, 99, 101, 120, 112, 77, 111, 100, 117, 108, 101, 73,
  110, 105, 116, 105, 97, 108, 105, 122, 101], by decide⟩

/-- `"_cexpModuleFinalize"` -/
def CEXPMOD_FINALIZER_SYM : CStr := ⟨[95, 99, 101, 120, 112, 77, 111, 100, 117, 108, 101, 70, 105,
  110, 97, 108, 105, 122, 101], by decide⟩

/-- `"cexpLoadFile"` -/
def LOADER_SYM : CStr := ⟨[99, 101, 120, 112, 76, 111, 97, 100, 70, 105, 108, 101], by decide⟩

/-- `"_etext"` -/
def ETEXT_SYM : CStr := ⟨[95, 101, 116, 101, 120, 116], by decide⟩

/-- `"_edata"` -/
def EDATA_SYM : CStr := ⟨[95, 101, 100, 97, 116, 97], by decide⟩

/-! ## The linker's data -/

/-- `LinkDataRec` -/
structure LinkData (dm : DataModel) where
  sections : List Section
  st : List Asymbol
  newCommons : List Nat
  depend : Bitmap dm
  bound : List SymRef
  errors : Nat
  iniCallback : Option Nat
  finiCallback : Option Nat

variable {dm : DataModel}

def LinkData.addError (ld : LinkData dm) : LinkData dm := { ld with errors := ld.errors + 1 }

def LinkData.setSym (ld : LinkData dm) (slot : Nat) (sp : Asymbol) : LinkData dm :=
  { ld with st := ld.st.set slot sp }

/-- `SEC_ALLOC & bfd_get_section_flags(abfd, sect)` -/
def LinkData.allocated (ld : LinkData dm) : SecRef → Bool
  | .sect i => (ld.sections[i]?).any Section.alloc
  | _ => false

/-- A symbol as `bfd_make_empty_symbol` makes it, in the ABS section. -/
def absSymbol (name : Option CStr) (value : BitVec 64) : Asymbol where
  name := name.getD CStr.empty
  sect := .abs
  value := value
  size := 0
  align := 1
  isLocal := false
  isGlobal := false
  isWeak := false
  isFunction := false
  isObject := false
  isSectionSym := false
  isThreadLocal := false
  isOldCommon := false
  keep := false

/-- `asymFromCexpSym`, its result put into the slot. -/
def asymFromCexpSym (ld : LinkData dm) (slot : Nat) (csym : CexpSym) (mod : CexpModuleRec dm) :
    LinkData dm :=
  { ld.setSym slot { absSymbol csym.name csym.value.ptv with isGlobal := true } with
    depend := ld.depend.set mod.id
    bound := ld.bound ++ [⟨mod.handle, csym⟩] }

/-! ## Passes over the sections -/

/-- `s_nsects`: zero-sized sections are effectively removed. -/
def sNsects (sect : Section) : Section :=
  if sect.size = 0 then { sect with alloc := false } else sect

/-- `s_basic`: the names of the sections that are allocated. -/
def sBasic (sections : List Section) : List CStr :=
  (sections.filter Section.alloc).map Section.name

/-- `ld->text` after `s_basic`: the last section of that name. -/
def textSection (sections : List Section) : Option Nat :=
  (List.range sections.length).findRev? fun i =>
    (sections[i]?).any fun sect => sect.name = TEXT_SECTION_NAME

def clearAlloc (sections : List Section) : SecRef → List Section
  | .sect i => sections.modify i fun sect => { sect with alloc := false }
  | _ => sections

/-- `elf_next_in_group`. The field is zero in the standard sections, and zero stands for the
undefined section. -/
def elfNextInGroup (sections : List Section) : SecRef → Option SecRef
  | .sect i => (sections[i]?).bind Section.nextInGroup
  | _ => some .und

/-- The loop over the members of a group. It visits each section once or it never ends. -/
def clearGroup (frst : SecRef) : Nat → List Section → SecRef → Except LinkStop (List Section)
  | 0, _, _ => .error .crash
  | n + 1, sections, s =>
    let sections := clearAlloc sections s
    match elfNextInGroup sections s with
    | none => .ok sections
    | some s => if s = frst then .ok sections else clearGroup frst n sections s

/-- `s_eliminate_linkonce` -/
def sEliminateLinkonce (host : Host) (modules : List (CexpModuleRec dm))
    (sections : List Section) (i : Nat) : Except LinkStop (List Section) :=
  match sections[i]? with
  | none => .ok sections
  | some sect =>
    if sect.linkOnce ∧ (cexpSymLookup host sect.name modules).isSome then
      let sections := clearAlloc sections (.sect i)
      if sect.group then
        match elfNextInGroup sections (.sect i) with
        | none => .ok sections
        | some frst => clearGroup frst (sections.length + 4) sections frst
      else .ok sections
    else .ok sections

/-! ## Symbols -/

/-- `resolve_syms` looks for the magic names: the symbol becomes local, and there may be one
of each. -/
def noteCallback (ld : LinkData dm) (slot : Nat) (sp : Asymbol) : LinkData dm :=
  if sp.name = CEXPMOD_INITIALIZER_SYM then
    let ld := ld.setSym slot { sp with isLocal := true }
    if ld.iniCallback.isSome then ld.addError else { ld with iniCallback := some slot }
  else if sp.name = CEXPMOD_FINALIZER_SYM then
    let ld := ld.setSym slot { sp with isLocal := true }
    if ld.finiCallback.isSome then ld.addError else { ld with finiCallback := some slot }
  else ld

/-- The flag `BSF_LOCAL` after `noteCallback`. -/
def localSym (sp : Asymbol) : Bool :=
  sp.isLocal || sp.name = CEXPMOD_INITIALIZER_SYM || sp.name = CEXPMOD_FINALIZER_SYM

def addNewCommon (ld : LinkData dm) (slot : Nat) (sp : Asymbol) : LinkData dm :=
  { ld.setSym slot { sp with keep := true, isOldCommon := true } with
    newCommons := ld.newCommons ++ [slot] }

/-- A common symbol that exists already must be large enough and aligned. -/
def checkCommon (ld : LinkData dm) (sp : Asymbol) (ts : CexpSym) : LinkData dm :=
  let ld := if ts.size < sp.size then ld.addError else ld
  if ts.value.ptv &&& (sp.align - 1).setWidth 64 ≠ 0 then ld.addError else ld

/-- The body of the loop of `resolve_syms`. -/
def resolveSym (host : Host) (modules : List (CexpModuleRec dm)) (ld : LinkData dm)
    (slot : Nat) : LinkData dm :=
  match ld.st[slot]? with
  | none => ld
  | some sp =>
    let ld := noteCallback ld slot sp
    if localSym sp then
      if sp.isSectionSym ∧ ld.allocated sp.sect then
        ld.setSym slot { sp with isLocal := true, keep := true }
      else ld
    else if sp.isThreadLocal then ld
    else
      match sp.sect, cexpSymLookup host sp.name modules with
      | .und, none =>
        if sp.value ≠ 0 ∧ sp.isFunction then ld.setSym slot { sp with keep := true }
        else if sp.isWeak then addNewCommon ld slot sp
        else ld
      | .und, some _ => ld
      | .com, some (ts, mod) => asymFromCexpSym (checkCommon ld sp ts) slot ts mod
      | .com, none => addNewCommon ld slot sp
      | _, some (ts, mod) =>
        if sp.isWeak then asymFromCexpSym ld slot ts mod else ld.addError
      | _, none => ld.setSym slot { sp with keep := true }

/-- `resolve_syms` -/
def resolveSyms (host : Host) (modules : List (CexpModuleRec dm)) (ld : LinkData dm) :
    LinkData dm :=
  (List.range ld.st.length).foldl (resolveSym host modules) ld

/-! ## The symbol table of the new module -/

/-- `bfd_asymbol_value`. The sections of the file have the addresses `vma`. -/
def asymbolValue (vma : Nat → BitVec 64) (sp : Asymbol) : BitVec 64 :=
  match sp.sect with
  | .com => BitVec.ofInt 64 sp.size
  | .sect i => vma i + sp.value
  | _ => sp.value

/-- `filter` -/
def filter (sections : List Section) (ext : Nat × Asymbol) : Option CStr :=
  if ext.2.keep then
    if ext.2.isSectionSym then
      match ext.2.sect with
      | .sect i => (sections[i]?).map Section.name
      | _ => some ext.2.name
    else some ext.2.name
  else none

def cexpTypeGuessFromSize (dm : DataModel) (s : Int) : CexpType :=
  open CexpType in
  if TUCharP.baseTypeSize = s then TUChar
  else if TUShortP.baseTypeSize = s then TUShort
  else if (TULongP dm).baseTypeSize = s then TULong dm
  else if TUIntP.baseTypeSize = s then TUInt
  else if TDoubleP.baseTypeSize = s then TDouble
  else if TFloatP.baseTypeSize = s then TFloat
  else TVoid

def CEXP_SYMFLG_GLBL : Nat := 1

def CEXP_SYMFLG_WEAK : Nat := 2

def CEXP_SYMFLG_SECT : Nat := 16

/-- `assign`. The value is the slot of the symbol until all symbols have their values. -/
def assign (dm : DataModel) (vma : Nat → BitVec 64) (text : Option Nat) (ext : Nat × Asymbol)
    (cesp : CexpSym) : CexpSym :=
  open CexpType in
  let sp := ext.2
  let s : Int :=
    if sp.isFunction then if sp.size = 0 then dm.longSize else sp.size
    else if !sp.isSectionSym && sp.isOldCommon then (asymbolValue vma sp).toInt
    else sp.size
  let t :=
    if sp.isFunction then TFuncP dm
    else if sp.isSectionSym then TVoid
    else cexpTypeGuessFromSize dm s
  let t :=
    if t = TVoid ∧ !(sp.isFunction || sp.isObject || sp.isSectionSym) ∧ s = 0 ∧
      text.isSome ∧ text.map SecRef.sect = some sp.sect then TFuncP dm else t
  { cesp with
    value := ⟨BitVec.ofNat 64 ext.1, t⟩
    size := s
    flags := cesp.flags ||| (if sp.isGlobal then CEXP_SYMFLG_GLBL else 0) |||
      (if sp.isWeak then CEXP_SYMFLG_WEAK else 0) |||
      (if sp.isSectionSym then CEXP_SYMFLG_SECT else 0) }

/-- `align_power` -/
def alignPower {w : Nat} (addr : BitVec w) (align : Nat) : BitVec w :=
  (addr + (1 : BitVec w) <<< align - 1) &&& (BitVec.allOnes w <<< align)

/-- `elf_get_align_pwr` -/
def elfGetAlignPwr (sp : Asymbol) : Nat := Nat.clog 2 sp.align.toNat

/-- The loop of `make_new_commons`: each of the symbols gets its offset in the dummy
section `csect`, which has the returned size. -/
def placeCommons (csect : Nat) (st : List Asymbol) (val : BitVec 64) :
    List Nat → List Asymbol × BitVec 64
  | [] => (st, val)
  | slot :: slots =>
    match st[slot]? with
    | none => placeCommons csect st val slots
    | some sp =>
      let val := alignPower val (elfGetAlignPwr sp)
      placeCommons csect (st.set slot { sp with sect := .sect csect, value := val })
        (val + asymbolValue (fun _ => 0) sp) slots

/-- `make_new_commons`. The slots are in the order of `align_size_compare`. -/
def makeNewCommons (file : ObjFile) (ld : LinkData dm) : Except LinkStop (LinkData dm) :=
  if ld.newCommons = [] then .ok ld
  else if file.dummy then
    let placed := placeCommons ld.sections.length ld.st 0 ld.newCommons
    .ok { ld with
      st := placed.1
      sections := ld.sections ++ [{
        name := CStr.empty, size := placed.2.toNat, alloc := true, linkOnce := false,
        group := false, reloc := false, nextInGroup := none, relocs := [] }] }
  else .error .error

/-- `align_size_compare` -/
def alignSizeCompare (st : List Asymbol) (a b : Nat) : Int :=
  match st[a]?, st[b]? with
  | some spa, some spb => (spb.align - spa.align).toInt
  | _, _ => 0

/-- The sort of the new commons. -/
def sortCommons (host : Host) (ld : LinkData dm) : LinkData dm :=
  { ld with newCommons := host.qsort Nat (alignSizeCompare ld.st) ld.newCommons }

/-- `slurp_symtab`, with the table that it makes. -/
def slurpSymtab (host : Host) (modules : List (CexpModuleRec host.dm)) (file : ObjFile)
    (text : Option Nat) (ld : LinkData host.dm) :
    Except LinkStop (LinkData host.dm × CexpSymTbl) :=
  if ld.st = [] then .error .error
  else
    let ld := resolveSyms host modules ld
    if ld.errors ≠ 0 then .error .error
    else
      let ld := sortCommons host ld
      match host.cexpCreateSymTbl (filter ld.sections) (assign host.dm file.vma text)
          ((List.range ld.st.length).zip ld.st) with
      | none => .error .crash
      | some cst => (makeNewCommons file ld).map fun ld => (ld, cst)

/-- The loop of `cexpSymTabSetValues`. -/
def setValues (vma : Nat → BitVec 64) (st : List Asymbol) : List CexpSym → List CexpSym
  | [] => []
  | cesp :: syms =>
    if cesp.name = none then cesp :: syms
    else
      match st[cesp.value.ptv.toNat]? with
      | none => cesp :: setValues vma st syms
      | some sp =>
        { cesp with value := { cesp.value with ptv := asymbolValue vma sp } } ::
          setValues vma st syms

/-- `cexpSymTabSetValues`, without the index by addresses. -/
def cexpSymTabSetValues (vma : Nat → BitVec 64) (st : List Asymbol) (cst : CexpSymTbl) :
    CexpSymTbl :=
  { cst with syms := setValues vma st cst.syms }

/-! ## Relocations -/

/-- `my__dso_handle`: the symbol in the table of the system module. -/
def myDsoHandle (host : Host) : List (CexpModuleRec dm) → Option SymRef
  | [] => none
  | sys :: _ => (host.cexpSymTblLookup DSO_HANDLE_NAME sys.symtbl).map fun s => ⟨sys.handle, s⟩

/-- Whether `my__cxa_finalize` is set. -/
def hasCxaFinalize (host : Host) : List (CexpModuleRec dm) → Bool
  | [] => false
  | sys :: _ =>
    (host.cexpSymTblLookup CXA_FINALIZE sys.symtbl).any fun s => s.value.ptv ≠ 0

/-- `bfdstuff_complete_init`: the assertion on the system symbol table. -/
def completeInit (host : Host) (cst : CexpSymTbl) : Except LinkStop Unit :=
  if (host.cexpSymTblLookup CXA_FINALIZE cst).any (fun s => s.value.ptv ≠ 0) ∧
    (host.cexpSymTblLookup DSO_HANDLE_NAME cst).isNone then .error .crash else .ok ()

/-- The relocation number `k` of section `i` is performed against the symbol. -/
def performRelocation (file : ObjFile) (i k : Nat) (ld : LinkData dm) (slot : Nat) :
    LinkData dm :=
  match ld.st[slot]? with
  | none => ld
  | some sp => if file.performs i k sp then ld else ld.addError

/-- The body of the loop of `s_reloc` over the relocations of section `i`. -/
def relocate (host : Host) (modules : List (CexpModuleRec dm)) (nmod : CexpModule)
    (file : ObjFile) (i : Nat) (ld : LinkData dm) (r : Option Nat × Nat) : LinkData dm :=
  match r.1 with
  | none => ld.addError
  | some slot =>
    match ld.st[slot]? with
    | none => ld.addError
    | some sp =>
      match sp.sect with
      | .und =>
        match cexpSymLookup host sp.name modules with
        | none => ld.addError
        | some (ts, mod) =>
          if myDsoHandle host modules = some ⟨mod.handle, ts⟩ then
            if hasCxaFinalize host modules then
              performRelocation file i r.2
                (ld.setSym slot
                  { absSymbol ts.name (BitVec.ofNat 64 nmod) with isLocal := true }) slot
            else ld.addError
          else performRelocation file i r.2 (asymFromCexpSym ld slot ts mod) slot
      | .sect j =>
        -- relocations that reference dropped linkonce sections are ignored
        if ld.allocated (.sect j) then performRelocation file i r.2 ld slot else ld
      | _ => performRelocation file i r.2 ld slot

/-- The address that stands for an invalid one: -1. -/
def invalidVma (dm : DataModel) : BitVec 64 := (BitVec.allOnes dm.longBits).setWidth 64

/-- `s_reloc` -/
def sReloc (host : Host) (modules : List (CexpModuleRec dm)) (nmod : CexpModule)
    (file : ObjFile) (ld : LinkData dm) (i : Nat) : LinkData dm :=
  match ld.sections[i]? with
  | none => ld
  | some sect =>
    if sect.alloc then
      if file.vma i = invalidVma dm ∨ ¬file.readable i then ld.addError
      else if sect.reloc then
        if sect.relocs = [] then ld.addError
        else sect.relocs.zipIdx.foldl (relocate host modules nmod file i) ld
      else ld
    else ld

/-- The loop over the section names: a name that is not in the table of the new module must
be the one of a `linkonce` section that a module has loaded previously. -/
def recordSectionNames (host : Host) (modules : List (CexpModuleRec dm)) (nmod : CexpModule)
    (cst : CexpSymTbl) : List CStr → List SymRef
  | [] => []
  | name :: names =>
    match host.cexpSymTblLookup name cst with
    | some s => ⟨nmod, s⟩ :: recordSectionNames host modules nmod cst names
    | none =>
      match cexpSymLookup host name modules with
      | none => recordSectionNames host modules nmod cst names
      | some (s, mod) => ⟨mod.handle, s⟩ :: recordSectionNames host modules nmod cst names

/-! ## Loading -/

/-- The system symbol table must be the one of the running program. -/
def sane (host : Host) (cst : CexpSymTbl) : Bool :=
  match host.cexpSymTblLookup LOADER_SYM cst with
  | none => true
  | some s =>
    s.value.ptv = host.cexpLoadFile &&
    (host.cexpSymTblLookup ETEXT_SYM cst).any (fun s => s.value.ptv = host.etext) &&
    (host.cexpSymTblLookup EDATA_SYM cst).any (fun s => s.value.ptv = host.edata)

/-- What `cexpLoadFile` or `cexpLoadBuiltinSymtab` leaves in the record of the new module. -/
structure Linked (dm : DataModel) where
  symtbl : CexpSymTbl
  builtin : Bool
  sectionSyms : List SymRef
  needs : Bitmap dm
  bound : List SymRef

/-- The linker's data before the symbols are read. -/
def linkInit (sections : List Section) (symtab : List Asymbol) : LinkData dm where
  sections := sections
  st := symtab
  newCommons := []
  depend := Bitmap.zero
  bound := []
  errors := 0
  iniCallback := none
  finiCallback := none

/-- The sections that are left after the redundant `linkonce` sections are dropped. -/
def keptSections (host : Host) (modules : List (CexpModuleRec dm)) (file : ObjFile) :
    Except LinkStop (List Section) :=
  (List.range file.sections.length).foldlM (sEliminateLinkonce host modules)
    (file.sections.map sNsects)

/-- The relocations of all sections; the system symbol table is not relocated. -/
def relocateAll (host : Host) (modules : List (CexpModuleRec dm)) (nmod : CexpModule)
    (file : ObjFile) (ld : LinkData dm) : Except LinkStop (LinkData dm) :=
  if modules = [] then
    -- there should be no real COMMON symbols in the system symbol table
    if ld.newCommons.all fun slot => (ld.st[slot]?).any Asymbol.isWeak then .ok ld
    else .error .crash
  else if file.placed then
    let ld := (List.range ld.sections.length).foldl (sReloc host modules nmod file) ld
    if ld.errors ≠ 0 then .error .error else .ok ld
  else .error .error

/-- The passes of `cexpLoadFile`: the linker's data at their end, and the symbol table that
they make. -/
def link (host : Host) (modules : List (CexpModuleRec host.dm)) (nmod : CexpModule)
    (file : ObjFile) : Except LinkStop (LinkData host.dm × CexpSymTbl) :=
  match keptSections host modules file with
  | .error e => .error e
  | .ok sections =>
    match slurpSymtab host modules file (textSection sections)
        (linkInit sections file.symtab) with
    | .error e => .error e
    | .ok (ld, cst) =>
      (relocateAll host modules nmod file ld).map fun ld =>
        (ld, cexpSymTabSetValues file.vma ld.st cst)

/-- The assertion on the table of the system module, if there is one already. -/
def completeInitSystem (host : Host) : List (CexpModuleRec dm) → Except LinkStop Unit
  | [] => .ok ()
  | sys :: _ => completeInit host sys.symtbl

def cexpLoadFile (host : Host) (modules : List (CexpModuleRec host.dm)) (nmod : CexpModule)
    (file : ObjFile) : Except LinkStop (Linked host.dm) := do
  completeInitSystem host modules
  if !file.opens then .error .error
  else
    let (ld, cst) ← link host modules nmod file
    if !(file.indexed && sane host cst && file.ehPlaced) then .error .error
    else
      if modules = [] then completeInit host cst
      .ok {
        symtbl := cst
        builtin := false
        sectionSyms := recordSectionNames host modules nmod cst
          (sBasic (file.sections.map sNsects))
        needs := ld.depend
        bound := ld.bound }

end Cexp
