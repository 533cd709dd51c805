import Cexp.Modules.Bitmap
import Cexp.Syms.Table

/-!
# Module records

A module is known by the address of its record (`CexpModule`). The records are chained to
a list that starts with the system module; here the chain is the list of the records in
its order.

A pointer to a symbol leads into the symbol table of one module, so a pointer is modelled
by that module and the symbol (`SymRef`). Two fields of a record have no counterpart in the
source: `builtin` tells that the symbols of the table are the static array of the builtin symbols,
and `bound` remembers to which symbols of other modules the linker bound references of this one.
-/

namespace Cexp

open CLib

/-! ## The target -/

/-- The address of a module record. -/
abbrev CexpModule := Nat

/-- What the program runs on: the data model and the C library. `malloc used` is the address
that the allocator finds for a module record when the records `used` are allocated. -/
structure Host where
  dm : DataModel
  cs : CharSign
  qsort : (α : Type) → (α → α → Int) → List α → List α
  qsort_sorts : ∀ α cmp l, Sorts cmp l (qsort α cmp l)
  bsearch : Probe
  malloc : List CexpModule → CexpModule
  malloc_fresh : ∀ used, malloc used ∉ used
  /-- `cexpLoadFile`, `_etext` and `_edata` of the running program -/
  cexpLoadFile : BitVec 64
  etext : BitVec 64
  edata : BitVec 64

theorem Host.qsort_perm (host : Host) {α : Type} (cmp : α → α → Int) (l : List α) :
    (host.qsort α cmp l).Perm l := (host.qsort_sorts α cmp l).perm

/-- `cexpSymTblLookup` with the library of the host. -/
def Host.cexpSymTblLookup (host : Host) (name : CStr) (t : CexpSymTbl) : Option CexpSym :=
  Cexp.cexpSymTblLookup host.cs host.bsearch name t

/-- `cexpCreateSymTbl` with the library of the host. -/
def Host.cexpCreateSymTbl (host : Host) {Ext : Type} (filter : Ext → Option CStr)
    (assign : Ext → CexpSym → CexpSym) (syms : List Ext) : Option CexpSymTbl :=
  Cexp.cexpCreateSymTbl host.cs (host.qsort CexpSym (cexpNamecomp host.cs)) filter assign zeroSym
    syms

/-! ## Records -/

/-- A pointer to a symbol: the module whose table holds it, and the symbol. -/
structure SymRef where
  owner : CexpModule
  sym : CexpSym
  deriving DecidableEq

/-- `CexpModuleRec` -/
structure CexpModuleRec (dm : DataModel) where
  handle : CexpModule
  name : CStr
  id : Nat
  symtbl : CexpSymTbl
  builtin : Bool
  sectionSyms : List SymRef
  needs : Bitmap dm
  neededby : Bitmap dm
  bound : List SymRef

/-- The symbols of other modules that a module holds pointers to. -/
def CexpModuleRec.refs {dm : DataModel} (m : CexpModuleRec dm) : List SymRef :=
  m.bound ++ m.sectionSyms.filter fun r => r.owner ≠ m.handle

/-! ## Lookup in all modules -/

variable {dm : DataModel}

/-- `cexpSymLookup`, with the module that `*pmod` is set to. -/
def cexpSymLookup (host : Host) (name : CStr) :
    List (CexpModuleRec dm) → Option (CexpSym × CexpModuleRec dm)
  | [] => none
  | m :: ms =>
    match host.cexpSymTblLookup name m.symtbl with
    | some s => some (s, m)
    | none => cexpSymLookup host name ms

theorem cexpSymLookup_mem {host : Host} {name : CStr} {modules : List (CexpModuleRec dm)}
    {s : CexpSym} {m : CexpModuleRec dm} (h : cexpSymLookup host name modules = some (s, m)) :
    m ∈ modules := by
  induction modules with
  | nil => cases h
  | cons a ms ih =>
    rw [cexpSymLookup] at h
    split at h
    · cases h
      exact List.mem_cons_self
    · exact List.mem_cons_of_mem a (ih h)

theorem cexpSymLookup_symtbl {host : Host} {name : CStr} {modules : List (CexpModuleRec dm)}
    {s : CexpSym} {m : CexpModuleRec dm} (h : cexpSymLookup host name modules = some (s, m)) :
    host.cexpSymTblLookup name m.symtbl = some s := by
  induction modules with
  | nil => cases h
  | cons a ms ih =>
    rw [cexpSymLookup] at h
    split at h
    · next hs =>
      cases h
      exact hs
    · exact ih h

/-- What `bsearch` finds is an entry of the table. -/
theorem cexpSymTblLookup_mem {host : Host} {name : CStr} {t : CexpSymTbl} {s : CexpSym}
    (h : host.cexpSymTblLookup name t = some s) : s ∈ t.entries :=
  (bsearch_sound h).1

end Cexp
