import Cexp.Modules.Link

/-!
# The module store

The store is the list of loaded modules. `cexpModuleLoad` determines the end of the list
and an id, links the module, calls its constructors and its initializer, enters the
dependencies and finally chains the module to what was the end of the list.
`cexpModuleUnload` refuses to remove a module that another one needs.

The lock of the store may be nested, so the callbacks of a module can load and unload
modules themselves. A request is therefore a tree: each load or unload comes with the
requests that its callbacks make. Writing to a record that has been freed ends the run
without a result, and so does freeing the table of the builtin symbols: its array is static.
-/

namespace Cexp

/-! ## State -/

/-- The list of modules, the static variable of `idAlloc` and the records that are
allocated. `loaded` has no counterpart in the source: it lists the modules (with their ids)
whose load has returned successfully and that have not been unloaded. -/
structure Store (dm : DataModel) where
  modules : List (CexpModuleRec dm)
  id : Nat
  used : List CexpModule
  loaded : List (CexpModule × Nat)

/-- The store when the program starts. -/
def Store.init {dm : DataModel} : Store dm := ⟨[], MAX_NUM_MODULES - 1, [], []⟩

variable {dm : DataModel}

/-- The addresses of the records in the list. -/
def handles (modules : List (CexpModuleRec dm)) : List CexpModule :=
  modules.map CexpModuleRec.handle

/-! ## Ids -/

/-- The bitmap of the ids in use. -/
def usedIds (modules : List (CexpModuleRec dm)) : Bitmap dm :=
  modules.foldl (fun bm m => bm.set m.id) Bitmap.zero

/-- The loop of `idAlloc`. It comes back to `id` after `MAX_NUM_MODULES` rounds. -/
def idSearch (inUse : Bitmap dm) (id : Nat) : Nat → Nat → Option Nat
  | 0, _ => none
  | n + 1, newId =>
    let newId := (newId + 1) % MAX_NUM_MODULES
    if newId = id then none
    else if inUse.tst newId then idSearch inUse id n newId
    else some newId

def idAlloc (modules : List (CexpModuleRec dm)) (id : Nat) : Option Nat :=
  idSearch (usedIds modules) id MAX_NUM_MODULES id

/-! ## Names -/

/-- `strrchr(s, '/') + 1` -/
def afterSlash : List UInt8 → Option (List UInt8)
  | [] => none
  | c :: cs => (afterSlash cs).or (if c = 47 then some cs else none)

theorem afterSlash_subset {s t : List UInt8} (h : afterSlash s = some t) : t ⊆ s := by
  induction s with
  | nil => cases h
  | cons c cs ih =>
    rw [afterSlash, Option.or_eq_some_iff] at h
    rcases h with h | ⟨-, h⟩
    · exact List.subset_cons_of_subset c (ih h)
    · split at h
      · cases h
        exact List.subset_cons_self c _
      · cases h

def basename (filename : CStr) : CStr :=
  match h : afterSlash filename.bytes with
  | none => filename
  | some t => ⟨t, fun hmem => filename.noNul (afterSlash_subset h hmem)⟩

/-- `"SYSTEM-BUILTIN"` -/
def systemBuiltin : CStr :=
  ⟨[83, 89, 83, 84, 69, 77, 45, 66, 85, 73, 76, 84, 73, 78], by decide⟩

/-- The name that `cexpModuleLoad` gives the module. -/
def moduleName (filename modulename : Option CStr) : CStr :=
  (modulename.or (filename.map basename)).getD systemBuiltin

/-! ## Loading -/

/-- The arguments of `cexpModuleLoad`, what the file contains (or the builtin symbols, if
there is no file) and which allocations succeed: of the record, of its name, of the table of the
builtin symbols, and of the index and the list of section symbols that come with that table. -/
structure LoadArgs where
  filename : Option CStr
  modulename : Option CStr
  file : ObjFile
  builtin : Option (List CexpSym)
  recordMem : Bool
  nameMem : Bool
  tableMem : Bool
  builtinMem : Bool

/-- The loop of `cexpLoadBuiltinSymtab` over the builtin symbols guesses types. -/
def guessType (dm : DataModel) (s : CexpSym) : CexpSym :=
  if s.value.type = CexpType.TVoid then
    { s with value := { s.value with type := cexpTypeGuessFromSize dm s.size } }
  else s

/-- The symbol table of the new module is the array of the builtin symbols itself. If the index or
the list of section symbols cannot be made, `cexpModuleFree` hands that array to `free`. -/
def cexpLoadBuiltinSymtab (host : Host) (nmod : CexpModule) (args : LoadArgs) :
    Except LinkStop (Linked host.dm) :=
  match args.builtin with
  | none => .error .error
  | some syms =>
    if !args.tableMem then .error .error
    else
      let nsyms := (syms.takeWhile fun s => s.name.isSome).length
      match cexpSortSymTbl host.cs (host.qsort CexpSym (cexpNamecomp host.cs)) ⟨nsyms, syms⟩ with
      | none => .error .crash
      | some t =>
        if args.builtinMem then
          let guessed := (t.syms.take nsyms).map (guessType host.dm)
          .ok {
            symtbl := { t with syms := guessed ++ t.syms.drop nsyms }
            builtin := true
            sectionSyms := (guessed.filter fun s => s.flags &&& CEXP_SYMFLG_SECT ≠ 0).map
              fun s => ⟨nmod, s⟩
            needs := Bitmap.zero
            bound := [] }
        else .error .crash

def loadSource (host : Host) (modules : List (CexpModuleRec host.dm)) (nmod : CexpModule)
    (args : LoadArgs) : Except LinkStop (Linked host.dm) :=
  match args.filename with
  | some _ => cexpLoadFile host modules nmod args.file
  | none => cexpLoadBuiltinSymtab host nmod args

/-- The body of the loop of `addDependencies`. -/
def addDependency (nmod m : CexpModuleRec dm) : CexpModuleRec dm :=
  if nmod.needs.tst m.id then { m with neededby := m.neededby.set nmod.id } else m

def addDependencies (nmod : CexpModuleRec dm) (modules : List (CexpModuleRec dm)) :
    List (CexpModuleRec dm) :=
  modules.map (addDependency nmod)

/-- The list up to the record `tail`. -/
def through (tail : CexpModule) : List (CexpModuleRec dm) → List (CexpModuleRec dm)
  | [] => []
  | m :: ms => if m.handle = tail then [m] else m :: through tail ms

/-- `tail->next=nmod`, or `cexpSystemModule=nmod` if there is no tail. `none` if the tail has
been freed. -/
def chain (tail : Option CexpModule) (nmod : CexpModuleRec dm)
    (modules : List (CexpModuleRec dm)) : Option (List (CexpModuleRec dm)) :=
  match tail with
  | none => some [nmod]
  | some t => if t ∈ handles modules then some (through t modules ++ [nmod]) else none

/-- The record of the new module after linking. -/
def newRecord (handle : CexpModule) (name : CStr) (id : Nat) (linked : Linked dm) :
    CexpModuleRec dm where
  handle := handle
  name := name
  id := id
  symtbl := linked.symtbl
  builtin := linked.builtin
  sectionSyms := linked.sectionSyms
  needs := linked.needs
  neededby := Bitmap.zero
  bound := linked.bound

/-- How far `cexpModuleLoad` gets before the callbacks: it fails, or it has prepared the new
record and knows the end of the list. -/
inductive Prepared (dm : DataModel) where
  | refused (s : Store dm)
  | crash
  | ready (nmod : CexpModuleRec dm) (tail : Option CexpModule) (s : Store dm)

/-- `cexpModuleLoad` up to the calls of the constructors. -/
def prepareLoad (host : Host) (args : LoadArgs) (s : Store host.dm) : Prepared host.dm :=
  let name := moduleName args.filename args.modulename
  let handle := host.malloc s.used
  if !args.recordMem then .refused s
  else if s.modules.any fun m => m.name = name then .refused s
  else
    match idAlloc s.modules s.id with
    | none => .refused s
    | some id =>
      if !args.nameMem then .refused { s with id := id }
      else
        match loadSource host s.modules handle args with
        | .error .error => .refused { s with id := id }
        | .error .crash => .crash
        | .ok linked =>
          .ready (newRecord handle name id linked) ((handles s.modules).getLast?)
            { s with id := id, used := handle :: s.used }

/-- `cexpModuleLoad` after the callbacks. -/
def finishLoad (nmod : CexpModuleRec dm) (tail : Option CexpModule) (s : Store dm) :
    Option (Store dm) :=
  (chain tail nmod (addDependencies nmod s.modules)).map fun modules =>
    { s with modules := modules, loaded := s.loaded ++ [(nmod.handle, nmod.id)] }

/-! ## Unloading -/

def predecessor (mod : CexpModule) : List (CexpModuleRec dm) → Option CexpModule
  | a :: b :: ms => if b.handle = mod then some a.handle else predecessor mod (b :: ms)
  | _ => none

/-- The checks of `cexpModuleUnload`: the record and its predecessor, if the module may be
unloaded. -/
def checkUnload (mod : CexpModule) (s : Store dm) : Option (CexpModuleRec dm × CexpModule) :=
  if (handles s.modules).head? = some mod then none
  else
    match predecessor mod s.modules, s.modules.find? fun m => m.handle = mod with
    | some pred, some m => if m.neededby.isZero then some (m, pred) else none
    | _, _ => none

/-- The module with the id is removed from the dependency bitmap of `m`. -/
def clearDependency (id : Nat) (m : CexpModuleRec dm) : CexpModuleRec dm :=
  { m with neededby := m.neededby.clr id }

def clearDependencies (id : Nat) (s : Store dm) : Store dm :=
  { s with modules := s.modules.map (clearDependency id) }

/-- `pred->next=mod->next`, and the record is freed with its symbol table. `none` if one of the two
records has been freed already, or if the symbols are the static array of a builtin table. -/
def unlink (m : CexpModuleRec dm) (pred : CexpModule) (s : Store dm) : Option (Store dm) :=
  if pred ∈ handles s.modules ∧ m.handle ∈ handles s.modules ∧ m.builtin = false then
    some { s with
      modules := through pred s.modules ++
        (s.modules.dropWhile fun n => n.handle ≠ m.handle).tail
      used := s.used.erase m.handle
      loaded := s.loaded.erase (m.handle, m.id) }
  else none

/-! ## Requests -/

/-- A call of `cexpModuleLoad` or `cexpModuleUnload` with the requests that callbacks make
meanwhile: the constructors and the initializer of a module that is loaded, the finalizer
(and whether it rejects) and the destructors of one that is unloaded. -/
inductive Request where
  | load (args : LoadArgs) (callbacks : List Request)
  | unload (mod : CexpModule) (finalizer : List Request) (rejects : Bool)
      (destructors : List Request)

inductive Response where
  | loaded (mod : CexpModule)
  | unloaded
  | refused
  deriving DecidableEq, Repr

mutual

/-- One request. There is no result if the program crashes. -/
def request (host : Host) : Request → Store host.dm → Option (Store host.dm × Response)
  | .load args callbacks, s =>
    match prepareLoad host args s with
    | .refused s => some (s, .refused)
    | .crash => none
    | .ready nmod tail s =>
      match requests host callbacks s with
      | none => none
      | some s => (finishLoad nmod tail s).map fun s => (s, .loaded nmod.handle)
  | .unload mod finalizer rejects destructors, s =>
    match checkUnload mod s with
    | none => some (s, .refused)
    | some (m, pred) =>
      match requests host finalizer s with
      | none => none
      | some s =>
        if rejects then some (s, .refused)
        else
          match requests host destructors (clearDependencies m.id s) with
          | none => none
          | some s => (unlink m pred s).map fun s => (s, .unloaded)

/-- A sequence of requests. -/
def requests (host : Host) : List Request → Store host.dm → Option (Store host.dm)
  | [], s => some s
  | r :: rs, s =>
    match request host r s with
    | none => none
    | some (s, _) => requests host rs s

end

end Cexp
