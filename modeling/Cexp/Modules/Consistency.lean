import Cexp.Modules.Invariant
import Mathlib.Data.List.Sort

/-!
# Consistency of the module store

In every state between two operations the ids and names of the loaded modules are distinct,
the two dependency bitmaps mirror each other and have no bits of modules that are not
loaded, and the list holds every loaded module once. Operations keep the system module
first, remove only modules that no loaded module needs, and change nothing when they fail.
The callbacks of the modules load and unload nothing here.
-/

namespace Cexp

variable {dm : DataModel}

/-- Callbacks neither load nor unload modules. -/
def Request.Plain : Request → Prop
  | .load _ callbacks => callbacks = []
  | .unload _ finalizer _ destructors => finalizer = [] ∧ destructors = []

theorem Request.Plain.quiet {host : Host} {r : Request} (h : r.Plain) (s : Store host.dm) :
    Quiet host r s := by
  cases r with
  | load args callbacks =>
    have hcallbacks : callbacks = [] := h
    rw [Quiet, hcallbacks]
    split
    · rw [AllRefused]
      trivial
    · trivial
  | unload mod finalizer rejects destructors =>
    obtain ⟨hfinalizer, hdestructors⟩ : finalizer = [] ∧ destructors = [] := h
    rw [Quiet, hfinalizer, hdestructors]
    split
    · trivial
    · rw [AllRefused]
      refine ⟨trivial, fun s' _ _ => ?_⟩
      rw [AllRefused]
      trivial

theorem plain_quietRun {host : Host} {rs : List Request} (h : ∀ r ∈ rs, r.Plain)
    (s : Store host.dm) : QuietRun host rs s := by
  induction rs generalizing s with
  | nil => trivial
  | cons r rs ih =>
    refine ⟨(h r List.mem_cons_self).quiet s, fun s' _ _ => ?_⟩
    exact ih (fun r' hr' => h r' (List.mem_cons_of_mem r hr')) s'

/-- The module that the variable of this name points to: the first one of the list. -/
def cexpSystemModule (s : Store dm) : Option CexpModule := (handles s.modules).head?

/-- What holds in every state between operations. -/
structure StoreLaw (s : Store dm) : Prop where
  ids_range : ∀ m ∈ s.modules, m.id < MAX_NUM_MODULES
  ids_distinct : (s.modules.map CexpModuleRec.id).Nodup
  names_distinct : (s.modules.map CexpModuleRec.name).Nodup
  mirror : ∀ m ∈ s.modules, ∀ n ∈ s.modules,
    m.neededby.tst n.id = true ↔ n.needs.tst m.id = true
  bits_loaded : ∀ m ∈ s.modules, ∀ k, m.needs.tst k = true ∨ m.neededby.tst k = true →
    ∃ n ∈ s.modules, n.id = k
  listed : s.modules.map (fun m => (m.handle, m.id)) = s.loaded
  listed_once : (handles s.modules).Nodup

/-- What an operation does to the list. -/
structure OperationLaw (s s' : Store dm) (resp : Response) : Prop where
  system : ∀ sys, cexpSystemModule s = some sys → cexpSystemModule s' = some sys
  removed : ∀ m ∈ s.modules, m.handle ∉ handles s'.modules →
    ∀ n ∈ s.modules, n.needs.tst m.id = false
  refused : resp = .refused → s'.modules = s.modules ∧ s'.loaded = s.loaded

theorem Store.Inv.law {s : Store dm} (h : s.Inv) : StoreLaw s where
  ids_range := h.ids_lt
  ids_distinct := h.ids_nodup
  names_distinct := h.names_nodup
  mirror m hm n hn := by rw [h.mirror m hm n hn]
  bits_loaded m hm k hk := hk.elim (h.needs_loaded m hm k) (h.neededby_loaded m hm k)
  listed := h.loaded_eq.symm
  listed_once := h.handles_nodup

theorem head_handles_append {l₁ : List (CexpModuleRec dm)} (l₂ : List (CexpModuleRec dm))
    {sys : CexpModule} (h : (handles l₁).head? = some sys) :
    (handles (l₁ ++ l₂)).head? = some sys := by
  rw [handles_append, List.head?_append, h, Option.some_or]

theorem Outcome.law {host : Host} {r : Request} {s s' : Store host.dm} {resp : Response}
    (h : Outcome host r s s' resp) (hs : s.Inv) : OperationLaw s s' resp := by
  cases h with
  | refused hsame =>
    refine ⟨fun sys hsys => ?_, fun m hm hgone => ?_, fun _ => ⟨hsame.modules, hsame.loaded⟩⟩
    · rw [cexpSystemModule, hsame.modules]
      exact hsys
    · rw [hsame.modules] at hgone
      exact absurd (mem_handles hm) hgone
  | @loaded args callbacks nmod s₁ _ hnew hsame hs' =>
    have hmodules : s₁.modules = s.modules := hsame.modules
    subst hs'
    refine ⟨fun sys hsys => ?_, fun m hm hgone => ?_, fun hresp => by cases hresp⟩
    · rw [cexpSystemModule, appended, hmodules]
      refine head_handles_append [nmod] ?_
      rw [handles_addDependencies]
      exact hsys
    · refine absurd ?_ hgone
      rw [appended, hmodules, handles_append, handles_addDependencies]
      exact List.mem_append_left _ (mem_handles hm)
  | @unloaded finalizer destructors l₁ l₂ a m s₁ _ hmodules hzero _ hsame hs' =>
    subst hs'
    have hhandles : handles (removed l₁ a m l₂ s₁).modules = handles (l₁ ++ a :: l₂) := by
      rw [removed, handles, List.map_map]
      rfl
    refine ⟨fun sys hsys => ?_, fun n hn hgone k hk => ?_, fun hresp => by cases hresp⟩
    · rw [cexpSystemModule, hmodules] at hsys
      rw [cexpSystemModule, hhandles]
      cases l₁ with
      | nil => exact hsys
      | cons b l₁ => exact hsys
    · have hm : m ∈ s.modules := by
        rw [hmodules]
        simp
      have hnm : n = m := by
        rw [hhandles] at hgone
        rw [hmodules] at hn
        rcases List.mem_append.mp hn with hn | hn
        · exact absurd (mem_handles (List.mem_append_left _ hn)) hgone
        · rcases List.mem_cons.mp hn with rfl | hn
          · exact absurd (mem_handles (by simp)) hgone
          · rcases List.mem_cons.mp hn with rfl | hn
            · rfl
            · exact absurd (mem_handles (List.mem_append_right _ (List.mem_cons_of_mem _ hn))) hgone
      rw [hnm, ← hs.mirror m hm k hk]
      exact (Bitmap.isZero_iff _).mp hzero k.id (hs.ids_lt k hk)

/-- The module store is consistent in every run of loads and unloads, whether they succeed or
fail. -/
theorem module_store_consistent (host : Host) (rs : List Request) (hplain : ∀ r ∈ rs, r.Plain)
    (s : Store host.dm) (h : requests host rs Store.init = some s) :
    StoreLaw s ∧ ∀ r s' resp, r.Plain → request host r s = some (s', resp) →
      OperationLaw s s' resp := by
  have hs : s.Inv := requests_inv Store.inv_init (plain_quietRun hplain _) h
  refine ⟨hs.law, fun r s' resp hr hrequest => ?_⟩
  exact (request_outcome hs (hr.quiet s) hrequest).law hs

/-! ## A run -/

theorem le_foldr_max {l : List Nat} {n : Nat} (h : n ∈ l) : n ≤ l.foldr max 0 := by
  induction l with
  | nil => cases h
  | cons a l ih =>
    rw [List.foldr_cons]
    rcases List.mem_cons.mp h with rfl | h
    · exact Nat.le_max_left _ _
    · exact Nat.le_trans (ih h) (Nat.le_max_right _ _)

/-- A 64-bit host whose allocator goes upwards. -/
def plainHost : Host where
  dm := .lp64
  cs := .signed
  qsort := fun _ cmp l => l.insertionSort fun a b => cmp a b ≤ 0
  qsort_sorts := fun _ cmp l => CLib.sorts_insertionSort cmp l
  bsearch := CLib.Probe.half
  malloc used := used.foldr max 0 + 16
  malloc_fresh used h := by
    have hle := le_foldr_max h
    have hlt : used.foldr max 0 < used.foldr max 0 + 16 := Nat.lt_add_of_pos_right (by decide)
    exact absurd hle (Nat.not_le.mpr hlt)
  cexpLoadFile := 0
  etext := 0
  edata := 0

/-- A symbol of an object file that is not kept. -/
def localSymbol (name : CStr) (sect : SecRef) : Asymbol :=
  { absSymbol (some name) 0 with sect := sect, isLocal := true }

/-- A global symbol that is defined in the ABS section. -/
def globalSymbol (name : CStr) : Asymbol := { absSymbol (some name) 0x1000 with isGlobal := true }

/-- A symbol that is not defined. -/
def undefSymbol (name : CStr) : Asymbol :=
  { absSymbol (some name) 0 with sect := .und, isGlobal := true }

/-- A section of four bytes whose relocations refer to the symbols `relocs`. -/
def wordSection (name : CStr) (relocs : List (Option Nat)) : Section where
  name := name
  size := 4
  alloc := true
  linkOnce := false
  group := false
  reloc := relocs ≠ []
  nextInGroup := none
  relocs := relocs

/-- An object file that can be linked. -/
def objFile (sections : List Section) (symtab : List Asymbol) : ObjFile where
  opens := true
  sections := sections
  symtab := symtab
  dummy := true
  placed := true
  vma := fun i => BitVec.ofNat 64 (0x10000 * (i + 1))
  readable := fun _ => true
  performs := fun _ _ _ => true
  indexed := true
  ehPlaced := true

def symbolS : CStr := ⟨[115], by decide⟩

/-- Load the builtin symbols. -/
def loadSystem : LoadArgs where
  filename := none
  modulename := none
  file := objFile [] []
  builtin := some [newSym symbolS, zeroSym]
  recordMem := true
  nameMem := true
  tableMem := true
  builtinMem := true

def loadNamed (name : CStr) (file : ObjFile) : LoadArgs :=
  { loadSystem with filename := some name, file := file }

def moduleA : CStr := ⟨[97], by decide⟩

def moduleB : CStr := ⟨[98], by decide⟩

def moduleC : CStr := ⟨[99], by decide⟩

/-- An object that defines a symbol of the name of the module. -/
def definingFile (name : CStr) : ObjFile := objFile [] [globalSymbol name]

/-- An object that also has a section with a reference to another symbol. -/
def referringFile (name other : CStr) : ObjFile :=
  objFile [wordSection TEXT_SECTION_NAME [some 1]] [globalSymbol name, undefSymbol other]

/-- Behind the system module `a` is loaded, and `b`, which refers to `a`. A load of an existing name
fails, and so does unloading `a`; `c` is loaded and unloaded. -/
def plainRun : List Request :=
  [.load loadSystem [],
    .load (loadNamed moduleA (definingFile moduleA)) [],
    .load (loadNamed moduleB (referringFile moduleB moduleA)) [],
    .load (loadNamed moduleA (definingFile moduleA)) [],
    .unload 32 [] false [],
    .load (loadNamed moduleC (definingFile moduleC)) [],
    .unload 64 [] false []]

theorem module_store_consistent_run :
    ∃ s, requests plainHost plainRun Store.init = some s ∧ handles s.modules = [16, 32, 48] ∧
      (∃ b ∈ s.modules, b.handle = 48 ∧ b.needs.tst 1 = true) ∧ StoreLaw s := by
  have hrun : (requests plainHost plainRun Store.init).any (fun s =>
      decide (handles s.modules = [16, 32, 48]) &&
        s.modules.any fun b => b.handle = 48 && b.needs.tst 1) = true := by decide +kernel
  obtain ⟨s, hs, hafter⟩ := (Option.any_eq_true _ _).mp hrun
  obtain ⟨hhandles, hneeds⟩ := Bool.and_eq_true_iff.mp hafter
  obtain ⟨b, hb, hbit⟩ := List.any_eq_true.mp hneeds
  have hplain : ∀ r ∈ plainRun, r.Plain := by simp [plainRun, Request.Plain]
  exact ⟨s, hs, of_decide_eq_true hhandles, ⟨b, hb, by simpa using hbit⟩,
    (module_store_consistent plainHost plainRun hplain s hs).1⟩

end Cexp
