import Cexp.Modules.Link
import Cexp.Reloc.Backend

/-!
# The image of a module in memory

`s_reloc` reads the contents of a section to its address and performs its relocations there. The
pass over all sections turns the memory of the target into the image of the module
(`relocateAllMem`).

The model of the linker's data in `Modules.Link` has an oracle for the outcome of a relocation.
Here the oracle is what the back end makes of the section as it is read (`ImageFile.outcome`),
and with that oracle the two models agree (`relocateAllMem_eq`): a relocation cannot tell which
relocations ran before it. So the image can be told section by section and field by field
(`linked_image`).
-/

namespace Cexp

open CLib

variable {dm : DataModel} {w : Nat}

/-! ## Symbols -/

/-- The symbol that a relocation is performed against. -/
inductive SymTarget where
  /-- it is defined nowhere -/
  | unresolved
  /-- it is in a `linkonce` section that was dropped -/
  | dropped
  | found (sp : Asymbol)

/-- The symbol `*ppsym` of `s_reloc`, once it has been looked up. -/
def symTarget (host : Host) (modules : List (CexpModuleRec dm)) (nmod : CexpModule)
    (allocated : SecRef → Bool) (sp : Asymbol) : SymTarget :=
  match sp.sect with
  | .und =>
    match cexpSymLookup host sp.name modules with
    | none => .unresolved
    | some (ts, mod) =>
      if myDsoHandle host modules = some ⟨mod.handle, ts⟩ then
        if hasCxaFinalize host modules then
          .found { absSymbol ts.name (BitVec.ofNat 64 nmod) with isLocal := true }
        else .unresolved
      else .found { absSymbol ts.name ts.value.ptv with isGlobal := true }
  | .sect j => if allocated (.sect j) then .found sp else .dropped
  | _ => .found sp

/-- What `s_reloc` notes about the symbol in a slot: one of another module takes its place. -/
def bindTarget (host : Host) (modules : List (CexpModuleRec dm)) (nmod : CexpModule)
    (ld : LinkData dm) (slot : Nat) (sp : Asymbol) : LinkData dm :=
  match sp.sect with
  | .und =>
    match cexpSymLookup host sp.name modules with
    | none => ld
    | some (ts, mod) =>
      if myDsoHandle host modules = some ⟨mod.handle, ts⟩ then
        ld.setSym slot { absSymbol ts.name (BitVec.ofNat 64 nmod) with isLocal := true }
      else asymFromCexpSym ld slot ts mod
  | _ => ld

/-! ## Object files with their bytes -/

/-- An object file whose sections have bytes and whose relocations have entries. -/
structure ImageFile (w : Nat) where
  obj : ObjFile
  /-- `SEC_HAS_CONTENTS` -/
  hasContents : Nat → Bool
  /-- `pmelf_getscn` fails after it has read so many bytes of the section. -/
  short : Nat → Option Nat
  byte : Nat → Nat → BitVec 8
  entry : Nat → Nat → Rela w

namespace ImageFile

variable (file : ImageFile w)

def vma (i : Nat) : BitVec w := (file.obj.vma i).setWidth w

/-- A section without contents is cleared. -/
def content (i o : Nat) : BitVec 8 := if file.hasContents i then file.byte i o else 0

/-- The memory with the contents of a section at its address. -/
def fill (i size : Nat) (mem : ByteMem) : ByteMem := fun a =>
  if (file.vma i).toNat ≤ a ∧ a < (file.vma i).toNat + size then
    file.content i (a - (file.vma i).toNat)
  else mem a

/-- `bfd_get_section_contents` -/
def bfdGetSectionContents (i size : Nat) (mem : ByteMem) : Bool × ByteMem :=
  if size = 0 then (true, mem)
  else if !file.hasContents i then (true, file.fill i size mem)
  else
    match file.short i with
    | none => (true, file.fill i size mem)
    | some n => (false, file.fill i (min n size) mem)

/-- The symbol as the back ends see it. -/
def relocSym (sp : Asymbol) : RelocSym w where
  base :=
    match sp.sect with
    | .und => .und
    | .abs => .sect 0
    | .com => .com
    | .sect j => .sect (file.vma j)
  val := sp.value.setWidth w
  size := BitVec.ofInt w sp.size

def relocSection (i : Nat) (sect : Section) : RelocSection w where
  vma := file.vma i
  size := BitVec.ofNat w sect.size

/-- A relocation of section `i`, against a symbol that is known. -/
def perform (B : RelocBackend w) (i : Nat) (sect : Section) (k : Nat) (sp : Asymbol)
    (mem : ByteMem) : Option (RelocStatus × ByteMem) :=
  B.perform (file.entry i k) (file.relocSym sp) (file.relocSection i sect) mem

end ImageFile

/-! ## Passes over the memory -/

section

variable (host : Host) (modules : List (CexpModuleRec dm)) (nmod : CexpModule)
  (B : RelocBackend w) (file : ImageFile w)

/-- The body of the loop of `s_reloc`. The outcome that the source leaves open is `none`. -/
def relocateMem (i : Nat) (sect : Section) (s : LinkData dm × ByteMem) (r : Option Nat × Nat) :
    Option (LinkData dm × ByteMem) :=
  match r.1.bind fun slot => (s.1.st[slot]?).map fun sp => (slot, sp) with
  | none => some (s.1.addError, s.2)
  | some (slot, sp) =>
    match symTarget host modules nmod s.1.allocated sp with
    | .unresolved => some (s.1.addError, s.2)
    | .dropped => some s
    | .found tp =>
      (file.perform B i sect r.2 tp s.2).map fun out =>
        let ld := bindTarget host modules nmod s.1 slot sp
        (if out.1 = .ok then ld else ld.addError, out.2)

/-- `s_reloc` -/
def sRelocMem (s : LinkData dm × ByteMem) (i : Nat) : Option (LinkData dm × ByteMem) :=
  match s.1.sections[i]? with
  | none => some s
  | some sect =>
    if sect.alloc then
      if file.obj.vma i = invalidVma dm then some (s.1.addError, s.2)
      else
        match file.bfdGetSectionContents i sect.size s.2 with
        | (false, mem) => some (s.1.addError, mem)
        | (true, mem) =>
          if sect.reloc then
            if sect.relocs = [] then some (s.1.addError, mem)
            else sect.relocs.zipIdx.foldlM (relocateMem host modules nmod B file i sect) (s.1, mem)
          else some (s.1, mem)
    else some s

/-- `bfd_map_over_sections` with `s_reloc` -/
def relocateAllMem (ld : LinkData dm) (mem : ByteMem) : Option (LinkData dm × ByteMem) :=
  (List.range ld.sections.length).foldlM (sRelocMem host modules nmod B file) (ld, mem)

end

/-! ## The oracle -/

namespace ImageFile

variable (B : RelocBackend w) (file : ImageFile w)

/-- The section is read as a whole. -/
def reads (i size : Nat) : Bool := size = 0 || !file.hasContents i || (file.short i).isNone

/-- A memory that has nothing but the contents of the section. -/
def fresh (i : Nat) : ByteMem := fun a => file.content i (a - (file.vma i).toNat)

/-- The relocation succeeds on the section as it is read. -/
def performs (sects : List Section) (i k : Nat) (sp : Asymbol) : Bool :=
  (sects[i]?).any fun sect =>
    (file.perform B i sect k sp (file.fresh i)).any fun out => out.1 = .ok

/-- The object file with the outcome of reading and relocating its sections. -/
def outcome (sects : List Section) : ObjFile :=
  { file.obj with
    readable := fun i => (sects[i]?).all fun sect => file.reads i sect.size
    performs := file.performs B sects }

end ImageFile

/-! ## Symbols of relocations -/

section

variable {host : Host} {modules : List (CexpModuleRec dm)} {nmod : CexpModule}
  {ld ld' : LinkData dm} {slot : Nat} {sp tp : Asymbol}

def SymTarget.found? : SymTarget → Option Asymbol
  | .found sp => some sp
  | _ => none

theorem SymTarget.eq_found {t : SymTarget} (h : t.found? = some tp) : t = .found tp := by
  unfold found? at h
  split at h
  · rw [Option.some.inj h]
  · cases h

/-- What becomes of the symbol of a relocation. There is nothing if its index is bad. -/
def slotTarget (host : Host) (modules : List (CexpModuleRec dm)) (nmod : CexpModule)
    (ld : LinkData dm) (r : Option Nat) : Option SymTarget :=
  (r.bind fun slot => ld.st[slot]?).map (symTarget host modules nmod ld.allocated)

/-- The symbol that a relocation is performed against. -/
def relocTarget (host : Host) (modules : List (CexpModuleRec dm)) (nmod : CexpModule)
    (ld : LinkData dm) (r : Option Nat) : Option Asymbol :=
  (slotTarget host modules nmod ld r).bind SymTarget.found?

variable {allocated : SecRef → Bool}

/-- A symbol that is not looked up is taken as it is. -/
theorem symTarget_cases (h : symTarget host modules nmod allocated sp = .found tp) :
    sp.sect ≠ .und ∧ tp = sp ∨ sp.sect = .und ∧ tp.sect = .abs := by
  unfold symTarget at h
  cases hsect : sp.sect with
  | und =>
    rw [hsect] at h
    dsimp only at h
    refine .inr ⟨rfl, ?_⟩
    split at h
    · cases h
    · split at h
      · split at h
        · cases h
          rfl
        · cases h
      · cases h
        rfl
  | abs =>
    rw [hsect] at h
    cases h
    exact .inl ⟨by simp, rfl⟩
  | com =>
    rw [hsect] at h
    cases h
    exact .inl ⟨by simp, rfl⟩
  | sect j =>
    rw [hsect] at h
    dsimp only at h
    split at h
    · cases h
      exact .inl ⟨by simp, rfl⟩
    · cases h

/-- A symbol that has been found is found again. -/
theorem symTarget_found (h : symTarget host modules nmod allocated sp = .found tp) :
    symTarget host modules nmod allocated tp = .found tp := by
  rcases symTarget_cases h with ⟨-, rfl⟩ | ⟨-, habs⟩
  · exact h
  · unfold symTarget
    rw [habs]

/-- The symbol that has been found is put into the slot. -/
theorem bindTarget_found (hst : ld.st[slot]? = some sp)
    (h : symTarget host modules nmod ld.allocated sp = .found tp) :
    (bindTarget host modules nmod ld slot sp).st = ld.st.set slot tp ∧
      (bindTarget host modules nmod ld slot sp).sections = ld.sections := by
  by_cases hund : sp.sect = .und
  · unfold symTarget at h
    unfold bindTarget
    rw [hund] at h ⊢
    dsimp only at h ⊢
    split at h
    · cases h
    · split at h
      · next hdso =>
        rw [if_pos hdso]
        split at h
        · cases h
          exact ⟨rfl, rfl⟩
        · cases h
      · next hdso =>
        rw [if_neg hdso]
        cases h
        exact ⟨rfl, rfl⟩
  · rcases symTarget_cases h with ⟨-, rfl⟩ | ⟨hund', -⟩
    · have hbind : bindTarget host modules nmod ld slot tp = ld := by
        unfold bindTarget
        split
        · exact absurd ‹_› hund
        · rfl
      obtain ⟨hlt, hget⟩ := List.getElem?_eq_some_iff.mp hst
      have hset : ld.st.set slot tp = ld.st := by
        rw [← hget]
        exact List.set_getElem_self hlt
      rw [hbind, hset]
      exact ⟨rfl, rfl⟩
    · exact absurd hund' hund

/-- Two states of the linker's data that know the same symbols. -/
structure SameTargets (host : Host) (modules : List (CexpModuleRec dm)) (nmod : CexpModule)
    (ld ld' : LinkData dm) : Prop where
  sections : ld'.sections = ld.sections
  target : ∀ r, slotTarget host modules nmod ld' r = slotTarget host modules nmod ld r

theorem SameTargets.refl : SameTargets host modules nmod ld ld := ⟨rfl, fun _ => rfl⟩

theorem SameTargets.trans {ld'' : LinkData dm} (h : SameTargets host modules nmod ld ld')
    (h' : SameTargets host modules nmod ld' ld'') : SameTargets host modules nmod ld ld'' :=
  ⟨h'.sections.trans h.sections, fun r => (h'.target r).trans (h.target r)⟩

theorem SameTargets.relocTarget (h : SameTargets host modules nmod ld ld') (r : Option Nat) :
    relocTarget host modules nmod ld' r = relocTarget host modules nmod ld r := by
  unfold Cexp.relocTarget
  rw [h.target r]

theorem SameTargets.addError (h : SameTargets host modules nmod ld ld') :
    SameTargets host modules nmod ld ld'.addError := ⟨h.sections, h.target⟩

theorem bindTarget_sameTargets (hst : ld.st[slot]? = some sp)
    (h : symTarget host modules nmod ld.allocated sp = .found tp) :
    SameTargets host modules nmod ld (bindTarget host modules nmod ld slot sp) := by
  obtain ⟨hset, hsections⟩ := bindTarget_found hst h
  have halloc : (bindTarget host modules nmod ld slot sp).allocated = ld.allocated := by
    funext s
    unfold LinkData.allocated
    rw [hsections]
  refine ⟨hsections, ?_⟩
  rintro (_ | s)
  · rfl
  · unfold slotTarget
    rw [Option.bind_some, Option.bind_some, hset, halloc]
    by_cases hs : slot = s
    · subst hs
      obtain ⟨hlt, -⟩ := List.getElem?_eq_some_iff.mp hst
      rw [List.getElem?_set_self hlt, hst, Option.map_some, Option.map_some, h,
        symTarget_found h]
    · rw [List.getElem?_set_ne hs]

/-- A relocation against a symbol that is found. -/
theorem relocate_found {obj : ObjFile} {i k : Nat} (hst : ld.st[slot]? = some sp)
    (h : symTarget host modules nmod ld.allocated sp = .found tp) :
    relocate host modules nmod obj i ld (some slot, k) =
      if obj.performs i k tp then bindTarget host modules nmod ld slot sp
      else (bindTarget host modules nmod ld slot sp).addError := by
  have hperform : performRelocation obj i k (bindTarget host modules nmod ld slot sp) slot =
      if obj.performs i k tp then bindTarget host modules nmod ld slot sp
      else (bindTarget host modules nmod ld slot sp).addError := by
    obtain ⟨hlt, -⟩ := List.getElem?_eq_some_iff.mp hst
    unfold performRelocation
    rw [(bindTarget_found hst h).1, List.getElem?_set_self hlt]
  rw [← hperform]
  unfold symTarget at h
  unfold bindTarget
  simp only [relocate, hst]
  cases hsect : sp.sect with
  | und =>
    rw [hsect] at h
    cases hts : cexpSymLookup host sp.name modules with
    | none =>
      rw [hts] at h
      cases h
    | some found =>
      rw [hts] at h
      dsimp only at h ⊢
      by_cases hdso : myDsoHandle host modules = some ⟨found.2.handle, found.1⟩
      · rw [if_pos hdso] at h
        rw [if_pos hdso, if_pos hdso]
        split at h
        · exact if_pos ‹_›
        · cases h
      · rw [if_neg hdso, if_neg hdso]
  | abs => rfl
  | com => rfl
  | sect j =>
    rw [hsect] at h
    dsimp only at h ⊢
    split at h
    · next halloc => exact if_pos halloc
    · cases h

/-- A relocation that is not performed is an error, unless its symbol has been dropped. -/
theorem relocate_none (obj : ObjFile) (i : Nat) {r : Option Nat × Nat}
    (h : relocTarget host modules nmod ld r.1 = none) :
    slotTarget host modules nmod ld r.1 = some .dropped ∧
        relocate host modules nmod obj i ld r = ld ∨
      slotTarget host modules nmod ld r.1 ≠ some .dropped ∧
        relocate host modules nmod obj i ld r = ld.addError := by
  obtain ⟨_ | slot, k⟩ := r
  · exact .inr ⟨by simp [slotTarget], rfl⟩
  · have hslot : slotTarget host modules nmod ld (some slot) =
        (ld.st[slot]?).map (symTarget host modules nmod ld.allocated) := rfl
    unfold relocTarget at h
    unfold relocate
    dsimp only at h ⊢
    rw [hslot] at h ⊢
    cases hst : ld.st[slot]? with
    | none => exact .inr ⟨by simp, rfl⟩
    | some sp =>
      rw [hst, Option.map_some, Option.bind_some] at h
      rw [Option.map_some]
      dsimp only
      unfold symTarget at h ⊢
      cases hsect : sp.sect with
      | und =>
        rw [hsect] at h
        dsimp only at h ⊢
        cases hts : cexpSymLookup host sp.name modules with
        | none => exact .inr ⟨by simp, rfl⟩
        | some found =>
          rw [hts] at h
          dsimp only at h ⊢
          by_cases hdso : myDsoHandle host modules = some ⟨found.2.handle, found.1⟩
          · rw [if_pos hdso] at h ⊢
            rw [if_pos hdso]
            by_cases hcxa : hasCxaFinalize host modules = true
            · rw [if_pos hcxa] at h
              cases h
            · rw [if_neg hcxa, if_neg hcxa]
              exact .inr ⟨by simp, rfl⟩
          · rw [if_neg hdso] at h
            cases h
      | abs =>
        rw [hsect] at h
        cases h
      | com =>
        rw [hsect] at h
        cases h
      | sect j =>
        rw [hsect] at h
        dsimp only at h ⊢
        by_cases halloc : ld.allocated (.sect j) = true
        · rw [if_pos halloc] at h
          cases h
        · rw [if_neg halloc, if_neg halloc]
          exact .inl ⟨rfl, rfl⟩

/-- The slot and the symbol of a relocation that is performed. -/
theorem relocTarget_slot {r : Option Nat} (h : relocTarget host modules nmod ld r = some tp) :
    ∃ slot sp, r = some slot ∧ ld.st[slot]? = some sp ∧
      symTarget host modules nmod ld.allocated sp = .found tp := by
  obtain ⟨t, hslot, hfound⟩ := Option.bind_eq_some_iff.mp h
  obtain ⟨sp, hst, htarget⟩ := Option.map_eq_some_iff.mp hslot
  obtain ⟨slot, rfl, hst⟩ := Option.bind_eq_some_iff.mp hst
  exact ⟨slot, sp, rfl, hst, htarget.trans (SymTarget.eq_found hfound)⟩

theorem relocate_sameTargets (obj : ObjFile) (i : Nat) (r : Option Nat × Nat) :
    SameTargets host modules nmod ld (relocate host modules nmod obj i ld r) := by
  cases htarget : relocTarget host modules nmod ld r.1 with
  | none =>
    rcases relocate_none obj i htarget with ⟨-, hout⟩ | ⟨-, hout⟩
    · rw [hout]
      exact .refl
    · rw [hout]
      exact SameTargets.refl.addError
  | some tp =>
    obtain ⟨_, k⟩ := r
    obtain ⟨slot, sp, rfl, hst, hsym⟩ := relocTarget_slot htarget
    rw [relocate_found hst hsym]
    split
    · exact bindTarget_sameTargets hst hsym
    · exact (bindTarget_sameTargets hst hsym).addError

theorem foldl_relocate_sameTargets (obj : ObjFile) (i : Nat) (rs : List (Option Nat × Nat)) :
    SameTargets host modules nmod ld (rs.foldl (relocate host modules nmod obj i) ld) := by
  induction rs generalizing ld with
  | nil => exact .refl
  | cons r rs ih => exact (relocate_sameTargets obj i r).trans ih

theorem sReloc_sameTargets (obj : ObjFile) (i : Nat) :
    SameTargets host modules nmod ld (sReloc host modules nmod obj ld i) := by
  unfold sReloc
  split
  · exact .refl
  · split
    · split
      · exact SameTargets.refl.addError
      · split
        · split
          · exact SameTargets.refl.addError
          · exact foldl_relocate_sameTargets obj i _
        · exact .refl
    · exact .refl

end

/-! ## Sections -/

section

variable {host : Host} {modules : List (CexpModuleRec dm)} {nmod : CexpModule}
  {B : RelocBackend w} {file : ImageFile w} {ld ld' ld₀ : LinkData dm} {i : Nat} {sect : Section}
  {mem mem' : ByteMem}

namespace ImageFile

/-- The bytes that the relocation number `k` of a section patches. -/
def field (file : ImageFile w) (B : RelocBackend w) (i : Nat) (sect : Section) (k : Nat) :
    Set Nat :=
  fieldAt ((file.entry i k).place (file.relocSection i sect)).toNat (B.size (file.entry i k))

/-- A relocation as a patch of the memory. -/
def patch (file : ImageFile w) (B : RelocBackend w) (i : Nat) (sect : Section) (k : Nat)
    (sp : Asymbol) : Patch Nat (BitVec 8) :=
  B.patch (file.entry i k) (file.relocSym sp) (file.relocSection i sect)

end ImageFile

variable (host modules nmod B file ld i sect) in
/-- The relocations that are performed. -/
def relocPatches (rs : List (Option Nat × Nat)) : List (Patch Nat (BitVec 8)) :=
  rs.filterMap fun r =>
    (relocTarget host modules nmod ld r.1).map (file.patch B i sect r.2)

/-- A relocation that is not performed leaves the memory as it is. -/
theorem relocateMem_none (obj : ObjFile) {r : Option Nat × Nat}
    (h : relocTarget host modules nmod ld r.1 = none) :
    relocateMem host modules nmod B file i sect (ld, mem) r =
      some (relocate host modules nmod obj i ld r, mem) := by
  have hout := relocate_none obj i h
  obtain ⟨_ | slot, k⟩ := r
  · rfl
  · unfold relocTarget slotTarget at h
    unfold slotTarget at hout
    unfold relocateMem
    rw [Option.bind_some] at h hout ⊢
    cases hst : ld.st[slot]? with
    | none =>
      rw [hst] at hout
      rcases hout with ⟨hdropped, -⟩ | ⟨-, hout⟩
      · cases hdropped
      · rw [hout]
        rfl
    | some sp =>
      rw [hst] at h hout
      rw [Option.map_some] at h hout ⊢
      dsimp only
      cases hsym : symTarget host modules nmod ld.allocated sp with
      | unresolved =>
        rw [hsym] at hout
        rcases hout with ⟨hdropped, -⟩ | ⟨-, hout⟩
        · cases hdropped
        · rw [hout]
      | dropped =>
        rw [hsym] at hout
        rcases hout with ⟨-, hout⟩ | ⟨hno, -⟩
        · rw [hout]
        · exact absurd rfl hno
      | found tp =>
        rw [hsym] at h
        cases h

/-- The step of the linker's data and the step of the memory agree. -/
theorem relocateMem_some {r : Option Nat × Nat} {tp : Asymbol}
    (hsect : ld₀.sections[i]? = some sect) (h : relocTarget host modules nmod ld r.1 = some tp)
    (heq : Set.EqOn mem (file.fresh i) (file.field B i sect r.2)) :
    relocateMem host modules nmod B file i sect (ld, mem) r =
      ((file.patch B i sect r.2 tp).run mem).map fun mem' =>
        (relocate host modules nmod (file.outcome B ld₀.sections) i ld r, mem') := by
  obtain ⟨_, k⟩ := r
  obtain ⟨slot, sp, rfl, hst, htarget⟩ := relocTarget_slot h
  rw [relocate_found hst htarget]
  unfold relocateMem
  rw [Option.bind_some, hst, Option.map_some]
  dsimp only
  rw [htarget]
  dsimp only
  show Option.map _ (file.perform B i sect k tp mem) =
    Option.map _ ((file.perform B i sect k tp mem).map Prod.snd)
  rw [Option.map_map]
  cases hrun : file.perform B i sect k tp mem with
  | none => rfl
  | some out =>
    -- the oracle has asked the back end about the section as it is read
    obtain ⟨out', hrun', hok, -⟩ := B.agree heq hrun
    have hperforms : (file.outcome B ld₀.sections).performs i k tp = decide (out.1 = .ok) := by
      show (ld₀.sections[i]?).any _ = _
      rw [hsect]
      show (file.perform B i sect k tp (file.fresh i)).any _ = _
      unfold ImageFile.perform
      rw [hrun']
      exact decide_eq_decide.mpr hok.symm
    rw [hperforms]
    simp only [Option.map_some, Function.comp_apply, decide_eq_true_eq]

/-- The relocations of a section, on a memory that has the contents of the section where they
are not done yet. -/
theorem relocs_run {rs : List (Option Nat × Nat)} (hsect : ld₀.sections[i]? = some sect)
    (hsame : SameTargets host modules nmod ld₀ ld)
    (hap : rs.Pairwise fun r s => Disjoint (file.field B i sect r.2) (file.field B i sect s.2))
    (heq : ∀ r ∈ rs, Set.EqOn mem (file.fresh i) (file.field B i sect r.2)) :
    rs.foldlM (relocateMem host modules nmod B file i sect) (ld, mem) =
      (runAll (relocPatches host modules nmod B file ld₀ i sect rs) mem).map fun mem' =>
        (rs.foldl (relocate host modules nmod (file.outcome B ld₀.sections) i) ld, mem') := by
  induction rs generalizing ld mem with
  | nil => rfl
  | cons r rs ih =>
    obtain ⟨hhead, htail⟩ := List.pairwise_cons.mp hap
    have heqTail : ∀ s ∈ rs, Set.EqOn mem (file.fresh i) (file.field B i sect s.2) := fun s hs =>
      heq s (List.mem_cons_of_mem _ hs)
    have hkept := hsame.trans (relocate_sameTargets (file.outcome B ld₀.sections) i r)
    rw [List.foldlM_cons, List.foldl_cons]
    unfold relocPatches
    cases htarget : relocTarget host modules nmod ld₀ r.1 with
    | none =>
      rw [relocateMem_none (file.outcome B ld₀.sections) ((hsame.relocTarget r.1).trans htarget),
        List.filterMap_cons_none (by rw [htarget]; rfl)]
      exact ih hkept htail heqTail
    | some tp =>
      rw [relocateMem_some hsect ((hsame.relocTarget r.1).trans htarget)
        (heq r List.mem_cons_self), List.filterMap_cons_some (by rw [htarget]; rfl), runAll_cons]
      cases hrun : (file.patch B i sect r.2 tp).run mem with
      | none => rfl
      | some m =>
        have heqNext : ∀ s ∈ rs, Set.EqOn m (file.fresh i) (file.field B i sect s.2) := by
          intro s hs
          have hmem : Set.EqOn m mem (file.field B i sect s.2) :=
            Patch.eqOn_of_disjoint (hhead s hs) hrun
          exact hmem.trans (heqTail s hs)
        exact ih hkept htail heqNext

namespace ImageFile

/-- The memory of a section. -/
def extent (file : ImageFile w) (sects : List Section) (i : Nat) : Set Nat :=
  {a | ∃ sect, sects[i]? = some sect ∧ sect.alloc = true ∧
    a ∈ fieldAt (file.vma i).toNat sect.size}

/-- The fields of the relocations are inside of their sections. -/
def FieldsInside (file : ImageFile w) (B : RelocBackend w) (sects : List Section) : Prop :=
  ∀ {i : Nat} {sect : Section} {k : Nat}, sects[i]? = some sect → sect.alloc = true →
    k < sect.relocs.length → B.size (file.entry i k) ≠ 0 →
    (file.entry i k).Inside (file.relocSection i sect) (B.size (file.entry i k))

/-- No two relocations of a section have a byte in common. -/
def FieldsApart (file : ImageFile w) (B : RelocBackend w) (sects : List Section) : Prop :=
  ∀ {i : Nat} {sect : Section} {k l : Nat}, sects[i]? = some sect → sect.alloc = true →
    k < l → l < sect.relocs.length → Disjoint (file.field B i sect k) (file.field B i sect l)

/-- The sections are in memory, and their relocations have fields of their own inside of them. -/
structure Placed (file : ImageFile w) (B : RelocBackend w) (sects : List Section) : Prop where
  fits : ∀ {i : Nat} {sect : Section}, sects[i]? = some sect → sect.alloc = true →
    (file.vma i).toNat + sect.size < 2 ^ w
  inside : file.FieldsInside B sects
  fields : file.FieldsApart B sects

/-- The part of a section that is read. -/
def loaded (file : ImageFile w) (i size : Nat) : Nat :=
  if file.hasContents i then (file.short i).elim size fun n => min n size else size

theorem loaded_le (i size : Nat) : file.loaded i size ≤ size := by
  unfold loaded
  split
  · cases file.short i with
    | none => exact le_rfl
    | some n => exact Nat.min_le_right n size
  · exact le_rfl

theorem fill_zero (i : Nat) : file.fill i 0 mem = mem := by
  funext a
  exact if_neg (by omega)

theorem bfdGetSectionContents_eq (i size : Nat) (mem : ByteMem) :
    file.bfdGetSectionContents i size mem =
      (file.reads i size, file.fill i (file.loaded i size) mem) := by
  unfold bfdGetSectionContents reads
  by_cases hsize : size = 0
  · have hloaded : file.loaded i size = 0 := by
      have hle : file.loaded i size ≤ size := loaded_le i size
      omega
    rw [if_pos hsize, hloaded, fill_zero, decide_eq_true hsize]
    rfl
  · rw [if_neg hsize, decide_eq_false hsize]
    unfold loaded
    cases file.hasContents i with
    | false => rfl
    | true =>
      cases file.short i with
      | none => rfl
      | some n => rfl

theorem loaded_eq {size : Nat} (h : file.reads i size = true) : file.loaded i size = size := by
  have hle : file.loaded i size ≤ size := loaded_le i size
  unfold reads at h
  rw [Bool.or_eq_true, Bool.or_eq_true] at h
  rcases h with (hsize | hcontents) | hshort
  · have hzero : size = 0 := of_decide_eq_true hsize
    omega
  · unfold loaded
    rw [if_neg (by simpa using hcontents)]
  · unfold loaded
    rw [Option.isNone_iff_eq_none.mp hshort]
    split <;> rfl

/-- The memory of a section that is read is the section, whatever was there. -/
theorem fill_eqOn (i size : Nat) (mem : ByteMem) :
    Set.EqOn (file.fill i size mem) (file.fresh i) (fieldAt (file.vma i).toNat size) := by
  intro a ha
  exact if_pos ha

/-- Reading a section as a patch of the memory. -/
def fillPatch (file : ImageFile w) (i size : Nat) : Patch Nat (BitVec 8) where
  foot := fieldAt (file.vma i).toNat size
  run mem := some (file.fill i size mem)
  frame := by
    intro m m' h a ha
    cases h
    exact if_neg ha
  inner := by
    intro m₁ m₂ m₁' _ h
    cases h
    refine ⟨_, rfl, ?_⟩
    intro a ha
    exact (if_pos ha).trans (if_pos ha).symm

end ImageFile

variable (host modules nmod B file ld) in
/-- What `s_reloc` does with the memory. -/
def sectionParts (i : Nat) : List (Patch Nat (BitVec 8)) :=
  match ld.sections[i]? with
  | none => []
  | some sect =>
    if sect.alloc ∧ file.obj.vma i ≠ invalidVma dm then
      file.fillPatch i (file.loaded i sect.size) ::
        if file.reads i sect.size ∧ sect.reloc then
          relocPatches host modules nmod B file ld i sect sect.relocs.zipIdx
        else []
    else []

theorem mem_relocPatches {rs : List (Option Nat × Nat)} {p : Patch Nat (BitVec 8)}
    (h : p ∈ relocPatches host modules nmod B file ld i sect rs) :
    ∃ r ∈ rs, ∃ tp, relocTarget host modules nmod ld r.1 = some tp ∧
      p = file.patch B i sect r.2 tp := by
  obtain ⟨r, hr, hp⟩ := List.mem_filterMap.mp h
  obtain ⟨tp, htarget, rfl⟩ := Option.map_eq_some_iff.mp hp
  exact ⟨r, hr, tp, htarget, rfl⟩

/-- The fields of a section are in its memory. -/
theorem ImageFile.Placed.field_subset {sects : List Section} (h : file.Placed B sects)
    (hsect : sects[i]? = some sect) (halloc : sect.alloc = true) {k : Nat}
    (hk : k < sect.relocs.length) :
    file.field B i sect k ⊆ fieldAt (file.vma i).toNat sect.size := by
  rintro a ⟨hle, hlt⟩
  have hsize : B.size (file.entry i k) ≠ 0 := by omega
  have hfits := h.fits hsect halloc
  have hsmall : (file.relocSection i sect).size.toNat = sect.size := by
    show (BitVec.ofNat w sect.size).toNat = _
    rw [BitVec.toNat_ofNat]
    exact Nat.mod_eq_of_lt (by omega)
  have hinside := h.inside hsect halloc hk hsize
  have hplace := hinside.place_toNat hsize (by
    rw [hsmall]
    exact hfits.le)
  unfold Rela.Inside at hinside
  rw [hsmall] at hinside
  rw [hplace] at hle hlt
  have hvma : (file.relocSection i sect).vma = file.vma i := rfl
  rw [hvma] at hle hlt
  exact ⟨by omega, by omega⟩

theorem zipIdx_lt {α : Type} {l : List α} {r : α × Nat} (h : r ∈ l.zipIdx) : r.2 < l.length :=
  (List.mem_zipIdx' h).1

/-- The fields of a section, in the order of its relocations. -/
theorem ImageFile.Placed.pairwise_fields {sects : List Section} (h : file.Placed B sects)
    (hsect : sects[i]? = some sect) (halloc : sect.alloc = true) :
    sect.relocs.zipIdx.Pairwise fun r s =>
      Disjoint (file.field B i sect r.2) (file.field B i sect s.2) := by
  rw [List.pairwise_iff_getElem]
  intro k l hk hl hlt
  rw [List.length_zipIdx] at hk hl
  rw [List.getElem_zipIdx, List.getElem_zipIdx, Nat.zero_add, Nat.zero_add]
  exact h.fields hsect halloc hlt hl

theorem sectionParts_subset (h : file.Placed B ld.sections) (i : Nat) :
    ∀ p ∈ sectionParts host modules nmod B file ld i, p.foot ⊆ file.extent ld.sections i := by
  intro p hp
  unfold sectionParts at hp
  cases hsect : ld.sections[i]? with
  | none =>
    rw [hsect] at hp
    cases hp
  | some sect =>
    rw [hsect] at hp
    dsimp only at hp
    split at hp
    · next hload =>
      have hsub : p.foot ⊆ fieldAt (file.vma i).toNat sect.size := by
        rcases List.mem_cons.mp hp with rfl | hp
        · intro a ha
          obtain ⟨hle, hlt⟩ : (file.vma i).toNat ≤ a ∧
            a < (file.vma i).toNat + file.loaded i sect.size := ha
          have hloaded : file.loaded i sect.size ≤ sect.size := ImageFile.loaded_le i sect.size
          exact ⟨hle, by omega⟩
        · split at hp
          · obtain ⟨r, hr, tp, -, rfl⟩ := mem_relocPatches hp
            exact h.field_subset hsect hload.1 (zipIdx_lt hr)
          · cases hp
      exact fun a ha => ⟨sect, hsect, hload.1, hsub ha⟩
    · cases hp

/-- The step of the linker's data and the step of the memory agree, section by section. -/
theorem sRelocMem_eq (h : file.Placed B ld₀.sections)
    (hsame : SameTargets host modules nmod ld₀ ld) (i : Nat) (mem : ByteMem) :
    sRelocMem host modules nmod B file (ld, mem) i =
      (runAll (sectionParts host modules nmod B file ld₀ i) mem).map fun mem' =>
        (sReloc host modules nmod (file.outcome B ld₀.sections) ld i, mem') := by
  unfold sRelocMem sReloc sectionParts
  rw [hsame.sections]
  cases hsect : ld₀.sections[i]? with
  | none => rfl
  | some sect =>
    dsimp only
    have hreadable : (file.outcome B ld₀.sections).readable i = file.reads i sect.size := by
      show (ld₀.sections[i]?).all _ = _
      rw [hsect]
      rfl
    by_cases halloc : sect.alloc = true
    · by_cases hvma : file.obj.vma i = invalidVma dm
      · rw [if_pos halloc, if_pos hvma, if_pos halloc, if_pos (.inl hvma),
          if_neg (fun hload => hload.2 hvma)]
        rfl
      · have hvma' : ¬(file.outcome B ld₀.sections).vma i = invalidVma dm := hvma
        rw [if_pos halloc, if_neg hvma, if_pos halloc, hreadable,
          file.bfdGetSectionContents_eq]
        have hload : sect.alloc = true ∧ file.obj.vma i ≠ invalidVma dm := ⟨halloc, hvma⟩
        simp only [if_pos hload]
        rw [runAll_cons]
        cases hreads : file.reads i sect.size with
        | false =>
          rw [if_pos (.inr (by simp)), if_neg (by simp)]
          rfl
        | true =>
          rw [if_neg (by simp [hvma'])]
          dsimp only
          by_cases hreloc : sect.reloc = true
          · have hdo : true = true ∧ sect.reloc = true := ⟨rfl, hreloc⟩
            rw [if_pos hdo]
            simp only [if_pos hreloc]
            by_cases hrelocs : sect.relocs = []
            · simp only [if_pos hrelocs]
              rw [hrelocs]
              rfl
            · simp only [if_neg hrelocs]
              apply relocs_run hsect hsame (h.pairwise_fields hsect halloc)
              intro r hr
              have hsub := h.field_subset hsect halloc (zipIdx_lt hr)
              rw [ImageFile.loaded_eq hreads]
              exact (ImageFile.fill_eqOn i sect.size mem).mono hsub
          · have hdo : ¬(true = true ∧ sect.reloc = true) := fun hdo => hreloc hdo.2
            rw [if_neg hdo]
            simp only [if_neg hreloc]
            rfl
    · rw [if_neg halloc, if_neg halloc, if_neg (fun hload => halloc hload.1)]
      rfl

variable (host modules nmod ld) in
/-- What `s_reloc` does with a section as one patch of the memory of the section. -/
def sectionPatch (h : file.Placed B ld.sections) (i : Nat) : Patch Nat (BitVec 8) :=
  Patch.within (file.extent ld.sections i) (sectionParts host modules nmod B file ld i)
    (sectionParts_subset h i)

theorem foldlM_sRelocMem (h : file.Placed B ld₀.sections)
    (hsame : SameTargets host modules nmod ld₀ ld) (is : List Nat) (mem : ByteMem) :
    is.foldlM (sRelocMem host modules nmod B file) (ld, mem) =
      (runAll (is.map (sectionPatch host modules nmod ld₀ h)) mem).map fun mem' =>
        (is.foldl (sReloc host modules nmod (file.outcome B ld₀.sections)) ld, mem') := by
  induction is generalizing ld mem with
  | nil => rfl
  | cons i is ih =>
    rw [List.foldlM_cons, List.foldl_cons, List.map_cons, runAll_cons, sRelocMem_eq h hsame i mem]
    show _ = Option.map _ ((runAll (sectionParts host modules nmod B file ld₀ i) mem).bind _)
    cases runAll (sectionParts host modules nmod B file ld₀ i) mem with
    | none => rfl
    | some m => exact ih (hsame.trans (sReloc_sameTargets _ i)) m

/-- The pass over the memory is the pass over the linker's data, with the outcomes that the back
end has on the sections as they are read. -/
theorem relocateAllMem_eq (h : file.Placed B ld.sections) (mem : ByteMem) :
    relocateAllMem host modules nmod B file ld mem =
      (runAll ((List.range ld.sections.length).map (sectionPatch host modules nmod ld h)) mem).map
        fun mem' =>
          ((List.range ld.sections.length).foldl
            (sReloc host modules nmod (file.outcome B ld.sections)) ld, mem') :=
  foldlM_sRelocMem h .refl _ mem

end

end Cexp
