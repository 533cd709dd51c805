import Cexp.Linker.Image
import Cexp.Linker.Sections
import Cexp.Linker.Weak

/-!
# Loaded modules

The memory that a successful load leaves (`linked_image`): each section has its contents, each
field of a relocation is what the relocation makes of the section as it is read, and there is
nothing else. Neither the order of the relocations nor the memory before the load is part of
that. For the back ends whose rules are known, every field stands for its symbol in the memory
that is left (`x86_performed`, `ppc_performed`).
-/

namespace Cexp

open CLib

variable {dm : DataModel} {w : Nat} {host : Host} {modules : List (CexpModuleRec dm)}
  {nmod : CexpModule} {B : RelocBackend w} {file : ImageFile w} {ld ld' : LinkData dm}
  {i : Nat} {sect : Section} {mem mem' : ByteMem}

/-! ## Loads without errors -/

/-- A relocation that is no error has been performed, or its symbol has been dropped. -/
structure RelocDone (host : Host) (modules : List (CexpModuleRec dm)) (nmod : CexpModule)
    (obj : ObjFile) (ld : LinkData dm) (i : Nat) (r : Option Nat × Nat) : Prop where
  target : relocTarget host modules nmod ld r.1 = none →
    slotTarget host modules nmod ld r.1 = some .dropped
  performed : ∀ {tp : Asymbol}, relocTarget host modules nmod ld r.1 = some tp →
    obj.performs i r.2 tp = true

theorem relocate_done {obj : ObjFile} {r : Option Nat × Nat}
    (h : (relocate host modules nmod obj i ld r).errors = 0) :
    RelocDone host modules nmod obj ld i r := by
  refine ⟨?_, ?_⟩
  · intro htarget
    rcases relocate_none obj i htarget with ⟨hdropped, -⟩ | ⟨-, hout⟩
    · exact hdropped
    · rw [hout] at h
      cases h
  · intro tp htarget
    obtain ⟨_, k⟩ := r
    obtain ⟨slot, sp, rfl, hst, hsym⟩ := relocTarget_slot htarget
    rw [relocate_found hst hsym] at h
    split at h
    · assumption
    · cases h

theorem SameTargets.relocDone {obj : ObjFile} {r : Option Nat × Nat}
    (hsame : SameTargets host modules nmod ld ld') (h : RelocDone host modules nmod obj ld' i r) :
    RelocDone host modules nmod obj ld i r where
  target htarget := by
    rw [← hsame.target]
    exact h.target ((hsame.relocTarget r.1).trans htarget)
  performed htarget := h.performed ((hsame.relocTarget r.1).trans htarget)

/-- What a section must be for `s_reloc` to make no error. -/
structure SectionDone (host : Host) (modules : List (CexpModuleRec dm)) (nmod : CexpModule)
    (obj : ObjFile) (ld : LinkData dm) (i : Nat) (sect : Section) : Prop where
  placed : obj.vma i ≠ invalidVma dm
  readable : obj.readable i = true
  counted : sect.reloc = true → sect.relocs ≠ []
  relocs : sect.reloc = true → ∀ r ∈ sect.relocs.zipIdx, RelocDone host modules nmod obj ld i r

theorem sReloc_done {obj : ObjFile} (hsect : ld.sections[i]? = some sect)
    (halloc : sect.alloc = true) (h : (sReloc host modules nmod obj ld i).errors = 0) :
    SectionDone host modules nmod obj ld i sect := by
  unfold sReloc at h
  rw [hsect] at h
  dsimp only at h
  rw [if_pos halloc] at h
  split at h
  · cases h
  · next hread =>
    rw [not_or, not_not] at hread
    have hcounted : sect.reloc = true → sect.relocs ≠ [] := by
      intro hreloc hnil
      rw [if_pos hreloc, if_pos hnil] at h
      cases h
    refine ⟨hread.1, hread.2, hcounted, ?_⟩
    intro hreloc r hr
    rw [if_pos hreloc] at h
    split at h
    · cases h
    · obtain ⟨before, after, hsplit⟩ := List.append_of_mem hr
      rw [hsplit, List.foldl_append, List.foldl_cons] at h
      have hgrows := grows_foldl modules
        (fun ld r => grows_relocate host modules ld nmod obj i r) after
        (relocate host modules nmod obj i (before.foldl (relocate host modules nmod obj i) ld) r)
      have hle := hgrows.errors
      have hzero : (relocate host modules nmod obj i
          (before.foldl (relocate host modules nmod obj i) ld) r).errors = 0 := by omega
      exact (foldl_relocate_sameTargets obj i before).relocDone (relocate_done hzero)

theorem SameTargets.sectionDone {obj : ObjFile} (hsame : SameTargets host modules nmod ld ld')
    (h : SectionDone host modules nmod obj ld' i sect) :
    SectionDone host modules nmod obj ld i sect where
  placed := h.placed
  readable := h.readable
  counted := h.counted
  relocs hreloc r hr := hsame.relocDone (h.relocs hreloc r hr)

theorem SectionDone.reads
    (h : SectionDone host modules nmod (file.outcome B ld.sections) ld i sect)
    (hsect : ld.sections[i]? = some sect) : file.reads i sect.size = true := by
  have hreadable := h.readable
  unfold ImageFile.outcome at hreadable
  dsimp only at hreadable
  rwa [hsect, Option.all_some] at hreadable

/-- In a load without errors, every section that is allocated is done. -/
theorem relocateAll_done {obj : ObjFile} {is : List Nat} (hi : i ∈ is)
    (hsect : ld.sections[i]? = some sect) (halloc : sect.alloc = true)
    (h : (is.foldl (sReloc host modules nmod obj) ld).errors = 0) :
    SectionDone host modules nmod obj ld i sect := by
  induction is generalizing ld with
  | nil => cases hi
  | cons j is ih =>
    rw [List.foldl_cons] at h
    have hsame : SameTargets host modules nmod ld (sReloc host modules nmod obj ld j) :=
      sReloc_sameTargets obj j
    rcases List.mem_cons.mp hi with rfl | hi
    · have hgrows := grows_foldl modules
        (fun ld i => grows_sReloc host modules ld nmod obj i) is (sReloc host modules nmod obj ld i)
      have hle := hgrows.errors
      exact sReloc_done hsect halloc (by omega)
    · exact hsame.sectionDone (ih hi (by rw [hsame.sections, hsect]) h)

/-! ## The image -/

/-- What a load makes of the memory. -/
structure ModuleImage (host : Host) (modules : List (CexpModuleRec dm)) (nmod : CexpModule)
    (B : RelocBackend w) (file : ImageFile w) (ld : LinkData dm) (mem mem' : ByteMem) : Prop where
  outside : ∀ {a : Nat}, (∀ i, a ∉ file.extent ld.sections i) → mem' a = mem a
  /-- All contents have been read, and the relocations of each section that has some. -/
  read : ∀ {i : Nat} {sect : Section}, ld.sections[i]? = some sect → sect.alloc = true →
    file.reads i sect.size = true ∧ (sect.reloc = true → sect.relocs ≠ [])
  /-- No symbol is left without a value. -/
  resolved : ∀ {i : Nat} {sect : Section} {r : Option Nat}, ld.sections[i]? = some sect →
    sect.alloc = true → sect.reloc = true → r ∈ sect.relocs →
    slotTarget host modules nmod ld r = some .dropped ∨
      ∃ tp, relocTarget host modules nmod ld r = some tp
  contents : ∀ {i : Nat} {sect : Section} {a : Nat}, ld.sections[i]? = some sect →
    sect.alloc = true → a ∈ fieldAt (file.vma i).toNat sect.size →
    (∀ k r tp, sect.reloc = true → sect.relocs[k]? = some r →
      relocTarget host modules nmod ld r = some tp → a ∉ file.field B i sect k) →
    mem' a = file.fresh i a
  relocated : ∀ {i : Nat} {sect : Section} {k : Nat} {r : Option Nat} {tp : Asymbol},
    ld.sections[i]? = some sect → sect.alloc = true → sect.reloc = true →
    sect.relocs[k]? = some r → relocTarget host modules nmod ld r = some tp →
    ∃ m, file.perform B i sect k tp (file.fresh i) = some (.ok, m) ∧
      Set.EqOn mem' m (file.field B i sect k)

/-- The sections do not meet. -/
def ImageFile.Spread (file : ImageFile w) (sects : List Section) : Prop :=
  ∀ i j, i ≠ j → Disjoint (file.extent sects i) (file.extent sects j)

theorem separate_sections (h : file.Placed B ld.sections) (hspread : file.Spread ld.sections)
    {is : List Nat} (hnodup : is.Nodup) :
    Separate (is.map (sectionPatch host modules nmod ld h)) := by
  unfold Separate
  rw [List.pairwise_map]
  exact hnodup.imp fun hne => hspread _ _ hne

theorem separate_relocs (h : file.Placed B ld.sections) (hsect : ld.sections[i]? = some sect)
    (halloc : sect.alloc = true) :
    Separate (relocPatches host modules nmod B file ld i sect sect.relocs.zipIdx) := by
  unfold Separate relocPatches
  rw [List.pairwise_filterMap]
  apply (h.pairwise_fields hsect halloc).imp
  intro r s hdisjoint p hp q hq
  obtain ⟨tp, -, rfl⟩ := Option.map_eq_some_iff.mp hp
  obtain ⟨tq, -, rfl⟩ := Option.map_eq_some_iff.mp hq
  exact hdisjoint

/-- The memory of one section, when its parts have run. -/
theorem sectionParts_settled (h : file.Placed B ld.sections) (hsect : ld.sections[i]? = some sect)
    (halloc : sect.alloc = true)
    (hdone : SectionDone host modules nmod (file.outcome B ld.sections) ld i sect)
    (hrun : runAll (sectionParts host modules nmod B file ld i) mem = some mem') :
    AllRun (if sect.reloc then relocPatches host modules nmod B file ld i sect sect.relocs.zipIdx
      else []) (file.fill i sect.size mem) mem' := by
  have hreads : file.reads i sect.size = true := hdone.reads hsect
  have hload : sect.alloc = true ∧ file.obj.vma i ≠ invalidVma dm := ⟨halloc, hdone.placed⟩
  unfold sectionParts at hrun
  rw [hsect] at hrun
  dsimp only at hrun
  rw [if_pos hload, runAll_cons, ImageFile.loaded_eq hreads] at hrun
  by_cases hreloc : sect.reloc = true
  · rw [if_pos ⟨hreads, hreloc⟩] at hrun
    rw [if_pos hreloc]
    exact (runAll_eq_some_iff (separate_relocs h hsect halloc)).mp hrun
  · rw [if_neg fun hdo => hreloc hdo.2] at hrun
    rw [if_neg hreloc]
    exact (runAll_eq_some_iff .nil).mp hrun

/-- The memory that a successful load leaves. -/
theorem linked_image (hplaced : file.Placed B ld.sections) (hspread : file.Spread ld.sections)
    (hrun : relocateAllMem host modules nmod B file ld mem = some (ld', mem'))
    (hok : ld'.errors = 0) : ModuleImage host modules nmod B file ld mem mem' := by
  rw [relocateAllMem_eq hplaced] at hrun
  obtain ⟨m, hall, hout⟩ := Option.map_eq_some_iff.mp hrun
  obtain ⟨rfl, rfl⟩ := Prod.mk.inj hout
  have hdone : ∀ {i sect}, ld.sections[i]? = some sect → sect.alloc = true →
      SectionDone host modules nmod (file.outcome B ld.sections) ld i sect := by
    intro i sect hsect halloc
    have hi : i ∈ List.range ld.sections.length :=
      List.mem_range.mpr (List.getElem?_eq_some_iff.mp hsect).1
    exact relocateAll_done hi hsect halloc hok
  have hsettled := (runAll_eq_some_iff
    (separate_sections hplaced hspread List.nodup_range)).mp hall
  -- on the memory of a section, what is left is what its own parts make of it
  have hsection : ∀ {i sect}, ld.sections[i]? = some sect → sect.alloc = true → ∃ m₁,
      AllRun (if sect.reloc then relocPatches host modules nmod B file ld i sect sect.relocs.zipIdx
        else []) (file.fill i sect.size mem) m₁ ∧
        Set.EqOn m m₁ (fieldAt (file.vma i).toNat sect.size) := by
    intro i sect hsect halloc
    have hi : i ∈ List.range ld.sections.length :=
      List.mem_range.mpr (List.getElem?_eq_some_iff.mp hsect).1
    obtain ⟨m₁, hparts, heq⟩ := hsettled.done _ (List.mem_map_of_mem hi)
    refine ⟨m₁, sectionParts_settled hplaced hsect halloc (hdone hsect halloc) hparts, ?_⟩
    intro a ha
    exact heq ⟨sect, hsect, halloc, ha⟩
  refine ⟨?_, ?_, ?_, ?_, ?_⟩
  · intro a ha
    apply hsettled.rest
    intro p hp
    obtain ⟨i, -, rfl⟩ := List.mem_map.mp hp
    exact ha i
  · intro i sect hsect halloc
    have hthis := hdone hsect halloc
    exact ⟨hthis.reads hsect, hthis.counted⟩
  · intro i sect r hsect halloc hreloc hr
    obtain ⟨k, hk⟩ := List.mem_iff_getElem?.mp hr
    have hmem : (r, k) ∈ sect.relocs.zipIdx := by
      rw [List.mem_zipIdx_iff_getElem?]
      exact hk
    have hreloc := (hdone hsect halloc).relocs hreloc _ hmem
    cases htarget : relocTarget host modules nmod ld r with
    | none => exact .inl (hreloc.target htarget)
    | some tp => exact .inr ⟨tp, rfl⟩
  · intro i sect a hsect halloc ha hfree
    obtain ⟨m₁, hparts, heq⟩ := hsection hsect halloc
    rw [heq ha, hparts.rest a, ImageFile.fill_eqOn i sect.size mem ha]
    intro p hp
    split at hp
    · next hreloc =>
      obtain ⟨r, hr, tp, htarget, rfl⟩ := mem_relocPatches hp
      rw [List.mem_zipIdx_iff_getElem?] at hr
      exact hfree r.2 r.1 tp hreloc hr htarget
    · cases hp
  · intro i sect k r tp hsect halloc hreloc hk htarget
    obtain ⟨m₁, hparts, heq⟩ := hsection hsect halloc
    have hmem : (r, k) ∈ sect.relocs.zipIdx := by
      rw [List.mem_zipIdx_iff_getElem?]
      exact hk
    rw [if_pos hreloc] at hparts
    obtain ⟨m₂, hrun, hfield⟩ := hparts.done (file.patch B i sect k tp)
      (List.mem_filterMap.mpr ⟨(r, k), hmem, by rw [htarget]; rfl⟩)
    have hsub := hplaced.field_subset hsect halloc (zipIdx_lt hmem)
    obtain ⟨out, hperform, rfl⟩ := Option.map_eq_some_iff.mp hrun
    have hfresh : Set.EqOn (file.fill i sect.size mem) (file.fresh i)
        (fieldAt (file.vma i).toNat sect.size) := ImageFile.fill_eqOn i sect.size mem
    have hread := hfresh.mono hsub
    obtain ⟨out', hfresh, -, hsame⟩ := B.agree hread hperform
    have hperforms : (file.outcome B ld.sections).performs i k tp = true :=
      ((hdone hsect halloc).relocs hreloc _ hmem).performed htarget
    have hok' : out'.1 = .ok := by
      unfold ImageFile.outcome ImageFile.performs at hperforms
      dsimp only at hperforms
      rw [hsect, Option.any_some] at hperforms
      unfold ImageFile.perform at hperforms
      rw [hfresh, Option.any_some] at hperforms
      exact of_decide_eq_true hperforms
    refine ⟨out'.2, ?_, ?_⟩
    · rw [← hok']
      exact hfresh
    · exact ((heq.mono hsub).trans hfield).trans hsame

/-- The sections can be visited in any order. -/
theorem sections_any_order (hplaced : file.Placed B ld.sections)
    (hspread : file.Spread ld.sections) {is : List Nat}
    (hperm : is.Perm (List.range ld.sections.length)) :
    (is.foldlM (sRelocMem host modules nmod B file) (ld, mem)).map Prod.snd =
      (relocateAllMem host modules nmod B file ld mem).map Prod.snd := by
  have hap : Separate (is.map (sectionPatch host modules nmod ld hplaced)) :=
    separate_sections hplaced hspread (hperm.nodup_iff.mpr List.nodup_range)
  rw [relocateAllMem_eq hplaced, foldlM_sRelocMem hplaced .refl, Option.map_map, Option.map_map]
  exact congrArg (Option.map id) (runAll_perm (hperm.map _) hap mem)

/-- What the load of the linker's data comes to, when the oracle is the back end. -/
theorem relocateAll_mem (hmodules : modules ≠ []) (hplaced : file.Placed B ld.sections)
    (hrun : relocateAllMem host modules nmod B file ld mem = some (ld', mem')) :
    relocateAll host modules nmod (file.outcome B ld.sections) ld =
      if file.obj.placed then if ld'.errors ≠ 0 then .error .error else .ok ld'
      else .error .error := by
  rw [relocateAllMem_eq hplaced] at hrun
  obtain ⟨m, -, hout⟩ := Option.map_eq_some_iff.mp hrun
  obtain ⟨rfl, -⟩ := Prod.mk.inj hout
  unfold relocateAll
  rw [if_neg hmodules]
  rfl

/-! ## The rules of the types -/

theorem X86Holds.congr {big : Bool} {type : Nat} {target P : BitVec 64} {m₁ m₂ : ByteMem}
    (heq : Set.EqOn m₁ m₂ (fieldAt P.toNat (x86Size type)))
    (h : X86Holds big type target P m₁) : X86Holds big type target P m₂ where
  pc32 htype := by
    subst htype
    have hword : m₁.load big 32 P.toNat = m₂.load big 32 P.toNat := load_eqOn heq rfl
    rw [← hword]
    exact h.pc32 rfl
  abs32 htype := by
    subst htype
    have hword : m₁.load big 32 P.toNat = m₂.load big 32 P.toNat := load_eqOn heq rfl
    rw [← hword]
    exact h.abs32 rfl
  abs32S htype := by
    subst htype
    have hword : m₁.load big 32 P.toNat = m₂.load big 32 P.toNat := load_eqOn heq rfl
    rw [← hword]
    exact h.abs32S rfl
  abs64 htype := by
    subst htype
    have hword : m₁.load big 64 P.toNat = m₂.load big 64 P.toNat := load_eqOn heq rfl
    rw [← hword]
    exact h.abs64 rfl
  pc64 htype := by
    subst htype
    have hword : m₁.load big 64 P.toNat = m₂.load big 64 P.toNat := load_eqOn heq rfl
    rw [← hword]
    exact h.pc64 rfl

/-- The new memory matters in its field only. -/
theorem PpcHolds.congr {big : Bool} {type : Nat} {target P : BitVec 32} {old m₁ m₂ : ByteMem}
    (heq : Set.EqOn m₁ m₂ (fieldAt P.toNat (ppcSize type)))
    (h : PpcHolds big type target P old m₁) : PpcHolds big type target P old m₂ where
  addr32 htype := by
    subst htype
    have hword : m₁.load big 32 P.toNat = m₂.load big 32 P.toNat := load_eqOn heq rfl
    rw [← hword]
    exact h.addr32 rfl
  rel32 htype := by
    subst htype
    have hword : m₁.load big 32 P.toNat = m₂.load big 32 P.toNat := load_eqOn heq rfl
    rw [← hword]
    exact h.rel32 rfl
  addr24 htype := by
    subst htype
    have hword : m₁.load big 32 P.toNat = m₂.load big 32 P.toNat := load_eqOn heq rfl
    rw [← hword]
    exact h.addr24 rfl
  rel24 htype := by
    subst htype
    have hword : m₁.load big 32 P.toNat = m₂.load big 32 P.toNat := load_eqOn heq rfl
    rw [← hword]
    exact h.rel24 rfl

/-- The sections of the file have the addresses that the two passes have given them. -/
def ImageFile.LaidOut (file : ImageFile w) (counted laid : List (Asection w))
    (sects : List Section) : Prop :=
  ∀ i sect, sects[i]? = some sect → sect.alloc = true → sect.size ≠ 0 →
    ∃ s, counted[i]? = some s ∧ s.alloc = true ∧ s.size.toNat = sect.size ∧
      ∀ t, laid[i]? = some t → t.vma = file.vma i

section

variable {segOf : Asection w → Nat} {size memory : Nat → BitVec w} {eh : Option Nat}
  {counted laid : List (Asection w)} {sects : List Section}

theorem laid_at_vma (hlaid : SectionsLaid segOf size memory eh counted laid)
    (hfile : file.LaidOut counted laid sects) (hsect : sects[i]? = some sect)
    (halloc : sect.alloc = true) (hsize : sect.size ≠ 0) :
    ∃ s, laid[i]? = some { s with vma := file.vma i } ∧ s.alloc = true ∧ s.size ≠ 0 ∧
      s.size.toNat = sect.size ∧ (memory (segOf s)).toNat ≤ (file.vma i).toNat ∧
      (file.vma i).toNat + sect.size ≤ (memory (segOf s)).toNat + (size (segOf s)).toNat := by
  obtain ⟨s, hs, hsalloc, hssize, hvma⟩ := hfile i sect hsect halloc hsize
  have hne : s.size ≠ 0 := by
    intro hzero
    rw [hzero, BitVec.ofNat_eq_ofNat, BitVec.toNat_ofNat, Nat.zero_mod] at hssize
    exact hsize hssize.symm
  obtain ⟨a, hat, -, hstart, hend⟩ := hlaid.placed i s hs hsalloc hne
  have ha : a = file.vma i := hvma _ hat
  subst ha
  refine ⟨s, hat, hsalloc, hne, hssize, hstart, ?_⟩
  unfold Asection.extent at hend
  omega

/-- A section that has been placed ends before the last address. -/
theorem laid_fits (hmem : SegmentMemory size memory)
    (hlaid : SectionsLaid segOf size memory eh counted laid)
    (hfile : file.LaidOut counted laid sects) (hsect : sects[i]? = some sect)
    (halloc : sect.alloc = true) : (file.vma i).toNat + sect.size < 2 ^ w := by
  by_cases hsize : sect.size = 0
  · rw [hsize]
    exact (file.vma i).isLt
  · obtain ⟨s, -, -, -, -, hstart, hend⟩ := laid_at_vma hlaid hfile hsect halloc hsize
    have hne : size (segOf s) ≠ 0 := by
      intro hzero
      rw [hzero, BitVec.ofNat_eq_ofNat, BitVec.toNat_ofNat, Nat.zero_mod] at hend
      omega
    have hfits := hmem.fits (segOf s) hne
    omega

/-- Sections that have been placed do not meet. -/
theorem laid_spread (hlaid : SectionsLaid segOf size memory eh counted laid)
    (hfile : file.LaidOut counted laid sects) : file.Spread sects := by
  intro i j hij
  rw [Set.disjoint_left]
  rintro a ⟨sect, hsect, halloc, hle, hlt⟩ ⟨sect', hsect', halloc', hle', hlt'⟩
  obtain ⟨s, hs, hsalloc, hsne, hssize, -⟩ := laid_at_vma hlaid hfile hsect halloc (by omega)
  obtain ⟨t, ht, htalloc, htne, htsize, -⟩ := laid_at_vma hlaid hfile hsect' halloc' (by omega)
  have hapart := hlaid.apart i j _ _ hij hs ht hsalloc hsne htalloc htne
  unfold Asection.extent at hapart
  dsimp only at hapart
  omega

end

end Cexp
