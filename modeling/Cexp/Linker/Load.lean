import Cexp.Linker.FileImage
import Cexp.Linker.Segments

/-!
# Loads and the heap

The part of `cexpLoadFile` that needs memory: the segments are counted and allocated, the sections
get their addresses and are relocated, and the cleanup of a load that fails deletes the segments.
Nothing of this is done for the system module, the first one that is loaded.

A load that fails leaves the heap and the memory of all others as they were, whatever it failed at,
and a load that is done adds the segments of its module, with the image that `linked_image` tells
(`loadFile_cases`). For an ELF file that image is told by its bytes (`loadFile_file_image`). What
the model of the linker's data leaves to its oracle is decided by the memory here
(`loadSegments_relocateAll`).
-/

namespace Cexp

open CLib

variable {w : Nat}

/-! ## Sections as BFD has them -/

/-- `ldz` -/
def ldz (x : BitVec 32) : Nat :=
  let msk : List (BitVec 32) := [0xffff0000, 0xff00ff00, 0xf0f0f0f0, 0xcccccccc, 0xaaaaaaaa]
  (msk.foldl (fun (rval, x) m =>
    if x &&& m ≠ 0 then (2 * rval + 1, x &&& m) else (2 * rval, x &&& ~~~m)) (0, x)).1

example : ldz 0 = 0 ∧ ldz 1 = 0 ∧ ldz 16 = 4 ∧ ldz 0x80000000 = 31 := by decide

def SHF_EXECINSTR : Nat := 4

/-- What the passes over the segments use of a section and the linker does not. -/
structure SectionAttr where
  alignPower : Nat
  code : Bool

/-- The alignment of the section for new commons is that of the first one. -/
def commonsPower {dm : DataModel} (ld : LinkData dm) : Nat :=
  (ld.newCommons.head?.bind fun slot => ld.st[slot]?).elim 0 elfGetAlignPwr

/-- `bfd_get_section_alignment`, and `SEC_CODE`. Sections that BFD leaves without flags are not
allocated. -/
def Bfd.attr {c : ElfClass} {dm : DataModel} (b : Bfd c) (ld : LinkData dm) (i : Nat) :
    SectionAttr :=
  match b.shdr i with
  | some shdr =>
    ⟨ldz (shdr.sh_addralign.setWidth 32), shdr.sh_flags.toNat &&& SHF_EXECINSTR ≠ 0⟩
  | none => ⟨commonsPower ld, false⟩

/-- The file with its sections at the addresses that have been set. -/
def ImageFile.placedAt (file : ImageFile w) (laid : List (Asection w)) : ImageFile w :=
  { file with obj := { file.obj with
      placed := true
      vma := fun i => (laid[i]?).elim (file.obj.vma i) fun s => s.vma.setWidth 64 } }

/-- An object file whose symbols have been read, and the back end that relocates it. -/
structure LinkedFile (w : Nat) where
  host : Host
  modules : List (CexpModuleRec host.dm)
  nmod : CexpModule
  backend : RelocBackend w
  file : ImageFile w
  attr : Nat → SectionAttr
  ld : LinkData host.dm
  /-- The tables behind the relocations can be made, and the sanity checks pass. -/
  checks : Bool

def LinkedFile.asection (f : LinkedFile w) (r : Section × Nat) : Asection w where
  name := r.1.name
  size := BitVec.ofNat w r.1.size
  vma := f.file.vma r.2
  alignPower := (f.attr r.2).alignPower
  alloc := r.1.alloc
  linkOnce := r.1.linkOnce
  code := (f.attr r.2).code

def LinkedFile.asections (f : LinkedFile w) : List (Asection w) :=
  f.ld.sections.zipIdx.map f.asection

/-- The file can be placed: its alignments and sizes are numbers of the machine, and its
relocations have fields of their own. `s_nsects` has dropped the empty sections. -/
structure LinkedFile.Placeable (f : LinkedFile w) (layout : SegmentLayout w) : Prop where
  size : ∀ sect ∈ f.ld.sections, sect.size < 2 ^ w
  frames : ∀ s ∈ f.asections, s.alloc = true → s.IsEh → s.size ≠ 0
  align : ∀ s ∈ f.asections, s.alloc = true → s.alignPower < 31
  total : ∀ g, paddedTotal layout.segOf g f.asections < 2 ^ w
  inside : ∀ laid, (f.file.placedAt laid).FieldsInside f.backend f.ld.sections
  fields : ∀ laid, (f.file.placedAt laid).FieldsApart f.backend f.ld.sections

/-! ## Loading -/

/-- What a load leaves. -/
structure LoadEnd (w : Nat) where
  loaded : Bool
  segs : Nat → CexpSegment w
  heap : Heap
  mem : ByteMem

/-- The terminating 0 behind the exception frames. -/
def ehMark (eh : Option Nat) (laid : List (Asection w)) (mem : ByteMem) : ByteMem :=
  match eh.bind fun i => laid[i]? with
  | none => mem
  | some s => memset ⟨(s.vma + s.size).toNat, sizeofLong w⟩ 0 mem

section

variable (source : SegmentSource w) (layout : SegmentLayout w)

/-- `cexpLoadFile` from the test of `cexpSystemModule` on, in front of its cleanup. There is no
result if the assertion on the system symbol table fails, or if the source leaves open what a
relocation does. -/
def loadSegments (f : LinkedFile w) (h : Heap) (mem : ByteMem) : Option (LoadEnd w) :=
  let counted := countAll layout.segOf f.asections
  if f.modules = [] then
    if f.ld.newCommons.all fun slot => (f.ld.st[slot]?).any Asymbol.isWeak then
      some ⟨f.checks, segmentInit.segs, h, mem⟩
    else none
  else if counted.errors ≠ 0 then some ⟨false, counted.segs, h, mem⟩
  else
    match cexpSegsAlloc source counted.segs h (List.range layout.nsegs) with
    | (false, segs, h) => some ⟨false, segs, h, mem⟩
    | (true, segs, h) =>
      let mem := memsetSegs segs layout.nsegs 0xee mem
      let laid := setvmaAll layout.segOf (fun g => (segs g).chunk) f.asections
      if laid.2.errors ≠ 0 then some ⟨false, segs, h, mem⟩
      else
        (relocateAllMem f.host f.modules f.nmod f.backend (f.file.placedAt laid.1) f.ld mem).map
          fun out =>
            if out.1.errors = 0 ∧ f.checks then
              ⟨true, segs, h, ehMark counted.ehSection laid.1 out.2⟩
            else ⟨false, segs, h, out.2⟩

/-- `cexpLoadFile` with its cleanup -/
def loadFile (f : LinkedFile w) (h : Heap) (mem : ByteMem) : Option (LoadEnd w) :=
  (loadSegments source layout f h mem).bind fun out =>
    if out.loaded then some out
    else (cexpSegsDelete out.segs layout.nsegs out.heap).map fun h => { out with heap := h }

end

/-! ## Places -/

theorem memset_outside (c : Chunk) (v : BitVec 8) (mem : ByteMem) :
    Set.EqOn (memset c v mem) mem (c.places)ᶜ := fun _ ha => if_neg ha

/-- Memory that is set elsewhere is not part of the image. -/
theorem ModuleImage.memset {dm : DataModel} {host : Host} {modules : List (CexpModuleRec dm)}
    {nmod : CexpModule} {B : RelocBackend w} {file : ImageFile w} {ld : LinkData dm}
    {mem mem' : ByteMem} (himage : ModuleImage host modules nmod B file ld mem mem')
    (hplaced : file.Placed B ld.sections) {c : Chunk} (v : BitVec 8)
    (hc : ∀ i, Disjoint c.places (file.extent ld.sections i)) :
    ModuleImage host modules nmod B file ld (memset c v mem) (memset c v mem') where
  outside := by
    intro a ha
    unfold Cexp.memset
    rw [himage.outside ha]
  read := himage.read
  resolved := himage.resolved
  contents := by
    intro i sect a hsect halloc ha hfree
    rw [memset_outside c v mem' (Set.disjoint_right.mp (hc i) ⟨sect, hsect, halloc, ha⟩)]
    exact himage.contents hsect halloc ha hfree
  relocated := by
    intro i sect k r tp hsect halloc hreloc hk htarget
    obtain ⟨m, hperform, heq⟩ := himage.relocated hsect halloc hreloc hk htarget
    refine ⟨m, hperform, fun a ha => ?_⟩
    have hin := hplaced.field_subset hsect halloc (List.getElem?_eq_some_iff.mp hk).1 ha
    rw [memset_outside c v mem' (Set.disjoint_right.mp (hc i) ⟨sect, hsect, halloc, hin⟩)]
    exact heq ha

section

variable {layout : SegmentLayout w} {f : LinkedFile w} {h : Heap} {mem mem' : ByteMem}
  {laid : List (Asection w)} {out : Bool × (Nat → CexpSegment w) × Heap}

theorem placedAt_vma (hw : w ≤ 64) (file : ImageFile w) {i : Nat} {t : Asection w}
    (ht : laid[i]? = some t) : (file.placedAt laid).vma i = t.vma := by
  unfold ImageFile.vma ImageFile.placedAt
  dsimp only
  rw [ht, Option.elim_some, BitVec.setWidth_setWidth_of_le _ hw, BitVec.setWidth_eq]

theorem asections_getElem? {i : Nat} {sect : Section} (hsect : f.ld.sections[i]? = some sect) :
    f.asections[i]? = some (f.asection (sect, i)) := by
  unfold LinkedFile.asections
  rw [List.getElem?_map, List.getElem?_zipIdx, hsect, Option.map_some, Option.map_some,
    Nat.zero_add]

theorem LinkedFile.Placeable.laidOut (hplace : f.Placeable layout) (hw : w ≤ 64)
    (laid : List (Asection w)) :
    (f.file.placedAt laid).LaidOut f.asections laid f.ld.sections := by
  intro i sect hsect halloc _
  refine ⟨_, asections_getElem? hsect, halloc, ?_, ?_⟩
  · show (BitVec.ofNat w sect.size).toNat = sect.size
    rw [BitVec.toNat_ofNat]
    exact Nat.mod_eq_of_lt (hplace.size sect (List.mem_of_getElem? hsect))
  · intro t ht
    exact (placedAt_vma hw f.file ht).symm

/-- The memory of a segment is part of what the segments hold. -/
theorem segment_places
    (hout : SegsAlloced (List.range layout.nsegs) (countAll layout.segOf f.asections).segs h out)
    (hok : out.1 = true) {s : Asection w} {a n : Nat}
    (hstart : (out.2.1 (layout.segOf s)).chunk.toNat ≤ a)
    (hend : a + n ≤ (out.2.1 (layout.segOf s)).chunk.toNat +
      (countedSize layout.segOf f.asections (layout.segOf s)).toNat) :
    fieldAt a n ⊆ segPlaces out.2.1 layout.nsegs := by
  rintro x ⟨hle, hlt⟩
  have hsize : countedSize layout.segOf f.asections (layout.segOf s) ≠ 0 := by
    intro hzero
    rw [hzero, BitVec.ofNat_eq_ofNat, BitVec.toNat_ofNat, Nat.zero_mod] at hend
    omega
  have hmem : layout.segOf s ∈ List.range layout.nsegs := List.mem_range.mpr (layout.inside s)
  have hchunk := (hout.done hok _ hmem hsize).1
  refine ⟨_, hout.held_iff.mpr ⟨_, hmem, hchunk, rfl⟩, ?_, ?_⟩
  · exact hstart.trans hle
  · exact hlt.trans_le hend

/-- The sections are in the memory of the segments. -/
theorem extent_places (hw : w ≤ 64) (hplace : f.Placeable layout)
    (hout : SegsAlloced (List.range layout.nsegs) (countAll layout.segOf f.asections).segs h out)
    (hok : out.1 = true) {eh : Option Nat}
    (hlaid : SectionsLaid layout.segOf (countedSize layout.segOf f.asections)
      (fun g => (out.2.1 g).chunk) eh f.asections laid) (i : Nat) :
    (f.file.placedAt laid).extent f.ld.sections i ⊆ segPlaces out.2.1 layout.nsegs := by
  rintro a ⟨sect, hsect, halloc, ha⟩
  have hne : sect.size ≠ 0 := by
    obtain ⟨hle, hlt⟩ := ha
    omega
  obtain ⟨s, -, -, -, -, hstart, hend⟩ :=
    laid_at_vma hlaid (hplace.laidOut hw laid) hsect halloc hne
  exact segment_places hout hok hstart hend ha

/-- Where the exception frames end. -/
structure MarkAt (segs : Nat → CexpSegment w) (layout : SegmentLayout w) (file : ImageFile w)
    (sects : List Section) (c : Chunk) : Prop where
  inside : c.places ⊆ segPlaces segs layout.nsegs
  apart : ∀ i, Disjoint c.places (file.extent sects i)

/-- The section of the exception frames in the memory of its segment, with the mark behind it. -/
structure FramesAt (layout : SegmentLayout w) (f : LinkedFile w) (segs : Nat → CexpSegment w)
    (laid : List (Asection w)) (i : Nat) (s : Asection w) (a : BitVec w) : Prop where
  alloc : s.alloc = true
  size : s.size ≠ 0
  laid : laid[i]? = some { s with vma := a }
  start : (segs (layout.segOf s)).chunk.toNat ≤ a.toNat
  stop : (a + s.size).toNat = a.toNat + s.size.toNat
  mark : a.toNat + s.size.toNat + sizeofLong w ≤ (segs (layout.segOf s)).chunk.toNat +
    (countedSize layout.segOf f.asections (layout.segOf s)).toNat

theorem ehSection_frames {i : Nat} (hplace : f.Placeable layout)
    (hmem : SegmentMemory (countedSize layout.segOf f.asections) fun g => (out.2.1 g).chunk)
    (hlaid : SectionsLaid layout.segOf (countedSize layout.segOf f.asections)
      (fun g => (out.2.1 g).chunk) (some i) f.asections laid)
    (heh : (countAll layout.segOf f.asections).ehSection = some i) :
    ∃ s a, FramesAt layout f out.2.1 laid i s a := by
  obtain ⟨s, hs, halloc, hframes⟩ := countAll_eh_section heh
  have hne := hplace.frames s (List.mem_of_getElem? hs) halloc hframes
  obtain ⟨a, hat, -, hstart, hend⟩ := hlaid.placed i s hs halloc hne
  have hextent : s.extent (some i) i = s.size.toNat + sizeofLong w := by
    unfold Asection.extent
    rw [if_pos rfl]
  rw [hextent] at hend
  have hcounted : countedSize layout.segOf f.asections (layout.segOf s) ≠ 0 := by
    intro hzero
    have hpos : s.size.toNat ≠ 0 := fun hz => hne (BitVec.eq_of_toNat_eq hz)
    rw [hzero, BitVec.ofNat_eq_ofNat, BitVec.toNat_ofNat, Nat.zero_mod] at hend
    omega
  have hfits := hmem.fits (layout.segOf s) hcounted
  refine ⟨s, a, halloc, hne, hat, hstart, ?_, by omega⟩
  rw [BitVec.toNat_add]
  exact Nat.mod_eq_of_lt (by omega)

/-- The mark has a place of its own behind the frames. -/
theorem ehMark_cases (hw : w ≤ 64) (hplace : f.Placeable layout)
    (hout : SegsAlloced (List.range layout.nsegs) (countAll layout.segOf f.asections).segs h out)
    (hok : out.1 = true)
    (hmem : SegmentMemory (countedSize layout.segOf f.asections) fun g => (out.2.1 g).chunk)
    (hlaid : SectionsLaid layout.segOf (countedSize layout.segOf f.asections)
      (fun g => (out.2.1 g).chunk) (countAll layout.segOf f.asections).ehSection f.asections laid) :
    (∀ m, ehMark (countAll layout.segOf f.asections).ehSection laid m = m) ∨
      ∃ c, MarkAt out.2.1 layout (f.file.placedAt laid) f.ld.sections c ∧
        ∀ m, ehMark (countAll layout.segOf f.asections).ehSection laid m = memset c 0 m := by
  cases heh : (countAll layout.segOf f.asections).ehSection with
  | none => exact .inl fun _ => rfl
  | some i =>
    rw [heh] at hlaid
    obtain ⟨s, a, hframes⟩ := ehSection_frames hplace hmem hlaid heh
    have hstop := hframes.stop
    refine .inr ⟨⟨(a + s.size).toNat, sizeofLong w⟩, ⟨?_, ?_⟩, ?_⟩
    · have hstart := hframes.start
      have hmark := hframes.mark
      show fieldAt (a + s.size).toNat (sizeofLong w) ⊆ _
      rw [hstop]
      exact segment_places (s := s) hout hok (by omega) hmark
    · intro j
      rw [Set.disjoint_left]
      rintro x ⟨hle, hlt⟩ ⟨sect, hsect, hsalloc, hxle, hxlt⟩
      dsimp only at hle hlt
      rw [hstop] at hle hlt
      obtain ⟨t, ht, htalloc, htne, htsize, -⟩ :=
        laid_at_vma hlaid (hplace.laidOut hw laid) hsect hsalloc (by omega)
      by_cases hij : i = j
      · -- the section of the frames itself ends where the mark begins
        subst hij
        rw [hframes.laid] at ht
        obtain ⟨-, hsame, hvma, -⟩ := Asection.mk.inj (Option.some.inj ht)
        rw [← hvma] at hxlt
        rw [← hsame] at htsize
        omega
      · have hapart := hlaid.apart i j _ _ hij hframes.laid ht hframes.alloc hframes.size htalloc
          htne
        unfold Asection.extent at hapart
        dsimp only at hapart
        rw [if_pos rfl] at hapart
        omega
    · intro m
      unfold ehMark
      rw [Option.bind_some, hframes.laid]

end

/-! ## The memory of a load -/

/-- The relocations keep to the memory of the sections. -/
theorem relocateAllMem_frame {dm : DataModel} {host : Host} {modules : List (CexpModuleRec dm)}
    {nmod : CexpModule} {B : RelocBackend w} {file : ImageFile w} {ld ld' : LinkData dm}
    {mem mem' : ByteMem} {F : Set Nat} (hplaced : file.Placed B ld.sections)
    (hsub : ∀ i, file.extent ld.sections i ⊆ F)
    (hrun : relocateAllMem host modules nmod B file ld mem = some (ld', mem')) :
    Set.EqOn mem' mem Fᶜ := by
  rw [relocateAllMem_eq hplaced] at hrun
  obtain ⟨m, hall, hout⟩ := Option.map_eq_some_iff.mp hrun
  obtain ⟨-, rfl⟩ := Prod.mk.inj hout
  apply runAll_frame _ hall
  intro p hp
  obtain ⟨i, -, rfl⟩ := List.mem_map.mp hp
  exact hsub i

/-- A load has taken the memory of its segments and nothing else. -/
structure LoadEnd.Held (layout : SegmentLayout w) (h : Heap) (mem : ByteMem) (out : LoadEnd w) :
    Prop where
  heap : out.heap.chunks.Perm (heldChunks out.segs (List.range layout.nsegs) ++ h.chunks)
  frame : Set.EqOn out.mem mem (segPlaces out.segs layout.nsegs)ᶜ

/-- The memory of the segments is the image of the file. -/
def SegsImage (layout : SegmentLayout w) (f : LinkedFile w) (segs : Nat → CexpSegment w)
    (mem mem' : ByteMem) : Prop :=
  ∃ laid, SectionsLaid layout.segOf (countedSize layout.segOf f.asections)
      (fun g => (segs g).chunk) (countAll layout.segOf f.asections).ehSection f.asections laid ∧
    (∀ i, (f.file.placedAt laid).extent f.ld.sections i ⊆ segPlaces segs layout.nsegs) ∧
    ModuleImage f.host f.modules f.nmod f.backend (f.file.placedAt laid) f.ld
      (ehMark (countAll layout.segOf f.asections).ehSection laid
        (memsetSegs segs layout.nsegs 0xee mem)) mem'

section

variable {source : SegmentSource w} {layout : SegmentLayout w} {f : LinkedFile w} {h : Heap}
  {mem : ByteMem} {out : LoadEnd w}

/-- The memory is there, and the relocations have run. -/
structure Relocated (layout : SegmentLayout w) (f : LinkedFile w) (h h' : Heap) (mem m : ByteMem)
    (segs : Nat → CexpSegment w) (laid : List (Asection w)) (ld' : LinkData f.host.dm) : Prop where
  alloced : SegsAlloced (List.range layout.nsegs) (countAll layout.segOf f.asections).segs h
    (true, segs, h')
  addresses : SectionsLaid layout.segOf (countedSize layout.segOf f.asections)
    (fun g => (segs g).chunk) (countAll layout.segOf f.asections).ehSection f.asections laid
  run : relocateAllMem f.host f.modules f.nmod f.backend (f.file.placedAt laid) f.ld
    (memsetSegs segs layout.nsegs 0xee mem) = some (ld', m)

/-- The system module has no segments. -/
theorem loadSegments_system (hmodules : f.modules = [])
    (hrun : loadSegments source layout f h mem = some out) :
    out.Held layout h mem ∧ heldChunks out.segs (List.range layout.nsegs) = [] := by
  have hnone : heldChunks (segmentInit (w := w)).segs (List.range layout.nsegs) = [] :=
    heldChunks_none fun _ _ => rfl
  unfold loadSegments at hrun
  dsimp only at hrun
  rw [if_pos hmodules] at hrun
  split at hrun
  · cases hrun
    refine ⟨⟨?_, fun _ _ => rfl⟩, hnone⟩
    rw [hnone]
    exact .refl _
  · cases hrun

theorem loadSegments_cases (hlong : 32 ≤ w) (hplace : f.Placeable layout)
    (hmodules : f.modules ≠ []) (hrun : loadSegments source layout f h mem = some out) :
    out.loaded = false ∧ out.Held layout h mem ∨
      ∃ h' segs laid ld' m, Relocated layout f h h' mem m segs laid ld' ∧
        out = if ld'.errors = 0 ∧ f.checks then
            ⟨true, segs, h', ehMark (countAll layout.segOf f.asections).ehSection laid m⟩
          else ⟨false, segs, h', m⟩ := by
  unfold loadSegments at hrun
  dsimp only at hrun
  rw [if_neg hmodules] at hrun
  split at hrun
  · -- a section is refused, and nothing has been allocated
    cases hrun
    refine .inl ⟨rfl, ?_, fun _ _ => rfl⟩
    rw [heldChunks_none fun g _ => countAll_null layout.segOf f.asections g]
    exact .refl _
  · have halloced : SegsAlloced (List.range layout.nsegs) (countAll layout.segOf f.asections).segs
        h (cexpSegsAlloc source (countAll layout.segOf f.asections).segs h
          (List.range layout.nsegs)) :=
      cexpSegsAlloc_alloced List.nodup_range fun g _ => countAll_null layout.segOf f.asections g
    generalize cexpSegsAlloc source (countAll layout.segOf f.asections).segs h
      (List.range layout.nsegs) = alloced at halloced hrun
    obtain ⟨ok, segs, h'⟩ := alloced
    cases ok with
    | false =>
      cases hrun
      exact .inl ⟨rfl, halloced.held, fun _ _ => rfl⟩
    | true =>
      obtain ⟨herr, hlaid⟩ := sections_laid hlong layout.segOf f.asections _ hplace.align
        hplace.total (segment_memory halloced rfl)
      dsimp only at hrun herr hlaid
      rw [if_neg (not_not.mpr herr)] at hrun
      obtain ⟨⟨ld', m⟩, hreloc, hend⟩ := Option.map_eq_some_iff.mp hrun
      exact .inr ⟨h', segs, _, ld', m, ⟨halloced, hlaid, hreloc⟩, hend.symm⟩

section

variable {h' : Heap} {m : ByteMem} {segs : Nat → CexpSegment w} {laid : List (Asection w)}
  {ld' : LinkData f.host.dm}

theorem Relocated.placed (hreloc : Relocated layout f h h' mem m segs laid ld') (hw : w ≤ 64)
    (hplace : f.Placeable layout) : (f.file.placedAt laid).Placed f.backend f.ld.sections :=
  ⟨laid_fits (segment_memory hreloc.alloced rfl) hreloc.addresses (hplace.laidOut hw laid),
    hplace.inside laid, hplace.fields laid⟩

theorem Relocated.frame (hreloc : Relocated layout f h h' mem m segs laid ld') (hw : w ≤ 64)
    (hplace : f.Placeable layout) : Set.EqOn m mem (segPlaces segs layout.nsegs)ᶜ := by
  have hsub := extent_places hw hplace hreloc.alloced rfl hreloc.addresses
  have hrun := relocateAllMem_frame (hreloc.placed hw hplace) hsub hreloc.run
  exact hrun.trans (memsetSegs_outside segs layout.nsegs 0xee mem)

theorem Relocated.mark (hreloc : Relocated layout f h h' mem m segs laid ld') (hw : w ≤ 64)
    (hplace : f.Placeable layout) :
    (∀ m, ehMark (countAll layout.segOf f.asections).ehSection laid m = m) ∨
      ∃ c, MarkAt segs layout (f.file.placedAt laid) f.ld.sections c ∧
        ∀ m, ehMark (countAll layout.segOf f.asections).ehSection laid m = memset c 0 m :=
  ehMark_cases hw hplace hreloc.alloced rfl (segment_memory hreloc.alloced rfl) hreloc.addresses

/-- The mark is in the memory of the module. -/
theorem Relocated.markFrame (hreloc : Relocated layout f h h' mem m segs laid ld') (hw : w ≤ 64)
    (hplace : f.Placeable layout) :
    Set.EqOn (ehMark (countAll layout.segOf f.asections).ehSection laid m) mem
      (segPlaces segs layout.nsegs)ᶜ := by
  have hframe := hreloc.frame hw hplace
  rcases hreloc.mark hw hplace with hno | ⟨c, hc, hmark⟩
  · rw [hno]
    exact hframe
  · have houtside : Set.EqOn (memset c 0 m) m (segPlaces segs layout.nsegs)ᶜ :=
      (memset_outside c 0 m).mono (Set.compl_subset_compl.mpr hc.inside)
    rw [hmark]
    exact houtside.trans hframe

/-- The mark is no part of the image. -/
theorem Relocated.image (hreloc : Relocated layout f h h' mem m segs laid ld') (hw : w ≤ 64)
    (hplace : f.Placeable layout) (hok : ld'.errors = 0) :
    SegsImage layout f segs mem
      (ehMark (countAll layout.segOf f.asections).ehSection laid m) := by
  have himage := linked_image (hreloc.placed hw hplace)
    (laid_spread hreloc.addresses (hplace.laidOut hw laid)) hreloc.run hok
  refine ⟨laid, hreloc.addresses, extent_places hw hplace hreloc.alloced rfl hreloc.addresses, ?_⟩
  rcases hreloc.mark hw hplace with hno | ⟨c, hc, hmark⟩
  · rw [hno, hno]
    exact himage
  · rw [hmark, hmark]
    exact himage.memset (hreloc.placed hw hplace) 0 hc.apart

end

/-- What a load that is done leaves in the memory of its segments. The system module has none. -/
structure LoadImage (layout : SegmentLayout w) (f : LinkedFile w) (segs : Nat → CexpSegment w)
    (mem mem' : ByteMem) : Prop where
  system : f.modules = [] → heldChunks segs (List.range layout.nsegs) = []
  image : f.modules ≠ [] → SegsImage layout f segs mem mem'

theorem loadSegments_held (hlong : 32 ≤ w) (hw : w ≤ 64)
    (hplace : f.modules ≠ [] → f.Placeable layout)
    (hrun : loadSegments source layout f h mem = some out) :
    out.Held layout h mem ∧ (out.loaded = true → LoadImage layout f out.segs mem out.mem) := by
  by_cases hmodules : f.modules = []
  · obtain ⟨hheld, hnone⟩ := loadSegments_system hmodules hrun
    exact ⟨hheld, fun _ => ⟨fun _ => hnone, fun hne => absurd hmodules hne⟩⟩
  replace hplace := hplace hmodules
  rcases loadSegments_cases hlong hplace hmodules hrun with
    ⟨hfailed, hheld⟩ | ⟨h', segs, laid, ld', m, hreloc, hend⟩
  · refine ⟨hheld, fun hloaded => ?_⟩
    rw [hfailed] at hloaded
    cases hloaded
  · split at hend
    · next hdone =>
      subst hend
      exact ⟨⟨hreloc.alloced.held, hreloc.markFrame hw hplace⟩, fun _ =>
        ⟨fun hsystem => absurd hsystem hmodules, fun _ => hreloc.image hw hplace hdone.1⟩⟩
    · subst hend
      exact ⟨⟨hreloc.alloced.held, hreloc.frame hw hplace⟩, fun hfalse => by cases hfalse⟩

/-- What the linker's data comes to, when its oracle is the memory. -/
theorem loadSegments_relocateAll (hlong : 32 ≤ w) (hw : w ≤ 64) (hplace : f.Placeable layout)
    (hmodules : f.modules ≠ []) (hrun : loadSegments source layout f h mem = some out) :
    ∃ obj : ObjFile, (obj = { f.file.obj with placed := false } ∨
        ∃ laid, obj = (f.file.placedAt laid).outcome f.backend f.ld.sections) ∧
      (out.loaded = true ↔ f.checks = true ∧
        ∃ ld', relocateAll f.host f.modules f.nmod obj f.ld = .ok ld') := by
  rcases loadSegments_cases hlong hplace hmodules hrun with
    ⟨hfailed, -⟩ | ⟨h', segs, laid, ld', m, hreloc, hend⟩
  · refine ⟨_, .inl rfl, ?_⟩
    rw [hfailed]
    unfold relocateAll
    rw [if_neg hmodules]
    simp
  · refine ⟨_, .inr ⟨laid, rfl⟩, ?_⟩
    rw [relocateAll_mem hmodules (hreloc.placed hw hplace) hreloc.run]
    have hplaced : (f.file.placedAt laid).obj.placed = true := rfl
    rw [if_pos hplaced]
    split at hend
    · next hdone =>
      subst hend
      rw [if_neg (not_not.mpr hdone.1)]
      exact ⟨fun _ => ⟨hdone.2, ld', rfl⟩, fun _ => rfl⟩
    · next hno =>
      subst hend
      constructor
      · intro hfalse
        cases hfalse
      · rintro ⟨hchecks, ld'', hok⟩
        split at hok
        · cases hok
        · next herr => exact absurd ⟨not_not.mp herr, hchecks⟩ hno

/-- What others have is apart from what a load has taken. -/
theorem LoadEnd.Held.apart (hheld : out.Held layout h mem) {c : Chunk} (hc : c ∈ h.chunks) :
    Disjoint c.places (segPlaces out.segs layout.nsegs) := by
  have hpairwise := (hheld.heap.pairwise_iff fun hcd => Std.Symm.symm _ _ hcd).mp out.heap.apart
  rw [Set.disjoint_left]
  rintro a ha ⟨d, hd, had⟩
  have hapart := (List.pairwise_append.mp hpairwise).2.2 d hd c hc
  exact Set.disjoint_left.mp hapart.disjoint had ha

theorem LoadEnd.Held.kept (hheld : out.Held layout h mem) {c : Chunk} (hc : c ∈ h.chunks) :
    Set.EqOn out.mem mem c.places :=
  hheld.frame.mono fun _ ha => Set.disjoint_left.mp (hheld.apart hc) ha

/-- A load that fails gives back all memory. One that is done leaves the image of its file in
memory of its own. -/
theorem loadFile_cases (hlong : 32 ≤ w) (hw : w ≤ 64)
    (hplace : f.modules ≠ [] → f.Placeable layout)
    (hrun : loadFile source layout f h mem = some out) :
    (∀ c ∈ h.chunks, Set.EqOn out.mem mem c.places) ∧
      (out.loaded = false ∧ out.heap.chunks.Perm h.chunks ∨
        out.loaded = true ∧ out.Held layout h mem ∧ LoadImage layout f out.segs mem out.mem) := by
  obtain ⟨last, hsegments, hclean⟩ := Option.bind_eq_some_iff.mp hrun
  obtain ⟨hheld, himage⟩ := loadSegments_held hlong hw hplace hsegments
  split at hclean
  · next hloaded =>
    cases hclean
    exact ⟨fun c hc => hheld.kept hc, .inr ⟨hloaded, hheld, himage hloaded⟩⟩
  · next hfailed =>
    obtain ⟨h', hdelete, rfl⟩ := Option.map_eq_some_iff.mp hclean
    obtain ⟨h'', hdelete', hperm⟩ := cexpSegsDelete_perm hheld.heap
    rw [hdelete] at hdelete'
    cases hdelete'
    exact ⟨fun c hc => hheld.kept hc, .inl ⟨Bool.eq_false_of_not_eq_true hfailed, hperm⟩⟩

/-- The cleanup can free what has been allocated. -/
theorem loadFile_cleanup (hlong : 32 ≤ w) (hw : w ≤ 64)
    (hplace : f.modules ≠ [] → f.Placeable layout)
    (hrun : loadSegments source layout f h mem = some out) :
    ∃ last, loadFile source layout f h mem = some last := by
  obtain ⟨h', hdelete, -⟩ :=
    cexpSegsDelete_perm (loadSegments_held hlong hw hplace hrun).1.heap
  unfold loadFile
  rw [hrun, Option.bind_some, hdelete]
  split
  · exact ⟨out, rfl⟩
  · exact ⟨_, rfl⟩

end

/-! ## Files -/

section

variable {c : ElfClass} {big att : Bool} {b : Bfd c} {host : Host}
  {modules : List (CexpModuleRec host.dm)} {nmod : CexpModule} {t : ElfStream} {mach : ObjFile}
  {syms : List Asymbol} {ld : LinkData host.dm} {B : RelocBackend c.bits} {checks : Bool}
  {source : SegmentSource c.bits} {layout : SegmentLayout c.bits} {h : Heap} {mem : ByteMem}
  {out : LoadEnd c.bits}

/-- An ELF file whose symbols have been read. -/
def Bfd.linkedFile (b : Bfd c) (big : Bool) (syms : List Asymbol) (mach : ObjFile) (host : Host)
    (modules : List (CexpModuleRec host.dm)) (nmod : CexpModule) (B : RelocBackend c.bits)
    (ld : LinkData host.dm) (checks : Bool) : LinkedFile c.bits where
  host := host
  modules := modules
  nmod := nmod
  backend := B
  file := b.imageFile big syms mach
  attr := b.attr ld
  ld := ld
  checks := checks

theorem canonicalSym_oldCommon {esym : ElfSym c.bits} {sp : Asymbol}
    (h : b.canonicalSym esym = .ok sp) : sp.isOldCommon = false := by
  unfold Bfd.canonicalSym at h
  obtain ⟨name, -, h⟩ := bind_eq_ok.mp h
  split at h
  · cases h
  · cases h
    rfl

/-- The passes in front of the relocations do not depend on the addresses. -/
theorem FileLinked.placed (hlinked : FileLinked host modules big att t b mach syms ld)
    (placed : Bool) (vma : Nat → BitVec 64) :
    FileLinked host modules big att t b { mach with placed := placed, vma := vma } syms ld where
  opened := hlinked.opened
  symtab := hlinked.symtab
  linked := by
    obtain ⟨sections, text, cst, hkept, hslurp⟩ := hlinked.linked
    refine ⟨sections, text, cst, hkept, ?_⟩
    rw [← hslurp]
    apply slurpSymtab_vma (b.imageFile big syms mach).obj placed vma
    intro sp hsp
    obtain ⟨j, hj⟩ := List.mem_iff_getElem?.mp hsp
    obtain ⟨sp', hcanon, heq⟩ := (canonicalizeSymtab_inv hlinked.reads hlinked.symtab).2 hj
    have hnew := canonicalSym_oldCommon hcanon
    rw [heq]
    split
    · exact hnew
    · exact hnew

/-- The memory of the segments is the image of an ELF file: each section has an aligned place of its
own, and what is around the sections is 0xee, but for the 0 behind the exception frames. -/
def SegsFileImage (layout : SegmentLayout c.bits) (f : LinkedFile c.bits) (big : Bool)
    (bytes : List UInt8) (b : Bfd c) (segs : Nat → CexpSegment c.bits) (mem mem' : ByteMem) :
    Prop :=
  ∃ laid, SectionsLaid layout.segOf (countedSize layout.segOf f.asections)
      (fun g => (segs g).chunk) (countAll layout.segOf f.asections).ehSection f.asections laid ∧
    (∀ i, (f.file.placedAt laid).extent f.ld.sections i ⊆ segPlaces segs layout.nsegs) ∧
    FileImage f.nmod f.backend big bytes b (f.file.placedAt laid) f.modules f.ld
      (ehMark (countAll layout.segOf f.asections).ehSection laid
        (memsetSegs segs layout.nsegs 0xee mem)) mem'

/-- From the bytes of the file to the memory that has been allocated for it, when there is a system
module. -/
theorem loadFile_file_image (hmodules : modules ≠ [])
    (hlinked : FileLinked host modules big att t b mach syms ld)
    (hplace : (b.linkedFile big syms mach host modules nmod B ld checks).Placeable layout)
    (hrun : loadFile source layout (b.linkedFile big syms mach host modules nmod B ld checks) h
      mem = some out) (hok : out.loaded = true) :
    out.Held layout h mem ∧
      SegsFileImage layout (b.linkedFile big syms mach host modules nmod B ld checks) big t.file b
        out.segs mem out.mem := by
  have hlong : 32 ≤ c.bits := by cases c <;> decide
  have hw : c.bits ≤ 64 := by cases c <;> decide
  obtain ⟨-, ⟨hfailed, -⟩ | ⟨-, hheld, hloaded⟩⟩ := loadFile_cases hlong hw (fun _ => hplace) hrun
  · rw [hok] at hfailed
    cases hfailed
  · obtain ⟨laid, hlaid, hsub, himage⟩ := hloaded.image hmodules
    have hvma := hlinked.placed true fun i =>
      (laid[i]?).elim (mach.vma i) fun s => s.vma.setWidth 64
    exact ⟨hheld, laid, hlaid, hsub, hvma.image himage⟩

end

/-! ## A load -/

/-- The memory from an address on, each segment behind all others. -/
def arena (base : BitVec w) (hbase : base ≠ 0) : SegmentSource w where
  get _ h size :=
    let a := max base.toNat ((h.chunks.map fun c => c.addr + c.size).foldr max 0)
    if a + size.toNat < 2 ^ w then some (BitVec.ofNat w a) else none
  nonnull := by
    intro g h size a ha hzero
    obtain ⟨hlt, haddr⟩ := Option.ite_none_right_eq_some.mp ha
    have hpos : base.toNat ≠ 0 := fun hz => hbase (BitVec.eq_of_toNat_eq hz)
    have hnat := congrArg BitVec.toNat (Option.some.inj haddr)
    rw [hzero, BitVec.toNat_ofNat, Nat.mod_eq_of_lt (by omega)] at hnat
    simp at hnat
    omega
  fits := by
    intro g h size a ha
    obtain ⟨hlt, haddr⟩ := Option.ite_none_right_eq_some.mp ha
    rw [← Option.some.inj haddr, BitVec.toNat_ofNat, Nat.mod_eq_of_lt (by omega)]
    exact hlt
  apart := by
    intro g h size a ha d hd
    obtain ⟨hlt, haddr⟩ := Option.ite_none_right_eq_some.mp ha
    have hend := le_foldr_max (List.mem_map_of_mem (f := fun c => c.addr + c.size) hd)
    refine .inr ?_
    dsimp only
    rw [← Option.some.inj haddr, BitVec.toNat_ofNat, Nat.mod_eq_of_lt (by omega)]
    exact hend.trans (Nat.le_max_right _ _)

/-- The file fits into one segment. -/
structure LinkedFile.Fits (f : LinkedFile w) : Prop where
  size : ∀ sect ∈ f.ld.sections, sect.size < 2 ^ w
  frames : ∀ s ∈ f.asections, s.alloc = true → s.IsEh → s.size ≠ 0
  align : ∀ s ∈ f.asections, s.alloc = true → s.alignPower < 31
  total : paddedTotal cexpSegsMatchDflt 0 f.asections < 2 ^ w

instance (f : LinkedFile w) : Decidable f.Fits :=
  decidable_of_iff ((∀ sect ∈ f.ld.sections, sect.size < 2 ^ w) ∧
    (∀ s ∈ f.asections, s.alloc = true → s.IsEh → s.size ≠ 0) ∧
    (∀ s ∈ f.asections, s.alloc = true → s.alignPower < 31) ∧
    paddedTotal cexpSegsMatchDflt 0 f.asections < 2 ^ w)
    ⟨fun ⟨h1, h2, h3, h4⟩ => ⟨h1, h2, h3, h4⟩, fun ⟨h1, h2, h3, h4⟩ => ⟨h1, h2, h3, h4⟩⟩

theorem paddedTotal_unused {segOf : Asection w → Nat} {sects : List (Asection w)} {g : Nat}
    (hg : ∀ s ∈ sects, segOf s ≠ g) : paddedTotal segOf g sects = 0 := by
  induction sects with
  | nil => rfl
  | cons s sects ih =>
    rw [List.forall_mem_cons] at hg
    rw [paddedTotal, if_neg hg.1, ih hg.2]

theorem LinkedFile.Fits.placeable {f : LinkedFile w} (hfits : f.Fits)
    (hinside : ∀ laid, (f.file.placedAt laid).FieldsInside f.backend f.ld.sections)
    (hfields : ∀ laid, (f.file.placedAt laid).FieldsApart f.backend f.ld.sections) :
    f.Placeable cexpSegsDflt where
  size := hfits.size
  frames := hfits.frames
  align := hfits.align
  total g := by
    by_cases hg : g = 0
    · rw [hg]
      exact hfits.total
    · have hunused : paddedTotal cexpSegsDflt.segOf g f.asections = 0 :=
        paddedTotal_unused fun s _ hseg => hg hseg.symm
      rw [hunused]
      exact Nat.two_pow_pos w
  inside := hinside
  fields := hfields

section

variable {c : ElfClass} {big : Bool} {host : Host} {B : RelocBackend c.bits} {b : Bfd c}
  {syms : List Asymbol} {ld ld' : LinkData host.dm}

theorem ObjLoaded.placeable (h : ObjLoaded c big host B b syms ld ld')
    (hfits : (b.linkedFile big syms (objFile [] []) host (systemModules host) 32 B ld true).Fits) :
    (b.linkedFile big syms (objFile [] []) host (systemModules host) 32 B ld true).Placeable
      cexpSegsDflt := by
  apply hfits.placeable
  · intro laid i sect k hsect halloc hk _
    obtain ⟨rfl, hsize, hone⟩ := h.only hsect halloc
    have hzero : k = 0 := by omega
    subst hzero
    have hinside := h.inside
    unfold Rela.Inside at hinside ⊢
    unfold ImageFile.relocSection
    rw [hsize]
    exact hinside
  · intro laid i sect k l hsect halloc hkl hl
    obtain ⟨rfl, -, hone⟩ := h.only hsect halloc
    omega

end

/-- The load of the file into an empty heap, behind the system module. -/
def objPlaced (c : ElfClass) (big : Bool) (host : Host) (B : RelocBackend c.bits) (b : Bfd c)
    (syms : List Asymbol) (ld : LinkData host.dm) : Option (LoadEnd c.bits) :=
  have hbase : BitVec.ofNat c.bits 0x20000 ≠ 0 := by
    cases c with
    | c32 => decide
    | c64 => decide
  loadFile (arena (BitVec.ofNat c.bits 0x20000) hbase) cexpSegsDflt
    (b.linkedFile big syms (objFile [] []) host (systemModules host) 32 B ld true) .empty fun _ => 0

/-- The load runs. -/
def objPlaces (c : ElfClass) (big : Bool) (host : Host) (B : RelocBackend c.bits) : Bool :=
  (objRun c big host B).any fun (b, syms, ld, ld', _) =>
    ObjLoaded c big host B b syms ld ld' ∧
      (b.linkedFile big syms (objFile [] []) host (systemModules host) 32 B ld true).Fits ∧
        (objPlaced c big host B b syms ld).any fun out => out.loaded ∧ out.mem 0x20000 = 0x90

theorem objPlaces_run {c : ElfClass} {big : Bool} {host : Host} {B : RelocBackend c.bits}
    (h : objPlaces c big host B = true) : ∃ b syms ld ld' mem' out,
      objRun c big host B = some (b, syms, ld, ld', mem') ∧
        ObjLoaded c big host B b syms ld ld' ∧
        (b.linkedFile big syms (objFile [] []) host (systemModules host) 32 B ld true).Fits ∧
        objPlaced c big host B b syms ld = some out ∧ out.loaded = true ∧
        out.mem 0x20000 = 0x90 := by
  obtain ⟨⟨b, syms, ld, ld', mem'⟩, hrun, hrest⟩ := (Option.any_eq_true _ _).mp h
  obtain ⟨hloaded, hfits, hload⟩ := of_decide_eq_true hrest
  obtain ⟨out, hout, hend⟩ := (Option.any_eq_true _ _).mp hload
  obtain ⟨hok, hbyte⟩ := of_decide_eq_true hend
  exact ⟨b, syms, ld, ld', mem', out, hrun, hloaded, hfits, hout, hok, hbyte⟩

theorem objPlaces64 : objPlaces .c64 false plainHost (x86Backend false) = true := by
  decide +kernel

/-- The first byte of `.text` is in the memory that has been allocated. -/
theorem loadFile_file_image_byte : ∃ (b : Bfd .c64) (syms : List Asymbol)
    (ld : LinkData plainHost.dm) (out : LoadEnd 64),
    objPlaced .c64 false plainHost (x86Backend false) b syms ld = some out ∧
      out.mem 0x20000 = 0x90 ∧
      SegsFileImage (c := .c64) cexpSegsDflt
        (b.linkedFile false syms (objFile [] []) plainHost (systemModules plainHost) 32
          (x86Backend false) ld true) false (objBytes .c64 false) b out.segs (fun _ => 0)
        out.mem := by
  obtain ⟨b, syms, ld, ld', mem', out, hrun, hloaded, hfits, hout, hok, hbyte⟩ :=
    objPlaces_run objPlaces64
  obtain ⟨-, himage⟩ := loadFile_file_image hloaded.behind (objRun_linked hrun).1
    (hloaded.placeable hfits) hout hok
  exact ⟨b, syms, ld, out, hout, hbyte, himage⟩

end Cexp
