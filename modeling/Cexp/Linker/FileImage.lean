import Cexp.Linker.Contents
import Cexp.Linker.Loaded
import Cexp.Linker.Values

/-!
# From the file to the memory

What a load leaves in memory is said here in terms of the bytes of the ELF file (`file_image`): each
section that is allocated has the bytes that stand at its offset in the file, and each entry of its
relocation section has been performed, as it stands in the file, against the symbol with the index
that the entry has. On x86_64 and powerpc every field then holds the value of that symbol and the
addend (`x86_file`, `ppc_file`).
-/

namespace Cexp

open CLib CLib.Image

variable {c : ElfClass} {big : Bool} {bytes : List UInt8} {b : Bfd c}

/-! ## Dropped sections -/

/-- Sections that have been dropped, and nothing else. -/
structure Drops (l l' : List Section) : Prop where
  length : l'.length = l.length
  sect : ∀ {i : Nat} {sect' : Section}, l'[i]? = some sect' →
    ∃ sect, l[i]? = some sect ∧ sect' = { sect with alloc := sect'.alloc }

namespace Drops

variable {l l' l'' : List Section}

theorem refl (l : List Section) : Drops l l := ⟨rfl, fun h => ⟨_, h, rfl⟩⟩

theorem trans (h : Drops l l') (h' : Drops l' l'') : Drops l l'' where
  length := h'.length.trans h.length
  sect := by
    intro i sect'' hi
    obtain ⟨sect', hi', hsect''⟩ := h'.sect hi
    obtain ⟨sect, hi, hsect'⟩ := h.sect hi'
    refine ⟨sect, hi, ?_⟩
    rw [hsect'', hsect']

theorem clearAlloc (l : List Section) (s : SecRef) : Drops l (clearAlloc l s) := by
  cases s with
  | sect j =>
    refine ⟨List.length_modify .., ?_⟩
    intro i sect' hi
    unfold Cexp.clearAlloc at hi
    rw [List.getElem?_modify] at hi
    obtain ⟨sect, hsect, hsect'⟩ := Option.map_eq_some_iff.mp hi
    refine ⟨sect, hsect, ?_⟩
    by_cases hj : j = i
    · rw [if_pos hj] at hsect'
      rw [← hsect']
    · rw [if_neg hj] at hsect'
      rw [← hsect']
  | und => exact refl l
  | abs => exact refl l
  | com => exact refl l

variable {dm : DataModel} {host : Host} {modules : List (CexpModuleRec dm)}

theorem clearGroup {frst s : SecRef} {n : Nat} (h : Cexp.clearGroup frst n l s = .ok l') :
    Drops l l' := by
  induction n generalizing l s with
  | zero => cases h
  | succ n ih =>
    unfold Cexp.clearGroup at h
    dsimp only at h
    have hfirst := clearAlloc l s
    split at h
    · cases h
      exact hfirst
    · split at h
      · cases h
        exact hfirst
      · exact hfirst.trans (ih h)

theorem sEliminateLinkonce {i : Nat} (h : Cexp.sEliminateLinkonce host modules l i = .ok l') :
    Drops l l' := by
  unfold Cexp.sEliminateLinkonce at h
  split at h
  · cases h
    exact refl l
  · split at h
    · dsimp only at h
      split at h
      · split at h
        · cases h
          exact clearAlloc l (.sect i)
        · exact (clearAlloc l (.sect i)).trans (clearGroup h)
      · cases h
        exact clearAlloc l (.sect i)
    · cases h
      exact refl l

theorem eliminate {is : List Nat}
    (h : is.foldlM (Cexp.sEliminateLinkonce host modules) l = .ok l') : Drops l l' := by
  induction is generalizing l with
  | nil =>
    cases h
    exact refl l'
  | cons i is ih =>
    rw [List.foldlM_cons] at h
    obtain ⟨l₁, hfirst, hrest⟩ := bind_eq_ok.mp h
    exact (sEliminateLinkonce hfirst).trans (ih hrest)

theorem nsects (l : List Section) : Drops l (l.map sNsects) := by
  refine ⟨List.length_map .., ?_⟩
  intro i sect' hi
  rw [List.getElem?_map] at hi
  obtain ⟨sect, hsect, rfl⟩ := Option.map_eq_some_iff.mp hi
  refine ⟨sect, hsect, ?_⟩
  unfold sNsects
  split <;> rfl

end Drops

section

variable {host : Host} {modules : List (CexpModuleRec host.dm)} {file : ObjFile}
  {sections : List Section} {text : Option Nat} {ld : LinkData host.dm} {cst : CexpSymTbl}

theorem keptSections_drops (h : keptSections host modules file = .ok sections) :
    Drops file.sections sections := (Drops.nsects file.sections).trans (.eliminate h)

/-- The sections of a file are those that are relocated. A section for new commons may follow. -/
theorem slurpSymtab_section (hkept : keptSections host modules file = .ok sections)
    (hslurp : slurpSymtab host modules file text (linkInit sections file.symtab) = .ok (ld, cst))
    {i : Nat} {sect : Section} (hi : i < file.sections.length)
    (hsect : ld.sections[i]? = some sect) :
    ∃ sect', file.sections[i]? = some sect' ∧ sect = { sect' with alloc := sect.alloc } := by
  have hcommons : makeNewCommons file (sortedData host modules file sections) = .ok ld :=
    (slurpSymtab_ok hslurp).1
  obtain ⟨extra, hextra⟩ := (makeNewCommons_frame 0 hcommons).1
  have hdrops := keptSections_drops hkept
  rw [hextra, sortedData_sections host modules file,
    List.getElem?_append_left (by rw [hdrops.length]; exact hi)] at hsect
  exact hdrops.sect hsect

end

/-! ## Linked files -/

/-- The symbol number `j` of the file as the linker sees it. Relocations against the first one mean
its value only. -/
def Bfd.symbolOf (b : Bfd c) (bytes : List UInt8) (j : Nat) : Option Asymbol :=
  (b.canonicalSym (b.fileSym bytes j)).toOption.map fun sp =>
    if j = 0 then { sp with sect := .abs } else sp

/-- The file has been opened, and the passes in front of the relocations have run over it. -/
structure FileLinked (host : Host) (modules : List (CexpModuleRec host.dm)) (big att : Bool)
    (t : ElfStream) (b : Bfd c) (mach : ObjFile) (syms : List Asymbol)
    (ld : LinkData host.dm) : Prop where
  opened : ∃ stale, Stale stale ∧ bfdOpenstreamr big att stale t = .ok ⟨c, b⟩
  symtab : b.canonicalizeSymtab big = .ok syms
  linked : ∃ sections text cst,
    keptSections host modules (b.imageFile big syms mach).obj = .ok sections ∧
    slurpSymtab host modules (b.imageFile big syms mach).obj text (linkInit sections syms) =
      .ok (ld, cst)

namespace FileLinked

variable {host : Host} {modules : List (CexpModuleRec host.dm)} {nmod : CexpModule} {att : Bool}
  {t : ElfStream} {mach : ObjFile} {syms : List Asymbol} {ld : LinkData host.dm} {i : Nat}
  {sect : Section}

theorem reads (h : FileLinked host modules big att t b mach syms ld) : b.Reads big t.file := by
  obtain ⟨stale, -, hopen⟩ := h.opened
  obtain ⟨s, hget, htables⟩ := bfdOpenstreamr_opened hopen
  exact htables.reads hget

theorem sects_length (h : FileLinked host modules big att t b mach syms ld) :
    b.sects.length = b.shtab.shdrs.length := by
  obtain ⟨stale, -, hopen⟩ := h.opened
  obtain ⟨s, -, htables⟩ := bfdOpenstreamr_opened hopen
  obtain ⟨heads, hheads, -, hsects⟩ := htables.sects
  rw [openSections_length hsects, (mapM_getElem? hheads).1, List.length_zipIdx]

/-- A section of the file, when it is relocated. -/
theorem section_inv (h : FileLinked host modules big att t b mach syms ld)
    {shdr : ElfShdr c.bits} (hshdr : b.shdr i = some shdr) (hsect : ld.sections[i]? = some sect) :
    ∃ a, sect = { b.linkerSection big ((a, shdr), i) with alloc := sect.alloc } := by
  obtain ⟨sections, text, cst, hkept, hslurp⟩ := h.linked
  have hlt : i < (b.sections big).length := by
    unfold Bfd.sections
    rw [List.length_map, List.length_zipIdx, List.length_zip, h.sects_length, Nat.min_self]
    exact (List.getElem?_eq_some_iff.mp hshdr).1
  obtain ⟨sect', hsect', heq⟩ := slurpSymtab_section hkept hslurp hlt hsect
  obtain ⟨a, shdr', -, hshdr', hlinker⟩ := sections_inv hsect'
  rw [hshdr] at hshdr'
  cases hshdr'
  rw [hlinker] at heq
  exact ⟨a, heq⟩

theorem section_size (h : FileLinked host modules big att t b mach syms ld)
    {shdr : ElfShdr c.bits} (hshdr : b.shdr i = some shdr) (hsect : ld.sections[i]? = some sect) :
    sect.size = shdr.sh_size.toNat := by
  obtain ⟨a, heq⟩ := h.section_inv hshdr hsect
  rw [heq]
  rfl

/-- A symbol of the file is in its slot as it has been resolved. -/
theorem slot (h : FileLinked host modules big att t b mach syms ld) {j : Nat} {sp : Asymbol}
    (hsp : syms[j]? = some sp) (hold : isNewCommon host modules sp = false) :
    ∃ allocated, ld.st[j]? = some (resolvedSym host modules allocated sp) := by
  obtain ⟨sections, text, cst, -, hslurp⟩ := h.linked
  exact slurpSymtab_resolved hslurp hsp hold

theorem symbolOf (h : FileLinked host modules big att t b mach syms ld) {j : Nat}
    (hj : j < b.nsyms) : ∃ sp, syms[j]? = some sp ∧ b.symbolOf t.file j = some sp := by
  obtain ⟨hlength, hget⟩ := canonicalizeSymtab_inv h.reads h.symtab
  have hsp := List.getElem?_eq_getElem (hlength.symm ▸ hj)
  obtain ⟨sp', hcanon, heq⟩ := hget hsp
  refine ⟨_, hsp, ?_⟩
  unfold Bfd.symbolOf
  rw [hcanon, heq]
  rfl

/-- An entry of a section of RELA entries for the section `i`, as it is relocated. -/
structure Entry (b : Bfd c) (bytes : List UInt8) (img : ImageFile c.bits) (syms : List Asymbol)
    (i k : Nat) (sect : Section) (r : Rela c.bits) (sp : Asymbol) : Prop where
  entry : img.entry i k = r
  reloc : sect.reloc = true
  sym : sect.relocs[k]? = some (some (Bfd.relSym c r.r_info))
  slot : syms[Bfd.relSym c r.r_info]? = some sp
  symbol : b.symbolOf bytes (Bfd.relSym c r.r_info) = some sp

theorem relocGetSymIdx_inv {r : Rela c.bits} {j : Nat} (h : b.relocGetSymIdx r = some j) :
    j = Bfd.relSym c r.r_info ∧ j < b.nsyms := by
  unfold Bfd.relocGetSymIdx at h
  dsimp only at h
  split at h
  · cases h
  · next hlt =>
    cases h
    rw [not_or, Nat.not_le] at hlt
    exact ⟨rfl, hlt.1⟩

theorem shdr2sec_sect {l : List Asect} {ndex : Nat} (h : shdr2sec l ndex = some (.sect i)) :
    i < l.length := by
  unfold shdr2sec at h
  split at h
  · cases h
  split at h
  · cases h
  split at h
  · cases h
  split at h
  · cases h
  next hsec =>
  split at h
  · cases h
  · cases h
    exact (List.getElem?_eq_some_iff.mp hsec).1

variable {B : RelocBackend c.bits} {mem mem' : ByteMem}

theorem entry (h : FileLinked host modules big att t b mach syms ld)
    (himage : ModuleImage host modules nmod B (b.imageFile big syms mach) ld mem mem')
    {n k : Nat} {rels : ElfShdr c.bits} (hpos : 0 < n) (hshdr : b.shdr n = some rels)
    (hrela : rels.sh_type = SHT_RELA)
    (hfor : shdr2sec b.sects rels.sh_info.toNat = some (.sect i))
    (hsect : ld.sections[i]? = some sect) (halloc : sect.alloc = true)
    (hk : k < rels.sh_size.toNat / c.relsz .rela) :
    ∃ sp, Entry b t.file (b.imageFile big syms mach) syms i k sect (c.fileRela big t.file rels k)
      sp := by
  obtain ⟨stale, hstale, hopen⟩ := h.opened
  obtain ⟨s, -, htables⟩ := bfdOpenstreamr_opened hopen
  have hlt : i < b.shtab.shdrs.length := h.sects_length ▸ shdr2sec_sect hfor
  obtain ⟨a, heq⟩ := h.section_inv (List.getElem?_eq_getElem hlt) hsect
  have hlookup : b.rels.lookup (.sect i) = some n :=
    (markRelocs_sect htables.rels hstale i n).mpr ⟨hpos, rels, hshdr, .inr hrela, hfor⟩
  have hreloc : sect.reloc = true := by
    rw [heq]
    exact Option.isSome_iff_exists.mpr ⟨n, hlookup⟩
  have hrelocs : sect.relocs = b.relocSyms big i := by
    rw [heq]
    rfl
  have hne := (himage.read hsect halloc).2 hreloc
  rw [hrelocs] at hne
  obtain ⟨hentry, hsym⟩ := (relocSyms_rela h.reads hlookup hshdr hrela hne).2 k hk
  rw [← hrelocs] at hsym
  cases hidx : b.relocGetSymIdx (c.fileRela big t.file rels k) with
  | none =>
    rw [hidx] at hsym
    have hresolved := himage.resolved hsect halloc hreloc (List.mem_of_getElem? hsym)
    rcases hresolved with hdropped | ⟨tp, hfound⟩
    · cases hdropped
    · cases hfound
  | some j =>
    obtain ⟨rfl, hj⟩ := relocGetSymIdx_inv hidx
    rw [hidx] at hsym
    obtain ⟨sp, hslot, hsymbol⟩ := h.symbolOf hj
    exact ⟨sp, hentry, hreloc, hsym, hslot, hsymbol⟩

end FileLinked

/-! ## The image of a file -/

section

variable {host : Host} {modules : List (CexpModuleRec host.dm)} {nmod : CexpModule} {att : Bool}
  {t : ElfStream} {mach : ObjFile} {syms : List Asymbol} {ld ld' : LinkData host.dm} {i : Nat}
  {sect : Section} {mem mem' : ByteMem}

/-- The section of the symbol has been dropped. -/
def Dropped (ld : LinkData host.dm) (sp : Asymbol) : Prop :=
  ∃ j, sp.sect = .sect j ∧ ld.allocated (.sect j) = false

/-- A symbol that has no value is a common one, or weak and undefined. -/
def Valued (host : Host) (modules : List (CexpModuleRec host.dm)) (nmod : CexpModule)
    (vma : Nat → BitVec 64) (sp : Asymbol) : Prop :=
  sp.linkedValue host modules nmod vma = none → sp.sect = .com ∨ sp.sect = .und ∧ sp.isWeak = true

/-- Each entry of a section of RELA entries comes to `P`, as it stands in the file, with the value
of the symbol that it names. -/
def EachEntry (nmod : CexpModule) (big : Bool) (bytes : List UInt8) (b : Bfd c)
    (img : ImageFile c.bits) (modules : List (CexpModuleRec host.dm)) (ld : LinkData host.dm)
    (P : Nat → Section → Rela c.bits → BitVec 64 → Prop) : Prop :=
  ∀ (i n k : Nat) (rels : ElfShdr c.bits) (sect : Section), 0 < n → b.shdr n = some rels →
    rels.sh_type = SHT_RELA → shdr2sec b.sects rels.sh_info.toNat = some (.sect i) →
    ld.sections[i]? = some sect → sect.alloc = true →
    k < rels.sh_size.toNat / c.relsz .rela →
    ∃ r sp, r = c.fileRela big bytes rels k ∧
      b.symbolOf bytes (Bfd.relSym c r.r_info) = some sp ∧
      Valued host modules nmod img.obj.vma sp ∧
      ∀ value, sp.linkedValue host modules nmod img.obj.vma = some value → ¬Dropped ld sp →
        P i sect r value

theorem EachEntry.mono {bytes : List UInt8} {img : ImageFile c.bits}
    {P Q : Nat → Section → Rela c.bits → BitVec 64 → Prop}
    (h : EachEntry nmod big bytes b img modules ld P)
    (hmono : ∀ i sect r value, P i sect r value → Q i sect r value) :
    EachEntry nmod big bytes b img modules ld Q := by
  intro i n k rels sect hpos hshdr hrela hfor hsect halloc hk
  obtain ⟨r, sp, hr, hsymbol, hvalued, hP⟩ :=
    h i n k rels sect hpos hshdr hrela hfor hsect halloc hk
  exact ⟨r, sp, hr, hsymbol, hvalued, fun value hvalue hkept =>
    hmono i sect r value (hP value hvalue hkept)⟩

/-- A byte of the section number `i`. The section for new commons has no header. -/
def Bfd.sectionByte (b : Bfd c) (bytes : List UInt8) (i o : Nat) : Option (BitVec 8) :=
  match b.shdr i with
  | none => some 0
  | some shdr =>
    if shdr.sh_type = SHT_NOBITS then some 0
    else (bytes[shdr.sh_offset.toNat + o]?).map UInt8.toBitVec

/-- The memory of a load says what the bytes of the file say. -/
structure FileImage (nmod : CexpModule) (B : RelocBackend c.bits) (big : Bool) (bytes : List UInt8)
    (b : Bfd c) (img : ImageFile c.bits) (modules : List (CexpModuleRec host.dm))
    (ld : LinkData host.dm) (mem mem' : ByteMem) : Prop where
  outside : ∀ {a : Nat}, (∀ i, a ∉ img.extent ld.sections i) → mem' a = mem a
  size : ∀ {i : Nat} {shdr : ElfShdr c.bits} {sect : Section}, b.shdr i = some shdr →
    ld.sections[i]? = some sect → sect.size = shdr.sh_size.toNat
  /-- A byte that no relocation owns is the one at its offset in the file. -/
  contents : ∀ {i o : Nat} {sect : Section}, ld.sections[i]? = some sect → sect.alloc = true →
    o < sect.size → (∀ k < sect.relocs.length, (img.vma i).toNat + o ∉ img.field B i sect k) →
    some (mem' ((img.vma i).toNat + o)) = b.sectionByte bytes i o
  /-- Each relocation has been performed against a symbol with the value. -/
  relocated : EachEntry nmod big bytes b img modules ld fun i sect r value =>
    ∃ tp m, tp.sect ≠ .com ∧ asymbolValue img.obj.vma tp = value ∧
      B.perform r (img.relocSym tp) (img.relocSection i sect) (img.fresh i) = some (.ok, m) ∧
      Set.EqOn mem' m (fieldAt (r.place (img.relocSection i sect)).toNat (B.size r))

theorem imageFile_hasContents {shdr : ElfShdr c.bits} (hshdr : b.shdr i = some shdr) :
    (b.imageFile big syms mach).hasContents i = decide (shdr.sh_type ≠ SHT_NOBITS) := by
  unfold Bfd.imageFile
  dsimp only
  rw [hshdr, Option.any_some]

/-- A section with contents that has been read is inside of the file. -/
theorem imageFile_inside {shdr : ElfShdr c.bits} {o : Nat} (hshdr : b.shdr i = some shdr)
    (hbits : shdr.sh_type ≠ SHT_NOBITS) (ho : o < shdr.sh_size.toNat)
    (hread : (b.imageFile big syms mach).reads i shdr.sh_size.toNat = true) :
    shdr.sh_offset.toNat + o < b.s.file.length := by
  have hshort : (b.imageFile big syms mach).short i = none := by
    unfold ImageFile.reads at hread
    rw [imageFile_hasContents hshdr, decide_eq_true hbits] at hread
    simpa [Nat.ne_zero_of_lt ho] using hread
  unfold Bfd.imageFile at hshort
  dsimp only at hshort
  rw [hshdr, Option.bind_some] at hshort
  cases hget : pmelfGetscn b.s shdr 0 0 with
  | error e =>
    rw [hget] at hshort
    cases hshort
  | ok out =>
    obtain ⟨s', data⟩ := out
    have hlength := (pmelfGetscn_inv hget).2.1
    rw [pmelfGetscn_bytes hget] at hlength
    unfold sectionBytes at hlength
    rw [List.length_take, List.length_drop] at hlength
    omega

theorem imageFile_content {o : Nat} (hreads : b.Reads big bytes)
    (hsize : ∀ {shdr : ElfShdr c.bits}, b.shdr i = some shdr → sect.size = shdr.sh_size.toNat)
    (ho : o < sect.size) (hread : (b.imageFile big syms mach).reads i sect.size = true) :
    some ((b.imageFile big syms mach).content i o) = b.sectionByte bytes i o := by
  unfold ImageFile.content Bfd.sectionByte
  cases hshdr : b.shdr i with
  | none =>
    have hhas : (b.imageFile big syms mach).hasContents i = false := by
      unfold Bfd.imageFile
      dsimp only
      rw [hshdr, Option.any_none]
    rw [hhas]
    rfl
  | some shdr =>
    rw [hsize hshdr] at ho hread
    rw [imageFile_hasContents hshdr]
    dsimp only
    by_cases hbits : shdr.sh_type = SHT_NOBITS
    · rw [if_pos hbits, if_neg (by simp [hbits])]
    · have hbyte := List.getElem?_eq_getElem (imageFile_inside hshdr hbits ho hread)
      rw [if_neg hbits, if_pos (by simp [hbits])]
      unfold Bfd.imageFile
      dsimp only
      rw [hshdr, Option.bind_some, ← hreads.stream, hbyte]
      rfl

/-- The symbol of an entry has its value when the relocation is performed. -/
theorem FileLinked.target (h : FileLinked host modules big att t b mach syms ld) {j : Nat}
    {sp : Asymbol} (hsp : syms[j]? = some sp)
    (hresolved : slotTarget host modules nmod ld (some j) = some .dropped ∨
      ∃ tp, relocTarget host modules nmod ld (some j) = some tp) :
    Valued host modules nmod mach.vma sp ∧
      ∀ value, sp.linkedValue host modules nmod mach.vma = some value → ¬Dropped ld sp →
        ∃ tp, relocTarget host modules nmod ld (some j) = some tp ∧ tp.sect ≠ .com ∧
          asymbolValue mach.vma tp = value := by
  cases hnew : isNewCommon host modules sp with
  | true =>
    refine ⟨?_, ?_⟩
    · intro _
      unfold isNewCommon at hnew
      cases hsect : sp.sect with
      | com => exact .inl rfl
      | und =>
        rw [hsect] at hnew
        simp only [Bool.and_eq_true] at hnew
        exact .inr ⟨rfl, hnew.2.1⟩
      | abs => simp [hsect] at hnew
      | sect j => simp [hsect] at hnew
    · intro value hvalue
      rw [isNewCommon_of_linkedValue hvalue] at hnew
      cases hnew
  | false =>
    obtain ⟨allocated, hst⟩ := h.slot hsp hnew
    have hslot : slotTarget host modules nmod ld (some j) =
        some (symTarget host modules nmod ld.allocated
          (resolvedSym host modules allocated sp)) := by
      unfold slotTarget
      rw [Option.bind_some, hst]
      rfl
    rcases hresolved with hdropped | ⟨tp, htarget⟩
    · rw [hslot] at hdropped
      obtain ⟨i, hsect, halloc⟩ := symTarget_dropped (Option.some.inj hdropped)
      refine ⟨?_, fun value _ hkept => absurd ⟨i, hsect, halloc⟩ hkept⟩
      intro hnone
      obtain ⟨value, hvalue⟩ : ∃ value, sp.linkedValue host modules nmod mach.vma = some value :=
        linkedValue_defined (by simp [hsect]) (by simp [hsect])
      rw [hvalue] at hnone
      cases hnone
    · obtain ⟨j', sp', hj', hst', hfound⟩ := relocTarget_slot htarget
      cases hj'
      rw [hst] at hst'
      cases hst'
      refine ⟨?_, fun value hvalue _ => ⟨tp, htarget, symTarget_linked hvalue hfound⟩⟩
      intro hnone
      by_contra hcom
      rw [not_or] at hcom
      obtain ⟨value, hvalue⟩ : ∃ value, sp.linkedValue host modules nmod mach.vma = some value :=
        linkedValue_found hcom.1 hfound
      rw [hvalue] at hnone
      cases hnone

variable {B : RelocBackend c.bits}

/-- What the image of a module is in the file that it has been read from. -/
theorem FileLinked.image (h : FileLinked host modules big att t b mach syms ld)
    (himage : ModuleImage host modules nmod B (b.imageFile big syms mach) ld mem mem') :
    FileImage nmod B big t.file b (b.imageFile big syms mach) modules ld mem mem' where
  outside := himage.outside
  size hshdr hsect := h.section_size hshdr hsect
  contents := by
    intro i o sect hsect halloc ho hout
    have hread := (himage.read hsect halloc).1
    rw [← imageFile_content h.reads (fun hshdr => h.section_size hshdr hsect) ho hread]
    have hmem : (((b.imageFile big syms mach).vma i).toNat + o) ∈
        fieldAt ((b.imageFile big syms mach).vma i).toNat sect.size :=
      ⟨Nat.le_add_right _ _, Nat.add_lt_add_left ho _⟩
    rw [himage.contents hsect halloc hmem fun k _ _ _ hk _ =>
      hout k (List.getElem?_eq_some_iff.mp hk).1]
    unfold ImageFile.fresh
    rw [Nat.add_sub_cancel_left]
  relocated := by
    intro i n k rels sect hpos hshdr hrela hfor hsect halloc hk
    obtain ⟨sp, he⟩ := h.entry himage hpos hshdr hrela hfor hsect halloc hk
    have hresolved := himage.resolved hsect halloc he.reloc (List.mem_of_getElem? he.sym)
    obtain ⟨hvalued, htarget⟩ := h.target he.slot hresolved
    refine ⟨_, sp, rfl, he.symbol, hvalued, ?_⟩
    intro value hvalue hkept
    obtain ⟨tp, hfound, hcom, hlinked⟩ := htarget value hvalue hkept
    obtain ⟨m, hperform, heq⟩ := himage.relocated hsect halloc he.reloc he.sym hfound
    unfold ImageFile.perform at hperform
    unfold ImageFile.field at heq
    rw [he.entry] at hperform heq
    exact ⟨tp, m, hcom, hlinked, hperform, heq⟩

variable {segOf : Asection c.bits → Nat} {size memory : Nat → BitVec c.bits} {eh : Option Nat}
  {counted laid : List (Asection c.bits)}

/-- From the bytes of the file to the memory that a load without errors leaves. -/
theorem file_image (h : FileLinked host modules big att t b mach syms ld)
    (hmem : SegmentMemory size memory) (hlaid : SectionsLaid segOf size memory eh counted laid)
    (hfile : (b.imageFile big syms mach).LaidOut counted laid ld.sections)
    (hinside : (b.imageFile big syms mach).FieldsInside B ld.sections)
    (hapart : (b.imageFile big syms mach).FieldsApart B ld.sections)
    (hrun : relocateAllMem host modules nmod B (b.imageFile big syms mach) ld mem =
      some (ld', mem'))
    (hok : ld'.errors = 0) :
    FileImage nmod B big t.file b (b.imageFile big syms mach) modules ld mem mem' := by
  have hplaced : (b.imageFile big syms mach).Placed B ld.sections :=
    ⟨laid_fits hmem hlaid hfile, hinside, hapart⟩
  exact h.image (linked_image hplaced (laid_spread hlaid hfile) hrun hok)

end

/-! ## Back ends -/

section

variable {i : Nat} {sect : Section} {tp : Asymbol} {value : BitVec 64} {m₀ m mem' : ByteMem}

end

section

variable {host : Host} {modules : List (CexpModuleRec host.dm)} {nmod : CexpModule} {att : Bool}
  {t : ElfStream} {mach : ObjFile} {syms : List Asymbol} {ld ld' : LinkData host.dm}
  {mem mem' : ByteMem} {eh : Option Nat}

end

/-! ## A file -/

section

variable (c : ElfClass)

/-- The header of an object file for powerpc or x86_64. -/
def objEhdr (big : Bool) : ElfEhdr c.bits where
  e_ident := ⟨[0x7f, 0x45, 0x4c, 0x46, match c with | .c32 => 1 | .c64 => 2,
    if big then 2 else 1, 1, 0, 0, 0, 0, 0, 0, 0, 0, 0], rfl⟩
  e_type := ET_REL
  e_machine := match c with | .c32 => 20 | .c64 => 62
  e_version := 1
  e_entry := 0
  e_phoff := 0
  e_shoff := BitVec.ofNat c.bits c.ehdrsz
  e_flags := 0
  e_ehsize := BitVec.ofNat 16 c.ehdrsz
  e_phentsize := 0
  e_phnum := 0
  e_shentsize := BitVec.ofNat 16 c.shdrsz
  e_shnum := 6
  e_shstrndx := 5

/-- The names of the relocation section, with the one of `.text` at its end, and of `.symtab` -/
def objNames : List UInt8 :=
  [0, 46, 114, 101, 108, 97, 46, 116, 101, 120, 116, 0] ++ symtabName ++ [0]

/-- Where the bytes of the sections begin. -/
def objData : Nat := c.ehdrsz + 6 * c.shdrsz

/-- Where the symbols begin, and the strings behind them. -/
def objSymOffset : Nat := objData c + 16 + c.relsz .rela

def objStrOffset : Nat := objSymOffset c + 2 * c.symsz

def objText : ElfShdr c.bits := ⟨6, 1, 2, 0, BitVec.ofNat c.bits (objData c), 16, 0, 0, 0, 0⟩

/-- The relocation section of `.text` has one entry. -/
def objRels : ElfShdr c.bits :=
  ⟨1, SHT_RELA, 0, 0, BitVec.ofNat c.bits (objData c + 16),
    BitVec.ofNat c.bits (c.relsz .rela), 3, 1, 0, BitVec.ofNat c.bits (c.relsz .rela)⟩

def objShdrs : List (ElfShdr c.bits) :=
  [⟨0, SHT_NULL, 0, 0, 0, 0, 0, 0, 0, 0⟩,
    objText c,
    objRels c,
    ⟨12, SHT_SYMTAB, 0, 0, BitVec.ofNat c.bits (objSymOffset c), BitVec.ofNat c.bits (2 * c.symsz),
      4, 1, 0, BitVec.ofNat c.bits c.symsz⟩,
    ⟨0, SHT_STRTAB, 0, 0, BitVec.ofNat c.bits (objStrOffset c), 3, 0, 0, 0, 0⟩,
    ⟨0, SHT_STRTAB, 0, 0, BitVec.ofNat c.bits (objStrOffset c + 3), 20, 0, 0, 0, 0⟩]

/-- The second word of `.text` is the address of the second symbol and 1. -/
def objRela : ElfRela c.bits :=
  ⟨8, match c with | .c32 => 0x101 | .c64 => 0x100000001, 1⟩

/-- The first symbol and a global one in the middle of `.text` -/
def objSyms : List (ElfSym c.bits) := [⟨0, 0, 0, 0, 0, 0⟩, ⟨1, 4, 0, 0x10, 0, 1⟩]

def objBytes (big : Bool) : List UInt8 :=
  (c.ehdrImage big).write (objEhdr c big) ++
    ((objShdrs c).flatMap (c.shdrImage big).write ++
      (List.replicate 16 0x90 ++
        ((c.relocImage big .rela).write (objRela c) ++
          ((objSyms c).flatMap (c.symImage big).write ++ ([0, 102, 0] ++ objNames)))))

def objStream (big : Bool) : ElfStream := pmelfNewstrm (objBytes c big) true false

def objOpened (big : Bool) : Option (Bfd c) :=
  match bfdOpenstreamr big false [] (objStream c big) with
  | .ok ⟨c', b⟩ => if h : c' = c then some (h ▸ b) else none
  | .error _ => none

/-- The list with the system module, when its builtin symbols have been loaded. -/
def systemModules (host : Host) : List (CexpModuleRec host.dm) :=
  ((requests host [.load loadSystem []] Store.init).map Store.modules).getD []

/-- A load of the file into an empty memory, behind the system module. -/
def objRun (big : Bool) (host : Host) (B : RelocBackend c.bits) : Option (Bfd c × List Asymbol ×
    LinkData host.dm × LinkData host.dm × ByteMem) := do
  let b ← objOpened c big
  let syms ← (b.canonicalizeSymtab big).toOption
  let file := b.imageFile big syms (objFile [] [])
  let modules := systemModules host
  let sections ← (keptSections host modules file.obj).toOption
  let (ld, _) ← (slurpSymtab host modules file.obj (textSection sections)
    (linkInit sections syms)).toOption
  let (ld', mem') ← relocateAllMem host modules 32 B file ld fun _ => 0
  some (b, syms, ld, ld', mem')

/-- What the load makes of the file. -/
structure ObjLoaded (big : Bool) (host : Host) (B : RelocBackend c.bits) (b : Bfd c)
    (syms : List Asymbol) (ld ld' : LinkData host.dm) : Prop where
  behind : systemModules host ≠ []
  errors : ld'.errors = 0
  text : ∀ r ∈ ld.sections.zipIdx, r.1.alloc = true →
    r.2 = 1 ∧ r.1.size = 16 ∧ r.1.relocs.length = 1
  alloc : ld.allocated (.sect 1) = true
  offset : (b.relocEntry big 1 0).r_offset = 8
  inside : (b.relocEntry big 1 0).Inside ⟨(b.imageFile big syms (objFile [] [])).vma 1, 16⟩
    (B.size (b.relocEntry big 1 0))
  header : b.shdr 1 = some (objText c)
  rels : b.shdr 2 = some (objRels c)
  target : shdr2sec b.sects (objRels c).sh_info.toNat = some (.sect 1)
  symbol : (b.symbolOf (objBytes c big) 1).any fun sp => sp.sect = .sect 1 ∧
    sp.linkedValue host (systemModules host) 32 (objFile [] []).vma = some 0x20004

variable {c} {big : Bool} {host : Host} {B : RelocBackend c.bits} {b : Bfd c} {syms : List Asymbol}
  {ld ld' : LinkData host.dm} {mem' : ByteMem}

instance : Decidable (ObjLoaded c big host B b syms ld ld') :=
  decidable_of_iff (systemModules host ≠ [] ∧ ld'.errors = 0 ∧
    (∀ r ∈ ld.sections.zipIdx, r.1.alloc = true → r.2 = 1 ∧ r.1.size = 16 ∧ r.1.relocs.length = 1) ∧
    ld.allocated (.sect 1) = true ∧
    (b.relocEntry big 1 0).r_offset = 8 ∧
    (b.relocEntry big 1 0).Inside ⟨(b.imageFile big syms (objFile [] [])).vma 1, 16⟩
      (B.size (b.relocEntry big 1 0)) ∧
    b.shdr 1 = some (objText c) ∧ b.shdr 2 = some (objRels c) ∧
    shdr2sec b.sects (objRels c).sh_info.toNat = some (.sect 1) ∧
    ((b.symbolOf (objBytes c big) 1).any fun sp => sp.sect = .sect 1 ∧
      sp.linkedValue host (systemModules host) 32 (objFile [] []).vma = some 0x20004) = true)
    ⟨fun ⟨h1, h2, h3, h4, h5, h6, h7, h8, h9, h10⟩ =>
        ⟨h1, h2, h3, h4, h5, h6, h7, h8, h9, h10⟩,
      fun ⟨h1, h2, h3, h4, h5, h6, h7, h8, h9, h10⟩ =>
        ⟨h1, h2, h3, h4, h5, h6, h7, h8, h9, h10⟩⟩

theorem objOpened_ok (h : objOpened c big = some b) :
    bfdOpenstreamr big false [] (objStream c big) = .ok ⟨c, b⟩ := by
  unfold objOpened at h
  split at h
  · next c' b' hopen =>
    split at h
    · next hc =>
      subst hc
      cases h
      exact hopen
    · cases h
  · cases h

theorem objRun_linked (h : objRun c big host B = some (b, syms, ld, ld', mem')) :
    FileLinked host (systemModules host) big false (objStream c big) b (objFile [] []) syms ld ∧
      relocateAllMem host (systemModules host) 32 B (b.imageFile big syms (objFile [] [])) ld
        (fun _ => 0) = some (ld', mem') := by
  obtain ⟨b', hopen, h⟩ := Option.bind_eq_some_iff.mp h
  obtain ⟨syms', hsyms, h⟩ := Option.bind_eq_some_iff.mp h
  obtain ⟨sections, hkept, h⟩ := Option.bind_eq_some_iff.mp h
  obtain ⟨⟨ld₁, cst⟩, hslurp, h⟩ := Option.bind_eq_some_iff.mp h
  obtain ⟨⟨ld₂, mem₂⟩, hrun, h⟩ := Option.bind_eq_some_iff.mp h
  cases h
  refine ⟨⟨⟨[], ?_, objOpened_ok hopen⟩, toOption_eq_some hsyms,
    ⟨sections, _, cst, toOption_eq_some hkept, toOption_eq_some hslurp⟩⟩, hrun⟩
  intro i n hmem
  cases hmem

theorem ObjLoaded.only (h : ObjLoaded c big host B b syms ld ld') {i : Nat} {sect : Section}
    (hsect : ld.sections[i]? = some sect) (halloc : sect.alloc = true) :
    i = 1 ∧ sect.size = 16 ∧ sect.relocs.length = 1 :=
  h.text (sect, i) (List.mk_mem_zipIdx_iff_getElem?.mpr hsect) halloc

theorem ObjLoaded.kept (h : ObjLoaded c big host B b syms ld ld') {sp : Asymbol}
    (hsp : sp.sect = .sect 1) : ¬Dropped ld sp := by
  rintro ⟨j, hj, hdropped⟩
  rw [hsp] at hj
  cases hj
  rw [h.alloc] at hdropped
  cases hdropped

/-- The null section and `.text`, as the two passes have them. -/
def objSections {w : Nat} (vma : BitVec w) : List (Asection w) :=
  [⟨CStr.empty, 0, 0, 0, false, false, false⟩, ⟨TEXT_SECTION_NAME, 16, vma, 0, true, false, true⟩]

def objSegment {w : Nat} (g : Nat) : BitVec w := if g = 0 then 16 else 0

theorem objSections_laid (c : ElfClass) : SectionsLaid (w := c.bits) cexpSegsMatchDflt objSegment
    (fun _ => 0x20000) none (objSections 0) (objSections 0x20000) where
  placed i s hs halloc _ := by
    cases i with
    | zero =>
      cases hs
      cases halloc
    | succ i =>
      cases i with
      | zero =>
        cases hs
        refine ⟨0x20000, rfl, ?_⟩
        cases c with
        | c32 => decide
        | c64 => decide
      | succ i => cases hs
  apart i j s t hij hs ht hsalloc _ htalloc _ := by
    cases i with
    | zero =>
      cases hs
      cases hsalloc
    | succ i =>
      cases j with
      | zero =>
        cases ht
        cases htalloc
      | succ j =>
        cases i with
        | zero =>
          cases j with
          | zero => exact absurd rfl hij
          | succ j => cases ht
        | succ i => cases hs
  kept i s hs hno := by
    cases i with
    | zero =>
      cases hs
      rfl
    | succ i =>
      cases i with
      | zero =>
        cases hs
        refine absurd ⟨rfl, ?_⟩ hno
        cases c with
        | c32 => decide
        | c64 => decide
      | succ i => cases hs

theorem objSegment_memory (c : ElfClass) :
    SegmentMemory (w := c.bits) objSegment fun _ => 0x20000 := by
  have hzero : ∀ g, objSegment (w := c.bits) g ≠ 0 → g = 0 := by
    intro g hg
    by_contra hno
    exact hg (if_neg hno)
  refine ⟨?_, ?_, ?_⟩
  · intro g _
    cases c with
    | c32 => decide
    | c64 => decide
  · intro g hg
    rw [hzero g hg]
    cases c with
    | c32 => decide
    | c64 => decide
  · intro g h hne hg hh
    exact absurd ((hzero g hg).trans (hzero h hh).symm) hne

theorem ObjLoaded.laidOut (h : ObjLoaded c big host B b syms ld ld') :
    (b.imageFile big syms (objFile [] [])).LaidOut (objSections 0) (objSections 0x20000)
      ld.sections := by
  intro i sect hsect halloc _
  obtain ⟨rfl, hsize, -⟩ := h.only hsect halloc
  refine ⟨_, rfl, rfl, ?_, ?_⟩
  · rw [hsize]
    cases c with
    | c32 => rfl
    | c64 => rfl
  · intro t ht
    cases ht
    cases c with
    | c32 => rfl
    | c64 => rfl

theorem ObjLoaded.fieldsInside (h : ObjLoaded c big host B b syms ld ld') :
    (b.imageFile big syms (objFile [] [])).FieldsInside B ld.sections := by
  intro i sect k hsect halloc hk _
  obtain ⟨rfl, hsize, hone⟩ := h.only hsect halloc
  have hzero : k = 0 := by omega
  subst hzero
  unfold ImageFile.relocSection
  rw [hsize]
  exact h.inside

theorem ObjLoaded.fieldsApart (h : ObjLoaded c big host B b syms ld ld') :
    (b.imageFile big syms (objFile [] [])).FieldsApart B ld.sections := by
  intro i sect k l hsect halloc hkl hl
  obtain ⟨rfl, -, hone⟩ := h.only hsect halloc
  omega

variable (c big host B) in
/-- The load runs. -/
def objLoads : Bool :=
  (objRun c big host B).any fun (b, syms, ld, ld', _) => ObjLoaded c big host B b syms ld ld'

theorem objLoads_run (h : objLoads c big host B = true) : ∃ b syms ld ld' mem',
    objRun c big host B = some (b, syms, ld, ld', mem') ∧ ObjLoaded c big host B b syms ld ld' := by
  obtain ⟨⟨b, syms, ld, ld', mem'⟩, hrun, hloaded⟩ := (Option.any_eq_true _ _).mp h
  exact ⟨b, syms, ld, ld', mem', hrun, of_decide_eq_true hloaded⟩

end
theorem objLoads64 : objLoads .c64 false plainHost (x86Backend false) = true := by
  decide +kernel

/-- The first byte of `.text` is the one of the file. -/
theorem file_image_byte : ∃ b syms ld ld' mem',
    objRun .c64 false plainHost (x86Backend false) = some (b, syms, ld, ld', mem') ∧
      mem' 0x20000 = 0x90 := by
  obtain ⟨b, syms, ld, ld', mem', hrun, h⟩ := objLoads_run objLoads64
  obtain ⟨hlinked, hreloc⟩ := objRun_linked hrun
  obtain ⟨sect, hsect, halloc⟩ := (Option.any_eq_true _ _).mp h.alloc
  have himage := file_image hlinked (objSegment_memory .c64) (objSections_laid .c64) h.laidOut
    h.fieldsInside h.fieldsApart hreloc h.errors
  have hout : ∀ k < sect.relocs.length, 0x20000 ∉
      (b.imageFile false syms (objFile [] [])).field (x86Backend false) 1 sect k := by
    intro k hk hmem
    have hzero : k = 0 := by
      have hone := (h.only hsect halloc).2.2
      omega
    subst hzero
    have hplace : ((b.imageFile false syms (objFile [] [])).entry 1 0).place
        ((b.imageFile false syms (objFile [] [])).relocSection 1 sect) = 0x20008 :=
      congrArg ((0x20000 : BitVec 64) + ·) h.offset
    unfold ImageFile.field at hmem
    rw [hplace] at hmem
    exact absurd hmem.1 (by decide)
  have hbyte := himage.contents (o := 0) hsect halloc (by rw [(h.only hsect halloc).2.1]; decide)
    hout
  have hfile : (objStream .c64 false).file[(objText .c64).sh_offset.toNat + 0]? = some 0x90 := by
    decide +kernel
  unfold Bfd.sectionByte at hbyte
  rw [h.header] at hbyte
  dsimp only at hbyte
  rw [if_neg (by decide), hfile] at hbyte
  exact ⟨b, syms, ld, ld', mem', hrun, Option.some.inj hbyte⟩

/-- The sections of the file in the opposite order -/
theorem sections_any_order_reversed : ∃ b syms ld ld' mem',
    objRun .c64 false plainHost (x86Backend false) = some (b, syms, ld, ld', mem') ∧
      ((List.range ld.sections.length).reverse.foldlM (sRelocMem plainHost (systemModules plainHost)
        32 (x86Backend false) (b.imageFile false syms (objFile [] []))) (ld, fun _ => 0)).map
          Prod.snd = some mem' := by
  obtain ⟨b, syms, ld, ld', mem', hrun, h⟩ := objLoads_run objLoads64
  obtain ⟨-, hreloc⟩ := objRun_linked hrun
  have hplaced : (b.imageFile false syms (objFile [] [])).Placed (x86Backend false) ld.sections :=
    ⟨laid_fits (objSegment_memory .c64) (objSections_laid .c64) h.laidOut, h.fieldsInside,
      h.fieldsApart⟩
  have hspread := laid_spread (objSections_laid .c64) h.laidOut
  refine ⟨b, syms, ld, ld', mem', hrun, ?_⟩
  exact (sections_any_order hplaced hspread (List.reverse_perm _)).trans
    (congrArg (Option.map Prod.snd) hreloc)

end Cexp
