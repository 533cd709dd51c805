import Cexp.Linker.Image
import Cexp.Pmelf.Names
import Cexp.Pmelf.Relocs
import Cexp.Xsyms.CopySymtab

/-!
# ELF object files

`bfd_openstreamr` opens an ELF file: it reads the tables of the file, makes a section of each
section header and attaches the relocation sections to the sections that they are for.
`bfd_canonicalize_symtab` makes symbols of the entries of the symbol table. What the linker then
reads of a section, its bytes and its relocations, is what the file has at the offsets in the
section headers (`Bfd.imageFile`).

The host has the word size of the file, `big` is its byte order. Every routine seeks before it
reads, so the position of the stream is not carried over.
-/

namespace Cexp

open CLib CLib.Image

/-- Why a file is not opened or its symbols are not read. -/
inductive BfdStop where
  /-- a routine that reads the file stops -/
  | elf (e : ElfStop)
  /-- less than two symbols -/
  | fewSymbols
  /-- no section name -/
  | sectionName
  /-- unknown section type, or group member section index out of bounds -/
  | sections
  /-- group section size not a multiple of that of a word -/
  | groupSize
  /-- group has no members and not even a flag word -/
  | groupEmpty
  /-- group name symbol not in one-and-only symtab -/
  | groupSymtab
  /-- bad symbol name -/
  | symbolName
  /-- only one attribute set per BFD supported -/
  | attributes
  /-- no asection found associated with REL/RELA section -/
  | relocTarget
  /-- section has more than 1 associated sections with relocations -/
  | relocTwice
  /-- symbol pointing to no section -/
  | symbolSection
  deriving DecidableEq, Repr

def orElf {α : Type} (x : Except ElfStop α) : Except BfdStop α := x.mapError .elf

/-! ## Section headers -/

def ET_REL : BitVec 16 := 1
def ET_EXEC : BitVec 16 := 2

def SHT_NULL : BitVec 32 := 0
def SHT_NOBITS : BitVec 32 := 8
def SHT_GROUP : BitVec 32 := 17
def SHT_GNU_ATTRIBUTES : BitVec 32 := 0x6ffffff5

/-- `SHT_PROGBITS`, `SHT_HASH`, `SHT_DYNAMIC`, `SHT_NOTE`, `SHT_NOBITS`, `SHT_DYNSYM`,
`SHT_INIT_ARRAY`, `SHT_FINI_ARRAY`, `SHT_PREINIT_ARRAY`, `SHT_GNU_ATTRIBUTES`, `SHT_GNU_HASH`,
`SHT_GNU_VERSION_R` and `SHT_GNU_VERSION` -/
def plainTypes : List (BitVec 32) :=
  [1, 5, 6, 7, SHT_NOBITS, 11, 14, 15, 16, SHT_GNU_ATTRIBUTES, 0x6ffffff6, 0x6ffffffe, 0x6fffffff]

def SHF_ALLOC : Nat := 2

def GRP_COMDAT : BitVec 32 := 1

def STT_OBJECT : Nat := 1
def STT_FUNC : Nat := 2
def STT_SECTION : Nat := 3
def STT_TLS : Nat := 6

def STB_LOCAL : Nat := 0
def STB_GLOBAL : Nat := 1
def STB_WEAK : Nat := 2

/-- `ELF32_ST_TYPE` and `ELF64_ST_TYPE` -/
def ElfSym.type {w : Nat} (sym : ElfSym w) : Nat := sym.st_info.toNat % 16

/-- `ELF32_ST_BIND` and `ELF64_ST_BIND` -/
def ElfSym.bind {w : Nat} (sym : ElfSym w) : Nat := sym.st_info.toNat / 16

/-- The switch of `elf2bfdsec`; `own` for the two string tables that the library keeps. -/
def shType (own : Bool) (sh_type : BitVec 32) : ShType :=
  if sh_type = SHT_NULL then .null
  else if sh_type = SHT_SYMTAB then .symtab
  else if sh_type = SHT_STRTAB then .strtab own
  else if sh_type = SHT_REL then .rel
  else if sh_type = SHT_RELA then .rela
  else if sh_type = SHT_GROUP then .group
  else if sh_type ∈ plainTypes then .normal
  else .unsupported

theorem stringFrom_noNul (buf : List UInt8) : 0 ∉ buf.takeWhile (· ≠ 0) := by
  intro hmem
  have hne := List.all_eq_true.mp List.all_takeWhile 0 hmem
  simp at hne

/-- The string at the beginning of a buffer. -/
def stringFrom (buf : List UInt8) : Except BfdStop CStr :=
  if 0 ∈ buf then .ok ⟨buf.takeWhile (· ≠ 0), stringFrom_noNul buf⟩ else .error (.elf .outside)

variable {c : ElfClass}

/-- `elf_sym_name` -/
def elfSymName (symstrs : List UInt8) (sym : ElfSym c.bits) : Except BfdStop CStr :=
  if sym.st_name.toNat ≥ symstrs.length then .error .symbolName
  else stringFrom (symstrs.drop sym.st_name.toNat)

/-- `pmelf_getgrp` -/
def pmelfGetgrp (big : Bool) (s : ElfStream) (psect : ElfShdr c.bits) :
    Except BfdStop (List (BitVec 32)) :=
  if psect.sh_size.toNat % 4 ≠ 0 then .error .groupSize
  else if psect.sh_size.toNat / 4 < 1 then .error .groupEmpty
  else do
    let (_, buf) ← orElf (pmelfGetscn s psect 0 0)
    let words := (word32 big).readTable (psect.sh_size.toNat / 4) buf
    return if s.needswap then words.map (onWord elfSwap32) else words

/-- The tables that the sections are made from. -/
structure ObjectTables (c : ElfClass) where
  s : ElfStream
  shtab : Shtab c
  nsyms : Nat
  symsh : ElfShdr c.bits
  /-- the names of the symbols -/
  symstrs : List UInt8

namespace ObjectTables

variable (t : ObjectTables c)

/-- The header is the one of the section names or of the symbol names; the pointers have been
compared. -/
def own (idx : Nat) : Bool :=
  idx = t.shtab.idx ∨ idx * c.shdrsz = t.symsh.sh_link.toNat * c.shdrsz % 2 ^ 32

/-- The name of a group: that of its symbol, unless it is a section symbol without a name. -/
def groupName (big : Bool) (shdr : ElfShdr c.bits) (sname : CStr) : Except BfdStop CStr :=
  if shdr.sh_link.toNat ≠ t.shtab.shdrs.idxOf t.symsh then .error .groupSymtab
  else do
    let off := t.symsh.sh_offset.toNat + c.symsz * shdr.sh_info.toNat % 2 ^ 32
    let s ← orElf (orStop (t.s.seek (off % 2 ^ 64)))
    let (_, sym) ← orElf (orStop (c.getsym big s))
    if sym.st_name ≠ 0 ∨ sym.type ≠ STT_SECTION then elfSymName t.symstrs sym else return sname

/-- What `elf2bfdsec` reads of a header. -/
def head (big : Bool) (r : ElfShdr c.bits × Nat) : Except BfdStop Shdr :=
  match pmelfSecName t.shtab r.1 with
  | none => .error .sectionName
  | some buf => do
    let sname ← stringFrom buf
    let h : Shdr := {
      type := shType (t.own r.2) r.1.sh_type
      name := sname
      alloc := r.1.sh_flags.toNat &&& SHF_ALLOC ≠ 0
      signature := sname
      comdat := false
      grp := [] }
    if r.1.sh_type = SHT_GROUP then do
      let grp ← pmelfGetgrp big t.s r.1
      let signature ← t.groupName big r.1 sname
      return { h with
        signature := signature
        comdat := GRP_COMDAT &&& grp.headD 0 ≠ 0
        grp := grp.tail.map BitVec.toNat }
    else return h

end ObjectTables

/-! ## Relocation sections -/

/-- One header of the loop of `mark_relocs`, with the sections that have relocations already. -/
def markReloc (sects : List Asect) (rels : List (SecRef × Nat)) (r : ElfShdr c.bits × Nat) :
    Except BfdStop (List (SecRef × Nat)) :=
  if r.1.sh_type = SHT_REL ∨ r.1.sh_type = SHT_RELA then
    match shdr2sec sects r.1.sh_info.toNat with
    | none => .error .relocTarget
    | some tsec =>
      if (rels.lookup tsec).isSome then .error .relocTwice else .ok (rels ++ [(tsec, r.2)])
  else .ok rels

/-- `mark_relocs`. The fields `rels` of the three standard sections keep what earlier files have
left there (`stale`). -/
def markRelocs (stale : List (SecRef × Nat)) (shtab : Shtab c) (sects : List Asect) :
    Except BfdStop (List (SecRef × Nat)) :=
  (shtab.shdrs.zipIdx.drop 1).foldlM (markReloc sects) stale

/-! ## Opening a file -/

/-- `struct bfd` -/
structure Bfd (c : ElfClass) extends ObjectTables c where
  ehdr : ElfEhdr c.bits
  sects : List Asect
  /-- the relocation sections, by the sections that they are for -/
  rels : List (SecRef × Nat)

/-- There is one attribute section at most. Where attributes are not supported they do not count. -/
def attributesOnce (att : Bool) (shdrs : List (ElfShdr c.bits)) : Bool :=
  !att || (shdrs.filter fun shdr => shdr.sh_type = SHT_GNU_ATTRIBUTES).length ≤ 1

/-- The part of `bfd_openstreamr` behind the header of the file. -/
def openTables (big att : Bool) (stale : List (SecRef × Nat)) (s : ElfStream)
    (ehdr : ElfEhdr c.bits) : Except BfdStop (Bfd c) := do
  let (s, shtab) ← orElf (pmelfGetshtab big s ehdr)
  let (s, nsyms, symsh) ← orElf (pmelfFindSymhdrs s shtab)
  if nsyms < 2 then .error .fewSymbols
  else
    let strsh ← orElf (shtabN big shtab symsh.sh_link.toNat)
    let (s, symstrs) ← orElf (pmelfGetscn s strsh 0 0)
    let t : ObjectTables c := ⟨s, shtab, nsyms, symsh, symstrs⟩
    let heads ← shtab.shdrs.zipIdx.mapM (t.head big)
    if !attributesOnce att shtab.shdrs then .error .attributes
    else
      match openSections heads with
      | none => .error .sections
      | some sects => do
        let rels ← markRelocs stale shtab sects
        return { t with ehdr := ehdr, sects := sects, rels := rels }

/-- `bfd_openstreamr` -/
def bfdOpenstreamr (big att : Bool) (stale : List (SecRef × Nat)) (s : ElfStream) :
    Except BfdStop ((c : ElfClass) × Bfd c) := do
  let (s, hdr) ← orElf (orStop (pmelfGetehdr big s))
  hdr.run fun c ehdr => (openTables big att stale s ehdr).map fun b => ⟨c, b⟩

/-! ## Symbols -/

/-- `"*UND*"` -/
def UND_SECTION_NAME : CStr := ⟨[42, 85, 78, 68, 42], by decide⟩

/-- `"*ABS*"` -/
def ABS_SECTION_NAME : CStr := ⟨[42, 65, 66, 83, 42], by decide⟩

/-- `"*COM*"` -/
def COM_SECTION_NAME : CStr := ⟨[42, 67, 79, 77, 42], by decide⟩

/-- `shdr2sec(abfd, ndex, 1)`, for `n` sections -/
def shdr2secAny (n ndex : Nat) : Option SecRef :=
  if ndex = SHN_UNDEF then some .und
  else if ndex = SHN_ABS then some .abs
  else if ndex = SHN_COMMON then some .com
  else if ndex < n then some (.sect ndex)
  else none

namespace Bfd

variable (b : Bfd c)

def shdr (i : Nat) : Option (ElfShdr c.bits) := b.shtab.shdrs[i]?

/-- `bfd_get_section_name` -/
def sectionName : SecRef → CStr
  | .und => UND_SECTION_NAME
  | .abs => ABS_SECTION_NAME
  | .com => COM_SECTION_NAME
  | .sect i => (b.sects[i]?).elim CStr.empty Asect.name

/-- `bfd_get_section_vma` in a file that is not loaded -/
def sectionVma : SecRef → BitVec c.bits
  | .sect i => (b.shdr i).elim 0 ElfShdr.sh_addr
  | _ => 0

/-- `SEC_BOGUS == bfd_get_section_flags(abfd, sect)` -/
def bogus : SecRef → Bool
  | .sect i => (b.sects[i]?).any Asect.bogus
  | _ => false

/-- The body of the loop of `bfd_canonicalize_symtab`. -/
def canonicalSym (esym : ElfSym c.bits) : Except BfdStop Asymbol := do
  let name ← elfSymName b.symstrs esym
  match shdr2secAny b.sects.length esym.st_shndx.toNat with
  | none => .error .symbolSection
  | some symsec =>
    let val := esym.st_value - b.sectionVma symsec
    return {
      name := if esym.type = STT_SECTION ∧ name.bytes = [] then b.sectionName symsec else name
      sect := if b.bogus symsec then .abs else symsec
      value := val.setWidth 64
      size := (esym.st_size.setWidth 32).toInt
      align := if symsec = .com ∧ val.setWidth 32 ≠ (0 : BitVec 32) then val.setWidth 32 else 1
      isLocal := esym.bind = STB_LOCAL
      isGlobal := esym.bind = STB_GLOBAL ∧ symsec ≠ .und ∧ symsec ≠ .com
      isWeak := esym.bind = STB_WEAK
      isFunction := esym.type = STT_FUNC
      isObject := esym.type = STT_OBJECT
      isSectionSym := esym.type = STT_SECTION
      isThreadLocal := esym.type = STT_TLS
      isOldCommon := false
      keep := false }

/-- `bfd_canonicalize_symtab`. Relocations against the first symbol mean the value 0. -/
def canonicalizeSymtab (big : Bool) : Except BfdStop (List Asymbol) := do
  let s ← orElf (orStop (b.s.seek b.symsh.sh_offset.toNat))
  let (_, esyms) ← orElf (orStop (slurp (c.getsym big) b.nsyms s))
  let syms ← esyms.mapM b.canonicalSym
  return syms.modify 0 fun sp => { sp with sect := .abs }

/-! ## Relocations -/

/-- The kind of the entries of a relocation section. -/
def relKind (rels : ElfShdr c.bits) : Option RelKind :=
  if rels.sh_type = SHT_REL then some .rel
  else if rels.sh_type = SHT_RELA then some .rela
  else none

/-- The header of the section number `n`. The standard sections have none. -/
def relocHeader (n : Nat) : Option (ElfShdr c.bits) :=
  match shdr2secAny b.sects.length n with
  | some (.sect i) => b.shdr i
  | _ => none

/-- `get_reloc_sec` -/
def getRelocSec (sect : SecRef) : Option (ElfShdr c.bits × RelKind) := do
  let n ← b.rels.lookup sect
  let rels ← b.relocHeader n
  let kind ← relKind rels
  if c.relsz kind = rels.sh_entsize.toNat then some (rels, kind) else none

/-- `pmbfd_canonicalize_reloc`: the number of the relocations, the size of one and the bytes of
all. -/
def canonicalizeReloc (sect : SecRef) : Option (Nat × Nat × List UInt8) := do
  let (rels, kind) ← b.getRelocSec sect
  let nrels := rels.sh_size.toNat / c.relsz kind
  if nrels = 0 then some (0, c.relsz kind, [])
  else
    let (_, data) ← (pmelfGetscn b.s rels 0 0).toOption
    some (nrels, c.relsz kind, data)

/-- `pmbfd_reloc_next`: the entry as the back ends see it. Behind the bytes of the section there is
nothing. -/
def relocNext (big : Bool) (entsz : Nat) (data : List UInt8) (k : Nat) : Rela c.bits :=
  let r : ElfRela c.bits :=
    (c.relocImage big .rela).read ((data.drop (k * entsz)).take (c.relsz .rela))
  ⟨r.r_offset, r.r_info, r.r_addend⟩

/-- `ELF32_R_SYM` and `ELF64_R_SYM` -/
def relSym (c : ElfClass) (r_info : BitVec c.bits) : Nat :=
  match c with
  | .c32 => r_info.toNat / 2 ^ 8
  | .c64 => r_info.toNat / 2 ^ 32

/-- `pmbfd_reloc_get_sym_idx`; an index that is no `int` is bad. -/
def relocGetSymIdx (r : Rela c.bits) : Option Nat :=
  let idx := relSym c r.r_info
  if idx ≥ b.nsyms ∨ 2 ^ 31 ≤ idx then none else some idx

def relocEntry (big : Bool) (i k : Nat) : Rela c.bits :=
  match b.canonicalizeReloc (.sect i) with
  | none => ⟨0, 0, 0⟩
  | some (_, entsz, data) => relocNext big entsz data k

/-- The symbols of the relocations of a section. There are none if the section cannot be read. -/
def relocSyms (big : Bool) (i : Nat) : List (Option Nat) :=
  match b.canonicalizeReloc (.sect i) with
  | none => []
  | some (nrels, entsz, data) =>
    (List.range nrels).map fun k => b.relocGetSymIdx (relocNext big entsz data k)

/-! ## What the linker sees -/

/-- `bfd_check_format(abfd, bfd_object)` -/
def checkFormat : Bool := b.ehdr.e_type = ET_REL ∨ b.ehdr.e_type = ET_EXEC

/-- A section. The passes of the linker go over the bogus ones. -/
def linkerSection (big : Bool) (r : (Asect × ElfShdr c.bits) × Nat) : Section where
  name := if r.1.1.bogus then CStr.empty else r.1.1.name
  size := r.1.2.sh_size.toNat
  alloc := r.1.1.alloc
  linkOnce := r.1.1.linkOnce
  group := r.1.1.group
  reloc := (b.rels.lookup (.sect r.2)).isSome
  nextInGroup := shdr2sec b.sects r.1.1.grpNext
  relocs := b.relocSyms big r.2

def sections (big : Bool) : List Section :=
  (b.sects.zip b.shtab.shdrs).zipIdx.map (b.linkerSection big)

/-- The file with its bytes. What the machine adds, such as the addresses of the sections, is that
of `host`. -/
def imageFile (big : Bool) (syms : List Asymbol) (host : ObjFile) : ImageFile c.bits where
  obj := { host with
    opens := host.opens && b.checkFormat
    sections := b.sections big
    symtab := syms }
  hasContents := fun i => (b.shdr i).any fun shdr => shdr.sh_type ≠ SHT_NOBITS
  short := fun i =>
    (b.shdr i).bind fun shdr =>
      match pmelfGetscn b.s shdr 0 0 with
      | .ok _ => none
      | .error _ => some (b.s.file.length - shdr.sh_offset.toNat)
  byte := fun i o =>
    ((b.shdr i).bind fun shdr => b.s.file[shdr.sh_offset.toNat + o]?).elim 0 UInt8.toBitVec
  entry := b.relocEntry big

end Bfd

end Cexp
