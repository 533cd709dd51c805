import Cexp.Pmelf.Tables

/-!
# Copying a symbol table

`pmelf_copy_symtab` of `xsyms.c`: it reads the symbol table of an ELF file and writes a file with
four section headers (an empty one, `.shstrtab`, `.symtab` and `.strtab`), the symbols and their
names. The symbols of real sections become absolute.
-/

namespace Cexp

open CLib CLib.Image

namespace ElfClass

/-! What is in the local record of a put routine does not matter, so it is the record that is
written. -/

def putehdr (c : ElfClass) (big : Bool) (s : ElfStream) (pehdr : ElfEhdr c.bits) :
    Except ElfError ElfStream :=
  match c with
  | .c32 => (pmelfPutehdr32 big s pehdr pehdr).1
  | .c64 => (pmelfPutehdr64 big s pehdr pehdr).1

def putshdr (c : ElfClass) (big : Bool) (s : ElfStream) (pshdr : ElfShdr c.bits) :
    Except ElfError ElfStream :=
  match c with
  | .c32 => (pmelfPutshdr32 big s pshdr pshdr).1
  | .c64 => (pmelfPutshdr64 big s pshdr pshdr).1

def putsym (c : ElfClass) (big : Bool) (s : ElfStream) (psym : ElfSym c.bits) :
    Except ElfError ElfStream :=
  match c with
  | .c32 => (pmelfPutsym32 big s psym psym).1
  | .c64 => (pmelfPutsym64 big s psym psym).1

end ElfClass

/-- A routine for a class, on a header of either class. -/
def ElfHdr.run {β : Type} (f : (c : ElfClass) → ElfEhdr c.bits → β) : ElfHdr → β
  | .e32 r => f .c32 r
  | .e64 r => f .c64 r

variable {c : ElfClass}

/-! ## The new file -/

def SHT_STRTAB : BitVec 32 := 3

/-- `i++` for an `int` -/
def incr (i : Nat) : Except ElfStop Nat := if i + 1 < 2 ^ 31 then .ok (i + 1) else .error .overflow

def copyEhdr (ehdr : ElfEhdr c.bits) : ElfEhdr c.bits :=
  { ehdr with
    e_entry := 0
    e_phoff := 0
    e_shoff := BitVec.ofNat _ c.ehdrsz
    e_phnum := 0
    e_shnum := 4
    e_shstrndx := 1 }

/-- `NULL .shstrtab .symtab .strtab`, from the first header, that of the symbol table and that of
its strings. -/
def copyShdrs (null symsh strsh : ElfShdr c.bits) : List (ElfShdr c.bits) :=
  let shstrtab : ElfShdr c.bits :=
    { sh_name := 1
      sh_type := SHT_STRTAB
      sh_flags := 0
      sh_addr := 0
      sh_offset := BitVec.ofNat _ (c.ehdrsz + 4 * c.shdrsz)
      sh_size := 27
      sh_link := 0
      sh_info := 0
      sh_addralign := 0
      sh_entsize := 0 }
  let symtab := { symsh with
    sh_name := 11
    sh_offset := shstrtab.sh_offset + shstrtab.sh_size
    sh_link := 3 }
  let strtab := { strsh with
    sh_name := 19
    sh_offset := symtab.sh_offset + symtab.sh_size }
  [null, shstrtab, symtab, strtab]

/-- `".shstrtab"`, with the terminating zero. -/
def shstrtabStr : List UInt8 := [46, 115, 104, 115, 116, 114, 116, 97, 98, 0]

def symtabStr : List UInt8 := [46, 115, 121, 109, 116, 97, 98, 0]

def strtabStr : List UInt8 := [46, 115, 116, 114, 116, 97, 98, 0]

/-- The symbol if it is in a real section. -/
def absSym {w : Nat} (nshdrs : Nat) (sym : ElfSym w) : ElfSym w :=
  if sym.st_shndx.toNat ≠ SHN_UNDEF ∧ sym.st_shndx.toNat < nshdrs then
    { sym with st_shndx := BitVec.ofNat 16 SHN_ABS }
  else sym

/-- The loop over the symbols that makes them absolute. -/
def absSyms (nshdrs : Nat) : Nat → List (ElfSym c.bits) → Except ElfStop (List (ElfSym c.bits))
  | _, [] => .ok []
  | i, sym :: syms => do
    let i ← incr i
    let syms ← absSyms nshdrs i syms
    return absSym nshdrs sym :: syms

def putSyms (big : Bool) : Nat → ElfStream → List (ElfSym c.bits) → Except ElfStop ElfStream
  | _, s, [] => .ok s
  | i, s, sym :: syms => do
    let s ← orStop (c.putsym big s sym)
    let i ← incr i
    putSyms big i s syms

/-- `cpyscn` -/
def cpyscn (elfi elfo : ElfStream) (shdr : ElfShdr c.bits) : Except ElfStop ElfStream := do
  let (_, dat) ← pmelfGetscn elfi shdr 0 0
  orStop (elfo.swrite (dat.take shdr.sh_size.toNat))

/-- What `pmelf_copy_symtab` writes. -/
def writeSymtab (big : Bool) (elfi : ElfStream) (ehdr : ElfEhdr c.bits) (shtab : Shtab c)
    (symtab : Symtab c) (null symsh strsh : ElfShdr c.bits) : Except ElfStop (List UInt8) := do
  let elfo := pmelfNewstrm [] false true
  let elfo ← orStop (c.putehdr big elfo (copyEhdr ehdr))
  let elfo ← orStop ((copyShdrs null symsh strsh).foldlM (c.putshdr big) elfo)
  let elfo ← orStop (elfo.swrite [0])
  let elfo ← orStop (elfo.swrite shstrtabStr)
  let elfo ← orStop (elfo.swrite symtabStr)
  let elfo ← orStop (elfo.swrite strtabStr)
  let syms ← absSyms shtab.nshdrs 0 symtab.syms
  let elfo ← putSyms big 0 elfo syms
  let elfo ← cpyscn elfi elfo strsh
  return elfo.file

/-- The part of `pmelf_copy_symtab` behind the header. -/
def copyClass (big : Bool) (elfi : ElfStream) (ehdr : ElfEhdr c.bits) :
    Except ElfStop (List UInt8) := do
  let (elfi, shtab) ← pmelfGetshtab big elfi ehdr
  let (elfi, symtab) ← pmelfGetsymtab big elfi shtab
  let (elfi, _, symsh) ← pmelfFindSymhdrs elfi shtab
  match shtab.shdrs[0]? with
  | none => .error .outside
  | some null =>
    let strsh ← shtabN big shtab symsh.sh_link.toNat
    writeSymtab big elfi ehdr shtab symtab null symsh strsh

/-- `pmelf_copy_symtab` for a file with the bytes `ifile`: the file that it writes. -/
def pmelfCopySymtab (big : Bool) (ifile : List UInt8) : Except ElfStop (List UInt8) := do
  let (elfi, hdr) ← orStop (pmelfGetehdr big (pmelfNewstrm ifile true false))
  hdr.run fun _ ehdr => copyClass big elfi ehdr

/-- The tables of a file. -/
structure ElfTables where
  clss : ElfClass
  shtab : Shtab clss
  symtab : Symtab clss

def loadClass (big : Bool) (s : ElfStream) (ehdr : ElfEhdr c.bits) : Except ElfStop ElfTables := do
  let (s, shtab) ← pmelfGetshtab big s ehdr
  let (_, symtab) ← pmelfGetsymtab big s shtab
  return ⟨c, shtab, symtab⟩

/-- Reading the symbol table of a file. -/
def loadTables (big : Bool) (file : List UInt8) : Except ElfStop ElfTables := do
  let (s, hdr) ← orStop (pmelfGetehdr big (pmelfNewstrm file true false))
  hdr.run fun _ ehdr => loadClass big s ehdr

end Cexp
