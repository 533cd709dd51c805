import Cexp.Pmelf.Records

/-!
# Reading and writing records

The routines that read and write the records of ELF files on a stream. The stream knows if the
words of the file have to be swapped; a put routine swaps a copy of the record. Files are written and
read without I/O errors, and `off_t` and `unsigned long` have 64 bits.
-/

namespace Cexp

open CLib CLib.Image

/-! ## Streams -/

/-- What the routines complain about; `quiet` is an error without a message. -/
inductive ElfError where
  | quiet
  /-- not an ELF file -/
  | notElf
  /-- not an 64-bit ELF file -/
  | not64
  /-- not an 32-bit ELF file -/
  | not32
  /-- not a version 1 ELF file -/
  | notVersion
  /-- SH size mismatch -/
  | shSize (v : BitVec 16)
  /-- PH size mismatch -/
  | phSize (v : BitVec 16)
  /-- shstrndx out of bounds -/
  | shstrndx
  /-- not a 32/64-bit ELF file -/
  | notClass
  /-- machine type not supported -/
  | machine (v : BitVec 16)
  /-- invalid offset/length (too large) -/
  | scnLength
  /-- requested area not entirely within section -/
  | scnArea
  /-- unable to seek to a section -/
  | scnSeek
  /-- unable to read a section -/
  | scnRead
  /-- symtab section name out of bounds -/
  | symtabName
  /-- multiple symtabs -/
  | symtabs
  /-- zero size symtab -/
  | symtabZero
  /-- symbol size mismatch -/
  | symbolSize (sh_entsize : Nat)
  /-- size of symtab not a multiple of that of a symbol -/
  | symtabSize
  /-- unable to seek to symtab -/
  | symtabSeek
  /-- symtab with 0 elements -/
  | symtabEmpty
  /-- unable to read symbol -/
  | symbol
  /-- relocation section entsize mismatch -/
  | relEntsize (entsz sh_entsize : Nat)
  /-- relocation section size not a multiple of that of an entry -/
  | relSize (entsz : Nat)
  /-- relocation section has no entries -/
  | relEmpty
  deriving DecidableEq, Repr

/-- `struct _Elf_Stream` and the file behind it. -/
structure ElfStream where
  file : List UInt8
  pos : Nat
  readable : Bool
  writable : Bool
  machine : BitVec 16
  needswap : Bool
  clss : UInt8
  deriving DecidableEq

/-- A new stream. -/
def pmelfNewstrm (file : List UInt8) (readable writable : Bool) : ElfStream :=
  ⟨file, 0, readable, writable, 0, false, 0⟩

namespace ElfStream

/-- `SREAD` of `n` bytes, all of them or none. -/
def sread (s : ElfStream) (n : Nat) : Except ElfError (List UInt8 × ElfStream) :=
  if n = 0 ∨ s.readable ∧ s.pos + n ≤ s.file.length then
    .ok ((s.file.drop s.pos).take n, { s with pos := s.pos + n })
  else .error .quiet

/-- The file with `data` at the position `pos`. -/
def overwrite (file : List UInt8) (pos : Nat) : List UInt8 → List UInt8
  | [] => file
  | b :: data => file.take pos ++ List.replicate (pos - file.length) 0 ++ b :: data ++
      file.drop (pos + data.length + 1)

/-- `SWRITE` -/
def swrite (s : ElfStream) (data : List UInt8) : Except ElfError ElfStream :=
  if s.writable then
    .ok { s with file := overwrite s.file s.pos data, pos := s.pos + data.length }
  else .error .quiet

/-- `pmelf_seek`: no `off_t` is negative. -/
def seek (s : ElfStream) (where_ : Nat) : Except ElfError ElfStream :=
  if where_ < 2 ^ 63 then .ok { s with pos := where_ } else .error .quiet

end ElfStream

/-! ## Records -/

/-- The records of a put routine: the caller's one and its own, and if the pointer that it was given
points at its own by now. -/
structure PutRecords (α : Type) where
  caller : α
  own : α
  atOwn : Bool

namespace PutRecords

variable {α : Type}

def deref (r : PutRecords α) : α := if r.atOwn then r.own else r.caller

def modify (r : PutRecords α) (f : α → α) : PutRecords α :=
  if r.atOwn then { r with own := f r.own } else { r with caller := f r.caller }

end PutRecords

section

variable {α : Type}

/-- The common part of the put routines. It returns the caller's record, too. -/
def putRecord (img : Image α) (swap : α → α) (s : ElfStream) (p own : α) :
    Except ElfError ElfStream × α :=
  let r : PutRecords α := ⟨p, own, false⟩
  let r := if s.needswap then
      let r := { r with own := r.deref }
      let r := { r with atOwn := true }
      r.modify swap
    else r
  (s.swrite (img.write r.deref), r.caller)

/-- The common part of the get routines. -/
def getRecord (img : Image α) (swap : α → α) (s : ElfStream) : Except ElfError (ElfStream × α) := do
  let (b, s) ← s.sread img.size
  let r := img.read b
  return (s, if s.needswap then swap r else r)

end

/-! In the routines, `big` is the byte order of the host and `own` is what is in the local record
before it is written. -/

def pmelfPutshdr32 (big : Bool) (s : ElfStream) (pshdr own : Elf32Shdr) :
    Except ElfError ElfStream × Elf32Shdr :=
  putRecord (Elf32Shdr.image big) Elf32Shdr.putSwap s pshdr own

def pmelfPutshdr64 (big : Bool) (s : ElfStream) (pshdr own : Elf64Shdr) :
    Except ElfError ElfStream × Elf64Shdr :=
  putRecord (Elf64Shdr.image big) Elf64Shdr.putSwap s pshdr own

def pmelfPutsym32 (big : Bool) (s : ElfStream) (psym own : Elf32Sym) :
    Except ElfError ElfStream × Elf32Sym :=
  putRecord (Elf32Sym.image big) Elf32Sym.putSwap s psym own

def pmelfPutsym64 (big : Bool) (s : ElfStream) (psym own : Elf64Sym) :
    Except ElfError ElfStream × Elf64Sym :=
  putRecord (Elf64Sym.image big) Elf64Sym.putSwap s psym own

def pmelfGetshdr32 (big : Bool) (s : ElfStream) : Except ElfError (ElfStream × Elf32Shdr) :=
  getRecord (Elf32Shdr.image big) Elf32Shdr.getSwap s

def pmelfGetshdr64 (big : Bool) (s : ElfStream) : Except ElfError (ElfStream × Elf64Shdr) :=
  getRecord (Elf64Shdr.image big) Elf64Shdr.getSwap s

def pmelfGetsym32 (big : Bool) (s : ElfStream) : Except ElfError (ElfStream × Elf32Sym) :=
  getRecord (Elf32Sym.image big) Elf32Sym.getSwap s

def pmelfGetsym64 (big : Bool) (s : ElfStream) : Except ElfError (ElfStream × Elf64Sym) :=
  getRecord (Elf64Sym.image big) Elf64Sym.getSwap s

/-! ## Headers -/

def EI_CLASS : Nat := 4
def EI_DATA : Nat := 5
def EI_VERSION : Nat := 6

/-- `ELFMAG0` to `ELFMAG3` -/
def ELFMAG : List UInt8 := [0x7f, 69, 76, 70]

def ELFCLASS32 : UInt8 := 1
def ELFCLASS64 : UInt8 := 2
def ELFDATA2LSB : UInt8 := 1
def EV_CURRENT : UInt8 := 1

/-- `e_ident[i]` -/
def identAt (e_ident : ElfIdent) (i : Nat) : UInt8 := e_ident.val.getD i 0

/-- The machines that are supported: SPARC, 386, 68K, PPC and X86_64. -/
def supportedMachines : List (BitVec 16) := [2, 3, 4, 20, 62]

/-- `iamlsb() ^ (e_ident[EI_DATA] == ELFDATA2LSB ? 1 : 0)` -/
def needswapOf (big : Bool) (e_ident : ElfIdent) : Bool :=
  !big != (identAt e_ident EI_DATA == ELFDATA2LSB)

/-- The common part of `pmelf_putehdr32` and `pmelf_putehdr64`. -/
def putehdr {w : Nat} (big : Bool) (clss : UInt8) (other : ElfError)
    (put : ElfStream → ElfEhdr w → ElfEhdr w → Except ElfError ElfStream × ElfEhdr w)
    (s : ElfStream) (pehdr own : ElfEhdr w) : Except ElfError ElfStream × ElfEhdr w :=
  if pehdr.e_ident.val.take 4 ≠ ELFMAG then (.error .notElf, pehdr)
  else if identAt pehdr.e_ident EI_CLASS ≠ clss then (.error other, pehdr)
  else if identAt pehdr.e_ident EI_VERSION ≠ EV_CURRENT then (.error .notVersion, pehdr)
  else put { s with needswap := needswapOf big pehdr.e_ident } pehdr own

def pmelfPutehdr32 (big : Bool) : ElfStream → Elf32Ehdr → Elf32Ehdr →
    Except ElfError ElfStream × Elf32Ehdr :=
  putehdr big ELFCLASS32 .not32 (putRecord (Elf32Ehdr.image big) Elf32Ehdr.putSwap)

def pmelfPutehdr64 (big : Bool) : ElfStream → Elf64Ehdr → Elf64Ehdr →
    Except ElfError ElfStream × Elf64Ehdr :=
  putehdr big ELFCLASS64 .not64 (putRecord (Elf64Ehdr.image big) Elf64Ehdr.putSwap)

/-- `Elf_Ehdr` -/
inductive ElfHdr where
  | e32 (r : Elf32Ehdr)
  | e64 (r : Elf64Ehdr)
  deriving DecidableEq

/-- The checks of `getehdr32_top` and `getehdr64_top`; `shdrsz` and `phdrsz` are the sizes of section
and program headers. -/
def checkTop {w : Nat} (shdrsz phdrsz : Nat) (r : ElfEhdr w) : Except ElfError Unit :=
  if 0 < r.e_shnum.toNat ∧ r.e_shentsize.toNat ≠ shdrsz then .error (.shSize r.e_shentsize)
  else if 0 < r.e_phnum.toNat ∧ r.e_phentsize.toNat ≠ phdrsz then .error (.phSize r.e_phentsize)
  else if 0 < r.e_shnum.toNat ∧ (r.e_shstrndx.toNat = 0 ∨ r.e_shnum.toNat ≤ r.e_shstrndx.toNat) then
    .error .shstrndx
  else .ok ()

/-- The common part of `getehdr32_top` and `getehdr64_top`: the rest of a header, behind
`e_ident`. -/
def getehdrTop {w : Nat} (img : Image (ElfEhdr w)) (swap : ElfEhdr w → ElfEhdr w)
    (shdrsz phdrsz : Nat) (s : ElfStream) (e_ident : ElfIdent) :
    Except ElfError (ElfStream × ElfEhdr w) := do
  let (b, s) ← s.sread (img.size - EI_NIDENT)
  let r := img.read (e_ident.val ++ b)
  let r := if s.needswap then swap r else r
  checkTop shdrsz phdrsz r
  return (s, r)

def getehdr32Top (big : Bool) : ElfStream → ElfIdent → Except ElfError (ElfStream × Elf32Ehdr) :=
  getehdrTop (Elf32Ehdr.image big) Elf32Ehdr.getSwap 40 32

def getehdr64Top (big : Bool) : ElfStream → ElfIdent → Except ElfError (ElfStream × Elf64Ehdr) :=
  getehdrTop (Elf64Ehdr.image big) Elf64Ehdr.getSwap 64 56

/-- The part of `pmelf_getehdr` for the class of the file. -/
def getehdrClass (big : Bool) (s : ElfStream) (e_ident : ElfIdent) :
    Except ElfError (ElfStream × ElfHdr) :=
  if s.clss = ELFCLASS32 then do
    let (s, r) ← getehdr32Top big s e_ident
    return ({ s with machine := r.e_machine }, .e32 r)
  else if s.clss = ELFCLASS64 then do
    let (s, r) ← getehdr64Top big s e_ident
    return ({ s with machine := r.e_machine }, .e64 r)
  else .error .notClass

def pmelfGetehdr (big : Bool) (s : ElfStream) : Except ElfError (ElfStream × ElfHdr) := do
  let s ← s.seek 0
  let (b, s) ← s.sread EI_NIDENT
  let e_ident := (Image.bytes EI_NIDENT).read b
  if e_ident.val.take 4 ≠ ELFMAG then .error .notElf
  else if identAt e_ident EI_VERSION ≠ EV_CURRENT then .error .notVersion
  else
    let s := { s with needswap := needswapOf big e_ident, clss := identAt e_ident EI_CLASS }
    let (s, hdr) ← getehdrClass big s e_ident
    if s.machine ∈ supportedMachines then return (s, hdr) else .error (.machine s.machine)

end Cexp
