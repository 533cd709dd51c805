import Cexp.Pmelf.RoundTrip
import Cexp.Linker.Headers

/-!
# Section header tables and symbol tables

The routines that read the section headers and the symbols of an ELF file, for both classes of
files. Memory is always available; a run stops with an error, or where it reads outside of a table.
-/

namespace Cexp

open CLib CLib.Image

inductive ElfStop where
  | error (e : ElfError)
  /-- memory behind a table is read -/
  | outside
  /-- an `int` overflows -/
  | overflow
  deriving DecidableEq, Repr

/-- An error return of a routine for records. -/
def orStop {α : Type} (x : Except ElfError α) : Except ElfStop α := x.mapError .error

/-- Another message for an error. -/
def orError {α : Type} (e : ElfError) (x : Except ElfError α) : Except ElfStop α :=
  x.mapError fun _ => .error e

/-! ## Classes -/

inductive ElfClass where
  | c32
  | c64
  deriving DecidableEq, Repr

namespace ElfClass

/-- The size of addresses. -/
def bits : ElfClass → Nat
  | .c32 => 32
  | .c64 => 64

def ehdrsz : ElfClass → Nat
  | .c32 => 52
  | .c64 => 64

/-- `get_shdrsz` -/
def shdrsz : ElfClass → Nat
  | .c32 => 40
  | .c64 => 64

/-- `get_symsz` -/
def symsz : ElfClass → Nat
  | .c32 => 16
  | .c64 => 24

/-- Section headers in memory. -/
def shdrImage (c : ElfClass) (big : Bool) : Image (ElfShdr c.bits) :=
  match c with
  | .c32 => Elf32Shdr.image big
  | .c64 => Elf64Shdr.image big

def getshdr (c : ElfClass) (big : Bool) (s : ElfStream) :
    Except ElfError (ElfStream × ElfShdr c.bits) :=
  match c with
  | .c32 => pmelfGetshdr32 big s
  | .c64 => pmelfGetshdr64 big s

def getsym (c : ElfClass) (big : Bool) (s : ElfStream) :
    Except ElfError (ElfStream × ElfSym c.bits) :=
  match c with
  | .c32 => pmelfGetsym32 big s
  | .c64 => pmelfGetsym64 big s

end ElfClass

/-! ## Sections -/

variable {c : ElfClass}

/-- `pmelf_getscn`; a `len` of `0` stands for the whole section. -/
def pmelfGetscn (s : ElfStream) (psect : ElfShdr c.bits) (offset len : Nat) :
    Except ElfStop (ElfStream × List UInt8) := do
  let len := if len = 0 then psect.sh_size.toNat else len
  let last := (offset + len) % 2 ^ 64
  if last < offset ∨ last < len then .error (.error .scnLength)
  else if last > psect.sh_size.toNat then .error (.error .scnArea)
  else
    let s ← orError .scnSeek (s.seek ((psect.sh_offset.toNat + offset) % 2 ^ 64))
    let (data, s) ← orError .scnRead (s.sread len)
    return (s, data)

/-- The loops that slurp a number of records. -/
def slurp {α : Type} (get : ElfStream → Except ElfError (ElfStream × α)) :
    Nat → ElfStream → Except ElfError (ElfStream × List α)
  | 0, s => .ok (s, [])
  | n + 1, s => do
    let (s, r) ← get s
    let (s, l) ← slurp get n s
    return (s, r :: l)

/-- `Pmelf_Shtab` -/
structure Shtab (c : ElfClass) where
  shdrs : List (ElfShdr c.bits)
  strtab : List UInt8
  strtablen : Nat
  idx : Nat

def Shtab.nshdrs (shtab : Shtab c) : Nat := shtab.shdrs.length

def pmelfGetshtab (big : Bool) (s : ElfStream) (pehdr : ElfEhdr c.bits) :
    Except ElfStop (ElfStream × Shtab c) := do
  if pehdr.e_shnum.toNat = 0 then .error (.error .quiet)
  else
    let s ← orStop (s.seek pehdr.e_shoff.toNat)
    let (s, shdrs) ← orStop (slurp (c.getshdr big) pehdr.e_shnum.toNat s)
    match shdrs[pehdr.e_shstrndx.toNat]? with
    | none => .error .outside
    | some strsh =>
      let (s, strtab) ← pmelfGetscn s strsh 0 0
      return (s, ⟨shdrs, strtab, strsh.sh_size.toNat, pehdr.e_shstrndx.toNat⟩)

/-! ## Symbol table headers -/

def SHT_SYMTAB : BitVec 32 := 2

/-- `".symtab"` -/
def symtabName : List UInt8 := [46, 115, 121, 109, 116, 97, 98]

/-- If `strcmp` finds the string `des` in a buffer; it does not read on behind a difference. -/
def strcmpEq : List UInt8 → List UInt8 → Except ElfStop Bool
  | _, [] => .error .outside
  | [], b :: _ => .ok (b = 0)
  | d :: des, b :: buf => if d = b then strcmpEq des buf else .ok false

/-- `pmelf_sec_name`: the buffer from the name on. -/
def pmelfSecName (shtab : Shtab c) (shdr : ElfShdr c.bits) : Option (List UInt8) :=
  if shdr.sh_name.toNat > shtab.strtablen then none
  else some (shtab.strtab.drop shdr.sh_name.toNat)

/-- The header that `get_shtabN` points at: the offset has 32 bits. -/
def shtabN (big : Bool) (shtab : Shtab c) (idx : Nat) : Except ElfStop (ElfShdr c.bits) :=
  let off := idx * c.shdrsz % 2 ^ 32
  let raw := shtab.shdrs.flatMap (c.shdrImage big).write
  if off + c.shdrsz ≤ raw.length then
    .ok ((c.shdrImage big).read ((raw.drop off).take c.shdrsz))
  else .error .outside

/-- The loop of `_pmelf_find_symhdrs`. -/
def findSymsh (shtab : Shtab c) : Option (ElfShdr c.bits) → List (ElfShdr c.bits) →
    Except ElfStop (Option (ElfShdr c.bits))
  | symsh, [] => .ok symsh
  | symsh, shdr :: shdrs =>
    if shdr.sh_type = SHT_SYMTAB then
      match pmelfSecName shtab shdr with
      | none => .error (.error .symtabName)
      | some name => do
        if ← strcmpEq symtabName name then
          if symsh.isSome then .error (.error .symtabs) else findSymsh shtab (some shdr) shdrs
        else findSymsh shtab symsh shdrs
    else findSymsh shtab symsh shdrs

/-- `pmelf_find_symhdrs`: the number of symbols and the header of the symbol table, whose `sh_link`
tells where that of the string table is. The stream is at the first symbol. -/
def pmelfFindSymhdrs (s : ElfStream) (shtab : Shtab c) :
    Except ElfStop (ElfStream × Nat × ElfShdr c.bits) := do
  match ← findSymsh shtab none shtab.shdrs with
  | none => .error (.error .quiet)
  | some symsh =>
    if symsh.sh_size.toNat = 0 then .error (.error .symtabZero)
    else if symsh.sh_entsize.toNat ≠ 0 ∧ symsh.sh_entsize.toNat ≠ c.symsz then
      .error (.error (.symbolSize symsh.sh_entsize.toNat))
    else if symsh.sh_size.toNat % c.symsz ≠ 0 then .error (.error .symtabSize)
    else
      let s ← orError .symtabSeek (s.seek symsh.sh_offset.toNat)
      return (s, symsh.sh_size.toNat / c.symsz, symsh)

/-! ## Symbol tables -/

/-- `Pmelf_Symtab` -/
structure Symtab (c : ElfClass) where
  syms : List (ElfSym c.bits)
  strtab : List UInt8
  strtablen : Nat

def Symtab.nsyms (symtab : Symtab c) : Nat := symtab.syms.length

def pmelfGetsymtab (big : Bool) (s : ElfStream) (shtab : Shtab c) :
    Except ElfStop (ElfStream × Symtab c) := do
  let (s, nsyms, symsh) ← pmelfFindSymhdrs s shtab
  if nsyms = 0 then .error (.error .symtabEmpty)
  else
    let (s, syms) ← orError .symbol (slurp (c.getsym big) nsyms s)
    let strsh ← shtabN big shtab symsh.sh_link.toNat
    let (s, strtab) ← pmelfGetscn s strsh 0 0
    return (s, ⟨syms, strtab, strsh.sh_size.toNat⟩)

/-- The string at the beginning of a buffer. -/
def cstring : List UInt8 → Except ElfStop (List UInt8)
  | [] => .error .outside
  | b :: buf => if b = 0 then .ok [] else (cstring buf).map (b :: ·)

/-- `pmelf_sym_name`, and the string that it points at. -/
def symName (symtab : Symtab c) (sym : ElfSym c.bits) : Except ElfStop (Option (List UInt8)) :=
  if sym.st_name.toNat > symtab.strtablen then .ok none
  else (cstring (symtab.strtab.drop sym.st_name.toNat)).map some

end Cexp
