import Cexp.Lib.Image
import Cexp.Pmelf.Bytes

/-!
# Records of ELF files

The header, the section headers and the symbols of ELF files of both classes. They have no padding;
in memory their words are in the byte order of the host. Of each record the routines that write it
and those that read it list the fields to be swapped; either way the swapped record has the image of
the record in the other byte order.
-/

namespace Cexp

open CLib CLib.Image

/-! ## Swap helpers -/

def elfSwah (v : Nat) : Nat :=
  (elfSwab (v >>> 16 % 2 ^ 16) ||| elfSwab (v &&& 0xffff) <<< 16) % 2 ^ 32

def elfSwap16 (p : Nat) : Nat := elfSwab p

def elfSwap64 (p : Nat) : Nat :=
  (elfSwah (p % 2 ^ 32) <<< 32 ||| elfSwah (p >>> 32 % 2 ^ 32)) % 2 ^ 64

/-- Two words that are shifted together. -/
theorem shift_or {k lo hi : Nat} (hlo : lo < 2 ^ k) (hhi : hi < 2 ^ k) :
    (hi <<< k ||| lo) % 2 ^ (k + k) = lo + 2 ^ k * hi := by
  have hlt : 2 ^ k * hi + lo < 2 ^ (k + k) := by
    have hmul : 2 ^ k * (hi + 1) ≤ 2 ^ k * 2 ^ k := Nat.mul_le_mul_left _ hhi
    rw [Nat.pow_add]
    rw [Nat.mul_succ] at hmul
    omega
  rw [Nat.shiftLeft_eq, Nat.mul_comm, ← Nat.two_pow_add_eq_or_of_lt hlo, Nat.mod_eq_of_lt hlt,
    Nat.add_comm]

theorem reverses_elfSwab : Reverses 2 elfSwab := by
  refine reverses_halves (n := 1) (f := id) ?_ fun lo hi hlo hhi => ?_
  · intro l hl
    obtain ⟨b, rfl⟩ := List.length_eq_one_iff.mp hl
    rfl
  · exact elfSwab_eq hlo hhi

theorem elfSwab_lt {v : Nat} : elfSwab v < 2 ^ 16 := Nat.mod_lt _ (Nat.two_pow_pos 16)

theorem reverses_elfSwap32 : Reverses 4 elfSwap32 := by
  apply reverses_halves reverses_elfSwab
  intro lo hi hlo hhi
  have hmod : (lo + 256 ^ 2 * hi) % 2 ^ 16 = lo := by omega
  have hdiv : (lo + 256 ^ 2 * hi) >>> 16 % 2 ^ 16 = hi := by
    rw [Nat.shiftRight_eq_div_pow]
    omega
  rw [elfSwap32, hmod, hdiv]
  exact shift_or (k := 16) elfSwab_lt elfSwab_lt

theorem elfSwah_eq (v : Nat) : elfSwah v = elfSwap32 v := by
  rw [elfSwah, elfSwap32, Nat.and_two_pow_sub_one_eq_mod v 16, Nat.or_comm]

theorem elfSwah_lt {v : Nat} : elfSwah v < 2 ^ 32 := Nat.mod_lt _ (Nat.two_pow_pos 32)

theorem reverses_elfSwah : Reverses 4 elfSwah := by
  intro l hl
  rw [elfSwah_eq, reverses_elfSwap32 l hl]

theorem reverses_elfSwap64 : Reverses 8 elfSwap64 := by
  apply reverses_halves reverses_elfSwah
  intro lo hi hlo hhi
  have hmod : (lo + 256 ^ 4 * hi) % 2 ^ 32 = lo := by omega
  have hdiv : (lo + 256 ^ 4 * hi) >>> 32 % 2 ^ 32 = hi := by
    rw [Nat.shiftRight_eq_div_pow]
    omega
  rw [elfSwap64, hmod, hdiv]
  exact shift_or (k := 32) elfSwah_lt elfSwah_lt

/-! ## Records -/

def EI_NIDENT : Nat := 16

/-- `e_ident` -/
abbrev ElfIdent := {l : List UInt8 // l.length = EI_NIDENT}

/-- The headers of both classes, with addresses of `w` bits. -/
structure ElfEhdr (w : Nat) where
  e_ident : ElfIdent
  e_type : BitVec 16
  e_machine : BitVec 16
  e_version : BitVec 32
  e_entry : BitVec w
  e_phoff : BitVec w
  e_shoff : BitVec w
  e_flags : BitVec 32
  e_ehsize : BitVec 16
  e_phentsize : BitVec 16
  e_phnum : BitVec 16
  e_shentsize : BitVec 16
  e_shnum : BitVec 16
  e_shstrndx : BitVec 16
  deriving DecidableEq

structure ElfShdr (w : Nat) where
  sh_name : BitVec 32
  sh_type : BitVec 32
  sh_flags : BitVec w
  sh_addr : BitVec w
  sh_offset : BitVec w
  sh_size : BitVec w
  sh_link : BitVec 32
  sh_info : BitVec 32
  sh_addralign : BitVec w
  sh_entsize : BitVec w
  deriving DecidableEq

/-- The symbols of both classes; the order of the fields is not the same. -/
structure ElfSym (w : Nat) where
  st_name : BitVec 32
  st_value : BitVec w
  st_size : BitVec w
  st_info : UInt8
  st_other : UInt8
  st_shndx : BitVec 16
  deriving DecidableEq

abbrev Elf32Ehdr := ElfEhdr 32
abbrev Elf64Ehdr := ElfEhdr 64
abbrev Elf32Shdr := ElfShdr 32
abbrev Elf64Shdr := ElfShdr 64
abbrev Elf32Sym := ElfSym 32
abbrev Elf64Sym := ElfSym 64

/-! ## Images -/

def half (big : Bool) : Image (BitVec 16) := Image.word big 16 (Dvd.intro 2 rfl)

def word32 (big : Bool) : Image (BitVec 32) := Image.word big 32 (Dvd.intro 4 rfl)

def word64 (big : Bool) : Image (BitVec 64) := Image.word big 64 (Dvd.intro 8 rfl)

/-- The header, from the image of its addresses. -/
def ElfEhdr.image {w : Nat} (addr : Bool → Image (BitVec w)) (big : Bool) : Image (ElfEhdr w) :=
  ((Image.bytes EI_NIDENT).prod ((half big).prod ((half big).prod ((word32 big).prod
    ((addr big).prod ((addr big).prod ((addr big).prod ((word32 big).prod ((half big).prod
      ((half big).prod ((half big).prod ((half big).prod ((half big).prod (half big)))))))))))))).map
    (fun (a, b, c, d, e, f, g, h, i, j, k, l, m, n) => ⟨a, b, c, d, e, f, g, h, i, j, k, l, m, n⟩)
    (fun r => (r.e_ident, r.e_type, r.e_machine, r.e_version, r.e_entry, r.e_phoff, r.e_shoff,
      r.e_flags, r.e_ehsize, r.e_phentsize, r.e_phnum, r.e_shentsize, r.e_shnum, r.e_shstrndx))
    (fun _ => rfl) (fun _ => rfl)

def ElfShdr.image {w : Nat} (addr : Bool → Image (BitVec w)) (big : Bool) : Image (ElfShdr w) :=
  ((word32 big).prod ((word32 big).prod ((addr big).prod ((addr big).prod ((addr big).prod
    ((addr big).prod ((word32 big).prod ((word32 big).prod ((addr big).prod (addr big)))))))))).map
    (fun (a, b, c, d, e, f, g, h, i, j) => ⟨a, b, c, d, e, f, g, h, i, j⟩)
    (fun r => (r.sh_name, r.sh_type, r.sh_flags, r.sh_addr, r.sh_offset, r.sh_size, r.sh_link,
      r.sh_info, r.sh_addralign, r.sh_entsize))
    (fun _ => rfl) (fun _ => rfl)

def Elf32Ehdr.image : Bool → Image Elf32Ehdr := ElfEhdr.image word32

def Elf64Ehdr.image : Bool → Image Elf64Ehdr := ElfEhdr.image word64

def Elf32Shdr.image : Bool → Image Elf32Shdr := ElfShdr.image word32

def Elf64Shdr.image : Bool → Image Elf64Shdr := ElfShdr.image word64

def Elf32Sym.image (big : Bool) : Image Elf32Sym :=
  ((word32 big).prod ((word32 big).prod ((word32 big).prod
    (Image.u8.prod (Image.u8.prod (half big)))))).map
    (fun (a, b, c, d, e, f) => ⟨a, b, c, d, e, f⟩)
    (fun r => (r.st_name, r.st_value, r.st_size, r.st_info, r.st_other, r.st_shndx))
    (fun _ => rfl) (fun _ => rfl)

def Elf64Sym.image (big : Bool) : Image Elf64Sym :=
  ((word32 big).prod (Image.u8.prod (Image.u8.prod ((half big).prod
    ((word64 big).prod (word64 big)))))).map
    (fun (a, b, c, d, e, f) => ⟨a, e, f, b, c, d⟩)
    (fun r => (r.st_name, r.st_info, r.st_other, r.st_shndx, r.st_value, r.st_size))
    (fun _ => rfl) (fun _ => rfl)

/-! ## Lists of fields to be swapped -/

namespace Elf32Ehdr

/-- The list of `pmelf_putehdr32`. -/
def putSwap (pehdr : Elf32Ehdr) : Elf32Ehdr :=
  { pehdr with
    e_type := onWord elfSwap16 pehdr.e_type
    e_machine := onWord elfSwap16 pehdr.e_machine
    e_version := onWord elfSwap32 pehdr.e_version
    e_entry := onWord elfSwap32 pehdr.e_entry
    e_phoff := onWord elfSwap32 pehdr.e_phoff
    e_shoff := onWord elfSwap32 pehdr.e_shoff
    e_flags := onWord elfSwap32 pehdr.e_flags
    e_ehsize := onWord elfSwap16 pehdr.e_ehsize
    e_phentsize := onWord elfSwap16 pehdr.e_phentsize
    e_phnum := onWord elfSwap16 pehdr.e_phnum
    e_shentsize := onWord elfSwap16 pehdr.e_shentsize
    e_shnum := onWord elfSwap16 pehdr.e_shnum
    e_shstrndx := onWord elfSwap16 pehdr.e_shstrndx }

/-- The list of `getehdr32_top`. -/
def getSwap (pehdr : Elf32Ehdr) : Elf32Ehdr :=
  { pehdr with
    e_type := onWord elfSwap16 pehdr.e_type
    e_machine := onWord elfSwap16 pehdr.e_machine
    e_version := onWord elfSwap32 pehdr.e_version
    e_entry := onWord elfSwap32 pehdr.e_entry
    e_phoff := onWord elfSwap32 pehdr.e_phoff
    e_shoff := onWord elfSwap32 pehdr.e_shoff
    e_flags := onWord elfSwap32 pehdr.e_flags
    e_ehsize := onWord elfSwap16 pehdr.e_ehsize
    e_phentsize := onWord elfSwap16 pehdr.e_phentsize
    e_phnum := onWord elfSwap16 pehdr.e_phnum
    e_shentsize := onWord elfSwap16 pehdr.e_shentsize
    e_shnum := onWord elfSwap16 pehdr.e_shnum
    e_shstrndx := onWord elfSwap16 pehdr.e_shstrndx }

end Elf32Ehdr

namespace Elf64Ehdr

/-- The list of `pmelf_putehdr64`. -/
def putSwap (pehdr : Elf64Ehdr) : Elf64Ehdr :=
  { pehdr with
    e_type := onWord elfSwap16 pehdr.e_type
    e_machine := onWord elfSwap16 pehdr.e_machine
    e_version := onWord elfSwap32 pehdr.e_version
    e_entry := onWord elfSwap64 pehdr.e_entry
    e_phoff := onWord elfSwap64 pehdr.e_phoff
    e_shoff := onWord elfSwap64 pehdr.e_shoff
    e_flags := onWord elfSwap32 pehdr.e_flags
    e_ehsize := onWord elfSwap16 pehdr.e_ehsize
    e_phentsize := onWord elfSwap16 pehdr.e_phentsize
    e_phnum := onWord elfSwap16 pehdr.e_phnum
    e_shentsize := onWord elfSwap16 pehdr.e_shentsize
    e_shnum := onWord elfSwap16 pehdr.e_shnum
    e_shstrndx := onWord elfSwap16 pehdr.e_shstrndx }

/-- The list of `getehdr64_top`. -/
def getSwap (pehdr : Elf64Ehdr) : Elf64Ehdr :=
  { pehdr with
    e_type := onWord elfSwap16 pehdr.e_type
    e_machine := onWord elfSwap16 pehdr.e_machine
    e_version := onWord elfSwap32 pehdr.e_version
    e_entry := onWord elfSwap64 pehdr.e_entry
    e_phoff := onWord elfSwap64 pehdr.e_phoff
    e_shoff := onWord elfSwap64 pehdr.e_shoff
    e_flags := onWord elfSwap32 pehdr.e_flags
    e_ehsize := onWord elfSwap16 pehdr.e_ehsize
    e_phentsize := onWord elfSwap16 pehdr.e_phentsize
    e_phnum := onWord elfSwap16 pehdr.e_phnum
    e_shentsize := onWord elfSwap16 pehdr.e_shentsize
    e_shnum := onWord elfSwap16 pehdr.e_shnum
    e_shstrndx := onWord elfSwap16 pehdr.e_shstrndx }

end Elf64Ehdr

namespace Elf32Shdr

/-- The list of `pmelf_putshdr32`. -/
def putSwap (pshdr : Elf32Shdr) : Elf32Shdr where
  sh_name := onWord elfSwap32 pshdr.sh_name
  sh_type := onWord elfSwap32 pshdr.sh_type
  sh_flags := onWord elfSwap32 pshdr.sh_flags
  sh_addr := onWord elfSwap32 pshdr.sh_addr
  sh_offset := onWord elfSwap32 pshdr.sh_offset
  sh_size := onWord elfSwap32 pshdr.sh_size
  sh_link := onWord elfSwap32 pshdr.sh_link
  sh_info := onWord elfSwap32 pshdr.sh_info
  sh_addralign := onWord elfSwap32 pshdr.sh_addralign
  sh_entsize := onWord elfSwap32 pshdr.sh_entsize

/-- The list of `pmelf_getshdr32`. -/
def getSwap (pshdr : Elf32Shdr) : Elf32Shdr where
  sh_name := onWord elfSwap32 pshdr.sh_name
  sh_type := onWord elfSwap32 pshdr.sh_type
  sh_flags := onWord elfSwap32 pshdr.sh_flags
  sh_addr := onWord elfSwap32 pshdr.sh_addr
  sh_offset := onWord elfSwap32 pshdr.sh_offset
  sh_size := onWord elfSwap32 pshdr.sh_size
  sh_link := onWord elfSwap32 pshdr.sh_link
  sh_info := onWord elfSwap32 pshdr.sh_info
  sh_addralign := onWord elfSwap32 pshdr.sh_addralign
  sh_entsize := onWord elfSwap32 pshdr.sh_entsize

end Elf32Shdr

namespace Elf64Shdr

/-- The list of `pmelf_putshdr64`. -/
def putSwap (pshdr : Elf64Shdr) : Elf64Shdr where
  sh_name := onWord elfSwap32 pshdr.sh_name
  sh_type := onWord elfSwap32 pshdr.sh_type
  sh_flags := onWord elfSwap64 pshdr.sh_flags
  sh_addr := onWord elfSwap64 pshdr.sh_addr
  sh_offset := onWord elfSwap64 pshdr.sh_offset
  sh_size := onWord elfSwap64 pshdr.sh_size
  sh_link := onWord elfSwap32 pshdr.sh_link
  sh_info := onWord elfSwap32 pshdr.sh_info
  sh_addralign := onWord elfSwap64 pshdr.sh_addralign
  sh_entsize := onWord elfSwap64 pshdr.sh_entsize

/-- The list of `pmelf_getshdr64`. -/
def getSwap (pshdr : Elf64Shdr) : Elf64Shdr where
  sh_name := onWord elfSwap32 pshdr.sh_name
  sh_type := onWord elfSwap32 pshdr.sh_type
  sh_flags := onWord elfSwap64 pshdr.sh_flags
  sh_addr := onWord elfSwap64 pshdr.sh_addr
  sh_offset := onWord elfSwap64 pshdr.sh_offset
  sh_size := onWord elfSwap64 pshdr.sh_size
  sh_link := onWord elfSwap32 pshdr.sh_link
  sh_info := onWord elfSwap32 pshdr.sh_info
  sh_addralign := onWord elfSwap64 pshdr.sh_addralign
  sh_entsize := onWord elfSwap64 pshdr.sh_entsize

end Elf64Shdr

namespace Elf32Sym

/-- The list of `pmelf_putsym32`. -/
def putSwap (psym : Elf32Sym) : Elf32Sym :=
  { psym with
    st_name := onWord elfSwap32 psym.st_name
    st_value := onWord elfSwap32 psym.st_value
    st_size := onWord elfSwap32 psym.st_size
    st_shndx := onWord elfSwap16 psym.st_shndx }

/-- The list of `pmelf_getsym32`. -/
def getSwap (psym : Elf32Sym) : Elf32Sym :=
  { psym with
    st_name := onWord elfSwap32 psym.st_name
    st_value := onWord elfSwap32 psym.st_value
    st_size := onWord elfSwap32 psym.st_size
    st_shndx := onWord elfSwap16 psym.st_shndx }

end Elf32Sym

namespace Elf64Sym

/-- The list of `pmelf_putsym64`. -/
def putSwap (psym : Elf64Sym) : Elf64Sym :=
  { psym with
    st_name := onWord elfSwap32 psym.st_name
    st_value := onWord elfSwap64 psym.st_value
    st_size := onWord elfSwap64 psym.st_size
    st_shndx := onWord elfSwap16 psym.st_shndx }

/-- The list of `pmelf_getsym64`. -/
def getSwap (psym : Elf64Sym) : Elf64Sym :=
  { psym with
    st_name := onWord elfSwap32 psym.st_name
    st_shndx := onWord elfSwap16 psym.st_shndx
    st_value := onWord elfSwap64 psym.st_value
    st_size := onWord elfSwap64 psym.st_size }

end Elf64Sym

/-! ## The lists are complete -/

theorem flips_half : Flips half (onWord elfSwap16) := Flips.word _ reverses_elfSwab

theorem flips_word32 : Flips word32 (onWord elfSwap32) := Flips.word _ reverses_elfSwap32

theorem flips_word64 : Flips word64 (onWord elfSwap64) := Flips.word _ reverses_elfSwap64

section

variable {w : Nat} {addr : Bool → Image (BitVec w)} {swapAddr : BitVec w → BitVec w}

theorem ElfEhdr.flips (haddr : Flips addr swapAddr) {swap : ElfEhdr w → ElfEhdr w}
    (hswap : ∀ r, swap r = ⟨r.e_ident, onWord elfSwap16 r.e_type, onWord elfSwap16 r.e_machine,
      onWord elfSwap32 r.e_version, swapAddr r.e_entry, swapAddr r.e_phoff, swapAddr r.e_shoff,
      onWord elfSwap32 r.e_flags, onWord elfSwap16 r.e_ehsize, onWord elfSwap16 r.e_phentsize,
      onWord elfSwap16 r.e_phnum, onWord elfSwap16 r.e_shentsize, onWord elfSwap16 r.e_shnum,
      onWord elfSwap16 r.e_shstrndx⟩) : Flips (ElfEhdr.image addr) swap := by
  have htop := haddr.prod (haddr.prod (haddr.prod (flips_word32.prod (flips_half.prod
    (flips_half.prod (flips_half.prod (flips_half.prod (flips_half.prod flips_half))))))))
  have hrow := (Flips.const (Image.bytes EI_NIDENT)).prod (flips_half.prod (flips_half.prod
    (flips_word32.prod htop)))
  apply hrow.map
  intro r
  rw [hswap r]
  rfl

theorem ElfShdr.flips (haddr : Flips addr swapAddr) {swap : ElfShdr w → ElfShdr w}
    (hswap : ∀ r, swap r = ⟨onWord elfSwap32 r.sh_name, onWord elfSwap32 r.sh_type,
      swapAddr r.sh_flags, swapAddr r.sh_addr, swapAddr r.sh_offset, swapAddr r.sh_size,
      onWord elfSwap32 r.sh_link, onWord elfSwap32 r.sh_info, swapAddr r.sh_addralign,
      swapAddr r.sh_entsize⟩) : Flips (ElfShdr.image addr) swap := by
  have htail := flips_word32.prod (flips_word32.prod (haddr.prod haddr))
  have hrow := flips_word32.prod (flips_word32.prod (haddr.prod (haddr.prod (haddr.prod
    (haddr.prod htail)))))
  apply hrow.map
  intro r
  rw [hswap r]
  rfl

end

theorem Elf32Ehdr.flips_put : Flips (ElfEhdr.image word32) Elf32Ehdr.putSwap :=
  ElfEhdr.flips flips_word32 fun _ => rfl

theorem Elf32Ehdr.flips_get : Flips (ElfEhdr.image word32) Elf32Ehdr.getSwap :=
  ElfEhdr.flips flips_word32 fun _ => rfl

theorem Elf64Ehdr.flips_put : Flips (ElfEhdr.image word64) Elf64Ehdr.putSwap :=
  ElfEhdr.flips flips_word64 fun _ => rfl

theorem Elf64Ehdr.flips_get : Flips (ElfEhdr.image word64) Elf64Ehdr.getSwap :=
  ElfEhdr.flips flips_word64 fun _ => rfl

theorem Elf32Ehdr.size_image (big : Bool) : (ElfEhdr.image word32 big).size = 52 := by
  simp [ElfEhdr.image, half, word32, EI_NIDENT]

theorem Elf64Ehdr.size_image (big : Bool) : (ElfEhdr.image word64 big).size = 64 := by
  simp [ElfEhdr.image, half, word32, word64, EI_NIDENT]

theorem Elf32Shdr.size_image (big : Bool) : (Elf32Shdr.image big).size = 40 := by
  simp [Elf32Shdr.image, ElfShdr.image, word32]

theorem Elf64Shdr.size_image (big : Bool) : (Elf64Shdr.image big).size = 64 := by
  simp [Elf64Shdr.image, ElfShdr.image, word32, word64]

theorem Elf32Sym.size_image (big : Bool) : (Elf32Sym.image big).size = 16 := by
  simp [Elf32Sym.image, half, word32]

theorem Elf64Sym.size_image (big : Bool) : (Elf64Sym.image big).size = 24 := by
  simp [Elf64Sym.image, half, word32, word64]

theorem Elf32Shdr.flips_put : Flips Elf32Shdr.image Elf32Shdr.putSwap :=
  ElfShdr.flips flips_word32 fun _ => rfl

theorem Elf32Shdr.flips_get : Flips Elf32Shdr.image Elf32Shdr.getSwap :=
  ElfShdr.flips flips_word32 fun _ => rfl

theorem Elf64Shdr.flips_put : Flips Elf64Shdr.image Elf64Shdr.putSwap :=
  ElfShdr.flips flips_word64 fun _ => rfl

theorem Elf64Shdr.flips_get : Flips Elf64Shdr.image Elf64Shdr.getSwap :=
  ElfShdr.flips flips_word64 fun _ => rfl

theorem Elf32Sym.flips {swap : Elf32Sym → Elf32Sym}
    (hswap : ∀ r, swap r = Elf32Sym.putSwap r) : Flips Elf32Sym.image swap := by
  have hrow := flips_word32.prod (flips_word32.prod (flips_word32.prod
    ((Flips.const Image.u8).prod ((Flips.const Image.u8).prod flips_half))))
  apply hrow.map
  intro r
  rw [hswap r]
  rfl

theorem Elf64Sym.flips {swap : Elf64Sym → Elf64Sym}
    (hswap : ∀ r, swap r = Elf64Sym.putSwap r) : Flips Elf64Sym.image swap := by
  have hrow := flips_word32.prod ((Flips.const Image.u8).prod ((Flips.const Image.u8).prod
    (flips_half.prod (flips_word64.prod flips_word64))))
  apply hrow.map
  intro r
  rw [hswap r]
  rfl

end Cexp
