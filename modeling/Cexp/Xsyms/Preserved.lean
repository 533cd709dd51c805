import Cexp.Xsyms.SymtabFile

/-!
# The copied symbols

The symbols that are read back from the file that `pmelf_copy_symtab` writes, and when they are the
ones that were read from the other file.
-/

namespace Cexp

open CLib CLib.Image

variable {c : ElfClass} {big : Bool}

/-! ## What is copied -/

/-- The symbols of real sections are absolute, and everything else is as it was. -/
structure SameSymbol (nshdrs : Nat) (symtab symtab' : Symtab c) (sym sym' : ElfSym c.bits) :
    Prop where
  name : symName symtab' sym' = symName symtab sym
  value : sym'.st_value = sym.st_value
  size : sym'.st_size = sym.st_size
  info : sym'.st_info = sym.st_info
  other : sym'.st_other = sym.st_other
  shndx : sym'.st_shndx =
    if sym.st_shndx.toNat ≠ SHN_UNDEF ∧ sym.st_shndx.toNat < nshdrs then BitVec.ofNat 16 SHN_ABS
    else sym.st_shndx

/-- The symbols of a file are read back from its copy, in the same order. -/
def Preserves (big : Bool) (ifile : List UInt8) (shtab : Shtab c) (symtab : Symtab c) : Prop :=
  ∃ ofile shtab' symtab', pmelfCopySymtab big ifile = .ok ofile ∧
    loadTables big ofile = .ok ⟨c, shtab', symtab'⟩ ∧
    List.Forall₂ (SameSymbol shtab.nshdrs symtab symtab') symtab.syms symtab'.syms

/-- An `int` counts the symbols, the first section header is no symbol table's, and the strings
behind the symbols have an offset. -/
structure Copyable (shtab : Shtab c) (symtab : Symtab c) : Prop where
  nsyms : symtab.nsyms < 2 ^ 31
  first : ∀ null, shtab.shdrs[0]? = some null → null.NotSymtab
  offset : c.symsOffset + symtab.nsyms * c.symsz < 2 ^ c.bits

/-! ## Copying what was read -/

theorem findSymsh_type {shtab : Shtab c} {shdrs : List (ElfShdr c.bits)}
    {acc : Option (ElfShdr c.bits)} {symsh : ElfShdr c.bits}
    (hacc : ∀ shdr, acc = some shdr → shdr.sh_type = SHT_SYMTAB)
    (h : findSymsh shtab acc shdrs = .ok (some symsh)) : symsh.sh_type = SHT_SYMTAB := by
  induction shdrs generalizing acc with
  | nil => exact hacc symsh (Except.ok.inj h)
  | cons shdr shdrs ih =>
    rw [findSymsh] at h
    split at h
    · rename_i htype
      split at h
      · cases h
      · obtain ⟨found, -, h⟩ := bind_eq_ok.mp h
        split at h
        · split at h
          · cases h
          · apply ih _ h
            intro shdr' hshdr
            rw [← Option.some.inj hshdr]
            exact htype
        · exact ih hacc h
    · exact ih hacc h

/-- What a file was read from, and what is written for it. -/
structure CopiedFrom (big : Bool) (ifile : List UInt8) (shtab : Shtab c) (symtab : Symtab c)
    (r : ElfEhdr c.bits) (null symsh strsh : ElfShdr c.bits) : Prop where
  accepted : r.Accepted c.ident
  consistent : r.Consistent c.shdrsz c.phdrsz
  shnum : 0 < r.e_shnum.toNat
  describes : Describes symsh strsh symtab.syms symtab.strtab
  strtablen : symtab.strtablen = strsh.sh_size.toNat
  first : shtab.shdrs[0]? = some null
  copy : pmelfCopySymtab big ifile =
    if symtab.nsyms < 2 ^ 31 then
      .ok (symtabFile big r null symsh strsh (symtab.syms.map (absSym shtab.nshdrs)) symtab.strtab)
    else .error .overflow

theorem copiedFrom {ifile : List UInt8} {shtab : Shtab c} {symtab : Symtab c}
    (h : loadTables big ifile = .ok ⟨c, shtab, symtab⟩) :
    ∃ r null symsh strsh, CopiedFrom big ifile shtab symtab r null symsh strsh := by
  obtain ⟨⟨s₁, hdr⟩, hehdr, h⟩ := bind_eq_ok.mp h
  obtain ⟨c', r, rfl⟩ := ElfClass.exists_wrap hdr
  dsimp only at h
  rw [ElfHdr.run_wrap] at h
  obtain ⟨⟨s₂, shtab'⟩, hshtab, h⟩ := bind_eq_ok.mp h
  obtain ⟨⟨s₃, symtab'⟩, hsymtab, h⟩ := bind_eq_ok.mp h
  cases h
  obtain ⟨hacc, hcons, -⟩ := ElfClass.getehdr_inv rfl (orStop_eq_ok.mp hehdr)
  obtain ⟨-, hnum, hlen⟩ := pmelfGetshtab_inv hshtab
  obtain ⟨hmoved, symsh, strsh, hread⟩ := pmelfGetsymtab_inv hsymtab
  have hfirst : 0 < shtab.shdrs.length := hlen ▸ hnum
  have hnull := List.getElem?_eq_getElem hfirst
  have hfind := pmelfFindSymhdrs_ok (s := s₃) hread.find hread.holds hread.offset
  have htype : symsh.sh_type = SHT_SYMTAB := by
    apply findSymsh_type _ hread.find
    intro shdr hshdr
    cases hshdr
  obtain ⟨s₄, hscn⟩ := hread.strtab { s₃ with pos := symsh.sh_offset.toNat } hmoved.file
    hmoved.readable
  refine ⟨r, shtab.shdrs[0], symsh, strsh, hacc, hcons, hnum,
    ⟨htype, hread.holds, hread.nsyms, hread.length⟩, hread.strtablen, hnull, ?_⟩
  rw [pmelfCopySymtab, hehdr, ok_bind]
  dsimp only
  rw [ElfHdr.run_wrap, copyClass, hshtab, ok_bind]
  dsimp only
  rw [hsymtab, ok_bind]
  dsimp only
  rw [hfind, ok_bind]
  dsimp only
  rw [hnull]
  dsimp only
  rw [hread.link, ok_bind]
  by_cases hnsyms : symtab.nsyms < 2 ^ 31
  · rw [if_pos hnsyms]
    exact writeSymtab_ok hacc hnsyms hscn hread.length
  · rw [if_neg hnsyms]
    exact writeSymtab_overflow hacc (not_lt.mp hnsyms)

/-! ## Reading the copy -/

theorem absSym_same {nshdrs : Nat} {symtab symtab' : Symtab c}
    (hstrtab : symtab'.strtab = symtab.strtab) (hlen : symtab'.strtablen = symtab.strtablen)
    (sym : ElfSym c.bits) :
    SameSymbol nshdrs symtab symtab' sym (absSym nshdrs sym) := by
  have hname : (absSym nshdrs sym).st_name = sym.st_name := by
    rw [absSym]
    split <;> rfl
  refine ⟨?_, ?_, ?_, ?_, ?_, ?_⟩
  · rw [symName, symName, hname, hstrtab, hlen]
  · rw [absSym]
    split <;> rfl
  · rw [absSym]
    split <;> rfl
  · rw [absSym]
    split <;> rfl
  · rw [absSym]
    split <;> rfl
  · rw [absSym]
    split <;> rfl

variable {ifile : List UInt8} {shtab : Shtab c} {symtab : Symtab c}

/-- Offsets of a file with less than `2 ^ 31` symbols can be sought. -/
theorem Copyable.seek (h : Copyable shtab symtab) :
    c.symsOffset + symtab.nsyms * c.symsz < 2 ^ 63 := by
  have hnsyms := h.nsyms
  have hoff := h.offset
  cases c with
  | c32 => exact hoff.trans (Nat.pow_lt_pow_right Nat.one_lt_two (by decide))
  | c64 =>
    change 64 + 4 * 64 + 27 + symtab.nsyms * 24 < 2 ^ 63
    omega

theorem Copyable.preserves (h : Copyable shtab symtab)
    (hload : loadTables big ifile = .ok ⟨c, shtab, symtab⟩) : Preserves big ifile shtab symtab := by
  obtain ⟨r, null, symsh, strsh, hfrom⟩ := copiedFrom hload
  have hdesc := hfrom.describes
  have hseek := h.seek
  have hfits := h.offset
  rw [Symtab.nsyms, hdesc.nsyms] at hseek hfits
  have hmap : Describes symsh strsh (symtab.syms.map (absSym shtab.nshdrs)) symtab.strtab := by
    refine ⟨hdesc.type, hdesc.holds, ?_, hdesc.strtab⟩
    rw [List.length_map]
    exact hdesc.nsyms
  have hback := loadTables_copy_ok big hfrom.accepted hfrom.consistent hfrom.shnum hmap
    (h.first null hfrom.first) hfits hseek
  have hcopy := hfrom.copy
  rw [if_pos h.nsyms] at hcopy
  refine ⟨_, _, _, hcopy, hback, ?_⟩
  apply List.forall₂_map_right_iff.mpr
  apply List.forall₂_same.mpr
  intro sym _
  apply absSym_same
  · rfl
  · exact hfrom.strtablen.symm

/-- What a copy that can be read tells about the symbols. -/
theorem preserves_inv (hload : loadTables big ifile = .ok ⟨c, shtab, symtab⟩)
    (h : Preserves big ifile shtab symtab) :
    symtab.nsyms < 2 ^ 31 ∧ ∀ null, shtab.shdrs[0]? = some null → null.NotSymtab := by
  obtain ⟨r, null, symsh, strsh, hfrom⟩ := copiedFrom hload
  obtain ⟨ofile, shtab', symtab', hcopy, hback, -⟩ := h
  rw [hfrom.copy] at hcopy
  split at hcopy
  · rename_i hnsyms
    cases hcopy
    refine ⟨hnsyms, ?_⟩
    intro null' hnull'
    rw [← Option.some.inj (hfrom.first.symm.trans hnull')]
    exact loadTables_copy_inv hfrom.accepted hfrom.consistent hfrom.shnum hfrom.describes.type hback
  · cases hcopy

/-- A symbol table that can be copied is preserved, and no other one is, unless the offset of the
strings is no word of the class: then they are read from another place in the file. -/
theorem symtab_preserved (big : Bool) (ifile : List UInt8) (shtab : Shtab c) (symtab : Symtab c)
    (hload : loadTables big ifile = .ok ⟨c, shtab, symtab⟩) :
    (Copyable shtab symtab → Preserves big ifile shtab symtab) ∧
    (Preserves big ifile shtab symtab →
      symtab.nsyms < 2 ^ 31 ∧ ∀ null, shtab.shdrs[0]? = some null → null.NotSymtab) ∧
    (c.symsOffset + symtab.nsyms * c.symsz < 2 ^ c.bits →
      (Preserves big ifile shtab symtab ↔ Copyable shtab symtab)) := by
  refine ⟨fun h => h.preserves hload, preserves_inv hload, ?_⟩
  intro hoff
  constructor
  · intro h
    obtain ⟨hnsyms, hfirst⟩ := preserves_inv hload h
    exact ⟨hnsyms, hfirst, hoff⟩
  · exact fun h => h.preserves hload

/-! ## Files with many symbols -/

/-- The header of a file of class 64, with least significant bytes first. -/
def wideEhdr : ElfEhdr ElfClass.c64.bits where
  e_ident := ⟨[0x7f, 69, 76, 70, 2, 1, 1, 0, 0, 0, 0, 0, 0, 0, 0, 0], rfl⟩
  e_type := 1
  e_machine := 62
  e_version := 1
  e_entry := 0
  e_phoff := 0
  e_shoff := 64
  e_flags := 0
  e_ehsize := 64
  e_phentsize := 0
  e_phnum := 0
  e_shentsize := 64
  e_shnum := 4
  e_shstrndx := 1

def wideSymsh (n : Nat) : ElfShdr ElfClass.c64.bits :=
  ⟨11, SHT_SYMTAB, 0, 0, 347, BitVec.ofNat 64 (n * 24), 3, 0, 8, 24⟩

def wideStrsh (n : Nat) : ElfShdr ElfClass.c64.bits :=
  ⟨19, SHT_STRTAB, 0, 0, BitVec.ofNat 64 (347 + n * 24), 3, 0, 0, 1, 0⟩

/-- `n` times a symbol `a` of the second section. -/
def wideSyms (n : Nat) : List (ElfSym ElfClass.c64.bits) :=
  List.replicate n ⟨1, 64, 8, 17, 0, 2⟩

/-- A file with the symbols, behind an empty section header. -/
def wideFile (n : Nat) : List UInt8 :=
  symtabFile false wideEhdr ⟨0, 0, 0, 0, 0, 0, 0, 0, 0, 0⟩ (wideSymsh n) (wideStrsh n) (wideSyms n)
    [0, 97, 0]

def wideShtab (n : Nat) : Shtab .c64 :=
  copyShtab ⟨0, 0, 0, 0, 0, 0, 0, 0, 0, 0⟩ (wideSymsh n) (wideStrsh n)

def wideSymtab (n : Nat) : Symtab .c64 := ⟨wideSyms n, [0, 97, 0], 3⟩

theorem loadTables_wideFile {n : Nat} (h0 : 0 < n) (hn : n < 2 ^ 58) :
    loadTables false (wideFile n) = .ok ⟨.c64, wideShtab n, wideSymtab n⟩ := by
  have hsize : (wideSymsh n).sh_size.toNat = n * 24 := Nat.mod_eq_of_lt (by omega)
  have hoff : ElfClass.c64.symsOffset + (wideSymsh n).sh_size.toNat = 347 + n * 24 := by
    rw [hsize]
    rfl
  have hholds : (wideSymsh n).HoldsSymbols .c64 := by
    refine ⟨?_, .inr rfl, ?_⟩
    · rw [hsize]
      omega
    · rw [hsize]
      exact Nat.mul_mod_left n 24
  have hdesc : Describes (wideSymsh n) (wideStrsh n) (wideSyms n) [0, 97, 0] := by
    refine ⟨rfl, hholds, ?_, rfl⟩
    rw [wideSyms, List.length_replicate, hsize]
    rfl
  have hacc : wideEhdr.Accepted ElfClass.c64.ident := ⟨rfl, rfl, rfl⟩
  have hcons : wideEhdr.Consistent ElfClass.c64.shdrsz ElfClass.c64.phdrsz := by
    refine ⟨fun _ => rfl, fun hphnum => absurd hphnum (Nat.lt_irrefl 0), fun _ => ?_, ?_⟩
    · exact ⟨Nat.one_pos, Nat.one_lt_succ_succ 2⟩
    · decide
  have hnull : ElfShdr.NotSymtab (⟨0, 0, 0, 0, 0, 0, 0, 0, 0, 0⟩ : ElfShdr ElfClass.c64.bits) :=
    fun _ => ⟨Nat.zero_ne_add_one 10, Nat.succ_pos 26⟩
  have hfits : ElfClass.c64.symsOffset + (wideSymsh n).sh_size.toNat < 2 ^ 63 := by
    rw [hoff]
    omega
  have hbits : ElfClass.c64.symsOffset + (wideSymsh n).sh_size.toNat < 2 ^ 64 := by
    rw [hoff]
    omega
  exact loadTables_copy_ok false hacc hcons (Nat.succ_pos 3) hdesc hnull hbits hfits

/-- The counter overflows in a file with `2 ^ 31` symbols. -/
theorem wideFile_not_preserved :
    loadTables false (wideFile (2 ^ 31)) = .ok ⟨.c64, wideShtab (2 ^ 31), wideSymtab (2 ^ 31)⟩ ∧
      ¬Preserves false (wideFile (2 ^ 31)) (wideShtab (2 ^ 31)) (wideSymtab (2 ^ 31)) := by
  have hload := loadTables_wideFile (Nat.two_pow_pos 31)
    (Nat.pow_lt_pow_right Nat.one_lt_two (by decide))
  refine ⟨hload, ?_⟩
  intro h
  have hnsyms := (preserves_inv hload h).1
  rw [Symtab.nsyms, wideSymtab, wideSyms, List.length_replicate] at hnsyms
  exact Nat.lt_irrefl _ hnsyms

theorem symtab_preserved_two : Preserves false (wideFile 2) (wideShtab 2) (wideSymtab 2) := by
  have hload : loadTables false (wideFile 2) = .ok ⟨.c64, wideShtab 2, wideSymtab 2⟩ :=
    loadTables_wideFile (by decide) (by decide)
  apply (symtab_preserved false (wideFile 2) (wideShtab 2) (wideSymtab 2) hload).1
  refine ⟨by decide, ?_, by decide⟩
  intro null hnull
  cases hnull
  exact fun _ => ⟨Nat.zero_ne_add_one 10, Nat.succ_pos 26⟩

end Cexp
