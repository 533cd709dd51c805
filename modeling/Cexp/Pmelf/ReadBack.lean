import Cexp.Pmelf.Tables

/-!
# Reading tables that were written

What the readers of headers, section header tables, sections and symbols return for a file, from the
images that the file has where they read.
-/

namespace Cexp

open CLib CLib.Image

namespace ElfClass

def phdrsz : ElfClass → Nat
  | .c32 => 32
  | .c64 => 56

/-- `EI_CLASS` -/
def ident : ElfClass → UInt8
  | .c32 => ELFCLASS32
  | .c64 => ELFCLASS64

def wrap : (c : ElfClass) → ElfEhdr c.bits → ElfHdr
  | .c32, r => .e32 r
  | .c64, r => .e64 r

def ehdrImage (c : ElfClass) (big : Bool) : Image (ElfEhdr c.bits) :=
  match c with
  | .c32 => ElfEhdr.image word32 big
  | .c64 => ElfEhdr.image word64 big

def symImage (c : ElfClass) (big : Bool) : Image (ElfSym c.bits) :=
  match c with
  | .c32 => Elf32Sym.image big
  | .c64 => Elf64Sym.image big

theorem ehdrImage_size (c : ElfClass) (big : Bool) : (c.ehdrImage big).size = c.ehdrsz := by
  cases c
  · exact Elf32Ehdr.size_image big
  · exact Elf64Ehdr.size_image big

theorem shdrImage_size (c : ElfClass) (big : Bool) : (c.shdrImage big).size = c.shdrsz := by
  cases c
  · exact Elf32Shdr.size_image big
  · exact Elf64Shdr.size_image big

theorem symImage_size (c : ElfClass) (big : Bool) : (c.symImage big).size = c.symsz := by
  cases c
  · exact Elf32Sym.size_image big
  · exact Elf64Sym.size_image big

theorem symsz_pos (c : ElfClass) : 0 < c.symsz := by
  cases c <;> exact Nat.succ_pos _

theorem exists_wrap (hdr : ElfHdr) : ∃ (c : ElfClass) (r : ElfEhdr c.bits), hdr = c.wrap r := by
  cases hdr with
  | e32 r => exact ⟨.c32, r, rfl⟩
  | e64 r => exact ⟨.c64, r, rfl⟩

variable {c : ElfClass} {big : Bool} {s t t' : ElfStream} {rest : List UInt8}

/-! ## Records -/

theorem getshdr_ok {r : ElfShdr c.bits} (hr : s.readable = true)
    (hdrop : s.file.drop s.pos = (c.shdrImage (big != s.needswap)).write r ++ rest) :
    c.getshdr big s = .ok ({ s with pos := s.pos + c.shdrsz }, r) := by
  rw [← c.shdrImage_size big]
  cases c with
  | c32 => exact getRecord_ok Elf32Shdr.flips_get hr hdrop
  | c64 => exact getRecord_ok Elf64Shdr.flips_get hr hdrop

theorem getsym_ok {r : ElfSym c.bits} (hr : s.readable = true)
    (hdrop : s.file.drop s.pos = (c.symImage (big != s.needswap)).write r ++ rest) :
    c.getsym big s = .ok ({ s with pos := s.pos + c.symsz }, r) := by
  rw [← c.symImage_size big]
  cases c with
  | c32 => exact getRecord_ok (Elf32Sym.flips fun _ => rfl) hr hdrop
  | c64 => exact getRecord_ok (Elf64Sym.flips fun _ => rfl) hr hdrop

/-! ## Headers -/

/-- The stream of a file whose header was read. -/
def opened (c : ElfClass) (big : Bool) (t : ElfStream) (r : ElfEhdr c.bits) : ElfStream :=
  { t with
    pos := EI_NIDENT + (c.ehdrsz - EI_NIDENT)
    needswap := needswapOf big r.e_ident
    clss := c.ident
    machine := r.e_machine }

theorem getehdr_ok {r : ElfEhdr c.bits} (hacc : r.Accepted c.ident)
    (hcons : r.Consistent c.shdrsz c.phdrsz) (hr : t.readable = true)
    (hfile : t.file = (c.ehdrImage (big != needswapOf big r.e_ident)).write r ++ rest) :
    pmelfGetehdr big t = .ok (c.opened big t r, c.wrap r) := by
  cases c with
  | c32 =>
    rw [pmelfGetehdr_eq (readsClass32 big) Elf32Ehdr.flips_get hacc hr hfile,
      Elf32Ehdr.size_image]
    refine (congrArg (· >>= _) (checkTop_ok hcons)).trans ?_
    exact if_pos hcons.machine
  | c64 =>
    rw [pmelfGetehdr_eq (readsClass64 big) Elf64Ehdr.flips_get hacc hr hfile,
      Elf64Ehdr.size_image]
    refine (congrArg (· >>= _) (checkTop_ok hcons)).trans ?_
    exact if_pos hcons.machine

theorem getehdr_inv {r : ElfEhdr c.bits} (hr : t.readable = true)
    (h : pmelfGetehdr big t = .ok (t', c.wrap r)) :
    r.Accepted c.ident ∧ r.Consistent c.shdrsz c.phdrsz ∧ t' = c.opened big t r := by
  have hinv : r.Accepted c.ident ∧ r.Consistent c.shdrsz c.phdrsz ∧ ∃ rest, t.file =
      (c.ehdrImage (big != needswapOf big r.e_ident)).write r ++ rest := by
    cases c with
    | c32 => exact pmelfGetehdr_inv (readsClass32 big) Elf32Ehdr.flips_get h
    | c64 => exact pmelfGetehdr_inv (readsClass64 big) Elf64Ehdr.flips_get h
  obtain ⟨hacc, hcons, rest, hfile⟩ := hinv
  rw [getehdr_ok hacc hcons hr hfile] at h
  cases h
  exact ⟨hacc, hcons, rfl⟩

end ElfClass

/-! ## Streams that are read -/

/-- Reading moves a stream. -/
def ElfStream.Moved (s s' : ElfStream) : Prop := ∃ p, s' = { s with pos := p }

theorem ElfStream.Moved.refl (s : ElfStream) : s.Moved s := ⟨s.pos, rfl⟩

theorem ElfStream.Moved.trans {s s' s'' : ElfStream} (h : s.Moved s') (h' : s'.Moved s'') :
    s.Moved s'' := by
  obtain ⟨p, rfl⟩ := h
  obtain ⟨q, rfl⟩ := h'
  exact ⟨q, rfl⟩

theorem ElfStream.Moved.file {s s' : ElfStream} (h : s.Moved s') : s'.file = s.file := by
  obtain ⟨p, rfl⟩ := h
  rfl

theorem ElfStream.Moved.readable {s s' : ElfStream} (h : s.Moved s') : s'.readable = s.readable := by
  obtain ⟨p, rfl⟩ := h
  rfl

section

variable {α : Type} {s s' : ElfStream} {n : Nat} {l : List α}

theorem getRecord_moved {img : Image α} {swap : α → α} {r : α}
    (h : getRecord img swap s = .ok (s', r)) : s.Moved s' := by
  obtain ⟨⟨b, s₁⟩, hb, h⟩ := bind_eq_ok.mp h
  obtain ⟨-, -, rfl⟩ := ElfStream.sread_length hb
  cases h
  exact ⟨_, rfl⟩

theorem slurp_inv {get : ElfStream → Except ElfError (ElfStream × α)}
    (hget : ∀ s s' r, get s = .ok (s', r) → s.Moved s') (h : slurp get n s = .ok (s', l)) :
    s.Moved s' ∧ l.length = n := by
  induction n generalizing s l with
  | zero =>
    cases h
    exact ⟨ElfStream.Moved.refl _, rfl⟩
  | succ n ih =>
    obtain ⟨⟨s₁, r⟩, hr, h⟩ := bind_eq_ok.mp h
    obtain ⟨⟨s₂, l₂⟩, hl, h⟩ := bind_eq_ok.mp h
    cases h
    obtain ⟨hmoved, hlen⟩ := ih hl
    exact ⟨(hget s s₁ r hr).trans hmoved, congrArg Nat.succ hlen⟩

/-- Behind the bytes at a position. -/
theorem drop_past {file data rest : List UInt8} {pos n : Nat} (hdrop : file.drop pos = data ++ rest)
    (hn : data.length = n) : file.drop (pos + n) = rest := by
  rw [← List.drop_drop, hdrop, List.drop_left' hn]

/-- The loop reads the records from their images. -/
theorem slurp_ok (needswap : Bool) {get : ElfStream → Except ElfError (ElfStream × α)}
    {img : Image α}
    (hget : ∀ (s : ElfStream) r rest, s.readable = true → s.needswap = needswap →
      s.file.drop s.pos = img.write r ++ rest → get s = .ok ({ s with pos := s.pos + img.size }, r))
    {rest : List UInt8} (hr : s.readable = true) (hs : s.needswap = needswap)
    (hdrop : s.file.drop s.pos = l.flatMap img.write ++ rest) :
    slurp get l.length s = .ok ({ s with pos := s.pos + l.length * img.size }, l) := by
  induction l generalizing s with
  | nil => simp [slurp]
  | cons r l ih =>
    rw [List.flatMap_cons, List.append_assoc] at hdrop
    have hnext := drop_past hdrop (img.length_write r)
    have hrest := ih (s := { s with pos := s.pos + img.size }) hr hs hnext
    rw [List.length_cons, slurp, hget s r _ hr hs hdrop, ok_bind]
    dsimp only
    rw [hrest, ok_bind, Nat.succ_mul, Nat.add_assoc, Nat.add_comm img.size]
    rfl

end

variable {c : ElfClass} {big : Bool} {s s' t : ElfStream} {data rest : List UInt8}

theorem ElfClass.getshdr_moved {r : ElfShdr c.bits} (h : c.getshdr big s = .ok (s', r)) :
    s.Moved s' := by
  cases c with
  | c32 => exact getRecord_moved h
  | c64 => exact getRecord_moved h

theorem ElfClass.getsym_moved {r : ElfSym c.bits} (h : c.getsym big s = .ok (s', r)) :
    s.Moved s' := by
  cases c with
  | c32 => exact getRecord_moved h
  | c64 => exact getRecord_moved h

theorem ElfClass.slurp_getshdr {shdrs : List (ElfShdr c.bits)} (hr : s.readable = true)
    (hdrop : s.file.drop s.pos = shdrs.flatMap (c.shdrImage (big != s.needswap)).write ++ rest) :
    slurp (c.getshdr big) shdrs.length s =
      .ok ({ s with pos := s.pos + shdrs.length * c.shdrsz }, shdrs) := by
  have hsize := c.shdrImage_size (big != s.needswap)
  rw [← hsize]
  refine slurp_ok s.needswap ?_ hr rfl hdrop
  intro t r rest ht hneeds ht'
  rw [← hneeds] at ht'
  rw [ElfClass.getshdr_ok ht ht', hsize]

theorem ElfClass.slurp_getsym {syms : List (ElfSym c.bits)} (hr : s.readable = true)
    (hdrop : s.file.drop s.pos = syms.flatMap (c.symImage (big != s.needswap)).write ++ rest) :
    slurp (c.getsym big) syms.length s =
      .ok ({ s with pos := s.pos + syms.length * c.symsz }, syms) := by
  have hsize := c.symImage_size (big != s.needswap)
  rw [← hsize]
  refine slurp_ok s.needswap ?_ hr rfl hdrop
  intro t r rest ht hneeds ht'
  rw [← hneeds] at ht'
  rw [ElfClass.getsym_ok ht ht', hsize]

theorem orStop_eq_ok {α : Type} {x : Except ElfError α} {a : α} : orStop x = .ok a ↔ x = .ok a := by
  cases x with
  | error e => simp [orStop, Except.mapError]
  | ok b => simp [orStop, Except.mapError]

theorem orError_eq_ok {α : Type} {e : ElfError} {x : Except ElfError α} {a : α} :
    orError e x = .ok a ↔ x = .ok a := by
  cases x with
  | error e => simp [orError, Except.mapError]
  | ok b => simp [orError, Except.mapError]

theorem seek_ok {n : Nat} (hn : n < 2 ^ 63) : s.seek n = .ok { s with pos := n } := if_pos hn

theorem seek_inv {n : Nat} (h : s.seek n = .ok s') : n < 2 ^ 63 ∧ s' = { s with pos := n } := by
  rw [ElfStream.seek] at h
  split at h
  · cases h
    exact ⟨‹_›, rfl⟩
  · cases h

/-! ## Sections -/

theorem ElfClass.word_lt (v : BitVec c.bits) : v.toNat < 2 ^ 64 := by
  cases c with
  | c32 => exact v.isLt.trans (Nat.pow_lt_pow_right Nat.one_lt_two (by decide))
  | c64 => exact v.isLt

/-- A whole section is read from its offset on. -/
theorem pmelfGetscn_eq (s : ElfStream) (p : ElfShdr c.bits) :
    pmelfGetscn s p 0 0 = (do
      let s ← orError .scnSeek (s.seek p.sh_offset.toNat)
      let (data, s) ← orError .scnRead (s.sread p.sh_size.toNat)
      return (s, data)) := by
  have hsize := ElfClass.word_lt p.sh_size
  have hoff := ElfClass.word_lt p.sh_offset
  rw [pmelfGetscn, if_pos rfl, Nat.zero_add, Nat.mod_eq_of_lt hsize, Nat.add_zero,
    Nat.mod_eq_of_lt hoff]
  dsimp only
  rw [if_neg (by omega), if_neg (by omega)]

theorem pmelfGetscn_ok {p : ElfShdr c.bits} (hr : s.readable = true)
    (hoff : p.sh_offset.toNat < 2 ^ 63) (hsize : data.length = p.sh_size.toNat)
    (hdrop : s.file.drop p.sh_offset.toNat = data ++ rest) :
    pmelfGetscn s p 0 0 =
      .ok ({ s with pos := p.sh_offset.toNat + p.sh_size.toNat }, data) := by
  have hread : ElfStream.sread { s with pos := p.sh_offset.toNat } p.sh_size.toNat = _ :=
    ElfStream.sread_ok hr hdrop hsize
  rw [pmelfGetscn_eq, seek_ok hoff, orError, Except.mapError, ok_bind, hread]
  rfl

theorem sread_same {n : Nat} {b : List UInt8} (h : s.sread n = .ok (b, s')) (hfile : t.file = s.file)
    (hr : t.readable = s.readable) (hpos : t.pos = s.pos) :
    t.sread n = .ok (b, { t with pos := t.pos + n }) := by
  rw [ElfStream.sread] at h ⊢
  rw [hfile, hr, hpos]
  split at h
  · rename_i hcond
    cases h
    rw [if_pos hcond]
  · cases h

/-- What is read of a section does not depend on where the stream is. -/
theorem pmelfGetscn_inv {p : ElfShdr c.bits} (h : pmelfGetscn s p 0 0 = .ok (s', data)) :
    s.Moved s' ∧ data.length = p.sh_size.toNat ∧
      ∀ t : ElfStream, t.file = s.file → t.readable = s.readable →
        ∃ t', pmelfGetscn t p 0 0 = .ok (t', data) := by
  rw [pmelfGetscn_eq] at h
  obtain ⟨s₁, hseek, h⟩ := bind_eq_ok.mp h
  obtain ⟨hoff, rfl⟩ := seek_inv (orError_eq_ok.mp hseek)
  obtain ⟨⟨b, s₂⟩, hread, h⟩ := bind_eq_ok.mp h
  have hread := orError_eq_ok.mp hread
  obtain ⟨hlen, -, rfl⟩ := ElfStream.sread_length hread
  cases h
  refine ⟨⟨_, rfl⟩, hlen, ?_⟩
  intro t hfile hr
  have hsame := sread_same (t := { t with pos := p.sh_offset.toNat }) hread hfile hr rfl
  rw [pmelfGetscn_eq, seek_ok hoff, orError, Except.mapError, ok_bind, hsame]
  exact ⟨_, rfl⟩

/-! ## Tables -/

theorem pmelfGetshtab_inv {r : ElfEhdr c.bits} {shtab : Shtab c}
    (h : pmelfGetshtab big s r = .ok (s', shtab)) :
    s.Moved s' ∧ 0 < r.e_shnum.toNat ∧ shtab.shdrs.length = r.e_shnum.toNat := by
  rw [pmelfGetshtab] at h
  split at h
  · cases h
  rename_i hnum
  obtain ⟨s₁, hseek, h⟩ := bind_eq_ok.mp h
  obtain ⟨-, rfl⟩ := seek_inv (orStop_eq_ok.mp hseek)
  obtain ⟨⟨s₂, shdrs⟩, hslurp, h⟩ := bind_eq_ok.mp h
  obtain ⟨hmoved, hlen⟩ := slurp_inv (fun _ _ _ => ElfClass.getshdr_moved) (orStop_eq_ok.mp hslurp)
  dsimp only at h
  split at h
  · cases h
  · obtain ⟨⟨s₃, strtab⟩, hscn, h⟩ := bind_eq_ok.mp h
    cases h
    have hall : s.Moved s₂ := ElfStream.Moved.trans ⟨_, rfl⟩ hmoved
    exact ⟨hall.trans (pmelfGetscn_inv hscn).1, Nat.pos_of_ne_zero hnum, hlen⟩

/-- The pointer arithmetic finds the headers. -/
theorem shtabN_ok {shtab : Shtab c} {idx : Nat} {shdr : ElfShdr c.bits}
    (hidx : shtab.shdrs[idx]? = some shdr) (hoff : idx * c.shdrsz < 2 ^ 32) :
    shtabN big shtab idx = .ok shdr := by
  have hsize := c.shdrImage_size big
  have hlt : idx + 1 ≤ shtab.shdrs.length := (List.getElem?_eq_some_iff.mp hidx).1
  have hin : idx * c.shdrsz + c.shdrsz ≤ (shtab.shdrs.flatMap (c.shdrImage big).write).length := by
    rw [(c.shdrImage big).length_table, hsize, ← Nat.succ_mul]
    exact Nat.mul_le_mul_right c.shdrsz hlt
  have htake := (c.shdrImage big).take_drop_table hidx
  rw [hsize] at htake
  rw [shtabN, Nat.mod_eq_of_lt hoff, if_pos hin, htake, (c.shdrImage big).read_write]

theorem two_pow_lt {n : Nat} (hn : n < 2 ^ 9) : n < 2 ^ 63 :=
  hn.trans (Nat.pow_lt_pow_right Nat.one_lt_two (by decide))

/-- What is asked of the header of the symbol table. -/
structure ElfShdr.HoldsSymbols (c : ElfClass) (symsh : ElfShdr c.bits) : Prop where
  size : 0 < symsh.sh_size.toNat
  entsize : symsh.sh_entsize.toNat = 0 ∨ symsh.sh_entsize.toNat = c.symsz
  multiple : symsh.sh_size.toNat % c.symsz = 0

theorem pmelfFindSymhdrs_ok {shtab : Shtab c} {symsh : ElfShdr c.bits}
    (hfind : findSymsh shtab none shtab.shdrs = .ok (some symsh)) (hsym : symsh.HoldsSymbols c)
    (hoff : symsh.sh_offset.toNat < 2 ^ 63) :
    pmelfFindSymhdrs s shtab = .ok ({ s with pos := symsh.sh_offset.toNat },
      symsh.sh_size.toNat / c.symsz, symsh) := by
  have hentsize : ¬(symsh.sh_entsize.toNat ≠ 0 ∧ symsh.sh_entsize.toNat ≠ c.symsz) := by
    rcases hsym.entsize with h | h
    · exact fun hbad => hbad.1 h
    · exact fun hbad => hbad.2 h
  rw [pmelfFindSymhdrs, hfind, ok_bind]
  dsimp only
  rw [if_neg hsym.size.ne', if_neg hentsize, if_neg (not_not.mpr hsym.multiple), seek_ok hoff]
  rfl

theorem pmelfFindSymhdrs_inv {shtab : Shtab c} {symsh : ElfShdr c.bits} {n : Nat}
    (h : pmelfFindSymhdrs s shtab = .ok (s', n, symsh)) :
    findSymsh shtab none shtab.shdrs = .ok (some symsh) ∧ symsh.HoldsSymbols c ∧
      symsh.sh_offset.toNat < 2 ^ 63 ∧ n = symsh.sh_size.toNat / c.symsz ∧ s.Moved s' := by
  obtain ⟨found, hfind, h⟩ := bind_eq_ok.mp h
  cases found with
  | none => cases h
  | some symsh' =>
    dsimp only at h
    split at h
    · cases h
    rename_i hsize
    split at h
    · cases h
    rename_i hentsize
    split at h
    · cases h
    rename_i hmultiple
    obtain ⟨s₁, hseek, h⟩ := bind_eq_ok.mp h
    obtain ⟨hoff, rfl⟩ := seek_inv (orError_eq_ok.mp hseek)
    cases h
    refine ⟨hfind, ⟨Nat.pos_of_ne_zero hsize, ?_, not_not.mp hmultiple⟩, hoff, rfl, _, rfl⟩
    by_contra hbad
    exact hentsize (not_or.mp hbad)

/-- What a symbol table was read from. -/
structure Symtab.ReadFrom (big : Bool) (s : ElfStream) (shtab : Shtab c) (symtab : Symtab c)
    (symsh strsh : ElfShdr c.bits) : Prop where
  find : findSymsh shtab none shtab.shdrs = .ok (some symsh)
  holds : symsh.HoldsSymbols c
  offset : symsh.sh_offset.toNat < 2 ^ 63
  nsyms : symtab.syms.length * c.symsz = symsh.sh_size.toNat
  link : shtabN big shtab symsh.sh_link.toNat = .ok strsh
  strtablen : symtab.strtablen = strsh.sh_size.toNat
  length : symtab.strtab.length = strsh.sh_size.toNat
  strtab : ∀ t : ElfStream, t.file = s.file → t.readable = s.readable →
    ∃ t', pmelfGetscn t strsh 0 0 = .ok (t', symtab.strtab)

theorem pmelfGetsymtab_inv {shtab : Shtab c} {symtab : Symtab c}
    (h : pmelfGetsymtab big s shtab = .ok (s', symtab)) :
    s.Moved s' ∧ ∃ symsh strsh, symtab.ReadFrom big s shtab symsh strsh := by
  obtain ⟨⟨s₁, n, symsh⟩, hfind, h⟩ := bind_eq_ok.mp h
  obtain ⟨hfound, hholds, hoff, rfl, hmoved₁⟩ := pmelfFindSymhdrs_inv hfind
  dsimp only at h
  split at h
  · cases h
  obtain ⟨⟨s₂, syms⟩, hslurp, h⟩ := bind_eq_ok.mp h
  obtain ⟨hmoved₂, hlen⟩ := slurp_inv (fun _ _ _ => ElfClass.getsym_moved) (orError_eq_ok.mp hslurp)
  obtain ⟨strsh, hlink, h⟩ := bind_eq_ok.mp h
  obtain ⟨⟨s₃, strtab⟩, hscn, h⟩ := bind_eq_ok.mp h
  obtain ⟨hmoved₃, hstrlen, hsame⟩ := pmelfGetscn_inv hscn
  cases h
  have hmoved := hmoved₁.trans hmoved₂
  refine ⟨hmoved.trans hmoved₃, symsh, strsh, hfound, hholds, hoff, ?_, hlink, rfl, hstrlen, ?_⟩
  · rw [hlen]
    exact Nat.div_mul_cancel (Nat.dvd_of_mod_eq_zero hholds.multiple)
  · intro t hfile hr
    exact hsame t (hfile.trans hmoved.file.symm) (hr.trans hmoved.readable.symm)

theorem pmelfGetshtab_ok {r : ElfEhdr c.bits} {shdrs : List (ElfShdr c.bits)}
    {strsh : ElfShdr c.bits} {strtab rest' : List UInt8} (hr : s.readable = true)
    (hpos : 0 < r.e_shnum.toNat) (hnum : shdrs.length = r.e_shnum.toNat)
    (hoff : r.e_shoff.toNat < 2 ^ 63)
    (hdrop : s.file.drop r.e_shoff.toNat =
      shdrs.flatMap (c.shdrImage (big != s.needswap)).write ++ rest)
    (hndx : shdrs[r.e_shstrndx.toNat]? = some strsh) (hstroff : strsh.sh_offset.toNat < 2 ^ 63)
    (hstrlen : strtab.length = strsh.sh_size.toNat)
    (hstrdrop : s.file.drop strsh.sh_offset.toNat = strtab ++ rest') :
    pmelfGetshtab big s r = .ok ({ s with pos := strsh.sh_offset.toNat + strsh.sh_size.toNat },
      ⟨shdrs, strtab, strsh.sh_size.toNat, r.e_shstrndx.toNat⟩) := by
  have hslurp := ElfClass.slurp_getshdr (s := { s with pos := r.e_shoff.toNat }) hr hdrop
  have hscn := pmelfGetscn_ok (s := { s with pos := r.e_shoff.toNat + shdrs.length * c.shdrsz })
    hr hstroff hstrlen hstrdrop
  rw [pmelfGetshtab, if_neg hpos.ne', seek_ok hoff, ← hnum, orStop, Except.mapError, ok_bind, hslurp,
    orStop, Except.mapError, ok_bind]
  dsimp only
  rw [hndx]
  dsimp only
  rw [hscn]
  rfl

theorem pmelfGetsymtab_ok {shtab : Shtab c} {symsh strsh : ElfShdr c.bits}
    {syms : List (ElfSym c.bits)} {strtab rest' : List UInt8} (hr : s.readable = true)
    (hfind : findSymsh shtab none shtab.shdrs = .ok (some symsh)) (hsym : symsh.HoldsSymbols c)
    (hoff : symsh.sh_offset.toNat < 2 ^ 63) (hlen : syms.length * c.symsz = symsh.sh_size.toNat)
    (hdrop : s.file.drop symsh.sh_offset.toNat =
      syms.flatMap (c.symImage (big != s.needswap)).write ++ rest)
    (hlink : shtabN big shtab symsh.sh_link.toNat = .ok strsh)
    (hstroff : strsh.sh_offset.toNat < 2 ^ 63) (hstrlen : strtab.length = strsh.sh_size.toNat)
    (hstrdrop : s.file.drop strsh.sh_offset.toNat = strtab ++ rest') :
    pmelfGetsymtab big s shtab = .ok ({ s with pos := strsh.sh_offset.toNat + strsh.sh_size.toNat },
      ⟨syms, strtab, strsh.sh_size.toNat⟩) := by
  have hnsyms : symsh.sh_size.toNat / c.symsz = syms.length := by
    rw [← hlen, Nat.mul_div_cancel _ c.symsz_pos]
  have hpos : syms.length ≠ 0 := by
    intro h0
    rw [h0, Nat.zero_mul] at hlen
    exact hsym.size.ne hlen
  have hslurp := ElfClass.slurp_getsym (s := { s with pos := symsh.sh_offset.toNat }) hr hdrop
  have hscn := pmelfGetscn_ok (s := { s with
    pos := symsh.sh_offset.toNat + syms.length * c.symsz }) hr hstroff hstrlen hstrdrop
  rw [pmelfGetsymtab, pmelfFindSymhdrs_ok hfind hsym hoff, ok_bind]
  dsimp only
  rw [hnsyms, if_neg hpos, hslurp, orError, Except.mapError, ok_bind]
  dsimp only
  rw [hlink, ok_bind, hscn]
  rfl

end Cexp
