import Cexp.Pmelf.ReadBack
import Cexp.Xsyms.CopySymtab

/-!
# The file with a copied symbol table

The bytes that `pmelf_copy_symtab` writes, part by part, and what the readers make of them.
-/

namespace Cexp

open CLib CLib.Image

variable {c : ElfClass} {big needswap : Bool} {file : List UInt8}

/-! ## Writing at the end -/

/-- A stream at the end of a file that is written. -/
def ElfStream.writing (needswap : Bool) (file : List UInt8) : ElfStream :=
  ⟨file, file.length, false, true, 0, needswap, 0⟩

theorem overwrite_end (file data : List UInt8) :
    ElfStream.overwrite file file.length data = file ++ data := by
  cases data with
  | nil => exact (List.append_nil file).symm
  | cons b data =>
    have hdrop : file.drop (file.length + data.length + 1) = [] := by
      apply List.drop_eq_nil_of_le
      omega
    rw [ElfStream.overwrite, List.take_length, Nat.sub_self, List.replicate_zero, List.append_nil,
      hdrop, List.append_nil]

theorem swrite_writing (data : List UInt8) :
    (ElfStream.writing needswap file).swrite data = .ok (.writing needswap (file ++ data)) := by
  rw [swrite_ok rfl]
  dsimp only [ElfStream.writing]
  rw [overwrite_end, ← List.length_append]

theorem putRecord_writing {α : Type} {img : Bool → Image α} {swap : α → α} (hf : Flips img swap)
    (r own : α) :
    (putRecord (img big) swap (.writing needswap file) r own).1 =
      .ok (.writing needswap (file ++ (img (big != needswap)).write r)) := by
  rw [putRecord_eq hf]
  exact swrite_writing _

theorem ElfClass.putehdr_writing {r : ElfEhdr c.bits} (hacc : r.Accepted c.ident) :
    c.putehdr big (.writing needswap file) r = .ok (.writing (needswapOf big r.e_ident)
      (file ++ (c.ehdrImage (big != needswapOf big r.e_ident)).write r)) := by
  cases c with
  | c32 =>
    refine (congrArg Prod.fst (putehdr_eq Elf32Ehdr.flips_put hacc r)).trans ?_
    exact swrite_writing _
  | c64 =>
    refine (congrArg Prod.fst (putehdr_eq Elf64Ehdr.flips_put hacc r)).trans ?_
    exact swrite_writing _

theorem ElfClass.putshdr_writing (r : ElfShdr c.bits) :
    c.putshdr big (.writing needswap file) r =
      .ok (.writing needswap (file ++ (c.shdrImage (big != needswap)).write r)) := by
  cases c with
  | c32 => exact putRecord_writing Elf32Shdr.flips_put r r
  | c64 => exact putRecord_writing Elf64Shdr.flips_put r r

theorem ElfClass.putsym_writing (r : ElfSym c.bits) :
    c.putsym big (.writing needswap file) r =
      .ok (.writing needswap (file ++ (c.symImage (big != needswap)).write r)) := by
  cases c with
  | c32 => exact putRecord_writing (Elf32Sym.flips fun _ => rfl) r r
  | c64 => exact putRecord_writing (Elf64Sym.flips fun _ => rfl) r r

theorem ElfClass.putshdrs_writing (shdrs : List (ElfShdr c.bits)) :
    shdrs.foldlM (c.putshdr big) (.writing needswap file) =
      .ok (.writing needswap (file ++ shdrs.flatMap (c.shdrImage (big != needswap)).write)) := by
  induction shdrs generalizing file with
  | nil =>
    rw [List.flatMap_nil, List.append_nil]
    rfl
  | cons r shdrs ih =>
    rw [List.foldlM_cons, putshdr_writing, ok_bind, ih, List.flatMap_cons, List.append_assoc]

/-! ## The loops over the symbols -/

theorem incr_ok {i : Nat} (hi : i + 1 < 2 ^ 31) : incr i = .ok (i + 1) := if_pos hi

theorem absSyms_ok {nshdrs i : Nat} {syms : List (ElfSym c.bits)} (hi : i + syms.length < 2 ^ 31) :
    absSyms nshdrs i syms = .ok (syms.map (absSym nshdrs)) := by
  induction syms generalizing i with
  | nil => rfl
  | cons sym syms ih =>
    rw [List.length_cons] at hi
    rw [absSyms, incr_ok (by omega), ok_bind, ih (by omega)]
    rfl

/-- The counter has to count all symbols. -/
theorem absSyms_overflow {nshdrs i : Nat} {syms : List (ElfSym c.bits)} (hi : i < 2 ^ 31)
    (hover : 2 ^ 31 ≤ i + syms.length) : absSyms nshdrs i syms = .error .overflow := by
  induction syms generalizing i with
  | nil =>
    rw [List.length_nil] at hover
    omega
  | cons sym syms ih =>
    rw [List.length_cons] at hover
    by_cases hnext : i + 1 < 2 ^ 31
    · rw [absSyms, incr_ok hnext, ok_bind, ih hnext (by omega)]
      rfl
    · rw [absSyms, incr, if_neg hnext]
      rfl

theorem putSyms_ok {i : Nat} {syms : List (ElfSym c.bits)} (hi : i + syms.length < 2 ^ 31) :
    putSyms big i (.writing needswap file) syms =
      .ok (.writing needswap (file ++ syms.flatMap (c.symImage (big != needswap)).write)) := by
  induction syms generalizing i file with
  | nil =>
    rw [List.flatMap_nil, List.append_nil]
    rfl
  | cons sym syms ih =>
    rw [List.length_cons] at hi
    rw [putSyms, ElfClass.putsym_writing, orStop, Except.mapError, ok_bind, incr_ok (by omega),
      ok_bind, ih (by omega), List.flatMap_cons, List.append_assoc]

/-! ## The layout -/

/-- The section with the names of the sections. -/
def sectionNames : List UInt8 := 0 :: (shstrtabStr ++ (symtabStr ++ strtabStr))

/-- The file with a header, four section headers, their names, symbols and the names of these. -/
def symtabFile (big : Bool) (r : ElfEhdr c.bits) (null symsh strsh : ElfShdr c.bits)
    (syms : List (ElfSym c.bits)) (strtab : List UInt8) : List UInt8 :=
  let order := big != needswapOf big r.e_ident
  (c.ehdrImage order).write (copyEhdr r) ++
    ((copyShdrs null symsh strsh).flatMap (c.shdrImage order).write ++
      (sectionNames ++ (syms.flatMap (c.symImage order).write ++ strtab)))

/-- What the headers of a symbol table and of its strings tell. -/
structure Describes (symsh strsh : ElfShdr c.bits) (syms : List (ElfSym c.bits))
    (strtab : List UInt8) : Prop where
  type : symsh.sh_type = SHT_SYMTAB
  holds : symsh.HoldsSymbols c
  nsyms : syms.length * c.symsz = symsh.sh_size.toNat
  strtab : strtab.length = strsh.sh_size.toNat

variable {r : ElfEhdr c.bits} {null symsh strsh : ElfShdr c.bits} {syms : List (ElfSym c.bits)}
  {strtab : List UInt8} {elfi elfi' : ElfStream} {shtab : Shtab c} {symtab : Symtab c}

theorem copyEhdr_accepted (hacc : r.Accepted c.ident) : (copyEhdr r).Accepted c.ident :=
  ⟨hacc.magic, hacc.clss, hacc.version⟩

theorem cpyscn_writing (hscn : pmelfGetscn elfi strsh 0 0 = .ok (elfi', strtab))
    (hlen : strtab.length = strsh.sh_size.toNat) :
    cpyscn elfi (.writing needswap file) strsh = .ok (.writing needswap (file ++ strtab)) := by
  rw [cpyscn, hscn, ok_bind]
  dsimp only
  rw [← hlen, List.take_length, swrite_writing]
  rfl

theorem writeSymtab_ok (hacc : r.Accepted c.ident) (hnsyms : symtab.nsyms < 2 ^ 31)
    (hscn : pmelfGetscn elfi strsh 0 0 = .ok (elfi', symtab.strtab))
    (hlen : symtab.strtab.length = strsh.sh_size.toNat) :
    writeSymtab big elfi r shtab symtab null symsh strsh =
      .ok (symtabFile big r null symsh strsh (symtab.syms.map (absSym shtab.nshdrs))
        symtab.strtab) := by
  have hcount : 0 + symtab.syms.length < 2 ^ 31 := by
    rw [Nat.zero_add]
    exact hnsyms
  have hcount' : 0 + (symtab.syms.map (absSym shtab.nshdrs)).length < 2 ^ 31 := by
    rw [List.length_map]
    exact hcount
  have hnew : pmelfNewstrm [] false true = .writing false [] := rfl
  have hident : (copyEhdr r).e_ident = r.e_ident := rfl
  rw [writeSymtab, hnew, ElfClass.putehdr_writing (copyEhdr_accepted hacc), orStop, Except.mapError,
    ok_bind, ElfClass.putshdrs_writing, orStop, Except.mapError, ok_bind]
  simp only [swrite_writing, orStop, Except.mapError, ok_bind, absSyms_ok hcount,
    putSyms_ok hcount', cpyscn_writing hscn hlen]
  rw [hident]
  simp only [symtabFile, sectionNames, List.nil_append, List.append_assoc, List.cons_append]
  rfl

theorem writeSymtab_overflow (hacc : r.Accepted c.ident) (hnsyms : 2 ^ 31 ≤ symtab.nsyms) :
    writeSymtab big elfi r shtab symtab null symsh strsh = .error .overflow := by
  have hcount : 2 ^ 31 ≤ 0 + symtab.syms.length := by
    rw [Nat.zero_add]
    exact hnsyms
  have hnew : pmelfNewstrm [] false true = .writing false [] := rfl
  rw [writeSymtab, hnew, ElfClass.putehdr_writing (copyEhdr_accepted hacc), orStop, Except.mapError,
    ok_bind, ElfClass.putshdrs_writing, orStop, Except.mapError, ok_bind]
  simp only [swrite_writing, orStop, Except.mapError, ok_bind,
    absSyms_overflow (Nat.two_pow_pos 31) hcount]
  rfl

/-! ## Reading the tables -/

theorem ElfHdr.run_wrap {β : Type} (f : (c : ElfClass) → ElfEhdr c.bits → β) (r : ElfEhdr c.bits) :
    (c.wrap r).run f = f c r := by
  cases c <;> rfl

theorem copyEhdr_consistent (hcons : r.Consistent c.shdrsz c.phdrsz) (hnum : 0 < r.e_shnum.toNat) :
    (copyEhdr r).Consistent c.shdrsz c.phdrsz where
  shentsize _ := hcons.shentsize hnum
  phentsize hbad := absurd hbad (Nat.lt_irrefl 0)
  shstrndx _ := ⟨Nat.one_pos, Nat.one_lt_succ_succ 2⟩
  machine := hcons.machine

/-- The section headers of the file. -/
def copyShtab (null symsh strsh : ElfShdr c.bits) : Shtab c :=
  ⟨copyShdrs null symsh strsh, sectionNames, 27, 1⟩

/-- Where the symbols are. -/
def ElfClass.symsOffset (c : ElfClass) : Nat := c.ehdrsz + 4 * c.shdrsz + 27

theorem copyEhdr_shoff (r : ElfEhdr c.bits) : (copyEhdr r).e_shoff.toNat = c.ehdrsz := by
  cases c <;> rfl

/-- The header of `.shstrtab` -/
def namesShdr (c : ElfClass) : ElfShdr c.bits :=
  ⟨1, SHT_STRTAB, 0, 0, BitVec.ofNat _ (c.ehdrsz + 4 * c.shdrsz), 27, 0, 0, 0, 0⟩

theorem namesShdr_offset (c : ElfClass) :
    (namesShdr c).sh_offset.toNat = c.ehdrsz + 4 * c.shdrsz := by
  cases c <;> rfl

theorem namesShdr_size (c : ElfClass) : (namesShdr c).sh_size.toNat = 27 := by
  cases c <;> rfl

/-- The header of `.symtab` -/
def symsShdr (symsh : ElfShdr c.bits) : ElfShdr c.bits :=
  { symsh with
    sh_name := 11
    sh_offset := (namesShdr c).sh_offset + (namesShdr c).sh_size
    sh_link := 3 }

theorem symsShdr_offset (symsh : ElfShdr c.bits) :
    (symsShdr symsh).sh_offset.toNat = c.symsOffset := by
  cases c <;> rfl

/-- The header of `.strtab` -/
def stringsShdr (symsh strsh : ElfShdr c.bits) : ElfShdr c.bits :=
  { strsh with
    sh_name := 19
    sh_offset := (symsShdr symsh).sh_offset + (symsShdr symsh).sh_size }

/-- The offset of the strings is a word of the class. -/
theorem stringsShdr_offset (strsh : ElfShdr c.bits)
    (hfits : c.symsOffset + symsh.sh_size.toNat < 2 ^ c.bits) :
    (stringsShdr symsh strsh).sh_offset.toNat = c.symsOffset + symsh.sh_size.toNat := by
  have hoff := symsShdr_offset symsh
  rw [stringsShdr, BitVec.toNat_add, hoff]
  exact Nat.mod_eq_of_lt hfits

theorem copyShdrs_eq (null symsh strsh : ElfShdr c.bits) : copyShdrs null symsh strsh =
    [null, namesShdr c, symsShdr symsh, stringsShdr symsh strsh] := rfl

/-- The positions of the parts. -/
theorem symtabFile_parts (big : Bool) (r : ElfEhdr c.bits) (null symsh strsh : ElfShdr c.bits)
    (syms : List (ElfSym c.bits)) (strtab : List UInt8) :
    let order := big != needswapOf big r.e_ident
    let symbols := syms.flatMap (c.symImage order).write ++ strtab
    let file := symtabFile big r null symsh strsh syms strtab
    file.drop c.ehdrsz = (copyShdrs null symsh strsh).flatMap (c.shdrImage order).write ++
        (sectionNames ++ symbols) ∧
      file.drop (c.ehdrsz + 4 * c.shdrsz) = sectionNames ++ symbols ∧
      file.drop c.symsOffset = symbols ∧
      file.drop (c.symsOffset + syms.length * c.symsz) = strtab := by
  intro order symbols file
  have htable := (c.shdrImage order).length_table (copyShdrs null symsh strsh)
  rw [c.shdrImage_size] at htable
  have hsyms := (c.symImage order).length_table syms
  rw [c.symImage_size] at hsyms
  have h₁ : file.drop c.ehdrsz = (copyShdrs null symsh strsh).flatMap (c.shdrImage order).write ++
      (sectionNames ++ symbols) := by
    apply List.drop_left'
    rw [(c.ehdrImage order).length_write, c.ehdrImage_size]
  have h₂ : file.drop (c.ehdrsz + 4 * c.shdrsz) = sectionNames ++ symbols := drop_past h₁ htable
  have h₃ : file.drop c.symsOffset = symbols := drop_past h₂ rfl
  exact ⟨h₁, h₂, h₃, drop_past h₃ hsyms⟩

/-- The stream of the file behind its header. -/
def copyOpened (big : Bool) (r : ElfEhdr c.bits) (null symsh strsh : ElfShdr c.bits)
    (syms : List (ElfSym c.bits)) (strtab : List UInt8) : ElfStream :=
  c.opened big (pmelfNewstrm (symtabFile big r null symsh strsh syms strtab) true false)
    (copyEhdr r)

theorem ElfClass.ehdrsz_lt (c : ElfClass) : c.ehdrsz < 2 ^ 63 := by
  apply two_pow_lt
  cases c <;> decide

theorem ElfClass.names_lt (c : ElfClass) : c.ehdrsz + 4 * c.shdrsz < 2 ^ 63 := by
  apply two_pow_lt
  cases c <;> decide

theorem copy_getshtab (big : Bool) (r : ElfEhdr c.bits) (null symsh strsh : ElfShdr c.bits)
    (syms : List (ElfSym c.bits)) (strtab : List UInt8) :
    ∃ p, pmelfGetshtab big (copyOpened big r null symsh strsh syms strtab) (copyEhdr r) =
      .ok ({ copyOpened big r null symsh strsh syms strtab with pos := p },
        copyShtab null symsh strsh) := by
  obtain ⟨hshdrs, hnames, -, -⟩ := symtabFile_parts big r null symsh strsh syms strtab
  have hshoff := copyEhdr_shoff r
  have hoff := namesShdr_offset c
  have hsize := namesShdr_size c
  rw [← hshoff] at hshdrs
  rw [← hoff] at hnames
  have hlen : sectionNames.length = (namesShdr c).sh_size.toNat := hsize.symm
  have hget : pmelfGetshtab big (copyOpened big r null symsh strsh syms strtab) (copyEhdr r) =
      .ok (_, ⟨copyShdrs null symsh strsh, sectionNames, (namesShdr c).sh_size.toNat, 1⟩) :=
    pmelfGetshtab_ok rfl (Nat.succ_pos 3) rfl (hshoff ▸ c.ehdrsz_lt) hshdrs rfl (hoff ▸ c.names_lt)
      hlen hnames
  rw [hsize] at hget
  exact ⟨_, hget⟩

/-- Reading the file comes down to reading its symbols. -/
theorem loadTables_symtabFile (big : Bool) (null symsh strsh : ElfShdr c.bits)
    (syms : List (ElfSym c.bits)) (strtab : List UInt8) (hacc : r.Accepted c.ident)
    (hcons : r.Consistent c.shdrsz c.phdrsz) (hnum : 0 < r.e_shnum.toNat) :
    ∃ p, loadTables big (symtabFile big r null symsh strsh syms strtab) = (do
      let (_, symtab) ← pmelfGetsymtab big
        { copyOpened big r null symsh strsh syms strtab with pos := p } (copyShtab null symsh strsh)
      return ⟨c, copyShtab null symsh strsh, symtab⟩) := by
  obtain ⟨p, hshtab⟩ := copy_getshtab big r null symsh strsh syms strtab
  have hehdr : pmelfGetehdr big (pmelfNewstrm (symtabFile big r null symsh strsh syms strtab) true
      false) = .ok (copyOpened big r null symsh strsh syms strtab, c.wrap (copyEhdr r)) :=
    ElfClass.getehdr_ok (copyEhdr_accepted hacc) (copyEhdr_consistent hcons hnum) rfl rfl
  refine ⟨p, ?_⟩
  rw [loadTables, hehdr, orStop, Except.mapError, ok_bind]
  dsimp only
  rw [ElfHdr.run_wrap, loadClass]
  refine (congrArg (· >>= _) hshtab).trans ?_
  rfl

/-! ## Finding the symbol table -/

/-- The header is not taken for that of `.symtab`, nor is its name out of bounds. -/
def ElfShdr.NotSymtab {w : Nat} (shdr : ElfShdr w) : Prop :=
  shdr.sh_type = SHT_SYMTAB → shdr.sh_name.toNat ≠ 11 ∧ shdr.sh_name.toNat < 27

/-- Among the names of the sections, only `.symtab` is found. -/
theorem strcmpEq_sectionNames : ∀ k < 27,
    strcmpEq symtabName (sectionNames.drop k) = .ok (decide (k = 11)) := by
  decide

section

variable {shdrs shdrs' : List (ElfShdr c.bits)} {idx : Nat} {shdr : ElfShdr c.bits}
  {acc : Option (ElfShdr c.bits)}

theorem secName_sectionNames (hname : shdr.sh_name.toNat ≤ 27) :
    pmelfSecName ⟨shdrs', sectionNames, 27, idx⟩ shdr =
      some (sectionNames.drop shdr.sh_name.toNat) := if_neg hname.not_gt

theorem findSymsh_match (htype : shdr.sh_type = SHT_SYMTAB) (hname : shdr.sh_name.toNat = 11) :
    findSymsh ⟨shdrs', sectionNames, 27, idx⟩ acc (shdr :: shdrs) =
      if acc.isSome then .error (.error .symtabs)
      else findSymsh ⟨shdrs', sectionNames, 27, idx⟩ (some shdr) shdrs := by
  rw [findSymsh, if_pos htype, secName_sectionNames (by omega)]
  dsimp only
  rw [strcmpEq_sectionNames _ (by omega), ok_bind, hname]
  rfl

theorem findSymsh_skip (hname : shdr.sh_type = SHT_SYMTAB →
    shdr.sh_name.toNat ≠ 11 ∧ shdr.sh_name.toNat < 27) :
    findSymsh ⟨shdrs', sectionNames, 27, idx⟩ acc (shdr :: shdrs) =
      findSymsh ⟨shdrs', sectionNames, 27, idx⟩ acc shdrs := by
  rw [findSymsh]
  by_cases htype : shdr.sh_type = SHT_SYMTAB
  · obtain ⟨h11, hlt⟩ := hname htype
    rw [if_pos htype, secName_sectionNames hlt.le]
    dsimp only
    rw [strcmpEq_sectionNames _ hlt, ok_bind, decide_eq_false h11]
    rfl
  · rw [if_neg htype]

/-- Behind the names, nothing is compared. -/
theorem findSymsh_outside (htype : shdr.sh_type = SHT_SYMTAB) (hname : 27 ≤ shdr.sh_name.toNat) :
    ∃ e, findSymsh ⟨shdrs', sectionNames, 27, idx⟩ acc (shdr :: shdrs) = .error e := by
  rw [findSymsh, if_pos htype]
  rcases hname.eq_or_lt with heq | hlt
  · rw [secName_sectionNames heq.ge, ← heq]
    exact ⟨.outside, rfl⟩
  · rw [pmelfSecName, if_pos hlt]
    exact ⟨.error .symtabName, rfl⟩

end

/-- The headers behind the first one. -/
theorem findSymsh_tail (hsym : symsh.sh_type = SHT_SYMTAB) (null : ElfShdr c.bits)
    (acc : Option (ElfShdr c.bits)) :
    findSymsh (copyShtab null symsh strsh) acc
        [namesShdr c, symsShdr symsh, stringsShdr symsh strsh] =
      if acc.isSome then .error (.error .symtabs) else .ok (some (symsShdr symsh)) := by
  have hnames : (namesShdr c).sh_name.toNat = 1 := rfl
  have hstrings : (stringsShdr symsh strsh).sh_name.toNat = 19 := rfl
  have hsyms : (symsShdr symsh).sh_type = SHT_SYMTAB := hsym
  rw [copyShtab, findSymsh_skip (by omega), findSymsh_match hsyms rfl, findSymsh_skip (by omega),
    findSymsh]

theorem findSymsh_ok (hsym : symsh.sh_type = SHT_SYMTAB) (hnull : null.NotSymtab) :
    findSymsh (copyShtab null symsh strsh) none (copyShdrs null symsh strsh) =
      .ok (some (symsShdr symsh)) := by
  rw [copyShdrs_eq, copyShtab, findSymsh_skip hnull]
  exact findSymsh_tail hsym null none

theorem findSymsh_fails (strsh : ElfShdr c.bits) (hsym : symsh.sh_type = SHT_SYMTAB)
    (hnull : ¬null.NotSymtab) :
    ∃ e, findSymsh (copyShtab null symsh strsh) none (copyShdrs null symsh strsh) = .error e := by
  obtain ⟨htype, hbad⟩ := Classical.not_imp.mp hnull
  rw [copyShdrs_eq, copyShtab]
  by_cases h11 : null.sh_name.toNat = 11
  · rw [findSymsh_match htype h11]
    exact ⟨_, findSymsh_tail hsym null (some null)⟩
  · apply findSymsh_outside htype
    by_contra hlt
    exact hbad ⟨h11, not_le.mp hlt⟩

/-! ## Reading the symbols -/

theorem loadTables_copy_ok (big : Bool) (hacc : r.Accepted c.ident)
    (hcons : r.Consistent c.shdrsz c.phdrsz) (hnum : 0 < r.e_shnum.toNat)
    (hdesc : Describes symsh strsh syms strtab) (hnull : null.NotSymtab)
    (hfits : c.symsOffset + symsh.sh_size.toNat < 2 ^ c.bits)
    (hseek : c.symsOffset + symsh.sh_size.toNat < 2 ^ 63) :
    loadTables big (symtabFile big r null symsh strsh syms strtab) =
      .ok ⟨c, copyShtab null symsh strsh, ⟨syms, strtab, strsh.sh_size.toNat⟩⟩ := by
  obtain ⟨p, hload⟩ := loadTables_symtabFile big null symsh strsh syms strtab hacc hcons hnum
  obtain ⟨-, -, hsyms, hstrings⟩ := symtabFile_parts big r null symsh strsh syms strtab
  have hoff := symsShdr_offset symsh
  have hstroff := stringsShdr_offset strsh hfits
  have hlink : shtabN big (copyShtab null symsh strsh) 3 = .ok (stringsShdr symsh strsh) := by
    apply shtabN_ok rfl
    cases c <;> decide
  rw [hdesc.nsyms, ← hstroff] at hstrings
  rw [← hoff] at hsyms
  have hholds : (symsShdr symsh).HoldsSymbols c :=
    ⟨hdesc.holds.size, hdesc.holds.entsize, hdesc.holds.multiple⟩
  have hsymoff : (symsShdr symsh).sh_offset.toNat < 2 ^ 63 := by
    rw [hoff]
    omega
  have hget : pmelfGetsymtab big { copyOpened big r null symsh strsh syms strtab with pos := p }
      (copyShtab null symsh strsh) =
        .ok (_, ⟨syms, strtab, (stringsShdr symsh strsh).sh_size.toNat⟩) :=
    pmelfGetsymtab_ok rfl (findSymsh_ok hdesc.type hnull) hholds hsymoff hdesc.nsyms hsyms hlink
      (hstroff ▸ hseek) hdesc.strtab (hstrings.trans (List.append_nil strtab).symm)
  rw [hload, hget, ok_bind]
  rfl

theorem loadTables_copy_inv (hacc : r.Accepted c.ident) (hcons : r.Consistent c.shdrsz c.phdrsz)
    (hnum : 0 < r.e_shnum.toNat) (hsym : symsh.sh_type = SHT_SYMTAB) {tables : ElfTables}
    (h : loadTables big (symtabFile big r null symsh strsh syms strtab) = .ok tables) :
    null.NotSymtab := by
  obtain ⟨p, hload⟩ := loadTables_symtabFile big null symsh strsh syms strtab hacc hcons hnum
  rw [hload] at h
  obtain ⟨⟨s', symtab⟩, hget, -⟩ := bind_eq_ok.mp h
  obtain ⟨-, found, strings, hread⟩ := pmelfGetsymtab_inv hget
  by_contra hnull
  obtain ⟨e, hfails⟩ := findSymsh_fails strsh hsym hnull
  have hfound := hfails.symm.trans hread.find
  cases hfound

end Cexp
