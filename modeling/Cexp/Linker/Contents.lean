import Cexp.Lib.Run
import Cexp.Linker.Object

/-!
# What an opened file says

The tables of a file that has been opened are the records that the file has at the offsets in its
header (`Bfd.Reads`). Each section has the relocations of the one relocation section that names it
(`markRelocs_sect`), and they are the entries that stand in the file (`relocSyms_rela`).
-/

namespace Cexp

open CLib CLib.Image

theorem orElf_eq_ok {α : Type} {x : Except ElfStop α} {a : α} : orElf x = .ok a ↔ x = .ok a := by
  cases x with
  | error e => simp [orElf, Except.mapError]
  | ok b => simp [orElf, Except.mapError]

/-! ## Records of a file -/

/-! `big` is the byte order of the file. -/

namespace ElfClass

variable (c : ElfClass) (big : Bool) (file : List UInt8)

def fileEhdr : ElfEhdr c.bits := (c.ehdrImage big).recordAt file 0

/-- The section header number `i` of a file. -/
def fileShdr (i : Nat) : ElfShdr c.bits :=
  (c.shdrImage big).recordAt file ((c.fileEhdr big file).e_shoff.toNat + i * c.shdrsz)

/-- The symbol number `j` of a symbol table. -/
def fileSym (symsh : ElfShdr c.bits) (j : Nat) : ElfSym c.bits :=
  (c.symImage big).recordAt file (symsh.sh_offset.toNat + j * c.symsz)

/-- The entry number `k` of a relocation section. -/
def fileRela (rels : ElfShdr c.bits) (k : Nat) : Rela c.bits :=
  let r : ElfRela c.bits :=
    (c.relocImage big .rela).recordAt file (rels.sh_offset.toNat + k * c.relsz .rela)
  ⟨r.r_offset, r.r_info, r.r_addend⟩

end ElfClass

section

variable {α : Type} {s s' : ElfStream} {n : Nat} {l : List α}

theorem getRecord_inv {img : Bool → Image α} {swap : α → α} {big : Bool} {r : α}
    (hf : Flips img swap) (h : getRecord (img big) swap s = .ok (s', r)) :
    r = (img (big != s.needswap)).recordAt s.file s.pos ∧
      s' = { s with pos := s.pos + (img big).size } := by
  rw [getRecord_eq hf] at h
  cases hread : s.sread (img big).size with
  | error e =>
    rw [hread] at h
    cases h
  | ok out =>
    obtain ⟨b, t⟩ := out
    obtain ⟨-, hb, rfl⟩ := ElfStream.sread_length hread
    rw [hread] at h
    cases h
    refine ⟨?_, rfl⟩
    unfold recordAt
    rw [hb, hf.size_eq big (big != s.needswap)]

/-- The loop reads the records that stand in the file. -/
theorem slurp_records {get : ElfStream → Except ElfError (ElfStream × α)} {img : Image α}
    {needswap : Bool}
    (hget : ∀ s s' r, s.needswap = needswap → get s = .ok (s', r) →
      r = img.recordAt s.file s.pos ∧ s' = { s with pos := s.pos + img.size })
    (hs : s.needswap = needswap) (h : slurp get n s = .ok (s', l)) {k : Nat} {r : α}
    (hk : l[k]? = some r) : r = img.recordAt s.file (s.pos + k * img.size) := by
  induction n generalizing s l k with
  | zero =>
    cases h
    cases hk
  | succ n ih =>
    obtain ⟨⟨s₁, r₁⟩, hfirst, h⟩ := bind_eq_ok.mp h
    obtain ⟨⟨s₂, l₂⟩, hrest, h⟩ := bind_eq_ok.mp h
    cases h
    obtain ⟨hr₁, rfl⟩ := hget s s₁ r₁ hs hfirst
    cases k with
    | zero =>
      cases hk
      rw [Nat.zero_mul, Nat.add_zero]
      exact hr₁
    | succ k =>
      rw [Nat.succ_mul, Nat.add_comm (k * img.size), ← Nat.add_assoc]
      exact ih (s := { s with pos := s.pos + img.size }) hs hrest hk

end

section

variable {c : ElfClass} {big : Bool} {s s' : ElfStream} {n k : Nat} {data : List UInt8}

theorem ElfClass.getshdr_inv {r : ElfShdr c.bits} (h : c.getshdr big s = .ok (s', r)) :
    r = (c.shdrImage (big != s.needswap)).recordAt s.file s.pos ∧
      s' = { s with pos := s.pos + c.shdrsz } := by
  rw [← c.shdrImage_size big]
  cases c with
  | c32 => exact getRecord_inv Elf32Shdr.flips_get h
  | c64 => exact getRecord_inv Elf64Shdr.flips_get h

theorem ElfClass.getsym_inv {r : ElfSym c.bits} (h : c.getsym big s = .ok (s', r)) :
    r = (c.symImage (big != s.needswap)).recordAt s.file s.pos ∧
      s' = { s with pos := s.pos + c.symsz } := by
  rw [← c.symImage_size big]
  cases c with
  | c32 => exact getRecord_inv (Elf32Sym.flips fun _ => rfl) h
  | c64 => exact getRecord_inv (Elf64Sym.flips fun _ => rfl) h

theorem slurp_getshdr_inv {l : List (ElfShdr c.bits)} (h : slurp (c.getshdr big) n s = .ok (s', l))
    {shdr : ElfShdr c.bits} (hk : l[k]? = some shdr) :
    shdr = (c.shdrImage (big != s.needswap)).recordAt s.file (s.pos + k * c.shdrsz) := by
  rw [← c.shdrImage_size (big != s.needswap)]
  apply slurp_records _ rfl h hk
  intro t t' r ht hget
  obtain ⟨hr, ht'⟩ := ElfClass.getshdr_inv hget
  rw [ht] at hr
  exact ⟨hr, by rw [ht', c.shdrImage_size]⟩

theorem slurp_getsym_inv {l : List (ElfSym c.bits)} (h : slurp (c.getsym big) n s = .ok (s', l))
    {sym : ElfSym c.bits} (hk : l[k]? = some sym) :
    sym = (c.symImage (big != s.needswap)).recordAt s.file (s.pos + k * c.symsz) := by
  rw [← c.symImage_size (big != s.needswap)]
  apply slurp_records _ rfl h hk
  intro t t' r ht hget
  obtain ⟨hr, ht'⟩ := ElfClass.getsym_inv hget
  rw [ht] at hr
  exact ⟨hr, by rw [ht', c.symImage_size]⟩

/-- A section that is read is what stands in the file. -/
theorem pmelfGetscn_bytes {p : ElfShdr c.bits} (h : pmelfGetscn s p 0 0 = .ok (s', data)) :
    data = sectionBytes s p := by
  rw [pmelfGetscn_eq] at h
  obtain ⟨s₁, hseek, h⟩ := bind_eq_ok.mp h
  obtain ⟨-, rfl⟩ := seek_inv (orError_eq_ok.mp hseek)
  obtain ⟨⟨b, s₂⟩, hread, h⟩ := bind_eq_ok.mp h
  obtain ⟨-, hb, -⟩ := ElfStream.sread_length (orError_eq_ok.mp hread)
  cases h
  exact hb

theorem pmelfGetshtab_shdrs {ehdr : ElfEhdr c.bits} {shtab : Shtab c}
    (h : pmelfGetshtab big s ehdr = .ok (s', shtab)) {shdr : ElfShdr c.bits}
    (hk : shtab.shdrs[k]? = some shdr) :
    shdr = (c.shdrImage (big != s.needswap)).recordAt s.file
      (ehdr.e_shoff.toNat + k * c.shdrsz) := by
  rw [pmelfGetshtab] at h
  split at h
  · cases h
  obtain ⟨s₁, hseek, h⟩ := bind_eq_ok.mp h
  obtain ⟨-, rfl⟩ := seek_inv (orStop_eq_ok.mp hseek)
  obtain ⟨⟨s₂, shdrs⟩, hslurp, h⟩ := bind_eq_ok.mp h
  dsimp only at h
  split at h
  · cases h
  · obtain ⟨⟨s₃, strtab⟩, -, h⟩ := bind_eq_ok.mp h
    cases h
    exact slurp_getshdr_inv (orStop_eq_ok.mp hslurp) hk

end

/-! ## Relocation sections -/

/-- The header of a relocation section. -/
def ElfShdr.IsReloc {w : Nat} (shdr : ElfShdr w) : Prop :=
  shdr.sh_type = SHT_REL ∨ shdr.sh_type = SHT_RELA

instance {w : Nat} (shdr : ElfShdr w) : Decidable shdr.IsReloc :=
  inferInstanceAs (Decidable (_ ∨ _))

section

variable {c : ElfClass} {sects : List Asect} {rels rels' : List (SecRef × Nat)}
  {l : List (ElfShdr c.bits × Nat)}

/-- The header is one of relocations for the section `tsec`. -/
def RelocsFor (sects : List Asect) (shdr : ElfShdr c.bits) (tsec : SecRef) : Prop :=
  shdr.IsReloc ∧ shdr2sec sects shdr.sh_info.toNat = some tsec

theorem markReloc_lookup {r : ElfShdr c.bits × Nat} (h : markReloc sects rels r = .ok rels')
    (tsec : SecRef) (n : Nat) : rels'.lookup tsec = some n ↔
      rels.lookup tsec = some n ∨ n = r.2 ∧ RelocsFor sects r.1 tsec := by
  unfold markReloc at h
  split at h
  · next hreloc =>
    split at h
    · cases h
    · next tsec' hsec =>
      split at h
      · cases h
      · next hnone =>
        cases h
        rw [Option.isSome_iff_ne_none, not_not] at hnone
        have hnew : RelocsFor sects r.1 tsec ↔ tsec = tsec' := by
          constructor
          · rintro ⟨-, hfor⟩
            exact Option.some.inj (hfor.symm.trans hsec)
          · rintro rfl
            exact ⟨hreloc, hsec⟩
        rw [List.lookup_append, hnew, List.lookup_cons, List.lookup_nil]
        by_cases heq : tsec = tsec'
        · subst heq
          simp [hnone, eq_comm]
        · have hbeq : (tsec == tsec') = false := beq_eq_false_iff_ne.mpr heq
          rw [hbeq, Option.or_none]
          simp [heq]
  · next hreloc =>
    cases h
    have hno : ¬RelocsFor sects r.1 tsec := fun hfor => hreloc hfor.1
    simp [hno]

/-- The loop over the headers: a section has the relocations that it had before or those of the one
header that names it. -/
theorem markRelocs_lookup (h : l.foldlM (markReloc sects) rels = .ok rels') (tsec : SecRef)
    (n : Nat) : rels'.lookup tsec = some n ↔
      rels.lookup tsec = some n ∨ ∃ shdr, (shdr, n) ∈ l ∧ RelocsFor sects shdr tsec := by
  induction l generalizing rels with
  | nil =>
    cases h
    simp
  | cons r l ih =>
    rw [List.foldlM_cons] at h
    obtain ⟨rels₁, hfirst, hrest⟩ := bind_eq_ok.mp h
    rw [ih hrest, markReloc_lookup hfirst, or_assoc]
    refine or_congr_right ?_
    constructor
    · rintro (⟨rfl, hfor⟩ | ⟨shdr, hmem, hfor⟩)
      · exact ⟨r.1, List.mem_cons_self, hfor⟩
      · exact ⟨shdr, List.mem_cons_of_mem _ hmem, hfor⟩
    · rintro ⟨shdr, hmem, hfor⟩
      rcases List.mem_cons.mp hmem with rfl | hmem
      · exact .inl ⟨rfl, hfor⟩
      · exact .inr ⟨shdr, hmem, hfor⟩

end

/-- What earlier files have left concerns the three standard sections only. -/
def Stale (stale : List (SecRef × Nat)) : Prop := ∀ i n, (SecRef.sect i, n) ∉ stale

theorem mem_zipIdx_drop {α : Type} {l : List α} {a : α} {n : Nat} :
    (a, n) ∈ l.zipIdx.drop 1 ↔ 0 < n ∧ l[n]? = some a := by
  cases l with
  | nil => simp
  | cons b l =>
    rw [List.zipIdx_cons, List.drop_one, List.tail_cons, List.mk_mem_zipIdx_iff_le_and_getElem?_sub]
    cases n with
    | zero => simp
    | succ n => simp

theorem markRelocs_sect {c : ElfClass} {stale rels : List (SecRef × Nat)} {shtab : Shtab c}
    {sects : List Asect} (h : markRelocs stale shtab sects = .ok rels) (hstale : Stale stale)
    (i n : Nat) : rels.lookup (.sect i) = some n ↔
      0 < n ∧ ∃ shdr, shtab.shdrs[n]? = some shdr ∧ RelocsFor sects shdr (.sect i) := by
  have hnone : stale.lookup (.sect i) = none := by
    rw [List.lookup_eq_none_iff]
    rintro ⟨tsec, m⟩ hmem
    have hne : SecRef.sect i ≠ tsec := by
      rintro rfl
      exact hstale i m hmem
    simpa using hne
  rw [markRelocs_lookup h, hnone]
  simp only [mem_zipIdx_drop, reduceCtorEq, false_or, and_assoc, exists_and_left]

/-! ## Opening a file -/

/-- The byte order of a file. -/
def fileOrder (e_ident : ElfIdent) : Bool := identAt e_ident EI_DATA != ELFDATA2LSB

theorem bne_needswapOf (big : Bool) (e_ident : ElfIdent) :
    (big != needswapOf big e_ident) = fileOrder e_ident := by
  unfold needswapOf fileOrder bne
  cases big <;> cases identAt e_ident EI_DATA == ELFDATA2LSB <;> rfl

section

variable {c : ElfClass} {big att : Bool} {stale : List (SecRef × Nat)} {s t : ElfStream}
  {ehdr : ElfEhdr c.bits} {b : Bfd c}

/-- What `bfd_openstreamr` has done behind the header of the file. -/
structure TablesOpened (big att : Bool) (stale : List (SecRef × Nat)) (s : ElfStream)
    (b : Bfd c) : Prop where
  moved : s.Moved b.s
  shtab : ∃ s₁, pmelfGetshtab big s b.ehdr = .ok (s₁, b.shtab)
  symhdrs : ∃ s₁ s₂, pmelfFindSymhdrs s₁ b.shtab = .ok (s₂, b.nsyms, b.symsh)
  nsyms : 2 ≤ b.nsyms
  symstrs : ∃ s₁ s₂ strsh, s.Moved s₁ ∧ shtabN big b.shtab b.symsh.sh_link.toNat = .ok strsh ∧
    pmelfGetscn s₁ strsh 0 0 = .ok (s₂, b.symstrs)
  sects : ∃ heads, b.shtab.shdrs.zipIdx.mapM (b.head big) = .ok heads ∧
    attributesOnce att b.shtab.shdrs = true ∧ openSections heads = some b.sects
  rels : markRelocs stale b.shtab b.sects = .ok b.rels

theorem openTables_opened (h : openTables big att stale s ehdr = .ok b) :
    b.ehdr = ehdr ∧ TablesOpened big att stale s b := by
  obtain ⟨⟨s₁, shtab⟩, hshtab, h⟩ := bind_eq_ok.mp h
  obtain ⟨⟨s₂, nsyms, symsh⟩, hsymhdrs, h⟩ := bind_eq_ok.mp h
  rw [orElf_eq_ok] at hshtab hsymhdrs
  dsimp only at h
  split at h
  · cases h
  next hnsyms =>
  obtain ⟨strsh, hstrsh, h⟩ := bind_eq_ok.mp h
  obtain ⟨⟨s₃, symstrs⟩, hscn, h⟩ := bind_eq_ok.mp h
  rw [orElf_eq_ok] at hstrsh hscn
  obtain ⟨heads, hheads, h⟩ := bind_eq_ok.mp h
  split at h
  · cases h
  next hatt =>
  split at h
  · cases h
  next sects hsects =>
  obtain ⟨rels, hrels, h⟩ := bind_eq_ok.mp h
  cases h
  have hmoved₁ := (pmelfGetshtab_inv hshtab).1
  have hmoved₂ := hmoved₁.trans (pmelfFindSymhdrs_inv hsymhdrs).2.2.2.2
  refine ⟨rfl, hmoved₂.trans (pmelfGetscn_inv hscn).1, ⟨s₁, hshtab⟩, ⟨s₁, s₂, hsymhdrs⟩,
    Nat.not_lt.mp hnsyms, ⟨s₂, s₃, strsh, hmoved₂, hstrsh, hscn⟩,
    ⟨heads, hheads, ?_, hsects⟩, hrels⟩
  simpa using hatt

/-- The header of a file that is opened. -/
theorem bfdOpenstreamr_opened (h : bfdOpenstreamr big att stale t = .ok ⟨c, b⟩) :
    ∃ s, pmelfGetehdr big t = .ok (s, c.wrap b.ehdr) ∧ TablesOpened big att stale s b := by
  obtain ⟨⟨s, hdr⟩, hhdr, h⟩ := bind_eq_ok.mp h
  rw [orElf_eq_ok, orStop_eq_ok] at hhdr
  obtain ⟨c', r, rfl⟩ := ElfClass.exists_wrap hdr
  have hrun : (c'.wrap r).run (fun c ehdr => (openTables big att stale s ehdr).map fun b =>
      (⟨c, b⟩ : (c : ElfClass) × Bfd c)) = (openTables big att stale s r).map fun b => ⟨c', b⟩ := by
    cases c' <;> rfl
  dsimp only at h
  rw [hrun] at h
  cases hopen : openTables big att stale s r with
  | error e =>
    rw [hopen] at h
    cases h
  | ok b' =>
    rw [hopen] at h
    cases h
    obtain ⟨rfl, htables⟩ := openTables_opened hopen
    exact ⟨s, hhdr, htables⟩

/-- The tables of an opened file are those of the file. -/
structure Bfd.Reads (b : Bfd c) (big : Bool) (file : List UInt8) : Prop where
  stream : b.s.file = file
  readable : b.s.readable = true
  order : (big != b.s.needswap) = fileOrder b.ehdr.e_ident
  ehdr : b.ehdr = c.fileEhdr (fileOrder b.ehdr.e_ident) file
  shnum : b.shtab.shdrs.length = b.ehdr.e_shnum.toNat
  shdr : ∀ {i : Nat} {shdr : ElfShdr c.bits}, b.shdr i = some shdr →
    shdr = c.fileShdr (fileOrder b.ehdr.e_ident) file i
  symtab : ∃ i, b.shdr i = some b.symsh ∧ b.symsh.sh_type = SHT_SYMTAB

theorem getehdr_record (h : pmelfGetehdr big t = .ok (s, c.wrap ehdr)) :
    ehdr = c.fileEhdr (fileOrder ehdr.e_ident) t.file := by
  have hfile : ∃ rest, t.file =
      (c.ehdrImage (big != needswapOf big ehdr.e_ident)).write ehdr ++ rest := by
    cases c with
    | c32 => exact (pmelfGetehdr_inv (readsClass32 big) Elf32Ehdr.flips_get h).2.2
    | c64 => exact (pmelfGetehdr_inv (readsClass64 big) Elf64Ehdr.flips_get h).2.2
  obtain ⟨rest, hfile⟩ := hfile
  rw [bne_needswapOf] at hfile
  unfold ElfClass.fileEhdr recordAt
  rw [hfile, List.drop_zero, List.take_left' (Image.length_write _ ehdr), Image.read_write]

theorem TablesOpened.reads (hget : pmelfGetehdr big t = .ok (s, c.wrap b.ehdr))
    (h : TablesOpened big att stale s b) : b.Reads big t.file := by
  have hr := pmelfGetehdr_readable hget
  have hrecord := getehdr_record hget
  have hopened : s = c.opened big t b.ehdr := (ElfClass.getehdr_inv hr hget).2.2
  have hfile : s.file = t.file := by rw [hopened]; rfl
  have horder : (big != s.needswap) = fileOrder b.ehdr.e_ident := by
    rw [hopened]
    exact bne_needswapOf big b.ehdr.e_ident
  have hneeds : b.s.needswap = s.needswap := by
    obtain ⟨p, hp⟩ := h.moved
    rw [hp]
  obtain ⟨s₁, hshtab⟩ := h.shtab
  obtain ⟨s₂, s₃, hsymhdrs⟩ := h.symhdrs
  refine ⟨h.moved.file.trans hfile, ?_, ?_, hrecord, (pmelfGetshtab_inv hshtab).2.2, ?_, ?_⟩
  · rw [h.moved.readable, hopened]
    exact hr
  · rw [hneeds]
    exact horder
  · intro i shdr hi
    have hi' := pmelfGetshtab_shdrs hshtab hi
    rw [horder, hfile] at hi'
    unfold ElfClass.fileShdr
    rw [← hrecord]
    exact hi'
  · obtain ⟨hmem, hsym, -⟩ := findSymsh_unique (pmelfFindSymhdrs_inv hsymhdrs).1
    obtain ⟨i, hi⟩ := List.mem_iff_getElem?.mp hmem
    exact ⟨i, hi, hsym.type⟩

end

section

variable {c : ElfClass} {big : Bool} {bytes : List UInt8} {b : Bfd c}

/-! ## Symbols -/

/-- The symbol number `j` of an opened file. -/
def Bfd.fileSym (b : Bfd c) (bytes : List UInt8) (j : Nat) : ElfSym c.bits :=
  c.fileSym (fileOrder b.ehdr.e_ident) bytes b.symsh j

theorem canonicalizeSymtab_inv {syms : List Asymbol} (hreads : b.Reads big bytes)
    (h : b.canonicalizeSymtab big = .ok syms) :
    syms.length = b.nsyms ∧ ∀ {j : Nat} {sp : Asymbol}, syms[j]? = some sp →
      ∃ sp', b.canonicalSym (b.fileSym bytes j) = .ok sp' ∧
        sp = if j = 0 then { sp' with sect := .abs } else sp' := by
  obtain ⟨s, hseek, h⟩ := bind_eq_ok.mp h
  rw [orElf_eq_ok, orStop_eq_ok] at hseek
  obtain ⟨-, rfl⟩ := seek_inv hseek
  obtain ⟨⟨s', esyms⟩, hslurp, h⟩ := bind_eq_ok.mp h
  rw [orElf_eq_ok, orStop_eq_ok] at hslurp
  obtain ⟨syms', hmap, h⟩ := bind_eq_ok.mp h
  cases h
  obtain ⟨hlength, hget⟩ := mapM_getElem? hmap
  refine ⟨?_, ?_⟩
  · rw [List.length_modify, hlength]
    exact (slurp_inv (fun s s' r hget => ⟨_, (ElfClass.getsym_inv hget).2⟩) hslurp).2
  · intro j sp hj
    rw [List.getElem?_modify] at hj
    obtain ⟨sp', hj', hsp⟩ := Option.map_eq_some_iff.mp hj
    obtain ⟨esym, hesym, hsym⟩ := hget hj'
    have hrecord := slurp_getsym_inv hslurp hesym
    rw [hreads.order, hreads.stream] at hrecord
    refine ⟨sp', ?_, ?_⟩
    · rw [← hsym, hrecord]
      rfl
    · by_cases hzero : j = 0
      · rw [if_pos hzero.symm] at hsp
        rw [if_pos hzero, hsp]
      · rw [if_neg (Ne.symm hzero)] at hsp
        rw [if_neg hzero]
        exact hsp.symm

/-! ## Relocations -/

theorem shdr2secAny_sect {n ndex i : Nat} (h : shdr2secAny n ndex = some (.sect i)) : ndex = i := by
  unfold shdr2secAny at h
  split at h
  · cases h
  split at h
  · cases h
  split at h
  · cases h
  split at h
  · cases h
    rfl
  · cases h

theorem relocHeader_inv {n : Nat} {rels : ElfShdr c.bits} (h : b.relocHeader n = some rels) :
    b.shdr n = some rels := by
  unfold Bfd.relocHeader at h
  split at h
  · next i hi =>
    rw [shdr2secAny_sect hi]
    exact h
  · cases h

/-- The relocations of a section that a section of RELA entries is for. -/
theorem canonicalizeReloc_rela {sect : SecRef} {n nrels entsz : Nat} {rels : ElfShdr c.bits}
    {data : List UInt8} (hn : b.rels.lookup sect = some n) (hshdr : b.shdr n = some rels)
    (hrela : rels.sh_type = SHT_RELA) (h : b.canonicalizeReloc sect = some (nrels, entsz, data)) :
    entsz = c.relsz .rela ∧ nrels = rels.sh_size.toNat / c.relsz .rela ∧
      (nrels ≠ 0 → data = sectionBytes b.s rels) := by
  obtain ⟨⟨rels', kind⟩, hsec, h⟩ := Option.bind_eq_some_iff.mp h
  obtain ⟨n', hn', hsec⟩ := Option.bind_eq_some_iff.mp hsec
  obtain ⟨rels'', hheader, hsec⟩ := Option.bind_eq_some_iff.mp hsec
  obtain ⟨kind', hkind, hsec⟩ := Option.bind_eq_some_iff.mp hsec
  rw [hn] at hn'
  cases hn'
  rw [relocHeader_inv hheader] at hshdr
  cases hshdr
  have hkind' : Bfd.relKind rels = some .rela := by
    unfold Bfd.relKind
    rw [hrela]
    rfl
  rw [hkind'] at hkind
  cases hkind
  split at hsec
  · cases hsec
    dsimp only at h
    split at h
    · next hzero =>
      cases h
      exact ⟨rfl, hzero.symm, fun hne => absurd rfl hne⟩
    · obtain ⟨⟨s', data'⟩, hscn, h⟩ := Option.bind_eq_some_iff.mp h
      cases h
      refine ⟨rfl, rfl, fun _ => ?_⟩
      cases hget : pmelfGetscn b.s rels 0 0 with
      | error e =>
        rw [hget] at hscn
        cases hscn
      | ok out =>
        rw [hget] at hscn
        cases hscn
        exact pmelfGetscn_bytes hget
  · cases hsec

/-- An entry that is read is the one that stands in the file. -/
theorem relocNext_rela {rels : ElfShdr c.bits} (hreads : b.Reads big bytes) {k : Nat}
    (hk : k < rels.sh_size.toNat / c.relsz .rela) :
    Bfd.relocNext big (c.relsz .rela) (sectionBytes b.s rels) k = c.fileRela big bytes rels k := by
  have hsize := c.relocImage_size big .rela
  have hle : k * c.relsz .rela + (c.relocImage big .rela).size ≤ rels.sh_size.toNat := by
    have hmul := Nat.mul_le_of_le_div (c.relsz .rela) (k + 1) rels.sh_size.toNat hk
    rw [hsize]
    rw [Nat.succ_mul] at hmul
    exact hmul
  have hrecord := recordAt_take (c.relocImage big .rela) (bytes.drop rels.sh_offset.toNat) hle
  rw [← recordAt_append] at hrecord
  unfold Bfd.relocNext ElfClass.fileRela sectionBytes
  rw [hreads.stream, ← hrecord, ← hsize]
  rfl

/-! ## Sections -/

theorem sections_inv {i : Nat} {sect : Section} (h : (b.sections big)[i]? = some sect) :
    ∃ a shdr, b.sects[i]? = some a ∧ b.shdr i = some shdr ∧
      sect = b.linkerSection big ((a, shdr), i) := by
  unfold Bfd.sections at h
  rw [List.getElem?_map] at h
  obtain ⟨r, hr, hsect⟩ := Option.map_eq_some_iff.mp h
  rw [List.getElem?_zipIdx] at hr
  obtain ⟨⟨a, shdr⟩, hzip, hr⟩ := Option.map_eq_some_iff.mp hr
  obtain ⟨ha, hshdr⟩ := List.getElem?_zip_eq_some.mp hzip
  rw [Nat.zero_add] at hr
  refine ⟨a, shdr, ha, hshdr, ?_⟩
  rw [← hsect, ← hr]

theorem setFlags_length (secs : List Asect) (idx : Nat) (h : Shdr) (linkOnce : Bool) :
    (setFlags secs idx h linkOnce).length = secs.length := List.length_modify ..

theorem elf2bfdsec_length {secs secs' : List Asect} {r : Shdr × Nat}
    (h : elf2bfdsec secs r = some secs') : secs'.length = secs.length := by
  unfold elf2bfdsec at h
  dsimp only at h
  split at h
  · cases h
    exact List.length_modify ..
  · cases h
    exact List.length_modify ..
  · split at h
    · cases h
      exact List.length_modify ..
    · cases h
      rw [setFlags_length, List.length_modify]
  · split at h
    · cases h
      rw [setFlags_length, List.length_modify]
    · cases h
      exact List.length_modify ..
  · split at h
    · cases h
      rw [setFlags_length, List.length_modify]
    · cases h
      exact List.length_modify ..
  · split at h
    · obtain ⟨secs₁, hchain, rfl⟩ := Option.map_eq_some_iff.mp h
      rw [setFlags_length, List.length_modify, (chainGroup_chained hchain).length,
        List.length_modify]
    · cases h
      rw [setFlags_length, List.length_modify, List.length_modify]
  · cases h
    rw [setFlags_length, List.length_modify]
  · cases h

/-- There is a section for each header. -/
theorem openSections_length {shdrs : List Shdr} {secs : List Asect}
    (h : openSections shdrs = some secs) : secs.length = shdrs.length := by
  have hrun : Run elf2bfdsec (fun _ _ => True) (List.replicate shdrs.length Asect.zero) secs :=
    Run.of_foldlM (fun _ _ => trivial) h
  apply hrun.invariant (I := fun l => l.length = shdrs.length) _ List.length_replicate
  intro secs₁ r secs₂ hsecs _ hstep
  exact (elf2bfdsec_length hstep).trans hsecs

/-! ## The relocations of a section -/

/-- The entries of a section of RELA entries are the relocations of the section it is for. -/
theorem relocSyms_rela {i n : Nat} {rels : ElfShdr c.bits} (hreads : b.Reads big bytes)
    (hn : b.rels.lookup (.sect i) = some n) (hshdr : b.shdr n = some rels)
    (hrela : rels.sh_type = SHT_RELA) (hne : b.relocSyms big i ≠ []) :
    (b.relocSyms big i).length = rels.sh_size.toNat / c.relsz .rela ∧
      ∀ k < rels.sh_size.toNat / c.relsz .rela,
        b.relocEntry big i k = c.fileRela big bytes rels k ∧
        (b.relocSyms big i)[k]? = some (b.relocGetSymIdx (c.fileRela big bytes rels k)) := by
  unfold Bfd.relocSyms at hne ⊢
  unfold Bfd.relocEntry
  cases hcanon : b.canonicalizeReloc (.sect i) with
  | none =>
    rw [hcanon] at hne
    exact absurd rfl hne
  | some out =>
    obtain ⟨nrels, entsz, data⟩ := out
    obtain ⟨rfl, rfl, hdata⟩ := canonicalizeReloc_rela hn hshdr hrela hcanon
    dsimp only
    refine ⟨by rw [List.length_map, List.length_range], ?_⟩
    intro k hk
    have hnext := relocNext_rela hreads hk
    rw [← hdata (Nat.ne_zero_of_lt hk)] at hnext
    refine ⟨hnext, ?_⟩
    rw [List.getElem?_map, List.getElem?_range hk, Option.map_some, hnext]

end

end Cexp
