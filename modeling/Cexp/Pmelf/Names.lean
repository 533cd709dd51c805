import Cexp.Pmelf.ReadBack

/-!
# Indices and names

Which indices and offsets of an ELF file the reader checks. `pmelf_getehdr` compares `e_shstrndx`
with the number of section headers. `pmelf_find_symhdrs` goes on with the `sh_link` of the symbol
table unchecked, and `pmelf_sec_name` and `pmelf_sym_name` accept an offset that is equal to the
length of the string table.
-/

namespace Cexp

open CLib CLib.Image

variable {c : ElfClass}

/-! ## Names -/

/-- `pmelf_sym_name`: the buffer from the name on. -/
def pmelfSymName (symtab : Symtab c) (sym : ElfSym c.bits) : Option (List UInt8) :=
  if sym.st_name.toNat > symtab.strtablen then none
  else some (symtab.strtab.drop sym.st_name.toNat)

/-- The names of symbols that are asked for elsewhere. -/
theorem symName_eq (symtab : Symtab c) (sym : ElfSym c.bits) :
    symName symtab sym =
      match pmelfSymName symtab sym with
      | none => .ok none
      | some name => (cstring name).map some := by
  unfold symName pmelfSymName
  split <;> rfl

/-- All names that are returned begin inside of the string table exactly if none is at its end. -/
theorem names_inside_iff {α : Type} {offset : α → Nat} {len : Nat} {name : α → Option (List UInt8)}
    {buf : List UInt8} (hname : ∀ a, name a = if offset a > len then none
      else some (buf.drop (offset a))) (l : List α) :
    (∀ a ∈ l, ∀ str, name a = some str → offset a < len) ↔ ∀ a ∈ l, offset a ≠ len := by
  refine forall_congr' fun a => forall_congr' fun _ => ?_
  rw [hname]
  by_cases hgt : offset a > len
  · rw [if_pos hgt]
    refine iff_of_true ?_ hgt.ne'
    intro str hstr
    cases hstr
  · rw [if_neg hgt]
    constructor
    · intro h
      exact (h _ rfl).ne
    · intro hne str _
      omega

/-! ## The symbol table header -/

/-- A section header of a symbol table. -/
structure IsSymtab (shtab : Shtab c) (shdr : ElfShdr c.bits) : Prop where
  type : shdr.sh_type = SHT_SYMTAB
  name : ∃ rest, pmelfSecName shtab shdr = some (symtabName ++ 0 :: rest)

theorem strcmpEq_eq_true {des buf : List UInt8} (h : strcmpEq des buf = .ok true) :
    ∃ rest, buf = des ++ 0 :: rest := by
  induction des generalizing buf with
  | nil =>
    cases buf with
    | nil => cases h
    | cons b buf =>
      have hb : b = 0 := of_decide_eq_true (Except.ok.inj h)
      exact ⟨buf, by rw [hb, List.nil_append]⟩
  | cons d des ih =>
    cases buf with
    | nil => cases h
    | cons b buf =>
      rw [strcmpEq] at h
      split at h
      · rename_i heq
        obtain ⟨rest, hrest⟩ := ih h
        exact ⟨rest, by rw [heq, hrest, List.cons_append]⟩
      · cases h

theorem strcmpEq_append {des rest : List UInt8} (hdes : 0 ∉ des) :
    strcmpEq des (des ++ 0 :: rest) = .ok true := by
  induction des with
  | nil => rfl
  | cons d des ih =>
    rw [List.cons_append, strcmpEq, if_pos rfl, ih (List.not_mem_of_not_mem_cons hdes)]

/-- A pass of the loop: the header of a symbol table is kept if it is the first one. -/
theorem findSymsh_cons {shtab : Shtab c} {found r : Option (ElfShdr c.bits)}
    {shdr : ElfShdr c.bits} {shdrs : List (ElfShdr c.bits)}
    (h : findSymsh shtab found (shdr :: shdrs) = .ok r) :
    (IsSymtab shtab shdr ∧ found = none ∧ findSymsh shtab (some shdr) shdrs = .ok r) ∨
      (¬IsSymtab shtab shdr ∧ findSymsh shtab found shdrs = .ok r) := by
  rw [findSymsh] at h
  split at h
  · rename_i htype
    split at h
    · cases h
    · rename_i name hname
      obtain ⟨eq, hcmp, h⟩ := bind_eq_ok.mp h
      cases eq with
      | true =>
        obtain ⟨rest, hrest⟩ := strcmpEq_eq_true hcmp
        left
        cases found with
        | none => exact ⟨⟨htype, rest, hname.trans (congrArg some hrest)⟩, rfl, h⟩
        | some symsh => cases h
      | false =>
        right
        refine ⟨?_, h⟩
        rintro ⟨-, rest, hsome⟩
        rw [hname] at hsome
        rw [Option.some.inj hsome, strcmpEq_append (by decide)] at hcmp
        cases hcmp
  · rename_i htype
    exact .inr ⟨fun hsym => htype hsym.type, h⟩

theorem findSymsh_some {shtab : Shtab c} {symsh symsh' : ElfShdr c.bits}
    {shdrs : List (ElfShdr c.bits)} (h : findSymsh shtab (some symsh) shdrs = .ok (some symsh')) :
    symsh' = symsh ∧ ∀ shdr ∈ shdrs, ¬IsSymtab shtab shdr := by
  induction shdrs with
  | nil =>
    cases h
    exact ⟨rfl, by simp⟩
  | cons shdr shdrs ih =>
    rcases findSymsh_cons h with ⟨-, hnone, -⟩ | ⟨hnot, hrest⟩
    · cases hnone
    · obtain ⟨heq, hall⟩ := ih hrest
      exact ⟨heq, List.forall_mem_cons.mpr ⟨hnot, hall⟩⟩

/-- The loop finds the header of the one symbol table that there is. -/
theorem findSymsh_unique {shtab : Shtab c} {shdrs : List (ElfShdr c.bits)}
    {symsh : ElfShdr c.bits} (h : findSymsh shtab none shdrs = .ok (some symsh)) :
    symsh ∈ shdrs ∧ IsSymtab shtab symsh ∧
      ∀ shdr ∈ shdrs, IsSymtab shtab shdr → shdr = symsh := by
  induction shdrs with
  | nil => cases h
  | cons shdr shdrs ih =>
    rcases findSymsh_cons h with ⟨hsym, -, hrest⟩ | ⟨hnot, hrest⟩
    · obtain ⟨rfl, hnone⟩ := findSymsh_some hrest
      refine ⟨List.mem_cons_self .., hsym, List.forall_mem_cons.mpr ⟨fun _ => rfl, ?_⟩⟩
      intro shdr hmem hsym'
      exact absurd hsym' (hnone shdr hmem)
    · obtain ⟨hmem, hsym, hall⟩ := ih hrest
      refine ⟨List.mem_cons_of_mem _ hmem, hsym, List.forall_mem_cons.mpr ⟨?_, hall⟩⟩
      intro hhead
      exact absurd hhead hnot

/-! ## Files that are accepted -/

/-- An error return. -/
def Rejects {α : Type} (x : Except ElfStop α) : Prop := ∃ e, x = .error (.error e)

/-- The indices and the names of the tables of a file that `pmelf_find_symhdrs` does not reject. -/
structure TablesSafe (big : Bool) (s : ElfStream) (shtab : Shtab c) : Prop where
  shstrndx : shtab.idx < shtab.nshdrs
  link : ∀ s' n symsh, pmelfFindSymhdrs s shtab = .ok (s', n, symsh) →
    symsh.sh_link.toNat < shtab.nshdrs
  secNames : ¬Rejects (pmelfFindSymhdrs s shtab) → ∀ shdr ∈ shtab.shdrs, ∀ name,
    pmelfSecName shtab shdr = some name → shdr.sh_name.toNat < shtab.strtablen
  symNames : ∀ s' symtab, pmelfGetsymtab big s shtab = .ok (s', symtab) → ∀ sym ∈ symtab.syms,
    ∀ name, pmelfSymName symtab sym = some name → sym.st_name.toNat < symtab.strtablen

/-- What the fields of such a file must be like. -/
structure TablesFit (big : Bool) (s : ElfStream) (shtab : Shtab c) : Prop where
  link : (∃ r, pmelfFindSymhdrs s shtab = .ok r) → ∀ symsh ∈ shtab.shdrs, IsSymtab shtab symsh →
    symsh.sh_link.toNat < shtab.nshdrs
  secNames : ¬Rejects (pmelfFindSymhdrs s shtab) → ∀ shdr ∈ shtab.shdrs,
    shdr.sh_name.toNat ≠ shtab.strtablen
  symNames : ∀ s' symtab, pmelfGetsymtab big s shtab = .ok (s', symtab) → ∀ sym ∈ symtab.syms,
    sym.st_name.toNat ≠ symtab.strtablen

theorem tables_safe_iff {big : Bool} {s : ElfStream} {shtab : Shtab c}
    (hidx : shtab.idx < shtab.nshdrs) : TablesSafe big s shtab ↔ TablesFit big s shtab := by
  have hsec : (∀ shdr ∈ shtab.shdrs, ∀ name, pmelfSecName shtab shdr = some name →
      shdr.sh_name.toNat < shtab.strtablen) ↔ _ := names_inside_iff (fun _ => rfl) shtab.shdrs
  have hsym : ∀ symtab : Symtab c, (∀ sym ∈ symtab.syms, ∀ name,
      pmelfSymName symtab sym = some name → sym.st_name.toNat < symtab.strtablen) ↔ _ :=
    fun symtab => names_inside_iff (fun _ => rfl) symtab.syms
  constructor
  · intro h
    refine ⟨?_, ?_, ?_⟩
    · rintro ⟨⟨s', n, symsh'⟩, hfind⟩ symsh hmem hsymtab
      have hfound := (pmelfFindSymhdrs_inv hfind).1
      rw [(findSymsh_unique hfound).2.2 symsh hmem hsymtab]
      exact h.link s' n symsh' hfind
    · intro hnot
      exact hsec.mp (h.secNames hnot)
    · intro s' symtab hget
      exact (hsym symtab).mp (h.symNames s' symtab hget)
  · intro h
    refine ⟨hidx, ?_, ?_, ?_⟩
    · intro s' n symsh hfind
      obtain ⟨hmem, hsymtab, -⟩ := findSymsh_unique (pmelfFindSymhdrs_inv hfind).1
      exact h.link ⟨_, hfind⟩ symsh hmem hsymtab
    · intro hnot
      exact hsec.mpr (h.secNames hnot)
    · intro s' symtab hget
      exact (hsym symtab).mpr (h.symNames s' symtab hget)

/-! ## Headers -/

/-- A routine that only stops with an error return. -/
def OnlyErrors {α : Type} (x : Except ElfStop α) : Prop := ∀ e, x = .error e → ∃ e', e = .error e'

theorem onlyErrors_error {α : Type} (e : ElfError) :
    OnlyErrors (.error (.error e) : Except ElfStop α) := by
  intro e' he
  exact ⟨e, (Except.error.inj he).symm⟩

theorem onlyErrors_ok {α : Type} (a : α) : OnlyErrors (.ok a : Except ElfStop α) := by
  intro e he
  cases he

theorem onlyErrors_bind {α β : Type} {x : Except ElfStop α} {f : α → Except ElfStop β}
    (hx : OnlyErrors x) (hf : ∀ a, x = .ok a → OnlyErrors (f a)) : OnlyErrors (x >>= f) := by
  cases x with
  | error e =>
    intro e' he
    exact hx e' (congrArg Except.error (Except.error.inj he))
  | ok a => exact hf a rfl

theorem onlyErrors_orStop {α : Type} (x : Except ElfError α) : OnlyErrors (orStop x) := by
  cases x with
  | error e => exact onlyErrors_error e
  | ok a => exact onlyErrors_ok a

theorem onlyErrors_orError {α : Type} (e : ElfError) (x : Except ElfError α) :
    OnlyErrors (orError e x) := by
  cases x with
  | error _ => exact onlyErrors_error e
  | ok a => exact onlyErrors_ok a

theorem onlyErrors_getscn (s : ElfStream) (p : ElfShdr c.bits) :
    OnlyErrors (pmelfGetscn s p 0 0) := by
  rw [pmelfGetscn_eq]
  refine onlyErrors_bind (onlyErrors_orError _ _) fun _ _ => ?_
  exact onlyErrors_bind (onlyErrors_orError _ _) fun _ _ => onlyErrors_ok _

theorem pmelfGetehdr_readable {big : Bool} {t : ElfStream} {r : ElfStream × ElfHdr}
    (h : pmelfGetehdr big t = .ok r) : t.readable = true := by
  obtain ⟨s, hseek, h⟩ := bind_eq_ok.mp h
  obtain ⟨-, rfl⟩ := seek_inv hseek
  obtain ⟨⟨b, s'⟩, hread, -⟩ := bind_eq_ok.mp h
  unfold ElfStream.sread at hread
  split at hread
  · rename_i hcond
    rcases hcond with hzero | ⟨hr, -⟩
    · cases hzero
    · exact hr
  · cases hread

/-- The header of the section names is inside of the table. -/
theorem pmelfGetshtab_inside {big : Bool} {s : ElfStream} {r : ElfEhdr c.bits}
    (hndx : 0 < r.e_shnum.toNat → r.e_shstrndx.toNat < r.e_shnum.toNat) :
    OnlyErrors (pmelfGetshtab big s r) := by
  unfold pmelfGetshtab
  split
  · exact onlyErrors_error _
  · rename_i hnum
    refine onlyErrors_bind (onlyErrors_orStop _) fun s₁ _ => ?_
    refine onlyErrors_bind (onlyErrors_orStop _) ?_
    rintro ⟨s₂, shdrs⟩ hslurp
    have hlen := (slurp_inv (fun _ _ _ => ElfClass.getshdr_moved) (orStop_eq_ok.mp hslurp)).2
    have hlt : r.e_shstrndx.toNat < shdrs.length := by
      rw [hlen]
      exact hndx (Nat.pos_of_ne_zero hnum)
    dsimp only
    rw [List.getElem?_eq_getElem hlt]
    exact onlyErrors_bind (onlyErrors_getscn _ _) fun _ _ => onlyErrors_ok _

theorem pmelfGetshtab_idx {big : Bool} {s s' : ElfStream} {r : ElfEhdr c.bits} {shtab : Shtab c}
    (h : pmelfGetshtab big s r = .ok (s', shtab)) : shtab.idx = r.e_shstrndx.toNat := by
  unfold pmelfGetshtab at h
  split at h
  · cases h
  · obtain ⟨s₁, -, h⟩ := bind_eq_ok.mp h
    obtain ⟨⟨s₂, shdrs⟩, -, h⟩ := bind_eq_ok.mp h
    dsimp only at h
    split at h
    · cases h
    · obtain ⟨⟨s₃, strtab⟩, -, h⟩ := bind_eq_ok.mp h
      cases h
      rfl

/-- The indices and names of a file whose header is accepted are inside of their tables. -/
def IndexSafe (big : Bool) (t : ElfStream) : Prop :=
  ∀ (c : ElfClass) s (r : ElfEhdr c.bits), pmelfGetehdr big t = .ok (s, c.wrap r) →
    OnlyErrors (pmelfGetshtab big s r) ∧
      ∀ s' shtab, pmelfGetshtab big s r = .ok (s', shtab) → TablesSafe big s' shtab

/-- The `sh_link` of the symbol table is the index of a section, and no name begins at the end of
its string table. -/
def IndexFits (big : Bool) (t : ElfStream) : Prop :=
  ∀ (c : ElfClass) s (r : ElfEhdr c.bits), pmelfGetehdr big t = .ok (s, c.wrap r) →
    ∀ s' shtab, pmelfGetshtab big s r = .ok (s', shtab) → TablesFit big s' shtab

theorem index_safe_iff (big : Bool) (t : ElfStream) : IndexSafe big t ↔ IndexFits big t := by
  refine forall_congr' fun c => forall_congr' fun s => forall_congr' fun r => ?_
  refine forall_congr' fun hget => ?_
  have hcons := (ElfClass.getehdr_inv (pmelfGetehdr_readable hget) hget).2.1
  have hndx : 0 < r.e_shnum.toNat → r.e_shstrndx.toNat < r.e_shnum.toNat :=
    fun hpos => (hcons.shstrndx hpos).2
  rw [and_iff_right (pmelfGetshtab_inside hndx)]
  refine forall_congr' fun s' => forall_congr' fun shtab => forall_congr' fun hshtab => ?_
  obtain ⟨-, hpos, hlen⟩ := pmelfGetshtab_inv hshtab
  apply tables_safe_iff
  rw [Shtab.nshdrs, hlen, pmelfGetshtab_idx hshtab]
  exact hndx hpos

/-! ## A symbol table that links behind the section headers -/

def linkPastEhdr : ElfEhdr ElfClass.c32.bits where
  e_ident := ⟨[0x7f, 0x45, 0x4c, 0x46, 1, 1, 1, 0, 0, 0, 0, 0, 0, 0, 0, 0], rfl⟩
  e_type := 1
  e_machine := 20
  e_version := 1
  e_entry := 0
  e_phoff := 0
  e_shoff := 52
  e_flags := 0
  e_ehsize := 52
  e_phentsize := 0
  e_phnum := 0
  e_shentsize := 40
  e_shnum := 2
  e_shstrndx := 1

/-- The header of `.symtab`; there is no section header with the index 2. -/
def linkPastSymsh : ElfShdr ElfClass.c32.bits := ⟨1, SHT_SYMTAB, 0, 0, 141, 16, 2, 0, 4, 16⟩

def linkPastStrsh : ElfShdr ElfClass.c32.bits := ⟨0, 3, 0, 0, 132, 9, 0, 0, 1, 0⟩

/-- The name of the null section and `.symtab` -/
def linkPastNames : List UInt8 := 0 :: (symtabName ++ [0])

/-- The two headers of the file, which has the byte order of a little endian host, the names and a
symbol. -/
def linkPastFile : List UInt8 :=
  (ElfClass.c32.ehdrImage false).write linkPastEhdr ++
    ([linkPastSymsh, linkPastStrsh].flatMap (ElfClass.c32.shdrImage false).write ++
      (linkPastNames ++ List.replicate 16 0))

/-- The section headers that are read. -/
def linkPastShtab : Shtab .c32 := ⟨[linkPastSymsh, linkPastStrsh], linkPastNames, 9, 1⟩

/-- The stream behind the header. -/
def linkPastStream : ElfStream :=
  ElfClass.c32.opened false (pmelfNewstrm linkPastFile true false) linkPastEhdr

theorem linkPast_getehdr : pmelfGetehdr false (pmelfNewstrm linkPastFile true false) =
    .ok (linkPastStream, ElfClass.c32.wrap linkPastEhdr) := by
  apply ElfClass.getehdr_ok
  · exact ⟨rfl, rfl, rfl⟩
  · exact ⟨fun _ => rfl, fun h => absurd h (Nat.lt_irrefl 0),
      fun _ => ⟨Nat.one_pos, Nat.one_lt_two⟩, by decide⟩
  · rfl
  · rfl

theorem linkPast_getshtab : ∃ s, pmelfGetshtab false linkPastStream linkPastEhdr =
    .ok (s, linkPastShtab) := by
  have hshoff : linkPastEhdr.e_shoff.toNat = 52 := rfl
  have htable : linkPastStream.file.drop 52 =
      [linkPastSymsh, linkPastStrsh].flatMap (ElfClass.c32.shdrImage false).write ++ _ :=
    List.drop_left' ((ElfClass.c32.ehdrImage false).length_write linkPastEhdr)
  have hnames : linkPastStream.file.drop (52 + 80) = linkPastNames ++ _ :=
    drop_past htable ((ElfClass.c32.shdrImage false).length_table [linkPastSymsh, linkPastStrsh])
  rw [← hshoff] at htable
  have hoff : linkPastStrsh.sh_offset.toNat = 52 + 80 := rfl
  rw [← hoff] at hnames
  have hnum : 0 < linkPastEhdr.e_shnum.toNat := Nat.succ_pos 1
  have hget : pmelfGetshtab false linkPastStream linkPastEhdr =
      .ok (_, ⟨[linkPastSymsh, linkPastStrsh], linkPastNames, linkPastStrsh.sh_size.toNat,
        linkPastEhdr.e_shstrndx.toNat⟩) :=
    pmelfGetshtab_ok rfl hnum rfl (two_pow_lt (by decide)) htable rfl (two_pow_lt (by decide)) rfl
      hnames
  exact ⟨_, hget⟩

theorem symtab_link_past : ¬IndexSafe false (pmelfNewstrm linkPastFile true false) := by
  obtain ⟨s, hshtab⟩ := linkPast_getshtab
  have hfind : pmelfFindSymhdrs s linkPastShtab = .ok (_, _, linkPastSymsh) :=
    pmelfFindSymhdrs_ok rfl ⟨Nat.succ_pos 15, .inr rfl, rfl⟩ (two_pow_lt (by decide))
  intro h
  obtain ⟨-, hsafe⟩ := h .c32 _ linkPastEhdr linkPast_getehdr
  have hlink := (hsafe _ _ hshtab).link _ _ linkPastSymsh hfind
  exact absurd hlink (Nat.lt_irrefl 2)

end Cexp
