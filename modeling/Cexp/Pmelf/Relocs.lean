import Cexp.Pmelf.ReadBack

/-!
# Relocation tables

`pmelf_getrel` reads a relocation section of either kind and class as a whole and swaps the words
of the buffer in place. In a file of class 64 it swaps the words of 64 bits first and the words of
32 bits behind them, in one run for both classes.
-/

namespace Cexp

open CLib CLib.Image

/-! ## Entries -/

structure ElfRel (w : Nat) where
  r_offset : BitVec w
  r_info : BitVec w
  deriving DecidableEq

structure ElfRela (w : Nat) where
  r_offset : BitVec w
  r_info : BitVec w
  r_addend : BitVec w
  deriving DecidableEq

inductive RelKind where
  | rel
  | rela
  deriving DecidableEq, Repr

/-- The entries of a section. -/
def ElfReloc (w : Nat) : RelKind → Type
  | .rel => ElfRel w
  | .rela => ElfRela w

def SHT_RELA : BitVec 32 := 4
def SHT_REL : BitVec 32 := 9

def RelKind.shType : RelKind → BitVec 32
  | .rel => SHT_REL
  | .rela => SHT_RELA

/-- The fields of an entry, in their order. -/
def ElfReloc.words {w : Nat} : (kind : RelKind) → ElfReloc w kind → List (BitVec w)
  | .rel, r => [ElfRel.r_offset r, ElfRel.r_info r]
  | .rela, r => [ElfRela.r_offset r, ElfRela.r_info r, ElfRela.r_addend r]

def ElfReloc.image {w : Nat} (addr : Bool → Image (BitVec w)) (big : Bool) :
    (kind : RelKind) → Image (ElfReloc w kind)
  | .rel => ((addr big).prod (addr big)).map (fun (a, b) => (⟨a, b⟩ : ElfRel w))
      (fun r => (r.r_offset, r.r_info)) (fun _ => rfl) (fun _ => rfl)
  | .rela => ((addr big).prod ((addr big).prod (addr big))).map
      (fun (a, b, c) => (⟨a, b, c⟩ : ElfRela w))
      (fun r => (r.r_offset, r.r_info, r.r_addend)) (fun _ => rfl) (fun _ => rfl)

namespace ElfClass

/-- The image of addresses. -/
def wordImage (c : ElfClass) (big : Bool) : Image (BitVec c.bits) :=
  match c with
  | .c32 => word32 big
  | .c64 => word64 big

/-- Entries in memory. -/
def relocImage (c : ElfClass) (big : Bool) (kind : RelKind) : Image (ElfReloc c.bits kind) :=
  ElfReloc.image c.wordImage big kind

/-- The size of an entry. -/
def relsz : ElfClass → RelKind → Nat
  | .c32, .rel => 8
  | .c32, .rela => 12
  | .c64, .rel => 16
  | .c64, .rela => 24

end ElfClass

variable {c : ElfClass}

/-! ## Reading a section -/

/-- A loop over the `n` words of a buffer, which an `int` counts. -/
def swapWords {w : Nat} (img : Image (BitVec w)) (swap : Nat → Nat) (n : Nat) (buf : List UInt8) :
    Except ElfStop (List UInt8) :=
  if n < 2 ^ 31 then .ok (img.modifyTable (onWord swap) n buf) else .error .overflow

/-- The loops of `pmelf_getrel` over a buffer of `size` bytes. -/
def swapRelocs (c : ElfClass) (big : Bool) (size : Nat) (buf : List UInt8) :
    Except ElfStop (List UInt8) := do
  let buf ← match c with
    | .c64 => swapWords (word64 big) elfSwap64 (size / 8) buf
    | .c32 => .ok buf
  swapWords (word32 big) elfSwap32 (size / 4) buf

/-- `pmelf_getrel`, with the buffer that it fills. -/
def pmelfGetrel (big : Bool) (s : ElfStream) (psect : ElfShdr c.bits) :
    Except ElfStop (ElfStream × List UInt8) :=
  if SHT_REL ≠ psect.sh_type ∧ SHT_RELA ≠ psect.sh_type then .error (.error .quiet)
  else
    let entsz := if SHT_REL = psect.sh_type then c.relsz .rel else c.relsz .rela
    let sh_size := psect.sh_size.toNat
    if entsz ≠ psect.sh_entsize.toNat then
      .error (.error (.relEntsize entsz psect.sh_entsize.toNat))
    else if sh_size % entsz ≠ 0 then .error (.error (.relSize entsz))
    else
      let ne := sh_size / entsz
      if ne < 1 then .error (.error .relEmpty)
      else do
        let (s, buf) ← pmelfGetscn s psect 0 0
        if s.needswap then do
          let buf ← swapRelocs c big (ne * entsz) buf
          return (s, buf)
        else return (s, buf)

/-! ## What the file says -/

/-- A relocation section of which the file holds at least one entry. -/
structure RelSection (s : ElfStream) (psect : ElfShdr c.bits) (kind : RelKind) : Prop where
  type : psect.sh_type = kind.shType
  entsize : psect.sh_entsize.toNat = c.relsz kind
  multiple : c.relsz kind ∣ psect.sh_size.toNat
  entries : 1 ≤ psect.sh_size.toNat / c.relsz kind
  readable : s.readable = true
  offset : psect.sh_offset.toNat < 2 ^ 63
  inFile : psect.sh_offset.toNat + psect.sh_size.toNat ≤ s.file.length

/-- The bytes of a section. -/
def sectionBytes (s : ElfStream) (psect : ElfShdr c.bits) : List UInt8 :=
  (s.file.drop psect.sh_offset.toNat).take psect.sh_size.toNat

/-- The entries that a buffer holds, in a byte order. -/
def relocsOf (c : ElfClass) (big : Bool) (kind : RelKind) (buf : List UInt8) :
    List (ElfReloc c.bits kind) :=
  (c.relocImage big kind).readTable (buf.length / c.relsz kind) buf

/-- The entries of the file are delivered in the byte order of the host; a section whose size is no
multiple of that of an entry is an error. -/
structure RelocsRead (big : Bool) (s : ElfStream) (psect : ElfShdr c.bits) : Prop where
  entries : ∀ kind, RelSection s psect kind → ∃ s' buf, pmelfGetrel big s psect = .ok (s', buf) ∧
    relocsOf c big kind buf = relocsOf c (big != s.needswap) kind (sectionBytes s psect)
  size : ∀ kind, psect.sh_type = kind.shType → ¬c.relsz kind ∣ psect.sh_size.toNat →
    ∃ e, pmelfGetrel big s psect = .error (.error e)

/-- The words of 32 bits read the same in both byte orders. -/
def Palindromic (buf : List UInt8) : Prop :=
  ∀ v ∈ (word32 false).readTable (buf.length / 4) buf, onWord elfSwap32 v = v

/-! ## Tables of entries and of words -/

namespace ElfClass

theorem relocImage_size (c : ElfClass) (big : Bool) (kind : RelKind) :
    (c.relocImage big kind).size = c.relsz kind := by
  cases c <;> cases kind <;> rfl

theorem relsz_pos (c : ElfClass) (kind : RelKind) : 0 < c.relsz kind := by
  cases c <;> cases kind <;> decide

/-- An entry is written as its words. -/
theorem relocImage_write (c : ElfClass) (big : Bool) (kind : RelKind)
    (r : ElfReloc c.bits kind) :
    (c.relocImage big kind).write r = (ElfReloc.words kind r).flatMap (c.wordImage big).write := by
  cases kind with
  | rel => exact congrArg (_ ++ ·) (List.append_nil _).symm
  | rela => exact congrArg (fun l => _ ++ (_ ++ l)) (List.append_nil _).symm

/-- Swapping the words of a table of entries changes the byte order of the entries. -/
theorem relocs_words (c : ElfClass) (big : Bool) {kind : RelKind}
    (es : List (ElfReloc c.bits kind)) :
    es.flatMap (c.relocImage big kind).write =
      (es.flatMap (ElfReloc.words kind)).flatMap (c.wordImage big).write := by
  rw [List.flatMap_assoc]
  exact List.flatMap_congr fun r _ => c.relocImage_write big kind r

end ElfClass

/-- The entries of a buffer that is a table. -/
theorem relocsOf_table (big : Bool) {kind : RelKind} (es : List (ElfReloc c.bits kind)) :
    relocsOf c big kind (es.flatMap (c.relocImage big kind).write) = es := by
  unfold relocsOf
  rw [length_table, c.relocImage_size, Nat.mul_div_cancel _ (c.relsz_pos kind)]
  exact readTable_table _ es

/-- A buffer of whole entries is a table. -/
theorem table_relocsOf (big : Bool) {kind : RelKind} {buf : List UInt8}
    (h : c.relsz kind ∣ buf.length) :
    (relocsOf c big kind buf).flatMap (c.relocImage big kind).write = buf := by
  refine table_readTable _ ?_
  rw [c.relocImage_size, Nat.div_mul_cancel h]

/-! ## Words that read the same -/

/-- Both halves of a word read the same in both byte orders. -/
def HalvesPalindromic (v : BitVec 64) : Prop :=
  ((leBytes 8 v.toNat).take 4).reverse = (leBytes 8 v.toNat).take 4 ∧
    ((leBytes 8 v.toNat).drop 4).reverse = (leBytes 8 v.toNat).drop 4

theorem swap_read_iff (big : Bool) {l : List UInt8} (hl : l.length = 4) :
    onWord elfSwap32 ((word32 big).read l) = (word32 big).read l ↔ l.reverse = l := by
  have hswap : onWord elfSwap32 ((word32 big).read l) = (word32 (!big)).read l :=
    flips_word32.read hl
  have hother : (word32 (!big)).read l = (word32 big).read l.reverse := by
    show BitVec.ofNat 32 (ofLE (ordered (!big) l)) = BitVec.ofNat 32 (ofLE (ordered big l.reverse))
    rw [ordered_reverse]
  have hrev : l.reverse.length = 4 := by rw [List.length_reverse, hl]
  rw [hswap, hother]
  constructor
  · intro h
    rw [← (word32 big).write_read l.reverse hrev, h, (word32 big).write_read l hl]
  · intro h
    rw [h]

theorem readTable_word64 (big : Bool) {l rest : List UInt8} (hl : l.length = 8) (n : Nat) :
    (word32 big).readTable (2 * (n + 1)) (l ++ rest) =
      (word32 big).read (l.take 4) :: (word32 big).read (l.drop 4) ::
        (word32 big).readTable (2 * n) rest := by
  have htake : (l ++ rest).take 4 = l.take 4 := List.take_append_of_le_length (by omega)
  have hdrop : (l ++ rest).drop 4 = l.drop 4 ++ rest := List.drop_append_of_le_length (by omega)
  have hhalf : (l.drop 4).length = 4 := by rw [List.length_drop, hl]
  show (word32 big).read ((l ++ rest).take 4) :: (word32 big).read (((l ++ rest).drop 4).take 4) ::
    (word32 big).readTable (2 * n) (((l ++ rest).drop 4).drop 4) = _
  rw [htake, hdrop, List.take_left' hhalf, List.drop_left' hhalf]

theorem halves_ordered (big : Bool) (v : BitVec 64) :
    (((word64 big).write v).take 4).reverse = ((word64 big).write v).take 4 ∧
      (((word64 big).write v).drop 4).reverse = ((word64 big).write v).drop 4 ↔
    HalvesPalindromic v := by
  cases big with
  | false => exact Iff.rfl
  | true =>
    have hlen : (leBytes 8 v.toNat).length = 8 := leBytes_length 8 _
    have hwrite : (word64 true).write v = (leBytes 8 v.toNat).reverse := rfl
    rw [hwrite, List.take_reverse, List.drop_reverse, hlen, List.reverse_reverse,
      List.reverse_reverse]
    exact and_comm.trans (and_congr eq_comm eq_comm)

/-- The words of 32 bits in a table of words of 64 bits. -/
theorem palindromic_words (big big' : Bool) (ws : List (BitVec 64)) :
    (∀ v ∈ (word32 big).readTable (2 * ws.length) (ws.flatMap (word64 big').write),
      onWord elfSwap32 v = v) ↔ ∀ w ∈ ws, HalvesPalindromic w := by
  induction ws with
  | nil => simp [readTable]
  | cons w ws ih =>
    have hlen : ((word64 big').write w).length = 8 := (word64 big').length_write w
    rw [List.length_cons, List.flatMap_cons, readTable_word64 big hlen, List.forall_mem_cons,
      List.forall_mem_cons, List.forall_mem_cons, ih, ← halves_ordered big', and_assoc,
      swap_read_iff big (by rw [List.length_take, hlen]; rfl),
      swap_read_iff big (by rw [List.length_drop, hlen])]

/-! ## The loops -/

/-- In a file of class 32 the words are swapped once. -/
theorem swapRelocs_c32 (big : Bool) (ws : List (BitVec 32)) (hlt : ws.length < 2 ^ 31) :
    swapRelocs .c32 big (ws.length * 4) (ws.flatMap (word32 (!big)).write) =
      .ok (ws.flatMap (word32 big).write) := by
  have hrun := flips_word32.modifyTable big ws
  show swapWords (word32 big) elfSwap32 (ws.length * 4 / 4) _ = _
  rw [Nat.mul_div_cancel _ (by decide), swapWords, if_pos hlt, hrun]

/-- In a file of class 64 the words of 32 bits are swapped behind those of 64 bits. -/
theorem swapRelocs_c64 (big : Bool) (ws : List (BitVec 64)) :
    swapRelocs .c64 big (ws.length * 8) (ws.flatMap (word64 (!big)).write) =
      if 2 * ws.length < 2 ^ 31 then
        .ok ((word32 big).modifyTable (onWord elfSwap32) (2 * ws.length)
          (ws.flatMap (word64 big).write))
      else .error .overflow := by
  have hrun := flips_word64.modifyTable big ws
  have hquarter : ws.length * 8 / 4 = 2 * ws.length := by omega
  show (swapWords (word64 big) elfSwap64 (ws.length * 8 / 8) _ >>= fun buf =>
    swapWords (word32 big) elfSwap32 (ws.length * 8 / 4) buf) = _
  rw [Nat.mul_div_cancel _ (by decide), hquarter, swapWords]
  by_cases hlt : ws.length < 2 ^ 31
  · rw [if_pos hlt, hrun, ok_bind, swapWords]
  · rw [if_neg hlt, if_neg (by omega)]
    rfl

/-- The second loop of class 64 keeps a table exactly if its words of 32 bits read the same. -/
theorem modifyTable_fixed (big : Bool) (ws : List (BitVec 64)) :
    (word32 big).modifyTable (onWord elfSwap32) (2 * ws.length) (ws.flatMap (word64 big).write) =
        ws.flatMap (word64 big).write ↔ ∀ w ∈ ws, HalvesPalindromic w := by
  have hlen : (ws.flatMap (word64 big).write).length = 2 * ws.length * (word32 big).size := by
    have hsize : (word64 big).size = 8 := rfl
    have hsize' : (word32 big).size = 4 := rfl
    rw [length_table, hsize, hsize']
    omega
  rw [modifyTable_eq_self _ _ hlen, palindromic_words]

/-! ## Whole sections -/

theorem RelSection.length {s : ElfStream} {psect : ElfShdr c.bits} {kind : RelKind}
    (h : RelSection s psect kind) : (sectionBytes s psect).length = psect.sh_size.toNat := by
  have hin := h.inFile
  rw [sectionBytes, List.length_take, List.length_drop]
  omega

/-- The tests of a section of a kind. -/
theorem pmelfGetrel_kind (big : Bool) (s : ElfStream) {psect : ElfShdr c.bits} {kind : RelKind}
    (htype : psect.sh_type = kind.shType) :
    pmelfGetrel big s psect =
      if c.relsz kind ≠ psect.sh_entsize.toNat then
        .error (.error (.relEntsize (c.relsz kind) psect.sh_entsize.toNat))
      else if psect.sh_size.toNat % c.relsz kind ≠ 0 then
        .error (.error (.relSize (c.relsz kind)))
      else if psect.sh_size.toNat / c.relsz kind < 1 then .error (.error .relEmpty)
      else do
        let (s, buf) ← pmelfGetscn s psect 0 0
        if s.needswap then do
          let buf ← swapRelocs c big (psect.sh_size.toNat / c.relsz kind * c.relsz kind) buf
          return (s, buf)
        else return (s, buf) := by
  have hentsz : (if SHT_REL = psect.sh_type then c.relsz .rel else c.relsz .rela) =
      c.relsz kind := by
    rw [htype]
    cases kind <;> rfl
  have hknown : ¬(SHT_REL ≠ psect.sh_type ∧ SHT_RELA ≠ psect.sh_type) := by
    rw [htype]
    cases kind <;> decide
  rw [pmelfGetrel, if_neg hknown, hentsz]

theorem pmelfGetrel_section (big : Bool) {s : ElfStream} {psect : ElfShdr c.bits}
    {kind : RelKind} (h : RelSection s psect kind) :
    pmelfGetrel big s psect =
      let s' := { s with pos := psect.sh_offset.toNat + psect.sh_size.toNat }
      if s.needswap then
        (swapRelocs c big psect.sh_size.toNat (sectionBytes s psect)).map fun buf => (s', buf)
      else .ok (s', sectionBytes s psect) := by
  have hread : pmelfGetscn s psect 0 0 = _ :=
    pmelfGetscn_ok h.readable h.offset h.length (List.take_append_drop _ _).symm
  rw [pmelfGetrel_kind big s h.type, if_neg (not_not_intro h.entsize.symm),
    if_neg (not_not_intro (Nat.mod_eq_zero_of_dvd h.multiple)),
    if_neg (Nat.not_lt.mpr h.entries), hread, ok_bind, Nat.div_mul_cancel h.multiple]
  dsimp only
  split
  · cases swapRelocs c big psect.sh_size.toNat (sectionBytes s psect) <;> rfl
  · rfl

/-! ## Reading -/

/-- A section is a table of entries in either byte order. -/
theorem RelSection.exists_table {s : ElfStream} {psect : ElfShdr c.bits} {kind : RelKind}
    (h : RelSection s psect kind) (big : Bool) :
    ∃ es : List (ElfReloc c.bits kind),
      sectionBytes s psect = es.flatMap (c.relocImage big kind).write := by
  refine ⟨relocsOf c big kind (sectionBytes s psect), (table_relocsOf big ?_).symm⟩
  rw [h.length]
  exact h.multiple

/-- In the byte order of the host the file needs no swapping. -/
theorem getrel_native {big : Bool} {s : ElfStream} {psect : ElfShdr c.bits} {kind : RelKind}
    (h : RelSection s psect kind) (hneeds : s.needswap = false) :
    ∃ s' buf, pmelfGetrel big s psect = .ok (s', buf) ∧
      relocsOf c big kind buf = relocsOf c (big != s.needswap) kind (sectionBytes s psect) := by
  have hrun := pmelfGetrel_section big h
  rw [hneeds] at hrun
  refine ⟨_, _, hrun, ?_⟩
  rw [hneeds, Bool.bne_false]

theorem getrel_swapped32 {big : Bool} {s : ElfStream} {psect : ElfShdr ElfClass.c32.bits}
    {kind : RelKind} (h : RelSection s psect kind) (hneeds : s.needswap = true) :
    ∃ s' buf, pmelfGetrel big s psect = .ok (s', buf) ∧
      relocsOf .c32 big kind buf =
        relocsOf .c32 (big != s.needswap) kind (sectionBytes s psect) := by
  obtain ⟨es, hes⟩ := h.exists_table (!big)
  let ws : List (BitVec 32) := es.flatMap (ElfReloc.words kind)
  have hwords : sectionBytes s psect = ws.flatMap (word32 (!big)).write :=
    hes.trans (ElfClass.relocs_words .c32 (!big) es)
  have hsize : psect.sh_size.toNat = ws.length * 4 := by
    rw [← h.length, hwords, length_table]
    rfl
  have hlt : psect.sh_size.toNat < 2 ^ 32 := psect.sh_size.isLt
  have hrun := pmelfGetrel_section big h
  rw [hneeds, if_pos rfl, hsize, hwords, swapRelocs_c32 big ws (by omega)] at hrun
  refine ⟨_, _, hrun, ?_⟩
  have htable := ElfClass.relocs_words .c32 big es
  have hbuf : relocsOf .c32 big kind (ws.flatMap (word32 big).write) = es := by
    rw [← relocsOf_table big es, htable]
    rfl
  rw [hbuf, hneeds, Bool.bne_true, hes, relocsOf_table]

theorem getrel_swapped64 {big : Bool} {s : ElfStream} {psect : ElfShdr ElfClass.c64.bits}
    {kind : RelKind} (h : RelSection s psect kind) (hneeds : s.needswap = true) :
    (∃ s' buf, pmelfGetrel big s psect = .ok (s', buf) ∧
      relocsOf .c64 big kind buf =
        relocsOf .c64 (big != s.needswap) kind (sectionBytes s psect)) ↔
    psect.sh_size.toNat / 4 < 2 ^ 31 ∧ Palindromic (sectionBytes s psect) := by
  obtain ⟨es, hes⟩ := h.exists_table (!big)
  let ws : List (BitVec 64) := es.flatMap (ElfReloc.words kind)
  have hwords : sectionBytes s psect = ws.flatMap (word64 (!big)).write :=
    hes.trans (ElfClass.relocs_words .c64 (!big) es)
  have hsize : psect.sh_size.toNat = ws.length * 8 := by
    rw [← h.length, hwords, length_table]
    rfl
  have hquarter : psect.sh_size.toNat / 4 = 2 * ws.length := by omega
  have htable : es.flatMap (ElfClass.c64.relocImage big kind).write =
      ws.flatMap (word64 big).write := ElfClass.relocs_words .c64 big es
  have hpal : Palindromic (sectionBytes s psect) ↔
      (word32 big).modifyTable (onWord elfSwap32) (2 * ws.length) (ws.flatMap (word64 big).write) =
        ws.flatMap (word64 big).write := by
    rw [modifyTable_fixed, ← palindromic_words false (!big), ← hwords, Palindromic, h.length,
      hquarter]
  have hrun := pmelfGetrel_section big h
  rw [hneeds, if_pos rfl, hsize, hwords, swapRelocs_c64] at hrun
  rw [hneeds, Bool.bne_true, hes, relocsOf_table, ← hes, hpal, hquarter]
  by_cases hlt : 2 * ws.length < 2 ^ 31
  · rw [if_pos hlt] at hrun
    rw [and_iff_right hlt]
    constructor
    · rintro ⟨s', buf, hok, heq⟩
      rw [hrun] at hok
      cases hok
      have hlen : (ElfClass.c64.relsz kind) ∣ ((word32 big).modifyTable (onWord elfSwap32)
          (2 * ws.length) (ws.flatMap (word64 big).write)).length := by
        have hfour : (word32 big).size = 4 := rfl
        have htotal : (ws.flatMap (word64 big).write).length = ws.length * 8 := length_table _ ws
        have hfit : 2 * ws.length * (word32 big).size ≤ (ws.flatMap (word64 big).write).length := by
          rw [hfour, htotal]
          omega
        rw [length_modifyTable _ _ hfit, htotal, ← hsize]
        exact h.multiple
      rw [← table_relocsOf big hlen, heq, htable]
    · intro hfix
      refine ⟨_, _, hrun, ?_⟩
      rw [hfix, ← htable, relocsOf_table]
  · rw [if_neg hlt] at hrun
    refine iff_of_false ?_ (fun hand => hlt hand.1)
    rintro ⟨s', buf, hok, -⟩
    rw [hrun] at hok
    cases hok

/-- A section with a wrong size is an error. -/
theorem getrel_size (big : Bool) {s : ElfStream} {psect : ElfShdr c.bits} {kind : RelKind}
    (htype : psect.sh_type = kind.shType) (hsize : ¬c.relsz kind ∣ psect.sh_size.toNat) :
    ∃ e, pmelfGetrel big s psect = .error (.error e) := by
  have hmod : psect.sh_size.toNat % c.relsz kind ≠ 0 := by
    intro hzero
    exact hsize (Nat.dvd_of_mod_eq_zero hzero)
  rw [pmelfGetrel_kind big s htype, if_pos hmod]
  split
  · exact ⟨_, rfl⟩
  · exact ⟨_, rfl⟩

/-- Relocations are read correctly except in files of class 64 with the other byte order, where
the words of 32 bits must read the same in both orders and an `int` must count them. -/
theorem relocs_read_iff (big : Bool) (s : ElfStream) (psect : ElfShdr c.bits) :
    RelocsRead big s psect ↔
      (c = .c64 → s.needswap = true → ∀ kind, RelSection s psect kind →
        psect.sh_size.toNat / 4 < 2 ^ 31 ∧ Palindromic (sectionBytes s psect)) := by
  constructor
  · rintro h rfl hneeds kind hsec
    exact (getrel_swapped64 hsec hneeds).mp (h.entries kind hsec)
  · intro h
    refine ⟨?_, fun kind htype hsize => getrel_size big htype hsize⟩
    intro kind hsec
    cases hneeds : s.needswap with
    | false =>
      rw [← hneeds]
      exact getrel_native hsec hneeds
    | true =>
      rw [← hneeds]
      cases c with
      | c32 => exact getrel_swapped32 hsec hneeds
      | c64 => exact (getrel_swapped64 hsec hneeds).mpr (h rfl hneeds kind hsec)

/-! ## A table that is swapped twice -/

/-- A stream of the other byte order than that of a little endian host, with the one entry
`r_offset = 16`, `r_info = 0`. -/
def oneReloc : ElfStream where
  file := [0, 0, 0, 0, 0, 0, 0, 16, 0, 0, 0, 0, 0, 0, 0, 0]
  pos := 0
  readable := true
  writable := false
  machine := 62
  needswap := true
  clss := ELFCLASS64

def oneRelocShdr : ElfShdr ElfClass.c64.bits where
  sh_name := 0
  sh_type := SHT_REL
  sh_flags := 0
  sh_addr := 0
  sh_offset := 0
  sh_size := 16
  sh_link := 0
  sh_info := 0
  sh_addralign := 8
  sh_entsize := 16

theorem halves_swapped_again : ¬RelocsRead false oneReloc oneRelocShdr := by
  have hsec : RelSection oneReloc oneRelocShdr .rel :=
    ⟨rfl, rfl, by decide, by decide, rfl, by decide, by decide⟩
  intro h
  obtain ⟨-, hpal⟩ := (getrel_swapped64 hsec rfl).mp (h.entries .rel hsec)
  have hword : (0x10000000 : BitVec 32) ∈
      (word32 false).readTable 4 (sectionBytes oneReloc oneRelocShdr) :=
    List.mem_cons_of_mem _ (List.mem_cons_self ..)
  exact absurd (hpal _ hword) (by decide)

end Cexp
