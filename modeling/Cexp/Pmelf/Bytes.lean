import Cexp.Ctyps.Types
import Cexp.Lib.Post
import Mathlib.Tactic.Ring

/-!
# Reading bytes of a section

The object attributes of an ELF file are read from a byte buffer that holds a section. A
pointer into the buffer is the list of the bytes from there to the end of the section, so
a read behind the section is a read from the empty list.

Runs stop with a `Halt`: an error return of the code, or the first thing it does that an
attribute reader must not do. The lengths that are still to be read are counters, and
`minus` watches them.
-/

namespace Cexp

/-! ## Halts -/

inductive WordName where
  | subsection
  | subsubsection
  deriving DecidableEq, Repr

/-- What the messages of the reader complain about, with the values they print. -/
inductive Complaint where
  | noVendors
  | formatVersion (v : UInt8)
  /-- reading beyond section, getting the length of the thing named -/
  | word (nm : WordName)
  /-- vendor subsection length > section length -/
  | subsectionLength
  /-- reading beyond section, getting the vendor name -/
  | vendorName
  /-- reading beyond subsubsection, getting the tag -/
  | sectionTag
  | noHandlers (vendorName : List UInt8)
  | vendorSlots
  /-- Tag_Section and Tag_Symbol are not yet supported -/
  | notSupported (tag : Nat)
  | unsupportedTag (tag : Nat)
  /-- reading beyond subsubsection, getting the tag of an attribute -/
  | tag
  | alreadyDefined (tag : Nat)
  | unknownTag (tag : Nat)
  /-- reading beyond subsubsection, getting the (i)value -/
  | ivalue
  /-- reading beyond subsubsection, getting the (s)value -/
  | svalue
  deriving DecidableEq, Repr

inductive Halt where
  /-- the code complains and returns an error -/
  | error (c : Complaint)
  /-- a byte outside the section is read -/
  | outside
  /-- a remaining-length counter goes below zero -/
  | wrap
  /-- an `int` overflows -/
  | overflow
  /-- a store behind the end of an allocated array -/
  | overrun
  /-- a loop that does not end -/
  | hang
  deriving DecidableEq, Repr

def reject {α : Type} (c : Complaint) : Except Halt α := .error (.error c)

/-- The test of a result that is negative if there is none. -/
def orReject {α : Type} (c : Complaint) : Option α → Except Halt α
  | some a => .ok a
  | none => reject c

/-- `a -= b` for an unsigned counter. -/
def minus (a b : Nat) : Except Halt Nat := if a < b then .error .wrap else .ok (a - b)

/-! ## The target -/

/-- What C leaves to the target: `wideShl` is the shift of an `Elf32_Word` by 32 or more. -/
structure ElfHost where
  dm : DataModel
  bigEndian : Bool
  wideShl : Nat → Nat → Nat
  wideShl_zero : ∀ s, wideShl 0 s = 0

/-- Conversion to `Pmelf_Off`. -/
def ElfHost.off (eh : ElfHost) (x : Nat) : Nat := x % 2 ^ eh.dm.longBits

/-- Conversion of an `int` to `size_t`. -/
def ElfHost.sizeT (eh : ElfHost) (z : Int) : Nat := (z % 2 ^ eh.dm.longBits).toNat

def ElfHost.shl (eh : ElfHost) (v shft : Nat) : Nat :=
  if shft < 32 then (v <<< shft) % 2 ^ 32 else eh.wideShl v shft % 2 ^ 32

/-- Conversion of an unsigned number to `int`. -/
def asInt (x : Nat) : Int :=
  if x % 2 ^ 32 < 2 ^ 31 then (x % 2 ^ 32 : Nat) else (x % 2 ^ 32 : Nat) - 2 ^ 32

theorem asInt_of_lt {x : Nat} (h : x < 2 ^ 31) : asInt x = x := by
  have hx : x % 2 ^ 32 = x := Nat.mod_eq_of_lt (by omega)
  rw [asInt, hx, if_pos h]

theorem asInt_neg {x : Nat} (h : 2 ^ 31 ≤ x) (hx : x < 2 ^ 32) : asInt x < 0 := by
  have hmod : x % 2 ^ 32 = x := Nat.mod_eq_of_lt hx
  rw [asInt, hmod, if_neg (by omega)]
  omega

/-- A size that is at least a positive number as an `int` is no negative one. -/
theorem asInt_ge_lt {size k : Nat} (hk : 0 < k) (h : (k : Int) ≤ asInt size) (hs : size < 2 ^ 32) :
    size < 2 ^ 31 := by
  by_contra hge
  have := asInt_neg (by omega) hs
  omega

/-! ## Words -/

def elfSwab (v : Nat) : Nat := (v >>> 8 ||| v <<< 8) % 2 ^ 16

def elfSwap32 (p : Nat) : Nat :=
  (elfSwab (p % 2 ^ 16) <<< 16 ||| elfSwab (p >>> 16 % 2 ^ 16)) % 2 ^ 32

/-- The number that four bytes are, the first one the lowest. -/
def wordLE (b₀ b₁ b₂ b₃ : UInt8) : Nat :=
  b₀.toNat + 2 ^ 8 * b₁.toNat + 2 ^ 16 * b₂.toNat + 2 ^ 24 * b₃.toNat

/-- `memcpy` of four bytes to an `Elf32_Word`. -/
def ElfHost.word (eh : ElfHost) (b₀ b₁ b₂ b₃ : UInt8) : Nat :=
  if eh.bigEndian then wordLE b₃ b₂ b₁ b₀ else wordLE b₀ b₁ b₂ b₃

def pmelfGetword (eh : ElfHost) (needswap : Bool) (b : List UInt8) (sz : Int) (nm : WordName) :
    Except Halt Nat :=
  if 4 > eh.sizeT sz then reject (.word nm)
  else
    match b with
    | b₀ :: b₁ :: b₂ :: b₃ :: _ =>
      if needswap then .ok (elfSwap32 (eh.word b₀ b₁ b₂ b₃)) else .ok (eh.word b₀ b₁ b₂ b₃)
    | _ => .error .outside

theorem wordLE_lt (b₀ b₁ b₂ b₃ : UInt8) : wordLE b₀ b₁ b₂ b₃ < 2 ^ 32 := by
  have h₀ := b₀.toNat_lt
  have h₁ := b₁.toNat_lt
  have h₂ := b₂.toNat_lt
  have h₃ := b₃.toNat_lt
  unfold wordLE
  omega

theorem elfSwab_eq {a b : Nat} (ha : a < 2 ^ 8) (hb : b < 2 ^ 8) :
    elfSwab (a + 2 ^ 8 * b) = b + 2 ^ 8 * a := by
  have hhi : (a + 2 ^ 8 * b) >>> 8 = b := by
    rw [Nat.shiftRight_eq_div_pow]
    omega
  have hlo : (a + 2 ^ 8 * b) <<< 8 = 2 ^ 8 * (a + 2 ^ 8 * b) := by
    rw [Nat.shiftLeft_eq, Nat.mul_comm]
  rw [elfSwab, hhi, hlo, Nat.or_comm, ← Nat.two_pow_add_eq_or_of_lt hb]
  omega

theorem elfSwap32_wordLE (b₀ b₁ b₂ b₃ : UInt8) :
    elfSwap32 (wordLE b₀ b₁ b₂ b₃) = wordLE b₃ b₂ b₁ b₀ := by
  have h₀ := b₀.toNat_lt
  have h₁ := b₁.toNat_lt
  have h₂ := b₂.toNat_lt
  have h₃ := b₃.toNat_lt
  have hlo : wordLE b₀ b₁ b₂ b₃ % 2 ^ 16 = b₀.toNat + 2 ^ 8 * b₁.toNat := by
    unfold wordLE
    omega
  have hhi : wordLE b₀ b₁ b₂ b₃ >>> 16 % 2 ^ 16 = b₂.toNat + 2 ^ 8 * b₃.toNat := by
    rw [Nat.shiftRight_eq_div_pow]
    unfold wordLE
    omega
  rw [elfSwap32, hlo, hhi, elfSwab_eq h₀ h₁, elfSwab_eq h₂ h₃, Nat.shiftLeft_eq, Nat.mul_comm,
    ← Nat.two_pow_add_eq_or_of_lt (by omega)]
  unfold wordLE
  omega

/-- The four bytes of a word, of a file with the given byte order. -/
def wordBytes (big : Bool) (w : Nat) : List UInt8 :=
  let le := [UInt8.ofNat w, UInt8.ofNat (w / 2 ^ 8), UInt8.ofNat (w / 2 ^ 16),
    UInt8.ofNat (w / 2 ^ 24)]
  if big then le.reverse else le

/-- The word that a file of the given byte order means by four bytes. -/
def fileWord (big : Bool) (b₀ b₁ b₂ b₃ : UInt8) : Nat :=
  if big then wordLE b₃ b₂ b₁ b₀ else wordLE b₀ b₁ b₂ b₃

theorem fileWord_lt (big : Bool) (b₀ b₁ b₂ b₃ : UInt8) : fileWord big b₀ b₁ b₂ b₃ < 2 ^ 32 := by
  unfold fileWord
  split <;> apply wordLE_lt

/-- The byte order of the file that is read. -/
def ElfHost.fileBig (eh : ElfHost) (needswap : Bool) : Bool := eh.bigEndian != needswap

theorem getword_sizeT {eh : ElfHost} {x : Nat} (h : x < 2 ^ 32) :
    4 > eh.sizeT (asInt x) ↔ x < 4 := by
  have hpow : (2 : Int) ^ eh.dm.longBits = 2 ^ 32 ∨ (2 : Int) ^ eh.dm.longBits = 2 ^ 64 := by
    cases hdm : eh.dm with
    | ilp32 => exact .inl rfl
    | lp64 => exact .inr rfl
  unfold ElfHost.sizeT
  by_cases hx : x < 2 ^ 31
  · rw [asInt_of_lt hx]
    rcases hpow with hp | hp <;> rw [hp] <;> omega
  · have hmod : x % 2 ^ 32 = x := Nat.mod_eq_of_lt h
    rw [asInt, hmod, if_neg hx]
    rcases hpow with hp | hp <;> rw [hp] <;> omega

theorem pmelfGetword_cons {eh : ElfHost} (needswap : Bool) (b₀ b₁ b₂ b₃ : UInt8)
    (rest : List UInt8) {x : Nat} (h₄ : 4 ≤ x) (hx : x < 2 ^ 32) (nm : WordName) :
    pmelfGetword eh needswap (b₀ :: b₁ :: b₂ :: b₃ :: rest) (asInt x) nm =
      .ok (fileWord (eh.fileBig needswap) b₀ b₁ b₂ b₃) := by
  have hsz : ¬4 > eh.sizeT (asInt x) := by
    rw [getword_sizeT hx]
    omega
  unfold pmelfGetword ElfHost.word ElfHost.fileBig fileWord
  rw [if_neg hsz]
  cases eh.bigEndian <;> cases needswap <;> simp [elfSwap32_wordLE]

theorem pmelfGetword_short {eh : ElfHost} {needswap : Bool} {b : List UInt8} {x : Nat}
    (hx : x < 4) (nm : WordName) :
    pmelfGetword eh needswap b (asInt x) nm = reject (.word nm) := by
  unfold pmelfGetword
  rw [if_pos ((getword_sizeT (by omega)).mpr hx)]

theorem fileWord_wordBytes {big : Bool} {w : Nat} (hw : w < 2 ^ 32) {b₀ b₁ b₂ b₃ : UInt8}
    (h : wordBytes big w = [b₀, b₁, b₂, b₃]) : fileWord big b₀ b₁ b₂ b₃ = w := by
  have hle : wordLE (UInt8.ofNat w) (UInt8.ofNat (w / 2 ^ 8)) (UInt8.ofNat (w / 2 ^ 16))
      (UInt8.ofNat (w / 2 ^ 24)) = w := by
    simp only [wordLE, UInt8.toNat_ofNat']
    omega
  cases big with
  | false =>
    simp only [wordBytes, Bool.false_eq_true, if_false, List.cons.injEq, and_true] at h
    obtain ⟨rfl, rfl, rfl, rfl⟩ := h
    exact hle
  | true =>
    simp only [wordBytes, if_true, List.reverse_cons, List.reverse_nil, List.nil_append,
      List.cons_append, List.cons.injEq, and_true] at h
    obtain ⟨rfl, rfl, rfl, rfl⟩ := h
    exact hle

/-! ## Numbers of variable length -/

/-- The loop of `pmelf_guleb128`, which holds the `n` bytes read so far. -/
def guleb128 (eh : ElfHost) (sz : Int) (n shft rval : Nat) (s : List UInt8) :
    Except Halt (Option (Nat × Nat)) :=
  if sz ≤ n then .ok none
  else
    match s with
    | [] => .error .outside
    | v :: s =>
      if v &&& 0x80 ≠ 0 then
        guleb128 eh sz (n + 1) (shft + 7) (rval ||| eh.shl (v &&& 0x7f).toNat shft) s
      else .ok (some (n + 1, rval ||| eh.shl (v &&& 0x7f).toNat shft))

/-- The number of bytes read and the number decoded, nothing for a return of -1. -/
def pmelfGuleb128 (eh : ElfHost) (s : List UInt8) (sz : Int) : Except Halt (Option (Nat × Nat)) :=
  guleb128 eh sz 0 0 0 s

/-- The seven-bit digits of a number of variable length, the lowest first. -/
inductive Uleb where
  | last (d : Fin 128)
  | more (d : Fin 128) (u : Uleb)
  deriving DecidableEq

namespace Uleb

def bytes : Uleb → List UInt8
  | last d => [UInt8.ofNat d]
  | more d u => UInt8.ofNat (d + 128) :: u.bytes

def value : Uleb → Nat
  | last d => d
  | more d u => d + 128 * u.value

/-- What a target makes of the digits, from the shift `shft` on. -/
def word (eh : ElfHost) : Nat → Nat → Uleb → Nat
  | shft, rval, last d => rval ||| eh.shl d shft
  | shft, rval, more d u => u.word eh (shft + 7) (rval ||| eh.shl d shft)

theorem bytes_pos (u : Uleb) : 0 < u.bytes.length := by
  cases u <;> simp [bytes]

end Uleb

theorem digit_last (d : Fin 128) :
    (UInt8.ofNat d &&& 0x7f).toNat = d ∧ ¬UInt8.ofNat d &&& 0x80 ≠ 0 := by
  revert d
  decide

theorem digit_more (d : Fin 128) :
    (UInt8.ofNat (d + 128) &&& 0x7f).toNat = d ∧ UInt8.ofNat (d + 128) &&& 0x80 ≠ 0 := by
  revert d
  decide

theorem exists_digit (v : UInt8) :
    (∃ d : Fin 128, v = UInt8.ofNat d) ∨ ∃ d : Fin 128, v = UInt8.ofNat (d + 128) := by
  have hv := v.toNat_lt
  by_cases h : v.toNat < 128
  · refine .inl ⟨⟨v.toNat, h⟩, ?_⟩
    simp
  · refine .inr ⟨⟨v.toNat - 128, by omega⟩, ?_⟩
    have hadd : v.toNat - 128 + 128 = v.toNat := by omega
    simp [hadd]

/-- Bytes begin with a number of variable length, or all of them say that it goes on. -/
theorem exists_uleb (s : List UInt8) :
    (∃ (u : Uleb) (rest : List UInt8), s = u.bytes ++ rest) ∨
      ∀ v ∈ s, ∃ d : Fin 128, v = UInt8.ofNat (d + 128) := by
  induction s with
  | nil => exact .inr (by simp)
  | cons v s ih =>
    rcases exists_digit v with ⟨d, rfl⟩ | hd
    · exact .inl ⟨.last d, s, rfl⟩
    · rcases ih with ⟨u, rest, rfl⟩ | hs
      · obtain ⟨d, rfl⟩ := hd
        exact .inl ⟨.more d u, rest, rfl⟩
      · refine .inr fun w hw => ?_
        rcases List.mem_cons.mp hw with rfl | hw
        · exact hd
        · exact hs w hw

theorem guleb128_uleb (eh : ElfHost) (sz : Int) (u : Uleb) (rest : List UInt8)
    (n shft rval : Nat) :
    guleb128 eh sz n shft rval (u.bytes ++ rest) =
      if (n + u.bytes.length : Nat) ≤ sz then .ok (some (n + u.bytes.length, u.word eh shft rval))
      else .ok none := by
  induction u generalizing n shft rval with
  | last d =>
    obtain ⟨hval, hbit⟩ := digit_last d
    have hlen : (Uleb.last d).bytes.length = 1 := rfl
    rw [hlen, Uleb.bytes, List.cons_append, guleb128]
    by_cases hsz : sz ≤ n
    · rw [if_pos hsz, if_neg (by omega)]
    · rw [if_neg hsz, if_neg hbit, if_pos (by omega), hval, Uleb.word]
  | more d u ih =>
    obtain ⟨hval, hbit⟩ := digit_more d
    have hlen : (Uleb.more d u).bytes.length = 1 + u.bytes.length := Nat.add_comm _ _
    rw [hlen, Uleb.bytes, List.cons_append, guleb128, ← Nat.add_assoc]
    by_cases hsz : sz ≤ n
    · rw [if_pos hsz, if_neg (by omega)]
    · rw [if_neg hsz, if_pos hbit, hval, ih, Uleb.word]

theorem guleb128_endless (eh : ElfHost) (sz : Int) (s : List UInt8)
    (hs : ∀ v ∈ s, ∃ d : Fin 128, v = UInt8.ofNat (d + 128)) (n shft rval : Nat) :
    guleb128 eh sz n shft rval s =
      if sz ≤ (n + s.length : Nat) then .ok none else .error .outside := by
  induction s generalizing n shft rval with
  | nil =>
    rw [guleb128]
    rfl
  | cons v s ih =>
    obtain ⟨d, rfl⟩ := hs v (by simp)
    obtain ⟨hval, hbit⟩ := digit_more d
    rw [guleb128]
    by_cases hsz : sz ≤ n
    · rw [if_pos hsz, if_pos (by omega)]
    · have hlen : n + 1 + s.length = n + (s.length + 1) := by omega
      rw [if_neg hsz, if_pos hbit, ih (fun w hw => hs w (by simp [hw])), List.length_cons, hlen]

/-- A digit at its place, added to a number that ends below it. -/
theorem shl_or {eh : ElfHost} {d shft rval : Nat} (hr : rval < 2 ^ shft)
    (h : d * 2 ^ shft < 2 ^ 32) : rval ||| eh.shl d shft = rval + 2 ^ shft * d := by
  unfold ElfHost.shl
  by_cases hs : shft < 32
  · rw [if_pos hs, Nat.shiftLeft_eq, Nat.mod_eq_of_lt h, Nat.or_comm, Nat.mul_comm,
      ← Nat.two_pow_add_eq_or_of_lt hr, Nat.add_comm]
  · have hpow : 2 ^ 32 ≤ 2 ^ shft := Nat.pow_le_pow_right (by decide) (by omega)
    have hd : d = 0 := by
      rcases Nat.eq_zero_or_pos d with hd | hd
      · exact hd
      · have : 2 ^ shft ≤ d * 2 ^ shft := Nat.le_mul_of_pos_left _ hd
        omega
    rw [if_neg hs, hd, eh.wideShl_zero]
    simp

theorem Uleb.word_eq {eh : ElfHost} (u : Uleb) {shft rval : Nat} (hr : rval < 2 ^ shft)
    (h : u.value * 2 ^ shft < 2 ^ 32) : u.word eh shft rval = rval + 2 ^ shft * u.value := by
  induction u generalizing shft rval with
  | last d => exact shl_or hr h
  | more d u ih =>
    have hd := d.isLt
    have hpow : 2 ^ (shft + 7) = 2 ^ shft * 128 := by rw [Nat.pow_add]
    have hval : (d.val + 128 * u.value) * 2 ^ shft
        = d.val * 2 ^ shft + u.value * (2 ^ shft * 128) := by ring
    rw [Uleb.value, hval] at h
    rw [Uleb.word, shl_or hr (by omega), ih, Uleb.value, hpow]
    · ring
    · have : 2 ^ shft * d.val ≤ 2 ^ shft * 127 := Nat.mul_le_mul_left _ (by omega)
      omega
    · rw [hpow]
      omega

/-! ## Strings -/

/-- The loop of the (s)value: the length of the string with its null byte, or nothing if it
is not over after `size` bytes. -/
def strScan (size : Nat) (l : Nat) (s : List UInt8) : Except Halt (Option Nat) :=
  match s with
  | [] => .error .outside
  | c :: s =>
    if c = 0 then .ok (some (l + 1))
    else if l + 1 ≥ size then .ok none
    else strScan size (l + 1) s

theorem strScan_str (size : Nat) (str rest : List UInt8) (h : 0 ∉ str) (l : Nat) :
    strScan size l (str ++ 0 :: rest) =
      if str = [] ∨ l + str.length < size then .ok (some (l + str.length + 1)) else .ok none := by
  induction str generalizing l with
  | nil => simp [strScan]
  | cons c str ih =>
    obtain ⟨hc, hstr⟩ := not_or.mp (List.mem_cons.not.mp h)
    rw [List.cons_append, strScan, if_neg (Ne.symm hc)]
    have hlen : l + 1 + str.length = l + (str.length + 1) := by omega
    by_cases hl : l + 1 ≥ size
    · rw [if_pos hl, if_neg]
      simp only [List.cons_ne_nil, false_or, List.length_cons]
      omega
    · rw [if_neg hl, ih hstr, hlen]
      by_cases hnil : str = []
      · subst hnil
        rw [if_pos (.inl rfl), if_pos (.inr (by simp only [List.length_singleton]; omega))]
        rfl
      · simp only [hnil, false_or, List.cons_ne_nil, List.length_cons]

theorem strScan_endless (size : Nat) (s : List UInt8) (h : 0 ∉ s) (l : Nat) :
    strScan size l s =
      if s ≠ [] ∧ l + s.length ≥ size then .ok none else .error .outside := by
  induction s generalizing l with
  | nil => simp [strScan]
  | cons c s ih =>
    obtain ⟨hc, hs⟩ := not_or.mp (List.mem_cons.not.mp h)
    rw [strScan, if_neg (Ne.symm hc)]
    have hlen : l + 1 + s.length = l + (s.length + 1) := by omega
    by_cases hl : l + 1 ≥ size
    · rw [if_pos hl, if_pos ⟨List.cons_ne_nil _ _, by simp only [List.length_cons]; omega⟩]
    · rw [if_neg hl, ih hs, hlen]
      by_cases hnil : s = []
      · subst hnil
        rw [if_neg (by simp), if_neg]
        simp only [List.length_singleton]
        omega
      · simp only [hnil, ne_eq, not_false_eq_true, true_and, List.cons_ne_nil, List.length_cons]

/-- A list of bytes holds a string up to its first null byte, or no null byte. -/
theorem exists_str (s : List UInt8) :
    (∃ str rest : List UInt8, 0 ∉ str ∧ s = str ++ 0 :: rest) ∨ 0 ∉ s := by
  by_cases h : 0 ∈ s
  · obtain ⟨str, rest, hs, hstr⟩ := List.eq_append_cons_of_mem h
    exact .inl ⟨str, rest, hstr, hs⟩
  · exact .inr h

end Cexp
