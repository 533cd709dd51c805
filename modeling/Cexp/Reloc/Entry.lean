import Cexp.Lib.Memory

/-!
# Relocation entries

What `pmbfd_perform_relocation` is called with: an entry of a relocation table, the symbol it
refers to, and the section to be patched. Words have the width `w` of the target, and a
section has its contents in memory at its address. An `int32_t` or `int64_t` is a word of the
same width.
-/

namespace Cexp

open CLib

/-- `bfd_reloc_status_type`, without the values that no back end returns. -/
inductive RelocStatus where
  | ok
  | overflow
  | outofrange
  | notsupported
  | other
  | undefined
  deriving DecidableEq, Repr

/-- `Elf32_Rela` or `Elf64_Rela` -/
structure Rela (w : Nat) where
  r_offset : BitVec w
  r_info : BitVec w
  r_addend : BitVec w

/-- `asection`, the contents are at `vma`. -/
structure RelocSection (w : Nat) where
  vma : BitVec w
  size : BitVec w

/-- The section of a symbol. An absolute symbol, or one without a section, has the base 0. -/
inductive RelocBase (w : Nat) where
  | und
  | com
  | sect (vma : BitVec w)

/-- `asymbol` -/
structure RelocSym (w : Nat) where
  base : RelocBase w
  val : BitVec w
  size : BitVec w

def RelocSym.isUnd {w : Nat} (psym : RelocSym w) : Bool :=
  match psym.base with
  | .und => true
  | _ => false

/-- `bfd_asymbol_value`. The size of a common symbol goes through the `int` that
`elf_get_size` returns. -/
def RelocSym.value {w : Nat} (psym : RelocSym w) : BitVec w :=
  match psym.base with
  | .und => psym.val
  | .com => (psym.size.setWidth 32).signExtend w
  | .sect vma => vma + psym.val

/-- The place that is patched. -/
def Rela.place {w : Nat} (r : Rela w) (sec : RelocSection w) : BitVec w := sec.vma + r.r_offset

/-- The field of `n` bytes lies inside the section. -/
def Rela.Inside {w : Nat} (r : Rela w) (sec : RelocSection w) (n : Nat) : Prop :=
  r.r_offset.toNat + n ≤ sec.size.toNat

instance {w : Nat} (r : Rela w) (sec : RelocSection w) (n : Nat) : Decidable (r.Inside sec n) :=
  inferInstanceAs (Decidable (_ ≤ _))

/-- `r_offset + sz > size`, in the words of the target. -/
def Rela.outOfRange {w : Nat} (r : Rela w) (sec : RelocSection w) (n : Nat) : Bool :=
  r.r_offset + BitVec.ofNat w n > sec.size

/-! ## Runs -/

/-- What the back ends have in common: a relocation without a field does nothing, and one
with a field of `n` bytes is refused, or a word is stored at its place. -/
inductive Patched (mem : ByteMem) (place n : Nat) : RelocStatus × ByteMem → Prop where
  | nop (h : n = 0) : Patched mem place n (.ok, mem)
  | refused (s : RelocStatus) (h : s ≠ .ok) : Patched mem place n (s, mem)
  | stored (big : Bool) {w : Nat} (v : BitVec w) (hw : w = 8 * n) :
      Patched mem place n (.ok, mem.store big place v)

theorem Patched.unchanged {mem : ByteMem} {place n : Nat} {out : RelocStatus × ByteMem}
    (h : Patched mem place n out) (hs : out.1 ≠ .ok) : out.2 = mem := by
  cases h with
  | nop _ => rfl
  | refused _ _ => rfl
  | stored big v _ => exact absurd rfl hs

theorem Patched.frame {mem : ByteMem} {place n : Nat} {out : RelocStatus × ByteMem}
    (h : Patched mem place n out) {i : Nat} (hi : i < place ∨ place + n ≤ i) :
    out.2 i = mem i := by
  cases h with
  | nop _ => rfl
  | refused _ _ => rfl
  | stored big v hw =>
    apply ByteMem.store_outside
    omega

/-! ## Limits -/

/-- `lim && (val < lim || val > -lim - 1)` -/
def beyond {w : Nat} (lim val : BitVec w) : Bool :=
  lim ≠ 0 && (val.slt lim || (-lim - 1).slt val)

/-- A limit lets the numbers from `-l` to `l - 1` through. -/
theorem beyond_iff {w : Nat} {lim : BitVec w} {l : Int} (hpos : 0 < l) (hlow : lim.toInt = -l)
    (hhigh : (-lim - 1).toInt = l - 1) (val : BitVec w) :
    beyond lim val = false ↔ -l ≤ val.toInt ∧ val.toInt < l := by
  have hne : lim ≠ 0 := by
    rintro rfl
    rw [BitVec.ofNat_eq_ofNat, BitVec.toInt_zero] at hlow
    omega
  unfold beyond
  rw [BitVec.slt_eq_decide, BitVec.slt_eq_decide, hlow, hhigh]
  simp only [hne, ne_eq, not_false_eq_true, decide_true, Bool.true_and, Bool.or_eq_false_iff,
    decide_eq_false_iff_not]
  omega

/-! ## Types -/

def ELF32_R_TYPE (x : BitVec 32) : Nat := x.toNat % 2 ^ 8

def ELF64_R_TYPE (x : BitVec 64) : Nat := x.toNat % 2 ^ 32

end Cexp
