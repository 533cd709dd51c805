import Cexp.Reloc.M68k
import Cexp.Reloc.Powerpc
import Cexp.Reloc.Sparc
import Cexp.Reloc.X86

/-!
# Relocations and the bounds of sections

The bytes that a relocation patches must lie inside its section. The back ends test the sum of
the offset and the size of the field as a word of the target, so a sum that leaves the word
passes (`Wrapped`); the one for SPARC makes no test.
-/

namespace Cexp

open CLib

/-! ## Sums that leave the word -/

/-- The sum of the offset and the size of the field leaves the word, and the word that is left
of it is not larger than the size of the section. -/
def Rela.Wrapped {w : Nat} (r : Rela w) (sec : RelocSection w) (n : Nat) : Prop :=
  2 ^ w ≤ r.r_offset.toNat + n ∧ r.r_offset.toNat + n - 2 ^ w ≤ sec.size.toNat

theorem Rela.Wrapped.not_inside {w : Nat} {r : Rela w} {sec : RelocSection w} {n : Nat}
    (h : r.Wrapped sec n) : ¬r.Inside sec n := by
  have hlt := sec.size.isLt
  have hle := h.1
  unfold Rela.Inside
  omega

/-- What passes the test. -/
theorem Rela.outOfRange_eq_false {w : Nat} {r : Rela w} {sec : RelocSection w} {n : Nat}
    (hn : n < 2 ^ w) : r.outOfRange sec n = false ↔ r.Inside sec n ∨ r.Wrapped sec n := by
  have hoff := r.r_offset.isLt
  have hsize := sec.size.isLt
  have hsum : (r.r_offset + BitVec.ofNat w n).toNat = (r.r_offset.toNat + n) % 2 ^ w := by
    rw [BitVec.toNat_add, BitVec.toNat_ofNat, Nat.add_mod_mod]
  unfold Rela.outOfRange Rela.Inside Rela.Wrapped
  rw [decide_eq_false_iff_not, gt_iff_lt, BitVec.lt_def, hsum, not_lt]
  by_cases hwrap : 2 ^ w ≤ r.r_offset.toNat + n
  · have hmod : (r.r_offset.toNat + n) % 2 ^ w = r.r_offset.toNat + n - 2 ^ w := by
      rw [Nat.mod_eq_sub_mod hwrap, Nat.mod_eq_of_lt (by omega)]
    rw [hmod]
    omega
  · rw [Nat.mod_eq_of_lt (by omega)]
    omega

/-! ## Sections -/

/-- A relocation with a field of `n` bytes keeps to its section. -/
structure KeepsBounds {w : Nat} (r : Rela w) (sec : RelocSection w) (n : Nat) (mem : ByteMem)
    (out : RelocStatus × ByteMem) : Prop where
  inside : out.1 = .ok → n ≠ 0 → r.Inside sec n
  refused : n ≠ 0 → ¬r.Inside sec n → out.1 ≠ .ok ∧ out.2 = mem
  frame : ∀ i, i < (r.place sec).toNat ∨ (r.place sec).toNat + n ≤ i → out.2 i = mem i
  contents : sec.vma.toNat + sec.size.toNat ≤ 2 ^ w →
    ∀ i, i < sec.vma.toNat ∨ sec.vma.toNat + sec.size.toNat ≤ i → out.2 i = mem i

/-- In a section that does not reach over the end of the memory, the place of a field inside
is where the field is. -/
theorem Rela.Inside.place_toNat {w : Nat} {r : Rela w} {sec : RelocSection w} {n : Nat}
    (h : r.Inside sec n) (hn : n ≠ 0) (hfit : sec.vma.toNat + sec.size.toNat ≤ 2 ^ w) :
    (r.place sec).toNat = sec.vma.toNat + r.r_offset.toNat := by
  unfold Rela.Inside at h
  rw [Rela.place, BitVec.toNat_add]
  exact Nat.mod_eq_of_lt (by omega)

/-- Only the status decides whether a relocation keeps to its section. -/
theorem Patched.keepsBounds_iff {w : Nat} {r : Rela w} {sec : RelocSection w} {n : Nat}
    {mem : ByteMem} {out : RelocStatus × ByteMem} (h : Patched mem (r.place sec).toNat n out) :
    KeepsBounds r sec n mem out ↔ n = 0 ∨ r.Inside sec n ∨ out.1 ≠ .ok := by
  constructor
  · intro hkeeps
    by_cases hn : n = 0
    · exact .inl hn
    · by_cases hok : out.1 = .ok
      · exact .inr (.inl (hkeeps.inside hok hn))
      · exact .inr (.inr hok)
  · intro hcase
    have hinside : out.1 = .ok → n ≠ 0 → r.Inside sec n := by
      intro hok hn
      rcases hcase with hzero | hin | hbad
      · exact absurd hzero hn
      · exact hin
      · exact absurd hok hbad
    refine ⟨hinside, ?_, fun i hi => h.frame hi, ?_⟩
    · intro hn hnot
      have hbad : out.1 ≠ .ok := fun hok => hnot (hinside hok hn)
      exact ⟨hbad, h.unchanged hbad⟩
    · intro hfit i hi
      by_cases hok : out.1 = .ok
      · by_cases hn : n = 0
        · exact h.frame (by omega)
        · have hin := hinside hok hn
          have hplace := hin.place_toNat hn hfit
          unfold Rela.Inside at hin
          exact h.frame (by omega)
      · rw [h.unchanged hok]

/-- A back end that makes the test of the bounds and others. -/
theorem Patched.keepsBounds_iff_not_wrapped {w : Nat} {r : Rela w} {sec : RelocSection w}
    {n : Nat} {mem : ByteMem} {out : RelocStatus × ByteMem} {checks : Prop}
    (h : Patched mem (r.place sec).toNat n out) (hpos : n ≠ 0) (hlt : n < 2 ^ w)
    (hok : out.1 = .ok ↔ r.outOfRange sec n = false ∧ checks) :
    KeepsBounds r sec n mem out ↔ ¬(r.Wrapped sec n ∧ checks) := by
  rw [h.keepsBounds_iff, ne_eq, hok, Rela.outOfRange_eq_false hlt]
  constructor
  · rintro hcase ⟨hwrap, hc⟩
    rcases hcase with hzero | hin | hbad
    · exact hpos hzero
    · exact hwrap.not_inside hin
    · exact hbad ⟨.inr hwrap, hc⟩
  · intro hno
    by_cases hin : r.Inside sec n
    · exact .inr (.inl hin)
    · refine .inr (.inr ?_)
      rintro ⟨hin' | hwrap, hc⟩
      · exact hin hin'
      · exact hno ⟨hwrap, hc⟩

/-! ## The back ends -/

/-- A relocation that passes every test although its offset is near the end of all words. -/
def PpcStray (r : Rela 32) (psym : RelocSym 32) (sec : RelocSection 32) : Prop :=
  ∃ f, ppcField (ppcType r) = some f ∧ r.Wrapped sec f.sz ∧ PpcChecks r psym sec f

def X86Stray (r : Rela 64) (psym : RelocSym 64) (sec : RelocSection 64) : Prop :=
  ∃ f, x86Field (x86Type r) = some f ∧ r.Wrapped sec f.sz ∧ X86Checks r psym sec f

def M68kStray (big : Bool) (r : Rela 32) (psym : RelocSym 32) (sec : RelocSection 32)
    (mem : ByteMem) : Prop :=
  ∃ f, m68kField (m68kType r) = some f ∧ r.Wrapped sec f.sz ∧ M68kChecks big r psym sec mem f

/-- A relocation whose field is anywhere else. -/
def SparcStray (r : Rela 32) (psym : RelocSym 32) (sec : RelocSection 32) : Prop :=
  ∃ dsc, sparcDsc (sparcType r) = some dsc ∧ ¬r.Inside sec dsc.nbytes ∧
    SparcChecks dsc r psym sec

def sparcSize (type : Nat) : Nat := ((sparcDsc type).map SparcRelDesc.nbytes).getD 0

/-- A back end that takes the size of the field from a table of the types. -/
theorem Patched.keepsBounds_iff_not_stray {w : Nat} {r : Rela w} {sec : RelocSection w}
    {mem : ByteMem} {out : RelocStatus × ByteMem} {F : Type} {field : Option F} {sz : F → Nat}
    {checks : F → Prop} (h : Patched mem (r.place sec).toNat ((field.map sz).getD 0) out)
    (hsz : ∀ f, field = some f → sz f ≠ 0 ∧ sz f < 2 ^ w)
    (hok : ∀ f, field = some f → (out.1 = .ok ↔ r.outOfRange sec (sz f) = false ∧ checks f)) :
    KeepsBounds r sec ((field.map sz).getD 0) mem out ↔
      ¬∃ f, field = some f ∧ r.Wrapped sec (sz f) ∧ checks f := by
  cases field with
  | none =>
    refine iff_of_true (h.keepsBounds_iff.mpr (.inl rfl)) ?_
    rintro ⟨f, hf, _⟩
    cases hf
  | some f =>
    rw [Option.map_some, Option.getD_some] at h ⊢
    rw [h.keepsBounds_iff_not_wrapped (hsz f rfl).1 (hsz f rfl).2 (hok f rfl)]
    apply not_congr
    constructor
    · rintro ⟨hwrap, hc⟩
      exact ⟨f, rfl, hwrap, hc⟩
    · rintro ⟨f', hf', hwrap, hc⟩
      cases hf'
      exact ⟨hwrap, hc⟩

theorem ppc_keepsBounds_iff (big : Bool) (r : Rela 32) (psym : RelocSym 32)
    (sec : RelocSection 32) (mem : ByteMem) :
    KeepsBounds r sec (ppcSize (ppcType r)) mem
      (pmbfdPerformRelocationPowerpc big r psym sec mem) ↔ ¬PpcStray r psym sec := by
  apply (ppc_patched big r psym sec mem).keepsBounds_iff_not_stray
  · intro f hf
    have := ppcField_sz hf
    omega
  · intro f hf
    exact ppc_ok_iff hf

theorem x86_keepsBounds_iff (big : Bool) (r : Rela 64) (psym : RelocSym 64)
    (sec : RelocSection 64) (mem : ByteMem) :
    KeepsBounds r sec (x86Size (x86Type r)) mem
      (pmbfdPerformRelocationX86 big r psym sec mem) ↔ ¬X86Stray r psym sec := by
  apply (x86_patched big r psym sec mem).keepsBounds_iff_not_stray
  · intro f hf
    have := x86Field_sz hf
    omega
  · intro f hf
    exact x86_ok_iff hf

theorem m68k_keepsBounds_iff (big : Bool) (r : Rela 32) (psym : RelocSym 32)
    (sec : RelocSection 32) (mem : ByteMem) :
    KeepsBounds r sec (m68kSize (m68kType r)) mem
      (pmbfdPerformRelocationM68k big r psym sec mem) ↔ ¬M68kStray big r psym sec mem := by
  apply (m68k_patched big r psym sec mem).keepsBounds_iff_not_stray
  · intro f hf
    have := m68kField_sz hf
    omega
  · intro f hf
    exact m68k_ok_iff hf

/-- Without a test of the bounds. An entry behind the end of the table gives no result. -/
theorem sparc_keepsBounds_iff (big : Bool) (r : Rela 32) (psym : RelocSym 32)
    (sec : RelocSection 32) (mem : ByteMem) :
    (∃ out, pmbfdPerformRelocationSparc big r psym sec mem = some out ∧
        KeepsBounds r sec (sparcSize (sparcType r)) mem out) ↔
      (sparcType r < 56 ∨ 224 ≤ sparcType r) ∧ ¬SparcStray r psym sec := by
  by_cases hnone : sparcType r = R_SPARC_NONE
  · have hdsc : sparcDsc (sparcType r) = some ⟨0, 0, 0, .none, false, false⟩ := by
      rw [hnone]
      rfl
    have hsize : sparcSize (sparcType r) = 0 := by
      rw [sparcSize, hdsc]
      rfl
    refine iff_of_true ⟨_, if_pos hnone, ?_⟩ ⟨?_, ?_⟩
    · rw [hsize]
      exact (Patched.nop rfl).keepsBounds_iff.mpr (.inl rfl)
    · rw [hnone]
      exact .inl (by decide)
    · rintro ⟨dsc, hdsc', _, hc⟩
      rw [hdsc] at hdsc'
      cases hdsc'
      exact hc.supported rfl
  · have hrun : pmbfdPerformRelocationSparc big r psym sec mem =
        (sparcDsc (sparcType r)).map fun dsc => sparcRelocate dsc big r psym sec mem :=
      if_neg hnone
    cases hdsc : sparcDsc (sparcType r) with
    | none =>
      have hbehind := sparcDsc_eq_none.mp hdsc
      refine iff_of_false ?_ (by omega)
      rintro ⟨out, hout, _⟩
      rw [hrun, hdsc] at hout
      cases hout
    | some dsc =>
      have hbefore : ¬(56 ≤ sparcType r ∧ sparcType r < 224) := by
        rw [← sparcDsc_eq_none, hdsc]
        simp
      have hsound := sparcDsc_sound hdsc
      have hsize : sparcSize (sparcType r) = dsc.nbytes := by
        rw [sparcSize, hdsc]
        rfl
      have hkeeps := (sparc_patched hsound big r psym sec mem).keepsBounds_iff
      rw [ne_eq, sparc_ok_iff hsound] at hkeeps
      rw [hrun, hdsc, hsize]
      constructor
      · rintro ⟨out, hout, hk⟩
        cases hout
        refine ⟨by omega, ?_⟩
        rintro ⟨dsc', hdsc', hin, hc⟩
        rw [hdsc] at hdsc'
        cases hdsc'
        rcases hkeeps.mp hk with hzero | hin' | hno
        · exact hc.supported hzero
        · exact hin hin'
        · exact hno hc
      · rintro ⟨_, hstray⟩
        refine ⟨_, rfl, hkeeps.mpr ?_⟩
        by_cases hin : r.Inside sec dsc.nbytes
        · exact .inr (.inl hin)
        · exact .inr (.inr fun hc => hstray ⟨dsc, hdsc, hin, hc⟩)

/-- The relocations that keep to their sections. -/
theorem relocation_bounds (big : Bool) (mem : ByteMem) :
    (∀ r psym sec, KeepsBounds r sec (ppcSize (ppcType r)) mem
      (pmbfdPerformRelocationPowerpc big r psym sec mem) ↔ ¬PpcStray r psym sec) ∧
    (∀ r psym sec, KeepsBounds r sec (x86Size (x86Type r)) mem
      (pmbfdPerformRelocationX86 big r psym sec mem) ↔ ¬X86Stray r psym sec) ∧
    (∀ r psym sec, KeepsBounds r sec (m68kSize (m68kType r)) mem
      (pmbfdPerformRelocationM68k big r psym sec mem) ↔ ¬M68kStray big r psym sec mem) ∧
    ∀ r psym sec, (∃ out, pmbfdPerformRelocationSparc big r psym sec mem = some out ∧
        KeepsBounds r sec (sparcSize (sparcType r)) mem out) ↔
      (sparcType r < 56 ∨ 224 ≤ sparcType r) ∧ ¬SparcStray r psym sec := by
  refine ⟨?_, ?_, ?_, ?_⟩
  · intro r psym sec
    exact ppc_keepsBounds_iff big r psym sec mem
  · intro r psym sec
    exact x86_keepsBounds_iff big r psym sec mem
  · intro r psym sec
    exact m68k_keepsBounds_iff big r psym sec mem
  · intro r psym sec
    exact sparc_keepsBounds_iff big r psym sec mem

/-- A word four bytes in front of its section. -/
theorem addr32_before_section :
    ¬KeepsBounds (w := 32) ⟨0xfffffffc, 1, 0⟩ ⟨0x1000, 16⟩ (ppcSize R_PPC_ADDR32) (fun _ => 0)
      (pmbfdPerformRelocationPowerpc true ⟨0xfffffffc, 1, 0⟩ ⟨.sect 0, 0, 0⟩ ⟨0x1000, 16⟩
        (fun _ => 0)) := by
  intro h
  have hinside := h.inside (by decide) (by decide)
  revert hinside
  decide

end Cexp
