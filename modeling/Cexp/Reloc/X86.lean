import Cexp.Reloc.Entry

/-!
# Relocations of x86_64

`pmbfd_perform_relocation` of `bfd-reloc-x86_64.c`. The field of a relocation stands for
`S + A`, or for `S + A - P`, under the rule of its type (`X86Holds`); a number that no field
can stand for must be reported as an overflow.
-/

namespace Cexp

open CLib

def R_X86_64_NONE : Nat := 0
def R_X86_64_64 : Nat := 1
def R_X86_64_PC32 : Nat := 2
def R_X86_64_32 : Nat := 10
def R_X86_64_32S : Nat := 11
def R_X86_64_PC64 : Nat := 24

/-- What the switch over the types sets. -/
structure X86Field where
  pcRel : Bool
  sz : Nat
  lim : BitVec 64

def x86Field (type : Nat) : Option X86Field :=
  if type = R_X86_64_PC32 then some ⟨true, 4, -(1 <<< 32)⟩
  else if type = R_X86_64_PC64 then some ⟨true, 8, 0⟩
  else if type = R_X86_64_32 then some ⟨false, 4, -(1 <<< 32)⟩
  else if type = R_X86_64_32S then some ⟨false, 4, -(1 <<< 31)⟩
  else if type = R_X86_64_64 then some ⟨false, 8, 0⟩
  else none

/-- The type is kept in a `uint8_t`. -/
def x86Type (r : Rela 64) : Nat := ELF64_R_TYPE r.r_info % 2 ^ 8

/-- The value of the field, before it is cut to its size. -/
def x86Value (r : Rela 64) (psym : RelocSym 64) (sec : RelocSection 64) (pcRel : Bool) :
    BitVec 64 :=
  (if pcRel then -r.place sec else 0) + (r.r_addend + psym.value)

def pmbfdPerformRelocationX86 (big : Bool) (r : Rela 64) (psym : RelocSym 64)
    (sec : RelocSection 64) (mem : ByteMem) : RelocStatus × ByteMem :=
  if x86Type r = R_X86_64_NONE then (.ok, mem)
  else if psym.isUnd then (.undefined, mem)
  else
    match x86Field (x86Type r) with
    | none => (.notsupported, mem)
    | some f =>
      if r.outOfRange sec f.sz then (.outofrange, mem)
      else
        let val := x86Value r psym sec f.pcRel
        if beyond f.lim val then (.overflow, mem)
        else if f.sz = 4 then (.ok, mem.store big (r.place sec).toNat (val.setWidth 32))
        else if f.sz = 8 then (.ok, mem.store big (r.place sec).toNat val)
        else (.other, mem)

/-! ## The rules of the types -/

/-- The bytes at the place `P` stand for the target `S + A`. -/
structure X86Holds (big : Bool) (type : Nat) (target P : BitVec 64) (mem : ByteMem) : Prop where
  pc32 : type = R_X86_64_PC32 → (mem.load big 32 P.toNat).signExtend 64 + P = target
  abs32 : type = R_X86_64_32 → (mem.load big 32 P.toNat).setWidth 64 = target
  abs32S : type = R_X86_64_32S → (mem.load big 32 P.toNat).signExtend 64 = target
  abs64 : type = R_X86_64_64 → mem.load big 64 P.toNat = target
  pc64 : type = R_X86_64_PC64 → mem.load big 64 P.toNat = target - P

/-- Some field stands for the target. A field of 64 bits can stand for everything. -/
structure X86Representable (type : Nat) (target P : BitVec 64) : Prop where
  pc32 : type = R_X86_64_PC32 → ∃ f : BitVec 32, f.signExtend 64 + P = target
  abs32 : type = R_X86_64_32 → ∃ f : BitVec 32, f.setWidth 64 = target
  abs32S : type = R_X86_64_32S → ∃ f : BitVec 32, f.signExtend 64 = target

def x86Size (type : Nat) : Nat := ((x86Field type).map X86Field.sz).getD 0

/-- What a relocation must do. -/
structure X86Lawful (big : Bool) (r : Rela 64) (psym : RelocSym 64) (sec : RelocSection 64)
    (mem : ByteMem) : Prop where
  holds : (pmbfdPerformRelocationX86 big r psym sec mem).1 = .ok →
    X86Holds big (x86Type r) (psym.value + r.r_addend) (r.place sec)
      (pmbfdPerformRelocationX86 big r psym sec mem).2
  overflow : psym.isUnd = false → r.outOfRange sec (x86Size (x86Type r)) = false →
    ¬X86Representable (x86Type r) (psym.value + r.r_addend) (r.place sec) →
    (pmbfdPerformRelocationX86 big r psym sec mem).1 = .overflow
  frame : ∀ i, i < (r.place sec).toNat ∨ (r.place sec).toNat + x86Size (x86Type r) ≤ i →
    (pmbfdPerformRelocationX86 big r psym sec mem).2 i = mem i

/-- The numbers that the limits let through although no field stands for them. -/
def x86Gap (type : Nat) (r : Rela 64) (psym : RelocSym 64) (sec : RelocSection 64) : Prop :=
  (type = R_X86_64_PC32 ∧
    (-2 ^ 32 ≤ (psym.value + r.r_addend - r.place sec).toInt ∧
        (psym.value + r.r_addend - r.place sec).toInt < -2 ^ 31 ∨
      2 ^ 31 ≤ (psym.value + r.r_addend - r.place sec).toInt ∧
        (psym.value + r.r_addend - r.place sec).toInt < 2 ^ 32)) ∨
  (type = R_X86_64_32 ∧
    -2 ^ 32 ≤ (psym.value + r.r_addend).toInt ∧ (psym.value + r.r_addend).toInt < 0)

/-! ## Runs -/

section

variable {big : Bool} {r : Rela 64} {psym : RelocSym 64} {sec : RelocSection 64} {mem : ByteMem}
  {f : X86Field}

theorem x86Field_sz {type : Nat} (h : x86Field type = some f) : f.sz = 4 ∨ f.sz = 8 := by
  unfold x86Field at h
  split at h
  · cases h
    exact .inl rfl
  split at h
  · cases h
    exact .inr rfl
  split at h
  · cases h
    exact .inl rfl
  split at h
  · cases h
    exact .inl rfl
  split at h
  · cases h
    exact .inr rfl
  · cases h

theorem x86Size_eq {type : Nat} (h : x86Field type = some f) : x86Size type = f.sz := by
  rw [x86Size, h]
  rfl

theorem x86_not_none (hf : x86Field (x86Type r) = some f) : x86Type r ≠ R_X86_64_NONE := by
  intro h
  rw [h] at hf
  cases hf

/-- A relocation with a field, up to the test of the value. -/
theorem x86_run (hf : x86Field (x86Type r) = some f) (hund : psym.isUnd = false)
    (hout : r.outOfRange sec f.sz = false) :
    pmbfdPerformRelocationX86 big r psym sec mem =
      if beyond f.lim (x86Value r psym sec f.pcRel) = true then (.overflow, mem)
      else if f.sz = 4 then
        (.ok, mem.store big (r.place sec).toNat ((x86Value r psym sec f.pcRel).setWidth 32))
      else (.ok, mem.store big (r.place sec).toNat (x86Value r psym sec f.pcRel)) := by
  unfold pmbfdPerformRelocationX86
  rw [if_neg (x86_not_none hf), if_neg (by simp [hund]), hf]
  show (if r.outOfRange sec f.sz = true then _ else _) = _
  rw [if_neg (by simp [hout])]
  dsimp only
  rcases x86Field_sz hf with hsz | hsz
  · rw [if_pos hsz, if_pos hsz]
  · rw [if_neg (by omega : ¬f.sz = 4), if_neg (by omega : ¬f.sz = 4), if_pos hsz]

/-- The tests that a relocation with a field has to pass, but for the test of its place. -/
structure X86Checks (r : Rela 64) (psym : RelocSym 64) (sec : RelocSection 64) (f : X86Field) :
    Prop where
  defined : psym.isUnd = false
  limit : beyond f.lim (x86Value r psym sec f.pcRel) = false

theorem x86_stored (hf : x86Field (x86Type r) = some f) (hout : r.outOfRange sec f.sz = false)
    (hc : X86Checks r psym sec f) :
    pmbfdPerformRelocationX86 big r psym sec mem =
      if f.sz = 4 then
        (.ok, mem.store big (r.place sec).toNat ((x86Value r psym sec f.pcRel).setWidth 32))
      else (.ok, mem.store big (r.place sec).toNat (x86Value r psym sec f.pcRel)) := by
  rw [x86_run hf hc.defined hout, if_neg (by simp [hc.limit])]

theorem x86_refused (hf : x86Field (x86Type r) = some f)
    (h : ¬(r.outOfRange sec f.sz = false ∧ X86Checks r psym sec f)) :
    ∃ s, s ≠ .ok ∧ pmbfdPerformRelocationX86 big r psym sec mem = (s, mem) := by
  by_cases hund : psym.isUnd = true
  · refine ⟨.undefined, by simp, ?_⟩
    unfold pmbfdPerformRelocationX86
    rw [if_neg (x86_not_none hf), if_pos hund]
  · by_cases hout : r.outOfRange sec f.sz = true
    · refine ⟨.outofrange, by simp, ?_⟩
      unfold pmbfdPerformRelocationX86
      rw [if_neg (x86_not_none hf), if_neg hund, hf]
      exact if_pos hout
    · rw [Bool.not_eq_true] at hund hout
      refine ⟨.overflow, by simp, ?_⟩
      rw [x86_run hf hund hout, if_pos]
      by_contra hlim
      exact h ⟨hout, hund, by simpa using hlim⟩

theorem x86_ok_iff (hf : x86Field (x86Type r) = some f) :
    (pmbfdPerformRelocationX86 big r psym sec mem).1 = .ok ↔
      r.outOfRange sec f.sz = false ∧ X86Checks r psym sec f := by
  constructor
  · intro h
    by_contra hno
    obtain ⟨s, hs, hrun⟩ : ∃ s, s ≠ .ok ∧ pmbfdPerformRelocationX86 big r psym sec mem = (s, mem) :=
      x86_refused hf hno
    rw [hrun] at h
    exact hs h
  · rintro ⟨hout, hc⟩
    rw [x86_stored hf hout hc]
    split <;> rfl

theorem x86_patched (big : Bool) (r : Rela 64) (psym : RelocSym 64) (sec : RelocSection 64)
    (mem : ByteMem) :
    Patched mem (r.place sec).toNat (x86Size (x86Type r))
      (pmbfdPerformRelocationX86 big r psym sec mem) := by
  cases hf : x86Field (x86Type r) with
  | none =>
    have hsize : x86Size (x86Type r) = 0 := by
      rw [x86Size, hf]
      rfl
    unfold pmbfdPerformRelocationX86
    split
    · exact .nop hsize
    · split
      · exact .refused _ (by simp)
      · rw [hf]
        exact .refused _ (by simp)
  | some f =>
    have hsize := x86Size_eq hf
    by_cases hok : r.outOfRange sec f.sz = false ∧ X86Checks r psym sec f
    · rw [x86_stored hf hok.1 hok.2]
      rcases x86Field_sz hf with hsz | hsz
      · rw [if_pos hsz]
        exact .stored big _ (by omega)
      · rw [if_neg (by omega)]
        exact .stored big _ (by omega)
    · obtain ⟨s, hs, hrun⟩ := x86_refused hf hok
      rw [hrun]
      exact .refused s hs

/-! ## The rules hold -/

theorem x86Field_pc32 : x86Field R_X86_64_PC32 = some ⟨true, 4, -(1 <<< 32)⟩ := rfl
theorem x86Field_abs32 : x86Field R_X86_64_32 = some ⟨false, 4, -(1 <<< 32)⟩ := rfl
theorem x86Field_abs32S : x86Field R_X86_64_32S = some ⟨false, 4, -(1 <<< 31)⟩ := rfl
theorem x86Field_abs64 : x86Field R_X86_64_64 = some ⟨false, 8, 0⟩ := rfl
theorem x86Field_pc64 : x86Field R_X86_64_PC64 = some ⟨true, 8, 0⟩ := rfl

theorem x86Value_abs : x86Value r psym sec false = psym.value + r.r_addend := by
  unfold x86Value
  rw [if_neg (by simp), zero_add, BitVec.add_comm]

theorem x86Value_pcRel : x86Value r psym sec true = psym.value + r.r_addend - r.place sec := by
  unfold x86Value
  rw [if_pos rfl, BitVec.add_comm r.r_addend, BitVec.add_comm, BitVec.sub_eq_add_neg]

/-- The limit of 33 bits. -/
theorem beyond_32 (val : BitVec 64) :
    beyond (-(1 <<< 32)) val = false ↔ -2 ^ 32 ≤ val.toInt ∧ val.toInt < 2 ^ 32 :=
  beyond_iff (by decide) (by decide) (by decide) val

/-- The limit of 32 bits. -/
theorem beyond_31 (val : BitVec 64) :
    beyond (-(1 <<< 31)) val = false ↔ -2 ^ 31 ≤ val.toInt ∧ val.toInt < 2 ^ 31 :=
  beyond_iff (by decide) (by decide) (by decide) val

/-- A field for `S + A - P` exists if it fits into 32 bits. -/
theorem pc32_fits {target P : BitVec 64} :
    (∃ f : BitVec 32, f.signExtend 64 + P = target) ↔ FitsSigned 32 (target - P) := by
  constructor
  · rintro ⟨f, rfl⟩
    apply fitsSigned_of_signExtend (f := f) (by decide)
    rw [BitVec.add_sub_cancel]
  · intro h
    refine ⟨(target - P).setWidth 32, ?_⟩
    rw [h, BitVec.sub_add_cancel]

theorem abs32_fits {target : BitVec 64} :
    (∃ f : BitVec 32, f.setWidth 64 = target) ↔ FitsUnsigned 32 target :=
  ⟨fun ⟨_, h⟩ => fitsUnsigned_of_setWidth (by decide) h, fun h => ⟨target.setWidth 32, h⟩⟩

theorem abs32S_fits {target : BitVec 64} :
    (∃ f : BitVec 32, f.signExtend 64 = target) ↔ FitsSigned 32 target :=
  ⟨fun ⟨_, h⟩ => fitsSigned_of_signExtend (by decide) h, fun h => ⟨target.setWidth 32, h⟩⟩

theorem fitsSigned_32 (x : BitVec 64) : FitsSigned 32 x ↔ -2 ^ 31 ≤ x.toInt ∧ x.toInt < 2 ^ 31 :=
  fitsSigned_iff (by decide)

theorem fitsUnsigned_32 (x : BitVec 64) : FitsUnsigned 32 x ↔ 0 ≤ x.toInt ∧ x.toInt < 2 ^ 32 := by
  have hlt := x.isLt
  rw [fitsUnsigned_iff (by decide), BitVec.toInt_eq_toNat_cond]
  split <;> omega

/-- Outside the gap a relocation that is not refused follows the rule of its type. -/
theorem x86_holds (hgap : ¬x86Gap (x86Type r) r psym sec)
    (hok : (pmbfdPerformRelocationX86 big r psym sec mem).1 = .ok) :
    X86Holds big (x86Type r) (psym.value + r.r_addend) (r.place sec)
      (pmbfdPerformRelocationX86 big r psym sec mem).2 := by
  unfold x86Gap at hgap
  constructor
  · intro htype
    have hf := x86Field_pc32
    rw [← htype] at hf
    obtain ⟨hout, hc⟩ := (x86_ok_iff hf).mp hok
    have hlim := (beyond_32 _).mp hc.limit
    rw [x86Value_pcRel] at hlim
    rw [x86_stored hf hout hc, if_pos rfl, x86Value_pcRel, ByteMem.load_store (by decide)]
    have hfits := (fitsSigned_32 (psym.value + r.r_addend - r.place sec)).mpr (by omega)
    rw [hfits, BitVec.sub_add_cancel]
  · intro htype
    have hf := x86Field_abs32
    rw [← htype] at hf
    obtain ⟨hout, hc⟩ := (x86_ok_iff hf).mp hok
    have hlim := (beyond_32 _).mp hc.limit
    rw [x86Value_abs] at hlim
    rw [x86_stored hf hout hc, if_pos rfl, x86Value_abs, ByteMem.load_store (by decide)]
    exact (fitsUnsigned_32 _).mpr (by omega)
  · intro htype
    have hf := x86Field_abs32S
    rw [← htype] at hf
    obtain ⟨hout, hc⟩ := (x86_ok_iff hf).mp hok
    have hlim := (beyond_31 _).mp hc.limit
    rw [x86Value_abs] at hlim
    rw [x86_stored hf hout hc, if_pos rfl, x86Value_abs, ByteMem.load_store (by decide)]
    exact (fitsSigned_32 _).mpr hlim
  · intro htype
    have hf := x86Field_abs64
    rw [← htype] at hf
    obtain ⟨hout, hc⟩ := (x86_ok_iff hf).mp hok
    rw [x86_stored hf hout hc, if_neg (by simp), x86Value_abs, ByteMem.load_store (by decide)]
  · intro htype
    have hf := x86Field_pc64
    rw [← htype] at hf
    obtain ⟨hout, hc⟩ := (x86_ok_iff hf).mp hok
    rw [x86_stored hf hout hc, if_neg (by simp), x86Value_pcRel, ByteMem.load_store (by decide)]

/-- Outside the gap a number that no field stands for is an overflow. -/
theorem x86_overflow (hgap : ¬x86Gap (x86Type r) r psym sec) (hund : psym.isUnd = false)
    (hout : r.outOfRange sec (x86Size (x86Type r)) = false)
    (hrep : ¬X86Representable (x86Type r) (psym.value + r.r_addend) (r.place sec)) :
    (pmbfdPerformRelocationX86 big r psym sec mem).1 = .overflow := by
  by_contra hno
  apply hrep
  have hlim : ∀ f, x86Field (x86Type r) = some f →
      beyond f.lim (x86Value r psym sec f.pcRel) = false := by
    intro f hf
    by_contra hlim
    rw [x86Size_eq hf] at hout
    rw [x86_run hf hund hout, if_pos (by simpa using hlim)] at hno
    exact hno rfl
  unfold x86Gap at hgap
  constructor
  · intro htype
    have hlim := (beyond_32 _).mp (hlim _ (by rw [htype]; exact x86Field_pc32))
    rw [x86Value_pcRel] at hlim
    exact pc32_fits.mpr ((fitsSigned_32 _).mpr (by omega))
  · intro htype
    have hlim := (beyond_32 _).mp (hlim _ (by rw [htype]; exact x86Field_abs32))
    rw [x86Value_abs] at hlim
    exact abs32_fits.mpr ((fitsUnsigned_32 _).mpr (by omega))
  · intro htype
    have hlim := (beyond_31 _).mp (hlim _ (by rw [htype]; exact x86Field_abs32S))
    rw [x86Value_abs] at hlim
    exact abs32S_fits.mpr ((fitsSigned_32 _).mpr hlim)

/-- In the gap the relocation is performed, and its field does not follow the rule. -/
theorem x86_gap_wrong (hgap : x86Gap (x86Type r) r psym sec) (hund : psym.isUnd = false)
    (hout : r.outOfRange sec 4 = false) :
    ¬((pmbfdPerformRelocationX86 big r psym sec mem).1 = .ok →
      X86Holds big (x86Type r) (psym.value + r.r_addend) (r.place sec)
        (pmbfdPerformRelocationX86 big r psym sec mem).2) := by
  intro h
  rcases hgap with ⟨htype, hval⟩ | ⟨htype, hval⟩
  · have hf := x86Field_pc32
    rw [← htype] at hf
    have hlim := (beyond_32 (x86Value r psym sec true)).mpr (by rw [x86Value_pcRel]; omega)
    have hholds := (h ((x86_ok_iff hf).mpr ⟨hout, hund, hlim⟩)).pc32 htype
    have hfits := (fitsSigned_32 _).mp (pc32_fits.mp ⟨_, hholds⟩)
    omega
  · have hf := x86Field_abs32
    rw [← htype] at hf
    have hlim := (beyond_32 (x86Value r psym sec false)).mpr (by rw [x86Value_abs]; omega)
    have hholds := (h ((x86_ok_iff hf).mpr ⟨hout, hund, hlim⟩)).abs32 htype
    have hfits := (fitsUnsigned_32 _).mp (abs32_fits.mp ⟨_, hholds⟩)
    omega

end

/-- A relocation does what it must exactly if its value is not in the gap, or if it is refused
before its value is looked at. -/
theorem x86_lawful_iff (big : Bool) (r : Rela 64) (psym : RelocSym 64) (sec : RelocSection 64)
    (mem : ByteMem) :
    X86Lawful big r psym sec mem ↔
      psym.isUnd = true ∨ r.outOfRange sec 4 = true ∨ ¬x86Gap (x86Type r) r psym sec := by
  constructor
  · intro h
    by_contra hno
    simp only [not_or, Bool.not_eq_true, not_not] at hno
    obtain ⟨hund, hout, hgap⟩ := hno
    exact x86_gap_wrong hgap hund hout h.holds
  · intro h
    by_cases hgap : x86Gap (x86Type r) r psym sec
    · have hsize : x86Size (x86Type r) = 4 := by
        rcases hgap with ⟨htype, -⟩ | ⟨htype, -⟩
        · rw [htype]
          rfl
        · rw [htype]
          rfl
      have hrefuse : psym.isUnd = true ∨ r.outOfRange sec 4 = true := by
        rcases h with h | h | h
        · exact .inl h
        · exact .inr h
        · exact absurd hgap h
      refine ⟨fun hok => ?_, fun hund hout => ?_, fun i hi => (x86_patched ..).frame hi⟩
      · exfalso
        obtain ⟨f, hf, hsz⟩ : ∃ f, x86Field (x86Type r) = some f ∧ f.sz = 4 := by
          rcases hgap with ⟨htype, -⟩ | ⟨htype, -⟩
          · exact ⟨_, by rw [htype]; exact x86Field_pc32, rfl⟩
          · exact ⟨_, by rw [htype]; exact x86Field_abs32, rfl⟩
        obtain ⟨hout, hc⟩ := (x86_ok_iff hf).mp hok
        rw [hsz] at hout
        rcases hrefuse with h | h
        · rw [hc.defined] at h
          cases h
        · rw [hout] at h
          cases h
      · rw [hsize] at hout
        rcases hrefuse with h | h
        · rw [hund] at h
          cases h
        · rw [hout] at h
          cases h
    · exact ⟨x86_holds hgap, x86_overflow hgap, fun i hi => (x86_patched ..).frame hi⟩

/-! ## A call that goes astray -/

/-- A call to a function 2 GiB behind the field: the displacement wraps. -/
theorem pc32_far :
    ¬X86Lawful false ⟨0, 2, 0⟩ ⟨.sect 0, 0x80000000, 0⟩ ⟨0, 4⟩ (fun _ => 0) := by
  intro h
  have hholds := (h.holds (by decide)).pc32 (by decide)
  revert hholds
  decide

end Cexp
