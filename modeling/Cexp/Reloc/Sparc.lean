import Cexp.Reloc.Entry

/-!
# Relocations of SPARC

`pmbfd_perform_relocation` of `bfd-reloc-sparc.c` takes the shape of a field from the table
`sparc_rels`. The test of the type compares it with the size of the table in bytes, so for
some types an entry behind its end is used. What is there the sources do not say: such a
relocation has no result.
-/

namespace Cexp

open CLib

/-! ## The table -/

inductive SparcRelCheck where
  /-- truncate silently -/
  | none
  /-- - 2^w     ... + 2^w     - 1 -/
  | bits
  /-- - 2^(w-1) ... + 2^(w-1) - 1 -/
  | sign
  /--         0 ... + 2^w     - 1 -/
  | unsg
  deriving DecidableEq, Repr

structure SparcRelDesc where
  nbytes : Nat
  width : Nat
  shift : Nat
  check : SparcRelCheck
  pcRelative : Bool
  unaligned : Bool
  deriving DecidableEq, Repr

def R_SPARC_NONE : Nat := 0
def R_SPARC_8 : Nat := 1
def R_SPARC_16 : Nat := 2
def R_SPARC_32 : Nat := 3
def R_SPARC_DISP8 : Nat := 4
def R_SPARC_DISP16 : Nat := 5
def R_SPARC_DISP32 : Nat := 6
def R_SPARC_WDISP30 : Nat := 7
def R_SPARC_WDISP22 : Nat := 8
def R_SPARC_HI22 : Nat := 9
def R_SPARC_22 : Nat := 10
def R_SPARC_13 : Nat := 11
def R_SPARC_LO10 : Nat := 12
def R_SPARC_PC10 : Nat := 16
def R_SPARC_PC22 : Nat := 17
def R_SPARC_UA32 : Nat := 23
def R_SPARC_10 : Nat := 30
def R_SPARC_11 : Nat := 31
def R_SPARC_7 : Nat := 43
def R_SPARC_5 : Nat := 44
def R_SPARC_6 : Nat := 45
def R_SPARC_UA16 : Nat := 55

/-- The initializers of the table. -/
def sparcRelDescs : List (Nat × SparcRelDesc) :=
  [(R_SPARC_NONE, ⟨0, 0, 0, .none, false, false⟩),
    (R_SPARC_LO10, ⟨4, 10, 0, .none, false, false⟩),
    (R_SPARC_8, ⟨1, 8, 0, .bits, false, false⟩),
    (R_SPARC_16, ⟨2, 16, 0, .bits, false, false⟩),
    (R_SPARC_32, ⟨4, 32, 0, .bits, false, false⟩),
    (R_SPARC_DISP8, ⟨1, 8, 0, .sign, true, false⟩),
    (R_SPARC_DISP16, ⟨2, 16, 0, .sign, true, false⟩),
    (R_SPARC_DISP32, ⟨4, 32, 0, .sign, true, false⟩),
    (R_SPARC_WDISP30, ⟨4, 30, 2, .sign, true, false⟩),
    (R_SPARC_WDISP22, ⟨4, 22, 2, .sign, true, false⟩),
    (R_SPARC_HI22, ⟨4, 22, 10, .none, false, false⟩),
    (R_SPARC_22, ⟨4, 22, 0, .bits, false, false⟩),
    (R_SPARC_13, ⟨4, 13, 0, .bits, false, false⟩),
    (R_SPARC_LO10, ⟨4, 10, 0, .none, false, false⟩),
    (R_SPARC_PC10, ⟨4, 10, 0, .none, true, false⟩),
    (R_SPARC_PC22, ⟨4, 22, 10, .bits, true, false⟩),
    (R_SPARC_UA32, ⟨4, 32, 0, .bits, false, true⟩),
    (R_SPARC_10, ⟨4, 10, 0, .bits, false, false⟩),
    (R_SPARC_11, ⟨4, 11, 0, .bits, false, false⟩),
    (R_SPARC_7, ⟨4, 7, 0, .bits, false, false⟩),
    (R_SPARC_5, ⟨4, 5, 0, .bits, false, false⟩),
    (R_SPARC_6, ⟨4, 6, 0, .bits, false, false⟩),
    (R_SPARC_UA16, ⟨2, 16, 0, .bits, false, true⟩)]

/-- The table: a later initializer of a type wins, and a type without one has an entry that is
all zero. The last type that has one is the last entry. -/
def sparcRels : List SparcRelDesc :=
  (List.range (R_SPARC_UA16 + 1)).map fun t =>
    ((sparcRelDescs.reverse.find? fun d => d.1 = t).map Prod.snd).getD
      ⟨0, 0, 0, .none, false, false⟩

/-- `sizeof(struct sparc_rel_desc)`: three bytes and one with the bit fields. -/
def sizeofSparcRelDesc : Nat := 4

/-- `sizeof(sparc_rels)` -/
def sizeofSparcRels : Nat := sizeofSparcRelDesc * sparcRels.length

/-- The entry that is used for a type, nothing behind the end of the table. -/
def sparcDsc (type : Nat) : Option SparcRelDesc :=
  if type ≥ sizeofSparcRels then sparcRels[R_SPARC_NONE]? else sparcRels[type]?

/-! ## The relocation -/

def sparcType (r : Rela 32) : Nat := ELF32_R_TYPE r.r_info

/-- The value, as an `int64_t`. -/
def sparcValue (dsc : SparcRelDesc) (r : Rela 32) (psym : RelocSym 32) (sec : RelocSection 32) :
    BitVec 64 :=
  let val := psym.value.setWidth 64 + r.r_addend.signExtend 64
  (if dsc.pcRelative then val - (r.place sec).setWidth 64 else val).sshiftRight dsc.shift

/-- `(1LL << width) - 1` -/
def sparcMsk (dsc : SparcRelDesc) : BitVec 64 := (1 : BitVec 64) <<< dsc.width - 1

def sparcUlim (dsc : SparcRelDesc) : BitVec 64 :=
  match dsc.check with
  | .none => ~~~((1 : BitVec 64) <<< 63)
  | .unsg => sparcMsk dsc
  | .bits => sparcMsk dsc
  | .sign => (sparcMsk dsc).sshiftRight 1

def sparcLlim (dsc : SparcRelDesc) : BitVec 64 :=
  match dsc.check with
  | .unsg => 0
  | _ => ~~~sparcUlim dsc

/-- `val < llim || val > ulim` -/
def sparcOverflow (dsc : SparcRelDesc) (val : BitVec 64) : Bool :=
  val.slt (sparcLlim dsc) || (sparcUlim dsc).slt val

/-- `( oval & ~msk ) | (val & msk)`, as an `int32_t` -/
def sparcNval (dsc : SparcRelDesc) (oval : BitVec 32) (val : BitVec 64) : BitVec 32 :=
  ((oval.signExtend 64 &&& ~~~sparcMsk dsc) ||| (val &&& sparcMsk dsc)).setWidth 32

/-- The relocation with the given entry. -/
def sparcRelocate (dsc : SparcRelDesc) (big : Bool) (r : Rela 32) (psym : RelocSym 32)
    (sec : RelocSection 32) (mem : ByteMem) : RelocStatus × ByteMem :=
  if dsc.nbytes = 0 then (.notsupported, mem)
  else if psym.isUnd then (.undefined, mem)
  else
    let pc := r.place sec
    if !dsc.unaligned ∧ pc &&& BitVec.ofNat 32 (dsc.nbytes - 1) ≠ 0 then (.other, mem)
    else
      let val := sparcValue dsc r psym sec
      if sparcOverflow dsc val then (.overflow, mem)
      else if dsc.nbytes = 1 then
        let oval := (mem.load big 8 pc.toNat).signExtend 32
        (.ok, mem.store big pc.toNat ((sparcNval dsc oval val).setWidth 8))
      else if dsc.nbytes = 2 then
        let oval := (mem.load big 16 pc.toNat).signExtend 32
        (.ok, mem.store big pc.toNat ((sparcNval dsc oval val).setWidth 16))
      else
        let oval := mem.load big 32 pc.toNat
        (.ok, mem.store big pc.toNat (sparcNval dsc oval val))

def pmbfdPerformRelocationSparc (big : Bool) (r : Rela 32) (psym : RelocSym 32)
    (sec : RelocSection 32) (mem : ByteMem) : Option (RelocStatus × ByteMem) :=
  if sparcType r = R_SPARC_NONE then some (.ok, mem)
  else (sparcDsc (sparcType r)).map fun dsc => sparcRelocate dsc big r psym sec mem

/-! ## Entries -/

/-- What the entries of the table have in common. -/
structure SparcRelDesc.Sound (dsc : SparcRelDesc) : Prop where
  bytes : dsc.nbytes = 0 ∨ dsc.nbytes = 1 ∨ dsc.nbytes = 2 ∨ dsc.nbytes = 4
  whole : dsc.nbytes ≠ 4 → dsc.width = 8 * dsc.nbytes
  width : dsc.width ≤ 32
  sign : dsc.check = .sign → 0 < dsc.width

instance (dsc : SparcRelDesc) : Decidable dsc.Sound :=
  decidable_of_iff ((dsc.nbytes = 0 ∨ dsc.nbytes = 1 ∨ dsc.nbytes = 2 ∨ dsc.nbytes = 4) ∧
    (dsc.nbytes ≠ 4 → dsc.width = 8 * dsc.nbytes) ∧ dsc.width ≤ 32 ∧
    (dsc.check = .sign → 0 < dsc.width))
    ⟨fun ⟨h₁, h₂, h₃, h₄⟩ => ⟨h₁, h₂, h₃, h₄⟩, fun ⟨h₁, h₂, h₃, h₄⟩ => ⟨h₁, h₂, h₃, h₄⟩⟩

theorem sparcRels_length : sparcRels.length = 56 := by
  rw [sparcRels, List.length_map, List.length_range]
  rfl

theorem sparcRels_sound : ∀ dsc ∈ sparcRels, dsc.Sound := by decide

theorem sparcDsc_sound {type : Nat} {dsc : SparcRelDesc} (h : sparcDsc type = some dsc) :
    dsc.Sound := by
  unfold sparcDsc at h
  split at h
  · exact sparcRels_sound dsc (List.mem_of_getElem? h)
  · exact sparcRels_sound dsc (List.mem_of_getElem? h)

/-- Behind the end of the table are the types from its length to its size. -/
theorem sparcDsc_eq_none {type : Nat} : sparcDsc type = none ↔ 56 ≤ type ∧ type < 224 := by
  have hsize : sizeofSparcRels = 224 := by
    rw [sizeofSparcRels, sparcRels_length]
    rfl
  unfold sparcDsc
  rw [hsize]
  split
  · refine iff_of_false ?_ (by omega)
    simp [sparcRels_length, R_SPARC_NONE]
  · rw [List.getElem?_eq_none_iff, sparcRels_length]
    omega

/-! ## Values -/

section

variable {dsc : SparcRelDesc} {r : Rela 32} {psym : RelocSym 32} {sec : RelocSection 32}

/-- `S + A`, or `S + A - P`, as a number. -/
def sparcSum (dsc : SparcRelDesc) (r : Rela 32) (psym : RelocSym 32) (sec : RelocSection 32) :
    Int :=
  psym.value.toNat + r.r_addend.toInt - if dsc.pcRelative then ((r.place sec).toNat : Int) else 0

/-- A word that is extended with zeros. -/
theorem toInt_setWidth_64 (x : BitVec 32) : (x.setWidth 64).toInt = x.toNat := by
  have hlt := x.isLt
  have hnat : (x.setWidth 64).toNat = x.toNat := by
    rw [BitVec.toNat_setWidth]
    exact Nat.mod_eq_of_lt (by omega)
  rw [BitVec.toInt_eq_toNat_of_lt (by rw [hnat]; omega), hnat]

/-- The sum of three words does not leave the 64 bits. -/
theorem sparcValue_toInt :
    (sparcValue dsc r psym sec).toInt = sparcSum dsc r psym sec / 2 ^ dsc.shift := by
  have hS := psym.value.isLt
  have hP := (r.place sec).isLt
  have hA := BitVec.le_toInt r.r_addend
  have hA' := BitVec.toInt_lt (x := r.r_addend)
  have hsum : (psym.value.setWidth 64 + r.r_addend.signExtend 64).toInt =
      psym.value.toNat + r.r_addend.toInt := by
    rw [BitVec.toInt_add, toInt_setWidth_64, BitVec.toInt_signExtend_of_le (by decide)]
    apply Int.bmod_eq_of_le <;> omega
  unfold sparcValue
  rw [BitVec.toInt_sshiftRight, Int.shiftRight_eq_div_pow]
  push_cast
  congr 1
  unfold sparcSum
  split
  · rw [BitVec.toInt_sub, hsum, toInt_setWidth_64]
    apply Int.bmod_eq_of_le <;> omega
  · rw [hsum, Int.sub_zero]

/-! ## Limits -/

/-- The range of values that an entry asks for. -/
def SparcRelDesc.InRange (dsc : SparcRelDesc) (v : Int) : Prop :=
  match dsc.check with
  | .none => True
  | .bits => -2 ^ dsc.width ≤ v ∧ v < 2 ^ dsc.width
  | .sign => -2 ^ (dsc.width - 1) ≤ v ∧ v < 2 ^ (dsc.width - 1)
  | .unsg => 0 ≤ v ∧ v < 2 ^ dsc.width

theorem sparcMsk_toInt (h : dsc.Sound) : (sparcMsk dsc).toInt = 2 ^ dsc.width - 1 :=
  lowMask_toInt (by have := h.width; omega)

theorem sparcMsk_half (h : dsc.Sound) (hs : dsc.check = .sign) :
    ((sparcMsk dsc).sshiftRight 1).toInt = 2 ^ (dsc.width - 1) - 1 := by
  have hpow : (2 : Int) ^ dsc.width = 2 * 2 ^ (dsc.width - 1) := by
    rw [← Int.pow_succ', Nat.sub_add_cancel (h.sign hs)]
  rw [BitVec.toInt_sshiftRight, sparcMsk_toInt h, Int.shiftRight_eq_div_pow]
  push_cast
  omega

theorem sparcOverflow_iff (h : dsc.Sound) (val : BitVec 64) :
    sparcOverflow dsc val = false ↔ dsc.InRange val.toInt := by
  have hle := BitVec.le_toInt val
  have hlt := BitVec.toInt_lt (x := val)
  have hmsk := sparcMsk_toInt h
  unfold sparcOverflow SparcRelDesc.InRange
  rw [BitVec.slt_eq_decide, BitVec.slt_eq_decide, Bool.or_eq_false_iff, decide_eq_false_iff_not,
    decide_eq_false_iff_not]
  cases hcheck : dsc.check with
  | none =>
    have hulim : (sparcUlim dsc).toInt = 2 ^ 63 - 1 := by
      rw [sparcUlim, hcheck]
      rfl
    have hllim : (sparcLlim dsc).toInt = -2 ^ 63 := by
      rw [sparcLlim, hcheck, not_toInt (by decide), hulim]
      rfl
    rw [hulim, hllim]
    refine iff_of_true ?_ trivial
    omega
  | bits =>
    have hulim : (sparcUlim dsc).toInt = 2 ^ dsc.width - 1 := by
      rw [sparcUlim, hcheck]
      exact hmsk
    have hllim : (sparcLlim dsc).toInt = -2 ^ dsc.width := by
      rw [sparcLlim, hcheck, not_toInt (by decide), hulim]
      omega
    rw [hulim, hllim]
    show _ ↔ -2 ^ dsc.width ≤ val.toInt ∧ val.toInt < 2 ^ dsc.width
    omega
  | sign =>
    have hulim : (sparcUlim dsc).toInt = 2 ^ (dsc.width - 1) - 1 := by
      rw [sparcUlim, hcheck]
      exact sparcMsk_half h hcheck
    have hllim : (sparcLlim dsc).toInt = -2 ^ (dsc.width - 1) := by
      rw [sparcLlim, hcheck, not_toInt (by decide), hulim]
      omega
    rw [hulim, hllim]
    show _ ↔ -2 ^ (dsc.width - 1) ≤ val.toInt ∧ val.toInt < 2 ^ (dsc.width - 1)
    omega
  | unsg =>
    have hulim : (sparcUlim dsc).toInt = 2 ^ dsc.width - 1 := by
      rw [sparcUlim, hcheck]
      exact hmsk
    have hllim : (sparcLlim dsc).toInt = 0 := by
      rw [sparcLlim, hcheck]
      rfl
    rw [hulim, hllim]
    show _ ↔ 0 ≤ val.toInt ∧ val.toInt < 2 ^ dsc.width
    omega

/-! ## Words -/

/-- A bit of the word that is written back. -/
theorem getLsbD_sparcNval (h : dsc.Sound) {oval : BitVec 32} {val : BitVec 64} {i : Nat}
    (hi : i < 32) :
    (sparcNval dsc oval val).getLsbD i =
      if i < dsc.width then val.getLsbD i else oval.getLsbD i := by
  have hmsk : (sparcMsk dsc).getLsbD i = decide (i < dsc.width) :=
    getLsbD_lowMask (by have := h.width; omega) i
  have h64 : i < 64 := by omega
  rw [sparcNval, BitVec.getLsbD_setWidth, BitVec.getLsbD_or, BitVec.getLsbD_and,
    BitVec.getLsbD_and, BitVec.getLsbD_not, BitVec.getLsbD_signExtend, hmsk]
  by_cases hw : i < dsc.width
  · simp [hi, hw]
  · simp [hi, h64, hw]

/-- The word `new` of an entry: its lowest bits are those of the value, the others are those
of the word `old`. -/
structure SparcPatched {w : Nat} (dsc : SparcRelDesc) (v : Int) (old new : BitVec w) : Prop where
  field : (new.toNat : Int) % 2 ^ dsc.width = v % 2 ^ dsc.width
  rest : ∀ i, dsc.width ≤ i → new.getLsbD i = old.getLsbD i

theorem toNat_emod_eq_toInt_emod {w n : Nat} (x : BitVec w) (h : n ≤ w) :
    (x.toNat : Int) % 2 ^ n = x.toInt % 2 ^ n := by
  obtain ⟨k, hk⟩ : (2 : Int) ^ n ∣ 2 ^ w := pow_dvd_pow 2 h
  rw [BitVec.toInt_eq_toNat_cond]
  split
  · rfl
  · push_cast
    rw [hk, Int.sub_mul_emod_self_left]

theorem sparcPatched {w : Nat} (h : dsc.Sound) (hwidth : dsc.width ≤ w) (hw : w ≤ 32)
    {old : BitVec w} {val : BitVec 64} {v : Int} (hv : val.toInt = v) :
    SparcPatched dsc v old ((sparcNval dsc (old.signExtend 32) val).setWidth w) := by
  have hbit : ∀ i, i < w →
      ((sparcNval dsc (old.signExtend 32) val).setWidth w).getLsbD i =
        if i < dsc.width then val.getLsbD i else old.getLsbD i := by
    intro i hi
    have h32 : i < 32 := by omega
    rw [BitVec.getLsbD_setWidth, getLsbD_sparcNval h h32, BitVec.getLsbD_signExtend]
    simp [hi, h32]
  constructor
  · rw [← hv, ← toNat_emod_eq_toInt_emod val (by have := h.width; omega)]
    norm_cast
    apply Nat.eq_of_testBit_eq
    intro i
    rw [Nat.testBit_mod_two_pow, Nat.testBit_mod_two_pow]
    by_cases hi : i < dsc.width
    · have hfield := hbit i (by omega)
      rw [if_pos hi] at hfield
      rw [← BitVec.getLsbD, ← BitVec.getLsbD, hfield]
    · simp [hi]
  · intro i hi
    by_cases hiw : i < w
    · rw [hbit i hiw, if_neg (by omega)]
    · rw [BitVec.getLsbD_of_ge _ _ (by omega), BitVec.getLsbD_of_ge _ _ (by omega)]

end

/-! ## Runs -/

section

variable {big : Bool} {dsc : SparcRelDesc} {r : Rela 32} {psym : RelocSym 32}
  {sec : RelocSection 32} {mem : ByteMem}

/-- The tests that a relocation has to pass. -/
structure SparcChecks (dsc : SparcRelDesc) (r : Rela 32) (psym : RelocSym 32)
    (sec : RelocSection 32) : Prop where
  supported : dsc.nbytes ≠ 0
  defined : psym.isUnd = false
  aligned : dsc.unaligned = true ∨ r.place sec &&& BitVec.ofNat 32 (dsc.nbytes - 1) = 0
  limit : sparcOverflow dsc (sparcValue dsc r psym sec) = false

theorem sparc_refused (h : ¬SparcChecks dsc r psym sec) :
    ∃ s, s ≠ .ok ∧ sparcRelocate dsc big r psym sec mem = (s, mem) := by
  unfold sparcRelocate
  split
  · exact ⟨_, by simp, rfl⟩
  next hsz =>
  split
  · exact ⟨_, by simp, rfl⟩
  next hund =>
  dsimp only
  split
  · exact ⟨_, by simp, rfl⟩
  next halgn =>
  split
  · exact ⟨_, by simp, rfl⟩
  next hlim =>
  refine absurd ⟨hsz, by simpa using hund, ?_, by simpa using hlim⟩ h
  by_cases hu : dsc.unaligned = true
  · exact .inl hu
  · exact .inr (by simpa [hu] using halgn)

theorem sparc_stored (h : dsc.Sound) (hc : SparcChecks dsc r psym sec) :
    sparcRelocate dsc big r psym sec mem =
      (.ok, mem.store big (r.place sec).toNat ((sparcNval dsc
        ((mem.load big (8 * dsc.nbytes) (r.place sec).toNat).signExtend 32)
        (sparcValue dsc r psym sec)).setWidth (8 * dsc.nbytes))) := by
  have halgn : ¬((!dsc.unaligned) = true ∧
      r.place sec &&& BitVec.ofNat 32 (dsc.nbytes - 1) ≠ 0) := by
    rintro ⟨hu, hplace⟩
    rcases hc.aligned with hal | hal
    · rw [hal] at hu
      cases hu
    · exact hplace hal
  unfold sparcRelocate
  rw [if_neg hc.supported, if_neg (by simp [hc.defined])]
  dsimp only
  rw [if_neg halgn, if_neg (by simp [hc.limit])]
  rcases h.bytes with hn | hn | hn | hn
  · exact absurd hn hc.supported
  · rw [if_pos hn, hn]
  · rw [if_neg (by omega), if_pos hn, hn]
  · rw [if_neg (by omega), if_neg (by omega), hn, BitVec.signExtend_eq, BitVec.setWidth_eq]

theorem sparc_ok_iff (h : dsc.Sound) :
    (sparcRelocate dsc big r psym sec mem).1 = .ok ↔ SparcChecks dsc r psym sec := by
  constructor
  · intro hok
    by_contra hno
    obtain ⟨s, hs, hrun⟩ : ∃ s, s ≠ .ok ∧ sparcRelocate dsc big r psym sec mem = (s, mem) :=
      sparc_refused hno
    rw [hrun] at hok
    exact hs hok
  · intro hc
    rw [sparc_stored h hc]

theorem sparc_patched (h : dsc.Sound) (big : Bool) (r : Rela 32) (psym : RelocSym 32)
    (sec : RelocSection 32) (mem : ByteMem) :
    Patched mem (r.place sec).toNat dsc.nbytes (sparcRelocate dsc big r psym sec mem) := by
  by_cases hc : SparcChecks dsc r psym sec
  · rw [sparc_stored h hc]
    exact .stored big _ rfl
  · obtain ⟨s, hs, hrun⟩ := sparc_refused hc
    rw [hrun]
    exact .refused s hs

/-! ## The rule of an entry -/

/-- A relocation goes by the entry `dsc`. -/
structure SparcUses (dsc : SparcRelDesc) (big : Bool) (r : Rela 32) (psym : RelocSym 32)
    (sec : RelocSection 32) (mem : ByteMem) (out : RelocStatus × ByteMem) : Prop where
  entry : sparcType r ≠ R_SPARC_NONE → out = sparcRelocate dsc big r psym sec mem
  range : out.1 = .ok → dsc.InRange (sparcSum dsc r psym sec / 2 ^ dsc.shift)
  holds : out.1 = .ok → SparcPatched dsc (sparcSum dsc r psym sec / 2 ^ dsc.shift)
    (mem.load big (8 * dsc.nbytes) (r.place sec).toNat)
    (out.2.load big (8 * dsc.nbytes) (r.place sec).toNat)
  unchanged : out.1 ≠ .ok → out.2 = mem
  frame : ∀ i, i < (r.place sec).toNat ∨ (r.place sec).toNat + dsc.nbytes ≤ i → out.2 i = mem i

/-- A relocation has a result, and is not supported or goes by the entry of its type. -/
def SparcLawful (big : Bool) (r : Rela 32) (psym : RelocSym 32) (sec : RelocSection 32)
    (mem : ByteMem) : Prop :=
  ∃ out, pmbfdPerformRelocationSparc big r psym sec mem = some out ∧
    (out = (.notsupported, mem) ∨
      ∃ dsc, sparcRels[sparcType r]? = some dsc ∧ SparcUses dsc big r psym sec mem out)

theorem sparcUses (h : dsc.Sound) :
    SparcUses dsc big r psym sec mem (sparcRelocate dsc big r psym sec mem) := by
  have hpatched := sparc_patched h big r psym sec mem
  refine ⟨fun _ => rfl, ?_, ?_, hpatched.unchanged, fun i hi => hpatched.frame hi⟩
  · intro hok
    rw [← sparcValue_toInt]
    exact (sparcOverflow_iff h _).mp ((sparc_ok_iff h).mp hok).limit
  · intro hok
    have hc := (sparc_ok_iff h).mp hok
    have hwidth : dsc.width ≤ 8 * dsc.nbytes := by
      have := h.width
      by_cases hn : dsc.nbytes = 4
      · omega
      · exact (h.whole hn).le
    have hword : 8 * dsc.nbytes ≤ 32 := by
      rcases h.bytes with hn | hn | hn | hn <;> omega
    rw [sparc_stored h hc, ByteMem.load_store (Nat.dvd_mul_right 8 _)]
    exact sparcPatched h hwidth hword sparcValue_toInt

/-- The type 0 has an entry without a field. -/
theorem sparcUses_none (h : sparcType r = R_SPARC_NONE) :
    SparcUses ⟨0, 0, 0, .none, false, false⟩ big r psym sec mem (.ok, mem) := by
  refine ⟨fun hne => absurd h hne, fun _ => trivial, fun _ => ⟨?_, fun _ _ => rfl⟩,
    fun _ => rfl, fun _ _ => rfl⟩
  rw [Int.pow_zero, Int.emod_one, Int.emod_one]

theorem sparcRels_none : sparcRels[R_SPARC_NONE]? = some ⟨0, 0, 0, .none, false, false⟩ := rfl

/-- The entry that is used is that of the type, unless the type is too large for the size of
the table. -/
theorem sparcDsc_eq_some {type : Nat} (h : sparcDsc type = some dsc) :
    sparcRels[type]? = some dsc ∨ dsc.nbytes = 0 := by
  unfold sparcDsc at h
  split at h
  · rw [sparcRels_none] at h
    cases h
    exact .inr rfl
  · exact .inl h

end

theorem sparc_lawful_iff (big : Bool) (r : Rela 32) (psym : RelocSym 32) (sec : RelocSection 32)
    (mem : ByteMem) :
    SparcLawful big r psym sec mem ↔ sparcType r < 56 ∨ 224 ≤ sparcType r := by
  by_cases hnone : sparcType r = R_SPARC_NONE
  · have hrun : pmbfdPerformRelocationSparc big r psym sec mem = some (.ok, mem) := if_pos hnone
    refine iff_of_true ⟨_, hrun, .inr ⟨_, ?_, sparcUses_none hnone⟩⟩ ?_
    · rw [hnone]
      exact sparcRels_none
    · rw [hnone]
      decide
  · have hrun : pmbfdPerformRelocationSparc big r psym sec mem =
        (sparcDsc (sparcType r)).map fun dsc => sparcRelocate dsc big r psym sec mem :=
      if_neg hnone
    cases hdsc : sparcDsc (sparcType r) with
    | none =>
      have hbehind := sparcDsc_eq_none.mp hdsc
      refine iff_of_false ?_ (by omega)
      rintro ⟨out, hout, _⟩
      rw [hrun, hdsc] at hout
      cases hout
    | some dsc =>
      have hbefore : ¬(56 ≤ sparcType r ∧ sparcType r < 224) := by
        rw [← sparcDsc_eq_none, hdsc]
        simp
      rw [hdsc, Option.map_some] at hrun
      refine iff_of_true ⟨_, hrun, ?_⟩ ?_
      · rcases sparcDsc_eq_some hdsc with hentry | hzero
        · exact .inr ⟨dsc, hentry, sparcUses (sparcDsc_sound hdsc)⟩
        · left
          exact if_pos hzero
      · omega

/-- The first type behind the end of the table. -/
theorem sparc_behind_table :
    ¬SparcLawful true ⟨0, 56, 0⟩ ⟨.sect 0, 0, 0⟩ ⟨0, 4⟩ (fun _ => 0) := by
  rintro ⟨out, hout, _⟩
  have hnone : sparcDsc 56 = none := sparcDsc_eq_none.mpr (by decide)
  have htype : sparcType ⟨0, 56, 0⟩ = 56 := rfl
  rw [pmbfdPerformRelocationSparc, htype, hnone] at hout
  cases hout

end Cexp
