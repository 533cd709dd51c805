import Cexp.Reloc.Entry

/-!
# Relocations of PowerPC

`pmbfd_perform_relocation` of `bfd-reloc-powerpc.c`. A branch field holds the 26 bits of a
displacement whose lowest two bits are zero, inside a word whose other bits stay; the 16 bit
types hold the halves of `S + A`.
-/

namespace Cexp

open CLib

def R_PPC_NONE : Nat := 0
def R_PPC_ADDR32 : Nat := 1
def R_PPC_ADDR24 : Nat := 2
def R_PPC_ADDR16_LO : Nat := 4
def R_PPC_ADDR16_HI : Nat := 5
def R_PPC_ADDR16_HA : Nat := 6
def R_PPC_REL24 : Nat := 10
def R_PPC_REL32 : Nat := 26

/-- What the switch over the types sets. -/
structure PpcField where
  sz : Nat
  algn : Nat
  lim : BitVec 32
  msk : BitVec 32
  lomsk : BitVec 32

def ppcField (type : Nat) : Option PpcField :=
  if type = R_PPC_ADDR16_HA ∨ type = R_PPC_ADDR16_HI ∨ type = R_PPC_ADDR16_LO then
    some ⟨2, 2, 0, ~~~0, 0⟩
  else if type = R_PPC_ADDR24 ∨ type = R_PPC_REL24 then
    let lim : BitVec 32 := -(1 <<< (27 - 1))
    some ⟨4, 4, if type = R_PPC_REL24 then lim.sshiftRight 1 else lim, 0x03fffffc, 0x00000003⟩
  else if type = R_PPC_REL32 then some ⟨4, 4, 0, ~~~0, 0⟩
  else if type = R_PPC_ADDR32 then some ⟨4, 1, 0, ~~~0, 0⟩
  else none

def ppcType (r : Rela 32) : Nat := ELF32_R_TYPE r.r_info

def ppcPcRel (type : Nat) : Bool := type = R_PPC_REL24 ∨ type = R_PPC_REL32

def ppcValue (r : Rela 32) (psym : RelocSym 32) (sec : RelocSection 32) : BitVec 32 :=
  let val := psym.value + r.r_addend
  if ppcPcRel (ppcType r) then val - r.place sec else val

/-- The last switch over the types. In the sum for the adjusted half a carry out of the word
does not reach the 16 bits that are kept. -/
def ppcHalf (type : Nat) (val : BitVec 32) : BitVec 32 :=
  if type = R_PPC_ADDR16_HA then
    (if val &&& 0x8000 ≠ 0 then val + 0x10000 else val).sshiftRight 16
  else if type = R_PPC_ADDR16_HI then val.sshiftRight 16
  else val

/-- The word that is written back: the bits of the mask are replaced. -/
def ppcPatch (type : Nat) (f : PpcField) (oval val : BitVec 32) : BitVec 32 :=
  ppcHalf type ((oval &&& ~~~f.msk) ||| (val &&& f.msk))

def pmbfdPerformRelocationPowerpc (big : Bool) (r : Rela 32) (psym : RelocSym 32)
    (sec : RelocSection 32) (mem : ByteMem) : RelocStatus × ByteMem :=
  if ppcType r = R_PPC_NONE then (.ok, mem)
  else if psym.isUnd then (.undefined, mem)
  else
    match ppcField (ppcType r) with
    | none => (.notsupported, mem)
    | some f =>
      let pc := r.place sec
      if r.outOfRange sec f.sz then (.outofrange, mem)
      else if pc &&& BitVec.ofNat 32 (f.algn - 1) ≠ 0 then (.other, mem)
      else
        let val := ppcValue r psym sec
        if beyond f.lim val then (.overflow, mem)
        else if f.lomsk &&& val ≠ 0 then (.other, mem)
        else if f.sz = 2 then
          let oval := (mem.load big 16 pc.toNat).signExtend 32
          (.ok, mem.store big pc.toNat ((ppcPatch (ppcType r) f oval val).setWidth 16))
        else
          let oval := mem.load big 32 pc.toNat
          (.ok, mem.store big pc.toNat (ppcPatch (ppcType r) f oval val))

def ppcSize (type : Nat) : Nat := ((ppcField type).map PpcField.sz).getD 0

/-! ## Runs -/

section

variable {big : Bool} {r : Rela 32} {psym : RelocSym 32} {sec : RelocSection 32} {mem : ByteMem}
  {f : PpcField}

/-- The tests that a relocation with a field has to pass, but for the test of its place in the
section. -/
structure PpcChecks (r : Rela 32) (psym : RelocSym 32) (sec : RelocSection 32) (f : PpcField) :
    Prop where
  defined : psym.isUnd = false
  aligned : r.place sec &&& BitVec.ofNat 32 (f.algn - 1) = 0
  limit : beyond f.lim (ppcValue r psym sec) = false
  low : f.lomsk &&& ppcValue r psym sec = 0

theorem ppcField_sz {type : Nat} (h : ppcField type = some f) : f.sz = 2 ∨ f.sz = 4 := by
  unfold ppcField at h
  split at h
  · cases h
    exact .inl rfl
  split at h
  · cases h
    exact .inr rfl
  split at h
  · cases h
    exact .inr rfl
  split at h
  · cases h
    exact .inr rfl
  · cases h

theorem ppcSize_eq {type : Nat} (h : ppcField type = some f) : ppcSize type = f.sz := by
  rw [ppcSize, h]
  rfl

theorem ppc_not_none (hf : ppcField (ppcType r) = some f) : ppcType r ≠ R_PPC_NONE := by
  intro h
  rw [h] at hf
  cases hf

/-- A relocation with a field of a defined symbol. -/
theorem ppc_run (hf : ppcField (ppcType r) = some f) (hund : psym.isUnd = false) :
    pmbfdPerformRelocationPowerpc big r psym sec mem =
      if r.outOfRange sec f.sz then (.outofrange, mem)
      else if r.place sec &&& BitVec.ofNat 32 (f.algn - 1) ≠ 0 then (.other, mem)
      else if beyond f.lim (ppcValue r psym sec) then (.overflow, mem)
      else if f.lomsk &&& ppcValue r psym sec ≠ 0 then (.other, mem)
      else if f.sz = 2 then
        (.ok, mem.store big (r.place sec).toNat ((ppcPatch (ppcType r) f
          ((mem.load big 16 (r.place sec).toNat).signExtend 32)
          (ppcValue r psym sec)).setWidth 16))
      else
        (.ok, mem.store big (r.place sec).toNat (ppcPatch (ppcType r) f
          (mem.load big 32 (r.place sec).toNat) (ppcValue r psym sec))) := by
  unfold pmbfdPerformRelocationPowerpc
  rw [if_neg (ppc_not_none hf), if_neg (by simp [hund]), hf]

theorem ppc_stored (hf : ppcField (ppcType r) = some f) (hout : r.outOfRange sec f.sz = false)
    (hc : PpcChecks r psym sec f) :
    pmbfdPerformRelocationPowerpc big r psym sec mem =
      if f.sz = 2 then
        (.ok, mem.store big (r.place sec).toNat ((ppcPatch (ppcType r) f
          ((mem.load big 16 (r.place sec).toNat).signExtend 32)
          (ppcValue r psym sec)).setWidth 16))
      else
        (.ok, mem.store big (r.place sec).toNat (ppcPatch (ppcType r) f
          (mem.load big 32 (r.place sec).toNat) (ppcValue r psym sec))) := by
  rw [ppc_run hf hc.defined, if_neg (by simp [hout]), if_neg (by simp [hc.aligned]),
    if_neg (by simp [hc.limit]), if_neg (by simp [hc.low])]

theorem ppc_refused (hf : ppcField (ppcType r) = some f)
    (h : ¬(r.outOfRange sec f.sz = false ∧ PpcChecks r psym sec f)) :
    ∃ s, s ≠ .ok ∧ pmbfdPerformRelocationPowerpc big r psym sec mem = (s, mem) := by
  by_cases hund : psym.isUnd = true
  · refine ⟨.undefined, by simp, ?_⟩
    unfold pmbfdPerformRelocationPowerpc
    rw [if_neg (ppc_not_none hf), if_pos hund]
  · rw [Bool.not_eq_true] at hund
    rw [ppc_run hf hund]
    split
    · exact ⟨_, by simp, rfl⟩
    next hout =>
    split
    · exact ⟨_, by simp, rfl⟩
    next halgn =>
    split
    · exact ⟨_, by simp, rfl⟩
    next hlim =>
    split
    · exact ⟨_, by simp, rfl⟩
    next hlow =>
    exact absurd ⟨by simpa using hout, hund, by simpa using halgn, by simpa using hlim,
      by simpa using hlow⟩ h

theorem ppc_ok_iff (hf : ppcField (ppcType r) = some f) :
    (pmbfdPerformRelocationPowerpc big r psym sec mem).1 = .ok ↔
      r.outOfRange sec f.sz = false ∧ PpcChecks r psym sec f := by
  constructor
  · intro h
    by_contra hno
    obtain ⟨s, hs, hrun⟩ : ∃ s, s ≠ .ok ∧
        pmbfdPerformRelocationPowerpc big r psym sec mem = (s, mem) := ppc_refused hf hno
    rw [hrun] at h
    exact hs h
  · rintro ⟨hout, hc⟩
    rw [ppc_stored hf hout hc]
    split <;> rfl

theorem ppc_patched (big : Bool) (r : Rela 32) (psym : RelocSym 32) (sec : RelocSection 32)
    (mem : ByteMem) :
    Patched mem (r.place sec).toNat (ppcSize (ppcType r))
      (pmbfdPerformRelocationPowerpc big r psym sec mem) := by
  cases hf : ppcField (ppcType r) with
  | none =>
    have hsize : ppcSize (ppcType r) = 0 := by
      rw [ppcSize, hf]
      rfl
    unfold pmbfdPerformRelocationPowerpc
    split
    · exact .nop hsize
    · split
      · exact .refused _ (by simp)
      · rw [hf]
        exact .refused _ (by simp)
  | some f =>
    have hsize := ppcSize_eq hf
    by_cases hok : r.outOfRange sec f.sz = false ∧ PpcChecks r psym sec f
    · rw [ppc_stored hf hok.1 hok.2]
      rcases ppcField_sz hf with hsz | hsz
      · rw [if_pos hsz]
        exact .stored big _ (by omega)
      · rw [if_neg (by omega)]
        exact .stored big _ (by omega)
    · obtain ⟨s, hs, hrun⟩ := ppc_refused hf hok
      rw [hrun]
      exact .refused s hs

end

/-! ## Halves -/

theorem sshiftRight_16 (val : BitVec 32) :
    (val.sshiftRight 16).setWidth 16 = val.extractLsb' 16 16 := by
  apply BitVec.eq_of_getLsbD_eq
  intro i hi
  have h32 : i < 32 := by omega
  have hsum : 16 + i < 32 := by omega
  rw [BitVec.getLsbD_setWidth, BitVec.getLsbD_sshiftRight, BitVec.getLsbD_extractLsb']
  simp [hi, h32, hsum]

theorem high_toNat (val : BitVec 32) :
    ((val.sshiftRight 16).setWidth 16).toNat = val.toNat / 2 ^ 16 := by
  have := val.isLt
  rw [sshiftRight_16, BitVec.extractLsb'_toNat, Nat.shiftRight_eq_div_pow]
  omega

theorem bit15 (val : BitVec 32) : val &&& 0x8000 ≠ 0 ↔ 2 ^ 15 ≤ val.toNat % 2 ^ 16 := by
  have htwo : (0x8000 : BitVec 32) = BitVec.twoPow 32 15 := rfl
  have hbit : val.getLsbD 15 = decide (val.toNat / 32768 % 2 = 1) := by
    rw [BitVec.getLsbD, Nat.testBit_eq_decide_div_mod_eq]
  rw [htwo, BitVec.and_twoPow, hbit]
  by_cases h : val.toNat / 32768 % 2 = 1
  · rw [if_pos (decide_eq_true h)]
    refine iff_of_true (by decide) ?_
    omega
  · rw [if_neg (by simpa using h)]
    refine iff_of_false (by simp) ?_
    omega

theorem low_signExtend (val : BitVec 32) :
    ((val.setWidth 16).signExtend 32).toNat =
      if 2 ^ 15 ≤ val.toNat % 2 ^ 16 then val.toNat % 2 ^ 16 + (2 ^ 32 - 2 ^ 16)
      else val.toNat % 2 ^ 16 := by
  rw [BitVec.toNat_signExtend, BitVec.toNat_setWidth, BitVec.toNat_setWidth,
    BitVec.msb_eq_decide, BitVec.toNat_setWidth]
  by_cases h : 2 ^ 15 ≤ val.toNat % 2 ^ 16
  · rw [if_pos h, if_pos (by simpa using h)]
    omega
  · rw [if_neg h, if_neg (by simpa using h)]
    omega

/-- The halves put together. -/
theorem halves (val : BitVec 32) :
    (((val.sshiftRight 16).setWidth 16).setWidth 32 <<< 16) ||| (val.setWidth 16).setWidth 32 =
      val := by
  apply BitVec.eq_of_getLsbD_eq
  intro i hi
  rw [sshiftRight_16]
  simp only [BitVec.getLsbD_or, BitVec.getLsbD_shiftLeft, BitVec.getLsbD_setWidth,
    BitVec.getLsbD_extractLsb']
  by_cases hlt : i < 16
  · simp [hi, hlt]
  · have h16 : i - 16 < 16 := by omega
    have hsum : 16 + (i - 16) = i := by omega
    have h32 : i - 16 < 32 := by omega
    simp [hi, hlt, h16, h32, hsum]

/-- The adjusted upper half makes up for the sign of the lower one. -/
theorem halves_adjusted (val : BitVec 32) :
    ((((if val &&& 0x8000 ≠ 0 then val + 0x10000 else val).sshiftRight 16).setWidth 16).setWidth 32
      <<< 16) + (val.setWidth 16).signExtend 32 = val := by
  have hlt := val.isLt
  apply BitVec.eq_of_toNat_eq
  rw [BitVec.toNat_add, low_signExtend, BitVec.toNat_shiftLeft, BitVec.toNat_setWidth, high_toNat,
    Nat.shiftLeft_eq]
  by_cases h : val &&& 0x8000 ≠ 0
  · have hbit := (bit15 val).mp h
    rw [if_pos h, if_pos hbit, BitVec.toNat_add]
    show (((val.toNat + 65536) % 2 ^ 32 / 2 ^ 16 % 2 ^ 32 * 2 ^ 16) % 2 ^ 32 + _) % 2 ^ 32 = _
    omega
  · have hbit : ¬2 ^ 15 ≤ val.toNat % 2 ^ 16 := fun hb => h ((bit15 val).mpr hb)
    rw [if_neg h, if_neg hbit]
    omega

/-! ## Branches -/

/-- The displacement of a branch: 26 bits, of which the lowest two are no part of the field. -/
def ppcDisplacement (w : BitVec 32) : BitVec 32 := ((w &&& 0x03fffffc).setWidth 26).signExtend 32

theorem branch_mask {val : BitVec 32} (hlow : 0x00000003 &&& val = 0) :
    (val &&& 0x03fffffc).setWidth 26 = val.setWidth 26 := by
  have hmsk : ∀ i : Fin 26, (0x03fffffc : BitVec 32).getLsbD i = decide (2 ≤ i.val) := by decide
  have hthree : ∀ i : Fin 2, (0x00000003 : BitVec 32).getLsbD i = true := by decide
  apply BitVec.eq_of_getLsbD_eq
  intro i hi
  rw [BitVec.getLsbD_setWidth, BitVec.getLsbD_setWidth, BitVec.getLsbD_and, hmsk ⟨i, hi⟩]
  by_cases h2 : 2 ≤ i
  · simp [h2]
  · have hzero : (0x00000003 &&& val).getLsbD i = false := by
      rw [hlow]
      exact BitVec.getLsbD_zero
    rw [BitVec.getLsbD_and, hthree ⟨i, by omega⟩, Bool.true_and] at hzero
    simp [hzero]

/-- A branch field holds the numbers of 26 bits that are a multiple of 4. -/
theorem displacement_patched {oval val : BitVec 32} (hlow : 0x00000003 &&& val = 0)
    (hfits : FitsSigned 26 val) :
    ppcDisplacement ((oval &&& ~~~0x03fffffc) ||| (val &&& 0x03fffffc)) = val := by
  rw [ppcDisplacement, merge_field, branch_mask hlow]
  exact hfits

theorem fitsSigned_displacement {w val : BitVec 32} (h : ppcDisplacement w = val) :
    FitsSigned 26 val := fitsSigned_of_signExtend (by decide) h

theorem fitsSigned_26 (val : BitVec 32) :
    FitsSigned 26 val ↔ -2 ^ 25 ≤ val.toInt ∧ val.toInt < 2 ^ 25 := fitsSigned_iff (by decide)

/-! ## The rules of the types -/

/-- The branch `new` goes by the displacement, and its other bits are those of `old`. -/
structure PpcBranch (old new displacement : BitVec 32) : Prop where
  displacement : ppcDisplacement new = displacement
  rest : new &&& ~~~0x03fffffc = old &&& ~~~0x03fffffc

/-- The bytes at the place `P` stand for the target `S + A`. -/
structure PpcHolds (big : Bool) (type : Nat) (target P : BitVec 32) (old new : ByteMem) : Prop where
  addr32 : type = R_PPC_ADDR32 → new.load big 32 P.toNat = target
  rel32 : type = R_PPC_REL32 → new.load big 32 P.toNat = target - P
  addr24 : type = R_PPC_ADDR24 →
    PpcBranch (old.load big 32 P.toNat) (new.load big 32 P.toNat) target
  rel24 : type = R_PPC_REL24 →
    PpcBranch (old.load big 32 P.toNat) (new.load big 32 P.toNat) (target - P)

/-- Some field stands for the target. -/
structure PpcRepresentable (type : Nat) (target P : BitVec 32) : Prop where
  addr24 : type = R_PPC_ADDR24 → ∃ w, ppcDisplacement w = target
  rel24 : type = R_PPC_REL24 → ∃ w, ppcDisplacement w = target - P

/-- What a relocation must do. -/
structure PpcLawful (big : Bool) (r : Rela 32) (psym : RelocSym 32) (sec : RelocSection 32)
    (mem : ByteMem) : Prop where
  holds : (pmbfdPerformRelocationPowerpc big r psym sec mem).1 = .ok →
    PpcHolds big (ppcType r) (psym.value + r.r_addend) (r.place sec) mem
      (pmbfdPerformRelocationPowerpc big r psym sec mem).2
  reported : ¬PpcRepresentable (ppcType r) (psym.value + r.r_addend) (r.place sec) →
    (pmbfdPerformRelocationPowerpc big r psym sec mem).1 ≠ .ok
  unchanged : (pmbfdPerformRelocationPowerpc big r psym sec mem).1 ≠ .ok →
    (pmbfdPerformRelocationPowerpc big r psym sec mem).2 = mem
  frame : ∀ i, i < (r.place sec).toNat ∨ (r.place sec).toNat + ppcSize (ppcType r) ≤ i →
    (pmbfdPerformRelocationPowerpc big r psym sec mem).2 i = mem i

/-- The targets of an absolute branch that its limit lets through although no field stands for
them. -/
structure PpcGap (r : Rela 32) (psym : RelocSym 32) : Prop where
  type : ppcType r = R_PPC_ADDR24
  value : -2 ^ 26 ≤ (psym.value + r.r_addend).toInt ∧ (psym.value + r.r_addend).toInt < -2 ^ 25 ∨
    2 ^ 25 ≤ (psym.value + r.r_addend).toInt ∧ (psym.value + r.r_addend).toInt < 2 ^ 26

section

variable {big : Bool} {r : Rela 32} {psym : RelocSym 32} {sec : RelocSection 32} {mem : ByteMem}

theorem ppcField_addr32 : ppcField R_PPC_ADDR32 = some ⟨4, 1, 0, ~~~0, 0⟩ := rfl
theorem ppcField_rel32 : ppcField R_PPC_REL32 = some ⟨4, 4, 0, ~~~0, 0⟩ := rfl

theorem ppcField_addr24 :
    ppcField R_PPC_ADDR24 = some ⟨4, 4, -(1 <<< 26), 0x03fffffc, 0x00000003⟩ := rfl

theorem ppcField_rel24 :
    ppcField R_PPC_REL24 =
      some ⟨4, 4, (-(1 <<< 26) : BitVec 32).sshiftRight 1, 0x03fffffc, 0x00000003⟩ := rfl

theorem ppcValue_abs (h : ppcPcRel (ppcType r) = false) :
    ppcValue r psym sec = psym.value + r.r_addend := by
  unfold ppcValue
  rw [if_neg (by simp [h])]

theorem ppcValue_rel (h : ppcPcRel (ppcType r) = true) :
    ppcValue r psym sec = psym.value + r.r_addend - r.place sec := by
  unfold ppcValue
  rw [if_pos h]

/-- The limit of 27 bits. -/
theorem beyond_26 (val : BitVec 32) :
    beyond (-(1 <<< 26)) val = false ↔ -2 ^ 26 ≤ val.toInt ∧ val.toInt < 2 ^ 26 :=
  beyond_iff (by decide) (by decide) (by decide) val

/-- The limit of 26 bits. -/
theorem beyond_25 (val : BitVec 32) :
    beyond ((-(1 <<< 26) : BitVec 32).sshiftRight 1) val = false ↔
      -2 ^ 25 ≤ val.toInt ∧ val.toInt < 2 ^ 25 :=
  beyond_iff (by decide) (by decide) (by decide) val

/-- A type without a mask stores the value. -/
theorem ppcPatch_whole {type : Nat} {f : PpcField} (hmsk : f.msk = ~~~0) (oval val : BitVec 32) :
    ppcPatch type f oval val = ppcHalf type val := by
  have hall : (~~~0 : BitVec 32) = BitVec.allOnes 32 := by decide
  rw [ppcPatch, hmsk, hall, BitVec.not_allOnes, BitVec.and_zero, BitVec.zero_or,
    BitVec.and_allOnes]

theorem ppc_branch {val oval : BitVec 32} {type : Nat} {f : PpcField}
    (htype : type = R_PPC_ADDR24 ∨ type = R_PPC_REL24) (hmsk : f.msk = 0x03fffffc)
    (hlow : 0x00000003 &&& val = 0) (hfits : FitsSigned 26 val) :
    PpcBranch oval (ppcPatch type f oval val) val := by
  have hhalf : ∀ x, ppcHalf type x = x := by
    intro x
    rcases htype with rfl | rfl <;> rfl
  constructor
  · rw [ppcPatch, hhalf, hmsk]
    exact displacement_patched hlow hfits
  · rw [ppcPatch, hhalf, hmsk, merge_rest]

/-- Outside the gap a relocation that is not refused follows the rule of its type. -/
theorem ppc_holds (hgap : ¬PpcGap r psym)
    (hok : (pmbfdPerformRelocationPowerpc big r psym sec mem).1 = .ok) :
    PpcHolds big (ppcType r) (psym.value + r.r_addend) (r.place sec) mem
      (pmbfdPerformRelocationPowerpc big r psym sec mem).2 := by
  constructor
  · intro htype
    have hf := ppcField_addr32
    rw [← htype] at hf
    obtain ⟨hout, hc⟩ := (ppc_ok_iff hf).mp hok
    rw [ppc_stored hf hout hc, if_neg (by simp), ByteMem.load_store (by decide), ppcPatch_whole rfl,
      ppcValue_abs (by rw [htype]; rfl), htype]
    rfl
  · intro htype
    have hf := ppcField_rel32
    rw [← htype] at hf
    obtain ⟨hout, hc⟩ := (ppc_ok_iff hf).mp hok
    rw [ppc_stored hf hout hc, if_neg (by simp), ByteMem.load_store (by decide), ppcPatch_whole rfl,
      ppcValue_rel (by rw [htype]; rfl), htype]
    rfl
  · intro htype
    have hf := ppcField_addr24
    rw [← htype] at hf
    obtain ⟨hout, hc⟩ := (ppc_ok_iff hf).mp hok
    have hvalue : ppcValue r psym sec = _ := ppcValue_abs (by rw [htype]; rfl)
    have hlim := (beyond_26 _).mp hc.limit
    have hfits : FitsSigned 26 (ppcValue r psym sec) := by
      rw [fitsSigned_26]
      by_contra hno
      rw [hvalue] at hlim hno
      exact hgap ⟨htype, by omega⟩
    rw [ppc_stored hf hout hc, if_neg (by simp), ByteMem.load_store (by decide), ← hvalue]
    exact ppc_branch (.inl htype) rfl hc.low hfits
  · intro htype
    have hf := ppcField_rel24
    rw [← htype] at hf
    obtain ⟨hout, hc⟩ := (ppc_ok_iff hf).mp hok
    have hvalue : ppcValue r psym sec = _ := ppcValue_rel (by rw [htype]; rfl)
    have hfits := (fitsSigned_26 _).mpr ((beyond_25 _).mp hc.limit)
    rw [ppc_stored hf hout hc, if_neg (by simp), ByteMem.load_store (by decide), ← hvalue]
    exact ppc_branch (.inr htype) rfl hc.low hfits

theorem PpcHolds.representable {type : Nat} {target P : BitVec 32} {old new : ByteMem}
    (h : PpcHolds big type target P old new) : PpcRepresentable type target P :=
  ⟨fun htype => ⟨_, (h.addr24 htype).displacement⟩, fun htype => ⟨_, (h.rel24 htype).displacement⟩⟩

/-- A relocation does what it must exactly if its value is not in the gap, or if it is refused
for another reason. -/
theorem ppcLawful_iff :
    PpcLawful big r psym sec mem ↔
      psym.isUnd = true ∨ r.outOfRange sec 4 = true ∨ r.place sec &&& 3 ≠ 0 ∨
        3 &&& (psym.value + r.r_addend) ≠ 0 ∨ ¬PpcGap r psym := by
  constructor
  · intro h
    by_contra hno
    simp only [not_or, Bool.not_eq_true, not_not, ne_eq] at hno
    obtain ⟨hund, hout, halgn, hlow, hgap⟩ := hno
    have hf := ppcField_addr24
    rw [← hgap.type] at hf
    have hvalue : ppcValue r psym sec = _ := ppcValue_abs (by rw [hgap.type]; rfl)
    have hval := hgap.value
    have hlim := (beyond_26 (ppcValue r psym sec)).mpr (by rw [hvalue]; omega)
    have hok : (pmbfdPerformRelocationPowerpc big r psym sec mem).1 = .ok :=
      (ppc_ok_iff hf).mpr ⟨hout, hund, halgn, hlim, by rw [hvalue]; exact hlow⟩
    have hbranch := (h.holds hok).addr24 hgap.type
    have hfits := (fitsSigned_26 _).mp (fitsSigned_displacement hbranch.displacement)
    omega
  · intro h
    have hpatched := ppc_patched big r psym sec mem
    have hgap : (pmbfdPerformRelocationPowerpc big r psym sec mem).1 = .ok → ¬PpcGap r psym := by
      intro hok hgap
      have hf := ppcField_addr24
      rw [← hgap.type] at hf
      obtain ⟨hout, hc⟩ := (ppc_ok_iff hf).mp hok
      have hvalue : ppcValue r psym sec = _ := ppcValue_abs (by rw [hgap.type]; rfl)
      have hlow := hc.low
      rw [hvalue] at hlow
      rcases h with h | h | h | h | h
      · rw [hc.defined] at h
        cases h
      · rw [hout] at h
        cases h
      · exact h hc.aligned
      · exact h hlow
      · exact h hgap
    exact ⟨fun hok => ppc_holds (hgap hok) hok,
      fun hrep hok => hrep (ppc_holds (hgap hok) hok).representable,
      hpatched.unchanged, fun i hi => hpatched.frame hi⟩

/-- The half that a relocation of the given type stores for the target `S + A`. -/
def PpcHalfStored (big : Bool) (type : Nat) (target : BitVec 32) (half : BitVec 16) : Prop :=
  ∃ r psym sec mem, ppcType r = type ∧ psym.value + r.r_addend = target ∧
    (pmbfdPerformRelocationPowerpc big r psym sec mem).1 = .ok ∧
    (pmbfdPerformRelocationPowerpc big r psym sec mem).2.load big 16 (r.place sec).toNat = half

theorem PpcHalfStored.eq {type : Nat} {target : BitVec 32} {half : BitVec 16}
    (htype : type = R_PPC_ADDR16_HA ∨ type = R_PPC_ADDR16_HI ∨ type = R_PPC_ADDR16_LO)
    (h : PpcHalfStored big type target half) : half = (ppcHalf type target).setWidth 16 := by
  obtain ⟨r, psym, sec, mem, rfl, rfl, hok, rfl⟩ := h
  have hf : ppcField (ppcType r) = some ⟨2, 2, 0, ~~~0, 0⟩ := if_pos htype
  have hrel : ppcPcRel (ppcType r) = false := by
    rcases htype with h | h | h <;> rw [h] <;> rfl
  obtain ⟨hout, hc⟩ := (ppc_ok_iff hf).mp hok
  rw [ppc_stored hf hout hc, if_pos rfl, ByteMem.load_store (by decide), ppcPatch_whole rfl,
    ppcValue_abs hrel]

end

/-- The relocations of single fields, and the halves of one target. -/
theorem ppc_semantics (big : Bool) :
    (∀ r psym sec mem, PpcLawful big r psym sec mem ↔
      psym.isUnd = true ∨ r.outOfRange sec 4 = true ∨ r.place sec &&& 3 ≠ 0 ∨
        3 &&& (psym.value + r.r_addend) ≠ 0 ∨ ¬PpcGap r psym) ∧
    ∀ target ha hi lo, PpcHalfStored big R_PPC_ADDR16_HA target ha →
      PpcHalfStored big R_PPC_ADDR16_HI target hi →
      PpcHalfStored big R_PPC_ADDR16_LO target lo →
      (ha.setWidth 32 <<< 16) + lo.signExtend 32 = target ∧
        (hi.setWidth 32 <<< 16) ||| lo.setWidth 32 = target := by
  refine ⟨fun r psym sec mem => ppcLawful_iff, ?_⟩
  intro target ha hi lo hha hhi hlo
  rw [hha.eq (.inl rfl), hhi.eq (.inr (.inl rfl)), hlo.eq (.inr (.inr rfl))]
  exact ⟨halves_adjusted target, halves target⟩

/-! ## A branch that goes astray -/

/-- An absolute branch to 32 MiB, which the field takes for a negative number. -/
theorem addr24_far :
    ¬PpcLawful true ⟨0, 2, 0⟩ ⟨.sect 0, 0x02000000, 0⟩ ⟨0, 4⟩ (fun _ => 0) := by
  intro h
  have hbranch := ((h.holds (by decide)).addr24 (by decide)).displacement
  have hfits := (fitsSigned_26 _).mp (fitsSigned_displacement hbranch)
  revert hfits
  decide

end Cexp
