import Cexp.Reloc.Entry

/-!
# Relocations of m68k

`pmbfd_perform_relocation` of `bfd-reloc-m68k.c`. The word in the section takes part in the
sum that replaces it.
-/

namespace Cexp

open CLib

def R_68K_NONE : Nat := 0
def R_68K_32 : Nat := 1
def R_68K_16 : Nat := 2
def R_68K_8 : Nat := 3
def R_68K_PC32 : Nat := 4
def R_68K_PC16 : Nat := 5
def R_68K_PC8 : Nat := 6

/-- What the switch over the types sets. With `pcRel` the place is subtracted. -/
structure M68kField where
  pcRel : Bool
  lim : BitVec 32
  sz : Nat

def m68kField (type : Nat) : Option M68kField :=
  if type = R_68K_PC8 then some ⟨true, -0x00080, 1⟩
  else if type = R_68K_8 then some ⟨false, -0x00100, 1⟩
  else if type = R_68K_PC16 then some ⟨true, -0x08000, 2⟩
  else if type = R_68K_16 then some ⟨false, -0x10000, 2⟩
  else if type = R_68K_PC32 then some ⟨true, 0, 4⟩
  else if type = R_68K_32 then some ⟨false, 0, 4⟩
  else none

def m68kType (r : Rela 32) : Nat := ELF32_R_TYPE r.r_info

/-- The word of `sz` bytes at the place, with its sign. -/
def m68kOld (big : Bool) (sz : Nat) (mem : ByteMem) (pc : BitVec 32) : BitVec 32 :=
  if sz = 1 then (mem.load big 8 pc.toNat).signExtend 32
  else if sz = 2 then (mem.load big 16 pc.toNat).signExtend 32
  else mem.load big 32 pc.toNat

def m68kValue (big : Bool) (f : M68kField) (r : Rela 32) (psym : RelocSym 32)
    (sec : RelocSection 32) (mem : ByteMem) : BitVec 32 :=
  m68kOld big f.sz mem (r.place sec) + psym.value + r.r_addend -
    if f.pcRel then r.place sec else 0

def pmbfdPerformRelocationM68k (big : Bool) (r : Rela 32) (psym : RelocSym 32)
    (sec : RelocSection 32) (mem : ByteMem) : RelocStatus × ByteMem :=
  if m68kType r = R_68K_NONE then (.ok, mem)
  else if psym.isUnd then (.undefined, mem)
  else
    match m68kField (m68kType r) with
    | none => (.notsupported, mem)
    | some f =>
      let pc := r.place sec
      if r.outOfRange sec f.sz then (.outofrange, mem)
      else
        let val := m68kValue big f r psym sec mem
        if beyond f.lim val then (.overflow, mem)
        else if f.sz = 1 then (.ok, mem.store big pc.toNat (val.setWidth 8))
        else if f.sz = 2 then (.ok, mem.store big pc.toNat (val.setWidth 16))
        else (.ok, mem.store big pc.toNat val)

def m68kSize (type : Nat) : Nat := ((m68kField type).map M68kField.sz).getD 0

/-! ## Runs -/

section

variable {big : Bool} {r : Rela 32} {psym : RelocSym 32} {sec : RelocSection 32} {mem : ByteMem}
  {f : M68kField}

/-- The tests that a relocation with a field has to pass, but for the test of its place. -/
structure M68kChecks (big : Bool) (r : Rela 32) (psym : RelocSym 32) (sec : RelocSection 32)
    (mem : ByteMem) (f : M68kField) : Prop where
  defined : psym.isUnd = false
  limit : beyond f.lim (m68kValue big f r psym sec mem) = false

theorem m68kField_sz {type : Nat} (h : m68kField type = some f) :
    f.sz = 1 ∨ f.sz = 2 ∨ f.sz = 4 := by
  unfold m68kField at h
  split at h
  · cases h
    exact .inl rfl
  split at h
  · cases h
    exact .inl rfl
  split at h
  · cases h
    exact .inr (.inl rfl)
  split at h
  · cases h
    exact .inr (.inl rfl)
  split at h
  · cases h
    exact .inr (.inr rfl)
  split at h
  · cases h
    exact .inr (.inr rfl)
  · cases h

theorem m68kSize_eq {type : Nat} (h : m68kField type = some f) : m68kSize type = f.sz := by
  rw [m68kSize, h]
  rfl

theorem m68k_not_none (hf : m68kField (m68kType r) = some f) : m68kType r ≠ R_68K_NONE := by
  intro h
  rw [h] at hf
  cases hf

theorem m68k_stored (hf : m68kField (m68kType r) = some f) (hout : r.outOfRange sec f.sz = false)
    (hc : M68kChecks big r psym sec mem f) :
    pmbfdPerformRelocationM68k big r psym sec mem =
      (.ok, mem.store big (r.place sec).toNat
        ((m68kValue big f r psym sec mem).setWidth (8 * f.sz))) := by
  unfold pmbfdPerformRelocationM68k
  rw [if_neg (m68k_not_none hf), if_neg (by simp [hc.defined]), hf]
  dsimp only
  rw [if_neg (by simp [hout]), if_neg (by simp [hc.limit])]
  rcases m68kField_sz hf with hsz | hsz | hsz
  · rw [if_pos hsz, hsz]
  · rw [if_neg (by omega), if_pos hsz, hsz]
  · rw [if_neg (by omega), if_neg (by omega), hsz, BitVec.setWidth_eq]

theorem m68k_refused (hf : m68kField (m68kType r) = some f)
    (h : ¬(r.outOfRange sec f.sz = false ∧ M68kChecks big r psym sec mem f)) :
    ∃ s, s ≠ .ok ∧ pmbfdPerformRelocationM68k big r psym sec mem = (s, mem) := by
  unfold pmbfdPerformRelocationM68k
  rw [if_neg (m68k_not_none hf), hf]
  dsimp only
  split
  · exact ⟨_, by simp, rfl⟩
  next hund =>
  split
  · exact ⟨_, by simp, rfl⟩
  next hout =>
  split
  · exact ⟨_, by simp, rfl⟩
  next hlim =>
  exact absurd ⟨by simpa using hout, by simpa using hund, by simpa using hlim⟩ h

theorem m68k_ok_iff (hf : m68kField (m68kType r) = some f) :
    (pmbfdPerformRelocationM68k big r psym sec mem).1 = .ok ↔
      r.outOfRange sec f.sz = false ∧ M68kChecks big r psym sec mem f := by
  constructor
  · intro h
    by_contra hno
    obtain ⟨s, hs, hrun⟩ : ∃ s, s ≠ .ok ∧
        pmbfdPerformRelocationM68k big r psym sec mem = (s, mem) := m68k_refused hf hno
    rw [hrun] at h
    exact hs h
  · rintro ⟨hout, hc⟩
    rw [m68k_stored hf hout hc]

theorem m68k_patched (big : Bool) (r : Rela 32) (psym : RelocSym 32) (sec : RelocSection 32)
    (mem : ByteMem) :
    Patched mem (r.place sec).toNat (m68kSize (m68kType r))
      (pmbfdPerformRelocationM68k big r psym sec mem) := by
  cases hf : m68kField (m68kType r) with
  | none =>
    have hsize : m68kSize (m68kType r) = 0 := by
      rw [m68kSize, hf]
      rfl
    unfold pmbfdPerformRelocationM68k
    split
    · exact .nop hsize
    · split
      · exact .refused _ (by simp)
      · rw [hf]
        exact .refused _ (by simp)
  | some f =>
    rw [m68kSize_eq hf]
    by_cases hok : r.outOfRange sec f.sz = false ∧ M68kChecks big r psym sec mem f
    · rw [m68k_stored hf hok.1 hok.2]
      exact .stored big _ rfl
    · obtain ⟨s, hs, hrun⟩ := m68k_refused hf hok
      rw [hrun]
      exact .refused s hs

end

end Cexp
