import Cexp.Lib.Patch
import Cexp.Reloc.Bounds

/-!
# Back ends

What the rest of the linker may rely on in a routine that performs relocations: it patches the
field of a relocation and nothing else, and what it makes of the field depends on the bytes of
the field and on no other memory (`RelocBackend`). The four back ends are of this kind.
-/

namespace Cexp

open CLib

variable {w : Nat}

/-- The bytes from `place` on. -/
def fieldAt (place n : Nat) : Set Nat := {a | place ≤ a ∧ a < place + n}

/-- A back end. There is no result where the source does not determine one. -/
structure RelocBackend (w : Nat) where
  perform : Rela w → RelocSym w → RelocSection w → ByteMem → Option (RelocStatus × ByteMem)
  /-- the number of bytes that a relocation patches -/
  size : Rela w → Nat
  patched : ∀ {r : Rela w} {psym : RelocSym w} {sec : RelocSection w} {mem : ByteMem}
    {out : RelocStatus × ByteMem}, perform r psym sec mem = some out →
    Patched mem (r.place sec).toNat (size r) out
  inner : ∀ {r : Rela w} {psym : RelocSym w} {sec : RelocSection w} {m₁ m₂ m₁' : ByteMem},
    Set.EqOn m₁ m₂ (fieldAt (r.place sec).toNat (size r)) →
    perform r psym sec m₁ = some (.ok, m₁') →
    ∃ m₂', perform r psym sec m₂ = some (.ok, m₂') ∧
      Set.EqOn m₁' m₂' (fieldAt (r.place sec).toNat (size r))
  defined : ∀ {r : Rela w} {psym : RelocSym w} {sec : RelocSection w} (m₁ m₂ : ByteMem),
    (perform r psym sec m₁).isSome → (perform r psym sec m₂).isSome

/-- A word that is stored into two memories. -/
theorem store_eqOn {big : Bool} {v : Nat} {x : BitVec v} {place n : Nat} (m₁ m₂ : ByteMem)
    (hv : v = 8 * n) :
    Set.EqOn (m₁.store big place x) (m₂.store big place x) (fieldAt place n) := by
  rintro a ⟨hle, hlt⟩
  exact ByteMem.store_inside hle (by omega)

/-- A word that is read from two memories. -/
theorem load_eqOn {big : Bool} {v : Nat} {place n : Nat} {m₁ m₂ : ByteMem}
    (h : Set.EqOn m₁ m₂ (fieldAt place n)) (hv : v = 8 * n) :
    m₁.load big v place = m₂.load big v place := by
  apply ByteMem.load_congr (by omega)
  intro i hle hlt
  exact h ⟨hle, by omega⟩

section

variable {big : Bool} {m₁ m₂ m₁' : ByteMem}

theorem x86_inner {r : Rela 64} {psym : RelocSym 64} {sec : RelocSection 64}
    (hrun : pmbfdPerformRelocationX86 big r psym sec m₁ = (.ok, m₁'))
    (heq : Set.EqOn m₁ m₂ (fieldAt (r.place sec).toNat (x86Size (x86Type r)))) :
    ∃ m₂', pmbfdPerformRelocationX86 big r psym sec m₂ = (.ok, m₂') ∧
      Set.EqOn m₁' m₂' (fieldAt (r.place sec).toNat (x86Size (x86Type r))) := by
  cases hf : x86Field (x86Type r) with
  | none =>
    unfold pmbfdPerformRelocationX86 at hrun ⊢
    rw [hf] at hrun ⊢
    by_cases hnone : x86Type r = R_X86_64_NONE
    · rw [if_pos hnone] at hrun ⊢
      cases hrun
      exact ⟨m₂, rfl, heq⟩
    · rw [if_neg hnone] at hrun
      split at hrun <;> cases hrun
  | some f =>
    obtain ⟨hout, hc⟩ := (x86_ok_iff hf).mp (congrArg Prod.fst hrun)
    rw [x86_stored hf hout hc] at hrun ⊢
    rw [x86Size_eq hf]
    rcases x86Field_sz hf with hsz | hsz
    · rw [if_pos hsz] at hrun ⊢
      cases hrun
      exact ⟨_, rfl, store_eqOn m₁ m₂ (by omega)⟩
    · rw [if_neg (by omega)] at hrun ⊢
      cases hrun
      exact ⟨_, rfl, store_eqOn m₁ m₂ (by omega)⟩

theorem ppc_inner {r : Rela 32} {psym : RelocSym 32} {sec : RelocSection 32}
    (hrun : pmbfdPerformRelocationPowerpc big r psym sec m₁ = (.ok, m₁'))
    (heq : Set.EqOn m₁ m₂ (fieldAt (r.place sec).toNat (ppcSize (ppcType r)))) :
    ∃ m₂', pmbfdPerformRelocationPowerpc big r psym sec m₂ = (.ok, m₂') ∧
      Set.EqOn m₁' m₂' (fieldAt (r.place sec).toNat (ppcSize (ppcType r))) := by
  cases hf : ppcField (ppcType r) with
  | none =>
    unfold pmbfdPerformRelocationPowerpc at hrun ⊢
    rw [hf] at hrun ⊢
    by_cases hnone : ppcType r = R_PPC_NONE
    · rw [if_pos hnone] at hrun ⊢
      cases hrun
      exact ⟨m₂, rfl, heq⟩
    · rw [if_neg hnone] at hrun
      split at hrun <;> cases hrun
  | some f =>
    obtain ⟨hout, hc⟩ := (ppc_ok_iff hf).mp (congrArg Prod.fst hrun)
    rw [ppc_stored hf hout hc] at hrun ⊢
    rw [ppcSize_eq hf] at heq ⊢
    rcases ppcField_sz hf with hsz | hsz
    · rw [if_pos hsz] at hrun ⊢
      cases hrun
      rw [load_eqOn heq (by omega)]
      exact ⟨_, rfl, store_eqOn m₁ m₂ (by omega)⟩
    · rw [if_neg (by omega)] at hrun ⊢
      cases hrun
      rw [load_eqOn heq (by omega)]
      exact ⟨_, rfl, store_eqOn m₁ m₂ (by omega)⟩

theorem m68kValue_congr {r : Rela 32} {psym : RelocSym 32} {sec : RelocSection 32}
    {f : M68kField} (hsz : f.sz = 1 ∨ f.sz = 2 ∨ f.sz = 4)
    (heq : Set.EqOn m₁ m₂ (fieldAt (r.place sec).toNat f.sz)) :
    m68kValue big f r psym sec m₁ = m68kValue big f r psym sec m₂ := by
  have hold : m68kOld big f.sz m₁ (r.place sec) = m68kOld big f.sz m₂ (r.place sec) := by
    unfold m68kOld
    rcases hsz with hsz | hsz | hsz
    · rw [if_pos hsz, if_pos hsz, load_eqOn heq (by omega)]
    · have h1 : ¬f.sz = 1 := by omega
      rw [if_neg h1, if_neg h1, if_pos hsz, if_pos hsz, load_eqOn heq (by omega)]
    · have h1 : ¬f.sz = 1 := by omega
      have h2 : ¬f.sz = 2 := by omega
      rw [if_neg h1, if_neg h1, if_neg h2, if_neg h2, load_eqOn heq (by omega)]
  unfold m68kValue
  rw [hold]

theorem m68k_inner {r : Rela 32} {psym : RelocSym 32} {sec : RelocSection 32}
    (hrun : pmbfdPerformRelocationM68k big r psym sec m₁ = (.ok, m₁'))
    (heq : Set.EqOn m₁ m₂ (fieldAt (r.place sec).toNat (m68kSize (m68kType r)))) :
    ∃ m₂', pmbfdPerformRelocationM68k big r psym sec m₂ = (.ok, m₂') ∧
      Set.EqOn m₁' m₂' (fieldAt (r.place sec).toNat (m68kSize (m68kType r))) := by
  cases hf : m68kField (m68kType r) with
  | none =>
    unfold pmbfdPerformRelocationM68k at hrun ⊢
    rw [hf] at hrun ⊢
    by_cases hnone : m68kType r = R_68K_NONE
    · rw [if_pos hnone] at hrun ⊢
      cases hrun
      exact ⟨m₂, rfl, heq⟩
    · rw [if_neg hnone] at hrun
      split at hrun <;> cases hrun
  | some f =>
    have hsz := m68kField_sz hf
    rw [m68kSize_eq hf] at heq ⊢
    have hvalue : m68kValue big f r psym sec m₁ = m68kValue big f r psym sec m₂ :=
      m68kValue_congr hsz heq
    obtain ⟨hout, hc⟩ := (m68k_ok_iff hf).mp (congrArg Prod.fst hrun)
    have hc₂ : M68kChecks big r psym sec m₂ f := by
      refine ⟨hc.defined, ?_⟩
      rw [← hvalue]
      exact hc.limit
    rw [m68k_stored hf hout hc] at hrun
    cases hrun
    refine ⟨_, m68k_stored hf hout hc₂, ?_⟩
    rw [hvalue]
    exact store_eqOn m₁ m₂ rfl

theorem sparc_inner {dsc : SparcRelDesc} (h : dsc.Sound) {r : Rela 32} {psym : RelocSym 32}
    {sec : RelocSection 32} (hrun : sparcRelocate dsc big r psym sec m₁ = (.ok, m₁'))
    (heq : Set.EqOn m₁ m₂ (fieldAt (r.place sec).toNat dsc.nbytes)) :
    ∃ m₂', sparcRelocate dsc big r psym sec m₂ = (.ok, m₂') ∧
      Set.EqOn m₁' m₂' (fieldAt (r.place sec).toNat dsc.nbytes) := by
  have hc : SparcChecks dsc r psym sec := (sparc_ok_iff h).mp (congrArg Prod.fst hrun)
  rw [sparc_stored h hc] at hrun ⊢
  cases hrun
  rw [load_eqOn heq rfl]
  exact ⟨_, rfl, store_eqOn m₁ m₂ rfl⟩

end

/-! ## The back ends -/

def x86Backend (big : Bool) : RelocBackend 64 where
  perform r psym sec mem := some (pmbfdPerformRelocationX86 big r psym sec mem)
  size r := x86Size (x86Type r)
  patched := by
    intro r psym sec mem out h
    cases h
    exact x86_patched big r psym sec mem
  inner := by
    intro r psym sec m₁ m₂ m₁' heq h
    obtain ⟨m₂', hrun, hfield⟩ := x86_inner (Option.some.inj h) heq
    exact ⟨m₂', congrArg some hrun, hfield⟩
  defined _ _ _ := rfl

def ppcBackend (big : Bool) : RelocBackend 32 where
  perform r psym sec mem := some (pmbfdPerformRelocationPowerpc big r psym sec mem)
  size r := ppcSize (ppcType r)
  patched := by
    intro r psym sec mem out h
    cases h
    exact ppc_patched big r psym sec mem
  inner := by
    intro r psym sec m₁ m₂ m₁' heq h
    obtain ⟨m₂', hrun, hfield⟩ := ppc_inner (Option.some.inj h) heq
    exact ⟨m₂', congrArg some hrun, hfield⟩
  defined _ _ _ := rfl

def m68kBackend (big : Bool) : RelocBackend 32 where
  perform r psym sec mem := some (pmbfdPerformRelocationM68k big r psym sec mem)
  size r := m68kSize (m68kType r)
  patched := by
    intro r psym sec mem out h
    cases h
    exact m68k_patched big r psym sec mem
  inner := by
    intro r psym sec m₁ m₂ m₁' heq h
    obtain ⟨m₂', hrun, hfield⟩ := m68k_inner (Option.some.inj h) heq
    exact ⟨m₂', congrArg some hrun, hfield⟩
  defined _ _ _ := rfl

/-- The types that have an entry of the table are relocated by it. -/
theorem sparc_run {big : Bool} {r : Rela 32} {psym : RelocSym 32} {sec : RelocSection 32}
    {mem : ByteMem} {out : RelocStatus × ByteMem}
    (h : pmbfdPerformRelocationSparc big r psym sec mem = some out) :
    sparcType r = R_SPARC_NONE ∧ out = (.ok, mem) ∨
      sparcType r ≠ R_SPARC_NONE ∧ ∃ dsc, sparcDsc (sparcType r) = some dsc ∧
        out = sparcRelocate dsc big r psym sec mem := by
  unfold pmbfdPerformRelocationSparc at h
  by_cases hnone : sparcType r = R_SPARC_NONE
  · rw [if_pos hnone] at h
    exact .inl ⟨hnone, (Option.some.inj h).symm⟩
  · rw [if_neg hnone] at h
    obtain ⟨dsc, hdsc, hout⟩ := Option.map_eq_some_iff.mp h
    exact .inr ⟨hnone, dsc, hdsc, hout.symm⟩

theorem sparcSize_none {r : Rela 32} (h : sparcType r = R_SPARC_NONE) :
    sparcSize (sparcType r) = 0 := by
  rw [h]
  rfl

theorem sparcSize_eq {type : Nat} {dsc : SparcRelDesc} (h : sparcDsc type = some dsc) :
    sparcSize type = dsc.nbytes := by
  rw [sparcSize, h]
  rfl

def sparcBackend (big : Bool) : RelocBackend 32 where
  perform := pmbfdPerformRelocationSparc big
  size r := sparcSize (sparcType r)
  patched := by
    intro r psym sec mem out h
    rcases sparc_run h with ⟨hnone, rfl⟩ | ⟨-, dsc, hdsc, rfl⟩
    · exact .nop (sparcSize_none hnone)
    · rw [sparcSize_eq hdsc]
      exact sparc_patched (sparcDsc_sound hdsc) big r psym sec mem
  inner := by
    intro r psym sec m₁ m₂ m₁' heq h
    rcases sparc_run h with ⟨hnone, hout⟩ | ⟨hnone, dsc, hdsc, hout⟩
    · cases hout
      exact ⟨m₂, if_pos hnone, heq⟩
    · rw [sparcSize_eq hdsc] at heq ⊢
      obtain ⟨m₂', hrun, hfield⟩ := sparc_inner (sparcDsc_sound hdsc) hout.symm heq
      refine ⟨m₂', ?_, hfield⟩
      unfold pmbfdPerformRelocationSparc
      rw [if_neg hnone, hdsc]
      exact congrArg some hrun
  defined := by
    intro r psym sec m₁ m₂ h
    unfold pmbfdPerformRelocationSparc at h ⊢
    by_cases hnone : sparcType r = R_SPARC_NONE
    · rw [if_pos hnone]
      rfl
    · rw [if_neg hnone, Option.isSome_map] at h ⊢
      exact h

/-! ## Relocations as patches -/

namespace RelocBackend

variable (B : RelocBackend w) {r : Rela w} {psym : RelocSym w} {sec : RelocSection w}
  {m₁ m₂ : ByteMem} {out₁ : RelocStatus × ByteMem}

/-- On memories with the same field, a relocation has the same outcome. -/
theorem agree (heq : Set.EqOn m₁ m₂ (fieldAt (r.place sec).toNat (B.size r)))
    (hrun : B.perform r psym sec m₁ = some out₁) :
    ∃ out₂, B.perform r psym sec m₂ = some out₂ ∧ (out₁.1 = .ok ↔ out₂.1 = .ok) ∧
      Set.EqOn out₁.2 out₂.2 (fieldAt (r.place sec).toNat (B.size r)) := by
  have hsome : (B.perform r psym sec m₂).isSome := B.defined m₁ m₂ (by rw [hrun]; rfl)
  obtain ⟨out₂, hrun₂⟩ := Option.isSome_iff_exists.mp hsome
  refine ⟨out₂, hrun₂, ?_⟩
  by_cases hok : out₁.1 = .ok
  · have hout : out₁ = (.ok, out₁.2) := by rw [← hok]
    rw [hout] at hrun
    obtain ⟨m₂', hrun', hfield⟩ := B.inner heq hrun
    rw [hrun₂] at hrun'
    cases hrun'
    exact ⟨⟨fun _ => rfl, fun _ => hok⟩, hfield⟩
  · have hno : out₂.1 ≠ .ok := by
      intro hok₂
      have hout : out₂ = (.ok, out₂.2) := by rw [← hok₂]
      rw [hout] at hrun₂
      obtain ⟨m₁', hrun', -⟩ := B.inner heq.symm hrun₂
      rw [hrun] at hrun'
      cases hrun'
      exact hok rfl
    refine ⟨⟨fun h => absurd h hok, fun h => absurd h hno⟩, ?_⟩
    rw [(B.patched hrun).unchanged hok, (B.patched hrun₂).unchanged hno]
    exact heq

/-- A relocation, whether it is refused or not. -/
def patch (r : Rela w) (psym : RelocSym w) (sec : RelocSection w) : Patch Nat (BitVec 8) where
  foot := fieldAt (r.place sec).toNat (B.size r)
  run mem := (B.perform r psym sec mem).map Prod.snd
  frame := by
    intro m m' h a ha
    obtain ⟨out, hrun, rfl⟩ := Option.map_eq_some_iff.mp h
    apply (B.patched hrun).frame
    by_contra hin
    exact ha ⟨by omega, by omega⟩
  inner := by
    intro m₁ m₂ m₁' heq h
    obtain ⟨out₁, hrun, rfl⟩ := Option.map_eq_some_iff.mp h
    obtain ⟨out₂, hrun₂, -, hfield⟩ := B.agree heq hrun
    exact ⟨out₂.2, by rw [hrun₂]; rfl, hfield⟩

end RelocBackend

end Cexp
