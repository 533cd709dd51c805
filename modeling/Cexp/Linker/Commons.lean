import Cexp.Lib.Wrap
import Cexp.Linker.Sections

/-!
# New common symbols

`make_new_commons` puts the common symbols of an object, and its weak undefined symbols, into a
dummy section. An ELF file has the alignment of a common symbol in the field `st_value`, and
`elf_get_size` returns the field `st_size` as an `int`.
-/

namespace Cexp

open CLib

variable {w : Nat}

/-! ## The symbols -/

/-- What is used of an `asymbol` on the list `new_commons`. A symbol that is not common is
undefined. -/
structure NewCommon (w : Nat) where
  isCom : Bool
  val : BitVec w
  size : BitVec w
  deriving DecidableEq

/-- `elf_get_size` -/
def NewCommon.elfGetSize (s : NewCommon w) : BitVec 32 := s.size.setWidth 32

/-- `elf_get_align` -/
def NewCommon.elfGetAlign (s : NewCommon w) : BitVec 32 :=
  if s.isCom ∧ s.val.setWidth 32 ≠ 0 then s.val.setWidth 32 else 1

/-- `elf_get_align_pwr` -/
def NewCommon.alignPwr (s : NewCommon w) : Nat := Nat.clog 2 s.elfGetAlign.toNat

/-- `bfd_asymbol_value` -/
def NewCommon.value (s : NewCommon w) : BitVec w :=
  if s.isCom then s.elfGetSize.signExtend w else s.val

/-- `align_size_compare` -/
def NewCommon.alignSizeCompare (a b : NewCommon w) : Int := (b.elfGetAlign - a.elfGetAlign).toInt

/-- What `qsort` may make of a list. -/
structure QsortOf {α : Type} (cmp : α → α → Int) (l sorted : List α) : Prop where
  perm : sorted.Perm l
  ordered : sorted.Pairwise fun a b => cmp a b ≤ 0

/-! ## The dummy section -/

/-- The loop of `make_new_commons`: the values of the symbols, and the last value of `val`. -/
def layCommons (val : BitVec w) : List (NewCommon w) → List (BitVec w) × BitVec w
  | [] => ([], val)
  | s :: cs =>
    let val := alignPower val s.alignPwr
    let (vals, last) := layCommons (val + s.value) cs
    (val :: vals, last)

/-- The alignment of the dummy section is that of the first symbol. -/
def dummyPower : List (NewCommon w) → Nat
  | [] => 0
  | s :: _ => s.alignPwr

/-- `bfd_get_section_size(csect)` -/
def dummySize (cs : List (NewCommon w)) : BitVec w := (layCommons 0 cs).2

/-- The symbols with their values. -/
def newCommons (cs : List (NewCommon w)) : List (NewCommon w × BitVec w) :=
  cs.zip (layCommons 0 cs).1

/-- The address `x` belongs to the symbol in the section at `vma`. -/
def Occupies (vma : BitVec w) (p : NewCommon w × BitVec w) (x : Nat) : Prop :=
  (vma + p.2).toNat ≤ x ∧ x < (vma + p.2).toNat + p.1.size.toNat

/-- The common symbols are aligned, lie in the dummy section and do not meet, wherever the
section is. -/
structure CommonsLaid (cs : List (NewCommon w)) : Prop where
  aligned : ∀ vma : BitVec w, 2 ^ dummyPower cs ∣ vma.toNat → ∀ p ∈ newCommons cs,
    p.1.isCom = true → p.1.val.toNat ∣ (vma + p.2).toNat
  inside : ∀ vma : BitVec w, vma.toNat + (dummySize cs).toNat < 2 ^ w → ∀ p ∈ newCommons cs,
    p.1.isCom = true → vma.toNat ≤ (vma + p.2).toNat ∧
      (vma + p.2).toNat + p.1.size.toNat ≤ vma.toNat + (dummySize cs).toNat
  apart : ∀ vma : BitVec w, vma.toNat + (dummySize cs).toNat < 2 ^ w →
    (newCommons cs).Pairwise fun p q => p.1.isCom = true → q.1.isCom = true →
      ∀ x, ¬(Occupies vma p x ∧ Occupies vma q x)

/-! ## Sizes and alignments -/

/-- A symbol as a slot of a layout. -/
def NewCommon.slot (s : NewCommon w) : Slot :=
  ⟨s.alignPwr, if s.isCom then s.size.toNat else 0, s.value.toNat⟩

/-- The alignments are powers of two, and an undefined symbol has the value 0. -/
structure NewCommon.Sound (s : NewCommon w) : Prop where
  power : s.isCom = true → ∃ k, s.val.toNat = 2 ^ k
  undef : s.isCom = false → s.val = 0

/-- The symbols fit: their alignments into an `unsigned`, their sizes into what `elf_get_size`
makes of them, and all of them into the words. -/
structure CommonsFit (cs : List (NewCommon w)) : Prop where
  align : ∀ s ∈ cs, s.isCom = true → s.val.toNat < 2 ^ 32
  size : ∀ s ∈ cs, s.isCom = true → s.size.toNat ≤ s.value.toNat
  total : exactEnd 0 (cs.map NewCommon.slot) < 2 ^ w

section

variable {s : NewCommon w}

/-- The alignment that is used is a power of two, the one of the symbol if that fits. -/
theorem NewCommon.Sound.align (h : s.Sound) : ∃ k, k < 32 ∧ s.elfGetAlign.toNat = 2 ^ k ∧
    s.alignPwr = k ∧ (s.isCom = true → s.val.toNat < 2 ^ 32 → s.val.toNat = 2 ^ k) := by
  by_cases hval : s.isCom = true ∧ s.val.setWidth 32 ≠ 0
  · obtain ⟨k, hk⟩ := h.power hval.1
    have halign : s.elfGetAlign = s.val.setWidth 32 := if_pos hval
    have hk32 : k < 32 := by
      by_contra hge
      apply hval.2
      apply BitVec.eq_of_toNat_eq
      rw [BitVec.toNat_setWidth, hk]
      exact Nat.mod_eq_zero_of_dvd (Nat.pow_dvd_pow 2 (by omega))
    have hnat : s.elfGetAlign.toNat = 2 ^ k := by
      rw [halign, BitVec.toNat_setWidth, hk]
      exact Nat.mod_eq_of_lt (Nat.pow_lt_pow_right (by decide) hk32)
    refine ⟨k, hk32, hnat, ?_, fun _ _ => hk⟩
    rw [NewCommon.alignPwr, hnat]
    exact Nat.clog_pow 2 k (by decide)
  · have halign : s.elfGetAlign = 1 := if_neg hval
    refine ⟨0, by decide, by rw [halign]; rfl, ?_, ?_⟩
    · rw [NewCommon.alignPwr, halign]
      exact Nat.clog_one_right 2
    · intro hcom hlt
      obtain ⟨k, hk⟩ := h.power hcom
      exfalso
      apply hval
      refine ⟨hcom, ?_⟩
      intro hzero
      have hnat : s.val.toNat % 2 ^ 32 = 0 := by
        rw [← BitVec.toNat_setWidth, hzero]
        rfl
      have hpos := Nat.two_pow_pos k
      rw [Nat.mod_eq_of_lt hlt] at hnat
      omega

theorem NewCommon.Sound.alignPwr_lt (h : s.Sound) : s.alignPwr < 32 := by
  obtain ⟨k, hk, _, hpwr, _⟩ := h.align
  omega

/-- A size as an `int`, extended to a word. -/
theorem extended_toNat (hw : 32 ≤ w) (x : BitVec w) :
    ((x.setWidth 32).signExtend w).toNat =
      if 2 ^ 31 ≤ x.toNat % 2 ^ 32 then x.toNat % 2 ^ 32 + (2 ^ w - 2 ^ 32)
      else x.toNat % 2 ^ 32 := by
  have hword : 2 ^ 32 ≤ 2 ^ w := Nat.pow_le_pow_right (by decide) hw
  have hlt := Nat.mod_lt x.toNat (Nat.two_pow_pos 32)
  rw [BitVec.toNat_signExtend, BitVec.toNat_setWidth, BitVec.toNat_setWidth,
    BitVec.msb_eq_decide, BitVec.toNat_setWidth, Nat.mod_eq_of_lt (by omega)]
  by_cases h : 2 ^ 31 ≤ x.toNat % 2 ^ 32
  · rw [if_pos h, if_pos (by simpa using h)]
  · rw [if_neg h, if_neg (by simpa using h), Nat.add_zero]

/-- A symbol moves the pointer by its size, cut to an `int` and extended. -/
theorem NewCommon.Sound.cut (h : s.Sound) (hw : 32 ≤ w) : s.slot.Cut (2 ^ w) (2 ^ 31) := by
  have hpwr := h.alignPwr_lt
  have hpower : 2 ^ s.slot.power ≤ 2 ^ 31 := Nat.pow_le_pow_right (by decide) (by
    show s.alignPwr ≤ 31
    omega)
  have hdvd : 2 ^ s.slot.power ∣ 2 ^ w := Nat.pow_dvd_pow 2 (by
    show s.alignPwr ≤ w
    omega)
  cases hcom : s.isCom with
  | false =>
    have hsize : s.slot.size = 0 := by
      show (if s.isCom then _ else 0) = 0
      rw [hcom]
      rfl
    have hstep : s.slot.step = 0 := by
      show s.value.toNat = 0
      rw [NewCommon.value, hcom, h.undef hcom]
      rfl
    exact ⟨fun _ => hstep, by omega, by omega, hpower, hdvd⟩
  | true =>
    have hsize : s.slot.size = s.size.toNat := by
      show (if s.isCom then _ else 0) = _
      rw [hcom]
      rfl
    have hvalue : s.value = (s.size.setWidth 32).signExtend w := if_pos hcom
    have hstep := extended_toNat hw s.size
    rw [← hvalue] at hstep
    change s.slot.step = _ at hstep
    have hlt := s.size.isLt
    obtain ⟨m, hm⟩ : 2 ^ 32 ∣ 2 ^ w := Nat.pow_dvd_pow 2 hw
    have hdiv := Nat.div_add_mod s.size.toNat (2 ^ 32)
    have hmod := Nat.mod_lt s.size.toNat (Nat.two_pow_pos 32)
    have hquot : s.size.toNat / 2 ^ 32 < m := by
      rw [Nat.div_lt_iff_lt_mul (Nat.two_pow_pos 32), Nat.mul_comm, ← hm]
      exact hlt
    rw [hm] at hstep
    refine ⟨?_, ?_, ?_, hpower, hdvd⟩
    · intro hzero
      rw [hsize] at hzero
      rw [hstep, hzero]
      rfl
    · rw [hsize, hstep]
      split
      · omega
      · omega
    · rw [hsize, hstep, hm]
      split
      · omega
      · omega

/-! ## The layout -/

theorem alignPower_toNat_mod {k : Nat} (hk : k < w) (x : BitVec w) :
    (alignPower x k).toNat = alignUp (2 ^ k) x.toNat % 2 ^ w := alignUp_mask_mod hk x

variable {cs : List (NewCommon w)}

/-- After the sort the alignments go down. -/
theorem powers_descend (hsound : ∀ s ∈ cs, s.Sound)
    (hordered : cs.Pairwise fun a b => a.alignSizeCompare b ≤ 0) :
    (cs.map NewCommon.slot).Pairwise fun s t => t.power ≤ s.power := by
  rw [List.pairwise_map]
  apply hordered.imp_of_mem
  intro a b ha hb hab
  obtain ⟨i, hi, halign, hipwr, _⟩ := (hsound a ha).align
  obtain ⟨j, hj, hbalign, hjpwr, _⟩ := (hsound b hb).align
  show b.alignPwr ≤ a.alignPwr
  rw [hipwr, hjpwr]
  by_contra hlt
  have hpow : 2 ^ i < 2 ^ j := Nat.pow_lt_pow_right (by decide) (by omega)
  have hpos := Nat.two_pow_pos i
  have hmax : 2 ^ j ≤ 2 ^ 31 := Nat.pow_le_pow_right (by decide) (by omega)
  have hdiff : (b.elfGetAlign - a.elfGetAlign).toNat = 2 ^ j - 2 ^ i := by
    rw [BitVec.toNat_sub_of_le, halign, hbalign]
    rw [BitVec.le_def, halign, hbalign]
    exact hpow.le
  rw [NewCommon.alignSizeCompare, BitVec.toInt_eq_toNat_of_lt (by rw [hdiff]; omega), hdiff] at hab
  omega

/-- The loop of `make_new_commons`, for symbols of any kind with an alignment and a step. -/
def lay {α : Type} (pwr : α → Nat) (step : α → BitVec w) (val : BitVec w) :
    List α → List (BitVec w) × BitVec w
  | [] => ([], val)
  | a :: l => (alignPower val (pwr a) :: (lay pwr step (alignPower val (pwr a) + step a) l).1,
      (lay pwr step (alignPower val (pwr a) + step a) l).2)

theorem layCommons_eq (val : BitVec w) :
    layCommons val cs = lay NewCommon.alignPwr NewCommon.value val cs := by
  induction cs generalizing val with
  | nil => rfl
  | cons s cs ih =>
    show (alignPower val s.alignPwr :: (layCommons _ cs).1, (layCommons _ cs).2) = _
    rw [ih]
    rfl

/-- The symbols are laid as slots, modulo the words. -/
theorem lay_slots {α : Type} {pwr : α → Nat} {step : α → BitVec w} (size : α → Nat) {l : List α}
    (hpwr : ∀ a ∈ l, pwr a < w) (val : BitVec w) :
    (lay pwr step val l).2.toNat =
        wrapEnd (2 ^ w) val.toNat (l.map fun a => ⟨pwr a, size a, (step a).toNat⟩) ∧
      wrapPlace (2 ^ w) val.toNat (l.map fun a => ⟨pwr a, size a, (step a).toNat⟩) =
        (l.zip (lay pwr step val l).1).map fun p =>
          (⟨pwr p.1, size p.1, (step p.1).toNat⟩, p.2.toNat) := by
  induction l generalizing val with
  | nil => exact ⟨rfl, rfl⟩
  | cons a l ih =>
    rw [List.forall_mem_cons] at hpwr
    have hstart : (alignPower val (pwr a)).toNat =
        Slot.start (2 ^ w) ⟨pwr a, size a, (step a).toNat⟩ val.toNat :=
      alignPower_toNat_mod hpwr.1 val
    have hstop : (alignPower val (pwr a) + step a).toNat =
        Slot.stop (2 ^ w) ⟨pwr a, size a, (step a).toNat⟩ val.toNat := by
      rw [BitVec.toNat_add, hstart]
      rfl
    obtain ⟨hlast, hplace⟩ := ih hpwr.2 (alignPower val (pwr a) + step a)
    rw [hstop] at hlast hplace
    refine ⟨hlast, ?_⟩
    show (_, Slot.start _ _ _) :: wrapPlace _ (Slot.stop _ _ _) _ = (_, _) :: _
    rw [hplace, ← hstart]
    rfl

theorem layCommons_slots (hw : 32 ≤ w) (hsound : ∀ s ∈ cs, s.Sound) (val : BitVec w) :
    (layCommons val cs).2.toNat = wrapEnd (2 ^ w) val.toNat (cs.map NewCommon.slot) ∧
      wrapPlace (2 ^ w) val.toNat (cs.map NewCommon.slot) =
        (cs.zip (layCommons val cs).1).map fun p => (p.1.slot, p.2.toNat) := by
  rw [layCommons_eq]
  refine lay_slots (fun s : NewCommon w => if s.isCom then s.size.toNat else 0) ?_ val
  intro s hs
  have := (hsound s hs).alignPwr_lt
  omega

theorem layCommons_length (val : BitVec w) : (layCommons val cs).1.length = cs.length := by
  induction cs generalizing val with
  | nil => rfl
  | cons s cs ih => exact congrArg (· + 1) (ih _)

theorem exists_newCommon {s : NewCommon w} (hs : s ∈ cs) : ∃ off, (s, off) ∈ newCommons cs := by
  have hfst : (newCommons cs).map Prod.fst = cs :=
    List.map_fst_zip (layCommons_length 0).ge
  rw [← hfst, List.mem_map] at hs
  obtain ⟨⟨t, off⟩, hmem, rfl⟩ := hs
  exact ⟨off, hmem⟩

theorem mem_of_newCommon {p : NewCommon w × BitVec w} (h : p ∈ newCommons cs) : p.1 ∈ cs :=
  (List.of_mem_zip h).1

/-! ## The addresses -/

theorem newCommons_slots (hw : 32 ≤ w) (hsound : ∀ s ∈ cs, s.Sound) :
    wrapPlace (2 ^ w) 0 (cs.map NewCommon.slot) =
      (newCommons cs).map fun p => (p.1.slot, p.2.toNat) := by
  have hplace := (layCommons_slots hw hsound 0).2
  rw [BitVec.ofNat_eq_ofNat, BitVec.toNat_ofNat, Nat.zero_mod] at hplace
  exact hplace

theorem dummySize_toNat (hw : 32 ≤ w) (hsound : ∀ s ∈ cs, s.Sound) :
    (dummySize cs).toNat = wrapEnd (2 ^ w) 0 (cs.map NewCommon.slot) := by
  have hlast := (layCommons_slots hw hsound 0).1
  rw [BitVec.ofNat_eq_ofNat, BitVec.toNat_ofNat, Nat.zero_mod] at hlast
  exact hlast

/-- The value of a symbol is a multiple of its alignment. -/
theorem newCommon_dvd (hw : 32 ≤ w) (hsound : ∀ s ∈ cs, s.Sound) {p : NewCommon w × BitVec w}
    (hp : p ∈ newCommons cs) : 2 ^ p.1.alignPwr ∣ p.2.toNat := by
  have hmem : (p.1.slot, p.2.toNat) ∈ wrapPlace (2 ^ w) 0 (cs.map NewCommon.slot) := by
    rw [newCommons_slots hw hsound]
    exact List.mem_map_of_mem hp
  have hdvd : ∀ s ∈ cs.map NewCommon.slot, 2 ^ s.power ∣ 2 ^ w := by
    rw [List.forall_mem_map]
    exact fun s hs => ((hsound s hs).cut hw).dvd
  exact wrapPlace_dvd hdvd _ hmem

/-- The dummy section has the largest alignment. -/
theorem alignPwr_le_dummy (hsound : ∀ s ∈ cs, s.Sound)
    (hordered : cs.Pairwise fun a b => a.alignSizeCompare b ≤ 0) {s : NewCommon w}
    (hs : s ∈ cs) : s.alignPwr ≤ dummyPower cs := by
  have hdesc := powers_descend hsound hordered
  cases cs with
  | nil => cases hs
  | cons t cs =>
    rcases List.mem_cons.mp hs with rfl | htail
    · exact le_rfl
    · exact (List.pairwise_cons.mp hdesc).1 _ (List.mem_map_of_mem htail)

theorem dummyPower_lt (hsound : ∀ s ∈ cs, s.Sound) : dummyPower cs < 32 := by
  cases cs with
  | nil => exact Nat.zero_lt_succ _
  | cons s cs => exact (hsound s List.mem_cons_self).alignPwr_lt

theorem dvd_toNat_add {k : Nat} (hk : k ≤ w) (x y : BitVec w) (hy : 2 ^ k ∣ y.toNat) :
    2 ^ k ∣ (x + y).toNat ↔ 2 ^ k ∣ x.toNat := by
  rw [BitVec.toNat_add, Nat.dvd_mod_iff (Nat.pow_dvd_pow 2 hk), Nat.dvd_add_left hy]

/-- Every symbol is aligned wherever the section may be, if and only if all alignments fit. -/
theorem aligned_iff (hw : 32 ≤ w) (hsound : ∀ s ∈ cs, s.Sound)
    (hordered : cs.Pairwise fun a b => a.alignSizeCompare b ≤ 0) :
    (∀ vma : BitVec w, 2 ^ dummyPower cs ∣ vma.toNat → ∀ p ∈ newCommons cs,
        p.1.isCom = true → p.1.val.toNat ∣ (vma + p.2).toNat) ↔
      ∀ s ∈ cs, s.isCom = true → s.val.toNat < 2 ^ 32 := by
  constructor
  · intro h s hs hcom
    by_contra hge
    obtain ⟨k, hk⟩ := (hsound s hs).power hcom
    obtain ⟨off, hmem⟩ := exists_newCommon hs
    have hlt := s.val.isLt
    rw [hk] at hge hlt
    have hkw : k < w := (Nat.pow_lt_pow_iff_right (by decide)).mp hlt
    have hpower : dummyPower cs < 32 := dummyPower_lt hsound
    have hsmall : 2 ^ dummyPower cs < 2 ^ 32 := Nat.pow_lt_pow_right (by decide) hpower
    have hvma : (BitVec.ofNat w (2 ^ dummyPower cs)).toNat = 2 ^ dummyPower cs := by
      rw [BitVec.toNat_ofNat]
      exact Nat.mod_eq_of_lt (Nat.pow_lt_pow_right (by decide) (by omega))
    -- at the address 0 the value itself is aligned
    have hoff := h 0 (Nat.dvd_zero _) _ hmem hcom
    rw [BitVec.ofNat_eq_ofNat, BitVec.zero_add, hk] at hoff
    have hsum := h (BitVec.ofNat w (2 ^ dummyPower cs)) (by rw [hvma]) _ hmem hcom
    rw [hk, dvd_toNat_add hkw.le _ _ hoff, hvma] at hsum
    have := Nat.le_of_dvd (Nat.two_pow_pos _) hsum
    omega
  · intro h vma hvma p hp hcom
    have hs := mem_of_newCommon hp
    obtain ⟨k, hk, _, hpwr, hval⟩ := (hsound p.1 hs).align
    have hoff := newCommon_dvd hw hsound hp
    have hle := alignPwr_le_dummy hsound hordered hs
    rw [hval hcom (h p.1 hs hcom)]
    rw [hpwr] at hoff hle
    rw [dvd_toNat_add (by omega) _ _ hoff]
    exact (Nat.pow_dvd_pow 2 hle).trans hvma

/-- In a section that ends in front of the last address, the addresses of the symbols do not
wrap. -/
theorem address_toNat {vma off : BitVec w} {size : Nat} (hle : off.toNat ≤ size)
    (hfit : vma.toNat + size < 2 ^ w) : (vma + off).toNat = vma.toNat + off.toNat := by
  rw [BitVec.toNat_add]
  exact Nat.mod_eq_of_lt (by omega)

/-- A layout whose symbols lie in the section and do not meet, if the section is at 0. -/
theorem endsBehind_of_laid (hw : 32 ≤ w) (hsound : ∀ s ∈ cs, s.Sound) (h : CommonsLaid cs) :
    EndsBehind (2 ^ w) 0 (cs.map NewCommon.slot) := by
  have hfit : (0 : BitVec w).toNat + (dummySize cs).toNat < 2 ^ w := by
    rw [BitVec.ofNat_eq_ofNat, BitVec.toNat_ofNat, Nat.zero_mod, Nat.zero_add]
    exact (dummySize cs).isLt
  constructor
  · rw [newCommons_slots hw hsound, ← dummySize_toNat hw hsound, List.forall_mem_map]
    intro p hp hne
    cases hcom : p.1.isCom with
    | false =>
      dsimp only [NewCommon.slot] at hne
      rw [hcom] at hne
      exact absurd rfl hne
    | true =>
      have hin := (h.inside 0 hfit p hp hcom).2
      rw [BitVec.ofNat_eq_ofNat, BitVec.zero_add, BitVec.toNat_ofNat, Nat.zero_mod,
        Nat.zero_add] at hin
      dsimp only [NewCommon.slot]
      rw [hcom]
      exact hin
  · rw [newCommons_slots hw hsound, List.pairwise_map]
    refine (h.apart 0 hfit).imp ?_
    intro p q hpq
    unfold Apart Free
    dsimp only [NewCommon.slot]
    cases hpcom : p.1.isCom with
    | false => exact .inl rfl
    | true =>
      cases hqcom : q.1.isCom with
      | false => exact .inr (.inl rfl)
      | true =>
        have hno := hpq hpcom hqcom (max p.2.toNat q.2.toNat)
        unfold Occupies at hno
        rw [BitVec.ofNat_eq_ofNat, BitVec.zero_add, BitVec.zero_add] at hno
        rw [if_pos rfl, if_pos rfl]
        omega

theorem slot_cuts (hw : 32 ≤ w) (hsound : ∀ s ∈ cs, s.Sound) :
    ∀ s ∈ cs.map NewCommon.slot, s.Cut (2 ^ w) (2 ^ 31) := by
  rw [List.forall_mem_map]
  exact fun s hs => (hsound s hs).cut hw

/-- The steps are no less than the sizes of the slots if those of the symbols are not. -/
theorem slot_sizes :
    (∀ s ∈ cs.map NewCommon.slot, s.size ≤ s.step) ↔
      ∀ s ∈ cs, s.isCom = true → s.size.toNat ≤ s.value.toNat := by
  rw [List.forall_mem_map]
  apply forall₂_congr
  intro s _
  dsimp only [NewCommon.slot]
  cases s.isCom with
  | false => simp
  | true => simp

theorem laid_of_fit (hw : 32 ≤ w) (hsound : ∀ s ∈ cs, s.Sound)
    (hordered : cs.Pairwise fun a b => a.alignSizeCompare b ≤ 0) (h : CommonsFit cs) :
    CommonsLaid cs := by
  obtain ⟨hend, hrange, hfollow⟩ := exact_placed (slot_sizes.mpr h.size) h.total
  rw [← dummySize_toNat hw hsound] at hend
  rw [newCommons_slots hw hsound, ← hend, List.forall_mem_map] at hrange
  rw [newCommons_slots hw hsound, List.pairwise_map] at hfollow
  have hslot : ∀ s : NewCommon w, s.isCom = true → s.slot.size = s.size.toNat := by
    intro s hcom
    exact if_pos hcom
  refine ⟨(aligned_iff hw hsound hordered).mpr h.align, ?_, ?_⟩
  · intro vma hfit p hp hcom
    have hin := (hrange p hp).2
    dsimp only at hin
    rw [hslot p.1 hcom] at hin
    rw [address_toNat (by omega) hfit]
    omega
  · intro vma hfit
    apply hfollow.imp_of_mem
    intro p q hp hq hpq hpcom hqcom x
    have hpin := (hrange p hp).2
    have hqin := (hrange q hq).2
    dsimp only at hpq hpin hqin
    rw [hslot p.1 hpcom] at hpq hpin
    unfold Occupies
    rw [address_toNat (by omega) hfit, address_toNat (by omega) hfit]
    omega

theorem fit_of_laid (hw : 32 ≤ w) (hsound : ∀ s ∈ cs, s.Sound)
    (hordered : cs.Pairwise fun a b => a.alignSizeCompare b ≤ 0) (h : CommonsLaid cs) :
    CommonsFit cs := by
  have hstep : ∀ s ∈ cs.map NewCommon.slot, s.step < 2 ^ w := by
    rw [List.forall_mem_map]
    exact fun s _ => s.value.isLt
  obtain ⟨hsize, htotal⟩ := (endsBehind_iff (Nat.two_pow_pos w) (slot_cuts hw hsound) hstep
    (powers_descend hsound hordered)).mp (endsBehind_of_laid hw hsound h)
  exact ⟨(aligned_iff hw hsound hordered).mp h.aligned, slot_sizes.mp hsize, htotal⟩

end

/-- The new common symbols of an object are laid out as they must if and only if they fit. -/
theorem commons_laid_iff (hw : 32 ≤ w) {l cs : List (NewCommon w)} (hsound : ∀ s ∈ l, s.Sound)
    (hsort : QsortOf NewCommon.alignSizeCompare l cs) : CommonsLaid cs ↔ CommonsFit cs := by
  have hsound' : ∀ s ∈ cs, s.Sound := fun s hs => hsound s (hsort.perm.mem_iff.mp hs)
  exact ⟨fit_of_laid hw hsound' hsort.ordered, laid_of_fit hw hsound' hsort.ordered⟩

/-- A symbol of 8 bytes is sorted in front of one of 4 bytes. -/
theorem commons_laid_iff_two :
    CommonsLaid (w := 32) [⟨true, 8, 8⟩, ⟨true, 4, 4⟩] ↔
      CommonsFit (w := 32) [⟨true, 8, 8⟩, ⟨true, 4, 4⟩] := by
  refine commons_laid_iff (l := [⟨true, 4, 4⟩, ⟨true, 8, 8⟩]) (by decide) ?_
    ⟨List.Perm.swap _ _ _, by decide⟩
  rw [List.forall_mem_cons, List.forall_mem_singleton]
  exact ⟨⟨fun _ => ⟨2, rfl⟩, fun h => nomatch h⟩, ⟨fun _ => ⟨3, rfl⟩, fun h => nomatch h⟩⟩

/-- A symbol of 4 GiB, whose size is 0 as an `int`, and one of 8 bytes, which is put into it. -/
def hugeCommons : List (NewCommon 64) := [⟨true, 32, 0x100000000⟩, ⟨true, 8, 8⟩]

theorem hugeCommons_meet :
    (∀ s ∈ hugeCommons, s.Sound) ∧
      QsortOf NewCommon.alignSizeCompare hugeCommons hugeCommons ∧ ¬CommonsLaid hugeCommons := by
  have hsound : ∀ s ∈ hugeCommons, s.Sound := by
    unfold hugeCommons
    rw [List.forall_mem_cons, List.forall_mem_singleton]
    exact ⟨⟨fun _ => ⟨5, rfl⟩, fun h => nomatch h⟩, ⟨fun _ => ⟨3, rfl⟩, fun h => nomatch h⟩⟩
  have hordered : hugeCommons.Pairwise fun a b => a.alignSizeCompare b ≤ 0 := by decide
  refine ⟨hsound, ⟨List.Perm.refl _, hordered⟩, ?_⟩
  intro h
  have hsize := (fit_of_laid (by decide) hsound hordered h).size _ List.mem_cons_self rfl
  revert hsize
  decide

end Cexp
