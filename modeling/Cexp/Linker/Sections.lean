import Cexp.Lib.Layout
import Cexp.Modules.Link

/-!
# Memory for sections

`cexpLoadFile` goes over the sections twice: `s_count` adds up what each segment of memory
needs, and when the segments are allocated `s_setvma` gives each section its address there. An
`unsigned long` has `w` bits.

The first pass counts the full padding of every section, since it does not know where a segment
will start. So the second pass stays inside the segments (`sections_laid`).
-/

namespace Cexp

open CLib

/-! ## Sections and segments -/

/-- `asection`, what the two passes use of it. -/
structure Asection (w : Nat) where
  name : CStr
  size : BitVec w
  vma : BitVec w
  alignPower : Nat
  alloc : Bool
  linkOnce : Bool
  code : Bool

/-- `CexpSegmentRec`. No memory is the address 0. -/
structure CexpSegment (w : Nat) where
  chunk : BitVec w
  vmacalc : BitVec w
  size : BitVec w

/-- The part of `LinkDataRec` that the two passes use. -/
structure SegmentData (w : Nat) where
  segs : Nat → CexpSegment w
  ehSection : Option Nat
  errors : Nat

/-- `cexpSegsMatch` of `cexpsegs-dflt.c` -/
def cexpSegsMatchDflt {w : Nat} (_ : Asection w) : Nat := 0

def SEG_TEXT : Nat := 0

def SEG_DFLT : Nat := 1

/-- `cexpSegsMatch` of `cexpsegs-powerpc-rtems.c` -/
def cexpSegsMatchPowerpc {w : Nat} (s : Asection w) : Nat := if s.code then SEG_TEXT else SEG_DFLT

/-- `".eh_frame"` -/
def EH_SECTION_NAME : CStr := ⟨[46, 101, 104, 95, 102, 114, 97, 109, 101], by decide⟩

/-- `".fixup"` -/
def FIXUP_SECTION_NAME : CStr := ⟨[46, 102, 105, 120, 117, 112], by decide⟩

/-- `".got"` -/
def GOT_SECTION_NAME : CStr := ⟨[46, 103, 111, 116], by decide⟩

/-- `".got2"` -/
def GOT2_SECTION_NAME : CStr := ⟨[46, 103, 111, 116, 50], by decide⟩

/-- `sizeof(long)` -/
def sizeofLong (w : Nat) : Nat := w / 8

variable {w : Nat}

def SegmentData.modifySeg (ld : SegmentData w) (g : Nat) (f : CexpSegment w → CexpSegment w) :
    SegmentData w :=
  { ld with segs := Function.update ld.segs g (f (ld.segs g)) }

/-- `seg->size += n` -/
def SegmentData.addSize (ld : SegmentData w) (g : Nat) (n : BitVec w) : SegmentData w :=
  ld.modifySeg g fun seg => { seg with size := seg.size + n }

/-! ## The passes -/

/-- `s_count` -/
def sCount (segOf : Asection w → Nat) (ld : SegmentData w) (i : Nat) (sect : Asection w) :
    SegmentData w :=
  let seg := segOf sect
  if sect.alloc then
    let ld := ld.addSize seg (((1 : BitVec 32) <<< sect.alignPower - 1).signExtend w)
    let ld := ld.addSize seg sect.size
    if !sect.linkOnce then
      if sect.name = EH_SECTION_NAME then
        -- space for a terminating 0
        { ld with ehSection := some i }.addSize seg (BitVec.ofNat w (sizeofLong w))
      else if sect.size ≠ 0 ∧ (sect.name = FIXUP_SECTION_NAME ∨ sect.name = GOT_SECTION_NAME ∨
          sect.name = GOT2_SECTION_NAME) then
        { ld with errors := ld.errors + 1 }
      else ld
    else ld
  else ld

/-- `s_setvma`, without the address of the text section that it notes. -/
def sSetvma (segOf : Asection w → Nat) (ld : SegmentData w) (i : Nat) (sect : Asection w) :
    Asection w × SegmentData w :=
  let g := segOf sect
  if sect.alloc then
    if sect.size = 0 then (sect, ld)
    else if (ld.segs g).vmacalc = BitVec.allOnes w then
      (sect, { ld with errors := ld.errors + 1 })
    else
      let vma := alignPower (ld.segs g).vmacalc sect.alignPower
      let vmacalc := vma + sect.size
      let vmacalc :=
        if ld.ehSection = some i then vmacalc + BitVec.ofNat w (sizeofLong w) else vmacalc
      ({ sect with vma := vma }, ld.modifySeg g fun seg => { seg with vmacalc := vmacalc })
  else (sect, ld)

/-- `bfd_map_over_sections` with `s_count`, from the section number `i` on. -/
def countFrom (segOf : Asection w → Nat) (i : Nat) (ld : SegmentData w) :
    List (Asection w) → SegmentData w
  | [] => ld
  | sect :: sects => countFrom segOf (i + 1) (sCount segOf ld i sect) sects

/-- `bfd_map_over_sections` with `s_setvma`, from the section number `i` on. -/
def setvmaFrom (segOf : Asection w → Nat) (i : Nat) (ld : SegmentData w) :
    List (Asection w) → List (Asection w) × SegmentData w
  | [] => ([], ld)
  | sect :: sects =>
    let (sect, ld) := sSetvma segOf ld i sect
    let (sects, ld) := setvmaFrom segOf (i + 1) ld sects
    (sect :: sects, ld)

/-- The data as `cexpSegsInit` and `memset` leave them. -/
def segmentInit : SegmentData w where
  segs := fun _ => ⟨0, 0, 0⟩
  ehSection := none
  errors := 0

def countAll (segOf : Asection w → Nat) (sects : List (Asection w)) : SegmentData w :=
  countFrom segOf 0 segmentInit sects

/-- `cexpSegsAlloc`, where `mem` is the memory that is found for each segment, and the start of
the counters of `s_setvma`. -/
def allocated (mem : Nat → BitVec w) (ld : SegmentData w) : SegmentData w where
  segs := fun g =>
    let seg := ld.segs g
    let chunk := if seg.size = 0 then 0 else mem g
    { seg with chunk := chunk, vmacalc := if chunk ≠ 0 then chunk else BitVec.allOnes w }
  ehSection := ld.ehSection
  errors := 0

/-- The second pass. -/
def setvmaAll (segOf : Asection w → Nat) (mem : Nat → BitVec w) (sects : List (Asection w)) :
    List (Asection w) × SegmentData w :=
  setvmaFrom segOf 0 (allocated mem (countAll segOf sects)) sects

/-! ## The first pass -/

/-- A section whose end must be marked. -/
def Asection.IsEh (s : Asection w) : Prop := s.linkOnce = false ∧ s.name = EH_SECTION_NAME

instance (s : Asection w) : Decidable s.IsEh := inferInstanceAs (Decidable (_ ∧ _))

/-- What a section needs wherever its segment starts. -/
def Asection.need (s : Asection w) : Nat :=
  if s.alloc then 2 ^ s.alignPower - 1 + s.size.toNat + if s.IsEh then sizeofLong w else 0 else 0

/-- The padded total of a segment. -/
def paddedTotal (segOf : Asection w → Nat) (g : Nat) : List (Asection w) → Nat
  | [] => 0
  | s :: sects => (if segOf s = g then s.need else 0) + paddedTotal segOf g sects

section

variable {segOf : Asection w → Nat} {ld : SegmentData w} {g i : Nat} {s : Asection w}

@[simp] theorem addSize_segs_self (n : BitVec w) :
    (ld.addSize g n).segs g = { ld.segs g with size := (ld.segs g).size + n } :=
  Function.update_self ..

theorem addSize_segs_other {h : Nat} (hne : h ≠ g) (n : BitVec w) :
    (ld.addSize g n).segs h = ld.segs h := Function.update_of_ne hne ..

theorem pad_toNat (hw : 32 ≤ w) {a : Nat} (ha : a < 31) :
    (((1 : BitVec 32) <<< a - 1).signExtend w).toNat = 2 ^ a - 1 := by
  have hnat : ((1 : BitVec 32) <<< a - 1).toNat = 2 ^ a - 1 := lowMask_toNat (by omega)
  have hpow : 2 ^ a < 2 ^ 31 := Nat.pow_lt_pow_right (by decide) ha
  have hword : 2 ^ 32 ≤ 2 ^ w := Nat.pow_le_pow_right (by decide) hw
  have hmsb : ((1 : BitVec 32) <<< a - 1).msb = false := by
    rw [BitVec.msb_eq_decide, hnat]
    exact decide_eq_false (by omega)
  rw [BitVec.toNat_signExtend, hmsb, BitVec.toNat_setWidth, hnat]
  exact Nat.mod_eq_of_lt (by omega)

theorem sizeofLong_toNat (hw : 32 ≤ w) : (BitVec.ofNat w (sizeofLong w)).toNat = sizeofLong w := by
  have hlt : w < 2 ^ w := Nat.lt_two_pow_self
  rw [BitVec.toNat_ofNat]
  exact Nat.mod_eq_of_lt (by unfold sizeofLong; omega)

/-- What `s_count` adds to the size of the segment of a section. -/
def sectCount (s : Asection w) : BitVec w :=
  ((1 : BitVec 32) <<< s.alignPower - 1).signExtend w + s.size +
    if s.IsEh then BitVec.ofNat w (sizeofLong w) else 0

theorem sCount_other (h : g ≠ segOf s) : (sCount segOf ld i s).segs g = ld.segs g := by
  unfold sCount
  dsimp only
  split
  · split
    · split
      · rw [addSize_segs_other h]
        dsimp only
        rw [addSize_segs_other h, addSize_segs_other h]
      · split
        · dsimp only
          rw [addSize_segs_other h, addSize_segs_other h]
        · rw [addSize_segs_other h, addSize_segs_other h]
    · rw [addSize_segs_other h, addSize_segs_other h]
  · rfl

theorem sCount_size :
    ((sCount segOf ld i s).segs (segOf s)).size =
      (ld.segs (segOf s)).size + if s.alloc then sectCount s else 0 := by
  unfold sCount sectCount Asection.IsEh
  dsimp only
  by_cases halloc : s.alloc = true
  · rw [if_pos halloc, if_pos halloc]
    by_cases honce : s.linkOnce = true
    · simp [honce, add_assoc]
    · rw [Bool.not_eq_true] at honce
      by_cases hname : s.name = EH_SECTION_NAME
      · simp [honce, hname, add_assoc]
      · simp only [honce, hname, Bool.not_false, if_true, if_false, and_false]
        split
        · simp [add_assoc]
        · simp [add_assoc]
  · rw [if_neg halloc, if_neg halloc]
    simp

theorem sectCount_toNat (hw : 32 ≤ w) (ha : s.alloc = true → s.alignPower < 31)
    (hlt : s.need < 2 ^ w) : (if s.alloc then sectCount s else 0).toNat = s.need := by
  unfold Asection.need at hlt ⊢
  by_cases halloc : s.alloc = true
  · rw [if_pos halloc] at hlt ⊢
    rw [if_pos halloc]
    have hpad : (((1 : BitVec 32) <<< s.alignPower - 1).signExtend w).toNat = _ :=
      pad_toNat hw (ha halloc)
    have heh : (if s.IsEh then BitVec.ofNat w (sizeofLong w) else 0).toNat =
        if s.IsEh then sizeofLong w else 0 := by
      split
      · exact sizeofLong_toNat hw
      · rfl
    rw [sectCount, BitVec.toNat_add, BitVec.toNat_add, hpad, heh, Nat.mod_add_mod]
    exact Nat.mod_eq_of_lt hlt
  · rw [if_neg halloc, if_neg halloc]
    rfl

/-- The first pass adds up what the sections of each segment need. -/
theorem countFrom_size (hw : 32 ≤ w) {sects : List (Asection w)}
    (ha : ∀ s ∈ sects, s.alloc = true → s.alignPower < 31)
    (hlt : (ld.segs g).size.toNat + paddedTotal segOf g sects < 2 ^ w) :
    ((countFrom segOf i ld sects).segs g).size.toNat =
      (ld.segs g).size.toNat + paddedTotal segOf g sects := by
  induction sects generalizing i ld with
  | nil => rfl
  | cons s sects ih =>
    have hhead := ha s List.mem_cons_self
    have htail : ∀ s ∈ sects, s.alloc = true → s.alignPower < 31 := fun s hs =>
      ha s (List.mem_cons_of_mem _ hs)
    unfold paddedTotal at hlt ⊢
    have hstep : ((sCount segOf ld i s).segs g).size.toNat =
        (ld.segs g).size.toNat + if segOf s = g then s.need else 0 := by
      by_cases hg : segOf s = g
      · subst hg
        rw [if_pos rfl] at hlt ⊢
        rw [sCount_size, BitVec.toNat_add, sectCount_toNat hw hhead (by omega)]
        exact Nat.mod_eq_of_lt (by omega)
      · rw [sCount_other (Ne.symm hg), if_neg hg, Nat.add_zero]
    show ((countFrom segOf (i + 1) (sCount segOf ld i s) sects).segs g).size.toNat = _
    rw [ih htail (by omega), hstep]
    omega

theorem sCount_eh :
    (sCount segOf ld i s).ehSection = if s.alloc = true ∧ s.IsEh then some i else ld.ehSection := by
  unfold sCount Asection.IsEh
  dsimp only
  by_cases halloc : s.alloc = true
  · by_cases honce : s.linkOnce = true
    · simp [halloc, honce, SegmentData.addSize, SegmentData.modifySeg]
    · rw [Bool.not_eq_true] at honce
      by_cases hname : s.name = EH_SECTION_NAME
      · simp [halloc, honce, hname, SegmentData.addSize, SegmentData.modifySeg]
      · simp only [halloc, honce, hname, Bool.not_false, if_true, if_false, and_false]
        split
        · rfl
        · rfl
  · simp [halloc]

/-- The section that gets a mark is one of that name. -/
theorem countFrom_eh {sects : List (Asection w)} {k : Nat}
    (h : (countFrom segOf i ld sects).ehSection = some k) :
    ld.ehSection = some k ∨ i ≤ k ∧ ∃ s, sects[k - i]? = some s ∧ s.alloc = true ∧ s.IsEh := by
  induction sects generalizing i ld with
  | nil => exact .inl h
  | cons s sects ih =>
    rcases ih h with hhead | ⟨hle, t, ht, heh⟩
    · rw [sCount_eh] at hhead
      split at hhead
      · next hs =>
        cases hhead
        refine .inr ⟨le_rfl, s, ?_, hs⟩
        rw [Nat.sub_self]
        rfl
      · exact .inl hhead
    · refine .inr ⟨by omega, t, ?_, heh⟩
      have hsub : k - i = k - (i + 1) + 1 := by omega
      rw [hsub, List.getElem?_cons_succ]
      exact ht

/-! ## The second pass -/

/-- What a section takes in its segment. -/
def blockOf (segOf : Asection w → Nat) (eh : Option Nat) (i : Nat) (s : Asection w) :
    Option (Block Nat) :=
  if s.alloc = true ∧ s.size ≠ 0 then
    some ⟨segOf s, s.alignPower, s.size.toNat + if eh = some i then sizeofLong w else 0⟩
  else none

def blocksFrom (segOf : Asection w → Nat) (eh : Option Nat) (i : Nat) :
    List (Asection w) → List (Option (Block Nat))
  | [] => []
  | s :: sects => blockOf segOf eh i s :: blocksFrom segOf eh (i + 1) sects

theorem blocksFrom_getElem? (eh : Option Nat) (sects : List (Asection w)) (k : Nat) :
    (blocksFrom segOf eh i sects)[k]? = (sects[k]?).map (blockOf segOf eh (i + k)) := by
  induction sects generalizing i k with
  | nil => rfl
  | cons s sects ih =>
    cases k with
    | zero => rfl
    | succ k =>
      have hsum : i + (k + 1) = i + 1 + k := by omega
      rw [hsum]
      exact ih k

/-- The second pass needs no more than the first one counted. -/
theorem padded_blocksFrom {eh : Option Nat} {sects : List (Asection w)}
    (heh : ∀ k s, sects[k]? = some s → eh = some (i + k) → s.IsEh) :
    padded g (blocksFrom segOf eh i sects) ≤ paddedTotal segOf g sects := by
  induction sects generalizing i with
  | nil => exact le_rfl
  | cons s sects ih =>
    have htail : padded g (blocksFrom segOf eh (i + 1) sects) ≤ paddedTotal segOf g sects := by
      apply ih
      intro k t ht hk
      have hsum : i + (k + 1) = i + 1 + k := by omega
      exact heh (k + 1) t ht (by rw [hsum]; exact hk)
    unfold blocksFrom paddedTotal blockOf
    by_cases hplace : s.alloc = true ∧ s.size ≠ 0
    · have hmark : (if eh = some i then sizeofLong w else 0) ≤
          if s.IsEh then sizeofLong w else 0 := by
        by_cases hk : eh = some i
        · rw [if_pos hk, if_pos (heh 0 s rfl hk)]
        · rw [if_neg hk]
          exact Nat.zero_le _
      rw [if_pos hplace]
      show (if segOf s = g then _ else 0) + _ ≤ _
      unfold Asection.need
      rw [if_pos hplace.1]
      by_cases hg : segOf s = g
      · rw [if_pos hg, if_pos hg]
        dsimp only
        omega
      · rw [if_neg hg, if_neg hg]
        omega
    · rw [if_neg hplace]
      exact htail.trans (Nat.le_add_left _ _)

/-- A section at its address. -/
def Asection.withVma (s : Asection w) : Option Nat → Asection w
  | none => s
  | some x => { s with vma := BitVec.ofNat w x }

/-- `s_setvma` of a section that is not placed. -/
theorem sSetvma_none (h : ¬(s.alloc = true ∧ s.size ≠ 0)) : sSetvma segOf ld i s = (s, ld) := by
  unfold sSetvma
  dsimp only
  by_cases halloc : s.alloc = true
  · have hzero : s.size = 0 := by
      by_contra hsize
      exact h ⟨halloc, hsize⟩
    rw [if_pos halloc, if_pos hzero]
  · rw [if_neg halloc]

/-- The counter of a segment stands for a pointer of a layout. -/
def Counts (ld : SegmentData w) (ptr : Nat → Nat) (bs : List (Option (Block Nat))) : Prop :=
  ∀ g, padded g bs ≠ 0 → (ld.segs g).vmacalc.toNat = ptr g ∧ ptr g + padded g bs < 2 ^ w

theorem alignPower_toNat {x : BitVec w} {k : Nat} (hk : k < w)
    (h : x.toNat + (2 ^ k - 1) < 2 ^ w) : (alignPower x k).toNat = alignUp (2 ^ k) x.toNat :=
  alignUp_mask hk h

/-- The counter behind a section. -/
theorem counter_toNat (hw : 32 ≤ w) (vma n : BitVec w) (mark : Prop) [Decidable mark]
    (h : vma.toNat + (n.toNat + if mark then sizeofLong w else 0) < 2 ^ w) :
    (if mark then vma + n + BitVec.ofNat w (sizeofLong w) else vma + n).toNat =
      vma.toNat + (n.toNat + if mark then sizeofLong w else 0) := by
  have hsum : (vma + n).toNat = vma.toNat + n.toNat := by
    rw [BitVec.toNat_add]
    exact Nat.mod_eq_of_lt (by omega)
  split
  · next hmark =>
    rw [if_pos hmark] at h
    rw [BitVec.toNat_add, hsum, sizeofLong_toNat hw, Nat.mod_eq_of_lt (by omega)]
    omega
  · rw [hsum]
    omega

/-- `s_setvma` of a section that is placed. -/
theorem sSetvma_some (hw : 32 ≤ w) (ha : s.alloc = true → s.alignPower < 31) {b : Block Nat}
    {bs : List (Option (Block Nat))} {ptr : Nat → Nat}
    (hb : blockOf segOf ld.ehSection i s = some b) (hcounts : Counts ld ptr (some b :: bs)) :
    ∃ ld', sSetvma segOf ld i s = (s.withVma (some (b.addr ptr)), ld') ∧
      Counts ld' (b.advance ptr) bs ∧ ld'.ehSection = ld.ehSection ∧ ld'.errors = ld.errors := by
  have hplace : s.alloc = true ∧ s.size ≠ 0 := by
    by_contra hno
    rw [blockOf, if_neg hno] at hb
    cases hb
  rw [blockOf, if_pos hplace] at hb
  cases hb
  have hsize : s.size.toNat ≠ 0 := fun hzero => hplace.2 (BitVec.eq_of_toNat_eq hzero)
  have hpadded := padded_cons_region (R := Nat) ⟨segOf s, s.alignPower, s.size.toNat +
    if ld.ehSection = some i then sizeofLong w else 0⟩ bs
  dsimp only at hpadded
  have hext : s.size.toNat ≤ s.size.toNat + if ld.ehSection = some i then sizeofLong w else 0 :=
    Nat.le_add_right _ _
  obtain ⟨hvma, hlt⟩ := hcounts (segOf s) (by omega)
  rw [hpadded] at hlt
  have hne : (ld.segs (segOf s)).vmacalc ≠ BitVec.allOnes w := by
    intro h
    rw [h, BitVec.toNat_allOnes] at hvma
    omega
  have haddr : (alignPower (ld.segs (segOf s)).vmacalc s.alignPower).toNat =
      alignUp (2 ^ s.alignPower) (ptr (segOf s)) := by
    rw [alignPower_toNat (by have := ha hplace.1; omega) (by omega), hvma]
  have hle := alignUp_le (2 ^ s.alignPower) (ptr (segOf s))
  have hnext := counter_toNat hw (alignPower (ld.segs (segOf s)).vmacalc s.alignPower) s.size
    (ld.ehSection = some i) (by rw [haddr]; omega)
  rw [haddr] at hnext
  unfold sSetvma
  dsimp only
  rw [if_pos hplace.1, if_neg hplace.2, if_neg hne]
  refine ⟨_, Prod.ext ?_ rfl, ?_, rfl, rfl⟩
  · show { s with vma := _ } = { s with vma := BitVec.ofNat w (alignUp _ _) }
    rw [← haddr, BitVec.ofNat_toNat, BitVec.setWidth_eq]
  · intro g hg
    by_cases hreg : g = segOf s
    · subst hreg
      rw [Block.advance_region]
      dsimp only [SegmentData.modifySeg]
      rw [Function.update_self]
      refine ⟨hnext, ?_⟩
      dsimp only [Block.addr]
      omega
    · obtain ⟨hvma', hlt'⟩ := hcounts g (by rw [padded_cons_other hreg]; exact hg)
      rw [padded_cons_other hreg] at hlt'
      rw [Block.advance_other hreg]
      dsimp only [SegmentData.modifySeg]
      rw [Function.update_of_ne hreg]
      exact ⟨hvma', hlt'⟩

theorem setvmaFrom_eq (hw : 32 ≤ w) {sects : List (Asection w)}
    (ha : ∀ s ∈ sects, s.alloc = true → s.alignPower < 31) {ptr : Nat → Nat}
    (hcounts : Counts ld ptr (blocksFrom segOf ld.ehSection i sects)) :
    (setvmaFrom segOf i ld sects).1 =
        List.zipWith Asection.withVma sects
          (placeAll ptr (blocksFrom segOf ld.ehSection i sects)).1 ∧
      (setvmaFrom segOf i ld sects).2.errors = ld.errors := by
  induction sects generalizing i ld ptr with
  | nil => exact ⟨rfl, rfl⟩
  | cons s sects ih =>
    have hhead := ha s List.mem_cons_self
    have htail : ∀ s ∈ sects, s.alloc = true → s.alignPower < 31 := fun s hs =>
      ha s (List.mem_cons_of_mem _ hs)
    unfold setvmaFrom
    unfold blocksFrom at hcounts ⊢
    cases hb : blockOf segOf ld.ehSection i s with
    | none =>
      rw [hb] at hcounts
      have hno : ¬(s.alloc = true ∧ s.size ≠ 0) := by
        intro hplace
        rw [blockOf, if_pos hplace] at hb
        cases hb
      obtain ⟨hsects, herr⟩ := ih htail hcounts
      rw [sSetvma_none hno]
      exact ⟨congrArg (s :: ·) hsects, herr⟩
    | some b =>
      rw [hb] at hcounts
      obtain ⟨ld', hrun, hcounts', heh, herr'⟩ := sSetvma_some hw hhead hb hcounts
      rw [← heh] at hcounts' ⊢
      obtain ⟨hsects, herr⟩ := ih htail hcounts'
      rw [hrun]
      exact ⟨congrArg (_ :: ·) hsects, herr.trans herr'⟩

end

/-! ## The two passes together -/

/-- What `malloc` and the region manager promise: the memory of each segment that is not empty is
somewhere, ends before the last address, and does not meet the memory of another one. -/
structure SegmentMemory (size mem : Nat → BitVec w) : Prop where
  nonnull : ∀ g, size g ≠ 0 → mem g ≠ 0
  fits : ∀ g, size g ≠ 0 → (mem g).toNat + (size g).toNat < 2 ^ w
  apart : ∀ g h, g ≠ h → size g ≠ 0 → size h ≠ 0 →
    (mem g).toNat + (size g).toNat ≤ (mem h).toNat ∨ (mem h).toNat + (size h).toNat ≤ (mem g).toNat

/-- The bytes of the section number `i`, with the mark behind it. -/
def Asection.extent (eh : Option Nat) (i : Nat) (s : Asection w) : Nat :=
  s.size.toNat + if eh = some i then sizeofLong w else 0

/-- The sections `laid` are the sections `sects`, placed in the memory of their segments. -/
structure SectionsLaid (segOf : Asection w → Nat) (size mem : Nat → BitVec w) (eh : Option Nat)
    (sects laid : List (Asection w)) : Prop where
  placed : ∀ (i : Nat) (s : Asection w), sects[i]? = some s → s.alloc = true → s.size ≠ 0 →
    ∃ a : BitVec w,
    laid[i]? = some { s with vma := a } ∧ 2 ^ s.alignPower ∣ a.toNat ∧
      (mem (segOf s)).toNat ≤ a.toNat ∧
      a.toNat + s.extent eh i ≤ (mem (segOf s)).toNat + (size (segOf s)).toNat
  apart : ∀ (i j : Nat) (s t : Asection w), i ≠ j → laid[i]? = some s → laid[j]? = some t →
    s.alloc = true → s.size ≠ 0 → t.alloc = true → t.size ≠ 0 →
    s.vma.toNat + s.extent eh i ≤ t.vma.toNat ∨ t.vma.toNat + t.extent eh j ≤ s.vma.toNat
  kept : ∀ (i : Nat) (s : Asection w), sects[i]? = some s → ¬(s.alloc = true ∧ s.size ≠ 0) →
    laid[i]? = some s

/-- The sizes that the first pass counts. -/
def countedSize (segOf : Asection w → Nat) (sects : List (Asection w)) (g : Nat) : BitVec w :=
  ((countAll segOf sects).segs g).size

section

variable {segOf : Asection w → Nat} {sects : List (Asection w)} {mem : Nat → BitVec w}

theorem countedSize_toNat (hw : 32 ≤ w)
    (ha : ∀ s ∈ sects, s.alloc = true → s.alignPower < 31) {g : Nat}
    (hlt : paddedTotal segOf g sects < 2 ^ w) :
    (countedSize segOf sects g).toNat = paddedTotal segOf g sects := by
  have hzero : ((segmentInit : SegmentData w).segs g).size.toNat = 0 := rfl
  unfold countedSize countAll
  rw [countFrom_size hw ha (by omega), hzero, Nat.zero_add]

theorem countAll_eh_section {k : Nat} (h : (countAll segOf sects).ehSection = some k) :
    ∃ s, sects[k]? = some s ∧ s.alloc = true ∧ s.IsEh := by
  rcases countFrom_eh h with hinit | ⟨_, hs⟩
  · cases hinit
  · exact hs

theorem countAll_eh {k : Nat} {s : Asection w} (hs : sects[k]? = some s)
    (h : (countAll segOf sects).ehSection = some k) : s.IsEh := by
  obtain ⟨t, ht, -, heh⟩ := countAll_eh_section h
  rw [hs] at ht
  cases ht
  exact heh

/-- The blocks of the second pass. -/
def blocks (segOf : Asection w → Nat) (sects : List (Asection w)) : List (Option (Block Nat)) :=
  blocksFrom segOf (countAll segOf sects).ehSection 0 sects

def segmentStart (mem : Nat → BitVec w) (g : Nat) : Nat := (mem g).toNat

variable (segOf sects) in
theorem padded_blocks (g : Nat) : padded g (blocks segOf sects) ≤ paddedTotal segOf g sects := by
  apply padded_blocksFrom
  intro k s hs hk
  rw [Nat.zero_add] at hk
  exact countAll_eh hs hk

theorem segment_counts (hw : 32 ≤ w) (ha : ∀ s ∈ sects, s.alloc = true → s.alignPower < 31)
    (htotal : ∀ g, paddedTotal segOf g sects < 2 ^ w)
    (hmem : SegmentMemory (countedSize segOf sects) mem) :
    Counts (allocated mem (countAll segOf sects)) (segmentStart mem) (blocks segOf sects) := by
  intro g hg
  have hle := padded_blocks segOf sects g
  have hsize := countedSize_toNat hw ha (htotal g)
  have hne : countedSize segOf sects g ≠ 0 := by
    intro hzero
    rw [hzero, BitVec.ofNat_eq_ofNat, BitVec.toNat_ofNat, Nat.zero_mod] at hsize
    omega
  have hfits := hmem.fits g hne
  refine ⟨?_, by unfold segmentStart; omega⟩
  unfold countedSize at hne
  dsimp only [allocated]
  rw [if_neg hne, if_pos (hmem.nonnull g hne)]
  rfl

theorem blocks_getElem? {i : Nat} {s : Asection w} (hs : sects[i]? = some s) :
    (blocks segOf sects)[i]? = some (blockOf segOf (countAll segOf sects).ehSection i s) := by
  unfold blocks
  rw [blocksFrom_getElem?, hs, Nat.zero_add]
  rfl

/-- The block of a section that is placed. -/
def sectBlock (segOf : Asection w → Nat) (eh : Option Nat) (i : Nat) (s : Asection w) :
    Block Nat := ⟨segOf s, s.alignPower, s.extent eh i⟩

theorem blocks_placed {i : Nat} {s : Asection w} (hs : sects[i]? = some s)
    (halloc : s.alloc = true) (hsize : s.size ≠ 0) :
    (blocks segOf sects)[i]? =
      some (some (sectBlock segOf (countAll segOf sects).ehSection i s)) := by
  rw [blocks_getElem? hs, blockOf, if_pos ⟨halloc, hsize⟩]
  rfl

/-- The sections after the second pass. -/
theorem setvmaAll_eq (hw : 32 ≤ w) (ha : ∀ s ∈ sects, s.alloc = true → s.alignPower < 31)
    (htotal : ∀ g, paddedTotal segOf g sects < 2 ^ w)
    (hmem : SegmentMemory (countedSize segOf sects) mem) :
    (setvmaAll segOf mem sects).1 =
        List.zipWith Asection.withVma sects
          (placeAll (segmentStart mem) (blocks segOf sects)).1 ∧
      (setvmaAll segOf mem sects).2.errors = 0 :=
  setvmaFrom_eq hw ha (segment_counts hw ha htotal hmem)

theorem zipWith_withVma {i : Nat} {s : Asection w} {xs : List (Option Nat)} {x : Option Nat}
    (hs : sects[i]? = some s) (hx : xs[i]? = some x) :
    (List.zipWith Asection.withVma sects xs)[i]? = some (s.withVma x) := by
  rw [List.getElem?_zipWith, hs, hx]

variable (segOf mem) in
/-- The address of a section that is placed. -/
theorem laid_at {i : Nat} {s : Asection w} (hs : sects[i]? = some s) (halloc : s.alloc = true)
    (hsize : s.size ≠ 0) : ∃ x, PlacedAt (blocks segOf sects) (segmentStart mem) i
        (sectBlock segOf (countAll segOf sects).ehSection i s) x ∧
      (List.zipWith Asection.withVma sects
        (placeAll (segmentStart mem) (blocks segOf sects)).1)[i]? =
        some { s with vma := BitVec.ofNat w x } := by
  obtain ⟨x, hx⟩ := exists_placedAt (blocks_placed hs halloc hsize) (segmentStart mem)
  exact ⟨x, hx, zipWith_withVma hs hx.2⟩

/-- A section that is placed lies in the memory of its segment. -/
theorem placed_range (hw : 32 ≤ w) (ha : ∀ s ∈ sects, s.alloc = true → s.alignPower < 31)
    (htotal : ∀ g, paddedTotal segOf g sects < 2 ^ w) {i x : Nat} {s : Asection w}
    (hx : PlacedAt (blocks segOf sects) (segmentStart mem) i
      (sectBlock segOf (countAll segOf sects).ehSection i s) x) (hsize : s.size ≠ 0) :
    countedSize segOf sects (segOf s) ≠ 0 ∧ 2 ^ s.alignPower ∣ x ∧
      (mem (segOf s)).toNat ≤ x ∧
      x + s.extent (countAll segOf sects).ehSection i ≤
        (mem (segOf s)).toNat + (countedSize segOf sects (segOf s)).toNat := by
  obtain ⟨hdvd, hle, hstop⟩ := placeAll_range hx
  have hend := placeAll_le (blocks segOf sects) (segmentStart mem) (segOf s)
  have hpad := padded_blocks segOf sects (segOf s)
  have hcount := countedSize_toNat hw ha (htotal (segOf s))
  have hpos : s.size.toNat ≠ 0 := fun hzero => hsize (BitVec.eq_of_toNat_eq hzero)
  have hext : s.size.toNat ≤ s.extent (countAll segOf sects).ehSection i := Nat.le_add_right _ _
  have hstart : segmentStart mem (segOf s) = (mem (segOf s)).toNat := rfl
  dsimp only [sectBlock] at hdvd hle hstop
  rw [hstart] at hle hend
  refine ⟨?_, hdvd, hle, by omega⟩
  intro hzero
  rw [hzero, BitVec.ofNat_eq_ofNat, BitVec.toNat_ofNat, Nat.zero_mod] at hcount
  omega

/-- Where a section that is placed comes from. -/
theorem laid_inv {i : Nat} {t : Asection w}
    (ht : (List.zipWith Asection.withVma sects
      (placeAll (segmentStart mem) (blocks segOf sects)).1)[i]? = some t)
    (halloc : t.alloc = true) (hsize : t.size ≠ 0) :
    ∃ s x, t = { s with vma := BitVec.ofNat w x } ∧ s.size ≠ 0 ∧
      PlacedAt (blocks segOf sects) (segmentStart mem) i
        (sectBlock segOf (countAll segOf sects).ehSection i s) x := by
  obtain ⟨s, x, hs, hx, ht'⟩ := List.getElem?_zipWith_eq_some.mp ht
  subst ht'
  have hplace : s.alloc = true ∧ s.size ≠ 0 := by
    cases x <;> exact ⟨halloc, hsize⟩
  obtain ⟨y, hy, hat⟩ := laid_at segOf mem hs hplace.1 hplace.2
  rw [ht] at hat
  exact ⟨s, y, Option.some.inj hat, hplace.2, hy⟩

/-- Two blocks do not meet. -/
theorem placed_apart (hw : 32 ≤ w) (ha : ∀ s ∈ sects, s.alloc = true → s.alignPower < 31)
    (htotal : ∀ g, paddedTotal segOf g sects < 2 ^ w)
    (hmem : SegmentMemory (countedSize segOf sects) mem) {i j x y : Nat} {s t : Asection w}
    (hx : PlacedAt (blocks segOf sects) (segmentStart mem) i
      (sectBlock segOf (countAll segOf sects).ehSection i s) x)
    (hy : PlacedAt (blocks segOf sects) (segmentStart mem) j
      (sectBlock segOf (countAll segOf sects).ehSection j t) y)
    (hs : s.size ≠ 0) (ht : t.size ≠ 0) (hij : i ≠ j) :
    x + s.extent (countAll segOf sects).ehSection i ≤ y ∨
      y + t.extent (countAll segOf sects).ehSection j ≤ x := by
  by_cases hseg : segOf s = segOf t
  · rcases Nat.lt_or_gt_of_ne hij with hlt | hlt
    · exact .inl (placeAll_pairwise hx hy hseg hlt)
    · exact .inr (placeAll_pairwise hy hx hseg.symm hlt)
  · obtain ⟨hsne, _, hsle, hsstop⟩ := placed_range hw ha htotal hx hs
    obtain ⟨htne, _, htle, htstop⟩ := placed_range hw ha htotal hy ht
    rcases hmem.apart _ _ hseg hsne htne with h | h
    · exact .inl (by omega)
    · exact .inr (by omega)

end

/-- Every section that is allocated and not empty gets an aligned address in the memory that was
counted for its segment, apart from all others. -/
theorem sections_laid (hw : 32 ≤ w) (segOf : Asection w → Nat) (sects : List (Asection w))
    (mem : Nat → BitVec w) (ha : ∀ s ∈ sects, s.alloc = true → s.alignPower < 31)
    (htotal : ∀ g, paddedTotal segOf g sects < 2 ^ w)
    (hmem : SegmentMemory (countedSize segOf sects) mem) :
    (setvmaAll segOf mem sects).2.errors = 0 ∧
      SectionsLaid segOf (countedSize segOf sects) mem (countAll segOf sects).ehSection sects
        (setvmaAll segOf mem sects).1 := by
  obtain ⟨hlaid, herr⟩ := setvmaAll_eq hw ha htotal hmem
  have hword : ∀ {i x : Nat} {s : Asection w}, PlacedAt (blocks segOf sects) (segmentStart mem) i
      (sectBlock segOf (countAll segOf sects).ehSection i s) x → s.size ≠ 0 →
      (BitVec.ofNat w x).toNat = x := by
    intro i x s hx hsize
    obtain ⟨hne, _, _, hstop⟩ := placed_range hw ha htotal hx hsize
    have hfits := hmem.fits (segOf s) hne
    rw [BitVec.toNat_ofNat]
    exact Nat.mod_eq_of_lt (by omega)
  refine ⟨herr, ?_, ?_, ?_⟩
  · intro i s hs halloc hsize
    obtain ⟨x, hx, hat⟩ : ∃ x, PlacedAt (blocks segOf sects) (segmentStart mem) i _ x ∧ _ :=
      laid_at segOf _ hs halloc hsize
    obtain ⟨_, hrange⟩ := placed_range hw ha htotal hx hsize
    rw [hlaid]
    refine ⟨BitVec.ofNat w x, hat, ?_⟩
    rw [hword hx hsize]
    exact hrange
  · intro i j s t hij hs ht hsalloc hssize htalloc htsize
    rw [hlaid] at hs ht
    obtain ⟨s, x, rfl, hs', hx⟩ := laid_inv hs hsalloc hssize
    obtain ⟨t, y, rfl, ht', hy⟩ := laid_inv ht htalloc htsize
    have hapart := placed_apart hw ha htotal hmem hx hy hs' ht' hij
    rw [← hword hx hs', ← hword hy ht'] at hapart
    exact hapart
  · intro i s hs hno
    have hnone : (blocks segOf sects)[i]? = some none := by
      rw [blocks_getElem? hs, blockOf, if_neg hno]
    rw [hlaid]
    exact zipWith_withVma hs (placeAll_none hnone _)

/-- A text section of 10 bytes and a frame section of 8. -/
def textAndFrames : List (Asection 32) :=
  [⟨TEXT_SECTION_NAME, 10, 0, 2, true, false, true⟩,
    ⟨EH_SECTION_NAME, 8, 0, 3, true, false, false⟩]

/-- They are laid in a chunk at 0x1002. -/
theorem textAndFrames_laid :
    (setvmaAll cexpSegsMatchDflt (fun _ => 0x1002) textAndFrames).2.errors = 0 ∧
      SectionsLaid cexpSegsMatchDflt (countedSize cexpSegsMatchDflt textAndFrames)
        (fun _ => 0x1002) (countAll cexpSegsMatchDflt textAndFrames).ehSection textAndFrames
        (setvmaAll cexpSegsMatchDflt (fun _ => 0x1002) textAndFrames).1 := by
  have hother : ∀ g, countedSize cexpSegsMatchDflt textAndFrames (g + 1) = 0 := fun g => rfl
  refine sections_laid (by decide) _ _ _ (by decide) ?_ ⟨?_, ?_, ?_⟩
  · intro g
    cases g with
    | zero => decide
    | succ g => exact Nat.two_pow_pos 32
  · intro g _
    decide
  · intro g hg
    cases g with
    | zero => decide
    | succ g => exact absurd (hother g) hg
  · intro g h hne hg hh
    cases g with
    | zero =>
      cases h with
      | zero => exact absurd rfl hne
      | succ h => exact absurd (hother h) hh
    | succ g => exact absurd (hother g) hg

end Cexp
