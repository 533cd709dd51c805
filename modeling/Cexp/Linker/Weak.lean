import Cexp.Linker.Commons
import Cexp.Modules.Consistency
import Cexp.Modules.Resolve

/-!
# Weak undefined symbols

`resolve_syms` treats a weak undefined symbol that no loaded module has as a new common symbol.
So it becomes an offset in the dummy section, and its address is not 0 as soon as that section
has room for anything.
-/

namespace Cexp

open CLib

/-! ## The dummy section -/

/-- What a symbol adds to the size of the dummy section. -/
def commonStep (sp : Asymbol) : BitVec 64 := asymbolValue (fun _ => 0) sp

theorem alignPower_zero {w k : Nat} (hk : k < w) : alignPower (0 : BitVec w) k = 0 := by
  apply BitVec.eq_of_toNat_eq
  rw [alignPower_toNat_mod hk, BitVec.ofNat_eq_ofNat, BitVec.toNat_ofNat, Nat.zero_mod,
    alignUp_of_dvd (Nat.two_pow_pos k) (Nat.dvd_zero _), Nat.zero_mod]

section

variable {w : Nat} {α : Type} {pwr : α → Nat} {step : α → BitVec w} {l : List α}

/-- Symbols without a size stay at the start. -/
theorem lay_zero (hpwr : ∀ a ∈ l, pwr a < w) (hstep : ∀ a ∈ l, step a = 0) :
    (∀ off ∈ (lay pwr step 0 l).1, off = 0) ∧ (lay pwr step 0 l).2 = 0 := by
  induction l with
  | nil => exact ⟨List.forall_mem_nil _, rfl⟩
  | cons a l ih =>
    rw [List.forall_mem_cons] at hpwr hstep
    obtain ⟨hoffs, hlast⟩ := ih hpwr.2 hstep.2
    unfold lay
    rw [alignPower_zero hpwr.1, hstep.1, BitVec.ofNat_eq_ofNat, BitVec.add_zero]
    refine ⟨?_, hlast⟩
    rw [List.forall_mem_cons]
    exact ⟨rfl, hoffs⟩

theorem lay_length (val : BitVec w) : (lay pwr step val l).1.length = l.length := by
  induction l generalizing val with
  | nil => rfl
  | cons a l ih => exact congrArg (· + 1) (ih _)

/-- The symbols with their full padding. -/
def paddedSum (pwr : α → Nat) (step : α → BitVec w) (l : List α) : Nat :=
  (l.map fun a => 2 ^ pwr a - 1 + (step a).toNat).sum

/-- A symbol as a slot that is as large as its step. -/
def stepSlot (pwr : α → Nat) (step : α → BitVec w) (a : α) : Slot :=
  ⟨pwr a, (step a).toNat, (step a).toNat⟩

theorem exactEnd_le_paddedSum : exactEnd 0 (l.map (stepSlot pwr step)) ≤ paddedSum pwr step l := by
  have hpadded : padded () ((l.map (stepSlot pwr step)).map Slot.block) = paddedSum pwr step l := by
    induction l with
    | nil => rfl
    | cons a l ih =>
      show (2 ^ pwr a - 1 + (step a).toNat) + _ = _
      rw [ih]
      rfl
  have hend := placeAll_le ((l.map (stepSlot pwr step)).map Slot.block) (fun _ => 0) ()
  rw [hpadded, Nat.zero_add] at hend
  exact hend

/-- Symbols that fit end inside the section. -/
theorem lay_inside (hpwr : ∀ a ∈ l, pwr a < w) (hfit : paddedSum pwr step l < 2 ^ w) :
    ∀ p ∈ l.zip (lay pwr step 0 l).1,
      p.2.toNat + (step p.1).toNat ≤ (lay pwr step 0 l).2.toNat := by
  have hsize : ∀ s ∈ l.map (stepSlot pwr step), s.size ≤ s.step :=
    List.forall_mem_map.mpr fun _ _ => le_rfl
  obtain ⟨hlast, hrange, -⟩ := exact_placed hsize
    (Nat.lt_of_le_of_lt exactEnd_le_paddedSum hfit)
  obtain ⟨hslots, hplace⟩ := lay_slots (fun a => (step a).toNat) hpwr (0 : BitVec w)
  rw [BitVec.ofNat_eq_ofNat, BitVec.toNat_ofNat, Nat.zero_mod] at hslots hplace
  intro p hp
  rw [BitVec.ofNat_eq_ofNat, hslots]
  refine (hrange (stepSlot pwr step p.1, p.2.toNat) ?_).2.trans hlast.ge
  have hmem : p ∈ l.zip (lay pwr step (0#w) l).1 := hp
  exact hplace ▸ List.mem_map_of_mem hmem

end

/-- The flags that `add_new_common` sets. -/
def Asymbol.marked (sp : Asymbol) : Asymbol := { sp with keep := true, isOldCommon := true }

section

variable {st : List Asymbol}

/-- The loop of `make_new_commons` on a symbol table. -/
theorem placeCommons_lay (csect : Nat) {slots : List Nat} {syms : List Asymbol}
    (hsyms : List.Forall₂ (fun slot sp => st[slot]? = some sp.marked) slots syms)
    (hnodup : slots.Nodup) (val : BitVec 64) :
    (placeCommons csect st val slots).2 = (lay elfGetAlignPwr commonStep val syms).2 ∧
      ∀ slot sp off, (slot, sp, off) ∈ slots.zip
          (syms.zip (lay elfGetAlignPwr commonStep val syms).1) →
        (placeCommons csect st val slots).1[slot]? =
          some { sp.marked with sect := .sect csect, value := off } := by
  induction slots generalizing st val syms with
  | nil =>
    cases hsyms
    exact ⟨rfl, fun _ _ _ h => nomatch h⟩
  | cons slot slots ih =>
    cases hsyms with
    | @cons _ sp _ syms hst hsyms =>
      obtain ⟨hslot, hrest⟩ := List.nodup_cons.mp hnodup
      have hlt : slot < st.length := (List.getElem?_eq_some_iff.mp hst).1
      have hsyms' : List.Forall₂
          (fun s t => (st.set slot { sp.marked with
            sect := .sect csect, value := alignPower val (elfGetAlignPwr sp) })[s]? =
              some t.marked)
          slots syms := by
        refine (List.forall₂_iff_zip.mpr ⟨hsyms.length_eq, ?_⟩)
        intro s t hmem
        have hne : slot ≠ s := fun heq => hslot (heq ▸ (List.of_mem_zip hmem).1)
        rw [List.getElem?_set_ne hne]
        exact (List.forall₂_iff_zip.mp hsyms).2 hmem
      obtain ⟨hlast, hplaced⟩ := ih hsyms' hrest
        (alignPower val (elfGetAlignPwr sp) + commonStep sp)
      unfold placeCommons lay
      simp only [hst]
      refine ⟨hlast, ?_⟩
      intro s t off hmem
      rw [List.zip_cons_cons, List.zip_cons_cons, List.mem_cons] at hmem
      rcases hmem with heq | hmem
      · cases heq
        refine (placeCommons_frame csect _ _ slots hslot).trans ?_
        exact List.getElem?_set_self hlt
      · exact hplaced s t off hmem

end

/-! ## The new commons of an object -/

theorem slots_syms {α : Type} (p : α → Bool) (l : List α) :
    ((List.range l.length).filter fun i => (l[i]?).any p).filterMap (fun i => l[i]?) =
      l.filter p := by
  induction l using List.reverseRecOn with
  | nil => rfl
  | append_singleton l a ih =>
    have hlast : (l ++ [a])[l.length]? = some a := by
      rw [List.getElem?_append_right le_rfl, Nat.sub_self]
      rfl
    have hfront : ∀ i ∈ List.range l.length, (l ++ [a])[i]? = l[i]? := by
      intro i hi
      exact List.getElem?_append_left (List.mem_range.mp hi)
    rw [List.length_append, List.length_singleton, List.range_succ, List.filter_append,
      List.filterMap_append, List.filter_append,
      List.filter_congr (fun i hi => congrArg (Option.any p) (hfront i hi)),
      List.filterMap_congr (fun i hi => hfront i (List.mem_of_mem_filter hi)), ih,
      List.filter_singleton, hlast, Option.any_some]
    cases hp : p a with
    | true => simp [hp]
    | false => simp [hp]

section

variable {host : Host} {modules : List (CexpModuleRec host.dm)} {nmod : CexpModule}
  {file : ObjFile} {ld : LinkData host.dm} {cst : CexpSymTbl}

theorem resolvedSym_newCommon {allocated : SecRef → Bool} {sp : Asymbol}
    (h : isNewCommon host modules sp = true) :
    resolvedSym host modules allocated sp = sp.marked := by
  unfold isNewCommon at h
  rw [Bool.and_eq_true, Bool.and_eq_true, decide_eq_true_eq, Option.isNone_iff_eq_none] at h
  obtain ⟨⟨hsought, hnone⟩, hkind⟩ := h
  cases hsect : sp.sect with
  | und =>
    rw [hsect, Bool.and_eq_true, Bool.not_eq_true', decide_eq_false_iff_not] at hkind
    simp [resolvedSym, Asymbol.marked, hsought.1, hsought.2, hnone, hsect, hkind]
  | com => simp [resolvedSym, Asymbol.marked, hsought.1, hsought.2, hnone, hsect]
  | abs =>
    rw [hsect] at hkind
    cases hkind
  | sect i =>
    rw [hsect] at hkind
    cases hkind

/-- The new commons of an object, in the order in which they are placed. -/
def commonSyms (host : Host) (modules : List (CexpModuleRec host.dm)) (file : ObjFile)
    (sections : List Section) : List Asymbol :=
  (sortedData host modules file sections).newCommons.filterMap fun i => file.symtab[i]?

variable {sections : List Section}

theorem commonSyms_perm : (commonSyms host modules file sections).Perm
    (file.symtab.filter (isNewCommon host modules)) := by
  refine ((sortedData_newCommons host modules file sections).filterMap _).trans (List.Perm.of_eq ?_)
  exact slots_syms (isNewCommon host modules) file.symtab

/-- The slots of the new commons hold them, marked. -/
theorem commonSyms_forall₂ : List.Forall₂ (fun slot sp =>
      file.symtab[slot]? = some sp ∧
        (sortedData host modules file sections).st[slot]? = some sp.marked)
    (sortedData host modules file sections).newCommons
    (commonSyms host modules file sections) := by
  have hslots : ∀ slot ∈ (sortedData host modules file sections).newCommons,
      ∃ sp, file.symtab[slot]? = some sp ∧ isNewCommon host modules sp = true := by
    intro slot hslot
    have hmem := (sortedData_newCommons host modules file sections).mem_iff.mp hslot
    exact (Option.any_eq_true _ _).mp (List.mem_filter.mp hmem).2
  have hst := sortedData_st host modules file sections
  unfold commonSyms
  generalize (sortedData host modules file sections).newCommons = slots at hslots ⊢
  induction slots with
  | nil => exact List.Forall₂.nil
  | cons slot slots ih =>
    rw [List.forall_mem_cons] at hslots
    obtain ⟨⟨sp, hsp, hnew⟩, hrest⟩ := hslots
    rw [List.filterMap_cons_some hsp]
    refine List.Forall₂.cons ⟨hsp, ?_⟩ (ih hrest)
    rw [hst, List.getElem?_map]
    show Option.map _ file.symtab[slot]? = _
    rw [hsp]
    exact congrArg some (resolvedSym_newCommon hnew)

/-- The size of the dummy section. -/
def dummyRoom (host : Host) (modules : List (CexpModuleRec host.dm)) (file : ObjFile)
    (sections : List Section) : BitVec 64 :=
  (lay elfGetAlignPwr commonStep 0 (commonSyms host modules file sections)).2

/-- A new common symbol has its place among the others. -/
theorem exists_place {slot : Nat} {sp : Asymbol} (hsp : file.symtab[slot]? = some sp)
    (hnew : isNewCommon host modules sp = true) :
    ∃ off, (slot, sp, off) ∈ (sortedData host modules file sections).newCommons.zip
      ((commonSyms host modules file sections).zip
        (lay elfGetAlignPwr commonStep 0 (commonSyms host modules file sections)).1) := by
  have hslot : slot ∈ (sortedData host modules file sections).newCommons := by
    rw [(sortedData_newCommons host modules file sections).mem_iff]
    refine List.mem_filter.mpr ⟨?_, ?_⟩
    · exact List.mem_range.mpr (List.getElem?_eq_some_iff.mp hsp).1
    · rw [hsp]
      exact hnew
  have hall : List.Forall₂ _ (sortedData host modules file sections).newCommons
    (commonSyms host modules file sections) := commonSyms_forall₂
  obtain ⟨k, hk, hget⟩ := List.mem_iff_getElem.mp hslot
  have hksyms : k < (commonSyms host modules file sections).length := hall.length_eq ▸ hk
  have hkoffs : k < (lay elfGetAlignPwr commonStep 0
      (commonSyms host modules file sections)).1.length := by
    rw [lay_length]
    exact hksyms
  have hsym : (commonSyms host modules file sections)[k] = sp := by
    have hpair := (hall.get hk hksyms).1
    rw [List.get_eq_getElem, hget, hsp] at hpair
    exact (Option.some.inj hpair).symm
  refine ⟨(lay elfGetAlignPwr commonStep 0 (commonSyms host modules file sections)).1[k], ?_⟩
  rw [← hget, ← hsym]
  refine List.mem_iff_getElem.mpr ⟨k, ?_, ?_⟩
  · rw [List.length_zip, List.length_zip]
    omega
  · rw [List.getElem_zip, List.getElem_zip]

/-- Where linking puts a new common symbol. -/
theorem link_newCommon (h : link host modules nmod file = .ok (ld, cst)) {slot : Nat}
    {sp : Asymbol} (hsp : file.symtab[slot]? = some sp)
    (hnew : isNewCommon host modules sp = true) :
    ∃ sections off dummy, keptSections host modules file = .ok sections ∧
      (sp, off) ∈ (commonSyms host modules file sections).zip
        (lay elfGetAlignPwr commonStep 0 (commonSyms host modules file sections)).1 ∧
      ld.st[slot]? = some { sp.marked with sect := .sect sections.length, value := off } ∧
      ld.sections[sections.length]? = some dummy ∧ dummy.alloc = true ∧
      dummy.size = (dummyRoom host modules file sections).toNat := by
  obtain ⟨sections, ld₁, cst₁, hsections, hslurp, hreloc, -⟩ := link_ok h
  have hcommons : makeNewCommons file (sortedData host modules file sections) = .ok ld₁ :=
    (slurpSymtab_ok hslurp).1
  obtain ⟨off, hplace⟩ : ∃ off, (slot, sp, off) ∈
    (sortedData host modules file sections).newCommons.zip _ := exists_place hsp hnew
  have hne : (sortedData host modules file sections).newCommons ≠ [] :=
    List.ne_nil_of_mem (List.of_mem_zip hplace).1
  have hkept : (sortedData host modules file sections).sections = sections :=
    sortedData_sections host modules file sections
  have hnodup : (sortedData host modules file sections).newCommons.Nodup :=
    (sortedData_newCommons host modules file sections).nodup_iff.mpr (List.nodup_range.filter _)
  have hlast : ∀ dummy : Section,
      ((sortedData host modules file sections).sections ++ [dummy])[sections.length]? =
        some dummy := by
    intro dummy
    rw [hkept, List.getElem?_append_right le_rfl, Nat.sub_self]
    rfl
  obtain ⟨hroom, hplaced⟩ := placeCommons_lay
    (sortedData host modules file sections).sections.length
    (commonSyms_forall₂.imp fun _ _ hpair => hpair.2) hnodup (0 : BitVec 64)
  rw [makeNewCommons, if_neg hne] at hcommons
  split at hcommons
  · cases hcommons
    obtain ⟨hfinal, hsettled⟩ := relocateAll_keeps hreloc
    have hst := hsettled slot _ (hplaced slot sp off hplace) (by rintro ⟨⟩)
    rw [hkept] at hst
    refine ⟨sections, off, _, hsections, (List.of_mem_zip hplace).2, hst,
      (congrArg (·[sections.length]?) hfinal).trans (hlast _), rfl, congrArg BitVec.toNat hroom⟩
  · cases hcommons

end

/-! ## Addresses -/

/-- The sections of an object with what the passes over the segments use of them, and the memory
that is found. -/
structure Placement where
  segOf : Asection 64 → Nat
  mem : Nat → BitVec 64
  sects : List (Asection 64)

/-- The sections at their addresses. Those of the system symbol table are not placed. -/
def Placement.laid {dm : DataModel} (p : Placement) (modules : List (CexpModuleRec dm)) :
    List (Asection 64) :=
  if modules = [] then p.sects else (setvmaAll p.segOf p.mem p.sects).1

/-- The addresses of an object are those of the placement. A section that is not in the file was
made with the address 0. -/
structure Placement.Of {dm : DataModel} (p : Placement) (modules : List (CexpModuleRec dm))
    (file : ObjFile) (sections : List Section) : Prop where
  same : List.Forall₂ (fun s t => s.size.toNat = t.size ∧ s.alloc = t.alloc) p.sects sections
  made : ∀ (i : Nat) (s : Asection 64), file.sections.length ≤ i → p.sects[i]? = some s → s.vma = 0
  vma : ∀ (i : Nat) (s : Asection 64), (p.laid modules)[i]? = some s → file.vma i = s.vma

/-- The sections can be aligned and counted, and the memory is what it must be. -/
structure Placement.Sound (p : Placement) : Prop where
  align : ∀ s ∈ p.sects, s.alloc = true → s.alignPower < 31
  total : ∀ g, paddedTotal p.segOf g p.sects < 2 ^ 64
  memory : SegmentMemory (countedSize p.segOf p.sects) p.mem

/-- `s_setvma` passes over an empty section. -/
theorem setvmaFrom_empty {w : Nat} {segOf : Asection w → Nat} {sects : List (Asection w)}
    {j k : Nat} {ld : SegmentData w} {s : Asection w} (hs : sects[k]? = some s)
    (hsize : s.size = 0) : (setvmaFrom segOf j ld sects).1[k]? = some s := by
  induction sects generalizing j k ld with
  | nil => cases hs
  | cons t sects ih =>
    cases k with
    | zero =>
      cases hs
      have hskip : sSetvma segOf ld j s = (s, ld) := sSetvma_none fun hplace => hplace.2 hsize
      unfold setvmaFrom
      rw [hskip]
      rfl
    | succ k => exact ih hs

section

variable {dm : DataModel} {modules : List (CexpModuleRec dm)} {file : ObjFile} {p : Placement}
  {sections : List Section} {i : Nat} {t : Section}

theorem Placement.Of.exists_sect (hp : p.Of modules file sections) (ht : sections[i]? = some t) :
    ∃ s, p.sects[i]? = some s ∧ s.size.toNat = t.size ∧ s.alloc = t.alloc := by
  obtain ⟨hlt, hget⟩ := List.getElem?_eq_some_iff.mp ht
  have hlt' : i < p.sects.length := hp.same.length_eq ▸ hlt
  have hpair := hp.same.get hlt' hlt
  rw [List.get_eq_getElem, List.get_eq_getElem, hget] at hpair
  exact ⟨p.sects[i], List.getElem?_eq_getElem hlt', hpair⟩

/-- An empty section that was made stays at 0. -/
theorem Placement.Of.empty (hp : p.Of modules file sections) (ht : sections[i]? = some t)
    (hmade : file.sections.length ≤ i) (hsize : t.size = 0) : file.vma i = 0 := by
  obtain ⟨s, hs, hsame, -⟩ := hp.exists_sect ht
  have hlaid : (p.laid modules)[i]? = some s := by
    unfold Placement.laid
    split
    · exact hs
    · refine setvmaFrom_empty hs (BitVec.eq_of_toNat_eq ?_)
      rw [hsame, hsize]
      rfl
  rw [hp.vma i s hlaid]
  exact hp.made i s hmade hs

/-- A section that is not empty is not at 0, and its addresses do not wrap. -/
theorem Placement.Of.full (hp : p.Of modules file sections) (hsound : p.Sound)
    (hmodules : modules ≠ []) (ht : sections[i]? = some t) (halloc : t.alloc = true)
    (hsize : t.size ≠ 0) :
    0 < (file.vma i).toNat ∧ (file.vma i).toNat + t.size < 2 ^ 64 := by
  obtain ⟨s, hs, hsame, hsalloc⟩ := hp.exists_sect ht
  have hne : s.size ≠ 0 := by
    intro hzero
    rw [hzero] at hsame
    exact hsize hsame.symm
  obtain ⟨x, hx, hat⟩ : ∃ x, PlacedAt (blocks p.segOf p.sects) (segmentStart p.mem) i _ x ∧ _ :=
    laid_at _ _ hs (hsalloc.trans halloc) hne
  obtain ⟨hcount, -, hle, hstop⟩ :=
    placed_range (by decide) hsound.align hsound.total hx hne
  have hnonnull := hsound.memory.nonnull (p.segOf s) hcount
  have hfits := hsound.memory.fits (p.segOf s) hcount
  have hext : s.size.toNat ≤ s.extent (countAll p.segOf p.sects).ehSection i :=
    Nat.le_add_right _ _
  have hpos : 0 < (p.mem (p.segOf s)).toNat := by
    rw [Nat.pos_iff_ne_zero]
    intro hzero
    exact hnonnull (BitVec.eq_of_toNat_eq hzero)
  have hlaid : (p.laid modules)[i]? = some { s with vma := BitVec.ofNat 64 x } := by
    unfold Placement.laid
    rw [if_neg hmodules, (setvmaAll_eq (by decide) hsound.align hsound.total hsound.memory).1]
    exact hat
  have hvma : (file.vma i).toNat = x := by
    rw [hp.vma i _ hlaid, BitVec.toNat_ofNat]
    exact Nat.mod_eq_of_lt (by omega)
  rw [hvma]
  omega

end

/-! ## Values -/

section

variable {host : Host} {modules : List (CexpModuleRec host.dm)} {nmod : CexpModule}
  {file : ObjFile} {ld : LinkData host.dm} {cst : CexpSymTbl} {sp : Asymbol}

variable (host modules) in
/-- A weak undefined symbol that no module has. -/
structure WeakUndefined (sp : Asymbol) : Prop where
  und : sp.sect = .und
  weak : sp.isWeak = true
  missing : cexpSymLookup host sp.name modules = none

variable (host modules file) in
/-- No new common of the object has a size. -/
def NoRoom : Prop :=
  ∀ sp ∈ file.symtab, isNewCommon host modules sp = true → commonStep sp = 0

variable (host modules file) in
/-- The symbol has no value of its own, and if it goes to the new commons, none of them has a
size. -/
def StaysZero (sp : Asymbol) : Prop := sp.value = 0 ∧ (sp.Sought → NoRoom host modules file)

variable (host modules file) in
/-- The new commons with their full padding fit into the words. -/
def RoomFits : Prop :=
  paddedSum elfGetAlignPwr commonStep (file.symtab.filter (isNewCommon host modules)) <
    2 ^ host.dm.longBits

theorem elfGetAlignPwr_lt (sp : Asymbol) : elfGetAlignPwr sp < 64 := by
  have hle : elfGetAlignPwr sp ≤ 32 := Nat.clog_le_of_le_pow sp.align.isLt.le
  omega

theorem WeakUndefined.newCommon (h : WeakUndefined host modules sp) :
    isNewCommon host modules sp = true ↔ sp.Sought ∧ ¬sp.Shared := by
  unfold isNewCommon
  rw [h.missing, h.und, h.weak]
  simp

theorem WeakUndefined.step (h : WeakUndefined host modules sp) : commonStep sp = sp.value := by
  unfold commonStep asymbolValue
  rw [h.und]

/-- Without sizes the symbols are at the start of an empty section. -/
theorem NoRoom.empty {sections : List Section} (h : NoRoom host modules file) {off : BitVec 64}
    (hoff : (sp, off) ∈ (commonSyms host modules file sections).zip
      (lay elfGetAlignPwr commonStep 0 (commonSyms host modules file sections)).1) :
    off = 0 ∧ dummyRoom host modules file sections = 0 := by
  have hstep : ∀ sp ∈ commonSyms host modules file sections, commonStep sp = 0 := by
    intro sp hsp
    obtain ⟨hmem, hnew⟩ := List.mem_filter.mp (commonSyms_perm.mem_iff.mp hsp)
    exact h sp hmem hnew
  obtain ⟨hoffs, hroom⟩ := lay_zero (fun sp _ => elfGetAlignPwr_lt sp) hstep
  exact ⟨hoffs off (List.of_mem_zip hoff).2, hroom⟩

/-- A symbol with a size needs room. -/
theorem RoomFits.inside {sections : List Section} (h : RoomFits host modules file)
    {off : BitVec 64} (hoff : (sp, off) ∈ (commonSyms host modules file sections).zip
      (lay elfGetAlignPwr commonStep 0 (commonSyms host modules file sections)).1) :
    off.toNat + (commonStep sp).toNat ≤ (dummyRoom host modules file sections).toNat := by
  have hsum : paddedSum elfGetAlignPwr commonStep (commonSyms host modules file sections) =
      paddedSum elfGetAlignPwr commonStep (file.symtab.filter (isNewCommon host modules)) :=
    (commonSyms_perm.map _).sum_nat
  refine lay_inside (fun sp _ => elfGetAlignPwr_lt sp) ?_ _ hoff
  have hword : host.dm.longBits ≤ 64 := by cases host.dm <;> decide
  rw [hsum]
  exact Nat.lt_of_lt_of_le h (Nat.pow_le_pow_right (by decide) hword)

/-- The value of a symbol on the list of the new commons. -/
theorem newCommon_value (h : link host modules nmod file = .ok (ld, cst)) {slot : Nat}
    (hsp : file.symtab[slot]? = some sp) (hnew : isNewCommon host modules sp = true) {p : Placement}
    (hp : p.Of modules file ld.sections) :
    ∃ final, ld.st[slot]? = some final ∧
      (NoRoom host modules file → asymbolValue file.vma final = 0) ∧
      (modules ≠ [] → p.Sound → RoomFits host modules file →
        asymbolValue file.vma final = 0 → NoRoom host modules file) := by
  obtain ⟨sections, off, dummy, hsections, hoff, hst, hdummy, halloc, hsize⟩ :=
    link_newCommon h hsp hnew
  have hmade : file.sections.length ≤ sections.length := (keptSections_length hsections).ge
  refine ⟨_, hst, ?_, ?_⟩
  · intro hnone
    obtain ⟨hzero, hroom⟩ := hnone.empty hoff
    show file.vma sections.length + off = 0
    rw [hroom] at hsize
    rw [hp.empty hdummy hmade hsize, hzero]
    rfl
  · intro hmodules hsound hfits hvalue t ht htnew
    by_contra hstep
    have hvalue' : file.vma sections.length + off = 0 := hvalue
    have hmem : t ∈ commonSyms host modules file sections :=
      commonSyms_perm.mem_iff.mpr (List.mem_filter.mpr ⟨ht, htnew⟩)
    have hlen : (commonSyms host modules file sections).length ≤
        (lay elfGetAlignPwr commonStep 0 (commonSyms host modules file sections)).1.length :=
      (lay_length _).ge
    rw [← List.map_fst_zip hlen, List.mem_map] at hmem
    obtain ⟨⟨t', toff⟩, htoff, rfl⟩ := hmem
    have htin := hfits.inside htoff
    have hin := hfits.inside hoff
    have hpos : (commonStep t').toNat ≠ 0 := fun hzero => hstep (BitVec.eq_of_toNat_eq hzero)
    rw [← hsize] at htin hin
    obtain ⟨hstart, hend⟩ := hp.full hsound hmodules hdummy halloc (by omega)
    have hsum : (file.vma sections.length + off).toNat =
        (file.vma sections.length).toNat + off.toNat := by
      rw [BitVec.toNat_add]
      exact Nat.mod_eq_of_lt (by omega)
    rw [hvalue', BitVec.ofNat_eq_ofNat, BitVec.toNat_ofNat, Nat.zero_mod] at hsum
    omega

/-- The value of a weak undefined symbol that stays as it is. -/
theorem undefined_value (h : link host modules nmod file = .ok (ld, cst)) {slot : Nat}
    (hsp : file.symtab[slot]? = some sp) (hweak : WeakUndefined host modules sp)
    (hold : isNewCommon host modules sp = false) :
    ∃ final, ld.st[slot]? = some final ∧ asymbolValue file.vma final = sp.value := by
  have hresolved : ∀ allocated, (resolvedSym host modules allocated sp).sect = .und ∧
      (resolvedSym host modules allocated sp).value = sp.value ∧
      (resolvedSym host modules allocated sp).name = sp.name := by
    intro allocated
    unfold resolvedSym
    rw [hweak.missing]
    split
    · split
      · exact ⟨hweak.und, rfl, rfl⟩
      · exact ⟨hweak.und, rfl, rfl⟩
    · split
      · exact ⟨hweak.und, rfl, rfl⟩
      · rw [hweak.und]
        dsimp only
        split
        · exact ⟨rfl, rfl, rfl⟩
        · split
          · exact ⟨rfl, rfl, rfl⟩
          · exact ⟨hweak.und, rfl, rfl⟩
  obtain ⟨allocated, hst⟩ := link_resolved h hsp hold (by
    intro allocated _
    rw [(hresolved allocated).2.2]
    exact hweak.missing)
  refine ⟨_, hst, ?_⟩
  unfold asymbolValue
  rw [(hresolved allocated).1]
  exact (hresolved allocated).2.1

end

/-- A weak undefined symbol that no module has gets the value 0 if it stays zero; once a symbol on
the list of the new commons has a size, it does not. -/
theorem weak_undefined_zero {host : Host} {modules : List (CexpModuleRec host.dm)}
    {nmod : CexpModule} {file : ObjFile} {ld : LinkData host.dm} {cst : CexpSymTbl}
    (h : link host modules nmod file = .ok (ld, cst)) {p : Placement}
    (hp : p.Of modules file ld.sections) {slot : Nat} {sp : Asymbol}
    (hsp : file.symtab[slot]? = some sp) (hweak : WeakUndefined host modules sp) :
    ∃ final, ld.st[slot]? = some final ∧
      (StaysZero host modules file sp → asymbolValue file.vma final = 0) ∧
      (modules ≠ [] → p.Sound → RoomFits host modules file →
        (asymbolValue file.vma final = 0 ↔ StaysZero host modules file sp)) := by
  cases hnew : isNewCommon host modules sp with
  | true =>
    obtain ⟨hsought, -⟩ := hweak.newCommon.mp hnew
    obtain ⟨final, hfinal, hzero, hroom⟩ := newCommon_value h hsp hnew hp
    refine ⟨final, hfinal, fun hstays => hzero (hstays.2 hsought), ?_⟩
    intro hmodules hsound hfits
    refine ⟨fun hvalue => ?_, fun hstays => hzero (hstays.2 hsought)⟩
    have hnone := hroom hmodules hsound hfits hvalue
    refine ⟨?_, fun _ => hnone⟩
    rw [← hweak.step]
    exact hnone sp (List.mem_of_getElem? hsp) hnew
  | false =>
    obtain ⟨final, hfinal, hvalue⟩ := undefined_value h hsp hweak hnew
    refine ⟨final, hfinal, fun hstays => hvalue.trans hstays.1, ?_⟩
    intro _ _ _
    rw [hvalue]
    refine ⟨fun hzero => ⟨hzero, fun hsought => ?_⟩, fun hstays => hstays.1⟩
    have hshared : ¬sp.Shared := fun hshared => hshared.1 hzero
    rw [hweak.newCommon.mpr ⟨hsought, hshared⟩] at hnew
    cases hnew

/-! ## Two objects -/

/-- A module without symbols. -/
def emptyModule : CexpModuleRec .lp64 where
  handle := 16
  name := systemBuiltin
  id := 0
  symtbl := ⟨0, []⟩
  builtin := false
  sectionSyms := []
  needs := Bitmap.zero
  neededby := Bitmap.zero
  bound := []

def weakSymbol (name : CStr) : Asymbol :=
  { absSymbol (some name) 0 with sect := .und, isWeak := true }

def commonSymbol (name : CStr) (size : Int) (align : BitVec 32) : Asymbol :=
  { absSymbol (some name) 0 with sect := .com, size := size, align := align, isGlobal := true }

/-- The dummy section of an object without sections, at 0x10000. -/
def dummyPlacement (size : BitVec 64) (power : Nat) : Placement where
  segOf := cexpSegsMatchDflt
  mem := fun _ => 0x10000
  sects := [⟨CStr.empty, size, 0, power, true, false, false⟩]

theorem dummyPlacement_of {file : ObjFile} {sections : List Section} {size : BitVec 64}
    {power : Nat} (hsections : sections.map (fun t => (t.size, t.alloc)) = [(size.toNat, true)])
    (hvma : ((dummyPlacement size power).laid [emptyModule]).map Asection.vma = [file.vma 0]) :
    (dummyPlacement size power).Of [emptyModule] file sections := by
  obtain ⟨t, rfl, ht⟩ := List.map_eq_singleton_iff.mp hsections
  refine ⟨?_, ?_, ?_⟩
  · refine List.Forall₂.cons ?_ List.Forall₂.nil
    rw [Prod.ext_iff] at ht
    exact ⟨ht.1.symm, ht.2.symm⟩
  · intro i s _ hs
    cases i with
    | zero =>
      cases hs
      rfl
    | succ i => cases hs
  · intro i s hs
    obtain ⟨t', hlaid, ht'⟩ := List.map_eq_singleton_iff.mp hvma
    rw [hlaid] at hs
    cases i with
    | zero =>
      cases hs
      exact ht'.symm
    | succ i => cases hs

theorem ok_of_toOption {ε α : Type} {x : Except ε α} {a : α} (h : x.toOption = some a) :
    x = .ok a := by
  cases x with
  | error e => cases h
  | ok b =>
    cases h
    rfl

/-- An object with nothing but a weak undefined symbol. Its dummy section is empty. -/
def weakAlone : ObjFile := { objFile [] [weakSymbol moduleA] with vma := fun _ => 0 }

theorem weakAlone_zero : ∃ ld cst final,
    link plainHost [emptyModule] 32 weakAlone = .ok (ld, cst) ∧ ld.st[0]? = some final ∧
      asymbolValue weakAlone.vma final = 0 := by
  have heval : ((link plainHost [emptyModule] 32 weakAlone).toOption.any fun r =>
      r.1.sections.map (fun t => (t.size, t.alloc)) = [(0, true)]) = true := by decide +kernel
  obtain ⟨⟨ld, cst⟩, hlink, hsections⟩ := (Option.any_eq_true _ _).mp heval
  have hok : link plainHost [emptyModule] 32 weakAlone = .ok (ld, cst) := ok_of_toOption hlink
  have hplace : (dummyPlacement 0 0).Of [emptyModule] weakAlone ld.sections :=
    dummyPlacement_of (of_decide_eq_true hsections) rfl
  have hsym : weakAlone.symtab[0]? = some (weakSymbol moduleA) := rfl
  obtain ⟨final, hfinal, hzero, -⟩ :=
    weak_undefined_zero hok hplace hsym ⟨rfl, rfl, by decide +kernel⟩
  refine ⟨ld, cst, final, hok, hfinal, hzero ⟨rfl, fun _ => ?_⟩⟩
  intro t ht _
  rw [List.mem_singleton.mp ht]
  rfl

/-- An object with a common symbol and a weak undefined one. -/
def commonAndWeak : ObjFile := objFile [] [commonSymbol moduleB 4 4, weakSymbol moduleA]

theorem commonAndWeak_not_zero : ∃ ld cst final,
    link plainHost [emptyModule] 32 commonAndWeak = .ok (ld, cst) ∧
      WeakUndefined plainHost [emptyModule] (weakSymbol moduleA) ∧
      (dummyPlacement 4 2).Of [emptyModule] commonAndWeak ld.sections ∧
      commonAndWeak.symtab[1]? = some (weakSymbol moduleA) ∧ ld.st[1]? = some final ∧
      asymbolValue commonAndWeak.vma final = 0x10004 := by
  have heval : ((link plainHost [emptyModule] 32 commonAndWeak).toOption.any fun r =>
      r.1.sections.map (fun t => (t.size, t.alloc)) = [(4, true)] ∧
        (r.1.st[1]?).any fun final => asymbolValue commonAndWeak.vma final = 0x10004) = true := by
    decide +kernel
  obtain ⟨⟨ld, cst⟩, hlink, hrun⟩ := (Option.any_eq_true _ _).mp heval
  obtain ⟨hsections, hvalue⟩ := of_decide_eq_true hrun
  obtain ⟨final, hfinal, hvalue⟩ := (Option.any_eq_true _ _).mp hvalue
  have hplace : (dummyPlacement 4 2).Of [emptyModule] commonAndWeak ld.sections :=
    dummyPlacement_of hsections (by decide +kernel)
  exact ⟨ld, cst, final, ok_of_toOption hlink, ⟨rfl, rfl, by decide +kernel⟩, hplace, rfl, hfinal,
    of_decide_eq_true hvalue⟩

end Cexp
