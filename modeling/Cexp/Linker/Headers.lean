import Cexp.Modules.Link

/-!
# Section headers

When an object file is opened, `elf2bfdsec` makes a section of every section header. The headers
that are no sections for the linker, such as relocation sections that are not to be loaded, are
marked as bogus. Of a COMDAT group the loop over its members makes a ring: the group header, the
members in order, and the header again (`openSections_opened`).
-/

namespace Cexp

/-! ## Section headers -/

/-- `sh_type`: the types that `elf2bfdsec` tells apart. `strtab true` is one of the string tables
of the library itself. -/
inductive ShType where
  | null
  | symtab
  | strtab (own : Bool)
  | rel
  | rela
  | group
  | normal
  | unsupported
  deriving DecidableEq

/-- `Elf_Shdr`, with what is read of a group: its signature, the flag word and the indices of the
members. -/
structure Shdr where
  type : ShType
  name : CStr
  alloc : Bool
  signature : CStr
  comdat : Bool
  grp : List Nat

/-- `asection`. The flags are all set if it is bogus. -/
structure Asect where
  name : CStr
  alloc : Bool
  linkOnce : Bool
  group : Bool
  bogus : Bool
  grpNext : Nat

def SHN_UNDEF : Nat := 0

def SHN_LORESERVE : Nat := 0xff00

def SHN_ABS : Nat := 0xfff1

def SHN_COMMON : Nat := 0xfff2

/-- `".gnu.linkonce"` -/
def LINKONCE_PREFIX : List UInt8 := [46, 103, 110, 117, 46, 108, 105, 110, 107, 111, 110, 99, 101]

/-- `shdr2sec(abfd, ndex, 0)` -/
def shdr2sec (secs : List Asect) (ndex : Nat) : Option SecRef :=
  if ndex = SHN_UNDEF then some .und
  else if ndex = SHN_ABS then some .abs
  else if ndex = SHN_COMMON then some .com
  else
    match secs[ndex]? with
    | none => none
    | some sec => if sec.bogus then none else some (.sect ndex)

/-- A section as `secinit` leaves it. -/
def Asect.zero : Asect := ⟨CStr.empty, false, false, false, false, 0⟩

/-- `s->grp_next = n` -/
def setGrpNext (secs : List Asect) (s n : Nat) : List Asect :=
  secs.modify s fun sec => { sec with grpNext := n }

/-- The loop over the members of the group `idx`, from the section `s` on, and the closing of the
ring. -/
def chainGroup (idx : Nat) (secs : List Asect) (s : Nat) : List Nat → Option (List Asect)
  | [] => some (setGrpNext secs s idx)
  | g :: gs =>
    if g = 0 ∨ secs.length ≤ g then none
    else
      let secs := setGrpNext secs s g
      -- no index of a header is one of the special ones
      match shdr2sec secs g with
      | none => none
      | some _ => chainGroup idx secs g gs

/-- The flags that a section gets in the end. -/
def setFlags (secs : List Asect) (idx : Nat) (h : Shdr) (linkOnce : Bool) : List Asect :=
  secs.modify idx fun sec => { sec with
    alloc := h.alloc
    linkOnce := linkOnce || (sec.grpNext = 0 && LINKONCE_PREFIX.isPrefixOf h.name.bytes)
    group := h.type = .group
    bogus := false }

/-- `elf2bfdsec`: one section header. `none` if the file cannot be opened. -/
def elf2bfdsec (secs : List Asect) (r : Shdr × Nat) : Option (List Asect) :=
  let h := r.1
  let idx := r.2
  let secs := secs.modify idx fun sec => { sec with bogus := true, name := h.name }
  match h.type with
  | .null => some secs
  | .symtab => some secs
  | .strtab own => if own then some secs else some (setFlags secs idx h false)
  | .rel => if h.alloc then some (setFlags secs idx h false) else some secs
  | .rela => if h.alloc then some (setFlags secs idx h false) else some secs
  | .group =>
    let named (secs : List Asect) : List Asect :=
      secs.modify idx fun sec => { sec with name := h.signature }
    if h.comdat then
      (chainGroup idx secs idx h.grp).map fun secs => setFlags (named secs) idx h true
    else some (setFlags (named secs) idx h false)
  | .normal => some (setFlags secs idx h false)
  | .unsupported => none

/-- The sections of a file that is opened. -/
def openSections (shdrs : List Shdr) : Option (List Asect) :=
  shdrs.zipIdx.foldlM elf2bfdsec (List.replicate shdrs.length Asect.zero)

/-! ## Rings -/

/-- The section without its place in a ring. -/
def Asect.flags (sec : Asect) : Asect := { sec with grpNext := 0 }

/-- `grp_next` of a section -/
def grpNextOf (secs : List Asect) (i : Nat) : Option Nat := (secs[i]?).map Asect.grpNext

/-- From the section `s` the members `gs` follow, and then the header `idx`. -/
def RingFrom (secs : List Asect) (idx : Nat) : Nat → List Nat → Prop
  | s, [] => grpNextOf secs s = some idx
  | s, g :: gs => grpNextOf secs s = some g ∧ RingFrom secs idx g gs

section

variable {secs secs' : List Asect} {idx s n : Nat} {gs : List Nat}

theorem RingFrom.congr (h : RingFrom secs idx s gs)
    (hsame : ∀ j ∈ s :: gs, grpNextOf secs' j = grpNextOf secs j) : RingFrom secs' idx s gs := by
  induction gs generalizing s with
  | nil => exact (hsame s List.mem_cons_self).trans h
  | cons g gs ih =>
    refine ⟨(hsame s List.mem_cons_self).trans h.1, ih h.2 ?_⟩
    intro j hj
    exact hsame j (List.mem_cons_of_mem s hj)

theorem setGrpNext_length : (setGrpNext secs s n).length = secs.length := List.length_modify ..

theorem setGrpNext_self (hs : s < secs.length) : grpNextOf (setGrpNext secs s n) s = some n := by
  unfold grpNextOf setGrpNext
  rw [List.getElem?_modify, List.getElem?_eq_getElem hs]
  simp

theorem setGrpNext_other {j : Nat} (h : j ≠ s) : (setGrpNext secs s n)[j]? = secs[j]? := by
  unfold setGrpNext
  rw [List.getElem?_modify]
  simp [Ne.symm h]

theorem setGrpNext_flags (j : Nat) :
    ((setGrpNext secs s n)[j]?).map Asect.flags = (secs[j]?).map Asect.flags := by
  by_cases h : j = s
  · subst h
    unfold setGrpNext
    rw [List.getElem?_modify]
    cases secs[j]? with
    | none => rfl
    | some sec => simp [Asect.flags]
  · rw [setGrpNext_other h]

/-- What the loop over the members does. -/
structure Chained (idx s : Nat) (gs : List Nat) (secs secs' : List Asect) : Prop where
  length : secs'.length = secs.length
  flags : ∀ j : Nat, (secs'[j]?).map Asect.flags = (secs[j]?).map Asect.flags
  frame : ∀ j : Nat, j ∉ s :: gs → secs'[j]? = secs[j]?
  inside : ∀ g ∈ gs, g ≠ 0 ∧ g < secs.length
  linked : (s :: gs).Nodup → s < secs.length → RingFrom secs' idx s gs

theorem chainGroup_chained (h : chainGroup idx secs s gs = some secs') :
    Chained idx s gs secs secs' := by
  induction gs generalizing secs s with
  | nil =>
    cases h
    refine ⟨setGrpNext_length, setGrpNext_flags, ?_, List.forall_mem_nil _, ?_⟩
    · intro j hj
      exact setGrpNext_other (fun heq => hj (heq ▸ List.mem_cons_self))
    · intro _ hs
      exact setGrpNext_self hs
  | cons g gs ih =>
    unfold chainGroup at h
    split at h
    · cases h
    · next hg =>
      rw [not_or, Nat.not_le] at hg
      dsimp only at h
      split at h
      · cases h
      · have hrest := ih h
        have hlen : (setGrpNext secs s g).length = secs.length := setGrpNext_length
        refine ⟨hrest.length.trans hlen, ?_, ?_, ?_, ?_⟩
        · intro j
          rw [hrest.flags j, setGrpNext_flags j]
        · intro j hj
          rw [List.mem_cons, not_or] at hj
          rw [hrest.frame j hj.2, setGrpNext_other hj.1]
        · rw [List.forall_mem_cons]
          refine ⟨hg, ?_⟩
          rw [← hlen]
          exact hrest.inside
        · intro hnodup hs
          obtain ⟨hsnot, htail⟩ := List.nodup_cons.mp hnodup
          refine ⟨?_, hrest.linked htail (hlen.symm ▸ hg.2)⟩
          unfold grpNextOf
          rw [hrest.frame s hsnot]
          exact setGrpNext_self hs

end

/-! ## Opening a file -/

/-- The header of a COMDAT group. -/
def Shdr.Comdat (h : Shdr) : Prop := h.type = .group ∧ h.comdat = true

instance (h : Shdr) : Decidable h.Comdat := inferInstanceAs (Decidable (_ ∧ _))

/-- The BFD library has no section for the header. -/
def Shdr.bogus (h : Shdr) : Bool :=
  match h.type with
  | .null => true
  | .symtab => true
  | .strtab own => own
  | .rel => !h.alloc
  | .rela => !h.alloc
  | _ => false

/-- The section that is made of a header. -/
structure Shdr.Read (h : Shdr) (sec : Asect) : Prop where
  bogus : sec.bogus = h.bogus
  alloc : sec.alloc = true → h.bogus = false
  linkOnce : sec.linkOnce = true → h.Comdat ∨ sec.grpNext = 0
  comdat : h.Comdat → sec.linkOnce = true ∧ sec.group = true ∧ sec.name = h.signature

section

variable {secs secs' : List Asect} {idx : Nat} {f : Asect → Asect} {h : Shdr}

theorem modify_other {j : Nat} (hj : j ≠ idx) : (secs.modify idx f)[j]? = secs[j]? :=
  List.getElem?_modify_ne f secs (Ne.symm hj)

theorem modify_self : (secs.modify idx f)[idx]? = (secs[idx]?).map f :=
  List.getElem?_modify_eq f idx secs

theorem modify_grpNext (hf : ∀ sec, (f sec).grpNext = sec.grpNext) (j : Nat) :
    grpNextOf (secs.modify idx f) j = grpNextOf secs j := by
  unfold grpNextOf
  by_cases hj : j = idx
  · subst hj
    rw [modify_self, Option.map_map]
    congr 1
    funext sec
    exact hf sec
  · rw [modify_other hj]

/-- One header is entered: the flags of its section, and the ring of a COMDAT group. -/
structure Entered (h : Shdr) (idx : Nat) (secs secs' : List Asect) : Prop where
  length : secs'.length = secs.length
  flags : ∀ j : Nat, j ≠ idx → (secs'[j]?).map Asect.flags = (secs[j]?).map Asect.flags
  frame : ∀ j : Nat, ¬(h.Comdat ∧ j ∈ idx :: h.grp) → grpNextOf secs' j = grpNextOf secs j
  ring : h.Comdat → (idx :: h.grp).Nodup → RingFrom secs' idx idx h.grp
  read : ∀ sec : Asect, secs'[idx]? = some sec → h.Read sec

/-- A header of which only the flags of its section are entered. -/
theorem entered_modify (hidx : idx < secs.length) (hcomdat : ¬h.Comdat)
    (hf : ∀ sec, (f sec).grpNext = sec.grpNext)
    (hread : ∀ sec, secs[idx]? = some sec → h.Read (f sec)) :
    Entered h idx secs (secs.modify idx f) := by
  refine ⟨List.length_modify .., ?_, fun j _ => modify_grpNext hf j, ?_, ?_⟩
  · intro j hj
    rw [modify_other hj]
  · intro h'
    exact absurd h' hcomdat
  · intro sec hsec
    rw [modify_self, List.getElem?_eq_getElem hidx] at hsec
    cases hsec
    exact hread _ (List.getElem?_eq_getElem hidx)

/-- A section whose flags are not set. -/
theorem entered_bogus (hidx : idx < secs.length)
    (hfresh : (secs[idx]?).map Asect.flags = some Asect.zero.flags) (hcomdat : ¬h.Comdat)
    (hbogus : h.bogus = true) :
    Entered h idx secs (secs.modify idx fun sec => { sec with bogus := true, name := h.name }) := by
  refine entered_modify hidx hcomdat (fun _ => rfl) ?_
  intro sec hsec
  rw [hsec, Option.map_some, Option.some.injEq] at hfresh
  have halloc : sec.alloc = false := congrArg Asect.alloc hfresh
  have honce : sec.linkOnce = false := congrArg Asect.linkOnce hfresh
  refine ⟨hbogus.symm, ?_, ?_, fun h' => absurd h' hcomdat⟩
  · intro h'
    rw [halloc] at h'
    cases h'
  · intro h'
    rw [honce] at h'
    cases h'

/-- A section whose flags are set, but no ring. -/
theorem entered_flags (hidx : idx < secs.length) (hcomdat : ¬h.Comdat) (hbogus : h.bogus = false)
    (name : CStr) :
    Entered h idx secs (setFlags (secs.modify idx fun sec =>
      { sec with bogus := true, name := name }) idx h false) := by
  unfold setFlags
  rw [List.modify_modify_eq]
  refine entered_modify hidx hcomdat (fun _ => rfl) ?_
  intro sec _
  refine ⟨hbogus.symm, fun _ => hbogus, ?_, fun h' => absurd h' hcomdat⟩
  intro hprefix
  dsimp only [Function.comp_apply] at hprefix ⊢
  rw [Bool.false_or, Bool.and_eq_true, decide_eq_true_eq] at hprefix
  exact .inr hprefix.1

/-- A COMDAT group. -/
theorem entered_comdat (hidx : idx < secs.length) (hcomdat : h.Comdat)
    (hchain : Chained idx idx h.grp
      (secs.modify idx fun sec => { sec with bogus := true, name := h.name }) secs') :
    Entered h idx secs (setFlags (secs'.modify idx fun sec =>
      { sec with name := h.signature }) idx h true) := by
  have hlen : secs'.length = secs.length := hchain.length.trans (List.length_modify ..)
  have hbogus : h.bogus = false := by
    unfold Shdr.bogus
    rw [hcomdat.1]
  unfold setFlags
  rw [List.modify_modify_eq]
  refine ⟨(List.length_modify ..).trans hlen, ?_, ?_, ?_, ?_⟩
  · intro j hj
    rw [modify_other hj, hchain.flags j, modify_other hj]
  · intro j hj
    have hnot : j ∉ idx :: h.grp := fun hmem => hj ⟨hcomdat, hmem⟩
    refine (modify_grpNext ?_ j).trans ?_
    · intro sec
      rfl
    have hne : j ≠ idx := fun heq => hnot (List.mem_cons.mpr (.inl heq))
    unfold grpNextOf
    rw [hchain.frame j hnot, modify_other hne]
  · intro _ hnodup
    refine (hchain.linked hnodup (by rw [List.length_modify]; exact hidx)).congr ?_
    intro j _
    refine modify_grpNext ?_ j
    intro sec
    rfl
  · intro sec hsec
    rw [modify_self, List.getElem?_eq_getElem (hlen ▸ hidx)] at hsec
    cases hsec
    exact ⟨hbogus.symm, fun _ => hbogus, fun _ => .inl hcomdat,
      fun _ => ⟨rfl, decide_eq_true hcomdat.1, rfl⟩⟩

theorem elf2bfdsec_entered (hidx : idx < secs.length)
    (hfresh : (secs[idx]?).map Asect.flags = some Asect.zero.flags)
    (hrun : elf2bfdsec secs (h, idx) = some secs') : Entered h idx secs secs' := by
  unfold elf2bfdsec at hrun
  dsimp only at hrun
  cases htype : h.type with
  | null =>
    rw [htype] at hrun
    cases hrun
    exact entered_bogus hidx hfresh (by simp [Shdr.Comdat, htype]) (by simp [Shdr.bogus, htype])
  | symtab =>
    rw [htype] at hrun
    cases hrun
    exact entered_bogus hidx hfresh (by simp [Shdr.Comdat, htype]) (by simp [Shdr.bogus, htype])
  | strtab own =>
    rw [htype] at hrun
    dsimp only at hrun
    cases own with
    | true =>
      cases hrun
      exact entered_bogus hidx hfresh (by simp [Shdr.Comdat, htype]) (by simp [Shdr.bogus, htype])
    | false =>
      cases hrun
      exact entered_flags hidx (by simp [Shdr.Comdat, htype]) (by simp [Shdr.bogus, htype]) _
  | rel | rela =>
    rw [htype] at hrun
    dsimp only at hrun
    cases halloc : h.alloc with
    | true =>
      rw [halloc] at hrun
      cases hrun
      exact entered_flags hidx (by simp [Shdr.Comdat, htype])
        (by simp [Shdr.bogus, htype, halloc]) _
    | false =>
      rw [halloc] at hrun
      cases hrun
      exact entered_bogus hidx hfresh (by simp [Shdr.Comdat, htype])
        (by simp [Shdr.bogus, htype, halloc])
  | group =>
    rw [htype] at hrun
    dsimp only at hrun
    split at hrun
    · next hcomdat =>
      obtain ⟨secs₁, hchain, rfl⟩ := Option.map_eq_some_iff.mp hrun
      exact entered_comdat hidx ⟨htype, hcomdat⟩ (chainGroup_chained hchain)
    · next hcomdat =>
      cases hrun
      rw [List.modify_modify_eq]
      exact entered_flags hidx (fun h' => hcomdat h'.2) (by simp [Shdr.bogus, htype]) h.signature
  | normal =>
    rw [htype] at hrun
    cases hrun
    exact entered_flags hidx (by simp [Shdr.Comdat, htype]) (by simp [Shdr.bogus, htype]) _
  | unsupported =>
    rw [htype] at hrun
    cases hrun

end

/-- The groups of a file: the headers precede the members, and no section is a member twice or the
header of another group. -/
structure GroupsFormed (shdrs : List Shdr) : Prop where
  count : shdrs.length ≤ SHN_LORESERVE
  null : ∀ h : Shdr, shdrs[0]? = some h → h.type = .null
  precede : ∀ (k : Nat) (h : Shdr), shdrs[k]? = some h → h.Comdat → ∀ g ∈ h.grp, k < g
  once : ∀ (k : Nat) (h : Shdr), shdrs[k]? = some h → h.Comdat → h.grp.Nodup
  apart : ∀ (k k' : Nat) (h h' : Shdr), k ≠ k' → shdrs[k]? = some h → shdrs[k']? = some h' →
    h.Comdat → h'.Comdat → List.Disjoint h.grp h'.grp
  plain : ∀ (k g : Nat) (h h' : Shdr), shdrs[k]? = some h → h.Comdat → g ∈ h.grp →
    shdrs[g]? = some h' → ¬h'.Comdat

theorem GroupsFormed.nodup {shdrs : List Shdr} (hformed : GroupsFormed shdrs) {k : Nat} {h : Shdr}
    (hk : shdrs[k]? = some h) (hcomdat : h.Comdat) : (k :: h.grp).Nodup := by
  refine List.nodup_cons.mpr ⟨?_, hformed.once k h hk hcomdat⟩
  intro hmem
  exact Nat.lt_irrefl k (hformed.precede k h hk hcomdat k hmem)

/-- The first `n` headers are entered. -/
structure Opened (shdrs : List Shdr) (n : Nat) (secs : List Asect) : Prop where
  length : secs.length = shdrs.length
  fresh : ∀ j : Nat, n ≤ j → j < shdrs.length →
    (secs[j]?).map Asect.flags = some Asect.zero.flags
  read : ∀ (j : Nat) (h : Shdr) (sec : Asect), j < n → shdrs[j]? = some h →
    secs[j]? = some sec → h.Read sec
  ring : ∀ (k : Nat) (h : Shdr), k < n → shdrs[k]? = some h → h.Comdat → RingFrom secs k k h.grp

section

variable {shdrs : List Shdr} {secs secs' : List Asect} {n : Nat} {h : Shdr}

theorem opened_start : Opened shdrs 0 (List.replicate shdrs.length Asect.zero) := by
  refine ⟨List.length_replicate, ?_, ?_, ?_⟩
  · intro j _ hj
    rw [List.getElem?_replicate, if_pos hj]
    rfl
  · intro j h sec hj
    cases hj
  · intro k h hk
    cases hk

/-- A section that is read stays so if its flags do and it keeps out of rings. -/
theorem Shdr.Read.congr {sec sec' : Asect} (hread : h.Read sec)
    (hflags : sec'.flags = sec.flags) (hnext : sec'.grpNext = sec.grpNext) : h.Read sec' := by
  have hsame : sec' = sec := by
    have hname := congrArg Asect.name hflags
    have halloc := congrArg Asect.alloc hflags
    have honce := congrArg Asect.linkOnce hflags
    have hgroup := congrArg Asect.group hflags
    have hbogus := congrArg Asect.bogus hflags
    cases sec
    cases sec'
    simp_all [Asect.flags]
  rw [hsame]
  exact hread

theorem Opened.step (hopened : Opened shdrs n secs) (hformed : GroupsFormed shdrs)
    (hn : shdrs[n]? = some h) (hrun : elf2bfdsec secs (h, n) = some secs') :
    Opened shdrs (n + 1) secs' := by
  have hlt : n < shdrs.length := (List.getElem?_eq_some_iff.mp hn).1
  have hentered := elf2bfdsec_entered (hopened.length ▸ hlt) (hopened.fresh n le_rfl hlt) hrun
  -- the ring of a header does not go through what stands in front of it
  have hbehind : ∀ j, j < n → ¬(h.Comdat ∧ j ∈ n :: h.grp) := by
    rintro j hj ⟨hcomdat, hmem⟩
    rcases List.mem_cons.mp hmem with rfl | hmem
    · exact Nat.lt_irrefl _ hj
    · exact Nat.lt_asymm hj (hformed.precede n h hn hcomdat j hmem)
  refine ⟨hentered.length.trans hopened.length, ?_, ?_, ?_⟩
  · intro j hj hjlt
    rw [hentered.flags j (by omega)]
    exact hopened.fresh j (by omega) hjlt
  · intro j h' sec hj hh' hsec
    by_cases heq : j = n
    · subst heq
      rw [hn] at hh'
      cases hh'
      exact hentered.read sec hsec
    · have hjlt : j < secs.length := by
        rw [hopened.length]
        omega
      have hold := List.getElem?_eq_getElem hjlt
      have hflags := hentered.flags j heq
      have hnext := hentered.frame j (hbehind j (by omega))
      unfold grpNextOf at hnext
      rw [hsec, hold] at hflags hnext
      exact (hopened.read j h' _ (by omega) hh' hold).congr (Option.some.inj hflags)
        (Option.some.inj hnext)
  · intro k h' hk hh' hcomdat'
    by_cases heq : k = n
    · subst heq
      rw [hn] at hh'
      cases hh'
      exact hentered.ring hcomdat' (hformed.nodup hn hcomdat')
    · refine (hopened.ring k h' (by omega) hh' hcomdat').congr ?_
      intro j hj
      refine hentered.frame j ?_
      rintro ⟨hcomdat, hmem⟩
      rcases List.mem_cons.mp hj with rfl | hj
      · exact hbehind j (by omega) ⟨hcomdat, hmem⟩
      · rcases List.mem_cons.mp hmem with rfl | hmem
        · exact hformed.plain k j h' h hh' hcomdat' hj hn hcomdat
        · exact hformed.apart k n h' h heq hh' hn hcomdat' hcomdat hj hmem

/-- Each header has its section. -/
theorem Opened.entry (hopened : Opened shdrs shdrs.length secs) {j : Nat} (hj : j < secs.length) :
    ∃ h sec, shdrs[j]? = some h ∧ secs[j]? = some sec ∧ h.Read sec := by
  have hj' : j < shdrs.length := hopened.length ▸ hj
  have hh := List.getElem?_eq_getElem hj'
  have hsec := List.getElem?_eq_getElem hj
  exact ⟨_, _, hh, hsec, hopened.read j _ _ hj' hh hsec⟩

theorem Opened.run (hopened : Opened shdrs n secs) (hformed : GroupsFormed shdrs)
    {hs : List Shdr} (hdrop : shdrs.drop n = hs)
    (hrun : (hs.zipIdx n).foldlM elf2bfdsec secs = some secs') :
    Opened shdrs shdrs.length secs' := by
  induction hs generalizing n secs with
  | nil =>
    cases hrun
    have hle : shdrs.length ≤ n := List.drop_eq_nil_iff.mp hdrop
    refine ⟨hopened.length, ?_, ?_, ?_⟩
    · intro j hj hjlt
      omega
    · intro j h sec hj
      exact hopened.read j h sec (by omega)
    · intro k h hk
      exact hopened.ring k h (by omega)
  | cons h hs ih =>
    have hn : shdrs[n]? = some h := by
      rw [← List.head?_drop, hdrop]
      rfl
    have hdrop' : shdrs.drop (n + 1) = hs := by
      rw [← List.tail_drop, hdrop]
      rfl
    rw [List.zipIdx_cons, List.foldlM_cons] at hrun
    obtain ⟨secs₁, hfirst, hrest⟩ := Option.bind_eq_some_iff.mp hrun
    exact ih (hopened.step hformed hn hfirst) hdrop' hrest

/-- All headers of a file that is opened are entered. -/
theorem openSections_opened (hformed : GroupsFormed shdrs)
    (hrun : openSections shdrs = some secs) : Opened shdrs shdrs.length secs :=
  opened_start.run hformed rfl hrun

end

end Cexp
