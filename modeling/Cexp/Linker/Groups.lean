import Cexp.Lib.Ring
import Cexp.Linker.Headers
import Cexp.Modules.Consistency
import Cexp.Modules.Resolve

/-!
# COMDAT groups

`s_eliminate_linkonce` walks along the ring of a group to drop its members. The walk ends in front
of a member that is no section for the BFD library. So all members are dropped if and only if
those that are allocated stand in front of the first such member (`groups_dropped_iff`).
-/

namespace Cexp

open CLib

/-- What the linker sees of the sections. Those that are bogus are passed over, so their flags are
not looked at. -/
structure SeenAs (secs : List Asect) (l : List Section) : Prop where
  length : l.length = secs.length
  seen : ∀ (i : Nat) (sec : Asect) (s : Section), secs[i]? = some sec → l[i]? = some s →
    s.name = sec.name ∧ (s.alloc = true → sec.alloc = true) ∧ s.linkOnce = sec.linkOnce ∧
      s.group = sec.group ∧ s.nextInGroup = shdr2sec secs sec.grpNext

/-! ## Clearing flags -/

/-- The sections `l'` are the sections `l`, but those with `p` are not to be allocated. -/
structure Cleared (p : Nat → Prop) (l l' : List Section) : Prop where
  length : l'.length = l.length
  cleared : ∀ (j : Nat) (s : Section), l[j]? = some s → ∃ a : Bool,
    l'[j]? = some { s with alloc := a } ∧ (a = true ↔ s.alloc = true ∧ ¬p j)

section

variable {p q : Nat → Prop} {l l' l'' : List Section}

theorem Cleared.refl (l : List Section) : Cleared (fun _ => False) l l := by
  refine ⟨rfl, ?_⟩
  intro j s hs
  exact ⟨s.alloc, hs, by simp⟩

theorem Cleared.trans (h : Cleared p l l') (h' : Cleared q l' l'') :
    Cleared (fun j => p j ∨ q j) l l'' := by
  refine ⟨h'.length.trans h.length, ?_⟩
  intro j s hs
  obtain ⟨a, ha, hiff⟩ := h.cleared j s hs
  obtain ⟨b, hb, hiff'⟩ := h'.cleared j _ ha
  refine ⟨b, hb, ?_⟩
  rw [hiff', hiff, not_or, and_assoc]

theorem Cleared.congr (h : Cleared p l l') (hpq : ∀ j, p j ↔ q j) : Cleared q l l' := by
  refine ⟨h.length, ?_⟩
  intro j s hs
  obtain ⟨a, ha, hiff⟩ := h.cleared j s hs
  exact ⟨a, ha, by rw [hiff, hpq j]⟩

/-- A section that is not cleared stays as it is. -/
theorem Cleared.same (h : Cleared p l l') {j : Nat} (hj : ¬p j) : l'[j]? = l[j]? := by
  cases hl : l[j]? with
  | none =>
    have hlen : l.length ≤ j := List.getElem?_eq_none_iff.mp hl
    exact List.getElem?_eq_none (h.length ▸ hlen)
  | some s =>
    obtain ⟨a, ha, hiff⟩ := h.cleared j s hl
    have hsame : a = s.alloc := by
      rw [Bool.eq_iff_iff, hiff]
      exact and_iff_left hj
    rw [ha, hsame]

theorem clearAlloc_cleared (l : List Section) (r : SecRef) :
    Cleared (fun j => r = .sect j) l (clearAlloc l r) := by
  refine ⟨clearAlloc_length l r, ?_⟩
  intro j s hs
  cases r with
  | sect i =>
    unfold clearAlloc
    by_cases hij : i = j
    · subst hij
      exact ⟨false, by rw [List.getElem?_modify_eq, hs]; rfl, by simp⟩
    · refine ⟨s.alloc, ?_, by simp [hij]⟩
      rw [List.getElem?_modify_ne _ _ hij]
      exact hs
  | und => exact ⟨s.alloc, hs, by simp⟩
  | abs => exact ⟨s.alloc, hs, by simp⟩
  | com => exact ⟨s.alloc, hs, by simp⟩

theorem foldl_clearAlloc_cleared (v : List SecRef) (l : List Section) :
    Cleared (fun j => .sect j ∈ v) l (v.foldl clearAlloc l) := by
  induction v generalizing l with
  | nil => exact (Cleared.refl l).congr fun j => by simp
  | cons r v ih =>
    refine ((clearAlloc_cleared l r).trans (ih (clearAlloc l r))).congr ?_
    intro j
    rw [List.mem_cons, eq_comm]

theorem SeenAs.cleared {secs : List Asect} (hseen : SeenAs secs l) (h : Cleared p l l') :
    SeenAs secs l' := by
  refine ⟨h.length.trans hseen.length, ?_⟩
  intro i sec s hsec hs
  have hi : i < l.length := by
    rw [hseen.length]
    exact (List.getElem?_eq_some_iff.mp hsec).1
  have hold := List.getElem?_eq_getElem hi
  obtain ⟨a, ha, hiff⟩ := h.cleared i _ hold
  rw [hs] at ha
  cases ha
  obtain ⟨hname, halloc, honce, hgroup, hnext⟩ := hseen.seen i sec _ hsec hold
  exact ⟨hname, fun ha => halloc (hiff.mp ha).1, honce, hgroup, hnext⟩

theorem elfNextInGroup_clearAlloc (l : List Section) (r : SecRef) :
    elfNextInGroup (clearAlloc l r) = elfNextInGroup l := by
  funext r'
  cases r' with
  | sect j =>
    show ((clearAlloc l r)[j]?).bind Section.nextInGroup = (l[j]?).bind Section.nextInGroup
    cases hl : l[j]? with
    | none =>
      have hlen : l.length ≤ j := List.getElem?_eq_none_iff.mp hl
      rw [List.getElem?_eq_none (by rw [clearAlloc_length]; exact hlen)]
    | some s =>
      obtain ⟨a, ha, -⟩ := (clearAlloc_cleared l r).cleared j s hl
      rw [ha]
      rfl
  | und => rfl
  | abs => rfl
  | com => rfl

/-- The loop over the members is a walk along the ring. -/
theorem clearGroup_eq (frst : SecRef) (n : Nat) (l : List Section) (r : SecRef) :
    clearGroup frst n l r =
      match ringWalk (elfNextInGroup l) frst n r with
      | none => .error .crash
      | some v => .ok (v.foldl clearAlloc l) := by
  induction n generalizing l r with
  | zero => rfl
  | succ n ih =>
    unfold clearGroup ringWalk
    dsimp only
    rw [elfNextInGroup_clearAlloc]
    cases hnext : elfNextInGroup l r with
    | none => rfl
    | some r' =>
      dsimp only
      by_cases hr : r' = frst
      · rw [if_pos hr, if_pos hr]
        rfl
      · rw [if_neg hr, if_neg hr, ih, elfNextInGroup_clearAlloc]
        cases ringWalk (elfNextInGroup l) frst n r' with
        | none => rfl
        | some v => rfl

end

/-! ## The walk -/

/-- The header has a section of the BFD library. -/
def live (shdrs : List Shdr) (g : Nat) : Bool := (shdrs[g]?).any fun h => !h.bogus

/-- The walk behind a section: it goes on through live members and then to the header. -/
def ringTail (shdrs : List Shdr) (k : Nat) : List Nat → List Nat
  | [] => [k]
  | g :: gs => if live shdrs g then g :: ringTail shdrs k gs else []

section

variable {shdrs : List Shdr} {secs : List Asect} {l : List Section} {k : Nat} {h : Shdr}

theorem mem_ringTail {gs : List Nat} {j : Nat} (hj : j ∈ ringTail shdrs k gs) :
    j ∈ gs.takeWhile (live shdrs) ∨ j = k := by
  induction gs with
  | nil => exact .inr (List.mem_singleton.mp hj)
  | cons g gs ih =>
    unfold ringTail at hj
    split at hj
    · next hlive =>
      rw [List.takeWhile_cons_of_pos hlive, List.mem_cons]
      rcases List.mem_cons.mp hj with rfl | hj
      · exact .inl (.inl rfl)
      · exact (ih hj).imp .inr id
    · cases hj

theorem mem_ringTail_of_mem {gs : List Nat} {j : Nat}
    (hj : j ∈ gs.takeWhile (live shdrs)) : j ∈ ringTail shdrs k gs := by
  induction gs with
  | nil => cases hj
  | cons g gs ih =>
    rw [List.takeWhile_cons] at hj
    unfold ringTail
    split at hj
    · next hlive =>
      rw [if_pos hlive]
      rcases List.mem_cons.mp hj with rfl | hj
      · exact List.mem_cons_self
      · exact List.mem_cons_of_mem g (ih hj)
    · cases hj

theorem ringTail_length (gs : List Nat) : (ringTail shdrs k gs).length ≤ gs.length + 1 := by
  induction gs with
  | nil => exact le_rfl
  | cons g gs ih =>
    unfold ringTail
    split
    · exact Nat.succ_le_succ ih
    · exact Nat.zero_le _

theorem RingFrom.inside {s : Nat} {gs : List Nat} (hring : RingFrom secs k s gs) :
    ∀ g ∈ s :: gs, g < secs.length := by
  have hlt : ∀ {g n : Nat}, grpNextOf secs g = some n → g < secs.length := by
    intro g n hg
    obtain ⟨sec, hsec, -⟩ := Option.map_eq_some_iff.mp hg
    exact (List.getElem?_eq_some_iff.mp hsec).1
  induction gs generalizing s with
  | nil =>
    intro g hg
    rw [List.mem_singleton.mp hg]
    exact hlt hring
  | cons g gs ih =>
    rw [List.forall_mem_cons]
    exact ⟨hlt hring.1, ih hring.2⟩

/-- No section of a ring has the undefined section behind it. -/
theorem RingFrom.next_pos {s : Nat} {gs : List Nat} (hring : RingFrom secs k s gs) (hk : k ≠ 0)
    (hpos : ∀ g ∈ gs, g ≠ 0) : ∀ j ∈ s :: gs, ∃ n, grpNextOf secs j = some n ∧ n ≠ 0 := by
  induction gs generalizing s with
  | nil =>
    intro j hj
    rw [List.mem_singleton.mp hj]
    exact ⟨k, hring, hk⟩
  | cons g gs ih =>
    rw [List.forall_mem_cons] at hpos ⊢
    exact ⟨⟨g, hring.1, hpos.1⟩, ih hring.2 hpos.2⟩

theorem nodup_length_le {gs : List Nat} {n : Nat} (hnodup : gs.Nodup) (hlt : ∀ g ∈ gs, g < n) :
    gs.length ≤ n := by
  have hsub : gs ⊆ List.range n := fun g hg => List.mem_range.mpr (hlt g hg)
  have hle := (hnodup.subperm hsub).length_le
  rw [List.length_range] at hle
  exact hle

/-- The successor of a section in a ring. -/
theorem next_in_ring (hformed : GroupsFormed shdrs) (hopened : Opened shdrs shdrs.length secs)
    (hseen : SeenAs secs l) {s g : Nat} (hs : grpNextOf secs s = some g) (hpos : g ≠ 0)
    (hg : g < secs.length) :
    elfNextInGroup l (.sect s) = if live shdrs g then some (.sect g) else none := by
  obtain ⟨sec, hsec, hnext⟩ := Option.map_eq_some_iff.mp hs
  have hslt : s < l.length := by
    rw [hseen.length]
    exact (List.getElem?_eq_some_iff.mp hsec).1
  have hsect := List.getElem?_eq_getElem hslt
  obtain ⟨h, gsec, hh, hgsec, hread⟩ := hopened.entry hg
  have hglt : g < shdrs.length := (List.getElem?_eq_some_iff.mp hh).1
  have hcount := hformed.count
  have hund : g ≠ SHN_UNDEF := hpos
  have habs : g ≠ SHN_ABS := by
    unfold SHN_ABS
    unfold SHN_LORESERVE at hcount
    omega
  have hcom : g ≠ SHN_COMMON := by
    unfold SHN_COMMON
    unfold SHN_LORESERVE at hcount
    omega
  have hlive : live shdrs g = !gsec.bogus := by
    unfold live
    rw [hh, hread.bogus]
    rfl
  show (l[s]?).bind Section.nextInGroup = _
  rw [hsect, Option.bind_some, (hseen.seen s sec _ hsec hsect).2.2.2.2, hnext, shdr2sec,
    if_neg hund, if_neg habs, if_neg hcom, hgsec, hlive]
  dsimp only
  cases gsec.bogus with
  | true => rfl
  | false => rfl

/-- The walk behind a section of a ring. -/
theorem follow_ringTail (hformed : GroupsFormed shdrs)
    (hopened : Opened shdrs shdrs.length secs) (hseen : SeenAs secs l)
    (hk : k ≠ 0) (hklive : live shdrs k = true) {frst : SecRef}
    (hback : Stops (elfNextInGroup l) frst (.sect k)) {s : Nat} {gs : List Nat}
    (hring : RingFrom secs k s gs) (hpos : ∀ g ∈ gs, g ≠ 0) (hklt : k < secs.length) :
    Follow (elfNextInGroup l) ((s :: ringTail shdrs k gs).map SecRef.sect) ∧
      Stops (elfNextInGroup l) frst
        (((s :: ringTail shdrs k gs).map SecRef.sect).getLast (by simp)) := by
  induction gs generalizing s with
  | nil =>
    have hnext := next_in_ring hformed hopened hseen hring hk hklt
    rw [hklive] at hnext
    exact ⟨List.isChain_pair.mpr hnext, hback⟩
  | cons g gs ih =>
    rw [List.forall_mem_cons] at hpos
    have hg : g < secs.length := hring.inside g (by simp)
    have hnext := next_in_ring hformed hopened hseen hring.1 hpos.1 hg
    cases hlive : live shdrs g with
    | true =>
      rw [hlive] at hnext
      have htail : ringTail shdrs k (g :: gs) = g :: ringTail shdrs k gs := by
        rw [ringTail, if_pos hlive]
      obtain ⟨hfollow, hstop⟩ := ih hring.2 hpos.2
      simp only [htail]
      exact ⟨List.isChain_cons_cons.mpr ⟨hnext, hfollow⟩, hstop⟩
    | false =>
      rw [hlive] at hnext
      have htail : ringTail shdrs k (g :: gs) = [] := by
        rw [ringTail, hlive]
        rfl
      simp only [htail]
      refine ⟨List.isChain_singleton _, ?_⟩
      intro b hb
      have hb' : elfNextInGroup l (.sect s) = some b := hb
      rw [hnext] at hb'
      cases hb'

/-- The loop over the members of a COMDAT group, from its header on. -/
def groupLoop (l : List Section) (k : Nat) : Except LinkStop (List Section) :=
  match elfNextInGroup l (.sect k) with
  | none => .ok l
  | some frst => clearGroup frst (l.length + 4) l frst

theorem live_comdat (hk : shdrs[k]? = some h) (hcomdat : h.Comdat) : live shdrs k = true := by
  unfold live Shdr.bogus
  rw [hk, Option.any_some, hcomdat.1]
  rfl

theorem GroupsFormed.pos (hformed : GroupsFormed shdrs) (hk : shdrs[k]? = some h)
    (hcomdat : h.Comdat) : k ≠ 0 := by
  rintro rfl
  have htype := hformed.null h hk
  rw [hcomdat.1] at htype
  cases htype

/-- The loop drops the members in front of the first one that is not live, and the header at
most. -/
theorem groupLoop_cleared (hformed : GroupsFormed shdrs)
    (hopened : Opened shdrs shdrs.length secs) (hseen : SeenAs secs l)
    (hk : shdrs[k]? = some h) (hcomdat : h.Comdat) :
    ∃ (l' : List Section) (p : Nat → Prop), groupLoop l k = .ok l' ∧ Cleared p l l' ∧
      (∀ j, p j → j ∈ h.grp.takeWhile (live shdrs) ∨ j = k) ∧
      ∀ j ∈ h.grp.takeWhile (live shdrs), p j := by
  have hkpos := hformed.pos hk hcomdat
  have hklive := live_comdat hk hcomdat
  have hklt : k < secs.length := by
    rw [hopened.length]
    exact (List.getElem?_eq_some_iff.mp hk).1
  have hring := hopened.ring k h (hopened.length ▸ hklt) hk hcomdat
  have hnodup := hformed.nodup hk hcomdat
  have hbehind := hformed.precede k h hk hcomdat
  unfold groupLoop
  cases hgrp : h.grp with
  | nil =>
    rw [hgrp] at hring
    have hnext := next_in_ring hformed hopened hseen hring hkpos hklt
    rw [hklive, if_pos rfl] at hnext
    have hstop : Stops (elfNextInGroup l) (.sect k) (.sect k) := by
      intro b hb
      rw [hnext] at hb
      exact (Option.some.inj hb).symm
    rw [hnext]
    dsimp only
    rw [clearGroup_eq, ringWalk_stop hstop]
    refine ⟨_, _, rfl, foldl_clearAlloc_cleared _ l, ?_, List.forall_mem_nil _⟩
    intro j hj
    exact .inr (SecRef.sect.inj (List.mem_singleton.mp hj))
  | cons g gs =>
    rw [hgrp] at hring hnodup hbehind
    have hpos : ∀ g' ∈ g :: gs, g' ≠ 0 := by
      intro g' hg'
      have := hbehind g' hg'
      omega
    have hg : g < secs.length := hring.inside g (by simp)
    have hnext := next_in_ring hformed hopened hseen hring.1 (hpos g List.mem_cons_self) hg
    cases hlive : live shdrs g with
    | false =>
      rw [hlive] at hnext
      rw [hnext]
      have hnone : (g :: gs).takeWhile (live shdrs) = [] := by
        rw [List.takeWhile_cons, hlive]
        rfl
      rw [hnone]
      exact ⟨l, _, rfl, Cleared.refl l, fun j hj => hj.elim, List.forall_mem_nil _⟩
    | true =>
      rw [hlive, if_pos rfl] at hnext
      have hback : Stops (elfNextInGroup l) (.sect g) (.sect k) := by
        intro b hb
        rw [hnext] at hb
        exact (Option.some.inj hb).symm
      obtain ⟨hfollow, hstop⟩ := follow_ringTail hformed hopened hseen hkpos hklive hback hring.2
        (fun g' hg' => hpos g' (List.mem_cons_of_mem g hg')) hklt
      obtain ⟨hknot, hgsnodup⟩ := List.nodup_cons.mp hnodup
      obtain ⟨hgnot, -⟩ := List.nodup_cons.mp hgsnodup
      have hfrst : SecRef.sect g ∉ (ringTail shdrs k gs).map SecRef.sect := by
        rw [List.mem_map_of_injective fun _ _ h => SecRef.sect.inj h]
        intro hmem
        rcases mem_ringTail hmem with hmem | heq
        · exact hgnot ((List.takeWhile_sublist _).subset hmem)
        · exact hknot (heq ▸ List.mem_cons_self)
      have hlen : (g :: gs).length ≤ secs.length := nodup_length_le hgsnodup hring.2.inside
      have htail : (ringTail shdrs k gs).length ≤ gs.length + 1 := ringTail_length gs
      have hfuel : ((ringTail shdrs k gs).map SecRef.sect).length < l.length + 4 := by
        rw [List.length_map, hseen.length]
        rw [List.length_cons] at hlen
        omega
      rw [hnext]
      dsimp only
      rw [clearGroup_eq, ringWalk_eq hfollow hfrst hstop hfuel]
      refine ⟨_, _, rfl, foldl_clearAlloc_cleared _ l, ?_, ?_⟩
      · intro j hj
        rw [List.takeWhile_cons_of_pos hlive, List.mem_cons]
        rcases List.mem_cons.mp hj with heq | hj
        · exact .inl (.inl (SecRef.sect.inj heq))
        · rw [List.mem_map_of_injective fun _ _ h => SecRef.sect.inj h] at hj
          exact (mem_ringTail hj).imp .inr id
      · intro j hj
        rw [List.takeWhile_cons_of_pos hlive, List.mem_cons] at hj
        rcases hj with rfl | hj
        · exact List.mem_cons_self
        · exact List.mem_cons_of_mem _ (List.mem_map_of_mem (mem_ringTail_of_mem hj))

end

/-! ## Elimination -/

/-- The section is a linkonce section, and a loaded module has its name already. -/
def LoadedOnce (host : Host) {dm : DataModel} (modules : List (CexpModuleRec dm))
    (l : List Section) (i : Nat) : Prop :=
  ∃ s : Section, l[i]? = some s ∧ s.linkOnce = true ∧
    (cexpSymLookup host s.name modules).isSome = true

section

variable {shdrs : List Shdr} {secs : List Asect} {l l' : List Section} {i : Nat} {host : Host}
  {dm : DataModel} {modules : List (CexpModuleRec dm)}

theorem LoadedOnce.cleared {p : Nat → Prop} (hcleared : Cleared p l l') :
    LoadedOnce host modules l' i ↔ LoadedOnce host modules l i := by
  constructor
  · rintro ⟨s', hs', honce, hloaded⟩
    have hi : i < l.length := hcleared.length ▸ (List.getElem?_eq_some_iff.mp hs').1
    have hs := List.getElem?_eq_getElem hi
    obtain ⟨a, ha, -⟩ := hcleared.cleared i _ hs
    rw [hs'] at ha
    cases ha
    exact ⟨_, hs, honce, hloaded⟩
  · rintro ⟨s, hs, honce, hloaded⟩
    obtain ⟨a, ha, -⟩ := hcleared.cleared i s hs
    exact ⟨_, ha, honce, hloaded⟩

/-- The sections that go together with the section `i`. -/
def DropsWith (shdrs : List Shdr) (i j : Nat) : Prop :=
  j = i ∨ ∃ h, shdrs[i]? = some h ∧ h.Comdat ∧ j ∈ h.grp.takeWhile (live shdrs)

/-- The ring of a linkonce section that is not the header of a COMDAT group is not walked
along. -/
theorem clearGroup_und (n : Nat) : clearGroup .und (n + 1) l .und = .ok l := rfl

/-- What a linkonce section makes the linker drop. -/
theorem sEliminateLinkonce_loaded (hformed : GroupsFormed shdrs)
    (hopened : Opened shdrs shdrs.length secs) (hseen : SeenAs secs l)
    (honce : LoadedOnce host modules l i) :
    ∃ l', sEliminateLinkonce host modules l i = .ok l' ∧ Cleared (DropsWith shdrs i) l l' := by
  obtain ⟨s, hs, hlink, hloaded⟩ := honce
  have hi : i < secs.length := hseen.length ▸ (List.getElem?_eq_some_iff.mp hs).1
  obtain ⟨h, sec, hh, hsec, hread⟩ := hopened.entry hi
  obtain ⟨-, -, hsame, hgroup, hnext⟩ := hseen.seen i sec s hsec hs
  have hcleared := clearAlloc_cleared l (.sect i)
  have hseen' := hseen.cleared hcleared
  have hself : ∀ j, SecRef.sect i = .sect j ↔ j = i := by
    intro j
    rw [SecRef.sect.injEq, eq_comm]
  have hrun : sEliminateLinkonce host modules l i =
      if s.group = true then groupLoop (clearAlloc l (.sect i)) i
      else .ok (clearAlloc l (.sect i)) := by
    unfold sEliminateLinkonce groupLoop
    rw [hs]
    exact if_pos ⟨hlink, hloaded⟩
  rw [hrun]
  by_cases hcomdat : h.Comdat
  · have hsgroup : s.group = true := hgroup.trans (hread.comdat hcomdat).2.1
    rw [if_pos hsgroup]
    obtain ⟨l', p, hloop, hp, hupper, hlower⟩ :=
      groupLoop_cleared hformed hopened hseen' hh hcomdat
    refine ⟨l', hloop, (hcleared.trans hp).congr ?_⟩
    intro j
    rw [hself j]
    constructor
    · rintro (hj | hj)
      · exact .inl hj
      · rcases hupper j hj with hmem | heq
        · exact .inr ⟨h, hh, hcomdat, hmem⟩
        · exact .inl heq
    · rintro (hj | ⟨h', hh', -, hmem⟩)
      · exact .inl hj
      · rw [hh] at hh'
        cases hh'
        exact .inr (hlower j hmem)
  · have hzero : sec.grpNext = 0 :=
      (hread.linkOnce (hsame.symm.trans hlink)).resolve_left hcomdat
    have hdrops : Cleared (DropsWith shdrs i) l (clearAlloc l (.sect i)) := by
      refine hcleared.congr ?_
      intro j
      rw [hself j]
      constructor
      · exact .inl
      · rintro (hj | ⟨h', hh', hcomdat', -⟩)
        · exact hj
        · rw [hh] at hh'
          cases hh'
          exact absurd hcomdat' hcomdat
    refine ⟨clearAlloc l (.sect i), ?_, hdrops⟩
    have hfirst : elfNextInGroup (clearAlloc l (.sect i)) (.sect i) = some .und := by
      rw [elfNextInGroup_clearAlloc]
      show (l[i]?).bind Section.nextInGroup = some .und
      rw [hs, Option.bind_some, hnext, hzero]
      rfl
    unfold groupLoop
    rw [hfirst]
    dsimp only
    rw [clearGroup_und, ite_self]

variable (host modules) in
/-- One section: the linker comes to an end. -/
theorem sEliminateLinkonce_cleared (hformed : GroupsFormed shdrs)
    (hopened : Opened shdrs shdrs.length secs) (hseen : SeenAs secs l) (i : Nat) :
    ∃ l', sEliminateLinkonce host modules l i = .ok l' ∧
      Cleared (fun j => LoadedOnce host modules l i ∧ DropsWith shdrs i j) l l' := by
  by_cases honce : LoadedOnce host modules l i
  · obtain ⟨l', hrun, hcleared⟩ := sEliminateLinkonce_loaded hformed hopened hseen honce
    refine ⟨l', hrun, hcleared.congr ?_⟩
    intro j
    rw [and_iff_right honce]
  · refine ⟨l, ?_, (Cleared.refl l).congr ?_⟩
    · unfold sEliminateLinkonce
      split
      · rfl
      · next s hs => rw [if_neg fun hboth => honce ⟨s, hs, hboth⟩]
    · intro j
      rw [false_iff]
      exact fun hj => honce hj.1

variable (host modules) in
/-- All sections. -/
theorem eliminate_run (hformed : GroupsFormed shdrs) (hopened : Opened shdrs shdrs.length secs)
    (hseen : SeenAs secs l) (is : List Nat) :
    ∃ l', is.foldlM (sEliminateLinkonce host modules) l = .ok l' ∧
      Cleared (fun j => ∃ i ∈ is, LoadedOnce host modules l i ∧ DropsWith shdrs i j) l l' := by
  induction is generalizing l with
  | nil =>
    refine ⟨l, rfl, (Cleared.refl l).congr ?_⟩
    intro j
    simp
  | cons i is ih =>
    obtain ⟨l₁, hfirst, hcleared⟩ :=
      sEliminateLinkonce_cleared host modules hformed hopened hseen i
    obtain ⟨l', hrest, hcleared'⟩ := ih (hseen.cleared hcleared)
    refine ⟨l', ?_, (hcleared.trans hcleared').congr ?_⟩
    · rw [List.foldlM_cons, hfirst]
      exact hrest
    · intro j
      simp only [LoadedOnce.cleared hcleared, List.mem_cons, exists_eq_or_imp]

end

/-! ## Whole groups -/

/-- A section is a member of a COMDAT group that a loaded module has already. -/
def InLoadedGroup (host : Host) {dm : DataModel} (modules : List (CexpModuleRec dm))
    (shdrs : List Shdr) (j : Nat) : Prop :=
  ∃ (k : Nat) (h : Shdr), shdrs[k]? = some h ∧ h.Comdat ∧
    (cexpSymLookup host h.signature modules).isSome = true ∧ j ∈ h.grp

/-- The groups that are loaded already are dropped as a whole, and no other section is. -/
def GroupsDropped (host : Host) {dm : DataModel} (modules : List (CexpModuleRec dm))
    (shdrs : List Shdr) (file : ObjFile) : Prop :=
  ∃ sections, keptSections host modules file = .ok sections ∧
    (∀ j, InLoadedGroup host modules shdrs j → ∀ s : Section, sections[j]? = some s →
      s.alloc = false) ∧
    ∀ j, ¬InLoadedGroup host modules shdrs j →
      ¬LoadedOnce host modules (file.sections.map sNsects) j →
      sections[j]? = (file.sections.map sNsects)[j]?

/-- Of a group that is loaded already, no member that is to be allocated comes after one that has
no section of the BFD library. -/
def AllocFirst (host : Host) {dm : DataModel} (modules : List (CexpModuleRec dm))
    (shdrs : List Shdr) (file : ObjFile) : Prop :=
  ∀ (k : Nat) (h : Shdr), shdrs[k]? = some h → h.Comdat →
    (cexpSymLookup host h.signature modules).isSome = true → ∀ j ∈ h.grp,
    ∀ s : Section, (file.sections.map sNsects)[j]? = some s → s.alloc = true →
    j ∈ h.grp.takeWhile (live shdrs)

section

variable {shdrs : List Shdr} {secs : List Asect} {file : ObjFile} {host : Host}
  {dm : DataModel} {modules : List (CexpModuleRec dm)}

/-- A member of a group is no linkonce section of its own. -/
theorem not_loadedOnce_of_mem {l : List Section} (hformed : GroupsFormed shdrs)
    (hopened : Opened shdrs shdrs.length secs) (hseen : SeenAs secs l) {k j : Nat} {h : Shdr}
    (hk : shdrs[k]? = some h) (hcomdat : h.Comdat) (hj : j ∈ h.grp) :
    ¬LoadedOnce host modules l j := by
  rintro ⟨s, hs, honce, -⟩
  have hkpos := hformed.pos hk hcomdat
  have hpos : ∀ g ∈ h.grp, g ≠ 0 := fun g hg =>
    Nat.ne_zero_of_lt (hformed.precede k h hk hcomdat g hg)
  have hring := hopened.ring k h (List.getElem?_eq_some_iff.mp hk).1 hk hcomdat
  obtain ⟨n, hnext, hn⟩ := hring.next_pos hkpos hpos j (List.mem_cons_of_mem k hj)
  have hjlt : j < secs.length := hring.inside j (List.mem_cons_of_mem k hj)
  obtain ⟨h', sec, hhj, hsec, hread⟩ := hopened.entry hjlt
  unfold grpNextOf at hnext
  rw [hsec, Option.map_some, Option.some.injEq] at hnext
  rcases hread.linkOnce ((hseen.seen j _ s hsec hs).2.2.1.symm.trans honce) with hcomdat' | hzero
  · exact hformed.plain k j h _ hk hcomdat hj hhj hcomdat'
  · exact hn (hnext.symm.trans hzero)

/-- The header of a group is a linkonce section with the signature as its name. -/
theorem loadedOnce_header {l : List Section} (hopened : Opened shdrs shdrs.length secs)
    (hseen : SeenAs secs l) {k : Nat} {h : Shdr} (hk : shdrs[k]? = some h) (hcomdat : h.Comdat) :
    LoadedOnce host modules l k ↔ (cexpSymLookup host h.signature modules).isSome = true := by
  have hklt : k < secs.length := hopened.length ▸ (List.getElem?_eq_some_iff.mp hk).1
  obtain ⟨h', sec, hk', hsec, hread⟩ := hopened.entry hklt
  rw [hk] at hk'
  cases hk'
  have hs := List.getElem?_eq_getElem (hseen.length ▸ hklt : k < l.length)
  obtain ⟨honce, -, hname⟩ := hread.comdat hcomdat
  obtain ⟨hname', -, honce', -⟩ := hseen.seen k _ _ hsec hs
  constructor
  · rintro ⟨s, hs', -, hloaded⟩
    rw [hs] at hs'
    cases hs'
    rw [hname', hname] at hloaded
    exact hloaded
  · intro hloaded
    refine ⟨_, hs, honce'.trans honce, ?_⟩
    rw [hname', hname]
    exact hloaded

/-- A member of a group is dropped with the header of that group only. -/
theorem dropped_member_iff {l : List Section} (hformed : GroupsFormed shdrs)
    (hopened : Opened shdrs shdrs.length secs) (hseen : SeenAs secs l) {k j : Nat} {h : Shdr}
    (hk : shdrs[k]? = some h) (hcomdat : h.Comdat) (hj : j ∈ h.grp) :
    (∃ i ∈ List.range l.length, LoadedOnce host modules l i ∧ DropsWith shdrs i j) ↔
      (cexpSymLookup host h.signature modules).isSome = true ∧
        j ∈ h.grp.takeWhile (live shdrs) := by
  rw [← loadedOnce_header hopened hseen hk hcomdat]
  constructor
  · rintro ⟨i, -, honce, rfl | ⟨h', hi, hcomdat', hmem⟩⟩
    · exact absurd honce (not_loadedOnce_of_mem hformed hopened hseen hk hcomdat hj)
    · have hmem' : j ∈ h'.grp := (List.takeWhile_sublist _).subset hmem
      have heq : k = i := by
        by_contra hne
        exact hformed.apart k i h h' hne hk hi hcomdat hcomdat' hj hmem'
      subst heq
      rw [hk] at hi
      cases hi
      exact ⟨honce, hmem⟩
  · rintro ⟨honce, hmem⟩
    refine ⟨k, ?_, honce, .inr ⟨h, hk, hcomdat, hmem⟩⟩
    rw [List.mem_range, hseen.length, hopened.length]
    exact (List.getElem?_eq_some_iff.mp hk).1

theorem groups_dropped_iff (hformed : GroupsFormed shdrs) (hopen : openSections shdrs = some secs)
    (hseen : SeenAs secs (file.sections.map sNsects)) :
    GroupsDropped host modules shdrs file ↔ AllocFirst host modules shdrs file := by
  have hopened := openSections_opened hformed hopen
  obtain ⟨l', hrun, hcleared⟩ := eliminate_run host modules hformed hopened hseen
    (List.range (file.sections.map sNsects).length)
  have hkept : keptSections host modules file = .ok l' := by
    rw [List.length_map] at hrun
    exact hrun
  constructor
  · rintro ⟨sections, hsections, hdropped, -⟩ k h hk hcomdat hloaded j hj s hs halloc
    rw [hkept] at hsections
    cases hsections
    obtain ⟨a, ha, hiff⟩ := hcleared.cleared j s hs
    have hfalse : a = false := hdropped j ⟨k, h, hk, hcomdat, hloaded, hj⟩ _ ha
    have hdrop : ∃ i ∈ List.range (file.sections.map sNsects).length,
        LoadedOnce host modules (file.sections.map sNsects) i ∧ DropsWith shdrs i j := by
      by_contra hnot
      have htrue := hiff.mpr ⟨halloc, hnot⟩
      rw [hfalse] at htrue
      cases htrue
    exact ((dropped_member_iff hformed hopened hseen hk hcomdat hj).mp hdrop).2
  · intro hfirst
    refine ⟨l', hkept, ?_, ?_⟩
    · rintro j ⟨k, h, hk, hcomdat, hloaded, hj⟩ s' hs'
      have hjlt : j < (file.sections.map sNsects).length :=
        hcleared.length ▸ (List.getElem?_eq_some_iff.mp hs').1
      have hs := List.getElem?_eq_getElem hjlt
      obtain ⟨a, ha, hiff⟩ := hcleared.cleared j _ hs
      rw [ha] at hs'
      cases hs'
      show a = false
      by_contra hnot
      obtain ⟨halloc, hkeep⟩ := hiff.mp (Bool.eq_true_of_not_eq_false hnot)
      have hmem := hfirst k h hk hcomdat hloaded j hj _ hs halloc
      exact hkeep ((dropped_member_iff hformed hopened hseen hk hcomdat hj).mpr ⟨hloaded, hmem⟩)
    · intro j hgroup honce
      refine hcleared.same ?_
      rintro ⟨i, -, honce', rfl | ⟨h, hi, hcomdat, hmem⟩⟩
      · exact honce honce'
      · refine hgroup ⟨i, h, hi, hcomdat, ?_, (List.takeWhile_sublist _).subset hmem⟩
        exact (loadedOnce_header hopened hseen hi hcomdat).mp honce'

end

/-! ## Two files -/

/-- A section of eight bytes, as the linker sees it. -/
def sectionOf (secs : List Asect) (sec : Asect) : Section where
  name := sec.name
  size := 8
  alloc := sec.alloc
  linkOnce := sec.linkOnce
  group := sec.group
  reloc := false
  nextInGroup := shdr2sec secs sec.grpNext
  relocs := []

/-- The object file with these sections. -/
def fileOf (secs : List Asect) : ObjFile := objFile (secs.map (sectionOf secs)) []

theorem seenAs_fileOf (secs : List Asect) : SeenAs secs ((fileOf secs).sections.map sNsects) := by
  have hlist : (fileOf secs).sections.map sNsects = secs.map (sectionOf secs) := by
    show (secs.map (sectionOf secs)).map sNsects = _
    rw [List.map_map]
    rfl
  rw [hlist]
  refine ⟨List.length_map _, ?_⟩
  intro i sec s hsec hs
  rw [List.getElem?_map, hsec] at hs
  cases hs
  exact ⟨rfl, id, rfl, rfl, rfl⟩

def nullShdr : Shdr := ⟨.null, CStr.empty, false, CStr.empty, false, []⟩

/-- The header of a COMDAT group. -/
def groupShdr (signature : CStr) (grp : List Nat) : Shdr :=
  ⟨.group, CStr.empty, false, signature, true, grp⟩

/-- A section of code, or of data. -/
def progbitsShdr : Shdr := { nullShdr with type := .normal, alloc := true }

/-- The relocations of a section. -/
def relaShdr : Shdr := { nullShdr with type := .rela }

/-- A module that defines one name. -/
def moduleOf (name : CStr) : CexpModuleRec .lp64 where
  handle := 16
  name := systemBuiltin
  id := 0
  symtbl := ⟨1, [newSym name, { newSym name with name := none }]⟩
  builtin := false
  sectionSyms := []
  needs := Bitmap.zero
  neededby := Bitmap.zero
  bound := []

section

variable {signature : CStr} {grp : List Nat} {rest : List Shdr}

theorem groupsFormed_group {k : Nat} {h : Shdr}
    (hk : (nullShdr :: groupShdr signature grp :: rest)[k]? = some h) (hcomdat : h.Comdat)
    (hrest : ∀ h ∈ rest, ¬h.Comdat) : k = 1 ∧ h.grp = grp := by
  match k, hk with
  | 0, hk =>
    cases hk
    exact absurd hcomdat (by decide)
  | 1, hk =>
    cases hk
    exact ⟨rfl, rfl⟩
  | k + 2, hk => exact absurd hcomdat (hrest h (List.mem_of_getElem? hk))

/-- A file with one group. -/
theorem groupsFormed_single (hcount : rest.length + 2 ≤ SHN_LORESERVE)
    (hbehind : ∀ g ∈ grp, 1 < g) (honce : grp.Nodup) (hrest : ∀ h ∈ rest, ¬h.Comdat) :
    GroupsFormed (nullShdr :: groupShdr signature grp :: rest) := by
  have hsingle : ∀ {k : Nat} {h : Shdr},
      (nullShdr :: groupShdr signature grp :: rest)[k]? = some h → h.Comdat →
      k = 1 ∧ h.grp = grp := fun hk hcomdat => groupsFormed_group hk hcomdat hrest
  refine ⟨hcount, ?_, ?_, ?_, ?_, ?_⟩
  · intro h hh
    cases hh
    rfl
  · intro k h hk hcomdat g hg
    obtain ⟨rfl, hgrp⟩ := hsingle hk hcomdat
    exact hbehind g (hgrp ▸ hg)
  · intro k h hk hcomdat
    rw [(hsingle hk hcomdat).2]
    exact honce
  · intro k k' h h' hne hk hk' hcomdat hcomdat'
    exact absurd ((hsingle hk hcomdat).1.trans (hsingle hk' hcomdat').1.symm) hne
  · intro k g h h' hk hcomdat hg hh' hcomdat'
    have hgt := hbehind g ((hsingle hk hcomdat).2 ▸ hg)
    rw [(hsingle hh' hcomdat').1] at hgt
    exact Nat.lt_irrefl 1 hgt

end

/-- A group of a function and its relocations. -/
def functionGroup : List Shdr := [nullShdr, groupShdr moduleA [2, 3], progbitsShdr, relaShdr]

theorem functionGroup_formed : GroupsFormed functionGroup :=
  groupsFormed_single (by decide) (by decide) (by decide) (by decide)

theorem functionGroup_dropped : ∃ secs, openSections functionGroup = some secs ∧
    GroupsDropped plainHost [moduleOf moduleA] functionGroup (fileOf secs) := by
  have heval : ((openSections functionGroup).any fun secs =>
      ((fileOf secs).sections.map sNsects).map Section.alloc = [false, false, true, false]) =
      true := by decide +kernel
  obtain ⟨secs, hopen, hallocs⟩ := (Option.any_eq_true _ _).mp heval
  refine ⟨secs, hopen, ?_⟩
  refine (groups_dropped_iff functionGroup_formed hopen (seenAs_fileOf secs)).mpr ?_
  intro k h hk hcomdat _ j hj s hs halloc
  rw [(groupsFormed_group hk hcomdat (by decide)).2] at hj ⊢
  rcases List.mem_cons.mp hj with rfl | hj
  · decide
  · -- the relocations are not to be allocated
    rw [List.mem_singleton.mp hj] at hs
    have hfalse := congrArg (fun allocs => allocs[3]?) (of_decide_eq_true hallocs)
    rw [List.getElem?_map, hs] at hfalse
    rw [Option.some.inj hfalse] at halloc
    cases halloc

/-- A group of a function, its relocations and its data. -/
def functionDataGroup : List Shdr :=
  [nullShdr, groupShdr moduleA [2, 3, 4], progbitsShdr, relaShdr, progbitsShdr]

theorem functionDataGroup_formed : GroupsFormed functionDataGroup :=
  groupsFormed_single (by decide) (by decide) (by decide) (by decide)

theorem functionDataGroup_not_dropped : ∃ secs, openSections functionDataGroup = some secs ∧
    GroupsFormed functionDataGroup ∧ SeenAs secs ((fileOf secs).sections.map sNsects) ∧
    ¬GroupsDropped plainHost [moduleOf moduleA] functionDataGroup (fileOf secs) := by
  have heval : ((openSections functionDataGroup).any fun secs =>
      (keptSections plainHost [moduleOf moduleA] (fileOf secs)).toOption.any fun sections =>
        (sections[4]?).any Section.alloc) = true := by decide +kernel
  obtain ⟨secs, hopen, hrun⟩ := (Option.any_eq_true _ _).mp heval
  obtain ⟨sections, hsections, hrun⟩ := (Option.any_eq_true _ _).mp hrun
  obtain ⟨s, hs, halloc⟩ := (Option.any_eq_true _ _).mp hrun
  refine ⟨secs, hopen, functionDataGroup_formed, seenAs_fileOf secs, ?_⟩
  rintro ⟨sections', hsections', hdropped, -⟩
  rw [hsections'] at hsections
  cases hsections
  have hloaded : InLoadedGroup plainHost [moduleOf moduleA] functionDataGroup 4 :=
    ⟨1, groupShdr moduleA [2, 3, 4], rfl, ⟨rfl, rfl⟩, by decide +kernel, by decide⟩
  rw [hdropped 4 hloaded s hs] at halloc
  cases halloc

end Cexp
