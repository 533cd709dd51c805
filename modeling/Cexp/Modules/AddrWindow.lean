import Cexp.Modules.AddrLoops

/-!
# The array of the nearest addresses

The modules that contain the address come one after the other, and the array keeps the nearest of
what the loops have seen of all their tables (`range_pos`, `range_zero`). It is right exactly if
the numbers fit and what they have not seen does not matter (`addr_range_iff`).
-/

namespace Cexp

open CLib

/-! ## All modules -/

section

variable {mods : List AddrModule} {addr : BitVec 64} {margin : Nat}

/-- The tables of those modules of a list that contain the address. -/
def tablesOf (addr : BitVec 64) (ms : List (AddrModule × Nat)) : List CexpAddrTbl :=
  (ms.filter fun m => addrInModule addr m.1 (m.2 = 0) = some true).map fun m => m.1.symtbl

theorem tablesOf_cons_of_out {p : AddrModule × Nat} (ms : List (AddrModule × Nat))
    (h : addrInModule addr p.1 (p.2 = 0) = some false) :
    tablesOf addr (p :: ms) = tablesOf addr ms := by
  rw [tablesOf, List.filter_cons_of_neg (by rw [h]; decide)]
  rfl

theorem tablesOf_cons_of_in {p : AddrModule × Nat} (ms : List (AddrModule × Nat))
    (h : addrInModule addr p.1 (p.2 = 0) = some true) :
    tablesOf addr (p :: ms) = p.1.symtbl :: tablesOf addr ms := by
  rw [tablesOf, List.filter_cons_of_pos (by rw [h]; decide)]
  rfl

theorem rangeStep_out {p : AddrModule × Nat} (ar : List (Option CexpSymAIdx))
    (h : addrInModule addr p.1 (p.2 = 0) = some false) :
    rangeStep mods addr margin ar p = some ar := by
  rw [rangeStep, h]
  rfl

/-- A relation between the array and the tables seen so far that each module preserves holds at the
end. -/
theorem foldlM_rangeStep {ms : List (AddrModule × Nat)} (hms : ∀ p ∈ ms, Readable mods addr p)
    {R : List (Option CexpSymAIdx) → List CexpAddrTbl → Prop}
    (hstep : ∀ p ∈ ms, addrInModule addr p.1 (p.2 = 0) = some true → ∀ ar ts,
      R ar (p.1.symtbl :: ts) → ∃ ar', rangeStep mods addr margin ar p = some ar' ∧ R ar' ts)
    {ar : List (Option CexpSymAIdx)} (h : R ar (tablesOf addr ms)) :
    ∃ ar', ms.foldlM (rangeStep mods addr margin) ar = some ar' ∧ R ar' [] := by
  induction ms generalizing ar with
  | nil => exact ⟨ar, rfl, h⟩
  | cons p ms ih =>
    have hrest := @ih (fun q hq => hms q (List.mem_cons_of_mem p hq))
      fun q hq => hstep q (List.mem_cons_of_mem p hq)
    obtain ⟨b, hb⟩ := (hms p List.mem_cons_self).known
    rw [List.foldlM_cons]
    cases b with
    | false =>
      rw [tablesOf_cons_of_out ms hb] at h
      rw [rangeStep_out ar hb]
      exact hrest h
    | true =>
      rw [tablesOf_cons_of_in ms hb] at h
      obtain ⟨ar', hrun, h'⟩ := hstep p List.mem_cons_self hb ar _ h
      rw [hrun]
      exact hrest h'

theorem perm_flatMap_cons {β : Type} (f : CexpAddrTbl → List β) (t : CexpAddrTbl)
    (ts : List CexpAddrTbl) (xs : List β) :
    ((t :: ts).flatMap f ++ xs).Perm (ts.flatMap f ++ (f t ++ xs)) := by
  rw [List.flatMap_cons, ← List.append_assoc]
  exact List.perm_append_comm.append_right xs

/-- What each module that is left behind preserves holds at the end. -/
theorem foldlM_rangeStep_some {ms : List (AddrModule × Nat)}
    (hms : ∀ p ∈ ms, Readable mods addr p)
    {R : List (Option CexpSymAIdx) → List CexpAddrTbl → Prop}
    (hstep : ∀ p ∈ ms, addrInModule addr p.1 (p.2 = 0) = some true → ∀ ar ts,
      R ar (p.1.symtbl :: ts) → ∀ ar', rangeStep mods addr margin ar p = some ar' → R ar' ts)
    {ar ar' : List (Option CexpSymAIdx)} (h : R ar (tablesOf addr ms))
    (hrun : ms.foldlM (rangeStep mods addr margin) ar = some ar') : R ar' [] := by
  induction ms generalizing ar with
  | nil =>
    cases hrun
    exact h
  | cons p ms ih =>
    have hrest := @ih (fun q hq => hms q (List.mem_cons_of_mem p hq))
      fun q hq => hstep q (List.mem_cons_of_mem p hq)
    obtain ⟨b, hb⟩ := (hms p List.mem_cons_self).known
    rw [List.foldlM_cons] at hrun
    cases b with
    | false =>
      rw [tablesOf_cons_of_out ms hb] at h
      rw [rangeStep_out ar hb] at hrun
      exact hrest h hrun
    | true =>
      rw [tablesOf_cons_of_in ms hb] at h
      obtain ⟨ar₁, hone, hmore⟩ := Option.bind_eq_some_iff.mp hrun
      exact hrest (hstep p List.mem_cons_self hb ar _ h ar₁ hone) hmore

theorem lkAddrRange_eq (h : 2 * margin + 1 < 2 ^ 31) :
    cexpSymLkAddrRange mods addr margin =
      mods.zipIdx.foldlM (rangeStep mods addr margin) (List.replicate (2 * margin + 1) none) := by
  rw [cexpSymLkAddrRange, intResult_eq_some.mpr ⟨⟨by omega, by omega⟩, rfl⟩]
  rfl

theorem lkAddrRange_fits {ar : List (Option CexpSymAIdx)}
    (hrun : cexpSymLkAddrRange mods addr margin = some ar) : 2 * margin + 1 < 2 ^ 31 := by
  rw [cexpSymLkAddrRange] at hrun
  obtain ⟨n, hn, -⟩ := Option.bind_eq_some_iff.mp hrun
  have := (intResult_eq_some.mp hn).1
  omega

theorem window_init (k : Nat) :
    Window mods (k + 1) (List.replicate (2 * (k + 1) + 1) none) [] [] := by
  refine ⟨List.replicate (k + 1 + 1) none, List.replicate (k + 1) none, ?_, ?_, ?_⟩
  · rw [List.replicate_append_replicate]
    congr 1
    omega
  · simp [Keys, farFirst, best]
  · simp [Keys, farFirst, best]

/-- The tables that are left, with what has been seen, make up all that is seen. -/
structure Left (mods : List AddrModule) (addr : BitVec 64) (L H : List (BitVec 64))
    (ts : List CexpAddrTbl) : Prop where
  low : (ts.flatMap (seenBelow addr) ++ L).Perm
    ((containing mods addr).flatMap (seenBelow addr))
  high : (ts.flatMap (seenAbove addr) ++ H).Perm
    ((containing mods addr).flatMap (seenAbove addr))

theorem Left.init : Left mods addr [] [] (containing mods addr) :=
  ⟨by rw [List.append_nil], by rw [List.append_nil]⟩

theorem Left.next {L H : List (BitVec 64)} {t : CexpAddrTbl} {ts : List CexpAddrTbl}
    (h : Left mods addr L H (t :: ts)) :
    Left mods addr (seenBelow addr t ++ L) (seenAbove addr t ++ H) ts :=
  ⟨(perm_flatMap_cons _ _ ts L).symm.trans h.low, (perm_flatMap_cons _ _ ts H).symm.trans h.high⟩

/-- With a margin, the array ends up with the nearest of all that the loops have seen. -/
theorem range_pos (hms : ∀ p ∈ mods.zipIdx, Readable mods addr p) {k : Nat}
    (hfits : 2 * (k + 1) + 1 < 2 ^ 31) (hends : LoopsEnd addr (k + 1) [] (containing mods addr)) :
    ∃ ar, cexpSymLkAddrRange mods addr (k + 1) = some ar ∧
      Window mods (k + 1) ar ((containing mods addr).flatMap (seenBelow addr))
        ((containing mods addr).flatMap (seenAbove addr)) := by
  obtain ⟨ar, hrun, L, H, hwin, hleft, -⟩ := @foldlM_rangeStep mods addr (k + 1) _ hms
    (fun ar ts => ∃ L H, Window mods (k + 1) ar L H ∧ Left mods addr L H ts ∧
      LoopsEnd addr (k + 1) H ts)
    (by
      rintro ⟨m, mod⟩ hp hin ar ts ⟨L, H, hwin, hleft, hend, hends⟩
      rcases rangeStep_spec (hms _ hp) hin hwin with ⟨-, ar', hrun, hwin'⟩ | ⟨hnot, -⟩
      · exact ⟨ar', hrun, _, _, hwin', hleft.next, hends⟩
      · exact absurd hend hnot)
    _ ⟨[], [], window_init k, Left.init, hends⟩
  exact ⟨ar, (lkAddrRange_eq hfits).trans hrun, hwin.perm hleft.low hleft.high⟩

/-- If there is a result, then the loops have ended. -/
theorem loops_end (hms : ∀ p ∈ mods.zipIdx, Readable mods addr p) {k : Nat}
    {ar : List (Option CexpSymAIdx)} (hrun : cexpSymLkAddrRange mods addr (k + 1) = some ar) :
    LoopsEnd addr (k + 1) [] (containing mods addr) := by
  rw [lkAddrRange_eq (lkAddrRange_fits hrun)] at hrun
  obtain ⟨L, H, -, hends⟩ := @foldlM_rangeStep_some mods addr (k + 1) _ hms
    (fun ar ts => ∃ L H, Window mods (k + 1) ar L H ∧
      (LoopsEnd addr (k + 1) H ts → LoopsEnd addr (k + 1) [] (containing mods addr)))
    (by
      rintro ⟨m, mod⟩ hp hin ar ts ⟨L, H, hwin, hends⟩ ar' hstep
      rcases rangeStep_spec (hms _ hp) hin hwin with ⟨hend, ar'', hrun, hwin'⟩ | ⟨-, hnone⟩
      · rw [hrun] at hstep
        cases hstep
        exact ⟨_, _, hwin', fun h => hends ⟨hend, h⟩⟩
      · rw [hnone] at hstep
        cases hstep)
    _ _ ⟨[], [], window_init k, id⟩ hrun
  exact hends trivial

theorem below_init : Below mods (List.replicate (2 * 0 + 1) none) [] := by
  simp [Below, Keys, farFirst, best]

/-- Without one, it ends up with the nearest that is not above, if no table does harm. -/
theorem range_zero (hms : ∀ p ∈ mods.zipIdx, Readable mods addr p)
    (hsafe : ∀ t ∈ (containing mods addr).takeWhile (AllAbove addr), t.nentries < 2) :
    ∃ ar, cexpSymLkAddrRange mods addr 0 = some ar ∧
      Below mods ar ((containing mods addr).flatMap (seenBelow addr)) := by
  obtain ⟨ar, hrun, L, hbelow, -, -, hL⟩ := @foldlM_rangeStep mods addr 0 _ hms
    (fun ar ts => ∃ L, Below mods ar L ∧ (∀ a ∈ L, a ≤ addr) ∧
      (L = [] → ∀ t ∈ ts.takeWhile (AllAbove addr), t.nentries < 2) ∧
      (ts.flatMap (seenBelow addr) ++ L).Perm ((containing mods addr).flatMap (seenBelow addr)))
    (by
      rintro ⟨m, mod⟩ hp hin ar ts ⟨L, hbelow, hle, htwo, hL⟩
      have hthis : L = [] → AllAbove addr m.symtbl = true → m.symtbl.nentries < 2 := by
        intro hnil hall
        apply htwo hnil
        rw [List.takeWhile_cons_of_pos hall]
        exact List.mem_cons_self
      obtain ⟨ar', hrun, hbelow'⟩ := rangeStep_below (hms _ hp) hin hle hthis hbelow
      refine ⟨ar', hrun, _, hbelow', ?_, ?_, (perm_flatMap_cons _ _ ts L).symm.trans hL⟩
      · intro a ha
        rcases List.mem_append.mp ha with ha | ha
        · exact seenBelow_le a ha
        · exact hle a ha
      · intro hnil t ht
        obtain ⟨hnone, hLnil⟩ := List.append_eq_nil_iff.mp hnil
        apply htwo hLnil
        rw [List.takeWhile_cons_of_pos (allAbove_of_seenBelow (hms _ hp) hin hnone)]
        exact List.mem_cons_of_mem _ ht)
    _ ⟨[], below_init, fun a ha => absurd ha List.not_mem_nil, fun _ => hsafe, by
      rw [List.append_nil]
      rfl⟩
  rw [List.flatMap_nil, List.nil_append] at hL
  rw [Below, best_perm hL] at hbelow
  exact ⟨ar, (lkAddrRange_eq (by decide)).trans hrun, hbelow⟩

/-- If one does, it ends up with an entry above the address. -/
theorem range_spoilt (hms : ∀ p ∈ mods.zipIdx, Readable mods addr p)
    (hbad : ∃ t ∈ (containing mods addr).takeWhile (AllAbove addr), 2 ≤ t.nentries)
    {ar : List (Option CexpSymAIdx)} (hrun : cexpSymLkAddrRange mods addr 0 = some ar) :
    Above mods addr ar := by
  rw [lkAddrRange_eq (by decide)] at hrun
  have h := @foldlM_rangeStep_some mods addr 0 _ hms
    (fun ar ts => Above mods addr ar ∨
      (Below mods ar [] ∧ ∃ t ∈ ts.takeWhile (AllAbove addr), 2 ≤ t.nentries))
    (by
      rintro ⟨m, mod⟩ hp hin ar ts h ar' hstep
      rcases h with habove | ⟨hbelow, t, ht, htwo⟩
      · exact .inl (rangeStep_above (hms _ hp) hin habove hstep)
      · by_cases hall : AllAbove addr m.symtbl = true
        · by_cases hmany : 2 ≤ m.symtbl.nentries
          · exact .inl (rangeStep_spoils (hms _ hp) hin hall hmany hbelow hstep)
          · obtain ⟨ar'', hrun, h'⟩ := rangeStep_below (hms _ hp) hin
              (fun x hx => absurd hx List.not_mem_nil) (fun _ _ => Nat.not_le.mp hmany) hbelow
            rw [hrun] at hstep
            cases hstep
            rw [seenBelow_of_allAbove hall] at h'
            refine .inr ⟨h', t, ?_, htwo⟩
            rw [List.takeWhile_cons_of_pos hall] at ht
            rcases List.mem_cons.mp ht with rfl | ht
            · exact absurd htwo hmany
            · exact ht
        · rw [List.takeWhile_cons_of_neg hall] at ht
          cases ht)
    _ _ (.inr ⟨below_init, hbad⟩) hrun
  rcases h with h | ⟨-, t, ht, -⟩
  · exact h
  · cases ht

/-! ## When the array is right -/

theorem SlotIs.unique {ar : List (Option CexpSymAIdx)} {i : Nat} {a b : Option (BitVec 64)}
    (ha : SlotIs mods ar i a) (hb : SlotIs mods ar i b) : a = b := by
  obtain ⟨o, ho, hoa⟩ := ha
  obtain ⟨o', ho', hob⟩ := hb
  rw [ho] at ho'
  cases ho'
  exact Option.map_injective (Option.some_injective _) (hoa.symm.trans hob)

theorem best_getElem? {le : BitVec 64 → BitVec 64 → Prop} [DecidableRel le] {n i : Nat}
    (hi : i < n) (L : List (BitVec 64)) : (best le n L)[i]? = (L.insertionSort le)[i]? := by
  rw [best, List.getElem?_take, if_pos hi]

/-- The slots of a window. -/
theorem Window.slots {ar : List (Option CexpSymAIdx)} {L H : List (BitVec 64)}
    (h : Window mods margin ar L H) : ar.length = 2 * margin + 1 ∧
      (∀ k ≤ margin, SlotIs mods ar (margin - k) (L.insertionSort (· ≥ ·))[k]?) ∧
      ∀ k, 0 < k → k ≤ margin → SlotIs mods ar (margin + k) (H.insertionSort (· ≤ ·))[k - 1]? := by
  obtain ⟨lo, hi, rfl, hlo, hhi⟩ := h
  have hlolen := hlo.length
  have hhilen := hhi.length
  rw [length_farFirst (length_best_le _ _ _)] at hlolen hhilen
  rw [List.length_reverse] at hhilen
  refine ⟨by rw [List.length_append]; omega, ?_, ?_⟩
  · intro k hk
    have hget := getElem?_farFirst (length_best_le (· ≥ ·) (margin + 1) L) (Nat.lt_succ_of_le hk)
    rw [Nat.add_sub_cancel, best_getElem? (Nat.lt_succ_of_le hk)] at hget
    obtain ⟨o, ho, hslot⟩ := hlo.slot hget
    exact ⟨o, by rw [List.getElem?_append_left (by omega), ho], hslot⟩
  · intro k hpos hk
    have hget := getElem?_farFirst (length_best_le (· ≤ ·) margin H) (show k - 1 < margin by omega)
    rw [best_getElem? (by omega)] at hget
    obtain ⟨o, ho, hslot⟩ := hhi.slot hget
    refine ⟨o, ?_, hslot⟩
    rw [List.getElem?_reverse (by omega)] at ho
    rw [List.getElem?_append_right (by omega), ← ho]
    congr 1
    omega

/-- A module whose table cannot be read: there is no result. -/
theorem range_fault {p : AddrModule × Nat} (hp : p ∈ mods.zipIdx)
    (h : ∀ ar, rangeStep mods addr margin ar p = none) :
    cexpSymLkAddrRange mods addr margin = none := by
  by_contra hsome
  obtain ⟨ar', hrun⟩ := Option.ne_none_iff_exists'.mp hsome
  apply hsome
  rw [lkAddrRange_eq (lkAddrRange_fits hrun)]
  generalize List.replicate (2 * margin + 1) none = ar
  generalize mods.zipIdx = ms at hp
  induction ms generalizing ar with
  | nil => cases hp
  | cons q ms ih =>
    rw [List.foldlM_cons]
    rcases List.mem_cons.mp hp with rfl | hp
    · rw [h]
      rfl
    · cases rangeStep mods addr margin ar q with
      | none => rfl
      | some ar' => exact ih ar' hp

theorem rangeStep_empty {p : AddrModule × Nat} (hmod : mods[p.2]? = some p.1)
    (ht : p.1.symtbl.Indexed) (hempty : p.1.symtbl.nentries = 0)
    (h : p.2 = 0 ∨ addrInModule addr p.1 (p.2 = 0) = some true)
    (ar : List (Option CexpSymAIdx)) : rangeStep mods addr margin ar p = none := by
  have hnone : p.1.symtbl.ptv 0 = none := by
    rw [ptv_eq ht, List.getElem?_eq_none (by rw [length_ptvs ht, hempty])]
  by_cases hin : addrInModule addr p.1 (p.2 = 0) = some true
  · have hcli : cexpSymTblLkAddrIdx addr 0 false p.1.symtbl = some (0, []) := by
      rw [cexpSymTblLkAddrIdx, hempty, lkAddrLoop, if_neg (by decide)]
      rfl
    have hfirst : gaddr mods ⟨0, p.2⟩ = none := by
      rw [gaddr, hmod, Option.bind_some, hnone]
    have hlow : lowLoop mods addr margin p.2 0 ar = none := by
      show (nearStep mods _ _ 0 margin ⟨0, p.2⟩ ar).bind _ = none
      rw [nearStep, hfirst]
      rfl
    rw [rangeStep, hin]
    show (cexpSymTblLkAddrIdx addr 0 false p.1.symtbl).bind _ = none
    rw [hcli]
    show (lowLoop mods addr margin p.2 0 ar).bind _ = none
    rw [hlow]
    rfl
  · have hsystem := h.resolve_right hin
    rw [hsystem] at hin
    have hunknown : addrInModule addr p.1 (p.2 = 0) = none := by
      rw [hsystem]
      rw [addrInModule] at hin ⊢
      split
      · next hseg => exact absurd (if_pos hseg) hin
      · show (p.1.symtbl.ptv 0).bind _ = none
        rw [hnone]
        rfl
    rw [rangeStep, hunknown]
    rfl

/-- A module whose search does not end. -/
theorem rangeStep_search {p : AddrModule × Nat} (ht : p.1.symtbl.Indexed)
    (hpos : 0 < p.1.symtbl.nentries) (hin : addrInModule addr p.1 (p.2 = 0) = some true)
    (h : ¬SearchFits addr p.1.symtbl) (ar : List (Option CexpSymAIdx)) :
    rangeStep mods addr margin ar p = none := by
  rw [rangeStep, hin]
  show (cexpSymTblLkAddrIdx addr 0 false p.1.symtbl).bind _ = none
  cases hcli : cexpSymTblLkAddrIdx addr 0 false p.1.symtbl with
  | none => rfl
  | some r => exact absurd ((lkAddrIdx_isSome_iff ht hpos 0).mp ⟨r, hcli⟩) h

/-- If there is something to read and the searches end, every module can be read. -/
theorem readable (hindexed : ∀ m ∈ mods, m.symtbl.Indexed)
    (hsystem : ∀ m ∈ mods.head?, 0 < m.symtbl.nentries)
    (hnonempty : ∀ t ∈ containing mods addr, 0 < t.nentries)
    (hsearch : ∀ t ∈ containing mods addr, SearchFits addr t) :
    ∀ p ∈ mods.zipIdx, Readable mods addr p := by
  rintro ⟨m, mod⟩ hp
  have hmod : mods[mod]? = some m := List.mem_zipIdx_iff_getElem?.mp hp
  have ht := hindexed m (List.mem_of_getElem? hmod)
  have hmem : addrInModule addr m (mod = 0) = some true → m.symtbl ∈ containing mods addr :=
    fun hin => List.mem_map.mpr ⟨(m, mod), List.mem_filter.mpr ⟨hp, decide_eq_true hin⟩, rfl⟩
  refine ⟨hmod, ht, ?_, fun hin => hnonempty _ (hmem hin), fun hin => hsearch _ (hmem hin)⟩
  · dsimp only
    rw [addrInModule]
    split
    · exact ⟨true, rfl⟩
    · by_cases hzero : mod = 0
      · subst hzero
        have hpos := hsystem m (by rw [List.head?_eq_getElem?, hmod]; rfl)
        obtain ⟨a, ha⟩ := Option.isSome_iff_exists.mp (ht.ptv_isSome_iff.mpr hpos)
        obtain ⟨b, hb⟩ := Option.isSome_iff_exists.mp (ht.ptv_isSome_iff.mpr
          (show m.symtbl.nentries - 1 < m.symtbl.nentries by omega))
        show ∃ r, (m.symtbl.ptv 0).bind (fun first => if first ≤ addr then
          (m.symtbl.ptv (m.symtbl.nentries - 1)).bind fun last => some (decide (addr ≤ last))
          else some false) = some r
        rw [ha, hb, Option.bind_some]
        split
        · exact ⟨_, rfl⟩
        · exact ⟨_, rfl⟩
      · rw [decide_eq_false hzero]
        exact ⟨false, rfl⟩

/-- What is not seen makes no difference if there is enough that comes before it. -/
theorem best_flatMap_iff {le : BitVec 64 → BitVec 64 → Prop} [DecidableRel le]
    [IsTrans (BitVec 64) le] [Std.Total le] [Std.Antisymm le] {ts : List CexpAddrTbl}
    {all unseen seen : CexpAddrTbl → List (BitVec 64)}
    (h : ∀ t, (all t).Perm (unseen t ++ seen t)) (k : Nat) :
    best le k (ts.flatMap all) = best le k (ts.flatMap seen) ↔
      ∀ t ∈ ts, ∀ a ∈ unseen t, k ≤ (ts.flatMap seen).countP fun b => le b a := by
  have hperm : (ts.flatMap all).Perm (ts.flatMap unseen ++ ts.flatMap seen) :=
    (List.Perm.flatMap_left ts fun t _ => h t).trans (List.flatMap_append_perm ts _ _).symm
  rw [best_perm hperm, best_append_iff]
  constructor
  · intro hall t ht a ha
    exact hall a (List.mem_flatMap.mpr ⟨t, ht, ha⟩)
  · intro hall a ha
    obtain ⟨t, ht, hmem⟩ := List.mem_flatMap.mp ha
    exact hall t ht a hmem

theorem below_perm (addr : BitVec 64) (t : CexpAddrTbl) :
    (t.ptvs.filter fun a => a ≤ addr).Perm (unseenBelow addr t ++ seenBelow addr t) := by
  rw [unseenBelow, seenBelow]
  conv_lhs => rw [← List.take_append_drop (covered t.nentries) t.ptvs, List.filter_append]
  exact List.perm_append_comm

theorem above_perm (addr : BitVec 64) (t : CexpAddrTbl) :
    (t.ptvs.filter fun a => addr < a).Perm (unseenAbove addr t ++ seenAbove addr t) := by
  apply List.Perm.of_eq
  rw [unseenAbove, seenAbove]
  split
  · next hall =>
    rw [← List.drop_one, List.take_append_drop]
    exact List.filter_eq_self.mpr fun a ha => by simpa using allAbove_iff.mp hall a ha
  · split
    · rw [List.nil_append]
    · rw [List.append_nil]

/-- The lookups give what is in the middle slot. -/
theorem lookup_of_range {ar : List (Option CexpSymAIdx)} {a : Option (BitVec 64)} {wanted : Int}
    {f : Bool} (hmargin : (if wanted < 0 ∨ f = false then 0 else wanted.toNat) = margin)
    (hlength : -2 ^ 31 ≤ (if wanted < 0 then 1 else 2 * wanted + 1) ∧
      (if wanted < 0 then 1 else 2 * wanted + 1) < 2 ^ 31)
    (hrun : cexpSymLkAddrRange mods addr margin = some ar) (h : SlotIs mods ar margin a) :
    ∃ r, cexpSymLkAddr mods addr wanted f = some r ∧ r.map (fun s => s.1.value.ptv) = a := by
  obtain ⟨o, ho, hoa⟩ := h
  have hidx : cexpSymLkAddrIdx mods addr wanted f = some o := by
    rw [cexpSymLkAddrIdx, intResult_eq_some.mpr ⟨hlength, rfl⟩, Option.bind_eq_bind,
      Option.bind_some]
    dsimp only
    rw [hmargin, hrun]
    exact ho
  cases o with
  | none =>
    cases a with
    | some a => cases hoa
    | none =>
      refine ⟨none, ?_, rfl⟩
      rw [cexpSymLkAddr, hidx]
      rfl
  | some e =>
    cases a with
    | none => cases hoa
    | some a =>
      have hgaddr : gaddr mods e = some a := Option.some.inj hoa
      obtain ⟨m, hm, hptv⟩ := Option.bind_eq_some_iff.mp hgaddr
      obtain ⟨s, hs, rfl⟩ := Option.map_eq_some_iff.mp hptv
      refine ⟨some (s, m), ?_, rfl⟩
      rw [cexpSymLkAddr, hidx]
      show (mods[e.mod]?).bind _ = _
      rw [hm]
      show (m.symtbl.sym e.idx).bind _ = _
      rw [hs]
      rfl

theorem find_of_range {ar : List (Option CexpSymAIdx)} {a : Option (BitVec 64)}
    (hrun : cexpSymLkAddrRange mods addr 0 = some ar) (h : SlotIs mods ar 0 a) (size : Nat) :
    ∃ r, cexpAddrFind mods addr size = some r ∧ r.map Prod.snd = a := by
  obtain ⟨r, hr, hptv⟩ := @lookup_of_range mods addr 0 ar a 0 false rfl (by decide) hrun h
  cases r with
  | none =>
    refine ⟨none, ?_, hptv⟩
    rw [cexpAddrFind, hr]
    rfl
  | some s =>
    obtain ⟨s, m⟩ := s
    refine ⟨some ((m.name.bytes ++ ":".toUTF8.toList ++ s.bytes).take (size - 1), s.value.ptv), ?_,
      hptv⟩
    rw [cexpAddrFind, hr]
    rfl

/-- The array is right if its slots are. -/
theorem rangeRight_of_slots {ar : List (Option CexpSymAIdx)}
    (hrun : cexpSymLkAddrRange mods addr margin = some ar) (hlen : ar.length = 2 * margin + 1)
    (hlow : ∀ k ≤ margin, SlotIs mods ar (margin - k) ((below mods addr).insertionSort (· ≥ ·))[k]?)
    (hhigh : ∀ k, 0 < k → k ≤ margin →
      SlotIs mods ar (margin + k) ((above mods addr).insertionSort (· ≤ ·))[k - 1]?) :
    RangeRight mods addr margin := by
  refine ⟨⟨ar, hrun, hlen, hlow, hhigh⟩, ?_, ?_⟩
  · have hfits := lkAddrRange_fits hrun
    have hneg : ¬(margin : Int) < 0 := not_lt.mpr (Int.natCast_nonneg margin)
    refine lookup_of_range ?_ ?_ hrun (hlow 0 (Nat.zero_le _))
    · rw [if_neg]
      · exact Int.toNat_natCast margin
      · rintro (h | ⟨⟨⟩⟩)
        exact hneg h
    · rw [if_neg hneg]
      omega
  · rintro rfl size
    exact find_of_range hrun (hlow 0 (Nat.le_refl 0)) size

/-- The slots of a window tell what the nearest are. -/
theorem Window.best_low {ar : List (Option CexpSymAIdx)} {L H B : List (BitVec 64)}
    (h : Window mods margin ar L H)
    (hlow : ∀ k ≤ margin, SlotIs mods ar (margin - k) (B.insertionSort (· ≥ ·))[k]?) :
    best (· ≥ ·) (margin + 1) B = best (· ≥ ·) (margin + 1) L := by
  apply List.ext_getElem?
  intro i
  by_cases hi : i < margin + 1
  · rw [best_getElem? hi, best_getElem? hi]
    exact (hlow i (Nat.le_of_lt_succ hi)).unique (h.slots.2.1 i (Nat.le_of_lt_succ hi))
  · rw [List.getElem?_eq_none, List.getElem?_eq_none]
    · exact (length_best_le _ _ _).trans (not_lt.mp hi)
    · exact (length_best_le _ _ _).trans (not_lt.mp hi)

theorem Window.best_high {ar : List (Option CexpSymAIdx)} {L H B : List (BitVec 64)}
    (h : Window mods margin ar L H)
    (hhigh : ∀ k, 0 < k → k ≤ margin →
      SlotIs mods ar (margin + k) (B.insertionSort (· ≤ ·))[k - 1]?) :
    best (· ≤ ·) margin B = best (· ≤ ·) margin H := by
  apply List.ext_getElem?
  intro i
  by_cases hi : i < margin
  · rw [best_getElem? hi, best_getElem? hi]
    exact (hhigh (i + 1) (Nat.succ_pos i) hi).unique (h.slots.2.2 (i + 1) (Nat.succ_pos i) hi)
  · rw [List.getElem?_eq_none, List.getElem?_eq_none]
    · exact (length_best_le _ _ _).trans (not_lt.mp hi)
    · exact (length_best_le _ _ _).trans (not_lt.mp hi)

/-- The array that the loops leave. -/
theorem window_of_range (hms : ∀ p ∈ mods.zipIdx, Readable mods addr p)
    (hfits : 2 * margin + 1 < 2 ^ 31)
    (hends : 0 < margin → LoopsEnd addr margin [] (containing mods addr))
    (hzero : margin = 0 → ∀ t ∈ (containing mods addr).takeWhile (AllAbove addr),
      t.nentries < 2) :
    ∃ ar H, cexpSymLkAddrRange mods addr margin = some ar ∧
      Window mods margin ar ((containing mods addr).flatMap (seenBelow addr)) H ∧
      (0 < margin → H = (containing mods addr).flatMap (seenAbove addr)) := by
  cases margin with
  | zero =>
    obtain ⟨ar, hrun, hbelow⟩ := range_zero hms (hzero rfl)
    refine ⟨ar, [], hrun, ⟨ar, [], (List.append_nil ar).symm, hbelow, ?_⟩, fun h => ?_⟩
    · simp [Keys, farFirst, best]
    · cases h
  | succ k =>
    obtain ⟨ar, hrun, hwin⟩ := range_pos hms hfits (hends (Nat.succ_pos k))
    exact ⟨ar, _, hrun, hwin, fun _ => rfl⟩

section

variable (hindexed : ∀ m ∈ mods, m.symtbl.Indexed)

include hindexed

theorem containing_indexed : ∀ t ∈ containing mods addr, t.Indexed := by
  intro t ht
  obtain ⟨⟨m, mod⟩, hp, rfl⟩ := List.mem_map.mp ht
  have hmod := List.mem_zipIdx_iff_getElem?.mp (List.mem_filter.mp hp).1
  exact hindexed m (List.mem_of_getElem? hmod)

theorem system_nonempty {ar : List (Option CexpSymAIdx)}
    (hrun : cexpSymLkAddrRange mods addr margin = some ar) :
    ∀ m ∈ mods.head?, 0 < m.symtbl.nentries := by
  intro m hm
  by_contra hzero
  have hmod : mods[0]? = some m := by
    rw [← List.head?_eq_getElem?]
    exact hm
  have hp : (m, 0) ∈ mods.zipIdx := List.mem_zipIdx_iff_getElem?.mpr hmod
  have hfault := @range_fault mods addr margin _ hp (rangeStep_empty hmod
    (hindexed m (List.mem_of_getElem? hmod)) (Nat.eq_zero_of_not_pos hzero) (.inl rfl))
  rw [hrun] at hfault
  cases hfault

theorem containing_nonempty {ar : List (Option CexpSymAIdx)}
    (hrun : cexpSymLkAddrRange mods addr margin = some ar) :
    ∀ t ∈ containing mods addr, 0 < t.nentries := by
  intro t ht
  by_contra hzero
  obtain ⟨⟨m, mod⟩, hp, rfl⟩ := List.mem_map.mp ht
  obtain ⟨hp, hin⟩ := List.mem_filter.mp hp
  have hmod : mods[mod]? = some m := List.mem_zipIdx_iff_getElem?.mp hp
  have hfault := @range_fault mods addr margin _ hp (rangeStep_empty hmod
    (hindexed m (List.mem_of_getElem? hmod)) (Nat.eq_zero_of_not_pos hzero)
    (.inr (of_decide_eq_true hin)))
  rw [hrun] at hfault
  cases hfault

theorem search_of_range {ar : List (Option CexpSymAIdx)}
    (hrun : cexpSymLkAddrRange mods addr margin = some ar) :
    ∀ t ∈ containing mods addr, SearchFits addr t := by
  intro t ht
  by_contra hnot
  have hpos := containing_nonempty hindexed hrun t ht
  obtain ⟨⟨m, mod⟩, hp, rfl⟩ := List.mem_map.mp ht
  obtain ⟨hp, hin⟩ := List.mem_filter.mp hp
  have hmod : mods[mod]? = some m := List.mem_zipIdx_iff_getElem?.mp hp
  have hfault := @range_fault mods addr margin _ hp (rangeStep_search
    (hindexed m (List.mem_of_getElem? hmod)) hpos (of_decide_eq_true hin) hnot)
  rw [hrun] at hfault
  cases hfault

theorem readable_of_range {ar : List (Option CexpSymAIdx)}
    (hrun : cexpSymLkAddrRange mods addr margin = some ar) :
    ∀ p ∈ mods.zipIdx, Readable mods addr p :=
  readable hindexed (system_nonempty hindexed hrun) (containing_nonempty hindexed hrun)
    (search_of_range hindexed hrun)

/-- With a margin of zero, a table that does harm leaves an entry above in the middle slot, where
there should be one that is not above, or none. -/
theorem zero_of_right (h : RangeRight mods addr 0) :
    ∀ t ∈ (containing mods addr).takeWhile (AllAbove addr), t.nentries < 2 := by
  obtain ⟨ar, hrun, -, hlow, -⟩ := h.range
  by_contra hbad
  simp only [not_forall, Nat.not_lt] at hbad
  obtain ⟨t, ht, htwo⟩ := hbad
  obtain ⟨a, hkeys, ha⟩ := range_spoilt (readable_of_range hindexed hrun) ⟨t, ht, htwo⟩ hrun
  have heq := (hlow 0 (Nat.le_refl 0)).unique (hkeys.slot rfl)
  have hmem := (List.mem_insertionSort _).mp (List.mem_of_getElem? heq)
  obtain ⟨t, -, hmem⟩ := List.mem_flatMap.mp hmem
  exact absurd (of_decide_eq_true (List.mem_filter.mp hmem).2) (BitVec.not_le.mpr ha)

theorem safe_of_right (h : RangeRight mods addr margin) : RangeSafe mods addr margin := by
  obtain ⟨ar, hrun, -, hlow, hhigh⟩ := h.range
  have hms := readable_of_range hindexed hrun
  have hends : 0 < margin → LoopsEnd addr margin [] (containing mods addr) := by
    intro hpos
    obtain ⟨k, rfl⟩ : ∃ k, margin = k + 1 := ⟨margin - 1, by omega⟩
    exact loops_end hms hrun
  have hzero : margin = 0 → ∀ t ∈ (containing mods addr).takeWhile (AllAbove addr),
      t.nentries < 2 := by
    rintro rfl
    exact zero_of_right hindexed h
  obtain ⟨ar', H, hrun', hwin, hH⟩ := window_of_range hms (lkAddrRange_fits hrun) hends hzero
  rw [hrun] at hrun'
  cases hrun'
  refine ⟨lkAddrRange_fits hrun, system_nonempty hindexed hrun, containing_nonempty hindexed hrun,
    search_of_range hindexed hrun, hends, ?_, hzero, fun hpos => ?_⟩
  · exact (best_flatMap_iff (below_perm addr) _).mp (hwin.best_low hlow)
  · have hbest := hwin.best_high hhigh
    rw [hH hpos] at hbest
    exact (best_flatMap_iff (above_perm addr) _).mp hbest

theorem right_of_safe (h : RangeSafe mods addr margin) : RangeRight mods addr margin := by
  have hms := readable hindexed h.system h.nonempty h.search
  obtain ⟨ar, H, hrun, hwin, hH⟩ := window_of_range hms h.fits h.ends h.zero
  obtain ⟨hlen, hlow, hhigh⟩ := hwin.slots
  have hbelow : best (· ≥ ·) (margin + 1) (below mods addr) = _ :=
    (best_flatMap_iff (below_perm addr) _).mpr h.below
  refine rangeRight_of_slots hrun hlen ?_ ?_
  · intro k hk
    rw [← best_getElem? (Nat.lt_succ_of_le hk), hbelow, best_getElem? (Nat.lt_succ_of_le hk)]
    exact hlow k hk
  · intro k hk hle
    have hpos : 0 < margin := hk.trans_le hle
    have habove : best (· ≤ ·) margin (above mods addr) = _ :=
      (best_flatMap_iff (above_perm addr) _).mpr (h.pos hpos)
    have hslot := hhigh k hk hle
    rw [hH hpos] at hslot
    rw [← best_getElem? (show k - 1 < margin by omega), habove, best_getElem? (by omega)]
    exact hslot

end

/-- What `cexpSymLkAddrRange` gives is right exactly if no table that is looked at is empty, the
numbers fit, and what the loops do not see does no harm. -/
theorem addr_range_iff (hindexed : ∀ m ∈ mods, m.symtbl.Indexed) :
    RangeRight mods addr margin ↔ RangeSafe mods addr margin :=
  ⟨safe_of_right hindexed, right_of_safe hindexed⟩

end

/-! ### A module that begins above the address -/

/-- A table with symbols at the given addresses. -/
def tableAt (as : List (BitVec 64)) : CexpAddrTbl where
  nentries := as.length
  syms := as.map fun a => { newSym CStr.empty with value := ⟨a, CexpType.TVoid⟩ }
  aindex := List.range as.length

theorem tableAt_indexed {as : List (BitVec 64)} (h : as.Pairwise (· ≤ ·)) :
    (tableAt as).Indexed := by
  have hptv : ∀ i, (tableAt as).ptv i = as[i]? := by
    intro i
    by_cases hi : i < as.length
    · simp [tableAt, CexpAddrTbl.ptv, CexpAddrTbl.sym, hi]
    · simp [tableAt, CexpAddrTbl.ptv, CexpAddrTbl.sym, hi]
  refine ⟨List.Perm.refl _, by simp [tableAt], ?_⟩
  intro i j a b hij ha hb
  rw [hptv] at ha hb
  obtain ⟨hi, rfl⟩ := List.getElem?_eq_some_iff.mp ha
  obtain ⟨hj, rfl⟩ := List.getElem?_eq_some_iff.mp hb
  rcases Nat.eq_or_lt_of_le hij with rfl | hlt
  · exact BitVec.le_refl _
  · exact List.pairwise_iff_getElem.mp h i j hi hj hlt

/-- The system module, and a module whose memory begins before its first symbol. -/
def twoModules (as : List (BitVec 64)) : List AddrModule :=
  [⟨CStr.empty, [], tableAt [0x1000]⟩, ⟨CStr.empty, [⟨0x5000, 0, 0x1000⟩], tableAt as⟩]

theorem twoModules_indexed {as : List (BitVec 64)} (h : as.Pairwise (· ≤ ·)) :
    ∀ m ∈ twoModules as, m.symtbl.Indexed := by
  intro m hm
  rcases List.mem_pair.mp hm with rfl | rfl
  · exact tableAt_indexed (List.pairwise_singleton _ _)
  · exact tableAt_indexed h

/-- An address behind the first symbol. -/
theorem addr_range_inside : RangeRight (twoModules [0x5100, 0x5200]) 0x5180 0 := by
  have hindexed := @twoModules_indexed [0x5100, 0x5200] (by decide)
  have hsmall : ∀ t ∈ containing (twoModules [0x5100, 0x5200]) 0x5180,
      0 < t.nentries ∧ t.nentries ≤ 2 ^ 30 := by decide
  apply (addr_range_iff hindexed).mpr
  constructor
  · decide
  · decide
  · exact fun t ht => (hsmall t ht).1
  · intro t ht
    obtain ⟨hpos, hle⟩ := hsmall t ht
    exact .inl ((covered_le hpos).trans hle)
  · exact fun h => absurd h (Nat.lt_irrefl 0)
  · intro t ht a ha
    obtain ⟨hpos, hle⟩ := hsmall t ht
    rw [unseenBelow_small (containing_indexed hindexed t ht) hpos (hle.trans (by decide))] at ha
    cases ha
  · decide
  · exact fun h => absurd h (Nat.lt_irrefl 0)

/-- An address before it: `cexpAddrFind` gives the second symbol. -/
theorem symbol_above_found : (∀ m ∈ twoModules [0x5100, 0x5200], m.symtbl.Indexed) ∧
    (cexpAddrFind (twoModules [0x5100, 0x5200]) 0x5010 64).map (Option.map Prod.snd) =
      some (some 0x5200) ∧
    ¬RangeRight (twoModules [0x5100, 0x5200]) 0x5010 0 := by
  have hindexed := @twoModules_indexed [0x5100, 0x5200] (by decide)
  refine ⟨hindexed, ?_, ?_⟩
  · have hcli : cexpSymTblLkAddrIdx 0x5010 0 false (tableAt [0x5100, 0x5200]) = some (0, []) := by
      rw [lkAddrIdx_quiet]
      show (lkAddrLoop 0x5010 (tableAt [0x5100, 0x5200]) 0 1).map (·, []) = some (0, [])
      rw [lkAddrLoop, if_pos (by decide), if_pos (by decide)]
      show (lkAddrLoop 0x5010 (tableAt [0x5100, 0x5200]) 0 0).map (·, []) = some (0, [])
      rw [lkAddrLoop, if_neg (by decide)]
      rfl
    have hstep := @rangeStep_eq (twoModules [0x5100, 0x5200])
      ⟨CStr.empty, [⟨0x5000, 0, 0x1000⟩], tableAt [0x5100, 0x5200]⟩ 1 0x5010 0 0 [none] [none]
      (by decide) hcli (by decide)
    have hout := @rangeStep_out (twoModules [0x5100, 0x5200]) 0x5010 0
      (⟨CStr.empty, [], tableAt [0x1000]⟩, 0) [none] (by decide)
    have hrun : cexpSymLkAddrRange (twoModules [0x5100, 0x5200]) 0x5010 0 =
        some [some ⟨1, 1⟩] := by
      show List.foldlM (rangeStep (twoModules [0x5100, 0x5200]) 0x5010 0) [none]
        [(⟨CStr.empty, [], tableAt [0x1000]⟩, 0),
          (⟨CStr.empty, [⟨0x5000, 0, 0x1000⟩], tableAt [0x5100, 0x5200]⟩, 1)] = _
      rw [List.foldlM_cons, hout]
      show List.foldlM (rangeStep (twoModules [0x5100, 0x5200]) 0x5010 0) [none]
        [(⟨CStr.empty, [⟨0x5000, 0, 0x1000⟩], tableAt [0x5100, 0x5200]⟩, 1)] = _
      rw [List.foldlM_cons, hstep]
      decide
    obtain ⟨r, hr, hptv⟩ := @find_of_range _ _ _ (some 0x5200) hrun ⟨_, rfl, by decide⟩ 64
    rw [hr, Option.map_some, hptv]
  · intro h
    exact absurd (zero_of_right hindexed h) (by decide)

end Cexp
