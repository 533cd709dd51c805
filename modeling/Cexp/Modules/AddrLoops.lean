import Cexp.Modules.AddrRange

/-!
# The loops over the addresses of a module

Both loops of `cexpSymLkAddrRange` keep the nearest of the addresses they have seen. The one over
the addresses above may run out of numbers (`nearLoop_spec`). What they see of a table are its
entries that are not above the address, as far as the search covers them, and those that are above
it, but not its first one (`table_seen`). With a margin they end exactly if there are enough of
these before the numbers do (`rangeStep_spec`); without one, an entry above gets into the slot of
the one below if that is empty (`rangeStep_below`, `rangeStep_spoils`).
-/

namespace Cexp

open CLib

/-! ## One table -/

section

variable {t : CexpAddrTbl} {addr : BitVec 64}

theorem map_some_ptvs (ht : t.Indexed) :
    t.ptvs.map some = (List.range t.nentries).map t.ptv := by
  have hsome : ∀ i ∈ List.range t.nentries, (t.ptv i).isSome = true :=
    fun i hi => ht.ptv_isSome_iff.mpr (List.mem_range.mp hi)
  rw [CexpAddrTbl.ptvs]
  generalize List.range t.nentries = is at hsome
  induction is with
  | nil => rfl
  | cons i is ih =>
    obtain ⟨a, ha⟩ := Option.isSome_iff_exists.mp (hsome i List.mem_cons_self)
    rw [List.filterMap_cons_some ha, List.map_cons, List.map_cons, ha,
      ih fun j hj => hsome j (List.mem_cons_of_mem i hj)]

theorem length_ptvs (ht : t.Indexed) : t.ptvs.length = t.nentries := by
  have h := congrArg List.length (map_some_ptvs ht)
  rwa [List.length_map, List.length_map, List.length_range] at h

theorem ptv_eq (ht : t.Indexed) (i : Nat) : t.ptv i = t.ptvs[i]? := by
  by_cases hi : i < t.nentries
  · have h := congrArg (·[i]?) (map_some_ptvs ht)
    simp only [List.getElem?_map, List.getElem?_range hi, Option.map_some] at h
    obtain ⟨a, ha, hsome⟩ := Option.map_eq_some_iff.mp h
    rw [ha, ← hsome]
  · rw [List.getElem?_eq_none (by rw [length_ptvs ht]; omega)]
    by_contra hne
    exact hi (ht.ptv_isSome_iff.mp (Option.isSome_iff_ne_none.mpr hne))

theorem pairwise_ptvs (ht : t.Indexed) : t.ptvs.Pairwise (· ≤ ·) := by
  rw [List.pairwise_iff_getElem]
  intro i j hi hj hij
  apply ht.sorted i j _ _ (Nat.le_of_lt hij)
  · rw [ptv_eq ht, List.getElem?_eq_getElem hi]
  · rw [ptv_eq ht, List.getElem?_eq_getElem hj]

theorem allAbove_iff : AllAbove addr t = true ↔ ∀ a ∈ t.ptvs, addr < a := by
  rw [AllAbove, List.all_eq_true]
  exact forall₂_congr fun a _ => decide_eq_true_iff

theorem ptvs_le (ht : t.Indexed) {i j : Nat} {a b : BitVec 64} (hij : i ≤ j)
    (ha : t.ptvs[i]? = some a) (hb : t.ptvs[j]? = some b) : a ≤ b := by
  rw [← ptv_eq ht] at ha hb
  exact ht.sorted i j a b hij ha hb

theorem filter_eq_take {p : BitVec 64 → Bool} {as : List (BitVec 64)} {i : Nat}
    (hin : ∀ a ∈ as.take i, p a = true) (hout : ∀ a ∈ as.drop i, p a = false) :
    as.filter p = as.take i := by
  conv_lhs => rw [← List.take_append_drop i as]
  rw [List.filter_append, List.filter_eq_self.mpr hin,
    List.filter_eq_nil_iff.mpr fun a ha => by rw [hout a ha]; exact Bool.false_ne_true,
    List.append_nil]

theorem filter_eq_drop {p : BitVec 64 → Bool} {as : List (BitVec 64)} {i : Nat}
    (hin : ∀ a ∈ as.take i, p a = false) (hout : ∀ a ∈ as.drop i, p a = true) :
    as.filter p = as.drop i := by
  conv_lhs => rw [← List.take_append_drop i as]
  rw [List.filter_append, List.filter_eq_self.mpr hout,
    List.filter_eq_nil_iff.mpr fun a ha => by rw [hin a ha]; exact Bool.false_ne_true,
    List.nil_append]

theorem seenBelow_of_allAbove (h : AllAbove addr t = true) : seenBelow addr t = [] :=
  List.filter_eq_nil_iff.mpr fun a ha => by
    simpa using BitVec.not_le.mpr (allAbove_iff.mp h a (List.mem_of_mem_take ha))

theorem unseenBelow_of_allAbove (h : AllAbove addr t = true) : unseenBelow addr t = [] :=
  List.filter_eq_nil_iff.mpr fun a ha => by
    simpa using BitVec.not_le.mpr (allAbove_iff.mp h a (List.mem_of_mem_drop ha))

/-- The search covers all entries of a table that an `int` can number. -/
theorem unseenBelow_small (ht : t.Indexed) (hpos : 0 < t.nentries) (h : t.nentries ≤ 2 ^ 31) :
    unseenBelow addr t = [] := by
  rw [unseenBelow, covered_of_le hpos h, List.drop_of_length_le (length_ptvs ht).le]
  rfl

theorem seenBelow_le : ∀ a ∈ seenBelow addr t, a ≤ addr :=
  fun _ ha => of_decide_eq_true (List.mem_filter.mp ha).2

theorem seenAbove_above : ∀ a ∈ seenAbove addr t, addr < a := by
  intro a ha
  rw [seenAbove] at ha
  split at ha
  · next hall => exact allAbove_iff.mp hall a (List.mem_of_mem_tail ha)
  · split at ha
    · exact of_decide_eq_true (List.mem_filter.mp ha).2
    · cases ha

/-- What the loops see of a table if the search has ended with the entry `cli`. -/
structure Seen (addr : BitVec 64) (t : CexpAddrTbl) (cli : Nat) : Prop where
  inside : cli < t.nentries
  small : cli < 2 ^ 30
  below : AllAbove addr t = false → seenBelow addr t = t.ptvs.take (cli + 1)
  first : AllAbove addr t = true → cli = 0
  above : unseenBelow addr t = [] → seenAbove addr t = t.ptvs.drop (cli + 1)
  stop : unseenBelow addr t ≠ [] →
    seenAbove addr t = [] ∧ ∃ a, t.ptvs[cli + 1]? = some a ∧ a ≤ addr

/-- If all entries are above, then the search ends with the first one. -/
theorem seen_of_allAbove (hall : AllAbove addr t = true) (hpos : 0 < t.nentries) :
    Seen addr t 0 := by
  refine ⟨hpos, by decide, fun h => ?_, fun _ => rfl, fun _ => ?_, fun h => ?_⟩
  · rw [hall] at h
    cases h
  · rw [seenAbove, if_pos hall, List.drop_one]
  · exact absurd (unseenBelow_of_allAbove hall) h

/-- If not all are, then what the search ends with is not above. -/
theorem Bracket.not_above (ht : t.Indexed) (hall : ¬AllAbove addr t = true) {n cli : Nat}
    (hbr : Bracket t addr n cli cli) : ∀ a, t.ptvs[cli]? = some a → a ≤ addr := by
  intro a ha
  rcases hbr.below with rfl | ⟨b, hb, hle⟩
  · by_contra hgt
    apply hall
    rw [allAbove_iff]
    intro b hb
    obtain ⟨i, hi⟩ := List.getElem?_of_mem hb
    exact Std.lt_of_lt_of_le (BitVec.not_le.mp hgt) (ptvs_le ht (Nat.zero_le i) ha hi)
  · rw [ptv_eq ht, ha] at hb
    cases hb
    exact hle

/-- Neither is any entry before it. -/
theorem Bracket.take_le (ht : t.Indexed) (hall : ¬AllAbove addr t = true) {n cli : Nat}
    (hin : cli < t.nentries) (hbr : Bracket t addr n cli cli) :
    ∀ a ∈ t.ptvs.take (cli + 1), a ≤ addr := by
  have hlen := length_ptvs ht
  have hcli := hbr.not_above ht hall _ (List.getElem?_eq_getElem (by omega))
  intro a ha
  obtain ⟨i, hi, rfl⟩ := List.mem_take_iff_getElem.mp ha
  have hle := ptvs_le ht (show i ≤ cli by omega) (List.getElem?_eq_getElem (by omega))
    (List.getElem?_eq_getElem (show cli < t.ptvs.length by omega))
  exact BitVec.le_trans hle hcli

section

variable {cli : Nat} (hbr : Bracket t addr (covered t.nentries) cli cli)
include hbr

theorem Bracket.behind (ht : t.Indexed) {i : Nat} {a : BitVec 64} (hi : cli < i)
    (hic : i < covered t.nentries) (ha : t.ptvs[i]? = some a) : addr < a := by
  rw [← ptv_eq ht] at ha
  exact hbr.above i a hi hic ha

theorem Bracket.seenBelow_eq (ht : t.Indexed) (hall : ¬AllAbove addr t = true)
    (hin : cli < t.nentries) (hlt : cli < covered t.nentries) :
    seenBelow addr t = t.ptvs.take (cli + 1) := by
  have htake : (t.ptvs.take (covered t.nentries)).take (cli + 1) = t.ptvs.take (cli + 1) := by
    rw [List.take_take, Nat.min_eq_left hlt]
  rw [seenBelow, filter_eq_take (i := cli + 1), htake]
  · intro a ha
    rw [htake] at ha
    exact decide_eq_true (hbr.take_le ht hall hin a ha)
  · intro a ha
    obtain ⟨i, hi⟩ := List.getElem?_of_mem ha
    rw [List.getElem?_drop, List.getElem?_take] at hi
    split at hi
    · next hic =>
      exact decide_eq_false (BitVec.not_le.mpr (hbr.behind ht (by omega) hic hi))
    · cases hi

theorem Bracket.seenAbove_eq (ht : t.Indexed) (hall : ¬AllAbove addr t = true)
    (hin : cli < t.nentries) (hnone : unseenBelow addr t = []) :
    seenAbove addr t = t.ptvs.drop (cli + 1) := by
  rw [seenAbove, if_neg hall, if_pos hnone]
  apply filter_eq_drop
  · exact fun a ha => decide_eq_false (BitVec.not_lt.mpr (hbr.take_le ht hall hin a ha))
  · intro a ha
    obtain ⟨i, hi⟩ := List.getElem?_of_mem ha
    rw [List.getElem?_drop] at hi
    apply decide_eq_true
    rcases Nat.lt_or_ge (cli + 1 + i) (covered t.nentries) with hic | hic
    · exact hbr.behind ht (by omega) hic hi
    · have hmem : a ∈ t.ptvs.drop (covered t.nentries) := by
        apply List.mem_of_getElem? (i := cli + 1 + i - covered t.nentries)
        rw [List.getElem?_drop, Nat.add_sub_cancel' hic]
        exact hi
      have hnot := List.filter_eq_nil_iff.mp hnone a hmem
      exact BitVec.not_le.mp (by simpa using hnot)

end

/-- An entry that the search does not cover is not above, and then none before it is. -/
theorem unseen_stops (ht : t.Indexed) (hall : ¬AllAbove addr t = true) {cli : Nat}
    (hlt : cli < covered t.nentries) (hsome : unseenBelow addr t ≠ []) :
    seenAbove addr t = [] ∧ ∃ a, t.ptvs[cli + 1]? = some a ∧ a ≤ addr := by
  obtain ⟨b, hb⟩ := List.exists_mem_of_ne_nil _ hsome
  obtain ⟨hmem, hble⟩ := List.mem_filter.mp hb
  obtain ⟨j, hj⟩ := List.getElem?_of_mem hmem
  rw [List.getElem?_drop] at hj
  have hin := (List.getElem?_eq_some_iff.mp hj).1
  have hbefore : ∀ i a, i ≤ covered t.nentries + j → t.ptvs[i]? = some a → a ≤ addr :=
    fun i a hi ha => BitVec.le_trans (ptvs_le ht hi ha hj) (of_decide_eq_true hble)
  have hnext := List.getElem?_eq_getElem (show cli + 1 < t.ptvs.length by omega)
  refine ⟨?_, _, hnext, hbefore _ _ (by omega) hnext⟩
  rw [seenAbove, if_neg hall, if_neg hsome]

/-- Where the search ends: the loops see the entries that are not above the address, as far as it
covers them, and those that are above it but the first of the table. -/
theorem table_seen (ht : t.Indexed) (hpos : 0 < t.nentries) (hfits : SearchFits addr t) :
    ∃ cli, cexpSymTblLkAddrIdx addr 0 false t = some (cli, []) ∧ Seen addr t cli := by
  obtain ⟨⟨cli, printed⟩, hcli⟩ := (lkAddrIdx_isSome_iff ht hpos 0).mpr hfits
  obtain ⟨hlt, hsmall, hbr⟩ := lkAddrIdx_found ht hpos hcli
  have hnil : printed = [] := by
    rw [lkAddrIdx_quiet] at hcli
    obtain ⟨r, -, hr⟩ := Option.map_eq_some_iff.mp hcli
    exact (congrArg Prod.snd hr).symm
  subst hnil
  refine ⟨cli, hcli, ?_⟩
  dsimp only at hlt hsmall hbr
  have hin : cli < t.nentries := hlt.trans_le (covered_le hpos)
  by_cases hall : AllAbove addr t = true
  · have hzero : cli = 0 := by
      rcases hbr.below with h | ⟨a, ha, hle⟩
      · exact h
      · rw [ptv_eq ht] at ha
        have habove := allAbove_iff.mp hall a (List.mem_of_getElem? ha)
        exact absurd hle (BitVec.not_le.mpr habove)
    rw [hzero]
    exact seen_of_allAbove hall hpos
  · exact
      { inside := hin
        small := hsmall
        below := fun _ => hbr.seenBelow_eq ht hall hin hlt
        first := fun h => absurd h hall
        above := hbr.seenAbove_eq ht hall hin
        stop := unseen_stops ht hall hlt }

end

/-! ## The loops -/

/-- The addresses of the entries in some slots. -/
def Keys (mods : List AddrModule) (ar : List (Option CexpSymAIdx))
    (as : List (Option (BitVec 64))) : Prop :=
  ar.map (Option.map (gaddr mods)) = as.map (Option.map some)

section

variable {mods : List AddrModule}

theorem Keys.length {ar : List (Option CexpSymAIdx)} {as : List (Option (BitVec 64))}
    (h : Keys mods ar as) : ar.length = as.length := by
  have hlen := congrArg List.length h
  rwa [List.length_map, List.length_map] at hlen

theorem Keys.cons {o : Option CexpSymAIdx} {a : Option (BitVec 64)}
    {ar : List (Option CexpSymAIdx)} {as : List (Option (BitVec 64))}
    (ho : o.map (gaddr mods) = a.map some) (h : Keys mods ar as) :
    Keys mods (o :: ar) (a :: as) := by
  rw [Keys, List.map_cons, List.map_cons, ho, h]

theorem Keys.append {ar ar' : List (Option CexpSymAIdx)} {as as' : List (Option (BitVec 64))}
    (h : Keys mods ar as) (h' : Keys mods ar' as') : Keys mods (ar ++ ar') (as ++ as') := by
  rw [Keys, List.map_append, List.map_append, h, h']

theorem Keys.reverse {ar : List (Option CexpSymAIdx)} {as : List (Option (BitVec 64))}
    (h : Keys mods ar as) : Keys mods ar.reverse as.reverse := by
  rw [Keys, List.map_reverse, List.map_reverse, h]

theorem Keys.slot {ar : List (Option CexpSymAIdx)} {as : List (Option (BitVec 64))}
    (h : Keys mods ar as) {i : Nat} {a : Option (BitVec 64)} (ha : as[i]? = some a) :
    SlotIs mods ar i a := by
  have hget := congrArg (·[i]?) h
  simp only [List.getElem?_map, ha, Option.map_some] at hget
  exact Option.map_eq_some_iff.mp hget

theorem Keys.cases {ar : List (Option CexpSymAIdx)} {a : Option (BitVec 64)}
    {as : List (Option (BitVec 64))} (h : Keys mods ar (a :: as)) :
    ∃ o ar', ar = o :: ar' ∧ o.map (gaddr mods) = a.map some ∧ Keys mods ar' as := by
  cases ar with
  | nil => exact absurd h.length (by simp)
  | cons o ar' =>
    rw [Keys, List.map_cons, List.map_cons, List.cons.injEq] at h
    exact ⟨o, ar', rfl, h.1, h.2⟩

/-- The new entry comes behind the slots that it passes. -/
theorem shiftSlots_spec {pass : BitVec 64 → Bool} {e : CexpSymAIdx} {x : BitVec 64}
    (he : gaddr mods e = some x) (rest : List (Option CexpSymAIdx))
    {seg : List (Option CexpSymAIdx)} {as : List (Option (BitVec 64))} (h : Keys mods seg as) :
    ∃ seg', shiftSlots mods pass e as.length (seg ++ rest) = some (seg' ++ rest) ∧
      Keys mods seg' (as.takeWhile (fun o => o.all pass) ++
        some x :: as.dropWhile fun o => o.all pass) := by
  have hx : (some e).map (gaddr mods) = (some x).map some := congrArg some he
  induction as generalizing seg with
  | nil =>
    have hnil : seg = [] := List.length_eq_zero_iff.mp h.length
    subst hnil
    exact ⟨[some e], rfl, Keys.cons hx rfl⟩
  | cons a as ih =>
    obtain ⟨o, seg, rfl, ho, hseg⟩ := h.cases
    obtain ⟨seg', hrun, hkeys⟩ := ih hseg
    cases a with
    | none =>
      cases o with
      | some f => cases ho
      | none =>
        refine ⟨none :: seg', ?_, ?_⟩
        · rw [List.length_cons, List.cons_append, shiftSlots, hrun]
          rfl
        · rw [List.takeWhile_cons_of_pos (by rfl), List.dropWhile_cons_of_pos (by rfl)]
          exact hkeys.cons rfl
    | some a =>
      cases o with
      | none => cases ho
      | some f =>
        have hf : gaddr mods f = some a := Option.some.inj ho
        by_cases hpass : pass a = true
        · refine ⟨some f :: seg', ?_, ?_⟩
          · rw [List.length_cons, List.cons_append, shiftSlots, hf, hrun]
            exact if_pos hpass
          · have hall : (fun o : Option (BitVec 64) => o.all pass) (some a) = true := hpass
            rw [List.takeWhile_cons_of_pos hall, List.dropWhile_cons_of_pos hall]
            exact hkeys.cons ho
        · refine ⟨some e :: some f :: seg, ?_, ?_⟩
          · rw [List.length_cons, List.cons_append, shiftSlots, hf]
            exact if_neg hpass
          · have hall : ¬(fun o : Option (BitVec 64) => o.all pass) (some a) = true := hpass
            rw [List.takeWhile_cons_of_neg hall, List.dropWhile_cons_of_neg hall]
            exact (hseg.cons ho).cons hx

variable {le : BitVec 64 → BitVec 64 → Prop} [DecidableRel le] [IsTrans (BitVec 64) le]
  [Std.Total le] [Std.Antisymm le] {stop : BitVec 64 → Bool} {noLimit : BitVec 64}

/-- The limit that a step compares with. -/
theorem nearStep_eq {far : BitVec 64 → BitVec 64 → Bool} {k : Nat} {e : CexpSymAIdx}
    {x lim : BitVec 64} (he : gaddr mods e = some x) {o : Option CexpSymAIdx}
    {ar : List (Option CexpSymAIdx)} (ho : (o.map (gaddr mods)).getD (some noLimit) = some lim) :
    nearStep mods stop far noLimit k e (o :: ar) =
      if stop x || far x lim then some (false, o :: ar)
      else (shiftSlots mods (fun a => far a x) e k ar).map (true, ·) := by
  have hlim : limitOf mods noLimit (o :: ar) = some lim := by
    cases o with
    | none => exact ho
    | some f => exact ho
  rw [nearStep, he]
  show (limitOf mods noLimit (o :: ar)).bind _ = _
  rw [hlim]
  show (if (stop x || far x lim) = true then some (false, o :: ar)
    else (shiftSlots mods (fun a => far a x) e k ar).bind fun r => some (true, r)) = _
  rw [Option.map_eq_bind]
  rfl

/-- The entries that are nearer than a new one are shifted, if it is to be one of the nearest. -/
theorem shiftSlots_best {k : Nat} {e : CexpSymAIdx} {x : BitVec 64} (he : gaddr mods e = some x)
    {L : List (BitVec 64)} {seg : List (Option CexpSymAIdx)}
    (h : Keys mods seg (farFirst (k + 1) (best le (k + 1) L))) (rest : List (Option CexpSymAIdx))
    (hroom : (best le (k + 1) L).length < k + 1 ∨ ∃ l ∈ (best le (k + 1) L).getLast?, le x l) :
    ∃ seg', shiftSlots mods (fun a => !decide (le a x)) e k (seg.tail ++ rest) =
        some (seg' ++ rest) ∧
      Keys mods seg' (farFirst (k + 1) (best le (k + 1) (x :: L))) := by
  have hle := length_best_le le (k + 1) L
  have htail : Keys mods seg.tail (farFirst (k + 1) (best le (k + 1) L)).tail := by
    rw [Keys, List.map_tail, List.map_tail, h]
  obtain ⟨seg', hrun, hkeys⟩ :=
    @shiftSlots_spec mods (fun a => !decide (le a x)) e x he rest _ _ htail
  rw [List.length_tail, length_farFirst hle, Nat.add_sub_cancel] at hrun
  refine ⟨seg', hrun, ?_⟩
  rw [best_cons, ← farFirst_insert (pairwise_best _ _) hle hroom]
  exact hkeys

/-- While a slot is empty there is no limit. -/
theorem nearStep_room (hlimit : ∀ x, le x noLimit) {k : Nat} {e : CexpSymAIdx} {x : BitVec 64}
    (he : gaddr mods e = some x) (hstop : stop x = false) {L : List (BitVec 64)}
    {seg : List (Option CexpSymAIdx)} (h : Keys mods seg (farFirst (k + 1) (best le (k + 1) L)))
    (rest : List (Option CexpSymAIdx)) (hroom : (best le (k + 1) L).length < k + 1) :
    ∃ seg', nearStep mods stop (fun a b => !decide (le a b)) noLimit k e (seg ++ rest) =
        some (true, seg' ++ rest) ∧
      Keys mods seg' (farFirst (k + 1) (best le (k + 1) (x :: L))) := by
  obtain ⟨c, hc⟩ : ∃ c, k + 1 - (best le (k + 1) L).length = c + 1 :=
    ⟨k - (best le (k + 1) L).length, by omega⟩
  obtain ⟨seg', hrun, hkeys⟩ := shiftSlots_best he h rest (.inl hroom)
  rw [farFirst, hc, List.replicate_succ, List.cons_append] at h
  obtain ⟨o, ar, rfl, ho, -⟩ := h.cases
  have hstep := @nearStep_eq mods stop noLimit (fun a b => !decide (le a b)) k e x noLimit he o
    (ar ++ rest) (by rw [ho]; rfl)
  rw [hstop, decide_eq_true (hlimit x)] at hstep
  refine ⟨seg', ?_, hkeys⟩
  rw [List.tail_cons] at hrun
  rw [List.cons_append, hstep, hrun]
  rfl

/-- If none is empty, then the farthest of the nearest is the limit. -/
theorem nearStep_full {k : Nat} {e : CexpSymAIdx} {x l : BitVec 64} (he : gaddr mods e = some x)
    (hstop : stop x = false) {L near : List (BitVec 64)} {seg : List (Option CexpSymAIdx)}
    (h : Keys mods seg (farFirst (k + 1) (best le (k + 1) L))) (rest : List (Option CexpSymAIdx))
    (hlen : (best le (k + 1) L).length = k + 1) (hlast : best le (k + 1) L = near ++ [l]) :
    if le x l then
      ∃ seg', nearStep mods stop (fun a b => !decide (le a b)) noLimit k e (seg ++ rest) =
          some (true, seg' ++ rest) ∧
        Keys mods seg' (farFirst (k + 1) (best le (k + 1) (x :: L)))
    else nearStep mods stop (fun a b => !decide (le a b)) noLimit k e (seg ++ rest) =
      some (false, seg ++ rest) := by
  have hkeys := h
  rw [farFirst, hlen, Nat.sub_self, hlast, List.reverse_append] at hkeys
  obtain ⟨o, ar, rfl, ho, -⟩ := Keys.cases hkeys
  have hstep := @nearStep_eq mods stop noLimit (fun a b => !decide (le a b)) k e x l he o
    (ar ++ rest) (by rw [ho]; rfl)
  rw [hstop] at hstep
  split
  · next hxl =>
    obtain ⟨seg', hrun, hkeys'⟩ := shiftSlots_best he h rest (.inr ⟨l, by rw [hlast]; simp, hxl⟩)
    rw [decide_eq_true hxl] at hstep
    refine ⟨seg', ?_, hkeys'⟩
    rw [List.tail_cons] at hrun
    rw [List.cons_append, hstep, hrun]
    rfl
  · next hxl =>
    rw [decide_eq_false hxl] at hstep
    exact hstep

/-- One step: the entry is the first that is too far away, or it is one of the nearest. -/
theorem nearStep_spec (hlimit : ∀ x, le x noLimit) {k : Nat} {e : CexpSymAIdx} {x : BitVec 64}
    (he : gaddr mods e = some x) (hstop : stop x = false) {L : List (BitVec 64)}
    {seg : List (Option CexpSymAIdx)} (h : Keys mods seg (farFirst (k + 1) (best le (k + 1) L)))
    (rest : List (Option CexpSymAIdx)) :
    (nearStep mods stop (fun a b => !decide (le a b)) noLimit k e (seg ++ rest) =
        some (false, seg ++ rest) ∧
      (best le (k + 1) L).length = k + 1 ∧ ∀ a ∈ best le (k + 1) L, ¬le x a) ∨
    ∃ seg', nearStep mods stop (fun a b => !decide (le a b)) noLimit k e (seg ++ rest) =
        some (true, seg' ++ rest) ∧
      Keys mods seg' (farFirst (k + 1) (best le (k + 1) (x :: L))) ∧
      L.countP (fun a => !decide (le x a)) ≤ k := by
  have hle := length_best_le le (k + 1) L
  rcases Nat.lt_or_eq_of_le hle with hroom | hlen
  · obtain ⟨seg', hstep, hkeys⟩ := nearStep_room hlimit he hstop h rest hroom
    refine .inr ⟨seg', hstep, hkeys, ?_⟩
    rw [length_best] at hroom
    have hcount := @List.countP_le_length _ (fun a => !decide (le x a)) L
    omega
  · obtain ⟨near, l, hlast⟩ : ∃ near l, best le (k + 1) L = near ++ [l] := by
      rcases List.eq_nil_or_concat (best le (k + 1) L) with hnil | ⟨near, l, hl⟩
      · rw [hnil] at hlen
        cases hlen
      · exact ⟨near, l, hl.trans List.concat_eq_append⟩
    have hfull := @nearStep_full mods le _ _ _ _ stop noLimit k e x l he hstop L near seg h rest
      hlen hlast
    split at hfull
    · next hxl =>
      obtain ⟨seg', hstep, hkeys⟩ := hfull
      refine .inr ⟨seg', hstep, hkeys, ?_⟩
      rw [hlast, List.length_append, List.length_singleton, Nat.add_right_cancel_iff] at hlen
      subst hlen
      exact countP_before_le hlast hxl
    · next hxl =>
      refine .inl ⟨hfull, hlen, fun a ha hxa => ?_⟩
      have hsorted := @pairwise_best _ le _ _ _ (k + 1) L
      rw [hlast] at ha hsorted
      rcases List.mem_append.mp ha with hmem | hmem
      · exact hxl (trans_of le hxa ((List.pairwise_append.mp hsorted).2.2 a hmem l (by simp)))
      · rw [List.mem_singleton.mp hmem] at hxa
        exact hxl hxa

/-- The loop keeps the nearest of what it has seen. Where it ends early, the rest is too far away:
then there is an entry behind enough others. -/
theorem nearLoop_spec (hlimit : ∀ x, le x noLimit) {k : Nat} {es : List CexpSymAIdx}
    {xs L : List (BitVec 64)} (hes : es.map (gaddr mods) = xs.map some) (hxs : xs.Pairwise le)
    (hstop : ∀ x ∈ xs, stop x = false) {seg : List (Option CexpSymAIdx)}
    (h : Keys mods seg (farFirst (k + 1) (best le (k + 1) L)))
    (rest : List (Option CexpSymAIdx)) :
    ∃ seg', Keys mods seg' (farFirst (k + 1) (best le (k + 1) (xs.reverse ++ L))) ∧
      ((∀ wraps, nearLoop mods stop (fun a b => !decide (le a b)) noLimit k wraps es
              (seg ++ rest) = some (seg' ++ rest)) ∧
          (∃ x ∈ xs, k + 1 ≤ (xs.reverse ++ L).countP fun a => !decide (le x a)) ∨
        (∀ wraps, nearLoop mods stop (fun a b => !decide (le a b)) noLimit k wraps es
              (seg ++ rest) = if wraps then none else some (seg' ++ rest)) ∧
          ∀ x ∈ xs, ((xs.reverse ++ L).countP fun a => !decide (le x a)) ≤ k) := by
  induction es generalizing xs L seg with
  | nil =>
    have hnil : xs = [] := by simpa using hes.symm
    subst hnil
    exact ⟨seg, h, .inr ⟨fun _ => rfl, fun x hx => absurd hx List.not_mem_nil⟩⟩
  | cons e es ih =>
    cases xs with
    | nil => cases hes
    | cons x xs =>
      rw [List.map_cons, List.map_cons, List.cons.injEq] at hes
      obtain ⟨hx, hpair⟩ := List.pairwise_cons.mp hxs
      rcases nearStep_spec hlimit hes.1 (hstop x List.mem_cons_self) h rest with
        ⟨hstep, hlen, hfar⟩ | ⟨seg', hstep, hkeys, hcount⟩
      · refine ⟨seg, ?_, .inl ⟨fun wraps => ?_, x, List.mem_cons_self, ?_⟩⟩
        · rw [best_append_of_far hlen]
          · exact h
          · intro y hy a ha
            have hax : le a x := (total_of le a x).resolve_right (hfar a ha)
            rcases List.mem_cons.mp (List.mem_reverse.mp hy) with rfl | hy
            · exact hax
            · exact trans_of le hax (hx y hy)
        · rw [nearLoop, hstep]
          rfl
        · rw [List.countP_append]
          exact (le_countP_of_best hlen fun a ha => by simpa using hfar a ha).trans
            (Nat.le_add_left _ _)
      · obtain ⟨seg'', hkeys', hends⟩ := ih hes.2 hpair
          (fun y hy => hstop y (List.mem_cons_of_mem x hy)) hkeys
        have hlist : (x :: xs).reverse ++ L = xs.reverse ++ x :: L := by
          rw [List.reverse_cons, List.append_assoc]
          rfl
        rw [hlist]
        have hgo : ∀ wraps,
            nearLoop mods stop (fun a b => !decide (le a b)) noLimit k wraps (e :: es)
              (seg ++ rest) =
            nearLoop mods stop (fun a b => !decide (le a b)) noLimit k wraps es (seg' ++ rest) := by
          intro wraps
          rw [nearLoop, hstep]
          rfl
        refine ⟨seg'', hkeys', hends.imp ?_ ?_⟩
        · rintro ⟨hrun, y, hy, hmany⟩
          exact ⟨fun wraps => (hgo wraps).trans (hrun wraps), y, List.mem_cons_of_mem x hy,
            hmany⟩
        · rintro ⟨hrun, hfew⟩
          refine ⟨fun wraps => (hgo wraps).trans (hrun wraps), fun y hy => ?_⟩
          rcases List.mem_cons.mp hy with rfl | hy
          · -- the entry itself and those behind it do not come before it
            have hzero : xs.reverse.countP (fun a => !decide (le y a)) = 0 := by
              rw [List.countP_eq_zero]
              exact fun a ha => by simpa using hx a (List.mem_reverse.mp ha)
            rw [List.countP_append, hzero, List.countP_cons_of_neg (by simpa using refl_of le y),
              Nat.zero_add]
            exact hcount
          · exact hfew y hy

/-- An entry at which the loop ends at once. -/
theorem nearLoop_stop {far : BitVec 64 → BitVec 64 → Bool} {k : Nat} {wraps : Bool}
    {e : CexpSymAIdx} {es : List CexpSymAIdx} {x lim : BitVec 64} (he : gaddr mods e = some x)
    {o : Option CexpSymAIdx} {ar : List (Option CexpSymAIdx)}
    (ho : (o.map (gaddr mods)).getD (some noLimit) = some lim) (h : (stop x || far x lim) = true) :
    nearLoop mods stop far noLimit k wraps (e :: es) (o :: ar) = some (o :: ar) := by
  rw [nearLoop, nearStep_eq he ho, if_pos h]
  rfl

end

/-! ## One module -/

theorem lt_eq_not_ge : (fun a b : BitVec 64 => decide (a < b)) = fun a b => !decide (a ≥ b) := by
  funext a b
  rw [← decide_not]
  exact decide_eq_decide.mpr BitVec.not_le.symm

theorem gt_eq_not_le : (fun a b : BitVec 64 => decide (a > b)) = fun a b => !decide (a ≤ b) := by
  funext a b
  rw [← decide_not]
  exact decide_eq_decide.mpr BitVec.not_le.symm

section

variable {mods : List AddrModule} {m : AddrModule} {mod : Nat} {addr : BitVec 64} {margin : Nat}

theorem gaddr_eq (hmod : mods[mod]? = some m) (ht : m.symtbl.Indexed) (i : Nat) :
    gaddr mods ⟨i, mod⟩ = m.symtbl.ptvs[i]? := by
  rw [gaddr, hmod, Option.bind_some, ptv_eq ht]

theorem map_gaddr_low (hmod : mods[mod]? = some m) (ht : m.symtbl.Indexed) {cli : Nat}
    (hcli : cli < m.symtbl.nentries) :
    ((List.range (cli + 1)).reverse.map fun i => (⟨i, mod⟩ : CexpSymAIdx)).map (gaddr mods) =
      (m.symtbl.ptvs.take (cli + 1)).reverse.map some := by
  rw [List.map_reverse, List.map_reverse, List.map_reverse, List.map_map]
  congr 1
  have hlen := length_ptvs ht
  apply List.ext_getElem
  · simp only [List.length_map, List.length_range, List.length_take]
    omega
  · intro i hi hi'
    simp only [List.length_map, List.length_range] at hi
    simp only [List.getElem_map, List.getElem_range, List.getElem_take, Function.comp_apply]
    rw [gaddr_eq hmod ht, List.getElem?_eq_getElem]

theorem map_gaddr_high (hmod : mods[mod]? = some m) (ht : m.symtbl.Indexed) (i : Nat) :
    ((List.range' i (min m.symtbl.nentries (2 ^ 31) - i)).map fun i =>
        (⟨i, mod⟩ : CexpSymAIdx)).map (gaddr mods) =
      ((m.symtbl.ptvs.take (2 ^ 31)).drop i).map some := by
  rw [List.map_map]
  have hlen := length_ptvs ht
  apply List.ext_getElem
  · simp only [List.length_map, List.length_range', List.length_drop, List.length_take, hlen]
    omega
  · intro j hj hj'
    simp only [List.length_map, List.length_range'] at hj
    simp only [List.getElem_map, List.getElem_range', List.getElem_drop, List.getElem_take,
      Function.comp_apply, Nat.one_mul]
    rw [gaddr_eq hmod ht, List.getElem?_eq_getElem]

/-- The nearest that are not above the address and the nearest above it. -/
def Window (mods : List AddrModule) (margin : Nat) (ar : List (Option CexpSymAIdx))
    (L H : List (BitVec 64)) : Prop :=
  ∃ lo hi, ar = lo ++ hi ∧ Keys mods lo (farFirst (margin + 1) (best (· ≥ ·) (margin + 1) L)) ∧
    Keys mods hi.reverse (farFirst margin (best (· ≤ ·) margin H))

theorem Window.perm {ar : List (Option CexpSymAIdx)} {L L' H H' : List (BitVec 64)}
    (h : Window mods margin ar L H) (hL : L.Perm L') (hH : H.Perm H') :
    Window mods margin ar L' H' := by
  obtain ⟨lo, hi, har, hlo, hhi⟩ := h
  rw [best_perm hL] at hlo
  rw [best_perm hH] at hhi
  exact ⟨lo, hi, har, hlo, hhi⟩

theorem limit_of_keys {noLimit : BitVec 64} {ar : List (Option CexpSymAIdx)}
    {as : List (Option (BitVec 64))} (h : Keys mods ar as) (hne : as ≠ []) :
    ∃ o ar' lim, ar = o :: ar' ∧ (o.map (gaddr mods)).getD (some noLimit) = some lim := by
  cases as with
  | nil => exact absurd rfl hne
  | cons a as =>
    obtain ⟨o, ar', rfl, ho, -⟩ := h.cases
    refine ⟨o, ar', a.getD noLimit, rfl, ?_⟩
    rw [ho]
    cases a <;> rfl

theorem farFirst_ne_nil (k : Nat) {le : BitVec 64 → BitVec 64 → Prop} [DecidableRel le]
    (L : List (BitVec 64)) : farFirst (k + 1) (best le (k + 1) L) ≠ [] := by
  apply List.ne_nil_of_length_pos
  rw [length_farFirst (length_best_le _ _ _)]
  exact Nat.succ_pos k

theorem lowLoop_spec (hmod : mods[mod]? = some m) (ht : m.symtbl.Indexed) {cli : Nat}
    (hseen : Seen addr m.symtbl cli) {L : List (BitVec 64)} {lo : List (Option CexpSymAIdx)}
    (h : Keys mods lo (farFirst (margin + 1) (best (· ≥ ·) (margin + 1) L)))
    (hi : List (Option CexpSymAIdx)) :
    ∃ lo', lowLoop mods addr margin mod cli (lo ++ hi) = some (lo' ++ hi) ∧
      Keys mods lo' (farFirst (margin + 1)
        (best (· ≥ ·) (margin + 1) (seenBelow addr m.symtbl ++ L))) := by
  have hcli := hseen.inside
  cases hall : AllAbove addr m.symtbl with
  | true =>
    -- the first entry ends the loop
    have hpos : 0 < m.symtbl.ptvs.length := by
      rw [length_ptvs ht]
      omega
    have hfirst : gaddr mods ⟨0, mod⟩ = some m.symtbl.ptvs[0] := by
      rw [gaddr_eq hmod ht, List.getElem?_eq_getElem hpos]
    have habove := allAbove_iff.mp hall _ (List.getElem_mem hpos)
    obtain ⟨o, ar, lim, rfl, ho⟩ := @limit_of_keys mods 0 _ _ h (farFirst_ne_nil margin _)
    refine ⟨o :: ar, ?_, ?_⟩
    · rw [lowLoop, hseen.first hall]
      apply nearLoop_stop hfirst ho
      rw [decide_eq_true habove, Bool.true_or]
    · rw [seenBelow_of_allAbove hall]
      exact h
  | false =>
    have hL := hseen.below hall
    have hsorted : (m.symtbl.ptvs.take (cli + 1)).reverse.Pairwise (· ≥ ·) :=
      List.pairwise_reverse.mpr ((pairwise_ptvs ht).sublist (List.take_sublist _ _))
    have hbelow : ∀ x ∈ (m.symtbl.ptvs.take (cli + 1)).reverse, decide (addr < x) = false := by
      intro x hx
      rw [List.mem_reverse, ← hL] at hx
      exact decide_eq_false (BitVec.not_lt.mpr (seenBelow_le x hx))
    obtain ⟨lo', hkeys, hends⟩ := @nearLoop_spec mods (· ≥ ·) _ _ _ _ (addr < ·) 0
      (fun x => BitVec.le_def.mpr (Nat.zero_le _)) margin _ _ L (map_gaddr_low hmod ht hcli)
      hsorted hbelow lo h hi
    rw [List.reverse_reverse, ← hL] at hkeys
    refine ⟨lo', ?_, hkeys⟩
    rw [lowLoop, lt_eq_not_ge]
    rcases hends with ⟨hrun, -⟩ | ⟨hrun, -⟩
    · exact hrun false
    · exact hrun false

theorem le_allOnes (x : BitVec 64) : x ≤ BitVec.allOnes 64 := by
  rw [BitVec.le_def, BitVec.toNat_allOnes]
  omega

theorem drop_eq_take_drop {β : Type} (as : List β) {i n : Nat} (h : i ≤ n) :
    as.drop i = (as.take n).drop i ++ as.drop n := by
  have hdrop : as.drop n = (as.drop i).drop (n - i) := by
    rw [List.drop_drop]
    congr 1
    omega
  rw [List.drop_take, hdrop, List.take_append_drop]

theorem lt_eq_not_le (a : BitVec 64) :
    (fun b : BitVec 64 => decide (b < a)) = fun b => !decide (a ≤ b) := by
  funext b
  rw [← decide_not]
  exact decide_eq_decide.mpr BitVec.not_le.symm

/-- The last entry that has a number, in a table with too many. -/
theorem last_numbered {t : CexpAddrTbl} (ht : t.Indexed) {i : Nat} (hi : i < 2 ^ 31)
    {a : BitVec 64} (ha : t.ptv (2 ^ 31 - 1) = some a) :
    a ∈ (t.ptvs.take (2 ^ 31)).drop i ∧ (∀ x ∈ (t.ptvs.take (2 ^ 31)).drop i, x ≤ a) ∧
      ∀ x ∈ t.ptvs.drop (2 ^ 31), a ≤ x := by
  rw [ptv_eq ht] at ha
  refine ⟨?_, fun x hx => ?_, fun x hx => ?_⟩
  · apply List.mem_of_getElem? (i := 2 ^ 31 - 1 - i)
    rw [List.getElem?_drop, List.getElem?_take_of_lt (by omega)]
    rw [show i + (2 ^ 31 - 1 - i) = 2 ^ 31 - 1 by omega]
    exact ha
  · obtain ⟨j, hj, rfl⟩ := List.mem_take_iff_getElem.mp (List.mem_of_mem_drop hx)
    exact ptvs_le ht (by omega) (List.getElem?_eq_getElem (by omega)) ha
  · obtain ⟨j, hj⟩ := List.getElem?_of_mem hx
    rw [List.getElem?_drop] at hj
    exact ptvs_le ht (by omega) ha hj

/-- The entries that have no number are not nearer than the last that has one. -/
theorem countP_numbered {t : CexpAddrTbl} (ht : t.Indexed) {i : Nat} (hi : i < 2 ^ 31)
    {a : BitVec 64} (ha : t.ptv (2 ^ 31 - 1) = some a) (H : List (BitVec 64)) :
    (t.ptvs.drop i ++ H).countP (fun b => decide (b < a)) =
      ((t.ptvs.take (2 ^ 31)).drop i ++ H).countP fun b => !decide (a ≤ b) := by
  have hbehind := (last_numbered ht hi ha).2.2
  have hzero : (t.ptvs.drop (2 ^ 31)).countP (fun b => !decide (a ≤ b)) = 0 := by
    rw [List.countP_eq_zero]
    exact fun b hb => by simpa using hbehind b hb
  rw [lt_eq_not_le, drop_eq_take_drop t.ptvs (Nat.le_of_lt hi), List.countP_append,
    List.countP_append, List.countP_append, hzero, Nat.add_zero]

/-- They are not among the nearest, if there are enough that are nearer than some other one. -/
theorem best_numbered {t : CexpAddrTbl} (ht : t.Indexed) {i : Nat} (hi : i < 2 ^ 31)
    {a : BitVec 64} (ha : t.ptv (2 ^ 31 - 1) = some a) {k : Nat} {H : List (BitVec 64)}
    (hmany : k ≤ ((t.ptvs.take (2 ^ 31)).drop i ++ H).countP fun b => decide (b < a)) :
    best (· ≤ ·) k (t.ptvs.drop i ++ H) =
      best (· ≤ ·) k ((t.ptvs.take (2 ^ 31)).drop i ++ H) := by
  have hbehind := (last_numbered ht hi ha).2.2
  have hperm : (t.ptvs.drop i ++ H).Perm
      (t.ptvs.drop (2 ^ 31) ++ ((t.ptvs.take (2 ^ 31)).drop i ++ H)) := by
    rw [drop_eq_take_drop t.ptvs (Nat.le_of_lt hi), ← List.append_assoc]
    exact List.perm_append_comm.append_right H
  rw [best_perm hperm, best_append_iff.mpr]
  intro y hy
  refine hmany.trans (List.countP_mono_left fun b _ hb => ?_)
  exact decide_eq_true (BitVec.le_trans (BitVec.le_of_lt (of_decide_eq_true hb)) (hbehind y hy))

/-- The loop over the entries that have a number, on the array as seen from its end, if the first of
them is above: it ends at one that is behind enough others, or it comes to the last. -/
theorem highLoop_numbered (hmod : mods[mod]? = some m) (ht : m.symtbl.Indexed) {i : Nat}
    (hi : i < 2 ^ 31) (habove : ∀ x ∈ m.symtbl.ptvs.drop i, addr < x) {k : Nat}
    {H : List (BitVec 64)} {hi' : List (Option CexpSymAIdx)}
    (h : Keys mods hi' (farFirst (k + 1) (best (· ≤ ·) (k + 1) H)))
    (rest : List (Option CexpSymAIdx)) :
    ∃ hi'', Keys mods hi'' (farFirst (k + 1)
        (best (· ≤ ·) (k + 1) ((m.symtbl.ptvs.take (2 ^ 31)).drop i ++ H))) ∧
      ((∀ wraps, nearLoop mods (· ≤ addr) (· > ·) (BitVec.allOnes 64) k wraps
              ((List.range' i (min m.symtbl.nentries (2 ^ 31) - i)).map (⟨·, mod⟩))
              (hi' ++ rest) = some (hi'' ++ rest)) ∧
          (∃ x ∈ (m.symtbl.ptvs.take (2 ^ 31)).drop i, k + 1 ≤
            ((m.symtbl.ptvs.take (2 ^ 31)).drop i ++ H).countP fun b => !decide (x ≤ b)) ∨
        (∀ wraps, nearLoop mods (· ≤ addr) (· > ·) (BitVec.allOnes 64) k wraps
              ((List.range' i (min m.symtbl.nentries (2 ^ 31) - i)).map (⟨·, mod⟩))
              (hi' ++ rest) = if wraps then none else some (hi'' ++ rest)) ∧
          ∀ x ∈ (m.symtbl.ptvs.take (2 ^ 31)).drop i,
            (((m.symtbl.ptvs.take (2 ^ 31)).drop i ++ H).countP fun b => !decide (x ≤ b)) ≤ k) := by
  have hstop : ∀ x ∈ (m.symtbl.ptvs.take (2 ^ 31)).drop i, decide (x ≤ addr) = false := by
    intro x hx
    refine decide_eq_false (BitVec.not_le.mpr (habove x ?_))
    rw [drop_eq_take_drop m.symtbl.ptvs (Nat.le_of_lt hi)]
    exact List.mem_append_left _ hx
  have hsorted : ((m.symtbl.ptvs.take (2 ^ 31)).drop i).Pairwise (· ≤ ·) :=
    ((pairwise_ptvs ht).sublist (List.take_sublist _ _)).sublist (List.drop_sublist _ _)
  obtain ⟨hi'', hkeys, hends⟩ := @nearLoop_spec mods (· ≤ ·) _ _ _ _ (· ≤ addr) (BitVec.allOnes 64)
    le_allOnes k _ _ H (map_gaddr_high hmod ht i) hsorted hstop hi' h rest
  have hperm := (List.reverse_perm ((m.symtbl.ptvs.take (2 ^ 31)).drop i)).append_right H
  rw [best_perm hperm] at hkeys
  rw [← gt_eq_not_le] at hends
  simp only [hperm.countP_eq] at hends
  exact ⟨hi'', hkeys, hends⟩

/-- The loop over the entries above, if the first of them is above: it ends if enough others are
nearer than the last that has a number, or all have one. -/
theorem highLoop_run (hmod : mods[mod]? = some m) (ht : m.symtbl.Indexed) {i : Nat}
    (hi : i < 2 ^ 31) (hnone : unseenBelow addr m.symtbl = [])
    (habove : ∀ x ∈ m.symtbl.ptvs.drop i, addr < x) {k : Nat} {H : List (BitVec 64)}
    {hi' : List (Option CexpSymAIdx)}
    (h : Keys mods hi' (farFirst (k + 1) (best (· ≤ ·) (k + 1) H)))
    (rest : List (Option CexpSymAIdx)) :
    (TableEnds addr (k + 1) m.symtbl (m.symtbl.ptvs.drop i ++ H) ∧
      ∃ hi'', nearLoop mods (· ≤ addr) (· > ·) (BitVec.allOnes 64) k
          (decide (2 ^ 31 ≤ m.symtbl.nentries))
          ((List.range' i (min m.symtbl.nentries (2 ^ 31) - i)).map (⟨·, mod⟩)) (hi' ++ rest) =
          some (hi'' ++ rest) ∧
        Keys mods hi'' (farFirst (k + 1) (best (· ≤ ·) (k + 1) (m.symtbl.ptvs.drop i ++ H)))) ∨
    (¬TableEnds addr (k + 1) m.symtbl (m.symtbl.ptvs.drop i ++ H) ∧
      nearLoop mods (· ≤ addr) (· > ·) (BitVec.allOnes 64) k
          (decide (2 ^ 31 ≤ m.symtbl.nentries))
          ((List.range' i (min m.symtbl.nentries (2 ^ 31) - i)).map (⟨·, mod⟩)) (hi' ++ rest) =
          none) := by
  obtain ⟨hi'', hkeys, hends⟩ := highLoop_numbered hmod ht hi habove h rest
  by_cases hbig : 2 ^ 31 ≤ m.symtbl.nentries
  · rw [decide_eq_true hbig]
    obtain ⟨a, ha⟩ := Option.isSome_iff_exists.mp
      (ht.ptv_isSome_iff.mpr (show 2 ^ 31 - 1 < m.symtbl.nentries by omega))
    obtain ⟨hmem, hbefore, -⟩ := last_numbered ht hi ha
    rcases hends with ⟨hrun, x, hx, hmany⟩ | ⟨hrun, hfew⟩
    · have hnear : k + 1 ≤ ((m.symtbl.ptvs.take (2 ^ 31)).drop i ++ H).countP
          fun b => decide (b < a) := by
        refine hmany.trans (List.countP_mono_left fun b _ hb => decide_eq_true ?_)
        exact Std.lt_of_lt_of_le (BitVec.not_le.mp (by simpa using hb)) (hbefore x hx)
      refine .inl ⟨fun _ _ a' ha' => ?_, hi'', hrun true, ?_⟩
      · rw [ha] at ha'
        cases ha'
        rw [countP_numbered ht hi ha, ← lt_eq_not_le]
        exact hnear
      · rw [best_numbered ht hi ha hnear]
        exact hkeys
    · refine .inr ⟨fun hends => ?_, hrun true⟩
      have hmany := hends hbig hnone a ha
      rw [countP_numbered ht hi ha] at hmany
      exact absurd (hfew a hmem) (Nat.not_le.mpr hmany)
  · have hlen := length_ptvs ht
    have htake : m.symtbl.ptvs.take (2 ^ 31) = m.symtbl.ptvs :=
      List.take_of_length_le (by omega)
    rw [decide_eq_false hbig]
    rw [htake] at hkeys hends
    refine .inl ⟨fun h => absurd h hbig, hi'', ?_, hkeys⟩
    rcases hends with ⟨hrun, -⟩ | ⟨hrun, -⟩
    · exact hrun false
    · exact hrun false

/-- The loop over the entries above ends at once if the first of them is not above. -/
theorem highLoop_stop (hmod : mods[mod]? = some m) (ht : m.symtbl.Indexed) {i : Nat}
    (hi : i < 2 ^ 31) {a : BitVec 64} (ha : m.symtbl.ptvs[i]? = some a) (hle : a ≤ addr)
    {ar : List (Option CexpSymAIdx)} {as : List (Option (BitVec 64))} (h : Keys mods ar as)
    (hne : as ≠ []) : highLoop mods addr margin mod i m.symtbl.nentries ar = some ar := by
  have hin := (List.getElem?_eq_some_iff.mp ha).1
  rw [length_ptvs ht] at hin
  obtain ⟨n, hn⟩ : ∃ n, min m.symtbl.nentries (2 ^ 31) - i = n + 1 :=
    ⟨min m.symtbl.nentries (2 ^ 31) - i - 1, by omega⟩
  have hfirst : gaddr mods ⟨i, mod⟩ = some a := by
    rw [gaddr_eq hmod ht, ha]
  obtain ⟨o, ar', lim, hrev, ho⟩ := @limit_of_keys mods (BitVec.allOnes 64) _ _ h.reverse
    (List.reverse_ne_nil_iff.mpr hne)
  rw [highLoop, hn, List.range'_succ, List.map_cons, hrev,
    nearLoop_stop hfirst ho (by rw [decide_eq_true hle, Bool.true_or]), ← hrev, Option.map_some,
    List.reverse_reverse]

theorem rangeStep_eq {cli : Nat} {ar ar' : List (Option CexpSymAIdx)}
    (hin : addrInModule addr m (mod = 0) = some true)
    (hcli : cexpSymTblLkAddrIdx addr 0 false m.symtbl = some (cli, []))
    (hlow : lowLoop mods addr margin mod cli ar = some ar') :
    rangeStep mods addr margin ar (m, mod) =
      highLoop mods addr margin mod (cli + 1) m.symtbl.nentries ar' := by
  rw [rangeStep, hin]
  show (cexpSymTblLkAddrIdx addr 0 false m.symtbl).bind _ = _
  rw [hcli]
  show (lowLoop mods addr margin mod cli ar).bind _ = _
  rw [hlow]
  rfl

/-- A module of the list that the lookup can read, and whose search ends if it comes to it. -/
structure Readable (mods : List AddrModule) (addr : BitVec 64) (p : AddrModule × Nat) : Prop where
  mod : mods[p.2]? = some p.1
  indexed : p.1.symtbl.Indexed
  known : ∃ b, addrInModule addr p.1 (p.2 = 0) = some b
  nonempty : addrInModule addr p.1 (p.2 = 0) = some true → 0 < p.1.symtbl.nentries
  search : addrInModule addr p.1 (p.2 = 0) = some true → SearchFits addr p.1.symtbl

theorem Readable.seen (hread : Readable mods addr (m, mod))
    (hin : addrInModule addr m (mod = 0) = some true) :
    ∃ cli, cexpSymTblLkAddrIdx addr 0 false m.symtbl = some (cli, []) ∧ Seen addr m.symtbl cli :=
  table_seen hread.indexed (hread.nonempty hin) (hread.search hin)

/-- With a margin, a module adds the entries that the loops see, if they end. -/
theorem rangeStep_spec (hread : Readable mods addr (m, mod))
    (hin : addrInModule addr m (mod = 0) = some true) {k : Nat} {ar : List (Option CexpSymAIdx)}
    {L H : List (BitVec 64)} (h : Window mods (k + 1) ar L H) :
    (TableEnds addr (k + 1) m.symtbl (seenAbove addr m.symtbl ++ H) ∧
      ∃ ar', rangeStep mods addr (k + 1) ar (m, mod) = some ar' ∧
        Window mods (k + 1) ar' (seenBelow addr m.symtbl ++ L) (seenAbove addr m.symtbl ++ H)) ∨
    (¬TableEnds addr (k + 1) m.symtbl (seenAbove addr m.symtbl ++ H) ∧
      rangeStep mods addr (k + 1) ar (m, mod) = none) := by
  have ht : m.symtbl.Indexed := hread.indexed
  have hmod : mods[mod]? = some m := hread.mod
  obtain ⟨cli, hcli, hseen⟩ := hread.seen hin
  have hsmall := hseen.small
  obtain ⟨lo, hi, rfl, hlo, hhi⟩ := h
  obtain ⟨lo', hrun, hlo'⟩ := lowLoop_spec hmod ht hseen hlo hi
  rw [rangeStep_eq hin hcli hrun]
  by_cases hnone : unseenBelow addr m.symtbl = []
  · rw [hseen.above hnone]
    have habove : ∀ x ∈ m.symtbl.ptvs.drop (cli + 1), addr < x := by
      rw [← hseen.above hnone]
      exact seenAbove_above
    rw [highLoop, List.reverse_append, Nat.add_sub_cancel]
    refine (highLoop_run hmod ht (by omega) hnone habove hhi lo'.reverse).imp ?_ ?_
    · rintro ⟨hends, hi', hrun', hhi'⟩
      refine ⟨hends, lo' ++ hi'.reverse, ?_, lo', hi'.reverse, rfl, hlo', ?_⟩
      · rw [hrun', Option.map_some, List.reverse_append, List.reverse_reverse]
      · rw [List.reverse_reverse]
        exact hhi'
    · rintro ⟨hends, hrun'⟩
      refine ⟨hends, ?_⟩
      rw [hrun']
      rfl
  · -- the loop over the entries above begins with one that is not
    obtain ⟨hnil, a, ha, hle⟩ := hseen.stop hnone
    have hkeys := hlo'.append (List.reverse_reverse hi ▸ hhi.reverse)
    rw [hnil, highLoop_stop hmod ht (by omega) ha hle hkeys
      (List.append_ne_nil_of_left_ne_nil (farFirst_ne_nil (k + 1) _) _)]
    exact .inl ⟨fun _ h => absurd h hnone, _, rfl, lo', hi, rfl, hlo', hhi⟩

/-! ### A margin of zero -/

/-- The one slot holds the nearest that is not above the address. -/
def Below (mods : List AddrModule) (ar : List (Option CexpSymAIdx)) (L : List (BitVec 64)) : Prop :=
  Keys mods ar (farFirst 1 (best (· ≥ ·) 1 L))

/-- The one slot holds an entry above the address. -/
def Above (mods : List AddrModule) (addr : BitVec 64) (ar : List (Option CexpSymAIdx)) : Prop :=
  ∃ a, Keys mods ar [some a] ∧ addr < a

theorem Keys.one {ar : List (Option CexpSymAIdx)} {a : Option (BitVec 64)}
    (h : Keys mods ar [a]) : ∃ o, ar = [o] ∧ o.map (gaddr mods) = a.map some := by
  obtain ⟨o, ar', rfl, ho, hrest⟩ := h.cases
  have hnil : ar' = [] := List.length_eq_zero_iff.mp hrest.length
  subst hnil
  exact ⟨o, rfl, ho⟩

/-- The nearest of some addresses, alone in its window. -/
theorem best_one {le : BitVec 64 → BitVec 64 → Prop} [DecidableRel le] {L : List (BitVec 64)}
    (hne : L ≠ []) : ∃ a ∈ L, farFirst 1 (best le 1 L) = [some a] := by
  have hlen := length_best le 1 L
  rw [Nat.min_eq_left (List.length_pos_iff.mpr hne)] at hlen
  obtain ⟨a, ha⟩ := List.length_eq_one_iff.mp hlen
  refine ⟨a, ?_, ?_⟩
  · have hmem : a ∈ best le 1 L := by
      rw [ha]
      exact List.mem_singleton_self a
    exact (List.mem_insertionSort le).mp (List.mem_of_mem_take hmem)
  · rw [ha]
    rfl

theorem highLoop_zero (hmod : mods[mod]? = some m) (ht : m.symtbl.Indexed) {i : Nat}
    (hi : i < 2 ^ 31) (hnone : unseenBelow addr m.symtbl = [])
    (habove : ∀ x ∈ m.symtbl.ptvs.drop i, addr < x) {H : List (BitVec 64)}
    (hH : ∀ x ∈ H, addr < x) (hne : m.symtbl.ptvs.drop i ++ H ≠ [])
    {ar ar' : List (Option CexpSymAIdx)} (h : Keys mods ar (farFirst 1 (best (· ≤ ·) 1 H)))
    (hrun : highLoop mods addr 0 mod i m.symtbl.nentries ar = some ar') : Above mods addr ar' := by
  have hrev : ar.reverse = ar := by
    have hlen := h.length
    rw [length_farFirst (length_best_le _ _ _)] at hlen
    obtain ⟨o, rfl⟩ := List.length_eq_one_iff.mp hlen
    rfl
  have hloop := highLoop_run hmod ht hi hnone habove h []
  rw [List.append_nil] at hloop
  rw [highLoop, hrev] at hrun
  rcases hloop with ⟨-, hi', hloop, hkeys⟩ | ⟨-, hloop⟩
  · obtain ⟨a, ha, hone⟩ := @best_one (· ≤ ·) _ _ hne
    rw [hone] at hkeys
    obtain ⟨o, rfl, ho⟩ := hkeys.one
    rw [hloop] at hrun
    cases hrun
    refine ⟨a, hkeys, ?_⟩
    rcases List.mem_append.mp ha with ha | ha
    · exact habove a ha
    · exact hH a ha
  · rw [hloop] at hrun
    cases hrun

theorem allAbove_of_seenBelow (hread : Readable mods addr (m, mod))
    (hin : addrInModule addr m (mod = 0) = some true) (h : seenBelow addr m.symtbl = []) :
    AllAbove addr m.symtbl = true := by
  obtain ⟨cli, -, hseen⟩ := hread.seen hin
  have hlen := length_ptvs hread.indexed
  have hinside := hseen.inside
  by_contra hall
  rw [hseen.below (Bool.not_eq_true _ ▸ hall), List.take_eq_nil_iff] at h
  rcases h with h | h
  · cases h
  · rw [h] at hlen
    exact absurd hlen.symm (Nat.ne_of_gt (Nat.zero_lt_of_lt hinside))

/-- A module that does no harm: what is in the slot is still not above the address. -/
theorem rangeStep_below (hread : Readable mods addr (m, mod))
    (hin : addrInModule addr m (mod = 0) = some true) {L : List (BitVec 64)}
    (hL : ∀ x ∈ L, x ≤ addr)
    (hsafe : L = [] → AllAbove addr m.symtbl = true → m.symtbl.nentries < 2)
    {ar : List (Option CexpSymAIdx)} (h : Below mods ar L) :
    ∃ ar', rangeStep mods addr 0 ar (m, mod) = some ar' ∧
      Below mods ar' (seenBelow addr m.symtbl ++ L) := by
  have ht : m.symtbl.Indexed := hread.indexed
  have hmod : mods[mod]? = some m := hread.mod
  obtain ⟨cli, hcli, hseen⟩ := hread.seen hin
  have hsmall := hseen.small
  have hinside := hseen.inside
  obtain ⟨lo, hrun, hlo⟩ := @lowLoop_spec mods m mod addr 0 hmod ht cli hseen _ _ h []
  rw [List.append_nil, List.append_nil] at hrun
  refine ⟨lo, ?_, hlo⟩
  rw [rangeStep_eq hin hcli hrun]
  by_cases hlast : m.symtbl.nentries ≤ cli + 1
  · -- there is nothing behind what the search has found
    have hnil : min m.symtbl.nentries (2 ^ 31) - (cli + 1) = 0 := by omega
    rw [highLoop, hnil, decide_eq_false (by omega)]
    exact congrArg some (List.reverse_reverse lo)
  · have hbound : cli + 1 < m.symtbl.ptvs.length := by
      rw [length_ptvs ht]
      omega
    obtain ⟨next, hnext⟩ : ∃ a, m.symtbl.ptvs[cli + 1]? = some a :=
      ⟨_, List.getElem?_eq_getElem hbound⟩
    by_cases hle : next ≤ addr
    · exact highLoop_stop hmod ht (by omega) hnext hle hlo (farFirst_ne_nil 0 _)
    · -- the first entry above is farther away than the limit, which is not above
      have hne : seenBelow addr m.symtbl ++ L ≠ [] := by
        intro hnil
        obtain ⟨hnone, hLnil⟩ := List.append_eq_nil_iff.mp hnil
        have htwo := hsafe hLnil (allAbove_of_seenBelow hread hin hnone)
        omega
      obtain ⟨a, ha, hone⟩ := @best_one (· ≥ ·) _ _ hne
      rw [hone] at hlo
      obtain ⟨o, rfl, ho⟩ := hlo.one
      have hale : a ≤ addr := by
        rcases List.mem_append.mp ha with ha | ha
        · exact seenBelow_le a ha
        · exact hL a ha
      obtain ⟨n, hn⟩ : ∃ n, min m.symtbl.nentries (2 ^ 31) - (cli + 1) = n + 1 :=
        ⟨min m.symtbl.nentries (2 ^ 31) - (cli + 1) - 1, by omega⟩
      have hfirst := (gaddr_eq hmod ht (cli + 1)).trans hnext
      have hfar : next > a := Std.lt_of_le_of_lt hale (BitVec.not_le.mp hle)
      have hlim : (o.map (gaddr mods)).getD (some (BitVec.allOnes 64)) = some a := by
        rw [ho]
        rfl
      rw [highLoop, hn, List.range'_succ, List.map_cons, List.reverse_singleton,
        nearLoop_stop hfirst hlim (by rw [decide_eq_true hfar, Bool.or_true])]
      rfl

/-- The first module that does: an entry above the address gets into the slot. -/
theorem rangeStep_spoils (hread : Readable mods addr (m, mod))
    (hin : addrInModule addr m (mod = 0) = some true) (hall : AllAbove addr m.symtbl = true)
    (htwo : 2 ≤ m.symtbl.nentries) {ar ar' : List (Option CexpSymAIdx)} (h : Below mods ar [])
    (hstep : rangeStep mods addr 0 ar (m, mod) = some ar') : Above mods addr ar' := by
  have ht : m.symtbl.Indexed := hread.indexed
  have hmod : mods[mod]? = some m := hread.mod
  obtain ⟨cli, hcli, hseen⟩ := hread.seen hin
  have hnone := unseenBelow_of_allAbove hall
  obtain ⟨lo, hrun, hlo⟩ := @lowLoop_spec mods m mod addr 0 hmod ht cli hseen _ _ h []
  rw [List.append_nil, List.append_nil] at hrun
  rw [seenBelow_of_allAbove hall] at hlo
  rw [rangeStep_eq hin hcli hrun] at hstep
  refine highLoop_zero (H := []) hmod ht (Nat.succ_lt_of_lt_pred ?_) hnone ?_ ?_ ?_ hlo hstep
  · exact hseen.small.trans (by decide)
  · rw [← hseen.above hnone]
    exact seenAbove_above
  · exact fun x hx => absurd hx List.not_mem_nil
  · rw [hseen.first hall, List.append_nil]
    apply List.ne_nil_of_length_pos
    rw [List.length_drop, length_ptvs ht]
    omega

/-- No module after it gets it out of there. -/
theorem rangeStep_above (hread : Readable mods addr (m, mod))
    (hin : addrInModule addr m (mod = 0) = some true) {ar ar' : List (Option CexpSymAIdx)}
    (h : Above mods addr ar) (hstep : rangeStep mods addr 0 ar (m, mod) = some ar') :
    Above mods addr ar' := by
  have ht : m.symtbl.Indexed := hread.indexed
  have hmod : mods[mod]? = some m := hread.mod
  obtain ⟨cli, hcli, hseen⟩ := hread.seen hin
  have hsmall := hseen.small
  obtain ⟨a, hkeys, ha⟩ := h
  obtain ⟨o, rfl, ho⟩ := hkeys.one
  have hin' : cli < m.symtbl.ptvs.length := by
    rw [length_ptvs ht]
    exact hseen.inside
  have hfirst : gaddr mods ⟨cli, mod⟩ = some m.symtbl.ptvs[cli] := by
    rw [gaddr_eq hmod ht, List.getElem?_eq_getElem hin']
  -- the first entry is above the address, or farther away than the limit above it
  have hrun : lowLoop mods addr 0 mod cli [o] = some [o] := by
    rw [lowLoop, List.range_succ, List.reverse_append, List.reverse_singleton,
      List.singleton_append, List.map_cons]
    refine @nearLoop_stop mods (addr < ·) 0 (· < ·) 0 _ _ _ _ a hfirst o [] (by rw [ho]; rfl) ?_
    by_cases hlt' : addr < m.symtbl.ptvs[cli]
    · rw [decide_eq_true hlt', Bool.true_or]
    · have hfar : m.symtbl.ptvs[cli] < a := Std.lt_of_le_of_lt (BitVec.not_lt.mp hlt') ha
      rw [decide_eq_true hfar, Bool.or_true]
  rw [rangeStep_eq hin hcli hrun] at hstep
  by_cases hnone : unseenBelow addr m.symtbl = []
  · refine highLoop_zero (H := [a]) hmod ht (by omega) hnone ?_ ?_ ?_ hkeys hstep
    · rw [← hseen.above hnone]
      exact seenAbove_above
    · exact fun x hx => List.mem_singleton.mp hx ▸ ha
    · exact List.append_ne_nil_of_right_ne_nil _ (List.cons_ne_nil a [])
  · obtain ⟨-, b, hb, hle⟩ := hseen.stop hnone
    rw [highLoop_stop hmod ht (by omega) hb hle hkeys (List.cons_ne_nil _ _)] at hstep
    cases hstep
    exact ⟨a, hkeys, ha⟩

end

end Cexp
