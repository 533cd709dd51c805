import Cexp.Syms.Namecomp

/-!
# Sorting a table and squeezing out duplicates

The inner loop of `cexpSortSymTbl` passes the entries that compare equal to the last one
kept, and is stopped by the marker at the latest. What follows is copied down, whatever it
is: if the array ends in a run of equal names, the marker itself becomes the last entry of
the table. If it does not but some names are equal, the table ends before the element with
the null name.

`sorted_iff_distinct`: a table comes out as it should exactly if all its names differ, and
if none continues another one by a negative character.
-/

namespace Cexp

open CLib

variable (cs : CharSign)

/-! ## The loop on lists -/

/-- The entries that are written after `a` when `rest` is left to read and `m` holds the
marker. `skipped` tells whether the inner loop has just passed an entry; `none` means that
it passes the marker too. -/
def squeezed (m a : CexpSym) : Bool → List CexpSym → Option (List CexpSym)
  | false, [] => some []
  | true, [] => if cexpNamecomp cs a m = 0 then none else some [m]
  | _, b :: rest =>
    if cexpNamecomp cs a b = 0 then squeezed m a true rest
    else (squeezed m b false rest).map (b :: ·)

/-- One pass through the body of the outer loop. -/
def squeezeBody (nentries : Nat) (syms : List CexpSym) (to' fr : Nat) :
    Option (List CexpSym × Nat) :=
  match skipSame cs syms to' fr with
  | none => none
  | some fr' =>
    match syms[fr']? with
    | none => none
    | some s => squeezeLoop cs nentries (syms.set (to' + 1) s) (to' + 1) (fr' + 1)

theorem squeezeLoop_of_lt {n : Nat} {syms : List CexpSym} {to' fr : Nat} (h : fr < n) :
    squeezeLoop cs n syms to' fr = squeezeBody cs n syms to' fr := by
  rw [squeezeLoop, if_pos h, squeezeBody]
  split
  · rename_i h'
    rw [h']
  · rename_i h'
    rewrite [h']
    rfl

theorem squeezeLoop_of_ge {n : Nat} {syms : List CexpSym} {to' fr : Nat} (h : n ≤ fr) :
    squeezeLoop cs n syms to' fr = some (syms, to') := by
  rw [squeezeLoop, if_neg (by omega)]

theorem squeezeBody_same {n : Nat} {syms : List CexpSym} {to' fr : Nat} {a b : CexpSym}
    (ha : syms[to']? = some a) (hb : syms[fr]? = some b) (h : cexpNamecomp cs a b = 0) :
    squeezeBody cs n syms to' fr = squeezeBody cs n syms to' (fr + 1) := by
  have hskip : skipSame cs syms to' fr = skipSame cs syms to' (fr + 1) := by
    rw [skipSame, ha, hb]
    simp only
    rw [if_pos h]
  rw [squeezeBody, squeezeBody, hskip]

theorem squeezeBody_other {n : Nat} {syms : List CexpSym} {to' fr : Nat} {a b : CexpSym}
    (ha : syms[to']? = some a) (hb : syms[fr]? = some b) (h : cexpNamecomp cs a b ≠ 0) :
    squeezeBody cs n syms to' fr =
      squeezeLoop cs n (syms.set (to' + 1) b) (to' + 1) (fr + 1) := by
  have hskip : skipSame cs syms to' fr = some fr := by
    rw [skipSame, ha, hb]
    simp only
    rw [if_neg h]
  rw [squeezeBody, hskip]
  simp only
  rw [hb]

theorem squeezeBody_end {n : Nat} {syms : List CexpSym} {to' fr : Nat}
    (hb : syms[fr]? = none) : squeezeBody cs n syms to' fr = none := by
  have hskip : skipSame cs syms to' fr = none := by
    rw [skipSame, hb]
    cases syms[to']? <;> rfl
  rw [squeezeBody, hskip]

/-- Overwrite the elements from `i` on. -/
def overwrite (syms : List CexpSym) (i : Nat) (t : List CexpSym) : List CexpSym :=
  syms.take i ++ t ++ syms.drop (i + t.length)

@[simp] theorem overwrite_nil (syms : List CexpSym) (i : Nat) : overwrite syms i [] = syms := by
  simp [overwrite]

theorem overwrite_cons {syms : List CexpSym} {i : Nat} (b : CexpSym) (t : List CexpSym)
    (hi : i < syms.length) : overwrite syms i (b :: t) = overwrite (syms.set i b) (i + 1) t := by
  have htake : (syms.set i b).take (i + 1) = syms.take i ++ [b] := by
    rw [List.take_set, List.take_add_one, List.getElem?_eq_getElem hi]
    rw [List.set_append_right _ _ (by simp)]
    simp [Nat.min_eq_left (Nat.le_of_lt hi)]
  have hdrop : (syms.set i b).drop (i + 1 + t.length) = syms.drop (i + 1 + t.length) := by
    rw [List.drop_set_of_lt (by omega)]
  rw [overwrite, overwrite, htake, hdrop]
  simp [Nat.add_assoc, Nat.add_comm 1]

/-- The two loops compute `squeezed`: the outer one when it starts a pass, the inner one
when it has passed an entry. -/
theorem loops_eq (m : CexpSym) (rest : List CexpSym) :
    ∀ (n : Nat) (syms : List CexpSym) (to' fr : Nat) (a : CexpSym),
      syms.length = n + 1 → to' < fr → syms[to']? = some a → syms.drop fr = rest ++ [m] →
      squeezeLoop cs n syms to' fr = (squeezed cs m a false rest).map
        (fun t => (overwrite syms (to' + 1) t, to' + t.length)) ∧
      squeezeBody cs n syms to' fr = (squeezed cs m a true rest).map
        (fun t => (overwrite syms (to' + 1) t, to' + t.length)) := by
  induction rest with
  | nil =>
    intro n syms to' fr a hlen hlt ha hdrop
    have hfr : fr = n := by
      have := congrArg List.length hdrop
      simp at this
      omega
    subst hfr
    have hm : syms[fr]? = some m := by
      rw [← List.head?_drop, hdrop]
      rfl
    constructor
    · rw [squeezeLoop_of_ge cs (le_refl fr)]
      simp [squeezed]
    · by_cases h : cexpNamecomp cs a m = 0
      · rw [squeezeBody_same cs ha hm h, squeezeBody_end cs (List.getElem?_eq_none (by omega)),
          squeezed, if_pos h]
        rfl
      · rw [squeezeBody_other cs ha hm h, squeezeLoop_of_ge cs (by omega), squeezed, if_neg h]
        simp [overwrite_cons m [] (show to' + 1 < syms.length by omega)]
  | cons b rest ih =>
    intro n syms to' fr a hlen hlt ha hdrop
    have hfr : fr < n := by
      have := congrArg List.length hdrop
      simp at this
      omega
    have hb : syms[fr]? = some b := by
      rw [← List.head?_drop, hdrop]
      rfl
    have hnext : syms.drop (fr + 1) = rest ++ [m] := by
      rw [← List.tail_drop, hdrop]
      rfl
    rw [squeezeLoop_of_lt cs hfr]
    by_cases h : cexpNamecomp cs a b = 0
    · rw [squeezeBody_same cs ha hb h, squeezed, squeezed, if_pos h]
      have := (ih n syms to' (fr + 1) a hlen (by omega) ha hnext).2
      exact ⟨this, this⟩
    · rw [squeezeBody_other cs ha hb h, squeezed, squeezed, if_neg h]
      have hset : (syms.set (to' + 1) b).drop (fr + 1) = rest ++ [m] := by
        rw [List.drop_set_of_lt (by omega), hnext]
      have hget : (syms.set (to' + 1) b)[to' + 1]? = some b :=
        List.getElem?_set_self (by omega)
      have := (ih n (syms.set (to' + 1) b) (to' + 1) (fr + 1) b (by simpa using hlen) (by omega)
        hget hset).1
      rw [this, Option.map_map]
      have hfun : ((fun t => (overwrite syms (to' + 1) t, to' + t.length)) ∘ (b :: ·)) =
          fun t => (overwrite (syms.set (to' + 1) b) (to' + 1 + 1) t, to' + 1 + t.length) := by
        funext t
        simp only [Function.comp]
        rw [overwrite_cons b t (by omega), List.length_cons]
        congr 1
        omega
      rw [hfun]
      exact ⟨rfl, rfl⟩

/-! ## What the loop keeps -/

/-- The entries that are kept after `a`. -/
def kept (a : CexpSym) : List CexpSym → List CexpSym
  | [] => []
  | b :: rest => if cexpNamecomp cs a b = 0 then kept a rest else b :: kept b rest

/-- The last entry that is kept. -/
def lastKept (a : CexpSym) : List CexpSym → CexpSym
  | [] => a
  | b :: rest => if cexpNamecomp cs a b = 0 then lastKept a rest else lastKept b rest

/-- The list ends in an entry that is not kept. -/
def endsSame (a : CexpSym) : Bool → List CexpSym → Bool
  | skipped, [] => skipped
  | _, b :: rest => if cexpNamecomp cs a b = 0 then endsSame a true rest else endsSame b false rest

theorem squeezed_eq (m a : CexpSym) (sk : Bool) (rest : List CexpSym) :
    squeezed cs m a sk rest =
      if endsSame cs a sk rest then
        if cexpNamecomp cs (lastKept cs a rest) m = 0 then none else some (kept cs a rest ++ [m])
      else some (kept cs a rest) := by
  induction rest generalizing a sk with
  | nil => cases sk <;> rfl
  | cons b rest ih =>
    rw [squeezed, endsSame, lastKept, kept]
    by_cases h : cexpNamecomp cs a b = 0
    · simp only [if_pos h]
      exact ih a true
    · simp only [if_neg h]
      rw [ih b false]
      split
      · split <;> simp
      · simp

theorem kept_sublist (a : CexpSym) (rest : List CexpSym) : (kept cs a rest).Sublist rest := by
  induction rest generalizing a with
  | nil => exact List.Sublist.refl _
  | cons b rest ih =>
    rw [kept]
    split
    · exact (ih a).cons b
    · exact (ih b).cons_cons b

/-- Every entry is kept or compares equal to one that is. -/
theorem kept_covers (a : CexpSym) (rest : List CexpSym) (x : CexpSym) (hx : x ∈ a :: rest) :
    ∃ z ∈ a :: kept cs a rest, z = x ∨ cexpNamecomp cs z x = 0 := by
  induction rest generalizing a with
  | nil =>
    rw [List.mem_singleton.mp hx]
    exact ⟨a, by simp, .inl rfl⟩
  | cons b rest ih =>
    rw [kept]
    rcases List.mem_cons.mp hx with rfl | hx
    · exact ⟨x, by simp, .inl rfl⟩
    · by_cases h : cexpNamecomp cs a b = 0
      · rw [if_pos h]
        rcases List.mem_cons.mp hx with rfl | hx
        · exact ⟨a, by simp, .inr h⟩
        · exact ih a (List.mem_cons_of_mem _ hx)
      · rw [if_neg h]
        obtain ⟨z, hz, hzx⟩ := ih b hx
        exact ⟨z, List.mem_cons_of_mem _ hz, hzx⟩

theorem kept_split (a : CexpSym) (rest : List CexpSym) :
    ∃ init, a :: kept cs a rest = init ++ [lastKept cs a rest] := by
  induction rest generalizing a with
  | nil => exact ⟨[], rfl⟩
  | cons b rest ih =>
    rw [kept, lastKept]
    split
    · exact ih a
    · obtain ⟨init, h⟩ := ih b
      exact ⟨a :: init, by rw [h]; rfl⟩

theorem lastKept_mem (a : CexpSym) (rest : List CexpSym) : lastKept cs a rest ∈ a :: rest := by
  obtain ⟨init, h⟩ := kept_split cs a rest
  have hmem : lastKept cs a rest ∈ a :: kept cs a rest := by
    rw [h]
    simp
  exact ((kept_sublist cs a rest).cons_cons a).subset hmem

theorem endsSame_append (a z : CexpSym) (sk : Bool) (r : List CexpSym) :
    endsSame cs a sk (r ++ [z]) = decide (cexpNamecomp cs (lastKept cs a r) z = 0) := by
  induction r generalizing a sk with
  | nil =>
    by_cases h : cexpNamecomp cs a z = 0 <;> simp [endsSame, lastKept, h]
  | cons b r ih =>
    rw [List.cons_append, endsSame, lastKept]
    split
    · exact ih a true
    · exact ih b false

theorem lastKept_append (a z : CexpSym) (r : List CexpSym) :
    lastKept cs a (r ++ [z]) =
      if cexpNamecomp cs (lastKept cs a r) z = 0 then lastKept cs a r else z := by
  induction r generalizing a with
  | nil => rfl
  | cons b r ih =>
    rw [List.cons_append, lastKept, lastKept]
    split
    · exact ih a
    · exact ih b

/-- Of names that all differ none is skipped. -/
theorem squeezed_of_distinct (m : CexpSym) {a : CexpSym} {rest : List CexpSym}
    (h : (a :: rest).Pairwise fun x y => cexpNamecomp cs x y ≠ 0) :
    squeezed cs m a false rest = some rest := by
  induction rest generalizing a with
  | nil => rfl
  | cons b rest ih =>
    rw [List.pairwise_cons] at h
    rw [squeezed, if_neg (h.1 b (by simp)), ih h.2]
    rfl

theorem length_squeezed_le {m a : CexpSym} {sk : Bool} {rest t : List CexpSym}
    (h : squeezed cs m a sk rest = some t) : t.length ≤ rest.length + sk.toNat := by
  induction rest generalizing a sk t with
  | nil =>
    cases sk with
    | false => cases h; exact Nat.zero_le _
    | true =>
      rw [squeezed] at h
      split at h
      · cases h
      · cases h; exact le_refl _
  | cons b rest ih =>
    rw [squeezed] at h
    have hsk : sk.toNat ≤ 1 := Bool.toNat_le sk
    split at h
    · have := ih h
      simp only [Bool.toNat_true, List.length_cons] at this ⊢
      omega
    · obtain ⟨u, hu, rfl⟩ := Option.map_eq_some_iff.mp h
      have := ih hu
      simp only [Bool.toNat_false, List.length_cons] at this ⊢
      omega

/-- Sorting a filled table, on lists: the entries after the first one are `squeezed`, and
behind them the array is as `qsort` left it. -/
theorem cexpSortSymTbl_eq {t : CexpSymTbl} {entries rest : List CexpSym} {last a : CexpSym}
    (ht : t.Filled entries last) {qsort : List CexpSym → List CexpSym}
    (hq : qsort entries = a :: rest) (hlen : (a :: rest).length = entries.length) :
    cexpSortSymTbl cs qsort t =
      (squeezed cs { last with name := some marker } a false rest).map fun u =>
        ⟨u.length + 1, a :: u ++ rest.drop u.length ++ [last]⟩ := by
  have hn : t.nentries = rest.length + 1 := by rw [ht.nentries, ← hlen, List.length_cons]
  have hent : t.entries = entries := by
    rw [CexpSymTbl.entries, ht.syms, ht.nentries, List.take_left]
  have hdrop : t.syms.drop t.nentries = [last] := by
    rw [ht.syms, ht.nentries, List.drop_left]
  have hlast : (a :: rest ++ [last])[rest.length + 1]? = some last := by
    simp
  have hmark : setName (a :: rest ++ [last]) (rest.length + 1) (some marker) =
      a :: (rest ++ [{ last with name := some marker }]) := by
    rw [setName, hlast]
    simp
  have hloop := (loops_eq cs { last with name := some marker } rest (rest.length + 1)
    (a :: (rest ++ [{ last with name := some marker }])) 0 1 a (by simp) (by omega) rfl rfl).1
  rw [cexpSortSymTbl, if_neg (by omega), hent, hq, hdrop, hn]
  simp only [hlast, hmark, hloop, Option.bind_some, ht.last]
  cases hu : squeezed cs { last with name := some marker } a false rest with
  | none => rfl
  | some u =>
    have hle : u.length ≤ rest.length := by simpa using length_squeezed_le cs hu
    simp only [Option.map_some, Nat.zero_add, Option.some.injEq, CexpSymTbl.mk.injEq, true_and]
    have hover : overwrite (a :: (rest ++ [{ last with name := some marker }])) 1 u =
        a :: u ++ rest.drop u.length ++ [{ last with name := some marker }] := by
      rw [overwrite, Nat.add_comm 1, List.drop_succ_cons, List.drop_append_of_le_length hle]
      simp
    have hget : (a :: u ++ rest.drop u.length ++
        [{ last with name := some marker }])[rest.length + 1]? =
          some { last with name := some marker } := by
      rw [List.getElem?_append_right (by simp; omega)]
      simp [show u.length + (rest.length - u.length) = rest.length by omega]
    rw [hover, setName, hget]
    simp only
    rw [List.set_append_right _ _ (by simp; omega)]
    have hidx : rest.length + 1 - (a :: u ++ rest.drop u.length).length = 0 := by
      simp
      omega
    have hrestore : ({ last with name := none } : CexpSym) = last := by
      rw [← ht.last]
    rw [hidx, List.set_cons_zero, hrestore]

/-! ## Tables that come out as they should -/

/-- What sorting is to make of a table with the entries `input`. -/
structure SortedTable (input : List CexpSym) (t : CexpSymTbl) : Prop where
  sorted : t.entries.Pairwise fun a b => nameLt cs a.bytes b.bytes
  names : ∀ n, (∃ s ∈ t.entries, s.bytes = n) ↔ ∃ s ∈ input, s.bytes = n
  data : ∀ s ∈ t.entries, s ∈ input
  /-- the element behind the entries has the null name -/
  ended : (t.syms[t.nentries]?).map CexpSym.name = some none

/-- A table that keeps all entries in the order `qsort` gave them. -/
theorem cexpSortSymTbl_of_distinct {t : CexpSymTbl} {entries s : List CexpSym} {last : CexpSym}
    (ht : t.Filled entries last) {qsort : List CexpSym → List CexpSym} (hq : qsort entries = s)
    (hperm : s.Perm entries) (hne : s.Pairwise fun x y => cexpNamecomp cs x y ≠ 0) :
    cexpSortSymTbl cs qsort t = some ⟨s.length, s ++ [last]⟩ := by
  have hlen := hperm.length_eq
  cases s with
  | nil =>
    have hnil : entries = [] := List.eq_nil_of_length_eq_zero hlen.symm
    subst hnil
    rw [cexpSortSymTbl, if_pos (by rw [ht.nentries]; rfl)]
    obtain ⟨n, syms⟩ := t
    have hn := ht.nentries
    have hs := ht.syms
    simp only at hn hs
    rw [hn, hs]
  | cons a rest =>
    rw [cexpSortSymTbl_eq cs ht hq hlen, squeezed_of_distinct cs _ hne]
    simp

theorem sortedTable_of_sorted {entries s : List CexpSym} {last : CexpSym} (hl : last.name = none)
    (hperm : s.Perm entries) (hs : s.Pairwise fun a b => nameLt cs a.bytes b.bytes) :
    SortedTable cs entries ⟨s.length, s ++ [last]⟩ := by
  have hent : (CexpSymTbl.mk s.length (s ++ [last])).entries = s := by
    simp [CexpSymTbl.entries]
  refine ⟨by rw [hent]; exact hs, fun n => ?_, fun x hx => ?_, by simp [hl]⟩
  · rw [hent]
    exact ⟨fun ⟨x, hx, hn⟩ => ⟨x, hperm.mem_iff.mp hx, hn⟩,
      fun ⟨x, hx, hn⟩ => ⟨x, hperm.mem_iff.mpr hx, hn⟩⟩
  · rw [hent] at hx
    exact hperm.mem_iff.mp hx

/-- For names without separator only equal names compare equal. -/
theorem bytes_eq_of_zero {a b : CexpSym} (hb : separator ∉ b.bytes)
    (h : cexpNamecomp cs a b = 0) : b.bytes = a.bytes := by
  rcases (namecomp_eq_zero_iff a.noNul).mp h with heq | ⟨v, hv⟩
  · exact heq
  · rw [hv] at hb
    simp at hb

/-- A table that was sorted correctly kept every entry: the marker is no name of the table,
and the null name stands directly behind the last entry. -/
theorem kept_of_sortedTable {t t' : CexpSymTbl} {entries s : List CexpSym} {last : CexpSym}
    (ht : t.Filled entries last) (hsep : ∀ x ∈ entries, separator ∉ x.bytes)
    {qsort : List CexpSym → List CexpSym} (hq : qsort entries = s) (hperm : s.Perm entries)
    (hres : cexpSortSymTbl cs qsort t = some t') (hs : SortedTable cs entries t') :
    t'.entries = s := by
  have hlen := hperm.length_eq
  cases s with
  | nil =>
    have hnil : entries = [] := List.eq_nil_of_length_eq_zero hlen.symm
    rw [cexpSortSymTbl, if_pos (by rw [ht.nentries, hnil]; rfl)] at hres
    cases hres
    rw [CexpSymTbl.entries, ht.nentries, hnil]
    rfl
  | cons a rest =>
    rw [cexpSortSymTbl_eq cs ht hq hlen] at hres
    obtain ⟨u, hu, rfl⟩ := Option.map_eq_some_iff.mp hres
    have hle : u.length ≤ rest.length := by simpa using length_squeezed_le cs hu
    have hent : (CexpSymTbl.mk (u.length + 1)
        (a :: u ++ rest.drop u.length ++ [last])).entries = a :: u := by
      simp [CexpSymTbl.entries]
    have hmem : ∀ x ∈ a :: rest, x ∈ entries := fun x hx => hperm.mem_iff.mp hx
    rw [squeezed_eq] at hu
    split at hu
    · -- the marker was copied: it has the name of an entry, which precedes it
      split at hu
      · cases hu
      · rename_i hm
        cases hu
        exfalso
        have hmark : ∃ x ∈ entries, x.bytes = marker.bytes := by
          refine (hs.names _).mp ⟨{ last with name := some marker }, ?_, rfl⟩
          rw [hent]
          simp
        obtain ⟨x, hx, hxm⟩ := hmark
        obtain ⟨z, hz, hzx⟩ := kept_covers cs a rest x (hperm.mem_iff.mpr hx)
        have hzm : z.bytes = marker.bytes := by
          rcases hzx with rfl | hzx
          · exact hxm
          · rw [← hxm, bytes_eq_of_zero cs (hsep x hx) hzx]
        have hsorted := hs.sorted
        rw [hent, ← List.cons_append, List.pairwise_append] at hsorted
        have hlt := hsorted.2.2 z hz { last with name := some marker } (by simp)
        rw [hzm] at hlt
        exact nameLt_irrefl _ hlt
    · cases hu
      have hended := hs.ended
      simp only at hended
      rcases Nat.lt_or_ge (kept cs a rest).length rest.length with hlt | hge
      · -- an entry was dropped: what follows the last entry has a name
        exfalso
        rw [List.getElem?_append_left (by simp; omega),
          List.getElem?_append_right (by simp)] at hended
        simp only [List.length_cons, Nat.sub_self, List.getElem?_drop, Nat.add_zero] at hended
        rw [List.getElem?_eq_getElem hlt] at hended
        simp only [Option.map_some, Option.some.injEq] at hended
        exact ht.named _ (hmem _ (List.mem_cons_of_mem _ (List.getElem_mem hlt))) hended
      · rw [hent, (kept_sublist cs a rest).eq_of_length_le hge]

/-- Tables of names without version separator come out of `cexpSortSymTbl` as they should,
whatever `qsort` does with equal names, iff all names differ and none is continued in
another one by a negative character. -/
theorem sorted_iff_distinct {t : CexpSymTbl} {entries : List CexpSym} {last : CexpSym}
    (ht : t.Filled entries last) (hsep : ∀ s ∈ entries, separator ∉ s.bytes) :
    (∀ qsort, Sorts (cexpNamecomp cs) entries (qsort entries) →
      ∃ t', cexpSortSymTbl cs qsort t = some t' ∧ SortedTable cs entries t') ↔
    (entries.map CexpSym.bytes).Nodup ∧
      ∀ a ∈ entries, ∀ b ∈ entries, ∀ c s, b.bytes = a.bytes ++ c :: s → 0 < cs.val c := by
  have hregular : Regular cs entries ↔
      ∀ a ∈ entries, ∀ b ∈ entries, ∀ c s, b.bytes = a.bytes ++ c :: s → 0 < cs.val c := by
    refine ⟨fun h a ha b hb c s hbs => (h a ha b hb c s hbs).2, fun h a ha b hb c s hbs => ?_⟩
    refine ⟨?_, h a ha b hb c s hbs⟩
    rintro rfl
    have := hsep b hb
    rw [hbs] at this
    simp at this
  rw [← hregular]
  constructor
  · intro h
    have hentries : ∀ s, Sorts (cexpNamecomp cs) entries s →
        s.Pairwise fun a b => nameLt cs a.bytes b.bytes := by
      intro s hs
      obtain ⟨t', hres, ht'⟩ := h (fun _ => s) hs
      have := ht'.sorted
      rwa [kept_of_sortedTable cs ht hsep rfl hs.perm hres ht'] at this
    constructor
    · obtain ⟨s, hs⟩ := exists_sorts (cexpNamecomp cs) entries
      rw [← (hs.perm.map CexpSym.bytes).nodup_iff, List.nodup_iff_pairwise_ne, List.pairwise_map]
      refine (hentries s hs).imp fun hlt heq => ?_
      rw [heq] at hlt
      exact nameLt_irrefl _ hlt
    · -- comparisons that are not consistent allow any permutation
      by_contra hnot
      obtain ⟨a, ha, b, hb, c, s, hbs⟩ : ∃ a ∈ entries, ∃ b ∈ entries, ∃ c s,
          b.bytes = a.bytes ++ c :: s := by
        by_contra hnone
        exact hnot fun a ha b hb c s hbs => absurd ⟨a, ha, b, hb, c, s, hbs⟩ hnone
      have hab : nameLt cs a.bytes b.bytes := by
        rw [hbs]
        exact nameLt_longer cs _ c s
      have hne : a ≠ b := by
        rintro rfl
        exact nameLt_irrefl _ hab
      have hs : Sorts (cexpNamecomp cs) entries (b :: entries.erase b) :=
        ⟨(List.perm_cons_erase hb).symm, fun hc =>
          absurd ((consistent_iff_regular cs entries).mp hc) hnot⟩
      have hba := List.rel_of_pairwise_cons (hentries _ hs) ((List.mem_erase_of_ne hne).mpr ha)
      exact nameLt_asymm hab hba
  · rintro ⟨hnodup, hreg⟩ qsort hs
    have hmem : ∀ x ∈ qsort entries, x ∈ entries := fun x hx => hs.perm.mem_iff.mp hx
    have hnames : (qsort entries).Pairwise fun a b => a.bytes ≠ b.bytes := by
      rw [← List.pairwise_map (f := CexpSym.bytes), ← List.nodup_iff_pairwise_ne,
        (hs.perm.map CexpSym.bytes).nodup_iff]
      exact hnodup
    have hsorted : (qsort entries).Pairwise fun a b => nameLt cs a.bytes b.bytes := by
      refine ((hs.sorted ((consistent_iff_regular cs entries).mpr hreg)).and hnames).imp_of_mem ?_
      rintro a b ha hb ⟨hle, hne⟩
      have h0 : cexpNamecomp cs a b ≠ 0 := fun h0 => hne (hreg.eq_of_zero (hmem a ha) (hmem b hb) h0)
      exact hreg.nameLt_of_neg (hmem a ha) (hmem b hb) (by omega)
    refine ⟨_, cexpSortSymTbl_of_distinct cs ht rfl hs.perm ?_,
      sortedTable_of_sorted cs ht.last hs.perm hsorted⟩
    refine hnames.imp_of_mem fun ha hb hne h0 => hne (hreg.eq_of_zero (hmem _ ha) (hmem _ hb) h0)

/-! ## A table that ends in a duplicate -/

theorem acceptedSyms_some (names : List CStr) :
    acceptedSyms some (fun _ s => s) names = names.map newSym := by
  induction names with
  | nil => rfl
  | cons n names ih =>
    rw [acceptedSyms, ih]
    rfl

/-- The table of a list of names. -/
def tableOf (names : List CStr) : CexpSymTbl := ⟨names.length, names.map newSym ++ [zeroSym]⟩

/-- It is the one that `cexpAddSymTbl` makes of them. -/
theorem cexpAddSymTbl_tableOf {names : List CStr} (h : names ≠ []) :
    cexpAddSymTbl some (fun _ s => s) zeroSym names = some (tableOf names) := by
  obtain ⟨n, names, rfl⟩ := List.exists_cons_of_ne_nil h
  rw [cexpAddSymTbl, acceptedSyms_some, List.map_cons]
  simp only [List.length_map]
  rfl

theorem tableOf_filled (names : List CStr) :
    (tableOf names).Filled (names.map newSym) zeroSym := by
  refine ⟨(List.length_map _).symm, rfl, fun s hs => ?_, rfl⟩
  obtain ⟨n, -, rfl⟩ := List.mem_map.mp hs
  exact Option.some_ne_none n

theorem noNul_nameA : (0 : UInt8) ∉ [(0x61 : UInt8)] := by decide
theorem noNul_nameB : (0 : UInt8) ∉ [(0x62 : UInt8)] := by decide

/-- The names `a` and `b`. -/
def nameA : CStr := ⟨[0x61], noNul_nameA⟩
def nameB : CStr := ⟨[0x62], noNul_nameB⟩

/-- The table `b`, `a` gets sorted. -/
theorem sorted_iff_distinct_two :
    ∃ t', cexpSortSymTbl .signed (List.insertionSort fun a b => cexpNamecomp .signed a b ≤ 0)
        (tableOf [nameB, nameA]) = some t' ∧
      SortedTable .signed ([nameB, nameA].map newSym) t' := by
  refine (sorted_iff_distinct .signed (tableOf_filled [nameB, nameA]) (by decide)).mpr ?_ _
    (sorts_insertionSort _ _)
  refine ⟨by decide, fun a ha b hb c s hbs => ?_⟩
  -- both names have one character, so none continues the other
  have hlen : ∀ x ∈ [nameB, nameA].map newSym, x.bytes.length = 1 := by decide
  have h := congrArg List.length hbs
  rw [List.length_append, hlen a ha, hlen b hb, List.length_cons] at h
  omega

/-- Of the table `b`, `b` there remain `b` and the marker. -/
theorem duplicate_at_end_keeps_marker :
    ¬ ∀ (cs : CharSign) (t : CexpSymTbl) (entries : List CexpSym) (last : CexpSym),
      t.Filled entries last → (∀ s ∈ entries, separator ∉ s.bytes) →
      ∀ qsort, Sorts (cexpNamecomp cs) entries (qsort entries) →
        ∃ t', cexpSortSymTbl cs qsort t = some t' ∧ SortedTable cs entries t' := by
  intro hall
  obtain ⟨t', hres, ht'⟩ := hall .signed (tableOf [nameB, nameB]) _ _
    (tableOf_filled [nameB, nameB]) (by decide) id
    ⟨List.Perm.refl _, fun _ => by decide⟩
  have hid : id ([nameB, nameB].map newSym) = newSym nameB :: [newSym nameB] := rfl
  rw [cexpSortSymTbl_eq .signed (tableOf_filled [nameB, nameB]) hid rfl] at hres
  cases hres
  obtain ⟨s, hs, hname⟩ := (ht'.names marker.bytes).mp
    ⟨newSym marker, by simp [CexpSymTbl.entries, newSym, zeroSym], rfl⟩
  revert s
  decide

end Cexp
