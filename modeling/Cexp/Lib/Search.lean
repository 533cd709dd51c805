import Mathlib.Data.List.Perm.Basic
import Mathlib.Data.List.Sort

/-!
# `qsort` and `bsearch`

What a program may rely on when it calls the two routines of the C library with a
comparison function.

`qsort` permutes the array; the result is sorted if the comparisons are consistent with
one another, that is, if they define a total preorder of the objects at hand. Nothing else
is promised when they do not.

`bsearch` halves an interval and moves to the left or to the right by the sign of the
comparison of the key with an element. Which element of the interval it looks at is left
open (`Probe`).
-/

namespace CLib

variable {α : Type}

/-! ## Sorting -/

/-- The comparisons define a total preorder of the members of `l`. -/
structure Consistent (cmp : α → α → Int) (l : List α) : Prop where
  swap : ∀ a ∈ l, ∀ b ∈ l, cmp a b < 0 ↔ 0 < cmp b a
  trans : ∀ a ∈ l, ∀ b ∈ l, ∀ c ∈ l, cmp a b ≤ 0 → cmp b c ≤ 0 → cmp a c ≤ 0

/-- `s` is a result that `qsort` may leave for `l`. -/
structure Sorts (cmp : α → α → Int) (l s : List α) : Prop where
  perm : s.Perm l
  sorted : Consistent cmp l → s.Pairwise fun a b => cmp a b ≤ 0

/-- Some result is always possible. -/
theorem exists_sorts (cmp : α → α → Int) (l : List α) : ∃ s, Sorts cmp l s := by
  by_cases hc : Consistent cmp l
  · -- on the members of `l` the comparison is total and transitive
    let le : {a // a ∈ l} → {a // a ∈ l} → Bool := fun a b => decide (cmp a b ≤ 0)
    have htrans : ∀ a b c, le a b = true → le b c = true → le a c = true := by
      intro a b c hab hbc
      simp only [le, decide_eq_true_eq] at *
      exact hc.trans a a.2 b b.2 c c.2 hab hbc
    have htotal : ∀ a b, (le a b || le b a) = true := by
      intro a b
      have hswap := hc.swap b b.2 a a.2
      simp only [le, Bool.or_eq_true, decide_eq_true_eq]
      omega
    refine ⟨(l.attach.mergeSort le).map Subtype.val, ?_, fun _ => ?_⟩
    · have hperm := (List.mergeSort_perm l.attach le).map Subtype.val
      rwa [List.attach_map_subtype_val] at hperm
    · rw [List.pairwise_map]
      refine (List.pairwise_mergeSort htrans htotal l.attach).imp ?_
      intro a b hab
      simpa [le] using hab
  · exact ⟨l, List.Perm.refl l, fun h => absurd h hc⟩

theorem Consistent.subset {cmp : α → α → Int} {l l' : List α} (h : Consistent cmp l)
    (hsub : l' ⊆ l) : Consistent cmp l' where
  swap a ha b hb := h.swap a (hsub ha) b (hsub hb)
  trans a ha b hb c hc := h.trans a (hsub ha) b (hsub hb) c (hsub hc)

theorem pairwise_orderedInsert {cmp : α → α → Int} {a : α} {l : List α}
    (hc : Consistent cmp (a :: l)) (hl : l.Pairwise fun a b => cmp a b ≤ 0) :
    (l.orderedInsert (fun a b => cmp a b ≤ 0) a).Pairwise fun a b => cmp a b ≤ 0 := by
  induction l with
  | nil => simp
  | cons b l ih =>
    obtain ⟨hb, hl'⟩ := List.pairwise_cons.mp hl
    rw [List.orderedInsert_cons]
    by_cases hab : cmp a b ≤ 0
    · rw [if_pos hab]
      refine List.pairwise_cons.mpr ⟨fun c hmem => ?_, hl⟩
      rcases List.mem_cons.mp hmem with rfl | hmem
      · exact hab
      · exact hc.trans a (by simp) b (by simp) c (by simp [hmem]) hab (hb c hmem)
    · rw [if_neg hab]
      have hsub : a :: l ⊆ a :: b :: l := List.cons_subset_cons a (List.subset_cons_self b l)
      refine List.pairwise_cons.mpr ⟨fun c hmem => ?_, ih (hc.subset hsub) hl'⟩
      rcases (List.mem_orderedInsert _).mp hmem with rfl | hmem
      · have hswap := hc.swap b (by simp) c (by simp)
        omega
      · exact hb c hmem

/-- Insertion sort is a `qsort`. -/
theorem sorts_insertionSort (cmp : α → α → Int) (l : List α) :
    Sorts cmp l (l.insertionSort fun a b => cmp a b ≤ 0) := by
  refine ⟨List.perm_insertionSort _ l, fun hc => ?_⟩
  induction l with
  | nil => simp
  | cons a l ih =>
    rw [List.insertionSort_cons]
    have hperm := (List.perm_insertionSort (fun a b => cmp a b ≤ 0) l).subset
    exact pairwise_orderedInsert (hc.subset (List.cons_subset_cons a hperm))
      (ih (hc.subset (List.subset_cons_self a l)))

/-! ## Searching -/

/-- The choice of the element to look at in the interval from `lo` to `hi`. -/
structure Probe where
  mid : Nat → Nat → Nat
  mem : ∀ lo hi, lo < hi → lo ≤ mid lo hi ∧ mid lo hi < hi

/-- The usual choice. -/
def Probe.half : Probe := ⟨fun lo hi => (lo + hi) / 2, fun lo hi h => by omega⟩

/-- Look at `i` as soon as the interval contains it. -/
def Probe.at (i : Nat) : Probe where
  mid lo hi := if lo ≤ i ∧ i < hi then i else lo
  mem lo hi h := by split <;> omega

/-- Search among the elements of `l` from `lo` to `hi`; `cmp a` compares the key with `a`.
The first argument bounds the length of the interval. -/
def bsearchIn (p : Probe) (cmp : α → Int) (l : List α) : Nat → Nat → Nat → Option α
  | 0, _, _ => none
  | n + 1, lo, hi =>
    if lo < hi then
      match l[p.mid lo hi]? with
      | none => none
      | some a =>
        if cmp a < 0 then bsearchIn p cmp l n lo (p.mid lo hi)
        else if 0 < cmp a then bsearchIn p cmp l n (p.mid lo hi + 1) hi
        else some a
    else none

def bsearch (p : Probe) (cmp : α → Int) (l : List α) : Option α :=
  bsearchIn p cmp l l.length 0 l.length

/-- Whether something is found depends on nothing but the results of the comparisons. -/
theorem isSome_bsearchIn_congr {β : Type} (p : Probe) {cmp : α → Int} {cmp' : β → Int} {l : List α}
    {l' : List β} (h : l.map cmp = l'.map cmp') (n lo hi : Nat) :
    (bsearchIn p cmp l n lo hi).isSome = (bsearchIn p cmp' l' n lo hi).isSome := by
  induction n generalizing lo hi with
  | zero => rfl
  | succ n ih =>
    rw [bsearchIn, bsearchIn]
    by_cases hlt : lo < hi
    · have hget := congrArg (fun l : List Int => l[p.mid lo hi]?) h
      rw [List.getElem?_map, List.getElem?_map] at hget
      rw [if_pos hlt, if_pos hlt]
      cases ha : l[p.mid lo hi]? with
      | none =>
        rw [ha, Option.map_none] at hget
        rw [Option.map_eq_none_iff.mp hget.symm]
        rfl
      | some a =>
        rw [ha, Option.map_some] at hget
        obtain ⟨b, hb, hcmp⟩ := Option.map_eq_some_iff.mp hget.symm
        rw [hb]
        dsimp only
        rw [hcmp]
        split
        · exact ih _ _
        · split
          · exact ih _ _
          · rfl
    · rw [if_neg hlt, if_neg hlt]
      rfl

theorem isSome_bsearch_congr {β : Type} (p : Probe) {cmp : α → Int} {cmp' : β → Int} {l : List α}
    {l' : List β} (h : l.map cmp = l'.map cmp') :
    (bsearch p cmp l).isSome = (bsearch p cmp' l').isSome := by
  have hlength := congrArg List.length h
  rw [List.length_map, List.length_map] at hlength
  rw [bsearch, bsearch, hlength]
  exact isSome_bsearchIn_congr p h _ _ _

/-- What is found lies in the interval and compares equal. -/
theorem bsearchIn_sound (p : Probe) (cmp : α → Int) (l : List α) (n lo hi : Nat) (a : α)
    (h : bsearchIn p cmp l n lo hi = some a) :
    cmp a = 0 ∧ ∃ i, lo ≤ i ∧ i < hi ∧ l[i]? = some a := by
  induction n generalizing lo hi with
  | zero => cases h
  | succ n ih =>
    rw [bsearchIn] at h
    by_cases hlt : lo < hi
    · obtain ⟨h1, h2⟩ := p.mem lo hi hlt
      rw [if_pos hlt] at h
      cases hb : l[p.mid lo hi]? with
      | none => rw [hb] at h; cases h
      | some b =>
        simp only [hb] at h
        split at h
        · obtain ⟨h0, i, hi1, hi2, hia⟩ := ih _ _ h
          exact ⟨h0, i, by omega, by omega, hia⟩
        · split at h
          · obtain ⟨h0, i, hi1, hi2, hia⟩ := ih _ _ h
            exact ⟨h0, i, by omega, by omega, hia⟩
          · cases h
            exact ⟨by omega, p.mid lo hi, h1, h2, hb⟩
    · rw [if_neg hlt] at h
      cases h

theorem bsearch_sound {p : Probe} {cmp : α → Int} {l : List α} {a : α}
    (h : bsearch p cmp l = some a) : a ∈ l ∧ cmp a = 0 := by
  obtain ⟨h0, i, -, -, hi⟩ := bsearchIn_sound p cmp l _ _ _ a h
  exact ⟨List.mem_of_getElem? hi, h0⟩

/-- No element that compares equal lies where the search turns away from. -/
def Guides (cmp : α → Int) (l : List α) : Prop :=
  l.Pairwise fun a b => (cmp a < 0 → cmp b ≠ 0) ∧ (cmp a = 0 → cmp b ≤ 0)

theorem guides_get {cmp : α → Int} {l : List α} (h : Guides cmp l) {i j : Nat} {a b : α}
    (hij : i < j) (ha : l[i]? = some a) (hb : l[j]? = some b) :
    (cmp a < 0 → cmp b ≠ 0) ∧ (cmp a = 0 → cmp b ≤ 0) := by
  obtain ⟨hi, rfl⟩ := List.getElem?_eq_some_iff.mp ha
  obtain ⟨hj, rfl⟩ := List.getElem?_eq_some_iff.mp hb
  exact List.pairwise_iff_getElem.mp h i j hi hj hij

/-- If the comparisons guide the search, an element that compares equal is not missed,
wherever the search looks first. -/
theorem bsearchIn_complete {p : Probe} {cmp : α → Int} {l : List α} (hl : Guides cmp l)
    (n lo hi i : Nat) (a : α) (hn : hi - lo ≤ n) (hlo : lo ≤ i) (hhi : i < hi)
    (hlen : hi ≤ l.length) (ha : l[i]? = some a) (h0 : cmp a = 0) :
    ∃ b, bsearchIn p cmp l n lo hi = some b := by
  induction n generalizing lo hi with
  | zero => omega
  | succ n ih =>
    have hlt : lo < hi := by omega
    obtain ⟨h1, h2⟩ := p.mem lo hi hlt
    have hm : p.mid lo hi < l.length := by omega
    rw [bsearchIn, if_pos hlt, List.getElem?_eq_getElem hm]
    simp only
    have hb : l[p.mid lo hi]? = some l[p.mid lo hi] := List.getElem?_eq_getElem hm
    split
    · rename_i hneg
      have hleft : i < p.mid lo hi := by
        rcases Nat.lt_trichotomy i (p.mid lo hi) with hlt' | heq | hgt
        · exact hlt'
        · rw [heq, hb] at ha
          cases ha
          omega
        · exact absurd h0 ((guides_get hl hgt hb ha).1 hneg)
      exact ih lo _ (by omega) hlo hleft (by omega)
    · split
      · rename_i hpos
        have hright : p.mid lo hi < i := by
          rcases Nat.lt_trichotomy i (p.mid lo hi) with hlt' | heq | hgt
          · have := (guides_get hl hlt' ha hb).2 h0
            omega
          · rw [heq, hb] at ha
            cases ha
            omega
          · exact hgt
        exact ih _ hi (by omega) (by omega) hhi hlen
      · exact ⟨_, rfl⟩

theorem bsearch_complete {p : Probe} {cmp : α → Int} {l : List α} (hl : Guides cmp l) {a : α}
    (ha : a ∈ l) (h0 : cmp a = 0) : ∃ b, bsearch p cmp l = some b := by
  obtain ⟨i, hi⟩ := List.mem_iff_getElem?.mp ha
  obtain ⟨hlt, -⟩ := List.getElem?_eq_some_iff.mp hi
  exact bsearchIn_complete hl _ 0 l.length i a (by omega) (by omega) hlt (Nat.le_refl _) hi h0

/-- The first step of a search that looks at `a` first. -/
theorem bsearch_at (cmp : α → Int) (l₁ l₂ : List α) (a : α) :
    bsearch (.at l₁.length) cmp (l₁ ++ a :: l₂) =
      if cmp a < 0 then bsearchIn (.at l₁.length) cmp (l₁ ++ a :: l₂) (l₁.length + l₂.length)
        0 l₁.length
      else if 0 < cmp a then bsearchIn (.at l₁.length) cmp (l₁ ++ a :: l₂)
        (l₁.length + l₂.length) (l₁.length + 1) (l₁.length + l₂.length + 1)
      else some a := by
  have hmid : (Probe.at l₁.length).mid 0 (l₁.length + l₂.length + 1) = l₁.length := by
    simp only [Probe.at]
    rw [if_pos (by omega)]
  unfold bsearch
  rw [List.length_append, List.length_cons, ← Nat.add_assoc, bsearchIn, if_pos (by omega), hmid]
  simp

theorem bsearch_at_hit {cmp : α → Int} (l₁ l₂ : List α) {a : α} (h : cmp a = 0) :
    bsearch (.at l₁.length) cmp (l₁ ++ a :: l₂) = some a := by
  rw [bsearch_at, if_neg (by omega), if_neg (by omega)]

/-- A search that turns left at `a` misses what is on the right. -/
theorem bsearch_at_left {cmp : α → Int} {l₁ : List α} (l₂ : List α) {a : α} (h : cmp a < 0)
    (h₁ : ∀ b ∈ l₁, cmp b ≠ 0) : bsearch (.at l₁.length) cmp (l₁ ++ a :: l₂) = none := by
  rw [bsearch_at, if_pos h]
  cases hres : bsearchIn (.at l₁.length) cmp (l₁ ++ a :: l₂) (l₁.length + l₂.length) 0
      l₁.length with
  | none => rfl
  | some b =>
    obtain ⟨h0, i, -, hi, hib⟩ := bsearchIn_sound _ _ _ _ _ _ b hres
    rw [List.getElem?_append_left hi] at hib
    exact absurd h0 (h₁ b (List.mem_of_getElem? hib))

/-- A search that turns right at the last element finds nothing. -/
theorem bsearch_at_last {cmp : α → Int} (l₁ : List α) {a : α} (h : 0 < cmp a) :
    bsearch (.at l₁.length) cmp (l₁ ++ [a]) = none := by
  rw [bsearch_at, if_neg (by omega), if_pos h]
  cases hres : bsearchIn (.at l₁.length) cmp (l₁ ++ [a]) (l₁.length + 0) (l₁.length + 1)
      (l₁.length + 0 + 1) with
  | none => simp
  | some b =>
    obtain ⟨-, i, h1, h2, -⟩ := bsearchIn_sound _ _ _ _ _ _ b hres
    omega

end CLib
