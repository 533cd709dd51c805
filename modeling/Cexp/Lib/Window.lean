import Mathlib

/-!
# The nearest of many

The first `k` of a sorted list (`best`), kept up to date while more elements come in: an element is
put into its place and the last one is dropped (`best_cons`). An array holds them from its far end,
with empty slots before them (`farFirst`), and an element gets into it by moving those that it
passes (`farFirst_insert`).
-/

namespace CLib

variable {α : Type} (le : α → α → Prop) [DecidableRel le]

/-- The first `k` elements in the order of `le`. -/
def best (k : Nat) (xs : List α) : List α := (xs.insertionSort le).take k

theorem take_orderedInsert (k : Nat) (x : α) (xs : List α) :
    ((xs.take k).orderedInsert le x).take k = (xs.orderedInsert le x).take k := by
  induction xs generalizing k with
  | nil => simp
  | cons y ys ih =>
    cases k with
    | zero => rfl
    | succ k =>
      have hfirst : (y :: ys.take k).take k = (y :: ys).take k := by
        rw [← List.take_succ_cons, List.take_take, Nat.min_eq_left (Nat.le_succ k)]
      rw [List.take_succ_cons, List.orderedInsert_cons, List.orderedInsert_cons]
      split
      · rw [List.take_succ_cons, List.take_succ_cons, hfirst]
      · rw [List.take_succ_cons, List.take_succ_cons, ih]

theorem best_cons (k : Nat) (x : α) (xs : List α) :
    best le k (x :: xs) = ((best le k xs).orderedInsert le x).take k := by
  rw [best, List.insertionSort_cons, ← take_orderedInsert]
  rfl

theorem length_best_le (k : Nat) (xs : List α) : (best le k xs).length ≤ k :=
  List.length_take_le _ _

theorem length_best (k : Nat) (xs : List α) : (best le k xs).length = min k xs.length := by
  rw [best, List.length_take, List.length_insertionSort]

variable {le}

theorem countP_take [IsTrans α le] {xs : List α} (h : xs.Pairwise le) (k : Nat) (y : α) :
    (xs.take k).countP (fun a => le a y) = min k (xs.countP fun a => le a y) := by
  induction xs generalizing k with
  | nil => simp
  | cons x xs ih =>
    obtain ⟨hx, hxs⟩ := List.pairwise_cons.mp h
    cases k with
    | zero => simp
    | succ k =>
      rw [List.take_succ_cons, List.countP_cons, List.countP_cons, ih hxs]
      split
      · omega
      · next hxy =>
        -- what comes behind `x` comes behind `y` too
        have hzero : xs.countP (fun a => le a y) = 0 := by
          rw [List.countP_eq_zero]
          intro a ha hay
          apply hxy
          simpa using trans_of le (hx a ha) (by simpa using hay)
        omega

section

variable [Std.Total le]

/-- An element can also be put behind those that are equal to it. -/
theorem orderedInsert_eq [Std.Antisymm le] {xs : List α} (h : xs.Pairwise le) (x : α) :
    xs.orderedInsert le x =
      (xs.takeWhile fun a => le a x) ++ x :: xs.dropWhile fun a => le a x := by
  induction xs with
  | nil => rfl
  | cons y ys ih =>
    obtain ⟨hy, hys⟩ := List.pairwise_cons.mp h
    rw [List.orderedInsert_cons]
    by_cases hyx : le y x
    · rw [List.takeWhile_cons_of_pos (by simpa using hyx),
        List.dropWhile_cons_of_pos (by simpa using hyx), List.cons_append, ← ih hys]
      split
      · next hxy =>
        -- the two are equal
        have heq : x = y := antisymm hxy hyx
        subst heq
        rw [List.cons.injEq]
        refine ⟨rfl, ?_⟩
        cases ys with
        | nil => rfl
        | cons z zs => rw [List.orderedInsert_cons_of_le le zs (hy z List.mem_cons_self)]
      · rfl
    · have hxy : le x y := (total_of le x y).resolve_right hyx
      rw [if_pos hxy, List.takeWhile_cons_of_neg (by simpa using hyx),
        List.dropWhile_cons_of_neg (by simpa using hyx)]
      rfl

variable [IsTrans α le]

theorem pairwise_best (k : Nat) (xs : List α) : (best le k xs).Pairwise le :=
  (List.pairwise_insertionSort le xs).sublist (List.take_sublist _ _)

theorem countP_best (k : Nat) (xs : List α) (y : α) :
    (best le k xs).countP (fun a => le a y) = min k (xs.countP fun a => le a y) := by
  rw [best, countP_take (List.pairwise_insertionSort le xs),
    (List.perm_insertionSort le xs).countP_eq]

variable [Std.Antisymm le]

/-- The order in which the elements come does not matter. -/
theorem best_perm {xs ys : List α} (h : xs.Perm ys) (k : Nat) : best le k xs = best le k ys := by
  have hsort : xs.insertionSort le = ys.insertionSort le := by
    apply List.Perm.eq_of_pairwise' (List.pairwise_insertionSort le xs)
      (List.pairwise_insertionSort le ys)
    exact (List.perm_insertionSort le xs).trans (h.trans (List.perm_insertionSort le ys).symm)
  rw [best, best, hsort]

/-- An element that comes behind all of a full window changes nothing. -/
theorem best_cons_of_far {k : Nat} {x : α} {xs : List α} (hlen : (best le k xs).length = k)
    (h : ∀ a ∈ best le k xs, le a x) : best le k (x :: xs) = best le k xs := by
  have hall : (best le k xs).takeWhile (fun a => le a x) = best le k xs :=
    List.takeWhile_eq_self_iff.mpr fun a ha => by simpa using h a ha
  rw [best_cons, orderedInsert_eq (pairwise_best k xs), hall, List.take_append_of_le_length hlen.ge,
    List.take_of_length_le hlen.le]

theorem best_append_of_far {k : Nat} {xs ys : List α} (hlen : (best le k xs).length = k)
    (h : ∀ x ∈ ys, ∀ a ∈ best le k xs, le a x) : best le k (ys ++ xs) = best le k xs := by
  induction ys with
  | nil => rfl
  | cons y ys ih =>
    have hrest := ih fun x hx => h x (List.mem_cons_of_mem y hx)
    rw [List.cons_append, best_cons_of_far, hrest]
    · rw [hrest, hlen]
    · rw [hrest]
      exact h y List.mem_cons_self

/-- More elements make no difference exactly if none of them comes before the last place. -/
theorem best_append_iff {k : Nat} {xs ys : List α} :
    best le k (ys ++ xs) = best le k xs ↔ ∀ y ∈ ys, k ≤ xs.countP fun a => le a y := by
  constructor
  · intro h y hy
    have hcount := congrArg (List.countP fun a => le a y) h
    rw [countP_best, countP_best, List.countP_append] at hcount
    have hpos : 0 < ys.countP fun a => le a y :=
      List.countP_pos_iff.mpr ⟨y, hy, by simpa using refl_of le y⟩
    omega
  · intro h
    induction ys with
    | nil => rfl
    | cons y ys ih =>
      have hrest := ih fun x hx => h x (List.mem_cons_of_mem y hx)
      have hy := h y List.mem_cons_self
      have hcount := (countP_best k xs y).trans (Nat.min_eq_left hy)
      have hle : (best le k xs).countP (fun a => le a y) ≤ (best le k xs).length :=
        List.countP_le_length
      have hlen : (best le k xs).length = k :=
        Nat.le_antisymm (length_best_le le k xs) (hcount.ge.trans hle)
      have hall : ∀ a ∈ best le k xs, le a y := by
        intro a ha
        simpa using List.countP_eq_length.mp (hcount.trans hlen.symm) a ha
      have hstep := @best_cons_of_far _ le _ _ _ _ k y (ys ++ xs) (by rw [hrest, hlen])
        (by rw [hrest]; exact hall)
      rw [List.cons_append, hstep, hrest]

end

section

variable {k : Nat} {xs : List α}

theorem best_append_drop (k : Nat) (xs : List α) :
    (best le k xs ++ (xs.insertionSort le).drop k).Perm xs := by
  rw [best, List.take_append_drop]
  exact List.perm_insertionSort le xs

/-- What holds of a full window holds of as many elements. -/
theorem le_countP_of_best {p : α → Bool} (hlen : (best le k xs).length = k)
    (h : ∀ a ∈ best le k xs, p a = true) : k ≤ xs.countP p := by
  rw [← (@best_append_drop α le _ k xs).countP_eq, List.countP_append,
    List.countP_eq_length.mpr h, hlen]
  exact Nat.le_add_right _ _

/-- Fewer than a window come before an element that does not come behind the last of it. -/
theorem countP_before_le [Std.Total le] [IsTrans α le] {near : List α} {l x : α}
    (hbest : best le (near.length + 1) xs = near ++ [l]) (hx : le x l) :
    xs.countP (fun a => !decide (le x a)) ≤ near.length := by
  have hsorted := List.pairwise_insertionSort le xs
  rw [← List.take_append_drop (near.length + 1) (xs.insertionSort le), List.pairwise_append]
    at hsorted
  have hrest : ((xs.insertionSort le).drop (near.length + 1)).countP (fun a => !decide (le x a)) =
      0 := by
    rw [List.countP_eq_zero]
    intro b hb
    have hlb : le l b := hsorted.2.2 l (by rw [← best, hbest]; simp) b hb
    simpa using trans_of le hx hlb
  rw [← (@best_append_drop α le _ (near.length + 1) xs).countP_eq, List.countP_append, hrest, hbest,
    List.countP_append, List.countP_singleton, if_neg (by simpa using hx)]
  exact List.countP_le_length

end

/-! ## An array filled from its far end -/

/-- `k` slots that hold `xs`: the first element is in the last slot, and the slots before the last
element are empty. -/
def farFirst (k : Nat) (xs : List α) : List (Option α) :=
  List.replicate (k - xs.length) none ++ xs.reverse.map some

theorem length_farFirst {k : Nat} {xs : List α} (h : xs.length ≤ k) :
    (farFirst k xs).length = k := by
  rw [farFirst, List.length_append, List.length_replicate, List.length_map, List.length_reverse]
  omega

theorem getElem?_farFirst {k : Nat} {xs : List α} (h : xs.length ≤ k) {i : Nat} (hi : i < k) :
    (farFirst k xs)[k - 1 - i]? = some xs[i]? := by
  by_cases hin : i < xs.length
  · rw [farFirst, List.getElem?_append_right (by rw [List.length_replicate]; omega),
      List.length_replicate, List.getElem?_map,
      List.getElem?_reverse (by omega), List.getElem?_eq_getElem (by omega),
      List.getElem?_eq_getElem hin]
    simp only [Option.map_some]
    congr 3
    omega
  · rw [farFirst, List.getElem?_append_left (by rw [List.length_replicate]; omega),
      List.getElem?_replicate, if_pos (by omega), List.getElem?_eq_none (by omega)]

/-- Does an element that comes to the place of `x` pass what is in a slot? -/
def passes (le : α → α → Prop) [DecidableRel le] (x : α) (o : Option α) : Bool :=
  o.all fun a => !decide (le a x)

theorem takeWhile_append_dropWhile_eq {β : Type} {p : β → Bool} {as bs : List β}
    (has : ∀ a ∈ as, p a = true) (hbs : ∀ b ∈ bs, p b = false) (x : β) :
    (as ++ bs).takeWhile p ++ x :: (as ++ bs).dropWhile p = as ++ x :: bs := by
  rw [List.takeWhile_append_of_pos has, List.dropWhile_append_of_pos has]
  cases bs with
  | nil => simp
  | cons b bs =>
    have hb := hbs b List.mem_cons_self
    rw [List.takeWhile_cons_of_neg (by simp [hb]), List.dropWhile_cons_of_neg (by simp [hb]),
      List.append_nil]

/-- Behind those that `x` does not precede, all elements of a sorted list come behind `x`. -/
theorem not_le_of_mem_dropWhile [IsTrans α le] {xs : List α} (hxs : xs.Pairwise le) {x b : α}
    (hb : b ∈ xs.dropWhile fun a => le a x) : ¬le b x := by
  induction xs with
  | nil => cases hb
  | cons y ys ih =>
    obtain ⟨hy, hys⟩ := List.pairwise_cons.mp hxs
    rw [List.dropWhile_cons] at hb
    split at hb
    · exact ih hys hb
    · next hyx =>
      have hfar : ¬le y x := by simpa using hyx
      intro hbx
      rcases List.mem_cons.mp hb with rfl | hb
      · exact hfar hbx
      · exact hfar (trans_of le (hy b hb) hbx)

/-- `x` passes the empty slots and all that come behind it, and stops at those in front of it. -/
theorem passes_slots {x : α} {as bs : List α} (hnear : ∀ a ∈ as, le a x)
    (hfar : ∀ b ∈ bs, ¬le b x) (c : Nat) :
    ((List.replicate c none ++ bs.reverse.map some) ++ as.reverse.map some).takeWhile
        (passes le x) ++
      some x :: ((List.replicate c none ++ bs.reverse.map some) ++ as.reverse.map some).dropWhile
        (passes le x) =
      (List.replicate c none ++ bs.reverse.map some) ++ some x :: as.reverse.map some := by
  apply takeWhile_append_dropWhile_eq
  · intro o ho
    rcases List.mem_append.mp ho with ho | ho
    · rw [List.eq_of_mem_replicate ho]
      rfl
    · obtain ⟨b, hb, rfl⟩ := List.mem_map.mp ho
      simpa [passes] using hfar b (List.mem_reverse.mp hb)
  · intro o ho
    obtain ⟨a, ha, rfl⟩ := List.mem_map.mp ho
    simpa [passes] using hnear a (List.mem_reverse.mp ha)

/-- The slots but the first are shifted as far as `x` passes, and `x` is put there. -/
theorem farFirst_insert [IsTrans α le] [Std.Total le] [Std.Antisymm le] {k : Nat} {xs : List α}
    (hxs : xs.Pairwise le) (hlen : xs.length ≤ k) {x : α}
    (hroom : xs.length < k ∨ ∃ l ∈ xs.getLast?, le x l) :
    (farFirst k xs).tail.takeWhile (passes le x) ++
        some x :: (farFirst k xs).tail.dropWhile (passes le x) =
      farFirst k ((xs.orderedInsert le x).take k) := by
  have hsplit : (xs.takeWhile fun a => le a x) ++ (xs.dropWhile fun a => le a x) = xs :=
    List.takeWhile_append_dropWhile
  have hnear : ∀ a ∈ xs.takeWhile (fun a => le a x), le a x := by
    intro a ha
    simpa using List.mem_takeWhile_imp ha
  have hfar : ∀ b ∈ xs.dropWhile (fun a => le a x), ¬le b x :=
    fun b hb => not_le_of_mem_dropWhile hxs hb
  rw [orderedInsert_eq hxs]
  generalize hA : xs.takeWhile (fun a => decide (le a x)) = A at hsplit hnear
  generalize hB : xs.dropWhile (fun a => decide (le a x)) = B at hsplit hfar
  subst hsplit
  rw [List.length_append] at hlen hroom
  by_cases hfull : A.length + B.length < k
  · obtain ⟨c, hc⟩ : ∃ c, k - (A ++ B).length = c + 1 :=
      ⟨k - (A ++ B).length - 1, by rw [List.length_append]; omega⟩
    have htail : (farFirst k (A ++ B)).tail =
        (List.replicate c none ++ B.reverse.map some) ++ A.reverse.map some := by
      rw [farFirst, hc]
      simp [List.replicate_succ]
    have hc' : k - (A ++ x :: B).length = c := by
      simp only [List.length_append, List.length_cons] at hc ⊢
      omega
    rw [htail, passes_slots hnear hfar,
      List.take_of_length_le (by simp only [List.length_append, List.length_cons]; omega),
      farFirst, hc']
    simp
  · have hc : k - (A ++ B).length = 0 := by
      rw [List.length_append]
      omega
    rcases List.eq_nil_or_concat B with rfl | ⟨B', b, rfl⟩
    · -- the last one is equal to `x`, and they change places
      obtain ⟨l, hl, hxl⟩ := hroom.resolve_left hfull
      rw [List.append_nil] at hl
      obtain ⟨A', rfl⟩ := List.getLast?_eq_some_iff.mp hl
      have heq : x = l := antisymm hxl (hnear l (by simp))
      subst heq
      have htail : (farFirst k (A' ++ [x] ++ [])).tail =
          (List.replicate 0 none ++ ([] : List α).reverse.map some) ++ A'.reverse.map some := by
        rw [farFirst, hc]
        simp
      have hk' : (A' ++ [x]).length = k := by
        simp only [List.length_nil] at hlen hfull
        omega
      rw [htail, passes_slots (fun a ha => hnear a (List.mem_append_left _ ha)) hfar,
        List.take_left' hk', farFirst, hk', Nat.sub_self]
      simp
    · rw [List.concat_eq_append] at *
      have htail : (farFirst k (A ++ (B' ++ [b]))).tail =
          (List.replicate 0 none ++ B'.reverse.map some) ++ A.reverse.map some := by
        rw [farFirst, hc]
        simp
      have hk' : (A ++ x :: B').length = k := by
        simp only [List.length_append, List.length_cons, List.length_nil] at hlen hfull ⊢
        omega
      have hshift : A ++ x :: (B' ++ [b]) = (A ++ x :: B') ++ [b] := by simp
      rw [htail, passes_slots hnear (fun b' hb' => hfar b' (List.mem_append_left _ hb')), hshift,
        List.take_left' hk', farFirst, hk', Nat.sub_self]
      simp

end CLib
