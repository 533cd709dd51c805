import Cexp.Lib.Search
import Mathlib.Data.List.FinRange

/-!
# Sorting in place

A routine that sorts an array in place can do two things: compare two elements, which it names by
their positions, and exchange two elements. What it does next depends on the results of the
comparisons. The comparison function is called with pointers, so it sees the positions, too.

`qsort` has to sort if the results do not depend on the positions and are consistent
(`Qsort.Conforming`). Exchanging all pairs in turn is such a routine (`exchangeSort_conforming`).
Another one exchanges two neighbours after the sorting and exchanges them back if they compare as
greater (`Qsort.Conforming.retry`); a comparison function that tells equal elements by their
positions keeps them exchanged.
-/

namespace CLib

/-- A program for an array of `n` elements. -/
inductive Sorter (n : Nat) where
  | done
  | swap (i j : Fin n) (next : Sorter n)
  | compare (i j : Fin n) (next : Int → Sorter n)

namespace Sorter

variable {α : Type} {n : Nat}

/-- What a program leaves of an array; the element `a` at `i` compares with the element `b` at `j`
as `cmp i a j b`. -/
def run (cmp : Nat → α → Nat → α → Int) : Sorter n → (Fin n → α) → Fin n → α
  | done, v => v
  | swap i j next, v => next.run cmp (v ∘ Equiv.swap i j)
  | compare i j next, v => (next (cmp i (v i) j (v j))).run cmp v

/-- One program after the other. -/
def append : Sorter n → Sorter n → Sorter n
  | done, t => t
  | swap i j next, t => swap i j (next.append t)
  | compare i j next, t => compare i j fun c => (next c).append t

theorem run_append (cmp : Nat → α → Nat → α → Int) (s t : Sorter n) (v : Fin n → α) :
    (s.append t).run cmp v = t.run cmp (s.run cmp v) := by
  induction s generalizing v with
  | done => rfl
  | swap i j next ih => exact ih _
  | compare i j next ih => exact ih _ v

/-- A program permutes the array. -/
theorem exists_perm (cmp : Nat → α → Nat → α → Int) (s : Sorter n) (v : Fin n → α) :
    ∃ σ : Equiv.Perm (Fin n), s.run cmp v = v ∘ σ := by
  induction s generalizing v with
  | done => exact ⟨Equiv.refl _, rfl⟩
  | swap i j next ih =>
    obtain ⟨σ, hσ⟩ := ih (v ∘ Equiv.swap i j)
    exact ⟨σ.trans (Equiv.swap i j), hσ⟩
  | compare i j next ih => exact ih _ v

/-- Two comparison functions that agree on all arrangements of the array make no difference. -/
theorem run_congr {cmp cmp' : Nat → α → Nat → α → Int} (s : Sorter n) {v : Fin n → α}
    (h : ∀ (σ : Equiv.Perm (Fin n)) (i j : Fin n),
      cmp i (v (σ i)) j (v (σ j)) = cmp' i (v (σ i)) j (v (σ j))) :
    s.run cmp v = s.run cmp' v := by
  induction s generalizing v with
  | done => rfl
  | swap i j next ih => exact ih fun σ => h (σ.trans (Equiv.swap i j))
  | compare i j next ih =>
    have hij : cmp i (v i) j (v j) = cmp' i (v i) j (v j) := h (Equiv.refl _) i j
    rw [run, run, hij]
    exact ih _ h

/-- Exchange two elements if the first one is greater. -/
def exchange (i j : Fin n) (next : Sorter n) : Sorter n :=
  compare i j fun c => if 0 < c then swap i j next else next

/-- Exchanges at the pairs of a list. -/
def exchanges (ps : List (Fin n × Fin n)) : Sorter n :=
  ps.foldr (fun p next => exchange p.1 p.2 next) done

end Sorter

/-- A routine has a program for each length of the array. -/
def Qsort : Type := (n : Nat) → Sorter n

variable {α : Type}

def Qsort.sort (q : Qsort) (cmp : Nat → α → Nat → α → Int) (l : List α) : List α :=
  List.ofFn ((q l.length).run cmp l.get)

/-- The routine does what is promised of `qsort` for comparison functions that do not look at the
positions. -/
def Qsort.Conforming (q : Qsort) : Prop :=
  ∀ (α : Type) (cmp : α → α → Int) (l : List α), Sorts cmp l (q.sort (fun _ a _ b => cmp a b) l)

theorem Qsort.sort_perm (q : Qsort) (cmp : Nat → α → Nat → α → Int) (l : List α) :
    (q.sort cmp l).Perm l := by
  obtain ⟨σ, hσ⟩ := (q l.length).exists_perm cmp l.get
  rw [sort, hσ]
  exact (σ.ofFn_comp_perm l.get).trans (by rw [List.ofFn_get])

/-! ## Exchanges in turn -/

section

variable {n : Nat} {cmp : α → α → Int} {l : List α}

/-- One exchange on an array. -/
def exchangeAt (cmp : α → α → Int) (v : Fin n → α) (p : Fin n × Fin n) : Fin n → α :=
  if 0 < cmp (v p.1) (v p.2) then v ∘ Equiv.swap p.1 p.2 else v

theorem run_exchange (i j : Fin n) (next : Sorter n) (v : Fin n → α) :
    (Sorter.exchange i j next).run (fun _ a _ b => cmp a b) v =
      next.run (fun _ a _ b => cmp a b) (exchangeAt cmp v (i, j)) := by
  rw [Sorter.exchange, Sorter.run, exchangeAt]
  split
  · rfl
  · rfl

theorem run_exchanges (ps : List (Fin n × Fin n)) (v : Fin n → α) :
    (Sorter.exchanges ps).run (fun _ a _ b => cmp a b) v = ps.foldl (exchangeAt cmp) v := by
  induction ps generalizing v with
  | nil => rfl
  | cons p ps ih => exact (run_exchange p.1 p.2 _ v).trans (ih _)

theorem Consistent.refl (hc : Consistent cmp l) {a : α} (ha : a ∈ l) : cmp a a ≤ 0 := by
  have := hc.swap a ha a ha
  omega

/-- The elements of the array are in the list. -/
def Within (l : List α) (v : Fin n → α) : Prop := ∀ i, v i ∈ l

theorem Within.exchangeAt {v : Fin n → α} (hv : Within l v) (p : Fin n × Fin n) :
    Within l (exchangeAt cmp v p) := by
  intro i
  rw [CLib.exchangeAt]
  split
  · exact hv _
  · exact hv i

/-- An exchange of `i` with an element behind it: `i` is not above what it was not above before, nor
above the other one. -/
theorem exchangeAt_least (hc : Consistent cmp l) {v : Fin n → α} (hv : Within l v) {i j b : Fin n}
    (h : b = j ∨ cmp (v i) (v b) ≤ 0) :
    cmp (exchangeAt cmp v (i, j) i) (exchangeAt cmp v (i, j) b) ≤ 0 := by
  rw [exchangeAt]
  split
  · next hgt =>
    dsimp only at hgt
    have hback : cmp (v j) (v i) < 0 := (hc.swap _ (hv j) _ (hv i)).mpr hgt
    rw [Function.comp_apply, Function.comp_apply, Equiv.swap_apply_left]
    by_cases hbj : b = j
    · rw [hbj, Equiv.swap_apply_right]
      exact Int.le_of_lt hback
    · by_cases hbi : b = i
      · rw [hbi, Equiv.swap_apply_left]
        exact hc.refl (hv j)
      · rw [Equiv.swap_apply_of_ne_of_ne hbi hbj]
        exact hc.trans _ (hv j) _ (hv i) _ (hv b) (Int.le_of_lt hback) (h.resolve_left hbj)
  · next hle =>
    dsimp only at hle
    rcases h with rfl | h
    · exact Int.not_lt.mp hle
    · exact h

/-- The exchanges of `i` with elements behind it. -/
def passFrom (cmp : α → α → Int) (i : Fin n) (js : List (Fin n)) (v : Fin n → α) : Fin n → α :=
  (js.map fun j => (i, j)).foldl (exchangeAt cmp) v

theorem passFrom_least (hc : Consistent cmp l) {i : Fin n} {js : List (Fin n)} {v : Fin n → α}
    (hv : Within l v) {b : Fin n} (h : b ∈ js ∨ cmp (v i) (v b) ≤ 0) :
    cmp (passFrom cmp i js v i) (passFrom cmp i js v b) ≤ 0 := by
  induction js generalizing v with
  | nil => exact h.resolve_left List.not_mem_nil
  | cons j js ih =>
    apply ih (hv.exchangeAt (i, j))
    rw [List.mem_cons, or_assoc] at h
    rcases h with hbj | hb | hle
    · exact Or.inr (exchangeAt_least hc hv (Or.inl hbj))
    · exact Or.inl hb
    · exact Or.inr (exchangeAt_least hc hv (Or.inr hle))

theorem passFrom_within {i : Fin n} {js : List (Fin n)} {v : Fin n → α} (hv : Within l v) :
    Within l (passFrom cmp i js v) := by
  induction js generalizing v with
  | nil => exact hv
  | cons j js ih => exact ih (hv.exchangeAt (i, j))

/-- A pass from `i` on leaves what is in front of `i` and rearranges the others. -/
theorem passFrom_frame (cmp : α → α → Int) {i : Fin n} {js : List (Fin n)}
    (hjs : ∀ j ∈ js, i < j) (v : Fin n → α) (b : Fin n) :
    (b < i → passFrom cmp i js v b = v b) ∧ (i ≤ b → ∃ c, i ≤ c ∧ passFrom cmp i js v b = v c) := by
  induction js generalizing v b with
  | nil => exact ⟨fun _ => rfl, fun hb => ⟨b, hb, rfl⟩⟩
  | cons j js ih =>
    rw [List.forall_mem_cons] at hjs
    have hstep : ∀ b, (b < i → exchangeAt cmp v (i, j) b = v b) ∧
        (i ≤ b → ∃ c, i ≤ c ∧ exchangeAt cmp v (i, j) b = v c) := by
      intro b
      rw [exchangeAt]
      split
      · refine ⟨fun hb => ?_, fun hb => ⟨Equiv.swap i j b, ?_, rfl⟩⟩
        · rw [Function.comp_apply,
            Equiv.swap_apply_of_ne_of_ne hb.ne (hb.trans hjs.1).ne]
        · rw [Equiv.swap_apply_def]
          split
          · exact hjs.1.le
          · split
            · exact le_refl i
            · exact hb
      · exact ⟨fun _ => rfl, fun hb => ⟨b, hb, rfl⟩⟩
    obtain ⟨hbefore, hbehind⟩ := ih hjs.2 (exchangeAt cmp v (i, j)) b
    refine ⟨fun hb => (hbefore hb).trans ((hstep b).1 hb), fun hb => ?_⟩
    obtain ⟨c, hc, heq⟩ := hbehind hb
    obtain ⟨d, hd, heq'⟩ := (hstep c).2 hc
    exact ⟨d, hd, heq.trans heq'⟩

/-- The positions behind `i`. -/
def behind (i : Fin n) : List (Fin n) := (List.finRange n).filter fun j => decide (i < j)

theorem mem_behind {i j : Fin n} : j ∈ behind i ↔ i < j := by
  simp [behind]

/-- Passes from each of some positions on. -/
def passesFrom (cmp : α → α → Int) (is : List (Fin n)) (v : Fin n → α) : Fin n → α :=
  is.foldl (fun v i => passFrom cmp i (behind i) v) v

/-- What is not above the elements behind it stays so, and each pass adds its position. -/
theorem passesFrom_sorted (hc : Consistent cmp l) {is : List (Fin n)} (hpw : is.Pairwise (· < ·))
    {v : Fin n → α} (hv : Within l v) {a b : Fin n} (hab : a ≤ b)
    (h : a ∈ is ∨ ((∀ i ∈ is, a < i) ∧ ∀ c, a ≤ c → cmp (v a) (v c) ≤ 0)) :
    cmp (passesFrom cmp is v a) (passesFrom cmp is v b) ≤ 0 := by
  induction is generalizing v with
  | nil => exact (h.resolve_left List.not_mem_nil).2 b hab
  | cons i is ih =>
    rw [List.pairwise_cons] at hpw
    apply ih hpw.2 (passFrom_within hv)
    rw [List.mem_cons, List.forall_mem_cons, or_assoc] at h
    rcases h with rfl | hmem | ⟨⟨hai, hais⟩, hle⟩
    · -- the pass from `a` on
      refine Or.inr ⟨hpw.1, fun c hac => passFrom_least hc hv ?_⟩
      rcases lt_or_eq_of_le hac with hlt | rfl
      · exact Or.inl (mem_behind.mpr hlt)
      · exact Or.inr (hc.refl (hv a))
    · exact Or.inl hmem
    · refine Or.inr ⟨hais, fun c hac => ?_⟩
      have hframe := passFrom_frame cmp (fun j hj => (mem_behind (i := i)).mp hj) v
      rw [(hframe a).1 hai]
      rcases lt_or_ge c i with hci | hic
      · rw [(hframe c).1 hci]
        exact hle c hac
      · obtain ⟨d, hd, heq⟩ := (hframe c).2 hic
        rw [heq]
        exact hle d (hai.le.trans hd)

end

/-- Exchanges of each position with all of those behind it. -/
def exchangeSort : Qsort := fun n =>
  Sorter.exchanges ((List.finRange n).flatMap fun i => (behind i).map fun j => (i, j))

theorem exchangeSort_run {n : Nat} (cmp : α → α → Int) (v : Fin n → α) :
    (exchangeSort n).run (fun _ a _ b => cmp a b) v = passesFrom cmp (List.finRange n) v := by
  rw [exchangeSort, run_exchanges, List.foldl_flatMap]
  rfl

theorem exchangeSort_conforming : exchangeSort.Conforming := by
  intro α cmp l
  refine ⟨exchangeSort.sort_perm _ l, fun hc => ?_⟩
  rw [Qsort.sort, exchangeSort_run, List.pairwise_ofFn]
  intro i j hij
  exact passesFrom_sorted hc (List.pairwise_lt_finRange l.length) (fun k => List.get_mem l k) hij.le
    (Or.inl (List.mem_finRange i))

/-! ## Exchanging two neighbours again -/

/-- Exchange the neighbours `k` and `k + 1`, and exchange them back if they are out of order. -/
def Sorter.retry (n k : Nat) : Sorter n :=
  if h : k + 1 < n then
    swap ⟨k, Nat.lt_of_succ_lt h⟩ ⟨k + 1, h⟩
      (exchange ⟨k, Nat.lt_of_succ_lt h⟩ ⟨k + 1, h⟩ done)
  else done

def Qsort.retry (q : Qsort) (k : Nat) : Qsort := fun n => (q n).append (Sorter.retry n k)

/-- An exchange of two neighbours keeps the order of all others. -/
theorem swap_neighbours {n : Nat} {a b i j : Fin n} (hab : b.val = a.val + 1) (hij : i < j)
    (hne : ¬ (i = a ∧ j = b)) : Equiv.swap a b i < Equiv.swap a b j := by
  rw [Equiv.swap_apply_def, Equiv.swap_apply_def]
  simp only [Fin.ext_iff, Fin.lt_def] at *
  split_ifs <;> omega

/-- A sorted array stays sorted. -/
theorem retry_sorted {n k : Nat} {cmp : α → α → Int} {v : Fin n → α}
    (h : ∀ i j, i < j → cmp (v i) (v j) ≤ 0) {i j : Fin n} (hij : i < j) :
    cmp ((Sorter.retry n k).run (fun _ a _ b => cmp a b) v i)
      ((Sorter.retry n k).run (fun _ a _ b => cmp a b) v j) ≤ 0 := by
  rw [Sorter.retry]
  split
  · next hk =>
    rw [Sorter.run, run_exchange, Sorter.run, exchangeAt]
    dsimp only
    generalize ha : (⟨k, Nat.lt_of_succ_lt hk⟩ : Fin n) = a
    generalize hb : (⟨k + 1, hk⟩ : Fin n) = b
    have hab : b.val = a.val + 1 := by rw [← ha, ← hb]
    split
    · have hback : (v ∘ Equiv.swap a b) ∘ Equiv.swap a b = v := by
        ext c
        rw [Function.comp_apply, Function.comp_apply, Equiv.swap_apply_self]
      rw [hback]
      exact h i j hij
    · next hle =>
      -- both neighbours are not above one another
      rw [Function.comp_apply, Function.comp_apply]
      by_cases hpair : i = a ∧ j = b
      · rw [hpair.1, hpair.2]
        exact Int.not_lt.mp hle
      · exact h _ _ (swap_neighbours hab hij hpair)
  · exact h i j hij

theorem Qsort.Conforming.retry {q : Qsort} (hq : q.Conforming) (k : Nat) :
    (q.retry k).Conforming := by
  intro α cmp l
  refine ⟨(q.retry k).sort_perm _ l, fun hc => ?_⟩
  have hsorted := (hq α cmp l).sorted hc
  rw [sort, List.pairwise_ofFn] at hsorted ⊢
  intro i j hij
  rw [Qsort.retry, Sorter.run_append]
  exact retry_sorted (fun i j hij => hsorted hij) hij

/-- Neighbours that do not compare as greater at the positions of each other stay exchanged. -/
theorem retry_swapped {n k : Nat} {cmp : Nat → α → Nat → α → Int} {v : Fin n → α} (hk : k + 1 < n)
    (h : cmp k (v ⟨k + 1, hk⟩) (k + 1) (v ⟨k, Nat.lt_of_succ_lt hk⟩) ≤ 0) :
    (Sorter.retry n k).run cmp v = v ∘ Equiv.swap ⟨k, Nat.lt_of_succ_lt hk⟩ ⟨k + 1, hk⟩ := by
  rw [Sorter.retry, dif_pos hk, Sorter.run, Sorter.exchange, Sorter.run]
  rw [Function.comp_apply, Function.comp_apply, Equiv.swap_apply_left, Equiv.swap_apply_right,
    if_neg (Int.not_lt.mpr h), Sorter.run]

end CLib
