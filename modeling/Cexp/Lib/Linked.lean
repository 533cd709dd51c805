import Mathlib

/-!
# Sorted linked lists

A singly linked list hangs on a cell that is not part of it: `next` gives the cell behind a cell,
and `Linked next h l` says that the cells behind `h` are those of `l`. `findN` walks along while the
comparison is negative and gives the cell it stopped behind and the cell it found. In a list that is
sorted by a key it finds the key or the place where it belongs (`findN_sorted`); linking a cell in
there and unlinking one that was found are updates of one link (`Linked.insert`, `Linked.remove`).
-/

namespace CLib

variable {α : Type}

/-- The cells behind `h`, in order. -/
def Linked (next : α → Option α) : α → List α → Prop
  | h, [] => next h = none
  | h, a :: l => next h = some a ∧ Linked next a l

/-- The last of `h` and the cells behind it. -/
def lastCell : α → List α → α
  | h, [] => h
  | _, a :: l => lastCell a l

/-- Walk from the cell `v` behind `p` while the comparison is negative, over at most `n` links. The
comparison of a cell may fail. -/
def findN (next : α → Option α) (comp : α → Option Int) : Nat → Option α → α → Option (α × Option α)
  | 0, _, _ => none
  | _ + 1, none, p => some (p, none)
  | n + 1, some v, p =>
    match comp v with
    | none => none
    | some c =>
      if c < 0 then findN next comp n (next v) v else some (p, if c = 0 then some v else none)

/-! ## Links -/

section

variable {next : α → Option α} {h a : α} {l l₁ l₂ : List α}

theorem Linked.unique {l' : List α} (hl : Linked next h l) (hl' : Linked next h l') : l = l' := by
  induction l generalizing h l' with
  | nil =>
    cases l' with
    | nil => rfl
    | cons b l' => cases hl.symm.trans hl'.1
  | cons a l ih =>
    cases l' with
    | nil => cases hl'.symm.trans hl.1
    | cons b l' =>
      cases hl.1.symm.trans hl'.1
      rw [ih hl.2 hl'.2]

/-- Links that are not followed do not matter. -/
theorem Linked.congr {next' : α → Option α} (hl : Linked next h l)
    (heq : ∀ a ∈ h :: l, next' a = next a) : Linked next' h l := by
  induction l generalizing h with
  | nil => exact (heq h List.mem_cons_self).trans hl
  | cons a l ih =>
    refine ⟨(heq h List.mem_cons_self).trans hl.1, ih hl.2 ?_⟩
    intro b hb
    exact heq b (List.mem_cons_of_mem h hb)

theorem lastCell_mem (h : α) (l : List α) : lastCell h l ∈ h :: l := by
  induction l generalizing h with
  | nil => exact List.mem_cons_self
  | cons a l ih => exact List.mem_cons_of_mem h (ih a)

variable [DecidableEq α]

/-- A cell with another link, behind which the list goes on as it did. -/
theorem Linked.hang {b : α} (hl : Linked next h l) (hb : b ∉ l) :
    Linked (Function.update next b (next h)) b l := by
  cases l with
  | nil =>
    have hself : Function.update next b (next h) b = next h := Function.update_self b _ next
    exact hself.trans hl
  | cons a l =>
    refine ⟨(Function.update_self b (next h) next).trans hl.1, hl.2.congr ?_⟩
    intro c hc
    apply Function.update_of_ne
    rintro rfl
    exact hb hc

/-- Linking in a cell behind the last of `l₁`. -/
theorem Linked.insert (hl : Linked next h (l₁ ++ l₂)) (hnodup : (h :: (l₁ ++ l₂)).Nodup)
    (ha : a ∉ h :: (l₁ ++ l₂)) :
    Linked (Function.update (Function.update next a (next (lastCell h l₁)))
      (lastCell h l₁) (some a)) h (l₁ ++ a :: l₂) := by
  induction l₁ generalizing h with
  | nil =>
    refine ⟨Function.update_self _ _ _, (hl.hang (b := a) ?_).congr ?_⟩
    · exact fun hmem => ha (List.mem_cons_of_mem h hmem)
    · intro c hc
      apply Function.update_of_ne
      rintro rfl
      rcases List.mem_cons.mp hc with rfl | hmem
      · exact ha List.mem_cons_self
      · exact (List.nodup_cons.mp hnodup).1 hmem
  | cons b l₁ ih =>
    obtain ⟨hh, hrest⟩ := List.nodup_cons.mp hnodup
    refine ⟨?_, ih hl.2 hrest fun hmem => ha (List.mem_cons_of_mem h hmem)⟩
    have hlast : h ≠ lastCell b l₁ := by
      intro heq
      have hmem := lastCell_mem b l₁
      rw [← heq] at hmem
      exact hh (List.mem_append_left l₂ hmem)
    have hha : h ≠ a := fun heq => ha (heq ▸ List.mem_cons_self)
    rw [lastCell, Function.update_of_ne hlast, Function.update_of_ne hha]
    exact hl.1

/-- Unlinking the cell behind the last of `l₁`. -/
theorem Linked.remove (hl : Linked next h (l₁ ++ a :: l₂)) (hnodup : (h :: (l₁ ++ a :: l₂)).Nodup) :
    Linked (Function.update next (lastCell h l₁) (next a)) h (l₁ ++ l₂) := by
  induction l₁ generalizing h with
  | nil =>
    apply hl.2.hang
    exact fun hmem => (List.nodup_cons.mp hnodup).1 (List.mem_cons_of_mem a hmem)
  | cons b l₁ ih =>
    obtain ⟨hh, hrest⟩ := List.nodup_cons.mp hnodup
    refine ⟨?_, ih hl.2 hrest⟩
    have hlast : h ≠ lastCell b l₁ := by
      intro heq
      have hmem := lastCell_mem b l₁
      rw [← heq] at hmem
      exact hh (List.mem_append_left (a :: l₂) hmem)
    rw [lastCell, Function.update_of_ne hlast]
    exact hl.1

end

/-! ## Search -/

section

variable {next : α → Option α} {comp : α → Option Int} {h : α} {l l₁ l₂ : List α}

/-- A search that is over stays so with more links to follow. -/
theorem findN_mono {n n' : Nat} {v : Option α} {p : α} {r : α × Option α} (hle : n ≤ n')
    (hr : findN next comp n v p = some r) : findN next comp n' v p = some r := by
  induction n generalizing n' v p with
  | zero => cases hr
  | succ n ih =>
    obtain ⟨n', rfl⟩ := Nat.exists_eq_succ_of_ne_zero (Nat.ne_zero_of_lt hle)
    cases v with
    | none => exact hr
    | some v =>
      cases hc : comp v with
      | none =>
        rw [findN, hc] at hr
        cases hr
      | some c =>
        rw [findN, hc] at hr ⊢
        by_cases hneg : c < 0
        · exact (if_pos hneg).trans (ih (Nat.le_of_succ_le_succ hle) ((if_pos hneg).symm.trans hr))
        · exact (if_neg hneg).trans ((if_neg hneg).symm.trans hr)

theorem findN_walk (hl : Linked next h (l₁ ++ l₂))
    (hlow : ∀ a ∈ l₁, ∃ c, comp a = some c ∧ c < 0) {n : Nat} (hn : l₁.length < n) :
    ∃ m, 0 < m ∧ findN next comp n (next h) h =
      findN next comp m (next (lastCell h l₁)) (lastCell h l₁) := by
  induction l₁ generalizing h n with
  | nil => exact ⟨n, by omega, rfl⟩
  | cons a l₁ ih =>
    obtain ⟨c, hc, hneg⟩ := hlow a List.mem_cons_self
    obtain ⟨n, rfl⟩ := Nat.exists_eq_succ_of_ne_zero (Nat.ne_zero_of_lt hn)
    obtain ⟨m, hm, heq⟩ := ih hl.2 (fun b hb => hlow b (List.mem_cons_of_mem a hb))
      (Nat.lt_of_succ_lt_succ hn)
    refine ⟨m, hm, ?_⟩
    rw [hl.1, findN, hc]
    exact (if_pos hneg).trans heq

theorem Linked.drop (hl : Linked next h (l₁ ++ l₂)) : Linked next (lastCell h l₁) l₂ := by
  induction l₁ generalizing h with
  | nil => exact hl
  | cons a l₁ ih => exact ih hl.2

variable {κ : Type} [LinearOrder κ] {key : α → κ} {x : κ}

/-- A sorted list parts where a key belongs. -/
theorem exists_parting (hs : l.Pairwise fun a b => key a < key b) (x : κ) :
    ∃ l₁ l₂, l = l₁ ++ l₂ ∧ (∀ a ∈ l₁, key a < x) ∧ ∀ a ∈ l₂, x ≤ key a := by
  induction l with
  | nil => exact ⟨[], [], rfl, by simp, by simp⟩
  | cons a l ih =>
    obtain ⟨ha, hrest⟩ := List.pairwise_cons.mp hs
    rcases lt_or_ge (key a) x with hlt | hge
    · obtain ⟨l₁, l₂, rfl, h₁, h₂⟩ := ih hrest
      exact ⟨a :: l₁, l₂, rfl, List.forall_mem_cons.mpr ⟨hlt, h₁⟩, h₂⟩
    · refine ⟨[], a :: l, rfl, by simp, List.forall_mem_cons.mpr ⟨hge, ?_⟩⟩
      intro b hb
      exact hge.trans (ha b hb).le

/-- Two cells of a sorted list do not have one key. -/
theorem key_inj_of_sorted (hs : l.Pairwise fun a b => key a < key b) {a b : α} (ha : a ∈ l)
    (hb : b ∈ l) (heq : key a = key b) : a = b := by
  induction l with
  | nil => cases ha
  | cons c l ih =>
    obtain ⟨hc, hrest⟩ := List.pairwise_cons.mp hs
    rcases List.mem_cons.mp ha with hac | hal
    · rcases List.mem_cons.mp hb with hbc | hbl
      · rw [hac, hbc]
      · rw [hac] at heq
        exact absurd heq (hc b hbl).ne
    · rcases List.mem_cons.mp hb with hbc | hbl
      · rw [hbc] at heq
        exact absurd heq.symm (hc a hal).ne
      · exact ih hrest hal hbl

/-- The search in a sorted list stops at the cell with the key, or at the place where a cell with the
key belongs. -/
theorem findN_sorted (hl : Linked next h l) (hs : l.Pairwise fun a b => key a < key b)
    (hcomp : ∀ a ∈ l, ∃ c, comp a = some c ∧ (c < 0 ↔ key a < x) ∧ (c = 0 ↔ key a = x)) :
    (∃ l₁ a l₂, l = l₁ ++ a :: l₂ ∧ key a = x ∧
      ∀ n, l.length < n → findN next comp n (next h) h = some (lastCell h l₁, some a)) ∨
    (∃ l₁ l₂, l = l₁ ++ l₂ ∧ (∀ a ∈ l₁, key a < x) ∧ (∀ a ∈ l₂, x < key a) ∧
      ∀ n, l.length < n → findN next comp n (next h) h = some (lastCell h l₁, none)) := by
  obtain ⟨l₁, l₂, rfl, h₁, h₂⟩ := exists_parting hs x
  have hlow : ∀ a ∈ l₁, ∃ c, comp a = some c ∧ c < 0 := by
    intro a ha
    obtain ⟨c, hc, hneg, -⟩ := hcomp a (List.mem_append_left l₂ ha)
    exact ⟨c, hc, hneg.mpr (h₁ a ha)⟩
  have hwalk : ∀ n, (l₁ ++ l₂).length < n → ∃ m, findN next comp n (next h) h =
      findN next comp (m + 1) (next (lastCell h l₁)) (lastCell h l₁) := by
    intro n hn
    rw [List.length_append] at hn
    obtain ⟨m, hm, heq⟩ := findN_walk hl hlow (n := n) (by omega)
    obtain ⟨m, rfl⟩ := Nat.exists_eq_succ_of_ne_zero (Nat.ne_of_gt hm)
    exact ⟨m, heq⟩
  have hstop := hl.drop
  cases l₂ with
  | nil =>
    right
    refine ⟨l₁, [], rfl, h₁, by simp, ?_⟩
    intro n hn
    obtain ⟨m, heq⟩ := hwalk n hn
    rw [heq, show next (lastCell h l₁) = none from hstop]
    rfl
  | cons b l₂ =>
    obtain ⟨c, hc, hneg, hzero⟩ := hcomp b (List.mem_append_right l₁ List.mem_cons_self)
    have hnot : ¬c < 0 := by
      rw [hneg]
      exact not_lt.mpr (h₂ b List.mem_cons_self)
    by_cases hx : key b = x
    · left
      refine ⟨l₁, b, l₂, rfl, hx, ?_⟩
      intro n hn
      obtain ⟨m, heq⟩ := hwalk n hn
      rw [heq, hstop.1, findN, hc]
      refine (if_neg hnot).trans ?_
      rw [if_pos (hzero.mpr hx)]
    · right
      have hlt : x < key b := lt_of_le_of_ne (h₂ b List.mem_cons_self) (Ne.symm hx)
      obtain ⟨hrest, -⟩ := List.pairwise_cons.mp (List.pairwise_append.mp hs).2.1
      have hhigh : ∀ a ∈ b :: l₂, x < key a :=
        List.forall_mem_cons.mpr ⟨hlt, fun a ha => hlt.trans (hrest a ha)⟩
      refine ⟨l₁, b :: l₂, rfl, h₁, hhigh, ?_⟩
      intro n hn
      obtain ⟨m, heq⟩ := hwalk n hn
      rw [heq, hstop.1, findN, hc]
      refine (if_neg hnot).trans ?_
      rw [if_neg (mt hzero.mp hx)]

/-- A sorted list stays sorted with a cell linked in at the place of its key. -/
theorem pairwise_insert {a : α} (hs : (l₁ ++ l₂).Pairwise fun a b => key a < key b)
    (h₁ : ∀ b ∈ l₁, key b < key a) (h₂ : ∀ b ∈ l₂, key a < key b) :
    (l₁ ++ a :: l₂).Pairwise fun a b => key a < key b := by
  obtain ⟨hs₁, hs₂, hcross⟩ := List.pairwise_append.mp hs
  refine List.pairwise_append.mpr ⟨hs₁, List.pairwise_cons.mpr ⟨h₂, hs₂⟩, ?_⟩
  intro b hb c hc
  rcases List.mem_cons.mp hc with rfl | hc
  · exact h₁ b hb
  · exact hcross b hb c hc

end

end CLib
