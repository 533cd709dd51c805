import Cexp.Syms.Squeeze
import Mathlib.Data.List.TakeWhile

/-!
# Searching a table for matching names

`_cexpSymTblLookupRegex` looks for names that match a regular expression, from an element of the
array on and until the number of matches is used up. It goes by the null name behind the array and
not by the number of entries, so it also sees what `cexpSortSymTbl` has squeezed out. The regular
expression is what the library makes of it: a predicate on names.
-/

namespace Cexp

/-- `cexp_regexec` on the name of a symbol that has one. -/
def CexpSym.matched (rc : CStr → Bool) (s : CexpSym) : Bool := s.name.any rc

/-- The elements in front of the null name. -/
def CexpSymTbl.slots (t : CexpSymTbl) : List CexpSym := t.syms.takeWhile fun s => s.name.isSome

/-- An element without a name ends the array, behind all entries. -/
structure CexpSymTbl.Ended (t : CexpSymTbl) : Prop where
  ends : t.slots.length < t.syms.length
  entries : t.nentries ≤ t.slots.length

/-- The positions of the matches in the list, whose first element has the number `i`. -/
def matchesFrom (rc : CStr → Bool) : List CexpSym → Nat → List Nat
  | [], _ => []
  | e :: rest, i => if e.matched rc then i :: matchesFrom rc rest (i + 1) else
      matchesFrom rc rest (i + 1)

/-- The entries that match. -/
def CexpSymTbl.matching (rc : CStr → Bool) (t : CexpSymTbl) : List Nat :=
  matchesFrom rc t.entries 0

/-! ## The search -/

/-- The loop of `_cexpSymTblLookupRegex` at the element number `i`, where `rest` begins. What comes
back is the last match and what is left of `*pmax`; there is no result if the loop runs past the
array. -/
def tblLookupLoop (rc : CStr → Bool) :
    List CexpSym → Nat → Int → Option Nat → Option (Option Nat × Int)
  | [], _, _, _ => none
  | e :: rest, i, max, found =>
    match e.name with
    | none => some (none, max)
    | some name =>
      if max = 0 then some (found, max)
      else if rc name then tblLookupLoop rc rest (i + 1) (max - 1) (some i)
      else tblLookupLoop rc rest (i + 1) max found

/-- `_cexpSymTblLookupRegex`. The position 0 is that of the first symbol, which is also where the
search starts if no symbol is given. -/
def cexpSymTblLookupRegex (rc : CStr → Bool) (max : Int) (s : Nat) (t : CexpSymTbl) :
    Option (Option Nat × Int) :=
  tblLookupLoop rc (t.syms.drop s) s max none

/-! ## Elements in front of the null name -/

section

variable {rc : CStr → Bool} {t : CexpSymTbl}

theorem matched_of_name {e : CexpSym} {name : CStr} (h : e.name = some name) :
    e.matched rc = rc name := by
  rw [CexpSym.matched, h]
  rfl

theorem matchesFrom_append (l₁ l₂ : List CexpSym) (i : Nat) :
    matchesFrom rc (l₁ ++ l₂) i = matchesFrom rc l₁ i ++ matchesFrom rc l₂ (i + l₁.length) := by
  induction l₁ generalizing i with
  | nil => rfl
  | cons e l₁ ih =>
    have hlength : i + 1 + l₁.length = i + (e :: l₁).length := by
      rw [List.length_cons]
      omega
    rw [List.cons_append, matchesFrom, matchesFrom, ih, hlength]
    split
    · rfl
    · rfl

theorem matchesFrom_eq_nil {l : List CexpSym} {i : Nat} :
    matchesFrom rc l i = [] ↔ ∀ e ∈ l, e.matched rc = false := by
  induction l generalizing i with
  | nil => exact iff_of_true rfl (List.forall_mem_nil _)
  | cons e l ih =>
    rw [matchesFrom, List.forall_mem_cons, ← ih (i := i + 1)]
    cases e.matched rc with
    | true => simp
    | false => simp

/-- The numbers of the matches go up. -/
theorem matchesFrom_bounds (l : List CexpSym) (i : Nat) :
    ∀ k ∈ matchesFrom rc l i, i ≤ k ∧ k < i + l.length := by
  induction l generalizing i with
  | nil =>
    intro k hk
    cases hk
  | cons e l ih =>
    intro k hk
    rw [List.length_cons]
    rw [matchesFrom] at hk
    split at hk
    · rcases List.mem_cons.mp hk with rfl | hk
      · omega
      · have := ih (i + 1) k hk
        omega
    · have := ih (i + 1) k hk
      omega

/-- Each match is listed once, in order. -/
theorem matchesFrom_sorted (l : List CexpSym) (i : Nat) :
    (matchesFrom rc l i).Pairwise (· < ·) := by
  induction l generalizing i with
  | nil => exact List.Pairwise.nil
  | cons e l ih =>
    rw [matchesFrom]
    split
    · refine List.pairwise_cons.mpr ⟨?_, ih (i + 1)⟩
      intro k hk
      have := matchesFrom_bounds l (i + 1) k hk
      omega
    · exact ih (i + 1)

theorem mem_matchesFrom {l : List CexpSym} {i k : Nat} :
    k ∈ matchesFrom rc l i ↔ i ≤ k ∧ ∃ e, l[k - i]? = some e ∧ e.matched rc = true := by
  induction l generalizing i with
  | nil => simp [matchesFrom]
  | cons e l ih =>
    have hrest : k ∈ matchesFrom rc l (i + 1) ↔
        i + 1 ≤ k ∧ ∃ e', (e :: l)[k - i]? = some e' ∧ e'.matched rc = true := by
      rw [ih]
      refine and_congr_right fun hle => ?_
      rw [show k - i = k - (i + 1) + 1 by omega, List.getElem?_cons_succ]
    have hhead : k = i → (e :: l)[k - i]? = some e := by
      rintro rfl
      rw [Nat.sub_self]
      rfl
    rw [matchesFrom]
    split
    · next hmatched =>
      rw [List.mem_cons, hrest]
      constructor
      · rintro (hk | ⟨hle, h⟩)
        · exact ⟨Nat.le_of_eq hk.symm, e, hhead hk, hmatched⟩
        · exact ⟨by omega, h⟩
      · rintro ⟨hle, h⟩
        rcases Nat.eq_or_lt_of_le hle with hk | hlt
        · exact Or.inl hk.symm
        · exact Or.inr ⟨hlt, h⟩
    · next hmatched =>
      rw [hrest]
      constructor
      · rintro ⟨hle, h⟩
        exact ⟨by omega, h⟩
      · rintro ⟨hle, h⟩
        rcases Nat.eq_or_lt_of_le hle with hk | hlt
        · obtain ⟨e', he', hmatched'⟩ := h
          rw [hhead hk.symm] at he'
          cases he'
          exact absurd hmatched' hmatched
        · exact ⟨hlt, h⟩

/-- The array of a table that is ended: the elements with names, the one that ends them, and
memory behind it. -/
theorem CexpSymTbl.Ended.split (ht : t.Ended) : ∃ last rest, last.name = none ∧
    t.syms = t.slots ++ last :: rest := by
  have hsplit := List.takeWhile_append_dropWhile (p := fun s : CexpSym => s.name.isSome)
    (l := t.syms)
  cases hdrop : t.syms.dropWhile fun s => s.name.isSome with
  | nil =>
    rw [hdrop, List.append_nil] at hsplit
    have hlt := ht.ends
    rw [CexpSymTbl.slots, hsplit] at hlt
    exact absurd hlt (Nat.lt_irrefl _)
  | cons last rest =>
    have hne : t.syms.dropWhile (fun s => s.name.isSome) ≠ [] := by
      rw [hdrop]
      exact List.cons_ne_nil _ _
    have hhead := List.head_dropWhile_not (fun s : CexpSym => s.name.isSome) hne
    simp only [hdrop, List.head_cons, Option.isSome_eq_false_iff, Option.isNone_iff_eq_none]
      at hhead
    refine ⟨last, rest, hhead, ?_⟩
    rw [← hdrop]
    exact hsplit.symm

theorem CexpSymTbl.slots_named (t : CexpSymTbl) : ∀ e ∈ t.slots, ∃ name, e.name = some name := by
  intro e he
  have hsome := List.mem_takeWhile_imp he
  exact Option.isSome_iff_exists.mp hsome

/-- The entries are the first of the elements with names. -/
theorem CexpSymTbl.Ended.entries_eq (ht : t.Ended) : t.entries = t.slots.take t.nentries := by
  obtain ⟨last, rest, -, hsyms⟩ := ht.split
  rw [CexpSymTbl.entries]
  conv_lhs => rw [hsyms]
  exact List.take_append_of_le_length ht.entries

/-- What has been squeezed out follows the entries. -/
theorem CexpSymTbl.Ended.slots_eq (ht : t.Ended) :
    t.slots = t.entries ++ t.slots.drop t.nentries := by
  rw [ht.entries_eq, List.take_append_drop]

theorem CexpSymTbl.Ended.length_entries (ht : t.Ended) : t.entries.length = t.nentries := by
  rw [ht.entries_eq, List.length_take, Nat.min_eq_left ht.entries]

end

end Cexp
