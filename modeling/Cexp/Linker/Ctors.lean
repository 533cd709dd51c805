import Cexp.Grammar.Lexer
import Cexp.Lib.Exchange
import Cexp.Modules.Link
import Mathlib.Data.List.Pairwise

/-!
# Constructors and destructors

`buildCtorsDtors` picks the constructors and destructors from the symbols of a file by their names
and sorts them by priority. `ctor_cmp` has to keep the order of equal priorities, but what it
compares then is where `qsort` has moved the elements to.

If no two priorities are equal the positions do not matter, and every `qsort` gives the order of the
priorities. If two are equal, then already the exchange of two neighbours, and back again if they
compare as greater, leaves them in the wrong order: they do not compare as greater at the places of
each other (`ctorCmp_sorts_iff`).

The lists of functions are given by the numbers of their symbols in `ld->st`.
-/

namespace Cexp

open CLib

/-! ## Names -/

inductive CtorDtor where
  | ctor
  | dtor
  deriving DecidableEq, Repr

/-- `INIT_PRIO_NONE` -/
def INIT_PRIO_NONE : Int := 1000000

/-- `[_.$]` -/
def isNameSep (c : UInt8) : Bool := c == 95 || c == 46 || c == 36

/-- What `CTOR_DTOR_PATTERN` matches: the letter in it and the rest of the name. The pattern is
`^_+GLOBAL_[_.$][ID][_.$]`. -/
def ctorDtorTail : List UInt8 → Option (UInt8 × List UInt8)
  | 95 :: name =>
    match name.dropWhile (· == 95) with
    | 71 :: 76 :: 79 :: 66 :: 65 :: 76 :: 95 :: a :: c :: b :: tail =>
      if isNameSep a && (c == 73 || c == 68) && isNameSep b then some (c, tail) else none
    | _ => none
  | _ => none

/-- The number that the digits in front of a string make behind `acc`. -/
def decimal : Nat → List UInt8 → Nat
  | acc, [] => acc
  | acc, c :: s => if isdigit c then decimal (10 * acc + (c.toNat - 48)) s else acc

/-- `atoi` on a string that begins with a digit. It is undefined if the number is no `int`. -/
def atoi (s : List UInt8) : Option Int :=
  if decimal 0 s < 2 ^ 31 then some (decimal 0 s) else none

/-- `isCtorDtor` with the priority; there is no result if that is undefined. -/
def isCtorDtor (name : CStr) : Option (Option (CtorDtor × Int)) :=
  match ctorDtorTail name.bytes with
  | none => some none
  | some (c, tail) => do
    let pri ←
      match tail with
      | d :: _ => if isdigit d then atoi tail else some INIT_PRIO_NONE
      | [] => some INIT_PRIO_NONE
    return some (if c = 73 then (.ctor, pri) else (.dtor, pri))

/-! ## The lists -/

/-- `CtorSymRec` -/
structure CtorSymRec where
  sym : Nat
  pri : Int
  deriving DecidableEq

/-- `ctor_cmp` on the elements `sa` at the position `i` and `sb` at the position `j` of the
array. -/
def ctorCmp (i : Nat) (sa : CtorSymRec) (j : Nat) (sb : CtorSymRec) : Int :=
  if sa.pri - sb.pri ≠ 0 then sa.pri - sb.pri else (i : Int) - j

/-- The loop of `buildCtorsDtors` over the symbols from number `i` on: `ctorsyms` and
`dtorsyms`. -/
def ctorLoop : Nat → List Asymbol → Option (List CtorSymRec × List CtorSymRec)
  | _, [] => some ([], [])
  | i, asym :: st => do
    let res ← isCtorDtor asym.name
    let (ctorsyms, dtorsyms) ← ctorLoop (i + 1) st
    match res with
    | some (.ctor, pri) => return (⟨i, pri⟩ :: ctorsyms, dtorsyms)
    | some (.dtor, pri) => return (ctorsyms, ⟨i, pri⟩ :: dtorsyms)
    | none => return (ctorsyms, dtorsyms)

/-- The lists of functions of a module. -/
structure CtorLists where
  ctor_list : List Nat
  dtor_list : List Nat
  deriving DecidableEq

def buildCtorsDtors (q : Qsort) (st : List Asymbol) : Option CtorLists := do
  let (ctorsyms, dtorsyms) ← ctorLoop 0 st
  let ctorsyms := q.sort ctorCmp ctorsyms
  let dtorsyms := q.sort ctorCmp dtorsyms
  -- inverse the order of calling the destructors
  return ⟨ctorsyms.map CtorSymRec.sym, dtorsyms.reverse.map CtorSymRec.sym⟩

/-- `bfd_asymbol_value` of a symbol by its number. -/
def symValue (vma : Nat → BitVec 64) (st : List Asymbol) (i : Nat) : BitVec 64 :=
  match st[i]? with
  | some asym => asymbolValue vma asym
  | none => 0

/-- The loops that call the functions of a list: the functions called, in turn. -/
def runList (vma : Nat → BitVec 64) (st : List Asymbol) : List Nat → List Nat
  | [] => []
  | f :: fs => if symValue vma st f ≠ 0 then f :: runList vma st fs else runList vma st fs

/-! ## The order -/

/-- The rule: by priority, then by the number of the symbol. -/
def Before (a b : CtorSymRec) : Prop := a.pri < b.pri ∨ a.pri = b.pri ∧ a.sym < b.sym

theorem Before.asymm {a b : CtorSymRec} (h : Before a b) : ¬ Before b a := by
  unfold Before at *
  omega

theorem consistent_pri (l : List CtorSymRec) : Consistent (fun a b => a.pri - b.pri) l where
  swap a _ b _ := by omega
  trans a _ b _ c _ := by omega

section

variable {l : List CtorSymRec}

/-- With different priorities all arrangements compare by priority. -/
theorem ctorCmp_eq (h : l.Pairwise fun a b => a.pri ≠ b.pri)
    (σ : Equiv.Perm (Fin l.length)) (i j : Fin l.length) :
    ctorCmp i (l.get (σ i)) j (l.get (σ j)) = (l.get (σ i)).pri - (l.get (σ j)).pri := by
  have hne : ∀ a b : Fin l.length, a ≠ b → (l.get a).pri ≠ (l.get b).pri := by
    intro a b hab
    rcases Fin.lt_or_lt_of_ne hab with hlt | hlt
    · exact List.pairwise_iff_get.mp h a b hlt
    · exact (List.pairwise_iff_get.mp h b a hlt).symm
  rw [ctorCmp]
  by_cases hij : i = j
  · rw [hij, Int.sub_self, if_neg (fun h => h rfl), Int.sub_self]
  · have := hne (σ i) (σ j) fun heq => hij (σ.injective heq)
    rw [if_pos (by omega)]

/-- Every `qsort` sorts different priorities. -/
theorem sort_before {q : Qsort} (hq : q.Conforming) (h : l.Pairwise fun a b => a.pri ≠ b.pri) :
    (q.sort ctorCmp l).Pairwise Before := by
  have hrun : (q l.length).run ctorCmp l.get =
      (q l.length).run (fun _ a _ b => a.pri - b.pri) l.get :=
    (q l.length).run_congr (ctorCmp_eq h)
  have hsort : q.sort ctorCmp l = q.sort (fun _ a _ b => a.pri - b.pri) l :=
    congrArg List.ofFn hrun
  have hsorts := hq _ (fun a b : CtorSymRec => a.pri - b.pri) l
  rw [← hsort] at hsorts
  have hne : (q.sort ctorCmp l).Pairwise fun a b => a.pri ≠ b.pri :=
    (hsorts.perm.pairwise_iff fun h => h.symm).mpr h
  refine (hne.and (hsorts.sorted (consistent_pri l))).imp ?_
  intro a b ⟨hne, hle⟩
  exact Or.inl (by omega)

/-- Sorted elements of the same priority have neighbours of the same priority. -/
theorem exists_neighbours {n : Nat} {w : Fin n → CtorSymRec}
    (hw : ∀ i j, i < j → Before (w i) (w j)) {a b : Fin n} (hab : a < b)
    (hpri : (w a).pri = (w b).pri) :
    ∃ (k : Nat) (hk : k + 1 < n), (w ⟨k, Nat.lt_of_succ_lt hk⟩).pri = (w ⟨k + 1, hk⟩).pri := by
  have hk : a.val + 1 < n := Nat.lt_of_le_of_lt hab b.isLt
  refine ⟨a.val, hk, ?_⟩
  have hmono : ∀ i j, i ≤ j → (w i).pri ≤ (w j).pri := by
    intro i j hij
    rcases lt_or_eq_of_le hij with hlt | rfl
    · rcases hw i j hlt with h | h
      · exact h.le
      · exact h.1.le
    · exact le_refl _
  have h₁ : (w a).pri ≤ (w ⟨a.val + 1, hk⟩).pri := hmono _ _ (Nat.le_succ _)
  have h₂ : (w ⟨a.val + 1, hk⟩).pri ≤ (w b).pri := hmono _ _ hab
  exact le_antisymm h₁ (h₂.trans hpri.ge)

/-- If all routines that sort give the right order, then no two priorities are equal. -/
theorem pri_ne_of_sorts (h : ∀ q : Qsort, q.Conforming → (q.sort ctorCmp l).Pairwise Before) :
    l.Pairwise fun a b => a.pri ≠ b.pri := by
  rw [List.pairwise_iff_get]
  intro i j hij hpri
  have hsorted := h exchangeSort exchangeSort_conforming
  obtain ⟨σ, hσ⟩ := (exchangeSort l.length).exists_perm ctorCmp l.get
  rw [Qsort.sort, List.pairwise_ofFn] at hsorted
  -- the two elements are somewhere in the sorted array
  have hpair : ∃ a b : Fin l.length, a < b ∧
      ((exchangeSort l.length).run ctorCmp l.get a).pri =
        ((exchangeSort l.length).run ctorCmp l.get b).pri := by
    have hi : (l.get ∘ σ) (σ.symm i) = l.get i := congrArg l.get (σ.apply_symm_apply i)
    have hj : (l.get ∘ σ) (σ.symm j) = l.get j := congrArg l.get (σ.apply_symm_apply j)
    rw [hσ]
    rcases Fin.lt_or_lt_of_ne fun heq => hij.ne (σ.symm.injective heq) with hlt | hlt
    · exact ⟨_, _, hlt, by rw [hi, hj, hpri]⟩
    · exact ⟨_, _, hlt, by rw [hi, hj, hpri]⟩
  obtain ⟨a, b, hab, heq⟩ := hpair
  obtain ⟨k, hk, hneighbours⟩ := exists_neighbours (fun i j hij => hsorted hij) hab heq
  generalize hw : (exchangeSort l.length).run ctorCmp l.get = w at *
  have hcmp : ctorCmp k (w ⟨k + 1, hk⟩) (k + 1) (w ⟨k, Nat.lt_of_succ_lt hk⟩) ≤ 0 := by
    rw [ctorCmp, if_neg (by omega)]
    omega
  have hretry := h _ (exchangeSort_conforming.retry k)
  rw [Qsort.sort, Qsort.retry, Sorter.run_append, hw, retry_swapped hk hcmp,
    List.pairwise_ofFn] at hretry
  have hlt : (⟨k, Nat.lt_of_succ_lt hk⟩ : Fin l.length) < ⟨k + 1, hk⟩ := Nat.lt_succ_self k
  have hwrong := hretry hlt
  rw [Function.comp_apply, Function.comp_apply, Equiv.swap_apply_left,
    Equiv.swap_apply_right] at hwrong
  exact hwrong.asymm (hsorted hlt)

/-- `ctor_cmp` gives the right order with every `qsort` if and only if no two priorities are
equal. -/
theorem ctorCmp_sorts_iff :
    (∀ q : Qsort, q.Conforming → (q.sort ctorCmp l).Pairwise Before) ↔
      l.Pairwise fun a b => a.pri ≠ b.pri :=
  ⟨pri_ne_of_sorts, fun h _ hq => sort_before hq h⟩

end

/-! ## The functions of a file -/

/-- The symbol number `c.sym` of the file is of the kind, with the priority `c.pri`. -/
def OfKind (kind : CtorDtor) (st : List Asymbol) (c : CtorSymRec) : Prop :=
  ∃ asym, st[c.sym]? = some asym ∧ isCtorDtor asym.name = some (some (kind, c.pri))

/-- All symbols of a kind, by priority and then in the order of the symbol table. -/
structure InOrder (kind : CtorDtor) (st : List Asymbol) (cs : List CtorSymRec) : Prop where
  mem : ∀ c, c ∈ cs ↔ OfKind kind st c
  ordered : cs.Pairwise Before

/-- `l` has the symbols of a kind, where the symbols are `st` from number `i` on. -/
structure Collected (kind : CtorDtor) (i : Nat) (st : List Asymbol) (l : List CtorSymRec) :
    Prop where
  mem : ∀ c, c ∈ l ↔ i ≤ c.sym ∧ OfKind kind st ⟨c.sym - i, c.pri⟩
  ascending : l.Pairwise fun a b => a.sym < b.sym

theorem ofKind_cons {kind : CtorDtor} {asym : Asymbol} {st : List Asymbol} {i : Nat}
    {c : CtorSymRec} : (i ≤ c.sym ∧ OfKind kind (asym :: st) ⟨c.sym - i, c.pri⟩) ↔
      (c.sym = i ∧ isCtorDtor asym.name = some (some (kind, c.pri))) ∨
        (i + 1 ≤ c.sym ∧ OfKind kind st ⟨c.sym - (i + 1), c.pri⟩) := by
  unfold OfKind
  dsimp only
  rcases Nat.lt_trichotomy c.sym i with hlt | heq | hgt
  · have h₁ : ¬ i ≤ c.sym := by omega
    have h₂ : ¬ c.sym = i := by omega
    have h₃ : ¬ i + 1 ≤ c.sym := by omega
    simp only [h₁, h₂, h₃, false_and, or_self]
  · have h₃ : ¬ i + 1 ≤ i := by omega
    rw [heq, Nat.sub_self, List.getElem?_cons_zero]
    simp [h₃]
  · have h₂ : ¬ c.sym = i := by omega
    have hsub : c.sym - i = c.sym - (i + 1) + 1 := by omega
    rw [hsub, List.getElem?_cons_succ]
    simp only [h₂, false_and, false_or]
    exact and_congr_left fun _ => by omega

section

variable {kind : CtorDtor} {i : Nat} {asym : Asymbol} {st : List Asymbol} {l : List CtorSymRec}

theorem Collected.skip (h : Collected kind (i + 1) st l)
    (hne : ∀ pri, isCtorDtor asym.name ≠ some (some (kind, pri))) :
    Collected kind i (asym :: st) l where
  mem c := by
    rw [ofKind_cons, h.mem, or_iff_right fun h => hne c.pri h.2]
  ascending := h.ascending

theorem Collected.take (h : Collected kind (i + 1) st l) {pri : Int}
    (heq : isCtorDtor asym.name = some (some (kind, pri))) :
    Collected kind i (asym :: st) (⟨i, pri⟩ :: l) where
  mem c := by
    rw [ofKind_cons, List.mem_cons, h.mem, heq]
    refine or_congr_left ?_
    rw [Option.some.injEq, Option.some.injEq, Prod.mk.injEq, and_iff_right rfl]
    constructor
    · intro hc
      rw [hc]
      exact ⟨rfl, rfl⟩
    · intro ⟨hsym, hpri⟩
      rw [← hsym, hpri]
  ascending := by
    refine List.pairwise_cons.mpr ⟨fun c hc => ?_, h.ascending⟩
    have := ((h.mem c).mp hc).1
    exact this

end

/-- What the loop collects. -/
theorem ctorLoop_collected {i : Nat} {st : List Asymbol} {ctorsyms dtorsyms : List CtorSymRec}
    (h : ctorLoop i st = some (ctorsyms, dtorsyms)) :
    Collected .ctor i st ctorsyms ∧ Collected .dtor i st dtorsyms := by
  induction st generalizing i ctorsyms dtorsyms with
  | nil =>
    cases h
    have hnil : ∀ kind, Collected kind i [] [] := by
      intro kind
      refine ⟨fun c => iff_of_false List.not_mem_nil ?_, List.Pairwise.nil⟩
      intro ⟨_, asym, hget, _⟩
      cases hget
    exact ⟨hnil _, hnil _⟩
  | cons asym st ih =>
    obtain ⟨res, hres, hrest⟩ := Option.bind_eq_some_iff.mp h
    obtain ⟨⟨cs, ds⟩, hloop, hout⟩ := Option.bind_eq_some_iff.mp hrest
    obtain ⟨hcs, hds⟩ := ih hloop
    rcases res with _ | ⟨_ | _, pri⟩
    · cases hout
      exact ⟨hcs.skip fun _ => by simp [hres], hds.skip fun _ => by simp [hres]⟩
    · cases hout
      exact ⟨hcs.take hres, hds.skip fun _ => by simp [hres]⟩
    · cases hout
      exact ⟨hcs.skip fun _ => by simp [hres], hds.take hres⟩

/-- The loop ends if all priorities are defined. -/
theorem ctorLoop_isSome {i : Nat} {st : List Asymbol} :
    (∃ p, ctorLoop i st = some p) ↔ ∀ asym ∈ st, ∃ res, isCtorDtor asym.name = some res := by
  induction st generalizing i with
  | nil => exact iff_of_true ⟨_, rfl⟩ (List.forall_mem_nil _)
  | cons asym st ih =>
    rw [List.forall_mem_cons, ← ih (i := i + 1)]
    constructor
    · intro ⟨p, hp⟩
      obtain ⟨res, hres, hrest⟩ := Option.bind_eq_some_iff.mp hp
      obtain ⟨q, hq, -⟩ := Option.bind_eq_some_iff.mp hrest
      exact ⟨⟨res, hres⟩, ⟨q, hq⟩⟩
    · intro ⟨⟨res, hres⟩, ⟨⟨cs, ds⟩, hq⟩⟩
      rw [ctorLoop, hres, Option.bind_eq_bind, Option.bind_some, hq, Option.bind_eq_bind,
        Option.bind_some]
      rcases res with _ | ⟨_ | _, pri⟩
      · exact ⟨_, rfl⟩
      · exact ⟨_, rfl⟩
      · exact ⟨_, rfl⟩

/-! ## The order in which the functions are called -/

/-- All functions have been placed at an address. -/
def Placed (vma : Nat → BitVec 64) (st : List Asymbol) : Prop :=
  ∀ kind c, OfKind kind st c → symValue vma st c.sym ≠ 0

/-- The constructors are called by priority and then in the order of the symbol table, the
destructors in the reverse of that. -/
def CtorsRight (vma : Nat → BitVec 64) (q : Qsort) (st : List Asymbol) : Prop :=
  ∃ lists ctors dtors, buildCtorsDtors q st = some lists ∧
    InOrder .ctor st ctors ∧ runList vma st lists.ctor_list = ctors.map CtorSymRec.sym ∧
    InOrder .dtor st dtors ∧ runList vma st lists.dtor_list = (dtors.map CtorSymRec.sym).reverse

section

variable {vma : Nat → BitVec 64} {kind : CtorDtor} {st : List Asymbol} {l r cs : List CtorSymRec}

theorem OfKind.ext {c c' : CtorSymRec} (h : OfKind kind st c) (h' : OfKind kind st c')
    (hsym : c.sym = c'.sym) : c = c' := by
  obtain ⟨asym, hget, hkind⟩ := h
  obtain ⟨asym', hget', hkind'⟩ := h'
  rw [hsym, hget', Option.some.injEq] at hget
  rw [← hget, hkind', Option.some.injEq, Option.some.injEq, Prod.mk.injEq] at hkind
  cases c
  cases c'
  rw [CtorSymRec.mk.injEq]
  exact ⟨hsym, hkind.2.symm⟩

theorem runList_map (h : ∀ c ∈ l, symValue vma st c.sym ≠ 0) :
    runList vma st (l.map CtorSymRec.sym) = l.map CtorSymRec.sym := by
  induction l with
  | nil => rfl
  | cons c l ih =>
    rw [List.forall_mem_cons] at h
    rw [List.map_cons, runList, if_pos h.1, ih h.2]

theorem Collected.ofKind (h : Collected kind 0 st l) {c : CtorSymRec} :
    c ∈ l ↔ OfKind kind st c := by
  rw [h.mem, Nat.sub_zero, and_iff_right (Nat.zero_le _)]

/-- An arrangement of all symbols of a kind is the right one if and only if it is sorted. -/
theorem Collected.inOrder_iff (h : Collected kind 0 st l) (hperm : r.Perm l) :
    (∃ cs, InOrder kind st cs ∧ r.map CtorSymRec.sym = cs.map CtorSymRec.sym) ↔
      r.Pairwise Before := by
  have hmem : ∀ c, c ∈ r ↔ OfKind kind st c := fun c => hperm.mem_iff.trans h.ofKind
  constructor
  · intro ⟨cs, hcs, hmap⟩
    have heq : r = cs := by
      apply List.ext_getElem
      · simpa using congrArg List.length hmap
      · intro i hi hi'
        apply ((hmem _).mp (List.getElem_mem hi)).ext ((hcs.mem _).mp (List.getElem_mem hi'))
        simpa [hi, hi'] using congrArg (·[i]?) hmap
    rw [heq]
    exact hcs.ordered
  · exact fun hr => ⟨r, ⟨hmem, hr⟩, rfl⟩

/-- The calls are right if and only if both arrays are sorted. -/
theorem ctorsRight_iff (hplaced : Placed vma st) {q : Qsort} {ctorsyms dtorsyms : List CtorSymRec}
    (hloop : ctorLoop 0 st = some (ctorsyms, dtorsyms)) :
    CtorsRight vma q st ↔
      (q.sort ctorCmp ctorsyms).Pairwise Before ∧ (q.sort ctorCmp dtorsyms).Pairwise Before := by
  obtain ⟨hcs, hds⟩ := ctorLoop_collected hloop
  have hvalue : ∀ {kind l}, Collected kind 0 st l → ∀ c ∈ q.sort ctorCmp l,
      symValue vma st c.sym ≠ 0 :=
    fun h c hc => hplaced _ c (h.ofKind.mp ((q.sort_perm ctorCmp _).mem_iff.mp hc))
  have hbuild : buildCtorsDtors q st =
      some ⟨(q.sort ctorCmp ctorsyms).map CtorSymRec.sym,
        (q.sort ctorCmp dtorsyms).reverse.map CtorSymRec.sym⟩ := by
    rw [buildCtorsDtors, hloop]
    rfl
  have hctor := runList_map (hvalue hcs)
  have hdtor := runList_map fun c hc => hvalue hds c (List.mem_reverse.mp hc)
  rw [← hcs.inOrder_iff (q.sort_perm _ _), ← hds.inOrder_iff (q.sort_perm _ _)]
  constructor
  · intro ⟨lists, cs, ds, hlists, hcs', hrun, hds', hrun'⟩
    rw [hbuild, Option.some.injEq] at hlists
    subst hlists
    rw [hctor] at hrun
    rw [hdtor, List.map_reverse, List.reverse_inj] at hrun'
    exact ⟨⟨cs, hcs', hrun⟩, ⟨ds, hds', hrun'⟩⟩
  · intro ⟨⟨cs, hcs', hrun⟩, ⟨ds, hds', hrun'⟩⟩
    refine ⟨_, cs, ds, hbuild, hcs', hctor.trans hrun, hds', ?_⟩
    rw [hdtor, List.map_reverse, hrun']

/-- No two symbols of a kind have the same priority. -/
def PrioritiesDiffer (kind : CtorDtor) (st : List Asymbol) : Prop :=
  ∀ c c', OfKind kind st c → OfKind kind st c' → c.pri = c'.pri → c = c'

theorem Collected.differ_iff (h : Collected kind 0 st l) :
    (l.Pairwise fun a b => a.pri ≠ b.pri) ↔ PrioritiesDiffer kind st := by
  constructor
  · intro hpw c c' hc hc' hpri
    have hsymm : Std.Symm fun a b : CtorSymRec => a.pri ≠ b.pri := ⟨fun _ _ h => h.symm⟩
    by_contra hne
    exact hpw.forall (h.ofKind.mpr hc) (h.ofKind.mpr hc') hne hpri
  · intro hdiffer
    refine h.ascending.imp_of_mem ?_
    intro a b ha hb hlt hpri
    have heq := hdiffer a b (h.ofKind.mp ha) (h.ofKind.mp hb) hpri
    rw [heq] at hlt
    exact Nat.lt_irrefl _ hlt

/-- The functions of a file are called in the right order with every `qsort` if and only if all of
their priorities are defined and no two constructors, and no two destructors, have the same one. -/
theorem ctors_right (hplaced : Placed vma st) :
    (∀ q : Qsort, q.Conforming → CtorsRight vma q st) ↔
      (∀ asym ∈ st, ∃ res, isCtorDtor asym.name = some res) ∧ ∀ kind, PrioritiesDiffer kind st := by
  rw [← ctorLoop_isSome (i := 0)]
  constructor
  · intro h
    obtain ⟨_, _, _, hbuild, _⟩ := h exchangeSort exchangeSort_conforming
    obtain ⟨⟨ctorsyms, dtorsyms⟩, hloop, -⟩ := Option.bind_eq_some_iff.mp hbuild
    obtain ⟨hcs, hds⟩ := ctorLoop_collected hloop
    have hsorted := fun q hq => (ctorsRight_iff hplaced hloop).mp (h q hq)
    refine ⟨⟨_, hloop⟩, fun kind => ?_⟩
    cases kind with
    | ctor => exact hcs.differ_iff.mp (ctorCmp_sorts_iff.mp fun q hq => (hsorted q hq).1)
    | dtor => exact hds.differ_iff.mp (ctorCmp_sorts_iff.mp fun q hq => (hsorted q hq).2)
  · intro ⟨⟨⟨ctorsyms, dtorsyms⟩, hloop⟩, hdiffer⟩ q hq
    obtain ⟨hcs, hds⟩ := ctorLoop_collected hloop
    rw [ctorsRight_iff hplaced hloop]
    exact ⟨sort_before hq (hcs.differ_iff.mpr (hdiffer .ctor)),
      sort_before hq (hds.differ_iff.mpr (hdiffer .dtor))⟩

end

theorem placed_of_mem {vma : Nat → BitVec 64} {st : List Asymbol}
    (h : ∀ asym ∈ st, asymbolValue vma asym ≠ 0) : Placed vma st := by
  intro kind c ⟨asym, hget, _⟩
  rw [symValue, hget]
  exact h asym (List.mem_of_getElem? hget)

/-- A symbol of the file, at an absolute address. -/
def ctorSymbol (name : CStr) (value : BitVec 64) : Asymbol :=
  ⟨name, .abs, value, 0, 0, false, true, false, true, false, false, false, false, true⟩

/-- The constructors `_GLOBAL__I_2a` and `_GLOBAL__I_1`, and the destructor `_GLOBAL__D_2a`. -/
def oneAndTwo : List Asymbol :=
  [ctorSymbol ⟨[95, 71, 76, 79, 66, 65, 76, 95, 95, 73, 95, 50, 97], by decide⟩ 0x1000,
    ctorSymbol ⟨[95, 71, 76, 79, 66, 65, 76, 95, 95, 68, 95, 50, 97], by decide⟩ 0x2000,
    ctorSymbol ⟨[95, 71, 76, 79, 66, 65, 76, 95, 95, 73, 95, 49], by decide⟩ 0x3000]

theorem oneAndTwo_loop : ctorLoop 0 oneAndTwo = some ([⟨0, 2⟩, ⟨2, 1⟩], [⟨1, 2⟩]) := by
  decide

theorem oneAndTwo_placed : Placed (fun _ => 0) oneAndTwo := by
  apply placed_of_mem
  simp [oneAndTwo, ctorSymbol, asymbolValue]

/-- Different priorities are sorted. -/
theorem ctors_right_different : CtorsRight (fun _ => 0) exchangeSort oneAndTwo := by
  refine (ctors_right oneAndTwo_placed).mpr ⟨?_, fun kind => ?_⟩ exchangeSort
    exchangeSort_conforming
  · exact (ctorLoop_isSome (i := 0)).mp ⟨_, oneAndTwo_loop⟩
  · obtain ⟨hcs, hds⟩ := ctorLoop_collected oneAndTwo_loop
    cases kind with
    | ctor => exact hcs.differ_iff.mp (by simp)
    | dtor => exact hds.differ_iff.mp (List.pairwise_singleton _ _)

/-- The constructors `_GLOBAL__I_2a`, `_GLOBAL__I_2b` and `_GLOBAL__I_1`. -/
def twoAndOne : List Asymbol :=
  [ctorSymbol ⟨[95, 71, 76, 79, 66, 65, 76, 95, 95, 73, 95, 50, 97], by decide⟩ 0x1000,
    ctorSymbol ⟨[95, 71, 76, 79, 66, 65, 76, 95, 95, 73, 95, 50, 98], by decide⟩ 0x2000,
    ctorSymbol ⟨[95, 71, 76, 79, 66, 65, 76, 95, 95, 73, 95, 49], by decide⟩ 0x3000]

/-- The exchange of the first and the last one takes the two with priority 2 out of order, and they
stay so. -/
theorem ctors_equal_priorities : ¬ ∀ (vma : Nat → BitVec 64) (st : List Asymbol), Placed vma st →
    (∀ asym ∈ st, ∃ res, isCtorDtor asym.name = some res) →
    ∀ q : Qsort, q.Conforming → CtorsRight vma q st := by
  intro h
  have hplaced : Placed (fun _ => 0) twoAndOne := by
    apply placed_of_mem
    simp [twoAndOne, ctorSymbol, asymbolValue]
  have hloop : ctorLoop 0 twoAndOne = some ([⟨0, 2⟩, ⟨1, 2⟩, ⟨2, 1⟩], []) := by decide
  have hright := h _ _ hplaced ((ctorLoop_isSome (i := 0)).mp ⟨_, hloop⟩) exchangeSort
    exchangeSort_conforming
  have hsorted := ((ctorsRight_iff hplaced hloop).mp hright).1
  have hsort : exchangeSort.sort ctorCmp [⟨0, 2⟩, ⟨1, 2⟩, ⟨2, 1⟩] =
      [⟨2, 1⟩, ⟨1, 2⟩, ⟨0, 2⟩] := by decide
  rw [hsort, List.pairwise_cons, List.pairwise_cons] at hsorted
  have hwrong := hsorted.2.1 ⟨0, 2⟩ List.mem_cons_self
  unfold Before at hwrong
  dsimp only at hwrong
  omega

end Cexp
