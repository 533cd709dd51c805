import Cexp.Vars.Store
import Mathlib.Data.List.Lex

/-!
# The lists of variables and strings

Both lists are sorted strictly, by name and by contents (`VarMem.Inv`). Every call finds its way
along them and keeps this: what a lookup or a deletion does to the lists is one link
(`VarMem.Lists.addVar`, `VarMem.Lists.addStr`, `VarMem.Lists.delVar`).
-/

namespace Cexp

open CLib

/-! ## The order of strings -/

/-- The characters by which strings are ordered. -/
def CStr.chars (x : CStr) : List Nat := x.bytes.map UInt8.toNat

theorem CStr.chars_inj {x y : CStr} : x.chars = y.chars ↔ x = y := by
  constructor
  · intro h
    apply CStr.ext
    exact List.map_injective_iff.mpr (fun _ _ => UInt8.toNat_inj.mp) h
  · rintro rfl
    rfl

theorem strcmp_bytes {a b : List UInt8} (ha : 0 ∉ a) (hb : 0 ∉ b) :
    (strcmp a b < 0 ↔ a.map UInt8.toNat < b.map UInt8.toNat) ∧
      (strcmp a b = 0 ↔ a.map UInt8.toNat = b.map UInt8.toNat) := by
  have hpos : ∀ {c : UInt8} {s : List UInt8}, 0 ∉ c :: s → 0 < c.toNat := by
    intro c s h
    apply Nat.pos_of_ne_zero
    intro h0
    have hc : c = 0 := UInt8.toNat_inj.mp h0
    exact h (hc ▸ List.mem_cons_self)
  induction a generalizing b with
  | nil =>
    cases b with
    | nil => simp [strcmp]
    | cons d t =>
      have hd := hpos hb
      simp [strcmp]
      omega
  | cons c s ih =>
    have hc := hpos ha
    cases b with
    | nil =>
      simp [strcmp]
      omega
    | cons d t =>
      have hs := ih (fun h => ha (List.mem_cons_of_mem c h)) (fun h => hb (List.mem_cons_of_mem d h))
      rw [strcmp, List.map_cons, List.map_cons, List.cons_lt_cons_iff, List.cons_eq_cons]
      by_cases hcd : c = d
      · rw [if_pos hcd, hcd, hs.1, hs.2]
        simp
      · have hne : c.toNat ≠ d.toNat := fun h => hcd (UInt8.toNat_inj.mp h)
        rw [if_neg hcd]
        constructor
        · constructor
          · intro h
            left
            omega
          · rintro (h | h)
            · omega
            · exact absurd h.1 hne
        · constructor
          · intro h
            omega
          · intro h
            exact absurd h.1 hne

theorem strcmp_neg_iff (x y : CStr) : strcmp x.bytes y.bytes < 0 ↔ x.chars < y.chars :=
  (strcmp_bytes x.noNul y.noNul).1

theorem strcmp_zero_iff (x y : CStr) : strcmp x.bytes y.bytes = 0 ↔ x.chars = y.chars :=
  (strcmp_bytes x.noNul y.noNul).2

/-- The key of a record, as one of what points at it. -/
def Lh.keyBy (key : Nat → List Nat) : Lh → List Nat
  | .block a => key a
  | _ => []

namespace VarMem

/-! ## The two lists -/

/-- The key of a string. -/
def strKey (m : VarMem) (a : Nat) : List Nat := ((m.str a).getD .empty).chars

/-- The name of a variable. -/
def nameOf (m : VarMem) (a : Nat) : Option CStr := (m.var a).bind fun v => m.str v.name

def varKey (m : VarMem) (a : Nat) : List Nat := ((m.nameOf a).getD .empty).chars

/-- The variables `vs` and the strings `ss` hang on the two heads, sorted strictly. -/
structure Lists (m : VarMem) (vs ss : List Nat) : Prop where
  varList : CLib.Linked m.p .gblList (vs.map .block)
  strList : CLib.Linked m.p .strTab (ss.map .block)
  varSorted : vs.Pairwise fun a b => m.varKey a < m.varKey b
  strSorted : ss.Pairwise fun a b => m.strKey a < m.strKey b
  var : ∀ a ∈ vs, ∃ v, m.var a = some v ∧ v.name ∈ ss ∧ v.ptv = a
  str : ∀ a ∈ ss, ∃ x, m.str a = some x
  apart : ∀ a ∈ vs, a ∉ ss

/-- Nothing else is allocated. -/
structure Inv (m : VarMem) (vs ss : List Nat) : Prop extends Lists m vs ss where
  onlyVar : ∀ a v, m.var a = some v → a ∈ vs
  onlyStr : ∀ a x, m.str a = some x → a ∈ ss

section

variable {m m' : VarMem} {vs ss : List Nat} {x : CStr}

theorem block_inj : Function.Injective Lh.block := fun _ _ => Lh.block.inj

theorem Lists.nameOf_isSome (h : Lists m vs ss) {a : Nat} (ha : a ∈ vs) :
    ∃ v x, m.var a = some v ∧ m.str v.name = some x ∧ m.nameOf a = some x := by
  obtain ⟨v, hv, hname, -⟩ := h.var a ha
  obtain ⟨x, hx⟩ := h.str v.name hname
  refine ⟨v, x, hv, hx, ?_⟩
  rw [nameOf, hv]
  exact hx

theorem Lists.strKey_congr (hstr : ∀ a ∈ ss, m'.str a = m.str a) :
    ∀ a ∈ ss, m'.strKey a = m.strKey a := by
  intro a ha
  rw [strKey, strKey, hstr a ha]

theorem Lists.nameOf_congr (h : Lists m vs ss) (hvar : ∀ a ∈ vs, m'.var a = m.var a)
    (hstr : ∀ a ∈ ss, m'.str a = m.str a) : ∀ a ∈ vs, m'.nameOf a = m.nameOf a := by
  intro a ha
  obtain ⟨v, hv, hmem, -⟩ := h.var a ha
  rw [nameOf, nameOf, hvar a ha, hv]
  exact hstr v.name hmem

theorem Lists.varKey_congr (h : Lists m vs ss) (hvar : ∀ a ∈ vs, m'.var a = m.var a)
    (hstr : ∀ a ∈ ss, m'.str a = m.str a) : ∀ a ∈ vs, m'.varKey a = m.varKey a := by
  intro a ha
  rw [varKey, varKey, h.nameOf_congr hvar hstr a ha]

theorem sorted_congr {l : List Nat} {key key' : Nat → List Nat}
    (hs : l.Pairwise fun a b => key a < key b) (heq : ∀ a ∈ l, key' a = key a) :
    l.Pairwise fun a b => key' a < key' b := by
  apply hs.imp_of_mem
  intro a b ha hb hab
  rwa [heq a ha, heq b hb]

theorem mem_middle {l₁ l₂ : List Nat} {a b : Nat} :
    b ∈ l₁ ++ a :: l₂ ↔ b = a ∨ b ∈ l₁ ++ l₂ :=
  List.perm_middle.mem_iff.trans List.mem_cons

/-- The lists depend on the links from the heads and from their elements, and on these records. -/
theorem Lists.congr (h : Lists m vs ss) (hvar : ∀ a ∈ vs, m'.var a = m.var a)
    (hstr : ∀ a ∈ ss, m'.str a = m.str a)
    (hp : ∀ q, q = .gblList ∨ q = .strTab ∨ (∃ a, q = .block a ∧ (a ∈ vs ∨ a ∈ ss)) →
      m'.p q = m.p q) : Lists m' vs ss := by
  refine ⟨h.varList.congr ?_, h.strList.congr ?_, sorted_congr h.varSorted (h.varKey_congr hvar hstr),
    sorted_congr h.strSorted (Lists.strKey_congr hstr), ?_, ?_, h.apart⟩
  · intro q hq
    rcases List.mem_cons.mp hq with rfl | hq
    · exact hp _ (.inl rfl)
    · obtain ⟨a, ha, rfl⟩ := List.mem_map.mp hq
      exact hp _ (.inr (.inr ⟨a, rfl, .inl ha⟩))
  · intro q hq
    rcases List.mem_cons.mp hq with rfl | hq
    · exact hp _ (.inr (.inl rfl))
    · obtain ⟨a, ha, rfl⟩ := List.mem_map.mp hq
      exact hp _ (.inr (.inr ⟨a, rfl, .inr ha⟩))
  · intro a ha
    rw [hvar a ha]
    exact h.var a ha
  · intro a ha
    rw [hstr a ha]
    exact h.str a ha

/-- No cell is in a list twice, and the head is not an element. -/
theorem nodup_cells (head : Lh) {l : List Nat} {key : Nat → List Nat}
    (hs : l.Pairwise fun a b => key a < key b) (hhead : ∀ a, head ≠ .block a) :
    (head :: l.map Lh.block).Nodup := by
  refine List.nodup_cons.mpr ⟨?_, ?_⟩
  · intro hmem
    obtain ⟨a, -, ha⟩ := List.mem_map.mp hmem
    exact hhead a ha.symm
  · refine List.Nodup.map block_inj (hs.imp ?_)
    rintro a b hab rfl
    exact lt_irrefl _ hab

theorem not_mem_cells (head : Lh) {l : List Nat} {a : Nat} (hhead : ∀ b, head ≠ .block b)
    (ha : a ∉ l) : Lh.block a ∉ head :: l.map Lh.block := by
  intro hmem
  rcases List.mem_cons.mp hmem with hmem | hmem
  · exact hhead a hmem.symm
  · obtain ⟨b, hb, heq⟩ := List.mem_map.mp hmem
    cases heq
    exact ha hb

/-! ## Changes -/

/-- The last cell of one list is not in the other list. -/
theorem lastCell_ne {l₁ l₂ k : List Nat} {head head' : Lh} (hhead : ∀ a, head ≠ .block a)
    (hhead' : ∀ a, head' ≠ .block a) (hne : head ≠ head') (hapart : ∀ a ∈ l₁ ++ l₂, a ∉ k) :
    ∀ q ∈ head' :: k.map Lh.block, q ≠ lastCell head (l₁.map .block) := by
  rintro q hq rfl
  rcases List.mem_cons.mp (lastCell_mem head (l₁.map Lh.block)) with hlast | hlast
  · rw [hlast] at hq
    rcases List.mem_cons.mp hq with hq | hq
    · exact hne hq
    · obtain ⟨a, -, ha⟩ := List.mem_map.mp hq
      exact hhead a ha.symm
  · obtain ⟨a, ha, heq⟩ := List.mem_map.mp hlast
    rw [← heq] at hq
    exact not_mem_cells head' hhead' (hapart a (List.mem_append_left l₂ ha)) hq

/-- A new string, linked in at its place and written. -/
theorem Lists.addStr {s₁ s₂ : List Nat} {s : Nat} (h : Lists m vs (s₁ ++ s₂)) (hvs : s ∉ vs)
    (hss : s ∉ s₁ ++ s₂) (h₁ : ∀ t ∈ s₁, m.strKey t < x.chars)
    (h₂ : ∀ t ∈ s₂, x.chars < m.strKey t) :
    Lists ((m.lhrAdd (.block s) (lastCell .strTab (s₁.map .block))).strcpy s x) vs
      (s₁ ++ s :: s₂) := by
  generalize hm' : (m.lhrAdd (.block s) (lastCell .strTab (s₁.map .block))).strcpy s x = m'
  have hvar : m'.var = m.var := by rw [← hm']; rfl
  have hstr : m'.str = Function.update m.str s (some x) := by rw [← hm']; rfl
  have hp : m'.p = Function.update (Function.update m.p (.block s)
      (m.p (lastCell .strTab (s₁.map .block)))) (lastCell .strTab (s₁.map .block))
      (some (.block s)) := by rw [← hm']; rfl
  have hold : ∀ t ∈ s₁ ++ s₂, m'.str t = m.str t := by
    intro t ht
    rw [hstr]
    apply Function.update_of_ne
    rintro rfl
    exact hss ht
  have hkey := Lists.strKey_congr hold
  have hnew : m'.strKey s = x.chars := by simp [strKey, hstr]
  refine ⟨?_, ?_, sorted_congr h.varSorted (h.varKey_congr (fun a _ => by rw [hvar]) hold), ?_, ?_,
    ?_, ?_⟩
  · apply h.varList.congr
    intro q hq
    rw [hp, Function.update_of_ne, Function.update_of_ne]
    · rintro rfl
      exact not_mem_cells _ (fun a => Lh.noConfusion) hvs hq
    · have hapart : ∀ t ∈ s₁ ++ s₂, t ∉ vs := fun t ht hmem => h.apart t hmem ht
      exact lastCell_ne (fun a => Lh.noConfusion) (fun a => Lh.noConfusion) Lh.noConfusion hapart q hq
  · have hlist := h.strList
    have hnodup := nodup_cells .strTab h.strSorted fun a => Lh.noConfusion
    have hmem := not_mem_cells .strTab (fun a => Lh.noConfusion) hss
    rw [List.map_append] at hlist hnodup hmem
    rw [hp, List.map_append, List.map_cons]
    exact hlist.insert hnodup hmem
  · apply pairwise_insert (sorted_congr h.strSorted hkey)
    · intro t ht
      rw [hnew, hkey t (List.mem_append_left s₂ ht)]
      exact h₁ t ht
    · intro t ht
      rw [hnew, hkey t (List.mem_append_right s₁ ht)]
      exact h₂ t ht
  · intro a ha
    obtain ⟨v, hv, hname, hptv⟩ := h.var a ha
    exact ⟨v, hvar ▸ hv, mem_middle.mpr (.inr hname), hptv⟩
  · intro t ht
    rcases mem_middle.mp ht with rfl | ht
    · exact ⟨x, hstr ▸ Function.update_self t (some x) m.str⟩
    · rw [hold t ht]
      exact h.str t ht
  · intro a ha hmem
    rcases mem_middle.mp hmem with rfl | hmem
    · exact hvs ha
    · exact h.apart a ha hmem

/-- A new variable, linked in at its place and written. -/
theorem Lists.addVar {v₁ v₂ : List Nat} {n : Nat} {v : CexpVar} (h : Lists m (v₁ ++ v₂) ss)
    (hvs : n ∉ v₁ ++ v₂) (hss : n ∉ ss) (hname : v.name ∈ ss) (hx : m.str v.name = some x)
    (hptv : v.ptv = n) (h₁ : ∀ a ∈ v₁, m.varKey a < x.chars)
    (h₂ : ∀ a ∈ v₂, x.chars < m.varKey a) :
    Lists ((m.lhrAdd (.block n) (lastCell .gblList (v₁.map .block))).setVar n v) (v₁ ++ n :: v₂)
      ss := by
  generalize hm' : (m.lhrAdd (.block n) (lastCell .gblList (v₁.map .block))).setVar n v = m'
  have hvar : m'.var = Function.update m.var n (some v) := by rw [← hm']; rfl
  have hstr : m'.str = m.str := by rw [← hm']; rfl
  have hp : m'.p = Function.update (Function.update m.p (.block n)
      (m.p (lastCell .gblList (v₁.map .block)))) (lastCell .gblList (v₁.map .block))
      (some (.block n)) := by rw [← hm']; rfl
  have hself : m'.var n = some v := hvar ▸ Function.update_self n (some v) m.var
  have hold : ∀ a ∈ v₁ ++ v₂, m'.var a = m.var a := by
    intro a ha
    rw [hvar]
    apply Function.update_of_ne
    rintro rfl
    exact hvs ha
  have hkey := h.varKey_congr hold fun t _ => by rw [hstr]
  have hnew : m'.varKey n = x.chars := by simp [varKey, nameOf, hself, hstr, hx]
  refine ⟨?_, ?_, ?_, sorted_congr h.strSorted (Lists.strKey_congr fun t _ => by rw [hstr]), ?_, ?_,
    ?_⟩
  · have hlist := h.varList
    have hnodup := nodup_cells .gblList h.varSorted fun a => Lh.noConfusion
    have hmem := not_mem_cells .gblList (fun a => Lh.noConfusion) hvs
    rw [List.map_append] at hlist hnodup hmem
    rw [hp, List.map_append, List.map_cons]
    exact hlist.insert hnodup hmem
  · apply h.strList.congr
    intro q hq
    rw [hp, Function.update_of_ne, Function.update_of_ne]
    · rintro rfl
      exact not_mem_cells _ (fun a => Lh.noConfusion) hss hq
    · exact lastCell_ne (fun a => Lh.noConfusion) (fun a => Lh.noConfusion)
        Lh.noConfusion h.apart q hq
  · apply pairwise_insert (sorted_congr h.varSorted hkey)
    · intro a ha
      rw [hnew, hkey a (List.mem_append_left v₂ ha)]
      exact h₁ a ha
    · intro a ha
      rw [hnew, hkey a (List.mem_append_right v₁ ha)]
      exact h₂ a ha
  · intro a ha
    rcases mem_middle.mp ha with rfl | ha
    · exact ⟨v, hself, hname, hptv⟩
    · rw [hold a ha]
      exact h.var a ha
  · intro t ht
    rw [hstr]
    exact h.str t ht
  · intro a ha
    rcases mem_middle.mp ha with rfl | ha
    · exact hss
    · exact h.apart a ha

/-- A variable that is unlinked, cleared and freed. -/
theorem Lists.delVar {v₁ v₂ : List Nat} {a : Nat} (h : Lists m (v₁ ++ a :: v₂) ss)
    (hvar : ∀ b, b ≠ a → m'.var b = m.var b) (hstr : m'.str = m.str)
    (hp : m'.p = Function.update (Function.update m.p (lastCell .gblList (v₁.map .block))
      (m.p (.block a))) (.block a) none) : Lists m' (v₁ ++ v₂) ss := by
  have hnodup := nodup_cells .gblList h.varSorted fun a => Lh.noConfusion
  have ha : a ∉ v₁ ++ v₂ := by
    have hcells := (List.nodup_cons.mp hnodup).2
    have hmid := List.nodup_middle.mp ((List.nodup_map_iff block_inj).mp hcells)
    exact (List.nodup_cons.mp hmid).1
  have hsub : ∀ b ∈ v₁ ++ v₂, b ∈ v₁ ++ a :: v₂ := fun b hb => mem_middle.mpr (.inr hb)
  have hold : ∀ b ∈ v₁ ++ v₂, m'.var b = m.var b := by
    intro b hb
    apply hvar
    rintro rfl
    exact ha hb
  have hkey : ∀ b ∈ v₁ ++ v₂, m'.varKey b = m.varKey b := by
    intro b hb
    rw [varKey, varKey, nameOf, nameOf, hold b hb, hstr]
  have hkept := h.varSorted.sublist (List.Sublist.append_left (List.sublist_cons_self a v₂) v₁)
  refine ⟨?_, ?_, sorted_congr hkept hkey,
    sorted_congr h.strSorted (Lists.strKey_congr fun t _ => by rw [hstr]), ?_, ?_, ?_⟩
  · have hlist := h.varList
    rw [List.map_append, List.map_cons] at hlist hnodup
    have hremoved := hlist.remove hnodup
    rw [← List.map_append] at hremoved
    rw [hp]
    apply hremoved.congr
    intro q hq
    apply Function.update_of_ne
    rintro rfl
    exact not_mem_cells _ (fun a => Lh.noConfusion) ha hq
  · apply h.strList.congr
    intro q hq
    rw [hp, Function.update_of_ne, Function.update_of_ne]
    · exact lastCell_ne (fun a => Lh.noConfusion) (fun a => Lh.noConfusion)
        Lh.noConfusion h.apart q hq
    · rintro rfl
      exact not_mem_cells _ (fun a => Lh.noConfusion)
        (h.apart a (mem_middle.mpr (.inl rfl))) hq
  · intro b hb
    rw [hold b hb]
    exact h.var b (hsub b hb)
  · intro t ht
    rw [hstr]
    exact h.str t ht
  · intro b hb
    exact h.apart b (hsub b hb)

/-! ## Search -/

/-- No key around the place that a search found for `k` is `k` itself. -/
theorem key_ne_of_between {key : Nat → List Nat} {k : List Nat} {l₁ l₂ : List Nat}
    (h₁ : ∀ a ∈ l₁, key a < k) (h₂ : ∀ a ∈ l₂, k < key a) : ∀ a ∈ l₁ ++ l₂, key a ≠ k := by
  intro a ha
  rcases List.mem_append.mp ha with ha | ha
  · exact (h₁ a ha).ne
  · exact (h₂ a ha).ne'

/-- The search in a sorted list of records stops at the record with the key `k` or in front of the
place where it belongs. -/
theorem lhrFindN_sorted {l : List Nat} {where_ : Lh} {comp : Lh → Option Int} {key : Nat → List Nat}
    {k : List Nat} (hl : CLib.Linked m.p where_ (l.map .block))
    (hs : l.Pairwise fun a b => key a < key b)
    (hcomp : ∀ a ∈ l, ∃ c, comp (.block a) = some c ∧ (c < 0 ↔ key a < k) ∧ (c = 0 ↔ key a = k)) :
    (∃ l₁ a l₂, l = l₁ ++ a :: l₂ ∧ key a = k ∧ ∀ n, l.length < n →
      m.lhrFindN n where_ comp = some (lastCell where_ (l₁.map .block), some (.block a))) ∨
    (∃ l₁ l₂, l = l₁ ++ l₂ ∧ (∀ a ∈ l₁, key a < k) ∧ (∀ a ∈ l₂, k < key a) ∧ ∀ n, l.length < n →
      m.lhrFindN n where_ comp = some (lastCell where_ (l₁.map .block), none)) := by
  have hsorted : (l.map Lh.block).Pairwise fun p q => Lh.keyBy key p < Lh.keyBy key q :=
    List.pairwise_map.mpr hs
  rcases findN_sorted (x := k) hl hsorted (List.forall_mem_map.mpr hcomp) with
    ⟨p₁, q, p₂, hp, hq, hfind⟩ | ⟨p₁, p₂, hp, h₁, h₂, hfind⟩
  · obtain ⟨l₁, l₂, rfl, rfl, hl₂⟩ := List.map_eq_append_iff.mp hp
    obtain ⟨a, l₂, rfl, rfl, rfl⟩ := List.map_eq_cons_iff.mp hl₂
    rw [List.length_map] at hfind
    exact .inl ⟨l₁, a, l₂, rfl, hq, hfind⟩
  · obtain ⟨l₁, l₂, rfl, rfl, rfl⟩ := List.map_eq_append_iff.mp hp
    rw [List.length_map] at hfind
    exact .inr ⟨l₁, l₂, rfl, fun a ha => h₁ _ (List.mem_map_of_mem ha),
      fun a ha => h₂ _ (List.mem_map_of_mem ha), hfind⟩

/-- The key of a name is that of a variable if and only if it is its name. -/
theorem Lists.varKey_eq_iff (h : Lists m vs ss) {a : Nat} (ha : a ∈ vs) :
    m.varKey a = x.chars ↔ m.nameOf a = some x := by
  obtain ⟨v, y, -, -, hy⟩ := h.nameOf_isSome ha
  rw [varKey, hy, Option.some_inj]
  exact CStr.chars_inj

theorem Lists.strKey_eq_iff (h : Lists m vs ss) {a : Nat} (ha : a ∈ ss) :
    m.strKey a = x.chars ↔ m.str a = some x := by
  obtain ⟨y, hy⟩ := h.str a ha
  rw [strKey, hy, Option.some_inj]
  exact CStr.chars_inj

theorem Lists.varFindN (h : Lists m vs ss) (x : CStr) :
    (∃ v₁ a v₂, vs = v₁ ++ a :: v₂ ∧ m.nameOf a = some x ∧ ∀ n, vs.length < n →
      m.varFindN n x = some (lastCell .gblList (v₁.map .block), some (.block a))) ∨
    (∃ v₁ v₂, vs = v₁ ++ v₂ ∧ (∀ a ∈ v₁, m.varKey a < x.chars) ∧
      (∀ a ∈ v₂, x.chars < m.varKey a) ∧ ∀ n, vs.length < n →
      m.varFindN n x = some (lastCell .gblList (v₁.map .block), none)) := by
  have hcomp : ∀ a ∈ vs, ∃ c, m.varcomp x (.block a) = some c ∧
      (c < 0 ↔ m.varKey a < x.chars) ∧ (c = 0 ↔ m.varKey a = x.chars) := by
    intro a ha
    obtain ⟨v, y, hv, hy, hname⟩ := h.nameOf_isSome ha
    refine ⟨strcmp y.bytes x.bytes, ?_, ?_, ?_⟩
    · rw [varcomp, hv]
      exact congrArg (fun o => o.bind fun y : CStr => some (strcmp y.bytes x.bytes)) hy
    · rw [varKey, hname]
      exact strcmp_neg_iff y x
    · rw [varKey, hname]
      exact strcmp_zero_iff y x
  rcases lhrFindN_sorted h.varList h.varSorted hcomp with ⟨v₁, a, v₂, rfl, ha, hfind⟩ | hnone
  · left
    exact ⟨v₁, a, v₂, rfl, (h.varKey_eq_iff (by simp)).mp ha, hfind⟩
  · exact .inr hnone

theorem Lists.strFindN (h : Lists m vs ss) (x : CStr) :
    (∃ s₁ t s₂, ss = s₁ ++ t :: s₂ ∧ m.str t = some x ∧ ∀ n, ss.length < n →
      m.strFindN n x = some (lastCell .strTab (s₁.map .block), some (.block t))) ∨
    (∃ s₁ s₂, ss = s₁ ++ s₂ ∧ (∀ t ∈ s₁, m.strKey t < x.chars) ∧
      (∀ t ∈ s₂, x.chars < m.strKey t) ∧ ∀ n, ss.length < n →
      m.strFindN n x = some (lastCell .strTab (s₁.map .block), none)) := by
  have hcomp : ∀ t ∈ ss, ∃ c, m.strcomp x (.block t) = some c ∧
      (c < 0 ↔ m.strKey t < x.chars) ∧ (c = 0 ↔ m.strKey t = x.chars) := by
    intro t ht
    obtain ⟨y, hy⟩ := h.str t ht
    refine ⟨strcmp y.bytes x.bytes, ?_, ?_, ?_⟩
    · rw [strcomp, hy]
      rfl
    · rw [strKey, hy]
      exact strcmp_neg_iff y x
    · rw [strKey, hy]
      exact strcmp_zero_iff y x
  rcases lhrFindN_sorted h.strList h.strSorted hcomp with ⟨s₁, t, s₂, rfl, ht, hfind⟩ | hnone
  · left
    exact ⟨s₁, t, s₂, rfl, (h.strKey_eq_iff (by simp)).mp ht, hfind⟩
  · exact .inr hnone

end

end VarMem

end Cexp
