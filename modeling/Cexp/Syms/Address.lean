import Cexp.Syms.Regex

/-!
# The index by addresses

A table has an index of its entries that is sorted by addresses (`cexpIndexSymTbl_indexed`).
`cexpSymTblLkAddrIdx` searches it for the last entry that is not above an address; it gives the
first entry if all are above. The ends of its interval are `int`s, while the number of entries is an
`unsigned long`.

A pointer into the array of symbols is modelled by the number of the element. There is no result
where an `int` overflows or where the source reads outside of the index.
-/

namespace Cexp

open CLib

/-- `CexpSymTblRec` with the index by addresses. -/
structure CexpAddrTbl extends CexpSymTbl where
  aindex : List Nat
  deriving DecidableEq

/-- `t->aindex[i]` -/
def CexpAddrTbl.sym (t : CexpAddrTbl) (i : Nat) : Option CexpSym :=
  (t.aindex[i]?).bind fun slot => t.syms[slot]?

/-- `t->aindex[i]->value.ptv` -/
def CexpAddrTbl.ptv (t : CexpAddrTbl) (i : Nat) : Option (BitVec 64) :=
  (t.sym i).map fun s => s.value.ptv

/-- The index has all entries, in the order of their addresses. -/
structure CexpAddrTbl.Indexed (t : CexpAddrTbl) : Prop where
  perm : t.aindex.Perm (List.range t.nentries)
  bound : t.nentries ≤ t.syms.length
  sorted : ∀ i j a b, i ≤ j → t.ptv i = some a → t.ptv j = some b → a ≤ b

/-- `_cexp_addrcomp` on elements of the array. -/
def cexpAddrcomp (t : CexpSymTbl) (a b : Nat) : Int :=
  match t.syms[a]?, t.syms[b]? with
  | some sa, some sb =>
    if sa.value.ptv > sb.value.ptv then 1 else if sa.value.ptv < sb.value.ptv then -1 else 0
  | _, _ => 0

/-- `cexpIndexSymTbl`, when there is memory for the index. -/
def cexpIndexSymTbl (qsort : (Nat → Nat → Int) → List Nat → List Nat) (t : CexpSymTbl) :
    CexpAddrTbl :=
  { t with aindex := qsort (cexpAddrcomp t) (List.range t.nentries) }

/-! ## The search -/

/-- The value of a sum or a difference of two `int`s. -/
def intResult (z : Int) : Option Int := if -2 ^ 31 ≤ z ∧ z < 2 ^ 31 then some z else none

/-- `t->nentries-1` as an `int`. -/
def lastIdx (nentries : Nat) : Int := ((nentries : Int) - 1).bmod (2 ^ 32)

/-- The loop of `cexpSymTblLkAddrIdx`. -/
def lkAddrLoop (addr : BitVec 64) (t : CexpAddrTbl) (lo hi : Nat) : Option Nat :=
  if lo < hi then
    if lo + hi + 1 < 2 ^ 31 then
      let mid := (lo + hi + 1) >>> 1 -- round up
      match t.ptv mid with
      | none => none
      | some a => if addr < a then lkAddrLoop addr t lo (mid - 1) else lkAddrLoop addr t mid hi
    else none
  else some lo
termination_by hi - lo
decreasing_by
  · rw [Nat.shiftRight_one]
    omega
  · rw [Nat.shiftRight_one]
    omega

/-- The loop that prints the entries from `lo` to `hi`. -/
def lkAddrPrint (t : CexpAddrTbl) (lo hi : Int) : Option (List CexpSym) :=
  if lo ≤ hi then do
    let s ← t.sym lo.toNat
    let _ ← intResult (lo + 1)
    let printed ← lkAddrPrint t (lo + 1) hi
    return s :: printed
  else some []
termination_by (hi + 1 - lo).toNat
decreasing_by omega

/-- `cexpSymTblLkAddrIdx`, with the entries that it prints: `f` says if there is a stream. With an
end below zero the loop does not run. The bound of the printing is compared as an
`unsigned long`. -/
def cexpSymTblLkAddrIdx (addr : BitVec 64) (margin : Int) (f : Bool) (t : CexpAddrTbl) :
    Option (Nat × List CexpSym) := do
  let mid ← lkAddrLoop addr t 0 (lastIdx t.nentries).toNat
  if f then
    let lo ← intResult (mid - margin)
    let lo := if lo < 0 then 0 else lo
    let hi ← intResult (mid + margin)
    let hi := if (t.nentries : Int) ≤ hi % 2 ^ 64 then lastIdx t.nentries else hi
    let printed ← lkAddrPrint t lo hi
    return (mid, printed)
  else
    return (mid, [])

section

variable {t : CexpAddrTbl} {addr : BitVec 64}

theorem CexpAddrTbl.Indexed.length (ht : t.Indexed) : t.aindex.length = t.nentries := by
  rw [ht.perm.length_eq, List.length_range]

theorem CexpAddrTbl.Indexed.sym_isSome (ht : t.Indexed) {i : Nat} (hi : i < t.nentries) :
    ∃ slot s, t.aindex[i]? = some slot ∧ slot < t.nentries ∧ t.syms[slot]? = some s ∧
      t.sym i = some s := by
  have hlt : i < t.aindex.length := by
    rw [ht.length]
    exact hi
  have hmem : t.aindex[i] ∈ List.range t.nentries := ht.perm.mem_iff.mp (List.getElem_mem hlt)
  have hslot := List.mem_range.mp hmem
  have hin := List.getElem?_eq_getElem (Nat.lt_of_lt_of_le hslot ht.bound)
  have hi' := List.getElem?_eq_getElem hlt
  refine ⟨_, _, hi', hslot, hin, ?_⟩
  rw [sym, hi']
  exact hin

theorem CexpAddrTbl.Indexed.ptv_isSome_iff (ht : t.Indexed) {i : Nat} :
    (t.ptv i).isSome = true ↔ i < t.nentries := by
  constructor
  · intro h
    by_contra hge
    have hnone : t.aindex[i]? = none := by
      rw [List.getElem?_eq_none_iff, ht.length]
      omega
    rw [ptv, sym, hnone] at h
    cases h
  · intro hi
    obtain ⟨_, s, -, -, -, hs⟩ := ht.sym_isSome hi
    rw [ptv, hs]
    rfl

end

/-! ## The index is sorted -/

/-- The address of an element of the array. -/
def slotAddr (t : CexpSymTbl) (slot : Nat) : Nat :=
  ((t.syms[slot]?).map fun s => s.value.ptv.toNat).getD 0

theorem cexpAddrcomp_le {t : CexpSymTbl} {a b : Nat} (ha : a < t.syms.length)
    (hb : b < t.syms.length) : (cexpAddrcomp t a b ≤ 0 ↔ slotAddr t a ≤ slotAddr t b) ∧
      (cexpAddrcomp t a b < 0 ↔ slotAddr t a < slotAddr t b) ∧
      (0 < cexpAddrcomp t a b ↔ slotAddr t b < slotAddr t a) := by
  rw [cexpAddrcomp, slotAddr, slotAddr, List.getElem?_eq_getElem ha, List.getElem?_eq_getElem hb]
  dsimp only [Option.map_some, Option.getD_some]
  simp only [gt_iff_lt, BitVec.lt_def]
  split
  · omega
  · split
    · omega
    · omega

theorem cexpAddrcomp_consistent {t : CexpSymTbl} (hn : t.nentries ≤ t.syms.length) :
    Consistent (cexpAddrcomp t) (List.range t.nentries) := by
  have hin : ∀ a ∈ List.range t.nentries, a < t.syms.length :=
    fun a ha => Nat.lt_of_lt_of_le (List.mem_range.mp ha) hn
  constructor
  · intro a ha b hb
    rw [(cexpAddrcomp_le (hin a ha) (hin b hb)).2.1, (cexpAddrcomp_le (hin b hb) (hin a ha)).2.2]
  · intro a ha b hb c hc hab hbc
    rw [(cexpAddrcomp_le (hin _ _) (hin _ _)).1] at hab hbc ⊢
    · exact Nat.le_trans hab hbc
    all_goals assumption

theorem ptv_eq_slotAddr {t : CexpAddrTbl} {i : Nat} {a : BitVec 64} (h : t.ptv i = some a) :
    ∃ slot, t.aindex[i]? = some slot ∧ slotAddr t.toCexpSymTbl slot = a.toNat := by
  obtain ⟨s, hs, rfl⟩ := Option.map_eq_some_iff.mp h
  obtain ⟨slot, hslot, hget⟩ := Option.bind_eq_some_iff.mp hs
  refine ⟨slot, hslot, ?_⟩
  rw [slotAddr, hget]
  rfl

/-- What `cexpIndexSymTbl` builds is an index, if `qsort` sorts. -/
theorem cexpIndexSymTbl_indexed {qsort : (Nat → Nat → Int) → List Nat → List Nat}
    {t : CexpSymTbl} (hn : t.nentries ≤ t.syms.length)
    (hq : Sorts (cexpAddrcomp t) (List.range t.nentries)
      (qsort (cexpAddrcomp t) (List.range t.nentries))) : (cexpIndexSymTbl qsort t).Indexed := by
  refine ⟨hq.perm, hn, ?_⟩
  intro i j a b hij ha hb
  obtain ⟨s, hs, hsa⟩ := ptv_eq_slotAddr ha
  obtain ⟨s', hs', hsb⟩ := ptv_eq_slotAddr hb
  rcases Nat.eq_or_lt_of_le hij with rfl | hlt
  · rw [ha] at hb
    cases hb
    exact BitVec.le_refl _
  · have hsorted := hq.sorted (cexpAddrcomp_consistent hn)
    obtain ⟨hi, hgi⟩ := List.getElem?_eq_some_iff.mp hs
    obtain ⟨hj, hgj⟩ := List.getElem?_eq_some_iff.mp hs'
    have hle := List.pairwise_iff_getElem.mp hsorted i j hi hj hlt
    have hslot : ∀ slot ∈ qsort (cexpAddrcomp t) (List.range t.nentries), slot < t.syms.length :=
      fun slot hmem => Nat.lt_of_lt_of_le (List.mem_range.mp (hq.perm.mem_iff.mp hmem)) hn
    have hcmp := (cexpAddrcomp_le (hslot _ (List.getElem_mem hi))
      (hslot _ (List.getElem_mem hj))).1.mp hle
    rw [BitVec.le_def, ← hsa, ← hsb, ← hgi, ← hgj]
    exact hcmp

end Cexp
