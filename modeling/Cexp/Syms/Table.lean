import Cexp.Ctyps.Types
import Cexp.Lib.Search

/-!
# Symbol tables

A symbol table is an array of `nentries` symbols and one more element, whose name is null
and which ends the loops that scan the array. `cexpSortSymTbl` sorts the array by name and
squeezes out entries of equal names; lookups by name are binary searches in the result.

Names are byte strings without the terminating null byte. Whether the plain `char`s that
`_cexp_namecomp` subtracts are signed depends on the target (`CharSign`).
-/

namespace Cexp

open CLib

/-! ## Names -/

/-- The bytes of a C string. -/
structure CStr where
  bytes : List UInt8
  noNul : 0 ∉ bytes
  deriving DecidableEq

theorem CStr.noNul_nil : (0 : UInt8) ∉ ([] : List UInt8) := List.not_mem_nil

/-- The empty string. -/
def CStr.empty : CStr := ⟨[], CStr.noNul_nil⟩

@[ext] theorem CStr.ext {a b : CStr} (h : a.bytes = b.bytes) : a = b := by
  cases a
  cases b
  simp_all

inductive CharSign where
  | signed
  | unsigned
  deriving DecidableEq, Repr

/-- The value of a `char`. -/
def CharSign.val (cs : CharSign) (b : UInt8) : Int :=
  match cs with
  | signed => if b.toNat < 128 then b.toNat else b.toNat - 256
  | unsigned => b.toNat

/-- `LINKER_VERSION_SEPARATOR` -/
def separator : UInt8 := 64

/-- The loop of `_cexp_namecomp`: `k` is the key, a list ends where the string has its
null byte. -/
def namecomp (cs : CharSign) : List UInt8 → List UInt8 → Int
  | k :: ks, c :: s => if cs.val k - cs.val c ≠ 0 then cs.val k - cs.val c else namecomp cs ks s
  | k :: _, [] => cs.val k - cs.val 0
  | [], [] => 0
  | [], c :: _ => if c = separator then 0 else -1

/-! ## Symbols and tables -/

/-- `CexpSymRec`. Only the element behind the last entry has a null name. -/
structure CexpSym where
  name : Option CStr
  value : CexpTypedAddr
  size : Int
  flags : Nat
  help : BitVec 64
  deriving DecidableEq

/-- The bytes that a name points to. -/
def CexpSym.bytes (s : CexpSym) : List UInt8 :=
  match s.name with
  | none => []
  | some n => n.bytes

/-- `_cexp_namecomp` -/
def cexpNamecomp (cs : CharSign) (a b : CexpSym) : Int := namecomp cs a.bytes b.bytes

/-- `CexpSymTblRec`, without what belongs to the index by addresses. -/
structure CexpSymTbl where
  nentries : Nat
  syms : List CexpSym
  deriving DecidableEq

/-- The entries of a table. -/
def CexpSymTbl.entries (t : CexpSymTbl) : List CexpSym := t.syms.take t.nentries

/-- A table that has been filled: `entries`, all with names, and the element that ends
them. -/
structure CexpSymTbl.Filled (t : CexpSymTbl) (entries : List CexpSym) (last : CexpSym) :
    Prop where
  nentries : t.nentries = entries.length
  syms : t.syms = entries ++ [last]
  named : ∀ s ∈ entries, s.name ≠ none
  last : last.name = none

/-! ## Building a table -/

/-- A new symbol, all zeroes but for its name. -/
def newSym (name : CStr) : CexpSym := ⟨some name, ⟨0, CexpType.TVoid⟩, 0, 0, 0⟩

/-- An element that is all zeroes. -/
def zeroSym : CexpSym := ⟨none, ⟨0, CexpType.TVoid⟩, 0, 0, 0⟩

/-- The symbols that `filter` accepts, as `assign` sets them. What it sets is up to the
object format, but it leaves the name alone. -/
def acceptedSyms {Ext : Type} (filter : Ext → Option CStr) (assign : Ext → CexpSym → CexpSym) :
    List Ext → List CexpSym
  | [] => []
  | e :: syms =>
    match filter e with
    | none => acceptedSyms filter assign syms
    | some name =>
      { assign e (newSym name) with name := some name } :: acceptedSyms filter assign syms

/-- `cexpAddSymTbl` without a table to add to, when the allocations succeed. `rest` is the
memory of the element behind the last one. If no symbol is accepted, no array is allocated, and
`cesp->name=0` writes through a null pointer: there is no result. -/
def cexpAddSymTbl {Ext : Type} (filter : Ext → Option CStr) (assign : Ext → CexpSym → CexpSym)
    (rest : CexpSym) (syms : List Ext) : Option CexpSymTbl :=
  match acceptedSyms filter assign syms with
  | [] => none
  | s :: accepted => some {
      nentries := accepted.length + 1, syms := s :: accepted ++ [{ rest with name := none }] }

theorem acceptedSyms_named {Ext : Type} {filter : Ext → Option CStr}
    {assign : Ext → CexpSym → CexpSym} {syms : List Ext} {s : CexpSym}
    (hs : s ∈ acceptedSyms filter assign syms) : s.name ≠ none := by
  induction syms with
  | nil => cases hs
  | cons e syms ih =>
    rw [acceptedSyms] at hs
    split at hs
    · exact ih hs
    · rcases List.mem_cons.mp hs with rfl | hs
      · simp
      · exact ih hs

theorem cexpAddSymTbl_filled {Ext : Type} {filter : Ext → Option CStr}
    {assign : Ext → CexpSym → CexpSym} {rest : CexpSym} {syms : List Ext} {t : CexpSymTbl}
    (h : cexpAddSymTbl filter assign rest syms = some t) :
    t.Filled (acceptedSyms filter assign syms) { rest with name := none } := by
  have hnamed : ∀ s ∈ acceptedSyms filter assign syms, s.name ≠ none := fun s hs =>
    acceptedSyms_named hs
  rw [cexpAddSymTbl] at h
  cases haccepted : acceptedSyms filter assign syms with
  | nil =>
    rw [haccepted] at h
    cases h
  | cons s accepted =>
    rw [haccepted] at h hnamed
    cases h
    exact ⟨rfl, rfl, hnamed, rfl⟩

/-- There is a table iff a symbol is accepted. -/
theorem cexpAddSymTbl_eq_none_iff {Ext : Type} {filter : Ext → Option CStr}
    {assign : Ext → CexpSym → CexpSym} {rest : CexpSym} {syms : List Ext} :
    cexpAddSymTbl filter assign rest syms = none ↔ acceptedSyms filter assign syms = [] := by
  rw [cexpAddSymTbl]
  cases acceptedSyms filter assign syms with
  | nil => exact ⟨fun _ => rfl, fun _ => rfl⟩
  | cons s accepted =>
    exact ⟨fun h => (Option.some_ne_none _ h).elim, fun h => (List.cons_ne_nil _ _ h).elim⟩

/-- The name that stops the loop of `cexpSortSymTbl`: `"+%2W"`. -/
def marker : CStr := ⟨[0x2b, 0x25, 0x32, 0x57], by decide⟩

/-- The inner loop of `cexpSortSymTbl`: the first element from `fr` on that differs from
element `to`. `none` if there is none up to the end of the array. -/
def skipSame (cs : CharSign) (syms : List CexpSym) (to' fr : Nat) : Option Nat :=
  match syms[to']?, _h : syms[fr]? with
  | some a, some b => if cexpNamecomp cs a b = 0 then skipSame cs syms to' (fr + 1) else some fr
  | _, _ => none
termination_by syms.length - fr
decreasing_by
  obtain ⟨hlt, -⟩ := List.getElem?_eq_some_iff.mp _h
  omega

theorem le_skipSame (cs : CharSign) (syms : List CexpSym) (to' fr fr' : Nat)
    (h : skipSame cs syms to' fr = some fr') : fr ≤ fr' := by
  fun_induction skipSame cs syms to' fr with
  | case1 fr a b ha hb hcmp ih => exact Nat.le_of_succ_le (ih h)
  | case2 fr a b ha hb hcmp => cases h; exact Nat.le_refl _
  | case3 fr hnone => cases h

/-- The outer loop of `cexpSortSymTbl`, with the array that it rewrites and its cursors. -/
def squeezeLoop (cs : CharSign) (nentries : Nat) (syms : List CexpSym) (to' fr : Nat) :
    Option (List CexpSym × Nat) :=
  if fr < nentries then
    match _h : skipSame cs syms to' fr with
    | none => none
    | some fr' =>
      match syms[fr']? with
      | none => none
      | some s => squeezeLoop cs nentries (syms.set (to' + 1) s) (to' + 1) (fr' + 1)
  else some (syms, to')
termination_by nentries - fr
decreasing_by
  have := le_skipSame cs syms to' fr fr' _h
  omega

/-- Overwrite the name of an element. -/
def setName (syms : List CexpSym) (i : Nat) (name : Option CStr) : List CexpSym :=
  match syms[i]? with
  | none => syms
  | some s => syms.set i { s with name := name }

/-- `qsort` is what the C library's routine does with the entries. The result is `none` if
the inner loop runs past the array. -/
def cexpSortSymTbl (cs : CharSign) (qsort : List CexpSym → List CexpSym) (t : CexpSymTbl) :
    Option CexpSymTbl :=
  if t.nentries = 0 then some t
  else
    let syms := qsort t.entries ++ t.syms.drop t.nentries
    let old := (syms[t.nentries]?).bind CexpSym.name
    match squeezeLoop cs t.nentries (setName syms t.nentries (some marker)) 0 1 with
    | none => none
    | some (syms, to') => some { nentries := to' + 1, syms := setName syms t.nentries old }

def cexpCreateSymTbl {Ext : Type} (cs : CharSign) (qsort : List CexpSym → List CexpSym)
    (filter : Ext → Option CStr) (assign : Ext → CexpSym → CexpSym) (rest : CexpSym)
    (syms : List Ext) : Option CexpSymTbl :=
  (cexpAddSymTbl filter assign rest syms).bind (cexpSortSymTbl cs qsort)

/-! ## Lookup -/

/-- `p` is how the C library's `bsearch` chooses the element to look at. -/
def cexpSymTblLookup (cs : CharSign) (p : Probe) (name : CStr) (t : CexpSymTbl) :
    Option CexpSym :=
  bsearch p (fun s => namecomp cs name.bytes s.bytes) t.entries

end Cexp
