import Cexp.Syms.Table

/-!
# Extending a symbol table

`cexpAddSymTbl` with a table to add to, and with allocations that may fail. The array of a table is
memory of which the elements behind the last symbol need not be written; its names are copied into
chunks of characters that hang on the table. An extension that fails leaves the table as it was,
unless the array could not be made larger: then the table has lost its array
(`addSymTbl_atomic_iff`).
-/

namespace Cexp

/-- `CexpSymTblRec` in memory. The array is `none` if `syms` is null, an element of it is `none` if
it has not been written. `size` is 0 if the array was not allocated for the table. -/
structure SymTblMem where
  nentries : Nat
  size : Nat
  syms : Option (List (Option CexpSym))
  strtbl : List (List UInt8)
  deriving DecidableEq

/-- What `calloc` gives. -/
def SymTblMem.zero : SymTblMem := ⟨0, 0, none, []⟩

/-- The element number `i` of the array. -/
def SymTblMem.slot (t : SymTblMem) (i : Nat) : Option CexpSym :=
  (t.syms.bind fun block => block[i]?).join

/-- The symbols to add: external symbols with the callbacks that convert them (and whether names
are shared instead of copied), or an array of symbols to install. -/
inductive NewSyms (Ext : Type) where
  | convert (filter : Ext → Option CStr) (assign : Ext → CexpSym → CexpSym) (noStrcpy : Bool)
      (syms : List Ext)
  | install (syms : List CexpSym) (nsyms : Nat)

/-- Which allocations succeed: of the table, of its array, of the record of a chunk of characters
and of the characters. -/
structure Allocs where
  table : Bool
  array : Bool
  chunk : Bool
  chars : Bool

section

variable {Ext : Type}

/-- The characters of the names that are copied, with their null bytes. -/
def nameChars (noStrcpy : Bool) (accepted : List CexpSym) : List UInt8 :=
  if noStrcpy then [] else accepted.flatMap fun s => s.bytes ++ [0]

/-- `realloc` of an array of symbols. -/
def resize (block : Option (List (Option CexpSym))) (n : Nat) : List (Option CexpSym) :=
  (block.getD []).take n ++ List.replicate (n - (block.getD []).length) none

/-- The symbols are written behind the entries, and the element behind them loses its name.
`rest` is what memory holds that has not been written. -/
def fill (rest : CexpSym) (t : SymTblMem) (accepted : List CexpSym) :
    Option (List (Option CexpSym)) :=
  match t.syms with
  | none => none
  | some block =>
    if t.nentries + accepted.length < block.length then
      some (block.take t.nentries ++ accepted.map some ++
        some { (t.slot (t.nentries + accepted.length)).getD rest with name := none } ::
          block.drop (t.nentries + accepted.length + 1))
    else none

/-- How a call ends: with a table, or with a null pointer. What is left of the table that was
given comes with it. -/
inductive Added where
  | table (t : SymTblMem)
  | null (t : SymTblMem)
  deriving DecidableEq

/-- The array has room for the new symbols, or it is made larger. The boolean tells whether that
failed; `rval->syms` is overwritten with what `realloc` gives. -/
def growArray (allocs : Allocs) (t : SymTblMem) (n : Nat) : SymTblMem × Bool :=
  if t.size - t.nentries < n then
    if allocs.array then
      ({ t with syms := some (resize t.syms (t.nentries + n + 1)), size := t.nentries + n }, false)
    else ({ t with syms := none }, true)
  else (t, false)

/-- `cexpAddSymTbl` from the point where it has counted the symbols that the filter accepts. There
is no result if it writes outside of the array. -/
def extendChecked (rest : CexpSym) (allocs : Allocs) (noStrcpy : Bool) (accepted : List CexpSym)
    (t : SymTblMem) : Option Added :=
  let chars := nameChars noStrcpy accepted
  let (t, failed) := growArray allocs t accepted.length
  if failed then some (.null t)
  else if chars ≠ [] ∧ (!allocs.chunk ∨ !allocs.chars) then some (.null t)
  else
    let strtbl := if chars = [] then t.strtbl else chars :: t.strtbl
    (fill rest t accepted).map fun block => .table { t with
      syms := some block, strtbl := strtbl, nentries := t.nentries + accepted.length }

/-- `cexpAddSymTbl` from the point where there is a table. -/
def extend (rest : CexpSym) (allocs : Allocs) (t : SymTblMem) : NewSyms Ext → Option Added
  | .convert filter assign noStrcpy syms =>
    -- cannot add to a table that we didn't create
    if t.syms.isSome ∧ t.size = 0 then some (.null t)
    else extendChecked rest allocs noStrcpy (acceptedSyms filter assign syms) t
  | .install syms nsyms =>
    -- cannot add an existing list of symbols to another
    if t.syms.isSome then some (.null t)
    else some (.table { t with syms := some (syms.map some), nentries := t.nentries + nsyms })

/-- `cexpAddSymTbl`. A table that it has made itself is freed if it fails. -/
def SymTblMem.cexpAddSymTbl (rest : CexpSym) (allocs : Allocs) (stbl : Option SymTblMem)
    (syms : NewSyms Ext) : Option Added :=
  match stbl with
  | some t => extend rest allocs t syms
  | none =>
    if allocs.table then extend rest allocs .zero syms
    else some (.null .zero)

/-! ## A table that was left alone -/

/-- There is an array for all entries and the element behind them, and it is as large as the table
says. A table without an array has no entries. -/
structure SymTblMem.Usable (t : SymTblMem) : Prop where
  array : ∀ block, t.syms = some block → t.nentries < block.length ∧
    (t.size ≠ 0 → t.nentries ≤ t.size ∧ block.length = t.size + 1)
  noArray : t.syms = none → t.size = 0 ∧ t.nentries = 0

/-- The table has its entries, their number, the element that ends them and its strings, and it can
be used on. -/
structure SymTblMem.Kept (t t' : SymTblMem) : Prop where
  nentries : t'.nentries = t.nentries
  slots : ∀ i ≤ t.nentries, t'.slot i = t.slot i
  strtbl : t'.strtbl = t.strtbl
  usable : t'.Usable

/-- If the call gives a null pointer, the table was left alone. -/
def AtomicOnFailure (rest : CexpSym) (allocs : Allocs) (t : SymTblMem) (syms : NewSyms Ext) :
    Prop :=
  ∀ t', SymTblMem.cexpAddSymTbl rest allocs (some t) syms = some (.null t') → t.Kept t'

/-- An array of the table has to be made larger, and there is no memory for that. -/
def ArrayLost (allocs : Allocs) (t : SymTblMem) : NewSyms Ext → Prop
  | .convert filter assign _ syms => t.syms ≠ none ∧ t.size ≠ 0 ∧
      t.size - t.nentries < (acceptedSyms filter assign syms).length ∧ allocs.array = false
  | .install _ _ => False

variable {t : SymTblMem} {allocs : Allocs} {rest : CexpSym}

theorem SymTblMem.Kept.refl (h : t.Usable) : t.Kept t := ⟨rfl, fun _ _ => rfl, rfl, h⟩

theorem length_resize (block : Option (List (Option CexpSym))) (n : Nat) :
    (resize block n).length = n := by
  rw [resize, List.length_append, List.length_take, List.length_replicate]
  omega

/-- A larger array begins like the old one. -/
theorem slot_resize {n i : Nat} (hi : i < n) (hlarge : ∀ b, t.syms = some b → b.length ≤ n) :
    { t with syms := some (resize t.syms n) }.slot i = t.slot i := by
  have hget : ∀ b : List (Option CexpSym), b.length ≤ n →
      (resize (some b) n)[i]?.join = b[i]?.join := by
    intro b hb
    rw [resize, Option.getD_some, List.take_of_length_le hb]
    by_cases hib : i < b.length
    · rw [List.getElem?_append_left hib]
    · rw [List.getElem?_append_right (by omega), List.getElem?_replicate,
        if_pos (by omega), List.getElem?_eq_none (by omega)]
      rfl
  rw [SymTblMem.slot, SymTblMem.slot]
  cases hsyms : t.syms with
  | none =>
    have hnil := hget [] (Nat.zero_le n)
    rw [List.getElem?_nil] at hnil
    exact hnil
  | some b => exact hget b (hlarge b hsyms)

/-- The table after its array was made larger is as good as before. -/
theorem grown_kept (h : t.Usable) {n : Nat} (hn : t.size - t.nentries < n)
    (hsize : ¬(t.syms.isSome = true ∧ t.size = 0)) : t.Kept
      { t with syms := some (resize t.syms (t.nentries + n + 1)), size := t.nentries + n } := by
  have hlarge : ∀ b, t.syms = some b → b.length ≤ t.nentries + n + 1 := by
    intro b hb
    have hne : t.size ≠ 0 := by
      intro hzero
      exact hsize ⟨Option.isSome_of_eq_some hb, hzero⟩
    have hlength := ((h.array b hb).2 hne).2
    omega
  refine ⟨rfl, ?_, rfl, ?_, ?_⟩
  · intro i hi
    exact slot_resize (by omega) hlarge
  · intro block hblock
    cases hblock
    rw [length_resize]
    dsimp only
    omega
  · intro hnone
    cases hnone

/-- What becomes of the table when its array has to have room for `n` more symbols. -/
theorem growArray_cases (h : t.Usable) {n : Nat}
    (hsize : ¬(t.syms.isSome = true ∧ t.size = 0)) :
    (∃ t', growArray allocs t n = (t', false) ∧ t.Kept t') ∨
      t.size - t.nentries < n ∧ allocs.array = false ∧
        growArray allocs t n = ({ t with syms := none }, true) := by
  rw [growArray]
  by_cases hroom : t.size - t.nentries < n
  · rw [if_pos hroom]
    cases hmem : allocs.array with
    | true => exact Or.inl ⟨_, rfl, grown_kept h hroom hsize⟩
    | false => exact Or.inr ⟨hroom, rfl, rfl⟩
  · rw [if_neg hroom]
    exact Or.inl ⟨t, rfl, SymTblMem.Kept.refl h⟩

/-- Without its array a table that had one cannot be used. -/
theorem not_kept_of_lost (hsize : t.size ≠ 0) : ¬t.Kept { t with syms := none } := by
  intro h
  exact hsize (h.usable.noArray rfl).1

/-! ## A table that was extended -/

/-- An array of symbols that is installed has an element behind the symbols. -/
def NewSyms.Ended : NewSyms Ext → Prop
  | .convert _ _ _ _ => True
  | .install syms nsyms => nsyms < syms.length

theorem fill_length {accepted : List CexpSym} {block : List (Option CexpSym)}
    (h : fill rest t accepted = some block) : ∃ b, t.syms = some b ∧
      block.length = b.length ∧ t.nentries + accepted.length < b.length := by
  rw [fill] at h
  split at h
  · cases h
  · next b hb =>
    split at h
    · next hroom =>
      cases h
      refine ⟨b, hb, ?_, hroom⟩
      simp only [List.length_append, List.length_take, List.length_map, List.length_cons,
        List.length_drop]
      omega
    · cases h

/-- A call that succeeds keeps the table usable. -/
theorem addSymTbl_usable (h : t.Usable) {syms : NewSyms Ext} (hsyms : syms.Ended)
    {t' : SymTblMem} (hrun : SymTblMem.cexpAddSymTbl rest allocs (some t) syms = some (.table t')) :
    t'.Usable := by
  rw [SymTblMem.cexpAddSymTbl] at hrun
  cases syms with
  | install syms nsyms =>
    rw [extend] at hrun
    split at hrun
    · cases hrun
    · next hnone =>
      cases hrun
      obtain ⟨hsize, hzero⟩ := h.noArray (Option.not_isSome_iff_eq_none.mp hnone)
      refine ⟨?_, fun hnull => absurd hnull (Option.some_ne_none _)⟩
      intro block hblock
      cases hblock
      rw [List.length_map, hzero, Nat.zero_add]
      exact ⟨hsyms, fun hne => absurd hsize hne⟩
  | convert filter assign noStrcpy syms =>
    rw [extend] at hrun
    split at hrun
    · cases hrun
    · next hsize =>
      generalize acceptedSyms filter assign syms = accepted at hrun
      rw [extendChecked] at hrun
      rcases @growArray_cases t allocs h accepted.length hsize with
        ⟨t₁, hgrow, hkept⟩ | ⟨-, -, hgrow⟩
      · rw [hgrow] at hrun
        dsimp only at hrun
        rw [if_neg Bool.false_ne_true] at hrun
        split at hrun
        · cases hrun
        · obtain ⟨block, hfill, heq⟩ := Option.map_eq_some_iff.mp hrun
          cases heq
          obtain ⟨b, hb, hlength, hroom⟩ := fill_length hfill
          obtain ⟨-, hlarge⟩ := hkept.usable.array b hb
          refine ⟨?_, fun hnull => absurd hnull (Option.some_ne_none _)⟩
          intro block' hblock'
          cases hblock'
          dsimp only
          rw [hlength]
          refine ⟨hroom, ?_⟩
          intro hne
          have hsize := hlarge hne
          omega
      · rw [hgrow] at hrun
        cases hrun

/-- With memory for everything, a new table is the one that the symbols make, and there is none where
the element behind the symbols has no place. -/
theorem addSymTbl_new (rest : CexpSym) (filter : Ext → Option CStr)
    (assign : Ext → CexpSym → CexpSym) (noStrcpy : Bool) (syms : List Ext) :
    SymTblMem.cexpAddSymTbl rest ⟨true, true, true, true⟩ none
        (.convert filter assign noStrcpy syms) =
      (cexpAddSymTbl filter assign rest syms).map fun t => .table {
        nentries := t.nentries
        size := t.nentries
        syms := some (t.syms.map some)
        strtbl := if nameChars noStrcpy (acceptedSyms filter assign syms) = [] then []
          else [nameChars noStrcpy (acceptedSyms filter assign syms)] } := by
  rw [SymTblMem.cexpAddSymTbl, if_pos rfl, extend, if_neg (fun h => Bool.false_ne_true h.1),
    cexpAddSymTbl, extendChecked]
  generalize acceptedSyms filter assign syms = accepted
  cases accepted with
  | nil =>
    have hgrow : growArray ⟨true, true, true, true⟩ .zero 0 = (.zero, false) := rfl
    rw [List.length_nil, hgrow]
    dsimp only
    rw [if_neg Bool.false_ne_true, if_neg (by simp)]
    rfl
  | cons s accepted =>
    have hgrow : growArray ⟨true, true, true, true⟩ .zero (s :: accepted).length =
        (⟨0, accepted.length + 1, some (List.replicate (accepted.length + 2) none), []⟩, false) := by
      simp [growArray, SymTblMem.zero, resize]
    have hfill : fill rest
        ⟨0, accepted.length + 1, some (List.replicate (accepted.length + 2) none), []⟩
        (s :: accepted) = some ((s :: accepted ++ [{ rest with name := none }]).map some) := by
      rw [fill]
      simp [SymTblMem.slot]
    rw [hgrow]
    dsimp only
    rw [if_neg Bool.false_ne_true, if_neg (by simp), hfill, Option.map_some, Option.map_some,
      Nat.zero_add, List.length_cons]

/-! ## A table that could not be extended -/

/-- A call that fails leaves a usable table alone exactly if it is not the array of the table that
could not be made larger. -/
theorem addSymTbl_atomic_iff (rest : CexpSym) (allocs : Allocs) (h : t.Usable)
    (syms : NewSyms Ext) : AtomicOnFailure rest allocs t syms ↔ ¬ArrayLost allocs t syms := by
  cases syms with
  | install syms nsyms =>
    refine iff_of_true ?_ id
    intro t' hrun
    rw [SymTblMem.cexpAddSymTbl, extend] at hrun
    split at hrun
    · cases hrun
      exact SymTblMem.Kept.refl h
    · cases hrun
  | convert filter assign noStrcpy syms =>
    generalize haccepted : acceptedSyms filter assign syms = accepted
    by_cases hsize : t.syms.isSome = true ∧ t.size = 0
    · have hrun : SymTblMem.cexpAddSymTbl rest allocs (some t)
          (.convert filter assign noStrcpy syms) = some (.null t) := by
        rw [SymTblMem.cexpAddSymTbl, extend, if_pos hsize]
      refine iff_of_true ?_ ?_
      · intro t' hrun'
        rw [hrun] at hrun'
        cases hrun'
        exact SymTblMem.Kept.refl h
      · rintro ⟨-, hne, -⟩
        exact hne hsize.2
    · have hrun : SymTblMem.cexpAddSymTbl rest allocs (some t)
          (.convert filter assign noStrcpy syms) = extendChecked rest allocs noStrcpy accepted t := by
        rw [SymTblMem.cexpAddSymTbl, extend, if_neg hsize, haccepted]
      rw [AtomicOnFailure, hrun, ArrayLost, haccepted]
      rcases @growArray_cases t allocs h accepted.length hsize with
        ⟨t₁, hgrow, hkept⟩ | ⟨hroom, hmem, hgrow⟩
      · -- the array has room
        refine iff_of_true ?_ ?_
        · intro t' hnull
          rw [extendChecked, hgrow] at hnull
          dsimp only at hnull
          rw [if_neg Bool.false_ne_true] at hnull
          split at hnull
          · cases hnull
            exact hkept
          · obtain ⟨block, -, heq⟩ := Option.map_eq_some_iff.mp hnull
            cases heq
        · rintro ⟨-, -, hroom, hmem⟩
          rw [growArray, if_pos hroom, hmem] at hgrow
          cases hgrow
      · have hnull : extendChecked rest allocs noStrcpy accepted t =
            some (.null { t with syms := none }) := by
          rw [extendChecked, hgrow]
          rfl
        cases hsyms : t.syms with
        | none =>
          -- there was no array that could be lost
          refine iff_of_true ?_ ?_
          · intro t' hrun'
            rw [hnull] at hrun'
            cases hrun'
            rw [← hsyms]
            exact SymTblMem.Kept.refl h
          · rintro ⟨hne, -⟩
            exact hne rfl
        | some block =>
          have hne : t.size ≠ 0 := by
            intro hzero
            exact hsize ⟨Option.isSome_of_eq_some hsyms, hzero⟩
          refine iff_of_false ?_ ?_
          · intro hatomic
            exact not_kept_of_lost hne (hatomic _ hnull)
          · intro hnot
            exact hnot ⟨Option.some_ne_none block, hne, hroom, hmem⟩

end

/-- A table with one symbol and the element that ends it. -/
def oneSymbol (name : CStr) (rest : CexpSym) : SymTblMem :=
  ⟨1, 1, some [some (newSym name), some { rest with name := none }], [name.bytes ++ [0]]⟩

theorem oneSymbol_usable (name : CStr) (rest : CexpSym) : (oneSymbol name rest).Usable := by
  constructor
  · intro block hblock
    cases hblock
    exact ⟨Nat.lt_succ_self 1, fun _ => ⟨Nat.le_refl 1, rfl⟩⟩
  · intro hnone
    cases hnone

/-- The symbols of an external table that has names only. -/
def addNames (names : List CStr) : NewSyms CStr := .convert some (fun _ s => s) false names

/-- There is no memory for a second symbol, and the first one is lost. -/
theorem array_lost : SymTblMem.cexpAddSymTbl (newSym .empty) ⟨true, false, true, true⟩
      (some (oneSymbol marker (newSym .empty))) (addNames [marker]) =
        some (.null ⟨1, 1, none, [marker.bytes ++ [0]]⟩) ∧
    ¬AtomicOnFailure (newSym .empty) ⟨true, false, true, true⟩
      (oneSymbol marker (newSym .empty)) (addNames [marker]) := by
  have hrun : SymTblMem.cexpAddSymTbl (newSym .empty) ⟨true, false, true, true⟩
      (some (oneSymbol marker (newSym .empty))) (addNames [marker]) =
        some (.null ⟨1, 1, none, [marker.bytes ++ [0]]⟩) := rfl
  refine ⟨hrun, ?_⟩
  intro h
  have hkept := h _ hrun
  have hslot := hkept.slots 0 (Nat.zero_le _)
  cases hslot

/-- There is no memory for the name of a second symbol, and the table is as it was. -/
theorem addSymTbl_atomic_chars :
    AtomicOnFailure (newSym .empty) ⟨true, true, true, false⟩
      (oneSymbol marker (newSym .empty)) (addNames [marker]) := by
  refine (addSymTbl_atomic_iff (newSym .empty) ⟨true, true, true, false⟩
    (oneSymbol_usable marker (newSym .empty)) (addNames [marker])).mpr ?_
  rintro ⟨-, -, -, hmem⟩
  cases hmem

end Cexp
