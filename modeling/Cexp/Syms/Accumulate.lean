import Cexp.Lib.Fill
import Cexp.Syms.Extend

/-!
# Symbol tables that accumulate

`cexpAddSymTbl` with the two passes that it makes over an external symbol table: the first one
counts the symbols that are accepted and the bytes of their names, the second one writes the symbols
and copies the names. Many external tables may be added to one table, and the array may move each
time. What is added is what was counted, and what was added before stays. Only where there is no
array yet and nothing to add, the element that ends the symbols is written all the same, through a
null pointer (`addSymTbls_iff`).
-/

namespace Cexp

open CLib

/-! ## Memory -/

/-- Where the name of a symbol is: nowhere, in the external table, or at an offset in a chunk of
characters. Chunks are numbered as they were made. -/
inductive NameRef (Str : Type) where
  | null
  | given (p : Str)
  | copy (chunk off : Nat)
  deriving DecidableEq

/-- `CexpSymRec` without the name. -/
structure SymData where
  value : CexpTypedAddr
  size : Int
  flags : Nat
  help : BitVec 64
  deriving DecidableEq

/-- What `memset` leaves. -/
def SymData.zero : SymData := ⟨⟨0, CexpType.TVoid⟩, 0, 0, 0⟩

/-- An element of the array. What has not been written is `none`. -/
structure SymElem (Str : Type) where
  name : Option (NameRef Str)
  data : Option SymData
  deriving DecidableEq

/-- What `malloc` gives. -/
def SymElem.wild {Str : Type} : SymElem Str := ⟨none, none⟩

/-- `CexpSymTblRec`. The last chunk that was made is the first of the list. -/
structure SymArray (Str : Type) where
  nentries : Nat
  size : Nat
  syms : Option (List (SymElem Str))
  strtbl : List (List (Option UInt8))
  deriving DecidableEq

section

variable {Ext Str : Type}

/-- What `calloc` gives. -/
def SymArray.zero : SymArray Str := ⟨0, 0, none, []⟩

/-- `cexpNewSymTbl` -/
def cexpNewSymTbl (nEntries : Nat) : SymArray Str :=
  ⟨0, nEntries, if nEntries = 0 then none else some (List.replicate (nEntries + 1) .wild), []⟩

/-- The array. There is none behind a null pointer. -/
def SymArray.block (t : SymArray Str) : List (SymElem Str) := t.syms.getD []

def SymArray.entries (t : SymArray Str) : List (SymElem Str) := t.block.take t.nentries

/-- The string that begins here, if it has been written up to its null byte. -/
def writtenStr : List (Option UInt8) → Option (List UInt8)
  | some b :: chars => if b = 0 then some [] else (writtenStr chars).map (b :: ·)
  | _ => none

/-- The string at an offset in a chunk. -/
def stringAt (strtbl : List (List (Option UInt8))) (chunk off : Nat) : Option (List UInt8) :=
  strtbl.reverse[chunk]?.bind fun chars => writtenStr (chars.drop off)

/-- An external symbol table with the callbacks that convert its symbols. `noStrcpy` is
`CEXP_SYMTBL_FLAG_NO_STRCPY`. -/
structure AddCall (Ext Str : Type) where
  filter : Ext → Option Str
  assign : Ext → SymData → SymData
  noStrcpy : Bool
  syms : List Ext

variable (w : Nat) (str : Str → CStr)

/-! ## The passes -/

/-- The pass that counts: `nDstSyms` and `nDstChars`, which is an `int`. -/
def countPass (c : AddCall Ext Str) : List Ext → Nat × BitVec 32 → Nat × BitVec 32
  | [], n => n
  | e :: syms, (nDstSyms, nDstChars) =>
    match c.filter e with
    | none => countPass c syms (nDstSyms, nDstChars)
    | some symname => countPass c syms (nDstSyms + 1,
        if c.noStrcpy then nDstChars
        else nDstChars + BitVec.ofNat 32 ((str symname).bytes.length + 1))

/-- `while ((*(dst++)=*(symname++)))` with the offset that `dst` ends at. -/
def copyChars : List UInt8 → Nat → List (Option UInt8) → Option (List (Option UInt8) × Nat)
  | [], dst, chars => (put chars dst (some 0)).map fun chars => (chars, dst + 1)
  | b :: symname, dst, chars =>
    (put chars dst (some b)).bind fun chars => copyChars symname (dst + 1) chars

/-- The array and the chunk while they are filled, and the places that are written next. -/
structure Filling (Str : Type) where
  block : List (SymElem Str)
  cesp : Nat
  chars : List (Option UInt8)
  dst : Nat

/-- A symbol is written whose name is `symname`. -/
def fillSym (c : AddCall Ext Str) (chunk : Nat) (e : Ext) (symname : Str) (s : Filling Str) :
    Option (Filling Str) :=
  let data := some (c.assign e .zero)
  if c.noStrcpy then
    (put s.block s.cesp ⟨some (.given symname), data⟩).map fun block =>
      ⟨block, s.cesp + 1, s.chars, s.dst⟩
  else
    (copyChars (str symname).bytes s.dst s.chars).bind fun (chars, dst) =>
      (put s.block s.cesp ⟨some (.copy chunk s.dst), data⟩).map fun block =>
        ⟨block, s.cesp + 1, chars, dst⟩

/-- The pass that fills. There is no result if it writes outside of the array or of the chunk. -/
def fillPass (c : AddCall Ext Str) (chunk : Nat) : List Ext → Filling Str → Option (Filling Str)
  | [], s => some s
  | e :: syms, s =>
    match c.filter e with
    | none => fillPass c chunk syms s
    | some symname => (fillSym str c chunk e symname s).bind (fillPass c chunk syms)

/-- `realloc` of the array. -/
def regrow (block : List (SymElem Str)) (n : Nat) : List (SymElem Str) :=
  block.take n ++ List.replicate (n - block.length) .wild

/-- The array has room for `nDstSyms` more symbols, or it is made larger. -/
def SymArray.reserve (t : SymArray Str) (nDstSyms : Nat) : SymArray Str :=
  if nDstSyms > t.size - t.nentries then
    { t with
      syms := some (regrow t.block (t.nentries + nDstSyms + 1))
      size := t.nentries + nDstSyms }
  else t

/-- What `malloc` gives for the names. `size_t` has `w` bits. -/
def newChunk (nDstChars : BitVec 32) : List (Option UInt8) :=
  List.replicate (nDstChars.signExtend w).toNat none

/-- `cexpAddSymTbl` with callbacks, when all allocations succeed. There is no result if it writes
outside of its memory; the result is a null pointer if the array belongs to somebody else. -/
def addSymTbl (stbl : Option (SymArray Str)) (c : AddCall Ext Str) :
    Option (Option (SymArray Str)) :=
  let rval := stbl.getD .zero
  if rval.syms.isSome ∧ rval.size = 0 then some none
  else
    let (nDstSyms, nDstChars) := countPass str c c.syms (0, 0)
    let rval := rval.reserve nDstSyms
    let chars := if nDstChars = 0 then [] else newChunk w nDstChars
    (fillPass str c rval.strtbl.length c.syms ⟨rval.block, rval.nentries, chars, 0⟩).bind fun s =>
      -- mark the last table entry
      s.block[s.cesp]?.map fun last => some { rval with
        nentries := rval.nentries + nDstSyms
        syms := some (s.block.set s.cesp { last with name := some .null })
        strtbl := if nDstChars = 0 then rval.strtbl else s.chars :: rval.strtbl }

/-- External symbol tables are added one after the other. -/
def addSymTbls (stbl : Option (SymArray Str)) : List (AddCall Ext Str) →
    Option (Option (SymArray Str))
  | [] => some stbl
  | c :: calls => (addSymTbl w str stbl c).bind fun rval =>
    match rval with
    | none => some none
    | some t => addSymTbls (some t) calls

/-! ## What a table should be -/

/-- A symbol that is accepted: its name in the external table and what it is converted to. -/
structure Accepted (Str : Type) where
  noStrcpy : Bool
  symname : Str
  data : SymData

def AddCall.accepts (c : AddCall Ext Str) (e : Ext) : Option (Accepted Str) :=
  (c.filter e).map fun symname => ⟨c.noStrcpy, symname, c.assign e .zero⟩

def AddCall.accepted (c : AddCall Ext Str) : List (Accepted Str) := c.syms.filterMap c.accepts

/-- The bytes of the copy of a name. -/
def Accepted.copied (a : Accepted Str) : List UInt8 :=
  if a.noStrcpy then [] else (str a.symname).bytes ++ [0]

/-- The names that a call copies. -/
def AddCall.chars (c : AddCall Ext Str) : List UInt8 := c.accepted.flatMap (Accepted.copied str)

/-- The counter is not too small for the names: `malloc` is asked for as many bytes as they have. -/
def AddCall.Counted (c : AddCall Ext Str) : Prop :=
  ((BitVec.ofNat 32 (c.chars str).length).signExtend w).toNat = (c.chars str).length

/-- The chunk of a call, if there is one. -/
def AddCall.chunk (c : AddCall Ext Str) : List (List (Option UInt8)) :=
  if c.chars str = [] then [] else [(c.chars str).map some]

/-- The name and the data of a symbol that was accepted. -/
def EntryOf (strtbl : List (List (Option UInt8))) (a : Accepted Str) (x : SymElem Str) : Prop :=
  ∃ ref, x = ⟨some ref, some a.data⟩ ∧
    if a.noStrcpy then ref = .given a.symname
    else ∃ chunk off, ref = .copy chunk off ∧ stringAt strtbl chunk off = some (str a.symname).bytes

/-- Copies of two names do not overlap. -/
def CopiesApart (x y : SymElem Str × Accepted Str) : Prop :=
  ∀ chunk off off', x.1.name = some (.copy chunk off) → y.1.name = some (.copy chunk off') →
    off + (x.2.copied str).length ≤ off'

/-- The table has the symbols that `calls` have added. -/
structure Accumulated (calls : List (AddCall Ext Str)) (t : SymArray Str) : Prop where
  nentries : t.nentries = (calls.flatMap AddCall.accepted).length
  entries : List.Forall₂ (EntryOf str t.strtbl) (calls.flatMap AddCall.accepted) t.entries
  apart : (t.entries.zip (calls.flatMap AddCall.accepted)).Pairwise (CopiesApart str)
  strtbl : t.strtbl = (calls.flatMap (AddCall.chunk str)).reverse
  last : ∃ x, t.block[t.nentries]? = some x ∧ x.name = some .null

/-- What was in the table is there again: the entries and the strings. -/
structure SymArray.Keeps (t t' : SymArray Str) : Prop where
  entries : t.entries <+: t'.entries
  strtbl : t.strtbl <:+ t'.strtbl

/-- All tables are added, the result has their symbols, and none of the calls changes what the calls
before it have added. -/
def AddsAll (stbl : Option (SymArray Str)) (calls : List (AddCall Ext Str)) : Prop :=
  ∃ t, addSymTbls w str stbl calls = some (some t) ∧ Accumulated str calls t ∧
    ∀ pre post, calls = pre ++ post → ∀ t', addSymTbls w str stbl pre = some (some t') → t'.Keeps t

variable {w : Nat} {str : Str → CStr}

/-! ## What the passes do -/

/-- The element that is written for a symbol. -/
def Accepted.elem (chunk off : Nat) (a : Accepted Str) : SymElem Str :=
  ⟨some (if a.noStrcpy then .given a.symname else .copy chunk off), some a.data⟩

/-- The elements that a call writes whose next name is copied to `off`. -/
def placed (str : Str → CStr) (chunk : Nat) : Nat → List (Accepted Str) → List (SymElem Str)
  | _, [] => []
  | off, a :: as => a.elem chunk off :: placed str chunk (off + (a.copied str).length) as

theorem length_placed (chunk off : Nat) (as : List (Accepted Str)) :
    (placed str chunk off as).length = as.length := by
  induction as generalizing off with
  | nil => rfl
  | cons a as ih => rw [placed, List.length_cons, List.length_cons, ih]

theorem AddCall.accepts_none {c : AddCall Ext Str} {e : Ext} (he : c.filter e = none) :
    c.accepts e = none := by
  rw [AddCall.accepts, he, Option.map_none]

theorem AddCall.accepts_some {c : AddCall Ext Str} {e : Ext} {p : Str} (he : c.filter e = some p) :
    c.accepts e = some ⟨c.noStrcpy, p, c.assign e .zero⟩ := by
  rw [AddCall.accepts, he, Option.map_some]

/-- The first pass counts the symbols that are accepted and, as far as the counter goes, the bytes
of the names that are copied. -/
theorem countPass_eq (c : AddCall Ext Str) (syms : List Ext) (n : Nat) (m : BitVec 32) :
    countPass str c syms (n, m) = (n + (syms.filterMap c.accepts).length,
      m + BitVec.ofNat 32 ((syms.filterMap c.accepts).flatMap (Accepted.copied str)).length) := by
  induction syms generalizing n m with
  | nil => simp [countPass]
  | cons e syms ih =>
    rw [countPass]
    cases he : c.filter e with
    | none => rw [List.filterMap_cons_none (AddCall.accepts_none he), ih]
    | some p =>
      dsimp only
      rw [List.filterMap_cons_some (AddCall.accepts_some he), ih, List.flatMap_cons,
        List.length_cons, List.length_append, Accepted.copied, Nat.add_assoc,
        Nat.add_comm 1]
      congr 1
      dsimp only
      split
      · rw [List.length_nil, Nat.zero_add]
      · rw [List.length_append, List.length_singleton, BitVec.add_assoc, ← BitVec.ofNat_add]

theorem copyChars_eq (s : List UInt8) (dst : Nat) (chars : List (Option UInt8)) :
    copyChars s dst chars =
      (putAll chars dst ((s ++ [0]).map some)).map fun chars =>
        (chars, dst + (s ++ [0]).length) := by
  induction s generalizing dst chars with
  | nil =>
    rw [copyChars, List.nil_append, List.map_singleton, putAll]
    cases put chars dst (some 0) <;> rfl
  | cons b s ih =>
    rw [copyChars, List.cons_append, List.map_cons, putAll]
    cases put chars dst (some b) with
    | none => rfl
    | some chars =>
      rw [Option.bind_some, Option.bind_some, ih, List.length_cons, Nat.add_assoc, Nat.add_comm 1]

theorem fillSym_eq {c : AddCall Ext Str} {e : Ext} {p : Str} {a : Accepted Str}
    (ha : a = ⟨c.noStrcpy, p, c.assign e .zero⟩) (chunk : Nat) (s : Filling Str) :
    fillSym str c chunk e p s =
      (putAll s.chars s.dst ((a.copied str).map some)).bind fun chars =>
        (put s.block s.cesp (a.elem chunk s.dst)).map fun block =>
          ⟨block, s.cesp + 1, chars, s.dst + (a.copied str).length⟩ := by
  subst ha
  rw [fillSym, Accepted.copied, Accepted.elem]
  cases hcopy : c.noStrcpy with
  | true => rfl
  | false =>
    rw [if_neg Bool.false_ne_true, copyChars_eq]
    dsimp only
    rw [if_neg Bool.false_ne_true, if_neg Bool.false_ne_true, Option.bind_map]
    rfl

/-- The second pass writes the names that are copied, one behind the other, and the elements. -/
theorem fillPass_eq (c : AddCall Ext Str) (chunk : Nat) (syms : List Ext) (s : Filling Str) :
    fillPass str c chunk syms s =
      (putAll s.chars s.dst
        (((syms.filterMap c.accepts).flatMap (Accepted.copied str)).map some)).bind fun chars =>
          (putAll s.block s.cesp
            (placed str chunk s.dst (syms.filterMap c.accepts))).map fun block =>
            ⟨block, s.cesp + (syms.filterMap c.accepts).length, chars,
              s.dst + ((syms.filterMap c.accepts).flatMap (Accepted.copied str)).length⟩ := by
  induction syms generalizing s with
  | nil => rfl
  | cons e syms ih =>
    rw [fillPass]
    cases he : c.filter e with
    | none => rw [List.filterMap_cons_none (AddCall.accepts_none he), ih]
    | some p =>
      rw [List.filterMap_cons_some (AddCall.accepts_some he)]
      generalize ha : (⟨c.noStrcpy, p, c.assign e .zero⟩ : Accepted Str) = a
      dsimp only
      rw [fillSym_eq ha.symm, List.flatMap_cons, List.map_append, putAll_append, placed, putAll,
        List.length_map, List.length_cons, List.length_append]
      cases putAll s.chars s.dst ((a.copied str).map some) with
      | none => rfl
      | some chars =>
        rw [Option.bind_some, Option.bind_some]
        cases put s.block s.cesp (a.elem chunk s.dst) with
        | none =>
          cases putAll chars (s.dst + (a.copied str).length)
            (((syms.filterMap c.accepts).flatMap (Accepted.copied str)).map some) <;> rfl
        | some block =>
          rw [Option.map_some, Option.bind_some, ih, Option.bind_some, Nat.add_assoc, Nat.add_assoc,
            Nat.add_comm 1]

/-! ## One call -/

/-- There is an array for all entries and the element behind them, and it is as large as the table
says. A table without an array has no entries. -/
structure SymArray.Sound (t : SymArray Str) : Prop where
  array : ∀ block, t.syms = some block →
    t.size ≠ 0 ∧ t.nentries ≤ t.size ∧ block.length = t.size + 1
  noArray : t.syms = none → t.size = 0 ∧ t.nentries = 0

theorem SymArray.Sound.zero : (SymArray.zero : SymArray Str).Sound := by
  refine ⟨?_, fun _ => ⟨rfl, rfl⟩⟩
  intro block hblock
  cases hblock

theorem SymArray.Sound.new (n : Nat) : (cexpNewSymTbl n : SymArray Str).Sound := by
  rw [cexpNewSymTbl]
  by_cases hn : n = 0
  · subst hn
    exact SymArray.Sound.zero
  · rw [if_neg hn]
    refine ⟨?_, fun hnull => absurd hnull (Option.some_ne_none _)⟩
    intro block hblock
    cases hblock
    exact ⟨hn, Nat.zero_le n, List.length_replicate⟩

variable {t t' : SymArray Str} {c : AddCall Ext Str}

/-- A table that `cexpAddSymTbl` may add to. -/
theorem SymArray.Sound.own (h : t.Sound) : ¬(t.syms.isSome = true ∧ t.size = 0) := by
  rintro ⟨hsome, hzero⟩
  obtain ⟨block, hblock⟩ := Option.isSome_iff_exists.mp hsome
  exact (h.array block hblock).1 hzero

/-- With an array or something to add there is room behind the entries. -/
theorem SymArray.Sound.reserve (h : t.Sound) {n : Nat} (hroom : t.syms ≠ none ∨ n ≠ 0) :
    (t.reserve n).size ≠ 0 ∧ t.nentries + n ≤ (t.reserve n).size ∧
      (t.reserve n).block.length = (t.reserve n).size + 1 ∧
      (t.reserve n).block.take t.nentries = t.entries := by
  have hlength : t.nentries ≤ t.block.length ∧ t.block.length ≤ t.size + 1 := by
    rw [SymArray.block]
    cases hsyms : t.syms with
    | none =>
      obtain ⟨-, hzero⟩ := h.noArray hsyms
      rw [hzero]
      exact ⟨Nat.zero_le _, Nat.zero_le _⟩
    | some block =>
      obtain ⟨-, hle, hblock⟩ := h.array block hsyms
      rw [Option.getD_some, hblock]
      exact ⟨Nat.le_succ_of_le hle, Nat.le_refl _⟩
  rw [SymArray.reserve]
  split
  · next hn =>
    dsimp only [SymArray.block, Option.getD_some]
    refine ⟨by omega, Nat.le_refl _, ?_, ?_⟩
    · rw [regrow, List.length_append, List.length_take, List.length_replicate]
      omega
    · rw [regrow, List.take_append_of_le_length, List.take_take, Nat.min_eq_left (by omega)]
      · rfl
      · rw [List.length_take]
        have hle := hlength.1
        rw [SymArray.block] at hle
        omega
  · next hn =>
    cases hsyms : t.syms with
    | none =>
      obtain ⟨hsize, hzero⟩ := h.noArray hsyms
      have hne := hroom.resolve_left (fun hne => hne hsyms)
      omega
    | some block =>
      obtain ⟨hsize, hle, hblock⟩ := h.array block hsyms
      refine ⟨hsize, by omega, ?_, rfl⟩
      rw [SymArray.block, hsyms, Option.getD_some, hblock]

theorem SymArray.reserve_strtbl (t : SymArray Str) (n : Nat) :
    (t.reserve n).strtbl = t.strtbl ∧ (t.reserve n).nentries = t.nentries := by
  rw [SymArray.reserve]
  split <;> exact ⟨rfl, rfl⟩

/-- The memory for the names of a call. -/
def AddCall.malloc (w : Nat) (str : Str → CStr) (c : AddCall Ext Str) : List (Option UInt8) :=
  if BitVec.ofNat 32 (c.chars str).length = 0 then []
  else newChunk w (BitVec.ofNat 32 (c.chars str).length)

/-- A call writes the names, the elements and the element behind them. -/
theorem addSymTbl_eq (h : t.Sound) (c : AddCall Ext Str) :
    addSymTbl w str (some t) c =
      (putAll (c.malloc w str) 0 ((c.chars str).map some)).bind fun chars =>
        (putAll (t.reserve c.accepted.length).block t.nentries
          (placed str t.strtbl.length 0 c.accepted)).bind fun block =>
            block[t.nentries + c.accepted.length]?.map fun last => some
              { nentries := t.nentries + c.accepted.length
                size := (t.reserve c.accepted.length).size
                syms := some (block.set (t.nentries + c.accepted.length)
                  { last with name := some .null })
                strtbl := if BitVec.ofNat 32 (c.chars str).length = 0 then t.strtbl
                  else chars :: t.strtbl } := by
  obtain ⟨hstrtbl, hnentries⟩ := t.reserve_strtbl c.accepted.length
  rw [addSymTbl, Option.getD_some, if_neg h.own, countPass_eq, Nat.zero_add]
  dsimp only
  rw [BitVec.ofNat_eq_ofNat, BitVec.zero_add, ← AddCall.accepted, ← AddCall.chars, fillPass_eq,
    ← AddCall.accepted, ← AddCall.chars, hstrtbl, hnentries]
  change ((putAll (c.malloc w str) 0 _).bind _).bind _ = _
  cases putAll (c.malloc w str) 0 ((c.chars str).map some) with
  | none => rfl
  | some chars =>
    cases putAll (t.reserve c.accepted.length).block t.nentries
      (placed str t.strtbl.length 0 c.accepted) <;> rfl

/-- With an array or something to add, a call succeeds if the names fit. -/
theorem addSymTbl_room (w : Nat) (str : Str → CStr) (h : t.Sound)
    (hroom : t.syms ≠ none ∨ c.accepted ≠ []) :
    ∃ size block, size ≠ 0 ∧ t.nentries + c.accepted.length ≤ size ∧ block.length = size + 1 ∧
      block.take (t.nentries + c.accepted.length) =
        t.entries ++ placed str t.strtbl.length 0 c.accepted ∧
      (∃ x, block[t.nentries + c.accepted.length]? = some x ∧ x.name = some .null) ∧
      addSymTbl w str (some t) c =
        (putAll (c.malloc w str) 0 ((c.chars str).map some)).map fun chars => some
          ⟨t.nentries + c.accepted.length, size, some block,
            if BitVec.ofNat 32 (c.chars str).length = 0 then t.strtbl else chars :: t.strtbl⟩ := by
  have hroom' : t.syms ≠ none ∨ c.accepted.length ≠ 0 :=
    hroom.imp_right fun hne hzero => hne (List.length_eq_zero_iff.mp hzero)
  obtain ⟨hsize, hle, hlength, htake⟩ := h.reserve hroom'
  have hfits : t.nentries + (placed str t.strtbl.length 0 c.accepted).length ≤
      (t.reserve c.accepted.length).block.length := by
    rw [length_placed]
    omega
  let filled := overlay (t.reserve c.accepted.length).block t.nentries
    (placed str t.strtbl.length 0 c.accepted)
  have hfilled : t.nentries + c.accepted.length < filled.length := by
    rw [length_overlay hfits, hlength]
    exact Nat.lt_succ_of_le hle
  refine ⟨(t.reserve c.accepted.length).size, filled.set (t.nentries + c.accepted.length)
    { filled[t.nentries + c.accepted.length] with name := some .null }, hsize, hle, ?_, ?_, ?_, ?_⟩
  · rw [List.length_set, length_overlay hfits, hlength]
  · rw [List.take_set_of_le (Nat.le_refl _)]
    have hend : filled.take (t.nentries + (placed str t.strtbl.length 0 c.accepted).length) =
        (t.reserve c.accepted.length).block.take t.nentries ++
          placed str t.strtbl.length 0 c.accepted := take_overlay_end (by omega)
    rw [length_placed, htake] at hend
    exact hend
  · exact ⟨_, List.getElem?_set_self hfilled, rfl⟩
  · rw [addSymTbl_eq h, putAll_some hfits]
    cases putAll (c.malloc w str) 0 ((c.chars str).map some) with
    | none => rfl
    | some chars =>
      change filled[t.nentries + c.accepted.length]?.map _ = _
      rw [List.getElem?_eq_getElem hfilled]
      rfl

/-- Without an array and without anything to add, the null pointer is written through. -/
theorem addSymTbl_nothing (h : t.Sound) (hsyms : t.syms = none) (hnil : c.accepted = []) :
    addSymTbl w str (some t) c = none := by
  obtain ⟨hsize, hzero⟩ := h.noArray hsyms
  have hblock : (t.reserve 0).block = [] := by
    rw [SymArray.reserve, if_neg (Nat.not_lt_zero _), SymArray.block, hsyms, Option.getD_none]
  rw [addSymTbl_eq h, hnil, List.length_nil, hblock, hzero, placed, putAll]
  cases putAll (c.malloc w str) 0 ((c.chars str).map some) <;> rfl

theorem counted_iff : c.Counted w str ↔ (c.malloc w str).length = (c.chars str).length := by
  rw [AddCall.Counted, AddCall.malloc]
  split
  · next hzero =>
    rw [hzero, BitVec.ofNat_eq_ofNat, BitVec.signExtend_eq_setWidth_of_msb_false (by simp)]
    simp
  · rw [newChunk, List.length_replicate]

/-- There is room for names that are counted right. -/
theorem putAll_counted (hcount : c.Counted w str) :
    ∃ chars, putAll (c.malloc w str) 0 ((c.chars str).map some) = some chars := by
  have hle : 0 + ((c.chars str).map some).length ≤ (c.malloc w str).length := by
    rw [counted_iff.mp hcount, List.length_map, Nat.zero_add]
  exact ⟨_, putAll_some hle⟩

/-- The names that are written fill the chunk exactly if they are counted right. -/
theorem putAll_chunk {chars : List (Option UInt8)}
    (hput : putAll (c.malloc w str) 0 ((c.chars str).map some) = some chars) :
    ∃ chunk, chunk.length = (c.chunk str).length ∧ (chunk = c.chunk str ↔ c.Counted w str) ∧
      ∀ strtbl, (if BitVec.ofNat 32 (c.chars str).length = 0 then strtbl else chars :: strtbl) =
        chunk ++ strtbl := by
  rw [putAll_eq] at hput
  rw [counted_iff, AddCall.chunk]
  by_cases hzero : BitVec.ofNat 32 (c.chars str).length = 0
  · have hmalloc : c.malloc w str = [] := by rw [AddCall.malloc, if_pos hzero]
    have hnil : c.chars str = [] := by
      rw [hmalloc] at hput
      split at hput
      · next h =>
        rcases h with h | h
        · exact List.map_eq_nil_iff.mp h
        · rw [List.length_map, List.length_nil] at h
          exact List.length_eq_zero_iff.mp (by omega)
      · cases hput
    refine ⟨[], by rw [if_pos hnil], ?_, ?_⟩
    · rw [if_pos hnil, hnil, hmalloc]
      exact iff_of_true rfl rfl
    · intro strtbl
      rw [if_pos hzero, List.nil_append]
  · have hne : c.chars str ≠ [] := by
      intro hnil
      rw [hnil] at hzero
      exact hzero rfl
    refine ⟨[chars], by rw [if_neg hne]; rfl, ?_, ?_⟩
    · rw [if_neg hne, List.cons.injEq, eq_self, and_true]
      split at hput
      · next h =>
        cases hput
        have hle := h.resolve_left (fun hmap => hne (List.map_eq_nil_iff.mp hmap))
        have hlength := length_overlay hle
        constructor
        · intro heq
          rw [heq, List.length_map] at hlength
          exact hlength.symm
        · intro hcount
          apply overlay_all
          rw [List.length_map, hcount]
      · cases hput
    · intro strtbl
      rw [if_neg hzero, List.singleton_append]

/-- What every call that succeeds does. -/
theorem addSymTbl_inv (h : t.Sound) (hrun : addSymTbl w str (some t) c = some (some t')) :
    (t.syms ≠ none ∨ c.accepted ≠ []) ∧ t'.Sound ∧ t'.syms ≠ none ∧ t.Keeps t' ∧
      ∃ chunk, chunk.length = (c.chunk str).length ∧ (chunk = c.chunk str ↔ c.Counted w str) ∧
        t'.strtbl = chunk ++ t.strtbl := by
  have hroom : t.syms ≠ none ∨ c.accepted ≠ [] := by
    by_contra hnot
    rw [not_or, not_not, not_not] at hnot
    rw [addSymTbl_nothing h hnot.1 hnot.2] at hrun
    cases hrun
  obtain ⟨size, block, hsize, hle, hlength, htake, -, heq⟩ :=
    addSymTbl_room w str h hroom
  rw [heq] at hrun
  obtain ⟨chars, hput, hsome⟩ := Option.map_eq_some_iff.mp hrun
  cases hsome
  obtain ⟨chunk, hchunk, hiff, hstrtbl⟩ := putAll_chunk hput
  refine ⟨hroom, ⟨?_, fun hnull => absurd hnull (Option.some_ne_none _)⟩, Option.some_ne_none _,
    ⟨?_, ?_⟩, chunk, hchunk, hiff, hstrtbl _⟩
  · intro block' hblock'
    cases hblock'
    exact ⟨hsize, hle, hlength⟩
  · change t.entries <+: block.take (t.nentries + c.accepted.length)
    rw [htake]
    exact List.prefix_append _ _
  · rw [hstrtbl]
    exact List.suffix_append _ _

theorem SymArray.Keeps.refl (t : SymArray Str) : t.Keeps t :=
  ⟨List.prefix_refl _, List.suffix_refl _⟩

theorem SymArray.Keeps.trans {t'' : SymArray Str} (h : t.Keeps t') (h' : t'.Keeps t'') :
    t.Keeps t'' := ⟨h.entries.trans h'.entries, h.strtbl.trans h'.strtbl⟩

/-! ## Many calls -/

/-- The elements that calls write when `chunk` chunks have been made before. -/
def placedAll (str : Str → CStr) : Nat → List (AddCall Ext Str) → List (SymElem Str)
  | _, [] => []
  | chunk, c :: calls =>
    placed str chunk 0 c.accepted ++ placedAll str (chunk + (c.chunk str).length) calls

/-- `t'` is `t` with the symbols that `calls` add. -/
structure SymArray.Grown (str : Str → CStr) (t : SymArray Str) (calls : List (AddCall Ext Str))
    (t' : SymArray Str) : Prop where
  sound : t'.Sound
  array : t'.syms ≠ none
  nentries : t'.nentries = t.nentries + (calls.flatMap AddCall.accepted).length
  entries : t'.entries = t.entries ++ placedAll str t.strtbl.length calls
  strtbl : t'.strtbl = (calls.flatMap (AddCall.chunk str)).reverse ++ t.strtbl
  last : ∃ x, t'.block[t'.nentries]? = some x ∧ x.name = some .null

/-- One more call in front. -/
theorem SymArray.Grown.cons {t'' : SymArray Str} {calls : List (AddCall Ext Str)}
    (h : t.Grown str [c] t') (h' : t'.Grown str calls t'') : t.Grown str (c :: calls) t'' := by
  refine ⟨h'.sound, h'.array, ?_, ?_, ?_, h'.last⟩
  · rw [h'.nentries, h.nentries, List.flatMap_singleton, List.flatMap_cons, List.length_append,
      Nat.add_assoc]
  · have hlength : t'.strtbl.length = t.strtbl.length + (c.chunk str).length := by
      rw [h.strtbl, List.flatMap_singleton, List.length_append, List.length_reverse, Nat.add_comm]
    rw [h'.entries, h.entries, hlength, placedAll, placedAll, placedAll, List.append_nil,
      List.append_assoc]
  · rw [h'.strtbl, h.strtbl, List.flatMap_singleton, List.flatMap_cons, List.reverse_append,
      List.append_assoc]

theorem addSymTbl_grown (h : t.Sound) (hroom : t.syms ≠ none ∨ c.accepted ≠ [])
    (hcount : c.Counted w str) :
    ∃ t', addSymTbl w str (some t) c = some (some t') ∧ t.Grown str [c] t' := by
  obtain ⟨size, block, hsize, hle, hlength, htake, hlast, heq⟩ :=
    addSymTbl_room w str h hroom
  obtain ⟨chars, hput⟩ := putAll_counted hcount
  obtain ⟨chunk, -, hiff, hstrtbl⟩ := putAll_chunk hput
  rw [hput, Option.map_some] at heq
  have hsound := (addSymTbl_inv h heq).2.1
  refine ⟨_, heq, hsound, Option.some_ne_none _, ?_, ?_, ?_, hlast⟩
  · rw [List.flatMap_singleton]
  · rw [placedAll, placedAll, List.append_nil]
    exact htake
  · have hreverse : (c.chunk str).reverse = c.chunk str := by
      rw [AddCall.chunk]
      split <;> rfl
    rw [hstrtbl, hiff.mpr hcount, List.flatMap_singleton, hreverse]

/-- All calls succeed if the first one has an array or something to add, and all names are counted
right. -/
theorem addSymTbls_grown (h : t.Sound) (calls : List (AddCall Ext Str))
    (hroom : t.syms ≠ none ∨ c.accepted ≠ []) (hcount : ∀ d ∈ c :: calls, d.Counted w str) :
    ∃ t', addSymTbls w str (some t) (c :: calls) = some (some t') ∧
      t.Grown str (c :: calls) t' := by
  obtain ⟨t₁, hrun, hgrown⟩ := addSymTbl_grown h hroom (hcount c List.mem_cons_self)
  rw [addSymTbls, hrun, Option.bind_some]
  induction calls generalizing t c t₁ with
  | nil => exact ⟨t₁, rfl, hgrown⟩
  | cons d calls ih =>
    have hcount' : ∀ e ∈ d :: calls, e.Counted w str :=
      fun e he => hcount e (List.mem_cons_of_mem c he)
    obtain ⟨t₂, hrun₂, hgrown₂⟩ :=
      addSymTbl_grown hgrown.sound (Or.inl hgrown.array) (hcount' d List.mem_cons_self)
    obtain ⟨t', hrun', hgrown'⟩ := ih hgrown.sound (Or.inl hgrown.array) hcount' t₂ hrun₂ hgrown₂
    dsimp only
    rw [addSymTbls, hrun₂, Option.bind_some]
    exact ⟨t', hrun', hgrown.cons hgrown'⟩

theorem addSymTbls_keeps (h : t.Sound) {calls : List (AddCall Ext Str)}
    (hrun : addSymTbls w str (some t) calls = some (some t')) : t'.Sound ∧ t.Keeps t' := by
  induction calls generalizing t with
  | nil =>
    cases hrun
    exact ⟨h, .refl _⟩
  | cons c calls ih =>
    rw [addSymTbls] at hrun
    obtain ⟨rval, hc, hrest⟩ := Option.bind_eq_some_iff.mp hrun
    cases rval with
    | none => cases hrest
    | some t₁ =>
      obtain ⟨-, hsound, -, hkeeps, -⟩ := addSymTbl_inv h hc
      obtain ⟨hsound', hkeeps'⟩ := ih hsound hrest
      exact ⟨hsound', hkeeps.trans hkeeps'⟩

theorem addSymTbls_append {stbl : Option (SymArray Str)} {pre : List (AddCall Ext Str)}
    (hpre : addSymTbls w str stbl pre = some (some t)) (post : List (AddCall Ext Str)) :
    addSymTbls w str stbl (pre ++ post) = addSymTbls w str (some t) post := by
  induction pre generalizing stbl with
  | nil =>
    cases hpre
    rfl
  | cons c pre ih =>
    rw [addSymTbls] at hpre
    obtain ⟨rval, hc, hrest⟩ := Option.bind_eq_some_iff.mp hpre
    cases rval with
    | none => cases hrest
    | some t₁ =>
      rw [List.cons_append, addSymTbls, hc, Option.bind_some]
      exact ih hrest

/-- If the names that calls add are the chunks of the table, all of them were counted right. -/
theorem counted_of_strtbl (h : t.Sound) {calls : List (AddCall Ext Str)}
    (hrun : addSymTbls w str (some t) calls = some (some t'))
    (hstrtbl : t'.strtbl = (calls.flatMap (AddCall.chunk str)).reverse ++ t.strtbl) :
    ∀ c ∈ calls, c.Counted w str := by
  induction calls generalizing t with
  | nil =>
    intro c hc
    cases hc
  | cons d calls ih =>
    rw [addSymTbls] at hrun
    obtain ⟨rval, hd, hrest⟩ := Option.bind_eq_some_iff.mp hrun
    cases rval with
    | none => cases hrest
    | some t₁ =>
      obtain ⟨-, hsound, -, -, chunk, hlength, hiff, hchunk⟩ := addSymTbl_inv h hd
      obtain ⟨-, hkeeps⟩ := addSymTbls_keeps hsound hrest
      obtain ⟨later, hlater⟩ := hkeeps.strtbl
      have hreverse : (d.chunk str).reverse = d.chunk str := by
        rw [AddCall.chunk]
        split <;> rfl
      rw [← hlater, hchunk, List.flatMap_cons, List.reverse_append, hreverse, ← List.append_assoc,
        List.append_cancel_right_eq] at hstrtbl
      obtain ⟨rfl, rfl⟩ := List.append_inj' hstrtbl hlength
      intro c hc
      rcases List.mem_cons.mp hc with rfl | hc
      · exact hiff.mp rfl
      · refine ih hsound hrest ?_ c hc
        rw [← hlater, hchunk]

/-! ## The entries -/

theorem writtenStr_map {s : List UInt8} (hs : 0 ∉ s) (rest : List (Option UInt8)) :
    writtenStr ((s ++ [0]).map some ++ rest) = some s := by
  induction s with
  | nil => rfl
  | cons b s ih =>
    rw [List.mem_cons, not_or] at hs
    rw [List.cons_append, List.map_cons, List.cons_append, writtenStr, if_neg (Ne.symm hs.1),
      ih hs.2, Option.map_some]

/-- At an offset in a chunk are these bytes, or there are none to look for. -/
def Holds (strtbl : List (List (Option UInt8))) (chunk off : Nat) (bytes : List UInt8) : Prop :=
  bytes = [] ∨ ∃ chars rest, strtbl.reverse[chunk]? = some chars ∧
    chars.drop off = bytes.map some ++ rest

theorem Holds.append {strtbl : List (List (Option UInt8))} {chunk off : Nat} {xs ys : List UInt8}
    (h : Holds strtbl chunk off (xs ++ ys)) : Holds strtbl chunk (off + xs.length) ys := by
  rcases h with hnil | ⟨chars, rest, hchars, hdrop⟩
  · exact Or.inl (List.append_eq_nil_iff.mp hnil).2
  · refine Or.inr ⟨chars, rest, hchars, ?_⟩
    rw [← List.drop_drop, hdrop, List.map_append, List.append_assoc]
    apply List.drop_left'
    rw [List.length_map]

theorem Holds.stringAt {strtbl : List (List (Option UInt8))} {chunk off : Nat} {s : CStr}
    {ys : List UInt8} (h : Holds strtbl chunk off (s.bytes ++ [0] ++ ys)) :
    stringAt strtbl chunk off = some s.bytes := by
  rcases h with hnil | ⟨chars, rest, hchars, hdrop⟩
  · simp at hnil
  · rw [Cexp.stringAt, hchars, Option.bind_some, hdrop, List.map_append, List.append_assoc]
    exact writtenStr_map s.noNul _

/-- What a call writes are entries for its symbols. -/
theorem placed_entries {strtbl : List (List (Option UInt8))} {chunk off : Nat}
    {as : List (Accepted Str)} (h : Holds strtbl chunk off (as.flatMap (Accepted.copied str))) :
    List.Forall₂ (EntryOf str strtbl) as (placed str chunk off as) := by
  induction as generalizing off with
  | nil => exact .nil
  | cons a as ih =>
    rw [List.flatMap_cons] at h
    refine .cons ⟨_, rfl, ?_⟩ (ih h.append)
    cases hcopy : a.noStrcpy with
    | true => rfl
    | false =>
      rw [Accepted.copied, hcopy] at h
      exact ⟨chunk, off, rfl, h.stringAt⟩

theorem placedAll_entries {strtbl : List (List (Option UInt8))} (calls : List (AddCall Ext Str))
    {chunk : Nat} (h : strtbl.reverse.drop chunk = calls.flatMap (AddCall.chunk str)) :
    List.Forall₂ (EntryOf str strtbl) (calls.flatMap AddCall.accepted)
      (placedAll str chunk calls) := by
  induction calls generalizing chunk with
  | nil => exact .nil
  | cons c calls ih =>
    rw [List.flatMap_cons] at h
    rw [List.flatMap_cons, placedAll]
    refine List.rel_append (placed_entries ?_) (ih ?_)
    · rw [AddCall.chunk] at h
      split at h
      · next hnil => exact Or.inl hnil
      · refine Or.inr ⟨(c.chars str).map some, [], ?_, (List.append_nil _).symm⟩
        rw [← Nat.add_zero chunk, ← List.getElem?_drop, h]
        rfl
    · rw [← List.drop_drop, h]
      exact List.drop_left

/-- The copies that a call makes are in its chunk, from an offset on. -/
theorem placed_copy {x : SymElem Str} {chunk off k o : Nat} {as : List (Accepted Str)}
    (hx : x ∈ placed str chunk off as) (hname : x.name = some (.copy k o)) :
    k = chunk ∧ off ≤ o ∧ as.flatMap (Accepted.copied str) ≠ [] := by
  induction as generalizing off with
  | nil => cases hx
  | cons a as ih =>
    rw [placed, List.mem_cons] at hx
    rw [List.flatMap_cons]
    rcases hx with rfl | hx
    · rw [Accepted.elem] at hname
      cases hcopy : a.noStrcpy with
      | true =>
        rw [hcopy] at hname
        cases hname
      | false =>
        rw [hcopy] at hname
        cases hname
        refine ⟨rfl, Nat.le_refl _, ?_⟩
        rw [Accepted.copied, hcopy]
        simp
    · obtain ⟨hk, ho, hne⟩ := ih hx
      refine ⟨hk, by omega, ?_⟩
      rw [Ne, List.append_eq_nil_iff, not_and]
      exact fun _ => hne

theorem placed_names_apart (chunk off : Nat) (as : List (Accepted Str)) :
    ((placed str chunk off as).zip as).Pairwise (CopiesApart str) := by
  induction as generalizing off with
  | nil => exact .nil
  | cons a as ih =>
    rw [placed, List.zip_cons_cons]
    refine .cons ?_ (ih _)
    intro y hy k o o' ho ho'
    obtain ⟨-, hle, -⟩ := placed_copy (List.of_mem_zip hy).1 ho'
    have hoff : o = off := by
      rw [Accepted.elem] at ho
      cases hcopy : a.noStrcpy with
      | true =>
        rw [hcopy] at ho
        cases ho
      | false =>
        rw [hcopy] at ho
        cases ho
        rfl
    rw [hoff]
    exact hle

theorem placedAll_copy {x : SymElem Str} {chunk k o : Nat} {calls : List (AddCall Ext Str)}
    (hx : x ∈ placedAll str chunk calls) (hname : x.name = some (.copy k o)) : chunk ≤ k := by
  induction calls generalizing chunk with
  | nil => cases hx
  | cons c calls ih =>
    rw [placedAll, List.mem_append] at hx
    rcases hx with hx | hx
    · exact (placed_copy hx hname).1.ge
    · exact (Nat.le_add_right _ _).trans (ih hx)

/-- No two copies overlap: those of different calls are in different chunks. -/
theorem placedAll_apart (calls : List (AddCall Ext Str)) (chunk : Nat) :
    ((placedAll str chunk calls).zip (calls.flatMap AddCall.accepted)).Pairwise (CopiesApart str) := by
  induction calls generalizing chunk with
  | nil => exact .nil
  | cons c calls ih =>
    rw [placedAll, List.flatMap_cons, List.zip_append (length_placed chunk 0 c.accepted)]
    refine List.pairwise_append.mpr ⟨placed_names_apart chunk 0 _, ih _, ?_⟩
    intro x hx y hy k o o' ho ho'
    obtain ⟨rfl, -, hne⟩ := placed_copy (List.of_mem_zip hx).1 ho
    have hle := placedAll_copy (List.of_mem_zip hy).1 ho'
    have hlength : (c.chunk str).length = 1 := by
      rw [AddCall.chunk, if_neg (show c.chars str ≠ [] from hne)]
      rfl
    omega

/-- A table that was empty has the symbols that were added. -/
theorem SymArray.Grown.accumulated {calls : List (AddCall Ext Str)} (h : t.Grown str calls t')
    (hentries : t.nentries = 0) (hstrtbl : t.strtbl = []) : Accumulated str calls t' := by
  have hnil : t.entries = [] := by
    rw [SymArray.entries, hentries, List.take_zero]
  have hstrings : t'.strtbl = (calls.flatMap (AddCall.chunk str)).reverse := by
    rw [h.strtbl, hstrtbl, List.append_nil]
  have hplaced : t'.entries = placedAll str 0 calls := by
    rw [h.entries, hnil, hstrtbl, List.nil_append, List.length_nil]
  refine ⟨?_, ?_, ?_, hstrings, h.last⟩
  · rw [h.nentries, hentries, Nat.zero_add]
  · rw [hplaced]
    apply placedAll_entries
    rw [List.drop_zero, hstrings, List.reverse_reverse]
  · rw [hplaced]
    exact placedAll_apart calls 0

/-- Tables that are added to a new one, or without one, accumulate exactly if the first of them has
a symbol that is accepted or there is an array, and all names are counted right. -/
theorem addSymTbls_iff (w : Nat) (str : Str → CStr) (nEntries : Option Nat) (c : AddCall Ext Str)
    (calls : List (AddCall Ext Str)) :
    AddsAll w str (nEntries.map cexpNewSymTbl) (c :: calls) ↔
      (nEntries.getD 0 ≠ 0 ∨ c.accepted ≠ []) ∧ ∀ d ∈ c :: calls, d.Counted w str := by
  obtain ⟨t, hsound, hentries, hstrtbl, hsyms, hstart⟩ : ∃ t : SymArray Str, t.Sound ∧
      t.nentries = 0 ∧ t.strtbl = [] ∧ (t.syms ≠ none ↔ nEntries.getD 0 ≠ 0) ∧
      ∀ d ds, addSymTbls w str (nEntries.map cexpNewSymTbl) (d :: ds) =
        addSymTbls w str (some t) (d :: ds) := by
    cases nEntries with
    | none =>
      exact ⟨.zero, .zero, rfl, rfl, iff_of_false (fun h => h rfl) (fun h => h rfl),
        fun _ _ => rfl⟩
    | some n =>
      refine ⟨cexpNewSymTbl n, .new n, rfl, rfl, ?_, fun _ _ => rfl⟩
      rw [cexpNewSymTbl, Option.getD_some]
      by_cases hn : n = 0 <;> simp [hn]
  rw [AddsAll, hstart]
  constructor
  · rintro ⟨t', hrun, hacc, -⟩
    have hfirst := hrun
    rw [addSymTbls] at hfirst
    obtain ⟨rval, hc, hrest⟩ := Option.bind_eq_some_iff.mp hfirst
    cases rval with
    | none => cases hrest
    | some t₁ =>
      refine ⟨(addSymTbl_inv hsound hc).1.imp_left hsyms.mp, counted_of_strtbl hsound hrun ?_⟩
      rw [hacc.strtbl, hstrtbl, List.append_nil]
  · rintro ⟨hroom, hcount⟩
    obtain ⟨t', hrun, hgrown⟩ :=
      addSymTbls_grown hsound calls (hroom.imp_left hsyms.mpr) hcount
    refine ⟨t', hrun, hgrown.accumulated hentries hstrtbl, ?_⟩
    intro pre post heq t₁ hpre
    have hsound₁ : t₁.Sound := by
      cases pre with
      | nil =>
        cases nEntries with
        | none => cases hpre
        | some n =>
          cases hpre
          exact .new n
      | cons d ds =>
        rw [hstart] at hpre
        exact (addSymTbls_keeps hsound hpre).1
    have hpost := addSymTbls_append hpre post
    rw [← heq, hstart, hrun] at hpost
    exact (addSymTbls_keeps hsound₁ hpost.symm).2

/-- Less than 2 GiB of names are counted right. -/
theorem counted_of_lt (hw : 32 ≤ w) (h : (c.chars str).length < 2 ^ 31) : c.Counted w str := by
  have hsmall : (c.chars str).length < 2 ^ w :=
    h.trans_le (Nat.pow_le_pow_right Nat.two_pos (by omega))
  have hmsb : (BitVec.ofNat 32 (c.chars str).length).msb = false := by
    rw [BitVec.msb_eq_false_iff_two_mul_lt, BitVec.toNat_ofNat]
    omega
  rw [AddCall.Counted, BitVec.signExtend_eq_setWidth_of_msb_false hmsb, BitVec.toNat_setWidth,
    BitVec.toNat_ofNat, Nat.mod_eq_of_lt (show (c.chars str).length < 2 ^ 32 by omega),
    Nat.mod_eq_of_lt hsmall]

/-! ## The symbols of a call -/

/-- The callback sets the fields of a symbol. -/
def AddCall.assignSym (c : AddCall Ext Str) (e : Ext) (s : CexpSym) : CexpSym :=
  let data := c.assign e ⟨s.value, s.size, s.flags, s.help⟩
  ⟨s.name, data.value, data.size, data.flags, data.help⟩

/-- What the entry for an accepted symbol stands for. -/
def Accepted.sym (str : Str → CStr) (a : Accepted Str) : CexpSym :=
  ⟨some (str a.symname), a.data.value, a.data.size, a.data.flags, a.data.help⟩

/-- The entries of a call are the symbols that a new table has. -/
theorem acceptedSyms_eq (c : AddCall Ext Str) :
    acceptedSyms (fun e => (c.filter e).map str) c.assignSym c.syms =
      c.accepted.map (Accepted.sym str) := by
  rw [AddCall.accepted]
  induction c.syms with
  | nil => rfl
  | cons e syms ih =>
    rw [acceptedSyms]
    cases he : c.filter e with
    | none =>
      rw [List.filterMap_cons_none (AddCall.accepts_none he), ← ih]
      rfl
    | some p =>
      rw [List.filterMap_cons_some (AddCall.accepts_some he), List.map_cons, ← ih]
      rfl

/-- The names of a call are the characters for which a chunk is made. -/
theorem nameChars_eq (c : AddCall Ext Str) :
    nameChars c.noStrcpy (c.accepted.map (Accepted.sym str)) = c.chars str := by
  have hcopied : ∀ a ∈ c.accepted, a.copied str =
      if c.noStrcpy then [] else (a.sym str).bytes ++ [0] := by
    intro a ha
    obtain ⟨e, -, he⟩ := List.mem_filterMap.mp ha
    obtain ⟨p, -, rfl⟩ := Option.map_eq_some_iff.mp he
    rfl
  rw [nameChars, AddCall.chars, List.flatMap_congr hcopied, List.flatMap_map]
  cases c.noStrcpy with
  | true => simp
  | false => rfl

end

/-- An external table of which no symbol is accepted. -/
def acceptNone : AddCall Unit CStr := ⟨fun _ => none, fun _ d => d, false, [()]⟩

/-- No symbol of the first table is accepted, and there is no array yet. -/
theorem addSymTbls_null : ¬AddsAll 64 id none [acceptNone] := by
  rintro ⟨t, hrun, -⟩
  have hnull : addSymTbls 64 id none [acceptNone] = none := rfl
  rw [hnull] at hrun
  cases hrun

end Cexp
