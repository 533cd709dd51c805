import Cexp.Lib.Window
import Cexp.Linker.Sections
import Cexp.Syms.Bisect

/-!
# Lookup of addresses in all modules

`cexpSymLkAddrRange` looks through the modules that contain an address and keeps the `margin + 1`
nearest symbols that are not above it and the `margin` nearest above it, by shifting the entries of
an array. `cexpSymLkAddr` and `cexpAddrFind` give the nearest one below.

The search of a table gives its first entry if all are above the address. The loop over the entries
above leaves that one out, and with a margin of zero it writes into the slot of the entry below
(`addr_range_iff`). The length of the array and the numbers of the entries are `int`s.

The list of the modules starts with the system module. There is no result where the source reads
outside of the index of a table and where an `int` overflows.
-/

namespace Cexp

open CLib

/-- The part of `CexpModuleRec` that the lookup uses. -/
structure AddrModule where
  name : CStr
  segs : List (CexpSegment 64)
  symtbl : CexpAddrTbl

/-- `CexpSymAIdxRec`: an entry of the index of the module at the place `mod`. -/
structure CexpSymAIdx where
  idx : Nat
  mod : Nat
  deriving DecidableEq

/-- `addrInModule`. Only the system module, which has no memory of its own, is looked up in its
index. -/
def addrInModule (addr : BitVec 64) (m : AddrModule) (isSystem : Bool) : Option Bool :=
  if m.segs.any fun s => s.chunk ≠ 0 ∧ s.chunk ≤ addr ∧ addr < s.chunk + s.size then some true
  else if isSystem then do
    let first ← m.symtbl.ptv 0
    if first ≤ addr then
      let last ← m.symtbl.ptv (m.symtbl.nentries - 1)
      return decide (addr ≤ last)
    else return false
  else some false

def gaddr (mods : List AddrModule) (ar : CexpSymAIdx) : Option (BitVec 64) :=
  mods[ar.mod]?.bind fun m => m.symtbl.ptv ar.idx

/-- The loop that shifts the slots of `ar` by one while the new entry passes them, and the store at
its end. The slot that is shifted over comes before the list, and at most `k` are shifted. -/
def shiftSlots (mods : List AddrModule) (pass : BitVec 64 → Bool) (thisone : CexpSymAIdx) :
    Nat → List (Option CexpSymAIdx) → Option (List (Option CexpSymAIdx))
  | 0, rest => some (some thisone :: rest)
  | _ + 1, [] => none
  | k + 1, none :: rest => (shiftSlots mods pass thisone k rest).map (none :: ·)
  | k + 1, some e :: rest => do
    let a ← gaddr mods e
    if pass a then (shiftSlots mods pass thisone k rest).map (some e :: ·)
    else some (some thisone :: some e :: rest)

/-- `limaddr`: the address in the first slot, if it is not empty. -/
def limitOf (mods : List AddrModule) (noLimit : BitVec 64) :
    List (Option CexpSymAIdx) → Option (BitVec 64)
  | [] => none
  | none :: _ => some noLimit
  | some e :: _ => gaddr mods e

/-- The body of both loops over the entries of a table, on the array as seen from its far end:
whether the loop goes on, and the array. `stop` is the test of the address itself, `far a b` tells
that `a` is farther away than `b`. -/
def nearStep (mods : List AddrModule) (stop : BitVec 64 → Bool) (far : BitVec 64 → BitVec 64 → Bool)
    (noLimit : BitVec 64) (k : Nat) (thisone : CexpSymAIdx) (ar : List (Option CexpSymAIdx)) :
    Option (Bool × List (Option CexpSymAIdx)) := do
  let tstaddr ← gaddr mods thisone
  let limaddr ← limitOf mods noLimit ar
  if stop tstaddr || far tstaddr limaddr then return (false, ar)
  else return (true, ← shiftSlots mods (fun a => far a tstaddr) thisone k ar.tail)

/-- A loop over entries that ends where the body says so. `wraps` tells that the number of the
entry overflows behind the last one. -/
def nearLoop (mods : List AddrModule) (stop : BitVec 64 → Bool) (far : BitVec 64 → BitVec 64 → Bool)
    (noLimit : BitVec 64) (k : Nat) (wraps : Bool) :
    List CexpSymAIdx → List (Option CexpSymAIdx) → Option (List (Option CexpSymAIdx))
  | [], ar => if wraps then none else some ar
  | e :: es, ar => do
    let (go, ar) ← nearStep mods stop far noLimit k e ar
    if go then nearLoop mods stop far noLimit k wraps es ar else return ar

/-- The entries that are not above the address, from `cli` down. The limit is `ar[0]`, and the loop
over `j` goes from 1 to `margin`. -/
def lowLoop (mods : List AddrModule) (addr : BitVec 64) (margin mod cli : Nat) :
    List (Option CexpSymAIdx) → Option (List (Option CexpSymAIdx)) :=
  nearLoop mods (addr < ·) (· < ·) 0 margin false ((List.range (cli + 1)).reverse.map (⟨·, mod⟩))

/-- The entries that are above the address, from `i` up. The limit is the last slot of the array,
and the loop over `j` goes from `2 * margin - 1` down to `margin + 1`. The last number of an entry is
`2 ^ 31 - 1`. -/
def highLoop (mods : List AddrModule) (addr : BitVec 64) (margin mod i nentries : Nat)
    (ar : List (Option CexpSymAIdx)) : Option (List (Option CexpSymAIdx)) :=
  (nearLoop mods (· ≤ addr) (· > ·) (BitVec.allOnes 64) (margin - 1) (decide (2 ^ 31 ≤ nentries))
    ((List.range' i (min nentries (2 ^ 31) - i)).map (⟨·, mod⟩)) ar.reverse).map List.reverse

/-- One module. -/
def rangeStep (mods : List AddrModule) (addr : BitVec 64) (margin : Nat)
    (ar : List (Option CexpSymAIdx)) (m : AddrModule × Nat) :
    Option (List (Option CexpSymAIdx)) := do
  if ← addrInModule addr m.1 (m.2 = 0) then
    let t := m.1.symtbl
    let (cli, _) ← cexpSymTblLkAddrIdx addr 0 false t
    let ar ← lowLoop mods addr margin m.2 cli ar
    highLoop mods addr margin m.2 (cli + 1) t.nentries ar
  else return ar

def cexpSymLkAddrRange (mods : List AddrModule) (addr : BitVec 64) (margin : Nat) :
    Option (List (Option CexpSymAIdx)) := do
  let n ← intResult (2 * margin + 1)
  mods.zipIdx.foldlM (rangeStep mods addr margin) (List.replicate n.toNat none)

/-- `cexpSymLkAddrIdx`: the entry, or nothing for `-1`. `f` tells whether there is a file to print
to. The length of the array is that of the margin that is asked for. -/
def cexpSymLkAddrIdx (mods : List AddrModule) (addr : BitVec 64) (margin : Int) (f : Bool) :
    Option (Option CexpSymAIdx) := do
  let _ ← intResult (if margin < 0 then 1 else 2 * margin + 1)
  let margin := if margin < 0 ∨ f = false then 0 else margin.toNat
  let ar ← cexpSymLkAddrRange mods addr margin
  ar[margin]?

/-- `cexpSymLkAddr`, with the module that `*pmod` is set to. -/
def cexpSymLkAddr (mods : List AddrModule) (addr : BitVec 64) (margin : Int) (f : Bool) :
    Option (Option (CexpSym × AddrModule)) := do
  match ← cexpSymLkAddrIdx mods addr margin f with
  | none => return none
  | some e =>
    let m ← mods[e.mod]?
    let s ← m.symtbl.sym e.idx
    return some (s, m)

/-- `cexpAddrFind`: the text in the buffer and the new `*addr`, or nothing for `-1`. -/
def cexpAddrFind (mods : List AddrModule) (addr : BitVec 64) (size : Nat) :
    Option (Option (List UInt8 × BitVec 64)) := do
  match ← cexpSymLkAddr mods addr 0 false with
  | none => return none
  | some (s, m) =>
    let text := m.name.bytes ++ ":".toUTF8.toList ++ s.bytes
    return some (text.take (size - 1), s.value.ptv)

/-! ## What the array should hold -/

/-- The addresses of the entries of a table, in the order of its index. -/
def CexpAddrTbl.ptvs (t : CexpAddrTbl) : List (BitVec 64) :=
  (List.range t.nentries).filterMap t.ptv

/-- The tables of the modules that contain the address. -/
def containing (mods : List AddrModule) (addr : BitVec 64) : List CexpAddrTbl :=
  (mods.zipIdx.filter fun m => addrInModule addr m.1 (m.2 = 0) = some true).map fun m => m.1.symtbl

def below (mods : List AddrModule) (addr : BitVec 64) : List (BitVec 64) :=
  (containing mods addr).flatMap fun t => t.ptvs.filter fun a => a ≤ addr

def above (mods : List AddrModule) (addr : BitVec 64) : List (BitVec 64) :=
  (containing mods addr).flatMap fun t => t.ptvs.filter fun a => addr < a

/-- The slot `i` has an entry with the address `a`, or no module if there is no such address. -/
def SlotIs (mods : List AddrModule) (ar : List (Option CexpSymAIdx)) (i : Nat)
    (a : Option (BitVec 64)) : Prop :=
  ∃ o, ar[i]? = some o ∧ o.map (gaddr mods) = a.map some

/-- The array that `cexpSymLkAddrRange` fills, and what the lookups give that use it. -/
structure RangeRight (mods : List AddrModule) (addr : BitVec 64) (margin : Nat) : Prop where
  range : ∃ ar, cexpSymLkAddrRange mods addr margin = some ar ∧ ar.length = 2 * margin + 1 ∧
    (∀ k ≤ margin, SlotIs mods ar (margin - k) ((below mods addr).insertionSort (· ≥ ·))[k]?) ∧
    ∀ k, 0 < k → k ≤ margin →
      SlotIs mods ar (margin + k) ((above mods addr).insertionSort (· ≤ ·))[k - 1]?
  symbol : ∃ r, cexpSymLkAddr mods addr margin true = some r ∧
    r.map (fun s => s.1.value.ptv) = ((below mods addr).insertionSort (· ≥ ·))[0]?
  find : margin = 0 → ∀ size, ∃ r, cexpAddrFind mods addr size = some r ∧
    r.map Prod.snd = ((below mods addr).insertionSort (· ≥ ·))[0]?

/-! ## What the loops get to see -/

/-- All entries of a table are above the address. -/
def AllAbove (addr : BitVec 64) (t : CexpAddrTbl) : Bool := t.ptvs.all fun a => addr < a

/-- The addresses that are not above, among the entries that the search covers. -/
def seenBelow (addr : BitVec 64) (t : CexpAddrTbl) : List (BitVec 64) :=
  (t.ptvs.take (covered t.nentries)).filter fun a => a ≤ addr

/-- Those behind the entries that the search covers. -/
def unseenBelow (addr : BitVec 64) (t : CexpAddrTbl) : List (BitVec 64) :=
  (t.ptvs.drop (covered t.nentries)).filter fun a => a ≤ addr

/-- The addresses above: not the first of a table that has no other, and none if the loop begins
with an address that is not above. -/
def seenAbove (addr : BitVec 64) (t : CexpAddrTbl) : List (BitVec 64) :=
  if AllAbove addr t then t.ptvs.tail
  else if unseenBelow addr t = [] then t.ptvs.filter fun a => addr < a
  else []

def unseenAbove (addr : BitVec 64) (t : CexpAddrTbl) : List (BitVec 64) :=
  if AllAbove addr t then t.ptvs.take 1
  else if unseenBelow addr t = [] then []
  else t.ptvs.filter fun a => addr < a

/-- The loop over the addresses above ends in a large table, at the latest with the last entry that
has a number: enough of those it has seen are nearer. -/
def TableEnds (addr : BitVec 64) (margin : Nat) (t : CexpAddrTbl) (seen : List (BitVec 64)) :
    Prop :=
  2 ^ 31 ≤ t.nentries → unseenBelow addr t = [] →
    ∀ a, t.ptv (2 ^ 31 - 1) = some a → margin ≤ seen.countP fun b => b < a

/-- The loops over one table after the other end. -/
def LoopsEnd (addr : BitVec 64) (margin : Nat) : List (BitVec 64) → List CexpAddrTbl → Prop
  | _, [] => True
  | seen, t :: ts =>
    TableEnds addr margin t (seenAbove addr t ++ seen) ∧
      LoopsEnd addr margin (seenAbove addr t ++ seen) ts

/-- The numbers fit into `int`s, and what the loops do not see does not matter: with a margin of
zero, an entry below has been found before a table with entries above only that has two of them;
else there are enough entries between the address and those that are not seen. -/
structure RangeSafe (mods : List AddrModule) (addr : BitVec 64) (margin : Nat) : Prop where
  fits : 2 * margin + 1 < 2 ^ 31
  system : ∀ m ∈ mods.head?, 0 < m.symtbl.nentries
  nonempty : ∀ t ∈ containing mods addr, 0 < t.nentries
  search : ∀ t ∈ containing mods addr, SearchFits addr t
  ends : 0 < margin → LoopsEnd addr margin [] (containing mods addr)
  below : ∀ t ∈ containing mods addr, ∀ a ∈ unseenBelow addr t,
    margin + 1 ≤ ((containing mods addr).flatMap (seenBelow addr)).countP fun b => b ≥ a
  zero : margin = 0 → ∀ t ∈ (containing mods addr).takeWhile (AllAbove addr), t.nentries < 2
  pos : 0 < margin → ∀ t ∈ containing mods addr, ∀ a ∈ unseenAbove addr t,
    margin ≤ ((containing mods addr).flatMap (seenAbove addr)).countP fun b => b ≤ a

end Cexp
