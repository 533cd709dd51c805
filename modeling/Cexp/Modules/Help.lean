import Cexp.Modules.Link
import Cexp.Syms.Bisect
import Mathlib.Data.List.TakeDrop

/-!
# Help tables

A module may bring tables with help texts, whose symbols have names of a certain form. When it is
loaded, `cexpModuleLoad` asks `_cexpSymTblLookupRegex` for one such symbol after the other and has
`cexpAddHelpToSymTab` enter the texts. The search stops behind the match and gives nothing if it
has reached the end of the array then, so a match in front of the null name is not seen
(`search_one`). The texts are entered if the searches for their addresses end
(`addTables_isSome_iff`).
-/

namespace Cexp

/-! ## Entering help texts -/

/-- `t->syms[slot].help = text` -/
def CexpAddrTbl.setHelp (t : CexpAddrTbl) (slot : Nat) (text : BitVec 64) : CexpAddrTbl :=
  { t with syms := t.syms.modify slot fun s => { s with help := text } }

/-- A global symbol that is not the name of a section. -/
def takesHelp (s : CexpSym) : Bool :=
  s.flags &&& (CEXP_SYMFLG_GLBL ||| CEXP_SYMFLG_SECT) = CEXP_SYMFLG_GLBL

/-- The inner loop of `cexpAddHelpToSymTab`, which goes down over identical addresses. It is at
the index `i` when the count is `i + 1`. -/
def helpLoop (t : CexpAddrTbl) (addr text : BitVec 64) : Nat → Option CexpAddrTbl
  | 0 => some t
  | i + 1 =>
    match t.aindex[i]?, t.sym i with
    | some slot, some found =>
      if found.value.ptv = addr then
        if takesHelp found then some (t.setHelp slot text) else helpLoop t addr text i
      else some t
    | _, _ => none

/-- `cexpAddHelpToSymTab` for one address and its help text. -/
def addHelp (t : CexpAddrTbl) (h : BitVec 64 × BitVec 64) : Option CexpAddrTbl :=
  (cexpSymTblLkAddrIdx h.1 0 false t).bind fun r => helpLoop t h.1 h.2 (r.1 + 1)

/-- `cexpAddHelpToSymTab`. The table of help texts ends where the address is null. -/
def cexpAddHelpToSymTab (h : List (BitVec 64 × BitVec 64)) (t : CexpAddrTbl) :
    Option CexpAddrTbl := h.foldlM addHelp t

/-- The texts of the help table that the symbol number `found` stands for are entered. `helpTab`
is what the memory holds at an address. -/
def addTable (helpTab : BitVec 64 → List (BitVec 64 × BitVec 64)) (t : CexpAddrTbl)
    (found : Nat) : Option CexpAddrTbl :=
  (t.syms[found]?).bind fun s => cexpAddHelpToSymTab (helpTab s.value.ptv) t

/-- The loop of `cexpModuleLoad` over the help tables, from the symbol number `s` on. What comes
back are the symbols that were found, and the table with the help texts. -/
def addHelpTables (rc : CStr → Bool) (helpTab : BitVec 64 → List (BitVec 64 × BitVec 64)) :
    Nat → Nat → CexpAddrTbl → Option (List Nat × CexpAddrTbl)
  | 0, _, _ => none
  | n + 1, s, t =>
    match cexpSymTblLookupRegex rc 1 s t.toCexpSymTbl with
    | none => none
    | some (none, _) => some ([], t)
    | some (some found, _) =>
      match addTable helpTab t found with
      | none => none
      | some t => (addHelpTables rc helpTab n (found + 1) t).map fun r => (found :: r.1, r.2)

/-! ## What help texts leave alone -/

/-- The tables differ in help texts at most. -/
structure SameButHelp (t t' : CexpAddrTbl) : Prop where
  nentries : t'.nentries = t.nentries
  aindex : t'.aindex = t.aindex
  syms : t'.syms.map (fun s => { s with help := 0 }) = t.syms.map fun s => { s with help := 0 }

section

variable {t t' t'' : CexpAddrTbl} {rc : CStr → Bool}
  {helpTab : BitVec 64 → List (BitVec 64 × BitVec 64)}

theorem SameButHelp.refl (t : CexpAddrTbl) : SameButHelp t t := ⟨rfl, rfl, rfl⟩

theorem SameButHelp.trans (h : SameButHelp t t') (h' : SameButHelp t' t'') :
    SameButHelp t t'' :=
  ⟨h'.nentries.trans h.nentries, h'.aindex.trans h.aindex, h'.syms.trans h.syms⟩

theorem setHelp_same (t : CexpAddrTbl) (slot : Nat) (text : BitVec 64) :
    SameButHelp t (t.setHelp slot text) := by
  refine ⟨rfl, rfl, ?_⟩
  apply List.ext_getElem?
  intro i
  rw [CexpAddrTbl.setHelp, List.getElem?_map, List.getElem?_map, List.getElem?_modify]
  cases t.syms[i]? with
  | none => rfl
  | some s =>
    split
    · rfl
    · rfl

/-- The same symbol, but for its help text, is at every place. -/
theorem SameButHelp.get (h : SameButHelp t t') (slot : Nat) :
    (t'.syms[slot]?).map (fun s => { s with help := 0 }) =
      (t.syms[slot]?).map fun s => { s with help := 0 } := by
  have hget := congrArg (fun l => l[slot]?) h.syms
  simp only [List.getElem?_map] at hget
  exact hget

theorem SameButHelp.length (h : SameButHelp t t') : t'.syms.length = t.syms.length := by
  have hlength := congrArg List.length h.syms
  rw [List.length_map, List.length_map] at hlength
  exact hlength

theorem SameButHelp.ptv (h : SameButHelp t t') (i : Nat) : t'.ptv i = t.ptv i := by
  have hsym : ∀ slot : Nat, (t'.syms[slot]?).map (fun s : CexpSym => s.value.ptv) =
      (t.syms[slot]?).map fun s : CexpSym => s.value.ptv := by
    intro slot
    have hget := congrArg (Option.map fun s : CexpSym => s.value.ptv) (h.get slot)
    rw [Option.map_map, Option.map_map] at hget
    exact hget
  rw [CexpAddrTbl.ptv, CexpAddrTbl.ptv, CexpAddrTbl.sym, CexpAddrTbl.sym, h.aindex]
  cases t.aindex[i]? with
  | none => rfl
  | some slot => exact hsym slot

theorem SameButHelp.indexed (h : SameButHelp t t') (ht : t.Indexed) : t'.Indexed where
  perm := by
    rw [h.aindex, h.nentries]
    exact ht.perm
  bound := by
    rw [h.nentries, h.length]
    exact ht.bound
  sorted := by
    intro i j a b hij ha hb
    rw [h.ptv] at ha hb
    exact ht.sorted i j a b hij ha hb

theorem tblLookupLoop_congr {l l' : List CexpSym}
    (h : l.map CexpSym.name = l'.map CexpSym.name) (i : Nat) (max : Int) (found : Option Nat) :
    tblLookupLoop rc l i max found = tblLookupLoop rc l' i max found := by
  induction l generalizing l' i max found with
  | nil =>
    cases l' with
    | nil => rfl
    | cons e' l' => cases h
  | cons e l ih =>
    cases l' with
    | nil => cases h
    | cons e' l' =>
      rw [List.map_cons, List.map_cons, List.cons.injEq] at h
      rw [tblLookupLoop, tblLookupLoop, h.1]
      cases e'.name with
      | none => rfl
      | some name =>
        dsimp only
        rw [ih h.2, ih h.2]

theorem SameButHelp.names (h : SameButHelp t t') :
    t'.syms.map CexpSym.name = t.syms.map CexpSym.name := by
  have hnames := congrArg (List.map CexpSym.name) h.syms
  rw [List.map_map, List.map_map] at hnames
  exact hnames

theorem SameButHelp.lookup (h : SameButHelp t t') (max : Int) (s : Nat) :
    cexpSymTblLookupRegex rc max s t'.toCexpSymTbl =
      cexpSymTblLookupRegex rc max s t.toCexpSymTbl := by
  apply tblLookupLoop_congr
  rw [List.map_drop, List.map_drop, h.names]

theorem helpLoop_same {addr text : BitVec 64} {n : Nat}
    (h : helpLoop t addr text n = some t') : SameButHelp t t' := by
  induction n with
  | zero =>
    cases h
    exact SameButHelp.refl t
  | succ i ih =>
    rw [helpLoop] at h
    split at h
    · split at h
      · split at h
        · cases h
          exact setHelp_same t _ text
        · exact ih h
      · cases h
        exact SameButHelp.refl t
    · cases h

theorem addHelp_same {h : BitVec 64 × BitVec 64} (hadd : addHelp t h = some t') :
    SameButHelp t t' := by
  obtain ⟨i, -, hloop⟩ := Option.bind_eq_some_iff.mp hadd
  exact helpLoop_same hloop

theorem cexpAddHelpToSymTab_same {h : List (BitVec 64 × BitVec 64)}
    (hadd : cexpAddHelpToSymTab h t = some t') : SameButHelp t t' := by
  rw [cexpAddHelpToSymTab] at hadd
  induction h generalizing t with
  | nil =>
    cases hadd
    exact SameButHelp.refl _
  | cons a h ih =>
    rw [List.foldlM_cons] at hadd
    obtain ⟨t₁, hone, hrest⟩ := Option.bind_eq_some_iff.mp hadd
    exact (addHelp_same hone).trans (ih hrest)

theorem addTable_same {found : Nat} (hadd : addTable helpTab t found = some t') :
    SameButHelp t t' := by
  obtain ⟨s, -, hadd⟩ := Option.bind_eq_some_iff.mp hadd
  exact cexpAddHelpToSymTab_same hadd

/-! ## Nothing is read outside of the index -/

theorem helpLoop_returns (ht : t.Indexed) (addr text : BitVec 64) {n : Nat}
    (hn : n ≤ t.nentries) : ∃ t', helpLoop t addr text n = some t' := by
  induction n with
  | zero => exact ⟨t, rfl⟩
  | succ i ih =>
    obtain ⟨slot, s, hslot, -, -, hs⟩ := ht.sym_isSome hn
    rw [helpLoop, hslot, hs]
    dsimp only
    split
    · split
      · exact ⟨_, rfl⟩
      · exact ih (Nat.le_of_succ_le hn)
    · exact ⟨t, rfl⟩

theorem SameButHelp.fits (h : SameButHelp t t') (addr : BitVec 64) :
    SearchFits addr t' ↔ SearchFits addr t := by
  rw [SearchFits, SearchFits, h.nentries, h.ptv]

/-- A text is entered if the search for its address ends. -/
theorem addHelp_isSome_iff (ht : t.Indexed) (hpos : 0 < t.nentries) (h : BitVec 64 × BitVec 64) :
    (∃ t', addHelp t h = some t') ↔ SearchFits h.1 t := by
  rw [← lkAddrIdx_isSome_iff ht hpos 0]
  constructor
  · rintro ⟨t', hadd⟩
    obtain ⟨r, hr, -⟩ := Option.bind_eq_some_iff.mp hadd
    exact ⟨r, hr⟩
  · rintro ⟨r, hr⟩
    have hlt := (lkAddrIdx_found ht hpos hr).1
    obtain ⟨t', ht'⟩ := helpLoop_returns ht h.1 h.2 (hlt.trans_le (covered_le hpos))
    exact ⟨t', Option.bind_eq_some_iff.mpr ⟨r, hr, ht'⟩⟩

/-- If what has to hold for one step does not depend on help texts, then it has to hold for each. -/
theorem foldlM_isSome_iff {α : Type} {f : CexpAddrTbl → α → Option CexpAddrTbl} {P : α → Prop}
    {as : List α} (hsame : ∀ t₁ t₂ a, f t₁ a = some t₂ → SameButHelp t₁ t₂)
    (hstep : ∀ t', SameButHelp t t' → ∀ a ∈ as, ((∃ t'', f t' a = some t'') ↔ P a)) :
    (∃ t', as.foldlM f t = some t') ↔ ∀ a ∈ as, P a := by
  induction as generalizing t with
  | nil => exact iff_of_true ⟨t, rfl⟩ fun a ha => absurd ha List.not_mem_nil
  | cons a as ih =>
    rw [List.forall_mem_cons, ← hstep t (SameButHelp.refl t) a List.mem_cons_self, List.foldlM_cons]
    have hrest : ∀ t₁, f t a = some t₁ → ((∃ t', as.foldlM f t₁ = some t') ↔ ∀ b ∈ as, P b) :=
      fun t₁ hone => ih fun t' ht' b hb =>
        hstep t' ((hsame t t₁ a hone).trans ht') b (List.mem_cons_of_mem a hb)
    constructor
    · rintro ⟨t', hrun⟩
      obtain ⟨t₁, hone, hmore⟩ := Option.bind_eq_some_iff.mp hrun
      exact ⟨⟨t₁, hone⟩, (hrest t₁ hone).mp ⟨t', hmore⟩⟩
    · rintro ⟨⟨t₁, hone⟩, hall⟩
      obtain ⟨t', hmore⟩ := (hrest t₁ hone).mpr hall
      exact ⟨t', Option.bind_eq_some_iff.mpr ⟨t₁, hone, hmore⟩⟩

theorem cexpAddHelpToSymTab_isSome_iff (ht : t.Indexed) (hpos : 0 < t.nentries)
    (h : List (BitVec 64 × BitVec 64)) :
    (∃ t', cexpAddHelpToSymTab h t = some t') ↔ ∀ a ∈ h, SearchFits a.1 t := by
  refine foldlM_isSome_iff (fun t₁ t₂ a hadd => addHelp_same hadd) fun t' hsame a _ => ?_
  rw [addHelp_isSome_iff (hsame.indexed ht) (by rw [hsame.nentries]; exact hpos), hsame.fits]

/-- The searches for the addresses in the help tables that the symbols stand for end. -/
def HelpFits (helpTab : BitVec 64 → List (BitVec 64 × BitVec 64)) (found : List Nat)
    (t : CexpAddrTbl) : Prop :=
  ∀ i ∈ found, ∀ s, t.syms[i]? = some s → ∀ h ∈ helpTab s.value.ptv, SearchFits h.1 t

/-- The texts of the help tables are entered one after the other. -/
def addTables (helpTab : BitVec 64 → List (BitVec 64 × BitVec 64)) (found : List Nat)
    (t : CexpAddrTbl) : Option CexpAddrTbl := found.foldlM (addTable helpTab) t

theorem addTables_isSome_iff (ht : t.Indexed) {found : List Nat}
    (hin : ∀ i ∈ found, i < t.nentries) :
    (∃ t', addTables helpTab found t = some t') ↔ HelpFits helpTab found t := by
  refine foldlM_isSome_iff (fun t₁ t₂ i hadd => addTable_same hadd) fun t' hsame i hi => ?_
  obtain ⟨e, hslot⟩ : ∃ e, t.syms[i]? = some e :=
    ⟨_, List.getElem?_eq_getElem ((hin i hi).trans_le ht.bound)⟩
  have hvalue := congrArg (Option.map fun s : CexpSym => s.value.ptv) (hsame.get i)
  rw [Option.map_map, Option.map_map, hslot] at hvalue
  obtain ⟨s', hs', hptv⟩ := Option.map_eq_some_iff.mp hvalue
  have hptv' : s'.value.ptv = e.value.ptv := hptv
  rw [addTable, hs', Option.bind_some, cexpAddHelpToSymTab_isSome_iff (hsame.indexed ht)
    (by rw [hsame.nentries]; exact Nat.zero_lt_of_lt (hin i hi)), hptv']
  constructor
  · intro h s hs a ha
    rw [hslot] at hs
    cases hs
    exact (hsame.fits a.1).mp (h a ha)
  · intro h a ha
    exact (hsame.fits a.1).mpr (h _ hslot a ha)

/-! ## One search -/

/-- What a search for one match gives: the first match that is not the last symbol. -/
theorem tblLookupLoop_one {l : List CexpSym} {last : CexpSym} {rest : List CexpSym}
    (hnamed : ∀ e ∈ l, ∃ name, e.name = some name) (hlast : last.name = none) (i : Nat) :
    (tblLookupLoop rc (l ++ last :: rest) i 1 none).map Prod.fst =
      some (matchesFrom rc l.dropLast i).head? := by
  induction l generalizing i with
  | nil =>
    rw [List.nil_append, tblLookupLoop, hlast]
    rfl
  | cons e l ih =>
    rw [List.forall_mem_cons] at hnamed
    obtain ⟨⟨name, hname⟩, hnamed⟩ := hnamed
    rw [List.cons_append, tblLookupLoop, hname]
    dsimp only
    rw [if_neg one_ne_zero]
    cases hmatched : rc name with
    | true =>
      rw [if_pos rfl, Int.sub_self]
      cases l with
      | nil =>
        rw [List.nil_append, tblLookupLoop, hlast]
        rfl
      | cons e' l =>
        obtain ⟨name', hname'⟩ := hnamed e' List.mem_cons_self
        rw [List.cons_append, tblLookupLoop, hname']
        dsimp only
        rw [if_pos rfl, List.dropLast_cons_cons, matchesFrom, matched_of_name hname, hmatched]
        rfl
    | false =>
      rw [if_neg Bool.false_ne_true, ih hnamed]
      cases l with
      | nil => rfl
      | cons e' l =>
        rw [List.dropLast_cons_cons, matchesFrom, matched_of_name hname, hmatched]
        rfl

/-- The matches from the symbol number `s` on that a search for one match can find. -/
def findable (rc : CStr → Bool) (t : CexpSymTbl) (s : Nat) : List Nat :=
  matchesFrom rc (t.slots.dropLast.drop s) s

theorem search_one (ht : t.Ended) {s : Nat} (hs : s ≤ t.slots.length) :
    (cexpSymTblLookupRegex rc 1 s t.toCexpSymTbl).map Prod.fst =
      some (findable rc t.toCexpSymTbl s).head? := by
  obtain ⟨last, rest, hlast, hsyms⟩ := ht.split
  rw [cexpSymTblLookupRegex, findable, ← List.dropLast_drop_eq_drop_dropLast]
  conv_lhs => rw [hsyms, List.drop_append_of_le_length hs]
  apply tblLookupLoop_one
  · intro e he
    exact t.slots_named e (List.mem_of_mem_drop he)
  · exact hlast

/-- Behind a match the matches go on. -/
theorem matchesFrom_tail {l : List CexpSym} {s k : Nat} {rest : List Nat}
    (h : matchesFrom rc (l.drop s) s = k :: rest) :
    s ≤ k ∧ k < l.length ∧ rest = matchesFrom rc (l.drop (k + 1)) (k + 1) := by
  induction hn : l.length - s generalizing s with
  | zero =>
    rw [List.drop_eq_nil_of_le (by omega)] at h
    cases h
  | succ n ih =>
    have hlt : s < l.length := by omega
    rw [List.drop_eq_getElem_cons hlt, matchesFrom] at h
    split at h
    · cases h
      exact ⟨Nat.le_refl _, hlt, rfl⟩
    · obtain ⟨hle, h⟩ := ih h (by omega)
      exact ⟨by omega, h⟩

theorem findable_tail {s k : Nat} {rest : List Nat}
    (h : findable rc t.toCexpSymTbl s = k :: rest) :
    k + 1 ≤ t.slots.length ∧ s ≤ k ∧ rest = findable rc t.toCexpSymTbl (k + 1) := by
  obtain ⟨hle, hlt, hrest⟩ := matchesFrom_tail h
  rw [List.length_dropLast] at hlt
  exact ⟨by omega, hle, hrest⟩

/-! ## The loop -/

/-- The loop finds what a search can find, and enters the texts of that. -/
theorem addHelpTables_eq (ht : t.Ended) {n s : Nat} (hs : s ≤ t.slots.length)
    (hn : t.slots.length < n + s) (hsame : SameButHelp t t') :
    addHelpTables rc helpTab n s t' = (addTables helpTab (findable rc t.toCexpSymTbl s) t').map
      fun t'' => (findable rc t.toCexpSymTbl s, t'') := by
  induction n generalizing s t' with
  | zero => omega
  | succ n ih =>
    have hsearch := @search_one t rc ht _ hs
    rw [← hsame.lookup] at hsearch
    obtain ⟨⟨found, max⟩, hresult, hfound⟩ := Option.map_eq_some_iff.mp hsearch
    rw [addHelpTables, hresult]
    cases hfind : findable rc t.toCexpSymTbl s with
    | nil =>
      rw [hfind] at hfound
      cases hfound
      rfl
    | cons k rest =>
      rw [hfind] at hfound
      cases hfound
      obtain ⟨hk, hle, hrest⟩ := findable_tail hfind
      dsimp only [List.head?_cons]
      rw [addTables, List.foldlM_cons]
      cases hadd : addTable helpTab t' k with
      | none => rfl
      | some t₁ =>
        have hloop := ih hk (by omega) (hsame.trans (addTable_same hadd))
        rw [← hrest] at hloop
        dsimp only
        rw [hloop, Option.map_map]
        rfl

/-! ## All help tables -/

/-- Every entry that matches is found once, in order, its help texts are entered, and the loop
comes to an end. -/
def AllAdded (rc : CStr → Bool) (helpTab : BitVec 64 → List (BitVec 64 × BitVec 64))
    (t : CexpAddrTbl) : Prop :=
  ∃ t', addTables helpTab (t.matching rc) t = some t' ∧
    ∃ n₀, ∀ n, n₀ ≤ n → addHelpTables rc helpTab n 0 t = some (t.matching rc, t')

/-- The matches of the first `n` names. -/
theorem mem_matchesFrom_take {l : List CexpSym} {n i : Nat} :
    i ∈ matchesFrom rc (l.take n) 0 ↔ i < n ∧ ∃ e, l[i]? = some e ∧ e.matched rc = true := by
  rw [mem_matchesFrom, Nat.sub_zero]
  constructor
  · rintro ⟨-, e, he, hmatched⟩
    have hlt := (List.getElem?_eq_some_iff.mp he).1
    rw [List.length_take] at hlt
    rw [List.getElem?_take_of_lt (by omega)] at he
    exact ⟨by omega, e, he, hmatched⟩
  · rintro ⟨hlt, e, he, hmatched⟩
    refine ⟨Nat.zero_le i, e, ?_, hmatched⟩
    rw [List.getElem?_take_of_lt hlt]
    exact he

theorem mem_matching (ht : t.Ended) {i : Nat} : i ∈ t.matching rc ↔
    i < t.nentries ∧ ∃ e, t.slots[i]? = some e ∧ e.matched rc = true := by
  rw [CexpSymTbl.matching, ht.entries_eq, mem_matchesFrom_take]

/-- What a search can find are the matching entries exactly if a match is an entry just when it is
not the last one in front of the null name. -/
theorem findable_eq_matching (ht : t.Ended) :
    findable rc t.toCexpSymTbl 0 = t.matching rc ↔
      ∀ i e, t.slots[i]? = some e → e.matched rc = true →
        (i < t.nentries ↔ i + 1 < t.slots.length) := by
  have hfindable : ∀ i, i ∈ findable rc t.toCexpSymTbl 0 ↔
      i + 1 < t.slots.length ∧ ∃ e, t.slots[i]? = some e ∧ e.matched rc = true := by
    intro i
    rw [findable, List.drop_zero, List.dropLast_eq_take, mem_matchesFrom_take]
    exact and_congr_left' (by omega)
  constructor
  · intro heq i e he hmatched
    have hmem : i ∈ findable rc t.toCexpSymTbl 0 ↔ i ∈ t.matching rc := by rw [heq]
    rw [hfindable, mem_matching ht] at hmem
    constructor
    · intro hlt
      exact (hmem.mpr ⟨hlt, e, he, hmatched⟩).1
    · intro hlt
      exact (hmem.mp ⟨hlt, e, he, hmatched⟩).1
  · intro h
    refine List.Perm.eq_of_pairwise ?_ (matchesFrom_sorted _ _) (matchesFrom_sorted _ _) ?_
    · intro a b _ _ hab hba
      omega
    · refine (List.perm_ext_iff_of_nodup ?_ ?_).mpr ?_
      · exact (matchesFrom_sorted _ _).imp Nat.ne_of_lt
      · exact (matchesFrom_sorted _ _).imp Nat.ne_of_lt
      · intro i
        rw [hfindable, mem_matching ht]
        constructor
        · rintro ⟨hlt, e, he, hmatched⟩
          exact ⟨(h i e he hmatched).mpr hlt, e, he, hmatched⟩
        · rintro ⟨hlt, e, he, hmatched⟩
          exact ⟨(h i e he hmatched).mp hlt, e, he, hmatched⟩

/-- All help tables of a module are added exactly if a symbol in front of the null name that
matches is an entry just when it is not the last one there, and the searches for the addresses that
have help texts end. -/
theorem help_tables_added_iff (rc : CStr → Bool)
    (helpTab : BitVec 64 → List (BitVec 64 × BitVec 64)) {t : CexpAddrTbl} (ht : t.Ended)
    (hi : t.Indexed) : AllAdded rc helpTab t ↔
      (∀ i e, t.slots[i]? = some e → e.matched rc = true →
        (i < t.nentries ↔ i + 1 < t.slots.length)) ∧ HelpFits helpTab (t.matching rc) t := by
  rw [← findable_eq_matching ht, ← addTables_isSome_iff hi fun i hm => ((mem_matching ht).mp hm).1]
  have hrun : ∀ n, t.slots.length < n → addHelpTables rc helpTab n 0 t = _ := fun n hn =>
    addHelpTables_eq ht (Nat.zero_le _) hn (SameButHelp.refl t)
  constructor
  · rintro ⟨t', hall, n₀, hn⟩
    have hlast := hn (n₀ + (t.slots.length + 1)) (Nat.le_add_right _ _)
    rw [hrun _ (by omega)] at hlast
    obtain ⟨t'', -, heq⟩ := Option.map_eq_some_iff.mp hlast
    exact ⟨congrArg Prod.fst heq, t', hall⟩
  · rintro ⟨heq, t', hall⟩
    refine ⟨t', hall, t.slots.length + 1, fun n hn => ?_⟩
    rw [hrun n hn, heq, hall]
    rfl

end

/-! ## A help table that is not seen -/

/-- `"_cexpHelpTab"` -/
def CEXP_HELP_TAB_NAME : CStr :=
  ⟨[0x5f, 0x63, 0x65, 0x78, 0x70, 0x48, 0x65, 0x6c, 0x70, 0x54, 0x61, 0x62], by decide⟩

/-- The regular expression of the loop: names that begin so. -/
def isHelpTab (name : CStr) : Bool := CEXP_HELP_TAB_NAME.bytes.isPrefixOf name.bytes

/-- The help tables at an address: one text for the symbol at the address `0x20`. -/
def oneText (_ : BitVec 64) : List (BitVec 64 × BitVec 64) := [(0x20, 0x80)]

/-- A table with a help table at `0x10` and another symbol at `0x20`. -/
def helpTable (name : CStr) (other : CStr) : CexpSymTbl where
  nentries := 2
  syms := [{ newSym name with value := ⟨0x10, CexpType.TVoid⟩, flags := CEXP_SYMFLG_GLBL },
    { newSym other with value := ⟨0x20, CexpType.TVoid⟩, flags := CEXP_SYMFLG_GLBL },
    ⟨none, ⟨0, CexpType.TVoid⟩, 0, 0, 0⟩]

/-- The names of the two symbols that come before and behind that of a help table. -/
def nameUpper : CStr := ⟨[0x5a], by decide⟩

def nameLower : CStr := ⟨[0x7a], by decide⟩

/-- The symbol of the help table is the last one of its module, and its text is not entered. -/
theorem lone_help_table_missed :
    addHelpTables isHelpTab oneText 3 0 ⟨helpTable nameUpper CEXP_HELP_TAB_NAME, [0, 1]⟩ =
      some ([], ⟨helpTable nameUpper CEXP_HELP_TAB_NAME, [0, 1]⟩) ∧
    ¬AllAdded isHelpTab oneText ⟨helpTable nameUpper CEXP_HELP_TAB_NAME, [0, 1]⟩ := by
  refine ⟨by decide, ?_⟩
  rintro ⟨t', -, n, hn⟩
  have hrun := hn (n + 1) (Nat.le_succ n)
  have hempty : addHelpTables isHelpTab oneText (n + 1) 0
      ⟨helpTable nameUpper CEXP_HELP_TAB_NAME, [0, 1]⟩ =
        some ([], ⟨helpTable nameUpper CEXP_HELP_TAB_NAME, [0, 1]⟩) := rfl
  rw [hempty] at hrun
  cases hrun

/-- With another symbol behind it, the help table is found. -/
theorem help_tables_added_first : ∃ t, AllAdded isHelpTab oneText t ∧
    t.toCexpSymTbl = helpTable CEXP_HELP_TAB_NAME nameLower := by
  have hended : (helpTable CEXP_HELP_TAB_NAME nameLower).Ended := ⟨by decide, by decide⟩
  obtain ⟨s, hs⟩ := CLib.exists_sorts (cexpAddrcomp (helpTable CEXP_HELP_TAB_NAME nameLower))
    (List.range (helpTable CEXP_HELP_TAB_NAME nameLower).nentries)
  have hindexed := @cexpIndexSymTbl_indexed (fun _ _ => s) _ (by decide) hs
  refine ⟨_, (help_tables_added_iff isHelpTab oneText hended hindexed).mpr
    ⟨?_, fun _ _ _ _ _ _ => .inl (show covered 2 ≤ 2 ^ 30 by decide)⟩, rfl⟩
  intro i e he hmatched
  have hlt := (List.getElem?_eq_some_iff.mp he).1
  match i, hlt with
  | 0, _ => exact iff_of_true Nat.zero_lt_two (show 1 < 2 by decide)
  | 1, _ =>
    cases he
    exact absurd hmatched (by decide)

end Cexp
