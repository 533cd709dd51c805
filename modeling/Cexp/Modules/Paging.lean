import Cexp.Modules.Consistency
import Cexp.Syms.Regex

/-!
# Paged search

`_cexpSymLookupRegex` goes through the tables of all modules until a number of matches is used up
and gives the symbol where it stopped. Called again with this symbol and its module it goes on
behind it. `seenFrom` lists what there is to see from a place on; a page sees the first part of it
and stops where the rest begins (`page_spec`), so the pages see everything once (`pages_spec`).
-/

namespace Cexp

variable {dm : DataModel}

/-! ## The search -/

/-- The inner loop of `_cexpSymLookupRegex` at the element number `i`, where the list begins;
`mfound` tells whether the module has been announced. What comes back are the symbols that were
visited, the one where the page ended, if it did, and what is left of `*pmax`. -/
def pageLoop (rc : CStr → Bool) :
    List CexpSym → Nat → Int → Bool → Option (List Nat × Option Nat × Int)
  | [], _, _, _ => none
  | e :: rest, i, max, mfound =>
    match e.name with
    | none => some ([], none, max)
    | some name =>
      if max = 0 then some ([], none, max)
      else if rc name then
        -- the line that announces the module counts
        let max := (if mfound then max else max - 1) - 1
        if max ≤ 0 then some ([i], some i, max)
        else (pageLoop rc rest (i + 1) max true).map fun r => (i :: r.1, r.2)
      else pageLoop rc rest (i + 1) max mfound

/-- The outer loop of `_cexpSymLookupRegex`, from the element number `s` of the first module on. -/
def pageModules (rc : CStr → Bool) : List (CexpModuleRec dm) → Nat → Int →
    Option (List (CexpModule × Nat) × Option (CexpModule × Nat) × Int)
  | [], _, max => some ([], none, max)
  | m :: ms, s, max =>
    match pageLoop rc (m.symtbl.syms.drop s) s max false with
    | none => none
    | some (visited, some i, max) =>
      some (visited.map fun k => (m.handle, k), some (m.handle, i), max)
    | some (visited, none, max) =>
      (pageModules rc ms 0 max).map fun r => (visited.map (fun k => (m.handle, k)) ++ r.1, r.2)

/-- The symbol and the module that are handed to `_cexpSymLookupRegex`. -/
structure Position where
  sym : Option Nat
  mod : Option CexpModule

/-- The module and what follows it in the list. -/
def listFrom (mod : CexpModule) (modules : List (CexpModuleRec dm)) : List (CexpModuleRec dm) :=
  modules.dropWhile fun m => m.handle ≠ mod

/-- `_cexpSymLookupRegex` with a pointer `pmod`. There is no result if a symbol or a record is read
that does not exist. -/
def cexpSymLookupRegex (rc : CStr → Bool) (max : Int) (pos : Position)
    (modules : List (CexpModuleRec dm)) :
    Option (List (CexpModule × Nat) × Option (CexpModule × Nat) × Int) :=
  match pos.sym, pos.mod with
  | none, none => pageModules rc modules 0 max
  | none, some mod => pageModules rc (listFrom mod modules) 0 max
  | some _, none => none
  | some s, some mod =>
    match listFrom mod modules with
    | [] => none
    | m :: ms =>
      match m.symtbl.syms[s + 1]? with
      | none => none
      | some e =>
        if e.name.isSome then pageModules rc (m :: ms) (s + 1) max
        else pageModules rc ms 0 max -- was the last one

/-- Pages of the given sizes, until one gives no symbol: what they visit, and whether that
happened. -/
def pages (rc : CStr → Bool) (modules : List (CexpModuleRec dm)) :
    List Int → Position → Option (List (CexpModule × Nat) × Bool)
  | [], _ => some ([], false)
  | max :: sizes, pos =>
    match cexpSymLookupRegex rc max pos modules with
    | none => none
    | some (visited, none, _) => some (visited, true)
    | some (visited, some (mod, s), _) =>
      (pages rc modules sizes ⟨some s, some mod⟩).map fun r => (visited ++ r.1, r.2)

/-! ## What there is to see -/

/-- The matches in the array of a module, from the element number `s` on. -/
def seenIn (rc : CStr → Bool) (m : CexpModuleRec dm) (s : Nat) : List (CexpModule × Nat) :=
  (matchesFrom rc (m.symtbl.slots.drop s) s).map fun k => (m.handle, k)

/-- The matches in all arrays. -/
def seenAll (rc : CStr → Bool) (modules : List (CexpModuleRec dm)) : List (CexpModule × Nat) :=
  modules.flatMap fun m => seenIn rc m 0

/-- The matches from the element number `s` of the first module on. -/
def seenFrom (rc : CStr → Bool) (modules : List (CexpModuleRec dm)) (s : Nat) :
    List (CexpModule × Nat) :=
  match modules with
  | [] => []
  | m :: ms => seenIn rc m s ++ seenAll rc ms

section

variable {rc : CStr → Bool} {modules : List (CexpModuleRec dm)}

theorem seenFrom_zero : seenFrom rc modules 0 = seenAll rc modules := by
  cases modules with
  | nil => rfl
  | cons m ms => rfl

/-- A page in one array sees the matches up to the one where it stops, or all of them. -/
theorem pageLoop_spec {slots : List CexpSym} {last : CexpSym} {rest : List CexpSym} {s : Nat}
    (hnamed : ∀ e ∈ slots, ∃ name, e.name = some name) (hlast : last.name = none)
    (hs : s ≤ slots.length) {max : Int} (hmax : 1 ≤ max) (mfound : Bool) :
    ∃ visited stop left, pageLoop rc (slots.drop s ++ last :: rest) s max mfound =
        some (visited, stop, left) ∧
      (stop = none ∧ visited = matchesFrom rc (slots.drop s) s ∧ 1 ≤ left ∨
        ∃ k, stop = some k ∧ k < slots.length ∧ visited ≠ [] ∧
          matchesFrom rc (slots.drop s) s =
            visited ++ matchesFrom rc (slots.drop (k + 1)) (k + 1)) := by
  induction hn : slots.length - s generalizing s max mfound with
  | zero =>
    rw [List.drop_eq_nil_of_le (by omega), List.nil_append, pageLoop, hlast]
    exact ⟨[], none, max, rfl, Or.inl ⟨rfl, rfl, hmax⟩⟩
  | succ n ih =>
    have hlt : s < slots.length := by omega
    obtain ⟨name, hname⟩ := hnamed slots[s] (List.getElem_mem hlt)
    rw [List.drop_eq_getElem_cons hlt, List.cons_append, pageLoop, hname, matchesFrom,
      matched_of_name hname]
    dsimp only
    rw [if_neg (by omega)]
    cases hmatched : rc name with
    | false =>
      rw [if_neg Bool.false_ne_true, if_neg Bool.false_ne_true]
      exact ih (by omega) hmax mfound (by omega)
    | true =>
      rw [if_pos rfl, if_pos rfl]
      generalize (if mfound then max else max - 1) - 1 = max'
      by_cases hend : max' ≤ 0
      · rw [if_pos hend]
        exact ⟨[s], some s, max', rfl, Or.inr ⟨s, rfl, hlt, List.cons_ne_nil _ _, rfl⟩⟩
      · rw [if_neg hend]
        obtain ⟨visited, stop, left, hrun, hresult⟩ := ih (show s + 1 ≤ slots.length by omega)
          (show 1 ≤ max' by omega) true (by omega)
        rw [hrun]
        refine ⟨s :: visited, stop, left, rfl, ?_⟩
        rcases hresult with ⟨hstop, hvisited, hle⟩ | ⟨k, hstop, hk, -, hvisited⟩
        · exact Or.inl ⟨hstop, by rw [hvisited], hle⟩
        · exact Or.inr ⟨k, hstop, hk, List.cons_ne_nil _ _, by rw [hvisited]; rfl⟩

/-- A page sees the first part of what there is to see and stops where the rest begins. -/
theorem pageModules_spec (hended : ∀ m ∈ modules, m.symtbl.Ended) {s : Nat}
    (hs : ∀ m ms, modules = m :: ms → s ≤ m.symtbl.slots.length) {max : Int} (hmax : 1 ≤ max) :
    ∃ visited stop left, pageModules rc modules s max = some (visited, stop, left) ∧
      (stop = none ∧ visited = seenFrom rc modules s ∨
        ∃ l₁ m l₂ k, modules = l₁ ++ m :: l₂ ∧ stop = some (m.handle, k) ∧
          k < m.symtbl.slots.length ∧ visited ≠ [] ∧
          seenFrom rc modules s = visited ++ seenFrom rc (m :: l₂) (k + 1)) := by
  induction modules generalizing s max with
  | nil => exact ⟨[], none, max, rfl, Or.inl ⟨rfl, rfl⟩⟩
  | cons m ms ih =>
    rw [List.forall_mem_cons] at hended
    have hle := hs m ms rfl
    obtain ⟨last, rest, hlast, hsyms⟩ := hended.1.split
    obtain ⟨visited, stop, left, hrun, hresult⟩ :=
      @pageLoop_spec rc _ last rest s m.symtbl.slots_named hlast hle max hmax false
    rw [← List.drop_append_of_le_length hle, ← hsyms] at hrun
    rw [pageModules, hrun]
    rcases hresult with ⟨rfl, rfl, hleft⟩ | ⟨k, rfl, hk, hne, hsplit⟩
    · obtain ⟨visited', stop', left', hrun', hresult'⟩ :=
        ih hended.2 (s := 0) (fun _ _ _ => Nat.zero_le _) hleft
      dsimp only
      rw [hrun']
      refine ⟨_, stop', left', rfl, ?_⟩
      rw [seenFrom_zero] at hresult'
      rcases hresult' with ⟨hstop, hvisited⟩ | ⟨l₁, m', l₂, k, hsplit, hstop, hk, hne, hseen⟩
      · refine Or.inl ⟨hstop, ?_⟩
        rw [hvisited]
        rfl
      · refine Or.inr ⟨m :: l₁, m', l₂, k, by rw [hsplit]; rfl, hstop, hk, ?_, ?_⟩
        · exact List.append_ne_nil_of_right_ne_nil _ hne
        · rw [List.append_assoc, ← hseen]
          rfl
    · refine ⟨_, _, _, rfl, Or.inr ⟨[], m, ms, k, rfl, rfl, hk, ?_, ?_⟩⟩
      · rw [ne_eq, List.map_eq_nil_iff]
        exact hne
      · rw [seenFrom, seenIn, hsplit, List.map_append, List.append_assoc]
        rfl

/-- What there is to see from a position on. -/
inductive RestAt (rc : CStr → Bool) (modules : List (CexpModuleRec dm)) :
    Position → List (CexpModule × Nat) → Prop where
  | start : RestAt rc modules ⟨none, none⟩ (seenAll rc modules)
  | behind {l₁ l₂ : List (CexpModuleRec dm)} {m : CexpModuleRec dm} {k : Nat}
      (hmodules : modules = l₁ ++ m :: l₂) (hk : k < m.symtbl.slots.length) :
      RestAt rc modules ⟨some k, some m.handle⟩ (seenFrom rc (m :: l₂) (k + 1))

theorem page_spec (hended : ∀ m ∈ modules, m.symtbl.Ended) (hnodup : (handles modules).Nodup)
    {pos : Position} {l : List (CexpModule × Nat)} (hpos : RestAt rc modules pos l) {max : Int}
    (hmax : 1 ≤ max) : ∃ visited stop left,
      cexpSymLookupRegex rc max pos modules = some (visited, stop, left) ∧
      (stop = none ∧ visited = l ∨ ∃ mod k l', stop = some (mod, k) ∧ visited ≠ [] ∧
        l = visited ++ l' ∧ RestAt rc modules ⟨some k, some mod⟩ l') := by
  cases hpos with
  | start =>
    obtain ⟨visited, stop, left, hrun, hresult⟩ :=
      @pageModules_spec dm rc modules hended 0 (fun _ _ _ => Nat.zero_le _) max hmax
    rw [seenFrom_zero] at hresult
    refine ⟨visited, stop, left, hrun, ?_⟩
    rcases hresult with hdone | ⟨l₁, m, l₂, k, hmodules, hstop, hk, hne, hseen⟩
    · exact Or.inl hdone
    · exact Or.inr ⟨m.handle, k, _, hstop, hne, hseen, .behind hmodules hk⟩
  | @behind l₁ l₂ m k hmodules hk =>
    have hfresh : m.handle ∉ handles l₁ := by
      rw [hmodules, handles_append] at hnodup
      intro hmem
      exact (List.nodup_append.mp hnodup).2.2 _ hmem _ List.mem_cons_self rfl
    have hfrom : listFrom m.handle modules = m :: l₂ := by
      rw [listFrom, hmodules]
      exact dropWhile_handle m l₂ hfresh
    have hsub : ∀ n ∈ m :: l₂, n.symtbl.Ended := by
      intro n hn
      exact hended n (hmodules ▸ List.mem_append_right l₁ hn)
    obtain ⟨last, rest, hlast, hsyms⟩ := (hsub m List.mem_cons_self).split
    -- where the search goes on, and what there is to see from there
    obtain ⟨ms, s, hgo, hms, hs, hseen⟩ : ∃ ms s,
        cexpSymLookupRegex rc max ⟨some k, some m.handle⟩ modules = pageModules rc ms s max ∧
        (∃ l, m :: l₂ = l ++ ms) ∧ (∀ n ns, ms = n :: ns → s ≤ n.symtbl.slots.length) ∧
        seenFrom rc (m :: l₂) (k + 1) = seenFrom rc ms s := by
      rw [cexpSymLookupRegex]
      dsimp only
      rw [hfrom]
      dsimp only
      rcases Nat.eq_or_lt_of_le (Nat.succ_le_of_lt hk) with hend | hlt
      · have hget : m.symtbl.syms[k + 1]? = some last := by
          rw [hsyms, List.getElem?_append_right (by omega), ← hend, Nat.sub_self]
          rfl
        rw [hget]
        dsimp only
        rw [hlast]
        refine ⟨l₂, 0, rfl, ⟨[m], rfl⟩, fun _ _ _ => Nat.zero_le _, ?_⟩
        rw [seenFrom_zero, seenFrom, seenIn, List.drop_eq_nil_of_le (by omega)]
        rfl
      · obtain ⟨name, hname⟩ := m.symtbl.slots_named _ (List.getElem_mem hlt)
        have hget : m.symtbl.syms[k + 1]? = some (m.symtbl.slots[k + 1]) := by
          rw [hsyms, List.getElem?_append_left (by omega), List.getElem?_eq_getElem hlt]
        rw [hget]
        dsimp only
        rw [hname]
        refine ⟨m :: l₂, k + 1, rfl, ⟨[], rfl⟩, ?_, rfl⟩
        intro n ns heq
        cases heq
        exact Nat.le_of_lt hlt
    obtain ⟨l, hl⟩ := hms
    have hended' : ∀ n ∈ ms, n.symtbl.Ended := by
      intro n hn
      exact hsub n (hl ▸ List.mem_append_right l hn)
    obtain ⟨visited, stop, left, hrun, hresult⟩ := @pageModules_spec dm rc ms hended' s hs max hmax
    refine ⟨visited, stop, left, hgo.trans hrun, ?_⟩
    rw [hseen]
    rcases hresult with hdone | ⟨l₁', m', l₂', k', hmodules', hstop, hk', hne, hseen'⟩
    · exact Or.inl hdone
    · refine Or.inr ⟨m'.handle, k', _, hstop, hne, hseen', ?_⟩
      refine @RestAt.behind dm rc modules (l₁ ++ (l ++ l₁')) _ _ _ ?_ hk'
      rw [hmodules, hl, hmodules', List.append_assoc, List.append_assoc]

/-- The pages see everything from a position on once, in order, and then give no symbol. -/
theorem pages_spec (hended : ∀ m ∈ modules, m.symtbl.Ended) (hnodup : (handles modules).Nodup)
    {pos : Position} {l : List (CexpModule × Nat)} (hpos : RestAt rc modules pos l)
    {sizes : List Int} (hsizes : ∀ size ∈ sizes, 1 ≤ size) :
    ∃ visited finished, pages rc modules sizes pos = some (visited, finished) ∧
      (finished = true → visited = l) ∧ (l.length < sizes.length → finished = true) := by
  induction sizes generalizing pos l with
  | nil =>
    refine ⟨[], false, rfl, ?_, ?_⟩
    · intro h
      cases h
    · intro h
      exact absurd h (Nat.not_lt_zero _)
  | cons max sizes ih =>
    rw [List.forall_mem_cons] at hsizes
    obtain ⟨visited, stop, left, hpage, hresult⟩ := page_spec hended hnodup hpos hsizes.1
    rw [pages, hpage]
    rcases hresult with ⟨rfl, rfl⟩ | ⟨mod, k, l', rfl, hne, rfl, hpos'⟩
    · exact ⟨visited, true, rfl, fun _ => rfl, fun _ => rfl⟩
    · obtain ⟨visited', finished, hrest, hall, hlong⟩ := ih hpos' hsizes.2
      dsimp only
      rw [hrest]
      refine ⟨visited ++ visited', finished, rfl, ?_, ?_⟩
      · intro hfinished
        rw [hall hfinished]
      · intro hlt
        have hpositive := List.length_pos_iff.mpr hne
        rw [List.length_append, List.length_cons] at hlt
        exact hlong (by omega)

/-! ## All matches -/

/-- The entries of all modules that match. -/
def matchingAll (rc : CStr → Bool) (modules : List (CexpModuleRec dm)) :
    List (CexpModule × Nat) :=
  modules.flatMap fun m => (m.symtbl.matching rc).map fun k => (m.handle, k)

/-- Whatever the sizes of the pages, they visit the entries that match once, in order, and then
give no symbol. -/
def PagesComplete (rc : CStr → Bool) (modules : List (CexpModuleRec dm)) : Prop :=
  ∀ size : Nat → Int, (∀ k, 1 ≤ size k) → ∃ n,
    pages rc modules ((List.range n).map size) ⟨none, none⟩ =
      some (matchingAll rc modules, true)

/-- Behind the matching entries a search sees the matches among what has been squeezed out. -/
theorem seenIn_eq {m : CexpModuleRec dm} (hended : m.symtbl.Ended) :
    seenIn rc m 0 = (m.symtbl.matching rc).map (fun k => (m.handle, k)) ++
      (matchesFrom rc (m.symtbl.slots.drop m.symtbl.nentries) m.symtbl.nentries).map
        fun k => (m.handle, k) := by
  rw [seenIn, List.drop_zero, ← List.map_append]
  conv_lhs => rw [hended.slots_eq, matchesFrom_append, hended.length_entries, Nat.zero_add]
  rfl

theorem length_seenAll (hended : ∀ m ∈ modules, m.symtbl.Ended) :
    (seenAll rc modules).length = (matchingAll rc modules).length + (modules.map fun m =>
      (matchesFrom rc (m.symtbl.slots.drop m.symtbl.nentries) m.symtbl.nentries).length).sum := by
  induction modules with
  | nil => rfl
  | cons m ms ih =>
    rw [List.forall_mem_cons] at hended
    have ih' := ih hended.2
    rw [seenAll, matchingAll] at ih' ⊢
    rw [List.flatMap_cons, List.flatMap_cons, List.map_cons, List.sum_cons, seenIn_eq hended.1]
    simp only [List.length_append, List.length_map] at ih' ⊢
    omega

theorem seenAll_eq_iff (hended : ∀ m ∈ modules, m.symtbl.Ended) :
    seenAll rc modules = matchingAll rc modules ↔
      ∀ m ∈ modules, ∀ e ∈ m.symtbl.slots.drop m.symtbl.nentries, e.matched rc = false := by
  constructor
  · intro heq m hm
    have hlength := @length_seenAll dm rc modules hended
    rw [heq, Nat.left_eq_add, List.sum_eq_zero_iff_forall_eq_nat] at hlength
    have hzero := hlength _ (List.mem_map_of_mem hm)
    exact matchesFrom_eq_nil.mp (List.eq_nil_of_length_eq_zero hzero)
  · intro h
    rw [seenAll, matchingAll]
    refine List.flatMap_congr fun m hm => ?_
    rw [seenIn_eq (hended m hm), matchesFrom_eq_nil.mpr (h m hm), List.map_nil, List.append_nil]

/-- If the pages visit the entries, there is nothing else to see. -/
theorem PagesComplete.seenAll (h : PagesComplete rc modules)
    (hended : ∀ m ∈ modules, m.symtbl.Ended) (hnodup : (handles modules).Nodup) :
    seenAll rc modules = matchingAll rc modules := by
  obtain ⟨n, hn⟩ := h (fun _ => 1) (fun _ => Int.le_refl 1)
  have hsizes : ∀ size ∈ (List.range n).map fun _ => (1 : Int), 1 ≤ size := by
    intro size hsize
    obtain ⟨_, -, rfl⟩ := List.mem_map.mp hsize
    exact Int.le_refl 1
  obtain ⟨visited, finished, hrun, hall, -⟩ := pages_spec hended hnodup
    (RestAt.start : RestAt rc modules _ _) hsizes
  rw [hn] at hrun
  cases hrun
  exact (hall rfl).symm

end

/-- The pages visit every matching symbol once exactly if nothing that matches has been squeezed
out of a table. -/
theorem pages_complete_iff (rc : CStr → Bool) {modules : List (CexpModuleRec dm)}
    (hended : ∀ m ∈ modules, m.symtbl.Ended) (hnodup : (handles modules).Nodup) :
    PagesComplete rc modules ↔
      ∀ m ∈ modules, ∀ e ∈ m.symtbl.slots.drop m.symtbl.nentries, e.matched rc = false := by
  rw [← seenAll_eq_iff hended]
  constructor
  · intro h
    exact h.seenAll hended hnodup
  · intro heq size hsize
    refine ⟨(seenAll rc modules).length + 1, ?_⟩
    have hsizes : ∀ max ∈ (List.range ((seenAll rc modules).length + 1)).map size, 1 ≤ max := by
      intro max hmax
      obtain ⟨k, -, rfl⟩ := List.mem_map.mp hmax
      exact hsize k
    obtain ⟨visited, finished, hrun, hall, hlong⟩ := pages_spec hended hnodup
      (RestAt.start : RestAt rc modules _ _) hsizes
    have hfinished : finished = true := by
      refine hlong ?_
      rw [List.length_map, List.length_range]
      exact Nat.lt_succ_self _
    rw [hrun, hall hfinished, hfinished, heq]

/-! ## A symbol that is visited twice -/

/-- A module with the symbol table `t`. -/
def moduleWith (handle : CexpModule) (t : CexpSymTbl) : CexpModuleRec plainHost.dm :=
  newRecord handle moduleA 0 ⟨t, false, [], Bitmap.zero, []⟩

/-- The regular expression that matches every name. -/
def anyName (_ : CStr) : Bool := true

/-- What is left of the symbols `a`, `a` and `b` after sorting: two entries, and `b` once more. -/
def squeezedTable : CexpSymTbl where
  nentries := 2
  syms := [newSym moduleA, newSym moduleB, newSym moduleB, ⟨none, ⟨0, CexpType.TVoid⟩, 0, 0, 0⟩]

/-- A table that comes from an object file with a redundant symbol: `b` is visited twice. -/
theorem squeezed_symbol_twice :
    plainHost.cexpCreateSymTbl some (fun _ s => s) [moduleA, moduleA, moduleB] =
      some squeezedTable ∧ ¬PagesComplete anyName [moduleWith 16 squeezedTable] := by
  refine ⟨by decide +kernel, ?_⟩
  intro h
  have hended : ∀ m ∈ [moduleWith 16 squeezedTable], m.symtbl.Ended := by
    intro m hm
    rw [List.mem_singleton.mp hm]
    exact ⟨by decide, by decide⟩
  have heq := h.seenAll hended (List.nodup_singleton _)
  have hlength := congrArg List.length heq
  revert hlength
  decide

/-- Two modules without redundant symbols. -/
theorem pages_complete_two :
    PagesComplete anyName [moduleWith 16 ⟨2, [newSym moduleA, newSym moduleB,
      ⟨none, ⟨0, CexpType.TVoid⟩, 0, 0, 0⟩]⟩,
      moduleWith 32 ⟨1, [newSym moduleB, ⟨none, ⟨0, CexpType.TVoid⟩, 0, 0, 0⟩]⟩] := by
  refine (pages_complete_iff anyName ?_ (by decide)).mpr ?_
  · intro m hm
    rcases List.mem_pair.mp hm with rfl | rfl
    · exact ⟨by decide, by decide⟩
    · exact ⟨by decide, by decide⟩
  · intro m hm e he
    rcases List.mem_pair.mp hm with rfl | rfl
    · cases he
    · cases he

end Cexp
