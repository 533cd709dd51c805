import Cexp.Vars.Calls

/-!
# The variables are a finite map

The purpose of the store: a map from names to variables, each with its record and its contents. The
lists on the heap refine it (`vars_refine_map`): calls return what the map tells them to return.
-/

namespace Cexp

open CLib

/-- The record of the variable with a name, and what is in it. -/
abbrev VarMap := CStr → Option (Nat × CexpVar)

/-- A call on the map, its result and the map after it. The map does not tell about strings. -/
inductive VarMap.Step (f : VarMap) : VarCall → VarResult → VarMap → Prop where
  | found {name : CStr} {creat : Bool} {n s : Option Nat} {a : Nat} {v : CexpVar} :
    f name = some (a, v) → Step f (.varLookup name creat n s) (.sym a v.name) f
  | missing {name : CStr} {n s : Option Nat} :
    f name = none → Step f (.varLookup name false n s) .null f
  | created {name : CStr} {n s t : Nat} :
    f name = none → Step f (.varLookup name true (some n) (some s)) (.sym n t)
      (Function.update f name (some (n, .created n t)))
  | strings {name : CStr} {creat : Bool} {s : Option Nat} {r : VarResult} :
    Step f (.strLookup name creat s) r f
  | deleted {name : CStr} {e : Nat × CexpVar} :
    f name = some e → Step f (.delete name) (.deleted true) (Function.update f name none)
  | notDeleted {name : CStr} : f name = none → Step f (.delete name) (.deleted false) f
  | flushed : Step f .flush .done fun _ => none
  | walked {walker : List (CStr × Nat) → Nat} {l calls : List (CStr × Nat)} {rval : Nat} :
    (l.Pairwise fun e e' => e.1.chars < e'.1.chars) →
    (∀ x a, (x, a) ∈ l ↔ ∃ v, f x = some (a, v)) → Visited walker l calls rval →
    Step f (.walk walker) (.walked calls rval) f
  | assigned {x : CStr} {a : Nat} {v : CexpVar} {type : CexpType} {val : BitVec 64} :
    f x = some (a, v) → Step f (.assign a type val) .done
      (Function.update f x (some (a, { v with type := type, val := val })))

/-- Calls on the map, from the empty one on. -/
inductive VarMap.Run : VarMap → List (VarCall × VarResult) → Prop where
  | start : Run (fun _ => none) []
  | next {f f' : VarMap} {h : List (VarCall × VarResult)} {c : VarCall} {r : VarResult} :
    Run f h → f.Step c r f' → Run f' (h ++ [(c, r)])

/-- The variables in memory are those of the map. -/
def VarMem.Abstracts (m : VarMem) (f : VarMap) : Prop :=
  ∀ x a v, f x = some (a, v) ↔ m.var a = some v ∧ m.str v.name = some x

/-- The calls that remove the variable `x`, if there is one. -/
def VarCall.Removes (x : CStr) : VarCall → Prop
  | .delete name => name = x
  | .flush => True
  | _ => False

/-- The variable was created and not removed since. -/
def CreatedSince (x : CStr) (h : List (VarCall × VarResult)) : Prop :=
  ∃ h₁ n s r h₂, h = h₁ ++ (.varLookup x true n s, r) :: h₂ ∧ ∀ e ∈ h₂, ¬e.1.Removes x

/-- The store after the calls `h` is the map `f`, and goes on like it. -/
structure VarMem.RefinesMap (m : VarMem) (h : List (VarCall × VarResult)) (f : VarMap) : Prop where
  run : f.Run h
  abstracts : m.Abstracts f
  sorted : ∃ vs : List Nat, CLib.Linked m.p .gblList (vs.map .block) ∧
    (vs.Pairwise fun a b => m.varKey a < m.varKey b) ∧ ∀ a, a ∈ vs ↔ (m.var a).isSome = true
  returns : ∀ c, m.Admits c → ∃ fuel m' r, m.call fuel c = some (m', r)
  /-- A call is a step of the map. It moves no other variable, and only the user writes to one. -/
  step : ∀ c fuel m' r, m.Admits c → m.call fuel c = some (m', r) →
    ∃ f', f.Step c r f' ∧ m'.Abstracts f' ∧ ∀ x a v, f x = some (a, v) → ¬c.Removes x →
      ∃ v', f' x = some (a, v') ∧ ((∀ type val, c ≠ .assign a type val) → v' = v)
  /-- A lookup finds the variables that were created and not removed since. -/
  finds : ∀ x n s fuel m' r, m.Admits (.varLookup x false n s) →
    m.call fuel (.varLookup x false n s) = some (m', r) →
    ((∃ a t, r = .sym a t) ↔ CreatedSince x h)
  /-- It finds the variable where it was found before. -/
  sameCell : ∀ h₁ h₂ x creat n s a t, h = h₁ ++ (.varLookup x creat n s, .sym a t) :: h₂ →
    (∀ e ∈ h₂, ¬e.1.Removes x) → ∀ creat' n' s' fuel m' r, m.Admits (.varLookup x creat' n' s') →
    m.call fuel (.varLookup x creat' n' s') = some (m', r) → r = .sym a t

/-! ## Steps of the map -/

section

variable {f f' : VarMap} {c : VarCall} {r : VarResult} {x : CStr}

theorem createdSince_append {h : List (VarCall × VarResult)} :
    CreatedSince x (h ++ [(c, r)]) ↔
      (∃ n s, c = .varLookup x true n s) ∨ CreatedSince x h ∧ ¬c.Removes x := by
  constructor
  · rintro ⟨h₁, n, s, r', h₂, heq, hkeep⟩
    rcases List.eq_nil_or_concat h₂ with rfl | ⟨h₂, e, rfl⟩
    · obtain ⟨-, he⟩ := List.append_inj' heq rfl
      cases he
      exact .inl ⟨n, s, rfl⟩
    · rw [List.concat_eq_append] at heq hkeep
      rw [← List.cons_append, ← List.append_assoc] at heq
      obtain ⟨rfl, he⟩ := List.append_inj' heq rfl
      cases he
      right
      exact ⟨⟨h₁, n, s, r', h₂, rfl, fun e he => hkeep e (List.mem_append_left _ he)⟩,
        hkeep _ (List.mem_append_right _ List.mem_cons_self)⟩
  · rintro (⟨n, s, rfl⟩ | ⟨⟨h₁, n, s, r', h₂, rfl, hkeep⟩, hc⟩)
    · exact ⟨h, n, s, r, [], rfl, by simp⟩
    · refine ⟨h₁, n, s, r', h₂ ++ [(c, r)], by simp, ?_⟩
      intro e he
      rcases List.mem_append.mp he with he | he
      · exact hkeep e he
      · rw [List.mem_singleton.mp he]
        exact hc

/-- A variable exists after a call if it did and was not removed, or if it was asked for. -/
theorem VarMap.Step.isSome (h : f.Step c r f') :
    (f' x).isSome = true ↔
      (∃ n s, c = .varLookup x true n s) ∨ (f x).isSome = true ∧ ¬c.Removes x := by
  cases h with
  | @found name creat n s a v hname =>
    constructor
    · exact fun hsome => .inr ⟨hsome, id⟩
    · rintro (⟨n', s', heq⟩ | ⟨hsome, -⟩)
      · cases heq
        rw [hname]
        rfl
      · exact hsome
  | missing => simp [VarCall.Removes]
  | @created name n s t hnone =>
    by_cases hx : x = name
    · subst hx
      simp
    · rw [Function.update_of_ne hx]
      simp [VarCall.Removes, Ne.symm hx]
  | strings => simp [VarCall.Removes]
  | @deleted name e hname =>
    by_cases hx : x = name
    · subst hx
      simp [VarCall.Removes]
    · rw [Function.update_of_ne hx]
      simp [VarCall.Removes, Ne.symm hx]
  | @notDeleted name hnone =>
    by_cases hx : x = name
    · subst hx
      simp [VarCall.Removes, hnone]
    · simp [VarCall.Removes, Ne.symm hx]
  | flushed => simp [VarCall.Removes]
  | walked => simp [VarCall.Removes]
  | @assigned y a v type val hy =>
    by_cases hx : x = y
    · subst hx
      simp [VarCall.Removes, hy]
    · rw [Function.update_of_ne hx]
      simp [VarCall.Removes]

/-- A variable that is not removed stays where it is; only user code changes its contents. -/
theorem VarMap.Step.kept (h : f.Step c r f') {a : Nat} {v : CexpVar} (hx : f x = some (a, v))
    (hc : ¬c.Removes x) : ∃ v', f' x = some (a, v') ∧ v'.name = v.name ∧
      ((∀ type val, c ≠ .assign a type val) → v' = v) := by
  have hsame : ∃ v', f x = some (a, v') ∧ v'.name = v.name ∧
      ((∀ type val, c ≠ .assign a type val) → v' = v) := ⟨v, hx, rfl, fun _ => rfl⟩
  cases h with
  | found => exact hsame
  | missing => exact hsame
  | @created name n s t hnone =>
    have hne : x ≠ name := by
      rintro rfl
      cases hx.symm.trans hnone
    rw [Function.update_of_ne hne]
    exact hsame
  | strings => exact hsame
  | @deleted name _ _ =>
    have hne : x ≠ name := fun heq => hc heq.symm
    rw [Function.update_of_ne hne]
    exact hsame
  | notDeleted => exact hsame
  | flushed => exact absurd trivial hc
  | walked => exact hsame
  | @assigned y b w type val hy =>
    by_cases hxy : x = y
    · subst hxy
      cases hx.symm.trans hy
      refine ⟨_, Function.update_self _ _ _, rfl, ?_⟩
      intro hnot
      exact absurd rfl (hnot type val)
    · rw [Function.update_of_ne hxy]
      exact hsame

theorem VarMap.Run.isSome {h : List (VarCall × VarResult)} (hrun : f.Run h) :
    (f x).isSome = true ↔ CreatedSince x h := by
  induction hrun with
  | start =>
    have hnot : ¬CreatedSince x [] := by
      rintro ⟨h₁, n, s, r, h₂, heq, -⟩
      simp at heq
    simp [hnot]
  | next _ hstep ih => rw [hstep.isSome, createdSince_append, ih]

/-- What a lookup returned is in the map. -/
theorem VarMap.Step.sym_mem {creat : Bool} {n s : Option Nat} {a t : Nat}
    (h : f.Step (.varLookup x creat n s) (.sym a t) f') : ∃ v, f' x = some (a, v) ∧ v.name = t := by
  cases h with
  | found hx => exact ⟨_, hx, rfl⟩
  | created => exact ⟨_, Function.update_self _ _ _, rfl⟩

/-- What is in the map is what a lookup returns. -/
theorem VarMap.Step.lookup_eq {creat : Bool} {n s : Option Nat} {a : Nat} {v : CexpVar}
    (h : f.Step (.varLookup x creat n s) r f') (hx : f x = some (a, v)) : r = .sym a v.name := by
  cases h with
  | found hfound =>
    cases hx.symm.trans hfound
    rfl
  | missing hnone => cases hx.symm.trans hnone
  | created hnone => cases hx.symm.trans hnone

theorem VarMap.Step.lookup_isSome {n s : Option Nat}
    (h : f.Step (.varLookup x false n s) r f') : (∃ a t, r = .sym a t) ↔ (f x).isSome = true := by
  cases h with
  | found hfound => simp [hfound]
  | missing hnone => simp [hnone]

theorem VarMap.Run.of_append {h : List (VarCall × VarResult)} {e : VarCall × VarResult}
    (hrun : f.Run (h ++ [e])) : ∃ f₀ : VarMap, f₀.Run h ∧ f₀.Step e.1 e.2 f := by
  generalize hh : h ++ [e] = h' at hrun
  cases hrun with
  | start => simp at hh
  | next hrun hstep =>
    obtain ⟨rfl, he⟩ := List.append_inj' hh rfl
    cases he
    exact ⟨_, hrun, hstep⟩

/-- A variable that was found is still there if it was not removed since. -/
theorem VarMap.Run.kept {h₁ h₂ : List (VarCall × VarResult)} {creat : Bool} {n s : Option Nat}
    {a t : Nat} (hrun : f.Run (h₁ ++ (.varLookup x creat n s, .sym a t) :: h₂))
    (hkeep : ∀ e ∈ h₂, ¬e.1.Removes x) : ∃ v, f x = some (a, v) ∧ v.name = t := by
  induction h₂ using List.reverseRecOn generalizing f with
  | nil =>
    obtain ⟨f₀, -, hstep⟩ := hrun.of_append
    exact hstep.sym_mem
  | append_singleton h₂ e ih =>
    rw [← List.cons_append, ← List.append_assoc] at hrun
    obtain ⟨f₀, hrun₀, hstep⟩ := hrun.of_append
    obtain ⟨v, hx, hname⟩ := ih hrun₀ fun e he => hkeep e (List.mem_append_left _ he)
    obtain ⟨v', hx', hname', -⟩ := hstep.kept hx
      (hkeep e (List.mem_append_right _ List.mem_cons_self))
    exact ⟨v', hx', hname'.trans hname⟩

end

/-! ## Refinement -/

namespace VarMem

section

variable {m m' : VarMem} {f : VarMap} {vs ss : List Nat} {c : VarCall} {r : VarResult} {x : CStr}

theorem Abstracts.start : Abstracts .init fun _ => none := by
  intro x a v
  constructor
  · intro h
    cases h
  · intro h
    cases h.1

/-- Two variables do not have one name. -/
theorem Inv.nameOf_inj (h : Inv m vs ss) {a b : Nat} (ha : m.nameOf a = some x)
    (hb : m.nameOf b = some x) : a = b := by
  have hmem : ∀ {d}, m.nameOf d = some x → d ∈ vs := by
    intro d hd
    obtain ⟨v, hv, -⟩ := Option.bind_eq_some_iff.mp hd
    exact h.onlyVar d v hv
  have hkey : m.varKey a = m.varKey b := by rw [varKey, varKey, ha, hb]
  exact key_inj_of_sorted h.varSorted (hmem ha) (hmem hb) hkey

/-- The names of variables that are there before and after a call do not change. -/
theorem Inv.name_kept (h : Inv m vs ss) (heffect : m.Effect c r m') {a : Nat} {v : CexpVar}
    (hv : m.var a = some v) : m'.str v.name = m.str v.name := by
  obtain ⟨w, y, hw, hy, -⟩ := h.nameOf_isSome (h.onlyVar a v hv)
  cases hv.symm.trans hw
  rw [hy]
  exact heffect.str_kept hy

theorem Abstracts.none_iff (hf : m.Abstracts f) : f x = none ↔ ∀ a, m.nameOf a ≠ some x := by
  constructor
  · intro hnone a ha
    obtain ⟨v, hv, hx⟩ := Option.bind_eq_some_iff.mp ha
    cases hnone.symm.trans ((hf x a v).mpr ⟨hv, hx⟩)
  · intro hnone
    refine Option.eq_none_iff_forall_ne_some.mpr ?_
    rintro ⟨a, v⟩ hx
    obtain ⟨hv, hx⟩ := (hf x a v).mp hx
    exact hnone a (Option.bind_eq_some_iff.mpr ⟨v, hv, hx⟩)

/-- If records and strings stay, the map does. -/
theorem Abstracts.same (hf : m.Abstracts f) (hvar : m'.var = m.var) (hstr : m'.str = m.str) :
    m'.Abstracts f := by
  intro x a v
  rw [hvar, hstr]
  exact hf x a v

/-- A record `a` that is written or freed, where `x` is the name it had and has. -/
theorem Abstracts.update (hf : m.Abstracts f) {a : Nat} {o : Option CexpVar}
    (ha : ∀ v, m.var a = some v → m.str v.name = some x) (hx : ∀ b, m.nameOf b = some x → b = a)
    (ho : ∀ v, o = some v → m'.str v.name = some x) (hvar : m'.var = Function.update m.var a o)
    (hkept : ∀ b v, m.var b = some v → m'.str v.name = m.str v.name) :
    m'.Abstracts (Function.update f x (o.map fun v => (a, v))) := by
  intro y b w
  by_cases hb : b = a
  · subst hb
    rw [hvar, Function.update_self]
    by_cases hy : y = x
    · subst hy
      rw [Function.update_self]
      constructor
      · intro hmap
        obtain ⟨v, hv, heq⟩ := Option.map_eq_some_iff.mp hmap
        cases heq
        exact ⟨hv, ho w hv⟩
      · rintro ⟨hw, -⟩
        rw [hw]
        rfl
    · rw [Function.update_of_ne hy, hf y b w]
      constructor
      · rintro ⟨hw, hname⟩
        cases (ha w hw).symm.trans hname
        exact absurd rfl hy
      · rintro ⟨hw, hname⟩
        cases (ho w hw).symm.trans hname
        exact absurd rfl hy
  · rw [hvar, Function.update_of_ne hb]
    by_cases hy : y = x
    · subst hy
      rw [Function.update_self]
      constructor
      · intro hmap
        obtain ⟨v, -, heq⟩ := Option.map_eq_some_iff.mp hmap
        cases heq
        exact absurd rfl hb
      · rintro ⟨hw, hname⟩
        rw [hkept b w hw] at hname
        exact absurd (hx b (Option.bind_eq_some_iff.mpr ⟨w, hw, hname⟩)) hb
    · rw [Function.update_of_ne hy, hf y b w]
      exact and_congr_right fun hw => by rw [hkept b w hw]

/-- What a call does is a step of the map. -/
theorem Inv.refines (h : Inv m vs ss) (hf : m.Abstracts f) (heffect : m.Effect c r m') :
    ∃ f', f.Step c r f' ∧ m'.Abstracts f' := by
  have hkept := fun a v => h.name_kept (a := a) (v := v) heffect
  cases heffect with
  | found hv hname hvar hstr =>
    exact ⟨f, .found ((hf _ _ _).mpr ⟨hv, hname⟩), hf.same hvar hstr⟩
  | missing hnone hvar hstr => exact ⟨f, .missing (hf.none_iff.mpr hnone), hf.same hvar hstr⟩
  | @created _ name n s t hnone hn ht hvar hstr =>
    refine ⟨_, .created (hf.none_iff.mpr hnone), ?_⟩
    refine hf.update ?_ ?_ ?_ hvar hkept
    · intro v hv
      cases hn.1.symm.trans hv
    · exact fun b hb => absurd hb (hnone b)
    · intro v hv
      cases hv
      rw [hstr]
      exact Function.update_self t (some name) m.str
  | strFound ht hvar hstr => exact ⟨f, .strings, hf.same hvar hstr⟩
  | strMissing hnone hvar hstr => exact ⟨f, .strings, hf.same hvar hstr⟩
  | strCreated hnone hs hvar hstr =>
    refine ⟨f, .strings, ?_⟩
    intro x a v
    rw [hf x a v, hvar]
    exact and_congr_right fun hv => by rw [hkept a v hv]
  | @deleted _ name a ha hvar hstr =>
    obtain ⟨v, hv, hname⟩ := Option.bind_eq_some_iff.mp ha
    refine ⟨_, .deleted ((hf _ _ _).mpr ⟨hv, hname⟩), ?_⟩
    refine hf.update (o := none) ?_ (fun b hb => h.nameOf_inj hb ha) ?_ hvar hkept
    · intro w hw
      cases hv.symm.trans hw
      exact hname
    · intro w hw
      cases hw
  | notDeleted hnone hvar hstr => exact ⟨f, .notDeleted (hf.none_iff.mpr hnone), hf.same hvar hstr⟩
  | flushed hvar hstr =>
    refine ⟨_, .flushed, ?_⟩
    intro x a v
    rw [hvar a]
    simp
  | walked hsorted hmem hvisit hvar hstr =>
    refine ⟨f, .walked hsorted ?_ hvisit, hf.same hvar hstr⟩
    intro x a
    rw [hmem x a, nameOf, Option.bind_eq_some_iff]
    exact exists_congr fun v => (hf x a v).symm
  | @assigned _ a v type val hv hvar hstr =>
    obtain ⟨w, x, hw, hx, hname⟩ := h.nameOf_isSome (h.onlyVar a v hv)
    cases hv.symm.trans hw
    refine ⟨_, .assigned ((hf _ _ _).mpr ⟨hv, hx⟩), ?_⟩
    refine hf.update ?_ (fun b hb => h.nameOf_inj hb hname) ?_ hvar hkept
    · intro w hw
      cases hv.symm.trans hw
      exact hx
    · intro w hw
      cases hw
      rw [hstr]
      exact hx

theorem History.run {h : List (VarCall × VarResult)} (hh : m.History h) :
    ∃ (f : VarMap) (vs ss : List Nat), f.Run h ∧ m.Abstracts f ∧ Inv m vs ss := by
  induction hh with
  | start => exact ⟨_, [], [], .start, .start, .start⟩
  | next fuel _ hc hcall ih =>
    obtain ⟨f, vs, ss, hrun, hf, hinv⟩ := ih
    obtain ⟨vs', ss', hinv', heffect⟩ := hinv.call_effect hc hcall
    obtain ⟨f', hstep, hf'⟩ := hinv.refines hf heffect
    exact ⟨f', vs', ss', hrun.next hstep, hf', hinv'⟩

theorem Inv.sorted (h : Inv m vs ss) : ∃ vs : List Nat, CLib.Linked m.p .gblList (vs.map .block) ∧
    (vs.Pairwise fun a b => m.varKey a < m.varKey b) ∧ ∀ a, a ∈ vs ↔ (m.var a).isSome = true := by
  refine ⟨vs, h.varList, h.varSorted, ?_⟩
  intro a
  constructor
  · intro ha
    obtain ⟨v, hv, -⟩ := h.var a ha
    exact Option.isSome_iff_exists.mpr ⟨v, hv⟩
  · intro ha
    obtain ⟨v, hv⟩ := Option.isSome_iff_exists.mp ha
    exact h.onlyVar a v hv

end

/-- After any calls the store is a map, and the next call does what the map does. -/
theorem vars_refine_map {m : VarMem} {h : List (VarCall × VarResult)} (hh : m.History h) :
    ∃ f, m.RefinesMap h f := by
  obtain ⟨f, vs, ss, hrun, hf, hinv⟩ := hh.run
  have hstep : ∀ c fuel m' r, m.Admits c → m.call fuel c = some (m', r) →
      ∃ f', f.Step c r f' ∧ m'.Abstracts f' := by
    intro c fuel m' r hc hcall
    obtain ⟨vs', ss', -, heffect⟩ := hinv.call_effect hc hcall
    exact hinv.refines hf heffect
  refine ⟨f, hrun, hf, hinv.sorted, ?_, ?_, ?_, ?_⟩
  · intro c hc
    obtain ⟨m', r, -, -, -, -, k, hreturns⟩ := hinv.call_returns hc
    exact ⟨k + 1, m', r, hreturns _ (Nat.lt_succ_self k)⟩
  · intro c fuel m' r hc hcall
    obtain ⟨f', hfstep, hf'⟩ := hstep c fuel m' r hc hcall
    refine ⟨f', hfstep, hf', ?_⟩
    intro x a v hx hkeep
    obtain ⟨v', hx', -, hsame⟩ := hfstep.kept hx hkeep
    exact ⟨v', hx', hsame⟩
  · intro x n s fuel m' r hc hcall
    obtain ⟨f', hfstep, -⟩ := hstep _ fuel m' r hc hcall
    rw [hfstep.lookup_isSome, hrun.isSome]
  · intro h₁ h₂ x creat n s a t heq hkeep creat' n' s' fuel m' r hc hcall
    obtain ⟨v, hx, hname⟩ := (heq ▸ hrun).kept hkeep
    obtain ⟨f', hfstep, -⟩ := hstep _ fuel m' r hc hcall
    rw [hfstep.lookup_eq hx, hname]

theorem vars_refine_map_ab : ∃ m f, VarMem.RefinesMap m
    [(.varLookup ⟨[98], by decide⟩ true (some 1) (some 2), .sym 1 2),
      (.varLookup ⟨[97], by decide⟩ true (some 3) (some 4), .sym 3 4),
      (.varLookup ⟨[98], by decide⟩ false none none, .sym 1 2)] f := by
  have h₁ := VarMem.History.next (c := .varLookup ⟨[98], by decide⟩ true (some 1) (some 2)) 5
    .start ⟨by decide, fun _ => ⟨1, 2, rfl, rfl, ⟨rfl, rfl⟩, ⟨rfl, rfl⟩, by decide⟩⟩ rfl
  have h₂ := VarMem.History.next (c := .varLookup ⟨[97], by decide⟩ true (some 3) (some 4)) 5
    h₁ ⟨by decide, fun _ => ⟨3, 4, rfl, rfl, ⟨rfl, rfl⟩, ⟨rfl, rfl⟩, by decide⟩⟩ rfl
  have h₃ := VarMem.History.next (c := .varLookup ⟨[98], by decide⟩ false none none) 5
    h₂ ⟨by decide, fun h => absurd h Bool.false_ne_true⟩ rfl
  exact ⟨_, vars_refine_map h₃⟩

end VarMem

end Cexp
