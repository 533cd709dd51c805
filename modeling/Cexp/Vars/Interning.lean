import Cexp.Vars.Calls

/-!
# Strings are interned

The string table is entered by requests for strings and by the names of variables. Whichever way a
string was asked for, there is one entry for it, and it stays (`strings_interned`).
-/

namespace Cexp

open CLib

/-- The entry of the string table that a call hands out, behind the string it was asked for. -/
def handedOut : VarCall × VarResult → Option (CStr × Nat)
  | (.strLookup name _ _, .str t) => some (name, t)
  | (.varLookup name _ _ _, .sym _ t) => some (name, t)
  | _ => none

namespace VarMem

/-- The string table after the calls `h`. -/
structure Interned (m : VarMem) (h : List (VarCall × VarResult)) : Prop where
  /-- Entries that were handed out are there, with the string they were asked for. -/
  stays : ∀ e ∈ h, ∀ x t, handedOut e = some (x, t) → m.str t = some x
  /-- Equal strings have one entry, different strings have different ones. -/
  unique : ∀ e ∈ h, ∀ e' ∈ h, ∀ x t y u, handedOut e = some (x, t) → handedOut e' = some (y, u) →
    (x = y ↔ t = u)
  sorted : ∃ ss : List Nat, CLib.Linked m.p .strTab (ss.map .block) ∧
    (ss.Pairwise fun t u => m.strKey t < m.strKey u) ∧ ∀ t, t ∈ ss ↔ (m.str t).isSome = true
  /-- The names of variables are entries. -/
  names : ∀ a v, m.var a = some v → ∃ x, m.str v.name = some x
  /-- No call changes or removes an entry. -/
  kept : ∀ c fuel m' r, m.Admits c → m.call fuel c = some (m', r) →
    ∀ t x, m.str t = some x → m'.str t = some x
  /-- A request for a string gets an entry. -/
  served : ∀ x s, m.Admits (.strLookup x true s) →
    ∃ fuel m' t, m.call fuel (.strLookup x true s) = some (m', .str t)

section

variable {m m' : VarMem} {vs ss : List Nat} {c : VarCall} {r : VarResult} {x : CStr} {t u : Nat}

/-- What a call hands out is an entry. -/
theorem Effect.handedOut_str (h : m.Effect c r m') (ht : handedOut (c, r) = some (x, t)) :
    m'.str t = some x := by
  cases h with
  | found _ hname _ hstr =>
    cases ht
    rwa [hstr]
  | missing => cases ht
  | created _ _ _ _ hstr =>
    cases ht
    rw [hstr, Function.update_self]
  | strFound hname _ hstr =>
    cases ht
    rwa [hstr]
  | strMissing => cases ht
  | strCreated _ _ _ hstr =>
    cases ht
    rw [hstr, Function.update_self]
  | deleted => cases ht
  | notDeleted => cases ht
  | flushed => cases ht
  | walked => cases ht
  | assigned => cases ht

theorem History.handedOut_str {h : List (VarCall × VarResult)} (hh : m.History h) :
    ∀ e ∈ h, ∀ x t, handedOut e = some (x, t) → m.str t = some x := by
  induction hh with
  | start => simp
  | next fuel hh hc hcall ih =>
    obtain ⟨vs, ss, hinv⟩ := hh.inv
    obtain ⟨-, -, -, heffect⟩ := hinv.call_effect hc hcall
    intro e he x t ht
    rcases List.mem_append.mp he with he | he
    · exact heffect.str_kept (ih e he x t ht)
    · rw [List.mem_singleton.mp he] at ht
      exact heffect.handedOut_str ht

theorem Inv.str_inj (h : Inv m vs ss) (ht : m.str t = some x) (hu : m.str u = some x) : t = u := by
  have hkey : m.strKey t = m.strKey u := by rw [strKey, strKey, ht, hu]
  exact key_inj_of_sorted h.strSorted (h.onlyStr t x ht) (h.onlyStr u x hu) hkey

theorem Inv.table_sorted (h : Inv m vs ss) : ∃ ss : List Nat,
    CLib.Linked m.p .strTab (ss.map .block) ∧
    (ss.Pairwise fun t u => m.strKey t < m.strKey u) ∧ ∀ t, t ∈ ss ↔ (m.str t).isSome = true := by
  refine ⟨ss, h.strList, h.strSorted, ?_⟩
  intro t
  constructor
  · intro ht
    exact Option.isSome_iff_exists.mpr (h.str t ht)
  · intro ht
    obtain ⟨x, hx⟩ := Option.isSome_iff_exists.mp ht
    exact h.onlyStr t x hx

/-- A request that may create the string returns an entry. -/
theorem Effect.strLookup_str {s : Option Nat} (h : m.Effect (.strLookup x true s) r m') :
    ∃ t, r = .str t := by
  cases h with
  | strFound => exact ⟨_, rfl⟩
  | strCreated => exact ⟨_, rfl⟩

end

theorem strings_interned {m : VarMem} {h : List (VarCall × VarResult)} (hh : m.History h) :
    m.Interned h := by
  obtain ⟨vs, ss, hinv⟩ := hh.inv
  have hstays := hh.handedOut_str
  refine ⟨hstays, ?_, hinv.table_sorted, ?_, ?_, ?_⟩
  · intro e he e' he' x t y u ht hu
    have htx := hstays e he x t ht
    have huy := hstays e' he' y u hu
    constructor
    · rintro rfl
      exact hinv.str_inj htx huy
    · rintro rfl
      exact Option.some_inj.mp (htx.symm.trans huy)
  · intro a v hv
    obtain ⟨w, x, hw, hx, -⟩ := hinv.nameOf_isSome (hinv.onlyVar a v hv)
    cases hv.symm.trans hw
    exact ⟨x, hx⟩
  · intro c fuel m' r hc hcall t x ht
    obtain ⟨-, -, -, heffect⟩ := hinv.call_effect hc hcall
    exact heffect.str_kept ht
  · intro x s hc
    obtain ⟨m', r, -, -, -, heffect, k, hreturns⟩ := hinv.call_returns hc
    obtain ⟨t, rfl⟩ := heffect.strLookup_str
    exact ⟨k + 1, m', t, hreturns _ (Nat.lt_succ_self k)⟩

theorem strings_interned_shared : ∃ m, VarMem.Interned m
    [(.strLookup ⟨[98], by decide⟩ true (some 1), .str 1),
      (.varLookup ⟨[98], by decide⟩ true (some 2) (some 3), .sym 2 1)] := by
  have h₁ := VarMem.History.next (c := .strLookup ⟨[98], by decide⟩ true (some 1)) 5
    .start (fun _ => ⟨1, rfl, rfl, rfl⟩) rfl
  have h₂ := VarMem.History.next (c := .varLookup ⟨[98], by decide⟩ true (some 2) (some 3)) 5
    h₁ ⟨by decide, fun _ => ⟨2, 3, rfl, rfl, ⟨rfl, rfl⟩, ⟨rfl, rfl⟩, by decide⟩⟩ rfl
  exact ⟨_, strings_interned h₂⟩

end VarMem

end Cexp
