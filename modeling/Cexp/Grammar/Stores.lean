import Cexp.Ctyps.Defined
import Cexp.Grammar.Eval

/-!
# What an assignment stores

Loading gives back the bytes that were stored, and a store changes no other byte. An assignment
that succeeds is one store, as wide as the type of its target (`cexpTVAssign_ok`); it cannot fail
if the target has the type of the value (`cexpTVAssign_own`).
-/

namespace Cexp

open CexpType

/-! ## Memory -/

theorem ofNat_succ_add (a : BitVec 64) (i : Nat) :
    a + BitVec.ofNat 64 (i + 1) = a + 1 + BitVec.ofNat 64 i := by
  rw [Nat.add_comm, BitVec.ofNat_add, ← BitVec.add_assoc]
  rfl

/-- A store leaves all other bytes as they are. -/
theorem Mem.store_outside (n : Nat) : ∀ {mem : Mem} {a v x : BitVec 64},
    (∀ i < n, x ≠ a + BitVec.ofNat 64 i) → mem.store a v n x = mem x := by
  induction n with
  | zero => exact fun _ => rfl
  | succ n ih =>
    intro mem a v x hx
    have hnext : ∀ i < n, x ≠ a + 1 + BitVec.ofNat 64 i := by
      intro i hi
      rw [← ofNat_succ_add]
      exact hx (i + 1) (by omega)
    have hfirst : x ≠ a := by simpa using hx 0 (by omega)
    rw [Mem.store, ih hnext, if_neg hfirst]

theorem Mem.load_congr (n : Nat) : ∀ {mem mem' : Mem} {a : BitVec 64},
    (∀ i < n, mem (a + BitVec.ofNat 64 i) = mem' (a + BitVec.ofNat 64 i)) →
      mem.load a n = mem'.load a n := by
  induction n with
  | zero => exact fun _ => rfl
  | succ n ih =>
    intro mem mem' a h
    have hnext : ∀ i < n, mem (a + 1 + BitVec.ofNat 64 i) = mem' (a + 1 + BitVec.ofNat 64 i) := by
      intro i hi
      rw [← ofNat_succ_add]
      exact h (i + 1) (by omega)
    have hfirst : mem a = mem' a := by simpa using h 0 (by omega)
    rw [Mem.load, Mem.load, ih hnext, hfirst]

/-- The bytes that were stored are loaded. -/
theorem Mem.getLsbD_load_store (n : Nat) : ∀ (mem : Mem) (a v : BitVec 64) (i : Nat), n ≤ 8 →
    ((mem.store a v n).load a n).getLsbD i = (decide (i < 8 * n) && v.getLsbD i) := by
  induction n with
  | zero => exact fun mem a v i _ => by simp [Mem.load]
  | succ n ih =>
    intro mem a v i hn
    have hfirst : ∀ j < n, a ≠ a + 1 + BitVec.ofNat 64 j := by
      intro j hj heq
      rw [← ofNat_succ_add] at heq
      have hzero : (BitVec.ofNat 64 (j + 1)).toNat = 0 := by
        rw [left_eq_add.mp heq]
        rfl
      rw [BitVec.toNat_ofNat] at hzero
      omega
    rw [Mem.store, Mem.load, Mem.store_outside n hfirst, if_pos rfl]
    simp only [BitVec.getLsbD_or, BitVec.getLsbD_shiftLeft, ih _ _ _ _ (by omega : n ≤ 8),
      BitVec.getLsbD_ushiftRight, BitVec.getLsbD_setWidth]
    by_cases hi : i < 8
    · simp [hi, show i < 64 by omega, show i < 8 * (n + 1) by omega]
    · have hback : 8 + (i - 8) = i := by omega
      have hiff : i - 8 < 8 * n ↔ i < 8 * (n + 1) := by omega
      have h64 : i < 8 * (n + 1) → i < 64 := by omega
      simp only [hi, hback, hiff, decide_false, Bool.not_false, Bool.and_true]
      by_cases hlt : i < 8 * (n + 1)
      · simp [hlt, h64 hlt]
      · simp [hlt]

theorem Mem.load_store (mem : Mem) (a v : BitVec 64) : (mem.store a v 8).load a 8 = v := by
  apply BitVec.eq_of_getLsbD_eq
  intro i hi
  rw [Mem.getLsbD_load_store 8 mem a v i (le_refl 8)]
  simp [hi]

/-! ## The assignment -/

theorem clearedSize_scalar (dm : DataModel) :
    clearedSize dm TUChar = .ok 1 ∧ clearedSize dm TUShort = .ok 2 ∧ clearedSize dm TUInt = .ok 4 ∧
      clearedSize dm (TULong dm) = .ok dm.longSize ∧ clearedSize dm TFloat = .ok 4 ∧
      clearedSize dm TDouble = .ok 8 := by
  cases dm <;> exact ⟨rfl, rfl, rfl, rfl, rfl, rfl⟩

/-- A type that no variable can have fails an assertion. -/
theorem clearedSize_error {dm : DataModel} {t : CexpType} {stop : Stop}
    (h : clearedSize dm t = .error stop) : ∃ e, stop = .fault e := by
  rw [clearedSize] at h
  split_ifs at h
  exact ⟨_, (Except.error.inj h).symm⟩

/-- What an assignment stores. -/
def storedMember (m : Machine) (t : CexpType) (u : BitVec 64) : BitVec 64 :=
  if t = TUChar then CexpValU.c u
  else if t = TUShort then CexpValU.s u
  else if t = TUInt then CexpValU.i u
  else if t = TULong m.dm then CexpValU.l m.dm u
  else if t = TFloat then (CexpValU.f u).setWidth 64
  else if t = TDouble then CexpValU.d u
  else CexpValU.p m.dm u

/-- After the cast an assignment stores one member of the union, as wide as the type says. -/
theorem cexpTVAssign_of_cast {m : Machine} {mem : Mem} {y : CexpTypedAddr} {x xx : CexpTypedVal}
    (hcast : cexpTypeCast m x y.type false = .ok xx) :
    cexpTVAssign m mem y x =
      match clearedSize m.dm y.type with
      | .ok n => .ok (mem.store y.ptv (storedMember m y.type xx.tv) n)
      | .error _ => .error (.error "invalid left hand type for assignment") := by
  obtain ⟨hc, hs, hi, hl, hf, hd⟩ := clearedSize_scalar m.dm
  rw [cexpTVAssign, hcast]
  change (if y.type = TUChar then _ else _) = _
  unfold storedMember
  split_ifs with h₁ h₂ h₃ h₄ h₅ h₆ h₇
  · rw [h₁, hc]
    rfl
  · rw [h₂, hs]
    rfl
  · rw [h₃, hi]
    rfl
  · rw [h₄, hl]
    rfl
  · rw [h₅, hf]
    rfl
  · rw [h₆, hd]
    rfl
  · rw [clearedSize, if_pos h₇]
    rfl
  · rw [clearedSize, if_neg h₇, if_neg h₁, if_neg h₂, if_neg h₃, if_neg h₄, if_neg h₅, if_neg h₆]

theorem cexpTVAssign_ok {m : Machine} {mem mem' : Mem} {y : CexpTypedAddr} {x : CexpTypedVal}
    (h : cexpTVAssign m mem y x = .ok mem') :
    ∃ n u, clearedSize m.dm y.type = .ok n ∧ mem' = mem.store y.ptv u n := by
  cases hcast : cexpTypeCast m x y.type false with
  | error e =>
    rw [cexpTVAssign, hcast] at h
    cases h
  | ok xx =>
    rw [cexpTVAssign_of_cast hcast] at h
    cases hn : clearedSize m.dm y.type with
    | error e =>
      rw [hn] at h
      cases h
    | ok n =>
      rw [hn] at h
      cases h
      exact ⟨n, _, rfl, rfl⟩

theorem switched_of_clearedSize {dm : DataModel} {t : CexpType} {n : Nat}
    (h : clearedSize dm t = .ok n) : Switched dm t := by
  rw [clearedSize] at h
  split_ifs at h with hp hc hs hi hl hf hd
  · exact .inl (.inr hp)
  · exact .inl (.inl (by simp [Integral, integralTypes, hc]))
  · exact .inl (.inl (by simp [Integral, integralTypes, hs]))
  · exact .inl (.inl (by simp [Integral, integralTypes, hi]))
  · exact .inl (.inl (by simp [Integral, integralTypes, hl]))
  · exact .inr (.inl hf)
  · exact .inr (.inr hd)

theorem CexpType.Switched.row_lt {dm : DataModel} {t : CexpType} (h : Switched dm t) :
    t.row < 7 := by
  rcases h with h | rfl | rfl
  · have hrow := h.row_le
    omega
  · decide
  · decide

/-- A value is cast to its own type. -/
theorem cexpTypeCast_own (m : Machine) {v : CexpTypedVal} (h : Switched m.dm v.type) :
    ∃ xx, cexpTypeCast m v v.type false = .ok xx := by
  by_cases hp : v.type.ptrq = true
  · exact ⟨_, by simp [cexpTypeCast_ptrs m false ⟨hp, hp⟩]; rfl⟩
  · have hptr : ¬(v.type.ptrq = true ∧ v.type.ptrq = true) := fun hboth => hp hboth.1
    have hrow := h.row_lt
    have hsame : ¬(v.type.fpq = false ∧ v.type.fpq = true) := by
      rintro ⟨hno, hyes⟩
      cases hno.symm.trans hyes
    obtain ⟨c, hc⟩ := ctab_isSome m hsame
    have hfits : fits m v v.type = .ok true := by
      rw [fits_eq, fitsNarrow_wide m (Nat.lt_irrefl _)]
      cases v.type.fpq <;> rfl
    rw [cexpTypeCast_fits m hptr (by omega) hc, hfits]
    exact ⟨_, rfl⟩

/-- A value is assigned to a variable of its own type. -/
theorem cexpTVAssign_own {m : Machine} {v : CexpTypedVal} {n : Nat}
    (hn : clearedSize m.dm v.type = .ok n) (mem : Mem) (a : BitVec 64) :
    ∃ mem', cexpTVAssign m mem ⟨a, v.type⟩ v = .ok mem' := by
  obtain ⟨xx, hcast⟩ := cexpTypeCast_own m (switched_of_clearedSize hn)
  rw [cexpTVAssign_of_cast (y := ⟨a, v.type⟩) hcast, hn]
  exact ⟨_, rfl⟩

end Cexp
