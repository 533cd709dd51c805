import Mathlib.Data.BitVec
import Cexp.Ctyps.Arith

/-!
# Computations that the C standard decides

A computation of the engine is defined if it ends with an error message or with a result that
does not depend on what the C standard leaves open: the value of `1<<n` for an `int` and of shifts
by the width of `unsigned long` or more (`Defined`). A division by zero, a failed assertion and a
read past a table are not.

`CastDefined` says when an implicit cast is defined. The types are arbitrary codes, because a
placeholder of a skipped operand may hand any code to the engine.
-/

namespace Cexp

open CexpType CexpBinOp

/-! ## Defined computations -/

/-- The target with other answers to what the C standard leaves open. -/
def Machine.reopen (m : Machine) (k : Nat) (l r : BitVec 64 → BitVec 64 → BitVec 64) : Machine :=
  { m with oneShl32 := k, wideShl := l, wideShr := r }

/-- An error message, or a result on which all targets agree. -/
structure Defined {α : Type} (f : Machine → Except Stop α) (m : Machine) : Prop where
  noFault : ∀ e, f m ≠ .error (.fault e)
  agrees : ∀ k l r, f (m.reopen k l r) = f m

section

variable {α β : Type} {m : Machine} {f : Machine → Except Stop α}
  {g : Machine → α → Except Stop β}

/-- A computation that every target ends in the same way is defined. -/
theorem defined_of_eq {x : Except Stop α} (hx : ∀ e, x ≠ .error (.fault e))
    (h : ∀ k l r, f (m.reopen k l r) = x) : Defined f m := by
  have hself : f m = x := h m.oneShl32 m.wideShl m.wideShr
  refine ⟨?_, ?_⟩
  · rw [hself]
    exact hx
  · intro k l r
    rw [h, hself]

theorem defined_congr {p : Machine → Except Stop α}
    (h : ∀ k l r, f (m.reopen k l r) = p (m.reopen k l r)) : Defined f m ↔ Defined p m := by
  have hself : f m = p m := h m.oneShl32 m.wideShl m.wideShr
  constructor
  · rintro ⟨hfault, hagrees⟩
    refine ⟨fun e he => hfault e (hself.trans he), fun k l r => ?_⟩
    rw [← h, ← hself, hagrees]
  · rintro ⟨hfault, hagrees⟩
    refine ⟨fun e he => hfault e (hself.symm.trans he), fun k l r => ?_⟩
    rw [h, hself, hagrees]

theorem defined_ok {a : α} (h : ∀ k l r, f (m.reopen k l r) = .ok a) : Defined f m := by
  apply defined_of_eq _ h
  rintro e ⟨⟩

theorem defined_message (msg : String) (h : ∀ k l r, f (m.reopen k l r) = .error (.error msg)) :
    Defined f m := by
  apply defined_of_eq _ h
  rintro e ⟨⟩

theorem Defined.bind (hf : Defined f m)
    (hg : ∀ a, f m = .ok a → Defined (fun m => g m a) m) : Defined (fun m => f m >>= g m) m := by
  constructor
  · intro e he
    cases hfm : f m with
    | error stop =>
      have hstop : (f m >>= g m) = .error stop := by
        rw [hfm]
        rfl
      have heq : stop = .fault e := Except.error.inj (hstop.symm.trans he)
      exact hf.noFault e (hfm.trans (congrArg _ heq))
    | ok a =>
      have hrun : (f m >>= g m) = g m a := by
        rw [hfm]
        rfl
      exact (hg a hfm).noFault e (hrun.symm.trans he)
  · intro k l r
    show (f (m.reopen k l r) >>= g (m.reopen k l r)) = (f m >>= g m)
    rw [hf.agrees]
    cases hfm : f m with
    | error stop => rfl
    | ok a => exact (hg a hfm).agrees k l r

/-- After a defined step that succeeds, the rest decides. -/
theorem Defined.bind_iff (hf : Defined f m) {a : α} (ha : f m = .ok a) :
    Defined (fun m => f m >>= g m) m ↔ Defined (fun m => g m a) m := by
  have hrun : ∀ k l r, (f (m.reopen k l r) >>= g (m.reopen k l r)) = g (m.reopen k l r) a := by
    intro k l r
    rw [hf.agrees, ha]
    rfl
  have hself : (f m >>= g m) = g m a := by
    rw [ha]
    rfl
  constructor
  · intro h
    refine ⟨fun e he => h.noFault e (hself.trans he), fun k l r => ?_⟩
    rw [← hrun, ← hself]
    exact h.agrees k l r
  · intro h
    refine hf.bind fun b hb => ?_
    cases ha.symm.trans hb
    exact h

theorem not_defined_of_fault {e : Fault} (h : f m = .error (.fault e)) : ¬Defined f m :=
  fun hs => hs.noFault e h

theorem not_defined_bind_of_fault {e : Fault} (h : f m = .error (.fault e)) :
    ¬Defined (fun m => f m >>= g m) m := by
  apply not_defined_of_fault (e := e)
  show (f m >>= g m) = _
  rw [h]
  rfl

end

/-! ## Casts -/

/-- The types that the switch of `fits` knows and that fail no assertion there. -/
def CexpType.Switched (dm : DataModel) (t : CexpType) : Prop := Uint dm t ∨ t = TFloat ∨ t = TDouble

/-- The bound that `fits` computes for a narrower target is a number. -/
def NarrowDefined (dm : DataModel) (s t : CexpType) : Prop :=
  t.typeSize dm < s.typeSize dm → Switched dm s ∧ (Uint dm s → t.typeSize dm < 4)

/-- No floating type meets an integer here, or the answer is known. -/
def FitsDefined (dm : DataModel) (s t : CexpType) : Prop :=
  (t.fpq = true ∧ s.fpq = false ∧ t = TFloat) ∨ (t.fpq = false ∧ s.fpq = true) ∨
    NarrowDefined dm s t

/-- An implicit cast from `s` to `t` reads no entry past the converter matrix, and `fits` is
defined. -/
def CastDefined (dm : DataModel) (s t : CexpType) : Prop :=
  s.row < 7 ∧ t.row < 7 ∧ FitsDefined dm s t

instance (dm : DataModel) (t : CexpType) : Decidable (Switched dm t) :=
  inferInstanceAs (Decidable (_ ∨ _))

instance (dm : DataModel) (s t : CexpType) : Decidable (NarrowDefined dm s t) :=
  inferInstanceAs (Decidable (_ → _ ∧ (_ → _)))

instance (dm : DataModel) (s t : CexpType) : Decidable (FitsDefined dm s t) :=
  inferInstanceAs (Decidable (_ ∨ _))

instance (dm : DataModel) (s t : CexpType) : Decidable (CastDefined dm s t) :=
  inferInstanceAs (Decidable (_ ∧ _))

/-- The last part of `fits`. -/
def fitsNarrow (m : Machine) (v : CexpTypedVal) (t : CexpType) : Except Stop Bool :=
  if t.typeSize m.dm < v.type.typeSize m.dm then
    match fitsValue m v with
    | .ok (some n) => .ok (decide (n.toNat < oneShl m (8 * t.typeSize m.dm)))
    | .ok none => .ok false
    | .error e => .error e
  else .ok true

/-- The test of `fits` for a `float`; only `unsigned long` and `unsigned int` are looked at. -/
def fitsMantissa (dm : DataModel) (v : CexpTypedVal) : Bool :=
  decide ((if v.type = TULong dm then CexpValU.l dm v.tv
    else if v.type = TUInt then CexpValU.i v.tv else 0).toNat < 2 ^ 24)

theorem fits_eq (m : Machine) (v : CexpTypedVal) (t : CexpType) :
    fits m v t =
      if t.fpq && !v.type.fpq then
        if t = TFloat then .ok (fitsMantissa m.dm v) else fitsNarrow m v t
      else if !t.fpq && v.type.fpq then .ok false
      else fitsNarrow m v t := rfl

theorem fitsValue_float (m : Machine) {v : CexpTypedVal} (h : v.type = TFloat ∨ v.type = TDouble) :
    fitsValue m v = .ok none := by
  have hall : ∀ dm, ∀ t ∈ [TFloat, TDouble], t.ptrq = false ∧ t ≠ TUChar ∧ t ≠ TUShort ∧
      t ≠ TUInt ∧ t ≠ TULong dm := by
    intro dm
    cases dm <;> decide
  obtain ⟨h₁, h₂, h₃, h₄, h₅⟩ := hall m.dm v.type (by simpa using h)
  rw [fitsValue, h₁, if_neg Bool.false_ne_true, if_neg h₂, if_neg h₃, if_neg h₄, if_neg h₅,
    if_pos h]

theorem fitsValue_stray (m : Machine) {v : CexpTypedVal} (h : ¬Switched m.dm v.type) :
    fitsValue m v = .error (.fault (.assertFailed "!\"Invalid Type - you found a BUG\"")) := by
  have huint : ¬Uint m.dm v.type := fun hu => h (.inl hu)
  have hptr : ¬v.type.ptrq = true := fun hp => huint (.inr hp)
  have hint : ∀ t ∈ integralTypes m.dm, v.type ≠ t := by
    rintro t ht rfl
    exact huint (.inl ht)
  rw [fitsValue, if_neg hptr, if_neg (hint _ (by simp [integralTypes])),
    if_neg (hint _ (by simp [integralTypes])), if_neg (hint _ (by simp [integralTypes])),
    if_neg (hint _ (by simp [integralTypes])), if_neg (fun hf => h (.inr hf))]

theorem fitsNarrow_wide (m : Machine) {v : CexpTypedVal} {t : CexpType}
    (h : ¬t.typeSize m.dm < v.type.typeSize m.dm) : fitsNarrow m v t = .ok true :=
  if_neg h

theorem fitsNarrow_uint (m : Machine) {v : CexpTypedVal} {t : CexpType} (hv : Uint m.dm v.type)
    (h : t.typeSize m.dm < v.type.typeSize m.dm) :
    fitsNarrow m v t =
      .ok (decide ((v.uint m.dm).toNat < oneShl m (8 * t.typeSize m.dm))) := by
  rw [fitsNarrow, if_pos h, fitsValue_uint m hv]

theorem fitsNarrow_defined (m : Machine) {v : CexpTypedVal} {t : CexpType}
    (h : NarrowDefined m.dm v.type t) : Defined (fun m => fitsNarrow m v t) m := by
  by_cases hsize : t.typeSize m.dm < v.type.typeSize m.dm
  · obtain ⟨hswitched, hsmall⟩ := h hsize
    rcases hswitched with hu | hf
    · apply defined_ok (a := decide ((v.uint m.dm).toNat < 2 ^ (8 * t.typeSize m.dm)))
      intro k l r
      have hlt : 8 * t.typeSize m.dm < 32 := by
        have h4 := hsmall hu
        omega
      rw [fitsNarrow_uint (m.reopen k l r) hu hsize, oneShl]
      exact congrArg (fun n => Except.ok (decide ((v.uint m.dm).toNat < n))) (if_pos hlt)
    · apply defined_ok (a := false)
      intro k l r
      rw [fitsNarrow, fitsValue_float (m.reopen k l r) hf]
      exact if_pos hsize
  · apply defined_ok (a := true)
    intro k l r
    exact fitsNarrow_wide (m.reopen k l r) hsize

/-- Otherwise it fails its assertion on every target, or the targets disagree. -/
theorem fitsNarrow_open (m : Machine) {v : CexpTypedVal} {t : CexpType}
    (h : ¬NarrowDefined m.dm v.type t) :
    (∃ e, fitsNarrow m v t = .error (.fault e)) ∨
      ∃ k k', ∀ l r, fitsNarrow (m.reopen k l r) v t = .ok false ∧
        fitsNarrow (m.reopen k' l r) v t = .ok true := by
  rw [NarrowDefined, Classical.not_imp] at h
  obtain ⟨hsize, h⟩ := h
  by_cases hswitched : Switched m.dm v.type
  · right
    have hu : Uint m.dm v.type ∧ ¬t.typeSize m.dm < 4 := by
      rw [← Classical.not_imp]
      exact fun hsmall => h ⟨hswitched, hsmall⟩
    have heq : ∀ k l r, fitsNarrow (m.reopen k l r) v t =
        .ok (decide ((v.uint m.dm).toNat < k)) := by
      intro k l r
      have hge : ¬8 * t.typeSize m.dm < 32 := by
        have h4 := hu.2
        omega
      rw [fitsNarrow_uint (m.reopen k l r) hu.1 hsize, oneShl]
      exact congrArg (fun n => Except.ok (decide ((v.uint m.dm).toNat < n))) (if_neg hge)
    refine ⟨0, (v.uint m.dm).toNat + 1, fun l r => ⟨?_, ?_⟩⟩
    · rw [heq, decide_eq_false (Nat.not_lt_zero _)]
    · rw [heq, decide_eq_true (Nat.lt_succ_self _)]
  · left
    refine ⟨.assertFailed "!\"Invalid Type - you found a BUG\"", ?_⟩
    rw [fitsNarrow, if_pos hsize, fitsValue_stray m hswitched]

theorem fits_defined (m : Machine) {v : CexpTypedVal} {t : CexpType}
    (h : FitsDefined m.dm v.type t) : Defined (fun m => fits m v t) m := by
  simp only [fits_eq]
  rcases h with ⟨ht, hv, rfl⟩ | ⟨ht, hv⟩ | h
  · rw [ht, hv]
    exact defined_ok (a := fitsMantissa m.dm v) fun _ _ _ => rfl
  · rw [ht, hv]
    exact defined_ok fun _ _ _ => rfl
  · by_cases hmix : (t.fpq && !v.type.fpq) = true
    · simp only [if_pos hmix]
      by_cases hfloat : t = TFloat
      · simp only [if_pos hfloat]
        exact defined_ok (a := fitsMantissa m.dm v) fun _ _ _ => rfl
      · simp only [if_neg hfloat]
        exact fitsNarrow_defined m h
    · simp only [if_neg hmix]
      by_cases hback : (!t.fpq && v.type.fpq) = true
      · simp only [if_pos hback]
        exact defined_ok fun _ _ _ => rfl
      · simp only [if_neg hback]
        exact fitsNarrow_defined m h

/-- If `fits` is not defined, it got to its last part. -/
theorem fits_open (m : Machine) {v : CexpTypedVal} {t : CexpType}
    (h : ¬FitsDefined m.dm v.type t) : ∀ m' : Machine, m'.dm = m.dm →
      fits m' v t = fitsNarrow m' v t := by
  intro m' _
  rw [FitsDefined, not_or, not_or] at h
  obtain ⟨h₁, h₂, -⟩ := h
  rw [fits_eq]
  by_cases hmix : (t.fpq && !v.type.fpq) = true
  · have hfloat : t ≠ TFloat := by
      intro hf
      rw [Bool.and_eq_true, Bool.not_eq_true'] at hmix
      exact h₁ ⟨hmix.1, hmix.2, hf⟩
    rw [if_pos hmix, if_neg hfloat]
  · have hback : ¬(!t.fpq && v.type.fpq) = true := by
      intro hb
      rw [Bool.and_eq_true, Bool.not_eq_true'] at hb
      exact h₂ hb
    rw [if_neg hmix, if_neg hback]

/-- The answer of an implicit cast that would lose bits. -/
def castRefused : Stop := .error
  "cannot perform implicit cast; would truncate source value - use explicit cast to override"

/-- The end of a cast, once the converter is known. -/
theorem cexpTypeCast_fits (m : Machine) {v : CexpTypedVal} {t : CexpType}
    {c : BitVec 64 → BitVec 64} (hptr : ¬(v.type.ptrq = true ∧ t.ptrq = true))
    (hrows : ¬(7 ≤ v.type.row ∨ 7 ≤ t.row)) (hc : ctab m v.type.row t.row = some c) :
    cexpTypeCast m v t false =
      (fits m v t >>= fun b => if b then .ok ⟨c v.tv, t⟩ else .error castRefused) := by
  rw [cexpTypeCast_eq m v t false hptr, if_neg hrows, hc]
  cases hfits : fits m v t with
  | error e => rfl
  | ok b => cases b <;> rfl

theorem fpq_iff_row {t : CexpType} : t.fpq = true ↔ 5 ≤ t.row := by
  rw [CexpType.fpq, row]
  cases t.ptrq with
  | true =>
    rw [if_pos rfl]
    exact ⟨fun h => absurd h Bool.false_ne_true, fun h => absurd h (by decide)⟩
  | false => exact decide_eq_true_iff

/-- Only a floating value has no converter, and only into a pointer or `void`. -/
theorem ctab_isSome (m : Machine) {s t : CexpType} (h : ¬(t.fpq = false ∧ s.fpq = true)) :
    ∃ c, ctab m s.row t.row = some c := by
  by_cases hs : s.row ≤ 4
  · rw [ctab, if_pos hs]
    split
    · exact ⟨_, rfl⟩
    split
    · exact ⟨_, rfl⟩
    · exact ⟨_, rfl⟩
  · have ht : 5 ≤ t.row := by
      rw [← fpq_iff_row]
      by_contra htf
      exact h ⟨by simpa using htf, fpq_iff_row.mpr (by omega)⟩
    have h0 : ¬t.row = 0 := by omega
    have h4 : ¬t.row ≤ 4 := by omega
    rw [ctab, if_neg hs, if_neg h0, if_neg h0, if_neg h4, if_neg h4]
    split
    · split
      · exact ⟨_, rfl⟩
      · exact ⟨_, rfl⟩
    · split
      · exact ⟨_, rfl⟩
      · exact ⟨_, rfl⟩

theorem cast_defined (m : Machine) {v : CexpTypedVal} {t : CexpType}
    (hptr : ¬(v.type.ptrq = true ∧ t.ptrq = true)) (h : CastDefined m.dm v.type t) :
    Defined (fun m => cexpTypeCast m v t false) m := by
  obtain ⟨hs, ht, hfits⟩ := h
  have hrows : ¬(7 ≤ v.type.row ∨ 7 ≤ t.row) := by omega
  cases hc : ctab m v.type.row t.row with
  | none =>
    apply defined_message "forbidden cast"
    intro k l r
    have hc' : ctab (m.reopen k l r) v.type.row t.row = none := hc
    rw [cexpTypeCast_eq _ v t false hptr, if_neg hrows, hc']
  | some c =>
    have heq : ∀ k l r, cexpTypeCast (m.reopen k l r) v t false =
        (fits (m.reopen k l r) v t >>= fun b =>
          if b then .ok (⟨c v.tv, t⟩ : CexpTypedVal) else .error castRefused) := by
      intro k l r
      exact cexpTypeCast_fits (m.reopen k l r) hptr hrows hc
    refine (defined_congr (p := fun m => fits m v t >>= fun b =>
      if b then .ok (⟨c v.tv, t⟩ : CexpTypedVal) else .error castRefused) heq).mpr ?_
    apply (fits_defined m hfits).bind
    intro b _
    cases b with
    | true => exact defined_ok fun _ _ _ => rfl
    | false => exact defined_message _ fun _ _ _ => rfl

/-- A cast that succeeds gives a value of the type asked for. -/
theorem cexpTypeCast_type {m : Machine} {v c : CexpTypedVal} {t : CexpType} {force : Bool}
    (h : cexpTypeCast m v t force = .ok c) : c.type = t := by
  by_cases hptr : v.type.ptrq = true ∧ t.ptrq = true
  · rw [cexpTypeCast_ptrs m force hptr] at h
    split at h
    · cases h
    · rw [← Except.ok.inj h]
  · rw [cexpTypeCast_eq m v t force hptr] at h
    split at h
    · cases h
    split at h
    · cases h
    split at h
    · rw [← Except.ok.inj h]
    split at h
    · cases h
    · cases h
    · rw [← Except.ok.inj h]

/-- A cast that is not defined ends in a fault, or the targets disagree whether it succeeds. -/
theorem cast_open (m : Machine) {v : CexpTypedVal} {t : CexpType}
    (hptr : ¬(v.type.ptrq = true ∧ t.ptrq = true)) (h : ¬CastDefined m.dm v.type t) :
    (∃ e, cexpTypeCast m v t false = .error (.fault e)) ∨
      (¬NarrowDefined m.dm v.type t ∧ Uint m.dm v.type ∧
        ∃ k k' c, ∀ l r, cexpTypeCast (m.reopen k l r) v t false = .error castRefused ∧
          cexpTypeCast (m.reopen k' l r) v t false = .ok ⟨c, t⟩) := by
  by_cases hrows : 7 ≤ v.type.row ∨ 7 ≤ t.row
  · left
    refine ⟨.badIndex, ?_⟩
    rw [cexpTypeCast_eq m v t false hptr, if_pos hrows]
  · have hnot : ¬FitsDefined m.dm v.type t := by
      intro hfits
      exact h ⟨by omega, by omega, hfits⟩
    have hnarrow : ¬NarrowDefined m.dm v.type t := fun hn => hnot (.inr (.inr hn))
    obtain ⟨c, hc⟩ := ctab_isSome m (s := v.type) (t := t) fun hb => hnot (.inr (.inl hb))
    have heq : ∀ k l r, cexpTypeCast (m.reopen k l r) v t false =
        (fitsNarrow (m.reopen k l r) v t >>= fun b =>
          if b then .ok (⟨c v.tv, t⟩ : CexpTypedVal) else .error castRefused) := by
      intro k l r
      rw [cexpTypeCast_fits (m.reopen k l r) hptr hrows hc, fits_open m hnot (m.reopen k l r) rfl]
    rcases fitsNarrow_open m hnarrow with ⟨e, he⟩ | ⟨k, k', hk⟩
    · left
      refine ⟨e, (heq m.oneShl32 m.wideShl m.wideShr).trans ?_⟩
      show (fitsNarrow m v t >>= _) = _
      rw [he]
      rfl
    · right
      refine ⟨hnarrow, ?_, k, k', c v.tv, fun l r => ⟨?_, ?_⟩⟩
      · by_contra hu
        have hk₁ := (hk m.wideShl m.wideShr).1
        have hdefined : NarrowDefined m.dm v.type t := by
          intro hsize
          by_cases hsw : Switched m.dm v.type
          · exact ⟨hsw, fun hu' => absurd hu' hu⟩
          · have hstray := fitsValue_stray (m.reopen k m.wideShl m.wideShr) hsw
            have hfault : fitsNarrow (m.reopen k m.wideShl m.wideShr) v t =
                .error (.fault (.assertFailed "!\"Invalid Type - you found a BUG\"")) := by
              rw [fitsNarrow, hstray]
              exact if_pos hsize
            rw [hfault] at hk₁
            cases hk₁
        exact hnarrow hdefined
      · rw [heq, (hk l r).1]
        rfl
      · rw [heq, (hk l r).2]
        rfl

/-! ## Casts to a widest type -/

variable {dm : DataModel}

theorem CexpType.Switched.le_ulong {s : CexpType} (h : Switched dm s) (hfp : s.fpq = false) :
    s.typeSize dm ≤ dm.longSize := by
  rcases h with h | rfl | rfl
  · exact h.typeSize_le
  · cases hfp
  · cases hfp

theorem CexpType.Switched.le_double {s : CexpType} (h : Switched dm s) : s.typeSize dm ≤ 8 := by
  rcases h with h | rfl | rfl
  · exact h.typeSize_le_eight
  · cases dm <;> decide
  · cases dm <;> decide

/-- A defined cast succeeds where `fits` has nothing to refuse. -/
theorem cast_ok (m : Machine) {v : CexpTypedVal} {t : CexpType}
    (hptr : ¬(v.type.ptrq = true ∧ t.ptrq = true)) (h : CastDefined m.dm v.type t)
    (hfloat : t ≠ TFloat) (hfp : t.fpq = false → v.type.fpq = false)
    (hsize : Switched m.dm v.type → v.type.typeSize m.dm ≤ t.typeSize m.dm) :
    ∃ c, ctab m v.type.row t.row = some c ∧ cexpTypeCast m v t false = .ok ⟨c v.tv, t⟩ := by
  have hback : ¬(t.fpq = false ∧ v.type.fpq = true) := by
    rintro ⟨h₁, h₂⟩
    rw [hfp h₁] at h₂
    cases h₂
  have hrows : ¬(7 ≤ v.type.row ∨ 7 ≤ t.row) := by
    have h₁ := h.1
    have h₂ := h.2.1
    omega
  obtain ⟨c, hc⟩ := ctab_isSome m hback
  have hnarrow : NarrowDefined m.dm v.type t := by
    rcases h.2.2 with ⟨-, -, h'⟩ | h' | h'
    · exact absurd h' hfloat
    · exact absurd h' hback
    · exact h'
  have hwide : ¬t.typeSize m.dm < v.type.typeSize m.dm := by
    intro hlt
    have hle := hsize (hnarrow hlt).1
    omega
  have hfits : fits m v t = .ok true := by
    have hb : ¬(!t.fpq && v.type.fpq) = true := by
      rw [Bool.and_eq_true, Bool.not_eq_true']
      exact hback
    rw [fits_eq, if_neg hfloat, if_neg hb, fitsNarrow_wide m hwide]
    exact ite_self _
  refine ⟨c, hc, ?_⟩
  rw [cexpTypeCast_fits m hptr hrows hc, hfits]
  rfl

/-- Into a type with room for every integer, a cast that is not defined faults. -/
theorem cast_fault (m : Machine) {v : CexpTypedVal} {t : CexpType}
    (hptr : ¬(v.type.ptrq = true ∧ t.ptrq = true)) (h : ¬CastDefined m.dm v.type t)
    (hwide : Uint m.dm v.type → v.type.typeSize m.dm ≤ t.typeSize m.dm) :
    ∃ e, cexpTypeCast m v t false = .error (.fault e) := by
  rcases cast_open m hptr h with he | ⟨hnarrow, hu, -⟩
  · exact he
  · refine absurd ?_ hnarrow
    intro hlt
    have hle := hwide hu
    omega

/-- The type in which two operands are compared. -/
def compareType (dm : DataModel) (f : Bool) : CexpType := if f then TDouble else TULong dm

theorem compareType_facts (dm : DataModel) (f : Bool) :
    (compareType dm f).ptrq = false ∧ (compareType dm f).fpq = f ∧
      compareType dm f ≠ TFloat ∧ dm.longSize ≤ (compareType dm f).typeSize dm ∧
      (f = true → (compareType dm f).typeSize dm = 8) := by
  cases dm <;> cases f <;> decide

theorem compareCast_ok (m : Machine) {v : CexpTypedVal} {f : Bool}
    (hf : v.type.fpq = true → f = true) (h : CastDefined m.dm v.type (compareType m.dm f)) :
    ∃ c, cexpTypeCast m v (compareType m.dm f) false = .ok ⟨c, compareType m.dm f⟩ := by
  obtain ⟨hptr, hfpq, hfloat, hlong, hdouble⟩ := compareType_facts m.dm f
  have hnofp : f = false → v.type.fpq = false := by
    rintro rfl
    by_contra hv
    cases hf (by simpa using hv)
  have hsize : Switched m.dm v.type → v.type.typeSize m.dm ≤ (compareType m.dm f).typeSize m.dm := by
    intro hsw
    cases f with
    | true => exact hsw.le_double.trans (hdouble rfl).ge
    | false => exact (hsw.le_ulong (hnofp rfl)).trans hlong
  obtain ⟨c, -, hc⟩ := cast_ok m (by rw [hptr]; rintro ⟨-, ⟨⟩⟩) h hfloat
    (fun h' => hnofp (hfpq.symm.trans h')) hsize
  exact ⟨c v.tv, hc⟩

theorem compareCast_fault (m : Machine) {v : CexpTypedVal} {f : Bool}
    (h : ¬CastDefined m.dm v.type (compareType m.dm f)) :
    ∃ e, cexpTypeCast m v (compareType m.dm f) false = .error (.fault e) := by
  obtain ⟨hptr, -, -, hlong, -⟩ := compareType_facts m.dm f
  apply cast_fault m _ h
  · intro hu
    exact hu.typeSize_le.trans hlong
  · rw [hptr]
    rintro ⟨-, ⟨⟩⟩

theorem compareCast_defined (m : Machine) {v : CexpTypedVal} {t : CexpType} {f : Bool}
    (ht : t = compareType m.dm f) (h : CastDefined m.dm v.type t) :
    Defined (fun m => cexpTypeCast m v t false) m := by
  apply cast_defined m _ h
  rw [ht, (compareType_facts m.dm f).1]
  rintro ⟨-, ⟨⟩⟩

end Cexp
