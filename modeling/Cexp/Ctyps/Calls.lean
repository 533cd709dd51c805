import Cexp.Ctyps.Arith
import Cexp.Ctyps.Defined
import Cexp.Lib.Mask

/-!
# Function calls

The portable `cexpTVFnCall` of `ctyps.c` calls a function with floating arguments through a table of
wrappers that the program `gentab.c` writes: one for each pattern of `unsigned long` and `double`
among `MAXBITS` arguments. The generator numbers the patterns by reading a mask from its highest bit
down, `cexpTVFnCall` shifts one bit for each argument into a mask, and one more for each missing
argument. A call with integer arguments only does not need the table.

`gentab.c` is modelled by the data it prints: names are lists of characters, and a wrapper is its
name with the members its arguments are read from.
-/

namespace Cexp

open CexpType CLib

/-! ## The generated table -/

/-- The letter of a member of the union: `l` or `d`. -/
def ch (double : Bool) : Char := if double then 'd' else 'l'

/-- The name of the wrapper of a pattern. -/
def fnam (mask : Nat) : List Char := (powersDown MAXBITS).map fun i => ch (mask &&& i != 0)

/-- The arguments that a wrapper passes on: the number `j` of its parameter `a<j>`, and whether the
member `d` is read from it. -/
def callargs (mask : Nat) : List (Nat × Bool) :=
  ((powersDown MAXBITS).zipIdx 1).map fun (i, j) => (j, mask &&& i != 0)

/-- A generated function. -/
structure Wrapper where
  name : List Char
  args : List (Nat × Bool)
  deriving DecidableEq, Repr

def genWrapper (mask : Nat) : Wrapper := ⟨fnam mask, callargs mask⟩

/-- The functions of `jumptab.c`. -/
def wrappers : List Wrapper := (List.range (1 <<< MAXBITS)).map genWrapper

/-- The table holds the names in the order of the masks. -/
def jumptab : List (List Char) := (List.range (1 <<< MAXBITS)).map fnam

/-- What the compiler puts into the table for a name. -/
def wrapperNamed (name : List Char) : Option Wrapper := wrappers.find? fun w => w.name = name

/-- Does the wrapper pass its `j`-th parameter, counted from zero, on as a `double` in the `j`-th
place? -/
def Wrapper.Double (w : Wrapper) (j : Nat) : Prop := w.args[j]? = some (j + 1, true)

/-- The arguments that the target gets from a wrapper. -/
def Wrapper.pass (dm : DataModel) (w : Wrapper) (as : List CexpTypedVal) :
    Option (List (Bool × BitVec 64)) :=
  w.args.mapM fun (j, double) => do
    let a ← as[j - 1]?
    return (double, if double then CexpValU.d a.tv else CexpValU.l dm a.tv)

/-! ### Names and members by the mask -/

theorem fnam_eq (mask : Nat) : fnam mask = (digitsDown MAXBITS mask).map ch := by
  rw [← map_powersDown, List.map_map]
  rfl

theorem callargs_eq (mask : Nat) :
    callargs mask = ((digitsDown MAXBITS mask).zipIdx 1).map fun (b, j) => (j, b) := by
  rw [← map_powersDown, List.zipIdx_map, List.map_map]
  rfl

/-- No two wrappers share a name. -/
theorem fnam_inj {k l : Nat} (hk : k < 2 ^ MAXBITS) (hl : l < 2 ^ MAXBITS)
    (h : fnam k = fnam l) : k = l := by
  have hch : Function.Injective ch := by decide
  rw [fnam_eq, fnam_eq] at h
  exact digitsDown_inj hk hl (List.map_injective_iff.mpr hch h)

theorem mem_wrappers {w : Wrapper} :
    w ∈ wrappers ↔ ∃ mask < 2 ^ MAXBITS, genWrapper mask = w := by
  simp [wrappers, Nat.shiftLeft_eq]

/-- The table has the wrapper of a mask in the place of the mask. -/
theorem jumptab_wrapper {mask : Nat} (h : mask < 2 ^ MAXBITS) :
    jumptab[mask]?.bind wrapperNamed = some (genWrapper mask) := by
  have hname : jumptab[mask]? = some (fnam mask) := by
    rw [jumptab, List.getElem?_map, Nat.shiftLeft_eq, Nat.one_mul, List.getElem?_range h]
    rfl
  rw [hname, Option.bind_some]
  have hsome : (wrapperNamed (fnam mask)).isSome = true := by
    rw [wrapperNamed, List.find?_isSome]
    exact ⟨genWrapper mask, mem_wrappers.mpr ⟨mask, h, rfl⟩, by simp [genWrapper]⟩
  obtain ⟨w, hw⟩ := Option.isSome_iff_exists.mp hsome
  obtain ⟨k, hk, rfl⟩ := mem_wrappers.mp (List.mem_of_find?_eq_some hw)
  have hkname : (genWrapper k).name = fnam mask := by simpa using List.find?_some hw
  rw [hw, fnam_inj hk h hkname]

theorem double_genWrapper {mask j : Nat} :
    (genWrapper mask).Double j ↔ (digitsDown MAXBITS mask)[j]? = some true := by
  rw [Wrapper.Double, genWrapper, callargs_eq, List.getElem?_map, List.getElem?_zipIdx]
  cases (digitsDown MAXBITS mask)[j]? with
  | none => simp
  | some b => simp [Nat.add_comm]

/-! ## The caller -/

/-- The loop over the arguments: whether one was left over when it stopped, the mask, and the
arguments after their casts. -/
def argLoop (m : Machine) :
    List CexpTypedVal → Nat → List CexpTypedVal → Except Stop (Bool × Nat × List CexpTypedVal)
  | [], fpargs, args => .ok (false, fpargs, args)
  | v :: vs, fpargs, args =>
    if args.length < MAXARGS then do
      let fpargs := fpargs <<< 1
      if v.type.fpq then
        let v ← cexpTypeCast m v TDouble false
        argLoop m vs (fpargs ||| 1) (args ++ [v])
      else
        let v ← cexpTypeCast m v (TULong m.dm) false
        argLoop m vs fpargs (args ++ [v])
    else .ok (true, fpargs, args)

/-- The integer zero that stands for a missing argument. -/
def zeroArg (dm : DataModel) : CexpTypedVal := ⟨0, TULong dm⟩

/-- How many arguments are passed on: `fpargs? MAXBITS : MAXARGS`. -/
def argSlots (fpargs : Nat) : Nat := if fpargs ≠ 0 then MAXBITS else MAXARGS

theorem argSlots_le (fpargs : Nat) : argSlots fpargs ≤ MAXARGS := by
  unfold argSlots
  split
  · decide
  · exact le_rfl

/-- Pad with zeroes. -/
def padLoop (dm : DataModel) (fpargs : Nat) (args : List CexpTypedVal) : Nat × List CexpTypedVal :=
  if args.length < argSlots fpargs then padLoop dm (fpargs <<< 1) (args ++ [zeroArg dm])
  else (fpargs, args)
termination_by MAXARGS - args.length
decreasing_by
  have hle := argSlots_le fpargs
  rw [List.length_append, List.length_singleton]
  omega

/-- A call of the target: through which wrapper, if any, and what the target sees. -/
structure Call where
  via : Option Wrapper
  frame : CallFrame

/-- The arguments of the direct call, `args[0]` to `args[9]`. -/
def directArgs (dm : DataModel) (as : List CexpTypedVal) : Option (List (Bool × BitVec 64)) :=
  (List.range MAXARGS).mapM fun i => do
    let a ← as[i]?
    return (false, CexpValU.l dm a.tv)

/-- The call itself. `none` where a slot of `args` or of the table would be read that nothing was
written to. -/
def makeCall (dm : DataModel) (fn : CexpTypedVal) (fpargs : Nat) (args : List CexpTypedVal) :
    Option Call := do
  let p := CexpValU.p dm fn.tv
  let retDouble := decide (fn.type = TDFuncP)
  if fpargs ≠ 0 then
    let w ← wrapperNamed (← jumptab[fpargs]?)
    return ⟨some w, p, retDouble, ← w.pass dm (args.take MAXBITS)⟩
  else return ⟨none, p, retDouble, ← directArgs dm args⟩

/-- The calls that the target gets, and the result. `target` is the function that is called. -/
def cexpTVFnCall (m : Machine) (target : CallFrame → BitVec 64) (fn : CexpTypedVal)
    (args : List CexpTypedVal) : List Call × Except Stop CexpTypedVal :=
  if !fn.type.funq then ([], .error (.error "need a function pointer"))
  else if CexpValU.p m.dm fn.tv = 0 then
    ([], .error (.error "reject dereferencing NULL function pointer"))
  else match argLoop m args 0 [] with
  | .error e => ([], .error e)
  | .ok (v, fpargs, as) =>
    if v = true ∨ (fpargs ≠ 0 ∧ MAXBITS < as.length) then
      ([], .error (.error "too many function arguments"))
    else
      let (fpargs, as) := padLoop m.dm fpargs as
      match makeCall m.dm fn fpargs as with
      | none => ([], .error (.fault .badIndex))
      | some c =>
        let r := target c.frame
        ([c], .ok ⟨if c.frame.retDouble then r else CexpValU.l m.dm r, fn.type.ptr2base⟩)

/-! ## What the target sees -/

variable {dm : DataModel}

/-- A member of the union, read as the target gets it. -/
def member (dm : DataModel) (double : Bool) (a : CexpTypedVal) : Bool × BitVec 64 :=
  (double, if double then CexpValU.d a.tv else CexpValU.l dm a.tv)

theorem mapM_eq_some {α β : Type} {f : α → Option β} {g : α → β} {xs : List α}
    (h : ∀ x ∈ xs, f x = some (g x)) : xs.mapM f = some (xs.map g) := by
  induction xs with
  | nil => rfl
  | cons x xs ih =>
    rw [List.mapM_cons, h x List.mem_cons_self,
      ih fun y hy => h y (List.mem_cons_of_mem x hy)]
    rfl

/-- A wrapper reads the member of its pattern from each argument. -/
theorem pass_genWrapper {mask : Nat} {as : List CexpTypedVal} (hlen : as.length = MAXBITS) :
    (genWrapper mask).pass dm as =
      some (List.zipWith (member dm) (digitsDown MAXBITS mask) as) := by
  have hread : ∀ x ∈ (genWrapper mask).args,
      (do let a ← as[x.1 - 1]?
          return (x.2, if x.2 then CexpValU.d a.tv else CexpValU.l dm a.tv)) =
        some (member dm x.2 (as.getD (x.1 - 1) (zeroArg dm))) := by
    intro x hx
    rw [genWrapper, callargs_eq] at hx
    obtain ⟨⟨b, j⟩, hmem, rfl⟩ := List.mem_map.mp hx
    have hj := List.mem_zipIdx hmem
    rw [length_digitsDown] at hj
    have hlt : j - 1 < as.length := by omega
    rw [List.getElem?_eq_getElem hlt, List.getD_eq_getElem _ _ hlt]
    rfl
  refine (mapM_eq_some hread).trans (congrArg some ?_)
  rw [genWrapper, callargs_eq]
  apply List.ext_getElem
  · simp [hlen]
  · intro j hj hj'
    have hlt : j < as.length := by simpa [hlen] using hj
    simp [hlt]

theorem directArgs_eq {as : List CexpTypedVal} (hlen : as.length = MAXARGS) :
    directArgs dm as = some (as.map (member dm false)) := by
  have hread : ∀ i ∈ List.range MAXARGS, (do let a ← as[i]?; return (false, CexpValU.l dm a.tv)) =
      some (member dm false (as.getD i (zeroArg dm))) := by
    intro i hi
    have hlt : i < as.length := by
      rw [hlen]
      exact List.mem_range.mp hi
    rw [List.getElem?_eq_getElem hlt, List.getD_eq_getElem _ _ hlt]
    rfl
  refine (mapM_eq_some hread).trans (congrArg some ?_)
  apply List.ext_getElem
  · simp [hlen]
  · intro j hj hj'
    have hlt : j < as.length := by simpa [hlen] using hj
    simp [hlt]

/-- An argument after its cast. -/
def ofCast (dm : DataModel) (c : Bool × BitVec 64) : CexpTypedVal :=
  ⟨c.2, if c.1 then TDouble else TULong dm⟩

/-- An argument of integer class is an `unsigned long`. -/
def Cut (dm : DataModel) (c : Bool × BitVec 64) : Prop := c.1 = false → CexpValU.l dm c.2 = c.2

theorem member_ofCast {c : Bool × BitVec 64} (h : Cut dm c) : member dm c.1 (ofCast dm c) = c := by
  obtain ⟨double, tv⟩ := c
  cases double with
  | true => rfl
  | false => exact congrArg (Prod.mk false) (h rfl)

theorem zipWith_member {cs : List (Bool × BitVec 64)} (h : ∀ c ∈ cs, Cut dm c) :
    List.zipWith (member dm) (cs.map Prod.fst) (cs.map (ofCast dm)) = cs := by
  rw [List.zipWith_map, List.zipWith_self]
  exact (List.map_congr_left fun c hc => member_ofCast (h c hc)).trans (List.map_id cs)

/-- The wrapper through which arguments of these classes are passed. -/
def viaOf (args : List (Bool × BitVec 64)) : Option Wrapper :=
  if args.any Prod.fst then some (genWrapper (shiftIn 0 (args.map Prod.fst))) else none

theorem shiftIn_ne_zero_iff (cs : List (Bool × BitVec 64)) :
    shiftIn 0 (cs.map Prod.fst) ≠ 0 ↔ cs.any Prod.fst = true := by
  rw [ne_eq, shiftIn_eq_zero_iff, List.any_map, Bool.not_eq_false]
  rfl

/-- The mask that the caller has shifted together is the number of the wrapper for the same
arguments. -/
theorem makeCall_eq (fn : CexpTypedVal) {cs : List (Bool × BitVec 64)} (h : ∀ c ∈ cs, Cut dm c)
    (hlen : cs.length = argSlots (shiftIn 0 (cs.map Prod.fst))) :
    makeCall dm fn (shiftIn 0 (cs.map Prod.fst)) (cs.map (ofCast dm)) =
      some ⟨viaOf cs, CexpValU.p dm fn.tv, decide (fn.type = TDFuncP), cs⟩ := by
  unfold makeCall viaOf
  by_cases hany : cs.any Prod.fst = true
  · have hmask := (shiftIn_ne_zero_iff cs).mpr hany
    rw [argSlots, if_pos hmask] at hlen
    have hlt := shiftIn_lt (cs.map Prod.fst)
    rw [List.length_map, hlen] at hlt
    have hdigits := digitsDown_shiftIn 0 (cs.map Prod.fst)
    rw [List.length_map, hlen] at hdigits
    have hlength : (cs.map (ofCast dm)).length = MAXBITS := by rw [List.length_map, hlen]
    have hpass := @pass_genWrapper dm (shiftIn 0 (cs.map Prod.fst)) _ hlength
    rw [hdigits, zipWith_member h] at hpass
    obtain ⟨name, hname, hw⟩ := Option.bind_eq_some_iff.mp (jumptab_wrapper hlt)
    rw [if_pos hmask, if_pos hany, List.take_of_length_le hlength.le, hname]
    show (do
      let w ← wrapperNamed name
      return (⟨some w, CexpValU.p dm fn.tv, decide (fn.type = TDFuncP),
        ← w.pass dm (cs.map (ofCast dm))⟩ : Call)) = _
    rw [hw]
    show (do return (⟨some (genWrapper _), CexpValU.p dm fn.tv, decide (fn.type = TDFuncP),
        ← (genWrapper _).pass dm (cs.map (ofCast dm))⟩ : Call)) = _
    rw [hpass]
    rfl
  · have hmask := mt (shiftIn_ne_zero_iff cs).mp hany
    rw [argSlots, if_neg hmask] at hlen
    have hdirect := @directArgs_eq dm (cs.map (ofCast dm)) (by rw [List.length_map, hlen])
    have hfalse : ∀ c ∈ cs, c.1 = false := by
      intro c hc
      rw [← Bool.not_eq_true]
      exact fun htrue => hany (List.any_eq_true.mpr ⟨c, hc, htrue⟩)
    have hcs : (cs.map (ofCast dm)).map (member dm false) = cs := by
      rw [List.map_map]
      refine (List.map_congr_left fun c hc => ?_).trans (List.map_id cs)
      have hmember := member_ofCast (h c hc)
      rw [hfalse c hc] at hmember
      exact hmember
    rw [hcs] at hdirect
    rw [if_neg hmask, if_neg hany, hdirect]
    rfl

/-! ## The loops -/

theorem argLoop_eq (m : Machine) (vs : List CexpTypedVal) (fpargs : Nat)
    (args : List CexpTypedVal) :
    argLoop m vs fpargs args = (castArgs m (MAXARGS - args.length) vs).map fun cs =>
      (decide (MAXARGS - args.length < vs.length), shiftIn fpargs (cs.map Prod.fst),
        args ++ cs.map (ofCast m.dm)) := by
  induction vs generalizing fpargs args with
  | nil =>
    have hnil : castArgs m (MAXARGS - args.length) [] = .ok [] := by
      cases MAXARGS - args.length <;> rfl
    rw [argLoop, hnil]
    simp [Except.map]
  | cons v vs ih =>
    rw [argLoop]
    by_cases hroom : args.length < MAXARGS
    · obtain ⟨n, hn⟩ : ∃ n, MAXARGS - args.length = n + 1 := ⟨MAXARGS - args.length - 1, by omega⟩
      -- after its cast an argument is the last of `args`, and its class is the lowest bit
      have hstep : ∀ w : CexpTypedVal, ∀ b : Bool, w = ofCast m.dm (b, w.tv) →
          argLoop m vs (2 * fpargs + b.toNat) (args ++ [w]) =
            ((castArgs m n vs).map fun cs => (b, w.tv) :: cs).map fun cs =>
              (decide (n + 1 < (v :: vs).length), shiftIn fpargs (cs.map Prod.fst),
                args ++ cs.map (ofCast m.dm)) := by
        intro w b hw
        have hrest : MAXARGS - (args ++ [w]).length = n := by
          rw [List.length_append, List.length_singleton]
          omega
        rw [ih, hrest]
        cases castArgs m n vs with
        | error e => rfl
        | ok cs => simp [Except.map, ← hw]
      have hshift : fpargs <<< 1 = 2 * fpargs := by
        rw [Nat.shiftLeft_eq, Nat.pow_one, Nat.mul_comm]
      have hor : fpargs <<< 1 ||| 1 = 2 * fpargs + 1 := by
        rw [← Nat.shiftLeft_add_eq_or_of_lt (by decide), hshift]
      rw [if_pos hroom, hn, castArgs]
      by_cases hf : v.type.fpq = true
      · rw [if_pos hf, hf, hor, if_pos rfl]
        cases hcast : cexpTypeCast m v TDouble false with
        | error e => rfl
        | ok w =>
          have htype := cexpTypeCast_type hcast
          exact hstep w true (by rw [ofCast, if_pos rfl, ← htype])
      · rw [if_neg hf, Bool.eq_false_iff.mpr hf, hshift, if_neg Bool.false_ne_true]
        cases hcast : cexpTypeCast m v (TULong m.dm) false with
        | error e => rfl
        | ok w =>
          have htype := cexpTypeCast_type hcast
          exact hstep w false (by rw [ofCast, if_neg Bool.false_ne_true, ← htype])
    · rw [if_neg hroom, Nat.sub_eq_zero_of_le (not_lt.mp hroom), castArgs]
      simp [Except.map]

theorem padLoop_eq (dm : DataModel) (k fpargs : Nat) (args : List CexpTypedVal)
    (h : args.length + k = argSlots fpargs) :
    padLoop dm fpargs args =
      (shiftIn fpargs (List.replicate k false), args ++ List.replicate k (zeroArg dm)) := by
  induction k generalizing fpargs args with
  | zero =>
    rw [padLoop, if_neg (by omega)]
    simp
  | succ k ih =>
    have hslots : argSlots (fpargs <<< 1) = argSlots fpargs := by
      simp [argSlots, Nat.shiftLeft_eq]
    have hstep := ih (fpargs <<< 1) (args ++ [zeroArg dm]) (by
      rw [List.length_append, List.length_singleton, hslots]
      omega)
    rw [padLoop, if_pos (by omega), hstep]
    simp [List.replicate_succ, Nat.shiftLeft_eq, Nat.mul_comm]

/-! ## The frame -/

/-- An argument that is not floating is an `unsigned long` after its cast. -/
theorem cut_of_cast {m : Machine} {v w : CexpTypedVal} (hf : v.type.fpq = false)
    (h : cexpTypeCast m v (TULong m.dm) false = .ok w) : Cut m.dm (false, w.tv) := by
  have hptr : ¬(v.type.ptrq = true ∧ (TULong m.dm).ptrq = true) := by
    rw [(integral_ulong m.dm).facts.ptrq]
    rintro ⟨-, ⟨⟩⟩
  have hcol : (TULong m.dm).row = 4 := by
    cases m.dm <;> decide
  have hrow : v.type.row ≤ 4 := by
    unfold row
    split
    · decide
    · next hv =>
      rw [fpq, Bool.eq_false_iff.mpr hv, Bool.not_false, Bool.true_and, decide_eq_false_iff_not]
        at hf
      have hindx : TFloat.indx = 5 := by decide
      omega
  rw [cexpTypeCast_eq m v _ false hptr, hcol, ctab, if_pos hrow, if_pos (le_refl 4)] at h
  split at h
  · cases h
  · dsimp only at h
    rw [if_neg Bool.false_ne_true] at h
    split at h
    · cases h
    · cases h
    · cases h
      intro
      exact low_low_of_le (longSize_le m.dm) (le_refl _) _

theorem castArgs_spec {m : Machine} {n : Nat} {vs : List CexpTypedVal}
    {cs : List (Bool × BitVec 64)} (h : castArgs m n vs = .ok cs) :
    cs.length = min n vs.length ∧ ∀ c ∈ cs, Cut m.dm c := by
  induction n generalizing vs cs with
  | zero =>
    rw [castArgs] at h
    cases h
    simp
  | succ n ih =>
    cases vs with
    | nil =>
      rw [castArgs] at h
      · cases h
        simp
      · exact Nat.succ_ne_zero n
    | cons v vs =>
      rw [castArgs] at h
      cases hcast : cexpTypeCast m v (if v.type.fpq then TDouble else TULong m.dm) false with
      | error e =>
        rw [hcast] at h
        cases h
      | ok w =>
        cases hrest : castArgs m n vs with
        | error e =>
          rw [hcast, hrest] at h
          cases h
        | ok rest =>
          rw [hcast, hrest] at h
          cases h
          obtain ⟨hlen, hcut⟩ := ih hrest
          refine ⟨by simp [hlen], ?_⟩
          intro c hc
          rcases List.mem_cons.mp hc with rfl | hc
          · cases hf : v.type.fpq with
            | true =>
              intro hfalse
              cases hfalse
            | false =>
              rw [hf, if_neg Bool.false_ne_true] at hcast
              exact cut_of_cast hf hcast
          · exact hcut c hc

/-- The arguments with integer zeroes in the places of the missing ones. -/
def filled (cs : List (Bool × BitVec 64)) : List (Bool × BitVec 64) :=
  cs ++ List.replicate ((if cs.any Prod.fst then MAXBITS else MAXARGS) - cs.length) (false, 0)

theorem argSlots_shiftIn (cs : List (Bool × BitVec 64)) :
    argSlots (shiftIn 0 (cs.map Prod.fst)) = if cs.any Prod.fst then MAXBITS else MAXARGS := by
  unfold argSlots
  exact if_congr (shiftIn_ne_zero_iff cs) rfl rfl

theorem any_filled (cs : List (Bool × BitVec 64)) :
    (filled cs).any Prod.fst = cs.any Prod.fst := by
  rw [filled, List.any_append, List.any_replicate]
  simp

theorem cut_filled {cs : List (Bool × BitVec 64)} (h : ∀ c ∈ cs, Cut dm c) :
    ∀ c ∈ filled cs, Cut dm c := by
  intro c hc
  rcases List.mem_append.mp hc with hc | hc
  · exact h c hc
  · rw [List.eq_of_mem_replicate hc]
    intro
    exact BitVec.zero_and

theorem length_filled {cs : List (Bool × BitVec 64)}
    (h : cs.length ≤ if cs.any Prod.fst then MAXBITS else MAXARGS) :
    (filled cs).length = if cs.any Prod.fst then MAXBITS else MAXARGS := by
  rw [filled, List.length_append, List.length_replicate]
  omega

theorem padLoop_cast {cs : List (Bool × BitVec 64)}
    (h : cs.length ≤ if cs.any Prod.fst then MAXBITS else MAXARGS) :
    padLoop dm (shiftIn 0 (cs.map Prod.fst)) (cs.map (ofCast dm)) =
      (shiftIn 0 ((filled cs).map Prod.fst), (filled cs).map (ofCast dm)) := by
  have hpad := padLoop_eq dm ((if cs.any Prod.fst then MAXBITS else MAXARGS) - cs.length)
    (shiftIn 0 (cs.map Prod.fst)) (cs.map (ofCast dm)) (by
      rw [List.length_map, argSlots_shiftIn]
      omega)
  rw [hpad, filled, List.map_append, List.map_append, shiftIn_append, List.map_replicate,
    List.map_replicate]
  rfl

/-- More arguments than there are places for them. -/
def TooMany (args : List CexpTypedVal) (cs : List (Bool × BitVec 64)) : Prop :=
  MAXARGS < args.length ∨ (cs.any Prod.fst = true ∧ MAXBITS < cs.length)

instance (args : List CexpTypedVal) (cs : List (Bool × BitVec 64)) : Decidable (TooMany args cs) :=
  inferInstanceAs (Decidable (_ ∨ _))

theorem callFrame_of_castArgs {m : Machine} {fn : CexpTypedVal} {args : List CexpTypedVal}
    (hfun : fn.type.funq = true) (hnull : CexpValU.p m.dm fn.tv ≠ 0) {cs : List (Bool × BitVec 64)}
    (h : castArgs m MAXARGS args = .ok cs) :
    callFrame m fn args = if TooMany args cs then .error (.error "too many function arguments")
      else .ok ⟨CexpValU.p m.dm fn.tv, decide (fn.type = TDFuncP), filled cs⟩ := by
  rw [callFrame, hfun, if_neg (by decide), if_neg hnull, h]
  rfl

theorem cexpTVFnCall_of_castArgs {m : Machine} {fn : CexpTypedVal} {args : List CexpTypedVal}
    (target : CallFrame → BitVec 64) (hfun : fn.type.funq = true)
    (hnull : CexpValU.p m.dm fn.tv ≠ 0) {cs : List (Bool × BitVec 64)}
    (h : castArgs m MAXARGS args = .ok cs) :
    cexpTVFnCall m target fn args =
      if TooMany args cs then ([], .error (.error "too many function arguments"))
      else
        let frame := ⟨CexpValU.p m.dm fn.tv, decide (fn.type = TDFuncP), filled cs⟩
        ([⟨viaOf (filled cs), frame⟩], .ok ⟨if decide (fn.type = TDFuncP) then target frame
          else CexpValU.l m.dm (target frame), fn.type.ptr2base⟩) := by
  obtain ⟨hlen, hcut⟩ := castArgs_spec h
  have hloop : argLoop m args 0 [] = .ok (decide (MAXARGS < args.length),
      shiftIn 0 (cs.map Prod.fst), cs.map (ofCast m.dm)) := by
    rw [argLoop_eq, List.length_nil, Nat.sub_zero, h]
    rfl
  have hmany : (decide (MAXARGS < args.length) = true ∨
      shiftIn 0 (cs.map Prod.fst) ≠ 0 ∧ MAXBITS < (cs.map (ofCast m.dm)).length) ↔
      TooMany args cs := by
    rw [decide_eq_true_iff, shiftIn_ne_zero_iff, List.length_map]
    rfl
  rw [cexpTVFnCall, hfun, if_neg (by decide), if_neg hnull, hloop]
  refine (if_congr hmany rfl rfl).trans ?_
  by_cases hover : TooMany args cs
  · rw [if_pos hover, if_pos hover]
  · have hfit : cs.length ≤ if cs.any Prod.fst then MAXBITS else MAXARGS := by
      rw [TooMany] at hover
      split
      · next hany => exact not_lt.mp fun hlt => hover (.inr ⟨hany, hlt⟩)
      · exact hlen.le.trans (Nat.min_le_left _ _)
    have hcall := makeCall_eq fn (cut_filled hcut) (by
      rw [argSlots_shiftIn, any_filled, length_filled hfit])
    rw [if_neg hover, if_neg hover, padLoop_cast hfit]
    dsimp only
    rw [hcall]

/-- `cexpTVFnCall` calls the target with the frame that `callFrame` describes, through the wrapper
for its classes, or not at all. -/
theorem cexpTVFnCall_eq (m : Machine) (target : CallFrame → BitVec 64) (fn : CexpTypedVal)
    (args : List CexpTypedVal) :
    cexpTVFnCall m target fn args = match callFrame m fn args with
      | .error e => ([], .error e)
      | .ok frame => ([⟨viaOf frame.args, frame⟩], .ok
          ⟨if frame.retDouble then target frame else CexpValU.l m.dm (target frame),
            fn.type.ptr2base⟩) := by
  have hnot : ¬(!true) = true := by decide
  by_cases hfun : fn.type.funq = true
  · by_cases hnull : CexpValU.p m.dm fn.tv = 0
    · rw [cexpTVFnCall, callFrame, hfun, if_neg hnot, if_neg hnot, if_pos hnull, if_pos hnull]
    · cases hcast : castArgs m MAXARGS args with
      | error e =>
        rw [cexpTVFnCall, callFrame, hfun, if_neg hnot, if_neg hnot, if_neg hnull, if_neg hnull,
          argLoop_eq, List.length_nil, Nat.sub_zero, hcast]
        rfl
      | ok cs =>
        rw [callFrame_of_castArgs hfun hnull hcast,
          cexpTVFnCall_of_castArgs target hfun hnull hcast]
        by_cases hover : TooMany args cs
        · rw [if_pos hover, if_pos hover]
        · rw [if_neg hover, if_neg hover]
  · rw [cexpTVFnCall, callFrame, Bool.eq_false_iff.mpr hfun]
    rfl

/-! ## Marshalling -/

/-- How an argument is passed: a floating one as a `double`, any other as an `unsigned long`. -/
def CexpTypedVal.passed (m : Machine) (v : CexpTypedVal) : Bool × BitVec 64 :=
  if v.type = TDouble then (true, CexpValU.d v.tv)
  else if v.type = TFloat then (true, m.fpu.f2d (CexpValU.f v.tv))
  else (false, v.uint m.dm)

/-- Is any of the arguments floating? -/
def anyFloating (args : List CexpTypedVal) : Bool := args.any fun v => v.type.fpq

/-- What the target gets: where its arguments are, and through which wrapper they were passed. -/
structure Marshalled (m : Machine) (fn : CexpTypedVal) (args : List CexpTypedVal) (c : Call) :
    Prop where
  target : c.frame.fn = CexpValU.p m.dm fn.tv
  length : c.frame.args.length = if anyFloating args then MAXBITS else MAXARGS
  position : ∀ (j : Nat) (v : CexpTypedVal), args[j]? = some v →
    c.frame.args[j]? = some (v.passed m)
  missing : ∀ j, args.length ≤ j → j < c.frame.args.length → c.frame.args[j]? = some (false, 0)
  wrapper : anyFloating args = true → ∃ w ∈ wrappers, c.via = some w ∧
    ∀ j < MAXBITS, w.Double j ↔ ∃ v, args[j]? = some v ∧ v.type.fpq = true
  direct : anyFloating args = false → c.via = none

/-- A floating value is always cast to `double`. -/
theorem castDouble {m : Machine} {v : CexpTypedVal} {c : BitVec 64 → BitVec 64}
    (h : v.type = TFloat ∨ v.type = TDouble) (hc : ctab m v.type.row 6 = some c) :
    cexpTypeCast m v (if v.type.fpq then TDouble else TULong m.dm) false =
      .ok (ofCast m.dm (true, c v.tv)) ∧ true = v.type.fpq := by
  have hfpq : v.type.fpq = true := by
    rcases h with h | h
    · rw [h]
      decide
    · rw [h]
      decide
  have hsize : ¬TDouble.typeSize m.dm < v.type.typeSize m.dm := by
    rcases h with h | h
    · rw [h]
      cases m.dm <;> decide
    · rw [h]
      exact lt_irrefl _
  have hfits : fits m v TDouble = .ok true := by
    have hdouble : TDouble.fpq = true := by decide
    simp only [fits, hfpq, hdouble, hsize]
    rfl
  have hrows : ¬(7 ≤ v.type.row ∨ 7 ≤ TDouble.row) := by
    rcases h with h | h
    · rw [h]
      decide
    · rw [h]
      decide
  have hptr : ¬(v.type.ptrq = true ∧ TDouble.ptrq = true) := by
    rintro ⟨-, htrue⟩
    exact absurd htrue (by decide)
  rw [hfpq, if_pos rfl, cexpTypeCast_fits m hptr hrows hc, hfits]
  exact ⟨rfl, rfl⟩

theorem cast_of_switched {m : Machine} {v : CexpTypedVal} (h : Switched m.dm v.type) :
    cexpTypeCast m v (if v.type.fpq then TDouble else TULong m.dm) false =
      .ok (ofCast m.dm (v.passed m)) ∧ (v.passed m).1 = v.type.fpq := by
  rcases h with h | h | h
  · have hdouble : v.type ≠ TDouble := by
      intro heq
      have hf := h.fpq
      rw [heq] at hf
      exact absurd hf (by decide)
    have hfloat : v.type ≠ TFloat := by
      intro heq
      have hf := h.fpq
      rw [heq] at hf
      exact absurd hf (by decide)
    rw [CexpTypedVal.passed, if_neg hdouble, if_neg hfloat, h.fpq]
    exact ⟨cexpTypeCast_ulong m h, rfl⟩
  · have hdouble : v.type ≠ TDouble := by
      rw [h]
      decide
    have hrow : v.type.row = 5 := by
      rw [h]
      decide
    rw [CexpTypedVal.passed, if_neg hdouble, if_pos h]
    exact castDouble (.inl h) (by rw [hrow]; rfl)
  · have hrow : v.type.row = 6 := by
      rw [h]
      decide
    rw [CexpTypedVal.passed, if_pos h]
    exact castDouble (.inr h) (by rw [hrow]; rfl)

theorem castArgs_passed {m : Machine} (n : Nat) {vs : List CexpTypedVal}
    (h : ∀ v ∈ vs, Switched m.dm v.type) :
    castArgs m n vs = .ok ((vs.take n).map (CexpTypedVal.passed m)) := by
  induction n generalizing vs with
  | zero => rfl
  | succ n ih =>
    cases vs with
    | nil => rfl
    | cons v vs =>
      obtain ⟨hcast, hclass⟩ := cast_of_switched (h v List.mem_cons_self)
      rw [castArgs, hcast, ih fun w hw => h w (List.mem_cons_of_mem v hw), ← hclass]
      rfl

theorem any_passed {m : Machine} {vs : List CexpTypedVal} (h : ∀ v ∈ vs, Switched m.dm v.type) :
    (vs.map (CexpTypedVal.passed m)).any Prod.fst = anyFloating vs := by
  induction vs with
  | nil => rfl
  | cons v vs ih =>
    have hv := (cast_of_switched (h v List.mem_cons_self)).2
    have hvs := ih fun w hw => h w (List.mem_cons_of_mem v hw)
    rw [List.map_cons, List.any_cons, hv, hvs]
    rfl

/-- The one call of a target with arguments for which there is room. -/
theorem marshalled {m : Machine} {fn : CexpTypedVal} {args : List CexpTypedVal}
    (hargs : ∀ v ∈ args, Switched m.dm v.type)
    (hroom : args.length ≤ if anyFloating args then MAXBITS else MAXARGS) :
    Marshalled m fn args ⟨viaOf (filled (args.map (CexpTypedVal.passed m))),
      CexpValU.p m.dm fn.tv, decide (fn.type = TDFuncP),
      filled (args.map (CexpTypedVal.passed m))⟩ := by
  have hany := any_passed hargs
  have hlen := @length_filled (args.map (CexpTypedVal.passed m)) (by
    rw [hany, List.length_map]
    exact hroom)
  rw [hany] at hlen
  have hposition : ∀ (j : Nat) (v : CexpTypedVal), args[j]? = some v →
      (filled (args.map (CexpTypedVal.passed m)))[j]? = some (v.passed m) := by
    intro j v hv
    obtain ⟨hj, -⟩ := List.getElem?_eq_some_iff.mp hv
    rw [filled, List.getElem?_append_left (by rw [List.length_map]; exact hj), List.getElem?_map,
      hv]
    rfl
  have hmissing : ∀ j, args.length ≤ j → j < (filled (args.map (CexpTypedVal.passed m))).length →
      (filled (args.map (CexpTypedVal.passed m)))[j]? = some (false, 0) := by
    intro j hle hj
    rw [filled, List.length_append, List.length_replicate, List.length_map] at hj
    rw [filled, List.getElem?_append_right (by rw [List.length_map]; exact hle), List.length_map,
      List.getElem?_replicate, if_pos (by omega)]
  refine ⟨rfl, hlen, hposition, hmissing, ?_, ?_⟩
  · intro hf
    rw [if_pos hf] at hlen
    have hlt := shiftIn_lt ((filled (args.map (CexpTypedVal.passed m))).map Prod.fst)
    have hdigits := digitsDown_shiftIn 0
      ((filled (args.map (CexpTypedVal.passed m))).map Prod.fst)
    rw [List.length_map, hlen] at hlt hdigits
    refine ⟨_, mem_wrappers.mpr ⟨_, hlt, rfl⟩, ?_, ?_⟩
    · exact if_pos ((any_filled _).trans (hany.trans hf))
    · intro j hj
      rw [double_genWrapper, hdigits, List.getElem?_map]
      by_cases hin : j < args.length
      · have hv := List.getElem?_eq_getElem hin
        have hclass := (cast_of_switched (hargs _ (List.getElem_mem hin))).2
        rw [hposition j _ hv, hv]
        simp [hclass]
      · rw [hmissing j (not_lt.mp hin) (by omega), List.getElem?_eq_none (not_lt.mp hin)]
        simp
  · intro hf
    apply if_neg
    rw [any_filled, hany, hf]
    exact Bool.false_ne_true

/-- A call with more arguments than there are places for fails and does not reach the target; any
other call reaches it once. -/
theorem fnCall_marshals (m : Machine) (target : CallFrame → BitVec 64) {fn : CexpTypedVal}
    {args : List CexpTypedVal} (hfun : fn.type.funq = true) (hnull : CexpValU.p m.dm fn.tv ≠ 0)
    (hargs : ∀ v ∈ args, Switched m.dm v.type) :
    ((MAXARGS < args.length ∨ (anyFloating args = true ∧ MAXBITS < args.length)) →
      cexpTVFnCall m target fn args = ([], .error (.error "too many function arguments"))) ∧
    (¬(MAXARGS < args.length ∨ (anyFloating args = true ∧ MAXBITS < args.length)) →
      ∃ c r, cexpTVFnCall m target fn args = ([c], .ok r) ∧ Marshalled m fn args c) := by
  have hrun := cexpTVFnCall_of_castArgs target hfun hnull (castArgs_passed MAXARGS hargs)
  constructor
  · intro hmany
    rw [hrun, if_pos]
    rcases hmany with hlen | ⟨hf, hlen⟩
    · exact .inl hlen
    · by_cases hlen' : MAXARGS < args.length
      · exact .inl hlen'
      · refine .inr ?_
        rw [List.take_of_length_le (not_lt.mp hlen'), any_passed hargs, List.length_map]
        exact ⟨hf, hlen⟩
  · intro hroom
    rw [not_or] at hroom
    obtain ⟨hlen, hf⟩ := hroom
    rw [List.take_of_length_le (not_lt.mp hlen), if_neg] at hrun
    · refine ⟨_, _, hrun, marshalled hargs ?_⟩
      split
      · next h => exact not_lt.mp fun hlt => hf ⟨h, hlt⟩
      · exact not_lt.mp hlen
    · rw [TooMany, any_passed hargs, List.length_map]
      exact not_or.mpr ⟨hlen, hf⟩

/-- An `int` and a `double`. -/
theorem fnCall_marshals_mixed : ∃ c r,
    cexpTVFnCall (softMachine .lp64) (fun _ => 0) ⟨0x1000, TFuncP .lp64⟩
      [⟨3, TUInt⟩, ⟨0, TDouble⟩] = ([c], .ok r) ∧
    Marshalled (softMachine .lp64) ⟨0x1000, TFuncP .lp64⟩ [⟨3, TUInt⟩, ⟨0, TDouble⟩] c := by
  refine (fnCall_marshals (softMachine .lp64) (fun _ => 0) (by decide) (by decide) ?_).2 (by decide)
  intro v hv
  rcases List.mem_pair.mp hv with rfl | rfl
  · exact .inl (.inl (by decide))
  · exact .inr (.inr rfl)

/-- A call without floating arguments goes to the target itself. -/
theorem integer_call_direct : ∃ c r,
    cexpTVFnCall (softMachine .lp64) (fun _ => 0) ⟨0x1000, TFuncP .lp64⟩ [⟨3, TUInt⟩] =
      ([c], .ok r) ∧ ¬∃ w ∈ wrappers, c.via = some w := by
  have hargs : ∀ v ∈ [CexpTypedVal.mk 3 TUInt], Switched (softMachine .lp64).dm v.type := by
    intro v hv
    rw [List.mem_singleton.mp hv]
    exact .inl (.inl (by decide))
  have hrun := @cexpTVFnCall_of_castArgs (softMachine .lp64) ⟨0x1000, TFuncP .lp64⟩ _ (fun _ => 0)
    (by decide) (by decide) _ (castArgs_passed MAXARGS hargs)
  refine ⟨_, _, hrun, ?_⟩
  rintro ⟨w, -, hw⟩
  cases hw

end Cexp
