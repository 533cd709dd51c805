import Cexp.Grammar.Placeholder

/-!
# The meaning of an expression

`meaning` says what an expression means without a word about parsing: `&&` and `||` evaluate
their right operand or they do not. What becomes of an operand that is not evaluated is a
parameter. In C it is nothing (`drop`); here its placeholder must pass the rules of the type
engine (`check`).

The parser has evaluated the left operand when it meets the right one and must walk over it in
any case. If its register inhibits all operands that C leaves out (`leftOut`), it gives the tree
the meaning with `check` (`eval_meaning`); it does so in every tree that nests no more operators
than the register has bits (`leftOut_inhibited`). Whatever that meaning succeeds with is what the
expression is in C (`meaning_mono`, `check_okLe_drop`).
-/

namespace Cexp

open EStateM BitStack

/-! ## Expressions -/

/-- What becomes of an operand that is not evaluated. -/
abbrev Skip := Node .exp → EStateM Stop World Unit

/-- The truth value that `&&` and `||` leave. -/
def truth (m : Machine) (v : CexpTypedVal) : Except Stop CexpTypedVal :=
  match cexpTVTrueQ m v with
  | .ok r => .ok ⟨ofBool r, CexpType.TULong m.dm⟩
  | .error e => .error e

def meaning (E : Env) (skip : Skip) : {c : Cat} → Node c → EStateM Stop World c.Sem
  | _, .number v => pure v
  | _, .func f => fun w => .ok (⟨(w.sym f).ptv, (w.sym f).type⟩ : CexpTypedVal) w
  | _, .addr x => fun w => CHECK (cexpTVPtr (w.sym x)) w
  | _, .post l op => do
    let a ← meaning E skip l
    postfixAction E.machine a op
  | _, .pre l op => do
    let a ← meaning E skip l
    prefixAction E.machine a op
  | _, .not e => do
    let v ← meaning E skip e
    CHECK (notResult E.machine v)
  | _, .unop op e => do
    let v ← meaning E skip e
    CHECK (cexpTVUnOp E.machine v op)
  | _, .cast t e => do
    let t ← CHECK (t.type E.machine.dm)
    let v ← meaning E skip e
    CHECK (cexpTypeCast E.machine v t true)
  | _, .binop op e₁ e₂ => do
    let v₁ ← meaning E skip e₁
    let v₂ ← meaning E skip e₂
    CHECK (cexpTVBinOp E.machine .none v₁ v₂ op)
  | _, .logic k e₁ e₂ => do
    let v₁ ← meaning E skip e₁
    let left ← CHECK (cexpTVTrueQ E.machine v₁)
    if (⟨k, left⟩ : Guard).Passes then
      let v₂ ← meaning E skip e₂
      CHECK (truth E.machine v₂)
    else
      skip e₂
      return ⟨ofBool (k = .or), CexpType.TULong E.machine.dm⟩
  | _, .assign l e => do
    let a ← meaning E skip l
    let v ← meaning E skip e
    assignAction E.machine a v
    return v
  | _, .modop l op e => do
    let a ← meaning E skip l
    let v ← meaning E skip e
    modopAction E.machine a op v
  | _, .create name e => do
    let v ← meaning E skip e
    createAction E name v
    return v
  | _, .comma e₁ e₂ => do
    let _ ← meaning E skip e₁
    meaning E skip e₂
  | _, .call f as => do
    let fn ← meaning E skip f
    let args ← meaning E skip as
    callAction E fn args
  | _, .member x mname as => do
    let args ← meaning E skip as
    memberAction E x mname args
  | _, .var x => fun w => .ok (w.sym x) w
  | _, .deref e => do
    let v ← meaning E skip e
    CHECK (derefLval v)
  | _, .nil => pure ([] : List CexpTypedVal)
  | _, .cons e as => do
    let v ← meaning E skip e
    let vs ← meaning E skip as
    pure (v :: vs : List CexpTypedVal)

/-- As in C. -/
def drop : Skip := fun _ => pure ()

/-- The placeholder of the operand must pass. -/
def check (E : Env) : Skip := fun e => do
  let _ ← atSym fun sym => placeholder E sym e
  pure ()

/-- The less is asked of operands that are not evaluated, the more expressions have a value, and
no value changes. -/
theorem meaning_mono (E : Env) {skip skip' : Skip} (h : ∀ e, OkLe (skip e) (skip' e)) {c : Cat}
    (n : Node c) : OkLe (meaning E skip n) (meaning E skip' n) := by
  induction n with
  | number | func | addr | var | nil => exact .refl _
  | post l op ih | pre l op ih => exact ih.bind fun _ => .refl _
  | not e ih | unop _ e ih | deref e ih => exact ih.bind fun _ => .refl _
  | cast t e ih => exact (OkLe.refl _).bind fun _ => ih.bind fun _ => .refl _
  | binop op e₁ e₂ ih₁ ih₂ => exact ih₁.bind fun _ => ih₂.bind fun _ => .refl _
  | logic k e₁ e₂ ih₁ ih₂ =>
    exact ih₁.bind fun v₁ => (OkLe.refl _).bind fun left =>
      OkLe.ite (ih₂.bind fun _ => .refl _) ((h e₂).bind fun _ => .refl _)
  | assign l e ih₁ ih₂ => exact ih₁.bind fun _ => ih₂.bind fun _ => .refl _
  | modop l op e ih₁ ih₂ => exact ih₁.bind fun _ => ih₂.bind fun _ => .refl _
  | create name e ih => exact ih.bind fun _ => .refl _
  | comma e₁ e₂ ih₁ ih₂ => exact ih₁.bind fun _ => ih₂
  | call f as ih₁ ih₂ => exact ih₁.bind fun _ => ih₂.bind fun _ => .refl _
  | member x mname as ih => exact ih.bind fun _ => .refl _
  | cons e as ih₁ ih₂ => exact ih₁.bind fun _ => ih₂.bind fun _ => .refl _

theorem check_okLe_drop (E : Env) (e : Node .exp) : OkLe (check E e) (drop e) := by
  intro w a w' h
  unfold check at h
  cases hp : placeholder E w.sym e with
  | error err =>
    rw [bind_error (atSym_error hp)] at h
    cases h
  | ok v =>
    rw [bind_ok (atSym_ok hp)] at h
    exact h

/-! ## Operands that are left out -/

/-- What comes after a computation that succeeds. -/
def onOk {α β : Type} (r : EStateM.Result Stop World α) (f : α → World → List β) : List β :=
  match r with
  | .ok a w => f a w
  | .error _ _ => []

/-- The right operands that C does not evaluate, each with the world in which it is left out. -/
def leftOut (E : Env) : {c : Cat} → Node c → World → List (Node .exp × World)
  | _, .number _, _ | _, .func _, _ | _, .addr _, _ | _, .var _, _ | _, .nil, _ => []
  | _, .post l _, w | _, .pre l _, w => leftOut E l w
  | _, .not e, w | _, .unop _ e, w | _, .cast _ e, w | _, .create _ e, w | _, .deref e, w =>
    leftOut E e w
  | _, .member _ _ as, w => leftOut E as w
  | _, .binop _ e₁ e₂, w | _, .comma e₁ e₂, w =>
    leftOut E e₁ w ++ onOk (meaning E drop e₁ w) fun _ w₁ => leftOut E e₂ w₁
  | _, .assign l e, w | _, .modop l _ e, w =>
    leftOut E l w ++ onOk (meaning E drop l w) fun _ w₁ => leftOut E e w₁
  | _, .call f as, w => leftOut E f w ++ onOk (meaning E drop f w) fun _ w₁ => leftOut E as w₁
  | _, .cons e as, w => leftOut E e w ++ onOk (meaning E drop e w) fun _ w₁ => leftOut E as w₁
  | _, .logic k e₁ e₂, w =>
    leftOut E e₁ w ++ onOk (meaning E drop e₁ w) fun v w₁ =>
      match cexpTVTrueQ E.machine v with
      | .ok left => if (⟨k, left⟩ : Guard).Passes then leftOut E e₂ w₁ else [(e₂, w₁)]
      | .error _ => []

/-- The register inhibits every operand that is left out. -/
def AllInhibited (E : Env) (ops : List (Node .exp × World)) : Prop :=
  ∀ p ∈ ops, Inhibited E p.2.sym p.1 [true]

theorem allInhibited_append {E : Env} {ops ops' : List (Node .exp × World)} :
    AllInhibited E (ops ++ ops') ↔ AllInhibited E ops ∧ AllInhibited E ops' :=
  List.forall_mem_append

theorem mem_onOk {α β : Type} {r : EStateM.Result Stop World α} {f : α → World → List β} {b : β}
    (h : b ∈ onOk r f) : ∃ a w, r = .ok a w ∧ b ∈ f a w := by
  cases r with
  | error e w => cases h
  | ok a w => exact ⟨a, w, rfl, h⟩

/-- What is left out nests fewer operators than the tree, for it is a right operand. -/
theorem guardDepth_leftOut {E : Env} {p : Node .exp × World} {c : Cat} (n : Node c) :
    ∀ w, p ∈ leftOut E n w → guardDepth p.1 < guardDepth n := by
  induction n with
  | number | func | addr | var | nil =>
    intro w h
    cases h
  | post l _ ih | pre l _ ih | not l ih | unop _ l ih | cast _ l ih | create _ l ih | deref l ih
  | member _ _ l ih => exact ih
  | binop _ e₁ e₂ ih₁ ih₂ | comma e₁ e₂ ih₁ ih₂ | assign e₁ e₂ ih₁ ih₂ | modop e₁ _ e₂ ih₁ ih₂
  | call e₁ e₂ ih₁ ih₂ | cons e₁ e₂ ih₁ ih₂ =>
    intro w h
    rcases List.mem_append.mp h with h | h
    · exact (ih₁ w h).trans_le (le_max_left _ _)
    · obtain ⟨_, w₁, -, h⟩ := mem_onOk h
      exact (ih₂ w₁ h).trans_le (le_max_right _ _)
  | logic k e₁ e₂ ih₁ ih₂ =>
    intro w h
    rw [guardDepth]
    rcases List.mem_append.mp h with h | h
    · exact (ih₁ w h).trans_le (le_max_left _ _)
    · obtain ⟨v, w₁, -, h⟩ := mem_onOk h
      have hlt : guardDepth p.1 < guardDepth e₂ + 1 := by
        cases ht : cexpTVTrueQ E.machine v with
        | error e =>
          rw [ht] at h
          cases h
        | ok left =>
          rw [ht] at h
          dsimp only at h
          split at h
          · exact Nat.lt_succ_of_lt (ih₂ w₁ h)
          · rw [List.mem_singleton.mp h]
            exact Nat.lt_succ_self _
      exact hlt.trans_le (le_max_right _ _)

theorem leftOut_inhibited {E : Env} {c : Cat} {n : Node c} {w : World}
    (h : guardDepth n ≤ E.machine.dm.longBits) : AllInhibited E (leftOut E n w) :=
  fun _ hp => inhibited_of_guardDepth E _ ((guardDepth_leftOut n w hp).trans_le h)

/-! ## Operands that are evaluated -/

/-- A right operand that is evaluated decides. -/
theorem logicResult_of_passes {m : Machine} {k : Logic} {left : Bool}
    (h : (⟨k, left⟩ : Guard).Passes) (v : CexpTypedVal) : logicResult m k left v = truth m v := by
  cases k with
  | and =>
    have hleft : left = true := h
    subst hleft
    rfl
  | or =>
    have hleft : left = false := h
    subst hleft
    rfl

theorem push_nil (dm : DataModel) (b : Bool) : push dm.longBits b [] = [b] := by
  cases dm <;> rfl

/-- The right operand of an operator, on an empty register. -/
theorem means_logic {E : Env} {k : Logic} {left : Bool} {f : Ev CexpTypedVal}
    {y : EStateM Stop World CexpTypedVal} {e : Node .exp} {d : Nat} {s : St} (hs : Reg 0 s)
    (hy : (⟨k, left⟩ : Guard).Passes → ∀ s', s'.world = s.world → Reg 0 s' → Means 0 f y s')
    (hskip : ¬(⟨k, left⟩ : Guard).Passes → ∀ s', s'.world = s.world → Reg (toNat [true]) s' →
      Means (toNat (kept E.machine.dm.longBits d [true])) f
        (atSym fun sym => placeholder E sym e) s') :
    Means 0 (do
      PSHEVAL E.machine.dm ⟨k, left⟩
      let v ← f
      let r ← CHECK (logicResult E.machine k left v)
      POPEVAL
      return r) (if (⟨k, left⟩ : Guard).Passes then do
        let v ← y
        CHECK (truth E.machine v)
      else do
        check E e
        return ⟨ofBool (k = .or), CexpType.TULong E.machine.dm⟩) s := by
  have hempty : Reg (toNat []) s := hs
  have hpush := means_PSHEVAL E.machine.dm ⟨k, left⟩ hempty
  rw [push_nil] at hpush
  by_cases hpass : (⟨k, left⟩ : Guard).Passes
  · rw [if_pos hpass]
    rw [(Guard.passes_iff _).mp hpass] at hpush
    refine Follows.left hpush fun s₁ hw₁ hs₁ => (hy hpass s₁ hw₁ hs₁).bind fun v s₂ _ hs₂ => ?_
    rw [logicResult_of_passes hpass]
    have hone : Reg (toNat [false]) s₂ := hs₂
    exact means_pop hone (truth E.machine v)
  · rw [if_neg hpass]
    rw [Guard.inhibits_of_not_passes hpass] at hpush
    unfold check
    rw [bind_assoc]
    refine Follows.left hpush fun s₁ hw₁ hs₁ => (hskip hpass s₁ hw₁ hs₁).bind fun v s₂ _ hs₂ => ?_
    rw [logicResult_of_inhibits hpass]
    have hpop := means_pop hs₂
      (.ok (⟨ofBool (k = .or), CexpType.TULong E.machine.dm⟩ : CexpTypedVal))
    have htail : (kept E.machine.dm.longBits d [true]).tail = [] := by
      rw [kept]
      cases E.machine.dm.longBits - d with
      | zero => rfl
      | succ m => rw [List.take_succ_cons, List.take_nil, List.tail_cons]
    rwa [htail] at hpop

/-- What comes after an operand with a meaning. -/
theorem onOk_meaning {E : Env} {c : Cat} {n : Node c} {β : Type} {w w₁ : World} {v : c.Sem}
    (h : meaning E (check E) n w = .ok v w₁) (f : c.Sem → World → List β) :
    onOk (meaning E drop n w) f = f v w₁ := by
  rw [meaning_mono E (check_okLe_drop E) n w v w₁ h]
  rfl

/-- With an empty register the parser gives a tree its meaning, if the register inhibits what is
left out. -/
theorem eval_meaning (E : Env) {c : Cat} (n : Node c) :
    ∀ s, Reg 0 s → AllInhibited E (leftOut E n s.world) →
      Means 0 (eval E n) (meaning E (check E) n) s := by
  induction n with
  | number v => exact fun s hs _ => follows_pure v hs
  | func f => exact fun s hs _ => means_read hs (fun w => ⟨(w.sym f).ptv, (w.sym f).type⟩) rfl rfl
  | addr x => exact fun s hs _ => means_CHECK hs (cexpTVPtr (s.world.sym x))
  | post l op ih | pre l op ih =>
    exact fun s hs hall => (ih s hs hall).bind fun a s₁ _ hs₁ => means_EVAL hs₁ _ _ _
  | not e ih | unop op e ih | deref e ih =>
    exact fun s hs hall => (ih s hs hall).bind fun v s₁ _ hs₁ => means_CHECK hs₁ _
  | cast t e ih =>
    intro s hs hall
    refine (means_CHECK hs _).bind fun t s₁ hy hs₁ => ?_
    have hw : s₁.world = s.world := (eq_of_atSym (r := fun _ => _) hy).2
    exact (ih s₁ hs₁ (hw ▸ hall)).bind fun v s₂ _ hs₂ => means_CHECK hs₂ _
  | binop op e₁ e₂ ih₁ ih₂ =>
    intro s hs hall
    obtain ⟨h₁, h₂⟩ := allInhibited_append.mp hall
    refine (ih₁ s hs h₁).bind fun v₁ s₁ hy hs₁ => ?_
    rw [onOk_meaning hy] at h₂
    exact (ih₂ s₁ hs₁ h₂).bind fun v₂ s₂ _ hs₂ => means_CHECK hs₂ _
  | logic k e₁ e₂ ih₁ ih₂ =>
    intro s hs hall
    obtain ⟨h₁, h₂⟩ := allInhibited_append.mp hall
    refine (ih₁ s hs h₁).bind fun v₁ s₁ hy hs₁ => (means_CHECK hs₁ _).bind fun left s₂ hl hs₂ => ?_
    rw [onOk_meaning hy] at h₂
    obtain ⟨hleft, hw₂⟩ := eq_of_atSym (r := fun _ => _) hl
    rw [hleft, ← hw₂] at h₂
    dsimp only at h₂
    refine Follows.left (means_noteLeft hs₂ left) fun s₃ hw₃ hs₃ =>
      means_logic (d := guardDepth e₂) hs₃ ?_ ?_
    · intro hpass s₄ hw₄ hs₄
      rw [if_pos hpass, ← hw₃, ← hw₄] at h₂
      exact ih₂ s₄ hs₄ h₂
    · intro hpass s₄ hw₄ hs₄
      rw [if_neg hpass, ← hw₃, ← hw₄] at h₂
      have hone : [true].length ≤ E.machine.dm.longBits := by
        cases E.machine.dm <;> decide
      exact eval_skips E e₂ [true] s₄ hone hs₄ (h₂ _ (List.mem_singleton.mpr rfl))
  | assign l e ih₁ ih₂ =>
    intro s hs hall
    obtain ⟨h₁, h₂⟩ := allInhibited_append.mp hall
    refine (ih₁ s hs h₁).bind fun a s₁ hy hs₁ => ?_
    rw [onOk_meaning hy] at h₂
    exact (ih₂ s₁ hs₁ h₂).bind fun v s₂ _ hs₂ =>
      (means_EVAL hs₂ .assign () (assignAction E.machine a v)).bind fun _ s₃ _ hs₃ =>
        follows_pure v hs₃
  | modop l op e ih₁ ih₂ =>
    intro s hs hall
    obtain ⟨h₁, h₂⟩ := allInhibited_append.mp hall
    refine (ih₁ s hs h₁).bind fun a s₁ hy hs₁ => ?_
    rw [onOk_meaning hy] at h₂
    exact (ih₂ s₁ hs₁ h₂).bind fun v s₂ _ hs₂ => means_EVAL hs₂ _ _ _
  | create name e ih =>
    exact fun s hs hall => (ih s hs hall).bind fun v s₁ _ hs₁ =>
      (means_EVAL hs₁ .create () (createAction E name v)).bind fun _ s₂ _ hs₂ => follows_pure v hs₂
  | comma e₁ e₂ ih₁ ih₂ =>
    intro s hs hall
    obtain ⟨h₁, h₂⟩ := allInhibited_append.mp hall
    refine (ih₁ s hs h₁).bind fun v s₁ hy hs₁ => ?_
    rw [onOk_meaning hy] at h₂
    exact ih₂ s₁ hs₁ h₂
  | call f as ih₁ ih₂ =>
    intro s hs hall
    obtain ⟨h₁, h₂⟩ := allInhibited_append.mp hall
    refine (ih₁ s hs h₁).bind fun fn s₁ hy hs₁ => ?_
    rw [onOk_meaning hy] at h₂
    exact (ih₂ s₁ hs₁ h₂).bind fun args s₂ _ hs₂ => means_EVAL hs₂ _ _ _
  | member x mname as ih =>
    exact fun s hs hall => (ih s hs hall).bind fun args s₁ _ hs₁ => means_EVAL hs₁ _ _ _
  | var x => exact fun s hs _ => means_read hs (fun w => w.sym x) rfl rfl
  | nil => exact fun s hs _ => follows_pure _ hs
  | cons e as ih₁ ih₂ =>
    intro s hs hall
    obtain ⟨h₁, h₂⟩ := allInhibited_append.mp hall
    refine (ih₁ s hs h₁).bind fun v s₁ hy hs₁ => ?_
    rw [onOk_meaning hy] at h₂
    exact (ih₂ s₁ hs₁ h₂).bind fun vs s₂ _ hs₂ => follows_pure _ hs₂

/-! ## Lines -/

def Line.guardDepth : Line → Nat
  | .commaexp e => Cexp.guardDepth e
  | _ => 0

def Line.leftOut (E : Env) : Line → World → List (Node .exp × World)
  | .commaexp e, w => Cexp.leftOut E e w
  | _, _ => []

theorem Line.leftOut_inhibited {E : Env} {line : Line} {w : World}
    (h : line.guardDepth ≤ E.machine.dm.longBits) : AllInhibited E (line.leftOut E w) := by
  cases line with
  | empty | ident | newdef | redef => exact fun p hp => absurd hp List.not_mem_nil
  | commaexp e => exact Cexp.leftOut_inhibited h

def lineMeaning (E : Env) (skip : Skip) : Line → EStateM Stop World CexpTypedVal
  | .empty => pure voidVal
  | .ident _ => throw (.error "unknown symbol/variable; '=' expected")
  | .newdef t name => do
    let t ← CHECK (t.type E.machine.dm)
    newdefAction E t name
  | .redef t x bang => do
    let t ← CHECK (t.type E.machine.dm)
    redefAction t x
    let a ← (fun w => .ok (w.sym x) w : EStateM Stop World CexpTypedAddr)
    let v ← readAction E.machine a
    if bang then return v
    else throw (.error ": symbol already defined; append '!' to enforce recast\n")
  | .commaexp e => do
    let v ← meaning E skip e
    CHECK (printCast E.machine v)
    return v

theorem evalLine_meaning (E : Env) (line : Line) (s : St) (hs : Reg 0 s)
    (hall : AllInhibited E (line.leftOut E s.world)) :
    Means 0 (evalLine E line) (lineMeaning E (check E) line) s := by
  cases line with
  | empty => exact follows_pure _ hs
  | ident name => exact follows_throw _
  | newdef t name => exact (means_CHECK hs _).bind fun t s₁ _ hs₁ => means_EVAL hs₁ _ _ _
  | redef t x bang =>
    refine (means_CHECK hs _).bind fun t s₁ _ hs₁ => (means_EVAL hs₁ _ _ _).bind fun _ s₂ _ hs₂ =>
      (means_read hs₂ (fun w => w.sym x) rfl rfl).bind fun a s₃ _ hs₃ =>
        (means_onWorld hs₃ _).bind fun v s₄ _ hs₄ => ?_
    cases bang with
    | true => exact follows_pure v hs₄
    | false => exact follows_throw _
  | commaexp e =>
    exact (eval_meaning E e s hs hall).bind fun v s₁ _ hs₁ =>
      (means_CHECK hs₁ _).bind fun _ s₂ _ hs₂ => follows_pure v hs₂

theorem lineMeaning_drop (E : Env) (line : Line) :
    OkLe (lineMeaning E (check E) line) (lineMeaning E drop line) := by
  cases line with
  | empty | ident | newdef | redef => exact .refl _
  | commaexp e =>
    exact (meaning_mono E (check_okLe_drop E) e).bind fun _ => .refl _

/-! ## Sessions -/

/-- The lines are parsed one after the other, whether they succeed or not. -/
def parseLines (E : Env) (ans : SymId) : List Line → St → List (Except Stop CexpTypedVal) × St
  | [], s => ([], s)
  | line :: lines, s =>
    match parseLineAns E ans line s.reset with
    | .ok v s' =>
      let (vs, s'') := parseLines E ans lines s'
      (.ok v :: vs, s'')
    | .error e s' =>
      let (vs, s'') := parseLines E ans lines s'
      (.error e :: vs, s'')

def sessionMeaning (E : Env) (ans : SymId) (skip : Skip) :
    List Line → World → List (Except Stop CexpTypedVal) × World
  | [], w => ([], w)
  | line :: lines, w =>
    match lineMeaning E skip line w with
    | .ok v w' =>
      let (vs, w'') := sessionMeaning E ans skip lines (w'.keep ans v)
      (.ok v :: vs, w'')
    | .error e w' =>
      let (vs, w'') := sessionMeaning E ans skip lines w'
      (.error e :: vs, w'')

section

variable {E : Env} {ans : SymId}

theorem parseLineAns_ok_meaning {line : Line} {s s' : St} {v : CexpTypedVal}
    (hd : line.guardDepth ≤ E.machine.dm.longBits)
    (h : parseLineAns E ans line s.reset = .ok v s') :
    ∃ w, lineMeaning E (check E) line s.world = .ok v w ∧ s'.world = w.keep ans v := by
  have hmeans := evalLine_meaning E line s.reset rfl (Line.leftOut_inhibited hd)
  cases hl : evalLine E line s.reset with
  | error e t =>
    rw [parseLineAns, parseLine, bind_error (bind_error hl)] at h
    cases h
  | ok u t =>
    rw [parseLineAns, bind_ok (show parseLine E line s.reset = _ from bind_ok hl)] at h
    cases h
    exact ⟨t.world, (hmeans.ok hl).1, rfl⟩

theorem parseLineAns_error_meaning {line : Line} {s s' : St} {e : Stop}
    (hd : line.guardDepth ≤ E.machine.dm.longBits)
    (h : parseLineAns E ans line s.reset = .error e s') :
    lineMeaning E (check E) line s.world = .error e s'.world := by
  have hmeans := evalLine_meaning E line s.reset rfl (Line.leftOut_inhibited hd)
  cases hl : evalLine E line s.reset with
  | error e' t =>
    rw [parseLineAns, parseLine, bind_error (bind_error hl)] at h
    cases h
    exact (hmeans.error hl).1
  | ok u t =>
    rw [parseLineAns, bind_ok (show parseLine E line s.reset = _ from bind_ok hl)] at h
    cases h

/-- A session of the parser is the session of the meanings, line by line: all results, all errors
and what they leave in the world. -/
theorem parseLines_meaning (ans : SymId) (lines : List Line) (s : St)
    (hd : ∀ line ∈ lines, line.guardDepth ≤ E.machine.dm.longBits) :
    (parseLines E ans lines s).1 = (sessionMeaning E ans (check E) lines s.world).1 ∧
      (parseLines E ans lines s).2.world = (sessionMeaning E ans (check E) lines s.world).2 := by
  induction lines generalizing s with
  | nil => exact ⟨rfl, rfl⟩
  | cons line lines ih =>
    have hline := hd line List.mem_cons_self
    have hlines : ∀ line ∈ lines, line.guardDepth ≤ E.machine.dm.longBits := fun l hl =>
      hd l (List.mem_cons_of_mem _ hl)
    unfold parseLines sessionMeaning
    cases h : parseLineAns E ans line s.reset with
    | ok v s' =>
      obtain ⟨w, hrun, hworld⟩ := parseLineAns_ok_meaning hline h
      obtain ⟨hvs, hs⟩ := ih s' hlines
      rw [hworld] at hvs hs
      rw [hrun]
      exact ⟨congrArg (.ok v :: ·) hvs, hs⟩
    | error e s' =>
      have hrun := parseLineAns_error_meaning hline h
      obtain ⟨hvs, hs⟩ := ih s' hlines
      rw [hrun]
      exact ⟨congrArg (.error e :: ·) hvs, hs⟩

/-- Where all lines succeed, nothing depends on what becomes of operands that are not
evaluated. -/
theorem sessionMeaning_drop (lines : List Line) (w : World)
    (hok : ∀ r ∈ (sessionMeaning E ans (check E) lines w).1, ∃ v, r = .ok v) :
    sessionMeaning E ans drop lines w = sessionMeaning E ans (check E) lines w := by
  induction lines generalizing w with
  | nil => rfl
  | cons line lines ih =>
    unfold sessionMeaning at hok ⊢
    cases h : lineMeaning E (check E) line w with
    | ok v w' =>
      rw [h] at hok
      rw [lineMeaning_drop E line w v w' h]
      dsimp only at hok ⊢
      rw [ih _ fun r hr => hok r (List.mem_cons_of_mem _ hr)]
    | error e w' =>
      rw [h] at hok
      obtain ⟨v, hv⟩ := hok (.error e) List.mem_cons_self
      cases hv

end

/-- A session of the parser is the session of the meanings that check the operands which are not
evaluated. If all its lines succeed, it is the session of the meanings that C gives them. -/
theorem session_refines (E : Env) (ans : SymId) (lines : List Line) (s : St)
    (hd : ∀ line ∈ lines, line.guardDepth ≤ E.machine.dm.longBits) :
    ((parseLines E ans lines s).1 = (sessionMeaning E ans (check E) lines s.world).1 ∧
      (parseLines E ans lines s).2.world = (sessionMeaning E ans (check E) lines s.world).2) ∧
    ((∀ r ∈ (parseLines E ans lines s).1, ∃ v, r = .ok v) →
      (parseLines E ans lines s).1 = (sessionMeaning E ans drop lines s.world).1 ∧
        (parseLines E ans lines s).2.world = (sessionMeaning E ans drop lines s.world).2) := by
  have hsession := parseLines_meaning ans lines s hd
  refine ⟨hsession, fun hok => ?_⟩
  rw [hsession.1] at hok
  rw [sessionMeaning_drop lines s.world hok]
  exact hsession

/-- `0 && f()`, `1 || f()`, and `ans + 1` with the symbol `1` for `ans` -/
def guardedCalls : List Line :=
  [.commaexp (.logic .and (ulong 0) (.call (.func 0) .nil)),
    .commaexp (.logic .or (ulong 1) (.call (.func 0) .nil)),
    .commaexp (.binop .OAdd (.post (.var 1) .ONoop) (ulong 1))]

theorem session_refines_calls :
    (parseLines hostEnv 1 guardedCalls hostSt).1 =
        (sessionMeaning hostEnv 1 drop guardedCalls hostSt.world).1 ∧
      (parseLines hostEnv 1 guardedCalls hostSt).2.world =
        (sessionMeaning hostEnv 1 drop guardedCalls hostSt.world).2 := by
  refine (session_refines hostEnv 1 guardedCalls hostSt (by decide)).2 ?_
  have hshape : (parseLines hostEnv 1 guardedCalls hostSt).1 =
      [.ok ⟨0, CexpType.TULong .lp64⟩, .ok ⟨1, CexpType.TULong .lp64⟩,
        .ok ⟨2, CexpType.TULong .lp64⟩] := by
    decide +kernel
  rw [hshape]
  simp

end Cexp
