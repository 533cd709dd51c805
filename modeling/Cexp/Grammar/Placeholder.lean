import Cexp.Grammar.Eval
import Cexp.Lib.BitStack
import Cexp.Lib.Simulate

/-!
# What an operand that is not evaluated leaves behind

The operand that `&&` or `||` skips is still parsed, and every rule still hands a value
to the rule above it: `$$` as the parser preset it. `placeholder` is that value. A call
that is not made leaves its function pointer, a variable that is not read leaves its
address under the variable's type. The rules above compute with these, so `0 && 2*f()`
multiplies a pointer and `0 && 1/!x` divides by zero.

The register has a bit for each operator whose right operand is being parsed, but only as many as
an `unsigned long`. `Inhibited` says that at each action of an operand some operator that inhibits
it has not been pushed out. Such an operand changes nothing and yields its placeholder, or stops
where the placeholder does (`eval_skips`).
-/

namespace Cexp

open EStateM BitStack

/-- The value, or the reason to stop, that the rules of a node pass up when every `EVAL`
in it is skipped. -/
def placeholder (E : Env) (sym : SymId → CexpTypedAddr) : {c : Cat} → Node c → Except Stop c.Sem
  | _, .number v => pure v
  | _, .func f => pure (⟨(sym f).ptv, (sym f).type⟩ : CexpTypedVal)
  | _, .addr x => cexpTVPtr (sym x)
  | _, .post l op | _, .pre l op => do
    let a ← placeholder E sym l
    pure (E.fixexpAsVal a op)
  | _, .not e => do
    let v ← placeholder E sym e
    notResult E.machine v
  | _, .unop op e => do
    let v ← placeholder E sym e
    cexpTVUnOp E.machine v op
  | _, .cast t e => do
    let t ← t.type E.machine.dm
    let v ← placeholder E sym e
    cexpTypeCast E.machine v t true
  | _, .binop op e₁ e₂ => do
    let v₁ ← placeholder E sym e₁
    let v₂ ← placeholder E sym e₂
    cexpTVBinOp E.machine .none v₁ v₂ op
  | _, .logic k e₁ e₂ => do
    let v₁ ← placeholder E sym e₁
    let left ← cexpTVTrueQ E.machine v₁
    let v₂ ← placeholder E sym e₂
    logicResult E.machine k left v₂
  | _, .assign l e => do
    let _ ← placeholder E sym l
    placeholder E sym e
  | _, .modop l _ e => do
    let a ← placeholder E sym l
    let _ ← placeholder E sym e
    pure (E.lvalAsVal a)
  | _, .create _ e => placeholder E sym e
  | _, .comma e₁ e₂ => do
    let _ ← placeholder E sym e₁
    placeholder E sym e₂
  | _, .call f as => do
    let fn ← placeholder E sym f
    let _ ← placeholder E sym as
    pure fn
  | _, .member x mname as => do
    let _ ← placeholder E sym as
    pure (E.methodAsVal x mname)
  | _, .var x => pure (sym x)
  | _, .deref e => do
    let v ← placeholder E sym e
    derefLval v
  | _, .nil => pure ([] : List CexpTypedVal)
  | _, .cons e as => do
    let v ← placeholder E sym e
    let vs ← placeholder E sym as
    pure (v :: vs : List CexpTypedVal)

/-! ## Inhibited parsing -/

/-- Parsed inside of the open operators `st`, innermost first and `true` if the operator inhibits,
every action of the tree finds one in the register that inhibits it. What follows an operand whose
placeholder makes the parse stop is not parsed. -/
def Inhibited (E : Env) (sym : SymId → CexpTypedAddr) : {c : Cat} → Node c → List Bool → Prop
  | _, .number _, _ | _, .func _, _ | _, .addr _, _ | _, .var _, _ | _, .nil, _ => True
  | _, .not e, st | _, .unop _ e, st | _, .cast _ e, st | _, .deref e, st => Inhibited E sym e st
  | _, .post l _, st | _, .pre l _, st =>
    Inhibited E sym l st ∧ ∀ a, placeholder E sym l = .ok a →
      true ∈ kept E.machine.dm.longBits (guardDepth l) st
  | _, .create _ e, st =>
    Inhibited E sym e st ∧ ∀ v, placeholder E sym e = .ok v →
      true ∈ kept E.machine.dm.longBits (guardDepth e) st
  | _, .member _ _ as, st =>
    Inhibited E sym as st ∧ ∀ vs, placeholder E sym as = .ok vs →
      true ∈ kept E.machine.dm.longBits (guardDepth as) st
  | _, .binop _ e₁ e₂, st | _, .comma e₁ e₂, st =>
    Inhibited E sym e₁ st ∧ ∀ v, placeholder E sym e₁ = .ok v →
      Inhibited E sym e₂ (kept E.machine.dm.longBits (guardDepth e₁) st)
  | _, .cons e as, st =>
    Inhibited E sym e st ∧ ∀ v, placeholder E sym e = .ok v →
      Inhibited E sym as (kept E.machine.dm.longBits (guardDepth e) st)
  | _, .assign l e, st | _, .modop l _ e, st =>
    Inhibited E sym l st ∧ ∀ a, placeholder E sym l = .ok a →
      Inhibited E sym e (kept E.machine.dm.longBits (guardDepth l) st) ∧
      ∀ v, placeholder E sym e = .ok v →
        true ∈ kept E.machine.dm.longBits (max (guardDepth l) (guardDepth e)) st
  | _, .call f as, st =>
    Inhibited E sym f st ∧ ∀ v, placeholder E sym f = .ok v →
      Inhibited E sym as (kept E.machine.dm.longBits (guardDepth f) st) ∧
      ∀ vs, placeholder E sym as = .ok vs →
        true ∈ kept E.machine.dm.longBits (max (guardDepth f) (guardDepth as)) st
  | _, .logic k e₁ e₂, st =>
    Inhibited E sym e₁ st ∧ ∀ v left, placeholder E sym e₁ = .ok v →
      cexpTVTrueQ E.machine v = .ok left →
      Inhibited E sym e₂ (push E.machine.dm.longBits (⟨k, left⟩ : Guard).inhibits
        (kept E.machine.dm.longBits (guardDepth e₁) st))

/-- An operator with room for the whole tree above it inhibits the tree. -/
theorem inhibited_of_room (E : Env) (sym : SymId → CexpTypedAddr) {c : Cat} (n : Node c) :
    ∀ (st : List Bool) (i : Nat), st[i]? = some true →
      i + guardDepth n < E.machine.dm.longBits → Inhibited E sym n st := by
  induction n with
  | number | func | addr | var | nil => exact fun _ _ _ _ => trivial
  | not e ih | unop _ e ih | cast _ e ih | deref e ih => exact ih
  | post l _ ih | pre l _ ih | create _ l ih | member _ _ l ih =>
    exact fun st i hst hi => ⟨ih st i hst hi, fun _ _ => mem_kept hst hi⟩
  | binop _ e₁ e₂ ih₁ ih₂ | comma e₁ e₂ ih₁ ih₂ | cons e₁ e₂ ih₁ ih₂ =>
    intro st i hst hi
    rw [guardDepth] at hi
    exact ⟨ih₁ st i hst (by omega), fun _ _ =>
      ih₂ _ i (kept_getElem? hst (by omega)) (by omega)⟩
  | assign e₁ e₂ ih₁ ih₂ | modop e₁ _ e₂ ih₁ ih₂ | call e₁ e₂ ih₁ ih₂ =>
    intro st i hst hi
    rw [guardDepth] at hi
    exact ⟨ih₁ st i hst (by omega), fun _ _ =>
      ⟨ih₂ _ i (kept_getElem? hst (by omega)) (by omega), fun _ _ => mem_kept hst hi⟩⟩
  | logic k e₁ e₂ ih₁ ih₂ =>
    intro st i hst hi
    rw [guardDepth] at hi
    refine ⟨ih₁ st i hst (by omega), fun v left _ _ => ih₂ _ (i + 1) ?_ (by omega)⟩
    exact push_getElem? (kept_getElem? hst (by omega)) (by omega) _

/-- An operand that nests fewer operators than the register has bits. -/
theorem inhibited_of_guardDepth (E : Env) (sym : SymId → CexpTypedAddr) {c : Cat} {n : Node c}
    (h : guardDepth n < E.machine.dm.longBits) : Inhibited E sym n [true] :=
  inhibited_of_room E sym n [true] 0 rfl (by omega)

/-! ## Steps of the parser -/

/-- The result that the context keeps, and the status. -/
def St.kept (s : St) : CexpTypedVal × Int := (s.rval, s.status)

/-- The register has the value `x`. -/
def Reg (x : Nat) (s : St) : Prop := s.evalInhibit = x

/-- Run from `s`, the parser does what is meant, and the register has the value `x` after it. -/
def Means {α : Type} (x : Nat) (f : Ev α) (y : EStateM Stop World α) (s : St) : Prop :=
  Follows St.world St.kept (Reg x) f y s

section

variable {α β : Type} {x x' : Nat} {s : St}

theorem means_CHECK (hs : Reg x s) (r : Except Stop α) : Means x (CHECK r) (CHECK r) s := by
  cases r with
  | error e => exact ⟨rfl, rfl⟩
  | ok a => exact ⟨rfl, rfl, hs⟩

/-- What the parser looks up in the world. -/
theorem means_read (hs : Reg x s) {f : Ev α} {y : EStateM Stop World α} (r : World → α)
    (hf : f s = .ok (r s.world) s) (hy : y s.world = .ok (r s.world) s.world) :
    Means x f y s := by
  unfold Means Follows
  rw [hf, hy]
  exact ⟨rfl, rfl, hs⟩

theorem means_onWorld (hs : Reg x s) (y : EStateM Stop World α) : Means x (onWorld y) y s := by
  unfold Means Follows onWorld
  cases y s.world with
  | error e w => exact ⟨rfl, rfl⟩
  | ok a w => exact ⟨rfl, rfl, hs⟩

/-- An `EVAL` that is executed. -/
theorem means_EVAL (hs : Reg 0 s) (k : ActionKind) (dflt : α) (stuff : EStateM Stop World α) :
    Means 0 (EVAL k dflt stuff) stuff s := by
  obtain ⟨_, rval, status, world, log⟩ := s
  cases hs
  exact means_onWorld (s := ⟨0, rval, status, world, log ++ [.action k true]⟩) rfl stuff

/-- An `EVAL` that is skipped. -/
theorem means_skip (hs : Reg x s) (hx : x ≠ 0) (k : ActionKind) (dflt : α)
    (stuff : EStateM Stop World α) : Means x (EVAL k dflt stuff) (pure dflt) s := by
  have hrun : s.evalInhibit ≠ 0 := by
    rw [hs]
    exact hx
  unfold Means Follows EVAL
  simp only [hrun, decide_false, if_false, Bool.false_eq_true]
  exact ⟨rfl, rfl, hs⟩

theorem means_noteLeft (hs : Reg x s) (left : Bool) : Means x (noteLeft left) (pure ()) s :=
  ⟨rfl, rfl, hs⟩

theorem means_PSHEVAL (dm : DataModel) (g : Guard) {st : List Bool} (hs : Reg (toNat st) s) :
    Means (toNat (push dm.longBits g.inhibits st)) (PSHEVAL dm g) (pure ()) s := by
  have hW : 0 < dm.longBits := by cases dm <;> decide
  refine ⟨rfl, rfl, ?_⟩
  show s.evalInhibit * 2 % 2 ^ dm.longBits + g.inhibits.toNat = _
  rw [toNat_push hW, hs]

theorem means_POPEVAL {st : List Bool} (hs : Reg (toNat st) s) :
    Means (toNat st.tail) POPEVAL (pure ()) s := by
  refine ⟨rfl, rfl, ?_⟩
  show s.evalInhibit / 2 = _
  rw [hs, toNat_tail]

/-- The end of an operator: the result is there and the register is moved back. -/
theorem means_pop {st : List Bool} (hs : Reg (toNat st) s) (r : Except Stop α) :
    Means (toNat st.tail) (do
      let a ← CHECK r
      POPEVAL
      return a) (CHECK r) s := by
  have h : Means (toNat st.tail) (CHECK r >>= fun a => do POPEVAL; return a : Ev α)
      (CHECK r >>= pure) s :=
    (means_CHECK hs r).bind fun a s₁ _ hs₁ =>
      Follows.left (means_POPEVAL hs₁) fun s₂ _ hs₂ => follows_pure a hs₂
  rwa [bind_pure] at h

end

/-! ## Operands that are not evaluated -/

/-- A result that depends on the symbols and changes nothing. -/
def atSym {α : Type} (r : (SymId → CexpTypedAddr) → Except Stop α) : EStateM Stop World α :=
  fun w => CHECK (r w.sym) w

section

variable {α β : Type} {x x' : Nat} {s : St}

theorem atSym_ok {r : (SymId → CexpTypedAddr) → Except Stop α} {w : World} {a : α}
    (h : r w.sym = .ok a) : atSym r w = .ok a w := by
  show (CHECK (r w.sym) : EStateM Stop World α) w = _
  rw [h]
  rfl

theorem atSym_error {r : (SymId → CexpTypedAddr) → Except Stop α} {w : World} {e : Stop}
    (h : r w.sym = .error e) : atSym r w = .error e w := by
  show (CHECK (r w.sym) : EStateM Stop World α) w = _
  rw [h]
  rfl

theorem eq_of_atSym {r : (SymId → CexpTypedAddr) → Except Stop α} {w w' : World} {a : α}
    (h : atSym r w = .ok a w') : r w.sym = .ok a ∧ w' = w := by
  cases hr : r w.sym with
  | error e =>
    rw [atSym_error hr] at h
    cases h
  | ok b =>
    rw [atSym_ok hr] at h
    cases h
    exact ⟨rfl, rfl⟩

theorem atSym_bind (r : (SymId → CexpTypedAddr) → Except Stop α)
    (t : α → (SymId → CexpTypedAddr) → Except Stop β) :
    atSym (fun sym => r sym >>= fun a => t a sym) = atSym r >>= fun a => atSym (t a) := by
  funext w
  cases h : r w.sym with
  | error e =>
    rw [bind_error (atSym_error h)]
    exact atSym_error (by rw [h]; rfl)
  | ok a =>
    rw [bind_ok (atSym_ok h)]
    show (CHECK (r w.sym >>= fun a => t a w.sym) : EStateM Stop World β) w = _
    rw [h]
    rfl

/-- The rules of a node, one after the other. -/
theorem Means.bind_atSym {f : Ev α} {g : α → Ev β} {r : (SymId → CexpTypedAddr) → Except Stop α}
    {t : α → (SymId → CexpTypedAddr) → Except Stop β} (hf : Means x f (atSym r) s)
    (hg : ∀ a s', r s.world.sym = .ok a → s'.world = s.world → Reg x s' →
      Means x' (g a) (atSym (t a)) s') :
    Means x' (f >>= g) (atSym fun sym => r sym >>= fun a => t a sym) s := by
  rw [atSym_bind]
  refine Follows.bind hf fun a s' hy hs' => ?_
  obtain ⟨ha, hw⟩ := eq_of_atSym hy
  exact hg a s' ha hw hs'

/-- A rule that passes up the value of `f` again. -/
theorem Means.bind_same {f : Ev α} {g : α → Ev α} {r : (SymId → CexpTypedAddr) → Except Stop α}
    (hf : Means x f (atSym r) s)
    (hg : ∀ a s', r s.world.sym = .ok a → s'.world = s.world → Reg x s' →
      Means x' (g a) (atSym fun _ => pure a) s') :
    Means x' (f >>= g) (atSym r) s := by
  have h := hf.bind_atSym hg
  have hsame : (fun sym => r sym >>= fun a => pure a) = r := funext fun sym => bind_pure (r sym)
  rwa [hsame] at h

theorem means_result (hs : Reg x s) (r : Except Stop α) :
    Means x (CHECK r) (atSym fun _ => r) s := means_CHECK hs r

theorem means_value (hs : Reg x s) (a : α) : Means x (pure a : Ev α) (atSym fun _ => pure a) s :=
  follows_pure a hs

theorem reg_ne_zero {st : List Bool} (h : true ∈ st) : toNat st ≠ 0 :=
  fun h0 => toNat_eq_zero.mp h0 h

theorem means_preset {st : List Bool} (hs : Reg (toNat st) s) (hst : true ∈ st) (k : ActionKind)
    (dflt : α) (stuff : EStateM Stop World α) :
    Means (toNat st) (EVAL k dflt stuff) (atSym fun _ => pure dflt) s :=
  means_skip hs (reg_ne_zero hst) k dflt stuff

/-- An assignment that is skipped passes up its value. -/
theorem means_stored {st : List Bool} (hs : Reg (toNat st) s) (hst : true ∈ st) (k : ActionKind)
    (v : α) (stuff : EStateM Stop World Unit) :
    Means (toNat st) (do EVAL k () stuff; pure v) (atSym fun _ => pure v) s :=
  Follows.left (means_skip hs (reg_ne_zero hst) k () stuff) fun _ _ hs' => means_value hs' v

end

/-- The walk over an inhibited operand: every `EVAL` is skipped, the values passed up are the
placeholders, and the world stays as it is, whether the walk succeeds or stops. -/
theorem eval_skips (E : Env) {c : Cat} (n : Node c) :
    ∀ (st : List Bool) (s : St), st.length ≤ E.machine.dm.longBits → Reg (toNat st) s →
      Inhibited E s.world.sym n st →
      Means (toNat (kept E.machine.dm.longBits (guardDepth n) st)) (eval E n)
        (atSym fun sym => placeholder E sym n) s := by
  -- two operands: the register after the first is that of the whole node after the second
  have hpair : ∀ {d₁ d₂ : Nat} {st : List Bool}, kept E.machine.dm.longBits d₂
      (kept E.machine.dm.longBits d₁ st) = kept E.machine.dm.longBits (max d₁ d₂) st :=
    kept_kept _ _ _ _
  have hlen : ∀ {d : Nat} {st : List Bool},
      (kept E.machine.dm.longBits d st).length ≤ E.machine.dm.longBits := length_kept _ _ _
  induction n with
  | number v =>
    intro st s hst hs _
    rw [guardDepth, kept_zero hst]
    exact means_value hs v
  | func f =>
    intro st s hst hs _
    rw [guardDepth, kept_zero hst]
    exact means_read hs (fun w => ⟨(w.sym f).ptv, (w.sym f).type⟩) rfl rfl
  | addr a =>
    intro st s hst hs _
    rw [guardDepth, kept_zero hst]
    exact means_CHECK hs (cexpTVPtr (s.world.sym a))
  | post l op ih | pre l op ih =>
    rintro st s hst hs ⟨hl, hin⟩
    exact (ih st s hst hs hl).bind_atSym fun a s₁ ha _ hs₁ => means_preset hs₁ (hin a ha) _ _ _
  | not e ih | unop op e ih | deref e ih =>
    exact fun st s hst hs he => (ih st s hst hs he).bind_atSym fun v s₁ _ _ hs₁ =>
      means_result hs₁ _
  | cast t e ih =>
    intro st s hst hs he
    refine (means_result hs _).bind_atSym fun t s₁ _ hw hs₁ => ?_
    exact (ih st s₁ hst hs₁ (hw ▸ he)).bind_atSym fun v s₂ _ _ hs₂ => means_result hs₂ _
  | binop op e₁ e₂ ih₁ ih₂ =>
    rintro st s hst hs ⟨h₁, h₂⟩
    rw [guardDepth, ← hpair]
    refine (ih₁ st s hst hs h₁).bind_atSym fun v s₁ hv hw hs₁ => ?_
    exact (ih₂ _ s₁ hlen hs₁ (hw ▸ h₂ v hv)).bind_atSym fun _ s₂ _ _ hs₂ => means_result hs₂ _
  | logic k e₁ e₂ ih₁ ih₂ =>
    rintro st s hst hs ⟨h₁, h₂⟩
    rw [guardDepth, ← hpair]
    refine (ih₁ st s hst hs h₁).bind_atSym fun v s₁ hv hw₁ hs₁ =>
      (means_result hs₁ _).bind_atSym fun left s₂ hleft hw₂ hs₂ => ?_
    refine Follows.left (means_noteLeft hs₂ left) fun s₃ hw₃ hs₃ =>
      Follows.left (means_PSHEVAL _ ⟨k, left⟩ hs₃) fun s₄ hw₄ hs₄ => ?_
    have hsym : s₄.world = s.world := ((hw₄.trans hw₃).trans hw₂).trans hw₁
    rw [← tail_kept_push _ _ (⟨k, left⟩ : Guard).inhibits]
    exact (ih₂ _ s₄ (length_push _ _ _) hs₄ (hsym ▸ h₂ v left hv hleft)).bind_atSym
      fun u s₅ _ _ hs₅ => means_pop hs₅ (logicResult E.machine k left u)
  | assign l e ih₁ ih₂ =>
    rintro st s hst hs ⟨h₁, h₂⟩
    rw [guardDepth, ← hpair]
    refine (ih₁ st s hst hs h₁).bind_atSym fun a s₁ ha hw hs₁ => ?_
    refine (ih₂ _ s₁ hlen hs₁ (hw ▸ (h₂ a ha).1)).bind_same fun v s₂ hv _ hs₂ => ?_
    refine means_stored hs₂ ?_ .assign v (assignAction E.machine a v)
    rw [hpair]
    exact (h₂ a ha).2 v (hw ▸ hv)
  | modop l op e ih₁ ih₂ =>
    rintro st s hst hs ⟨h₁, h₂⟩
    rw [guardDepth, ← hpair]
    refine (ih₁ st s hst hs h₁).bind_atSym fun a s₁ ha hw hs₁ => ?_
    refine (ih₂ _ s₁ hlen hs₁ (hw ▸ (h₂ a ha).1)).bind_atSym fun v s₂ hv _ hs₂ => ?_
    refine means_preset hs₂ ?_ _ _ _
    rw [hpair]
    exact (h₂ a ha).2 v (hw ▸ hv)
  | create name e ih =>
    rintro st s hst hs ⟨he, hin⟩
    exact (ih st s hst hs he).bind_same fun v s₁ hv _ hs₁ =>
      means_stored hs₁ (hin v hv) .create v (createAction E name v)
  | comma e₁ e₂ ih₁ ih₂ =>
    rintro st s hst hs ⟨h₁, h₂⟩
    rw [guardDepth, ← hpair]
    exact (ih₁ st s hst hs h₁).bind_atSym fun v s₁ hv hw hs₁ => ih₂ _ s₁ hlen hs₁ (hw ▸ h₂ v hv)
  | call f as ih₁ ih₂ =>
    rintro st s hst hs ⟨h₁, h₂⟩
    rw [guardDepth, ← hpair]
    refine (ih₁ st s hst hs h₁).bind_atSym fun v s₁ hv hw hs₁ => ?_
    refine (ih₂ _ s₁ hlen hs₁ (hw ▸ (h₂ v hv).1)).bind_atSym fun vs s₂ hvs _ hs₂ => ?_
    refine means_preset hs₂ ?_ _ _ _
    rw [hpair]
    exact (h₂ v hv).2 vs (hw ▸ hvs)
  | member a mname as ih =>
    rintro st s hst hs ⟨has, hin⟩
    exact (ih st s hst hs has).bind_atSym fun vs s₁ hvs _ hs₁ =>
      means_preset hs₁ (hin vs hvs) _ _ _
  | var a =>
    intro st s hst hs _
    rw [guardDepth, kept_zero hst]
    exact means_read hs (fun w => w.sym a) rfl rfl
  | nil =>
    intro st s hst hs _
    rw [guardDepth, kept_zero hst]
    exact means_value hs _
  | cons e as ih₁ ih₂ =>
    rintro st s hst hs ⟨h₁, h₂⟩
    rw [guardDepth, ← hpair]
    refine (ih₁ st s hst hs h₁).bind_atSym fun v s₁ hv hw hs₁ => ?_
    exact (ih₂ _ s₁ hlen hs₁ (hw ▸ h₂ v hv)).bind_atSym fun vs s₂ _ _ hs₂ => means_value hs₂ _

/-- A left operand that decides is not followed by a test of the right one. -/
theorem logicResult_of_inhibits {m : Machine} {k : Logic} {left : Bool}
    (h : ¬ (⟨k, left⟩ : Guard).Passes) (b : CexpTypedVal) :
    logicResult m k left b = .ok ⟨ofBool (k = .or), CexpType.TULong m.dm⟩ := by
  cases k <;> cases left <;> simp_all [Guard.Passes, logicResult]

/-! ## Lines -/

section

variable {E : Env} {e : Node .exp} {s s₁ : St} {v : CexpTypedVal} {stop : Stop}

/-- A line ends as its expression does, but for the casts that print the value. -/
theorem parseLine_commaexp_error (h : eval E e s = .error stop s₁) :
    parseLine E (.commaexp e) s = .error stop s₁ := by
  have hline : evalLine E (.commaexp e) s = .error stop s₁ := by
    rw [evalLine, bind_error h]
    rfl
  rw [parseLine, bind_error hline]

theorem parseLine_unprintable (heval : eval E e s = .ok v s₁)
    (hprint : printCast E.machine v = .error stop) :
    parseLine E (.commaexp e) s = .error stop s₁ := by
  have hline : evalLine E (.commaexp e) s = .error stop s₁ := by
    rw [evalLine, bind_ok heval, hprint]
    rfl
  rw [parseLine, bind_error hline]

theorem parseLine_printed (heval : eval E e s = .ok v s₁)
    (hprint : printCast E.machine v = .ok ()) :
    parseLine E (.commaexp e) s =
      .ok v { s₁ with rval := if v.type = CexpType.TVoid then s₁.rval else v, status := 0 } := by
  have hline : evalLine E (.commaexp e) s = .ok v s₁ := by
    rw [evalLine, bind_ok heval, hprint]
    rfl
  rw [parseLine, bind_ok hline]
  rfl

end

end Cexp
