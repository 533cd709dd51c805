import Cexp.Grammar.Placeholder
import Cexp.Ctyps.Arith

/-!
# Compound assignment

`l op= e` computes with its result aliased to the left operand, and reads `l` after `e` has been
evaluated. `compound_agrees_iff` says when it does what `l = l op (e)` does: always, except for the
difference of two pointers, whose element size the aliased result overwrites, and for an lvalue that
cannot be read, where `l = l op (e)` stops before it evaluates `e`.
-/

namespace Cexp

open CexpType CexpBinOp EStateM BitStack

/-! ## What a run depends on -/

/-- Two runs end alike: with the same value in the same world and the register at `x`, or with the
same error in the same world. -/
def EndsAlike {α : Type} (x : Nat) : EStateM.Result Stop St α → EStateM.Result Stop St α → Prop
  | .ok a s, .ok b t => a = b ∧ s.world = t.world ∧ s.evalInhibit = x ∧ t.evalInhibit = x
  | .error e s, .error e' t => e = e' ∧ s.world = t.world
  | _, _ => False

/-- From the register at `x`, a computation looks at the world only and leaves the register at
`x'`. -/
def Blind {α : Type} (x x' : Nat) (f : Ev α) : Prop :=
  ∀ s t, s.world = t.world → s.evalInhibit = x → t.evalInhibit = x → EndsAlike x' (f s) (f t)

section

variable {α β : Type} {x x' x'' : Nat}

theorem Blind.bind {f : Ev α} {g : α → Ev β} (hf : Blind x x' f) (hg : ∀ a, Blind x' x'' (g a)) :
    Blind x x'' (f >>= g) := by
  intro s t hw hs ht
  have h := hf s t hw hs ht
  cases hfs : f s with
  | ok a s' =>
    cases hft : f t with
    | ok b t' =>
      rw [hfs, hft] at h
      obtain ⟨rfl, hw', hs', ht'⟩ := h
      rw [bind_ok hfs, bind_ok hft]
      exact hg a s' t' hw' hs' ht'
    | error e t' =>
      rw [hfs, hft] at h
      cases h
  | error e s' =>
    cases hft : f t with
    | ok b t' =>
      rw [hfs, hft] at h
      cases h
    | error e' t' =>
      rw [hfs, hft] at h
      rw [bind_error hfs, bind_error hft]
      exact h

theorem blind_pure (a : α) : Blind x x (pure a : Ev α) :=
  fun _ _ hw hs ht => ⟨rfl, hw, hs, ht⟩

theorem blind_CHECK (r : Except Stop α) : Blind x x (CHECK r) := by
  intro s t hw hs ht
  cases r with
  | error e => exact ⟨rfl, hw⟩
  | ok a => exact ⟨rfl, hw, hs, ht⟩

/-- A value or an error read from the world. -/
theorem blind_read (r : World → Except Stop α) : Blind x x (fun s => CHECK (r s.world) s) := by
  intro s t hw hs ht
  have hread : CHECK (r s.world) s = CHECK (r t.world) s := by rw [hw]
  have h : EndsAlike x (CHECK (r s.world) s) (CHECK (r t.world) t) := by
    rw [hread]
    exact blind_CHECK (r t.world) s t hw hs ht
  exact h

theorem blind_EVAL (k : ActionKind) (dflt : α) (stuff : EStateM Stop World α) :
    Blind x x (EVAL k dflt stuff) := by
  intro s t hw hs ht
  by_cases hx : x = 0
  · have hs0 : decide (s.evalInhibit = 0) = true := decide_eq_true (hs.trans hx)
    have ht0 : decide (t.evalInhibit = 0) = true := decide_eq_true (ht.trans hx)
    simp only [EVAL, hs0, ht0, if_true, onWorld, hw]
    cases stuff t.world with
    | ok a w => exact ⟨rfl, rfl, hs, ht⟩
    | error e w => exact ⟨rfl, rfl⟩
  · have hs0 : decide (s.evalInhibit = 0) = false := decide_eq_false (hs ▸ hx)
    have ht0 : decide (t.evalInhibit = 0) = false := decide_eq_false (ht ▸ hx)
    simp only [EVAL, hs0, ht0, if_neg Bool.false_ne_true]
    exact ⟨rfl, hw, hs, ht⟩

theorem blind_noteLeft (left : Bool) : Blind x x (noteLeft left) :=
  fun _ _ hw hs ht => ⟨rfl, hw, hs, ht⟩

theorem blind_PSHEVAL {dm : DataModel} (g : Guard) (st : List Bool) :
    Blind (toNat st) (toNat (push dm.longBits g.inhibits st)) (PSHEVAL dm g) := by
  have hW : 0 < dm.longBits := by cases dm <;> decide
  intro s t hw hs ht
  rw [toNat_push hW]
  exact ⟨rfl, hw, by rw [← hs], by rw [← ht]⟩

theorem blind_POPEVAL (st : List Bool) : Blind (toNat st) (toNat st.tail) POPEVAL := by
  intro s t hw hs ht
  rw [← toNat_tail]
  exact ⟨rfl, hw, by rw [← hs], by rw [← ht]⟩

end

/-- Evaluation looks at the world and the register only. -/
theorem eval_blind (E : Env) {c : Cat} (n : Node c) :
    ∀ st : List Bool, st.length ≤ E.machine.dm.longBits →
      Blind (toNat st) (toNat (kept E.machine.dm.longBits (guardDepth n) st)) (eval E n) := by
  -- two operands: the register after the first is that of the whole node after the second
  have hpair : ∀ {d₁ d₂ : Nat} {st : List Bool}, kept E.machine.dm.longBits d₂
      (kept E.machine.dm.longBits d₁ st) = kept E.machine.dm.longBits (max d₁ d₂) st :=
    kept_kept _ _ _ _
  have hlen : ∀ {d : Nat} {st : List Bool},
      (kept E.machine.dm.longBits d st).length ≤ E.machine.dm.longBits := length_kept _ _ _
  induction n with
  | number v => exact fun st hst => by rw [guardDepth, kept_zero hst]; exact blind_pure v
  | func f =>
    intro st hst
    rw [guardDepth, kept_zero hst]
    exact blind_read fun w => .ok (⟨(w.sym f).ptv, (w.sym f).type⟩ : CexpTypedVal)
  | addr a =>
    intro st hst
    rw [guardDepth, kept_zero hst]
    exact blind_read fun w => cexpTVPtr (w.sym a)
  | post l op ih => exact fun st hst => (ih st hst).bind fun a => blind_EVAL _ _ _
  | pre l op ih => exact fun st hst => (ih st hst).bind fun a => blind_EVAL _ _ _
  | not e ih => exact fun st hst => (ih st hst).bind fun v => blind_CHECK _
  | unop op e ih => exact fun st hst => (ih st hst).bind fun v => blind_CHECK _
  | cast t e ih =>
    exact fun st hst => (blind_CHECK _).bind fun t => (ih st hst).bind fun v => blind_CHECK _
  | binop op e₁ e₂ ih₁ ih₂ =>
    intro st hst
    rw [guardDepth, ← hpair]
    exact (ih₁ st hst).bind fun v => (ih₂ _ hlen).bind fun _ => blind_CHECK _
  | logic k e₁ e₂ ih₁ ih₂ =>
    intro st hst
    rw [guardDepth, ← hpair]
    refine (ih₁ st hst).bind fun v => (blind_CHECK _).bind fun left => ?_
    rw [← tail_kept_push _ _ (⟨k, left⟩ : Guard).inhibits]
    exact (blind_noteLeft left).bind fun _ => (blind_PSHEVAL ⟨k, left⟩ _).bind fun _ =>
      (ih₂ _ (length_push _ _ _)).bind fun v => (blind_CHECK _).bind fun u =>
        (blind_POPEVAL _).bind fun _ => blind_pure u
  | assign l e ih₁ ih₂ =>
    intro st hst
    rw [guardDepth, ← hpair]
    exact (ih₁ st hst).bind fun a => (ih₂ _ hlen).bind fun v =>
      (blind_EVAL _ _ _).bind fun _ => blind_pure v
  | modop l op e ih₁ ih₂ =>
    intro st hst
    rw [guardDepth, ← hpair]
    exact (ih₁ st hst).bind fun a => (ih₂ _ hlen).bind fun v => blind_EVAL _ _ _
  | create name e ih =>
    exact fun st hst => (ih st hst).bind fun v => (blind_EVAL _ _ _).bind fun _ => blind_pure v
  | comma e₁ e₂ ih₁ ih₂ =>
    intro st hst
    rw [guardDepth, ← hpair]
    exact (ih₁ st hst).bind fun v => ih₂ _ hlen
  | call f as ih₁ ih₂ =>
    intro st hst
    rw [guardDepth, ← hpair]
    exact (ih₁ st hst).bind fun v => (ih₂ _ hlen).bind fun vs => blind_EVAL _ _ _
  | member a mname as ih => exact fun st hst => (ih st hst).bind fun vs => blind_EVAL _ _ _
  | var a =>
    intro st hst
    rw [guardDepth, kept_zero hst]
    exact blind_read fun w => .ok (w.sym a)
  | deref e ih => exact fun st hst => (ih st hst).bind fun v => blind_CHECK _
  | nil => exact fun st hst => by rw [guardDepth, kept_zero hst]; exact blind_pure _
  | cons e as ih₁ ih₂ =>
    intro st hst
    rw [guardDepth, ← hpair]
    exact (ih₁ st hst).bind fun v => (ih₂ _ hlen).bind fun vs => blind_pure _

/-- An evaluation that is not skipped ends with the register at zero. -/
theorem eval_blind_zero (E : Env) {c : Cat} (n : Node c) : Blind 0 0 (eval E n) := by
  have h := eval_blind E n [] (Nat.zero_le _)
  rwa [kept_nil] at h

/-! ## What a run shows -/

/-- The value or the error, and the world that is left. -/
def seen {α : Type} : EStateM.Result Stop St α → Except Stop α × World
  | .ok a s => (.ok a, s.world)
  | .error e s => (.error e, s.world)

/-- What the evaluation of an expression shows. -/
def outcome (E : Env) (n : Node .exp) (s : St) : Except Stop CexpTypedVal × World :=
  seen (eval E n s)

theorem EndsAlike.seen {α : Type} {x : Nat} {r r' : EStateM.Result Stop St α}
    (h : EndsAlike x r r') :
    seen r = seen r' := by
  cases r with
  | ok a s =>
    cases r' with
    | ok b t => exact Prod.ext (congrArg Except.ok h.1) h.2.1
    | error e t => cases h
  | error e s =>
    cases r' with
    | ok b t => cases h
    | error e' t => exact Prod.ext (congrArg Except.error h.1) h.2

/-- The same value and type, or an error message in both, and the same memory; or both are lost. -/
def Agrees : Except Stop CexpTypedVal × World → Except Stop CexpTypedVal × World → Prop
  | (.ok v, w), (.ok v', w') => v = v' ∧ w = w'
  | (.error (.error _), w), (.error (.error _), w') => w = w'
  | (.error (.fault _), _), (.error (.fault _), _) => True
  | _, _ => False

theorem agrees_self (o : Except Stop CexpTypedVal × World) : Agrees o o := by
  obtain ⟨r, w⟩ := o
  cases r with
  | ok v => exact ⟨rfl, rfl⟩
  | error stop =>
    cases stop with
    | error msg => exact rfl
    | fault e => exact trivial

/-- The operation and the assignment, with both operands at hand. -/
def store (m : Machine) (al : Alias) (a : CexpTypedAddr) (op : CexpBinOp) (v x : CexpTypedVal)
    (w : World) : Except Stop CexpTypedVal × World :=
  match cexpTVBinOp m al v x op with
  | .error e => (.error e, w)
  | .ok r => match cexpTVAssign m w.mem a r with
    | .error e => (.error e, w)
    | .ok mem => (.ok r, { w with mem := mem })

section

variable (E : Env) {l : Node .lval} {e : Node .exp} {op : CexpBinOp} {s s₁ s₂ : St}
  {a : CexpTypedAddr} {v x : CexpTypedVal} {err : Stop}

/-- `l op= e`, after the address of `l`. -/
theorem modop_error (hl : eval E l s = .ok a s₁) (he : eval E e s₁ = .error err s₂) :
    outcome E (.modop l op e) s = (.error err, s₂.world) := by
  have h : eval E (.modop l op e) s = .error err s₂ := (bind_ok hl).trans (bind_error he)
  rw [outcome, h]
  rfl

theorem modop_unreadable (hl : eval E l s = .ok a s₁) (he : eval E e s₁ = .ok x s₂)
    (h0 : s₂.evalInhibit = 0) (hv : cexpTA2TV E.machine s₂.world.mem a = .error err) :
    outcome E (.modop l op e) s = (.error err, s₂.world) := by
  have hrun : decide (s₂.evalInhibit = 0) = true := decide_eq_true h0
  have hread : readAction E.machine a s₂.world = .error err s₂.world := by
    rw [readAction, hv]
  have haction : modopAction E.machine a op x s₂.world = .error err s₂.world := bind_error hread
  have h : eval E (.modop l op e) s =
      EVAL .opAssign (E.lvalAsVal a) (modopAction E.machine a op x) s₂ :=
    (bind_ok hl).trans (bind_ok he)
  rw [outcome, h]
  simp only [EVAL, hrun, if_true, onWorld, haction]
  rfl

theorem modop_store (hl : eval E l s = .ok a s₁) (he : eval E e s₁ = .ok x s₂)
    (h0 : s₂.evalInhibit = 0) (hv : cexpTA2TV E.machine s₂.world.mem a = .ok v) :
    outcome E (.modop l op e) s = store E.machine .x1 a op v x s₂.world := by
  have hrun : decide (s₂.evalInhibit = 0) = true := decide_eq_true h0
  have hread : readAction E.machine a s₂.world = .ok v s₂.world := by
    rw [readAction, hv]
  have h : eval E (.modop l op e) s =
      EVAL .opAssign (E.lvalAsVal a) (modopAction E.machine a op x) s₂ :=
    (bind_ok hl).trans (bind_ok he)
  rw [outcome, h]
  simp only [EVAL, hrun, if_true, onWorld]
  rw [modopAction, bind_ok hread, store]
  cases hop : cexpTVBinOp E.machine .x1 v x op with
  | error stop => rfl
  | ok r =>
    have hcheck : CHECK (Except.ok r) s₂.world =
        (.ok r s₂.world : EStateM.Result Stop World CexpTypedVal) := rfl
    rw [bind_ok hcheck]
    dsimp only
    cases hassign : cexpTVAssign E.machine s₂.world.mem a r with
    | error stop =>
      have hact : assignAction E.machine a r s₂.world = .error stop s₂.world := by
        rw [assignAction, hassign]
      rw [bind_error hact]
      rfl
    | ok mem =>
      have hact : assignAction E.machine a r s₂.world = .ok () { s₂.world with mem := mem } := by
        rw [assignAction, hassign]
      rw [bind_ok hact]
      rfl

/-- The address expression `l`, evaluated again. -/
theorem again (hl : eval E l s = .ok a s₁) (hw : s₁.world = s.world) (h0 : s.evalInhibit = 0) :
    ∃ t, eval E l s₁ = .ok a t ∧ t.world = s₁.world ∧ t.evalInhibit = 0 := by
  have hself := eval_blind_zero E l s s rfl h0 h0
  rw [hl] at hself
  have h₁ : s₁.evalInhibit = 0 := hself.2.2.1
  have h := eval_blind_zero E l s s₁ hw.symm h0 h₁
  rw [hl] at h
  cases ht : eval E l s₁ with
  | error stop t =>
    rw [ht] at h
    cases h
  | ok b t =>
    rw [ht] at h
    obtain ⟨rfl, hwt, -, ht0⟩ := h
    exact ⟨t, rfl, hwt.symm, ht0⟩

/-- Reading `l` as an expression. -/
theorem post_ok (hl : eval E l s = .ok a s₁) (h0 : s₁.evalInhibit = 0)
    (hv : cexpTA2TV E.machine s₁.world.mem a = .ok v) :
    ∃ t, eval E (.post l .ONoop) s = .ok v t ∧ t.world = s₁.world ∧ t.evalInhibit = 0 := by
  have hrun : decide (s₁.evalInhibit = 0) = true := decide_eq_true h0
  have hread : readAction E.machine a s₁.world = .ok v s₁.world := by
    rw [readAction, hv]
  have haction : postfixAction E.machine a .ONoop s₁.world = .ok v s₁.world := bind_ok hread
  refine ⟨{ s₁ with log := s₁.log ++ [.action .incDec true] }, ?_, rfl, h0⟩
  refine (bind_ok hl).trans ?_
  simp only [EVAL, hrun, if_true, onWorld, haction]

theorem post_error (hl : eval E l s = .ok a s₁) (h0 : s₁.evalInhibit = 0)
    (hv : cexpTA2TV E.machine s₁.world.mem a = .error err) :
    ∃ t, eval E (.post l .ONoop) s = .error err t ∧ t.world = s₁.world := by
  have hrun : decide (s₁.evalInhibit = 0) = true := decide_eq_true h0
  have hread : readAction E.machine a s₁.world = .error err s₁.world := by
    rw [readAction, hv]
  have haction : postfixAction E.machine a .ONoop s₁.world = .error err s₁.world :=
    bind_error hread
  refine ⟨{ s₁ with log := s₁.log ++ [.action .incDec true] }, ?_, rfl⟩
  refine (bind_ok hl).trans ?_
  simp only [EVAL, hrun, if_true, onWorld, haction]

/-- `l = l op (e)`. -/
theorem assign_unreadable (hl : eval E l s = .ok a s₁) (hw : s₁.world = s.world)
    (h0 : s.evalInhibit = 0) (hv : cexpTA2TV E.machine s₁.world.mem a = .error err) :
    outcome E (.assign l (.binop op (.post l .ONoop) e)) s = (.error err, s₁.world) := by
  obtain ⟨t, ht, hwt, ht0⟩ := again E hl hw h0
  rw [← hwt] at hv
  obtain ⟨u, hu, hwu⟩ := post_error E ht ht0 hv
  have h : eval E (.assign l (.binop op (.post l .ONoop) e)) s = .error err u :=
    (bind_ok hl).trans (bind_error (bind_error hu))
  rw [outcome, h]
  exact Prod.ext rfl (hwu.trans hwt)

/-- The evaluation of `e` after `l` was read. -/
theorem assign_error (hl : eval E l s = .ok a s₁) (hw : s₁.world = s.world)
    (h0 : s.evalInhibit = 0) (h₁ : s₁.evalInhibit = 0)
    (hv : cexpTA2TV E.machine s₁.world.mem a = .ok v) (he : eval E e s₁ = .error err s₂) :
    outcome E (.assign l (.binop op (.post l .ONoop) e)) s = (.error err, s₂.world) := by
  obtain ⟨t, ht, hwt, ht0⟩ := again E hl hw h0
  rw [← hwt] at hv
  obtain ⟨u, hu, hwu, hu0⟩ := post_ok E ht ht0 hv
  have halike := eval_blind_zero E e s₁ u (hwu.trans hwt).symm h₁ hu0
  rw [he] at halike
  cases heu : eval E e u with
  | ok b u' =>
    rw [heu] at halike
    cases halike
  | error stop u' =>
    rw [heu] at halike
    obtain ⟨rfl, hw'⟩ := halike
    have h : eval E (.assign l (.binop op (.post l .ONoop) e)) s = .error err u' :=
      (bind_ok hl).trans (bind_error ((bind_ok hu).trans (bind_error heu)))
    rw [outcome, h]
    exact Prod.ext rfl hw'.symm

theorem assign_store (hl : eval E l s = .ok a s₁) (hw : s₁.world = s.world)
    (h0 : s.evalInhibit = 0) (h₁ : s₁.evalInhibit = 0)
    (hv : cexpTA2TV E.machine s₁.world.mem a = .ok v) (he : eval E e s₁ = .ok x s₂) :
    outcome E (.assign l (.binop op (.post l .ONoop) e)) s =
      store E.machine .none a op v x s₂.world := by
  obtain ⟨t, ht, hwt, ht0⟩ := again E hl hw h0
  rw [← hwt] at hv
  obtain ⟨u, hu, hwu, hu0⟩ := post_ok E ht ht0 hv
  have halike := eval_blind_zero E e s₁ u (hwu.trans hwt).symm h₁ hu0
  rw [he] at halike
  cases heu : eval E e u with
  | error stop u' =>
    rw [heu] at halike
    cases halike
  | ok b u' =>
    rw [heu] at halike
    obtain ⟨rfl, hw', -, hu0'⟩ := halike
    have hrun : decide (u'.evalInhibit = 0) = true := decide_eq_true hu0'
    have hrhs : eval E (.binop op (.post l .ONoop) e) s₁ =
        CHECK (cexpTVBinOp E.machine .none v x op) u' := (bind_ok hu).trans (bind_ok heu)
    rw [store, hw']
    cases hop : cexpTVBinOp E.machine .none v x op with
    | error stop =>
      rw [hop] at hrhs
      have h : eval E (.assign l (.binop op (.post l .ONoop) e)) s = .error stop u' :=
        (bind_ok hl).trans (bind_error hrhs)
      rw [outcome, h]
      rfl
    | ok r =>
      rw [hop] at hrhs
      have h : eval E (.assign l (.binop op (.post l .ONoop) e)) s =
          (EVAL .assign () (assignAction E.machine a r) >>= fun _ => pure r : Ev CexpTypedVal) u' :=
        (bind_ok hl).trans (bind_ok hrhs)
      rw [outcome, h]
      dsimp only
      cases hassign : cexpTVAssign E.machine u'.world.mem a r with
      | error stop =>
        have hact : EVAL .assign () (assignAction E.machine a r) u' =
            .error stop { u' with log := u'.log ++ [.action .assign true] } := by
          simp only [EVAL, hrun, if_true, onWorld, assignAction, hassign]
        rw [bind_error hact]
        rfl
      | ok mem =>
        have hact : EVAL .assign () (assignAction E.machine a r) u' =
            .ok () { u' with
              log := u'.log ++ [.action .assign true]
              world := { u'.world with mem := mem } } := by
          simp only [EVAL, hrun, if_true, onWorld, assignAction, hassign]
        rw [bind_ok hact]
        rfl

end

/-! ## The aliased result -/

/-- The difference of two pointers, in bytes. -/
def byteDifference (dm : DataModel) (v x : CexpTypedVal) : Nat :=
  (CexpValU.l dm (CexpValU.p dm v.tv - CexpValU.p dm x.tv)).toNat

/-- The operator is not the difference of two pointers of one type; or an element has the size of
an `unsigned long`, the pointers are equal and their elements not empty, or both sizes leave a
remainder. -/
def DifferenceAgrees (dm : DataModel) (v x : CexpTypedVal) (op : CexpBinOp) : Prop :=
  op = OSub → v.type.ptrq = true → v.type = x.type →
    v.type.baseTypeSize = dm.longSize ∨
      0 < v.type.baseTypeSize ∧ (byteDifference dm v x = 0 ∨
        byteDifference dm v x % v.type.baseTypeSize ≠ 0 ∧ byteDifference dm v x % dm.longSize ≠ 0)

theorem binOp_alias (m : Machine) {v x : CexpTypedVal} {op : CexpBinOp} (hop : op.Arithmetic)
    (h : ¬(op = OSub ∧ v.type.ptrq = true ∧ v.type = x.type)) :
    cexpTVBinOp m .x1 v x op = cexpTVBinOp m .none v x op := by
  have hcmp : ¬OAdd.code > op.code := not_lt.mpr hop
  rw [cexpTVBinOp, cexpTVBinOp, if_neg hcmp, if_neg hcmp]
  by_cases hv : v.type.ptrq = true
  · rw [if_pos hv, if_pos hv]
    by_cases hx : x.type.ptrq = true
    · rw [if_pos hx, if_pos hx]
      by_cases htype : v.type = x.type
      · have hsub : op ≠ OSub := fun hs => h ⟨hs, hv, htype⟩
        rw [if_neg (not_not.mpr htype), if_neg (not_not.mpr htype), if_pos hsub, if_pos hsub]
      · rw [if_pos htype, if_pos htype]
    · rw [if_neg hx, if_neg hx]
  · rw [if_neg hv, if_neg hv]
    rfl

theorem binOp_difference (m : Machine) (al : Alias) {v x : CexpTypedVal} (hv : v.type.ptrq = true)
    (hx : v.type = x.type) : cexpTVBinOp m al v x OSub = subPointers m al v x := by
  have hcmp : ¬OAdd.code > OSub.code := by decide
  rw [cexpTVBinOp, if_neg hcmp, if_pos hv, if_pos (hx ▸ hv), if_neg (not_not.mpr hx),
    if_neg (not_not.mpr rfl)]

theorem baseTypeSize_ulong (dm : DataModel) : (TULong dm).baseTypeSize = dm.longSize := by
  cases dm <;> rfl

/-- What reading a variable comes to: a value of the type of the address, or a message. -/
def ReadsAs (a : CexpTypedAddr) (r : Except Stop CexpTypedVal) : Prop :=
  (∃ tv, r = .ok ⟨tv, a.type⟩) ∨ ∃ msg, r = .error (.error msg)

theorem readsAs_ite {a : CexpTypedAddr} {p : Prop} [Decidable p] {r r' : Except Stop CexpTypedVal}
    (h : ReadsAs a r) (h' : ReadsAs a r') : ReadsAs a (if p then r else r') := by
  split
  · exact h
  · exact h'

theorem cexpTA2TV_readsAs (m : Machine) (mem : Mem) (a : CexpTypedAddr) :
    ReadsAs a (cexpTA2TV m mem a) := by
  have hvalue : ∀ tv, ReadsAs a (.ok ⟨tv, a.type⟩) := fun tv => .inl ⟨tv, rfl⟩
  have hmessage : ∀ msg, ReadsAs a (.error (.error msg)) := fun msg => .inr ⟨msg, rfl⟩
  rw [cexpTA2TV]
  apply readsAs_ite (hmessage _)
  apply readsAs_ite (hmessage _)
  repeat apply readsAs_ite (hvalue _)
  exact hmessage _

/-- A value that is read has the type of the address. -/
theorem cexpTA2TV_type {m : Machine} {mem : Mem} {a : CexpTypedAddr} {v : CexpTypedVal}
    (h : cexpTA2TV m mem a = .ok v) : v.type = a.type := by
  rcases cexpTA2TV_readsAs m mem a with ⟨tv, hread⟩ | ⟨msg, hread⟩
  · cases hread.symm.trans h
    rfl
  · cases hread.symm.trans h

/-- An `unsigned long` is assigned to a pointer. -/
theorem assign_pointer (m : Machine) (mem : Mem) {a : CexpTypedAddr} (h : a.type.ptrq = true)
    (r : BitVec 64) : ∃ mem', cexpTVAssign m mem a ⟨r, TULong m.dm⟩ = .ok mem' := by
  have hlong := integral_ulong m.dm
  have hptr : ¬((TULong m.dm).ptrq = true ∧ a.type.ptrq = true) :=
    not_both_of_left hlong.facts.ptrq
  have hsize : (TULong m.dm).typeSize m.dm ≤ a.type.typeSize m.dm := by
    rw [typeSize_ulong, typeSize_of_ptrq h]
  have hcast : cexpTypeCast m ⟨r, TULong m.dm⟩ a.type false =
      .ok ⟨CexpTypedVal.uint m.dm ⟨r, TULong m.dm⟩, a.type⟩ :=
    cexpTypeCast_widen m hlong.uint (.inr h) hptr hsize
  have hne : ∀ t : CexpType, t.ptrq = false → ¬a.type = t := by
    intro t ht hat
    rw [hat, ht] at h
    cases h
  rw [cexpTVAssign, hcast]
  exact ⟨_, by
    show (if a.type = TUChar then _ else if a.type = TUShort then _ else if a.type = TUInt then _
      else if a.type = TULong m.dm then _ else if a.type = TFloat then _
      else if a.type = TDouble then _ else if a.type.ptrq then _ else _) = _
    rw [if_neg (hne _ rfl), if_neg (hne _ rfl), if_neg (hne _ rfl),
      if_neg (hne _ hlong.facts.ptrq), if_neg (hne _ rfl), if_neg (hne _ rfl), if_pos h]
    rfl⟩

theorem subPointers_fault (m : Machine) {al : Alias} {v x : CexpTypedVal} {n : Nat}
    (hn : (if al = .x1 then TULong m.dm else v.type).baseTypeSize = n) (h : n = 0) :
    subPointers m al v x = .error (.fault .divisionByZero) :=
  if_pos (hn.trans h)

theorem subPointers_remainder (m : Machine) {al : Alias} {v x : CexpTypedVal} {n : Nat}
    (hn : (if al = .x1 then TULong m.dm else v.type).baseTypeSize = n) (h : n ≠ 0)
    (hmod : byteDifference m.dm v x % n ≠ 0) :
    subPointers m al v x = .error (.error "subtracting misaligned pointers") := by
  subst hn
  exact (if_neg h).trans (if_pos hmod)

theorem subPointers_ok (m : Machine) {al : Alias} {v x : CexpTypedVal} {n : Nat}
    (hn : (if al = .x1 then TULong m.dm else v.type).baseTypeSize = n) (h : n ≠ 0)
    (hmod : byteDifference m.dm v x % n = 0) :
    subPointers m al v x = .ok ⟨BitVec.ofNat 64 (byteDifference m.dm v x / n), TULong m.dm⟩ := by
  subst hn
  exact (if_neg h).trans (if_neg (not_not.mpr hmod))

/-- Two sizes divide a difference alike. -/
theorem div_eq_iff {d n k : Nat} (hn : d % n = 0) (hk : d % k = 0) (h0 : n ≠ 0) :
    d / k = d / n ↔ n = k ∨ d = 0 := by
  obtain ⟨q, rfl⟩ := Nat.dvd_of_mod_eq_zero hn
  obtain ⟨r, hr⟩ := Nat.dvd_of_mod_eq_zero hk
  rw [Nat.mul_div_cancel_left q (Nat.pos_of_ne_zero h0)]
  constructor
  · intro h
    rcases Nat.eq_zero_or_pos k with rfl | hk0
    · right
      rw [hr, Nat.zero_mul]
    · rw [hr, Nat.mul_div_cancel_left r hk0] at h
      rw [h] at hr
      rcases Nat.eq_zero_or_pos q with rfl | hq
      · exact .inr (Nat.mul_zero n)
      · exact .inl (Nat.eq_of_mul_eq_mul_right hq hr)
  · rintro (rfl | h)
    · exact Nat.mul_div_cancel_left q (Nat.pos_of_ne_zero h0)
    · rw [h, Nat.zero_div]
      rcases Nat.mul_eq_zero.mp h with h' | h'
      · exact absurd h' h0
      · exact h'.symm

/-- How the difference `d` of two pointers is stored if an element has `n` bytes. -/
inductive StoresDifference (m : Machine) (a : CexpTypedAddr) (d n : Nat) (w : World) :
    Except Stop CexpTypedVal × World → Prop where
  | fault (h0 : n = 0) : StoresDifference m a d n w (.error (.fault .divisionByZero), w)
  | remainder (h0 : n ≠ 0) (hmod : d % n ≠ 0) :
      StoresDifference m a d n w (.error (.error "subtracting misaligned pointers"), w)
  | stored {mem : Mem} (h0 : n ≠ 0) (hmod : d % n = 0)
      (hmem : cexpTVAssign m w.mem a ⟨BitVec.ofNat 64 (d / n), TULong m.dm⟩ = .ok mem) :
      StoresDifference m a d n w
        (.ok ⟨BitVec.ofNat 64 (d / n), TULong m.dm⟩, { w with mem := mem })

theorem store_difference (m : Machine) (w : World) (al : Alias) {a : CexpTypedAddr}
    {v x : CexpTypedVal} {n : Nat} (hva : v.type = a.type) (hv : v.type.ptrq = true)
    (hx : v.type = x.type)
    (hn : (if al = .x1 then TULong m.dm else v.type).baseTypeSize = n) :
    StoresDifference m a (byteDifference m.dm v x) n w (store m al a OSub v x w) := by
  rw [store, binOp_difference m al hv hx]
  by_cases h0 : n = 0
  · rw [subPointers_fault m hn h0]
    exact .fault h0
  · by_cases hmod : byteDifference m.dm v x % n = 0
    · obtain ⟨mem, hmem⟩ := assign_pointer m w.mem (hva ▸ hv)
        (BitVec.ofNat 64 (byteDifference m.dm v x / n))
      rw [subPointers_ok m hn h0 hmod]
      dsimp only
      rw [hmem]
      exact .stored h0 hmod hmem
    · rw [subPointers_remainder m hn h0 hmod]
      exact .remainder h0 hmod

/-- Elements of `k` and of `n` bytes. -/
theorem StoresDifference.agrees_iff {m : Machine} {a : CexpTypedAddr} {d k n : Nat} {w : World}
    {o o' : Except Stop CexpTypedVal × World} (hk : k ≠ 0) (hd : d < 2 ^ 64)
    (h : StoresDifference m a d k w o) (h' : StoresDifference m a d n w o') :
    Agrees o o' ↔ n = k ∨ 0 < n ∧ (d = 0 ∨ d % n ≠ 0 ∧ d % k ≠ 0) := by
  cases h with
  | fault h0 => exact absurd h0 hk
  | remainder _ hmod =>
    cases h' with
    | fault h0 => exact iff_of_false id (by omega)
    | remainder h0 hrem => exact iff_of_true rfl (.inr ⟨Nat.pos_of_ne_zero h0, .inr ⟨hrem, hmod⟩⟩)
    | stored h0 hrem _ =>
      refine iff_of_false id ?_
      rintro (rfl | ⟨-, rfl | hboth⟩)
      · exact hmod hrem
      · exact hmod (Nat.zero_mod k)
      · exact hboth.1 hrem
  | @stored mem _ hmod hmem =>
    cases h' with
    | fault h0 => exact iff_of_false id (by omega)
    | remainder h0 hrem =>
      refine iff_of_false id ?_
      rintro (rfl | ⟨-, rfl | hboth⟩)
      · exact hrem hmod
      · exact hrem (Nat.zero_mod n)
      · exact hboth.2 hmod
    | @stored mem' h0 hrem hmem' =>
      have hlt : ∀ j, d / j < 2 ^ 64 := fun j => (Nat.div_le_self d j).trans_lt hd
      have hiff := div_eq_iff hrem hmod h0
      constructor
      · intro hagrees
        have htv := congrArg BitVec.toNat (congrArg CexpTypedVal.tv hagrees.1)
        rw [BitVec.toNat_ofNat, BitVec.toNat_ofNat, Nat.mod_eq_of_lt (hlt k),
          Nat.mod_eq_of_lt (hlt n)] at htv
        exact (hiff.mp htv).imp_right fun hzero => ⟨Nat.pos_of_ne_zero h0, .inl hzero⟩
      · intro hor
        have hq := hiff.mpr (by omega)
        rw [← hq, hmem] at hmem'
        cases hmem'
        rw [hq]
        exact ⟨rfl, rfl⟩

/-- The operation and the assignment do the same with the aliased result. -/
theorem store_agrees_iff (m : Machine) {a : CexpTypedAddr} {v x : CexpTypedVal} {op : CexpBinOp}
    (w : World) (hop : op.Arithmetic) (hva : v.type = a.type) :
    Agrees (store m .x1 a op v x w) (store m .none a op v x w) ↔ DifferenceAgrees m.dm v x op := by
  by_cases hdiff : op = OSub ∧ v.type.ptrq = true ∧ v.type = x.type
  · obtain ⟨rfl, hv, hx⟩ := hdiff
    have hlong := store_difference m w .x1 hva hv hx (baseTypeSize_ulong m.dm)
    have hown := store_difference m w .none hva hv hx rfl
    have hiff := hlong.agrees_iff (longSize_pos m.dm).ne' (BitVec.isLt _) hown
    exact hiff.trans ⟨fun h _ _ _ => h, fun h => h rfl hv hx⟩
  · rw [store, binOp_alias m hop hdiff, ← store]
    exact iff_of_true (agrees_self _) fun h₁ h₂ h₃ => absurd ⟨h₁, h₂, h₃⟩ hdiff

/-! ## Compound and plain assignment -/

/-- The address expression of `l` changes nothing. -/
def NoSideEffects (E : Env) (l : Node .lval) (s : St) : Prop :=
  ∀ a s₁, eval E l s = .ok a s₁ → s₁.world = s.world

/-- `l` holds after the evaluation of `e` what it held before. -/
def LeavesLval (E : Env) (l : Node .lval) (e : Node .exp) (s : St) : Prop :=
  ∀ a s₁ x s₂, eval E l s = .ok a s₁ → eval E e s₁ = .ok x s₂ →
    cexpTA2TV E.machine s₂.world.mem a = cexpTA2TV E.machine s₁.world.mem a

/-- The evaluation of `e` changes nothing and is not lost. -/
def Idle (E : Env) (e : Node .exp) (s : St) : Prop :=
  (outcome E e s).2 = s.world ∧ ∀ f, (outcome E e s).1 ≠ .error (.fault f)

/-- If `l` cannot be read, `e` is idle; if it can, the operands are no pointers for which the
aliased result matters. -/
def CompoundAgrees (E : Env) (l : Node .lval) (op : CexpBinOp) (e : Node .exp) (s : St) : Prop :=
  ∀ a s₁, eval E l s = .ok a s₁ →
    (∀ err, cexpTA2TV E.machine s₁.world.mem a = .error err → Idle E e s₁) ∧
    (∀ v, cexpTA2TV E.machine s₁.world.mem a = .ok v →
      ∀ x s₂, eval E e s₁ = .ok x s₂ → DifferenceAgrees E.machine.dm v x op)

/-- Reading a variable never faults. -/
theorem cexpTA2TV_message {m : Machine} {mem : Mem} {a : CexpTypedAddr} {err : Stop}
    (h : cexpTA2TV m mem a = .error err) : ∃ msg, err = .error msg := by
  rcases cexpTA2TV_readsAs m mem a with ⟨tv, hread⟩ | ⟨msg, hread⟩
  · cases hread.symm.trans h
  · cases hread.symm.trans h
    exact ⟨msg, rfl⟩

/-- Two outcomes with an error message in the second. -/
theorem agrees_message_iff {r : Except Stop CexpTypedVal} {w w' : World} {msg : String} :
    Agrees (r, w) (.error (.error msg), w') ↔
      (∃ msg', r = .error (.error msg')) ∧ w = w' := by
  cases r with
  | ok v => exact iff_of_false id (by rintro ⟨⟨_, ⟨⟩⟩, -⟩)
  | error stop =>
    cases stop with
    | error msg' => exact ⟨fun h => ⟨⟨msg', rfl⟩, h⟩, fun h => h.2⟩
    | fault e => exact iff_of_false id (by rintro ⟨⟨_, ⟨⟩⟩, -⟩)

/-- An lvalue that cannot be read: `l = l op (e)` stops before `e`. -/
theorem unreadable_agrees_iff (E : Env) {l : Node .lval} {e : Node .exp} (op : CexpBinOp)
    {s s₁ : St} {a : CexpTypedAddr} {err : Stop} (hl : eval E l s = .ok a s₁)
    (hw : s₁.world = s.world) (h0 : s.evalInhibit = 0) (h₁ : s₁.evalInhibit = 0)
    (he : LeavesLval E l e s) (hread : cexpTA2TV E.machine s₁.world.mem a = .error err) :
    Agrees (outcome E (.modop l op e) s)
        (outcome E (.assign l (.binop op (.post l .ONoop) e)) s) ↔ Idle E e s₁ := by
  obtain ⟨msg, rfl⟩ := cexpTA2TV_message hread
  rw [assign_unreadable E hl hw h0 hread, Idle]
  cases hev : eval E e s₁ with
  | error stop s₂ =>
    have hout : outcome E e s₁ = (.error stop, s₂.world) := by
      rw [outcome, hev]
      rfl
    rw [modop_error E hl hev, agrees_message_iff, hout]
    cases stop with
    | error msg' =>
      constructor
      · rintro ⟨-, h⟩
        exact ⟨h, by rintro f ⟨⟩⟩
      · rintro ⟨h, -⟩
        exact ⟨⟨msg', rfl⟩, h⟩
    | fault f =>
      refine iff_of_false ?_ fun h => h.2 f rfl
      rintro ⟨⟨_, ⟨⟩⟩, -⟩
  | ok x s₂ =>
    have hzero : s₂.evalInhibit = 0 := by
      have h := eval_blind_zero E e s₁ s₁ rfl h₁ h₁
      rw [hev] at h
      exact h.2.2.1
    have hout : outcome E e s₁ = (.ok x, s₂.world) := by
      rw [outcome, hev]
      rfl
    rw [modop_unreadable E hl hev hzero ((he a s₁ x s₂ hl hev).trans hread), agrees_message_iff,
      hout]
    constructor
    · rintro ⟨-, h⟩
      exact ⟨h, by rintro f ⟨⟩⟩
    · rintro ⟨h, -⟩
      exact ⟨⟨msg, rfl⟩, h⟩

/-- An lvalue that can be read. -/
theorem readable_agrees_iff (E : Env) {l : Node .lval} {e : Node .exp} {op : CexpBinOp}
    {s s₁ : St} {a : CexpTypedAddr} {v : CexpTypedVal} (hl : eval E l s = .ok a s₁)
    (hw : s₁.world = s.world) (h0 : s.evalInhibit = 0) (h₁ : s₁.evalInhibit = 0)
    (hop : op.Arithmetic) (he : LeavesLval E l e s)
    (hread : cexpTA2TV E.machine s₁.world.mem a = .ok v) :
    Agrees (outcome E (.modop l op e) s)
        (outcome E (.assign l (.binop op (.post l .ONoop) e)) s) ↔
      ∀ x s₂, eval E e s₁ = .ok x s₂ → DifferenceAgrees E.machine.dm v x op := by
  cases hev : eval E e s₁ with
  | error stop s₂ =>
    rw [modop_error E hl hev, assign_error E hl hw h0 h₁ hread hev]
    exact iff_of_true (agrees_self _) (by rintro x s₃ ⟨⟩)
  | ok x s₂ =>
    have hzero : s₂.evalInhibit = 0 := by
      have h := eval_blind_zero E e s₁ s₁ rfl h₁ h₁
      rw [hev] at h
      exact h.2.2.1
    rw [modop_store E hl hev hzero ((he a s₁ x s₂ hl hev).trans hread),
      assign_store E hl hw h0 h₁ hread hev]
    refine (store_agrees_iff E.machine (x := x) s₂.world hop (cexpTA2TV_type hread)).trans ?_
    constructor
    · rintro h x' s' ⟨⟩
      exact h
    · intro h
      exact h x s₂ rfl

/-- When `l op= e` does what `l = l op (e)` does. -/
theorem compound_agrees_iff (E : Env) (l : Node .lval) (op : CexpBinOp) (e : Node .exp) (s : St)
    (h0 : s.evalInhibit = 0) (hop : op.Arithmetic) (hl : NoSideEffects E l s)
    (he : LeavesLval E l e s) :
    Agrees (outcome E (.modop l op e) s)
        (outcome E (.assign l (.binop op (.post l .ONoop) e)) s) ↔
      CompoundAgrees E l op e s := by
  cases hev : eval E l s with
  | error stop s₁ =>
    have hmod : eval E (.modop l op e) s = .error stop s₁ := bind_error hev
    have hassign : eval E (.assign l (.binop op (.post l .ONoop) e)) s = .error stop s₁ :=
      bind_error hev
    rw [outcome, outcome, hmod, hassign, CompoundAgrees, hev]
    exact iff_of_true (agrees_self _) (by rintro a s₂ ⟨⟩)
  | ok a s₁ =>
    have hw := hl a s₁ hev
    have h₁ : s₁.evalInhibit = 0 := by
      have h := eval_blind_zero E l s s rfl h0 h0
      rw [hev] at h
      exact h.2.2.1
    have hcond : CompoundAgrees E l op e s ↔
        (∀ err, cexpTA2TV E.machine s₁.world.mem a = .error err → Idle E e s₁) ∧
        (∀ v, cexpTA2TV E.machine s₁.world.mem a = .ok v →
          ∀ x s₂, eval E e s₁ = .ok x s₂ → DifferenceAgrees E.machine.dm v x op) := by
      rw [CompoundAgrees, hev]
      constructor
      · intro h
        exact h a s₁ rfl
      · rintro h b t ⟨⟩
        exact h
    rw [hcond]
    cases hread : cexpTA2TV E.machine s₁.world.mem a with
    | error err =>
      rw [unreadable_agrees_iff E op hev hw h0 h₁ he hread]
      exact ⟨fun h => ⟨fun _ _ => h, by rintro v ⟨⟩⟩, fun h => h.1 err rfl⟩
    | ok v =>
      rw [readable_agrees_iff E hev hw h0 h₁ hop he hread]
      constructor
      · intro h
        refine ⟨by rintro err ⟨⟩, ?_⟩
        rintro v' ⟨⟩
        exact h
      · rintro ⟨-, h⟩
        exact h v rfl

/-- `x += 5` for a variable `x` of type `long`. -/
theorem compound_agrees_long :
    Agrees (outcome hostEnv (.modop (.var 1) .OAdd (ulong 5)) hostSt)
      (outcome hostEnv (.assign (.var 1) (.binop .OAdd (.post (.var 1) .ONoop) (ulong 5)))
        hostSt) := by
  refine (compound_agrees_iff hostEnv (.var 1) .OAdd (ulong 5) hostSt rfl (by decide) ?_ ?_).mpr ?_
  · rintro a s₁ ⟨⟩
    rfl
  · rintro a s₁ x s₂ ⟨⟩ ⟨⟩
    rfl
  · rintro a s₁ ⟨⟩
    refine ⟨?_, ?_⟩
    · rintro err ⟨⟩
    · rintro v - x s₂ - ⟨⟩

/-- Symbol `2` is a variable of type `int*` that holds `0x5008`, symbol `3` an `int` at `0x5000`. -/
def pointerSt : St :=
  { hostSt with
    world :=
      { hostSt.world with
        mem := fun a => if a = 0x3000 then 0x08 else if a = 0x3001 then 0x50 else 0
        sym := fun x => if x = 2 then ⟨0x3000, TUIntP⟩ else ⟨0x5000, TUInt⟩ } }

/-- `p -= &y` divides the difference by the size of an `unsigned long`, `p = p - &y` by that of an
`int`. -/
theorem pointer_difference_differs :
    ¬ ∀ (E : Env) (l : Node .lval) (op : CexpBinOp) (e : Node .exp) (s : St),
      s.evalInhibit = 0 → op.Arithmetic → NoSideEffects E l s → LeavesLval E l e s →
      Agrees (outcome E (.modop l op e) s)
        (outcome E (.assign l (.binop op (.post l .ONoop) e)) s) := by
  intro hall
  have h := hall hostEnv (.var 2) .OSub (.addr 3) pointerSt rfl (by decide)
    (by rintro a s₁ ⟨⟩; rfl) (by rintro a s₁ x s₂ ⟨⟩ ⟨⟩; rfl)
  have hcompound : (outcome hostEnv (.modop (.var 2) .OSub (.addr 3)) pointerSt).1 =
      .ok ⟨1, TULong .lp64⟩ := by rfl
  have hplain : (outcome hostEnv
      (.assign (.var 2) (.binop .OSub (.post (.var 2) .ONoop) (.addr 3))) pointerSt).1 =
      .ok ⟨2, TULong .lp64⟩ := by rfl
  generalize outcome hostEnv (.modop (.var 2) .OSub (.addr 3)) pointerSt = o at h hcompound
  generalize outcome hostEnv
    (.assign (.var 2) (.binop .OSub (.post (.var 2) .ONoop) (.addr 3))) pointerSt = o' at h hplain
  obtain ⟨r, w⟩ := o
  obtain ⟨r', w'⟩ := o'
  dsimp only at hcompound hplain
  rw [hcompound, hplain] at h
  exact absurd (congrArg CexpTypedVal.tv h.1) (by decide)

end Cexp
