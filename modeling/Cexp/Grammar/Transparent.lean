import Cexp.Ctyps.Accepts
import Cexp.Grammar.Atomic
import Cexp.Grammar.Meaning

/-!
# Operands whose rules accept what stands in for them

The operand that `&&` or `||` leaves out still hands a value to every rule of it: a call that is
not made leaves its function pointer, a variable that is not read leaves its address under the
variable's type (`standIn`). The rules were written for the values of an evaluation. `RuleAccepts`
says what each asks of its operands, and `Tolerates` that the stand-ins meet it.

Rules that compute with constants alone are not asked: they see the same values as in an
evaluation, so an operand that some evaluation accepts (`Admissible`) passes there
(`accepts_constants`).
-/

namespace Cexp

open CexpType CexpBinOp CLib EStateM

/-! ## Stand-ins -/

/-- The value of a result, if there is one. -/
def valueOr {α : Type} (dflt : α) : Except Stop α → α
  | .ok a => a
  | .error _ => dflt

/-- What stands in for an operand that is not evaluated. -/
def standIn (E : Env) (sym : SymId → CexpTypedAddr) : {c : Cat} → Node c → c.Sem
  | _, .number v => v
  | _, .func f => (⟨(sym f).ptv, (sym f).type⟩ : CexpTypedVal)
  | _, .addr x => (⟨(sym x).ptv, base2ptr (sym x).type⟩ : CexpTypedVal)
  | _, .post l op | _, .pre l op => E.fixexpAsVal (standIn E sym l) op
  | _, .not e => valueOr voidVal (notResult E.machine (standIn E sym e))
  | _, .unop op e => valueOr voidVal (cexpTVUnOp E.machine (standIn E sym e) op)
  | _, .cast t e => valueOr voidVal do
    let t ← t.type E.machine.dm
    cexpTypeCast E.machine (standIn E sym e) t true
  | _, .binop op e₁ e₂ =>
    valueOr voidVal (cexpTVBinOp E.machine .none (standIn E sym e₁) (standIn E sym e₂) op)
  | _, .logic k e₁ e₂ => valueOr voidVal (logicResult E.machine k
    (valueOr false (cexpTVTrueQ E.machine (standIn E sym e₁))) (standIn E sym e₂))
  | _, .assign _ e | _, .create _ e => standIn E sym e
  | _, .modop l _ _ => E.lvalAsVal (standIn E sym l)
  | _, .comma _ e₂ => standIn E sym e₂
  | _, .call f _ => standIn E sym f
  | _, .member x mname _ => E.methodAsVal x mname
  | _, .var x => sym x
  | _, .deref e =>
    let v : CexpTypedVal := standIn E sym e
    (⟨v.tv, v.type.ptr2base⟩ : CexpTypedAddr)
  | _, .nil => ([] : List CexpTypedVal)
  | _, .cons e as => (standIn E sym e :: standIn E sym as : List CexpTypedVal)

/-! ## What the rules ask for -/

/-- What the rule of a node asks of the stand-ins of its operands. -/
def RuleAccepts (E : Env) (sym : SymId → CexpTypedAddr) : {c : Cat} → Node c → Prop
  | _, .addr x => (sym x).type.ptrq = false
  | _, .not e => Switched E.machine.dm (standIn E sym e).type
  | _, .unop op e => UnOpAccepts E.machine.dm op (standIn E sym e).type
  | _, .cast t e => ∃ t', t.type E.machine.dm = .ok t' ∧ ForceAccepts (standIn E sym e).type t'
  | _, .binop op e₁ e₂ => BinOpAccepts E.machine op (standIn E sym e₁) (standIn E sym e₂)
  | _, .logic k e₁ e₂ => Switched E.machine.dm (standIn E sym e₁).type ∧
    ((⟨k, valueOr false (cexpTVTrueQ E.machine (standIn E sym e₁))⟩ : Guard).Passes →
      Switched E.machine.dm (standIn E sym e₂).type)
  | _, .deref e => (standIn E sym e).type.ptrq = true ∧ (standIn E sym e).type.funq = false
  | _, _ => True

/-- Made of numbers only. -/
def Node.Constant : {c : Cat} → Node c → Prop
  | _, .number _ | _, .nil => True
  | _, .not e | _, .unop _ e | _, .cast _ e => e.Constant
  | _, .binop _ e₁ e₂ | _, .logic _ e₁ e₂ | _, .comma e₁ e₂ => e₁.Constant ∧ e₂.Constant
  | _, .cons e as => e.Constant ∧ as.Constant
  | _, _ => False

/-- `P` holds of every node of the tree. -/
def Node.All (P : {c : Cat} → Node c → Prop) : {c : Cat} → Node c → Prop
  | _, .number v => P (.number v)
  | _, .func f => P (.func f)
  | _, .addr x => P (.addr x)
  | _, .post l op => P (.post l op) ∧ l.All P
  | _, .pre l op => P (.pre l op) ∧ l.All P
  | _, .not e => P (.not e) ∧ e.All P
  | _, .unop op e => P (.unop op e) ∧ e.All P
  | _, .cast t e => P (.cast t e) ∧ e.All P
  | _, .binop op e₁ e₂ => P (.binop op e₁ e₂) ∧ e₁.All P ∧ e₂.All P
  | _, .logic k e₁ e₂ => P (.logic k e₁ e₂) ∧ e₁.All P ∧ e₂.All P
  | _, .assign l e => P (.assign l e) ∧ l.All P ∧ e.All P
  | _, .modop l op e => P (.modop l op e) ∧ l.All P ∧ e.All P
  | _, .create name e => P (.create name e) ∧ e.All P
  | _, .comma e₁ e₂ => P (.comma e₁ e₂) ∧ e₁.All P ∧ e₂.All P
  | _, .call f as => P (.call f as) ∧ f.All P ∧ as.All P
  | _, .member x mname as => P (.member x mname as) ∧ as.All P
  | _, .var x => P (.var x)
  | _, .deref e => P (.deref e) ∧ e.All P
  | _, .nil => P .nil
  | _, .cons e as => P (.cons e as) ∧ e.All P ∧ as.All P

/-- Every rule of the operand that sees more than constants accepts the stand-ins. -/
def Tolerates (E : Env) (sym : SymId → CexpTypedAddr) (e : Node .exp) : Prop :=
  e.All fun n => ¬n.Constant → RuleAccepts E sym n

section

variable {P Q R : {c : Cat} → Node c → Prop}

theorem Node.All.root {c : Cat} {n : Node c} (h : n.All P) : P n := by
  cases n with
  | number | func | addr | var | nil => exact h
  | _ => exact h.1

theorem Node.All.combine (h : ∀ {c : Cat} (n : Node c), P n → Q n → R n) {c : Cat} (n : Node c) :
    n.All P → n.All Q → n.All R := by
  induction n with
  | number | func | addr | var | nil => exact h _
  | post _ _ ih | pre _ _ ih | not _ ih | unop _ _ ih | cast _ _ ih =>
    exact fun hp hq => ⟨h _ hp.1 hq.1, ih hp.2 hq.2⟩
  | create _ _ ih | member _ _ _ ih | deref _ ih =>
    exact fun hp hq => ⟨h _ hp.1 hq.1, ih hp.2 hq.2⟩
  | binop _ _ _ ih₁ ih₂ | logic _ _ _ ih₁ ih₂ | comma _ _ ih₁ ih₂ | cons _ _ ih₁ ih₂ =>
    exact fun hp hq => ⟨h _ hp.1 hq.1, ih₁ hp.2.1 hq.2.1, ih₂ hp.2.2 hq.2.2⟩
  | assign _ _ ih₁ ih₂ | modop _ _ _ ih₁ ih₂ | call _ _ ih₁ ih₂ =>
    exact fun hp hq => ⟨h _ hp.1 hq.1, ih₁ hp.2.1 hq.2.1, ih₂ hp.2.2 hq.2.2⟩

end

/-! ## Placeholders are the stand-ins -/

section

variable {α β : Type} {x : Except Stop α} {f : α → Except Stop β} {a : α}

theorem ok_valueOr (dflt : α) (h : x = .ok a) : a = valueOr dflt x := by
  rw [h]
  rfl

/-- A step that can only give `a`, and the rest. -/
theorem exists_bind_iff {A B : Prop} (hx : ∀ u, x = .ok u → u = a) (hA : (∃ u, x = .ok u) ↔ A)
    (hB : (∃ r, f a = .ok r) ↔ B) : (∃ r, (x >>= f) = .ok r) ↔ A ∧ B := by
  rw [← hA, ← hB]
  constructor
  · rintro ⟨r, hr⟩
    obtain ⟨u, hu, hf⟩ := bind_eq_ok.mp hr
    cases hx u hu
    exact ⟨⟨_, hu⟩, r, hf⟩
  · rintro ⟨⟨u, hu⟩, r, hr⟩
    cases hx u hu
    exact ⟨r, bind_eq_ok.mpr ⟨_, hu, hr⟩⟩

end

theorem eq_of_derefLval {v : CexpTypedVal} {a : CexpTypedAddr} (h : derefLval v = .ok a) :
    a = ⟨v.tv, v.type.ptr2base⟩ := by
  rw [derefLval] at h
  split at h
  · cases h
  · exact (Except.ok.inj h).symm

/-- If the rules of a tree pass a value up, it is the stand-in. -/
theorem eq_standIn (E : Env) (sym : SymId → CexpTypedAddr) {c : Cat} (n : Node c) :
    ∀ u, placeholder E sym n = .ok u → u = standIn E sym n := by
  induction n with
  | number | func | var | nil => exact fun u h => (Except.ok.inj h).symm
  | addr x =>
    intro u h
    rw [placeholder, cexpTVPtr] at h
    split at h
    · cases h
    · exact (Except.ok.inj h).symm
  | post l op ih | pre l op ih =>
    intro u h
    obtain ⟨a, ha, h⟩ := bind_eq_ok.mp h
    rw [ih a ha] at h
    exact (Except.ok.inj h).symm
  | not e ih | unop op e ih =>
    intro u h
    obtain ⟨v, hv, h⟩ := bind_eq_ok.mp h
    rw [ih v hv] at h
    exact ok_valueOr voidVal h
  | cast t e ih =>
    intro u h
    obtain ⟨t', ht, h⟩ := bind_eq_ok.mp h
    obtain ⟨v, hv, h⟩ := bind_eq_ok.mp h
    rw [ih v hv] at h
    exact ok_valueOr voidVal (bind_eq_ok.mpr ⟨t', ht, h⟩)
  | binop op e₁ e₂ ih₁ ih₂ =>
    intro u h
    obtain ⟨v₁, h₁, h⟩ := bind_eq_ok.mp h
    obtain ⟨v₂, h₂, h⟩ := bind_eq_ok.mp h
    rw [ih₁ v₁ h₁, ih₂ v₂ h₂] at h
    exact ok_valueOr voidVal h
  | logic k e₁ e₂ ih₁ ih₂ =>
    intro u h
    obtain ⟨v₁, h₁, h⟩ := bind_eq_ok.mp h
    obtain ⟨left, hleft, h⟩ := bind_eq_ok.mp h
    obtain ⟨v₂, h₂, h⟩ := bind_eq_ok.mp h
    rw [ih₁ v₁ h₁] at hleft
    rw [ih₂ v₂ h₂, ok_valueOr false hleft] at h
    exact ok_valueOr voidVal h
  | assign l e _ ih | comma l e _ ih =>
    intro u h
    obtain ⟨_, -, h⟩ := bind_eq_ok.mp h
    exact ih u h
  | create name e ih => exact ih
  | modop l op e ih _ | call l e ih _ =>
    intro u h
    obtain ⟨a, ha, h⟩ := bind_eq_ok.mp h
    obtain ⟨_, -, h⟩ := bind_eq_ok.mp h
    rw [ih a ha] at h
    exact (Except.ok.inj h).symm
  | member x mname as _ =>
    intro u h
    obtain ⟨_, -, h⟩ := bind_eq_ok.mp h
    exact (Except.ok.inj h).symm
  | deref e ih =>
    intro u h
    obtain ⟨v, hv, h⟩ := bind_eq_ok.mp h
    rw [ih v hv] at h
    exact eq_of_derefLval h
  | cons e as ih₁ ih₂ =>
    intro u h
    obtain ⟨v, hv, h⟩ := bind_eq_ok.mp h
    obtain ⟨vs, hvs, h⟩ := bind_eq_ok.mp h
    rw [ih₁ v hv, ih₂ vs hvs] at h
    exact (Except.ok.inj h).symm

theorem notResult_ok_iff (m : Machine) (v : CexpTypedVal) :
    (∃ r, notResult m v = .ok r) ↔ Switched m.dm v.type := by
  rw [← cexpTVTrueQ_ok_iff, notResult]
  cases cexpTVTrueQ m v with
  | ok b => exact iff_of_true ⟨_, rfl⟩ ⟨_, rfl⟩
  | error e => exact iff_of_false (by rintro ⟨_, ⟨⟩⟩) (by rintro ⟨_, ⟨⟩⟩)

theorem logicResult_ok_iff (m : Machine) (k : Logic) (left : Bool) (v : CexpTypedVal) :
    (∃ r, logicResult m k left v = .ok r) ↔
      ((⟨k, left⟩ : Guard).Passes → Switched m.dm v.type) := by
  by_cases hpass : (⟨k, left⟩ : Guard).Passes
  · rw [imp_iff_right hpass, ← cexpTVTrueQ_ok_iff]
    have hright : ¬left = (k = .or) := by
      cases k <;> cases left <;> simp_all [Guard.Passes]
    rw [logicResult, if_neg hright]
    cases cexpTVTrueQ m v with
    | ok b => exact iff_of_true ⟨_, rfl⟩ ⟨_, rfl⟩
    | error e => exact iff_of_false (by rintro ⟨_, ⟨⟩⟩) (by rintro ⟨_, ⟨⟩⟩)
  · exact iff_of_true ⟨_, logicResult_of_inhibits hpass v⟩ fun h => absurd h hpass

theorem derefLval_ok_iff (v : CexpTypedVal) :
    (∃ a, derefLval v = .ok a) ↔ v.type.ptrq = true ∧ v.type.funq = false := by
  rw [derefLval]
  cases v.type.ptrq <;> cases v.type.funq <;> simp

theorem cexpTVPtr_ok_iff (a : CexpTypedAddr) :
    (∃ v, cexpTVPtr a = .ok v) ↔ a.type.ptrq = false := by
  rw [cexpTVPtr]
  cases a.type.ptrq <;> simp

/-- The rules of a tree pass a value up if and only if every rule accepts the stand-ins. -/
theorem placeholder_ok_iff (E : Env) (sym : SymId → CexpTypedAddr) {c : Cat} (n : Node c) :
    (∃ u, placeholder E sym n = .ok u) ↔ n.All (RuleAccepts E sym) := by
  induction n with
  | number | func | var | nil => exact iff_of_true ⟨_, rfl⟩ trivial
  | addr x => exact cexpTVPtr_ok_iff (sym x)
  | post l op ih | pre l op ih =>
    exact Iff.trans (exists_bind_iff (eq_standIn E sym l) ih (iff_true_intro ⟨_, rfl⟩)) and_comm
  | not e ih =>
    exact (exists_bind_iff (eq_standIn E sym e) ih (notResult_ok_iff _ _)).trans and_comm
  | unop op e ih =>
    exact (exists_bind_iff (eq_standIn E sym e) ih (cexpTVUnOp_ok_iff _ _ _)).trans and_comm
  | deref e ih =>
    exact (exists_bind_iff (eq_standIn E sym e) ih (derefLval_ok_iff _)).trans and_comm
  | cast t e ih =>
    have hcast : ∀ t', (∃ u, (placeholder E sym e >>= fun v =>
        cexpTypeCast E.machine v t' true) = .ok u) ↔
          e.All (RuleAccepts E sym) ∧ ForceAccepts (standIn E sym e).type t' := fun t' =>
      exists_bind_iff (eq_standIn E sym e) ih (cexpTypeCast_force_ok_iff _ _ _)
    rw [placeholder, Node.All, RuleAccepts]
    cases ht : t.type E.machine.dm with
    | error stop => exact iff_of_false (by rintro ⟨_, ⟨⟩⟩) (by rintro ⟨⟨_, ⟨⟩, _⟩, _⟩)
    | ok t' =>
      refine (hcast t').trans ⟨fun h => ⟨⟨t', rfl, h.2⟩, h.1⟩, ?_⟩
      rintro ⟨⟨_, ⟨⟩, h⟩, he⟩
      exact ⟨he, h⟩
  | binop op e₁ e₂ ih₁ ih₂ =>
    exact (exists_bind_iff (eq_standIn E sym e₁) ih₁ (exists_bind_iff (eq_standIn E sym e₂) ih₂
      (cexpTVBinOp_ok_iff _ _ _ _))).trans and_rotate.symm
  | logic k e₁ e₂ ih₁ ih₂ =>
    refine (exists_bind_iff (eq_standIn E sym e₁) ih₁ (exists_bind_iff (fun _ => ok_valueOr false)
      (cexpTVTrueQ_ok_iff _ _) (exists_bind_iff (eq_standIn E sym e₂) ih₂
        (logicResult_ok_iff _ _ _ _)))).trans ?_
    exact ⟨fun ⟨h₁, ht, h₂, hr⟩ => ⟨⟨ht, hr⟩, h₁, h₂⟩, fun ⟨⟨ht, hr⟩, h₁, h₂⟩ => ⟨h₁, ht, h₂, hr⟩⟩
  | create name e ih => exact ih.trans (and_iff_right trivial).symm
  | assign l e ih₁ ih₂ | comma l e ih₁ ih₂ =>
    exact (exists_bind_iff (eq_standIn E sym l) ih₁ ih₂).trans (and_iff_right trivial).symm
  | modop l op e ih₁ ih₂ | call l e ih₁ ih₂ | cons l e ih₁ ih₂ =>
    exact Iff.trans (exists_bind_iff (eq_standIn E sym l) ih₁ (exists_bind_iff (eq_standIn E sym e)
      ih₂ (iff_true_intro ⟨_, rfl⟩))) and_rotate.symm
  | member x mname as ih =>
    exact Iff.trans (exists_bind_iff (eq_standIn E sym as) ih (iff_true_intro ⟨_, rfl⟩)) and_comm

/-! ## Constants -/

/-- `E` with other results of the calls. -/
def Env.calling (E : Env) (call : CallFrame → World → BitVec 64 × World) : Env :=
  { E with call := call }

/-- An evaluation that succeeds passes up the placeholders of the constants in it, whether they are
skipped in it or not. -/
theorem accepts_constants (E : Env) (call : CallFrame → World → BitVec 64 × World)
    (sym : SymId → CexpTypedAddr) {c : Cat} (n : Node c) : ∀ s, Post (eval (E.calling call) n) s
      fun v _ => (n.Constant → placeholder E sym n = .ok v) ∧
        n.All fun n => n.Constant → RuleAccepts E sym n := by
  -- the rule of a constant accepts its operands, because it passes up a value
  have hroot : ∀ {c : Cat} {n : Node c} {v : c.Sem}, (n.Constant → placeholder E sym n = .ok v) →
      n.Constant → RuleAccepts E sym n := fun h hn =>
    ((placeholder_ok_iff E sym _).mp ⟨_, h hn⟩).root
  have hnone : ∀ {c : Cat} {n : Node c} {P : Prop}, ¬n.Constant → n.Constant → P :=
    fun h hn => absurd hn h
  induction n with
  | number v => exact fun s => Post.pure ⟨fun _ => rfl, fun _ => trivial⟩
  | nil => exact fun s => Post.pure ⟨fun _ => rfl, fun _ => trivial⟩
  | func | addr | var => exact fun s => Post.mono (post_self _ s) fun _ _ _ => ⟨hnone id, hnone id⟩
  | post l op ih | pre l op ih =>
    exact fun s => Post.bind (ih s) fun a s₁ ⟨_, hl⟩ =>
      Post.mono (post_self _ s₁) fun _ _ _ => ⟨hnone id, hnone id, hl⟩
  | not e ih =>
    intro s
    refine Post.bind (ih s) fun v s₁ ⟨hv, he⟩ => post_CHECK fun r hr => ?_
    have hph : e.Constant → placeholder E sym (.not e) = .ok r := fun hc =>
      bind_eq_ok.mpr ⟨v, hv hc, hr⟩
    exact ⟨hph, hroot hph, he⟩
  | unop op e ih =>
    intro s
    refine Post.bind (ih s) fun v s₁ ⟨hv, he⟩ => post_CHECK fun r hr => ?_
    have hph : e.Constant → placeholder E sym (.unop op e) = .ok r := fun hc =>
      bind_eq_ok.mpr ⟨v, hv hc, hr⟩
    exact ⟨hph, hroot hph, he⟩
  | cast t e ih =>
    intro s
    refine Post.bind (post_CHECK fun t' ht => ht) fun t' s₁ ht =>
      Post.bind (ih s₁) fun v s₂ ⟨hv, he⟩ => post_CHECK fun r hr => ?_
    have hph : e.Constant → placeholder E sym (.cast t e) = .ok r := fun hc =>
      bind_eq_ok.mpr ⟨t', ht, bind_eq_ok.mpr ⟨v, hv hc, hr⟩⟩
    exact ⟨hph, hroot hph, he⟩
  | binop op e₁ e₂ ih₁ ih₂ =>
    intro s
    refine Post.bind (ih₁ s) fun v₁ s₁ ⟨hv₁, he₁⟩ =>
      Post.bind (ih₂ s₁) fun v₂ s₂ ⟨hv₂, he₂⟩ => post_CHECK fun r hr => ?_
    have hph : e₁.Constant ∧ e₂.Constant → placeholder E sym (.binop op e₁ e₂) = .ok r := fun hc =>
      bind_eq_ok.mpr ⟨v₁, hv₁ hc.1, bind_eq_ok.mpr ⟨v₂, hv₂ hc.2, hr⟩⟩
    exact ⟨hph, hroot hph, he₁, he₂⟩
  | logic k e₁ e₂ ih₁ ih₂ =>
    intro s
    refine Post.bind (ih₁ s) fun v₁ s₁ ⟨hv₁, he₁⟩ => Post.bind (post_CHECK fun left h => h)
      fun left s₂ hleft => Post.bind (post_self _ s₂) fun _ s₃ _ =>
        Post.bind (post_self _ s₃) fun _ s₄ _ => Post.bind (ih₂ s₄) fun v₂ s₅ ⟨hv₂, he₂⟩ =>
          Post.bind (post_CHECK fun r hr => hr) fun r s₆ hr =>
            Post.bind (post_self _ s₆) fun _ s₇ _ => Post.pure ?_
    have hph : e₁.Constant ∧ e₂.Constant → placeholder E sym (.logic k e₁ e₂) = .ok r := fun hc =>
      bind_eq_ok.mpr ⟨v₁, hv₁ hc.1, bind_eq_ok.mpr ⟨left, hleft,
        bind_eq_ok.mpr ⟨v₂, hv₂ hc.2, hr⟩⟩⟩
    exact ⟨hph, hroot hph, he₁, he₂⟩
  | assign l e ih₁ ih₂ =>
    exact fun s => Post.bind (ih₁ s) fun a s₁ ⟨_, hl⟩ => Post.bind (ih₂ s₁) fun v s₂ ⟨_, he⟩ =>
      Post.bind (post_self _ s₂) fun _ _ _ => Post.pure ⟨hnone id, hnone id, hl, he⟩
  | modop l op e ih₁ ih₂ | call l e ih₁ ih₂ =>
    exact fun s => Post.bind (ih₁ s) fun a s₁ ⟨_, hl⟩ => Post.bind (ih₂ s₁) fun v s₂ ⟨_, he⟩ =>
      Post.mono (post_self _ s₂) fun _ _ _ => ⟨hnone id, hnone id, hl, he⟩
  | create name e ih =>
    exact fun s => Post.bind (ih s) fun v s₁ ⟨_, he⟩ =>
      Post.bind (post_self _ s₁) fun _ _ _ => Post.pure ⟨hnone id, hnone id, he⟩
  | comma e₁ e₂ ih₁ ih₂ =>
    refine fun s => Post.bind (ih₁ s) fun v₁ s₁ ⟨hv₁, he₁⟩ =>
      Post.mono (ih₂ s₁) fun v₂ s₂ ⟨hv₂, he₂⟩ => ⟨fun hc => ?_, fun _ => trivial, he₁, he₂⟩
    exact bind_eq_ok.mpr ⟨v₁, hv₁ hc.1, hv₂ hc.2⟩
  | member x mname as ih =>
    exact fun s => Post.bind (ih s) fun v s₁ ⟨_, has⟩ =>
      Post.mono (post_self _ s₁) fun _ _ _ => ⟨hnone id, hnone id, has⟩
  | deref e ih =>
    exact fun s => Post.bind (ih s) fun v s₁ ⟨_, he⟩ =>
      Post.mono (post_self _ s₁) fun _ _ _ => ⟨hnone id, hnone id, he⟩
  | cons e as ih₁ ih₂ =>
    refine fun s => Post.bind (ih₁ s) fun v s₁ ⟨hv, he⟩ =>
      Post.bind (ih₂ s₁) fun vs s₂ ⟨hvs, has⟩ => Post.pure ⟨fun hc => ?_, fun _ => trivial, he, has⟩
    exact bind_eq_ok.mpr ⟨v, hv hc.1, bind_eq_ok.mpr ⟨vs, hvs hc.2, rfl⟩⟩

/-! ## Lines with a skipped operand -/

/-- The operand succeeds when it is evaluated, for some values of the variables, that is
some memory, and some results of the calls in it. -/
def Admissible (E : Env) (sym : SymId → CexpTypedAddr) (e : Node .exp) : Prop :=
  ∃ call s v s', s.evalInhibit = 0 ∧ s.world.sym = sym ∧ eval (E.calling call) e s = .ok v s'

/-- The line `a && e` (`a || e`) succeeds with value `0` (`1`). -/
def Yields (E : Env) (k : Logic) (a e : Node .exp) (s : St) : Prop :=
  ∃ s', parseLine E (.commaexp (.logic k a e)) s.reset =
    .ok ⟨ofBool (k = .or), CexpType.TULong E.machine.dm⟩ s'

theorem Admissible.tolerates_iff {E : Env} {sym : SymId → CexpTypedAddr} {e : Node .exp}
    (h : Admissible E sym e) : Tolerates E sym e ↔ ∃ u, placeholder E sym e = .ok u := by
  obtain ⟨call, s, v, s', -, -, hrun⟩ := h
  have hconst := (accepts_constants E call sym e s v s' hrun).2
  rw [placeholder_ok_iff]
  constructor
  · refine Node.All.combine (fun n hc hn => ?_) e hconst
    by_cases hn' : n.Constant
    · exact hc hn'
    · exact hn hn'
  · exact fun hall => Node.All.combine (fun n hn _ => fun _ => hn) e hall hall

/-- A truth value prints as it is. -/
theorem printCast_ofBool (m : Machine) (b : Bool) :
    printCast m ⟨ofBool b, CexpType.TULong m.dm⟩ = .ok () := by
  have hlong := (integral_ulong m.dm).facts
  have hchar : TULong m.dm ≠ TUChar := by cases m.dm <;> decide
  rw [printCast, hlong.fpq, if_neg Bool.false_ne_true, if_neg hchar,
    cexpTypeCast_ulong m (integral_ulong m.dm).uint]

section

variable {E : Env} {k : Logic} {a e : Node .exp} {s s₁ : St} {v : CexpTypedVal} {left : Bool}

/-- The operand that follows a left operand that decides is parsed with one bit set. -/
theorem eval_logic_decided (ha : eval E a s = .ok v s₁) (hs₁ : Reg 0 s₁)
    (hleft : cexpTVTrueQ E.machine v = .ok left) (hk : ¬(⟨k, left⟩ : Guard).Passes) :
    ∃ s₂, s₂.world = s₁.world ∧ Reg (BitStack.toNat [true]) s₂ ∧
      eval E (.logic k a e) s = (do
        let v₂ ← eval E e
        let r ← CHECK (logicResult E.machine k left v₂)
        POPEVAL
        return r) s₂ := by
  have hcheck : CHECK (cexpTVTrueQ E.machine v) s₁ = .ok left s₁ := by
    rw [hleft]
    rfl
  have hnote : Reg (BitStack.toNat []) { s₁ with log := s₁.log ++ [.left left] } := hs₁
  have hpush := ((means_PSHEVAL E.machine.dm ⟨k, left⟩ hnote).ok rfl).2.2
  rw [push_nil] at hpush
  have hset := hpush.trans (congrArg (fun b => BitStack.toNat [b])
    (Guard.inhibits_of_not_passes hk))
  refine ⟨_, ?_, hset, ?_⟩
  · rfl
  · rw [eval, bind_ok ha, bind_ok hcheck]
    rfl

/-- It decides how the line ends. -/
theorem yields_iff_placeholder (ha : eval E a s.reset = .ok v s₁)
    (hleft : cexpTVTrueQ E.machine v = .ok left) (hk : ¬(⟨k, left⟩ : Guard).Passes)
    (he : Inhibited E s₁.world.sym e [true]) :
    Yields E k a e s ↔ ∃ u, placeholder E s₁.world.sym e = .ok u := by
  obtain ⟨s₂, hw, hreg, heval⟩ :=
    eval_logic_decided (e := e) ha (eval_register E a rfl ha) hleft hk
  have hlen : [true].length ≤ E.machine.dm.longBits := by
    cases E.machine.dm <;> decide
  have hskips := eval_skips E e [true] s₂ hlen hreg (hw.symm ▸ he)
  cases hrun : eval E e s₂ with
  | error stop s₃ =>
    have hstop := (hskips.error hrun).1
    refine iff_of_false ?_ ?_
    · rintro ⟨s', hs'⟩
      rw [bind_error hrun] at heval
      rw [parseLine_commaexp_error heval] at hs'
      cases hs'
    · rintro ⟨u, hu⟩
      rw [← hw] at hu
      cases (atSym_ok hu).symm.trans hstop
  | ok u s₃ =>
    have hu := (eq_of_atSym (hskips.ok hrun).1).1
    rw [hw] at hu
    refine iff_of_true ?_ ⟨u, hu⟩
    have hresult : logicResult E.machine k left u = _ := logicResult_of_inhibits hk u
    have hend : CHECK (logicResult E.machine k left u) s₃ =
        .ok ⟨ofBool (k = .or), CexpType.TULong E.machine.dm⟩ s₃ := by
      rw [hresult]
      rfl
    exact ⟨_, parseLine_printed (heval.trans ((bind_ok hrun).trans (bind_ok hend)))
      (printCast_ofBool _ _)⟩

end

/-- An operand that stays inhibited is transparent if and only if every rule of it that sees more
than constants accepts what stands in for its operands. It stays inhibited if it nests fewer
operators than the register has bits. -/
theorem inhibited_transparent_iff (E : Env) (k : Logic) (a e : Node .exp) (s s₁ : St)
    (v : CexpTypedVal) (left : Bool) (ha : eval E a s.reset = .ok v s₁)
    (hleft : cexpTVTrueQ E.machine v = .ok left) (hk : ¬(⟨k, left⟩ : Guard).Passes)
    (he : Admissible E s₁.world.sym e) :
    (Inhibited E s₁.world.sym e [true] → (Yields E k a e s ↔ Tolerates E s₁.world.sym e)) ∧
      (guardDepth e < E.machine.dm.longBits → Inhibited E s₁.world.sym e [true]) := by
  refine ⟨fun hin => ?_, inhibited_of_guardDepth E s₁.world.sym⟩
  rw [he.tolerates_iff]
  exact yields_iff_placeholder ha hleft hk hin

/-! ## Stand-ins that a rule rejects -/

/-- `2*f()`, accepted when it is evaluated because `f` returns a `long`. -/
def twiceCall : Node .exp := .binop .OMul (ulong 2) (.call (.func 0) .nil)

/-- `1/!x` for a variable `x` -/
def overNot : Node .exp := .binop .ODiv (ulong 1) (.not (.post (.var 1) .ONoop))

-- a number is not multiplied by a function pointer, and `!` of an address is zero
example : ¬RuleAccepts hostEnv hostSt.world.sym twiceCall := fun h => absurd h.1 (by decide)

example : ¬RuleAccepts hostEnv hostSt.world.sym overNot := by
  intro h
  have haccepts : ArithmeticAccepts hostEnv.machine .ODiv _ _ := h
  exact (haccepts.scalar (by decide)).2 (.inl rfl) (by decide)

theorem admissible_of_logOf {E : Env} {s : St} {e : Node .exp} (h0 : s.evalInhibit = 0)
    (h : (logOf (eval E e s)).isSome = true) : Admissible E s.world.sym e := by
  cases hrun : eval E e s with
  | ok v s' => exact ⟨E.call, s, v, s', h0, rfl, hrun⟩
  | error stop s' =>
    rw [hrun] at h
    cases h

/-- `0 && f()` -/
theorem inhibited_transparent_iff_call :
    Yields hostEnv .and (ulong 0) (.call (.func 0) .nil) hostSt ↔
      Tolerates hostEnv hostSt.world.sym (.call (.func 0) .nil) := by
  have h := inhibited_transparent_iff hostEnv .and (ulong 0) (.call (.func 0) .nil) hostSt
    hostSt.reset _ false rfl (by decide) (by decide)
    (admissible_of_logOf (s := hostSt.reset) rfl (by decide +kernel))
  exact h.1 (h.2 (by decide))

/-- `0 && 2*f()` stops with a type error: the call that is not made leaves the function
pointer as its value. -/
theorem skipped_call_rejected :
    ¬ ∀ (E : Env) (k : Logic) (a e : Node .exp) (s s₁ : St) (v : CexpTypedVal) (left : Bool),
      eval E a s.reset = .ok v s₁ → cexpTVTrueQ E.machine v = .ok left →
      ¬ (⟨k, left⟩ : Guard).Passes → Admissible E s₁.world.sym e → Yields E k a e s := by
  intro hall
  obtain ⟨s', hs'⟩ := hall hostEnv .and (ulong 0) twiceCall hostSt hostSt.reset _ false rfl
    (by decide) (by decide) (admissible_of_logOf (s := hostSt.reset) rfl (by decide +kernel))
  have hbad : (logOf (parseLine hostEnv
      (.commaexp (.logic .and (ulong 0) twiceCall)) hostSt.reset)).isNone := by decide +kernel
  rw [hs'] at hbad
  cases hbad

end Cexp
