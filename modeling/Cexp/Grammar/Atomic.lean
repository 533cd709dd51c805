import Cexp.Grammar.Operations

/-!
# Failed evaluations

The result of a line is kept in memory (`ctx->rval`), where assignments can reach it: it is the
eight bytes to which the symbol record of `ans` (`ctx->rval_sym`) points.

* `Spare.ansOf`: operations that do not write to these bytes keep the value of `ans` and its type.
* `eval_usable`: a tree of lexed tokens never gives a `void` value.
* `line_atomic`: an expression line that reports an error leaves the status at an error and what
  the finished operations left; a line that succeeds has status `0`, and `ans` is its value.
-/

namespace Cexp

open CLib CexpType CexpBinOp EStateM

/-! ## The result variable -/

/-- What `ans` denotes: `ctx->rval`, of the type in the record `ctx->rval_sym`. -/
def ansOf (ans : SymId) (w : World) : CexpTypedVal :=
  ⟨w.mem.load (w.sym ans).ptv 8, (w.sym ans).type⟩

theorem ansOf_setRval (ans : SymId) (w : World) (v : CexpTypedVal) :
    ansOf ans (w.setRval ans v) = v := by
  simp [ansOf, World.setRval, Mem.load_store]

theorem St.keep_status (s : St) (ans : SymId) (v : CexpTypedVal) :
    (s.keep ans v).status = s.status := rfl

theorem St.ansOf_keep {v : CexpTypedVal} (hv : v.type ≠ TVoid) (s : St) (ans : SymId) :
    ansOf ans (s.keep ans v).world = v := by
  show ansOf ans (s.world.keep ans v) = v
  rw [World.keep, if_neg hv]
  exact ansOf_setRval ans s.world v

/-- A variable of the type of `a` at `a` shares no byte with the result at `c`. -/
def OffRval (dm : DataModel) (a : CexpTypedAddr) (c : BitVec 64) : Prop :=
  ∀ n, clearedSize dm a.type = .ok n → ∀ i < n, ∀ j < 8,
    c + BitVec.ofNat 64 j ≠ a.ptv + BitVec.ofNat 64 i

/-- The operation does not write to `ans`. What a called function does is seen in its effect. -/
def Op.Spares (E : Env) (ans : SymId) (w : World) : Op → Prop
  | post a op | pre a op => op = .ONoop ∨ OffRval E.machine.dm a (w.sym ans).ptv
  | assign a _ | modop a _ _ => OffRval E.machine.dm a (w.sym ans).ptv
  | create name v => ∀ x w', varCreate E name v.type w = .ok x w' →
      x ≠ ans ∧ OffRval E.machine.dm (w'.sym x) (w.sym ans).ptv
  | call fn args => ∀ v w', callAction E fn args w = .ok v w' → ansOf ans w' = ansOf ans w
  | member x mname args =>
      ∀ v w', memberAction E x mname args w = .ok v w' → ansOf ans w' = ansOf ans w

/-- None of the operations writes to `ans`. -/
def Spare (E : Env) (ans : SymId) : List Op → World → Prop
  | [], _ => True
  | op :: ops, w => op.Spares E ans w ∧ ∀ w', op.run E w = .ok () w' → Spare E ans ops w'

theorem load_store_disjoint {dm : DataModel} {a : CexpTypedAddr} {c : BitVec 64} {n : Nat}
    (h : OffRval dm a c) (hn : clearedSize dm a.type = .ok n) (mem : Mem) (u : BitVec 64) :
    (mem.store a.ptv u n).load c 8 = mem.load c 8 :=
  Mem.load_congr 8 fun j hj => Mem.store_outside n fun i hi => h n hn i hi j hj

theorem Writes.ansOf {dm : DataModel} {a : CexpTypedAddr} {ans : SymId} {w w' : World}
    (h : Writes dm a w w') (ha : OffRval dm a (w.sym ans).ptv) : ansOf ans w' = ansOf ans w := by
  obtain ⟨n, u, hn, rfl⟩ := h
  simp only [Cexp.ansOf, load_store_disjoint ha hn]

theorem Op.Spares.ansOf {E : Env} {ans : SymId} {op : Op} {w w' : World} (hs : op.Spares E ans w)
    (h : op.run E w = .ok () w') : ansOf ans w' = ansOf ans w := by
  cases op with
  | post a op =>
    obtain ⟨v, hv⟩ := effect_ok h
    by_cases hop : op = .ONoop
    · subst hop
      rw [(postfixAction_silent E.machine a w).of_ok hv]
    · exact ((postfixAction_atomicAt E.machine a hop w).of_ok hv).ansOf (hs.resolve_left hop)
  | pre a op =>
    obtain ⟨v, hv⟩ := effect_ok h
    by_cases hop : op = .ONoop
    · subst hop
      rw [(prefixAction_silent E.machine a w).of_ok hv]
    · exact ((prefixAction_atomicAt E.machine a hop w).of_ok hv).ansOf (hs.resolve_left hop)
  | assign a v =>
    obtain ⟨r, hr⟩ := effect_ok h
    exact ((assignAction_atomicAt E.machine a v w).of_ok hr).ansOf hs
  | modop a op x =>
    obtain ⟨v, hv⟩ := effect_ok h
    exact ((modopAction_atomicAt E.machine a op x w).of_ok hv).ansOf hs
  | create name v =>
    obtain ⟨r, hr⟩ := effect_ok h
    rcases createAction_cases E name v w with ⟨msg, h'⟩ | ⟨e, w₁, h'⟩ | ⟨x, w₁, w₂, hx, h', hsym,
      n, u, hn, hw₂⟩
    · cases h'.symm.trans hr
    · cases h'.symm.trans hr
    · cases h'.symm.trans hr
      obtain ⟨hne, hdisj⟩ := hs x w₁ hx
      rw [hw₂]
      simp only [Cexp.ansOf, hsym ans hne.symm, load_store_disjoint hdisj hn]
  | call fn args =>
    obtain ⟨v, hv⟩ := effect_ok h
    exact hs v w' hv
  | member x mname args =>
    obtain ⟨v, hv⟩ := effect_ok h
    exact hs v w' hv

/-- Operations that do not write to `ans` keep its value and its type. -/
theorem Spare.ansOf {E : Env} {ans : SymId} {ops : List Op} {w w' : World}
    (hs : Spare E ans ops w) (hp : Performs (Op.run E) w ops w') : ansOf ans w' = ansOf ans w := by
  induction hp with
  | nil w => rfl
  | cons hop _ ih => rw [ih (hs.2 _ hop), hs.1.ansOf hop]

/-! ## Types of values -/

/-- A code with the function bit is one of the two function types. -/
def CexpType.Plain (dm : DataModel) (t : CexpType) : Prop :=
  t.funq = true → t = TFuncP dm ∨ t = TDFuncP

/-- The type of a value: not `void`, and what a function returns is not `void` either. -/
structure CexpType.Valued (dm : DataModel) (t : CexpType) : Prop where
  notVoid : t ≠ TVoid
  plain : t.Plain dm

theorem valued_ulong (dm : DataModel) : (TULong dm).Valued dm := by
  cases dm <;> exact ⟨by decide, fun h => by cases h⟩

theorem valued_double (dm : DataModel) : TDouble.Valued dm := ⟨by decide, fun h => by cases h⟩

theorem valued_char (dm : DataModel) : TUChar.Valued dm := ⟨by decide, fun h => by cases h⟩

theorem valued_charP (dm : DataModel) : TUCharP.Valued dm := ⟨by decide, fun h => by cases h⟩

theorem funq_base2ptr (t : CexpType) : t.base2ptr.funq = t.funq := by
  have hbit : (t.code ||| BitVec.ofNat 32 CEXP_PTR_BIT) &&& BitVec.ofNat 32 CEXP_FUN_BIT =
      t.code &&& BitVec.ofNat 32 CEXP_FUN_BIT := by
    rw [BitVec.and_comm, BitVec.and_or_distrib_left, BitVec.and_comm _ t.code]
    simp [CEXP_PTR_BIT, CEXP_FUN_BIT]
  rw [funq, funq, base2ptr, hbit]

theorem not_funq_ptr2base (t : CexpType) : t.ptr2base.funq = false := by
  have hbit : (t.code &&& ~~~BitVec.ofNat 32 (CEXP_PTR_BIT ||| CEXP_FUN_BIT)) &&&
      BitVec.ofNat 32 CEXP_FUN_BIT = 0 := by
    rw [BitVec.and_assoc]
    simp [CEXP_PTR_BIT, CEXP_FUN_BIT]
  rw [funq, ptr2base, hbit]
  rfl

theorem notVoid_of_ptrq {t : CexpType} (h : t.ptrq = true) : t ≠ TVoid := by
  rintro rfl
  cases h

/-- The address of a variable. -/
theorem valued_addr {dm : DataModel} {a : CexpTypedAddr} {v : CexpTypedVal} (ha : a.type.Plain dm)
    (h : cexpTVPtr a = .ok v) : v.type.Valued dm := by
  have hfun : (TFuncP dm).ptrq = true := by cases dm <;> rfl
  rw [cexpTVPtr] at h
  split at h
  · cases h
  · rename_i hptr
    cases h
    refine ⟨notVoid_of_ptrq (ptrq_base2ptr _), fun hbit => ?_⟩
    rw [funq_base2ptr] at hbit
    rcases ha hbit with h | h
    · rw [h] at hptr
      exact absurd hfun hptr
    · rw [h] at hptr
      exact absurd rfl hptr

/-- A variable that is read is not `void`. -/
theorem valued_read {m : Machine} {mem : Mem} {a : CexpTypedAddr} {v : CexpTypedVal}
    (ha : a.type.Plain m.dm) (h : cexpTA2TV m mem a = .ok v) : v.type.Valued m.dm := by
  rw [cexpTA2TV_type h]
  refine ⟨fun hvoid => ?_, ha⟩
  rw [cexpTA2TV, if_pos hvoid] at h
  split at h <;> cases h

/-- The value of a function is `unsigned long` or `double`. -/
theorem valued_call {m : Machine} {fn : CexpTypedVal} {args : List CexpTypedVal} {frame : CallFrame}
    (hfn : fn.type.Plain m.dm) (h : callFrame m fn args = .ok frame) :
    fn.type.ptr2base.Valued m.dm := by
  have hlong : ∀ dm, (TFuncP dm).ptr2base = TULong dm := by
    intro dm
    cases dm <;> decide
  have hdouble : TDFuncP.ptr2base = TDouble := by decide
  rw [callFrame] at h
  split at h
  · cases h
  · rename_i hfun
    rcases hfn (by simpa using hfun) with ht | ht
    · rw [ht, hlong]
      exact valued_ulong _
    · rw [ht, hdouble]
      exact valued_double _

theorem valued_declarator {dm : DataModel} {d : Declarator} {t : CexpType}
    (h : d.type dm = .ok t) : t.Valued dm := by
  have hall : ∀ dm (k : TypeId), (k.type dm ≠ TVoid ∧ (k.type dm).funq = false) ∧
      ((k.type dm).base2ptr ≠ TVoid ∧ (k.type dm).base2ptr.funq = false) := by
    intro dm k
    cases dm <;> cases k <;> decide
  have hplain : ∀ {t : CexpType}, t ≠ TVoid ∧ t.funq = false → t.Valued dm := by
    rintro t ⟨hvoid, hno⟩
    refine ⟨hvoid, fun hyes => ?_⟩
    cases hno.symm.trans hyes
  have hfun : TFuncP dm ≠ TVoid := by cases dm <;> decide
  cases d with
  | plain k =>
    cases h
    exact hplain (hall dm k).1
  | pointer k =>
    cases h
    exact hplain (hall dm k).2
  | function k =>
    cases k with
    | KW_LONG =>
      cases h
      exact ⟨hfun, fun _ => .inl rfl⟩
    | KW_DOUBLE =>
      cases h
      exact ⟨by decide, fun _ => .inr rfl⟩
    | KW_CHAR | KW_SHORT | KW_INT | KW_FLOAT => cases h

/-- Arithmetic keeps the type of the operands. -/
theorem binop_type {m : Machine} {y x₁ x₂ r : CexpTypedVal} {op : CexpBinOp}
    (h : binop m y x₁ x₂ op = .ok r) : r.type = x₁.type := by
  rw [binop] at h
  split_ifs at h with h₁ h₂ h₃ h₄
  · obtain ⟨a, -, h⟩ := bind_eq_ok.mp h
    obtain ⟨b, -, h⟩ := bind_eq_ok.mp h
    obtain ⟨u, -, h⟩ := bind_eq_ok.mp h
    exact cexpTypeCast_type h
  · obtain ⟨u, -, h⟩ := bind_eq_ok.mp h
    cases h
    exact h₃.symm
  · obtain ⟨u, -, h⟩ := bind_eq_ok.mp h
    cases h
    exact h₄.symm
  · cases h
    rfl

/-- The promotion gives the first operand one of the two types. -/
theorem promote_type {m : Machine} {x₁ x₂ : CexpTypedVal} {p : CexpTypedVal × CexpTypedVal}
    (h : cexpTypePromote m x₁ x₂ = .ok p) : p.1.type = x₁.type ∨ p.1.type = x₂.type := by
  rw [cexpTypePromote] at h
  simp only at h
  split_ifs at h
  · obtain ⟨a, ha, h⟩ := bind_eq_ok.mp h
    cases h
    exact .inr (cexpTypeCast_type ha)
  · obtain ⟨b, -, h⟩ := bind_eq_ok.mp h
    cases h
    exact .inl rfl
  · obtain ⟨a, ha, h⟩ := bind_eq_ok.mp h
    cases h
    exact .inr (cexpTypeCast_type ha)
  · obtain ⟨b, -, h⟩ := bind_eq_ok.mp h
    cases h
    exact .inl rfl

theorem stepPointer_type {m : Machine} {p n r : CexpTypedVal} {op : CexpBinOp}
    (h : stepPointer m p n op = .ok r) : r.type = p.type := by
  rw [stepPointer] at h
  split at h
  · cases h
  split at h
  · cases h
  · cases h
  · cases h
    rfl

theorem subPointers_type {m : Machine} {al : Alias} {p q r : CexpTypedVal}
    (h : subPointers m al p q = .ok r) : r.type = TULong m.dm := by
  rw [subPointers] at h
  generalize (if al = .x1 then TULong m.dm else p.type).baseTypeSize = size at h
  split at h
  · cases h
  split at h
  · cases h
  · cases h
    rfl

theorem compare_type {m : Machine} {al : Alias} {x₁ x₂ r : CexpTypedVal} {op : CexpBinOp}
    (h : compare m al x₁ x₂ op = .ok r) : r.type = TULong m.dm := by
  rw [compare] at h
  simp only at h
  split at h
  · cases h
  · obtain ⟨a, -, h⟩ := bind_eq_ok.mp h
    obtain ⟨b, -, h⟩ := bind_eq_ok.mp h
    split at h
    · obtain ⟨u, -, h⟩ := bind_eq_ok.mp h
      cases h
      rfl
    · obtain ⟨u, -, h⟩ := bind_eq_ok.mp h
      cases h
      rfl

/-- A binary operator gives an `unsigned long` or a value of the type of an operand. -/
theorem valued_binOp {m : Machine} {al : Alias} {x₁ x₂ r : CexpTypedVal} {op : CexpBinOp}
    (h₁ : x₁.type.Valued m.dm) (h₂ : x₂.type.Valued m.dm)
    (h : cexpTVBinOp m al x₁ x₂ op = .ok r) : r.type.Valued m.dm := by
  rw [cexpTVBinOp] at h
  split at h
  · rw [compare_type h]
    exact valued_ulong _
  split at h
  · split at h
    · split at h
      · cases h
      split at h
      · cases h
      · rw [subPointers_type h]
        exact valued_ulong _
    · rw [stepPointer_type h]
      exact h₁
  split at h
  · split at h
    · cases h
    · rw [stepPointer_type h]
      exact h₂
  · obtain ⟨p, hp, h⟩ := bind_eq_ok.mp h
    rw [binop_type h]
    rcases promote_type hp with ht | ht
    · rw [ht]
      exact h₁
    · rw [ht]
      exact h₂

theorem unOp_type {m : Machine} {x r : CexpTypedVal} {op : CexpUnOp}
    (h : cexpTVUnOp m x op = .ok r) : r.type = x.type := by
  cases op with
  | ONeg =>
    rw [cexpTVUnOp] at h
    split_ifs at h <;> cases h <;> rfl
  | OCpl =>
    rw [cexpTVUnOp] at h
    split_ifs at h
    obtain ⟨y, -, h⟩ := bind_eq_ok.mp h
    exact cexpTypeCast_type h

/-- The tokens that the value of a tree comes from are what the lexer took them for, when they are
read: a constant has a type, the record of a `FUNC` a function type and that of any other symbol a
member of the enumeration. -/
def TokensTyped (E : Env) : {c : Cat} → Node c → St → Prop
  | _, .number v, _ => v.type.Valued E.machine.dm
  | _, .func f, s => (s.world.sym f).type = TFuncP E.machine.dm ∨ (s.world.sym f).type = TDFuncP
  | _, .addr x, s | _, .var x, s => (s.world.sym x).type.Plain E.machine.dm
  | _, .post l _, s | _, .pre l _, s => TokensTyped E l s
  | _, .unop _ e, s | _, .create _ e, s | _, .call e _, s => TokensTyped E e s
  | _, .binop _ e₁ e₂, s =>
    TokensTyped E e₁ s ∧ ∀ v s₁, eval E e₁ s = .ok v s₁ → TokensTyped E e₂ s₁
  | _, .modop l _ e, s => TokensTyped E l s ∧ ∀ a s₁, eval E l s = .ok a s₁ → TokensTyped E e s₁
  | _, .assign l e, s => ∀ a s₁, eval E l s = .ok a s₁ → TokensTyped E e s₁
  | _, .comma e₁ e₂, s => ∀ v s₁, eval E e₁ s = .ok v s₁ → TokensTyped E e₂ s₁
  | _, .not _, _ | _, .cast _ _, _ | _, .logic _ _ _, _ | _, .member _ _ _, _ | _, .deref _, _
  | _, .nil, _ | _, .cons _ _, _ => True

/-- An expression has a value, an address a type that a value can be read from. -/
def Usable (dm : DataModel) : {c : Cat} → c.Sem → Prop
  | .exp, v => CexpType.Valued dm (CexpTypedVal.type v)
  | .lval, a => CexpType.Plain dm (CexpTypedAddr.type a)
  | .args, _ => True

/-- A run that starts with the register at zero ends so. -/
theorem eval_register (E : Env) {c : Cat} (n : Node c) {s s' : St} {v : c.Sem}
    (h0 : s.evalInhibit = 0) (h : eval E n s = .ok v s') : s'.evalInhibit = 0 := by
  have hsame := eval_blind_zero E n s s rfl h0 h0
  rw [h] at hsame
  exact hsame.2.2.1

theorem post_CHECK {α σ : Type} {r : Except Stop α} {s : σ} {P : α → Prop}
    (h : ∀ a, r = .ok a → P a) : Post (CHECK r) s fun a _ => P a := by
  intro a s' hrun
  cases r with
  | error e => cases hrun
  | ok b =>
    cases hrun
    exact h a rfl

theorem post_EVAL {α : Type} {k : ActionKind} {dflt : α} {stuff : EStateM Stop World α} {s : St}
    {P : α → Prop} (h0 : s.evalInhibit = 0)
    (h : ∀ w, Post stuff w fun a _ => P a) : Post (EVAL k dflt stuff) s fun a _ => P a := by
  intro a s' hrun
  simp only [EVAL, h0, decide_true, if_true, onWorld] at hrun
  cases hstuff : stuff s.world with
  | error e w =>
    rw [hstuff] at hrun
    cases hrun
  | ok b w =>
    rw [hstuff] at hrun
    cases hrun
    exact h s.world a w hstuff

theorem post_readAction {m : Machine} {a : CexpTypedAddr} (ha : a.type.Plain m.dm) (w : World) :
    Post (readAction m a) w fun v _ => v.type.Valued m.dm := by
  intro v w' h
  rw [readAction] at h
  cases hread : cexpTA2TV m w.mem a with
  | error e =>
    rw [hread] at h
    cases h
  | ok v' =>
    rw [hread] at h
    cases h
    exact valued_read ha hread

theorem post_self {α σ : Type} (x : EStateM Stop σ α) (s : σ) :
    Post x s fun a s' => x s = .ok a s' := fun _ _ h => h

section

variable {m : Machine} {a : CexpTypedAddr} {op : CexpBinOp}

theorem post_postfixAction (ha : a.type.Plain m.dm) (w : World) :
    Post (postfixAction m a op) w fun v _ => v.type.Valued m.dm := by
  refine Post.bind (post_readAction ha w) fun v w₁ hv => ?_
  by_cases hop : op ≠ .ONoop
  · simp only [if_pos hop]
    exact Post.bind (post_self _ _) fun _ _ _ => Post.bind (post_self _ _) fun _ _ _ => Post.pure hv
  · simp only [if_neg hop]
    exact Post.pure hv

theorem post_prefixAction (ha : a.type.Plain m.dm) (w : World) :
    Post (prefixAction m a op) w fun v _ => v.type.Valued m.dm := by
  refine Post.bind (post_readAction ha w) fun v w₁ hv => ?_
  by_cases hop : op ≠ .ONoop
  · simp only [if_pos hop]
    refine Post.bind (post_CHECK fun r hr => valued_binOp hv (valued_char m.dm) hr) fun r _ hr => ?_
    exact Post.bind (post_self _ _) fun _ _ _ => Post.pure hr
  · simp only [if_neg hop]
    exact Post.pure hv

theorem post_modopAction {x : CexpTypedVal} (ha : a.type.Plain m.dm) (hx : x.type.Valued m.dm)
    (w : World) : Post (modopAction m a op x) w fun v _ => v.type.Valued m.dm := by
  refine Post.bind (post_readAction ha w) fun v w₁ hv => ?_
  refine Post.bind (post_CHECK fun r hr => valued_binOp hv hx hr) fun r _ hr => ?_
  exact Post.bind (post_self _ _) fun _ _ _ => Post.pure hr

end

theorem post_callAction {E : Env} {fn : CexpTypedVal} {args : List CexpTypedVal}
    (hfn : fn.type.Plain E.machine.dm) (w : World) :
    Post (callAction E fn args) w fun v _ => v.type.Valued E.machine.dm := by
  refine Post.bind (post_CHECK fun frame hframe => valued_call hfn hframe) fun frame w₁ ht => ?_
  intro v w' h
  cases h
  exact ht

theorem post_memberAction (E : Env) (x : SymId) (mname : String) (args : List CexpTypedVal)
    (w : World) : Post (memberAction E x mname args) w fun v _ => v.type.Valued E.machine.dm := by
  rw [memberAction]
  split
  · refine Post.bind (post_self _ _) fun w₁ _ _ => Post.bind (post_self _ _) fun new w₂ _ => ?_
    cases new with
    | none => exact Post.pure (valued_charP _)
    | some s =>
      intro v w' h
      cases h
      exact valued_charP _
  · exact Post.throw

/-- What is true or false is an `unsigned long`. -/
theorem logicResult_type {m : Machine} {k : Logic} {left : Bool} {b r : CexpTypedVal}
    (h : logicResult m k left b = .ok r) : r.type = TULong m.dm := by
  rw [logicResult] at h
  split at h
  · cases h
    rfl
  · split at h
    · cases h
      rfl
    · cases h

theorem notResult_type {m : Machine} {v r : CexpTypedVal} (h : notResult m v = .ok r) :
    r.type = TULong m.dm := by
  rw [notResult] at h
  split at h
  · cases h
    rfl
  · cases h

/-- By induction on the tree: only at `FUNC`, at constants and at the records of variables does a
type come from outside, and an executed action never gives `void`. -/
theorem eval_usable (E : Env) {c : Cat} (n : Node c) : ∀ s, s.evalInhibit = 0 →
    TokensTyped E n s → Post (eval E n) s fun v _ => Usable E.machine.dm v := by
  induction n with
  | number v => exact fun s _ ht => Post.pure ht
  | func f =>
    intro s _ ht v s' h
    cases h
    refine ⟨?_, fun _ => ht⟩
    change (s.world.sym f).type ≠ TVoid
    rcases ht with ht | ht
    · rw [ht]
      exact notVoid_of_ptrq (by cases E.machine.dm <;> rfl)
    · rw [ht]
      exact notVoid_of_ptrq rfl
  | addr x => exact fun s _ ht => post_CHECK fun v hv => valued_addr ht hv
  | post l op ih =>
    intro s h0 ht
    refine Post.bind (post_self _ s) fun a s₁ hl => ?_
    exact post_EVAL (eval_register E l h0 hl) (post_postfixAction (ih s h0 ht a s₁ hl))
  | pre l op ih =>
    intro s h0 ht
    refine Post.bind (post_self _ s) fun a s₁ hl => ?_
    exact post_EVAL (eval_register E l h0 hl) (post_prefixAction (ih s h0 ht a s₁ hl))
  | not e ih =>
    intro s h0 _
    refine Post.bind (post_self _ s) fun v s₁ _ => post_CHECK fun r hr => ?_
    change r.type.Valued _
    rw [notResult_type hr]
    exact valued_ulong _
  | unop op e ih =>
    intro s h0 ht
    refine Post.bind (ih s h0 ht) fun v s₁ hv => post_CHECK fun r hr => ?_
    change r.type.Valued _
    rw [unOp_type hr]
    exact hv
  | cast t e ih =>
    intro s h0 _
    refine Post.bind (post_CHECK fun t' ht' => valued_declarator ht') fun t' s₁ ht' => ?_
    refine Post.bind (post_self _ s₁) fun v s₂ _ => post_CHECK fun r hr => ?_
    change r.type.Valued _
    rw [cexpTypeCast_type hr]
    exact ht'
  | binop op e₁ e₂ ih₁ ih₂ =>
    intro s h0 ht
    refine Post.bind (post_self _ s) fun v₁ s₁ h₁ => ?_
    refine Post.bind (ih₂ s₁ (eval_register E e₁ h0 h₁) (ht.2 v₁ s₁ h₁)) fun v₂ s₂ hv₂ => ?_
    exact post_CHECK fun r hr => valued_binOp (ih₁ s h0 ht.1 v₁ s₁ h₁) hv₂ hr
  | logic k e₁ e₂ ih₁ ih₂ =>
    intro s h0 _
    refine Post.bind (post_self _ s) fun v₁ s₁ _ => Post.bind (post_self _ s₁) fun left s₂ _ =>
      Post.bind (post_self _ s₂) fun _ s₃ _ => Post.bind (post_self _ s₃) fun _ s₄ _ =>
        Post.bind (post_self _ s₄) fun v₂ s₅ _ => ?_
    refine Post.bind (post_CHECK fun r hr => logicResult_type hr) fun r s₆ hr =>
      Post.bind (post_self _ s₆) fun _ s₇ _ => Post.pure ?_
    change r.type.Valued _
    rw [hr]
    exact valued_ulong _
  | assign l e ih₁ ih₂ =>
    intro s h0 ht
    refine Post.bind (post_self _ s) fun a s₁ h₁ => ?_
    refine Post.bind (ih₂ s₁ (eval_register E l h0 h₁) (ht a s₁ h₁)) fun v s₂ hv => ?_
    exact Post.bind (post_self _ s₂) fun _ s₃ _ => Post.pure hv
  | modop l op e ih₁ ih₂ =>
    intro s h0 ht
    refine Post.bind (post_self _ s) fun a s₁ h₁ => Post.bind (post_self _ s₁) fun v s₂ h₂ => ?_
    have h1 := eval_register E l h0 h₁
    exact post_EVAL (eval_register E e h1 h₂)
      (post_modopAction (ih₁ s h0 ht.1 a s₁ h₁) (ih₂ s₁ h1 (ht.2 a s₁ h₁) v s₂ h₂))
  | create name e ih =>
    intro s h0 ht
    refine Post.bind (ih s h0 ht) fun v s₁ hv => ?_
    exact Post.bind (post_self _ s₁) fun _ s₂ _ => Post.pure hv
  | comma e₁ e₂ ih₁ ih₂ =>
    intro s h0 ht
    refine Post.bind (post_self _ s) fun v₁ s₁ h₁ => ?_
    exact ih₂ s₁ (eval_register E e₁ h0 h₁) (ht v₁ s₁ h₁)
  | call f as ih₁ ih₂ =>
    intro s h0 ht
    refine Post.bind (post_self _ s) fun fn s₁ h₁ => Post.bind (post_self _ s₁) fun args s₂ h₂ => ?_
    have h1 := eval_register E f h0 h₁
    exact post_EVAL (eval_register E as h1 h₂) (post_callAction (ih₁ s h0 ht fn s₁ h₁).plain)
  | member x mname as ih =>
    intro s h0 _
    refine Post.bind (post_self _ s) fun args s₁ h₁ => ?_
    exact post_EVAL (eval_register E as h0 h₁) (post_memberAction E x mname args)
  | var x =>
    intro s _ ht a s' h
    cases h
    exact ht
  | deref e ih =>
    intro s _ _
    refine Post.bind (post_self _ s) fun v s₁ _ => post_CHECK fun a ha => ?_
    unfold derefLval at ha
    split at ha
    · cases ha
    · cases ha
      intro hfun
      cases (not_funq_ptr2base v.type).symm.trans hfun
  | nil => exact fun s _ _ => Post.pure trivial
  | cons e as ih₁ ih₂ => exact fun s _ _ _ _ _ => trivial

/-! ## Lines -/

section

variable {E : Env} {ans : SymId} {e : Node .exp} {s s' s₁ : St} {v : CexpTypedVal} {stop : Stop}

/-- A line that stops has begun the operations of its tree: it stopped between two of them or in
the last one, or its value cannot be printed. -/
theorem parseLineAns_error (h : parseLineAns E ans (.commaexp e) s = .error stop s') :
    Breaks (Op.run E) stop s.world (operations E e s) s'.world ∧ s'.status = s.status := by
  have htrace := eval_traces E e s
  cases heval : eval E e s with
  | error e' s₁ =>
    obtain ⟨hbreaks, hframe⟩ := Traces.error htrace heval
    rw [parseLineAns, bind_error (parseLine_commaexp_error heval)] at h
    cases h
    exact ⟨hbreaks, congrArg Prod.snd hframe⟩
  | ok v s₁ =>
    obtain ⟨hops, hframe⟩ := Traces.ok htrace heval
    cases hprint : printCast E.machine v with
    | error e' =>
      rw [parseLineAns, bind_error (parseLine_unprintable heval hprint)] at h
      cases h
      exact ⟨.between hops, congrArg Prod.snd hframe⟩
    | ok _ =>
      rw [parseLineAns, bind_ok (parseLine_printed heval hprint)] at h
      cases h

/-- A line that succeeds keeps the value of its tree, unless that is `void`. -/
theorem parseLineAns_ok (h : parseLineAns E ans (.commaexp e) s = .ok v s') :
    s'.status = 0 ∧ (∃ s₁, eval E e s = .ok v s₁) ∧ (v.type ≠ TVoid → ansOf ans s'.world = v) := by
  cases heval : eval E e s with
  | error e' s₁ =>
    rw [parseLineAns, bind_error (parseLine_commaexp_error heval)] at h
    cases h
  | ok v₁ s₁ =>
    cases hprint : printCast E.machine v₁ with
    | error e' =>
      rw [parseLineAns, bind_error (parseLine_unprintable heval hprint)] at h
      cases h
    | ok _ =>
      rw [parseLineAns, bind_ok (parseLine_printed heval hprint)] at h
      cases h
      exact ⟨St.keep_status _ ans v, ⟨s₁, rfl⟩, fun hv => St.ansOf_keep hv _ ans⟩

end

/-- An expression line either fails or has its full effect. If it stops, the status is an error
and `ans` is what the finished operations left; the operation that failed left all of memory and
all types as they were, if it was an assignment or reported an error. If the line succeeds, the
status is `0` and `ans` is its value. -/
theorem line_atomic (E : Env) (ans : SymId) (e : Node .exp) (s s' : St) :
    (∀ stop, parseLineAns E ans (.commaexp e) s.reset = .error stop s' →
      s'.status = -1 ∧ ∃ done w, Performs (Op.run E) s.world done w ∧
        (Spare E ans done s.world → ansOf ans w = ansOf ans s.world) ∧
        (operations E e s.reset = done ∧ s'.world = w ∨
          ∃ op, operations E e s.reset = done ++ [op] ∧ op.run E w = .error stop s'.world ∧
            (op.Assigns ∨ (∃ msg, stop = .error msg) → s'.world = w))) ∧
    ∀ v, TokensTyped E e s.reset → parseLineAns E ans (.commaexp e) s.reset = .ok v s' →
      s'.status = 0 ∧ ansOf ans s'.world = v := by
  constructor
  · intro stop h
    obtain ⟨hbreaks, hstatus⟩ := parseLineAns_error h
    refine ⟨hstatus, ?_⟩
    generalize operations E e s.reset = ops at hbreaks ⊢
    cases hbreaks with
    | between hops => exact ⟨ops, _, hops, fun hspare => hspare.ansOf hops, .inl ⟨rfl, rfl⟩⟩
    | failed hops hop =>
      refine ⟨_, _, hops, fun hspare => hspare.ansOf hops, .inr ⟨_, rfl, hop, ?_⟩⟩
      rintro (hassigns | ⟨msg, rfl⟩)
      · exact hassigns.run_error hop
      · exact Op.run_message hop
  · intro v ht h
    obtain ⟨hstatus, ⟨s₁, heval⟩, hans⟩ := parseLineAns_ok h
    have hv : v.type.Valued E.machine.dm := eval_usable E e s.reset rfl ht v s₁ heval
    exact ⟨hstatus, hans hv.notVoid⟩

/-- Symbol `0` is a variable of type `short`, symbol `1` is `ans`. -/
def shortSt : St :=
  { hostSt with world := { hostSt.world with
      sym := fun x => if x = 0 then ⟨0x2000, TUShort⟩ else ⟨0x3000, TULong .lp64⟩ } }

/-- `x = n` -/
def assignShort (n : Nat) : Node .exp := .assign (.var 0) (ulong n)

/-- `x = 70000` does not fit, `x = 5` does. -/
theorem line_atomic_short :
    (∃ s', parseLineAns hostEnv 1 (.commaexp (assignShort 70000)) shortSt.reset =
        .error castRefused s' ∧ s'.status = -1) ∧
      ∃ s', parseLineAns hostEnv 1 (.commaexp (assignShort 5)) shortSt.reset =
        .ok ⟨5, TULong .lp64⟩ s' ∧ s'.status = 0 ∧ ansOf 1 s'.world = ⟨5, TULong .lp64⟩ := by
  constructor
  · obtain ⟨s', h⟩ : ∃ s', parseLineAns hostEnv 1 (.commaexp (assignShort 70000)) shortSt.reset =
        .error castRefused s' := ⟨_, rfl⟩
    exact ⟨s', h, ((line_atomic hostEnv 1 (assignShort 70000) shortSt s').1 _ h).1⟩
  · obtain ⟨s', h⟩ : ∃ s', parseLineAns hostEnv 1 (.commaexp (assignShort 5)) shortSt.reset =
        .ok ⟨5, TULong .lp64⟩ s' := ⟨_, rfl⟩
    have htyped : TokensTyped hostEnv (assignShort 5) shortSt.reset := by
      intro a s₁ _
      exact valued_ulong .lp64
    exact ⟨s', h, (line_atomic hostEnv 1 (assignShort 5) shortSt s').2 _ htyped h⟩

end Cexp
