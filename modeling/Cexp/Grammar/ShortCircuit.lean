import Cexp.Grammar.Meaning

/-!
# Short-circuit evaluation

`EVAL` must skip an action exactly when some `&&` with a false left operand or some `||`
with a true one has the action in its right operand. `obey` reads the log of a parse along the
tree, with the operators of the tree whose right operands it is in, and holds each `EVAL` against
them; the tree is obeyed if that accounts for the whole log (`Obeyed`).

The register has one bit for each of these operators but only as many bits as an `unsigned long`,
so an operator whose right operand opens that many further ones loses its bit. The law holds of a
line exactly if the register inhibits all operands that C leaves out (`parseLine_lawful_iff`);
`0 && (1 && (1 && ... f()))` with 65 operators calls `f` on a 64-bit target (`deepCall_unlawful`).
-/

namespace Cexp

open EStateM BitStack

/-! ## The law -/

/-- The next event is an `EVAL` of the kind `k`, executed exactly if all operators around it let it
through. -/
def obeyEVAL (gs : List Guard) (k : ActionKind) : List Event → Option (List Event)
  | .action k' run :: log =>
    if k' = k ∧ (run = true ↔ ∀ g ∈ gs, g.Passes) then some log else none
  | _ => none

/-- Read the events of a tree that is in the right operands of `gs`; what is left of the log. There
is nothing left to read where the law is broken. -/
def obey (gs : List Guard) : {c : Cat} → Node c → List Event → Option (List Event)
  | _, .number _, log | _, .func _, log | _, .addr _, log | _, .var _, log | _, .nil, log =>
    some log
  | _, .post l _, log | _, .pre l _, log => (obey gs l log).bind (obeyEVAL gs .incDec)
  | _, .not e, log | _, .unop _ e, log | _, .cast _ e, log | _, .deref e, log => obey gs e log
  | _, .binop _ e₁ e₂, log | _, .comma e₁ e₂, log => (obey gs e₁ log).bind (obey gs e₂)
  | _, .logic k e₁ e₂, log => (obey gs e₁ log).bind fun
    | .left left :: log => obey (⟨k, left⟩ :: gs) e₂ log
    | _ => none
  | _, .assign l e, log =>
    (obey gs l log).bind fun log => (obey gs e log).bind (obeyEVAL gs .assign)
  | _, .modop l _ e, log =>
    (obey gs l log).bind fun log => (obey gs e log).bind (obeyEVAL gs .opAssign)
  | _, .create _ e, log => (obey gs e log).bind (obeyEVAL gs .create)
  | _, .call f as, log =>
    (obey gs f log).bind fun log => (obey gs as log).bind (obeyEVAL gs .call)
  | _, .member _ _ as, log => (obey gs as log).bind (obeyEVAL gs .member)
  | _, .cons e as, log => (obey gs e log).bind (obey gs as)

def Line.obey : Line → List Event → Option (List Event)
  | .empty, log | .ident _, log => some log
  | .newdef _ _, log | .redef _ _ _, log => obeyEVAL [] .declare log
  | .commaexp e, log => Cexp.obey [] e log

/-- Every action of the line was executed exactly if the operators around it let it through. -/
def Line.Obeyed (line : Line) (log : List Event) : Prop := line.obey log = some []

/-! ## Reading the log of a run -/

/-- A part of a log, read by `r`: read to its end if `P`, or else not accepted, whatever comes
after it. -/
def ReadsIff (r : List Event → Option (List Event)) (seg : List Event) (P : Prop) : Prop :=
  (P ∧ ∀ rest, r (seg ++ rest) = some rest) ∨ (¬P ∧ ∀ rest, r (seg ++ rest) = none)

/-- The computation, run from `s`, adds events to the log that `r` accepts if and only if `P`. -/
def LogsIff {α : Type} (x : Ev α) (r : List Event → Option (List Event)) (P : Prop) (s : St) :
    Prop :=
  Post x s fun _ s' => ∃ seg, s'.log = s.log ++ seg ∧ ReadsIff r seg P

/-- The computation only adds to the log. -/
def Appends {α : Type} (x : Ev α) (s : St) : Prop := Post x s fun _ s' => s.log <+: s'.log

section

variable {α β : Type} {s : St}

theorem Appends.bind {x : Ev α} {f : α → Ev β} (hx : Appends x s) (hf : ∀ a s', Appends (f a) s') :
    Appends (x >>= f) s :=
  Post.bind hx fun a s' h => Post.mono (hf a s') fun _ _ h' => h.trans h'

theorem appends_of_same {x : Ev α} (h : ∀ a s', x s = .ok a s' → s'.log = s.log) : Appends x s :=
  fun a s' hx => (h a s' hx).symm ▸ List.prefix_refl _

theorem log_CHECK {r : Except Stop α} {a : α} {s' : St} (h : CHECK r s = .ok a s') : s' = s := by
  cases r with
  | error e => cases h
  | ok b =>
    cases h
    rfl

theorem log_onWorld {y : EStateM Stop World α} {a : α} {s' : St} (h : onWorld y s = .ok a s') :
    s'.log = s.log := by
  unfold onWorld at h
  cases hy : y s.world with
  | error e w =>
    rw [hy] at h
    cases h
  | ok b w =>
    rw [hy] at h
    cases h
    rfl

theorem log_EVAL {k : ActionKind} {dflt a : α} {stuff : EStateM Stop World α} {s' : St}
    (h : EVAL k dflt stuff s = .ok a s') :
    s'.log = s.log ++ [.action k (decide (s.evalInhibit = 0))] := by
  unfold EVAL at h
  dsimp only at h
  split at h
  · exact log_onWorld h
  · cases h
    rfl

theorem appends_CHECK (r : Except Stop α) : Appends (CHECK r) s :=
  appends_of_same fun _ _ h => congrArg St.log (log_CHECK h)

theorem appends_pure (a : α) : Appends (pure a : Ev α) s := appends_of_same fun _ _ h => by
  cases h
  rfl

theorem appends_EVAL (k : ActionKind) (dflt : α) (stuff : EStateM Stop World α) :
    Appends (EVAL k dflt stuff) s := fun _ _ h => ⟨_, (log_EVAL h).symm⟩

/-- The right operand of an operator, and the end of the operator. -/
theorem appends_right {dm : DataModel} {g : Guard} {left : Bool} {x : Ev CexpTypedVal}
    {y : CexpTypedVal → Except Stop α} (hx : ∀ s, Appends x s) (s : St) :
    Appends (do
      noteLeft left
      PSHEVAL dm g
      let v ← x
      let u ← CHECK (y v)
      POPEVAL
      return u) s := by
  have hnote : Appends (noteLeft left) s := by
    rintro _ _ ⟨⟩
    exact ⟨_, rfl⟩
  refine hnote.bind fun _ s₁ => Appends.bind (appends_of_same ?_) fun _ s₂ =>
    (hx s₂).bind fun v s₃ => (appends_CHECK _).bind fun u s₄ =>
      Appends.bind (appends_of_same ?_) fun _ s₅ => appends_pure _
  · rintro _ _ ⟨⟩
    rfl
  · rintro _ _ ⟨⟩
    rfl

end

theorem eval_appends (E : Env) {c : Cat} (n : Node c) : ∀ s, Appends (eval E n) s := by
  induction n with
  | number | nil => exact fun _ => appends_pure _
  | func | var =>
    exact fun _ => appends_of_same fun _ _ h => by
      cases h
      rfl
  | addr x => exact fun _ => appends_CHECK _
  | post l op ih | pre l op ih => exact fun s => (ih s).bind fun _ _ => appends_EVAL _ _ _
  | not e ih | unop op e ih | deref e ih => exact fun s => (ih s).bind fun _ _ => appends_CHECK _
  | cast t e ih =>
    exact fun s => (appends_CHECK _).bind fun _ s₁ => (ih s₁).bind fun _ _ => appends_CHECK _
  | binop op e₁ e₂ ih₁ ih₂ =>
    exact fun s => (ih₁ s).bind fun _ s₁ => (ih₂ s₁).bind fun _ _ => appends_CHECK _
  | logic k e₁ e₂ ih₁ ih₂ =>
    exact fun s => (ih₁ s).bind fun v s₁ => (appends_CHECK _).bind fun left s₂ =>
      appends_right (fun s => ih₂ s) s₂
  | assign l e ih₁ ih₂ =>
    exact fun s => (ih₁ s).bind fun _ s₁ => (ih₂ s₁).bind fun _ s₂ =>
      (appends_EVAL _ _ _).bind fun _ _ => appends_pure _
  | modop l op e ih₁ ih₂ | call l e ih₁ ih₂ =>
    exact fun s => (ih₁ s).bind fun _ s₁ => (ih₂ s₁).bind fun _ _ => appends_EVAL _ _ _
  | create name e ih =>
    exact fun s => (ih s).bind fun _ s₁ => (appends_EVAL _ _ _).bind fun _ _ => appends_pure _
  | comma e₁ e₂ ih₁ ih₂ => exact fun s => (ih₁ s).bind fun _ s₁ => ih₂ s₁
  | member x mname as ih => exact fun s => (ih s).bind fun _ _ => appends_EVAL _ _ _
  | cons e as ih₁ ih₂ =>
    exact fun s => (ih₁ s).bind fun _ s₁ => (ih₂ s₁).bind fun _ _ => appends_pure _

section

variable {α β : Type} {s : St} {r r' : List Event → Option (List Event)} {P Q : Prop}

theorem LogsIff.congr {x : Ev α} (h : LogsIff x r P s) (hPQ : P ↔ Q) : LogsIff x r Q s := by
  rwa [← propext hPQ]

/-- What adds nothing to the log. -/
theorem logsIff_same {x : Ev α} (h : ∀ a s', x s = .ok a s' → s'.log = s.log) :
    LogsIff x some True s :=
  fun a s' hx => ⟨[], by rw [h a s' hx, List.append_nil], .inl ⟨trivial, fun _ => rfl⟩⟩

/-- An `EVAL` is lawful if and only if the register says what the operators around it say. -/
theorem logsIff_EVAL (gs : List Guard) (k : ActionKind) (dflt : α)
    (stuff : EStateM Stop World α) :
    LogsIff (EVAL k dflt stuff) (obeyEVAL gs k) (s.evalInhibit = 0 ↔ ∀ g ∈ gs, g.Passes) s := by
  intro a s' h
  refine ⟨_, log_EVAL h, ?_⟩
  by_cases hlaw : s.evalInhibit = 0 ↔ ∀ g ∈ gs, g.Passes
  · refine .inl ⟨hlaw, fun rest => if_pos ⟨rfl, ?_⟩⟩
    rwa [decide_eq_true_iff]
  · refine .inr ⟨hlaw, fun rest => if_neg fun h => hlaw ?_⟩
    have hrun := h.2
    rwa [decide_eq_true_iff] at hrun

/-- Two computations: the second one only matters if the events of the first are accepted. -/
theorem LogsIff.bind {x : Ev α} {f : α → Ev β} (hx : LogsIff x r P s)
    (happends : ∀ a s', Appends (f a) s') (hQP : Q → P)
    (hf : ∀ a s', x s = .ok a s' → P → LogsIff (f a) r' Q s') :
    LogsIff (x >>= f) (fun log => (r log).bind r') Q s := by
  intro b s₂ h
  cases hx' : x s with
  | error e s₁ =>
    rw [bind_error hx'] at h
    cases h
  | ok a s₁ =>
    rw [bind_ok hx'] at h
    obtain ⟨seg₁, hlog₁, hread₁⟩ := hx a s₁ hx'
    rcases hread₁ with ⟨hP, hread₁⟩ | ⟨hP, hread₁⟩
    · obtain ⟨seg₂, hlog₂, hread₂⟩ := hf a s₁ hx' hP b s₂ h
      refine ⟨seg₁ ++ seg₂, by rw [hlog₂, hlog₁, List.append_assoc], ?_⟩
      have hthrough : ∀ rest, (r (seg₁ ++ seg₂ ++ rest)).bind r' = r' (seg₂ ++ rest) := by
        intro rest
        rw [List.append_assoc, hread₁]
        rfl
      exact hread₂.imp (fun h => ⟨h.1, fun rest => (hthrough rest).trans (h.2 rest)⟩)
        fun h => ⟨h.1, fun rest => (hthrough rest).trans (h.2 rest)⟩
    · obtain ⟨seg₂, hlog₂⟩ := happends a s₁ b s₂ h
      refine ⟨seg₁ ++ seg₂, by rw [← hlog₂, hlog₁, List.append_assoc], ?_⟩
      refine .inr ⟨fun hQ => hP (hQP hQ), fun rest => ?_⟩
      show (r (seg₁ ++ seg₂ ++ rest)).bind r' = none
      rw [List.append_assoc, hread₁]
      rfl

/-- A second computation that adds nothing. -/
theorem LogsIff.bind_same {x : Ev α} {f : α → Ev β} (hx : LogsIff x r P s)
    (hf : ∀ a s' b s'', f a s' = .ok b s'' → s''.log = s'.log) : LogsIff (x >>= f) r P s := by
  intro b s₂ h
  cases hx' : x s with
  | error e s₁ =>
    rw [bind_error hx'] at h
    cases h
  | ok a s₁ =>
    rw [bind_ok hx'] at h
    obtain ⟨seg, hlog, hread⟩ := hx a s₁ hx'
    exact ⟨seg, by rw [hf a s₁ b s₂ h, hlog], hread⟩

theorem logsIff_CHECK_bind {x : Except Stop α} {f : α → Ev β}
    (hf : ∀ a, x = .ok a → LogsIff (f a) r P s) : LogsIff (CHECK x >>= f) r P s := by
  cases x with
  | error e =>
    intro b s' h
    cases h
  | ok a => exact hf a rfl

/-- The right operand of an operator, with the truth of the left one before it. -/
theorem logsIff_right {dm : DataModel} {k : Logic} {left : Bool} {x : Ev α}
    (hx : LogsIff x r P { s with
      log := s.log ++ [.left left]
      evalInhibit := s.evalInhibit * 2 % 2 ^ dm.longBits + (⟨k, left⟩ : Guard).inhibits.toNat })
    (hr : ∀ log, r' (.left left :: log) = r log) :
    LogsIff (do noteLeft left; PSHEVAL dm ⟨k, left⟩; x) r' P s := by
  intro b s' h
  obtain ⟨seg, hlog, hread⟩ := hx b s' h
  refine ⟨.left left :: seg, by rw [hlog, List.append_assoc]; rfl, ?_⟩
  have hstep : ∀ rest, r' (.left left :: seg ++ rest) = r (seg ++ rest) := fun rest => hr _
  exact hread.imp (fun h => ⟨h.1, fun rest => (hstep rest).trans (h.2 rest)⟩)
    fun h => ⟨h.1, fun rest => (hstep rest).trans (h.2 rest)⟩

/-- The end of an operator adds nothing. -/
theorem log_pop (y : CexpTypedVal → Except Stop α) (v : CexpTypedVal) (s' : St) (b : α) (s'' : St)
    (h : (do
      let u ← CHECK (y v)
      POPEVAL
      return u : Ev α) s' = .ok b s'') : s''.log = s'.log := by
  cases hy : y v with
  | error e =>
    rw [hy] at h
    cases h
  | ok u =>
    rw [hy] at h
    cases h
    rfl

end

/-! ## Operands that are not evaluated -/

/-- A step of an inhibited walk that has succeeded. -/
theorem skipped_ok {E : Env} {c : Cat} {n : Node c} {st : List Bool} {s s₁ : St} {a : c.Sem}
    (hst : st.length ≤ E.machine.dm.longBits) (hs : Reg (toNat st) s)
    (hin : Inhibited E s.world.sym n st) (h : eval E n s = .ok a s₁) :
    placeholder E s.world.sym n = .ok a ∧ s₁.world = s.world ∧
      Reg (toNat (kept E.machine.dm.longBits (guardDepth n) st)) s₁ := by
  obtain ⟨hy, -, hs₁⟩ := (eval_skips E n st s hst hs hin).ok h
  obtain ⟨ha, hw⟩ := eq_of_atSym hy
  exact ⟨ha, hw, hs₁⟩

theorem and_forall_ok {α : Type} {A B : Prop} {r : Except Stop α} {a : α} (hA : A)
    (hr : r = .ok a) : B ↔ A ∧ ∀ v, r = .ok v → B :=
  ⟨fun h => ⟨hA, fun _ _ => h⟩, fun h => h.2 a hr⟩

theorem logsIff_EVAL_inhibited {α : Type} {gs : List Guard} {st : List Bool} {s : St}
    (hgs : ¬∀ g ∈ gs, g.Passes) (hs : Reg (toNat st) s) (k : ActionKind) (dflt : α)
    (stuff : EStateM Stop World α) :
    LogsIff (EVAL k dflt stuff) (obeyEVAL gs k) (true ∈ st) s := by
  apply (logsIff_EVAL gs k dflt stuff).congr
  rw [hs, toNat_eq_zero, iff_false_right hgs, not_not]

/-- The operand that an operator leaves out: no action of it is executed if and only if the
register inhibits it. -/
theorem eval_inhibited_iff (E : Env) {c : Cat} (n : Node c) :
    ∀ (gs : List Guard) (st : List Bool) (s : St), (¬∀ g ∈ gs, g.Passes) →
      st.length ≤ E.machine.dm.longBits → Reg (toNat st) s →
      LogsIff (eval E n) (obey gs n) (Inhibited E s.world.sym n st) s := by
  have hlen : ∀ {d : Nat} {st : List Bool},
      (kept E.machine.dm.longBits d st).length ≤ E.machine.dm.longBits := length_kept _ _ _
  induction n with
  | number | nil =>
    exact fun _ _ _ _ _ _ => logsIff_same fun _ _ h => by
      cases h
      rfl
  | func | var =>
    exact fun _ _ _ _ _ _ => logsIff_same fun _ _ h => by
      cases h
      rfl
  | addr x => exact fun _ _ _ _ _ _ => logsIff_same fun _ _ h => congrArg St.log (log_CHECK h)
  | post l op ih | pre l op ih | member _ _ l ih =>
    intro gs st s hgs hst hs
    refine (ih gs st s hgs hst hs).bind (fun _ _ => appends_EVAL _ _ _) And.left
      fun a s₁ hrun hin => ?_
    obtain ⟨ha, -, hs₁⟩ := skipped_ok hst hs hin hrun
    exact (logsIff_EVAL_inhibited hgs hs₁ _ _ _).congr (and_forall_ok hin ha)
  | not e ih | unop op e ih | deref e ih =>
    exact fun gs st s hgs hst hs => (ih gs st s hgs hst hs).bind_same fun _ _ _ _ h =>
      congrArg St.log (log_CHECK h)
  | cast t e ih =>
    exact fun gs st s hgs hst hs => logsIff_CHECK_bind fun _ _ =>
      (ih gs st s hgs hst hs).bind_same fun _ _ _ _ h => congrArg St.log (log_CHECK h)
  | binop op e₁ e₂ ih₁ ih₂ =>
    intro gs st s hgs hst hs
    refine (ih₁ gs st s hgs hst hs).bind
      (fun _ s₁ => (eval_appends E e₂ s₁).bind fun _ _ => appends_CHECK _) And.left
      fun v s₁ hrun hin => ?_
    obtain ⟨hv, hw, hs₁⟩ := skipped_ok hst hs hin hrun
    refine ((ih₂ gs _ s₁ hgs hlen hs₁).bind_same fun _ _ _ _ h =>
      congrArg St.log (log_CHECK h)).congr ?_
    rw [hw]
    exact and_forall_ok hin hv
  | logic k e₁ e₂ ih₁ ih₂ =>
    intro gs st s hgs hst hs
    refine (ih₁ gs st s hgs hst hs).bind (fun _ s₁ => (appends_CHECK _).bind fun _ s₂ =>
      appends_right (eval_appends E e₂) s₂) And.left
      fun v s₁ hrun hin => ?_
    obtain ⟨hv, hw, hs₁⟩ := skipped_ok hst hs hin hrun
    refine logsIff_CHECK_bind fun left hleft => logsIff_right ?_ fun _ => rfl
    have hnote : Reg _ { s₁ with log := s₁.log ++ [.left left] } := hs₁
    have hs₂ := ((means_PSHEVAL E.machine.dm ⟨k, left⟩ hnote).ok rfl).2.2
    refine ((ih₂ (⟨k, left⟩ :: gs) _ _ ?_ (length_push _ _ _) hs₂).bind_same
      (log_pop fun v => logicResult E.machine k left v)).congr ?_
    · exact fun h => hgs fun g hg => h g (List.mem_cons_of_mem _ hg)
    · show Inhibited E s₁.world.sym e₂ _ ↔ _
      rw [hw]
      exact ⟨fun h => ⟨hin, fun v' left' hv' hleft' => by
        cases hv.symm.trans hv'
        cases hleft.symm.trans hleft'
        exact h⟩, fun h => h.2 v left hv hleft⟩
  | assign l e ih₁ ih₂ =>
    intro gs st s hgs hst hs
    refine (ih₁ gs st s hgs hst hs).bind (fun _ s₁ => (eval_appends E e s₁).bind fun _ s₂ =>
      (appends_EVAL _ _ _).bind fun _ _ => appends_pure _) And.left fun a s₁ hrun hin => ?_
    obtain ⟨ha, hw, hs₁⟩ := skipped_ok hst hs hin hrun
    refine LogsIff.congr ?_ (and_forall_ok hin ha)
    rw [← hw]
    refine (ih₂ gs _ s₁ hgs hlen hs₁).bind (fun _ s₂ => (appends_EVAL _ _ _).bind fun _ _ =>
      appends_pure _) And.left fun v s₂ hrun₂ hin₂ => ?_
    obtain ⟨hv, -, hs₂⟩ := skipped_ok hlen hs₁ hin₂ hrun₂
    refine LogsIff.congr ?_ (and_forall_ok hin₂ hv)
    rw [kept_kept] at hs₂
    exact (logsIff_EVAL_inhibited hgs hs₂ _ _ _).bind_same fun _ _ _ _ h => by
      cases h
      rfl
  | modop l op e ih₁ ih₂ | call l e ih₁ ih₂ =>
    intro gs st s hgs hst hs
    refine (ih₁ gs st s hgs hst hs).bind (fun _ s₁ => (eval_appends E e s₁).bind fun _ s₂ =>
      appends_EVAL _ _ _) And.left fun a s₁ hrun hin => ?_
    obtain ⟨ha, hw, hs₁⟩ := skipped_ok hst hs hin hrun
    refine LogsIff.congr ?_ (and_forall_ok hin ha)
    rw [← hw]
    refine (ih₂ gs _ s₁ hgs hlen hs₁).bind (fun _ s₂ => appends_EVAL _ _ _) And.left
      fun v s₂ hrun₂ hin₂ => ?_
    obtain ⟨hv, -, hs₂⟩ := skipped_ok hlen hs₁ hin₂ hrun₂
    rw [kept_kept] at hs₂
    exact (logsIff_EVAL_inhibited hgs hs₂ _ _ _).congr (and_forall_ok hin₂ hv)
  | create name e ih =>
    intro gs st s hgs hst hs
    refine (ih gs st s hgs hst hs).bind (fun _ _ => (appends_EVAL _ _ _).bind fun _ _ =>
      appends_pure _) And.left fun v s₁ hrun hin => ?_
    obtain ⟨hv, -, hs₁⟩ := skipped_ok hst hs hin hrun
    exact ((logsIff_EVAL_inhibited hgs hs₁ _ _ _).bind_same fun _ _ _ _ h => by
      cases h
      rfl).congr (and_forall_ok hin hv)
  | comma e₁ e₂ ih₁ ih₂ =>
    intro gs st s hgs hst hs
    refine (ih₁ gs st s hgs hst hs).bind (fun _ s₁ => eval_appends E e₂ s₁) And.left
      fun v s₁ hrun hin => ?_
    obtain ⟨hv, hw, hs₁⟩ := skipped_ok hst hs hin hrun
    refine (ih₂ gs _ s₁ hgs hlen hs₁).congr ?_
    rw [hw]
    exact and_forall_ok hin hv
  | cons e as ih₁ ih₂ =>
    intro gs st s hgs hst hs
    refine (ih₁ gs st s hgs hst hs).bind
      (fun _ s₁ => (eval_appends E as s₁).bind fun _ _ => appends_pure _) And.left
      fun v s₁ hrun hin => ?_
    obtain ⟨hv, hw, hs₁⟩ := skipped_ok hst hs hin hrun
    refine ((ih₂ gs _ s₁ hgs hlen hs₁).bind_same fun _ _ _ _ h => by
      cases h
      rfl).congr ?_
    rw [hw]
    exact and_forall_ok hin hv

/-! ## Operands that are evaluated -/

theorem logsIff_EVAL_evaluated {α : Type} {gs : List Guard} {s : St} {P : Prop}
    (hgs : ∀ g ∈ gs, g.Passes) (hs : Reg 0 s) (hP : P) (k : ActionKind) (dflt : α)
    (stuff : EStateM Stop World α) : LogsIff (EVAL k dflt stuff) (obeyEVAL gs k) P s :=
  (logsIff_EVAL gs k dflt stuff).congr (iff_of_true (iff_of_true hs hgs) hP)

/-- A step of an evaluation that has succeeded, if the register inhibits what it has left out. -/
theorem evaluated_ok {E : Env} {c : Cat} {n : Node c} {s s₁ : St} {a : c.Sem} (hs : Reg 0 s)
    (hall : AllInhibited E (leftOut E n s.world)) (h : eval E n s = .ok a s₁) :
    (∀ {β : Type} (f : c.Sem → World → List β),
      onOk (meaning E drop n s.world) f = f a s₁.world) ∧ Reg 0 s₁ := by
  obtain ⟨hy, -, hs₁⟩ := (eval_meaning E n s hs hall).ok h
  exact ⟨fun f => onOk_meaning hy f, hs₁⟩

/-- A part of a tree after another one. -/
theorem allInhibited_second {E : Env} {ops ops' ops'' : List (Node .exp × World)}
    (h : AllInhibited E ops) (heq : ops' = ops'') :
    AllInhibited E ops'' ↔ AllInhibited E (ops ++ ops') := by
  rw [allInhibited_append, heq, and_iff_right h]

/-- Inside of operators that all let it through, a tree is obeyed if and only if the register
inhibits what is left out. -/
theorem eval_obeyed_iff (E : Env) {c : Cat} (n : Node c) :
    ∀ (gs : List Guard) (s : St), (∀ g ∈ gs, g.Passes) → Reg 0 s →
      LogsIff (eval E n) (obey gs n) (AllInhibited E (leftOut E n s.world)) s := by
  have hleft : ∀ {ops ops' : List (Node .exp × World)}, AllInhibited E (ops ++ ops') →
      AllInhibited E ops := fun h => (allInhibited_append.mp h).1
  have hnone : AllInhibited E [] := fun _ hp => absurd hp List.not_mem_nil
  induction n with
  | number | nil | func | var =>
    exact fun _ _ _ _ => (logsIff_same fun _ _ h => by
      cases h
      rfl).congr (iff_of_true trivial hnone)
  | addr x =>
    exact fun _ _ _ _ => (logsIff_same fun _ _ h => congrArg St.log (log_CHECK h)).congr
      (iff_of_true trivial hnone)
  | post l op ih | pre l op ih | member _ _ l ih =>
    intro gs s hgs hs
    refine (ih gs s hgs hs).bind (fun _ _ => appends_EVAL _ _ _) id fun a s₁ hrun hall => ?_
    exact logsIff_EVAL_evaluated hgs (evaluated_ok hs hall hrun).2 hall _ _ _
  | not e ih | unop op e ih | deref e ih =>
    exact fun gs s hgs hs => (ih gs s hgs hs).bind_same fun _ _ _ _ h =>
      congrArg St.log (log_CHECK h)
  | cast t e ih =>
    exact fun gs s hgs hs => logsIff_CHECK_bind fun _ _ =>
      (ih gs s hgs hs).bind_same fun _ _ _ _ h => congrArg St.log (log_CHECK h)
  | binop op e₁ e₂ ih₁ ih₂ =>
    intro gs s hgs hs
    refine (ih₁ gs s hgs hs).bind
      (fun _ s₁ => (eval_appends E e₂ s₁).bind fun _ _ => appends_CHECK _) hleft
      fun v s₁ hrun hall => ?_
    obtain ⟨hsecond, hs₁⟩ := evaluated_ok hs hall hrun
    exact ((ih₂ gs s₁ hgs hs₁).bind_same fun _ _ _ _ h => congrArg St.log (log_CHECK h)).congr
      (allInhibited_second hall (hsecond _))
  | logic k e₁ e₂ ih₁ ih₂ =>
    intro gs s hgs hs
    refine (ih₁ gs s hgs hs).bind (fun _ s₁ => (appends_CHECK _).bind fun _ s₂ =>
      appends_right (eval_appends E e₂) s₂) hleft fun v s₁ hrun hall => ?_
    obtain ⟨hsecond, hs₁⟩ := evaluated_ok hs hall hrun
    refine logsIff_CHECK_bind fun left htrue => logsIff_right ?_ fun _ => rfl
    have hnote : Reg (toNat []) { s₁ with log := s₁.log ++ [.left left] } := hs₁
    have hs₂ := ((means_PSHEVAL E.machine.dm ⟨k, left⟩ hnote).ok rfl).2.2
    rw [push_nil] at hs₂
    by_cases hpass : (⟨k, left⟩ : Guard).Passes
    · have hzero := hs₂.trans (congrArg (fun b => toNat [b]) ((Guard.passes_iff _).mp hpass))
      refine ((ih₂ (⟨k, left⟩ :: gs) _ (List.forall_mem_cons.mpr ⟨hpass, hgs⟩) hzero).bind_same
        (log_pop fun v => logicResult E.machine k left v)).congr (allInhibited_second hall ?_)
      rw [hsecond, htrue]
      exact if_pos hpass
    · have hset := hs₂.trans (congrArg (fun b => toNat [b]) (Guard.inhibits_of_not_passes hpass))
      have hone : [true].length ≤ E.machine.dm.longBits := by
        cases E.machine.dm <;> decide
      have hout : ¬∀ g ∈ (⟨k, left⟩ : Guard) :: gs, g.Passes :=
        fun h => hpass (h _ List.mem_cons_self)
      have honly : AllInhibited E [(e₂, s₁.world)] ↔ Inhibited E s₁.world.sym e₂ [true] :=
        List.forall_mem_singleton
      refine ((eval_inhibited_iff E e₂ _ [true] _ hout hone hset).bind_same
        (log_pop fun v => logicResult E.machine k left v)).congr
          (honly.symm.trans (allInhibited_second hall ?_))
      rw [hsecond, htrue]
      exact if_neg hpass
  | assign l e ih₁ ih₂ =>
    intro gs s hgs hs
    refine (ih₁ gs s hgs hs).bind (fun _ s₁ => (eval_appends E e s₁).bind fun _ s₂ =>
      (appends_EVAL _ _ _).bind fun _ _ => appends_pure _) hleft fun a s₁ hrun hall => ?_
    obtain ⟨hsecond, hs₁⟩ := evaluated_ok hs hall hrun
    refine LogsIff.congr ?_ (allInhibited_second hall (hsecond _))
    refine (ih₂ gs s₁ hgs hs₁).bind (fun _ s₂ => (appends_EVAL _ _ _).bind fun _ _ =>
      appends_pure _) id fun v s₂ hrun₂ hall₂ => ?_
    have hs₂ := (evaluated_ok hs₁ hall₂ hrun₂).2
    exact (logsIff_EVAL_evaluated hgs hs₂ hall₂ _ _ _).bind_same fun _ _ _ _ h => by
      cases h
      rfl
  | modop l op e ih₁ ih₂ | call l e ih₁ ih₂ =>
    intro gs s hgs hs
    refine (ih₁ gs s hgs hs).bind (fun _ s₁ => (eval_appends E e s₁).bind fun _ s₂ =>
      appends_EVAL _ _ _) hleft fun a s₁ hrun hall => ?_
    obtain ⟨hsecond, hs₁⟩ := evaluated_ok hs hall hrun
    refine LogsIff.congr ?_ (allInhibited_second hall (hsecond _))
    refine (ih₂ gs s₁ hgs hs₁).bind (fun _ s₂ => appends_EVAL _ _ _) id fun v s₂ hrun₂ hall₂ => ?_
    exact logsIff_EVAL_evaluated hgs (evaluated_ok hs₁ hall₂ hrun₂).2 hall₂ _ _ _
  | create name e ih =>
    intro gs s hgs hs
    refine (ih gs s hgs hs).bind (fun _ _ => (appends_EVAL _ _ _).bind fun _ _ =>
      appends_pure _) id fun v s₁ hrun hall => ?_
    have hs₁ := (evaluated_ok hs hall hrun).2
    exact (logsIff_EVAL_evaluated hgs hs₁ hall _ _ _).bind_same fun _ _ _ _ h => by
      cases h
      rfl
  | comma e₁ e₂ ih₁ ih₂ =>
    intro gs s hgs hs
    refine (ih₁ gs s hgs hs).bind (fun _ s₁ => eval_appends E e₂ s₁) hleft fun v s₁ hrun hall => ?_
    obtain ⟨hsecond, hs₁⟩ := evaluated_ok hs hall hrun
    exact (ih₂ gs s₁ hgs hs₁).congr (allInhibited_second hall (hsecond _))
  | cons e as ih₁ ih₂ =>
    intro gs s hgs hs
    refine (ih₁ gs s hgs hs).bind
      (fun _ s₁ => (eval_appends E as s₁).bind fun _ _ => appends_pure _) hleft
      fun v s₁ hrun hall => ?_
    obtain ⟨hsecond, hs₁⟩ := evaluated_ok hs hall hrun
    exact ((ih₂ gs s₁ hgs hs₁).bind_same fun _ _ _ _ h => by
      cases h
      rfl).congr (allInhibited_second hall (hsecond _))

/-! ## Lines -/

theorem evalLine_obeyed_iff (E : Env) (line : Line) (s : St) (hs : Reg 0 s) :
    LogsIff (evalLine E line) line.obey (AllInhibited E (line.leftOut E s.world)) s := by
  have hnone : AllInhibited E [] := fun _ hp => absurd hp List.not_mem_nil
  cases line with
  | empty =>
    exact (logsIff_same fun _ _ h => by
      cases h
      rfl).congr (iff_of_true trivial hnone)
  | ident name =>
    intro _ _ h
    cases h
  | newdef t name =>
    exact logsIff_CHECK_bind fun _ _ =>
      logsIff_EVAL_evaluated (fun _ hg => absurd hg List.not_mem_nil) hs hnone _ _ _
  | redef t x bang =>
    refine logsIff_CHECK_bind fun _ _ => LogsIff.bind_same
      (logsIff_EVAL_evaluated (fun _ hg => absurd hg List.not_mem_nil) hs hnone _ _ _) ?_
    intro _ s₁ b s₂ h
    -- the symbol is read and the line ends, or the message is reported
    cases hread : onWorld (readAction E.machine (s₁.world.sym x)) s₁ with
    | error e s₃ =>
      have hstop : (onWorld (readAction E.machine (s₁.world.sym x)) >>= fun v =>
        if bang then return v else throw (.error
          ": symbol already defined; append '!' to enforce recast\n")) s₁ = .error e s₃ :=
        bind_error hread
      cases hstop.symm.trans h
    | ok v s₃ =>
      have hrest : (if bang then return v else throw (.error
          ": symbol already defined; append '!' to enforce recast\n") : Ev CexpTypedVal) s₃ =
            .ok b s₂ := (bind_ok hread).symm.trans h
      cases bang with
      | false => cases hrest
      | true =>
        cases hrest
        exact log_onWorld hread
  | commaexp e =>
    refine (eval_obeyed_iff E e [] s (fun _ hg => absurd hg List.not_mem_nil) hs).bind_same ?_
    intro v s₁ b s₂ h
    cases hprint : printCast E.machine v with
    | error e =>
      rw [hprint] at h
      cases h
    | ok u =>
      rw [hprint] at h
      cases h
      rfl

/-- Short-circuit evaluation of a line. The actions of the line are executed as `&&` and `||` say
if and only if the register inhibits every operand that C leaves out: at each action of the operand
an operator that inhibits it has not been pushed out. It does so in every line whose operators nest
at most as deep as an `unsigned long` has bits. -/
theorem parseLine_lawful_iff (E : Env) (line : Line) (s s' : St) (v : CexpTypedVal)
    (h : parseLine E line s.reset = .ok v s') :
    (line.Obeyed s'.log ↔ ∀ p ∈ line.leftOut E s.world, Inhibited E p.2.sym p.1 [true]) ∧
      (line.guardDepth ≤ E.machine.dm.longBits → line.Obeyed s'.log) := by
  have hparse : LogsIff (parseLine E line) line.obey (AllInhibited E (line.leftOut E s.world))
      s.reset := by
    refine (evalLine_obeyed_iff E line s.reset rfl).bind_same ?_
    intro _ _ _ _ h
    cases h
    rfl
  have hiff : line.Obeyed s'.log ↔ AllInhibited E (line.leftOut E s.world) := by
    obtain ⟨seg, hlog, hread⟩ := hparse v s' h
    have hseg : s'.log = seg ++ [] := hlog.trans (List.append_nil _).symm
    rw [Line.Obeyed, hseg]
    rcases hread with ⟨hP, hread⟩ | ⟨hP, hread⟩
    · exact iff_of_true (hread []) hP
    · refine iff_of_false ?_ hP
      rw [hread]
      exact (Option.some_ne_none []).symm
  exact ⟨hiff, fun hd => hiff.mpr (Line.leftOut_inhibited hd)⟩

/-! ## A guard that is shifted out -/

instance (line : Line) (log : List Event) : Decidable (line.Obeyed log) :=
  inferInstanceAs (Decidable (_ = _))

/-- `1 && (1 && (... f()))` with `n` operators -/
def deepCall : Nat → Node .exp
  | 0 => .call (.func 0) .nil
  | n + 1 => .logic .and (ulong 1) (deepCall n)

/-- `0 && (1 && (1 && ... f()))` with `n` operators inside of the first one -/
def guardedCall (n : Nat) : Line := .commaexp (.logic .and (ulong 0) (deepCall n))

theorem parseLine_lawful_iff_call :
    ∃ v s', parseLine hostEnv (guardedCall 2) hostSt.reset = .ok v s' ∧
      (guardedCall 2).Obeyed s'.log := by
  cases h : parseLine hostEnv (guardedCall 2) hostSt.reset with
  | ok v s' =>
    exact ⟨v, s', rfl, (parseLine_lawful_iff hostEnv _ hostSt s' v h).2 (by decide)⟩
  | error e s' =>
    have hok : (logOf (parseLine hostEnv (guardedCall 2) hostSt.reset)).isSome := by
      decide +kernel
    rw [h] at hok
    cases hok

/-- With 65 operators the outermost one is shifted out of the 64-bit register, and `f` is
called. -/
theorem deepCall_unlawful :
    ¬ ∀ (E : Env) (line : Line) (s s' : St) (v : CexpTypedVal),
      parseLine E line s.reset = .ok v s' → line.Obeyed s'.log := by
  intro hall
  have hbad : (logOf (parseLine hostEnv (guardedCall 64) hostSt.reset)).any
      (fun log => !decide ((guardedCall 64).Obeyed log)) = true := by
    decide +kernel
  cases h : parseLine hostEnv (guardedCall 64) hostSt.reset with
  | error e s' =>
    rw [h] at hbad
    cases hbad
  | ok v s' =>
    rw [h] at hbad
    have hobeyed := hall hostEnv _ hostSt s' v h
    have hnot : (!decide ((guardedCall 64).Obeyed s'.log)) = true := hbad
    rw [decide_eq_true hobeyed] at hnot
    cases hnot

end Cexp
