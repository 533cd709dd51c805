import Cexp.Lib.Serial
import Cexp.Lock.Writers
import Cexp.Modules.Consistency

/-!
# The list of modules under its lock

The functions that go through the list of modules take its lock to read, `cexpModuleLoad` and
`cexpModuleUnload` take it to write. Here threads make such calls side by side, and what a call
does to the list takes several steps: a walk follows one pointer `next` in each of them. A walk
that comes to a record that is no longer in the list has read freed memory.

A load looks symbols up while it links. Such a lookup is a walk of the thread that has the lock to
write: it takes a read lock on top of that and gives it back, which can wake a writer.

The lock makes the calls atomic (`modules_serial`): in every run without too many readers the
calls that have returned are as good as made one after the other, so no walk reads a freed record
and each one has seen the list of a single moment. Callbacks of the modules make no calls here.
-/

namespace Cexp

open CLib

variable {dm : DataModel} {β : Type}

/-! ## Walks -/

/-- A loop `for (m=cexpSystemModule; m; m=m->next)` that computes a value: `true` is a
`break`. -/
structure ModuleWalk (dm : DataModel) (β : Type) where
  init : β
  body : β → CexpModuleRec dm → β × Bool

/-- The loop over a list that stays as it is. -/
def ModuleWalk.run (w : ModuleWalk dm β) : β → List (CexpModuleRec dm) → β
  | acc, [] => acc
  | acc, m :: ms =>
    match w.body acc m with
    | (acc, true) => acc
    | (acc, false) => w.run acc ms

/-- The loop of `cexpSymLookup`. -/
def symWalk (host : Host) (name : CStr) :
    ModuleWalk host.dm (Option (CexpSym × CexpModuleRec host.dm)) where
  init := none
  body rval m :=
    match host.cexpSymTblLookup name m.symtbl with
    | some s => (some (s, m), true)
    | none => (rval, false)

theorem symWalk_run (host : Host) (name : CStr) (modules : List (CexpModuleRec host.dm)) :
    (symWalk host name).run none modules = cexpSymLookup host name modules := by
  induction modules with
  | nil => rfl
  | cons m ms ih =>
    have hbody : (symWalk host name).body none m =
        match host.cexpSymTblLookup name m.symtbl with
        | some s => (some (s, m), true)
        | none => (none, false) := rfl
    rw [ModuleWalk.run, cexpSymLookup, hbody]
    cases host.cexpSymTblLookup name m.symtbl with
    | none => exact ih
    | some s => rfl

/-- The loop of `cexpModuleFindByName`. It goes on to print all matches if there is a file. -/
def nameWalk (rc : CStr → Bool) (f : Bool) : ModuleWalk dm (Option CexpModule) where
  init := none
  body found m := if rc m.name then (found.or (some m.handle), !f) else (found, false)

/-! ## Calls -/

/-- What a thread calls. A finalizer rejects or does not. -/
inductive ModuleCall (dm : DataModel) (β : Type) where
  | search (w : ModuleWalk dm β)
  | load (args : LoadArgs)
  | unload (mod : CexpModule) (rejects : Bool)

/-- Where a call is. `node` is a walk at the value of its loop variable. -/
inductive Place (dm : DataModel) (β : Type) where
  | begin
  | node (acc : β) (m : Option CexpModule)
  | linked (nmod : CexpModuleRec dm) (tail : Option CexpModule)
  | entered (nmod : CexpModuleRec dm) (tail : Option CexpModule)
  | checked (m : CexpModuleRec dm) (pred : CexpModule)
  | cleared (m : CexpModuleRec dm) (pred : CexpModule)

/-- What a call returns. `freed`: a walk has come to a record that is not in the list. -/
inductive Returned (β : Type) where
  | found (acc : β)
  | freed
  | responded (resp : Response)

def ModuleCall.writes : ModuleCall dm β → Bool
  | .search _ => false
  | .load _ => true
  | .unload _ _ => true

/-- `m->next` -/
def nextModule (m : CexpModule) (modules : List (CexpModuleRec dm)) : Option CexpModule :=
  (handles (modules.dropWhile fun n => n.handle ≠ m).tail).head?

/-- One step of a call that holds the lock. There is none where the linker crashes. -/
def callStep (host : Host) : ModuleCall host.dm β → Place host.dm β → Store host.dm →
    Option (Store host.dm × (Place host.dm β ⊕ Returned β))
  | .search w, .begin, s => some (s, .inl (.node w.init (handles s.modules).head?))
  | .search _, .node acc none, s => some (s, .inr (.found acc))
  | .search w, .node acc (some mod), s =>
    match s.modules.find? fun m => m.handle = mod with
    | none => some (s, .inr .freed)
    | some m =>
      match w.body acc m with
      | (acc, true) => some (s, .inr (.found acc))
      | (acc, false) => some (s, .inl (.node acc (nextModule mod s.modules)))
  | .load args, .begin, s =>
    match prepareLoad host args s with
    | .refused s => some (s, .inr (.responded .refused))
    | .crash => none
    | .ready nmod tail s => some (s, .inl (.linked nmod tail))
  | .load _, .linked nmod tail, s =>
    some ({ s with modules := addDependencies nmod s.modules }, .inl (.entered nmod tail))
  | .load _, .entered nmod tail, s =>
    (chain tail nmod s.modules).map fun modules =>
      ({ s with modules := modules, loaded := s.loaded ++ [(nmod.handle, nmod.id)] },
        .inr (.responded (.loaded nmod.handle)))
  | .unload mod rejects, .begin, s =>
    match checkUnload mod s with
    | none => some (s, .inr (.responded .refused))
    | some (m, pred) =>
      if rejects then some (s, .inr (.responded .refused)) else some (s, .inl (.checked m pred))
  | .unload _ _, .checked m pred, s => some (clearDependencies m.id s, .inl (.cleared m pred))
  | .unload _ _, .cleared m pred, s =>
    (unlink m pred s).map fun s => (s, .inr (.responded .unloaded))
  | _, _, _ => none

/-- A step of a walk leaves the store as it is. -/
theorem callStep_readonly (host : Host) (o : ModuleCall host.dm β) (k : Place host.dm β)
    (s s' : Store host.dm) (x : Place host.dm β ⊕ Returned β) (ho : o.writes = false)
    (h : callStep host o k s = some (s', x)) : s' = s := by
  cases o with
  | load args => cases ho
  | unload mod rejects => cases ho
  | search w =>
    cases k with
    | begin =>
      cases h
      rfl
    | node acc m =>
      cases m with
      | none =>
        cases h
        rfl
      | some mod =>
        simp only [callStep] at h
        split at h
        · cases h
          rfl
        · split at h
          · cases h
            rfl
          · cases h
            rfl
    | linked nmod tail => cases h
    | entered nmod tail => cases h
    | checked m pred => cases h
    | cleared m pred => cases h

def moduleCalls (host : Host) (β : Type) :
    Calls (Store host.dm) (ModuleCall host.dm β) (Place host.dm β) (Returned β) where
  writes := ModuleCall.writes
  start _ := .begin
  step := callStep host
  readonly := callStep_readonly host

/-! ## Calls one after the other -/

/-- What a call does if it is made at a moment when nobody else does anything. -/
inductive Does (host : Host) : ModuleCall host.dm β → Store host.dm → Store host.dm → Returned β →
    Prop where
  | search (w : ModuleWalk host.dm β) (s : Store host.dm) :
      Does host (.search w) s s (.found (w.run w.init s.modules))
  | load {args : LoadArgs} {s s' : Store host.dm} {resp : Response}
      (h : request host (.load args []) s = some (s', resp)) :
      Does host (.load args) s s' (.responded resp)
  | unload {mod : CexpModule} {rejects : Bool} {s s' : Store host.dm} {resp : Response}
      (h : request host (.unload mod [] rejects []) s = some (s', resp)) :
      Does host (.unload mod rejects) s s' (.responded resp)

section

variable {host : Host} {s s' : Store host.dm} {r : Returned β}

/-- The part of the walk that is left gives the result of the whole. -/
def Walked (w : ModuleWalk host.dm β) (s₀ : Store host.dm) (k : Place host.dm β)
    (s : Store host.dm) : Prop :=
  s = s₀ ∧ match k with
    | .begin => True
    | .node acc m => ∃ l₁ l₂, s.modules = l₁ ++ l₂ ∧ m = (handles l₂).head? ∧
        w.run acc l₂ = w.run w.init s.modules
    | _ => False

theorem nextModule_eq {l₁ l₂ : List (CexpModuleRec dm)} {m : CexpModuleRec dm}
    (hnodup : (handles (l₁ ++ m :: l₂)).Nodup) :
    nextModule m.handle (l₁ ++ m :: l₂) = (handles l₂).head? := by
  have hbefore : m.handle ∉ handles l₁ := by
    intro hmem
    rw [handles_append] at hnodup
    exact (List.nodup_append.mp hnodup).2.2 _ hmem _ List.mem_cons_self rfl
  rw [nextModule, dropWhile_handle m l₂ hbefore, List.tail_cons]

/-- A step of a walk over the list. -/
theorem walk_step {w : ModuleWalk host.dm β} {acc : β} {m : Option CexpModule}
    {x : Place host.dm β ⊕ Returned β} (hs : s.Inv) (hwalked : Walked w s (.node acc m) s)
    (h : callStep host (.search w) (.node acc m) s = some (s', x)) :
    (∃ k, x = .inl k ∧ Walked w s k s) ∨ x = .inr (.found (w.run w.init s.modules)) := by
  obtain ⟨-, l₁, l₂, hmodules, hm, hrun⟩ := hwalked
  cases l₂ with
  | nil =>
    subst hm
    cases h
    exact .inr (by rw [← hrun, ModuleWalk.run])
  | cons n l₂ =>
    subst hm
    have hfind := find_handle hs.handles_nodup (m := n) (by rw [hmodules]; simp)
    have hnext : nextModule n.handle s.modules = (handles l₂).head? := by
      rw [hmodules]
      exact nextModule_eq (hmodules ▸ hs.handles_nodup)
    have hhead : (handles (n :: l₂)).head? = some n.handle := rfl
    rw [ModuleWalk.run] at hrun
    simp only [hhead, callStep, hfind] at h
    split at h
    · next acc' hbody =>
      rw [hbody] at hrun
      cases h
      exact .inr (by rw [← hrun])
    · next acc' hbody =>
      rw [hbody] at hrun
      cases h
      exact .inl ⟨_, rfl, rfl, l₁ ++ [n], l₂, by rw [hmodules]; simp, hnext, hrun⟩

theorem search_walked {w : ModuleWalk host.dm β} {k : Place host.dm β} (hs : s.Inv)
    (h : (moduleCalls host β).Steps (.search w) .begin s k s') : Walked w s k s' := by
  refine h.invariant (I := Walked w s) ⟨rfl, trivial⟩ fun k t k' t' hk hstep => ?_
  obtain rfl : t' = t := (moduleCalls host β).readonly _ _ _ _ _ rfl hstep
  obtain rfl : t' = s := hk.1
  cases k with
  | begin =>
    cases hstep
    exact ⟨rfl, [], t'.modules, rfl, rfl, rfl⟩
  | node acc m =>
    rcases walk_step hs hk hstep with ⟨k, heq, hk⟩ | heq
    · cases heq
      exact hk
    · cases heq
  | linked nmod tail => exact hk.2.elim
  | entered nmod tail => exact hk.2.elim
  | checked m pred => exact hk.2.elim
  | cleared m pred => exact hk.2.elim

theorem search_does {w : ModuleWalk host.dm β} (hs : s.Inv)
    (h : (moduleCalls host β).Returns (.search w) s s' r) : Does host (.search w) s s' r := by
  obtain ⟨k, s₁, hsteps, hlast⟩ := h
  have hwalked := search_walked hs hsteps
  obtain rfl : s' = s₁ := (moduleCalls host β).readonly _ _ _ _ _ rfl hlast
  obtain rfl : s' = s := hwalked.1
  cases k with
  | begin => cases hlast
  | node acc m =>
    rcases walk_step hs hwalked hlast with ⟨k, heq, -⟩ | heq
    · cases heq
    · cases heq
      exact .search w s'
  | linked nmod tail => exact hwalked.2.elim
  | entered nmod tail => exact hwalked.2.elim
  | checked m pred => exact hwalked.2.elim
  | cleared m pred => exact hwalked.2.elim

/-- How far `cexpModuleLoad` has got from `s₀`. -/
def Loading (args : LoadArgs) (s₀ : Store host.dm) (k : Place host.dm β) (s : Store host.dm) :
    Prop :=
  match k with
  | .begin => s = s₀
  | .linked nmod tail => prepareLoad host args s₀ = .ready nmod tail s
  | .entered nmod tail => ∃ s₁, prepareLoad host args s₀ = .ready nmod tail s₁ ∧
      s = { s₁ with modules := addDependencies nmod s₁.modules }
  | _ => False

theorem load_loading {args : LoadArgs} {k : Place host.dm β}
    (h : (moduleCalls host β).Steps (.load args) .begin s k s') : Loading args s k s' := by
  refine h.invariant (I := Loading args s) rfl fun k t k' t' hk hstep => ?_
  cases k with
  | begin =>
    obtain rfl : t = s := hk
    simp only [moduleCalls, callStep] at hstep
    split at hstep
    · cases hstep
    · cases hstep
    · next hprepare =>
      cases hstep
      exact hprepare
  | linked nmod tail =>
    cases hstep
    exact ⟨t, hk, rfl⟩
  | entered nmod tail =>
    obtain ⟨l, -, heq⟩ := Option.map_eq_some_iff.mp hstep
    cases heq
  | node acc m => exact hk.elim
  | checked m pred => exact hk.elim
  | cleared m pred => exact hk.elim

theorem load_does {args : LoadArgs}
    (h : (moduleCalls host β).Returns (.load args) s s' r) : Does host (.load args) s s' r := by
  obtain ⟨k, s₁, hsteps, hlast⟩ := h
  have hloading := load_loading hsteps
  cases k with
  | begin =>
    obtain rfl : s₁ = s := hloading
    simp only [moduleCalls, callStep] at hlast
    split at hlast
    · next hprepare =>
      cases hlast
      refine .load ?_
      rw [request, hprepare]
    · cases hlast
    · cases hlast
  | linked nmod tail => cases hlast
  | entered nmod tail =>
    obtain ⟨t, hprepare, rfl⟩ := hloading
    obtain ⟨l, hchain, heq⟩ := Option.map_eq_some_iff.mp hlast
    cases heq
    refine .load ?_
    rw [request, hprepare]
    simp only [requests, finishLoad, hchain, Option.map_some]
  | node acc m => exact hloading.elim
  | checked m pred => exact hloading.elim
  | cleared m pred => exact hloading.elim

/-- How far `cexpModuleUnload` has got from `s₀`. -/
def Unloading (mod : CexpModule) (rejects : Bool) (s₀ : Store host.dm) (k : Place host.dm β)
    (s : Store host.dm) : Prop :=
  match k with
  | .begin => s = s₀
  | .checked m pred => s = s₀ ∧ checkUnload mod s₀ = some (m, pred) ∧ rejects = false
  | .cleared m pred => s = clearDependencies m.id s₀ ∧ checkUnload mod s₀ = some (m, pred) ∧
      rejects = false
  | _ => False

theorem unload_unloading {mod : CexpModule} {rejects : Bool} {k : Place host.dm β}
    (h : (moduleCalls host β).Steps (.unload mod rejects) .begin s k s') :
    Unloading mod rejects s k s' := by
  refine h.invariant (I := Unloading mod rejects s) rfl fun k t k' t' hk hstep => ?_
  cases k with
  | begin =>
    obtain rfl : t = s := hk
    simp only [moduleCalls, callStep] at hstep
    split at hstep
    · cases hstep
    · next m pred hcheck =>
      cases rejects with
      | true => cases hstep
      | false =>
        cases hstep
        exact ⟨rfl, hcheck, rfl⟩
  | checked m pred =>
    obtain ⟨rfl, hcheck⟩ := hk
    cases hstep
    exact ⟨rfl, hcheck⟩
  | cleared m pred =>
    obtain ⟨t, -, heq⟩ := Option.map_eq_some_iff.mp hstep
    cases heq
  | node acc m => exact hk.elim
  | linked nmod tail => exact hk.elim
  | entered nmod tail => exact hk.elim

theorem unload_does {mod : CexpModule} {rejects : Bool}
    (h : (moduleCalls host β).Returns (.unload mod rejects) s s' r) :
    Does host (.unload mod rejects) s s' r := by
  obtain ⟨k, s₁, hsteps, hlast⟩ := h
  have hunloading := unload_unloading hsteps
  cases k with
  | begin =>
    obtain rfl : s₁ = s := hunloading
    simp only [moduleCalls, callStep] at hlast
    split at hlast
    · next hcheck =>
      cases hlast
      refine .unload ?_
      rw [request, hcheck]
    · next m pred hcheck =>
      cases rejects with
      | true =>
        cases hlast
        refine .unload ?_
        rw [request, hcheck]
        simp [requests]
      | false => cases hlast
  | checked m pred => cases hlast
  | cleared m pred =>
    obtain ⟨rfl, hcheck, rfl⟩ := hunloading
    obtain ⟨t, hunlink, heq⟩ := Option.map_eq_some_iff.mp hlast
    cases heq
    refine .unload ?_
    rw [request, hcheck]
    simp [requests, hunlink]
  | node acc m => exact hunloading.elim
  | linked nmod tail => exact hunloading.elim
  | entered nmod tail => exact hunloading.elim

/-- A call that nobody disturbs does what it is to do, and the store stays as it has to be. -/
theorem returns_does {o : ModuleCall host.dm β} (hs : s.Inv)
    (h : (moduleCalls host β).Returns o s s' r) : s'.Inv ∧ Does host o s s' r := by
  have hdoes : Does host o s s' r := by
    cases o with
    | search w => exact search_does hs h
    | load args => exact load_does h
    | unload mod rejects => exact unload_does h
  refine ⟨?_, hdoes⟩
  cases hdoes with
  | search w => exact hs
  | @load args s s' resp hr =>
    have hplain : (Request.load args []).Plain := rfl
    exact (request_outcome hs (hplain.quiet s) hr).inv hs
  | @unload mod rejects s s' resp hr =>
    have hplain : (Request.unload mod [] rejects []).Plain := ⟨rfl, rfl⟩
    exact (request_outcome hs (hplain.quiet s) hr).inv hs

end

/-! ## The lock -/

section

variable {Thread : Type} [DecidableEq Thread] {l l' : RWLock.State Thread}

def RWLock.Act.thread : RWLock.Act Thread → Thread
  | .readLock t | .readUnlock t | .writeLock t | .eventWait t | .writeAgain t | .writeUnlock t => t

/-- How the lists of the threads change in a step of the lock. -/
inductive Moved (l : RWLock.State Thread) : RWLock.Act Thread → RWLock.State Thread → Prop where
  | readLock (t : Thread) (r : RWLock.CexpRWLockRec Thread) :
      Moved l (.readLock t) { l with l := r, reading := t :: l.reading }
  | readUnlock (t : Thread) (r : RWLock.CexpRWLockRec Thread) :
      Moved l (.readUnlock t) { l with l := r, reading := l.reading.erase t }
  | enter (t : Thread) (r : RWLock.CexpRWLockRec Thread) :
      Moved l (.writeLock t) { l with l := r, writing := t :: l.writing }
  | sleep (t : Thread) (r : RWLock.CexpRWLockRec Thread) :
      Moved l (.writeLock t) { l with l := r, sleeping := t :: l.sleeping }
  | eventWait (t : Thread) (r : RWLock.CexpRWLockRec Thread) (ht : t ∈ l.sleeping) :
      Moved l (.eventWait t)
        { l with l := r, sleeping := l.sleeping.erase t, woken := t :: l.woken }
  | enterAgain (t : Thread) (r : RWLock.CexpRWLockRec Thread) (ht : t ∈ l.woken) :
      Moved l (.writeAgain t)
        { l with l := r, writing := t :: l.writing, woken := l.woken.erase t }
  | sleepAgain (t : Thread) (r : RWLock.CexpRWLockRec Thread) (ht : t ∈ l.woken) :
      Moved l (.writeAgain t)
        { l with l := r, sleeping := t :: l.sleeping, woken := l.woken.erase t }
  | writeUnlock (t : Thread) (r : RWLock.CexpRWLockRec Thread) :
      Moved l (.writeUnlock t) { l with l := r, writing := l.writing.erase t }

theorem lock_moved {a : RWLock.Act Thread} (h : RWLock.step l a = some l') : Moved l a l' := by
  cases a with
  | readLock t =>
    rw [RWLock.step] at h
    split at h
    · obtain ⟨r, -, rfl⟩ := Option.map_eq_some_iff.mp h
      exact .readLock t r
    · cases h
  | readUnlock t =>
    rw [RWLock.step] at h
    split at h
    · obtain ⟨r, -, rfl⟩ := Option.map_eq_some_iff.mp h
      exact .readUnlock t r
    · cases h
  | writeLock t =>
    rw [RWLock.step] at h
    split at h
    · obtain ⟨⟨r, b⟩, -, rfl⟩ := Option.map_eq_some_iff.mp h
      cases b with
      | true => exact .enter t r
      | false => exact .sleep t r
    · cases h
  | eventWait t =>
    rw [RWLock.step] at h
    split at h
    · next ht =>
      obtain ⟨e, -, rfl⟩ := Option.map_eq_some_iff.mp h
      exact .eventWait t _ ht
    · cases h
  | writeAgain t =>
    rw [RWLock.step] at h
    split at h
    · next ht =>
      obtain ⟨⟨r, b⟩, -, rfl⟩ := Option.map_eq_some_iff.mp h
      cases b with
      | true => exact .enterAgain t r ht
      | false => exact .sleepAgain t r ht
    · cases h
  | writeUnlock t =>
    rw [RWLock.step] at h
    split at h
    · cases h
      exact .writeUnlock t _
    · cases h

/-- The locks of the other threads stay. -/
theorem Moved.frame {a : RWLock.Act Thread} (h : Moved l a l') {u : Thread} (hu : u ≠ a.thread) :
    (u ∈ l.reading → u ∈ l'.reading) ∧ (u ∈ l.writing → u ∈ l'.writing) := by
  cases h with
  | readLock t => exact ⟨List.mem_cons_of_mem t, id⟩
  | readUnlock t => exact ⟨(List.mem_erase_of_ne hu).mpr, id⟩
  | enter t => exact ⟨id, List.mem_cons_of_mem t⟩
  | sleep t => exact ⟨id, id⟩
  | eventWait t => exact ⟨id, id⟩
  | enterAgain t => exact ⟨id, List.mem_cons_of_mem t⟩
  | sleepAgain t => exact ⟨id, id⟩
  | writeUnlock t => exact ⟨id, (List.mem_erase_of_ne hu).mpr⟩

theorem apart_step {a : RWLock.Act Thread} (hl : l.Apart) (hfew : l.FewReaders a)
    (h : RWLock.step l a = some l') : l'.Apart := by
  obtain ⟨t, hmoves⟩ := RWLock.step_cases h
  exact hl.moves hfew hmoves

end

/-! ## Threads -/

/-- The lock, the calls and the threads that wait in `cexpWriteLock`, each with its call. -/
structure ModuleThreads (host : Host) (β Thread : Type) where
  lock : RWLock.State Thread
  calls : Shared Thread (Store host.dm) (ModuleCall host.dm β) (Place host.dm β) (Returned β)
  waiting : Thread → Option (ModuleCall host.dm β)

def ModuleThreads.init {host : Host} {β Thread : Type} : ModuleThreads host β Thread where
  lock := .init
  calls := ⟨Store.init, fun _ => none, []⟩
  waiting _ := none

inductive ModuleAct (dm : DataModel) (β Thread : Type) where
  /-- `__RLOCK()` or the first pass of `__WLOCK()` -/
  | call (t : Thread) (o : ModuleCall dm β)
  | eventWait (t : Thread)
  /-- a pass of `__WLOCK()` after an event -/
  | writeAgain (t : Thread)
  /-- `cexpSymLookup` while a module is linked -/
  | lookup (t : Thread)
  | advance (t : Thread)
  /-- `__RUNLOCK()` or `__WUNLOCK()` -/
  | leave (t : Thread)

namespace ModuleThreads

variable {host : Host} {Thread : Type} [DecidableEq Thread]

/-- The thread is outside of all calls. -/
def Idle (x : ModuleThreads host β Thread) (t : Thread) : Prop :=
  (x.calls.running t).isNone ∧ (x.waiting t).isNone ∧ t ∉ x.lock.reading ∧ t ∉ x.lock.writing

instance (x : ModuleThreads host β Thread) (t : Thread) : Decidable (x.Idle t) :=
  inferInstanceAs (Decidable (_ ∧ _))

/-- After a pass of `__WLOCK()` the call begins or the thread waits. -/
def passed (x : ModuleThreads host β Thread) (t : Thread) (o : ModuleCall host.dm β)
    (l : RWLock.State Thread) : ModuleThreads host β Thread :=
  if t ∈ l.writing then {
    lock := l
    calls := x.calls.begin (moduleCalls host β) t o
    waiting := Function.update x.waiting t none }
  else { x with lock := l, waiting := Function.update x.waiting t (some o) }

/-- `__RLOCK()` and `__RUNLOCK()` of a lookup in the linker. In between nobody but this thread can
take the mutex, and the list stays as it is. -/
def nestedWalk (t : Thread) (l : RWLock.State Thread) : Option (RWLock.State Thread) :=
  (RWLock.step l (.readLock t)).bind fun l => RWLock.step l (.readUnlock t)

def step (x : ModuleThreads host β Thread) :
    ModuleAct host.dm β Thread → Option (ModuleThreads host β Thread)
  | .call t o =>
    if x.Idle t then
      if o.writes then (RWLock.step x.lock (.writeLock t)).map (x.passed t o)
      else
        (RWLock.step x.lock (.readLock t)).map fun l =>
          { x with lock := l, calls := x.calls.begin (moduleCalls host β) t o }
    else none
  | .eventWait t => (RWLock.step x.lock (.eventWait t)).map fun l => { x with lock := l }
  | .writeAgain t =>
    match x.waiting t with
    | none => none
    | some o => (RWLock.step x.lock (.writeAgain t)).map (x.passed t o)
  | .lookup t =>
    match x.calls.running t with
    | some (.load _, .begin) => (nestedWalk t x.lock).map fun l => { x with lock := l }
    | _ => none
  | .advance t => (x.calls.advance (moduleCalls host β) t).map fun c => { x with calls := c }
  | .leave t =>
    if (x.calls.running t).isNone then
      (RWLock.step x.lock (if t ∈ x.lock.reading then .readUnlock t else .writeUnlock t)).map
        fun l => { x with lock := l }
    else none

/-- A walk does not start while `2 ^ 32 - 1` walks hold the lock. -/
def FewWalks (x : ModuleThreads host β Thread) : ModuleAct host.dm β Thread → Prop
  | .call _ o => o.writes = false → x.lock.reading.length < 2 ^ 32 - 1
  | .lookup _ => x.lock.reading.length < 2 ^ 32 - 1
  | _ => True

/-- A call that runs holds the lock. -/
def Holds (l : RWLock.State Thread) (t : Thread) (o : ModuleCall host.dm β) : Prop :=
  if o.writes then t ∈ l.writing else t ∈ l.reading

structure Good (x : ModuleThreads host β Thread) : Prop where
  apart : x.lock.Apart
  holds : ∀ t o k, x.calls.running t = some (o, k) → Holds x.lock t o
  waiting : ∀ t o, x.waiting t = some o → o.writes = true ∧ x.calls.running t = none
  serial : x.calls.Serializable (moduleCalls host β) Store.init

variable {x x' : ModuleThreads host β Thread}

omit [DecidableEq Thread] in
theorem good_init : (init : ModuleThreads host β Thread).Good where
  apart := RWLock.apart_init
  holds := by
    rintro t o k ⟨⟩
  waiting := by
    rintro t o ⟨⟩
  serial := by
    refine ⟨Store.init, .nil, ?_, fun _ => rfl⟩
    rintro t o k ⟨⟩

omit [DecidableEq Thread] in
theorem exclusive_of_holds {l : RWLock.State Thread}
    {c : Shared Thread (Store host.dm) (ModuleCall host.dm β) (Place host.dm β) (Returned β)}
    (hl : l.Apart) (hholds : ∀ t o k, c.running t = some (o, k) → Holds l t o) :
    c.Exclusive (moduleCalls host β) := by
  intro t o k ht hw u p hu
  have hwriting : t ∈ l.writing := by
    have h := hholds t o k ht
    have hwrites : o.writes = true := hw
    rwa [Holds, if_pos hwrites] at h
  have hlock : u ∈ l.writing ∨ u ∈ l.reading := by
    have h := hholds u p.1 p.2 hu
    rw [Holds] at h
    split at h
    · exact .inl h
    · exact .inr h
  exact hl.safe t hwriting u hlock

/-- A step of the lock that a thread makes while no call of it runs. -/
theorem Good.lock {a : RWLock.Act Thread} {l : RWLock.State Thread} (hx : x.Good)
    (hstep : RWLock.step x.lock a = some l) (hfew : x.lock.FewReaders a)
    (hrunning : x.calls.running a.thread = none) :
    l.Apart ∧ ∀ t o k, x.calls.running t = some (o, k) → Holds l t o := by
  refine ⟨apart_step hx.apart hfew hstep, fun t o k ht => ?_⟩
  have hne : t ≠ a.thread := by
    rintro rfl
    rw [hrunning] at ht
    cases ht
  obtain ⟨hreading, hwriting⟩ := (lock_moved hstep).frame hne
  have h := hx.holds t o k ht
  unfold Holds at h ⊢
  split
  · next hw =>
    rw [if_pos hw] at h
    exact hwriting h
  · next hw =>
    rw [if_neg hw] at h
    exact hreading h

/-- A call begins after its thread has got the lock for it. -/
theorem Good.begin {l : RWLock.State Thread} {t : Thread} {o : ModuleCall host.dm β}
    {waiting : Thread → Option (ModuleCall host.dm β)} (hx : x.Good) (hl : l.Apart)
    (hholds : ∀ u o k, x.calls.running u = some (o, k) → Holds l u o)
    (hrunning : x.calls.running t = none) (ht : Holds l t o) (hwaiting : waiting t = none)
    (hothers : ∀ u, u ≠ t → waiting u = x.waiting u) :
    Good { lock := l, calls := x.calls.begin (moduleCalls host β) t o, waiting := waiting } := by
  have hall : ∀ u o' k, (x.calls.begin (moduleCalls host β) t o).running u = some (o', k) →
      Holds l u o' := by
    intro u o' k hu
    by_cases hne : u = t
    · subst hne
      rw [Shared.begin_self] at hu
      cases hu
      exact ht
    · rw [Shared.begin_of_ne _ hne] at hu
      exact hholds u o' k hu
  refine ⟨hl, hall, fun u o' hu => ?_, hx.serial.begin hrunning (exclusive_of_holds hl hall)⟩
  have hne : u ≠ t := by
    rintro rfl
    dsimp only at hu
    rw [hwaiting] at hu
    cases hu
  rw [Shared.begin_of_ne _ hne]
  exact hx.waiting u o' (hothers u hne ▸ hu)

theorem Good.passed {a : RWLock.Act Thread} {l : RWLock.State Thread} {t : Thread}
    {o : ModuleCall host.dm β} (hx : x.Good) (hstep : RWLock.step x.lock a = some l)
    (hfew : x.lock.FewReaders a) (ha : a.thread = t) (hrunning : x.calls.running t = none)
    (ho : o.writes = true) : (x.passed t o l).Good := by
  obtain ⟨hl, hholds⟩ := hx.lock hstep hfew (ha ▸ hrunning)
  rw [ModuleThreads.passed]
  split
  · next ht =>
    refine hx.begin hl hholds hrunning ?_ (Function.update_self ..)
      fun u hne => Function.update_of_ne hne ..
    rwa [Holds, if_pos ho]
  · refine ⟨hl, hholds, fun u o' hu => ?_, hx.serial⟩
    dsimp only at hu
    by_cases hne : u = t
    · subst hne
      rw [Function.update_self] at hu
      cases hu
      exact ⟨ho, hrunning⟩
    · rw [Function.update_of_ne hne] at hu
      exact hx.waiting u o' hu

theorem Good.advance {t : Thread}
    {c : Shared Thread (Store host.dm) (ModuleCall host.dm β) (Place host.dm β) (Returned β)}
    (hx : x.Good) (h : Shared.Advances (moduleCalls host β) t x.calls c) :
    Good { x with calls := c } := by
  have hserial := hx.serial.advance (exclusive_of_holds hx.apart hx.holds) h
  have hothers : ∀ u, u ≠ t → c.running u = x.calls.running u := by
    intro u hne
    cases h with
    | goes => exact Function.update_of_ne hne ..
    | returns => exact Function.update_of_ne hne ..
  have hself : (∃ o k k', x.calls.running t = some (o, k) ∧ c.running t = some (o, k')) ∨
      (∃ o k, x.calls.running t = some (o, k)) ∧ c.running t = none := by
    cases h with
    | @goes o k k' _ ht => exact .inl ⟨o, k, k', ht, Function.update_self ..⟩
    | @returns o k _ _ ht => exact .inr ⟨⟨o, k, ht⟩, Function.update_self ..⟩
  refine ⟨hx.apart, fun u o k hu => ?_, fun u o hu => ?_, hserial⟩
  · by_cases hne : u = t
    · subst hne
      rcases hself with ⟨o', k', k'', hold, hnew⟩ | ⟨-, hnew⟩
      · have heq := hnew.symm.trans hu
        cases heq
        exact hx.holds _ _ _ hold
      · have heq := hnew.symm.trans hu
        cases heq
    · exact hx.holds u o k (hothers u hne ▸ hu)
  · obtain ⟨hw, hnone⟩ := hx.waiting u o hu
    have hne : u ≠ t := by
      rintro rfl
      rcases hself with ⟨o', k', k'', hold, -⟩ | ⟨⟨o', k', hold⟩, -⟩
      · rw [hnone] at hold
        cases hold
      · rw [hnone] at hold
        cases hold
    exact ⟨hw, (hothers u hne).trans hnone⟩

/-- A nested lock is given back, so the threads hold what they held before. -/
theorem nestedWalk_lists {t : Thread} {l l' : RWLock.State Thread} (h : nestedWalk t l = some l') :
    ∃ r, l' = { l with l := r } := by
  obtain ⟨l₁, hlock, hunlock⟩ := Option.bind_eq_some_iff.mp h
  cases lock_moved hlock with
  | readLock t r =>
    cases lock_moved hunlock with
    | readUnlock t r' =>
      exact ⟨r', by rw [List.erase_cons_head]⟩

theorem nestedWalk_apart {t : Thread} {l l' : RWLock.State Thread} (hl : l.Apart)
    (hfew : l.reading.length < 2 ^ 32 - 1) (h : nestedWalk t l = some l') : l'.Apart := by
  obtain ⟨l₁, hlock, hunlock⟩ := Option.bind_eq_some_iff.mp h
  refine apart_step (apart_step hl (fun _ _ => hfew) hlock) (fun u heq => ?_) hunlock
  cases heq

/-! ## What the actions can do -/

theorem call_cases {t : Thread} {o : ModuleCall host.dm β} (h : x.step (.call t o) = some x') :
    x.Idle t ∧
      ((o.writes = true ∧ ∃ l, RWLock.step x.lock (.writeLock t) = some l ∧ x' = x.passed t o l) ∨
      (o.writes = false ∧ ∃ l, RWLock.step x.lock (.readLock t) = some l ∧
        x' = { x with lock := l, calls := x.calls.begin (moduleCalls host β) t o })) := by
  rw [ModuleThreads.step] at h
  split at h
  · next hidle =>
    refine ⟨hidle, ?_⟩
    split at h
    · next ho =>
      obtain ⟨l, hstep, rfl⟩ := Option.map_eq_some_iff.mp h
      exact .inl ⟨ho, l, hstep, rfl⟩
    · next ho =>
      obtain ⟨l, hstep, rfl⟩ := Option.map_eq_some_iff.mp h
      exact .inr ⟨Bool.eq_false_iff.mpr ho, l, hstep, rfl⟩
  · cases h

theorem writeAgain_cases {t : Thread} (h : x.step (.writeAgain t) = some x') :
    ∃ o l, x.waiting t = some o ∧ RWLock.step x.lock (.writeAgain t) = some l ∧
      x' = x.passed t o l := by
  rw [ModuleThreads.step] at h
  split at h
  · cases h
  · next o ho =>
    obtain ⟨l, hstep, rfl⟩ := Option.map_eq_some_iff.mp h
    exact ⟨o, l, ho, hstep, rfl⟩

theorem lookup_cases {t : Thread} (h : x.step (.lookup t) = some x') :
    ∃ args l, x.calls.running t = some (.load args, .begin) ∧ nestedWalk t x.lock = some l ∧
      x' = { x with lock := l } := by
  rw [ModuleThreads.step] at h
  split at h
  · next args hrunning =>
    obtain ⟨l, hwalk, rfl⟩ := Option.map_eq_some_iff.mp h
    exact ⟨args, l, hrunning, hwalk, rfl⟩
  · cases h

theorem leave_cases {t : Thread} (h : x.step (.leave t) = some x') :
    x.calls.running t = none ∧ ∃ l, x' = { x with lock := l } ∧
      ((t ∈ x.lock.reading ∧ RWLock.step x.lock (.readUnlock t) = some l) ∨
        RWLock.step x.lock (.writeUnlock t) = some l) := by
  rw [ModuleThreads.step] at h
  split at h
  · next hnone =>
    obtain ⟨l, hstep, rfl⟩ := Option.map_eq_some_iff.mp h
    refine ⟨Option.isNone_iff_eq_none.mp hnone, l, rfl, ?_⟩
    split at hstep
    · next hreading => exact .inl ⟨hreading, hstep⟩
    · exact .inr hstep
  · cases h

theorem Good.step {a : ModuleAct host.dm β Thread} (hx : x.Good) (hfew : x.FewWalks a)
    (h : x.step a = some x') : x'.Good := by
  have hnone : ∀ {b : RWLock.Act Thread}, (∀ t, b ≠ .readLock t) → x.lock.FewReaders b :=
    fun hb t heq => absurd heq (hb t)
  cases a with
  | call t o =>
    obtain ⟨hidle, hcall⟩ := call_cases h
    have hrunning : x.calls.running t = none := Option.isNone_iff_eq_none.mp hidle.1
    rcases hcall with ⟨ho, l, hstep, rfl⟩ | ⟨ho, l, hstep, rfl⟩
    · exact hx.passed hstep (hnone (by simp)) rfl hrunning ho
    · have hreaders : x.lock.FewReaders (.readLock t) := fun _ _ => hfew ho
      obtain ⟨hl, hholds⟩ := hx.lock hstep hreaders hrunning
      refine hx.begin hl hholds hrunning ?_ (Option.isNone_iff_eq_none.mp hidle.2.1)
        fun _ _ => rfl
      rw [Holds, ho, if_neg Bool.false_ne_true]
      cases lock_moved hstep
      exact List.mem_cons_self
  | eventWait t =>
    obtain ⟨l, hstep, rfl⟩ := Option.map_eq_some_iff.mp h
    have hl := apart_step hx.apart (hnone (by simp)) hstep
    cases lock_moved hstep
    exact ⟨hl, hx.holds, hx.waiting, hx.serial⟩
  | writeAgain t =>
    obtain ⟨o, l, ho, hstep, rfl⟩ := writeAgain_cases h
    obtain ⟨hw, hrunning⟩ := hx.waiting t o ho
    exact hx.passed hstep (hnone (by simp)) rfl hrunning hw
  | lookup t =>
    obtain ⟨args, l, -, hwalk, rfl⟩ := lookup_cases h
    have hl := nestedWalk_apart hx.apart hfew hwalk
    obtain ⟨r, rfl⟩ := nestedWalk_lists hwalk
    exact ⟨hl, hx.holds, hx.waiting, hx.serial⟩
  | advance t =>
    obtain ⟨c, hadvance, rfl⟩ := Option.map_eq_some_iff.mp h
    exact hx.advance (Shared.advance_cases hadvance)
  | leave t =>
    obtain ⟨hrunning, l, rfl, ⟨-, hstep⟩ | hstep⟩ := leave_cases h
    · obtain ⟨hl, hholds⟩ := hx.lock hstep (hnone (by simp)) hrunning
      exact ⟨hl, hholds, hx.waiting, hx.serial⟩
    · obtain ⟨hl, hholds⟩ := hx.lock hstep (hnone (by simp)) hrunning
      exact ⟨hl, hholds, hx.waiting, hx.serial⟩

end ModuleThreads

/-- However threads interleave, the calls that have returned did what they do when they are made
one after the other: a walk has computed its value from the list as it was at one moment. The
store has what these calls left, unless a call that changes it is under way. -/
theorem modules_serial (host : Host) {Thread : Type} [DecidableEq Thread]
    {x : ModuleThreads host β Thread}
    (hrun : Run ModuleThreads.step ModuleThreads.FewWalks ModuleThreads.init x) :
    ∃ s, Serial (Does host) Store.init x.calls.history s ∧ StoreLaw s ∧
      ((∀ t o k, x.calls.running t = some (o, k) → o.writes = false) → x.calls.data = s) := by
  have hx : x.Good := by
    apply hrun.invariant (I := ModuleThreads.Good) _ ModuleThreads.good_init
    intro y a z hy hfew hstep
    exact hy.step hfew hstep
  obtain ⟨s, hserial, -, hstill⟩ := hx.serial
  obtain ⟨hs, hdoes⟩ := hserial.mono Store.inv_init fun _ _ _ _ hs h => returns_does hs h
  exact ⟨s, hdoes, hs.law, hstill⟩

/-- A walk for the first module delays a load until it is through; the load looks two symbols up. -/
def walkAndLoad : List (ModuleAct plainHost.dm (Option CexpModule) Bool) :=
  [.call false (.load loadSystem), .advance false, .advance false, .advance false, .leave false,
    .call true (.search (nameWalk (fun _ => true) false)), .advance true,
    .call false (.load (loadNamed moduleA (definingFile moduleA))),
    .advance true, .leave true, .eventWait false, .writeAgain false, .lookup false, .lookup false,
    .advance false, .advance false, .advance false, .leave false]

instance (x : ModuleThreads plainHost β Bool) (a : ModuleAct plainHost.dm β Bool) :
    Decidable (x.FewWalks a) := by
  cases a with
  | call t o => exact inferInstanceAs (Decidable (_ → _))
  | eventWait t => exact isTrue trivial
  | writeAgain t => exact isTrue trivial
  | lookup t => exact inferInstanceAs (Decidable (_ < _))
  | advance t => exact isTrue trivial
  | leave t => exact isTrue trivial

theorem modules_serial_walk :
    ∃ x : ModuleThreads plainHost (Option CexpModule) Bool,
      x.calls.history.map Prod.fst = [false, true, false] ∧
      handles x.calls.data.modules = [16, 32] ∧
      ∃ s, Serial (Does plainHost) Store.init x.calls.history s ∧ StoreLaw s ∧
        ((∀ t o k, x.calls.running t = some (o, k) → o.writes = false) → x.calls.data = s) := by
  have heval : (walkAndLoad.foldlM
      (fun (x : ModuleThreads plainHost (Option CexpModule) Bool) a =>
        if x.FewWalks a then x.step a else none)
      ModuleThreads.init).any (fun x => x.calls.history.map Prod.fst = [false, true, false] ∧
        handles x.calls.data.modules = [16, 32]) = true := by
    decide +kernel
  obtain ⟨x, hx, hstate⟩ := (Option.any_eq_true _ _).mp heval
  obtain ⟨hhistory, hhandles⟩ := of_decide_eq_true hstate
  exact ⟨x, hhistory, hhandles, modules_serial plainHost (Run.of_checked hx)⟩

end Cexp
