import Cexp.Modules.Concurrent

/-!
# No deadlock on the list of modules

Threads that make calls one at a time follow the rule of the lock that a reader must not ask to
write. As long as the last reader that leaves never leaves more than one writer asleep, they do
not block each other for good (`modules_progress`): while a call is under way some thread can go
on with its own, unless the linker has crashed.
-/

namespace Cexp

open CLib

variable {β : Type}

/-! ## Calls go on -/

section

variable {host : Host} {s s' : Store host.dm}

/-- The call is at a place from which it does not go on: the linker crashes on the file (a failing
assertion, a loop without end, a table without symbols whose last element is written), or the
symbols of a module are freed that are the static array of the builtin ones. -/
inductive CallCrash (s : Store host.dm) : ModuleCall host.dm β → Place host.dm β → Prop where
  | link {args : LoadArgs} (h : prepareLoad host args s = .crash) : CallCrash s (.load args) .begin
  | free {mod pred : CexpModule} {m : CexpModuleRec host.dm} (h : m.builtin = true) :
      CallCrash s (.unload mod false) (.cleared m pred)

theorem search_goes {w : ModuleWalk host.dm β} {k : Place host.dm β} (hs : s.Inv)
    (h : (moduleCalls host β).Steps (.search w) .begin s k s') :
    (callStep host (.search w) k s').isSome := by
  have hwalked := search_walked hs h
  cases k with
  | begin => rfl
  | node acc m =>
    cases m with
    | none => rfl
    | some mod =>
      rw [callStep]
      split
      · rfl
      · split <;> rfl
  | linked nmod tail => exact hwalked.2.elim
  | entered nmod tail => exact hwalked.2.elim
  | checked m pred => exact hwalked.2.elim
  | cleared m pred => exact hwalked.2.elim

theorem load_goes {args : LoadArgs} {k : Place host.dm β} (hs : s.Inv)
    (h : (moduleCalls host β).Steps (.load args) .begin s k s') :
    (callStep host (.load args) k s').isSome ∨ CallCrash s' (.load args) k := by
  have hloading := load_loading h
  cases k with
  | begin =>
    rw [callStep]
    cases hprepare : prepareLoad host args s' with
    | refused t => exact .inl rfl
    | crash => exact .inr (.link hprepare)
    | ready nmod tail t => exact .inl rfl
  | linked nmod tail => exact .inl rfl
  | entered nmod tail =>
    obtain ⟨t, hprepare, rfl⟩ := hloading
    obtain ⟨-, rfl, rfl⟩ := prepareLoad_ready hprepare
    left
    have hfinish := finishLoad_last nmod
      (s := { s with id := nmod.id, used := nmod.handle :: s.used }) hs.handles_nodup
    rw [finishLoad, Option.map_eq_some_iff] at hfinish
    obtain ⟨l, hchain, -⟩ := hfinish
    simp only [callStep, hchain, Option.map_some, Option.isSome_some]
  | node acc m => exact hloading.elim
  | checked m pred => exact hloading.elim
  | cleared m pred => exact hloading.elim

theorem unload_goes {mod : CexpModule} {rejects : Bool} {k : Place host.dm β} (hs : s.Inv)
    (h : (moduleCalls host β).Steps (.unload mod rejects) .begin s k s') :
    (callStep host (.unload mod rejects) k s').isSome ∨ CallCrash s' (.unload mod rejects) k := by
  have hunloading := unload_unloading h
  cases k with
  | begin =>
    left
    rw [callStep]
    split
    · rfl
    · split <;> rfl
  | checked m pred => exact .inl rfl
  | cleared m pred =>
    obtain ⟨rfl, hcheck, rfl⟩ := hunloading
    obtain ⟨l₁, a, l₂, hmodules, rfl, -, -⟩ := checkUnload_some hs.handles_nodup hcheck
    cases hbuiltin : m.builtin with
    | true => exact .inr (.free hbuiltin)
    | false =>
      have hunlink := unlink_removed hmodules hs.handles_nodup (SameStore.refl _) hbuiltin
      rw [callStep, hunlink]
      exact .inl rfl
  | node acc m => exact hunloading.elim
  | linked nmod tail => exact hunloading.elim
  | entered nmod tail => exact hunloading.elim

/-- A call that has got somewhere can go on. -/
theorem call_goes {o : ModuleCall host.dm β} {k : Place host.dm β} (hs : s.Inv)
    (h : (moduleCalls host β).Steps o .begin s k s') :
    (callStep host o k s').isSome ∨ CallCrash s' o k := by
  cases o with
  | search w => exact .inl (search_goes hs h)
  | load args => exact load_goes hs h
  | unload mod rejects => exact unload_goes hs h

end

/-! ## The lock lets threads in -/

section

variable {Thread : Type} [DecidableEq Thread] {l l' : RWLock.State Thread} {t : Thread}

theorem cexpLock_free {m : RWLock.CexpLock Thread} (h : RWLock.CexpLock.Free m t) :
    (RWLock.cexpLock t m).isSome := by
  cases m with
  | none => rfl
  | some owner =>
    obtain ⟨u, n⟩ := owner
    have hu : u = t := h u (List.mem_replicate.mpr ⟨Nat.succ_ne_zero n, rfl⟩)
    rw [RWLock.cexpLock, if_pos hu]
    rfl

theorem lock_free {r : RWLock.CexpRWLockRec Thread} (h : RWLock.CexpLock.Free r.mutex t) :
    ∃ r', r.lock t = some r' := by
  obtain ⟨m, hm⟩ := Option.isSome_iff_exists.mp (cexpLock_free h)
  exact ⟨{ r with mutex := m }, by rw [RWLock.CexpRWLockRec.lock, hm]; rfl⟩

theorem readUnlock_goes (hfree : RWLock.CexpLock.Free l.l.mutex t) (hidle : l.Idle t)
    (ht : t ∈ l.reading) : (RWLock.step l (.readUnlock t)).isSome := by
  obtain ⟨r, hr⟩ := lock_free hfree
  rw [RWLock.step, if_pos ⟨hidle, ht⟩, Option.isSome_map, RWLock.cexpReadUnlock, hr]
  rfl

theorem writeAgain_goes (hfree : RWLock.CexpLock.Free l.l.mutex t) (ht : t ∈ l.woken) :
    (RWLock.step l (.writeAgain t)).isSome := by
  obtain ⟨r, hr⟩ := lock_free hfree
  rw [RWLock.step, if_pos ht, Option.isSome_map, RWLock.writePass, hr]
  simp only [Option.bind_eq_bind, Option.bind_some]
  split <;> rfl

theorem eventWait_goes (hnap : l.l.nap = true) (ht : t ∈ l.sleeping) :
    (RWLock.step l (.eventWait t)).isSome := by
  rw [RWLock.step, if_pos ht, hnap]
  rfl

theorem writeUnlock_goes (hidle : l.Idle t) (ht : t ∈ l.writing) :
    (RWLock.step l (.writeUnlock t)).isSome := by
  rw [RWLock.step, if_pos ⟨hidle, ht⟩]
  rfl

end

/-! ## Who waits -/

namespace ModuleThreads

variable {host : Host} {Thread : Type} [DecidableEq Thread] {x x' : ModuleThreads host β Thread}

/-- A walk that takes the number of walks to zero leaves at most one writer asleep. -/
def OneWaiting (x : ModuleThreads host β Thread) (a : ModuleAct host.dm β Thread) : Prop :=
  ∀ t, a = .leave t → t ∈ x.lock.reading → x.lock.l.readers - 1 = 0 →
    x.lock.sleeping.length ≤ 1

/-- The threads that are in `cexpWriteLock` wait for the lock and hold none. -/
structure Waits (l : RWLock.State Thread) (waiting : Thread → Option (ModuleCall host.dm β)) :
    Prop where
  nodup : (l.sleeping ++ l.woken).Nodup
  waits : ∀ t, t ∈ l.sleeping ++ l.woken ↔ (waiting t).isSome
  holders : ∀ t, t ∈ l.reading ∨ t ∈ l.writing → waiting t = none

structure Ready (x : ModuleThreads host β Thread) : Prop where
  good : x.Good
  balanced : x.lock.Balanced
  waits : Waits x.lock x.waiting

variable {l l' : RWLock.State Thread} {waiting : Thread → Option (ModuleCall host.dm β)}
  {t : Thread}

omit [DecidableEq Thread] in
theorem Waits.not_mem (h : Waits l waiting) (ht : waiting t = none) :
    t ∉ l.sleeping ++ l.woken := by
  rw [h.waits t, ht]
  exact Bool.false_ne_true

omit [DecidableEq Thread] in
/-- The thread that gets a lock did not wait. -/
theorem Waits.hold (h : Waits l waiting) (ht : waiting t = none)
    (hsleeping : l'.sleeping = l.sleeping) (hwoken : l'.woken = l.woken)
    (hholders : ∀ u, u ∈ l'.reading ∨ u ∈ l'.writing → u = t ∨ u ∈ l.reading ∨ u ∈ l.writing) :
    Waits l' waiting where
  nodup := by
    rw [hsleeping, hwoken]
    exact h.nodup
  waits u := by
    rw [hsleeping, hwoken]
    exact h.waits u
  holders u hu := by
    rcases hholders u hu with rfl | hu
    · exact ht
    · exact h.holders u hu

/-- A thread goes to sleep that was in no call. -/
theorem Waits.sleep (h : Waits l waiting) (o : ModuleCall host.dm β) (ht : waiting t = none)
    (hreading : t ∉ l.reading) (hwriting : t ∉ l.writing) (r : RWLock.CexpRWLockRec Thread) :
    Waits { l with l := r, sleeping := t :: l.sleeping } (Function.update waiting t (some o)) where
  nodup := List.nodup_cons.mpr ⟨h.not_mem ht, h.nodup⟩
  waits u := by
    by_cases hne : u = t
    · subst hne
      rw [Function.update_self]
      simp
    · rw [Function.update_of_ne hne, ← h.waits u]
      simp [hne]
  holders u hu := by
    have hne : u ≠ t := by
      rintro rfl
      exact hu.elim hreading hwriting
    rw [Function.update_of_ne hne]
    exact h.holders u hu

omit [DecidableEq Thread] in
/-- Which of its lists a waiting thread is in does not matter. -/
theorem Waits.perm (h : Waits l waiting)
    (hperm : (l'.sleeping ++ l'.woken).Perm (l.sleeping ++ l.woken))
    (hreading : l'.reading = l.reading) (hwriting : l'.writing = l.writing) :
    Waits l' waiting where
  nodup := hperm.nodup_iff.mpr h.nodup
  waits u := by
    rw [hperm.mem_iff]
    exact h.waits u
  holders u := by
    rw [hreading, hwriting]
    exact h.holders u

/-- A thread that was woken gets the lock. -/
theorem Waits.enter (h : Waits l waiting) (ht : t ∈ l.woken) (r : RWLock.CexpRWLockRec Thread) :
    Waits { l with l := r, writing := t :: l.writing, woken := l.woken.erase t }
      (Function.update waiting t none) := by
  have hnodup := List.nodup_append.mp h.nodup
  have hout : t ∉ l.sleeping ++ l.woken.erase t := by
    intro hmem
    rcases List.mem_append.mp hmem with hmem | hmem
    · exact hnodup.2.2 t hmem t ht rfl
    · exact ((List.Nodup.mem_erase_iff hnodup.2.1).mp hmem).1 rfl
  refine ⟨h.nodup.sublist (List.Sublist.append_left List.erase_sublist _), fun u => ?_,
    fun u hu => ?_⟩
  · by_cases hne : u = t
    · subst hne
      rw [Function.update_self]
      exact ⟨fun hmem => absurd hmem hout, fun hsome => by cases hsome⟩
    · rw [Function.update_of_ne hne, ← h.waits u]
      simp [List.mem_erase_of_ne hne]
  · by_cases hne : u = t
    · subst hne
      exact Function.update_self ..
    · rw [Function.update_of_ne hne]
      refine h.holders u (hu.imp_right fun hu => ?_)
      exact (List.mem_cons.mp hu).resolve_left hne

omit [DecidableEq Thread] in
theorem ready_init : (init : ModuleThreads host β Thread).Ready where
  good := good_init
  balanced := RWLock.balanced_init
  waits := {
    nodup := List.nodup_nil
    waits := fun t => by simp [init, RWLock.State.init]
    holders := by
      rintro t (h | h)
      · cases h
      · cases h }

theorem balanced_step {a : RWLock.Act Thread} (hl : l.Balanced) (hone : l.OneSleeper a)
    (h : RWLock.step l a = some l') : l'.Balanced := by
  obtain ⟨u, hmoves⟩ := RWLock.step_cases h
  exact hl.moves hone hmoves

/-- A pass of `__WLOCK()` by a thread that has just come. -/
theorem Waits.passed {o : ModuleCall host.dm β} (h : Waits x.lock x.waiting) (hidle : x.Idle t)
    (hmoved : Moved x.lock (.writeLock t) l) :
    Waits (x.passed t o l).lock (x.passed t o l).waiting := by
  obtain ⟨-, hwaiting, hreading, hwriting⟩ := hidle
  have hnone : x.waiting t = none := Option.isNone_iff_eq_none.mp hwaiting
  rw [ModuleThreads.passed]
  cases hmoved with
  | enter t r =>
    have hupdate : Function.update x.waiting t none = x.waiting :=
      Function.update_eq_self_iff.mpr hnone.symm
    rw [if_pos List.mem_cons_self]
    dsimp only
    rw [hupdate]
    refine h.hold hnone rfl rfl fun u hu => ?_
    rcases hu with hu | hu
    · exact .inr (.inl hu)
    · exact (List.mem_cons.mp hu).imp_right .inr
  | sleep t r =>
    rw [if_neg hwriting]
    exact h.sleep o hnone hreading hwriting r

/-- A pass of `__WLOCK()` after an event. -/
theorem Waits.passedAgain {o : ModuleCall host.dm β} (h : Waits x.lock x.waiting)
    (ht : x.waiting t = some o) (hmoved : Moved x.lock (.writeAgain t) l) :
    Waits (x.passed t o l).lock (x.passed t o l).waiting := by
  rw [ModuleThreads.passed]
  cases hmoved with
  | enterAgain t r hwoken =>
    rw [if_pos List.mem_cons_self]
    exact h.enter hwoken r
  | sleepAgain t r hwoken =>
    have hout : t ∉ x.lock.writing := by
      intro hmem
      rw [h.holders t (.inr hmem)] at ht
      cases ht
    have hupdate : Function.update x.waiting t (some o) = x.waiting :=
      Function.update_eq_self_iff.mpr ht.symm
    rw [if_neg hout]
    dsimp only
    rw [hupdate]
    refine h.perm ?_ rfl rfl
    have hwokens : (x.lock.sleeping ++ x.lock.woken).Perm
        (x.lock.sleeping ++ t :: x.lock.woken.erase t) :=
      (List.perm_cons_erase hwoken).append_left _
    exact (hwokens.trans List.perm_middle).symm

theorem passed_lock (o : ModuleCall host.dm β) : (x.passed t o l).lock = l := by
  rw [ModuleThreads.passed]
  split <;> rfl

/-- A lookup in the linker leaves the counters balanced: if it takes the number of walks to zero,
nobody sleeps but a writer whose event is posted. -/
theorem Ready.nestedWalk (hx : x.Ready) (h : ModuleThreads.nestedWalk t x.lock = some l) :
    l.Balanced := by
  obtain ⟨l₁, hlock, hunlock⟩ := Option.bind_eq_some_iff.mp h
  have hbalanced := balanced_step hx.balanced (fun u heq => by cases heq) hlock
  refine balanced_step hbalanced (fun u _ hzero => ?_) hunlock
  rw [RWLock.step] at hlock
  split at hlock
  · obtain ⟨r, hr, rfl⟩ := Option.map_eq_some_iff.mp hlock
    obtain ⟨-, rfl⟩ := RWLock.cexpReadLock_some hr
    have hreaders : x.lock.l.readers = 0 := by simpa using hzero
    have hposted := hx.balanced.posted (hx.good.apart.counts.no_reader hx.good.apart.few hreaders)
    exact hposted.trans (Bool.toNat_le _)
  · cases hlock

theorem Ready.step {a : ModuleAct host.dm β Thread} (hx : x.Ready) (hfew : x.FewWalks a)
    (hone : x.OneWaiting a) (h : x.step a = some x') : x'.Ready := by
  have hgood := hx.good.step hfew h
  have hnone : ∀ {b : RWLock.Act Thread}, (∀ u, b ≠ .readUnlock u) → x.lock.OneSleeper b :=
    fun hb u heq => absurd heq (hb u)
  cases a with
  | call t o =>
    obtain ⟨hidle, ⟨-, l, hstep, rfl⟩ | ⟨-, l, hstep, rfl⟩⟩ := call_cases h
    · refine ⟨hgood, ?_, hx.waits.passed hidle (lock_moved hstep)⟩
      rw [passed_lock]
      exact balanced_step hx.balanced (hnone (by simp)) hstep
    · refine ⟨hgood, balanced_step hx.balanced (hnone (by simp)) hstep, ?_⟩
      have hwaiting := Option.isNone_iff_eq_none.mp hidle.2.1
      cases lock_moved hstep with
      | readLock t r =>
        refine hx.waits.hold hwaiting rfl rfl fun u hu => ?_
        rcases hu with hu | hu
        · exact (List.mem_cons.mp hu).imp_right .inl
        · exact .inr (.inr hu)
  | eventWait t =>
    obtain ⟨l, hstep, rfl⟩ := Option.map_eq_some_iff.mp h
    refine ⟨hgood, balanced_step hx.balanced (hnone (by simp)) hstep, ?_⟩
    cases lock_moved hstep with
    | eventWait t r ht =>
      refine hx.waits.perm ?_ rfl rfl
      have hsleepers : (x.lock.sleeping ++ x.lock.woken).Perm
          (t :: x.lock.sleeping.erase t ++ x.lock.woken) :=
        (List.perm_cons_erase ht).append_right _
      exact List.perm_middle.trans hsleepers.symm
  | writeAgain t =>
    obtain ⟨o, l, ho, hstep, rfl⟩ := writeAgain_cases h
    refine ⟨hgood, ?_, hx.waits.passedAgain ho (lock_moved hstep)⟩
    rw [passed_lock]
    exact balanced_step hx.balanced (hnone (by simp)) hstep
  | lookup t =>
    obtain ⟨args, l, -, hwalk, rfl⟩ := lookup_cases h
    have hbalanced := hx.nestedWalk hwalk
    obtain ⟨r, rfl⟩ := nestedWalk_lists hwalk
    exact ⟨hgood, hbalanced, hx.waits.perm (List.Perm.refl _) rfl rfl⟩
  | advance t =>
    obtain ⟨c, hadvance, rfl⟩ := Option.map_eq_some_iff.mp h
    exact ⟨hgood, hx.balanced, hx.waits⟩
  | leave t =>
    obtain ⟨-, l, rfl, ⟨hreading, hstep⟩ | hstep⟩ := leave_cases h
    · have hsleeper : x.lock.OneSleeper (.readUnlock t) := by
        rintro u ⟨⟩ hzero
        exact hone t rfl hreading hzero
      refine ⟨hgood, balanced_step hx.balanced hsleeper hstep, ?_⟩
      have hwaiting := hx.waits.holders t (.inl hreading)
      cases lock_moved hstep with
      | readUnlock t r =>
        refine hx.waits.hold hwaiting rfl rfl fun u hu => ?_
        exact .inr (hu.imp_left List.mem_of_mem_erase)
    · refine ⟨hgood, balanced_step hx.balanced (hnone (by simp)) hstep, ?_⟩
      cases lock_moved hstep with
      | writeUnlock t r =>
        refine ⟨hx.waits.nodup, hx.waits.waits, fun u hu => hx.waits.holders u ?_⟩
        exact hu.imp_right List.mem_of_mem_erase

/-! ## Progress -/

/-- The step goes on with a call. Looking up one symbol more does not bring a load any further. -/
def Continues : ModuleAct host.dm β Thread → Prop
  | .call _ _ => False
  | .lookup _ => False
  | _ => True

/-- Some thread can go on with its call. -/
def Moves (x : ModuleThreads host β Thread) : Prop := ∃ a, Continues a ∧ (x.step a).isSome

theorem advance_goes {o : ModuleCall host.dm β} {k : Place host.dm β}
    (ht : x.calls.running t = some (o, k)) (h : (callStep host o k x.calls.data).isSome) :
    x.Moves := by
  obtain ⟨⟨s, y⟩, hstep⟩ := Option.isSome_iff_exists.mp h
  have hstep' : (moduleCalls host β).step o k x.calls.data = some (s, y) := hstep
  refine ⟨.advance t, trivial, ?_⟩
  rw [ModuleThreads.step, Option.isSome_map, Shared.advance, ht]
  dsimp only
  rw [hstep']
  cases y with
  | inl k => rfl
  | inr r => rfl

/-- A call that runs goes on by itself. -/
theorem Ready.running {o : ModuleCall host.dm β} {k : Place host.dm β} (hx : x.Ready)
    (ht : x.calls.running t = some (o, k)) : x.Moves ∨ CallCrash x.calls.data o k := by
  obtain ⟨base, hserial, hrunning, -⟩ := hx.good.serial
  have hdoes : Store.Inv base ∧ Serial (Does host) Store.init x.calls.history base :=
    hserial.mono Store.inv_init fun _ _ _ _ hs h => returns_does hs h
  have hbase := hdoes.1
  exact (call_goes hbase (hrunning t o k ht)).imp_left (advance_goes ht)

/-- A thread that holds a lock leaves, unless a call of it runs. -/
theorem Ready.leaves (hx : x.Ready) (hrunning : x.calls.running t = none)
    (ht : t ∈ x.lock.reading ∨ t ∈ x.lock.writing)
    (hfree : RWLock.CexpLock.Free x.lock.l.mutex t) : x.Moves := by
  have hout := hx.waits.not_mem (hx.waits.holders t ht)
  rw [List.mem_append, not_or] at hout
  refine ⟨.leave t, trivial, ?_⟩
  rw [ModuleThreads.step, if_pos (Option.isNone_iff_eq_none.mpr hrunning), Option.isSome_map]
  split
  · next hreading => exact readUnlock_goes hfree hout hreading
  · next hreading => exact writeUnlock_goes hout (ht.resolve_left hreading)

/-- If no lock is held, a thread that waits gets one. -/
theorem Ready.waiter (hx : x.Ready) (hreading : x.lock.reading = [])
    (hwriting : x.lock.writing = []) (ht : t ∈ x.lock.sleeping ++ x.lock.woken) : x.Moves := by
  have hnobody : x.lock.l.mutex.holders = [] := hx.balanced.counts.mutex.trans hwriting
  have hfree : ∀ u, RWLock.CexpLock.Free x.lock.l.mutex u := by
    intro u v hv
    rw [hnobody] at hv
    cases hv
  by_cases hwoken : ∃ u, u ∈ x.lock.woken
  · obtain ⟨u, hu⟩ := hwoken
    obtain ⟨o, ho⟩ := Option.isSome_iff_exists.mp
      ((hx.waits.waits u).mp (List.mem_append_right _ hu))
    refine ⟨.writeAgain u, trivial, ?_⟩
    rw [ModuleThreads.step, ho]
    dsimp only
    rw [Option.isSome_map]
    exact writeAgain_goes (hfree u) hu
  · -- the last reader has posted an event for the only thread that sleeps
    have hsleeping : t ∈ x.lock.sleeping :=
      (List.mem_append.mp ht).resolve_right fun hmem => hwoken ⟨t, hmem⟩
    have hposted := hx.balanced.posted hreading
    have hpos := List.length_pos_of_mem hsleeping
    have hnap : x.lock.l.nap = true := by
      cases hnap : x.lock.l.nap with
      | true => rfl
      | false =>
        rw [RWLock.State.Posted, hnap, Bool.toNat_false] at hposted
        omega
    refine ⟨.eventWait t, trivial, ?_⟩
    rw [ModuleThreads.step, Option.isSome_map]
    exact eventWait_goes hnap hsleeping

end ModuleThreads

/-- While a thread is in a call, some thread can go on with its own call, or one has crashed. The
runs are those in which the last walk that leaves never leaves two writers asleep. -/
theorem modules_progress (host : Host) {Thread : Type} [DecidableEq Thread]
    {x : ModuleThreads host β Thread}
    (hrun : Run ModuleThreads.step (fun y a => y.FewWalks a ∧ y.OneWaiting a)
      ModuleThreads.init x) {t : Thread} (hbusy : ¬x.Idle t) :
    x.Moves ∨ ∃ u o k, x.calls.running u = some (o, k) ∧ CallCrash x.calls.data o k := by
  have hx : x.Ready := by
    apply hrun.invariant (I := ModuleThreads.Ready) _ ModuleThreads.ready_init
    intro y a z hy hok hstep
    exact hy.step hok.1 hok.2 hstep
  by_cases hrunning : ∃ u p, x.calls.running u = some p
  · obtain ⟨u, ⟨o, k⟩, hu⟩ := hrunning
    exact (hx.running hu).imp_right fun hcrash => ⟨u, o, k, hu, hcrash⟩
  left
  have hnone : ∀ u, x.calls.running u = none := fun u =>
    Option.eq_none_iff_forall_ne_some.mpr fun p hp => hrunning ⟨u, p, hp⟩
  by_cases hwriter : ∃ u, u ∈ x.lock.writing
  · obtain ⟨u, hu⟩ := hwriter
    refine hx.leaves (hnone u) (.inr hu) fun v hv => ?_
    rw [hx.balanced.counts.mutex] at hv
    exact hx.good.apart.safe u hu v (.inl hv)
  have hwriting : x.lock.writing = [] :=
    List.eq_nil_iff_forall_not_mem.mpr fun u hu => hwriter ⟨u, hu⟩
  by_cases hreader : ∃ u, u ∈ x.lock.reading
  · obtain ⟨u, hu⟩ := hreader
    refine hx.leaves (hnone u) (.inl hu) fun v hv => ?_
    rw [hx.balanced.counts.mutex, hwriting] at hv
    cases hv
  have hreading : x.lock.reading = [] :=
    List.eq_nil_iff_forall_not_mem.mpr fun u hu => hreader ⟨u, hu⟩
  have hwaits : t ∈ x.lock.sleeping ++ x.lock.woken := by
    by_contra hout
    refine hbusy ⟨by rw [hnone t]; rfl, ?_, by rw [hreading]; simp, by rw [hwriting]; simp⟩
    rw [hx.waits.waits t] at hout
    simpa using hout
  exact hx.waiter hreading hwriting hwaits

instance (x : ModuleThreads plainHost β Bool) (a : ModuleAct plainHost.dm β Bool) :
    Decidable (x.OneWaiting a) :=
  match a with
  | .leave t =>
    decidable_of_iff (t ∈ x.lock.reading → x.lock.l.readers - 1 = 0 →
      x.lock.sleeping.length ≤ 1) ⟨fun h u hu => by cases hu; exact h, fun h => h t rfl⟩
  | .call _ _ => isTrue fun _ h => by cases h
  | .eventWait _ => isTrue fun _ h => by cases h
  | .writeAgain _ => isTrue fun _ h => by cases h
  | .lookup _ => isTrue fun _ h => by cases h
  | .advance _ => isTrue fun _ h => by cases h

/-- The walk has left, and the load that waits for it is still asleep. -/
theorem modules_progress_asleep :
    ∃ x : ModuleThreads plainHost (Option CexpModule) Bool,
      x.lock.sleeping = [false] ∧ x.lock.reading = [] ∧
      (x.Moves ∨ ∃ u o k, x.calls.running u = some (o, k) ∧ CallCrash x.calls.data o k) := by
  have heval : ((walkAndLoad.take 10).foldlM
      (fun (x : ModuleThreads plainHost (Option CexpModule) Bool) a =>
        if x.FewWalks a ∧ x.OneWaiting a then x.step a else none)
      ModuleThreads.init).any (fun x => x.lock.sleeping = [false] ∧ x.lock.reading = [] ∧
        (x.waiting false).isSome) = true := by
    decide +kernel
  obtain ⟨x, hx, hstate⟩ := (Option.any_eq_true _ _).mp heval
  obtain ⟨hsleeping, hreading, hwaiting⟩ := of_decide_eq_true hstate
  refine ⟨x, hsleeping, hreading, modules_progress plainHost (t := false) (Run.of_checked hx) ?_⟩
  rintro ⟨-, hnone, -, -⟩
  rw [Option.isNone_iff_eq_none.mp hnone] at hwaiting
  cases hwaiting

end Cexp
