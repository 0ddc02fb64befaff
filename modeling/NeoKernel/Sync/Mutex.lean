import Mathlib.Data.Fintype.Sum
import NeoKernel.Sync.Waitq

/-!
# The sleeping mutex (kernel/sync/lock.c)

Threads run `mutex_lock` and `mutex_unlock` on one mutex, over the wait queue of
kernel/sync/waitq.c. `m->guard` is held from a thread's `acquire` to its release. Senders of
signals take a thread off the queue and make it ready; a pending signal may go away at any time.
-/
namespace NeoKernel.Lock
open Lib Waitq Function

/-- Where a thread is in `mutex_lock` and `mutex_unlock`. -/
inductive LockPc where
  /-- does not hold the mutex and is not in its code -/
  | out
  /-- `mutex_lock` before it has the guard -/
  | locking
  /-- at the test of the loop -/
  | testing
  /-- in `sleep_common` before `signal_pending_any` -/
  | sleeping
  /-- after it -/
  | enqueuing
  /-- on the queue and still on its CPU, before the guard is dropped -/
  | queued
  /-- switched away in `schedule` -/
  | parked
  /-- back from `schedule`, before it has the guard again -/
  | resumed
  /-- has set `m->locked` -/
  | taken
  /-- `mutex_lock` has returned -/
  | holding
  /-- `mutex_unlock` before it has the guard -/
  | unlocking
  /-- has cleared `m->locked` -/
  | cleared
  /-- in `waitq_wake_one` after the dequeue -/
  | waking
  deriving DecidableEq, Repr

namespace LockPc

def guards : LockPc → Bool
  | .testing | .sleeping | .enqueuing | .queued | .taken | .cleared | .waking => true
  | _ => false

def holds : LockPc → Bool
  | .taken | .holding | .unlocking => true
  | _ => false

end LockPc

/-- Threads `τ` and senders `κ`. A thread is also a context that wakes others. -/
structure Mutex (τ κ : Type*) where
  locked : Bool
  guard : Option τ
  waiters : Waits τ Unit (τ ⊕ κ)
  /-- `signal_next_deliverable(t) != 0`. -/
  deliverable : τ → Bool
  pc : τ → LockPc

inductive MutexAct (τ κ : Type*) where
  | lock (t : τ)
  | unlock (t : τ)
  /-- The thread gets `m->guard`. -/
  | acquire (t : τ)
  /-- The next step of the thread that has it. -/
  | go (t : τ)
  /-- The scheduler picks a thread that sleeps in `mutex_lock` and has been made ready. -/
  | run (t : τ)
  | post (t : τ)
  | take (t : τ)
  /-- `signal_wake_for_delivery` finds the thread BLOCKED. -/
  | signal (k : κ) (t : τ)
  /-- The next step of a sender. -/
  | sender (k : κ)
  deriving DecidableEq

variable {τ κ : Type*} [DecidableEq τ] [DecidableEq κ]

namespace Mutex

def setPc (s : Mutex τ κ) (t : τ) (pc : LockPc) : Mutex τ κ :=
  { s with pc := update s.pc t pc }

def dropGuard (s : Mutex τ κ) : Mutex τ κ := { s with guard := none }

end Mutex

def nextAct (c : τ ⊕ κ) : Pc τ Unit → Option (WaitAct τ Unit (τ ⊕ κ))
  | .idle => none
  | .hand _ => some (.handNext c)
  | .wake _ _ => some (.exchange c)
  | .publish _ _ => some (.publish c)
  | .remove _ _ => some (.removeRead c)
  | .removing _ _ _ => some (.removeLocked c)

section Step

variable [Fintype τ]

def onQueue (s : Mutex τ κ) (a : WaitAct τ Unit (τ ⊕ κ)) : Option (Mutex τ κ) :=
  (waitStep s.waiters a).map fun w => { s with waiters := w }

/-- `wait_off_cpu` keeps `thread_wake` from a thread that has not switched away yet. -/
def waitsOffCpu (s : Mutex τ κ) (c : τ ⊕ κ) : Bool :=
  match s.waiters.pc c with
  | .wake t _ => s.pc t == .queued
  | _ => false

def contextStep (s : Mutex τ κ) (c : τ ⊕ κ) : Option (Mutex τ κ) :=
  if waitsOffCpu s c then none else (nextAct c (s.waiters.pc c)).bind (onQueue s)

def goStep (s : Mutex τ κ) (t : τ) : Option (Mutex τ κ) :=
  match s.pc t with
  | .testing =>
      if s.locked then some (s.setPc t .sleeping)
      else some ({ s with locked := true }.setPc t .taken)
  -- `mutex_lock` does not look at what `waitq_sleep` returns: the early exit is one more round
  | .sleeping => if s.deliverable t then some (s.setPc t .testing) else some (s.setPc t .enqueuing)
  | .enqueuing => (onQueue s (.sleep t ())).map (·.setPc t .queued)
  | .queued => some (s.dropGuard.setPc t .parked)
  | .taken => some (s.dropGuard.setPc t .holding)
  | .cleared => (onQueue s (.wakeOne (.inl t) ())).map (·.setPc t .waking)
  | .waking =>
      if s.waiters.pc (.inl t) = .idle then some (s.dropGuard.setPc t .out)
      else contextStep s (.inl t)
  | _ => none

def acquireStep (s : Mutex τ κ) (t : τ) : Option (Mutex τ κ) :=
  if s.guard.isSome then none
  else match s.pc t with
  | .locking | .resumed => some ({ s with guard := some t }.setPc t .testing)
  | .unlocking => some ({ s with guard := some t, locked := false }.setPc t .cleared)
  | _ => none

def mutexStep (s : Mutex τ κ) : MutexAct τ κ → Option (Mutex τ κ)
  | .lock t => if s.pc t = .out then some (s.setPc t .locking) else none
  | .unlock t => if s.pc t = .holding then some (s.setPc t .unlocking) else none
  | .acquire t => acquireStep s t
  | .go t => goStep s t
  | .run t =>
      if s.pc t = .parked then (onQueue s (.run t)).map (·.setPc t .resumed) else none
  | .post t => some { s with deliverable := update s.deliverable t true }
  | .take t => some { s with deliverable := update s.deliverable t false }
  | .signal k t => if s.deliverable t then onQueue s (.signal (.inr k) t) else none
  | .sender k => contextStep s (.inr k)

structure MutexInit (s : Mutex τ κ) : Prop where
  free : s.locked = false
  guard : s.guard = none
  waiters : waitSystem.init s.waiters
  out : ∀ t, s.pc t = .out

def mutexSystem : System (Mutex τ κ) (MutexAct τ κ) where
  init := MutexInit
  step := mutexStep

end Step

/-- A thread that has found the mutex locked has no signal to be delivered, and when it puts
itself on the queue no wake or removal of an earlier sleep still works on it. -/
def Undisturbed (s : Mutex τ κ) : MutexAct τ κ → Prop
  | .go t => (s.pc t = .sleeping → s.deliverable t = false) ∧
      (s.pc t = .enqueuing → ∀ c, (s.waiters.pc c).current ≠ some t)
  | _ => True

instance [Fintype τ] [Fintype κ] (s : Mutex τ κ) : DecidablePred (Undisturbed s)
  | .go _ => inferInstanceAs (Decidable ((_ → _) ∧ (_ → ∀ _, _)))
  | .lock _ | .unlock _ | .acquire _ | .run _ | .post _ | .take _ | .signal .. | .sender _ =>
      inferInstanceAs (Decidable True)

end NeoKernel.Lock
