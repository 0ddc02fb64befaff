import Mathlib.Data.Fintype.Card
import NeoKernel.Lib.Chain
import NeoKernel.Lib.Trans

/-!
# Wait queues (kernel/sync/waitq.c)

Threads sleep on queues that are linked through `t->next`. What happens under `q->lock` is
one step. A waker that has dropped the lock still owns the threads it took off the queue, linked
through the same `t->next`; signals and timeouts take a thread off its queue.
-/
namespace NeoKernel.Waitq
open Lib Function

inductive ThreadState where
  | running
  | blocked
  | ready
  deriving DecidableEq

inductive Remover where
  | signal
  | timer
  deriving DecidableEq

/-- Where a waker is. `rest` are the threads it still has to hand out. -/
inductive Pc (τ θ : Type*) where
  | idle
  | hand (rest : Option τ)
  /-- In `thread_wake`, before the exchange. -/
  | wake (t : τ) (rest : Option τ)
  /-- In `thread_wake`, after the exchange. -/
  | publish (t : τ) (rest : Option τ)
  /-- In `waitq_remove`, before `t->blocked_on` is read. -/
  | remove (t : τ) (who : Remover)
  /-- In `waitq_remove`, before the lock is taken. -/
  | removing (t : τ) (q : θ) (who : Remover)
  deriving DecidableEq

namespace Pc

variable {τ θ : Type*}

def rest : Pc τ θ → Option τ
  | .hand rest => rest
  | .wake _ rest => rest
  | .publish _ rest => rest
  | _ => none

def current : Pc τ θ → Option τ
  | .wake t _ => some t
  | .publish t _ => some t
  | .remove t _ => some t
  | .removing t _ _ => some t
  | _ => none

end Pc

/-- Threads `τ`, queues `θ`, and the contexts `κ` that run wakers: threads and interrupt
handlers on any CPU. -/
structure Waits (τ θ κ : Type*) where
  state : τ → ThreadState
  next : τ → Option τ
  blockedOn : τ → Option θ
  onRq : τ → Bool
  head : θ → Option τ
  tail : θ → Option τ
  pc : κ → Pc τ θ

variable {τ θ κ : Type*} [DecidableEq τ] [DecidableEq θ] [DecidableEq κ]

namespace Waits

def setPc (s : Waits τ θ κ) (k : κ) (pc : Pc τ θ) : Waits τ θ κ :=
  { s with pc := update s.pc k pc }

def enqueue (s : Waits τ θ κ) (q : θ) (t : τ) : Waits τ θ κ :=
  let next := update s.next t none
  match s.tail q with
  | some u =>
      { s with
        next := update next u (some t)
        tail := update s.tail q (some t) }
  | none =>
      { s with
        next := next
        head := update s.head q (some t)
        tail := update s.tail q (some t) }

def dequeue (s : Waits τ θ κ) (q : θ) : Option (τ × Waits τ θ κ) :=
  match s.head q with
  | none => none
  | some t => some (t,
      { s with
        head := update s.head q (s.next t)
        tail := if s.next t = none then update s.tail q none else s.tail
        next := update s.next t none })

/-- The locked part of `sleep_common`. -/
def sleepOn (s : Waits τ θ κ) (q : θ) (t : τ) : Waits τ θ κ :=
  let s := s.enqueue q t
  { s with
    blockedOn := update s.blockedOn t (some q)
    state := update s.state t .blocked }

/-- The locked loop of `waitq_wake_all`; `none` if it does not end. -/
def drainLoop : Nat → Waits τ θ κ → θ → Option τ → Option (Waits τ θ κ × Option τ)
  | n, s, q, woken =>
    match s.dequeue q with
    | none => some (s, woken)
    | some (t, s) =>
      match n with
      | 0 => none
      | n + 1 => drainLoop n { s with next := update s.next t woken } q (some t)

variable [Fintype τ]

/-- The locked part of `waitq_remove` when `t->blocked_on` is still `q`: whether the thread was
found, and the state after it; `none` if the walk does not end. -/
def removeFrom (s : Waits τ θ κ) (q : θ) (t : τ) : Option (Bool × Waits τ θ κ) :=
  match seekPrev s.next t (Fintype.card τ) (s.head q) none with
  | .endless => none
  | .absent => some (false,
      { s with
        next := update s.next t none
        blockedOn := update s.blockedOn t none })
  | .found none => some (true,
      { s with
        head := update s.head q (s.next t)
        tail := if s.tail q = some t then update s.tail q none else s.tail
        next := update s.next t none
        blockedOn := update s.blockedOn t none })
  | .found (some prev) => some (true,
      { s with
        tail := if s.tail q = some t then update s.tail q (some prev) else s.tail
        next := update (update s.next prev (s.next t)) t none
        blockedOn := update s.blockedOn t none })

end Waits

/-- A removal has returned: signal delivery wakes the thread in any case, a timeout only if it
was still queued. -/
def afterRemove (t : τ) : Remover → Bool → Pc τ θ
  | .signal, _ => .wake t none
  | .timer, true => .wake t none
  | .timer, false => .idle

inductive WaitAct (τ θ κ : Type*) where
  | sleep (t : τ) (q : θ)
  | wakeOne (k : κ) (q : θ)
  | wakeAll (k : κ) (q : θ)
  /-- The head of the second loop of `waitq_wake_all`. -/
  | handNext (k : κ)
  /-- `thread_wake` up to the exchange, and what follows it. -/
  | exchange (k : κ)
  | publish (k : κ)
  /-- `signal_wake_for_delivery` finds the thread BLOCKED. -/
  | signal (k : κ) (t : τ)
  /-- `waitq_sleep_timer_fn`. -/
  | timeout (k : κ) (t : τ)
  | removeRead (k : κ)
  | removeLocked (k : κ)
  /-- The scheduler picks the thread and `sleep_common` goes on. -/
  | run (t : τ)

section Step

variable [Fintype τ]

def waitStep (s : Waits τ θ κ) : WaitAct τ θ κ → Option (Waits τ θ κ)
  | .sleep t q => if s.state t = .running then some (s.sleepOn q t) else none
  | .wakeOne k q =>
      if s.pc k = .idle then
        match s.dequeue q with
        | none => some s
        | some (t, s) => some (s.setPc k (.wake t none))
      else none
  | .wakeAll k q =>
      if s.pc k = .idle then
        (s.drainLoop (Fintype.card τ) q none).map fun (s, woken) => s.setPc k (.hand woken)
      else none
  | .handNext k =>
      match s.pc k with
      | .hand none => some (s.setPc k .idle)
      | .hand (some t) =>
          some ({ s with next := update s.next t none }.setPc k (.wake t (s.next t)))
      | _ => none
  | .exchange k =>
      match s.pc k with
      | .wake t rest =>
          if s.state t = .blocked then
            some ({ s with state := update s.state t .ready }.setPc k (.publish t rest))
          else some (s.setPc k (.hand rest))
      | _ => none
  | .publish k =>
      match s.pc k with
      | .publish t rest =>
          some ({ s with
            blockedOn := update s.blockedOn t none
            onRq := update s.onRq t true }.setPc k (.hand rest))
      | _ => none
  | .signal k t =>
      if s.pc k = .idle ∧ s.state t = .blocked then some (s.setPc k (.remove t .signal)) else none
  | .timeout k t => if s.pc k = .idle then some (s.setPc k (.remove t .timer)) else none
  | .removeRead k =>
      match s.pc k with
      | .remove t who =>
          match s.blockedOn t with
          | none => some (s.setPc k (afterRemove t who false))
          | some q => some (s.setPc k (.removing t q who))
      | _ => none
  | .removeLocked k =>
      match s.pc k with
      | .removing t q who =>
          if s.blockedOn t = some q then
            (s.removeFrom q t).map fun (found, s) => s.setPc k (afterRemove t who found)
          else some (s.setPc k (afterRemove t who false))
      | _ => none
  | .run t =>
      if s.state t = .ready ∧ s.onRq t = true then
        some { s with
          state := update s.state t .running
          onRq := update s.onRq t false
          blockedOn := update s.blockedOn t none }
      else none

def ownStep (k : κ) (s : Waits τ θ κ) : Option (Waits τ θ κ) :=
  match s.pc k with
  | .hand _ => waitStep s (.handNext k)
  | .wake _ _ => waitStep s (.exchange k)
  | .publish _ _ => waitStep s (.publish k)
  | _ => none

def ownSteps (k : κ) : Nat → Waits τ θ κ → Option (Waits τ θ κ)
  | 0, s => some s
  | n + 1, s => (ownStep k s).bind (ownSteps k n)

def waitSystem : System (Waits τ θ κ) (WaitAct τ θ κ) where
  init s := (∀ t, s.state t = .running) ∧ (∀ t, s.blockedOn t = none) ∧
    (∀ t, s.onRq t = false) ∧ (∀ q, s.head q = none) ∧ (∀ q, s.tail q = none) ∧
    ∀ k, s.pc k = .idle
  step := waitStep

end Step

/-- Context `k` has taken `t` off its queue and is still to make it ready. -/
def InHand (s : Waits τ θ κ) (k : κ) (t : τ) : Prop :=
  (∃ rest, s.pc k = .wake t rest) ∨ ∃ l, Chain s.next (s.pc k).rest l ∧ t ∈ l

/-- No removal goes through for a thread that a waker has in hand, and no thread goes to sleep
while a wake or removal of an earlier sleep still works on it. -/
def Orderly (s : Waits τ θ κ) : WaitAct τ θ κ → Prop
  | .removeLocked k => ∀ t q who, s.pc k = .removing t q who → s.blockedOn t = some q →
      ∀ j, ¬ InHand s j t
  | .sleep t _ => ∀ k, (s.pc k).current ≠ some t
  | _ => True

end NeoKernel.Waitq
