import Mathlib.Data.BitVec
import NeoKernel.Rbtree.Sorted
import NeoKernel.Time.HrtimerCancel

/-!
# The timers of one CPU (kernel/time/hrtimer.c, kernel/time/clockevent.c)

Threads start and cancel timers, and the interrupt of the CPU runs the callbacks of those that
are due, which start and cancel timers themselves. What happens under the lock of the base is
one step; a thread may be between the two locked parts of `hrtimer_start`.
-/
namespace NeoKernel.Hrtimer
open Lib Rbtree Function

def never : BitVec 64 := BitVec.allOnes 64

/-- `struct hrtimer_base` with the fields of its timers; the data of a node is `expires_ns`. -/
structure HrtimerBase (ι : Type) where
  root : RbStore ι (BitVec 64)
  state : ι → TimerState
  programmed : BitVec 64
  inInterrupt : Bool

variable {ι κ : Type} [DecidableEq ι] [DecidableEq κ]

namespace HrtimerBase

def expires (b : HrtimerBase ι) (t : ι) : BitVec 64 := b.root.data t

def setExpires (b : HrtimerBase ι) (t : ι) (e : BitVec 64) : HrtimerBase ι :=
  { b with root := { b.root with data := update b.root.data t e } }

def setState (b : HrtimerBase ι) (t : ι) (state : TimerState) : HrtimerBase ι :=
  { b with state := update b.state t state }

def enqueueLocked (fuel : Nat) (b : HrtimerBase ι) (t : ι) : Option (HrtimerBase ι) :=
  (insertBy (fun e => decide (b.expires t < b.expires e)) fuel b.root t).map fun root =>
    { b with root }.setState t .queued

def dequeueLocked (fuel : Nat) (b : HrtimerBase ι) (t : ι) : Option (HrtimerBase ι) :=
  (rbEraseCached fuel b.root t).map fun root => { b with root }.setState t .inactive

def firstExpiry (b : HrtimerBase ι) : BitVec 64 := (b.root.rbLeftmost.map b.expires).getD never

end HrtimerBase

structure Armed where
  target : BitVec 64
  setAt : BitVec 64

/-- The time `clockevent_program` arms the device for. -/
def clockeventProgram (minNs now expires : BitVec 64) : BitVec 64 :=
  if expires < now + minNs then now + minNs else expires

inductive Pass (ι : Type) where
  | idle
  | looking
  | calling (t : ι)
  deriving DecidableEq

inductive Event where
  | started (expires : BitVec 64)
  | cancelled
  | fired (now : BitVec 64)
  deriving DecidableEq

/-- The CPU with timers `ι` and threads `κ`. `starting` are the threads in `hrtimer_start` past
its `hrtimer_cancel`. Not in the source: `history`, what has happened to each timer, and
`fired`, the expiries of those called in the last interrupt, both with the latest first. -/
structure TimerCpu (ι κ : Type) where
  base : HrtimerBase ι
  now : BitVec 64
  device : Option Armed
  pass : Pass ι
  starting : κ → Option (ι × BitVec 64)
  history : ι → List Event
  fired : List (BitVec 64)

namespace TimerCpu

def note (s : TimerCpu ι κ) (t : ι) (e : Event) : TimerCpu ι κ :=
  { s with history := update s.history t (e :: s.history t) }

def reprogram (minNs : BitVec 64) (s : TimerCpu ι κ) : TimerCpu ι κ :=
  if s.base.inInterrupt then s
  else
    let first := s.base.firstExpiry
    if first < s.base.programmed then
      { s with
        base := { s.base with programmed := first }
        device := some ⟨clockeventProgram minNs s.now first, s.now⟩ }
    else s

/-- `hrtimer_cancel`; it does not return while the callback runs. -/
def cancel (fuel : Nat) (s : TimerCpu ι κ) (t : ι) : Option (TimerCpu ι κ) :=
  match s.base.state t with
  | .inactive => some s
  | .running => none
  | .queued => (s.base.dequeueLocked fuel t).map fun base => { s with base }.note t .cancelled

def queue (minNs : BitVec 64) (fuel : Nat) (s : TimerCpu ι κ) (t : ι) (e : BitVec 64) :
    Option (TimerCpu ι κ) :=
  ((s.base.setExpires t e).enqueueLocked fuel t).map fun base =>
    ({ s with base }.note t (.started e)).reprogram minNs

end TimerCpu

inductive HrAct (ι κ : Type) where
  | advance (now : BitVec 64)
  /-- Calls in a thread; `start` is `hrtimer_start` up to its locked part. -/
  | cancel (t : ι)
  | start (k : κ) (t : ι) (e : BitVec 64)
  | queue (k : κ)
  /-- `hrtimer_interrupt`: its first part, a pass of its loop up to the callback, the part after
  the callback, which may have moved `expires_ns` and ask for a restart, and the last part. -/
  | interrupt
  | fire
  | callback (restart : Option (BitVec 64))
  | finish
  /-- Calls in a callback. -/
  | callCancel (t : ι)
  | callStart (t : ι) (e : BitVec 64)

def TimerCpu.due (s : TimerCpu ι κ) : Option ι :=
  s.base.root.rbLeftmost.filter fun t => decide (s.base.expires t ≤ s.now)

def HrAct.run (minNs : BitVec 64) (fuel : Nat) (s : TimerCpu ι κ) :
    HrAct ι κ → Option (TimerCpu ι κ)
  | .advance now => if s.now ≤ now then some { s with now } else none
  | .cancel t => if s.pass = .idle then s.cancel fuel t else none
  | .start k t e =>
      if s.pass = .idle ∧ s.starting k = none then
        (s.cancel fuel t).map fun s =>
          { s with starting := update s.starting k (some (t, e)) }
      else none
  | .queue k =>
      match s.pass, s.starting k with
      | .idle, some (t, e) =>
          (s.queue minNs fuel t e).map fun s =>
            { s with starting := update s.starting k none }
      | _, _ => none
  | .interrupt =>
      if s.pass = .idle then
        some { s with
          base := { s.base with inInterrupt := true, programmed := never }
          device := none
          pass := .looking
          fired := [] }
      else none
  | .fire =>
      match s.pass, s.due with
      | .looking, some t =>
          (s.base.dequeueLocked fuel t).map fun base =>
            { s with
              base := base.setState t .running
              pass := .calling t
              fired := s.base.expires t :: s.fired }.note t (.fired s.now)
      | _, _ => none
  | .callback restart =>
      match s.pass with
      | .calling t =>
          match restart with
          | none => some { s with base := s.base.setState t .inactive, pass := .looking }
          | some e =>
              ((s.base.setExpires t e).enqueueLocked fuel t).map fun base =>
                { s with base, pass := .looking }.note t (.started e)
      | _ => none
  | .finish =>
      if s.pass = .looking ∧ s.due = none then
        some (TimerCpu.reprogram minNs
          { s with base := { s.base with inInterrupt := false }, pass := .idle })
      else none
  | .callCancel t =>
      match s.pass with
      | .calling _ => s.cancel fuel t
      | _ => none
  | .callStart t e =>
      match s.pass with
      | .calling _ => (s.cancel fuel t).bind fun s => s.queue minNs fuel t e
      | _ => none

/-- `hrtimer_cpu_init`, with timers that have been initialised only. -/
structure HrInit (s : TimerCpu ι κ) : Prop where
  root : s.base.root.rbNode = none
  leftmost : s.base.root.rbLeftmost = none
  state : ∀ t, s.base.state t = .inactive
  programmed : s.base.programmed = never
  inInterrupt : s.base.inInterrupt = false
  pass : s.pass = .idle
  starting : ∀ k, s.starting k = none
  history : ∀ t, s.history t = []
  fired : s.fired = []

/-- The states reached by steps that meet `ok`. -/
inductive HrReach (minNs : BitVec 64) (ok : TimerCpu ι κ → HrAct ι κ → Prop) :
    TimerCpu ι κ → Prop where
  | init {s : TimerCpu ι κ} : HrInit s → HrReach minNs ok s
  | step {s s' : TimerCpu ι κ} {a : HrAct ι κ} : HrReach minNs ok s → ok s a →
      Evaluates (fun fuel => a.run minNs fuel s) s' → HrReach minNs ok s'

/-- A timer is not started while a start of it waits for the lock, and a callback starts no timer
for a time before the one it was called for. -/
def Apart (s : TimerCpu ι κ) : HrAct ι κ → Prop
  | .start _ t _ => ∀ k e, s.starting k ≠ some (t, e)
  | .callStart t e => (∀ k e', s.starting k ≠ some (t, e')) ∧
      ∀ u, s.pass = .calling u → s.base.expires u ≤ e
  | .callback restart => ∀ u, s.pass = .calling u → ∀ e ∈ restart, s.base.expires u ≤ e
  | _ => True

/-- The calls that return: none of them waits for a running callback. -/
def HrAct.Enabled (s : TimerCpu ι κ) : HrAct ι κ → Prop
  | .advance now => s.now ≤ now
  | .cancel _ => s.pass = .idle
  | .start k _ _ => s.pass = .idle ∧ s.starting k = none
  | .queue k => s.pass = .idle ∧ s.starting k ≠ none
  | .interrupt => s.pass = .idle
  | .fire => s.pass = .looking ∧ s.due ≠ none
  | .callback _ => ∃ t, s.pass = .calling t
  | .finish => s.pass = .looking ∧ s.due = none
  | .callCancel t => ∃ u, s.pass = .calling u ∧ t ≠ u
  | .callStart t _ => ∃ u, s.pass = .calling u ∧ t ≠ u

/-- The past of a timer that is not queued: every start was followed by a cancel or by one call,
not before its expiry. -/
inductive Closed : List Event → Prop where
  | nil : Closed []
  | cancelled {e : BitVec 64} {h : List Event} : Closed h → Closed (.cancelled :: .started e :: h)
  | fired {e n : BitVec 64} {h : List Event} : e ≤ n → Closed h →
      Closed (.fired n :: .started e :: h)

end NeoKernel.Hrtimer
