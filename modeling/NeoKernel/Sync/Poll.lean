import Mathlib.Logic.Function.Basic
import NeoKernel.Lib.Trans
import NeoKernel.Sync.Epoll

/-!
# Polling threads and notifying contexts (kernel/syscall/sys_poll.c, kernel/sync/poll_head.c,
kernel/sync/waitq.c)

Threads are in `poll_core`, called for `poll` or by `epoll_wait`; contexts change objects and tell
the pollers, through the head of the object or by the broadcast. A critical section is one step
unless the lock is kept over several, as in `poll_head_notify`. Each other access to a flag, a
counter or the readiness of an object is a step of its own.
-/
namespace NeoKernel.Poll
open Lib Function

variable {τ ι κ ε : Type}

/-- What stays as it is: the descriptor tables, the objects that have a poll head, and those
without one that offer a counter (`ready_seq`). -/
structure World (τ ι : Type) where
  fdGet : τ → Int → Option ι
  head : ι → Bool
  counter : ι → Bool

/-- A polled object with its `struct poll_head`; a registration is a thread and an index. -/
structure Obj (τ κ : Type) where
  ready : Mask
  seq : Nat
  list : List (τ × Nat)
  lock : Option κ

/-- Where a context is. `rest` are the threads of the list that are still to come. -/
inductive Ctx (τ ι : Type) where
  | idle
  /-- It has changed the object and will notify. -/
  | changed (o : ι)
  /-- In `poll_head_notify`: storing the flags, then waking. -/
  | flagging (o : ι) (rest : List τ)
  | waking (o : ι) (rest : List τ)
  /-- About to call `waitq_poll_notify`, with the object that was changed. -/
  | draining (o : Option ι)
  | handing (rest : List τ)
  /-- It has taken the thread off the queue and is about to make it ready. -/
  | giving (t : τ) (next : Ctx τ ι)
  deriving DecidableEq

/-- What is left of a list when `t`, which is on it, is put on the queue: `t->next` is cleared. -/
def upTo [DecidableEq τ] (t : τ) (l : List τ) : List τ :=
  if t ∈ l then l.takeWhile (· ≠ t) ++ [t] else l

def Ctx.requeue [DecidableEq τ] (t : τ) : Ctx τ ι → Ctx τ ι
  | .handing rest => .handing (upTo t rest)
  | .giving u next => .giving u (next.requeue t)
  | k => k

/-- `epoll_wait`: the set, the bound, the timeout (`none` is forever) and the deadline of the
caller. -/
structure EpollCall (ε : Type) where
  set : ε
  maxevents : Nat
  timeout : Option Nat
  userDeadline : Option Nat
  deriving DecidableEq

/-- Where a thread is. `intr` is a return of `-EINTR`. -/
inductive Pc where
  | idle
  | snap
  | register (i : Nat)
  | publish
  | clear
  | scan (i : Nat)
  | sampled (i : Nat) (seq : Option Nat)
  | wait
  | asleep
  | resumed
  | leave (i : Nat) (intr : Bool)
  | back (intr : Bool)
  | out (intr : Bool)
  deriving DecidableEq

/-- A thread, with the frame of its call of `poll_core`. A deadline of 0 does not wait, `none` is
forever. Not in the source: `setAt`, the time when the deadline was set. -/
structure Thread (ε : Type) where
  pc : Pc
  slots : List Slot
  ready : Nat
  deadline : Option Nat
  broadcast : Bool
  call : Option (EpollCall ε)
  notified : Bool
  wants : Bool
  blockedOn : Bool
  timedOut : Bool
  setAt : Nat

/-- An event handed out to a caller: the registration, the bits, and the counter that had been
sampled. Not in the source. -/
structure Report where
  fd : Int
  gen : BitVec 32
  bits : Mask
  sample : Nat

structure PollState (τ ι κ ε : Type) where
  obj : ι → Obj τ κ
  ctx : κ → Ctx τ ι
  queue : List τ
  /-- The threads that a signal has made ready when they were off the queue. Not in the source. -/
  astray : List τ
  thread : τ → Thread ε
  epoll : ε → EpollObj
  now : Nat
  delivered : ε → List Report

inductive PollAct (τ ι κ ε : Type) where
  | tick (now : Nat)
  /-- Readiness that goes away, by a read for instance, is not notified. -/
  | withdraw (o : ι) (mask : Mask)
  | change (c : κ) (o : ι) (ready : Mask)
  | begin (c : κ)
  | flag (c : κ)
  | wake (c : κ)
  | make (c : κ)
  | drain (c : κ)
  | hand (c : κ)
  | broadcast (c : κ)
  | timer (c : κ) (t : τ)
  /-- `signal_wake_for_delivery`, which has found `t` blocked. -/
  | interrupt (c : κ) (t : τ)
  | ctl (c : κ) (set : ε) (op : CtlOp) (fd : Int) (events : BitVec 32) (data : BitVec 64)
  | callPoll (t : τ) (pfd : List (Int × Mask)) (deadline : Option Nat)
  | callEpoll (t : τ) (set : ε) (maxevents : Nat) (timeout : Option Nat)
  | snapshot (t : τ)
  | register (t : τ)
  | publish (t : τ)
  | clear (t : τ)
  | sample (t : τ)
  | poll (t : τ)
  | settle (t : τ)
  | sleep (t : τ) (signal : Bool)
  | resume (t : τ) (signal : Bool)
  | unregister (t : τ)
  | finish (t : τ)
  | writeback (t : τ)
  | collect (t : τ)

section Steps

variable [DecidableEq τ] [DecidableEq ι] [DecidableEq κ] [DecidableEq ε]

namespace PollState

def setObj (s : PollState τ ι κ ε) (o : ι) (x : Obj τ κ) : PollState τ ι κ ε :=
  { s with obj := update s.obj o x }

def setCtx (s : PollState τ ι κ ε) (c : κ) (k : Ctx τ ι) : PollState τ ι κ ε :=
  { s with ctx := update s.ctx c k }

def setThread (s : PollState τ ι κ ε) (t : τ) (x : Thread ε) : PollState τ ι κ ε :=
  { s with thread := update s.thread t x }

def unqueue (s : PollState τ ι κ ε) (t : τ) : PollState τ ι κ ε :=
  { s.setThread t { s.thread t with blockedOn := false } with queue := s.queue.erase t }

/-- `waitq_enqueue`. A private list of a waker that has `t` ends there. -/
def enqueue (s : PollState τ ι κ ε) (t : τ) : PollState τ ι κ ε :=
  { s with queue := s.queue ++ [t], ctx := fun c => (s.ctx c).requeue t }

/-- No thread on the queue has gone astray, so none may be on the list of a waker too. Where one is,
the queue and the list share its link, and what becomes of them when the queue grows or is drained
is not modelled. -/
def Untangled (s : PollState τ ι κ ε) : Prop := ∀ t ∈ s.queue, t ∉ s.astray

instance (s : PollState τ ι κ ε) : Decidable s.Untangled :=
  inferInstanceAs (Decidable (∀ t ∈ s.queue, t ∉ s.astray))

def Queued (s : PollState τ ι κ ε) (t : τ) : Prop := (s.thread t).blockedOn = true ∧ t ∈ s.queue

instance (s : PollState τ ι κ ε) (t : τ) : Decidable (s.Queued t) :=
  inferInstanceAs (Decidable (_ ∧ _))

def expired (s : PollState τ ι κ ε) (deadline : Option Nat) : Bool :=
  deadline.any fun d => decide (d ≤ s.now)

end PollState

def pollSlot (p : Int × Mask) : Slot := ⟨p.1, p.2, 0, false, 0, 0, false, 0, 0, false⟩

def epollReevalNs : Nat := 50000000

/-- The bound that `epoll_wait` puts on one call of `poll_core`. -/
def EpollCall.deadline (call : EpollCall ε) (now : Nat) : Option Nat :=
  match call.timeout, call.userDeadline with
  | some 0, _ => some 0
  | _, some d => some (min d (now + epollReevalNs))
  | _, none => some (now + epollReevalNs)

def fileReadySeq (w : World τ ι) (s : PollState τ ι κ ε) (t : τ) (fd : Int) : Option Nat :=
  (w.fdGet t fd).bind fun o => if w.head o || w.counter o then some (s.obj o).seq else none

def reports (slots : List Slot) : List Report :=
  (slots.filter Slot.reported).map fun x => ⟨x.fd, x.gen, x.revents, x.seq⟩

namespace PollState

def ctxStep (w : World τ ι) (s : PollState τ ι κ ε) (c : κ) :
    PollAct τ ι κ ε → Option (PollState τ ι κ ε)
  | .change _ o ready =>
      match s.ctx c with
      | .idle => some ((s.setObj o { s.obj o with ready }).setCtx c (.changed o))
      | _ => none
  | .begin _ =>
      match s.ctx c with
      | .changed o =>
          if w.head o then
            if (s.obj o).lock = none then
              some ((s.setObj o { s.obj o with seq := (s.obj o).seq + 1, lock := some c }).setCtx c
                (.flagging o ((s.obj o).list.map Prod.fst)))
            else none
          else
            some ((s.setObj o { s.obj o with seq := (s.obj o).seq + 1 }).setCtx c
              (.draining (some o)))
      | _ => none
  | .flag _ =>
      match s.ctx c with
      | .flagging o (t :: rest) =>
          some ((s.setThread t { s.thread t with notified := true }).setCtx c (.flagging o rest))
      | .flagging o [] => some (s.setCtx c (.waking o ((s.obj o).list.map Prod.fst)))
      | _ => none
  | .wake _ =>
      match s.ctx c with
      | .waking o (t :: rest) =>
          if s.Queued t then some ((s.unqueue t).setCtx c (.giving t (.waking o rest)))
          else some (s.setCtx c (.waking o rest))
      | .waking o [] => some ((s.setObj o { s.obj o with lock := none }).setCtx c .idle)
      | _ => none
  | .make _ =>
      match s.ctx c with
      | .giving t next =>
          if (s.thread t).pc = .asleep then
            some ((s.setThread t { s.thread t with pc := .resumed }).setCtx c next)
          else some (s.setCtx c next)
      | _ => none
  | .drain _ =>
      match s.ctx c with
      | .draining _ =>
          let woken := s.queue.filter fun t => (s.thread t).wants
          if s.Untangled then
            some ({ s with
              queue := s.queue.filter fun t => !(s.thread t).wants
              thread := fun t =>
                if t ∈ woken then { s.thread t with blockedOn := false } else s.thread t }.setCtx c
              (.handing woken.reverse))
          else none
      | _ => none
  | .hand _ =>
      match s.ctx c with
      | .handing (t :: rest) =>
          some ((s.setThread t { s.thread t with notified := true }).setCtx c
            (.giving t (.handing rest)))
      | .handing [] => some (s.setCtx c .idle)
      | _ => none
  | .broadcast _ =>
      match s.ctx c with
      | .idle => some (s.setCtx c (.draining none))
      | _ => none
  | .timer _ t =>
      match s.ctx c with
      | .idle =>
          if s.Queued t ∧ s.expired (s.thread t).deadline then
            some (((s.setThread t { s.thread t with timedOut := true }).unqueue t).setCtx c
              (.giving t .idle))
          else none
      | _ => none
  | .interrupt _ t =>
      match s.ctx c with
      -- the result of `waitq_remove` is not looked at
      | .idle =>
          some ((if s.Queued t then s.unqueue t else { s with astray := t :: s.astray }).setCtx c
            (.giving t .idle))
      | _ => none
  | .ctl _ set op fd events data =>
      match s.ctx c, (s.epoll set).ctl op fd events data with
      | .idle, .ok o =>
          some ({ s with epoll := update s.epoll set o }.setCtx c
            (if op = CtlOp.del then .idle else .draining none))
      | _, _ => none
  | _ => none

def coreStep (w : World τ ι) (s : PollState τ ι κ ε) (t : τ) :
    PollAct τ ι κ ε → Option (PollState τ ι κ ε)
  | .register _ =>
      let th := s.thread t
      match th.pc with
      | .register i =>
          match th.slots[i]? with
          | none => some (s.setThread t { th with pc := .publish })
          | some x =>
              if x.fd < 0 then some (s.setThread t { th with pc := .register (i + 1) })
              else
                match (w.fdGet t x.fd).filter fun o => w.head o with
                | some o =>
                    if (s.obj o).lock = none then
                      some ((s.setObj o
                        { s.obj o with list := (t, i) :: (s.obj o).list }).setThread t
                        { th with
                          pc := .register (i + 1)
                          slots := th.slots.set i { x with registered := true } })
                    else none
                | none =>
                    some (s.setThread t { th with pc := .register (i + 1), broadcast := true })
      | _ => none
  | .publish _ =>
      let th := s.thread t
      match th.pc with
      | .publish => some (s.setThread t { th with pc := .clear, wants := th.broadcast })
      | _ => none
  | .clear _ =>
      let th := s.thread t
      match th.pc with
      | .clear => some (s.setThread t { th with pc := .scan 0, notified := false, ready := 0 })
      | _ => none
  | .sample _ =>
      let th := s.thread t
      match th.pc with
      | .scan i =>
          match th.slots[i]? with
          | none => none
          | some x =>
              if x.fd < 0 then
                some (s.setThread t
                  { th with pc := .scan (i + 1), slots := th.slots.set i { x with revents := 0 } })
              else
                some (s.setThread t { th with
                  pc := .sampled i (if x.et then fileReadySeq w s t x.fd else none) })
      | _ => none
  | .poll _ =>
      let th := s.thread t
      match th.pc with
      | .sampled i seq =>
          match th.slots[i]? with
          | none => none
          | some x =>
              let y := x.scan seq (x.got ((w.fdGet t x.fd).map fun o => (s.obj o).ready))
              some (s.setThread t { th with
                pc := .scan (i + 1)
                slots := th.slots.set i y
                ready := if y.revents = 0 then th.ready else th.ready + 1 })
      | _ => none
  | .settle _ =>
      let th := s.thread t
      match th.pc with
      | .scan i =>
          if th.slots[i]? = none then
            some (s.setThread t { th with
              pc := if th.ready ≠ 0 ∨ th.deadline = some 0 then .leave 0 false else .wait })
          else none
      | _ => none
  | .sleep _ signal =>
      let th := { s.thread t with timedOut := false }
      match th.pc with
      | .wait =>
          if s.expired th.deadline then some (s.setThread t { th with pc := .leave 0 false })
          else if signal then some (s.setThread t { th with pc := .leave 0 true })
          else if th.notified then some (s.setThread t { th with pc := .clear })
          else if s.Untangled then
            some ((s.setThread t { th with pc := .asleep, blockedOn := true }).enqueue t)
          else none
      | _ => none
  | .resume _ signal =>
      let th := { s.thread t with blockedOn := false }
      match th.pc with
      | .resumed =>
          some (s.setThread t { th with
            pc := if signal then .leave 0 true
              else if th.timedOut then .leave 0 false else .clear })
      | _ => none
  | .unregister _ =>
      let th := s.thread t
      match th.pc with
      | .leave i intr =>
          match th.slots[i]? with
          | none => none
          | some x =>
              match (if x.registered then w.fdGet t x.fd else none) with
              | none => some (s.setThread t { th with pc := .leave (i + 1) intr })
              | some o =>
                  if (s.obj o).lock = none then
                    some ((s.setObj o
                      { s.obj o with list := (s.obj o).list.erase (t, i) }).setThread t
                      { th with
                        pc := .leave (i + 1) intr
                        slots := th.slots.set i { x with registered := false } })
                  else none
      | _ => none
  | .finish _ =>
      let th := s.thread t
      match th.pc with
      | .leave i intr =>
          if th.slots[i]? = none then
            some (s.setThread t { th with
              pc := if th.call.isSome then .back intr else .idle
              wants := false })
          else none
      | _ => none
  | _ => none

def callStep (s : PollState τ ι κ ε) (t : τ) : PollAct τ ι κ ε → Option (PollState τ ι κ ε)
  | .callPoll _ pfd deadline =>
      let th := s.thread t
      match th.pc with
      | .idle =>
          some (s.setThread t { th with
            pc := .register 0, slots := pfd.map pollSlot, ready := 0, deadline, broadcast := false
            call := none, setAt := s.now })
      | _ => none
  | .callEpoll _ set maxevents timeout =>
      let th := s.thread t
      match th.pc with
      | .idle =>
          if maxevents = 0 then none
          else
            some (s.setThread t { th with
              pc := .snap
              slots := []
              call := some ⟨set, maxevents, timeout, timeout.map (s.now + ·)⟩ })
      | _ => none
  | .snapshot _ =>
      let th := s.thread t
      match th.pc, th.call with
      | .snap, some call =>
          some (s.setThread t { th with
            pc := .register 0
            slots := (s.epoll call.set).snapshot call.maxevents
            ready := 0
            deadline := call.deadline s.now
            broadcast := false
            setAt := s.now })
      | _, _ => none
  | .writeback _ =>
      let th := s.thread t
      match th.pc, th.call with
      | .back intr, some call =>
          let o := (s.epoll call.set).edgesWriteback th.slots
          some ({ s with epoll := update s.epoll call.set o }.setThread t
            { th with pc := .out intr })
      | _, _ => none
  | .collect _ =>
      let th := s.thread t
      match th.pc, th.call with
      | .out intr, some call =>
          if intr then some (s.setThread t { th with pc := .idle })
          else if Poll.collect th.ready th.slots ≠ [] then
            let out := (reports th.slots).take th.ready ++ s.delivered call.set
            some ({ s with delivered := update s.delivered call.set out }.setThread t
              { th with pc := .idle })
          else if call.timeout = some 0 ∨ s.expired call.userDeadline then
            some (s.setThread t { th with pc := .idle })
          else some (s.setThread t { th with pc := .snap, slots := [] })
      | _, _ => none
  | _ => none

end PollState

def pollStep (w : World τ ι) (s : PollState τ ι κ ε) (a : PollAct τ ι κ ε) :
    Option (PollState τ ι κ ε) :=
  match a with
  | .tick now => if s.now ≤ now then some { s with now } else none
  | .withdraw o mask => some (s.setObj o { s.obj o with ready := (s.obj o).ready &&& mask })
  | .change c .. | .begin c | .flag c | .wake c | .make c | .drain c | .hand c | .broadcast c
  | .timer c _ | .interrupt c _ | .ctl c .. => s.ctxStep w c a
  | .register t | .publish t | .clear t | .sample t | .poll t | .settle t | .sleep t _ | .resume t _
  | .unregister t | .finish t => s.coreStep w t a
  | .callPoll t .. | .callEpoll t .. | .snapshot t | .writeback t | .collect t => s.callStep t a

structure PollInit (s : PollState τ ι κ ε) : Prop where
  list : ∀ o, (s.obj o).list = []
  lock : ∀ o, (s.obj o).lock = none
  ctx : ∀ c, s.ctx c = .idle
  queue : s.queue = []
  astray : s.astray = []
  pc : ∀ t, (s.thread t).pc = .idle
  blockedOn : ∀ t, (s.thread t).blockedOn = false
  epoll : ∀ e, (s.epoll e).list = []
  delivered : ∀ e, s.delivered e = []

def pollSystem (w : World τ ι) : System (PollState τ ι κ ε) (PollAct τ ι κ ε) where
  init := PollInit
  step := pollStep w

end Steps

namespace Ctx

/-- The threads it has taken off the queue and not yet made ready. -/
def held : Ctx τ ι → List τ
  | .handing rest => rest
  | .giving t next => t :: next.held
  | _ => []

/-- It will store the flag of `t` for a change of `o` that it has made. -/
def Flags (o : ι) (t : τ) : Ctx τ ι → Prop
  | .changed o' => o' = o
  | .draining o' => o' = some o
  | .flagging o' rest => o' = o ∧ t ∈ rest
  | .giving _ next => next.Flags o t
  | _ => False

/-- It will look for `t` on the queue for a change of `o` that it has made. -/
def Wakes (o : ι) (t : τ) : Ctx τ ι → Prop
  | .changed o' => o' = o
  | .draining o' => o' = some o
  | .flagging o' _ => o' = o
  | .waking o' rest => o' = o ∧ t ∈ rest
  | .giving _ next => next.Wakes o t
  | _ => False

end Ctx

/-- A wake of `t` for a change of `o` is in progress: a context that has changed `o` has yet to look
for `t`, or has `t` in hand. -/
def Waking (s : PollState τ ι κ ε) (o : ι) (t : τ) : Prop :=
  ∃ c, (s.ctx c).Wakes o t ∨ t ∈ (s.ctx c).held

/-- In its current pass the thread has looked at index `i`. -/
def Pc.Past (i : Nat) : Pc → Prop
  | .scan j => i < j
  | .sampled j _ => i < j
  | .wait => True
  | .asleep => True
  | _ => False

def PollAct.signalled : PollAct τ ι κ ε → Option τ
  | .interrupt _ t => some t
  | _ => none

/-- A signal reaches a thread on the queue, and not one that a waker has taken off it. -/
def SignalsQueued [DecidableEq τ] (s : PollState τ ι κ ε) (a : PollAct τ ι κ ε) : Prop :=
  ∀ t ∈ a.signalled, s.Queued t

instance [DecidableEq τ] (s : PollState τ ι κ ε) (a : PollAct τ ι κ ε) :
    Decidable (SignalsQueued s a) :=
  inferInstanceAs (Decidable (∀ t ∈ a.signalled, s.Queued t))

/-- When the broadcast for a change of `o` takes the queue, every thread that has looked at `o` and
is on its way to the queue has its flag set; and a signal reaches a thread on the queue. -/
def Settled [DecidableEq τ] (w : World τ ι) (s : PollState τ ι κ ε) : PollAct τ ι κ ε → Prop
  | .drain c => ∀ o, s.ctx c = .draining (some o) → ∀ t i x, (s.thread t).pc ≠ .asleep →
      (s.thread t).pc.Past i → (s.thread t).slots[i]? = some x → w.fdGet t x.fd = some o →
      (s.thread t).notified = true
  | a => SignalsQueued s a

end NeoKernel.Poll
