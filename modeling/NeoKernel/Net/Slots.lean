import NeoKernel.Lib.Trans
import NeoKernel.Net.Segment

/-!
# The connection table under several CPUs (kernel/net/tcp.c)

The steps of `tcp_alloc` with `reap_dead_locked`, `tcp_release`, `tcp_timer_tick`,
`tcp_close` and `tcp_input` as threads interleave them. The fields of a slot that `tcp_alloc`
writes without the slot's own lock are read and written one step at a time; everything else that
one lock protects is one step.

`gen`, `owned` and `freed` are not in the program: how often a slot has been handed out,
whether a socket or a listener's queue still has to close it, and the generations marked free.
-/
namespace NeoKernel.Net
open Lib Function

abbrev Slot := Fin tcpMaxConns

def slots : List Slot := List.finRange tcpMaxConns

namespace Tcb

/-- The writes of `tcp_alloc` up to `parent`. -/
def allocOpen {ι : Type} (t : Tcb ι) : Tcb ι :=
  { t with
    state := .closed, inUse := true, localN := 0, remoteN := 0, lportN := 0, rportN := 0,
    sndUna := 0, sndNxt := 0, sndWnd := 0, sndWl1 := 0, sndWl2 := 0, iss := 0, rcvNxt := 0,
    irs := 0, rcvWnd := tcpRcvbuf, mss := tcpDefaultMss,
    snd := { t.snd with head := 0, len := 0 }, rcv := { t.rcv with head := 0, len := 0 },
    reasm := t.reasm.map fun r => { r with used := false },
    rtoDeadline := 0, delackDeadline := 0, persistDeadline := 0, timewaitDeadline := 0,
    establishDeadline := 0, rtoTicks := tcpRtoMinTicks * 5, srtt8 := 0, rttvar8 := 0,
    rttPending := false, retries := 0, persistShift := 0, cwnd := 0, ssthresh := tcpSndbuf,
    dupacks := 0, inRecovery := false, recover := 0, backlog := 0, acceptQ := [],
    parent := none }

/-- The writes of `tcp_alloc` from `reclaimed` on. -/
def allocRest {ι : Type} (t : Tcb ι) : Tcb ι :=
  { t with
    reclaimed := false, nodelay := false, soError := none, finSent := 0, finRcvd := false,
    reset := false, shutRd := false, shutWr := false, txq := [] }

end Tcb

structure SynOpen where
  l : Slot
  localN : BitVec 32
  remoteN : BitVec 32
  lportN : BitVec 16
  rportN : BitVec 16
  rand : Seq
  seg : Segment

/-- Who called `tcp_alloc`: `socket_create`, or `tcp_input` for a SYN. -/
inductive AllocFor where
  | socket
  | syn (o : SynOpen)

inductive After where
  | idle
  | tickNext (rest : List Slot)
  | closeOrphans (i : Slot) (g : Nat) (st : TcpState) (orphans : List (Slot × Nat))

inductive SockOp where
  | connect (dev : Option (BitVec 32)) (rand : Seq) (dstN : BitVec 32) (dportN : BitVec 16)
  | listen (backlog : Int)
  | accept
  | send (data : List Byte)
  | recv (len : Nat) (peek : Bool)
  | shutdownWrite
  | txFlush

def SockOp.run (now : Nat) (t : Tcb Slot) : SockOp → Tcb Slot
  | .connect dev rand dstN dportN => (t.tcpConnect now dev rand dstN dportN).1
  | .listen backlog => (t.tcpListen backlog).1
  | .accept => { t with acceptQ := t.acceptQ.tail }
  | .send data => (t.tcpSend now data).1
  | .recv len peek => (t.tcpRecv len peek).1
  | .shutdownWrite => t.tcpShutdownWrite now
  | .txFlush => { t with txq := t.txq.tail }

/-- Where a thread stands. The `Nat` beside a slot is the generation the thread means. -/
inductive Pc where
  | idle
  -- `tcp_alloc`, holding `table_lock`
  | reapScan (rest : List Slot) (best : Option Slot) (who : AllocFor)
  | reapClaim (best : Slot) (who : AllocFor)
  | resetOpen (i : Slot) (who : AllocFor)
  | resetGone (i : Slot) (who : AllocFor)
  | resetRest (i : Slot) (who : AllocFor)
  -- `tcp_input`
  | openChild (i : Slot) (o : SynOpen)
  | inputFound (i : Slot) (s : Segment)
  -- `tcp_timer_tick`; from `tickTimewait` on it holds the lock of the slot
  | tickNext (rest : List Slot)
  | tickLock (i : Slot) (rest : List Slot)
  | tickTimewait (i : Slot) (rest : List Slot)
  | tickGone (i : Slot) (rest : List Slot)
  | tickState (i : Slot) (g : Nat) (rest : List Slot)
  | tickReclaimed (i : Slot) (g : Nat) (rest : List Slot)
  | tickDeadlines (i : Slot) (rest : List Slot)
  -- `tcp_close`
  | closeOrphans (i : Slot) (g : Nat) (st : TcpState) (orphans : List (Slot × Nat))
  | closeTail (i : Slot) (g : Nat) (st : TcpState)
  -- `tcp_release`
  | releasing (i : Slot) (g : Nat) (after : After)
  | clearing (i : Slot) (g : Nat) (after : After)

def After.pc : After → Pc
  | .idle => .idle
  | .tickNext rest => .tickNext rest
  | .closeOrphans i g st orphans => .closeOrphans i g st orphans

structure Machine (θ : Type) where
  conns : Conns Slot
  gen : Slot → Nat
  owned : Slot → Bool
  freed : List (Slot × Nat)
  lock : Slot → Option θ
  table : Option θ
  pc : θ → Pc

/-- Whether `tcp_close` of a connection found in this state ends with `tcp_release`. -/
def closeReleases : TcpState → Bool
  | .listen | .closed | .synSent => true
  | _ => false

/-- `closeTail`: what `tcp_close` does with the block itself. -/
def closeBlock (now : Nat) (st : TcpState) (t : Tcb Slot) : Tcb Slot :=
  if closeReleases st then
    (if st = .synSent then t.sendFlags tcpRst t.sndNxt else t).setState .closed
  else if st = .established ∨ st = .closeWait then t.tcpShutdownWrite now
  else t

def closeOrphan (t : Tcb Slot) : Tcb Slot :=
  ({ t with sockGone := true }.sendFlags tcpRst t.sndNxt).setState .closed

namespace Machine

variable {θ : Type}

def goto [DecidableEq θ] (m : Machine θ) (th : θ) (pc : Pc) : Machine θ :=
  { m with pc := update m.pc th pc }

def setTcb (m : Machine θ) (i : Slot) (t : Tcb Slot) : Machine θ :=
  { m with conns := update m.conns i t }

def setLock (m : Machine θ) (i : Slot) (holder : Option θ) : Machine θ :=
  { m with lock := update m.lock i holder }

def setTable (m : Machine θ) (holder : Option θ) : Machine θ := { m with table := holder }

def disown (m : Machine θ) (i : Slot) : Machine θ :=
  { m with owned := update m.owned i false }

def handOut (m : Machine θ) (i : Slot) : Machine θ :=
  { m with gen := update m.gen i (m.gen i + 1),
           owned := update m.owned i true }

def logFree (m : Machine θ) (i : Slot) : Machine θ := { m with freed := (i, m.gen i) :: m.freed }

section Fields

variable {m : Machine θ} {i j : Slot}

theorem gen_handOut_self : (m.handOut i).gen i = m.gen i + 1 := update_self ..

theorem gen_handOut_of_ne (h : j ≠ i) : (m.handOut i).gen j = m.gen j :=
  update_of_ne h ..

end Fields

/-- One slot of the loop in `reap_dead_locked`; the flag is its `break`. -/
def reapLook (m : Machine θ) (best : Option Slot) (j : Slot) : Option Slot × Bool :=
  let t := m.conns j
  if !t.inUse || !t.sockGone then (best, false)
  else if t.reclaimed then (best, false)
  else if t.state = .closed then (some j, true)
  else if t.state = .timeWait ∧
      best.all (fun b => t.timewaitDeadline < (m.conns b).timewaitDeadline) then (some j, false)
  else (best, false)

/-- `spin_lock`: the step waits until the lock is free. -/
def whenUnlocked (m : Machine θ) (i : Slot) (m' : Machine θ) : Option (Machine θ) :=
  if m.lock i = none then some m' else none

def whenTableFree (m : Machine θ) (m' : Machine θ) : Option (Machine θ) :=
  if m.table = none then some m' else none

variable [DecidableEq θ]

def next (m : Machine θ) (th : θ) (now : Nat) : Pc → Option (Machine θ)
  | .idle => none
  | .reapScan [] none _ => some ((m.setTable none).goto th .idle)
  | .reapScan [] (some b) who => some (m.goto th (.reapClaim b who))
  | .reapScan (j :: rest) best who =>
      match m.reapLook best j with
      | (some b, true) => some (m.goto th (.reapClaim b who))
      | (best, _) => some (m.goto th (.reapScan rest best who))
  | .reapClaim b who =>
      -- the exchange of `reclaimed`
      let t := { m.conns b with reclaimed := true }
      if (m.conns b).reclaimed then some (((m.setTcb b t).setTable none).goto th .idle)
      else
        some (((m.logFree b).setTcb b { t with state := .closed, inUse := false }).goto th
          (.resetOpen b who))
  | .resetOpen i who => some ((m.setTcb i (m.conns i).allocOpen).goto th (.resetGone i who))
  | .resetGone i who =>
      some ((m.setTcb i { m.conns i with sockGone := false }).goto th (.resetRest i who))
  | .resetRest i who =>
      let m' := ((m.handOut i).setTcb i (m.conns i).allocRest).setTable none
      match who with
      | .socket => some (m'.goto th .idle)
      | .syn o => some (m'.goto th (.openChild i o))
  | .openChild i o =>
      m.whenUnlocked i ((m.setTcb i ((m.conns i).openPassive now o.rand o.l o.localN o.remoteN
        o.lportN o.rportN o.seg)).goto th .idle)
  | .inputFound i s =>
      m.whenUnlocked i ({ m with conns := tcpSegment now m.conns i s }.goto th .idle)
  | .tickNext [] => some (m.goto th .idle)
  | .tickNext (i :: rest) =>
      some (m.goto th (if (m.conns i).inUse then .tickLock i rest else .tickNext rest))
  | .tickLock i rest => m.whenUnlocked i ((m.setLock i (some th)).goto th (.tickTimewait i rest))
  | .tickTimewait i rest =>
      if Tcb.due now (m.conns i).timewaitDeadline then
        let t := { m.conns i with timewaitDeadline := 0 }.enterClosed none
        some (((m.setTcb i t).setLock i none).goto th (.tickNext rest))
      else some (m.goto th (.tickGone i rest))
  | .tickGone i rest =>
      some (m.goto th (if (m.conns i).sockGone then .tickState i (m.gen i) rest
        else .tickDeadlines i rest))
  | .tickState i g rest =>
      some (m.goto th (if (m.conns i).state = .closed then .tickReclaimed i g rest
        else .tickDeadlines i rest))
  | .tickReclaimed i g rest =>
      if (m.conns i).reclaimed then some (m.goto th (.tickDeadlines i rest))
      else some ((m.setLock i none).goto th (.releasing i g (.tickNext rest)))
  | .tickDeadlines i rest =>
      let t := (m.conns i).timerDeadlines now
      some (((m.setTcb i t).setLock i none).goto th (.tickNext rest))
  | .closeOrphans i g st [] => some (m.goto th (.closeTail i g st))
  | .closeOrphans i g st ((c, gc) :: rest) =>
      m.whenUnlocked c (((m.setTcb c (closeOrphan (m.conns c))).disown c).goto th
        (.releasing c gc (.closeOrphans i g st rest)))
  | .closeTail i g st =>
      let m' := m.setTcb i (closeBlock now st (m.conns i))
      m.whenUnlocked i (m'.goto th (if closeReleases st then .releasing i g .idle else .idle))
  | .releasing i g after =>
      -- the exchange of `reclaimed`
      let m' := m.setTcb i { m.conns i with reclaimed := true }
      some (m'.goto th (if (m.conns i).reclaimed then after.pc else .clearing i g after))
  | .clearing i _ after =>
      m.whenTableFree
        (((m.logFree i).setTcb i { m.conns i with state := .closed, inUse := false }).goto th
          after.pc)

def closeBegin (m : Machine θ) (th : θ) (i : Slot) : Machine θ :=
  let t := m.conns i
  let orphans := if t.state = .listen then t.acceptQ.map fun c => (c, m.gen c) else []
  let left := if t.state = .listen then [] else t.acceptQ
  ((m.setTcb i { t with sockGone := true, acceptQ := left }).disown i).goto th
    (.closeOrphans i (m.gen i) t.state orphans)

end Machine

/-- What happens next: an idle thread begins a call, or a thread goes on with its own. -/
inductive SlotAct (θ : Type) where
  | alloc (th : θ) (who : AllocFor)
  | tick (th : θ)
  | close (th : θ) (i : Slot)
  | input (th : θ) (i : Slot) (s : Segment)
  | sock (th : θ) (now : Nat) (i : Slot) (op : SockOp)
  | step (th : θ) (now : Nat)

variable {θ : Type}

def Machine.whenIdle (m : Machine θ) (th : θ) (m' : Option (Machine θ)) : Option (Machine θ) :=
  match m.pc th with
  | .idle => m'
  | _ => none

variable [DecidableEq θ]

def slotStep (m : Machine θ) : SlotAct θ → Option (Machine θ)
  | .alloc th who =>
      m.whenIdle th (m.whenTableFree ((m.setTable (some th)).goto th
        (match slots.find? fun i => !(m.conns i).inUse with
        | some i => .resetOpen i who
        | none => .reapScan slots none who)))
  | .tick th => m.whenIdle th (some (m.goto th (.tickNext slots)))
  | .close th i =>
      -- a socket closes its block once (`sock_put`)
      m.whenIdle th (if m.owned i then m.whenUnlocked i (m.closeBegin th i) else none)
  | .input th i s =>
      -- what `tcp_find` can return
      m.whenIdle th
        (if (m.conns i).inUse ∧ (m.conns i).state ≠ .listen then
          m.whenTableFree (m.goto th (.inputFound i s)) else none)
  | .sock th now i op =>
      m.whenIdle th
        (if m.owned i then m.whenUnlocked i (m.setTcb i (op.run now (m.conns i))) else none)
  | .step th now => m.next th now (m.pc th)

variable (θ) in
def Machine.boot : Machine θ where
  conns _ := Tcb.zero
  gen _ := 0
  owned _ := false
  freed := []
  lock _ := none
  table := none
  pc _ := .idle

variable (θ) in
def slotSystem : System (Machine θ) (SlotAct θ) where
  init m := m = Machine.boot θ
  step := slotStep

end NeoKernel.Net
