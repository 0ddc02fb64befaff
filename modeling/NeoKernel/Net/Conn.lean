import NeoKernel.Net.Receive
import NeoKernel.Net.Slots

/-!
# Runs of one connection

What the network, the socket layer and the timer do to one control block, from the call that
opens the connection on.
-/
namespace NeoKernel.Net
open Lib Function

variable {ι : Type}

inductive ConnOp where
  | segment (s : Segment)
  | sock (op : SockOp)
  | close
  | tick

def ConnOp.opens : ConnOp → Bool
  | .sock (.connect ..) | .sock (.listen ..) => true
  | _ => false

/-- `tcp_timer_tick` for a block that it does not release. -/
def Tcb.tick (now : Nat) (t : Tcb ι) : Tcb ι :=
  if due now t.timewaitDeadline then { t with timewaitDeadline := 0 }.enterClosed none
  else if t.sockGone && t.state == .closed && !t.reclaimed then t
  else t.timerDeadlines now

def connStep (now : Nat) (conns : Conns Slot) (i : Slot) : ConnOp → Conns Slot
  | .segment s => tcpSegment now conns i s
  | .sock op => update conns i (op.run now (conns i))
  | .close => update conns i (closeBlock now (conns i).state { conns i with sockGone := true })
  | .tick => update conns i ((conns i).tick now)

/-- A block as `tcp_alloc` hands it out, whatever was in the slot before. -/
def Tcb.alloc (t : Tcb ι) : Tcb ι := { t.allocOpen with sockGone := false }.allocRest

/-- A connection that `tcp_connect`, or `tcp_input` for a SYN, has just opened. -/
inductive Opens : Tcb Slot → Prop where
  | active (t : Tcb Slot) (now : Nat) (ip : BitVec 32) (rand : Seq) (dstN : BitVec 32)
      (dportN : BitVec 16) : Opens (t.alloc.tcpConnect now (some ip) rand dstN dportN).1
  | passive (t : Tcb Slot) (now : Nat) (rand : Seq) (l : Slot) (localN remoteN : BitVec 32)
      (lportN rportN : BitVec 16) (s : Segment) :
      Opens (t.alloc.openPassive now rand l localN remoteN lportN rportN s)

def connSystem (i : Slot) : System (Conns Slot) (Nat × ConnOp) where
  init conns := Opens (conns i)
  step conns act := if act.2.opens then none else some (connStep act.1 conns i act.2)

theorem Opens.rcvWnd {t : Tcb Slot} (h : Opens t) : t.rcvWnd = tcpRcvbuf := by
  cases h with
  | active => rfl
  | passive => exact congrArg Lease.rcvWnd (Tcb.lease_openPassive ..)

theorem rcvWnd_connStep (now : Nat) (conns : Conns Slot) (i : Slot) {op : ConnOp}
    (hop : op.opens = false) : (connStep now conns i op i).rcvWnd = (conns i).rcvWnd := by
  cases op with
  | segment s =>
      rcases tcpSegment_lease now conns i s i with hl | ⟨-, hl⟩
      · exact congrArg Lease.rcvWnd hl
      · exact congrArg Lease.rcvWnd hl
  | close =>
      rw [connStep, update_self]
      fun_cases closeBlock
      · split
        · exact congrArg Kept.rcvWnd (Tcb.kept_sendFlags ..)
        · rfl
      · exact congrArg Lease.rcvWnd (Tcb.lease_tcpShutdownWrite ..)
      · rfl
  | tick =>
      rw [connStep, update_self]
      fun_cases Tcb.tick
      · rfl
      · rfl
      · exact congrArg Lease.rcvWnd (Tcb.lease_timerDeadlines ..)
  | sock op =>
      rw [connStep, update_self]
      cases op with
      | connect => cases hop
      | listen => cases hop
      | accept => rfl
      | send => exact congrArg Kept.rcvWnd (Tcb.kept_tcpSend ..)
      | recv => exact congrArg Lease.rcvWnd (Tcb.lease_tcpRecv ..)
      | shutdownWrite => exact congrArg Lease.rcvWnd (Tcb.lease_tcpShutdownWrite ..)
      | txFlush => rfl

/-- `tcp_alloc` sets `rcv_wnd`, and nothing writes it again. -/
theorem rcvWnd_of_reach {i : Slot} {conns : Conns Slot}
    (hr : (connSystem i).Reach (fun _ _ => True) conns) : (conns i).rcvWnd = tcpRcvbuf := by
  refine hr.invariant (fun conns => (conns i).rcvWnd = tcpRcvbuf) ?_ ?_
  · exact fun conns hinit => hinit.rcvWnd
  · rintro conns ⟨now, op⟩ conns' h - hs
    obtain ⟨hop, ⟨⟩⟩ := Option.ite_none_left_eq_some.1 hs
    exact (rcvWnd_connStep now conns i (Bool.eq_false_of_not_eq_true hop)).trans h

def enteredTcb : Tcb Slot :=
  { Tcb.zero with
    state := .established, sndUna := 1, sndNxt := 1, sndWnd := 65535, rcvWnd := tcpRcvbuf,
    mss := tcpDefaultMss, cwnd := 2 * tcpDefaultMss, rtoTicks := tcpRtoMinTicks * 5 }

end NeoKernel.Net
