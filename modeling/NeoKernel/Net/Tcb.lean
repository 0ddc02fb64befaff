import NeoKernel.Errno
import NeoKernel.Lib.RingBuf
import NeoKernel.Lib.Serial

/-!
# The TCP control block (kernel/net/tcp.h, kernel/net/tcp.c)

Sequence numbers are 32-bit words. The other `uint32_t` fields are naturals: a sum that can pass
`2 ^ 32` is reduced where the source computes it. A staged segment is kept as the arguments of
`build_segment`, not as bytes. Times are ticks, and 0 is a deadline that is not set.
-/
namespace NeoKernel.Net
open Lib

abbrev Seq := BitVec 32
abbrev Byte := UInt8

def seqLt (a b : Seq) : Bool := (a - b).toInt < 0
def seqLe (a b : Seq) : Bool := (a - b).toInt ≤ 0
def seqGt (a b : Seq) : Bool := (a - b).toInt > 0
def seqGe (a b : Seq) : Bool := (a - b).toInt ≥ 0

abbrev Flags := BitVec 8

def tcpFin : Flags := 0x01
def tcpSyn : Flags := 0x02
def tcpRst : Flags := 0x04
def tcpPsh : Flags := 0x08
def tcpAck : Flags := 0x10

def hasFlag (fl f : Flags) : Bool := fl &&& f != 0

def tcpMaxConns : Nat := 32
def tcpSndbuf : Nat := 32768
def tcpRcvbuf : Nat := 32768
def tcpReasmSegs : Nat := 8
def tcpReasmMax : Nat := 1460
def tcpBacklogMax : Nat := 128
def tcpDefaultMss : Nat := 536
def tcpMaxMss : Nat := 1460
def txqMax : Nat := 8

def timerHz : Nat := 100
def tcpMslTicks : Nat := 5 * timerHz
def tcpTimewaitTicks : Nat := 2 * tcpMslTicks
def tcpRtoMinTicks : Nat := timerHz / 5
def tcpRtoMaxTicks : Nat := 60 * timerHz
def tcpDelackTicks : Nat := timerHz / 5
def tcpMaxRetries : Nat := 12
def tcpEstablishTicks : Nat := 30 * timerHz

instance : NeZero tcpMaxConns := ⟨by decide⟩

inductive TcpState where
  | closed
  | listen
  | synSent
  | synReceived
  | established
  | finWait1
  | finWait2
  | closeWait
  | closing
  | lastAck
  | timeWait
  deriving DecidableEq, Repr

/-- `struct tcp_reasm`; its `len` is the length of `data`. -/
structure TcpReasm where
  seq : Seq
  used : Bool
  data : List Byte
  deriving DecidableEq, Repr

/-- A segment staged in `txq`: what `tx_queue` hands to `build_segment`. -/
structure TcpTxseg where
  seq : Seq
  ack : Seq
  flags : Flags
  window : Nat
  mssOpt : Nat
  data : List Byte
  deriving DecidableEq, Repr

/-- `struct tcb`, over the type `ι` of the slots of the connection table. `snd` is
`sndbuf` with `snd_head` and `snd_len`, and `rcv` likewise. -/
structure Tcb (ι : Type) where
  state : TcpState
  inUse : Bool
  localN : BitVec 32
  remoteN : BitVec 32
  lportN : BitVec 16
  rportN : BitVec 16
  sndUna : Seq
  sndNxt : Seq
  sndWnd : Nat
  sndWl1 : Seq
  sndWl2 : Seq
  iss : Seq
  rcvNxt : Seq
  rcvWnd : Nat
  irs : Seq
  mss : Nat
  snd : RingBuf Byte
  rcv : RingBuf Byte
  reasm : List TcpReasm
  rtoDeadline : Nat
  delackDeadline : Nat
  persistDeadline : Nat
  timewaitDeadline : Nat
  establishDeadline : Nat
  rtoTicks : Nat
  srtt8 : BitVec 32
  rttvar8 : BitVec 32
  rttSeq : Seq
  rttAt : Nat
  rttPending : Bool
  retries : Nat
  persistShift : Nat
  cwnd : Nat
  ssthresh : Nat
  dupacks : Nat
  recover : Seq
  inRecovery : Bool
  backlog : Nat
  acceptQ : List ι
  parent : Option ι
  sockGone : Bool
  reclaimed : Bool
  nodelay : Bool
  soError : Option Errno
  finSent : Nat
  finRcvd : Bool
  reset : Bool
  shutRd : Bool
  shutWr : Bool
  txq : List TcpTxseg

variable {ι : Type}

namespace Tcb

def zero : Tcb ι where
  state := .closed
  inUse := false
  localN := 0
  remoteN := 0
  lportN := 0
  rportN := 0
  sndUna := 0
  sndNxt := 0
  sndWnd := 0
  sndWl1 := 0
  sndWl2 := 0
  iss := 0
  rcvNxt := 0
  rcvWnd := 0
  irs := 0
  mss := 0
  snd := ⟨fun _ => 0, 0, 0⟩
  rcv := ⟨fun _ => 0, 0, 0⟩
  reasm := List.replicate tcpReasmSegs ⟨0, false, []⟩
  rtoDeadline := 0
  delackDeadline := 0
  persistDeadline := 0
  timewaitDeadline := 0
  establishDeadline := 0
  rtoTicks := 0
  srtt8 := 0
  rttvar8 := 0
  rttSeq := 0
  rttAt := 0
  rttPending := false
  retries := 0
  persistShift := 0
  cwnd := 0
  ssthresh := 0
  dupacks := 0
  recover := 0
  inRecovery := false
  backlog := 0
  acceptQ := []
  parent := none
  sockGone := false
  reclaimed := false
  nodelay := false
  soError := none
  finSent := 0
  finRcvd := false
  reset := false
  shutRd := false
  shutWr := false
  txq := []

def setState (t : Tcb ι) (s : TcpState) : Tcb ι := { t with state := s }

/-! ## Output -/

/-- `tx_queue`: a full staging queue drops the segment. -/
def txQueue (t : Tcb ι) (seq ack : Seq) (flags : Flags) (window mssOpt : Nat)
    (data : List Byte) : Tcb ι :=
  if t.txq.length ≥ txqMax then t
  else { t with txq := t.txq ++ [⟨seq, ack, flags, min window 65535, mssOpt, data⟩] }

def advertisedWindow (t : Tcb ι) : Nat :=
  let freeSpace := tcpRcvbuf - t.rcv.len
  if freeSpace < t.mss ∧ freeSpace < tcpRcvbuf / 2 then 0 else freeSpace

def sendFlags (t : Tcb ι) (flags : Flags) (seq : Seq) : Tcb ι :=
  t.txQueue seq t.rcvNxt flags t.advertisedWindow
    (if hasFlag flags tcpSyn then tcpMaxMss else 0) []

def inFlight (t : Tcb ι) : Nat := (t.sndNxt - t.sndUna).toNat

def sndBytes (t : Tcb ι) (k n : Nat) : List Byte :=
  (List.range n).map fun i => t.snd.buf (((t.snd.head + k) % tcpSndbuf + i) % tcpSndbuf)

def armRto (now : Nat) (t : Tcb ι) : Tcb ι :=
  if t.rtoDeadline = 0 then { t with rtoDeadline := now + t.rtoTicks } else t

/-- One segment of `n` new bytes: the loop body of `tcp_output`. -/
def sendData (now : Nat) (t : Tcb ι) (n : Nat) : Tcb ι :=
  let t := t.txQueue t.sndNxt t.rcvNxt (tcpAck ||| tcpPsh) t.advertisedWindow 0
    (t.sndBytes t.inFlight n)
  let t := if t.rttPending then t
    else { t with rttPending := true, rttSeq := t.sndNxt, rttAt := now }
  let t := armRto now { t with sndNxt := t.sndNxt + BitVec.ofNat 32 n }
  { t with delackDeadline := 0 }

/-- How many bytes the next segment carries, or `none` where the loop breaks. -/
def nextSend (t : Tcb ι) (window : Nat) : Option Nat :=
  if t.inFlight ≥ window then none
  else if t.inFlight ≥ t.snd.len then none
  else
    let n := min (min (t.snd.len - t.inFlight) (window - t.inFlight)) t.mss
    -- Nagle: no small segment while anything is unacknowledged.
    if !t.nodelay && n < t.mss && t.inFlight > 0 then none else some n

/-- The loop of `tcp_output`. Every pass stages one segment, so the room left below
`burst_max` bounds the passes. -/
def outputBurst (now window : Nat) : Nat → Tcb ι → Tcb ι
  | 0, t => t
  | room+1, t =>
      match t.nextSend window with
      | none => t
      | some n => outputBurst now window room (t.sendData now n)

def outputFin (now : Nat) (t : Tcb ι) : Tcb ι :=
  if t.finSent = 1 ∧ t.sndNxt = t.sndUna + BitVec.ofNat 32 t.snd.len then
    let t := t.sendFlags (tcpFin ||| tcpAck) t.sndNxt
    armRto now { t with sndNxt := t.sndNxt + 1, finSent := 2 }
  else t

def canOutput : TcpState → Bool
  | .established | .closeWait | .finWait1 | .lastAck | .closing => true
  | _ => false

def tcpOutput (now : Nat) (t : Tcb ι) : Tcb ι :=
  if canOutput t.state then
    outputFin now (t.outputBurst now (min t.sndWnd t.cwnd) (txqMax - 1 - t.txq.length))
  else t

/-! ## Congestion control and round-trip times -/

def ccInit (t : Tcb ι) : Tcb ι :=
  { t with cwnd := 2 * t.mss, ssthresh := tcpSndbuf, dupacks := 0, inRecovery := false }

def ccOnAck (t : Tcb ι) (acked : Nat) : Tcb ι :=
  if t.inRecovery then { t with cwnd := t.ssthresh, inRecovery := false, dupacks := 0 }
  else
    let inc := t.mss * t.mss / (if t.cwnd = 0 then 1 else t.cwnd)
    let grown := if t.cwnd < t.ssthresh then t.cwnd + min acked t.mss
      else t.cwnd + (if inc = 0 then 1 else inc)
    { t with cwnd := min (grown % 2 ^ 32) tcpSndbuf }

def lossThreshold (t : Tcb ι) : Nat := max (t.inFlight / 2) (2 * t.mss)

def ccOnTimeout (t : Tcb ι) : Tcb ι :=
  { t with ssthresh := t.lossThreshold, cwnd := t.mss, inRecovery := false, dupacks := 0 }

/-- `cc_on_dupack`, with whether the caller should retransmit at once. -/
def ccOnDupack (t : Tcb ι) : Tcb ι × Bool :=
  let t := { t with dupacks := (t.dupacks + 1) % 2 ^ 32 }
  if t.inRecovery then ({ t with cwnd := (t.cwnd + t.mss) % 2 ^ 32 }, false)
  else if t.dupacks = 3 then
    ({ t with ssthresh := t.lossThreshold, cwnd := (t.lossThreshold + 3 * t.mss) % 2 ^ 32,
              inRecovery := true, recover := t.sndNxt }, true)
  else (t, false)

/-- The unacknowledged bytes of data: the FIN's number is not one. -/
def outstanding (t : Tcb ι) : Nat :=
  if t.finSent = 2 ∧ t.inFlight = t.snd.len + 1 then t.inFlight - 1 else t.inFlight

def retransmit (t : Tcb ι) : Tcb ι :=
  if t.outstanding = 0 then
    if t.finSent = 2 then t.sendFlags (tcpFin ||| tcpAck) (t.sndNxt - 1) else t
  else
    { t with rttPending := false }.txQueue t.sndUna t.rcvNxt (tcpAck ||| tcpPsh)
      t.advertisedWindow 0 (t.sndBytes 0 (min t.outstanding t.mss))

/-- Jacobson's estimator in eighths of a tick; the signed divisions truncate. -/
def rttSample (t : Tcb ι) (measured : Nat) : Tcb ι :=
  let m8 := BitVec.ofNat 32 (measured * 8)
  let err := (m8 - t.srtt8).toInt
  let srtt8 := if t.srtt8 = 0 then m8 else BitVec.ofInt 32 (t.srtt8.toInt + err.tdiv 8)
  let rttvar8 := if t.srtt8 = 0 then m8 / 2
    else BitVec.ofInt 32 (t.rttvar8.toInt + (|err| - t.rttvar8.toInt).tdiv 4)
  let rto := (srtt8 + 4 * rttvar8).toNat / 8
  { t with srtt8 := srtt8, rttvar8 := rttvar8,
           rtoTicks := min (max rto tcpRtoMinTicks) tcpRtoMaxTicks }

def takeSample (now : Nat) (t : Tcb ι) : Tcb ι :=
  { t.rttSample (now - t.rttAt) with rttPending := false }

/-! ## Receive -/

/-- `deliver`: as many in-order bytes as the receive ring has room for. -/
def deliver (t : Tcb ι) (data : List Byte) : Tcb ι :=
  let data := data.take (tcpRcvbuf - t.rcv.len)
  { t with rcv := t.rcv.push tcpRcvbuf data,
           rcvNxt := t.rcvNxt + BitVec.ofNat 32 data.length }

/-- The `for` loop of `drain_reasm`, with the entries it leaves and `moved`. -/
def drainEntries : Tcb ι → List TcpReasm → Tcb ι × List TcpReasm × Bool
  | t, [] => (t, [], false)
  | t, r :: rs =>
      let last := r.seq + BitVec.ofNat 32 r.data.length
      let rest := drainEntries t rs
      if !r.used then (rest.1, r :: rest.2.1, rest.2.2)
      else if seqLe r.seq t.rcvNxt && seqGt last t.rcvNxt then
        let skip := (t.rcvNxt - r.seq).toNat
        let rest := drainEntries (t.deliver (r.data.drop skip)) rs
        (rest.1, { r with used := false } :: rest.2.1, true)
      else if seqLe last t.rcvNxt then (rest.1, { r with used := false } :: rest.2.1, rest.2.2)
      else (rest.1, r :: rest.2.1, rest.2.2)

def drainPass (t : Tcb ι) : Tcb ι × Bool :=
  let rest := drainEntries t t.reasm
  ({ rest.1 with reasm := rest.2.1 }, rest.2.2)

def drainPasses : Nat → Tcb ι → Tcb ι
  | 0, t => t
  | n+1, t => if t.drainPass.2 then drainPasses n t.drainPass.1 else t.drainPass.1

/-- `drain_reasm`. A pass that moves something frees an entry, so the loop is left
within one pass more than there are entries (`drainReasm_settled`). -/
def drainReasm (t : Tcb ι) : Tcb ι := drainPasses (t.reasm.length + 1) t

def fillEntry (e : TcpReasm) : List TcpReasm → List TcpReasm
  | [] => []
  | r :: rs => if r.used then r :: fillEntry e rs else e :: rs

/-- `queue_reasm`: a duplicate, or a segment for which there is no entry, is dropped. -/
def queueReasm (t : Tcb ι) (seq : Seq) (data : List Byte) : Tcb ι :=
  if t.reasm.any fun r => r.used && r.seq == seq then t
  else { t with reasm := fillEntry ⟨seq, true, data.take tcpReasmMax⟩ t.reasm }

def enterClosed (t : Tcb ι) (err : Option Errno) : Tcb ι :=
  { t.setState .closed with
    soError := err, rtoDeadline := 0, delackDeadline := 0, persistDeadline := 0,
    establishDeadline := 0 }

end Tcb

end NeoKernel.Net
