import NeoKernel.Net.Tcb

/-!
# Segment input and the socket operations (kernel/net/tcp.c)

`tcp_segment` in the order of its sections, and the calls the socket layer makes. A
segment that completes a passive handshake also writes the listener's accept queue,
so `tcpSegment` works on the whole table of control blocks.
-/
namespace NeoKernel.Net
open Lib Function

structure Segment where
  seq : Seq
  ack : Seq
  flags : Flags
  window : Nat
  opts : List Byte
  data : List Byte
  deriving DecidableEq, Repr

def Segment.last (s : Segment) : Seq := s.seq + BitVec.ofNat 32 s.data.length

/-- The loop of `parse_mss`; every pass drops at least one option byte. -/
def parseMssLoop : Nat → List Byte → Nat
  | fuel+1, kind :: olen :: rest =>
      if kind = 0 then 0
      else if kind = 1 then parseMssLoop fuel (olen :: rest)
      else if olen < 2 ∨ olen.toNat > rest.length + 2 then 0
      else if kind = 2 ∧ olen = 4 then
        match rest with
        | hi :: lo :: _ => hi.toNat * 256 + lo.toNat
        | _ => 0
      else parseMssLoop fuel (rest.drop (olen.toNat - 2))
  | _, _ => 0

def Segment.parseMss (s : Segment) : Nat := parseMssLoop s.opts.length s.opts

variable {ι : Type}

namespace Tcb

def takeMss (t : Tcb ι) (s : Segment) : Tcb ι :=
  if s.parseMss = 0 then t else { t with mss := min s.parseMss tcpMaxMss }

def segmentSynSent (now : Nat) (t : Tcb ι) (s : Segment) : Tcb ι :=
  if hasFlag s.flags tcpSyn && hasFlag s.flags tcpAck then
    if !seqGe s.ack (t.iss + 1) || seqGt s.ack t.sndNxt then t
    else
      let t := { t with irs := s.seq, rcvNxt := s.seq + 1, sndUna := s.ack, sndWnd := s.window }
      let t := ((t.takeMss s).ccInit).setState .established
      let t := { t with establishDeadline := 0, rtoDeadline := 0 }
      let t := if t.rttPending then t.takeSample now else t
      t.sendFlags tcpAck t.sndNxt
  else if hasFlag s.flags tcpSyn then
    -- simultaneous open
    let t := { t with irs := s.seq, rcvNxt := s.seq + 1 }.setState .synReceived
    t.sendFlags (tcpSyn ||| tcpAck) t.iss
  else t

/-- RFC 793's test: the segment overlaps the receive window. -/
def acceptable (t : Tcb ι) (s : Segment) : Bool :=
  let win := if t.rcvWnd = 0 then 1 else t.rcvWnd
  let inWindow := seqGe s.seq t.rcvNxt && seqLt s.seq (t.rcvNxt + BitVec.ofNat 32 win)
  if s.data.length = 0 then
    if t.rcvWnd = 0 then s.seq == t.rcvNxt else inWindow
  else inWindow || (seqLt s.seq t.rcvNxt && seqGt s.last t.rcvNxt)

/-- What the ACK of a passive open does to the connection itself. -/
def establish (t : Tcb ι) (s : Segment) : Tcb ι :=
  let t := ({ t with sndUna := s.ack, sndWnd := s.window }.ccInit).setState .established
  { t with establishDeadline := 0, rtoDeadline := 0 }

/-- How far `ack` moves the head of the send ring: the FIN's number is not a byte. -/
def dataAcked (t : Tcb ι) (ack : Seq) : Nat :=
  if t.finSent = 2 ∧ seqGe ack (t.sndUna + BitVec.ofNat 32 t.snd.len + 1) then t.snd.len
  else (ack - t.sndUna).toNat

def sampleAck (now : Nat) (t : Tcb ι) (ack : Seq) : Tcb ι :=
  if t.rttPending && seqGe ack t.rttSeq then t.takeSample now else t

/-- "the ACK, for every state that has one" -/
def segmentAck (now : Nat) (t : Tcb ι) (s : Segment) : Tcb ι :=
  if seqGt s.ack t.sndUna && seqLe s.ack t.sndNxt then
    let acked := (s.ack - t.sndUna).toNat
    let t := { t with sndUna := s.ack, snd := t.snd.pop tcpSndbuf (t.dataAcked s.ack),
                      retries := 0, dupacks := 0, persistShift := 0 }
    let t := (t.sampleAck now s.ack).ccOnAck acked
    { t with rtoDeadline := if t.sndUna = t.sndNxt then 0 else now + t.rtoTicks }
  else if s.ack = t.sndUna ∧ s.data.length = 0 ∧ t.sndUna ≠ t.sndNxt then
    let (t, again) := t.ccOnDupack
    if again then t.retransmit else t
  else t

/-- "the window update" -/
def segmentWindow (now : Nat) (t : Tcb ι) (s : Segment) : Tcb ι :=
  if seqLt t.sndWl1 s.seq || (t.sndWl1 == s.seq && seqLe t.sndWl2 s.ack) then
    let was := t.sndWnd
    let t := { t with sndWnd := s.window, sndWl1 := s.seq, sndWl2 := s.ack }
    if t.sndWnd = 0 ∧ was ≠ 0 then { t with persistDeadline := now + t.rtoTicks }
    else if t.sndWnd ≠ 0 then { t with persistDeadline := 0 }
    else t
  else t

/-- "the data" -/
def segmentData (now : Nat) (t : Tcb ι) (s : Segment) : Tcb ι :=
  if s.data.length = 0 then t
  else if s.seq = t.rcvNxt then
    let t := (t.deliver s.data).drainReasm
    if t.delackDeadline = 0 then { t with delackDeadline := now + tcpDelackTicks }
    else { t with delackDeadline := 0 }.sendFlags tcpAck t.sndNxt
  else if seqGt s.seq t.rcvNxt then
    let t := t.queueReasm s.seq s.data
    t.sendFlags tcpAck t.sndNxt
  else t.sendFlags tcpAck t.sndNxt

/-- "the FIN" -/
def segmentFin (now : Nat) (t : Tcb ι) (s : Segment) : Tcb ι :=
  if hasFlag s.flags tcpFin && seqLe s.seq t.rcvNxt && seqGe s.last t.rcvNxt then
    let t := { t with finRcvd := true, rcvNxt := t.rcvNxt + 1 }
    let t := t.sendFlags tcpAck t.sndNxt
    match t.state with
    | .established => t.setState .closeWait
    | .finWait1 => t.setState .closing
    | .finWait2 => { t.setState .timeWait with timewaitDeadline := now + tcpTimewaitTicks }
    | _ => t
  else t

/-- "the transitions the ACK alone drives", and the output that ends `tcp_segment` -/
def segmentTail (now : Nat) (t : Tcb ι) : Tcb ι :=
  let timeWait := { t.setState .timeWait with timewaitDeadline := now + tcpTimewaitTicks }
  if t.state = .finWait1 ∧ t.finSent = 2 ∧ seqGe t.sndUna t.sndNxt then
    (if t.finRcvd then timeWait else t.setState .finWait2).tcpOutput now
  else if t.state = .closing ∧ seqGe t.sndUna t.sndNxt then timeWait.tcpOutput now
  else if t.state = .lastAck ∧ seqGe t.sndUna t.sndNxt then t.enterClosed none
  else t.tcpOutput now

def segmentSync (now : Nat) (t : Tcb ι) (s : Segment) : Tcb ι :=
  let t := t.segmentAck now s
  let t := t.segmentWindow now s
  let t := t.segmentData now s
  let t := t.segmentFin now s
  t.segmentTail now

def tcpReset (t : Tcb ι) : Tcb ι :=
  let err : Errno :=
    if t.state = .synSent ∨ t.state = .synReceived then .econnrefused else .econnreset
  enterClosed { t with reset := true } (some err)

end Tcb

abbrev Conns (ι : Type) := ι → Tcb ι

def Tcb.backlogDepth (t : Tcb ι) : Nat :=
  if t.backlog < 1 ∨ t.backlog > tcpBacklogMax then tcpBacklogMax else t.backlog

variable [DecidableEq ι]

/-- An established passive open joins its listener's accept queue, or is reset if the
queue is full. The flag is whether `tcp_segment` goes on. -/
def joinBacklog (conns : Conns ι) (i : ι) (s : Segment) : Conns ι × Bool :=
  match (conns i).parent with
  | none => (conns, true)
  | some p =>
      if (conns p).acceptQ.length < (conns p).backlogDepth then
        (update conns p { conns p with acceptQ := (conns p).acceptQ ++ [i] }, true)
      else
        (update conns i (((conns i).txQueue s.ack 0 tcpRst 0 0 []).setState .closed), false)

def tcpSegment (now : Nat) (conns : Conns ι) (i : ι) (s : Segment) : Conns ι :=
  let t := conns i
  if hasFlag s.flags tcpRst then update conns i t.tcpReset
  else if t.state = .synSent then update conns i (t.segmentSynSent now s)
  else if t.state ≠ .listen ∧ !t.acceptable s then
    update conns i (t.sendFlags tcpAck t.sndNxt)
  else if !hasFlag s.flags tcpAck then conns
  else if t.state = .synReceived then
    if seqGe s.ack t.sndUna && seqLe s.ack t.sndNxt then
      let res := joinBacklog (update conns i (t.establish s)) i s
      if res.2 then update res.1 i ((res.1 i).segmentSync now s) else res.1
    else update conns i (t.txQueue s.ack 0 tcpRst 0 0 [])
  else update conns i (t.segmentSync now s)

namespace Tcb

/-- `tcp_send`, with the number of bytes accepted. -/
def tcpSend (now : Nat) (t : Tcb ι) (data : List Byte) : Tcb ι × Except Errno Nat :=
  if t.reset then (t, .error .econnreset)
  else if t.shutWr then (t, .error .epipe)
  else if t.state ≠ .established ∧ t.state ≠ .closeWait then (t, .error .enotconn)
  else
    let data := data.take (tcpSndbuf - t.snd.len)
    ({ t with snd := t.snd.push tcpSndbuf data }.tcpOutput now, .ok data.length)

/-- `tcp_recv`; end of stream is no bytes and no error for a nonempty buffer. -/
def tcpRecv (t : Tcb ι) (len : Nat) (peek : Bool) : Tcb ι × Except Errno (List Byte) :=
  if t.rcv.len ≠ 0 then
    let n := min len t.rcv.len
    let out := t.rcv.front tcpRcvbuf n
    if peek then (t, .ok out)
    else
      let t := { t with rcv := t.rcv.pop tcpRcvbuf n }
      (if t.advertisedWindow = 0 then t else t.sendFlags tcpAck t.sndNxt, .ok out)
  else if t.reset then (t, .error .econnreset)
  else if t.finRcvd || t.shutRd || t.state == .closed then (t, .ok [])
  else (t, .error .eagain)

def tcpShutdownWrite (now : Nat) (t : Tcb ι) : Tcb ι :=
  if t.shutWr || t.finSent ≠ 0 then t
  else
    let t := { t with shutWr := true, finSent := 1 }
    let t := match t.state with
      | .established => t.setState .finWait1
      | .closeWait => t.setState .lastAck
      | _ => t
    t.tcpOutput now

/-- `tcp_connect`; `dev` is the address of the device that `route_lookup` finds and
`rand` the initial sequence number drawn. -/
def tcpConnect (now : Nat) (dev : Option (BitVec 32)) (rand : Seq) (t : Tcb ι) (dstN : BitVec 32)
    (dportN : BitVec 16) : Tcb ι × Except Errno Unit :=
  match dev with
  | none => (t, .error .enetunreach)
  | some ip =>
      if t.state ≠ .closed then (t, .error .eisconn)
      else
        let t := { t with localN := ip, remoteN := dstN, rportN := dportN, iss := rand,
                          sndUna := rand, sndNxt := rand, sndWnd := tcpSndbuf }
        let t := t.ccInit.setState .synSent
        let t := { t with establishDeadline := now + tcpEstablishTicks, rttPending := true,
                          rttSeq := t.iss, rttAt := now }
        let t := t.sendFlags tcpSyn t.iss
        ({ t with sndNxt := t.sndNxt + 1, rtoDeadline := now + t.rtoTicks }, .ok ())

def tcpListen (t : Tcb ι) (backlog : Int) : Tcb ι × Except Errno Unit :=
  if t.state ≠ .closed ∧ t.state ≠ .listen then (t, .error .einval)
  else
    ({ t with backlog := min (max backlog 1).toNat tcpBacklogMax }.setState .listen, .ok ())

/-- What `tcp_input` makes of a fresh block for a SYN to the listener `l`. -/
def openPassive (now : Nat) (rand : Seq) (t : Tcb ι) (l : ι) (localN remoteN : BitVec 32)
    (lportN rportN : BitVec 16) (s : Segment) : Tcb ι :=
  let t := { t with localN := localN, remoteN := remoteN, lportN := lportN, rportN := rportN,
                    irs := s.seq, rcvNxt := s.seq + 1, iss := rand, sndUna := rand,
                    sndNxt := rand, sndWnd := s.window, parent := some l }
  let t := (t.takeMss s).setState .synReceived
  let t := { t with establishDeadline := now + tcpEstablishTicks }
  let t := t.sendFlags (tcpSyn ||| tcpAck) t.iss
  { t with sndNxt := t.sndNxt + 1, rtoDeadline := now + t.rtoTicks }

def due (now deadline : Nat) : Bool := deadline != 0 && now ≥ deadline

def timerRetransmit (now : Nat) (t : Tcb ι) : Tcb ι :=
  let t := t.ccOnTimeout
  let t := { t with rtoTicks := min (t.rtoTicks * 2) tcpRtoMaxTicks }
  let t := { t with rtoDeadline := now + t.rtoTicks }
  match t.state with
  | .synSent => t.sendFlags tcpSyn t.iss
  | .synReceived => t.sendFlags (tcpSyn ||| tcpAck) t.iss
  | _ => t.retransmit

def timerDelack (now : Nat) (t : Tcb ι) : Tcb ι :=
  if due now t.delackDeadline then { t with delackDeadline := 0 }.sendFlags tcpAck t.sndNxt else t

/-- The zero-window probe: one byte past the advertised window. -/
def timerPersist (now : Nat) (t : Tcb ι) : Tcb ι :=
  if due now t.persistDeadline then
    let t := { t with persistShift := (t.persistShift + 1) % 2 ^ 8 }
    let backoff := min (t.rtoTicks * 2 ^ min t.persistShift 6) tcpRtoMaxTicks
    let t := { t with persistDeadline := now + backoff }
    if t.snd.len > t.inFlight then
      t.txQueue t.sndNxt t.rcvNxt tcpAck t.advertisedWindow 0 (t.sndBytes t.inFlight 1)
    else t.sendFlags tcpAck (t.sndNxt - 1)
  else t

/-- The part of `tcp_timer_tick` that follows the reclaim rule. -/
def timerDeadlines (now : Nat) (t : Tcb ι) : Tcb ι :=
  if due now t.establishDeadline then
    { t with establishDeadline := 0 }.enterClosed (some .etimedout)
  else if due now t.rtoDeadline then
    let t := { t with retries := (t.retries + 1) % 2 ^ 8 }
    if t.retries > tcpMaxRetries then t.enterClosed (some .etimedout)
    else ((t.timerRetransmit now).timerDelack now).timerPersist now
  else (t.timerDelack now).timerPersist now

end Tcb

end NeoKernel.Net
