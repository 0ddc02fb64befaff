import NeoKernel.Net.Segment

/-!
# What the sending side leaves alone

`kept` is the part of a control block that no function of the sending side writes:
the state, the receive side and the lifetime of the slot. Each such function has one
frame lemma, so a property of `kept` never looks into them again.
-/
namespace NeoKernel.Net
open Lib Function

/-- The state, the receive side, the accept queue and the lifetime flags of a block. -/
structure Kept (ι : Type) where
  state : TcpState
  rcvNxt : Seq
  rcvWnd : Nat
  irs : Seq
  rcv : RingBuf Byte
  reasm : List TcpReasm
  finRcvd : Bool
  reset : Bool
  shutRd : Bool
  acceptQ : List ι
  inUse : Bool
  sockGone : Bool
  reclaimed : Bool

/-- Who may use a slot, the connections that wait in it and the window it offers. -/
structure Lease (ι : Type) where
  inUse : Bool
  sockGone : Bool
  reclaimed : Bool
  acceptQ : List ι
  rcvWnd : Nat

/-- How far a connection has come: before, in and after `ESTABLISHED`. -/
def TcpState.phase : TcpState → Nat
  | .listen | .synSent | .synReceived => 0
  | .established => 1
  | _ => 2

variable {ι : Type}

def Kept.lease (k : Kept ι) : Lease ι := ⟨k.inUse, k.sockGone, k.reclaimed, k.acceptQ, k.rcvWnd⟩

namespace Tcb

def kept (t : Tcb ι) : Kept ι where
  state := t.state
  rcvNxt := t.rcvNxt
  rcvWnd := t.rcvWnd
  irs := t.irs
  rcv := t.rcv
  reasm := t.reasm
  finRcvd := t.finRcvd
  reset := t.reset
  shutRd := t.shutRd
  acceptQ := t.acceptQ
  inUse := t.inUse
  sockGone := t.sockGone
  reclaimed := t.reclaimed

def lease (t : Tcb ι) : Lease ι := t.kept.lease

variable (now : Nat) (t : Tcb ι) (s : Segment)

theorem txQueue_eq (seq ack : Seq) (flags : Flags) (window mssOpt : Nat)
    (data : List Byte) : ∃ q, t.txQueue seq ack flags window mssOpt data = { t with txq := q } := by
  fun_cases txQueue t seq ack flags window mssOpt data
  · exact ⟨t.txq, rfl⟩
  · exact ⟨_, rfl⟩

@[simp] theorem kept_txQueue (seq ack : Seq) (flags : Flags) (window mssOpt : Nat)
    (data : List Byte) : (t.txQueue seq ack flags window mssOpt data).kept = t.kept := by
  obtain ⟨q, hq⟩ := t.txQueue_eq seq ack flags window mssOpt data
  rw [hq]
  rfl

@[simp] theorem kept_sendFlags (flags : Flags) (seq : Seq) :
    (t.sendFlags flags seq).kept = t.kept :=
  t.kept_txQueue ..

theorem state_sendFlags (flags : Flags) (seq : Seq) :
    (t.sendFlags flags seq).state = t.state :=
  congrArg Kept.state (t.kept_sendFlags flags seq)

@[simp] theorem kept_armRto : (t.armRto now).kept = t.kept := by
  unfold armRto
  split <;> rfl

@[simp] theorem kept_sendData (n : Nat) :
    (t.sendData now n).kept = t.kept := by
  unfold sendData
  change (armRto now _).kept = _
  rw [kept_armRto]
  split
  · exact t.kept_txQueue ..
  · exact t.kept_txQueue ..

@[simp] theorem kept_outputBurst (now window room : Nat) (t : Tcb ι) :
    (t.outputBurst now window room).kept = t.kept := by
  induction room generalizing t with
  | zero => rfl
  | succ room ih =>
      unfold outputBurst
      split
      · rfl
      · rw [ih, kept_sendData]

@[simp] theorem kept_outputFin : (t.outputFin now).kept = t.kept := by
  unfold outputFin
  split
  · rw [kept_armRto]
    exact t.kept_sendFlags ..
  · rfl

@[simp] theorem kept_tcpOutput : (t.tcpOutput now).kept = t.kept := by
  unfold tcpOutput
  split
  · rw [kept_outputFin, kept_outputBurst]
  · rfl

@[simp] theorem kept_ccOnAck (acked : Nat) : (t.ccOnAck acked).kept = t.kept := by
  fun_cases ccOnAck t acked <;> rfl

@[simp] theorem kept_ccOnDupack : t.ccOnDupack.1.kept = t.kept := by
  fun_cases ccOnDupack t <;> rfl

@[simp] theorem kept_retransmit : t.retransmit.kept = t.kept := by
  fun_cases retransmit t
  · exact t.kept_sendFlags ..
  · rfl
  · exact kept_txQueue ..

@[simp] theorem kept_takeSample : (t.takeSample now).kept = t.kept := rfl

@[simp] theorem kept_takeMss : (t.takeMss s).kept = t.kept := by
  unfold takeMss
  split <;> rfl

@[simp] theorem kept_sampleAck (ack : Seq) :
    (t.sampleAck now ack).kept = t.kept := by
  unfold sampleAck
  split <;> rfl

@[simp] theorem kept_segmentAck :
    (t.segmentAck now s).kept = t.kept := by
  fun_cases segmentAck now t s
  · change (ccOnAck _ _).kept = _
    rw [kept_ccOnAck, kept_sampleAck]
    rfl
  · next hdup => rw [kept_retransmit, ← t.kept_ccOnDupack, hdup]
  · next hdup _ => rw [← t.kept_ccOnDupack, hdup]
  · rfl

@[simp] theorem kept_segmentWindow :
    (t.segmentWindow now s).kept = t.kept := by
  fun_cases segmentWindow now t s <;> rfl

@[simp] theorem kept_tcpSend (data : List Byte) :
    (t.tcpSend now data).1.kept = t.kept := by
  fun_cases tcpSend now t data
  · rfl
  · rfl
  · rfl
  · exact kept_tcpOutput ..

theorem drainEntries_eq (rs : List TcpReasm) : ∃ rcv nxt,
    (t.drainEntries rs).1 = { t with rcv := rcv, rcvNxt := nxt } := by
  induction rs generalizing t with
  | nil => exact ⟨t.rcv, t.rcvNxt, rfl⟩
  | cons e rs ih =>
      unfold drainEntries
      dsimp only
      split
      · exact ih t
      · split
        · exact ih (t.deliver (e.data.drop (t.rcvNxt - e.seq).toNat))
        · split
          · exact ih t
          · exact ih t

theorem drainPasses_eq (n : Nat) (t : Tcb ι) : ∃ rcv nxt rs,
    t.drainPasses n = { t with rcv := rcv, rcvNxt := nxt, reasm := rs } := by
  induction n generalizing t with
  | zero => exact ⟨t.rcv, t.rcvNxt, t.reasm, rfl⟩
  | succ n ih =>
      obtain ⟨rcv, nxt, h⟩ := t.drainEntries_eq t.reasm
      have hpass : t.drainPass.1 =
          { t with rcv := rcv, rcvNxt := nxt, reasm := (t.drainEntries t.reasm).2.1 } :=
        congrArg (fun k : Tcb ι => { k with reasm := (t.drainEntries t.reasm).2.1 }) h
      unfold drainPasses
      split
      · obtain ⟨rcv', nxt', rs', h'⟩ := ih t.drainPass.1
        exact ⟨rcv', nxt', rs', by rw [h', hpass]⟩
      · exact ⟨rcv, nxt, _, hpass⟩

theorem queueReasm_eq (seq : Seq) (data : List Byte) :
    ∃ rs, t.queueReasm seq data = { t with reasm := rs } := by
  unfold queueReasm
  split
  · exact ⟨t.reasm, rfl⟩
  · exact ⟨_, rfl⟩

theorem kept_segmentData : ∃ rcv nxt rs,
    (t.segmentData now s).kept = { t.kept with rcv := rcv, rcvNxt := nxt, reasm := rs } := by
  obtain ⟨rcv, nxt, rs, hd⟩ := drainPasses_eq _ (t.deliver s.data)
  obtain ⟨rs', hq⟩ := t.queueReasm_eq s.seq s.data
  fun_cases segmentData now t s
  · exact ⟨t.rcv, t.rcvNxt, t.reasm, rfl⟩
  · exact ⟨rcv, nxt, rs, congrArg kept hd⟩
  · exact ⟨rcv, nxt, rs, (kept_sendFlags ..).trans (congrArg kept hd)⟩
  · exact ⟨t.rcv, t.rcvNxt, rs', (kept_sendFlags ..).trans (congrArg kept hq)⟩
  · exact ⟨t.rcv, t.rcvNxt, t.reasm, kept_sendFlags ..⟩

def finState : TcpState → TcpState
  | .established => .closeWait
  | .finWait1 => .closing
  | .finWait2 => .timeWait
  | s => s

theorem kept_segmentFin :
    (t.segmentFin now s).kept =
      if hasFlag s.flags tcpFin && seqLe s.seq t.rcvNxt && seqGe s.last t.rcvNxt then
        { t.kept with state := finState t.state, rcvNxt := t.rcvNxt + 1, finRcvd := true }
      else t.kept := by
  unfold segmentFin
  split
  · let after (st : TcpState) : Kept ι :=
      { t.kept with state := st, rcvNxt := t.rcvNxt + 1, finRcvd := true }
    generalize htf : ({ t with finRcvd := true, rcvNxt := t.rcvNxt + 1 } : Tcb ι) = tf
    have hkept : (tf.sendFlags tcpAck tf.sndNxt).kept = after t.state := by
      rw [kept_sendFlags, ← htf]
      rfl
    have hset : ∀ st, ((tf.sendFlags tcpAck tf.sndNxt).setState st).kept = after st :=
      fun st => congrArg (fun k : Kept ι => { k with state := st }) hkept
    dsimp only
    rw [show (tf.sendFlags tcpAck tf.sndNxt).state = t.state from congrArg Kept.state hkept]
    -- the three states with a transition, then those without one
    cases ht : t.state <;> first | exact hset _ | exact hkept.trans (congrArg after ht)
  · rfl

theorem kept_segmentTail :
    ∃ st, (t.segmentTail now).kept = { t.kept with state := st } ∧
      (st = t.state ∨ t.state = .finWait1 ∧ st = (if t.finRcvd then .timeWait else .finWait2) ∨
        t.state = .closing ∧ st = .timeWait ∨ t.state = .lastAck ∧ st = .closed) := by
  fun_cases segmentTail now t
  · next h =>
      refine ⟨_, (kept_tcpOutput ..).trans ?_, .inr (.inl ⟨h.1, rfl⟩)⟩
      split <;> rfl
  · next h => exact ⟨_, kept_tcpOutput .., .inr (.inr (.inl ⟨h.1, rfl⟩))⟩
  · next h => exact ⟨_, rfl, .inr (.inr (.inr ⟨h.1, rfl⟩))⟩
  · exact ⟨_, kept_tcpOutput .., .inl rfl⟩

theorem kept_tcpShutdownWrite :
    ∃ st, (t.tcpShutdownWrite now).kept = { t.kept with state := st } ∧
      (st = t.state ∨ t.state = .established ∧ st = .finWait1 ∨
        t.state = .closeWait ∧ st = .lastAck) := by
  unfold tcpShutdownWrite
  split
  · exact ⟨t.state, rfl, .inl rfl⟩
  · dsimp only
    rw [kept_tcpOutput]
    split
    · next h => exact ⟨_, rfl, .inr (.inl ⟨h, rfl⟩)⟩
    · next h => exact ⟨_, rfl, .inr (.inr ⟨h, rfl⟩)⟩
    · exact ⟨_, rfl, .inl rfl⟩

def beforeTail (now : Nat) (t : Tcb ι) (s : Segment) : Tcb ι :=
  (((t.segmentAck now s).segmentWindow now s).segmentData now s).segmentFin now s

theorem beforeTail_kept : (t.beforeTail now s).lease = t.lease ∧
    ((t.beforeTail now s).state = t.state ∨ (t.beforeTail now s).state = finState t.state) := by
  obtain ⟨_, _, _, hdata⟩ := ((t.segmentAck now s).segmentWindow now s).kept_segmentData now s
  have hfin := kept_segmentFin now
    (((t.segmentAck now s).segmentWindow now s).segmentData now s) s
  rw [kept_segmentWindow, kept_segmentAck] at hdata
  have hlease : (((t.segmentAck now s).segmentWindow now s).segmentData now s).lease = t.lease :=
    (congrArg Kept.lease hdata).trans rfl
  have hstate : (((t.segmentAck now s).segmentWindow now s).segmentData now s).state = t.state :=
    congrArg Kept.state hdata
  split at hfin
  · exact ⟨(congrArg Kept.lease hfin).trans hlease,
      .inr ((congrArg Kept.state hfin).trans (congrArg finState hstate))⟩
  · exact ⟨(congrArg Kept.lease hfin).trans hlease, .inl ((congrArg Kept.state hfin).trans hstate)⟩

theorem segmentSync_closed (h : t.state = .closed) :
    (t.segmentSync now s).state = .closed := by
  have hclosed : (t.beforeTail now s).state = .closed := by
    have hst := (t.beforeTail_kept now s).2
    rw [h] at hst
    exact hst.elim id id
  obtain ⟨st, hk, hst⟩ := (t.beforeTail now s).kept_segmentTail now
  rw [hclosed] at hst
  refine (congrArg Kept.state hk).trans ?_
  rcases hst with rfl | ⟨h, _⟩ | ⟨h, _⟩ | ⟨_, rfl⟩
  · rfl
  · cases h
  · cases h
  · rfl

theorem kept_timerRetransmit : (t.timerRetransmit now).kept = t.kept := by
  fun_cases timerRetransmit now t
  · exact kept_sendFlags ..
  · exact kept_sendFlags ..
  · exact kept_retransmit ..

theorem kept_timerDelack : (t.timerDelack now).kept = t.kept := by
  unfold timerDelack
  split
  · exact kept_sendFlags ..
  · rfl

theorem kept_timerPersist : (t.timerPersist now).kept = t.kept := by
  fun_cases timerPersist now t
  · exact kept_txQueue ..
  · exact kept_sendFlags ..
  · rfl

theorem kept_timerDeadlines :
    ∃ st, (t.timerDeadlines now).kept = { t.kept with state := st } ∧
      (st = t.state ∨ st = .closed) := by
  fun_cases timerDeadlines now t
  · exact ⟨_, rfl, .inr rfl⟩
  · exact ⟨_, rfl, .inr rfl⟩
  · rw [kept_timerPersist, kept_timerDelack, kept_timerRetransmit]
    exact ⟨_, rfl, .inl rfl⟩
  · rw [kept_timerPersist, kept_timerDelack]
    exact ⟨_, rfl, .inl rfl⟩

theorem lease_segmentSync : (t.segmentSync now s).lease = t.lease := by
  obtain ⟨_, htail, _⟩ := (t.beforeTail now s).kept_segmentTail now
  exact (congrArg Kept.lease htail).trans (t.beforeTail_kept now s).1

theorem lease_segmentSynSent :
    (t.segmentSynSent now s).lease = t.lease := by
  fun_cases segmentSynSent now t s
  · rfl
  · next t' _ _ tr =>
      refine (congrArg Kept.lease (kept_sendFlags ..)).trans ?_
      refine Eq.trans ?_ ((congrArg Kept.lease (t'.kept_takeMss s)).trans rfl)
      dsimp only [tr]
      split <;> rfl
  · exact (congrArg Kept.lease (kept_sendFlags ..)).trans rfl
  · rfl

theorem lease_tcpReset : t.tcpReset.lease = t.lease := by
  rfl

theorem lease_openPassive (now : Nat) (rand : Seq) (t : Tcb ι) (l : ι) (localN remoteN : BitVec 32)
    (lportN rportN : BitVec 16) (s : Segment) :
    (t.openPassive now rand l localN remoteN lportN rportN s).lease = t.lease := by
  unfold openPassive
  refine (congrArg Kept.lease (kept_sendFlags ..)).trans ?_
  exact (congrArg Kept.lease (kept_takeMss ..)).trans rfl

theorem lease_tcpConnect (now : Nat) (dev : Option (BitVec 32)) (rand : Seq) (t : Tcb ι)
    (dstN : BitVec 32) (dportN : BitVec 16) :
    (t.tcpConnect now dev rand dstN dportN).1.lease = t.lease := by
  fun_cases tcpConnect now dev rand t dstN dportN
  · rfl
  · rfl
  · exact (congrArg Kept.lease (kept_sendFlags ..)).trans rfl

theorem lease_tcpListen (backlog : Int) : (t.tcpListen backlog).1.lease = t.lease := by
  unfold tcpListen
  split <;> rfl

theorem lease_tcpRecv (len : Nat) (peek : Bool) :
    (t.tcpRecv len peek).1.lease = t.lease := by
  unfold tcpRecv
  dsimp only
  split_ifs
  · rfl
  · rfl
  · exact (congrArg Kept.lease (kept_sendFlags ..)).trans rfl
  all_goals rfl

theorem lease_tcpShutdownWrite :
    (t.tcpShutdownWrite now).lease = t.lease := by
  obtain ⟨st, hk, _⟩ := t.kept_tcpShutdownWrite now
  exact (congrArg Kept.lease hk).trans rfl

theorem lease_timerDeadlines :
    (t.timerDeadlines now).lease = t.lease := by
  obtain ⟨st, hk, _⟩ := t.kept_timerDeadlines now
  exact (congrArg Kept.lease hk).trans rfl

theorem timerDeadlines_closed (h : t.state = .closed) :
    (t.timerDeadlines now).state = .closed := by
  obtain ⟨st, hk, hst⟩ := t.kept_timerDeadlines now
  have hstate : (t.timerDeadlines now).state = st := congrArg Kept.state hk
  rw [h] at hst
  exact hstate.trans (hst.elim id id)

theorem tcpShutdownWrite_closed (h : t.state = .closed) :
    (t.tcpShutdownWrite now).state = .closed := by
  obtain ⟨st, hk, hst⟩ := t.kept_tcpShutdownWrite now
  have hstate : (t.tcpShutdownWrite now).state = st := congrArg Kept.state hk
  rw [h] at hst
  rcases hst with hst | ⟨hst, _⟩ | ⟨hst, _⟩
  · exact hstate.trans hst
  · cases hst
  · cases hst

end Tcb

section Table

variable [DecidableEq ι]

theorem lease_update (conns : Conns ι) {i : ι} {t : Tcb ι} (h : t.lease = (conns i).lease)
    (j : ι) : (update conns i t j).lease = (conns j).lease := by
  by_cases hj : j = i
  · rw [hj, update_self, h]
  · rw [update_of_ne hj]

theorem joinBacklog_lease (conns : Conns ι) (i : ι) (s : Segment) (j : ι) :
    ((joinBacklog conns i s).1 j).lease = (conns j).lease ∨
      ((joinBacklog conns i s).1 j).lease =
        { (conns j).lease with acceptQ := (conns j).acceptQ ++ [i] } := by
  fun_cases joinBacklog conns i s
  · exact .inl rfl
  · next p _ _ =>
      dsimp only
      by_cases hj : j = p
      · refine .inr ?_
        rw [hj, update_self]
        rfl
      · refine .inl ?_
        rw [update_of_ne hj]
  · refine .inl (lease_update conns ?_ j)
    exact (congrArg Kept.lease (Tcb.kept_txQueue ..)).trans rfl

/-- A segment leaves all leases alone, but for a passive open that joins the accept
queue of its listener. -/
theorem tcpSegment_lease (now : Nat) (conns : Conns ι) (i : ι) (s : Segment) (j : ι) :
    (tcpSegment now conns i s j).lease = (conns j).lease ∨
      (conns i).state = .synReceived ∧ (tcpSegment now conns i s j).lease =
        { (conns j).lease with acceptQ := (conns j).acceptQ ++ [i] } := by
  have hest := lease_update conns (t := (conns i).establish s) rfl j
  have hjoin := joinBacklog_lease (update conns i ((conns i).establish s)) i s j
  rw [hest, show (update conns i ((conns i).establish s) j).acceptQ = (conns j).acceptQ from
    congrArg Lease.acceptQ hest] at hjoin
  fun_cases tcpSegment now conns i s
  · exact .inl (lease_update conns (Tcb.lease_tcpReset ..) j)
  · exact .inl (lease_update conns (Tcb.lease_segmentSynSent ..) j)
  · exact .inl (lease_update conns (congrArg Kept.lease (Tcb.kept_sendFlags ..)) j)
  · exact .inl rfl
  · next hst _ res _ =>
      rw [lease_update _ (Tcb.lease_segmentSync ..)]
      exact hjoin.imp id fun h => ⟨hst, h⟩
  · next hst _ res _ => exact hjoin.imp id fun h => ⟨hst, h⟩
  · exact .inl (lease_update conns (congrArg Kept.lease (Tcb.kept_txQueue ..)) j)
  · exact .inl (lease_update conns (Tcb.lease_segmentSync ..) j)

/-- What `tcp_segment` comes to for a connection past the handshake. -/
theorem tcpSegment_synced (now : Nat) (conns : Conns ι) (i : ι) (s : Segment)
    (h : 0 < (conns i).state.phase) :
    tcpSegment now conns i s = update conns i (
      if hasFlag s.flags tcpRst then (conns i).tcpReset
      else if (conns i).acceptable s = false then (conns i).sendFlags tcpAck (conns i).sndNxt
      else if hasFlag s.flags tcpAck = false then conns i
      else (conns i).segmentSync now s) := by
  have hsent : (conns i).state ≠ .synSent := fun he => by rw [he] at h; cases h
  have hrcvd : (conns i).state ≠ .synReceived := fun he => by rw [he] at h; cases h
  have hlisten : (conns i).state ≠ .listen := fun he => by rw [he] at h; cases h
  unfold tcpSegment
  dsimp only
  rw [if_neg hsent, if_neg hrcvd]
  split_ifs <;> simp_all

theorem state_joinBacklog (conns : Conns ι) {i j : ι} (s : Segment) (hj : j ≠ i) :
    ((joinBacklog conns i s).1 j).state = (conns j).state := by
  fun_cases joinBacklog conns i s
  · rfl
  · next p _ _ =>
      dsimp only
      by_cases hp : j = p
      · rw [hp, update_self]
      · rw [update_of_ne hp]
  · exact congrArg Tcb.state (update_of_ne hj ..)

theorem state_tcpSegment (now : Nat) (conns : Conns ι) {i j : ι} (s : Segment) (hj : j ≠ i) :
    (tcpSegment now conns i s j).state = (conns j).state := by
  have hjoin := state_joinBacklog (update conns i ((conns i).establish s)) s hj
  rw [update_of_ne hj] at hjoin
  fun_cases tcpSegment now conns i s
  · rw [update_of_ne hj]
  · rw [update_of_ne hj]
  · rw [update_of_ne hj]
  · rfl
  · rw [update_of_ne hj]
    exact hjoin
  · exact hjoin
  · rw [update_of_ne hj]
  · rw [update_of_ne hj]

theorem tcpSegment_closed (now : Nat) (conns : Conns ι) (i : ι) (s : Segment) {j : ι}
    (h : (conns j).state = .closed) : (tcpSegment now conns i s j).state = .closed := by
  by_cases hj : j = i
  · subst hj
    rw [tcpSegment_synced now conns j s (by rw [h]; exact Nat.two_pos), update_self]
    split_ifs
    · rfl
    · exact (Tcb.state_sendFlags ..).trans h
    · exact h
    · exact Tcb.segmentSync_closed now _ s h
  · exact (state_tcpSegment now conns s hj).trans h

end Table

end NeoKernel.Net
