import NeoKernel.Net.Conn

/-!
# Segments at the edge of the receive window
-/
namespace NeoKernel.Net
open Lib Function List

variable {ι : Type} {t : Tcb ι} {s : Segment}

structure Gained (k k' : Kept ι) (new : List Byte) : Prop where
  stored : k'.rcv.contents tcpRcvbuf = k.rcv.contents tcpRcvbuf ++ new
  nxt : k'.rcvNxt = k.rcvNxt + BitVec.ofNat 32 new.length
  room : k'.rcv.len ≤ tcpRcvbuf

theorem Gained.refl {k : Kept ι} (h : k.rcv.len ≤ tcpRcvbuf) : Gained k k [] :=
  ⟨(append_nil _).symm, (BitVec.add_zero _).symm, h⟩

theorem Gained.trans {k k' k'' : Kept ι} {new new' : List Byte} (h : Gained k k' new)
    (h' : Gained k' k'' new') : Gained k k'' (new ++ new') := by
  refine ⟨?_, ?_, h'.room⟩
  · rw [h'.stored, h.stored, append_assoc]
  · rw [h'.nxt, h.nxt, length_append, BitVec.ofNat_add, BitVec.add_assoc]

theorem Gained.deliver (h : t.rcv.len ≤ tcpRcvbuf) (data : List Byte) :
    Gained t.kept (t.deliver data).kept (data.take (tcpRcvbuf - t.rcv.len)) := by
  have hfit : t.rcv.len + (data.take (tcpRcvbuf - t.rcv.len)).length ≤ tcpRcvbuf := by
    rw [length_take]
    omega
  exact ⟨RingBuf.contents_push _ _ hfit, rfl, hfit⟩

theorem Gained.drainEntries (h : t.rcv.len ≤ tcpRcvbuf) (rs : List TcpReasm) :
    ∃ new, Gained t.kept (t.drainEntries rs).1.kept new := by
  induction rs generalizing t with
  | nil => exact ⟨[], .refl h⟩
  | cons e rs ih =>
      have hnow := Gained.deliver h (e.data.drop (t.rcvNxt - e.seq).toNat)
      obtain ⟨new, hlater⟩ := ih hnow.room
      unfold Tcb.drainEntries
      dsimp only
      split_ifs
      · exact ih h
      · exact ⟨_, hnow.trans hlater⟩
      · exact ih h
      · exact ih h

theorem Gained.drainPasses (h : t.rcv.len ≤ tcpRcvbuf) (n : Nat) :
    ∃ new, Gained t.kept (t.drainPasses n).kept new := by
  induction n generalizing t with
  | zero => exact ⟨[], .refl h⟩
  | succ n ih =>
      obtain ⟨new, hpass⟩ := Gained.drainEntries h t.reasm
      have hpass : Gained t.kept t.drainPass.1.kept new := { hpass with }
      unfold Tcb.drainPasses
      split
      · obtain ⟨new', hlater⟩ := ih hpass.room
        exact ⟨_, hpass.trans hlater⟩
      · exact ⟨new, hpass⟩

theorem Gained.segmentData (now : Nat) (h : t.kept.rcv.len ≤ tcpRcvbuf) (hne : s.data ≠ [])
    (hseq : s.seq = t.kept.rcvNxt) : ∃ more, Gained t.kept (t.segmentData now s).kept
      (s.data.take (tcpRcvbuf - t.kept.rcv.len) ++ more) := by
  have hnow := Gained.deliver h s.data
  obtain ⟨more, hdrain⟩ := Gained.drainPasses hnow.room ((t.deliver s.data).reasm.length + 1)
  refine ⟨more, ?_⟩
  change s.seq = t.rcvNxt at hseq
  unfold Tcb.segmentData
  rw [if_neg (by simpa using hne), if_pos hseq]
  dsimp only
  split
  · exact hnow.trans hdrain
  · rw [Tcb.kept_sendFlags]
    exact hnow.trans hdrain

theorem rcv_segmentData_of_ne (now : Nat) (hseq : s.seq ≠ t.rcvNxt) :
    (t.segmentData now s).kept.rcv = t.kept.rcv := by
  obtain ⟨rs, hq⟩ := t.queueReasm_eq s.seq s.data
  unfold Tcb.segmentData
  rw [if_neg hseq]
  split_ifs
  · rfl
  · rw [Tcb.kept_sendFlags, hq]
    rfl
  · rw [Tcb.kept_sendFlags]

theorem rcv_segmentSync (now : Nat) (t : Tcb ι) (s : Segment) : (t.segmentSync now s).rcv =
    (((t.segmentAck now s).segmentWindow now s).segmentData now s).kept.rcv := by
  obtain ⟨st, htail, -⟩ := (t.beforeTail now s).kept_segmentTail now
  have hfin := Tcb.kept_segmentFin now
    (((t.segmentAck now s).segmentWindow now s).segmentData now s) s
  have hrcv : (t.segmentSync now s).rcv = (t.beforeTail now s).rcv := congrArg Kept.rcv htail
  rw [hrcv]
  split at hfin
  · exact congrArg Kept.rcv hfin
  · exact congrArg Kept.rcv hfin

/-- The segment's bytes from `rcv_nxt` on are taken in as far as there is room, at least one, with
what the reassembly queue holds behind them; `rcv_nxt` is past them and at most one FIN. -/
def Delivers (t t' : Tcb ι) (s : Segment) : Prop :=
  ∃ new more fin,
    new = (s.data.drop (t.rcvNxt - s.seq).toNat).take (tcpRcvbuf - t.rcv.len) ∧ 0 < new.length ∧
    fin ≤ 1 ∧ t'.rcv.contents tcpRcvbuf = t.rcv.contents tcpRcvbuf ++ (new ++ more) ∧
    t'.rcvNxt = t.rcvNxt + BitVec.ofNat 32 ((new ++ more).length + fin)

theorem Delivers.rcv_ne {t' : Tcb ι} (h : Delivers t t' s) : t'.rcv ≠ t.rcv := by
  obtain ⟨new, more, fin, -, hpos, -, hstored, -⟩ := h
  intro heq
  rw [heq, self_eq_append_right, append_eq_nil_iff] at hstored
  exact absurd hstored.1 (ne_nil_of_length_pos hpos)

theorem delivers_segmentSync (now : Nat) (hroom : t.rcv.len < tcpRcvbuf) (hdata : s.data ≠ [])
    (hseq : s.seq = t.rcvNxt) : Delivers t (t.segmentSync now s) s := by
  have hkept : ((t.segmentAck now s).segmentWindow now s).kept = t.kept := by
    rw [Tcb.kept_segmentWindow, Tcb.kept_segmentAck]
  obtain ⟨more, hgain⟩ := Gained.segmentData (t := (t.segmentAck now s).segmentWindow now s) now
    (by rw [hkept]; exact hroom.le) hdata (by rw [hkept]; exact hseq)
  rw [hkept] at hgain
  have hnew : s.data.take (tcpRcvbuf - t.rcv.len) =
      (s.data.drop (t.rcvNxt - s.seq).toNat).take (tcpRcvbuf - t.rcv.len) := by
    rw [hseq, BitVec.sub_self]
    rfl
  have hpos : 0 < (s.data.take (tcpRcvbuf - t.rcv.len)).length := by
    rw [length_take]
    have := length_pos_of_ne_nil hdata
    omega
  have hstored := (congrArg (·.contents tcpRcvbuf) (rcv_segmentSync now t s)).trans hgain.stored
  obtain ⟨st, htail, -⟩ := (t.beforeTail now s).kept_segmentTail now
  have hnxt : (t.segmentSync now s).rcvNxt = (t.beforeTail now s).rcvNxt :=
    congrArg Kept.rcvNxt htail
  have hfin := Tcb.kept_segmentFin now
    (((t.segmentAck now s).segmentWindow now s).segmentData now s) s
  split at hfin
  · refine ⟨_, more, 1, hnew, hpos, le_rfl, hstored,
      hnxt.trans ((congrArg Kept.rcvNxt hfin).trans ?_)⟩
    change Kept.rcvNxt (Tcb.kept _) + BitVec.ofNat 32 1 = _
    rw [hgain.nxt, BitVec.ofNat_add, BitVec.add_assoc]
    rfl
  · exact ⟨_, more, 0, hnew, hpos, Nat.zero_le _, hstored,
      hnxt.trans ((congrArg Kept.rcvNxt hfin).trans hgain.nxt)⟩

/-- The segment has no number in the receive window; an empty one stands for its own. -/
def Outside (t : Tcb ι) (s : Segment) : Prop :=
  ∀ k < max 1 s.data.length, ¬ (seqAt s.seq k - t.rcvNxt).toNat < t.rcvWnd

theorem Outside.unacceptable (h : Outside t s) (hwnd : t.rcvWnd = tcpRcvbuf)
    (hlen : s.data.length < 2 ^ 16) : t.acceptable s = false := by
  have hstart : (seqGe s.seq t.rcvNxt &&
      seqLt s.seq (seqAt t.rcvNxt tcpRcvbuf)) = false := by
    by_contra hin
    rw [Bool.not_eq_false, Bool.and_eq_true, ← seqAt_zero t.rcvNxt] at hin
    obtain ⟨p, -, hp, hseq⟩ := exists_seqAt (of_decide_eq_true hin.1)
    have h0 := h 0 (by omega)
    have hlt := hin.2
    unfold tcpRcvbuf at hwnd hlt
    rw [seqAt_zero, hwnd, ← seqAt_zero t.rcvNxt, hseq, toNat_seqAt_sub (by omega) (by omega)] at h0
    rw [seqAt_zero, hseq, seqLt_seqAt (by omega) (by omega)] at hlt
    omega
  have hover : (seqLt s.seq t.rcvNxt && seqGt s.last t.rcvNxt) = false := by
    by_contra hin
    rw [Bool.not_eq_false, Bool.and_eq_true] at hin
    have hneg := of_decide_eq_true hin.1
    rw [BitVec.toInt_neg_iff] at hneg
    have hk : (t.rcvNxt - s.seq).toNat ≤ 2 ^ 31 := by
      rw [show t.rcvNxt - s.seq = -(s.seq - t.rcvNxt) by grind, BitVec.toNat_neg]
      omega
    have hnxt := seqAt_toNat_sub s.seq t.rcvNxt
    have hlast := hin.2
    rw [← hnxt, show s.last = seqAt s.seq s.data.length from rfl,
      seqGt_seqAt (by omega) (by omega)] at hlast
    have hpos := h _ (lt_max_of_lt_right hlast)
    rw [hnxt, hwnd, BitVec.sub_self] at hpos
    exact hpos (by decide)
  have hpos : tcpRcvbuf ≠ 0 := by decide
  unfold Tcb.acceptable
  rw [hwnd]
  simp only [hpos, if_false]
  split
  · exact hstart
  · rw [Bool.or_eq_false_iff]
    exact ⟨hstart, hover⟩

/-- A segment from outside the window changes nothing but for one ACK that is staged, exactly if
it is no reset. -/
theorem blind_segment_only_acked {i : Slot} {conns : Conns Slot} (now : Nat)
    (hr : (connSystem i).Reach (fun _ _ => True) conns) (hsync : 0 < (conns i).state.phase)
    (hopen : (conns i).state ≠ .closed) (hout : Outside (conns i) s)
    (hlen : s.data.length < 2 ^ 16) : (∃ q : List TcpTxseg, q.length ≤ 1 ∧
      (∀ e ∈ q, e.flags = tcpAck ∧ e.data = []) ∧
      tcpSegment now conns i s = update conns i { conns i with txq := (conns i).txq ++ q }) ↔
    hasFlag s.flags tcpRst = false := by
  have hacc := hout.unacceptable (rcvWnd_of_reach hr) hlen
  rw [tcpSegment_synced now conns i s hsync]
  constructor
  · rintro ⟨q, -, -, heq⟩
    by_contra hrst
    rw [if_pos (by simpa using hrst)] at heq
    have hstate := congrArg Tcb.state (congrFun heq i)
    rw [update_self, update_self] at hstate
    exact hopen hstate.symm
  · intro hrst
    rw [if_neg (by rw [hrst]; decide), if_pos hacc]
    unfold Tcb.sendFlags Tcb.txQueue
    split
    · refine ⟨[], Nat.zero_le _, nofun, ?_⟩
      rw [append_nil]
    · refine ⟨_, le_rfl, ?_, rfl⟩
      rintro e (_ | ⟨_, ⟨⟩⟩)
      exact ⟨rfl, rfl⟩

/-- An active open whose SYN the peer, with initial sequence number 100, has answered. -/
def openedRun : List (Nat × ConnOp) :=
  [(1, .segment ⟨100, 6, tcpSyn ||| tcpAck, 1000, [], []⟩)]

instance (t : Tcb ι) (s : Segment) : Decidable (Outside t s) := Nat.decidableBallLT ..

theorem blind_segment_only_acked_opened : ∃ conns,
    (connSystem 0).Reach (fun _ _ => True) conns ∧ ∃ q : List TcpTxseg, q.length ≤ 1 ∧
      tcpSegment 2 conns 0 ⟨40101, 6, tcpAck, 0, [], []⟩ =
        update conns 0 { conns 0 with txq := (conns 0).txq ++ q } := by
  refine System.Reach.exists_of_run_imp
    (s := fun _ => (Tcb.zero.alloc.tcpConnect 0 (some 1) 5 2 80).1) openedRun (.active ..)
    (by decide +kernel) fun conns hr (h : (0 < (conns 0).state.phase ∧ (conns 0).state ≠ .closed) ∧
      Outside (conns 0) ⟨40101, 6, tcpAck, 0, [], []⟩) => ?_
  obtain ⟨q, hq, -, heq⟩ := (blind_segment_only_acked 2 hr h.1.1 h.1.2 h.2 (by decide)).2 rfl
  exact ⟨q, hq, heq⟩

/-- A reset is taken whatever its number: it closes the connection from outside the window. -/
theorem blind_reset_closes : ∃ conns, (connSystem 0).Reach (fun _ _ => True) conns ∧
    (conns 0).state = .established ∧ Outside (conns 0) ⟨40101, 0, tcpRst, 0, [], []⟩ ∧
    (tcpSegment 2 conns 0 ⟨40101, 0, tcpRst, 0, [], []⟩ 0).state = .closed :=
  System.Reach.exists_of_run (s := fun _ => (Tcb.zero.alloc.tcpConnect 0 (some 1) 5 2 80).1)
    openedRun (.active ..) (by decide +kernel)

end NeoKernel.Net
