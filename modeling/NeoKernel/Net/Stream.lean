import NeoKernel.Net.Receive

/-!
# Integrity of the receive stream

The runs of one connection that has been established: segments that carry slices of
the peer's stream, `tcp_recv` calls of any sizes, sends and a shutdown of the local
side.
-/
namespace NeoKernel.Net
open Lib Function List

variable {ι : Type} {stream returned : List Byte} {base : Seq} {off r : Nat} {t : Tcb ι}
  {s : Segment}

/-- The states of a synchronised connection, split by whether the FIN has come. -/
def Synced : TcpState → Bool → Prop
  | .established, fin | .finWait1, fin | .finWait2, fin => fin = false
  | .closeWait, fin | .closing, fin | .lastAck, fin | .timeWait, fin | .closed, fin => fin = true
  | .listen, _ | .synSent, _ | .synReceived, _ => False

structure Receiving (stream returned : List Byte) (base : Seq) (k : Kept ι) (r : Nat) : Prop where
  origin : base = k.irs + 1
  stored : returned ++ k.rcv.contents tcpRcvbuf = stream.take r
  le : r ≤ stream.length
  room : k.rcv.len ≤ tcpRcvbuf
  nxt : k.rcvNxt = seqAt base (r + k.finRcvd.toNat)
  fin : k.finRcvd = true → r = stream.length
  wnd : k.rcvWnd = tcpRcvbuf
  queued : ∀ e ∈ k.reasm, Queued stream base r e
  noReset : k.reset = false
  noShut : k.shutRd = false
  synced : Synced k.state k.finRcvd

theorem Receiving.core {k : Kept ι} (h : Receiving stream returned base k r)
    (hfin : k.finRcvd = false) : Core stream returned base k r := by
  refine ⟨h.stored, h.le, h.room, ?_⟩
  rw [h.nxt, hfin]
  rfl

/-- The segment carries the bytes of the stream at `off`, and a FIN only at its end. -/
structure Carries (stream : List Byte) (base : Seq) (off : Nat) (s : Segment) : Prop where
  seq : s.seq = seqAt base off
  data : s.data <+: stream.drop off
  inside : off + s.data.length ≤ stream.length
  last : hasFlag s.flags tcpFin = true → off + s.data.length = stream.length
  noRst : hasFlag s.flags tcpRst = false
  noSyn : hasFlag s.flags tcpSyn = false
  fits : s.data.length < 2 ^ 16

/-- The position is more than a segment short of half the sequence space away. -/
def Near (off r : Nat) : Prop := off + 2 ^ 16 ≤ r + 2 ^ 31 ∧ r + 2 ^ 16 ≤ off + 2 ^ 31

/-- A FIN segment that reaches the receive point does not overlap it, and fits into the
receive ring if it starts there. -/
def FinFits (t : Tcb ι) (r off : Nat) (s : Segment) : Prop :=
  hasFlag s.flags tcpFin = true →
    (off < r → off + s.data.length ≤ r) ∧ (off = r → s.data.length ≤ tcpRcvbuf - t.rcv.len)

theorem Carries.last_eq (hs : Carries stream base off s) :
    s.last = seqAt base (off + s.data.length) := by
  rw [Segment.last, hs.seq, seqAt_add]

theorem acceptable_iff {p : Nat} (hs : Carries stream base off s) (hwnd : t.rcvWnd = tcpRcvbuf)
    (hnxt : t.rcvNxt = seqAt base p) (h1 : off + 2 ^ 16 ≤ p + 2 ^ 31)
    (h2 : p + 2 ^ 15 ≤ off + 2 ^ 31) :
    t.acceptable s = true ↔
      (p ≤ off ∧ off < p + tcpRcvbuf) ∨ (off < p ∧ p < off + s.data.length) := by
  have hfits := hs.fits
  have hge : seqGe s.seq t.rcvNxt = true ↔ p ≤ off := by
    rw [hs.seq, hnxt]
    exact seqGe_seqAt (by omega) (by omega)
  have hlt : seqLt s.seq t.rcvNxt = true ↔ off < p := by
    rw [hs.seq, hnxt]
    exact seqLt_seqAt (by omega) (by omega)
  have hwin : seqLt s.seq (t.rcvNxt + BitVec.ofNat 32 tcpRcvbuf) = true ↔ off < p + tcpRcvbuf := by
    rw [hs.seq, hnxt, seqAt_add]
    unfold tcpRcvbuf
    exact seqLt_seqAt (by omega) (by omega)
  have hlast : seqGt s.last t.rcvNxt = true ↔ p < off + s.data.length := by
    rw [hs.last_eq, hnxt]
    exact seqGt_seqAt (by omega) (by omega)
  have hpos : tcpRcvbuf ≠ 0 := by decide
  unfold Tcb.acceptable
  rw [hwnd]
  simp only [hpos, if_false]
  split
  · next hempty =>
      rw [Bool.and_eq_true, hge, hwin, hempty]
      omega
  · rw [Bool.or_eq_true, Bool.and_eq_true, Bool.and_eq_true, hge, hwin, hlt, hlast]

/-- An acceptable segment finds the FIN outstanding, and starts inside the window. -/
theorem Receiving.of_acceptable (h : Receiving stream returned base t.kept r)
    (hs : Carries stream base off s) (hnear : Near off r) (hacc : t.acceptable s = true) :
    t.finRcvd = false ∧ off < r + tcpRcvbuf := by
  obtain ⟨h1, h2⟩ := hnear
  have hinside := hs.inside
  have hfin : t.finRcvd = true → r = stream.length := h.fin
  have hbit : t.finRcvd.toNat ≤ 1 := Bool.toNat_le _
  have hpos := (acceptable_iff hs h.wnd h.nxt (by change _ ≤ r + t.finRcvd.toNat + _; omega)
    (by change r + t.finRcvd.toNat + _ ≤ _; omega)).mp hacc
  change (r + t.finRcvd.toNat ≤ off ∧ off < r + t.finRcvd.toNat + _) ∨
    (off < r + t.finRcvd.toNat ∧ r + t.finRcvd.toNat < _) at hpos
  cases hf : t.finRcvd with
  | false =>
      rw [hf, Bool.toNat_false] at hpos
      exact ⟨rfl, by omega⟩
  | true =>
      have := hfin hf
      rw [hf, Bool.toNat_true] at hpos
      omega

theorem mem_fillEntry {e e' : TcpReasm} {rs : List TcpReasm} (h : e' ∈ Tcb.fillEntry e rs) :
    e' = e ∨ e' ∈ rs := by
  induction rs with
  | nil => cases h
  | cons r rs ih =>
      unfold Tcb.fillEntry at h
      split at h
      · rcases mem_cons.1 h with rfl | h
        · exact .inr mem_cons_self
        · exact (ih h).imp id (mem_cons_of_mem r)
      · rcases mem_cons.1 h with rfl | h
        · exact .inl rfl
        · exact .inr (mem_cons_of_mem r h)

theorem queueReasm_queued (hq : ∀ e ∈ t.reasm, Queued stream base r e)
    (hs : Carries stream base off s) (hne : s.data ≠ []) (hgt : r < off)
    (hwin : off < r + tcpRcvbuf) :
    ∀ e ∈ (t.queueReasm s.seq s.data).reasm, Queued stream base r e := by
  have hnew : Queued stream base r ⟨s.seq, true, s.data.take tcpReasmMax⟩ := by
    intro _
    refine ⟨off, hgt, hwin, hs.seq, (List.take_prefix _ _).trans hs.data, ?_, ?_⟩
    · simpa [take_eq_nil_iff, tcpReasmMax] using hne
    · exact length_take_le _ _
  unfold Tcb.queueReasm
  split
  · exact hq
  · intro e he
    rcases mem_fillEntry he with rfl | he
    · exact hnew
    · exact hq e he

/-- The data section moves the receive point only for a segment that starts there, and
then past the whole segment if the ring has room for it. -/
theorem segmentData_core (now : Nat) (hc : Core stream returned base t.kept r)
    (hq : ∀ e ∈ t.reasm, Queued stream base r e) (hs : Carries stream base off s)
    (hnear : Near off r) (hwin : off < r + tcpRcvbuf) :
    ∃ r', r ≤ r' ∧ Core stream returned base (t.segmentData now s).kept r' ∧
      (∀ e ∈ (t.segmentData now s).kept.reasm, Queued stream base r' e) ∧
      (off ≠ r → r' = r) ∧
      (off = r → s.data.length ≤ tcpRcvbuf - t.rcv.len → r + s.data.length ≤ r') := by
  obtain ⟨h1, h2⟩ := hnear
  have hnxt : t.rcvNxt = seqAt base r := hc.nxt
  have hcount : returned.length + t.rcv.len = r := returned_length hc.stored hc.le
  unfold Tcb.segmentData
  split
  · next hempty => exact ⟨r, le_rfl, hc, hq, fun _ => rfl, fun _ _ => by omega⟩
  · next hlen =>
      have hne : s.data ≠ [] := fun h => hlen (by rw [h]; rfl)
      split
      · next hseq =>
          have hoff : off = r := by
            rw [hs.seq, hnxt] at hseq
            exact seqAt_inj hseq (by omega) (by omega)
          subst hoff
          obtain ⟨r', hr', hc', hq'⟩ := drainReasm_settled (hc.deliver hs.data)
            (Nat.le_add_right off _) (by omega) hq
          refine ⟨r', by omega, ?_, ?_, fun h => absurd rfl h, fun _ hroom => by omega⟩
          · dsimp only
            split
            · exact hc'
            · rw [Tcb.kept_sendFlags]
              exact hc'
          · dsimp only
            split
            · exact hq'
            · rw [Tcb.kept_sendFlags]
              exact hq'
      · next hseq =>
          have hoff : off ≠ r := by
            rintro rfl
            exact hseq (hs.seq.trans hnxt.symm)
          split
          · next hgt =>
              rw [hs.seq, hnxt, seqGt_seqAt (by omega) (by omega)] at hgt
              obtain ⟨rs, hrs⟩ := t.queueReasm_eq s.seq s.data
              have hq' := queueReasm_queued hq hs hne hgt hwin
              refine ⟨r, le_rfl, ?_, ?_, fun _ => rfl, fun h => absurd h hoff⟩
              · rw [Tcb.kept_sendFlags, hrs]
                exact { hc with }
              · rw [Tcb.kept_sendFlags]
                exact hq'
          · refine ⟨r, le_rfl, ?_, ?_, fun _ => rfl, fun h => absurd h hoff⟩
            · rw [Tcb.kept_sendFlags]
              exact hc
            · rw [Tcb.kept_sendFlags]
              exact hq

theorem Receiving.tail (now : Nat) (h : Receiving stream returned base t.kept r) :
    Receiving stream returned base (t.segmentTail now).kept r := by
  obtain ⟨st, hkept, hst⟩ := t.kept_segmentTail now
  have hsync : Synced t.state t.finRcvd := h.synced
  rw [hkept]
  refine { h with synced := ?_ }
  change Synced st t.finRcvd
  rcases hst with rfl | ⟨hs, rfl⟩ | ⟨hs, rfl⟩ | ⟨hs, rfl⟩
  · exact hsync
  · rw [hs] at hsync
    rw [show t.finRcvd = false from hsync]
    rfl
  · rw [hs] at hsync
    exact hsync
  · rw [hs] at hsync
    exact hsync

theorem Receiving.data (now : Nat) (h : Receiving stream returned base t.kept r)
    (hfin : t.finRcvd = false) (hs : Carries stream base off s) (hnear : Near off r)
    (hwin : off < r + tcpRcvbuf) :
    ∃ r', Receiving stream returned base (t.segmentData now s).kept r' ∧
      (t.segmentData now s).finRcvd = false ∧ r ≤ r' ∧ r' ≤ r + tcpRcvbuf ∧
      (off ≠ r → r' = r) ∧
      (off = r → s.data.length ≤ tcpRcvbuf - t.rcv.len → r + s.data.length ≤ r') := by
  obtain ⟨r', hr', hc, hq, hstay, hmove⟩ :=
    segmentData_core now (h.core hfin) h.queued hs hnear hwin
  obtain ⟨rcv, nxt, rs, hkept⟩ := t.kept_segmentData now s
  have hcount := returned_length h.stored h.le
  have hcount' := returned_length hc.stored hc.le
  have hroom := hc.room
  refine ⟨r', ?_, ?_, hr', by omega, hstay, hmove⟩
  · rw [hkept] at hc hq ⊢
    refine { hc, h with nxt := ?_, fin := ?_, queued := hq }
    · rw [hc.nxt]
      change _ = seqAt base (r' + t.finRcvd.toNat)
      rw [hfin]
      rfl
    · intro hf
      exact absurd (hfin.symm.trans hf) (by decide)
  · exact (congrArg Kept.finRcvd hkept).trans hfin

theorem Synced.finState {st : TcpState} (h : Synced st false) : Synced (Tcb.finState st) true := by
  cases st <;> first | rfl | cases h

theorem Receiving.finSection (now : Nat) (h : Receiving stream returned base t.kept r)
    (hfin : t.finRcvd = false) (hs : Carries stream base off s)
    (h1 : off + 2 ^ 16 ≤ r + 2 ^ 31) (h2 : r < off + 2 ^ 31)
    (hend : hasFlag s.flags tcpFin = true → off ≤ r → r = stream.length) :
    Receiving stream returned base (t.segmentFin now s).kept r := by
  have hfits := hs.fits
  have hc := h.core hfin
  have hnxt : t.rcvNxt = seqAt base r := hc.nxt
  have hle : seqLe s.seq t.rcvNxt = true ↔ off ≤ r := by
    rw [hs.seq, hnxt]
    exact seqLe_seqAt (by omega) (by omega)
  rw [Tcb.kept_segmentFin]
  split
  · next hcond =>
      rw [Bool.and_eq_true, Bool.and_eq_true, hle] at hcond
      have hlast : r = stream.length := hend hcond.1.1 hcond.1.2
      refine { h with nxt := ?_, fin := fun _ => hlast, synced := ?_ }
      · change t.rcvNxt + BitVec.ofNat 32 1 = _
        rw [hnxt, seqAt_add]
        rfl
      · have hsync : Synced t.state t.finRcvd := h.synced
        rw [hfin] at hsync
        exact hsync.finState
  · exact h

theorem Receiving.sync (now : Nat) (h : Receiving stream returned base t.kept r)
    (hs : Carries stream base off s) (hnear : Near off r) (hacc : t.acceptable s = true)
    (hfits : FinFits t r off s) :
    ∃ r', Receiving stream returned base (t.segmentSync now s).kept r' := by
  obtain ⟨hfin, hwin⟩ := h.of_acceptable hs hnear hacc
  -- the ACK and window sections do not touch the receive side
  have hkept : ((t.segmentAck now s).segmentWindow now s).kept = t.kept := by
    rw [Tcb.kept_segmentWindow, Tcb.kept_segmentAck]
  rw [← hkept] at h
  obtain ⟨r', h', hfin', hr, hr', hstay, hmove⟩ :=
    h.data now ((congrArg Kept.finRcvd hkept).trans hfin) hs hnear hwin
  rw [show ((t.segmentAck now s).segmentWindow now s).rcv = t.rcv from
    congrArg Kept.rcv hkept] at hmove
  obtain ⟨h1, h2⟩ := hnear
  unfold tcpRcvbuf at hr'
  refine ⟨r', (h'.finSection now hfin' hs (by omega) (by omega) ?_).tail now⟩
  intro hflag hoff
  obtain ⟨hpast, hat⟩ := hfits hflag
  have hlast := hs.last hflag
  have hle := h'.le
  by_cases heq : off = r
  · have := hmove heq (hat heq)
    omega
  · have := hstay heq
    have := hpast (by omega)
    omega

theorem Receiving.recv (h : Receiving stream returned base t.kept r) (len : Nat) {out : List Byte}
    (hout : (t.tcpRecv len false).2 = .ok out) :
    Receiving stream (returned ++ out) base (t.tcpRecv len false).1.kept r := by
  unfold Tcb.tcpRecv at hout ⊢
  split
  · next hlen =>
      rw [if_pos hlen] at hout
      have hn : min len t.rcv.len ≤ t.rcv.len := Nat.min_le_right ..
      obtain rfl : t.rcv.front tcpRcvbuf (min len t.rcv.len) = out := by simpa using hout
      have hstored : returned ++ t.rcv.front tcpRcvbuf (min len t.rcv.len) ++
          (t.rcv.pop tcpRcvbuf (min len t.rcv.len)).contents tcpRcvbuf = stream.take r := by
        rw [RingBuf.front_eq_take _ hn, RingBuf.contents_pop, append_assoc,
          take_append_drop]
        exact h.stored
      have hroom : t.rcv.len - min len t.rcv.len ≤ tcpRcvbuf :=
        (Nat.sub_le ..).trans h.room
      have hpop : Receiving stream (returned ++ t.rcv.front tcpRcvbuf (min len t.rcv.len)) base
          { t.kept with rcv := t.rcv.pop tcpRcvbuf (min len t.rcv.len) } r :=
        { h with stored := hstored, room := hroom }
      simp only [Bool.false_eq_true, if_false]
      split
      · exact hpop
      · rw [Tcb.kept_sendFlags]
        exact hpop
  · next hlen =>
      rw [if_neg hlen] at hout
      split
      · next hreset => exact absurd (h.noReset.symm.trans hreset) (by decide)
      · next hreset =>
          rw [if_neg hreset] at hout
          split
          · next heof =>
              rw [if_pos heof] at hout
              obtain rfl : [] = out := by simpa using hout
              rw [append_nil]
              exact h
          · next heof =>
              rw [if_neg heof] at hout
              cases hout

theorem Receiving.eof (h : Receiving stream returned base t.kept r) {len : Nat} {peek : Bool}
    (hlen : 0 < len) (hout : (t.tcpRecv len peek).2 = .ok []) : returned = stream := by
  unfold Tcb.tcpRecv at hout
  by_cases hrcv : t.rcv.len ≠ 0
  · rw [if_pos hrcv] at hout
    have hfront : t.rcv.front tcpRcvbuf (min len t.rcv.len) = [] := by
      cases peek <;> simpa using hout
    have hz := congrArg List.length hfront
    rw [RingBuf.length_front, length_nil] at hz
    omega
  · rw [if_neg hrcv, if_neg (by rw [show t.reset = false from h.noReset]; decide)] at hout
    have hend : t.finRcvd = true := by
      have hsync : Synced t.state t.finRcvd := h.synced
      by_contra hfin
      rw [Bool.not_eq_true] at hfin
      have hopen : (t.state == .closed) = false := by
        rw [hfin] at hsync
        cases hst : t.state <;> first | rfl | (rw [hst] at hsync; cases hsync)
      rw [hfin, show t.shutRd = false from h.noShut, hopen] at hout
      cases hout
    have hstored : returned ++ t.rcv.contents tcpRcvbuf = stream.take r := h.stored
    have hempty : t.rcv.contents tcpRcvbuf = [] := by
      apply eq_nil_of_length_eq_zero
      rw [RingBuf.length_contents]
      omega
    rw [hempty, append_nil, h.fin hend, take_length] at hstored
    exact hstored

theorem Receiving.shutdownWrite (now : Nat) (h : Receiving stream returned base t.kept r) :
    Receiving stream returned base (t.tcpShutdownWrite now).kept r := by
  obtain ⟨st, hkept, hst⟩ := t.kept_tcpShutdownWrite now
  have hsync : Synced t.state t.finRcvd := h.synced
  rw [hkept]
  refine { h with synced := ?_ }
  change Synced st t.finRcvd
  rcases hst with rfl | ⟨hs, rfl⟩ | ⟨hs, rfl⟩
  · exact hsync
  · rw [hs] at hsync
    exact hsync
  · rw [hs] at hsync
    exact hsync

theorem tcpRecv_unchanged (t : Tcb ι) (len : Nat) {peek : Bool}
    (h : peek = true ∨ ∃ e, (t.tcpRecv len peek).2 = .error e) : (t.tcpRecv len peek).1 = t := by
  unfold Tcb.tcpRecv at h ⊢
  split
  · next hlen =>
      rw [if_pos hlen] at h
      cases peek with
      | true => rfl
      | false =>
          obtain h | ⟨e, he⟩ := h
          · cases h
          · cases he
  · split
    · rfl
    · split <;> rfl

structure RecvState (ι : Type) where
  conns : Conns ι
  returned : List Byte

inductive RecvOp where
  | segment (now off : Nat) (s : Segment)
  | recv (len : Nat) (peek : Bool)
  | send (now : Nat) (data : List Byte)
  | shutdownWrite (now : Nat)

instance (stream : List Byte) (base : Seq) (off : Nat) (s : Segment) :
    Decidable (Carries stream base off s) :=
  decidable_of_iff (_ ∧ _ ∧ _ ∧ _ ∧ _ ∧ _ ∧ _)
    ⟨fun ⟨h1, h2, h3, h4, h5, h6, h7⟩ => ⟨h1, h2, h3, h4, h5, h6, h7⟩,
      fun ⟨h1, h2, h3, h4, h5, h6, h7⟩ => ⟨h1, h2, h3, h4, h5, h6, h7⟩⟩

structure Opened (t : Tcb ι) : Prop where
  state : t.state = .established
  nxt : t.rcvNxt = t.irs + 1
  wnd : t.rcvWnd = tcpRcvbuf
  empty : t.rcv.len = 0
  unused : ∀ e ∈ t.reasm, e.used = false
  noFin : t.finRcvd = false
  noReset : t.reset = false
  noShut : t.shutRd = false

theorem Opened.receiving (h : Opened t) (stream : List Byte) :
    Receiving stream [] (t.irs + 1) t.kept 0 := by
  refine ⟨rfl, ?_, Nat.zero_le _, ?_, ?_, ?_, h.wnd, ?_, h.noReset, h.noShut, ?_⟩
  · apply eq_nil_of_length_eq_zero
    rw [nil_append, RingBuf.length_contents]
    exact h.empty
  · exact h.empty.trans_le (Nat.zero_le _)
  · change t.rcvNxt = seqAt _ (0 + t.finRcvd.toNat)
    rw [h.nxt, h.noFin, seqAt, Bool.toNat_false, BitVec.add_zero]
  · intro hf
    exact absurd (h.noFin.symm.trans hf) (by decide)
  · intro e he hu
    exact absurd ((h.unused e he).symm.trans hu) (by decide)
  · change Synced t.state t.finRcvd
    rw [h.state, h.noFin]
    rfl

variable [DecidableEq ι]

/-- What a call of `tcp_recv` adds to the bytes returned; a peek adds nothing. -/
def consumed (peek : Bool) (out : Except Errno (List Byte)) : List Byte :=
  match peek, out with
  | false, .ok bytes => bytes
  | _, _ => []

def recvStep (stream : List Byte) (i : ι) (st : RecvState ι) : RecvOp → Option (RecvState ι)
  | .segment now off s =>
      if Carries stream ((st.conns i).irs + 1) off s then
        some { st with conns := tcpSegment now st.conns i s }
      else none
  | .recv len peek =>
      let res := (st.conns i).tcpRecv len peek
      some { conns := update st.conns i res.1,
             returned := st.returned ++ consumed peek res.2 }
  | .send now data =>
      some { st with conns := update st.conns i ((st.conns i).tcpSend now data).1 }
  | .shutdownWrite now =>
      some { st with conns := update st.conns i ((st.conns i).tcpShutdownWrite now) }

def recvSystem (stream : List Byte) (i : ι) : System (RecvState ι) RecvOp where
  init st := Opened (st.conns i) ∧ st.returned = []
  step := recvStep stream i

def RecvState.received (st : RecvState ι) (i : ι) : Nat :=
  st.returned.length + (st.conns i).rcv.len

/-- What a segment has to meet: it is not from another lap of the sequence space, and
its FIN is one that the code takes at the right place. -/
def FinSafe (i : ι) (st : RecvState ι) : RecvOp → Prop
  | .segment _ off s =>
      Near off (st.received i) ∧ FinFits (st.conns i) (st.received i) off s
  | _ => True

instance (off r : Nat) : Decidable (Near off r) := inferInstanceAs (Decidable (_ ∧ _))

instance (t : Tcb ι) (r off : Nat) (s : Segment) : Decidable (FinFits t r off s) :=
  inferInstanceAs (Decidable (_ → _))

instance (i : ι) (st : RecvState ι) (op : RecvOp) : Decidable (FinSafe i st op) :=
  match op with
  | .segment _ _ _ => inferInstanceAs (Decidable (_ ∧ _))
  | .recv _ _ | .send _ _ | .shutdownWrite _ => inferInstanceAs (Decidable True)

theorem Receiving.tcpSegment {conns : Conns ι} {i : ι} (now : Nat)
    (h : Receiving stream returned base (conns i).kept r) (hs : Carries stream base off s)
    (hnear : Near off r) (hfits : FinFits (conns i) r off s) :
    ∃ r', Receiving stream returned base (tcpSegment now conns i s i).kept r' := by
  have hsync : Synced (conns i).state (conns i).finRcvd := h.synced
  have hphase : 0 < (conns i).state.phase := by
    cases hst : (conns i).state <;> rw [hst] at hsync <;> first | decide | exact hsync.elim
  rw [tcpSegment_synced now conns i s hphase, update_self, if_neg (by rw [hs.noRst]; decide)]
  split_ifs with hacc hflag
  · rw [Tcb.kept_sendFlags]
    exact ⟨r, h⟩
  · exact ⟨r, h⟩
  · exact h.sync now hs hnear (Bool.eq_true_of_not_eq_false hacc) hfits

theorem recvStep_receiving {i : ι} {st st' : RecvState ι} {op : RecvOp}
    (h : Receiving stream st.returned base (st.conns i).kept r) (hok : FinSafe i st op)
    (hstep : recvStep stream i st op = some st') :
    ∃ r', Receiving stream st'.returned base (st'.conns i).kept r' := by
  cases op with
  | segment now off s =>
      rw [recvStep] at hstep
      split at hstep
      · next hs =>
          cases hstep
          have hrecv : st.received i = r := returned_length h.stored h.le
          rw [FinSafe, hrecv] at hok
          rw [← show base = (st.conns i).irs + 1 from h.origin] at hs
          exact h.tcpSegment now hs hok.1 hok.2
      · cases hstep
  | recv len peek =>
      cases hstep
      refine ⟨r, ?_⟩
      dsimp only
      rw [update_self]
      cases peek with
      | true =>
          rw [tcpRecv_unchanged _ _ (.inl rfl), consumed, append_nil]
          · exact h
          · rintro _ ⟨⟩
      | false =>
          cases hres : ((st.conns i).tcpRecv len false).2 with
          | ok out => exact h.recv len hres
          | error e =>
              rw [tcpRecv_unchanged _ _ (.inr ⟨e, hres⟩), consumed, append_nil]
              · exact h
              · rintro _ _ ⟨⟩
  | send now data =>
      cases hstep
      refine ⟨r, ?_⟩
      dsimp only
      rw [update_self, Tcb.kept_tcpSend]
      exact h
  | shutdownWrite now =>
      cases hstep
      refine ⟨r, ?_⟩
      dsimp only
      rw [update_self]
      exact h.shutdownWrite now

/-- In a run whose FINs are all safe, the bytes returned are a prefix of the stream, and
`tcp_recv` reports its end only once all of it has been returned. -/
theorem recv_stream_faithful {i : ι} {st : RecvState ι}
    (hr : (recvSystem stream i).Reach (FinSafe i) st) :
    st.returned <+: stream ∧ ∀ len peek, 0 < len →
      ((st.conns i).tcpRecv len peek).2 = .ok [] → st.returned = stream := by
  have hinv : ∃ base r, Receiving stream st.returned base (st.conns i).kept r := by
    refine hr.invariant (fun s => ∃ base r, Receiving stream s.returned base (s.conns i).kept r)
      ?_ ?_
    · intro s hinit
      rw [hinit.2]
      exact ⟨_, 0, hinit.1.receiving stream⟩
    · intro s op s' ⟨base, r, h⟩ hok hstep
      exact ⟨base, recvStep_receiving h hok hstep⟩
  obtain ⟨base, r, h⟩ := hinv
  constructor
  · refine List.IsPrefix.trans ⟨_, h.stored⟩ (List.take_prefix r stream)
  · intro len peek hlen hout
    exact h.eof hlen hout

def freshTcb : Tcb (Fin tcpMaxConns) :=
  { Tcb.zero with
    state := .established, inUse := true, sndUna := 1, sndNxt := 1, sndWnd := 65535, rcvNxt := 1,
    rcvWnd := tcpRcvbuf, mss := tcpDefaultMss, rtoTicks := tcpRtoMinTicks * 5,
    cwnd := 2 * tcpDefaultMss, ssthresh := tcpSndbuf }

def freshState : RecvState (Fin tcpMaxConns) := ⟨fun _ => freshTcb, []⟩

theorem freshState_init (stream : List Byte) (i : Fin tcpMaxConns) :
    (recvSystem stream i).init freshState :=
  ⟨⟨rfl, rfl, rfl, rfl, show ∀ e ∈ freshTcb.reasm, e.used = false by decide, rfl, rfl, rfl⟩, rfl⟩

def wholeTrace : List RecvOp :=
  [.segment 0 0 ⟨1, 1, tcpAck, 65535, [], [97, 98]⟩,
   .segment 1 2 ⟨3, 1, tcpAck ||| tcpFin, 65535, [], [99]⟩,
   .recv 10 false]

theorem recv_stream_faithful_abc :
    ∃ st : RecvState (Fin tcpMaxConns), (recvSystem [97, 98, 99] 0).Reach (FinSafe 0) st ∧
      ((st.conns 0).tcpRecv 10 false).2 = .ok [] ∧ st.returned = [97, 98, 99] :=
  System.Reach.exists_of_run_and wholeTrace (freshState_init [97, 98, 99] 0) (by decide +kernel)
    fun _ hr heof => (recv_stream_faithful hr).2 10 false (by decide) heof

/-- "ab", then a retransmission "bc" with the FIN, which overlaps the receive point. -/
def overlapTrace : List RecvOp :=
  [.segment 0 0 ⟨1, 1, tcpAck, 65535, [], [97, 98]⟩,
   .segment 1 1 ⟨2, 1, tcpAck ||| tcpFin, 65535, [], [98, 99]⟩,
   .recv 10 false]

/-- The FIN of an overlapping segment is taken without its data: the end of the stream
is reported while its last byte is still missing. -/
theorem recv_early_eof :
    ∃ st : RecvState (Fin tcpMaxConns), (recvSystem [97, 98, 99] 0).Reach (fun _ _ => True) st ∧
      ((st.conns 0).tcpRecv 10 false).2 = .ok [] ∧ st.returned = [97, 98] :=
  System.Reach.exists_of_run overlapTrace (freshState_init [97, 98, 99] 0)
    (by decide +kernel)

end NeoKernel.Net
