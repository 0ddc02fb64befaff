import NeoKernel.Lib.Trans
import NeoKernel.Net.Frame

/-!
# The receive stream

A peer sends `stream` and then a FIN. `Core` ties the receive ring and `rcv_nxt` to the
first `r` bytes of it, `Queued` the reassembly queue. Both survive every segment that
carries a slice of the stream; the FIN rule of `tcp_segment` needs more, and
`FinFits` says what.
-/
namespace NeoKernel.Net
open Lib List

variable {ι : Type}

section Positions

variable {base : Seq} {x y : Nat}

/-- The sequence number of the byte at position `x`; `base` is that of the first one. -/
def seqAt (base : Seq) (x : Nat) : Seq := base + BitVec.ofNat 32 x

theorem seqAt_add (base : Seq) (x n : Nat) :
    seqAt base x + BitVec.ofNat 32 n = seqAt base (x + n) := by
  rw [seqAt, seqAt, BitVec.ofNat_add, BitVec.add_assoc]

theorem seqAt_zero (base : Seq) : seqAt base 0 = base := BitVec.add_zero base

theorem seqAt_toNat_sub (base x : Seq) : seqAt base (x - base).toNat = x := by
  rw [seqAt, BitVec.ofNat_toNat, BitVec.setWidth_eq]
  grind

theorem exists_seqAt {n : Seq} (h : 0 ≤ (n - seqAt base x).toInt) :
    ∃ p, x ≤ p ∧ p < x + 2 ^ 31 ∧ n = seqAt base p := by
  have hlt : ¬ (n - seqAt base x).toInt < 0 := by omega
  rw [BitVec.toInt_neg_iff] at hlt
  refine ⟨x + (n - seqAt base x).toNat, by omega, by omega, ?_⟩
  rw [← seqAt_add]
  exact (seqAt_toNat_sub (seqAt base x) n).symm

theorem seqLe_seqAt (hxy : x < y + 2 ^ 31) (hyx : y ≤ x + 2 ^ 31) :
    seqLe (seqAt base x) (seqAt base y) = true ↔ x ≤ y := by
  rw [seqLe, decide_eq_true_iff, seqAt, seqAt, toInt_sub_of_near base hxy hyx]
  omega

theorem seqGe_seqAt (hxy : x < y + 2 ^ 31) (hyx : y ≤ x + 2 ^ 31) :
    seqGe (seqAt base x) (seqAt base y) = true ↔ y ≤ x := by
  rw [seqGe, decide_eq_true_iff, seqAt, seqAt, toInt_sub_of_near base hxy hyx]
  omega

theorem seqLt_seqAt (hxy : x < y + 2 ^ 31) (hyx : y ≤ x + 2 ^ 31) :
    seqLt (seqAt base x) (seqAt base y) = true ↔ x < y := by
  rw [seqLt, decide_eq_true_iff, seqAt, seqAt, toInt_sub_of_near base hxy hyx]
  omega

theorem seqGt_seqAt (hxy : x < y + 2 ^ 31) (hyx : y ≤ x + 2 ^ 31) :
    seqGt (seqAt base x) (seqAt base y) = true ↔ y < x := by
  rw [seqGt, decide_eq_true_iff, seqAt, seqAt, toInt_sub_of_near base hxy hyx]
  omega

theorem toNat_seqAt_sub (hyx : y ≤ x) (hx : x < y + 2 ^ 32) :
    (seqAt base x - seqAt base y).toNat = x - y := by
  obtain ⟨d, rfl⟩ := Nat.exists_eq_add_of_le hyx
  have hd : seqAt base (y + d) - seqAt base y = BitVec.ofNat 32 d := by
    rw [← seqAt_add]
    grind
  rw [hd, BitVec.toNat_ofNat, Nat.mod_eq_of_lt (by omega)]
  omega

theorem seqAt_inj (h : seqAt base x = seqAt base y) (hxy : x < y + 2 ^ 31)
    (hyx : y ≤ x + 2 ^ 31) : x = y := by
  have hz := toInt_sub_of_near base hxy hyx
  rw [← seqAt, ← seqAt, h, BitVec.sub_self, BitVec.toInt_zero] at hz
  omega

end Positions

section Ring

variable {stream returned : List Byte} {base : Seq} {r r0 : Nat} {t : Tcb ι}

/-- The first `r` bytes of the stream are those returned and those in the ring. -/
structure Core (stream returned : List Byte) (base : Seq) (k : Kept ι) (r : Nat) : Prop where
  stored : returned ++ k.rcv.contents tcpRcvbuf = stream.take r
  le : r ≤ stream.length
  room : k.rcv.len ≤ tcpRcvbuf
  nxt : k.rcvNxt = seqAt base r

theorem returned_length {k : Kept ι}
    (hstored : returned ++ k.rcv.contents tcpRcvbuf = stream.take r)
    (hle : r ≤ stream.length) : returned.length + k.rcv.len = r := by
  have hlen := congrArg List.length hstored
  rw [length_append, RingBuf.length_contents, length_take, Nat.min_eq_left hle] at hlen
  exact hlen

theorem Core.deliver {data : List Byte} (h : Core stream returned base t.kept r)
    (hd : data <+: stream.drop r) :
    Core stream returned base (t.deliver data).kept
      (r + min (tcpRcvbuf - t.rcv.len) data.length) := by
  have hroom : t.rcv.len ≤ tcpRcvbuf := h.room
  have hlen : data.length ≤ stream.length - r := by
    simpa using hd.length_le
  have hle := h.le
  refine ⟨?_, by omega, ?_, ?_⟩
  · change returned ++ (t.rcv.push tcpRcvbuf (data.take (tcpRcvbuf - t.rcv.len))).contents
      tcpRcvbuf = _
    have hfit : t.rcv.len + (data.take (tcpRcvbuf - t.rcv.len)).length ≤ tcpRcvbuf := by
      rw [length_take]
      omega
    rw [RingBuf.contents_push _ _ hfit, ← append_assoc, take_add]
    congr 1
    · exact h.stored
    · obtain ⟨rest, hrest⟩ := hd
      rw [← hrest, take_append_of_le_length (Nat.min_le_right ..), take_eq_take_iff]
      omega
  · change t.rcv.len + (data.take _).length ≤ _
    rw [length_take]
    omega
  · change t.rcvNxt + BitVec.ofNat 32 (data.take _).length = _
    rw [length_take, show t.rcvNxt = seqAt base r from h.nxt, seqAt_add]

/-- A used reassembly entry holds a slice of the stream that starts after `r`, inside
the window. -/
def Queued (stream : List Byte) (base : Seq) (r : Nat) (e : TcpReasm) : Prop :=
  e.used = true → ∃ off, r < off ∧ off < r + tcpRcvbuf ∧ e.seq = seqAt base off ∧
    e.data <+: stream.drop off ∧ e.data ≠ [] ∧ e.data.length ≤ tcpReasmMax

theorem Queued.unused (e : TcpReasm) : Queued stream base r { e with used := false } := by
  intro h
  cases h

/-- The comparisons of `drain_reasm` for a slice of `n` bytes at `off` are those of
positions: all of them are within a few windows of `r0`. -/
theorem Core.compare {seq : Seq} {off n : Nat} (hc : Core stream returned base t.kept r)
    (h0 : r0 ≤ r) (hret : returned.length ≤ r0) (hgt : r0 < off) (hlt : off < r0 + tcpRcvbuf)
    (hseq : seq = seqAt base off) (hn : n ≤ tcpReasmMax) :
    (seqLe seq t.rcvNxt = true ↔ off ≤ r) ∧
      (seqGt (seq + BitVec.ofNat 32 n) t.rcvNxt = true ↔ r < off + n) ∧
      (seqLe (seq + BitVec.ofNat 32 n) t.rcvNxt = true ↔ off + n ≤ r) := by
  have hcount : returned.length + t.rcv.len = r := returned_length hc.stored hc.le
  have hroom : t.rcv.len ≤ tcpRcvbuf := hc.room
  have hnxt : t.rcvNxt = seqAt base r := hc.nxt
  unfold tcpRcvbuf at hlt hroom
  unfold tcpReasmMax at hn
  rw [hseq, hnxt, seqAt_add]
  exact ⟨seqLe_seqAt (by omega) (by omega), seqGt_seqAt (by omega) (by omega),
    seqLe_seqAt (by omega) (by omega)⟩

/-- The entries left by a pass are still slices after `r0`, and a pass that moves
nothing leaves only entries that start after `r`. -/
theorem drainEntries_spec {rs : List TcpReasm} (hc : Core stream returned base t.kept r)
    (h0 : r0 ≤ r) (hret : returned.length ≤ r0) (hq : ∀ e ∈ rs, Queued stream base r0 e) :
    ∃ r', r ≤ r' ∧ Core stream returned base (t.drainEntries rs).1.kept r' ∧
      (∀ e ∈ (t.drainEntries rs).2.1, Queued stream base r0 e) ∧
      ((t.drainEntries rs).2.2 = false →
        r' = r ∧ ∀ e ∈ (t.drainEntries rs).2.1, Queued stream base r e) := by
  induction rs generalizing t r with
  | nil => exact ⟨r, le_rfl, hc, by simp [Tcb.drainEntries], by simp [Tcb.drainEntries]⟩
  | cons e rs ih =>
      have hqs : ∀ e ∈ rs, Queued stream base r0 e := fun e' h => hq e' (mem_cons_of_mem _ h)
      have he : Queued stream base r0 e := hq e mem_cons_self
      obtain ⟨r1, hr1, hc1, hq1, hm1⟩ := ih hc h0 hqs
      by_cases hu : e.used
      · obtain ⟨off, hgt, hlt, hseq, hpre, hne, hlen⟩ := he hu
        obtain ⟨hstart, hcover, hold⟩ := hc.compare h0 hret hgt hlt hseq hlen
        simp only [Tcb.drainEntries, hu, Bool.not_true, Bool.false_eq_true, if_false,
          Bool.and_eq_true, hstart, hcover, hold]
        split
        · next hin =>
            have hskip : (t.rcvNxt - e.seq).toNat = r - off := by
              rw [show t.rcvNxt = seqAt base r from hc.nxt, hseq]
              refine toNat_seqAt_sub hin.1 ?_
              unfold tcpReasmMax at hlen
              omega
            have hpre' : e.data.drop (r - off) <+: stream.drop r := by
              have hd := hpre.drop (r - off)
              rwa [drop_drop, Nat.add_sub_cancel' hin.1] at hd
            rw [hskip]
            obtain ⟨r2, hr2, hc2, hq2, -⟩ := ih (hc.deliver hpre') (by omega) hqs
            exact ⟨r2, by omega, hc2, forall_mem_cons.2 ⟨Queued.unused e, hq2⟩, nofun⟩
        · split
          · exact ⟨r1, hr1, hc1, forall_mem_cons.2 ⟨Queued.unused e, hq1⟩,
              fun hm => ⟨(hm1 hm).1, forall_mem_cons.2 ⟨Queued.unused e, (hm1 hm).2⟩⟩⟩
          · next hout hnew =>
              have hkeep : Queued stream base r e := fun _ =>
                ⟨off, by omega, by omega, hseq, hpre, hne, hlen⟩
              exact ⟨r1, hr1, hc1, forall_mem_cons.2 ⟨he, hq1⟩,
                fun hm => ⟨(hm1 hm).1, forall_mem_cons.2 ⟨hkeep, (hm1 hm).2⟩⟩⟩
      · have hkeep : ∀ r, Queued stream base r e := fun _ h => absurd h hu
        simp only [Tcb.drainEntries, hu, Bool.not_false, if_true]
        exact ⟨r1, hr1, hc1, forall_mem_cons.2 ⟨hkeep _, hq1⟩,
          fun hm => ⟨(hm1 hm).1, forall_mem_cons.2 ⟨hkeep _, (hm1 hm).2⟩⟩⟩

theorem drainEntries_used (t : Tcb ι) (rs : List TcpReasm) :
    (t.drainEntries rs).2.1.countP (·.used) + (t.drainEntries rs).2.2.toNat ≤
      rs.countP (·.used) := by
  induction rs generalizing t with
  | nil => simp [Tcb.drainEntries]
  | cons e rs ih =>
      have h := ih t
      have h' := ih (t.deliver (e.data.drop (t.rcvNxt - e.seq).toNat))
      unfold Tcb.drainEntries
      dsimp only
      split
      · simp only [countP_cons]
        omega
      · next hu =>
          rw [Bool.not_eq_true', Bool.not_eq_false] at hu
          split
          · simp only [countP_cons, hu, if_true, Bool.toNat_true, Bool.false_eq_true, if_false]
            omega
          · split
            · simp only [countP_cons, hu, if_true, Bool.false_eq_true, if_false]
              omega
            · simp only [countP_cons]
              omega

theorem drainPasses_spec {n : Nat} (hc : Core stream returned base t.kept r) (h0 : r0 ≤ r)
    (hret : returned.length ≤ r0) (hq : ∀ e ∈ t.reasm, Queued stream base r0 e)
    (hn : t.reasm.countP (·.used) < n) :
    ∃ r', r ≤ r' ∧ Core stream returned base (t.drainPasses n).kept r' ∧
      ∀ e ∈ (t.drainPasses n).reasm, Queued stream base r' e := by
  induction n generalizing t r with
  | zero => omega
  | succ n ih =>
      obtain ⟨r1, hr1, hc1, hq1, hm1⟩ := drainEntries_spec hc h0 hret hq
      have hused := drainEntries_used t t.reasm
      have hpass : Core stream returned base t.drainPass.1.kept r1 :=
        { hc1 with }
      unfold Tcb.drainPasses
      split
      · next hm =>
          have hm' : (t.drainEntries t.reasm).2.2 = true := hm
          rw [hm', Bool.toNat_true] at hused
          have hless : t.drainPass.1.reasm.countP (·.used) < n := by
            change (t.drainEntries t.reasm).2.1.countP _ < n
            omega
          obtain ⟨r2, hr2, h⟩ := ih hpass (by omega) hq1 hless
          exact ⟨r2, by omega, h⟩
      · next hm =>
          obtain ⟨rfl, hq2⟩ := hm1 (Bool.eq_false_of_not_eq_true hm)
          exact ⟨r1, hr1, hpass, hq2⟩

theorem drainReasm_settled (hc : Core stream returned base t.kept r) (h0 : r0 ≤ r)
    (hret : returned.length ≤ r0) (hq : ∀ e ∈ t.reasm, Queued stream base r0 e) :
    ∃ r', r ≤ r' ∧ Core stream returned base t.drainReasm.kept r' ∧
      ∀ e ∈ t.drainReasm.reasm, Queued stream base r' e :=
  drainPasses_spec hc h0 hret hq (Nat.lt_succ_of_le countP_le_length)

end Ring

end NeoKernel.Net
