import NeoKernel.Lib.Update
import NeoKernel.Time.HrtimerQueue

/-!
# Timers fire once per start, in order, and the device is armed in time

The tree is sorted by expiry and has exactly the queued timers; everything else is said about
the fields of one CPU and carried by each step.
-/
namespace NeoKernel.Hrtimer
open Lib Rbtree Function List Option

variable {ι κ : Type} [DecidableEq ι] [DecidableEq κ] {s s' : TimerCpu ι κ} {b : HrtimerBase ι}
  {t t' : CTree ι} {i : ι} {minNs : BitVec 64}

structure Queued (b : HrtimerBase ι) (t : CTree ι) : Prop where
  sound : Sound b.root t
  sorted : t.inorder.Pairwise fun i j => b.expires i ≤ b.expires j
  mem : ∀ i, i ∈ t.inorder ↔ b.state i = .queued

section Base

variable {state : TimerState}

section

variable (h : Queued b t)
include h

section

omit [DecidableEq ι]

theorem Queued.leftmost : b.root.rbLeftmost = t.inorder.head? := h.sound.2.2

theorem Queued.first_le {j : ι} (hi : b.root.rbLeftmost = some i) (hj : j ∈ t.inorder) :
    b.expires i ≤ b.expires j := by
  rw [h.leftmost] at hi
  have hsorted := h.sorted
  cases hin : t.inorder with
  | nil =>
      rw [hin] at hj
      cases hj
  | cons x xs =>
      rw [hin] at hi hj hsorted
      cases hi
      rcases mem_cons.1 hj with rfl | hj
      · exact BitVec.le_refl _
      · exact rel_of_pairwise_cons hsorted hj

theorem Queued.firstExpiry_le {j : ι} (hj : j ∈ t.inorder) : b.firstExpiry ≤ b.expires j := by
  unfold HrtimerBase.firstExpiry
  cases hl : b.root.rbLeftmost with
  | none =>
      rw [h.leftmost, head?_eq_none_iff] at hl
      rw [hl] at hj
      cases hj
  | some i => exact h.first_le hl hj

end

theorem Queued.setExpires (hi : i ∉ t.inorder) (e : BitVec 64) : Queued (b.setExpires i e) t := by
  refine ⟨h.sound.withData _, ?_, h.mem⟩
  refine h.sorted.imp_of_mem fun {j k} hj hk hle => ?_
  have hji : j ≠ i := ne_of_mem_of_not_mem hj hi
  have hki : k ≠ i := ne_of_mem_of_not_mem hk hi
  change update b.root.data i e j ≤ update b.root.data i e k
  rw [update_of_ne hji, update_of_ne hki]
  exact hle

theorem Queued.mem_setState (hi : i ∈ t'.inorder ↔ state = .queued)
    (hothers : ∀ j, j ≠ i → (j ∈ t'.inorder ↔ j ∈ t.inorder)) :
    ∀ j, j ∈ t'.inorder ↔ (b.setState i state).state j = .queued :=
  (forall_update_iff b.state fun j x => j ∈ t'.inorder ↔ x = .queued).2
    ⟨hi, fun j hj => (hothers j hj).trans (h.mem j)⟩

theorem Queued.setState (hi : i ∉ t.inorder) (hstate : state ≠ .queued) :
    Queued (b.setState i state) t :=
  ⟨h.sound, h.sorted, h.mem_setState (iff_of_false hi hstate) fun _ _ => Iff.rfl⟩

theorem enqueueLocked_returns (hi : i ∉ t.inorder) :
    Returns (fun fuel => b.enqueueLocked fuel i) fun b' =>
      ∃ root t', b' = { b with root }.setState i .queued ∧ root.data = b.root.data ∧
        Queued b' t' ∧ t'.inorder.Perm (i :: t.inorder) := by
  have hmono : t.inorder.Pairwise fun a c =>
      decide (b.expires i < b.expires a) = true → decide (b.expires i < b.expires c) = true := by
    refine h.sorted.imp fun {j k} hle hlt => ?_
    exact decide_eq_true (Nat.lt_of_lt_of_le (of_decide_eq_true hlt) hle)
  refine (insertBy_returns h.sound hi hmono).map ?_
  rintro root ⟨hdata, t', xs, ys, hs', hsplit, hin, hxs, hys⟩
  have hexp : ∀ j, ({ b with root }.setState i .queued).expires j = b.expires j := fun j =>
    congrFun hdata j
  have hperm : t'.inorder.Perm (i :: t.inorder) := by
    rw [hin, hsplit]
    exact perm_middle
  refine ⟨root, t', rfl, hdata, ⟨hs', ?_, h.mem_setState
    (iff_of_true (hperm.mem_iff.2 mem_cons_self) rfl) fun j hj => ?_⟩, hperm⟩
  · simp only [hexp]
    have hsorted := h.sorted
    rw [hsplit, pairwise_append] at hsorted
    rw [hin, pairwise_append]
    refine ⟨hsorted.1, pairwise_cons.2 ⟨fun y hy => ?_, hsorted.2.1⟩, fun x hx y hy => ?_⟩
    · exact BitVec.le_of_lt (of_decide_eq_true (hys y hy))
    · rcases mem_cons.1 hy with rfl | hy
      · exact BitVec.not_lt.1 (of_decide_eq_false (hxs x hx))
      · exact hsorted.2.2 x hx y hy
  · rw [hperm.mem_iff, mem_cons, or_iff_right hj]

theorem dequeueLocked_returns (hi : i ∈ t.inorder) :
    Returns (fun fuel => b.dequeueLocked fuel i) fun b' =>
      ∃ root t', b' = { b with root }.setState i .inactive ∧ root.data = b.root.data ∧
        Queued b' t' ∧ t'.inorder = t.inorder.erase i := by
  refine (rbEraseCached_returns h.sound hi).map ?_
  rintro root ⟨hdata, t', hs', hin⟩
  have hexp : ∀ j, ({ b with root }.setState i .inactive).expires j = b.expires j := fun j =>
    congrFun hdata j
  have hnd := h.sound.1.2
  refine ⟨root, t', rfl, hdata, ⟨hs', ?_, h.mem_setState
    (iff_of_false (hin ▸ hnd.not_mem_erase) nofun) fun j hj => ?_⟩, hin⟩
  · simp only [hexp]
    rw [hin]
    exact h.sorted.sublist erase_sublist
  · rw [hin, hnd.mem_erase_iff, and_iff_right hj]

end

end Base

/-- What has happened to a timer agrees with its state. -/
def Recorded (b : HrtimerBase ι) (history : ι → List Event) (i : ι) : Prop :=
  if b.state i = .queued then ∃ h, history i = .started (b.expires i) :: h ∧ Closed h
  else Closed (history i)

structure Timers (s : TimerCpu ι κ) (t : CTree ι) : Prop where
  queued : Queued s.base t
  running : ∀ i, s.base.state i = .running ↔ s.pass = .calling i
  starting : ∀ k i e, s.starting k = some (i, e) → s.base.state i = .inactive
  once : ∀ i k k', (∃ e, s.starting k = some (i, e)) → (∃ e, s.starting k' = some (i, e)) → k = k'
  inInterrupt : s.base.inInterrupt = true ↔ s.pass ≠ .idle
  recorded : ∀ i, Recorded s.base s.history i
  fired : s.fired.Pairwise fun new old => old ≤ new
  ahead : s.pass ≠ .idle → ∀ f ∈ s.fired, ∀ i, i ∈ t.inorder ∨ s.pass = .calling i →
    f ≤ s.base.expires i

def DeviceArmed (minNs : BitVec 64) (s : TimerCpu ι κ) : Prop :=
  s.base.programmed ≠ never →
    ∃ d, s.device = some d ∧ d.target = clockeventProgram minNs d.setAt s.base.programmed

structure Kept (minNs : BitVec 64) (s : TimerCpu ι κ) (t : CTree ι) : Prop extends Timers s t where
  programmed : s.pass = .idle → ∀ i ∈ t.inorder, s.base.programmed ≤ s.base.expires i
  device : s.pass = .idle → DeviceArmed minNs s
  unarmed : s.pass ≠ .idle → s.base.programmed = never

section Cpu

variable {e : BitVec 64}

namespace Recorded

variable {b' : HrtimerBase ι} {history history' : ι → List Event}

section

omit [DecidableEq ι]

theorem congr (h : Recorded b history i) (hstate : b'.state i = b.state i)
    (hexp : b'.expires i = b.expires i) (hhist : history' i = history i) :
    Recorded b' history' i := by
  unfold Recorded
  rw [hstate, hexp, hhist]
  exact h

theorem queued (h : Recorded b history i) (hq : b.state i = .queued) :
    ∃ h, history i = .started (b.expires i) :: h ∧ Closed h := by
  unfold Recorded at h
  rwa [if_pos hq] at h

theorem closed (h : Recorded b history i) (hq : b.state i ≠ .queued) : Closed (history i) := by
  unfold Recorded at h
  rwa [if_neg hq] at h

theorem of_closed (hq : b.state i ≠ .queued) (h : Closed (history i)) : Recorded b history i := by
  unfold Recorded
  rwa [if_neg hq]

end

end Recorded

omit [DecidableEq ι] [DecidableEq κ] in
theorem reprogram_eq : s.reprogram minNs = { s with
    base := { s.base with programmed := (s.reprogram minNs).base.programmed }
    device := (s.reprogram minNs).device } := by
  unfold TimerCpu.reprogram
  dsimp only
  split
  · rfl
  · split <;> rfl

section

omit [DecidableEq κ]

theorem Timers.reprogram (h : Timers s t)
    (hdevice : s.pass = .idle → DeviceArmed minNs s)
    (hunarmed : s.pass ≠ .idle → s.base.programmed = never) : Kept minNs (s.reprogram minNs) t := by
  have htimers : Timers (s.reprogram minNs) t := by
    rw [reprogram_eq]
    exact { h with queued := { h.queued with } }
  have hpass : (s.reprogram minNs).pass = s.pass := by rw [reprogram_eq]
  by_cases hidle : s.pass = .idle
  · have hoff : s.base.inInterrupt = false := by
      cases hin : s.base.inInterrupt with
      | false => rfl
      | true => exact absurd hidle (h.inInterrupt.1 hin)
    by_cases hlt : s.base.firstExpiry < s.base.programmed
    · have hrun : s.reprogram minNs = { s with
          base := { s.base with programmed := s.base.firstExpiry }
          device := some ⟨clockeventProgram minNs s.now s.base.firstExpiry, s.now⟩ } := by
        unfold TimerCpu.reprogram
        simp only [hoff, Bool.false_eq_true, if_false, hlt, if_true]
      refine ⟨htimers, fun _ j hj => ?_, fun _ _ => ?_, fun hne => ?_⟩
      · rw [hrun]
        exact h.queued.firstExpiry_le hj
      · rw [hrun]
        exact ⟨_, rfl, rfl⟩
      · exact absurd (hpass.trans hidle) hne
    · have hrun : s.reprogram minNs = s := by
        unfold TimerCpu.reprogram
        simp only [hoff, Bool.false_eq_true, if_false, hlt]
      rw [hrun]
      exact ⟨h, fun _ j hj => BitVec.le_trans (BitVec.not_lt.1 hlt) (h.queued.firstExpiry_le hj),
        hdevice, hunarmed⟩
  · have hrun : s.reprogram minNs = s := by
      unfold TimerCpu.reprogram
      rw [if_pos (h.inInterrupt.2 hidle)]
    rw [hrun]
    exact ⟨h, fun hi => absurd hi hidle, hdevice, hunarmed⟩

theorem Timers.change {root : RbStore ι (BitVec 64)} {state : TimerState} {pass : Pass ι}
    {history : ι → List Event} {fired : List (BitVec 64)} (h : Timers s t)
    (hq : Queued ({ s.base with root }.setState i state) t')
    (hexp : ∀ j, j ≠ i → root.data j = s.base.expires j)
    (hhist : ∀ j, j ≠ i → history j = s.history j) (hidle : pass = .idle ↔ s.pass = .idle)
    (hself : state = .running ↔ pass = .calling i)
    (hcalling : ∀ j, j ≠ i → (pass = .calling j ↔ s.pass = .calling j))
    (hfree : state = .inactive ∨ ∀ k e', s.starting k ≠ some (i, e'))
    (hrec : Recorded ({ s.base with root }.setState i state) history i)
    (hfired : fired.Pairwise fun new old => old ≤ new)
    (hahead : pass ≠ .idle → ∀ f ∈ fired, ∀ j, j ∈ t'.inorder ∨ pass = .calling j →
      f ≤ root.data j) :
    Timers { s with base := { s.base with root }.setState i state, pass, history, fired } t' where
  queued := hq
  running := (forall_update_iff s.base.state fun j x => x = .running ↔ pass = .calling j).2
    ⟨hself, fun j hj => (h.running j).trans (hcalling j hj).symm⟩
  starting k j e hk :=
    (forall_update_iff s.base.state fun j x => s.starting k = some (j, e) → x = .inactive).2
      ⟨fun hk => hfree.resolve_right fun hno => hno k e hk, fun j _ => h.starting k j e⟩ j hk
  once := h.once
  inInterrupt := by
    rw [ne_eq, hidle]
    exact h.inInterrupt
  recorded j := by
    by_cases hj : j = i
    · exact hj ▸ hrec
    · exact (h.recorded j).congr (update_of_ne hj ..) (hexp j hj) (hhist j hj)
  fired := hfired
  ahead := hahead

theorem Kept.cancel (h : Kept minNs s t) (hi : s.base.state i ≠ .running) :
    Returns (fun fuel => s.cancel fuel i) fun s' =>
      (s'.pass = s.pass ∧ s'.starting = s.starting) ∧ s'.base.state i = .inactive ∧
        s'.base.expires = s.base.expires ∧ ∃ t', Kept minNs s' t' := by
  unfold TimerCpu.cancel
  cases hstate : s.base.state i with
  | inactive => exact .of_eq (fun _ => rfl) ⟨⟨rfl, rfl⟩, hstate, rfl, t, h⟩
  | running => exact absurd hstate hi
  | queued =>
      have hmem := (h.queued.mem i).2 hstate
      refine (dequeueLocked_returns h.queued hmem).map ?_
      rintro _ ⟨root, t', rfl, hdata, hq', hin⟩
      have hoff : update s.base.state i .inactive i = .inactive := update_self ..
      have hexp : ∀ j, root.data j = s.base.expires j := fun j => congrFun hdata j
      have hsub : ∀ j ∈ t'.inorder, j ∈ t.inorder := fun j hj =>
        mem_of_mem_erase (hin ▸ hj)
      refine ⟨⟨rfl, rfl⟩, hoff, funext hexp, t', h.change hq' (fun j _ => hexp j)
        (fun j hj => update_of_ne hj ..) Iff.rfl ?_ (fun _ _ => Iff.rfl) (.inl rfl) ?_
        h.fired fun hp f hf j hj => ?_, fun hp j hj => ?_, h.device, h.unarmed⟩
      · exact ⟨nofun, fun hp => absurd ((h.running i).2 hp) hi⟩
      · obtain ⟨past, hpast, hclosed⟩ := (h.recorded i).queued hstate
        refine .of_closed (fun hq => nomatch hoff.symm.trans hq) ?_
        rw [update_self, hpast]
        exact hclosed.cancelled
      · refine BitVec.le_trans (h.ahead hp f hf j ?_) (BitVec.le_of_eq (hexp j).symm)
        exact hj.imp_left (hsub j)
      · exact BitVec.le_trans (h.programmed hp j (hsub j hj)) (BitVec.le_of_eq (hexp j).symm)

/-- A timer that is not queued gets an expiry and goes into the tree; the interrupt may be back
from its callback. -/
theorem Timers.enqueue (pass : Pass ι) (h : Timers s t) (hi : s.base.state i ≠ .queued)
    (hfree : ∀ k e', s.starting k ≠ some (i, e')) (hidle : pass = .idle ↔ s.pass = .idle)
    (hself : pass ≠ .calling i) (hcalling : ∀ j, j ≠ i → (pass = .calling j ↔ s.pass = .calling j))
    (hahead : pass ≠ .idle → ∀ f ∈ s.fired, f ≤ e) :
    Returns (fun fuel => (s.base.setExpires i e).enqueueLocked fuel i) fun b =>
      b.programmed = s.base.programmed ∧
        ∃ t', Timers ({ s with base := b, pass }.note i (.started e)) t' := by
  have hmem : i ∉ t.inorder := fun hm => hi ((h.queued.mem i).1 hm)
  refine (enqueueLocked_returns (h.queued.setExpires hmem e) hmem).mono ?_
  rintro _ ⟨root, t', rfl, hdata, hq', hperm⟩
  have hexp : ∀ j, root.data j = update s.base.root.data i e j := fun j => congrFun hdata j
  have hother : ∀ j, j ≠ i → root.data j = s.base.expires j := fun j hj =>
    (hexp j).trans (update_of_ne hj ..)
  refine ⟨rfl, t', h.change hq' hother
    (fun j hj => update_of_ne hj ..) hidle ⟨nofun, fun hc => absurd hc hself⟩ hcalling
    (.inr hfree) ?_ h.fired fun hp f hf j hj => ?_⟩
  · refine (if_pos (update_self ..)).mpr ⟨s.history i, ?_, (h.recorded i).closed hi⟩
    rw [update_self]
    exact congrArg (fun x => Event.started x :: s.history i) ((hexp i).trans (update_self ..)).symm
  · by_cases hji : j = i
    · rw [hji, hexp i, update_self]
      exact hahead hp f hf
    · rw [hother j hji]
      refine h.ahead (fun hn => hp (hidle.2 hn)) f hf j ?_
      refine hj.imp (fun hm => ?_) (hcalling j hji).1
      exact (mem_cons.1 (hperm.mem_iff.1 hm)).resolve_left hji

theorem Kept.queue (h : Kept minNs s t) (hi : s.base.state i = .inactive)
    (hfree : ∀ k e', s.starting k ≠ some (i, e')) (hahead : s.pass ≠ .idle → ∀ f ∈ s.fired, f ≤ e) :
    Returns (fun fuel => s.queue minNs fuel i e) fun s' => ∃ t', Kept minNs s' t' := by
  have hself : s.pass ≠ .calling i := fun hp =>
    absurd (hi.symm.trans ((h.running i).2 hp)) nofun
  refine (h.enqueue s.pass (by rw [hi]; nofun) hfree Iff.rfl hself (fun _ _ => Iff.rfl)
    hahead).map ?_
  rintro b ⟨hprog, t', ht'⟩
  refine ⟨t', ht'.reprogram (fun hp hne => ?_) fun hp => hprog.trans (h.unarmed hp)⟩
  obtain ⟨d, hd, htarget⟩ := h.device hp (hprog ▸ hne)
  exact ⟨d, hd, by rw [htarget, ← hprog]; rfl⟩

theorem queue_starting (fuel : Nat)
    (f : (κ → Option (ι × BitVec 64)) → κ → Option (ι × BitVec 64)) :
    (s.queue minNs fuel i e).map (fun s => { s with starting := f s.starting }) =
      { s with starting := f s.starting }.queue minNs fuel i e := by
  unfold TimerCpu.queue
  rw [Option.map_map]
  refine congrFun (congrArg Option.map (funext fun b => ?_)) _
  cases hin : b.inInterrupt with
  | true => simp [TimerCpu.reprogram, TimerCpu.note, hin]
  | false =>
      by_cases hlt : b.firstExpiry < b.programmed <;>
        simp [TimerCpu.reprogram, TimerCpu.note, hin, hlt]

end

omit [DecidableEq ι] [DecidableEq κ] in
theorem Kept.setStarting (h : Kept minNs s t) {starting : κ → Option (ι × BitVec 64)}
    (hinactive : ∀ k i e, starting k = some (i, e) → s.base.state i = .inactive)
    (honce : ∀ i k k', (∃ e, starting k = some (i, e)) →
      (∃ e, starting k' = some (i, e)) → k = k') :
    Kept minNs { s with starting } t :=
  { h with starting := hinactive, once := honce }

omit [DecidableEq ι] in
theorem calling_other {j : ι} {pass : Pass ι} (hp : pass = .calling i) (hj : j ≠ i) :
    pass ≠ .calling j := fun hc => hj (Pass.calling.inj (hc.symm.trans hp))

omit [DecidableEq κ] in
theorem Kept.fire (h : Kept minNs s t) (hpass : s.pass = .looking) (hdue : s.due = some i) :
    Returns (fun fuel => s.base.dequeueLocked fuel i) fun b =>
      ∃ t', Kept minNs ({ s with
        base := b.setState i .running, pass := .calling i
        fired := s.base.expires i :: s.fired }.note i (.fired s.now)) t' := by
  obtain ⟨hleft, hle⟩ := filter_eq_some_iff.1 hdue
  have hle : s.base.expires i ≤ s.now := of_decide_eq_true hle
  have hmem : i ∈ t.inorder := by
    rw [h.queued.leftmost] at hleft
    exact mem_of_mem_head? hleft
  have hstate := (h.queued.mem i).1 hmem
  have hnd := h.queued.sound.1.2
  have hne : s.pass ≠ .idle := by rw [hpass]; nofun
  refine (dequeueLocked_returns h.queued hmem).mono ?_
  rintro _ ⟨root, t', rfl, hdata, hq', hin⟩
  have hout : i ∉ t'.inorder := by
    rw [hin]
    exact hnd.not_mem_erase
  have hsub : ∀ j ∈ t'.inorder, j ∈ t.inorder := fun j hj => mem_of_mem_erase (hin ▸ hj)
  have hexp : ∀ j, root.data j = s.base.expires j := fun j => congrFun hdata j
  have hst : ({ s.base with root }.setState i .inactive).setState i .running =
      { s.base with root }.setState i .running := by
    simp [HrtimerBase.setState]
  have hq'' : Queued (({ s.base with root }.setState i .inactive).setState i .running) t' :=
    hq'.setState hout nofun
  rw [hst] at hq'' ⊢
  refine ⟨t', h.change hq'' (fun j _ => hexp j)
    (fun j hj => update_of_ne hj ..) ⟨nofun, fun hp => absurd hp hne⟩ ⟨fun _ => rfl, fun _ => rfl⟩
    (fun j hj => ?_) (.inr fun k e hk => ?_) ?_ ?_ fun _ f hf j hj => ?_, nofun, nofun,
    fun _ => h.unarmed hne⟩
  · rw [hpass]
    exact ⟨fun hc => absurd hc (calling_other rfl hj), nofun⟩
  · exact absurd ((h.starting k i e hk).symm.trans hstate) nofun
  · obtain ⟨past, hpast, hclosed⟩ := (h.recorded i).queued hstate
    refine .of_closed (fun hq => nomatch (update_self ..).symm.trans hq) ?_
    rw [update_self, hpast]
    exact hclosed.fired hle
  · exact pairwise_cons.2
      ⟨fun f hf => h.ahead hne f hf i (.inl hmem), h.fired⟩
  · rw [hexp j]
    have hij : s.base.expires i ≤ s.base.expires j := by
      rcases hj with hj | hj
      · exact h.queued.first_le hleft (hsub j hj)
      · rw [Pass.calling.inj hj]
        exact BitVec.le_refl _
    rcases mem_cons.1 hf with rfl | hf
    · exact hij
    · exact BitVec.le_trans (h.ahead hne f hf i (.inl hmem)) hij

end Cpu

section Runs

variable {a : HrAct ι κ}

omit [DecidableEq κ] [DecidableEq ι] in
theorem HrInit.kept (h : HrInit s) : Kept minNs s .nil where
  queued := by
    refine ⟨⟨⟨⟨trivial, h.root⟩, nodup_nil⟩, ⟨0, .nil⟩, h.leftmost⟩, .nil, fun i => ?_⟩
    rw [h.state i]
    exact ⟨nofun, nofun⟩
  running i := by
    rw [h.state i, h.pass]
    exact ⟨nofun, nofun⟩
  starting k i e hk := absurd ((h.starting k).symm.trans hk) nofun
  once i k k' := fun ⟨_, hk⟩ => absurd ((h.starting k).symm.trans hk) nofun
  inInterrupt := by
    rw [h.inInterrupt, h.pass]
    exact ⟨nofun, fun hne => absurd rfl hne⟩
  recorded i := by
    refine .of_closed (by rw [h.state i]; nofun) ?_
    rw [h.history i]
    exact .nil
  fired := by
    rw [h.fired]
    exact .nil
  ahead hp := absurd h.pass hp
  programmed _ i hi := absurd hi not_mem_nil
  device _ hne := absurd h.programmed hne
  unarmed hne := absurd h.pass hne

omit [DecidableEq ι] [DecidableEq κ] in
theorem Kept.not_running (h : Kept minNs s t) {i : ι} (hp : s.pass ≠ .calling i) :
    s.base.state i ≠ .running := fun hr => hp ((h.running i).1 hr)

theorem Kept.run (h : Kept minNs s t) (hok : Apart s a) (hen : a.Enabled s) :
    Returns (fun fuel => a.run minNs fuel s) fun s' => ∃ t', Kept minNs s' t' := by
  cases a with
  | advance now =>
      have hle : s.now ≤ now := hen
      simp only [HrAct.run, hle, if_true]
      exact .of_eq (fun _ => rfl) ⟨t, { h with }⟩
  | cancel i =>
      have hp : s.pass = .idle := hen
      simp only [HrAct.run, hp, if_true]
      exact (h.cancel (h.not_running (by rw [hp]; nofun))).mono fun _ hc => hc.2.2.2
  | start k i e =>
      have hp : s.pass = .idle ∧ s.starting k = none := hen
      simp only [HrAct.run, hp, and_self, if_true]
      refine (h.cancel (h.not_running (by rw [hp.1]; nofun))).map ?_
      rintro s' ⟨⟨-, hstarting⟩, hst, -, t', h'⟩
      refine ⟨t', h'.setStarting (fun k' j e' hk' => ?_) fun j k₁ k₂ => unique_update
        (p := fun x => ∃ e, x = some (j, e)) (h'.once j) ?_⟩
      · obtain ⟨-, he⟩ | ⟨-, hold⟩ := update_eq_cases hk'
        · cases he
          exact hst
        · exact h'.starting k' j e' hold
      · -- the timer has no other start under way
        rintro ⟨e₁, he₁⟩ k' - ⟨e₂, he₂⟩
        cases he₁
        rw [hstarting] at he₂
        exact hok k' e₂ he₂
  | queue k =>
      obtain ⟨hp, hk⟩ : s.pass = .idle ∧ s.starting k ≠ none := hen
      obtain ⟨⟨i, e⟩, hk⟩ := ne_none_iff_exists'.1 hk
      simp only [HrAct.run, hp, hk]
      have hrest : ∀ k' j e', update s.starting k none k' = some (j, e') →
          k' ≠ k ∧ s.starting k' = some (j, e') := by
        intro k' j e' hk'
        obtain ⟨-, ⟨⟩⟩ | hold := update_eq_cases hk'
        exact hold
      have h' : Kept minNs { s with starting := update s.starting k none } t :=
        h.setStarting (fun k' j e' hk' => h.starting k' j e' (hrest k' j e' hk').2)
          fun j k₁ k₂ => unique_update (p := fun x => ∃ e, x = some (j, e)) (h.once j) nofun
      simp only [queue_starting _ fun starting => update starting k none]
      refine h'.queue (h.starting k i e hk) (fun k' e' hk' => ?_) fun hne => absurd hp hne
      obtain ⟨hkk, hk'⟩ := hrest k' i e' hk'
      exact hkk (h.once i k' k ⟨e', hk'⟩ ⟨e, hk⟩)
  | interrupt =>
      have hp : s.pass = .idle := hen
      simp only [HrAct.run, hp, if_true]
      refine .of_eq (fun _ => rfl) ⟨t, ⟨{ h.queued with }, fun i => ?_, h.starting, h.once,
        ⟨nofun, fun _ => rfl⟩, h.recorded, .nil, fun _ f hf => absurd hf not_mem_nil⟩,
        nofun, nofun, fun _ => rfl⟩
      change s.base.state i = _ ↔ _
      rw [h.running i, hp]
      exact ⟨nofun, nofun⟩
  | fire =>
      obtain ⟨hp, hdue⟩ : s.pass = .looking ∧ s.due ≠ none := hen
      obtain ⟨i, hdue⟩ := ne_none_iff_exists'.1 hdue
      simp only [HrAct.run, hp, hdue]
      exact (h.fire hp hdue).map fun _ => id
  | callback restart =>
      obtain ⟨i, hp⟩ : ∃ i, s.pass = .calling i := hen
      have hstate := (h.running i).2 hp
      have hne : s.pass ≠ .idle := by rw [hp]; nofun
      have hfree : ∀ k e', s.starting k ≠ some (i, e') := fun k e' hk =>
        absurd ((h.starting k i e' hk).symm.trans hstate) nofun
      cases restart with
      | none =>
          simp only [HrAct.run, hp]
          have hout : i ∉ t.inorder := fun hm =>
            absurd (((h.queued.mem i).1 hm).symm.trans hstate) nofun
          refine .of_eq (fun _ => rfl) ⟨t, h.change (h.queued.setState hout nofun)
            (fun _ _ => rfl) (fun _ _ => rfl) ⟨nofun, fun hi => absurd hi hne⟩ ⟨nofun, nofun⟩
            (fun j hj => ?_) (.inl rfl) ?_ h.fired fun _ f hf j hj => ?_, nofun, nofun,
            fun _ => h.unarmed hne⟩
          · exact ⟨nofun, fun hc => absurd hc (calling_other hp hj)⟩
          · exact .of_closed (fun hq => nomatch (update_self ..).symm.trans hq)
              ((h.recorded i).closed (by rw [hstate]; nofun))
          · exact h.ahead hne f hf j (hj.imp_right nofun)
      | some e =>
          simp only [HrAct.run, hp]
          refine (h.enqueue .looking (by rw [hstate]; nofun) hfree
            ⟨nofun, fun hi => absurd hi hne⟩ nofun (fun j hj => ?_) fun _ f hf => ?_).map ?_
          · exact ⟨nofun, fun hc => absurd hc (calling_other hp hj)⟩
          · exact BitVec.le_trans (h.ahead hne f hf i (.inr hp)) (hok i hp e rfl)
          · rintro b ⟨hprog, t', ht'⟩
            exact ⟨t', ht', nofun, nofun, fun _ => hprog.trans (h.unarmed hne)⟩
  | finish =>
      have hp : s.pass = .looking ∧ s.due = none := hen
      simp only [HrAct.run, hp, and_self, if_true]
      refine .of_eq (fun _ => rfl) ⟨t, Timers.reprogram ⟨{ h.queued with }, fun i => ?_, h.starting,
        h.once, ⟨nofun, fun hne => absurd rfl hne⟩, h.recorded, h.fired,
        fun hne => absurd rfl hne⟩ (fun _ hne => absurd ?_ hne) fun hne => absurd rfl hne⟩
      · change s.base.state i = _ ↔ _
        rw [h.running i, hp.1]
        exact ⟨nofun, nofun⟩
      · exact h.unarmed (by rw [hp.1]; nofun)
  | callCancel i =>
      obtain ⟨u, hp, hne⟩ : ∃ u, s.pass = .calling u ∧ i ≠ u := hen
      simp only [HrAct.run, hp]
      exact (h.cancel (h.not_running (calling_other hp hne))).mono fun _ hc => hc.2.2.2
  | callStart i e =>
      obtain ⟨u, hp, hne⟩ : ∃ u, s.pass = .calling u ∧ i ≠ u := hen
      simp only [HrAct.run, hp]
      refine (h.cancel (h.not_running (calling_other hp hne))).bind ?_
      rintro s' ⟨⟨hpass, hstarting⟩, hst, hexp, t', h'⟩
      refine h'.queue hst (hstarting ▸ hok.1) fun hne' f hf => ?_
      have hp' : s'.pass = .calling u := hpass.trans hp
      have hu : s'.base.expires u = s.base.expires u := congrFun hexp u
      exact BitVec.le_trans (h'.ahead hne' f hf u (.inr hp')) (hu ▸ hok.2 u hp)

theorem Kept.enabled (h : Kept minNs s t) {fuel : Nat} (hrun : a.run minNs fuel s = some s') :
    a.Enabled s := by
  have hwait : ∀ i, s.pass = .calling i → s.cancel fuel i = none := fun i hp => by
    unfold TimerCpu.cancel
    rw [(h.running i).2 hp]
  cases a with
  | advance | cancel | start | interrupt | finish =>
      exact (ite_none_right_eq_some.1 hrun).1
  | queue k =>
      simp only [HrAct.run] at hrun
      split at hrun
      · next hp hk => exact ⟨hp, by rw [hk]; nofun⟩
      · cases hrun
  | fire =>
      simp only [HrAct.run] at hrun
      split at hrun
      · next hp hdue => exact ⟨hp, by rw [hdue]; nofun⟩
      · cases hrun
  | callback restart =>
      simp only [HrAct.run] at hrun
      split at hrun
      · next i hp => exact ⟨i, hp⟩
      · cases hrun
  | callCancel i =>
      simp only [HrAct.run] at hrun
      split at hrun
      · next u hp =>
          refine ⟨u, hp, ?_⟩
          rintro rfl
          exact absurd (hrun.symm.trans (hwait i hp)) nofun
      · cases hrun
  | callStart i e =>
      simp only [HrAct.run] at hrun
      split at hrun
      · next u hp =>
          refine ⟨u, hp, ?_⟩
          rintro rfl
          rw [hwait i hp] at hrun
          cases hrun
      · cases hrun

theorem HrReach.kept (hr : HrReach minNs Apart s) : ∃ t, Kept minNs s t := by
  induction hr with
  | init h => exact ⟨.nil, h.kept⟩
  | step _ hok hrun ih =>
      obtain ⟨t, h⟩ := ih
      obtain ⟨n, hn⟩ := id hrun
      exact hrun.post (h.run hok (h.enabled (hn n (Nat.le_refl n))))

theorem clockeventProgram_le {now expires : BitVec 64} {e : BitVec 64} (h : expires ≤ e) :
    clockeventProgram minNs now expires ≤ e ∨
      clockeventProgram minNs now expires = now + minNs := by
  unfold clockeventProgram
  split
  · exact .inr rfl
  · exact .inl h

/-- In every run in which no timer is started while a start of it waits for the lock, and no
callback starts a timer for a time before the one it was called for:
a queued timer was started last for the expiry it has, and every other start has been followed
by exactly one cancel or call, the call not before the expiry; the timers called in an interrupt
were called in the order of their expiries; outside the interrupt the device is armed for a time
no later than every queued expiry, or for the earliest time it could be armed for; the interrupt
ends only when no queued timer is due; and every call that does not wait for a running callback
returns. -/
theorem timers_exact (hr : HrReach minNs Apart s) :
    (∀ i, Recorded s.base s.history i) ∧
    (s.fired.Pairwise fun new old => old ≤ new) ∧
    (s.pass = .idle → ∀ i, s.base.state i = .queued → s.base.programmed ≤ s.base.expires i ∧
      (s.base.expires i ≠ never → ∃ d, s.device = some d ∧
        (d.target ≤ s.base.expires i ∨ d.target = d.setAt + minNs))) ∧
    (s.due = none → ∀ i, s.base.state i = .queued → s.now < s.base.expires i) ∧
    ∀ a, Apart s a → a.Enabled s →
      Returns (fun fuel => a.run minNs fuel s) (HrReach minNs Apart) := by
  obtain ⟨t, h⟩ := hr.kept
  refine ⟨h.recorded, h.fired, fun hp i hi => ?_, fun hdue i hi => ?_,
    fun a hok hen => ?_⟩
  · have hle := h.programmed hp i ((h.queued.mem i).2 hi)
    refine ⟨hle, fun hne => ?_⟩
    have hprog : s.base.programmed ≠ never := by
      intro he
      rw [he] at hle
      exact hne (BitVec.allOnes_le_iff.1 hle)
    obtain ⟨d, hd, htarget⟩ := h.device hp hprog
    exact ⟨d, hd, by rw [htarget]; exact clockeventProgram_le hle⟩
  · have hmem := (h.queued.mem i).2 hi
    cases hl : s.base.root.rbLeftmost with
    | none =>
        rw [h.queued.leftmost, head?_eq_none_iff] at hl
        rw [hl] at hmem
        cases hmem
    | some j =>
        have hlate : ¬ s.base.expires j ≤ s.now := by
          intro hle
          unfold TimerCpu.due at hdue
          rw [hl, filter_some, if_pos (decide_eq_true hle)] at hdue
          cases hdue
        exact Nat.lt_of_lt_of_le (BitVec.not_le.1 hlate) (h.queued.first_le hl hmem)
  · obtain ⟨s', -, hrun⟩ := h.run hok hen
    exact ⟨s', hr.step hok hrun, hrun⟩

end Runs

omit [DecidableEq ι] in
theorem propagate_none_fuelMono (g : RbStore ι (BitVec 64)) (n : Option ι) :
    FuelMono fun fuel => Aug.propagate none fuel g n :=
  .const _

theorem enqueueLocked_fuelMono (b : HrtimerBase ι) (i : ι) :
    FuelMono fun fuel => b.enqueueLocked fuel i :=
  .map _ ((loop_fuelMono _ _).bind fun _ =>
    rbInsertAugmentedCached_fuelMono propagate_none_fuelMono _ i _)

theorem dequeueLocked_fuelMono (b : HrtimerBase ι) (i : ι) :
    FuelMono fun fuel => b.dequeueLocked fuel i :=
  .map _ (rbEraseAugmentedCached_fuelMono propagate_none_fuelMono _ i)

omit [DecidableEq κ] in
theorem cancel_fuelMono (s : TimerCpu ι κ) (i : ι) : FuelMono fun fuel => s.cancel fuel i := by
  unfold TimerCpu.cancel
  split
  · exact .const _
  · exact .const _
  · exact (dequeueLocked_fuelMono _ i).map _

omit [DecidableEq κ] in
theorem queue_fuelMono (s : TimerCpu ι κ) (i : ι) (e : BitVec 64) :
    FuelMono fun fuel => s.queue minNs fuel i e :=
  (enqueueLocked_fuelMono _ i).map _

theorem HrAct.run_fuelMono (s : TimerCpu ι κ) (a : HrAct ι κ) :
    FuelMono fun fuel => a.run minNs fuel s := by
  cases a <;> simp only [HrAct.run]
  case advance | interrupt | finish => exact .const _
  all_goals
    split
    on_goal 2 => exact .const _
  · exact cancel_fuelMono s _
  · exact (cancel_fuelMono s _).map _
  · exact (queue_fuelMono _ _ _).map _
  · exact (dequeueLocked_fuelMono _ _).map _
  · split
    · exact .const _
    · exact (enqueueLocked_fuelMono _ _).map _
  · exact cancel_fuelMono s _
  · exact (cancel_fuelMono s _).bind fun s => queue_fuelMono s _ _

def hrSystem (minNs : BitVec 64) (fuel : Nat) : System (TimerCpu ι κ) (HrAct ι κ) where
  init := HrInit
  step s a := a.run minNs fuel s

theorem HrReach.of_reach {ok : TimerCpu ι κ → HrAct ι κ → Prop} {fuel : Nat}
    (hr : (hrSystem minNs fuel).Reach ok s) : HrReach minNs ok s := by
  induction hr with
  | init h => exact .init h
  | step _ hok h ih => exact ih.step hok ((HrAct.run_fuelMono _ _).evaluates h)

section Check

variable [Fintype κ]

omit [DecidableEq ι] [DecidableEq κ] [Fintype κ] in
theorem not_starting_iff {t : ι} :
    (∀ k, (s.starting k).map Prod.fst ≠ some t) ↔ ∀ k e, s.starting k ≠ some (t, e) := by
  simp only [ne_eq, map_eq_some_iff, Prod.exists, exists_and_right, exists_eq_right,
    not_exists]

instance (s : TimerCpu ι κ) (t : ι) : Decidable (∀ k e, s.starting k ≠ some (t, e)) :=
  decidable_of_iff _ not_starting_iff

instance (s : TimerCpu ι κ) (P : ι → Prop) [DecidablePred P] :
    Decidable (∀ u, s.pass = .calling u → P u) :=
  match s.pass with
  | .idle => .isTrue nofun
  | .looking => .isTrue nofun
  | .calling u => decidable_of_iff (P u)
      ⟨fun hp _ hv => Pass.calling.inj hv ▸ hp, fun hp => hp u rfl⟩

instance (s : TimerCpu ι κ) : (a : HrAct ι κ) → Decidable (Apart s a)
  | .start _ t _ => inferInstanceAs (Decidable (∀ k e, s.starting k ≠ some (t, e)))
  | .callStart t _ => inferInstanceAs (Decidable ((∀ k e', s.starting k ≠ some (t, e')) ∧
      ∀ u, s.pass = .calling u → _))
  | .callback none => .isTrue nofun
  | .callback (some e) => decidable_of_iff (∀ u, s.pass = .calling u → s.base.expires u ≤ e)
      ⟨fun h u hu _ he => some.inj he ▸ h u hu, fun h u hu => h u hu e rfl⟩
  | .advance _ | .cancel _ | .queue _ | .interrupt | .fire | .finish | .callCancel _ =>
      .isTrue trivial

end Check

def idleTimers : TimerCpu (Fin 3) (Fin 2) where
  base := ⟨emptyStore (Fin 3) (BitVec 64) fun _ => 0, fun _ => .inactive, never, false⟩
  now := 0
  device := none
  pass := .idle
  starting := fun _ => none
  history := fun _ => []
  fired := []

/-- Two timers are due in one interrupt; the first is restarted by its callback, which starts a
third one. -/
theorem timers_exact_restarted : ∃ s : TimerCpu (Fin 3) (Fin 2), HrReach 10 Apart s ∧
    (s.fired = [100, 50] ∧ s.base.programmed = 130 ∧
      s.history 1 = [.started 150, .fired 120, .started 50]) ∧
    s.fired.Pairwise (fun new old => old ≤ new) ∧
    ∀ i, s.base.state i = .queued → s.base.programmed ≤ s.base.expires i := by
  obtain ⟨s, hr, hs⟩ : ∃ s : TimerCpu (Fin 3) (Fin 2), (hrSystem 10 10).Reach Apart s ∧
      (s.fired = [100, 50] ∧ s.base.programmed = 130 ∧
        s.history 1 = [.started 150, .fired 120, .started 50]) ∧ s.pass = .idle :=
    System.Reach.exists_of_run [.start 0 0 100, .queue 0, .start 1 1 50, .queue 1, .advance 120,
      .interrupt, .fire, .callStart 2 130, .callback (some 150), .fire, .callback none, .finish]
      ⟨rfl, rfl, fun _ => rfl, rfl, rfl, rfl, fun _ => rfl, fun _ => rfl, rfl⟩
      (s := idleTimers) (by decide +kernel)
  obtain ⟨-, hfired, hdevice, -⟩ := timers_exact (.of_reach hr)
  exact ⟨s, .of_reach hr, hs.1, hfired, fun i hi => (hdevice hs.2 i hi).1⟩

/-- The callback of timer 0 starts timer 1 while a thread is about to queue it; the timer is linked
below itself, the tree loses its first node, and a timer started later is not called when it is
due. -/
theorem due_timer_not_called : ∃ s : TimerCpu (Fin 3) (Fin 2), HrReach 1 (fun _ _ => True) s ∧
    s.pass = .idle ∧ s.base.state 2 = .queued ∧ s.history 2 = [.started 15] ∧ s.now = 30 ∧
    s.device = none := by
  obtain ⟨s, hr, hs⟩ : ∃ s : TimerCpu (Fin 3) (Fin 2), (hrSystem 1 10).Reach (fun _ _ => True) s ∧
      s.pass = .idle ∧ s.base.state 2 = .queued ∧ s.history 2 = [.started 15] ∧ s.now = 30 ∧
      s.device = none :=
    System.Reach.exists_of_run [.start 0 0 5, .queue 0, .start 0 1 10, .advance 5,
      .interrupt, .fire,
      .callStart 1 20, .callback none, .finish, .queue 0, .advance 10, .interrupt, .fire,
      .callback none, .finish, .start 0 2 15, .queue 0, .advance 30, .interrupt, .finish]
      ⟨rfl, rfl, fun _ => rfl, rfl, rfl, rfl, fun _ => rfl, fun _ => rfl, rfl⟩
      (s := idleTimers) (by decide +kernel)
  exact ⟨s, .of_reach hr, hs⟩

end NeoKernel.Hrtimer
