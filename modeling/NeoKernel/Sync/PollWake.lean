import NeoKernel.Lib.Update
import NeoKernel.Sync.Poll

/-!
# Pollers are not left asleep

What one step can do is said once (`Moves`), for a run in which no signal reaches a thread that a
waker has in hand: a thread is then in one place only (`Single`). A sleeping thread is on the queue
or in the hand of a context; a thread that has looked at an object is told of every later change of
it, by its flag while it is awake and by a wake when it sleeps.
-/
namespace NeoKernel.Poll
open Lib Function List Option

variable {τ ι κ ε : Type} [DecidableEq τ] [DecidableEq κ]
variable {w : World τ ι} {s s' : PollState τ ι κ ε} {a : PollAct τ ι κ ε}

/-- The steps of a thread that change nothing but the thread; `th` is the thread before. -/
inductive Turn (w : World τ ι) (s : PollState τ ι κ ε) (t : τ) (th : Thread ε) :
    Thread ε → Prop where
  | registered {i} : th.pc = .register i → th.slots[i]? = none →
      Turn w s t th { th with pc := .publish }
  | registerClosed {i x} : th.pc = .register i → th.slots[i]? = some x → x.fd < 0 →
      Turn w s t th { th with pc := .register (i + 1) }
  | registerNone {i x} : th.pc = .register i → th.slots[i]? = some x → 0 ≤ x.fd →
      (∀ o, w.fdGet t x.fd = some o → w.head o = false) →
      Turn w s t th { th with pc := .register (i + 1), broadcast := true }
  | publish : th.pc = .publish → Turn w s t th { th with pc := .clear, wants := th.broadcast }
  | clear : th.pc = .clear → Turn w s t th { th with pc := .scan 0, notified := false, ready := 0 }
  | skip {i x} : th.pc = .scan i → th.slots[i]? = some x → x.fd < 0 →
      Turn w s t th { th with pc := .scan (i + 1), slots := th.slots.set i { x with revents := 0 } }
  | sample {i x} : th.pc = .scan i → th.slots[i]? = some x → 0 ≤ x.fd →
      Turn w s t th { th with pc := .sampled i (if x.et then fileReadySeq w s t x.fd else none) }
  | poll {i seq x y} : th.pc = .sampled i seq → th.slots[i]? = some x →
      y = x.scan seq (x.got ((w.fdGet t x.fd).map fun o => (s.obj o).ready)) →
      Turn w s t th { th with
        pc := .scan (i + 1), slots := th.slots.set i y
        ready := if y.revents = 0 then th.ready else th.ready + 1 }
  | found {i} : th.pc = .scan i → th.slots[i]? = none → th.ready ≠ 0 ∨ th.deadline = some 0 →
      Turn w s t th { th with pc := .leave 0 false }
  | nothing {i} : th.pc = .scan i → th.slots[i]? = none → th.ready = 0 →
      Turn w s t th { th with pc := .wait }
  | stop {intr} : th.pc = .wait →
      Turn w s t th { th with pc := .leave 0 intr, timedOut := false }
  | retry : th.pc = .wait → Turn w s t th { th with pc := .clear, timedOut := false }
  | resume {pc} : th.pc = .resumed → pc = .clear ∨ (∃ intr, pc = .leave 0 intr) →
      Turn w s t th { th with pc, blockedOn := false }
  | leave {i intr} : th.pc = .leave i intr →
      Turn w s t th { th with pc := .leave (i + 1) intr }
  | finish {i intr pc} : th.pc = .leave i intr → th.slots[i]? = none →
      pc = (if th.call.isSome then .back intr else .idle) →
      Turn w s t th { th with pc, wants := false }
  | callPoll (pfd : List (Int × Mask)) (deadline : Option Nat) : th.pc = .idle →
      Turn w s t th { th with
        pc := .register 0, slots := pfd.map pollSlot, ready := 0, deadline, broadcast := false
        call := none, setAt := s.now }
  | callEpoll (set : ε) (m : Nat) (timeout : Option Nat) : th.pc = .idle →
      Turn w s t th { th with
        pc := .snap, slots := [], call := some ⟨set, m, timeout, timeout.map (s.now + ·)⟩ }
  | snapshot {call} : th.pc = .snap → th.call = some call →
      Turn w s t th { th with
        pc := .register 0, slots := (s.epoll call.set).snapshot call.maxevents, ready := 0
        deadline := call.deadline s.now, broadcast := false, setAt := s.now }
  | empty {intr call} : th.pc = .out intr → th.call = some call →
      (intr = false → collect th.ready th.slots = []) → Turn w s t th { th with pc := .idle }
  | again {call} : th.pc = .out false → th.call = some call →
      collect th.ready th.slots = [] → Turn w s t th { th with pc := .snap, slots := [] }

inductive Moves [DecidableEq ι] [DecidableEq ε] (w : World τ ι) (s : PollState τ ι κ ε)
    (a : PollAct τ ι κ ε) :
    PollState τ ι κ ε → Prop where
  | tick {now} : s.now ≤ now → Moves w s a { s with now }
  | withdraw {o mask} :
      Moves w s a (s.setObj o { s.obj o with ready := (s.obj o).ready &&& mask })
  | change {c o ready} : s.ctx c = .idle →
      Moves w s a ((s.setObj o { s.obj o with ready }).setCtx c (.changed o))
  | beginHead {c o} : s.ctx c = .changed o → w.head o = true →
      Moves w s a ((s.setObj o { s.obj o with seq := (s.obj o).seq + 1, lock := some c }).setCtx c
        (.flagging o ((s.obj o).list.map Prod.fst)))
  | beginBroadcast {c o} : s.ctx c = .changed o → w.head o = false →
      Moves w s a ((s.setObj o { s.obj o with seq := (s.obj o).seq + 1 }).setCtx c
        (.draining (some o)))
  | flag {c o t rest} :
      s.ctx c = .flagging o (t :: rest) →
      Moves w s a ((s.setThread t { s.thread t with notified := true }).setCtx c (.flagging o rest))
  | flagged {c o} : s.ctx c = .flagging o [] →
      Moves w s a (s.setCtx c (.waking o ((s.obj o).list.map Prod.fst)))
  | wake {c o t rest} :
      s.ctx c = .waking o (t :: rest) → s.Queued t →
      Moves w s a ((s.unqueue t).setCtx c (.giving t (.waking o rest)))
  | wakeOther {c o t rest} :
      s.ctx c = .waking o (t :: rest) → ¬ s.Queued t →
      Moves w s a (s.setCtx c (.waking o rest))
  | woken {c o} : s.ctx c = .waking o [] →
      Moves w s a ((s.setObj o { s.obj o with lock := none }).setCtx c .idle)
  | make {c t next} : s.ctx c = .giving t next →
      (s.thread t).pc = .asleep →
      Moves w s a ((s.setThread t { s.thread t with pc := .resumed }).setCtx c next)
  | makeAwake {c t next} : s.ctx c = .giving t next →
      (s.thread t).pc ≠ .asleep → Moves w s a (s.setCtx c next)
  | drain {c o woken} : a = .drain c → s.ctx c = .draining o →
      woken = s.queue.filter (fun t => (s.thread t).wants) →
      Moves w s a ({ s with
        queue := s.queue.filter fun t => !(s.thread t).wants
        thread := fun t =>
          if t ∈ woken then { s.thread t with blockedOn := false } else s.thread t }.setCtx c
        (.handing woken.reverse))
  | hand {c t rest} : s.ctx c = .handing (t :: rest) →
      Moves w s a ((s.setThread t { s.thread t with notified := true }).setCtx c
        (.giving t (.handing rest)))
  | handed {c} : s.ctx c = .handing [] → Moves w s a (s.setCtx c .idle)
  | broadcast {c} : s.ctx c = .idle →
      Moves w s a (s.setCtx c (.draining none))
  | timer {c t} : s.ctx c = .idle → s.Queued t →
      Moves w s a (((s.setThread t { s.thread t with timedOut := true }).unqueue t).setCtx c
        (.giving t .idle))
  | interrupt {c t} : s.ctx c = .idle → s.Queued t →
      Moves w s a ((s.unqueue t).setCtx c (.giving t .idle))
  | ctl {c set op fd events data o k} : s.ctx c = .idle →
      (s.epoll set).ctl op fd events data = .ok o → k = .idle ∨ k = .draining none →
      Moves w s a ({ s with epoll := update s.epoll set o }.setCtx c k)
  | register {t i x o} :
      (s.thread t).pc = .register i → (s.thread t).slots[i]? = some x → 0 ≤ x.fd →
      w.fdGet t x.fd = some o → w.head o = true →
      Moves w s a ((s.setObj o { s.obj o with list := (t, i) :: (s.obj o).list }).setThread t
        { s.thread t with
          pc := .register (i + 1)
          slots := (s.thread t).slots.set i { x with registered := true } })
  | unregister {t i intr x o} :
      (s.thread t).pc = .leave i intr → (s.thread t).slots[i]? = some x →
      Moves w s a ((s.setObj o { s.obj o with list := (s.obj o).list.erase (t, i) }).setThread t
        { s.thread t with
          pc := .leave (i + 1) intr
          slots := (s.thread t).slots.set i { x with registered := false } })
  | sleep {t} : (s.thread t).pc = .wait →
      (s.thread t).notified = false → s.expired (s.thread t).deadline = false →
      Moves w s a { s.setThread t { s.thread t with
        pc := .asleep, blockedOn := true, timedOut := false } with queue := s.queue ++ [t] }
  | writeback {t intr call o} :
      (s.thread t).pc = .back intr → (s.thread t).call = some call →
      o = (s.epoll call.set).edgesWriteback (s.thread t).slots →
      Moves w s a ({ s with epoll := update s.epoll call.set o }.setThread t
        { s.thread t with pc := .out intr })
  | deliver {t call out} :
      (s.thread t).pc = .out false → (s.thread t).call = some call →
      out = (reports (s.thread t).slots).take (s.thread t).ready ++ s.delivered call.set →
      Moves w s a ({ s with delivered := update s.delivered call.set out }.setThread t
        { s.thread t with pc := .idle })
  | turn {t x} : Turn w s t (s.thread t) x →
      Moves w s a (s.setThread t x)

inductive Change [DecidableEq ε] (w : World τ ι) (s s' : PollState τ ι κ ε) (t : τ)
    (th : Thread ε) :
    Thread ε → Prop where
  | mark (notified blockedOn timedOut : Bool) :
      Change w s s' t th { th with notified, blockedOn, timedOut }
  | woken : th.pc = .asleep → Change w s s' t th { th with pc := .resumed }
  | sleep : th.pc = .wait →
      Change w s s' t th { th with pc := .asleep, blockedOn := true, timedOut := false }
  | register {i x} : th.pc = .register i → th.slots[i]? = some x →
      (∀ o, w.fdGet t x.fd = some o → w.head o = true ∧ t ∈ (s'.obj o).list.map Prod.fst) →
      Change w s s' t th { th with
        pc := .register (i + 1), slots := th.slots.set i { x with registered := true } }
  | unregister {i intr x} : th.pc = .leave i intr → th.slots[i]? = some x →
      Change w s s' t th { th with
        pc := .leave (i + 1) intr, slots := th.slots.set i { x with registered := false } }
  | writeback {intr} : th.pc = .back intr → Change w s s' t th { th with pc := .out intr }
  | deliver {call} : th.pc = .out false → th.call = some call →
      s'.delivered = update s.delivered call.set
        ((reports th.slots).take th.ready ++ s.delivered call.set) →
      Change w s s' t th { th with pc := .idle }
  | turn {x} : Turn w s t th x → Change w s s' t th x

variable {c : κ} {k : Ctx τ ι} {i : Nat} {pc : Pc} {y : Slot} {ob : Obj τ κ} {t : τ}
  {th x : Thread ε} {slots : List Slot} {o : ι} {P : ι → Prop}

/-- Nobody has a thread in hand that is awake or on the queue, nor do two contexts have it. -/
structure Single (s : PollState τ ι κ ε) : Prop where
  queue : s.queue.Nodup
  queued : ∀ t ∈ s.queue, (s.thread t).pc = .asleep
  nodup : ∀ c, (s.ctx c).held.Nodup
  held : ∀ c, ∀ t ∈ (s.ctx c).held, (s.thread t).pc = .asleep ∧ t ∉ s.queue
  apart : ∀ c c' t, t ∈ (s.ctx c).held → t ∈ (s.ctx c').held → c = c'

theorem upTo_of_not_mem {l : List τ} (h : t ∉ l) : upTo t l = l := if_neg h

theorem Ctx.requeue_of_not_mem (h : t ∉ k.held) : k.requeue t = k := by
  induction k with
  | handing rest => exact congrArg Ctx.handing (upTo_of_not_mem h)
  | giving u next ih => exact congrArg (Ctx.giving u) (ih fun hm => h (mem_cons_of_mem _ hm))
  | _ => rfl

omit [DecidableEq κ] in
theorem Single.enqueue (h : Single s) (ht : (s.thread t).pc ≠ .asleep) (x : Thread ε) :
    (s.setThread t x).enqueue t = { s.setThread t x with queue := s.queue ++ [t] } := by
  have hctx : (fun c => (s.ctx c).requeue t) = s.ctx :=
    funext fun c => Ctx.requeue_of_not_mem fun hm => ht (h.held c t hm).1
  unfold PollState.enqueue PollState.setThread
  dsimp only
  rw [hctx]

section

variable [DecidableEq ι] [DecidableEq ε]

theorem ctxStep_moves (hc : ∀ c', a = .drain c' → c' = c) (hok : SignalsQueued s a)
    (h : s.ctxStep w c a = some s') : Moves w s a s' := by
  revert h
  fun_cases PollState.ctxStep w s c a <;> intro h <;> cases h
  · next hk => exact .change hk
  · next hk hh _ => exact .beginHead hk hh
  · next hk hh => exact .beginBroadcast hk (by simpa using hh)
  · next hk => exact .flag hk
  · next hk => exact .flagged hk
  · next hk hq => exact .wake hk hq
  · next hk hq => exact .wakeOther hk hq
  · next hk => exact .woken hk
  · next hk hp => exact .make hk hp
  · next hk hp => exact .makeAwake hk hp
  · next c' o hk woken _ =>
      obtain rfl := hc c' rfl
      exact .drain rfl hk rfl
  · next hk => exact .hand hk
  · next hk => exact .handed hk
  · next hk => exact .broadcast hk
  · next hk hq => exact .timer hk hq.1
  · next hk =>
      have hq : s.Queued _ := hok _ rfl
      rw [if_pos hq]
      exact .interrupt hk hq
  · next op _ _ _ _ hctl hk =>
      refine .ctl hk hctl ?_
      by_cases hop : op = CtlOp.del
      · exact .inl (if_pos hop)
      · exact .inr (if_neg hop)

theorem coreStep_moves (hsingle : Single s) (h : s.coreStep w t a = some s') : Moves w s a s' := by
  revert h
  fun_cases PollState.coreStep w s t a <;> intro h <;> cases h
  · next hp hx => exact .turn (.registered hp hx)
  · next hp x hx hfd => exact .turn (.registerClosed hp hx hfd)
  · next hp x hx hfd o ho _ =>
      obtain ⟨ho, hh⟩ := filter_eq_some_iff.1 ho
      exact .register hp hx (Int.not_lt.1 hfd) ho hh
  · next hp x hx hfd ho =>
      refine .turn (.registerNone hp hx (Int.not_lt.1 hfd) fun o hget => ?_)
      rw [hget] at ho
      simpa using ho
  · next hp => exact .turn (.publish hp)
  · next hp => exact .turn (.clear hp)
  · next hp x hx hfd => exact .turn (.skip hp hx hfd)
  · next hp x hx hfd => exact .turn (.sample hp hx (Int.not_lt.1 hfd))
  · next hp x hx y => exact .turn (.poll hp hx rfl)
  · next hp hx =>
      split
      · next hr => exact .turn (.found hp hx hr)
      · next hr => exact .turn (.nothing hp hx (not_not.1 (not_or.1 hr).1))
  · next hp _ => exact .turn (.stop hp)
  · next hp _ => exact .turn (.stop hp)
  · next hp _ _ _ => exact .turn (.retry hp)
  · next hp hexp _ hn _ =>
      have hawake : (s.thread t).pc ≠ .asleep := fun h => Pc.noConfusion (hp.symm.trans h)
      rw [hsingle.enqueue hawake]
      exact .sleep hp (by simpa using hn) (by simpa using hexp)
  · next hp =>
      refine .turn (.resume hp ?_)
      split
      · exact .inr ⟨true, rfl⟩
      · split
        · exact .inr ⟨false, rfl⟩
        · exact .inl rfl
  · next hp x _ _ => exact .turn (.leave hp)
  · next hp x hx o _ _ => exact .unregister hp hx
  · next hp hx => exact .turn (.finish hp hx rfl)

theorem callStep_moves (h : s.callStep t a = some s') : Moves w s a s' := by
  revert h
  fun_cases PollState.callStep s t a <;> intro h <;> cases h
  · next hp => exact .turn (.callPoll _ _ hp)
  · next hp _ => exact .turn (.callEpoll _ _ _ hp)
  · next hc hp => exact .turn (.snapshot hp hc)
  · next hc hp o => exact .writeback hp hc rfl
  · next hc hp => exact .turn (.empty hp hc nofun)
  · next intr _ hc hp hi _ out =>
      obtain rfl : intr = false := by simpa using hi
      exact .deliver hp hc rfl
  · next hc hp _ hout _ => exact .turn (.empty hp hc fun _ => not_not.1 hout)
  · next intr _ hc hp hi hout _ =>
      obtain rfl : intr = false := by simpa using hi
      exact .turn (.again hp hc (not_not.1 hout))

theorem pollStep_moves (hsingle : Single s) (hok : SignalsQueued s a)
    (h : pollStep w s a = some s') : Moves w s a s' := by
  cases a <;> simp only [pollStep] at h
  case tick =>
    obtain ⟨hn, ⟨⟩⟩ := ite_none_right_eq_some.1 h
    exact .tick hn
  case withdraw => cases h; exact .withdraw
  case register | publish | clear | sample | poll | settle | sleep | resume | unregister | finish =>
    exact coreStep_moves hsingle h
  case callPoll | callEpoll | snapshot | writeback | collect => exact callStep_moves h
  case drain c => exact ctxStep_moves (fun c' hc => (PollAct.drain.inj hc).symm) hok h
  all_goals exact ctxStep_moves nofun hok h

end

omit [DecidableEq κ] in
theorem timer_thread (s : PollState τ ι κ ε) (t : τ) :
    ((s.setThread t { s.thread t with timedOut := true }).unqueue t).thread =
      update s.thread t { s.thread t with timedOut := true, blockedOn := false } := by
  change update (update s.thread t _) t
    { update s.thread t { s.thread t with timedOut := true } t with blockedOn := false } = _
  rw [update_idem, update_self]

theorem Moves.changes [DecidableEq ι] [DecidableEq ε] (hm : Moves w s a s') (t : τ) :
    Change w s s' t (s.thread t) (s'.thread t) := by
  have hset : ∀ {u : τ} {x : Thread ε}, Change w s s' u (s.thread u) x →
      Change w s s' t (s.thread t) (update s.thread u x t) := fun hx =>
    (forall_update_iff s.thread fun t x => Change w s s' t (s.thread t) x).2
      ⟨hx, fun _ _ => .mark ..⟩ t
  cases hm with
  | flag | hand | wake | interrupt => exact hset (.mark ..)
  | @timer _ u =>
      change Change w s _ t _
        (((s.setThread u { s.thread u with timedOut := true }).unqueue u).thread t)
      rw [timer_thread]
      exact hset (.mark ..)
  | make _ hp => exact hset (.woken hp)
  | @drain _ _ woken =>
      change Change w s _ t _
        (if t ∈ woken then { s.thread t with blockedOn := false } else s.thread t)
      split <;> exact .mark ..
  | @register u i x o hp hx _ ho hh =>
      refine hset (.register hp hx fun o' ho' => ?_)
      cases ho.symm.trans ho'
      refine ⟨hh, ?_⟩
      change u ∈ (update s.obj o _ o).list.map Prod.fst
      rw [update_self]
      exact mem_cons_self
  | unregister hp hx => exact hset (.unregister hp hx)
  | sleep hp => exact hset (.sleep hp)
  | writeback hp => exact hset (.writeback hp)
  | deliver hp hc hout => exact hset (.deliver hp hc (by rw [← hout]; rfl))
  | turn ht => exact hset (.turn ht)
  | _ => exact .mark ..

/-- A sleeping thread is on the queue or in the hand of a context. -/
def Placed (s : PollState τ ι κ ε) : Prop :=
  ∀ t, (s.thread t).pc = .asleep → s.Queued t ∨ ∃ c, t ∈ (s.ctx c).held

omit [DecidableEq τ] [DecidableEq κ] in
theorem Turn.awake (h : Turn w s t th x) : th.pc ≠ .asleep ∧ x.pc ≠ .asleep := by
  cases h
  case resume hp hpc =>
    refine ⟨by rw [hp]; nofun, ?_⟩
    rcases hpc with rfl | ⟨intr, rfl⟩ <;> nofun
  case finish i intr pc hp _ hpc =>
    refine ⟨by rw [hp]; nofun, ?_⟩
    change pc ≠ _
    rw [hpc]
    split <;> nofun
  all_goals exact ⟨by simp [*], nofun⟩

namespace Single

variable {next : Ctx τ ι} (h : Single s)
include h

omit [DecidableEq τ] in
/-- One context goes on to `k`. What it then has in hand, and what is on the queue, it had or was
there before, and sleeps on. -/
theorem ctx (hctx : s'.ctx = update s.ctx c k) (hnodup : (k.held ++ s'.queue).Nodup)
    (hsub : ∀ t ∈ k.held ++ s'.queue, t ∈ (s.ctx c).held ++ s.queue)
    (hpc : ∀ t, (s.thread t).pc = .asleep → (s'.thread t).pc = .asleep ∨
      t ∈ (s.ctx c).held ∧ t ∉ k.held ++ s'.queue) : Single s' := by
  obtain ⟨hkeep, hqueue, hdisj⟩ := nodup_append'.1 hnodup
  have hself : s'.ctx c = k := by rw [hctx, update_self]
  have hother : ∀ c', c' ≠ c → s'.ctx c' = s.ctx c' := fun c' hne => by rw [hctx, update_of_ne hne]
  have hasleep : ∀ t ∈ k.held ++ s'.queue, (s'.thread t).pc = .asleep := by
    intro t ht
    have hold : (s.thread t).pc = .asleep :=
      (mem_append.1 (hsub t ht)).elim (fun hm => (h.held c t hm).1) (h.queued t)
    exact (hpc t hold).resolve_right fun hno => hno.2 ht
  -- what another context has in hand is not in this one's, nor on the queue
  have hout : ∀ c', c' ≠ c → ∀ t ∈ (s.ctx c').held, t ∉ k.held ++ s'.queue := by
    intro c' hne t ht hm
    rcases mem_append.1 (hsub t hm) with hm | hm
    · exact hne (h.apart c' c t ht hm)
    · exact (h.held c' t ht).2 hm
  refine ⟨hqueue, fun t ht => hasleep t (mem_append_right _ ht), fun c' => ?_, fun c' t ht => ?_,
    fun c₁ c₂ t h₁ h₂ => ?_⟩
  · by_cases hne : c' = c
    · rw [hne, hself]
      exact hkeep
    · rw [hother c' hne]
      exact h.nodup c'
  · by_cases hne : c' = c
    · rw [hne, hself] at ht
      exact ⟨hasleep t (mem_append_left _ ht), fun hm => hdisj ht hm⟩
    · rw [hother c' hne] at ht
      refine ⟨(hpc t (h.held c' t ht).1).resolve_right fun hno => hne (h.apart c' c t ht hno.1), ?_⟩
      exact fun hm => hout c' hne t ht (mem_append_right _ hm)
  · by_cases h₁c : c₁ = c
    · by_cases h₂c : c₂ = c
      · rw [h₁c, h₂c]
      · rw [h₁c, hself] at h₁
        rw [hother c₂ h₂c] at h₂
        exact absurd (mem_append_left _ h₁) (hout c₂ h₂c t h₂)
    · rw [hother c₁ h₁c] at h₁
      by_cases h₂c : c₂ = c
      · rw [h₂c, hself] at h₂
        exact absurd (mem_append_left _ h₂) (hout c₁ h₁c t h₁)
      · rw [hother c₂ h₂c] at h₂
        exact h.apart c₁ c₂ t h₁ h₂

omit [DecidableEq τ] [DecidableEq κ] in
theorem append (c : κ) : ((s.ctx c).held ++ s.queue).Nodup :=
  nodup_append'.2 ⟨h.nodup c, h.queue, fun _ ht hq => (h.held c _ ht).2 hq⟩

omit [DecidableEq τ] in
theorem setCtx (hq : s'.queue = s.queue) (hpc : ∀ t, (s'.thread t).pc = (s.thread t).pc)
    (hctx : s'.ctx = update s.ctx c k) (hk : k.held = (s.ctx c).held) : Single s' := by
  refine h.ctx hctx ?_ (fun t ht => ?_) fun t ht => .inl ((hpc t).trans ht)
  · rw [hk, hq]
    exact h.append c
  · rwa [hk, hq] at ht

theorem unqueue (hpc : ∀ u, (s'.thread u).pc = (s.thread u).pc) (hq : s'.queue = s.queue.erase t)
    (ht : t ∈ s.queue) (hctx : s'.ctx = update s.ctx c k) (hc : (s.ctx c).held = [])
    (hk : k.held = [t]) : Single s' := by
  have hperm : k.held ++ s'.queue ~ (s.ctx c).held ++ s.queue := by
    rw [hk, hq, hc]
    exact (perm_cons_erase ht).symm
  exact h.ctx hctx (hperm.nodup_iff.2 (h.append c)) (fun u hu => hperm.mem_iff.1 hu)
    fun u hu => .inl ((hpc u).trans hu)

theorem make {x : Thread ε} (hc : s.ctx c = .giving t next) :
    Single ((s.setThread t x).setCtx c next) := by
  have hnodup := h.append c
  rw [hc] at hnodup
  obtain ⟨hnot, hnodup⟩ := nodup_cons.1 hnodup
  refine h.ctx rfl hnodup (fun u hu => ?_) fun u hu => ?_
  · rw [hc]
    exact mem_cons_of_mem _ hu
  · by_cases hne : u = t
    · rw [hne, hc]
      exact .inr ⟨mem_cons_self, hnot⟩
    · exact .inl ((congrArg Thread.pc (update_of_ne hne ..)).trans hu)

omit [DecidableEq κ] in
theorem setThread (hq : s'.queue = s.queue) (hc : s'.ctx = s.ctx)
    (ht : s'.thread = update s.thread t x) (hawake : (s.thread t).pc ≠ .asleep) : Single s' := by
  have hpc : ∀ u, (s.thread u).pc = .asleep → (s'.thread u).pc = .asleep := by
    intro u hu
    have hne : u ≠ t := fun hut => hawake (hut ▸ hu)
    rw [ht, update_of_ne hne]
    exact hu
  refine ⟨hq ▸ h.queue, fun u hu => hpc u (h.queued u (hq ▸ hu)), ?_, ?_, ?_⟩
  · rw [hc]
    exact h.nodup
  · rw [hc, hq]
    exact fun c u hu => ⟨hpc u (h.held c u hu).1, (h.held c u hu).2⟩
  · rw [hc]
    exact h.apart

omit [DecidableEq κ] in
theorem sleep (hawake : (s.thread t).pc ≠ .asleep) (hx : x.pc = .asleep) :
    Single { s.setThread t x with queue := s.queue ++ [t] } := by
  have hset : Single (s.setThread t x) := h.setThread rfl rfl rfl hawake
  have hnot : t ∉ s.queue := fun hm => hawake (h.queued t hm)
  have hself : ((s.setThread t x).thread t).pc = .asleep := by
    change (update s.thread t x t).pc = _
    rw [update_self, hx]
  refine ⟨?_, fun u hu => ?_, hset.nodup, fun c u hu => ⟨(hset.held c u hu).1, fun hm => ?_⟩,
    hset.apart⟩
  · exact nodup_append'.2 ⟨h.queue, nodup_singleton t, by simpa using hnot⟩
  · rcases mem_append.1 hu with hu | hu
    · exact hset.queued u hu
    · rw [mem_singleton.1 hu]
      exact hself
  · rcases mem_append.1 hm with hm | hm
    · exact (h.held c u hu).2 hm
    · exact hawake (mem_singleton.1 hm ▸ (h.held c u hu).1)

theorem drain {o : Option ι} (hc : s.ctx c = .draining o)
    {woken : List τ} (hw : woken = s.queue.filter fun t => (s.thread t).wants) :
    Single ({ s with
      queue := s.queue.filter fun t => !(s.thread t).wants
      thread := fun t =>
        if t ∈ woken then { s.thread t with blockedOn := false } else s.thread t }.setCtx c
      (.handing woken.reverse)) := by
  have hperm : woken.reverse ++ s.queue.filter (fun t => !(s.thread t).wants) ~
      (s.ctx c).held ++ s.queue := by
    rw [hc, hw]
    exact ((reverse_perm _).append_right _).trans (filter_append_perm ..)
  refine h.ctx rfl (hperm.nodup_iff.2 (h.append c)) (fun u hu => hperm.mem_iff.1 hu)
    fun u hu => .inl ?_
  change (if u ∈ woken then { s.thread u with blockedOn := false } else s.thread u).pc = _
  split <;> exact hu

theorem step [DecidableEq ι] [DecidableEq ε] (hm : Moves w s a s') : Single s' := by
  cases hm with
  | tick | withdraw => exact ⟨h.queue, h.queued, h.nodup, h.held, h.apart⟩
  | change hc | beginHead hc | beginBroadcast hc | flagged hc | wakeOther hc | woken hc
  | handed hc | broadcast hc => exact h.setCtx rfl (fun _ => rfl) rfl (by rw [hc]; rfl)
  | flag hc | hand hc =>
      exact h.setCtx rfl (update_keeps Thread.pc (by rfl)) rfl (by rw [hc]; rfl)
  | wake hc hq | interrupt hc hq =>
      exact h.unqueue (update_keeps Thread.pc (by rfl)) rfl hq.2 rfl (by rw [hc]; rfl) rfl
  | timer hc hq =>
      refine h.unqueue (fun u => ?_) rfl hq.2 rfl (by rw [hc]; rfl) rfl
      exact (congrArg Thread.pc (congrFun (timer_thread s _) u)).trans
        (update_keeps Thread.pc (by rfl) u)
  | make hc => exact h.make hc
  | makeAwake hc hp => exact absurd (h.held _ _ (by rw [hc]; exact mem_cons_self)).1 hp
  | drain _ hc hw => exact h.drain hc hw
  | ctl hc _ hk =>
      exact h.setCtx rfl (fun _ => rfl) rfl (by rw [hc]; rcases hk with rfl | rfl <;> rfl)
  | register hp | unregister hp | writeback hp | deliver hp =>
      exact h.setThread rfl rfl rfl (by rw [hp]; nofun)
  | sleep hp => exact h.sleep (by rw [hp]; nofun) rfl
  | turn ht => exact h.setThread rfl rfl rfl ht.awake.1

end Single

namespace Placed

variable {next : Ctx τ ι} (h : Placed s)
include h

omit [DecidableEq τ] in
/-- One context goes on to `k`, and has in hand what it had and what leaves the queue. -/
theorem ctx (hctx : s'.ctx = update s.ctx c k)
    (hstay : ∀ t, (s'.thread t).pc = .asleep → (s.thread t).pc = .asleep ∧
      (s.Queued t → s'.Queued t ∨ t ∈ k.held) ∧ (t ∈ (s.ctx c).held → t ∈ k.held)) : Placed s' := by
  intro t ht
  obtain ⟨hp, hq, hk⟩ := hstay t ht
  have hself : s'.ctx c = k := by rw [hctx, update_self]
  rcases h t hp with hin | ⟨c', hc'⟩
  · exact (hq hin).imp_right fun hm => ⟨c, hself ▸ hm⟩
  · by_cases hne : c' = c
    · exact .inr ⟨c, hself ▸ hk (hne ▸ hc')⟩
    · exact .inr ⟨c', by rw [hctx, update_of_ne hne]; exact hc'⟩

omit [DecidableEq τ] in
theorem setCtx (hq : s'.queue = s.queue) (ht : s'.thread = s.thread)
    (hctx : s'.ctx = update s.ctx c k) (hk : k.held = (s.ctx c).held) : Placed s' := by
  refine h.ctx hctx fun t hp => ⟨ht ▸ hp, fun hin => .inl ?_, fun hm => hk ▸ hm⟩
  rw [PollState.Queued, ht, hq]
  exact hin

theorem unqueue (ht : s'.thread = update s.thread t x) (hx : x.pc = (s.thread t).pc)
    (hq : s'.queue = s.queue.erase t)
    (hctx : s'.ctx = update s.ctx c k) (hc : (s.ctx c).held = []) (hk : t ∈ k.held) :
    Placed s' := by
  refine h.ctx hctx fun u hu => ⟨?_, fun hin => ?_, fun hm => ?_⟩
  · rw [ht] at hu
    exact (update_keeps Thread.pc hx u).symm.trans hu
  · by_cases hne : u = t
    · exact .inr (hne ▸ hk)
    · refine .inl ⟨?_, ?_⟩
      · rw [ht, update_of_ne hne]
        exact hin.1
      · rw [hq]
        exact (mem_erase_of_ne hne).2 hin.2
  · rw [hc] at hm
    cases hm

omit [DecidableEq κ] in
theorem setThread (hq : s'.queue = s.queue) (hc : s'.ctx = s.ctx)
    (ht : s'.thread = update s.thread t x) (hx : x.pc ≠ .asleep) : Placed s' := by
  intro u hu
  have hne : u ≠ t := by
    rintro rfl
    rw [ht, update_self] at hu
    exact hx hu
  rw [ht, update_of_ne hne] at hu
  rw [PollState.Queued, ht, hq, hc, update_of_ne hne]
  exact h u hu

theorem setFlag (hx : x.pc = (s.thread t).pc) (hb : x.blockedOn = (s.thread t).blockedOn)
    (hk : k.held = (s.ctx c).held) : Placed ((s.setThread t x).setCtx c k) := by
  refine h.ctx rfl fun u hu => ⟨?_, fun hin => .inl ⟨?_, hin.2⟩, fun hm => hk ▸ hm⟩
  · exact (update_keeps Thread.pc hx u).symm.trans hu
  · exact (update_keeps Thread.blockedOn hb u).trans hin.1

theorem make (hc : s.ctx c = .giving t next) :
    Placed ((s.setThread t { s.thread t with pc := .resumed }).setCtx c next) := by
  refine h.ctx rfl fun u hu => ?_
  have hne : u ≠ t := by
    rintro rfl
    change (update s.thread u { s.thread u with pc := .resumed } u).pc = .asleep at hu
    rw [update_self] at hu
    cases hu
  have hthread : update s.thread t { s.thread t with pc := .resumed } u = s.thread u :=
    update_of_ne hne ..
  refine ⟨hthread ▸ hu, fun hin => .inl ⟨(congrArg Thread.blockedOn hthread).trans hin.1, hin.2⟩,
    fun hm => ?_⟩
  rw [hc] at hm
  exact (mem_cons.1 hm).resolve_left hne

omit [DecidableEq τ] in
theorem makeAwake (hc : s.ctx c = .giving t next)
    (hp : (s.thread t).pc ≠ .asleep) : Placed (s.setCtx c next) := by
  refine h.ctx rfl fun u hu => ⟨hu, .inl, fun hm => ?_⟩
  rw [hc] at hm
  exact (mem_cons.1 hm).resolve_left fun hut => hp (hut ▸ hu)

omit [DecidableEq κ] in
theorem sleep :
    Placed { s.setThread t { s.thread t with
      pc := .asleep, blockedOn := true, timedOut := false } with queue := s.queue ++ [t] } := by
  intro u hu
  change (update s.thread t _ u).pc = _ at hu
  change ((update s.thread t _ u).blockedOn = true ∧ u ∈ s.queue ++ [t]) ∨ _
  by_cases hne : u = t
  · rw [hne, update_self]
    exact .inl ⟨rfl, mem_append_right _ mem_cons_self⟩
  · rw [update_of_ne hne] at hu ⊢
    exact (h u hu).imp_left fun hin => ⟨hin.1, mem_append_left _ hin.2⟩

theorem drain {o : Option ι} (hc : s.ctx c = .draining o)
    {woken : List τ} (hw : woken = s.queue.filter fun t => (s.thread t).wants) :
    Placed ({ s with
      queue := s.queue.filter fun t => !(s.thread t).wants
      thread := fun t =>
        if t ∈ woken then { s.thread t with blockedOn := false } else s.thread t }.setCtx c
      (.handing woken.reverse)) := by
  refine h.ctx rfl fun t ht => ⟨?_, fun hin => ?_, fun hm => ?_⟩
  · change (if t ∈ woken then { s.thread t with blockedOn := false } else s.thread t).pc = _ at ht
    split at ht <;> exact ht
  · by_cases hmem : t ∈ woken
    · exact .inr (mem_reverse.2 hmem)
    · refine .inl ⟨(congrArg Thread.blockedOn (if_neg hmem)).trans hin.1, ?_⟩
      have hwants : ¬ (s.thread t).wants = true := fun hw' =>
        hmem (hw ▸ mem_filter.2 ⟨hin.2, hw'⟩)
      exact mem_filter.2 ⟨hin.2, by simpa using hwants⟩
  · rw [hc] at hm
    cases hm

theorem step [DecidableEq ι] [DecidableEq ε] (hm : Moves w s a s') : Placed s' := by
  cases hm with
  | tick | withdraw => exact h
  | change hc | beginHead hc | beginBroadcast hc | flagged hc | wakeOther hc | woken hc
  | handed hc | broadcast hc => exact h.setCtx rfl rfl rfl (by rw [hc]; rfl)
  | flag hc | hand hc => exact h.setFlag rfl rfl (by rw [hc]; rfl)
  | wake hc | interrupt hc =>
      exact h.unqueue rfl rfl rfl rfl (by rw [hc]; rfl) mem_cons_self
  | timer hc =>
      exact h.unqueue (timer_thread s _) rfl rfl rfl (by rw [hc]; rfl) mem_cons_self
  | make hc => exact h.make hc
  | makeAwake hc hp => exact h.makeAwake hc hp
  | drain _ hc hw => exact h.drain hc hw
  | ctl hc _ hk => exact h.setCtx rfl rfl rfl (by rw [hc]; rcases hk with rfl | rfl <;> rfl)
  | register | unregister | writeback | deliver => exact h.setThread rfl rfl rfl nofun
  | sleep => exact h.sleep
  | turn ht => exact h.setThread rfl rfl rfl ht.awake.2

end Placed

/-- The thread is past the registration of index `i`, and has not begun to leave. -/
def Pc.Registered (i : Nat) : Pc → Prop
  | .register j => i < j
  | .publish | .clear | .scan _ | .sampled _ _ | .wait | .asleep | .resumed => True
  | _ => False

def Pc.Published : Pc → Prop
  | .clear | .scan _ | .sampled _ _ | .wait | .asleep | .resumed => True
  | _ => False

theorem Pc.Past.registered (h : pc.Past i) : pc.Registered i ∧ pc.Published := by
  cases pc <;> first | exact ⟨trivial, trivial⟩ | cases h

def Thread.fdAt (th : Thread ε) (i : Nat) : Option Int := th.slots[i]?.map Slot.fd

/-- What a thread asks about has it in its list, or the thread is on the broadcast. -/
structure Listed (w : World τ ι) (s : PollState τ ι κ ε) (t : τ) (th : Thread ε) : Prop where
  told : ∀ i fd o, th.pc.Registered i → th.fdAt i = some fd → 0 ≤ fd → w.fdGet t fd = some o →
    (w.head o = true → t ∈ (s.obj o).list.map Prod.fst) ∧ (w.head o = false → th.broadcast = true)
  wants : th.pc.Published → th.wants = th.broadcast

section

omit [DecidableEq τ] [DecidableEq κ]

theorem Listed.congr (h : Listed w s t th) (hpc : ∀ i, x.pc.Registered i → th.pc.Registered i)
    (hpub : x.pc.Published → th.pc.Published) (hfd : ∀ i, x.fdAt i = th.fdAt i)
    (hb : x.broadcast = th.broadcast) (hw : x.wants = th.wants) : Listed w s t x where
  told i fd o hi hx := hb ▸ h.told i fd o (hpc i hi) (hfd i ▸ hx)
  wants hp := by rw [hw, hb]; exact h.wants (hpub hp)

theorem Listed.lists (h : Listed w s t th)
    (hl : ∀ o, t ∈ (s.obj o).list.map Prod.fst → t ∈ (s'.obj o).list.map Prod.fst) :
    Listed w s' t th :=
  ⟨fun i fd o hi hx h0 ho => (h.told i fd o hi hx h0 ho).imp_left fun hin hh =>
    hl o (hin hh), h.wants⟩

/-- A thread that is not in `poll_core`, or before its registrations or after them. -/
theorem Listed.of_out (hr : ∀ i, ¬ th.pc.Registered i) (hp : ¬ th.pc.Published) : Listed w s t th :=
  ⟨fun i _ _ hi => absurd hi (hr i), fun h => absurd h hp⟩

end

theorem fdAt_set {x : Slot} (hx : th.slots[i]? = some x) (hy : y.fd = x.fd) (j : Nat) :
    ((th.slots.set i y)[j]?).map Slot.fd = th.fdAt j := by
  unfold Thread.fdAt
  rw [getElem?_set]
  split
  · next hij =>
      subst hij
      rw [if_pos (List.getElem?_eq_some_iff.1 hx).1, hx]
      exact congrArg some hy
  · rfl

theorem getElem?_set_cases {x z : Slot} {j : Nat} (hx : slots[i]? = some x)
    (hz : (slots.set i y)[j]? = some z) : j = i ∧ z = y ∨ j ≠ i ∧ slots[j]? = some z := by
  by_cases hij : i = j
  · rw [← hij, getElem?_set_self (List.getElem?_eq_some_iff.1 hx).1] at hz
    exact .inl ⟨hij.symm, (some.inj hz).symm⟩
  · exact .inr ⟨Ne.symm hij, (getElem?_set_ne hij).symm.trans hz⟩

theorem scan_fd (x : Slot) (seq : Option Nat) (got : Mask) : (x.scan seq got).fd = x.fd := by
  unfold Slot.scan
  dsimp only
  split <;> rfl

omit [DecidableEq τ] [DecidableEq κ] in
theorem Listed.turn (h : Listed w s t th) (ht : Turn w s t th x) : Listed w s t x := by
  cases ht
  case registered i hp hx =>
    refine ⟨fun j fd o _ hj => h.told j fd o ?_ hj, nofun⟩
    rw [hp]
    obtain ⟨y, hy, -⟩ := map_eq_some_iff.1 hj
    exact Nat.lt_of_lt_of_le (List.getElem?_eq_some_iff.1 hy).1 (List.getElem?_eq_none_iff.1 hx)
  case registerClosed i y hp hy hneg =>
    refine ⟨fun j fd o hj hfd h0 => h.told j fd o ?_ hfd h0, nofun⟩
    rw [hp]
    refine Nat.lt_of_le_of_ne (Nat.le_of_lt_succ hj) ?_
    rintro rfl
    change th.fdAt j = some fd at hfd
    rw [Thread.fdAt, hy] at hfd
    exact absurd (some.inj hfd ▸ h0) (Int.not_le.2 hneg)
  case registerNone i y hp hy h0 hnone =>
    refine ⟨fun j fd o hj hfd h0 ho =>
      ⟨fun hh => (h.told j fd o ?_ hfd h0 ho).1 hh, fun _ => rfl⟩, nofun⟩
    rw [hp]
    refine Nat.lt_of_le_of_ne (Nat.le_of_lt_succ hj) ?_
    rintro rfl
    change th.slots[j]?.map Slot.fd = some fd at hfd
    rw [hy] at hfd
    have hfd' : y.fd = fd := some.inj hfd
    exact absurd (hh.symm.trans (hnone o (hfd' ▸ ho))) nofun
  case publish hp =>
    exact ⟨fun j fd o _ => h.told j fd o (by rw [hp]; trivial), fun _ => rfl⟩
  case skip hp hx _ =>
    exact h.congr (fun _ _ => by rw [hp]; trivial) (fun _ => by rw [hp]; trivial) (fdAt_set hx rfl)
      rfl rfl
  case poll hp hx hy =>
    exact h.congr (fun _ _ => by rw [hp]; trivial) (fun _ => by rw [hp]; trivial)
      (fdAt_set hx (by rw [hy]; exact scan_fd ..)) rfl rfl
  case clear hp | sample hp _ _ | nothing hp _ _ | retry hp | resume hp _ =>
    exact h.congr (fun _ _ => by rw [hp]; trivial) (fun _ => by rw [hp]; trivial)
      (fun _ => rfl) rfl rfl
  case finish i intr pc _ _ hpc =>
    refine .of_out (fun j => ?_) ?_ <;>
    · rw [hpc]
      split <;> nofun
  all_goals exact .of_out (fun _ => nofun) nofun

omit [DecidableEq τ] [DecidableEq κ] in
theorem Listed.change [DecidableEq ε] (h : Listed w s t th) (hc : Change w s s' t th x)
    (hl : ∀ o, t ∈ (s.obj o).list.map Prod.fst → t ∈ (s'.obj o).list.map Prod.fst ∨
      ∃ i intr, x.pc = .leave i intr) :
    Listed w s' t x := by
  by_cases hleave : ∃ i intr, x.pc = .leave i intr
  · obtain ⟨i, intr, hp⟩ := hleave
    exact .of_out (fun _ => by rw [hp]; nofun) (by rw [hp]; nofun)
  have hl' := fun o ho => (hl o ho).resolve_right hleave
  cases hc with
  | mark => exact (h.lists hl').congr (fun _ => id) id (fun _ => rfl) rfl rfl
  | woken hp | sleep hp =>
      exact (h.lists hl').congr (fun _ _ => by rw [hp]; trivial) (fun _ => by rw [hp]; trivial)
        (fun _ => rfl) rfl rfl
  | @register i x hp hx hin =>
      refine ⟨fun j fd o hj hjfd h0 ho => ?_, nofun⟩
      have hold : th.fdAt j = some fd :=
        (fdAt_set (y := { x with registered := true }) hx rfl j).symm.trans hjfd
      -- an index that was registered before, or the one just registered
      rcases Nat.lt_succ_iff_lt_or_eq.1 hj with hlt | rfl
      · have htold := h.told j fd o (by rw [hp]; exact hlt) hold h0 ho
        exact htold.imp_left fun hin hh => hl' o (hin hh)
      · rw [Thread.fdAt, hx] at hold
        obtain rfl : x.fd = fd := some.inj hold
        obtain ⟨hh, hmem⟩ := hin o ho
        exact ⟨fun _ => hmem, fun hh' => absurd (hh.symm.trans hh') nofun⟩
  | unregister => exact absurd ⟨_, _, rfl⟩ hleave
  | writeback | deliver => exact .of_out (fun _ => nofun) nofun
  | turn ht => exact (h.turn ht).lists hl'

theorem Moves.lists [DecidableEq ι] [DecidableEq ε] (hm : Moves w s a s')
    (ht : t ∈ (s.obj o).list.map Prod.fst) :
    t ∈ (s'.obj o).list.map Prod.fst ∨ ∃ i intr, (s'.thread t).pc = .leave i intr := by
  have hset : ∀ {o' : ι} {x : Obj τ κ}, (o = o' → t ∈ x.list.map Prod.fst) →
      t ∈ (update s.obj o' x o).list.map Prod.fst := by
    intro o' x hx
    by_cases hoo : o = o'
    · rw [hoo, update_self]
      exact hx hoo
    · rw [update_of_ne hoo]
      exact ht
  cases hm with
  | withdraw | change | beginHead | beginBroadcast | woken => exact .inl (hset fun hoo => hoo ▸ ht)
  | register => exact .inl (hset fun hoo => mem_cons_of_mem _ (hoo ▸ ht))
  | @unregister u i intr x o' hp hx =>
      by_cases hu : t = u
      · exact .inr ⟨i + 1, intr, by rw [hu]; exact congrArg Thread.pc (update_self u _ s.thread)⟩
      · refine .inl (hset fun hoo => ?_)
        obtain ⟨⟨v, j⟩, hv, rfl⟩ := mem_map.1 (hoo ▸ ht)
        refine mem_map.2 ⟨(v, j), (mem_erase_of_ne ?_).2 hv, rfl⟩
        exact fun he => hu (congrArg Prod.fst he)
  | _ => exact .inl ht

omit [DecidableEq κ] in
theorem forall_setThread {P : τ → Thread ε → Prop} (h : ∀ u, u ≠ t → P u (s.thread u))
    (ht : P t x) :
    ∀ u, P u (update s.thread t x u) :=
  (forall_update_iff s.thread P).2 ⟨ht, h⟩

/-- `ready` is the number of slots with something to report, among those the pass has looked at. -/
def Counted (th : Thread ε) : Prop :=
  match th.pc with
  | .scan i | .sampled i _ => th.ready = readyCount (th.slots.take i)
  | .wait | .asleep | .resumed => th.ready = 0 ∧ readyCount th.slots = 0
  | .leave _ intr | .back intr | .out intr =>
      th.ready = readyCount th.slots ∧ (intr = true → readyCount th.slots = 0)
  | _ => True

theorem readyCount_set {x : Slot} (hx : slots[i]? = some x) (hy : y.revents = x.revents) :
    readyCount (slots.set i y) = readyCount slots := by
  have hmap : ∀ l : List Slot, readyCount l = (l.map Slot.revents).countP (· ≠ 0) := fun l => by
    rw [countP_map]
    rfl
  obtain ⟨hi, rfl⟩ := List.getElem?_eq_some_iff.1 hx
  have hset : (slots.map Slot.revents).set i slots[i].revents = slots.map Slot.revents := by
    rw [← map_set, set_getElem_self]
  rw [hmap, hmap, map_set, hy, hset]

theorem readyCount_take_set {x : Slot} (hx : slots[i]? = some x) :
    readyCount ((slots.set i y).take (i + 1)) =
      if y.revents = 0 then readyCount (slots.take i) else readyCount (slots.take i) + 1 := by
  have hi : i < slots.length := (List.getElem?_eq_some_iff.1 hx).1
  have htake : (slots.set i y).take (i + 1) = slots.take i ++ [y] := by
    rw [take_add_one, take_set_of_le (Nat.le_refl i), getElem?_set_self hi]
    rfl
  rw [htake, readyCount, countP_append, countP_singleton]
  by_cases hy : y.revents = 0
  · rw [if_pos hy, if_neg (by simp [hy])]
    rfl
  · rw [if_neg hy, if_pos (decide_eq_true hy)]
    rfl

omit [DecidableEq τ] [DecidableEq κ] in
theorem Counted.turn (h : Counted th) (ht : Turn w s t th x) : Counted x := by
  cases ht
  case clear => exact rfl
  case skip i y hp hy _ =>
    rw [Counted, hp] at h
    exact h.trans (readyCount_take_set (y := { y with revents := 0 }) hy).symm
  case sample hp _ _ =>
    rw [Counted, hp] at h
    exact h
  case poll i seq y z hp hy hz =>
    rw [Counted, hp] at h
    change (if z.revents = 0 then th.ready else th.ready + 1) = _
    rw [readyCount_take_set hy, h]
  case found i hp hx _ =>
    rw [Counted, hp] at h
    have hall := take_of_length_le (List.getElem?_eq_none_iff.1 hx)
    exact ⟨hall ▸ h, nofun⟩
  case nothing i hp hx h0 =>
    rw [Counted, hp] at h
    have hall := take_of_length_le (List.getElem?_eq_none_iff.1 hx)
    have hcount : th.ready = readyCount th.slots := hall ▸ h
    exact ⟨h0, hcount.symm.trans h0⟩
  case stop hp =>
    rw [Counted, hp] at h
    exact ⟨h.1.trans h.2.symm, fun _ => h.2⟩
  case resume hp hpc =>
    rw [Counted, hp] at h
    rcases hpc with rfl | ⟨intr, rfl⟩
    · trivial
    · exact ⟨h.1.trans h.2.symm, fun _ => h.2⟩
  case leave hp =>
    rw [Counted, hp] at h
    exact h
  case finish i intr pc hp _ hpc =>
    rw [Counted, hp] at h
    rw [hpc]
    cases th.call
    · trivial
    · exact h
  all_goals trivial

omit [DecidableEq τ] [DecidableEq κ] in
theorem Counted.change [DecidableEq ε] (h : Counted th)
    (hc : Change w s s' t th x) : Counted x := by
  cases hc with
  | mark => exact h
  | woken hp | sleep hp | writeback hp =>
      rw [Counted, hp] at h
      exact h
  | register | deliver => trivial
  | @unregister i intr x hp hx =>
      rw [Counted, hp] at h
      have hcount := readyCount_set (y := { x with registered := false }) hx rfl
      exact ⟨h.1.trans hcount.symm, fun hi => hcount.trans (h.2 hi)⟩
  | turn ht => exact h.turn ht

/-- A notification through the head is for an object that has one, a broadcast for one that has
none. -/
def Ctx.Sane (w : World τ ι) : Ctx τ ι → Prop
  | .flagging o _ => w.head o = true
  | .waking o _ => w.head o = true
  | .draining o => ∀ o' ∈ o, w.head o' = false
  | .giving _ next => next.Sane w
  | _ => True

theorem Sane.step [DecidableEq ι] [DecidableEq ε] (h : ∀ c, (s.ctx c).Sane w)
    (hm : Moves w s a s') : ∀ c, (s'.ctx c).Sane w := by
  have hset : ∀ {c : κ} {k : Ctx τ ι}, k.Sane w → ∀ c', (update s.ctx c k c').Sane w :=
    fun hk => (forall_update_iff s.ctx fun _ k => k.Sane w).2 ⟨hk, fun c _ => h c⟩
  have hat : ∀ {c : κ} {k : Ctx τ ι}, s.ctx c = k → k.Sane w := fun hk => hk ▸ h _
  cases hm with
  | change | woken | drain | hand | handed | timer | interrupt => exact hset trivial
  | beginHead _ hh => exact hset hh
  | beginBroadcast _ hh => exact hset fun o' ho' => some.inj ho' ▸ hh
  | flag hc | flagged hc | wake hc | wakeOther hc | make hc | makeAwake hc => exact hset (hat hc :)
  | broadcast => exact hset nofun
  | ctl _ _ hk =>
      refine hset ?_
      rcases hk with rfl | rfl
      · trivial
      · nofun
  | _ => exact h

omit [DecidableEq τ] in
theorem Ctx.Flags.wakes (h : k.Flags o t) : k.Wakes o t := by
  induction k with
  | changed => exact h
  | draining => exact h
  | flagging => exact h.1
  | giving _ _ ih => exact ih h
  | _ => cases h

def Slot.seen (x : Slot) : Mask := if x.et then x.last else x.revents

/-- The object has changed since the thread looked at it: it is ready for something that the thread
did not see, or the counter of its head has moved. -/
def Stale (w : World τ ι) (o : ι) (ob : Obj τ κ) (pc : Pc) (i : Nat) (x : Slot) : Prop :=
  pc.Past i ∧ (ob.ready &&& x.want &&& ~~~x.seen ≠ 0 ∨
    w.head o = true ∧ x.et = true ∧ x.haveSeq = true ∧ x.seq ≠ ob.seq) ∨
  w.head o = true ∧ ∃ n, pc = .sampled i (some n) ∧ n ≠ ob.seq

/-- The thread learns of it: by a wake when it sleeps, by its flag when it does not. -/
def Alert (s : PollState τ ι κ ε) (t : τ) (th : Thread ε) (o : ι) : Prop :=
  (th.pc = .asleep → Waking s o t) ∧
    (th.pc ≠ .asleep → th.notified = true ∨ ∃ c, (s.ctx c).Flags o t)

structure Asks (w : World τ ι) (t : τ) (th : Thread ε) (i : Nat) (x : Slot) (o : ι) : Prop where
  slot : th.slots[i]? = some x
  nonneg : 0 ≤ x.fd
  file : w.fdGet t x.fd = some o

omit [DecidableEq τ] in
theorem Asks.fdAt {x : Slot} (h : Asks w t th i x o) : th.fdAt i = some x.fd := by
  rw [Thread.fdAt, h.slot]
  rfl

/-- The thread learns of every change of the objects `P` that it asks about. -/
def Watched (w : World τ ι) (P : ι → Prop) (s : PollState τ ι κ ε) (t : τ) (th : Thread ε) : Prop :=
  ∀ i x o, Asks w t th i x o → P o → Stale w o (s.obj o) th.pc i x → Alert s t th o

omit [DecidableEq κ] [DecidableEq τ] in
theorem Alert.of_changed (hc : s.ctx c = k) (hk : k.Flags o t) :
    Alert s t th o :=
  ⟨fun _ => ⟨c, .inl (hc ▸ hk.wakes)⟩, fun _ => .inr ⟨c, hc ▸ hk⟩⟩

omit [DecidableEq τ] in
theorem Alert.setCtx {k₀ : Ctx τ ι} (h : Alert s t th o) (hc : s.ctx c = k₀)
    (hctx : s'.ctx = update s.ctx c k) (hpc : x.pc = th.pc)
    (hn : th.notified = true → x.notified = true)
    (hflag : th.pc ≠ .asleep → k₀.Flags o t → x.notified = true ∨ k.Flags o t)
    (hwake : th.pc = .asleep → k₀.Wakes o t ∨ t ∈ k₀.held → (k.Wakes o t ∨ t ∈ k.held) ∨
      ∃ c', c' ≠ c ∧ t ∈ (s.ctx c').held) :
    Alert s' t x o := by
  have hother : ∀ c', c' ≠ c → s'.ctx c' = s.ctx c' := fun c' hne => by
    rw [hctx, update_of_ne hne]
  have hself : s'.ctx c = k := by rw [hctx, update_self]
  refine ⟨fun hp => ?_, fun hp => ?_⟩
  · rw [hpc] at hp
    obtain ⟨c', hc'⟩ := h.1 hp
    by_cases hne : c' = c
    · rw [hne, hc] at hc'
      rcases hwake hp hc' with hk | ⟨c', hne, hk⟩
      · exact ⟨c, hself ▸ hk⟩
      · exact ⟨c', .inr (hother c' hne ▸ hk)⟩
    · exact ⟨c', hother c' hne ▸ hc'⟩
  · rw [hpc] at hp
    rcases h.2 hp with hnot | ⟨c', hc'⟩
    · exact .inl (hn hnot)
    · by_cases hne : c' = c
      · rw [hne, hc] at hc'
        exact (hflag hp hc').imp_right fun hk => ⟨c, hself ▸ hk⟩
      · exact .inr ⟨c', hother c' hne ▸ hc'⟩

theorem scan_seen (x : Slot) (seq : Option Nat) (ready : Mask) :
    ready &&& (x.scan seq (x.got (some ready))).want &&&
      ~~~(x.scan seq (x.got (some ready))).seen = 0 := by
  have hwant : (x.scan seq (x.got (some ready))).want = x.want := by
    unfold Slot.scan
    dsimp only
    split <;> rfl
  have hseen : (x.scan seq (x.got (some ready))).seen = ready &&& x.want := by
    cases het : x.et <;> simp [Slot.seen, Slot.scan, het, got_scan_mask]
  rw [hwant, hseen]
  ext i
  simp

theorem scan_counter {x : Slot} {seq : Option Nat} {got : Mask}
    (het : (x.scan seq got).et = true) (hs : (x.scan seq got).haveSeq = true) :
    seq = some (x.scan seq got).seq := by
  cases hx : x.et with
  | false => simp [Slot.scan, hx] at het
  | true =>
      cases seq with
      | none => simp [Slot.scan, hx] at hs
      | some n => simp [Slot.scan, hx]

omit [DecidableEq τ] [DecidableEq κ] in
theorem Stale.registered {x : Slot} (h : Stale w o ob pc i x) :
    pc.Registered i := by
  rcases h with ⟨hp, -⟩ | ⟨-, n, rfl, -⟩
  · exact hp.registered.1
  · trivial

omit [DecidableEq τ] [DecidableEq κ] in
theorem Watched.of_out (hp : ∀ i, ¬ x.pc.Past i) (hs : ∀ i q, x.pc ≠ .sampled i q) :
    Watched w P s t x := by
  rintro i y o - - (⟨h, -⟩ | ⟨-, n, h, -⟩)
  · exact absurd h (hp i)
  · exact absurd h (hs i _)

omit [DecidableEq τ] [DecidableEq κ] in
theorem Watched.turn (h : Watched w P s t th) (ht : Turn w s t th x) : Watched w P s t x := by
  obtain ⟨hth, hx⟩ := ht.awake
  -- what the thread would have learned at an index it looked at before
  have hold : ∀ {j y o}, x.notified = th.notified → Asks w t th j y o → P o →
      Stale w o (s.obj o) th.pc j y → Alert s t x o := by
    intro j y o hn hy hP hst
    exact ⟨fun hp => absurd hp hx, fun _ => hn ▸ (h j y o hy hP hst).2 hth⟩
  cases ht
  case clear => exact .of_out (fun i => Nat.not_lt_zero i) nofun
  case skip i y hp hy hneg =>
    rintro j z o ⟨hz, h0, ho⟩ hP hstale
    obtain ⟨hj, hst⟩ := hstale.resolve_right (fun hn => nomatch hn.2)
    rcases getElem?_set_cases hy hz with ⟨rfl, rfl⟩ | ⟨hne, hz⟩
    · exact absurd h0 (Int.not_le.2 hneg)
    · refine hold rfl ⟨hz, h0, ho⟩ hP (.inl ⟨?_, hst⟩)
      rw [hp]
      exact Nat.lt_of_le_of_ne (Nat.le_of_lt_succ hj) hne
  case sample i y hp hy hnn =>
    rintro j z o ⟨hz, h0, ho⟩ hP (⟨hj, hst⟩ | ⟨-, n, hn, hne⟩)
    · exact hold rfl ⟨hz, h0, ho⟩ hP (.inl ⟨by rw [hp]; exact hj, hst⟩)
    · obtain ⟨rfl, hsample⟩ := Pc.sampled.inj hn
      cases hy.symm.trans hz
      -- the sample is the counter itself
      have : n = (s.obj o).seq := by
        cases het : y.et with
        | false => simp [het] at hsample
        | true =>
            rw [het, if_pos rfl, fileReadySeq, ho, bind_some] at hsample
            exact (some.inj (ite_none_right_eq_some.1 hsample).2).symm
      exact absurd this hne
  case poll i seq y z hp hy hz =>
    rintro j z' o ⟨hz', h0, ho⟩ hP hstale
    obtain ⟨hj, hst⟩ := hstale.resolve_right (fun hn => nomatch hn.2)
    rcases getElem?_set_cases hy hz' with ⟨rfl, rfl⟩ | ⟨hne, hz'⟩
    · have hfd : z'.fd = y.fd := by rw [hz]; exact scan_fd ..
      rw [hfd] at h0 ho
      rw [ho, map_some] at hz
      have hcount := hst.resolve_left (not_not.2 (by rw [hz]; exact scan_seen ..))
      rw [hz] at hcount
      have hseq := scan_counter hcount.2.1 hcount.2.2.1
      exact hold rfl ⟨hy, h0, ho⟩ hP
        (.inr ⟨hcount.1, _, hp.trans (congrArg _ hseq), hcount.2.2.2⟩)
    · refine hold rfl ⟨hz', h0, ho⟩ hP (.inl ⟨?_, hst⟩)
      rw [hp]
      exact Nat.lt_of_le_of_ne (Nat.le_of_lt_succ hj) hne
  case nothing i hp hnone _ =>
    intro j z o hz hP hstale
    obtain ⟨-, hst⟩ := hstale.resolve_right (fun hn => nomatch hn.2)
    refine hold rfl ⟨hz.slot, hz.nonneg, hz.file⟩ hP (.inl ⟨?_, hst⟩)
    rw [hp]
    exact Nat.lt_of_lt_of_le (List.getElem?_eq_some_iff.1 hz.slot).1
      (List.getElem?_eq_none_iff.1 hnone)
  case resume hp hpc =>
    rcases hpc with rfl | ⟨intr, rfl⟩ <;> exact .of_out (fun _ => nofun) nofun
  case finish i intr pc _ _ hpc =>
    rw [hpc]
    cases th.call <;> exact .of_out (fun _ => nofun) nofun
  all_goals exact .of_out (fun _ => nofun) nofun

omit [DecidableEq τ] in
theorem Watched.ctx {k₀ : Ctx τ ι} (h : Watched w P s t th) (hc : s.ctx c = k₀)
    (hctx : s'.ctx = update s.ctx c k) (hslots : x.slots = th.slots) (hpc : x.pc = th.pc)
    (hn : th.notified = true → x.notified = true)
    (hstale : ∀ i y o, Asks w t th i y o → Stale w o (s'.obj o) th.pc i y →
      Stale w o (s.obj o) th.pc i y ∨ k.Flags o t)
    (hflag : ∀ i y o, Asks w t th i y o → P o → Stale w o (s.obj o) th.pc i y → th.pc ≠ .asleep →
      k₀.Flags o t → x.notified = true ∨ k.Flags o t)
    (hwake : ∀ i y o, Asks w t th i y o → th.pc = .asleep → k₀.Wakes o t ∨ t ∈ k₀.held →
      (k.Wakes o t ∨ t ∈ k.held) ∨ ∃ c', c' ≠ c ∧ t ∈ (s.ctx c').held) :
    Watched w P s' t x := by
  rintro i y o ⟨hy, h0, ho⟩ hP hst
  have hask : Asks w t th i y o := ⟨hslots ▸ hy, h0, ho⟩
  rw [hpc] at hst
  rcases hstale i y o hask hst with hst | hk
  · exact (h i y o hask hP hst).setCtx hc hctx hpc hn (hflag i y o hask hP hst) (hwake i y o hask)
  · exact .of_changed (c := c) (by rw [hctx, update_self]) hk

omit [DecidableEq τ] [DecidableEq κ] in
theorem Watched.congr (h : Watched w P s t th) (hctx : s'.ctx = s.ctx) (hslots : x.slots = th.slots)
    (hpc : x.pc = th.pc) (hn : x.notified = th.notified)
    (hstale : ∀ i y o, Asks w t th i y o → Stale w o (s'.obj o) th.pc i y →
      Stale w o (s.obj o) th.pc i y) :
    Watched w P s' t x := by
  rintro i y o ⟨hy, h0, ho⟩ hP hst
  have hask : Asks w t th i y o := ⟨hslots ▸ hy, h0, ho⟩
  obtain ⟨hs, hf⟩ := h i y o hask hP (hstale i y o hask (hpc ▸ hst))
  refine ⟨fun hp => ?_, fun hp => ?_⟩
  · obtain ⟨c, hc⟩ := hs (hpc ▸ hp)
    exact ⟨c, hctx ▸ hc⟩
  · rw [hn, hctx]
    exact hf (hpc ▸ hp)

omit [DecidableEq τ] in
/-- A context that has nothing to tell takes up something. -/
theorem Watched.free {k₀ : Ctx τ ι} (h : Watched w P s t th) (hc : s.ctx c = k₀)
    (hf : ∀ o, ¬ k₀.Flags o t) (hw : ∀ o, ¬ k₀.Wakes o t) (hh : k₀.held = [])
    (hctx : s'.ctx = update s.ctx c k) (hobj : s'.obj = s.obj) (hslots : x.slots = th.slots)
    (hpc : x.pc = th.pc) (hn : th.notified = true → x.notified = true) : Watched w P s' t x := by
  refine h.ctx hc hctx hslots hpc hn (fun i y o _ hst => .inl (hobj ▸ hst))
    (fun i y o _ _ _ _ hfl => absurd hfl (hf o)) fun i y o _ _ hwk => ?_
  rw [hh] at hwk
  exact hwk.elim (fun hw' => absurd hw' (hw o)) nofun

structure Sound (w : World τ ι) (P : ι → Prop) (s : PollState τ ι κ ε) : Prop where
  single : Single s
  placed : Placed s
  listed : ∀ t, Listed w s t (s.thread t)
  counted : ∀ t, Counted (s.thread t)
  sane : ∀ c, (s.ctx c).Sane w
  watched : ∀ t, Watched w P s t (s.thread t)

omit [DecidableEq τ] [DecidableEq κ] in
theorem stale_setObj [DecidableEq ι] {o' : ι} (hne : o' ≠ o)
    (h : Stale w o' ((s.setObj o ob).obj o') pc i y) :
    Stale w o' (s.obj o') pc i y := by
  have hobj : (s.setObj o ob).obj o' = s.obj o' := update_of_ne hne ..
  rwa [hobj] at h

omit [DecidableEq τ] [DecidableEq κ] in
theorem Watched.withdraw [DecidableEq ι] {mask : Mask} (h : Watched w P s t th) :
    Watched w P (s.setObj o { s.obj o with ready := (s.obj o).ready &&& mask }) t th := by
  refine h.congr rfl rfl rfl rfl fun i y o' _ hst => ?_
  by_cases ho : o' = o
  · subst ho
    have hobj : (s.setObj o' { s.obj o' with ready := (s.obj o').ready &&& mask }).obj o' =
      { s.obj o' with ready := (s.obj o').ready &&& mask } := update_self ..
    rw [hobj] at hst
    refine hst.imp_left fun hp => ⟨hp.1, hp.2.imp_left fun hb h0 => hb ?_⟩
    have hassoc : (s.obj o').ready &&& mask &&& y.want &&& ~~~y.seen =
        ((s.obj o').ready &&& y.want &&& ~~~y.seen) &&& mask := by
      ext j
      simp only [BitVec.getElem_and]
      grind
    rw [hassoc, h0]
    exact BitVec.zero_and
  · exact stale_setObj ho hst

/-- The objects on whose broadcast the run relies: a thread that has looked at one and is awake has
its flag set when the queue is taken. -/
def Relies (w : World τ ι) (P : ι → Prop) (s : PollState τ ι κ ε) : PollAct τ ι κ ε → Prop
  | .drain c => ∀ o, s.ctx c = .draining (some o) → P o → ∀ t i x, (s.thread t).pc ≠ .asleep →
      (s.thread t).pc.Past i → Asks w t (s.thread t) i x o → (s.thread t).notified = true
  | _ => True

omit [DecidableEq κ] in
theorem watched_setThread {s₁ : PollState τ ι κ ε} {t₀ : τ} {x₀ : Thread ε}
    (h : ∀ t (x : Thread ε), x.slots = (s.thread t).slots → x.pc = (s.thread t).pc →
      ((s.thread t).notified = true → x.notified = true) → Watched w P s₁ t x)
    (hslots : x₀.slots = (s.thread t₀).slots) (hpc : x₀.pc = (s.thread t₀).pc)
    (hn : (s.thread t₀).notified = true → x₀.notified = true) :
    ∀ t, Watched w P s₁ t (update s.thread t₀ x₀ t) :=
  forall_setThread (P := fun t x => Watched w P s₁ t x) (fun t _ => h t _ rfl rfl id)
    (h t₀ x₀ hslots hpc hn)

omit [DecidableEq τ] [DecidableEq κ] in
theorem Placed.elsewhere (h : Placed s) (hc : (s.ctx c).held = []) (hp : (s.thread t).pc = .asleep)
    (hq : ¬ s.Queued t) : ∃ c', c' ≠ c ∧ t ∈ (s.ctx c').held := by
  obtain ⟨c', hc'⟩ := (h t hp).resolve_left hq
  refine ⟨c', ?_, hc'⟩
  rintro rfl
  rw [hc] at hc'
  cases hc'

omit [DecidableEq τ] [DecidableEq κ] in
theorem setObj_keeps [DecidableEq ι] (hr : ob.ready = (s.obj o).ready)
    (hq : ob.seq = (s.obj o).seq) (o' : ι) :
    ((s.setObj o ob).obj o').ready = (s.obj o').ready ∧
      ((s.setObj o ob).obj o').seq = (s.obj o').seq :=
  ⟨update_keeps Obj.ready hr o', update_keeps Obj.seq hq o'⟩

omit [DecidableEq τ] [DecidableEq κ] in
theorem Stale.congr {ob' : Obj τ κ} (h : Stale w o ob' pc i y)
    (hob : ob'.ready = ob.ready ∧ ob'.seq = ob.seq) : Stale w o ob pc i y := by
  rwa [Stale, hob.1, hob.2] at h

theorem drained_thread (th : Thread ε) {p : Prop} [Decidable p] :
    (if p then { th with blockedOn := false } else th).slots = th.slots ∧
      (if p then { th with blockedOn := false } else th).pc = th.pc ∧
      (if p then { th with blockedOn := false } else th).notified = th.notified := by
  split <;> exact ⟨rfl, rfl, rfl⟩

omit [DecidableEq κ] in
/-- A step of a thread leaves the others. -/
theorem Sound.watched_set (h : Sound w P s) (ht : s'.thread = update s.thread t x)
    (hctx : s'.ctx = s.ctx)
    (hobj : ∀ o, (s'.obj o).ready = (s.obj o).ready ∧ (s'.obj o).seq = (s.obj o).seq)
    (hx : Watched w P s' t x) : ∀ u, Watched w P s' u (s'.thread u) := by
  intro u
  rw [ht]
  refine forall_setThread (P := fun u th => Watched w P s' u th) (fun u _ => ?_) hx u
  exact (h.watched u).congr hctx rfl rfl rfl fun i y o _ hst => hst.congr (hobj o)

section

variable [DecidableEq ι] [DecidableEq ε]

theorem Sound.watched_step (h : Sound w P s) (hok : Relies w P s a) (hm : Moves w s a s') :
    ∀ t, Watched w P s' t (s'.thread t) := by
  have hlisted : ∀ {t i y o}, Asks w t (s.thread t) i y o → (s.thread t).pc.Registered i →
      (w.head o = true → t ∈ (s.obj o).list.map Prod.fst) ∧
        (w.head o = false → (s.thread t).broadcast = true) :=
    fun hask hreg => (h.listed _).told _ _ _ hreg hask.fdAt hask.nonneg hask.file
  have hasleep : ∀ {t : τ} {i : Nat}, (s.thread t).pc = .asleep → (s.thread t).pc.Registered i :=
    fun hp => by rw [hp]; trivial
  have hsane : ∀ {c k}, s.ctx c = k → k.Sane w := fun hc => hc ▸ h.sane _
  cases hm with
  | tick => exact fun t => (h.watched t).congr rfl rfl rfl rfl fun _ _ _ _ => id
  | withdraw => exact fun t => (h.watched t).withdraw
  | @change c o ready hc =>
      refine fun t => (h.watched t).ctx hc rfl rfl rfl id (fun i y o' _ hst => ?_)
        (fun _ _ _ _ _ _ _ => False.elim) fun _ _ _ _ _ hwk => hwk.elim False.elim nofun
      by_cases ho : o' = o
      · exact .inr ho.symm
      · exact .inl (stale_setObj ho hst)
  | @beginHead c o hc hh =>
      have hin : ∀ {t i y}, Asks w t (s.thread t) i y o → (s.thread t).pc.Registered i →
          (Ctx.flagging o ((s.obj o).list.map Prod.fst)).Flags o t :=
        fun hask hreg => ⟨rfl, (hlisted hask hreg).1 hh⟩
      refine fun t => (h.watched t).ctx hc rfl rfl rfl id (fun i y o' hask hst => ?_)
        (fun i y o' hask _ hst _ hf => ?_) fun i y o' _ _ hwk =>
          .inl (.inl (hwk.resolve_right nofun))
      · by_cases ho : o' = o
        · subst ho
          exact .inr (hin hask hst.registered)
        · exact .inl (stale_setObj ho hst)
      · obtain rfl : o = o' := hf
        exact .inr (hin hask hst.registered)
  | @beginBroadcast c o hc hh =>
      refine fun t => (h.watched t).ctx hc rfl rfl rfl id (fun i y o' _ hst => ?_)
        (fun i y o' _ _ _ _ hf => .inr (congrArg some hf))
        fun i y o' _ _ hwk => .inl (.inl (congrArg some (hwk.resolve_right nofun)))
      by_cases ho : o' = o
      · exact .inr (congrArg some ho.symm)
      · exact .inl (stale_setObj ho hst)
  | @flag c o t₀ rest hc =>
      refine forall_setThread (P := fun u th => Watched w P _ u th) (fun t hne => ?_) ?_
      · refine (h.watched t).ctx hc rfl rfl rfl id (fun _ _ _ _ => .inl)
          (fun i y o' _ _ _ _ hf => ?_) fun i y o' _ _ => .inl
        exact .inr ⟨hf.1, (mem_cons.1 hf.2).resolve_left hne⟩
      · exact (h.watched t₀).ctx hc rfl rfl rfl (fun _ => rfl) (fun _ _ _ _ => .inl)
          (fun _ _ _ _ _ _ _ _ => .inl rfl) fun i y o' _ _ => .inl
  | @flagged c o hc =>
      refine fun t => (h.watched t).ctx hc rfl rfl rfl id (fun _ _ _ _ => .inl)
        (fun i y o' _ _ _ _ hf => nomatch hf.2) fun i y o' hask hp hwk => ?_
      obtain rfl : o = o' := hwk.resolve_right nofun
      exact .inl (.inl ⟨rfl, (hlisted hask (hasleep hp)).1 (hsane hc)⟩)
  | @wake c o t₀ rest hc hq =>
      refine watched_setThread (fun t x hsl hpc hn => ?_) rfl rfl id
      refine (h.watched t).ctx hc rfl hsl hpc hn (fun _ _ _ _ => .inl)
        (fun i y o' _ _ _ _ => False.elim) fun i y o' _ _ hwk => .inl ?_
      obtain ⟨rfl, hmem⟩ := hwk.resolve_right nofun
      rcases mem_cons.1 hmem with rfl | hmem
      · exact .inr mem_cons_self
      · exact .inl ⟨rfl, hmem⟩
  | @wakeOther c o t₀ rest hc hq =>
      refine fun t => (h.watched t).ctx hc rfl rfl rfl id (fun _ _ _ _ => .inl)
        (fun i y o' _ _ _ _ => False.elim) fun i y o' _ hp hwk => ?_
      obtain ⟨rfl, hmem⟩ := hwk.resolve_right nofun
      rcases mem_cons.1 hmem with rfl | hmem
      · exact .inr (h.placed.elsewhere (by rw [hc]; rfl) hp hq)
      · exact .inl (.inl ⟨rfl, hmem⟩)
  | @woken c o hc =>
      exact fun t => (h.watched t).ctx hc rfl rfl rfl id
        (fun i y o' _ hst => .inl (hst.congr (setObj_keeps (s := s) (by rfl) (by rfl) o')))
        (fun i y o' _ _ _ _ => False.elim) fun i y o' _ _ hwk => nomatch (hwk.resolve_right nofun).2
  | @make c t₀ next hc hp =>
      refine forall_setThread (P := fun u th => Watched w P _ u th) (fun t hne => ?_)
        (.of_out (fun _ => nofun) nofun)
      exact (h.watched t).ctx hc rfl rfl rfl id (fun _ _ _ _ => .inl) (fun i y o' _ _ _ _ => .inr)
        fun i y o' _ _ hwk => .inl (hwk.imp_right fun hm => (mem_cons.1 hm).resolve_left hne)
  | @makeAwake c t₀ next hc hp =>
      refine fun t => (h.watched t).ctx hc rfl rfl rfl id (fun _ _ _ _ => .inl)
        (fun i y o' _ _ _ _ => .inr) fun i y o' _ hp' hwk => .inl (hwk.imp_right fun hm => ?_)
      exact (mem_cons.1 hm).resolve_left fun ht => hp (ht ▸ hp')
  | @drain c o woken ha hc hw =>
      subst ha
      intro t
      obtain ⟨hsl, hpc, hn⟩ := drained_thread (s.thread t) (p := t ∈ woken)
      refine (h.watched t).ctx hc rfl hsl hpc (fun hb => hn.trans hb) (fun _ _ _ _ => .inl)
        (fun i y o' hask hP hst hp hf => .inl (hn.trans ?_)) fun i y o' hask hp hwk => ?_
      · obtain rfl : o = some o' := hf
        refine hok o' hc hP t i y hp ?_ hask
        exact (hst.resolve_right fun hst => absurd (hst.1.symm.trans (hsane hc o' rfl)) nofun).1
      · obtain rfl : o = some o' := hwk.resolve_right nofun
        have hwants : (s.thread t).wants = true := by
          rw [(h.listed t).wants (by rw [hp]; trivial)]
          exact (hlisted hask (hasleep hp)).2 (hsane hc o' rfl)
        by_cases hin : t ∈ s.queue
        · exact .inl (.inr (mem_reverse.2 (hw ▸ mem_filter.2 ⟨hin, hwants⟩)))
        · exact .inr (h.placed.elsewhere (by rw [hc]; rfl) hp fun hq => hin hq.2)
  | @hand c t₀ rest hc =>
      refine watched_setThread (fun t x hsl hpc hn => ?_) rfl rfl fun _ => rfl
      exact (h.watched t).ctx hc rfl hsl hpc hn (fun _ _ _ _ => .inl)
        (fun i y o' _ _ _ _ => False.elim) fun i y o' _ _ hwk => .inl (.inr (hwk.resolve_left id))
  | handed hc | ctl hc | broadcast hc =>
      exact fun t => (h.watched t).free hc (fun _ => id) (fun _ => id) rfl rfl rfl rfl rfl id
  | @timer c t₀ hc hq =>
      intro t
      change Watched w P _ t (((s.setThread t₀ _).unqueue t₀).thread t)
      rw [timer_thread]
      refine watched_setThread (fun t x => ?_) (by rfl) (by rfl) (by exact id) t
      exact (h.watched t).free hc (fun _ => id) (fun _ => id) rfl rfl rfl
  | interrupt hc =>
      exact watched_setThread (fun t x =>
        (h.watched t).free hc (fun _ => id) (fun _ => id) rfl rfl rfl) rfl rfl id
  | register | unregister =>
      exact h.watched_set rfl rfl (setObj_keeps rfl rfl) (.of_out (fun _ => nofun) nofun)
  | @sleep t hp hn =>
      refine h.watched_set rfl rfl (fun _ => ⟨rfl, rfl⟩) ?_
      rintro i y o ⟨hy, h0, ho⟩ hP hst
      obtain ⟨-, hst⟩ := hst.resolve_right (fun hn => nomatch hn.2)
      have halert := h.watched t i y o ⟨hy, h0, ho⟩ hP (.inl ⟨by rw [hp]; trivial, hst⟩)
      refine ⟨fun _ => ?_, fun hne => absurd rfl hne⟩
      obtain ⟨c, hc⟩ := (halert.2 (by rw [hp]; nofun)).resolve_left (by rw [hn]; nofun)
      exact ⟨c, .inl hc.wakes⟩
  | writeback | deliver =>
      exact h.watched_set rfl rfl (fun _ => ⟨rfl, rfl⟩) (.of_out (fun _ => nofun) nofun)
  | @turn t x ht =>
      exact h.watched_set rfl rfl (fun _ => ⟨rfl, rfl⟩) (((h.watched t).turn ht).congr rfl rfl rfl
        rfl fun _ _ _ _ => id)

theorem Sound.step (h : Sound w P s) (hok : Relies w P s a) (hm : Moves w s a s') :
    Sound w P s' where
  single := h.single.step hm
  placed := h.placed.step hm
  listed t := (h.listed t).change (hm.changes t) fun _ => hm.lists
  counted t := (h.counted t).change (hm.changes t)
  sane := Sane.step h.sane hm
  watched := h.watched_step hok hm

end

omit [DecidableEq τ] [DecidableEq κ] in
theorem PollInit.single (h : PollInit s) : Single s := by
  have hheld : ∀ c, (s.ctx c).held = [] := fun c => by rw [h.ctx c]; rfl
  refine ⟨?_, ?_, fun c => ?_, fun c t ht => ?_, fun c c' t ht => ?_⟩
  · rw [h.queue]
    exact nodup_nil
  · rw [h.queue]
    exact fun t ht => absurd ht not_mem_nil
  · rw [hheld c]
    exact nodup_nil
  · rw [hheld c] at ht
    cases ht
  · rw [hheld c] at ht
    cases ht

omit [DecidableEq τ] [DecidableEq κ] in
theorem PollInit.sound (h : PollInit s) : Sound w P s where
  single := h.single
  placed t ht := by rw [h.pc t] at ht; cases ht
  listed t := .of_out (fun i => by rw [h.pc t]; nofun) (by rw [h.pc t]; nofun)
  counted t := by rw [Counted, h.pc t]; trivial
  sane c := by rw [h.ctx c]; trivial
  watched t := .of_out (fun i => by rw [h.pc t]; nofun) (fun i q => by rw [h.pc t]; nofun)

theorem Sound.of_reach [DecidableEq ι] [DecidableEq ε]
    {ok : PollState τ ι κ ε → PollAct τ ι κ ε → Prop}
    (hok : ∀ s a, (∀ c, (s.ctx c).Sane w) → ok s a → Relies w P s a)
    (hsig : ∀ s a, ok s a → SignalsQueued s a) (hr : (pollSystem w).Reach ok s) : Sound w P s :=
  hr.invariant (Sound w P) (fun _ h => h.sound) fun s a _ h ha hs =>
    h.step (hok s a h.sane ha) (pollStep_moves h.single (hsig s a ha) hs)

omit [DecidableEq τ] [DecidableEq κ] in
/-- A broadcast is never for an object that has a head. -/
theorem relies_head (hsane : ∀ c, (s.ctx c).Sane w) (a : PollAct τ ι κ ε) :
    Relies w (fun o => w.head o = true) s a := by
  cases a with
  | drain c =>
      intro o hc hhead
      have hctx := hsane c
      rw [hc] at hctx
      exact absurd (hhead.symm.trans (hctx o rfl)) nofun
  | _ => trivial

omit [DecidableEq τ] [DecidableEq κ] in
/-- A sleeping thread that asks about an object that has something it asked for, at an index that is
not in edge mode. -/
theorem Sound.waking {x : Slot} (h : Sound w P s) (ht : (s.thread t).pc = .asleep)
    (hask : Asks w t (s.thread t) i x o) (hP : P o) (het : x.et = false)
    (hready : (s.obj o).ready &&& x.want ≠ 0) : Waking s o t := by
  have hcount := h.counted t
  rw [Counted, ht] at hcount
  have hrev : x.revents = 0 := by
    have := countP_eq_zero.1 hcount.2 x (mem_of_getElem? hask.slot)
    simpa using this
  refine (h.watched t i x o hask hP (.inl ⟨by rw [ht]; trivial, .inl ?_⟩)).1 ht
  rw [Slot.seen, het, if_neg Bool.false_ne_true, hrev]
  have hall : ~~~(0 : Mask) = BitVec.allOnes 16 := rfl
  rw [hall, BitVec.and_allOnes]
  exact hready

/-- In every run in which signals reach pollers on the queue only: while a thread sleeps in `poll`
and a descriptor with a poll head is ready for an event that the thread asked for, a context that
has changed the object has yet to wake the thread, or has it in hand. -/
theorem poll_head_wakes [DecidableEq ι] [DecidableEq ε] {t : τ} {i : Nat} {x : Slot} {o : ι}
    (hr : (pollSystem w).Reach SignalsQueued s) (ht : (s.thread t).pc = .asleep)
    (hx : (s.thread t).slots[i]? = some x) (het : x.et = false) (hfd : 0 ≤ x.fd)
    (ho : w.fdGet t x.fd = some o) (hh : w.head o = true)
    (hready : (s.obj o).ready &&& (x.events ||| pollerr ||| pollhup) ≠ 0) : Waking s o t := by
  have hsound : Sound w (fun o => w.head o = true) s :=
    .of_reach (fun s a hsane _ => relies_head hsane a) (fun _ _ => id) hr
  exact hsound.waking ht ⟨hx, hfd, ho⟩ hh het hready

def oneObject (head : Bool) : World (Fin 2) (Fin 1) where
  fdGet _ fd := if fd = 3 then some 0 else none
  head _ := head
  counter _ := false

abbrev SmallState := PollState (Fin 2) (Fin 1) (Fin 1) (Fin 1)

def quiet : PollState τ ι κ ε where
  obj _ := ⟨0, 0, [], none⟩
  ctx _ := .idle
  queue := []
  astray := []
  thread _ := ⟨.idle, [], 0, none, false, none, false, false, false, false, 0⟩
  epoll _ := ⟨[], 0⟩
  now := 0
  delivered _ := []

omit [DecidableEq τ] [DecidableEq κ] in
theorem quiet_init : PollInit (quiet : PollState τ ι κ ε) :=
  ⟨fun _ => rfl, fun _ => rfl, fun _ => rfl, rfl, rfl, fun _ => rfl, fun _ => rfl, fun _ => rfl,
    fun _ => rfl⟩

def toWait : List (PollAct (Fin 2) (Fin 1) (Fin 1) (Fin 1)) :=
  [.callPoll 0 [(3, pollin)] none, .register 0, .register 0, .publish 0, .clear 0, .sample 0,
    .poll 0,
    .settle 0]

theorem poll_head_wakes_changed : ∃ s : SmallState,
    (pollSystem (oneObject true)).Reach SignalsQueued s ∧
    (s.thread 0).pc = .asleep ∧ (s.obj 0).ready = pollin ∧ Waking s 0 0 := by
  refine System.Reach.exists_of_run_imp (toWait ++ [.sleep 0 false, .change 0 0 pollin]) quiet_init
    (by decide +kernel) fun s hr (hs : (s.thread 0).pc = .asleep ∧
      (s.thread 0).slots[0]? = some ⟨3, pollin, 0, false, 0, 0, false, 0, 0, true⟩ ∧
      (s.obj 0).ready = pollin) => ?_
  obtain ⟨ht, hx, hready⟩ := hs
  exact ⟨ht, hready, poll_head_wakes hr ht hx rfl (by decide) rfl rfl (by rw [hready]; decide)⟩

/-- Descriptor 3 has a poll head and descriptor 4 none. -/
def twoObjects : World (Fin 2) (Fin 2) where
  fdGet _ fd := if fd = 3 then some 0 else if fd = 4 then some 1 else none
  head o := o = 0
  counter _ := false

def pollBoth (t : Fin 2) : List (PollAct (Fin 2) (Fin 2) (Fin 2) (Fin 1)) :=
  [.callPoll t [(3, pollin), (4, pollin)] none, .register t, .register t, .register t, .publish t,
    .clear t, .sample t, .poll t, .sample t, .poll t, .settle t, .sleep t false]

/-- A signal wakes thread 1 when the broadcast has thread 1 and, behind it, thread 0 in hand. Thread
1 polls again and sleeps, which ends the list of the broadcast: thread 0 sleeps on, off the queue,
and `poll_head_notify` passes it over. -/
theorem poll_head_misses : ∃ s : PollState (Fin 2) (Fin 2) (Fin 2) (Fin 1),
    (pollSystem twoObjects).Reach (fun _ _ => True) s ∧ (s.thread 0).pc = .asleep ∧
    (s.thread 0).slots[0]? = some ⟨3, pollin, 0, false, 0, 0, false, 0, 0, true⟩ ∧
    (s.thread 0).deadline = none ∧ (s.obj 0).ready = pollin ∧ ¬ Waking s 0 0 := by
  refine System.Reach.exists_of_run_imp
    (pollBoth 0 ++ pollBoth 1 ++ [.broadcast 0, .drain 0, .interrupt 1 1, .make 1, .resume 1 true,
      .unregister 1, .unregister 1, .finish 1] ++ pollBoth 1 ++ [.hand 0, .make 0, .hand 0,
      .change 1 0 pollin, .begin 1, .flag 1, .flag 1, .flag 1, .wake 1, .make 1, .wake 1, .wake 1])
    quiet_init (by decide +kernel) fun s _ => And.imp_right <| And.imp_right <| And.imp_right <|
      And.imp_right fun (hidle : ∀ c, s.ctx c = .idle) => ?_
  rintro ⟨c, hc⟩
  rw [hidle c] at hc
  exact hc.elim id nofun

/-- In every run in which, whenever the broadcast for a change of an object takes the queue, the
threads that have looked at the object and are on their way to the queue have their flag set, and in
which signals reach pollers on the queue only: the same holds for every object, with a head or
without. -/
theorem poll_broadcast_wakes [DecidableEq ι] [DecidableEq ε] {t : τ} {i : Nat} {x : Slot} {o : ι}
    (hr : (pollSystem w).Reach (Settled w) s) (ht : (s.thread t).pc = .asleep)
    (hx : (s.thread t).slots[i]? = some x) (het : x.et = false) (hfd : 0 ≤ x.fd)
    (ho : w.fdGet t x.fd = some o)
    (hready : (s.obj o).ready &&& (x.events ||| pollerr ||| pollhup) ≠ 0) : Waking s o t := by
  have hsound : Sound w (fun _ => True) s := by
    refine Sound.of_reach (fun s a _ ha => ?_) (fun s a ha => ?_) hr
    · cases a with
      | drain c =>
          exact fun o' hc _ t i x hp hpast hask => ha o' hc t i x hp hpast hask.slot hask.file
      | _ => trivial
    · cases a with
      | drain c => exact fun t ht => absurd ht (by simp [PollAct.signalled])
      | _ => exact ha
  exact hsound.waking ht ⟨hx, hfd, ho⟩ trivial het hready

theorem poll_broadcast_wakes_asleep : ∃ s : SmallState, (pollSystem (oneObject false)).Reach
    (Settled (oneObject false)) s ∧ (s.thread 0).pc = .asleep ∧ (s.obj 0).ready = pollin ∧
    s.queue = [] ∧ Waking s 0 0 := by
  obtain ⟨s, hr, ht, hx, hready, hq⟩ : ∃ s : SmallState, (pollSystem (oneObject false)).Reach
      (fun s a => SignalsQueued s a ∧ ∀ t, (s.thread t).notified = true ∨
        (s.thread t).pc = .asleep ∨
        (s.thread t).slots = [] ∨ ∀ c, s.ctx c = .idle) s ∧
      (s.thread 0).pc = .asleep ∧
      (s.thread 0).slots[0]? = some ⟨3, pollin, 0, false, 0, 0, false, 0, 0, false⟩ ∧
      (s.obj 0).ready = pollin ∧ s.queue = [] :=
    System.Reach.exists_of_run (toWait ++ [.sleep 0 false, .change 0 0 pollin, .begin 0, .drain 0])
      quiet_init (by decide +kernel)
  have hr' : (pollSystem (oneObject false)).Reach (Settled (oneObject false)) s := by
    refine hr.mono fun s a ha => ?_
    cases a with
    | drain c =>
        intro o hc t i x hp _ hx _
        rcases ha.2 t with hn | hp' | hs | hidle
        · exact hn
        · exact absurd hp' hp
        · rw [hs] at hx
          cases hx
        · exact absurd ((hidle c).symm.trans hc) nofun
    | _ => exact ha.1
  exact ⟨s, hr', ht, hready, hq, poll_broadcast_wakes hr' ht hx rfl (by decide) rfl
    (by rw [hready]; decide)⟩

/-- The object becomes ready and the broadcast takes the queue after the thread has looked at the
object and before it is on the queue: it goes to sleep, and nobody is about to wake it. -/
theorem poll_broadcast_misses : ∃ s : SmallState,
    (pollSystem (oneObject false)).Reach SignalsQueued s ∧ (s.thread 0).pc = .asleep ∧
    (s.thread 0).slots = [⟨3, pollin, 0, false, 0, 0, false, 0, 0, false⟩] ∧
    (s.thread 0).deadline = none ∧ (s.obj 0).ready = pollin ∧ ¬ Waking s 0 0 := by
  refine System.Reach.exists_of_run_imp
    (toWait ++ [.change 0 0 pollin, .begin 0, .drain 0, .hand 0, .sleep 0 false]) quiet_init
    (by decide +kernel) fun s _ => And.imp_right <| And.imp_right <| And.imp_right <|
      And.imp_right fun (hidle : ∀ c, s.ctx c = .idle) => ?_
  rintro ⟨c, hc⟩
  rw [hidle c] at hc
  exact hc.elim id nofun

end NeoKernel.Poll
