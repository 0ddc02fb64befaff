import NeoKernel.Sync.PollWake
import NeoKernel.Sync.WaitqSound

/-!
# The broadcast queue in memory (kernel/sync/waitq.c)

The queue of the pollers is a wait queue like any other. Where `poll` has a list of threads, the
threads are linked through `t->next`, and every step of a run works on these links as the operations
of a wait queue do.
-/
namespace NeoKernel.Poll
open Lib Function List Option
open Waitq (Waits Linked)

variable {τ ι κ ε : Type} [DecidableEq τ] [DecidableEq κ]

/-- The lists that `waitq_poll_notify` works on: the queue, and the threads that it puts back. -/
inductive PollList where
  | broadcast
  | keep
  deriving DecidableEq

/-- The locked loop of `waitq_poll_notify`; `none` if it does not end. -/
def notifyLoop (wants : τ → Bool) :
    Nat → Waits τ PollList κ → Option τ → Option (Waits τ PollList κ × Option τ)
  | n, v, woken =>
    match v.dequeue .broadcast with
    | none =>
        some ({ v with
          head := update (update v.head .keep none) .broadcast (v.head .keep)
          tail := update (update v.tail .keep none) .broadcast (v.tail .keep) }, woken)
    | some (t, v) =>
      match n with
      | 0 => none
      | n + 1 =>
        if wants t then
          notifyLoop wants n { v with
            next := update v.next t woken
            blockedOn := update v.blockedOn t none } (some t)
        else notifyLoop wants n (v.enqueue .keep t) woken

/-- What a context that is about to make a thread ready, or has done so, has still to hand out. -/
def Ctx.rest : Ctx τ ι → List τ
  | .handing rest => rest
  | .giving _ next => next.rest
  | _ => []

def PollState.lists (s : PollState τ ι κ ε) : PollList ⊕ κ → List τ
  | .inl .broadcast => s.queue
  | .inl .keep => []
  | .inr c => (s.ctx c).rest

/-- The links are those of the queue and of the wakers' own lists. -/
structure Shows (v : Waits τ PollList κ) (s : PollState τ ι κ ε) : Prop extends
    Linked v s.lists where
  blockedOn : ∀ t, v.blockedOn t = if (s.thread t).blockedOn then some .broadcast else none

variable {v : Waits τ PollList κ} {lists : PollList ⊕ κ → List τ} {c : κ} {wants : τ → Bool}

omit [DecidableEq τ] in
/-- The end of `waitq_poll_notify`'s loop: what is kept becomes the queue. -/
theorem linked_kept (h : Linked v lists) :
    Linked { v with
        head := update (update v.head .keep none) .broadcast (v.head .keep)
        tail := update (update v.tail .keep none) .broadcast (v.tail .keep) }
      (update (update lists (.inl .keep) []) (.inl .broadcast) (lists (.inl .keep))) := by
  have hempty := h.linked.replace (p := .inl .keep) (l := []) rfl nodup_nil nofun fun _ _ _ _ => rfl
  have hmoved := hempty.replace (p := .inl .broadcast) (h.linked.chain (.inl .keep))
    (h.linked.nodup _) (fun y hy => .inr fun p hp => ?_) fun _ _ _ _ => rfl
  · refine ⟨?_, ?_⟩
    · change Lists v.next (Sum.elim (update (update v.head .keep none) .broadcast (v.head .keep))
        fun k => (v.pc k).rest) _
      rw [← Sum.update_elim_inl, ← Sum.update_elim_inl]
      exact hmoved
    · dsimp only
      rw [h.last .keep]
      exact Waitq.getLast?_update (Waitq.getLast?_update h.last .keep []) .broadcast _
  · by_cases hkeep : p = .inl .keep
    · rw [hkeep, update_self] at hp
      cases hp
    · rw [update_of_ne hkeep] at hp
      exact hkeep (h.linked.apart p _ y hp hy)

/-- One round takes the first thread off the queue. -/
theorem linked_round {t : τ} {l : List τ} {woken : Option τ}
    (h : Linked (v.setPc c (.hand woken)) lists) (hl : lists (.inl .broadcast) = t :: l) :
    ∃ v', v.dequeue .broadcast = some (t, v') ∧ v'.blockedOn = v.blockedOn ∧
      Linked (v'.setPc c (.hand woken)) (update lists (.inl .broadcast) l) := by
  have hchain := h.linked.chain (.inl .broadcast)
  have hlast := h.last .broadcast
  rw [hl] at hchain hlast
  refine ⟨_, Waitq.dequeue_some hchain hlast, rfl, ?_, Waitq.getLast?_update h.last _ l⟩
  have hpop := h.linked.pop hl none
  rwa [← Waitq.start_update] at hpop

theorem enqueue_setPc (x : Waitq.Pc τ PollList) (q : PollList) (t : τ) :
    (v.setPc c x).enqueue q t = (v.enqueue q t).setPc c x := by
  unfold Waits.enqueue Waits.setPc
  dsimp only
  split <;> rfl

/-- A thread that wants the broadcast is put before those in the waker's hand. -/
theorem linked_woken {t : τ} {woken : Option τ} (h : Linked (v.setPc c (.hand woken)) lists)
    (hoff : ∀ p, t ∉ lists p) :
    Linked ({ v with
        next := update v.next t woken
        blockedOn := update v.blockedOn t none }.setPc c (.hand (some t)))
      (update lists (.inr c) (t :: lists (.inr c))) := by
  have hpushed := h.linked.push hoff (.inr c)
  have hstart : (v.setPc c (.hand woken)).start (.inr c) = woken := by
    simp [Waits.start, Waits.setPc, Waitq.Pc.rest]
  refine ⟨?_, h.last⟩
  rw [hstart, Waitq.start_setPc] at hpushed
  rw [Waitq.start_setPc]
  rwa [update_idem] at hpushed

theorem notifyLoop_spec (wants : τ → Bool) {n : Nat} {l : List τ} {woken : Option τ}
    (h : Linked (v.setPc c (.hand woken)) lists) (hl : lists (.inl .broadcast) = l)
    (hn : l.length ≤ n) : ∃ v' woken', notifyLoop wants n v woken = some (v', woken') ∧
      (v'.blockedOn = fun t => if t ∈ l.filter wants then none else v.blockedOn t) ∧
      Linked (v'.setPc c (.hand woken')) (update (update (update lists (.inl .keep) [])
        (.inl .broadcast) (lists (.inl .keep) ++ l.filter fun t => !wants t))
        (.inr c) ((l.filter wants).reverse ++ lists (.inr c))) := by
  induction l generalizing v lists n woken with
  | nil =>
      have hchain := h.linked.chain (.inl .broadcast)
      rw [hl] at hchain
      have hdeq : v.dequeue .broadcast = none := Waitq.dequeue_none hchain
      unfold notifyLoop
      rw [hdeq]
      refine ⟨_, _, rfl, by simp, ?_⟩
      have hsame : update (update (update lists (.inl .keep) []) (.inl .broadcast)
          (lists (.inl .keep))) (.inr c) (lists (.inr c)) = _ := update_eq_self_iff.2 (by simp)
      rw [filter_nil, append_nil, filter_nil, reverse_nil, nil_append, hsame]
      exact linked_kept h
  | cons t l ih =>
      obtain ⟨n, rfl⟩ : ∃ m, n = m + 1 := ⟨n - 1, by simp only [length_cons] at hn; omega⟩
      obtain ⟨v₁, hdeq, hon, hround⟩ := linked_round h hl
      have hoff : ∀ p, t ∉ update lists (.inl .broadcast) l p :=
        fun p hp => ((h.linked.mem_drop (hl ▸ List.Perm.refl _)).1 hp).2 rfl
      unfold notifyLoop
      rw [hdeq]
      dsimp only
      by_cases hw : wants t = true
      · rw [if_pos hw]
        obtain ⟨v', woken', hrun, hon', hlinked⟩ :=
          ih (linked_woken hround hoff) (by simp) (by simpa using hn)
        refine ⟨v', woken', hrun, ?_, ?_⟩
        · funext u
          rw [hon', hon]
          by_cases hu : u = t <;> simp [hu, hw]
        · convert hlinked using 1
          funext p
          rcases p with (_ | _) | j <;> simp [update_apply, hw]
          by_cases hj : j = c <;> simp [hj]
      · rw [if_neg hw]
        have hkeep := hround.enqueue hoff .keep
        rw [enqueue_setPc] at hkeep
        obtain ⟨v', woken', hrun, hon', hlinked⟩ := ih hkeep (by simp) (by simpa using hn)
        refine ⟨v', woken', hrun, ?_, ?_⟩
        · rw [hon', Waitq.enqueue_frame, hon, filter_cons_of_neg hw]
        · convert hlinked using 1
          funext p
          rcases p with (_ | _) | j <;> simp [update_apply, hw]

variable {s s' : PollState τ ι κ ε} {k : Ctx τ ι} {t : τ}

omit [DecidableEq τ] in
theorem lists_setCtx (s : PollState τ ι κ ε) (c : κ) (k : Ctx τ ι) :
    (s.setCtx c k).lists = update s.lists (.inr c) k.rest := by
  funext p
  rcases p with (_ | _) | j
  · exact (update_of_ne (by simp) ..).symm
  · exact (update_of_ne (by simp) ..).symm
  · by_cases hj : j = c <;> simp [PollState.lists, PollState.setCtx, hj]

omit [DecidableEq τ] in
theorem Ctx.held_of_rest (h : t ∈ k.rest) : t ∈ k.held := by
  induction k with
  | handing rest => exact h
  | giving u next ih => exact mem_cons_of_mem u (ih h)
  | _ => cases h

namespace Shows

variable (h : Shows v s)
include h

omit [DecidableEq τ] [DecidableEq κ] in
theorem congr (hq : s'.queue = s.queue) (hrest : ∀ c, (s'.ctx c).rest = (s.ctx c).rest)
    (hb : ∀ t, (s'.thread t).blockedOn = (s.thread t).blockedOn) : Shows v s' := by
  have hlists : s'.lists = s.lists := by
    funext p
    rcases p with (_ | _) | c
    · exact hq
    · rfl
    · exact hrest c
  refine ⟨hlists ▸ h.toLinked, fun t => ?_⟩
  rw [hb]
  exact h.blockedOn t

omit [DecidableEq τ] in
theorem setCtx (hq : s'.queue = s.queue) (hctx : s'.ctx = update s.ctx c k)
    (hk : k.rest = (s.ctx c).rest)
    (hb : ∀ t, (s'.thread t).blockedOn = (s.thread t).blockedOn) : Shows v s' :=
  h.congr hq (hctx ▸ update_keeps Ctx.rest hk) hb

theorem sleep (hsingle : Single s) (ht : (s.thread t).pc ≠ .asleep) {x : Thread ε}
    (hx : x.blockedOn = true) :
    Shows (v.sleepOn .broadcast t) { s.setThread t x with queue := s.queue ++ [t] } := by
  have hoff : ∀ p, t ∉ s.lists p := by
    rintro ((_ | _) | c) hm
    · exact ht (hsingle.queued t hm)
    · cases hm
    · exact ht (hsingle.held c t (Ctx.held_of_rest hm)).1
  have hlinked := h.toLinked.enqueue hoff .broadcast
  have hlists : { s.setThread t x with queue := s.queue ++ [t] }.lists =
      update s.lists (.inl .broadcast) (s.queue ++ [t]) := by
    funext p
    rcases p with (_ | _) | c <;> simp [PollState.lists, PollState.setThread]
  unfold Waits.sleepOn
  refine ⟨?_, fun u => ?_⟩
  · rw [hlists]
    exact ⟨hlinked.linked, hlinked.last⟩
  · dsimp only
    rw [Waitq.enqueue_frame]
    change update v.blockedOn t _ u = if (update s.thread t x u).blockedOn then _ else _
    by_cases hu : u = t
    · simp [hu, hx]
    · simp [hu, h.blockedOn]

omit [DecidableEq κ] in
theorem resume {x : Thread ε} (hx : x.blockedOn = false) :
    Shows { v with blockedOn := update v.blockedOn t none } (s.setThread t x) := by
  refine ⟨⟨h.linked, h.last⟩, fun u => ?_⟩
  change update v.blockedOn t none u = if (update s.thread t x u).blockedOn then _ else _
  by_cases hu : u = t
  · simp [hu, hx]
  · simp [hu, h.blockedOn]

end Shows

def noLinks : Waits τ PollList κ :=
  ⟨fun _ => .running, fun _ => none, fun _ => none, fun _ => false, fun _ => none, fun _ => none,
    fun _ => .idle⟩

omit [DecidableEq τ] [DecidableEq κ] in
theorem PollInit.shows (h : PollInit s) : Shows noLinks s := by
  have hlists : s.lists = fun _ => [] := by
    funext p
    rcases p with (_ | _) | c
    · exact h.queue
    · rfl
    · exact congrArg Ctx.rest (h.ctx c)
  refine ⟨hlists ▸ ⟨⟨?_, fun _ => nodup_nil, nofun⟩, fun _ => rfl⟩, fun t => ?_⟩
  · rintro (q | c) <;> rfl
  · rw [h.blockedOn]
    rfl

variable [Fintype τ]

/-- What a step does to the links and to `t->blocked_on`. -/
inductive QueueOp (wants : τ → Bool) (v : Waits τ PollList κ) : Waits τ PollList κ → Prop where
  | none : QueueOp wants v v
  | sleepOn (t : τ) : QueueOp wants v (v.sleepOn .broadcast t)
  | removeFrom {t : τ} {v'} : v.removeFrom .broadcast t = some (true, v') → QueueOp wants v v'
  | notify {c : κ} {v' woken} : notifyLoop wants (Fintype.card τ) v Option.none = some (v', woken) →
      QueueOp wants v (v'.setPc c (.hand woken))
  | hand {c : κ} {t : τ} : (v.pc c).rest = some t →
      QueueOp wants v ({ v with next := update v.next t Option.none }.setPc c (.wake t (v.next t)))
  | resume (t : τ) : QueueOp wants v { v with blockedOn := update v.blockedOn t Option.none }

namespace Shows

variable (h : Shows v s)
include h

theorem unqueue {x : Thread ε} (ht : t ∈ s.queue) (hq : s'.queue = s.queue.erase t)
    (hctx : s'.ctx = update s.ctx c k) (hk : k.rest = (s.ctx c).rest)
    (hthread : s'.thread = update s.thread t x) (hx : x.blockedOn = false) :
    ∃ v', QueueOp wants v v' ∧ Shows v' s' := by
  obtain ⟨next, head, tail, hrun, hlinked⟩ := h.toLinked.removeFrom (q := .broadcast) ht
  refine ⟨_, .removeFrom hrun, ?_, fun u => ?_⟩
  · have hlists : s'.lists = update s.lists (.inl .broadcast) (s.queue.erase t) := by
      funext p
      rcases p with (_ | _) | c
      · simp [PollState.lists, hq]
      · rfl
      · rw [update_of_ne (by simp)]
        exact (congrArg Ctx.rest (congrFun hctx _)).trans (update_keeps Ctx.rest hk _)
    rw [hlists]
    exact ⟨hlinked.linked, hlinked.last⟩
  · dsimp only
    rw [hthread]
    by_cases hu : u = t
    · simp [hu, hx]
    · simp [hu, h.blockedOn]

theorem drain {o : Option ι} (hc : s.ctx c = .draining o) {woken : List τ}
    (hw : woken = s.queue.filter fun t => (s.thread t).wants) :
    ∃ v', QueueOp (fun t => (s.thread t).wants) v v' ∧ Shows v' ({ s with
      queue := s.queue.filter fun t => !(s.thread t).wants
      thread := fun t =>
        if t ∈ woken then { s.thread t with blockedOn := false } else s.thread t }.setCtx c
      (.handing woken.reverse)) := by
  have hrest : (s.ctx c).rest = [] := by rw [hc]; rfl
  have hidle : Linked (v.setPc c (.hand none)) s.lists := by
    refine ⟨?_, h.last⟩
    have hchain := h.linked.chain (.inr c)
    rw [show s.lists (.inr c) = [] from hrest] at hchain
    rw [Waitq.start_setPc_of_rest]
    · exact h.linked
    · exact (show (v.pc c).rest = none from hchain).symm
  obtain ⟨v', first, hrun, hon, hlinked⟩ := notifyLoop_spec
    (fun t => (s.thread t).wants) hidle rfl (h.linked.nodup _).length_le_card
  refine ⟨v'.setPc c (.hand first), .notify hrun, ?_, fun t => ?_⟩
  · convert hlinked using 1
    funext p
    rcases p with (_ | _) | j
    · simp [PollState.lists, PollState.setCtx]
    · simp [PollState.lists]
    · by_cases hj : j = c
      · simp [PollState.lists, PollState.setCtx, hj, hrest, hw, Ctx.rest]
      · simp [PollState.lists, PollState.setCtx, hj]
  · change v'.blockedOn t = if (if t ∈ woken then { s.thread t with blockedOn := false }
      else s.thread t).blockedOn then _ else _
    rw [hon, hw]
    dsimp only
    rw [show s.lists (.inl .broadcast) = s.queue from rfl]
    split
    · rfl
    · exact h.blockedOn t

theorem hand {rest : List τ} (hc : s.ctx c = .handing (t :: rest)) {x : Thread ε}
    (hx : x.blockedOn = (s.thread t).blockedOn) :
    ∃ v', QueueOp wants v v' ∧
      Shows v' ((s.setThread t x).setCtx c (.giving t (.handing rest))) := by
  have hl : s.lists (.inr c) = t :: rest := by
    change (s.ctx c).rest = _
    rw [hc]
    rfl
  have hchain := h.linked.chain (.inr c)
  rw [hl] at hchain
  refine ⟨_, .hand hchain.1, ?_, fun u => ?_⟩
  · have hpop := h.linked.pop hl none
    rw [lists_setCtx]
    refine ⟨?_, h.last⟩
    rw [Waitq.start_setPc]
    exact hpop
  · change v.blockedOn u = if (update s.thread t x u).blockedOn then _ else _
    rw [update_keeps Thread.blockedOn hx]
    exact h.blockedOn u

end Shows

variable [DecidableEq ι] [DecidableEq ε] {w : World τ ι} {a : PollAct τ ι κ ε}

/-- Every step works on the links as the wait queue's operations do. -/
theorem Moves.shows (hm : Moves w s a s') (hsingle : Single s) (h : Shows v s) :
    ∃ v', QueueOp (fun t => (s.thread t).wants) v v' ∧ Shows v' s' := by
  cases hm with
  | tick | withdraw => exact ⟨v, .none, h.congr rfl (fun _ => rfl) fun _ => rfl⟩
  | change hc | beginHead hc | beginBroadcast hc | flagged hc | wakeOther hc | woken hc
  | handed hc | broadcast hc | makeAwake hc =>
      exact ⟨v, .none, h.setCtx rfl rfl (by rw [hc]; rfl) fun _ => rfl⟩
  | flag hc | make hc =>
      exact ⟨v, .none, h.setCtx rfl rfl (by rw [hc]; rfl)
        (update_keeps Thread.blockedOn (by rfl))⟩
  | wake hc hq | interrupt hc hq =>
      exact h.unqueue hq.2 rfl rfl (by rw [hc]; rfl) rfl rfl
  | timer hc hq => exact h.unqueue hq.2 rfl rfl (by rw [hc]; rfl) (timer_thread s _) rfl
  | drain _ hc hw => exact h.drain hc hw
  | hand hc => exact h.hand hc rfl
  | ctl hc _ hk =>
      exact ⟨v, .none,
        h.setCtx rfl rfl (by rw [hc]; rcases hk with rfl | rfl <;> rfl) fun _ => rfl⟩
  | register | unregister | writeback | deliver =>
      exact ⟨v, .none, h.congr rfl (fun _ => rfl) (update_keeps Thread.blockedOn (by rfl))⟩
  | sleep hp => exact ⟨_, .sleepOn _, h.sleep hsingle (by rw [hp]; nofun) rfl⟩
  | turn ht =>
      cases ht with
      | resume => exact ⟨_, .resume _, h.resume rfl⟩
      | _ => exact ⟨v, .none, h.congr rfl (fun _ => rfl) (update_keeps Thread.blockedOn (by rfl))⟩


/-- Whatever a run has done, operations of a wait queue that begins empty do to the links. -/
theorem exists_shows (hr : (pollSystem w).Reach SignalsQueued s) : ∃ v : Waits τ PollList κ,
    Relation.ReflTransGen (fun v v' => ∃ wants, QueueOp wants v v') noLinks v ∧ Shows v s := by
  refine (hr.invariant (fun s => Single s ∧ ∃ v : Waits τ PollList κ,
    Relation.ReflTransGen (fun v v' => ∃ wants, QueueOp wants v v') noLinks v ∧ Shows v s)
    (fun s hinit => ⟨hinit.single, noLinks, .refl, hinit.shows⟩) ?_).2
  rintro s a s' ⟨hsingle, v, hops, hshows⟩ hok hs
  have hm := pollStep_moves hsingle hok hs
  obtain ⟨v', hop, hshows'⟩ := hm.shows hsingle hshows
  exact ⟨hsingle.step hm, v', hops.tail ⟨_, hop⟩, hshows'⟩

end NeoKernel.Poll
