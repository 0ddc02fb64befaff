import NeoKernel.Sync.PollWake

/-!
# Edge-triggered registrations lose no edge

An edge is the number that a notification gives to the counter of an object. What a registration or
a waiting call remembers as told has been reported, to a caller or by a call that is on its way out,
by a scan that had sampled that number or a later one.
-/
namespace NeoKernel.Poll
open Lib Function List Option

variable {τ ι κ ε : Type}
variable {w : World τ ι} {s s' : PollState τ ι κ ε} {a : PollAct τ ι κ ε} {call : EpollCall ε}
  {Q : Entry → Prop} {x th : Thread ε} {t : τ} {b n : Nat}

/-- The bits other than `POLLNVAL`, which is not reported. -/
def EventBit (b : Nat) : Prop := pollnval.getLsbD b = false

/-- The pass has looked at index `i` and what it found is still to be handed out. -/
def Pc.Looked (i : Nat) : Pc → Prop
  | .scan j => i < j
  | .sampled j _ => i < j
  | .leave _ _ | .back _ | .out _ => True
  | _ => False

/-- The thread is in `epoll_wait` on `set` and has the bit `b` of a registration to hand out, found
after the counter was sampled as `n` or later. -/
def Carries (th : Thread ε) (set : ε) (fd : Int) (gen : BitVec 32) (b n : Nat) : Prop :=
  ∃ call i x, th.call = some call ∧ call.set = set ∧ th.pc.Looked i ∧ th.slots[i]? = some x ∧
    x.fd = fd ∧ x.gen = gen ∧ x.revents.getLsbD b = true ∧ n ≤ x.seq

def Delivered (s : PollState τ ι κ ε) (set : ε) (fd : Int) (gen : BitVec 32) (b n : Nat) : Prop :=
  ∃ r ∈ s.delivered set, r.fd = fd ∧ r.gen = gen ∧ r.bits.getLsbD b = true ∧ n ≤ r.sample

/-- The bit has been reported for the edge `n` or a later one, or is about to be. -/
def Told (s : PollState τ ι κ ε) (set : ε) (fd : Int) (gen : BitVec 32) (b n : Nat) : Prop :=
  Delivered s set fd gen b n ∨ ∃ u, Carries (s.thread u) set fd gen b n

section Carries

variable {set : ε} {fd : Int} {gen : BitVec 32}

theorem Carries.congr (h : Carries th set fd gen b n) (hc : x.call = th.call)
    (hp : ∀ i, th.pc.Looked i → x.pc.Looked i)
    (hs : ∀ i y, th.pc.Looked i → th.slots[i]? = some y → ∃ z, x.slots[i]? = some z ∧ z.fd = y.fd ∧
      z.gen = y.gen ∧ z.revents = y.revents ∧ z.seq = y.seq) : Carries x set fd gen b n := by
  obtain ⟨call, i, y, hcall, hset, hi, hy, rfl, rfl, hb, hn⟩ := h
  obtain ⟨z, hz, hzfd, hzgen, hzrev, hzseq⟩ := hs i y hi hy
  exact ⟨call, i, z, hc.trans hcall, hset, hp i hi, hz, hzfd, hzgen, hzrev ▸ hb, hzseq ▸ hn⟩

theorem readyCount_ne_zero {slots : List Slot} {y : Slot} (hy : y ∈ slots)
    (hb : y.revents.getLsbD b = true) : readyCount slots ≠ 0 := by
  have hne : y.revents ≠ 0 := by
    intro h
    rw [h] at hb
    simp at hb
  exact Nat.ne_of_gt (readyCount_pos hy hne)

theorem reported_of_event {y : Slot} (he : EventBit b) (hb : y.revents.getLsbD b = true) :
    y.reported = true := by
  have hne : y.revents ≠ 0 := by
    intro h
    rw [h] at hb
    simp at hb
  have hnval : y.revents ≠ pollnval := by
    intro h
    rw [h] at hb
    exact absurd (hb.symm.trans he) nofun
  simpa [Slot.reported, hnval] using hne

theorem not_carries_out {intr : Bool} (hcount : Counted th) (hp : th.pc = .out intr)
    (he : EventBit b)
    (hout : intr = false → collect th.ready th.slots = []) : ¬ Carries th set fd gen b n := by
  rintro ⟨call, i, y, -, -, -, hy, -, -, hb, -⟩
  have hmem := mem_of_getElem? hy
  rw [Counted, hp] at hcount
  cases intr with
  | true => exact readyCount_ne_zero hmem hb (hcount.2 rfl)
  | false =>
      refine collect_ne_nil hmem (reported_of_event he hb) ?_
      rw [← hcount.1]
      exact hout rfl

theorem Carries.turn (h : Carries th set fd gen b n) (hcount : Counted th) (he : EventBit b)
    (ht : Turn w s t th x) : Carries x set fd gen b n := by
  -- a thread that has looked at nothing carries nothing
  have hnone : (∀ i, ¬ th.pc.Looked i) → Carries x set fd gen b n := by
    intro hno
    obtain ⟨_, i, _, -, -, hi, -⟩ := h
    exact absurd hi (hno i)
  cases ht
  case skip i y hp hy _ =>
    refine h.congr rfl (fun j hj => ?_) fun j z hj hz =>
      ⟨z, ?_, rfl, rfl, rfl, rfl⟩ <;> rw [hp] at hj
    · exact Nat.lt_succ_of_lt hj
    · exact (getElem?_set_ne (Nat.ne_of_gt hj)).trans hz
  case sample hp _ _ =>
    exact h.congr rfl (fun j hj => by rw [hp] at hj; exact hj) fun j z _ hz =>
      ⟨z, hz, rfl, rfl, rfl, rfl⟩
  case poll i seq y z' hp hy _ =>
    refine h.congr rfl (fun j hj => ?_) fun j z hj hz =>
      ⟨z, ?_, rfl, rfl, rfl, rfl⟩ <;> rw [hp] at hj
    · exact Nat.lt_succ_of_lt hj
    · exact (getElem?_set_ne (Nat.ne_of_gt hj)).trans hz
  case found => exact h.congr rfl (fun _ _ => trivial) fun j z _ hz => ⟨z, hz, rfl, rfl, rfl, rfl⟩
  case nothing i hp hend h0 =>
    obtain ⟨call, j, y, -, -, hj, hy, -, -, hb, -⟩ := h
    rw [Counted, hp] at hcount
    have hcount : th.ready = readyCount (th.slots.take i) := hcount
    rw [take_of_length_le (List.getElem?_eq_none_iff.1 hend)] at hcount
    exact absurd (hcount.symm.trans h0) (readyCount_ne_zero (mem_of_getElem? hy) hb)
  case leave => exact h.congr rfl (fun _ _ => trivial) fun j z _ hz => ⟨z, hz, rfl, rfl, rfl, rfl⟩
  case finish i intr pc hp _ hpc =>
    have hcall : th.call.isSome = true := by
      obtain ⟨call, _, _, hcall, -⟩ := h
      rw [hcall]
      rfl
    rw [hcall, if_pos rfl] at hpc
    subst hpc
    exact h.congr rfl (fun _ _ => trivial) fun j z _ hz => ⟨z, hz, rfl, rfl, rfl, rfl⟩
  case empty intr call hp hc hout => exact absurd h (not_carries_out hcount hp he hout)
  case again call hp hc hout => exact absurd h (not_carries_out hcount hp he fun _ => hout)
  case registered hp _ | registerClosed hp _ _ | registerNone hp _ _ _ | publish hp
    | clear hp | stop hp
    | retry hp | resume hp _ | callPoll hp | callEpoll hp | snapshot hp _ =>
    exact hnone fun i => by rw [hp]; exact not_false

theorem reports_of_carries (h : Carries th set fd gen b n) (hcount : Counted th)
    (hp : th.pc = .out false) (hc : th.call = some call) (he : EventBit b) :
    call.set = set ∧ ∃ r ∈ (reports th.slots).take th.ready, r.fd = fd ∧ r.gen = gen ∧
      r.bits.getLsbD b = true ∧ n ≤ r.sample := by
  obtain ⟨call', i, y, hcall, hset, -, hy, hfd, hgen, hb, hn⟩ := h
  obtain rfl : call = call' := some.inj (hc.symm.trans hcall)
  rw [Counted, hp] at hcount
  have hlen : (reports th.slots).length ≤ th.ready := by
    rw [reports, length_map, ← countP_eq_length_filter, hcount.1]
    refine countP_mono_left fun z _ hz => ?_
    simp only [Slot.reported, Bool.and_eq_true, bne_iff_ne] at hz
    exact decide_eq_true hz.1
  refine ⟨hset, ⟨y.fd, y.gen, y.revents, y.seq⟩, ?_, hfd, hgen, hb, hn⟩
  rw [take_of_length_le hlen]
  exact mem_map.2 ⟨y, mem_filter.2 ⟨mem_of_getElem? hy, reported_of_event he hb⟩, rfl⟩

/-- What a call carries it goes on to carry, until it hands it out. -/
theorem Carries.change [DecidableEq ε] (h : Carries th set fd gen b n) (hcount : Counted th)
    (he : EventBit b) (hc : Change w s s' t th x) :
    Delivered s' set fd gen b n ∨ Carries x set fd gen b n := by
  cases hc with
  | mark | writeback =>
      exact .inr (h.congr rfl (fun _ hi => by simp_all [Pc.Looked]) fun j z _ hz =>
        ⟨z, hz, rfl, rfl, rfl, rfl⟩)
  | woken hp | sleep hp | register hp =>
      obtain ⟨_, i, _, -, -, hi, -⟩ := h
      rw [hp] at hi
      cases hi
  | @unregister i intr x hp hx =>
      refine .inr (h.congr rfl (fun _ _ => trivial) fun j y _ hy => ?_)
      by_cases hij : i = j
      · subst hij
        cases hx.symm.trans hy
        exact ⟨_, getElem?_set_self (List.getElem?_eq_some_iff.1 hx).1, rfl, rfl, rfl, rfl⟩
      · exact ⟨y, (getElem?_set_ne hij).trans hy, rfl, rfl, rfl, rfl⟩
  | deliver hp hc hdel =>
      obtain ⟨rfl, r, hr, hrest⟩ := reports_of_carries h hcount hp hc he
      refine .inl ⟨r, ?_, hrest⟩
      rw [hdel, update_self]
      exact mem_append_left _ hr
  | turn ht => exact .inr (h.turn hcount he ht)

variable [DecidableEq τ] [DecidableEq ι] [DecidableEq κ] [DecidableEq ε]

theorem Delivered.step (h : Delivered s set fd gen b n) (hm : Moves w s a s') :
    Delivered s' set fd gen b n := by
  obtain ⟨r, hr, hrest⟩ := h
  refine ⟨r, ?_, hrest⟩
  cases hm with
  | @deliver t call out hp hc hdel =>
      change r ∈ update s.delivered call.set out set
      by_cases hs : set = call.set
      · rw [hs, update_self, hdel, ← hs]
        exact mem_append_right _ hr
      · rw [update_of_ne hs]
        exact hr
  | _ => exact hr

theorem Told.step (h : Told s set fd gen b n) (hcount : ∀ t, Counted (s.thread t))
    (he : EventBit b) (hm : Moves w s a s') : Told s' set fd gen b n := by
  rcases h with h | ⟨u, hu⟩
  · exact .inl (h.step hm)
  · exact (hu.change (hcount u) he (hm.changes u)).imp_right fun hx => ⟨u, hx⟩

end Carries

/-- The remembered bits have been told for the remembered counter. -/
def Known (s : PollState τ ι κ ε) (set : ε) (fd : Int) (gen : BitVec 32) (last : Mask)
    (have_ : Bool)
    (n : Nat) : Prop :=
  have_ = true → ∀ b, EventBit b → last.getLsbD b = true → Told s set fd gen b n

def Entry.Known (s : PollState τ ι κ ε) (set : ε) (e : Entry) : Prop :=
  Poll.Known s set e.fd e.gen e.lastReady e.haveSeq e.lastSeq

def Slot.Known (s : PollState τ ι κ ε) (set : ε) (x : Slot) : Prop :=
  x.et = true → Poll.Known s set x.fd x.gen x.last x.haveSeq x.seq

structure Remembers (s : PollState τ ι κ ε) : Prop where
  entry : ∀ set, ∀ e ∈ (s.epoll set).list, e.Known s set
  slot : ∀ t call, (s.thread t).call = some call → (s.thread t).pc ≠ .idle →
    ∀ x ∈ (s.thread t).slots, x.Known s call.set

theorem mem_replaceF {α : Type} {p : α → Option α} {l : List α} {y : α} (h : y ∈ l.replaceF p) :
    y ∈ l ∨ ∃ x ∈ l, p x = some y := by
  induction l with
  | nil => cases h
  | cons a l ih =>
      rw [replaceF_cons] at h
      cases ha : p a with
      | none =>
          rw [ha] at h
          rcases mem_cons.1 h with rfl | h
          · exact .inl mem_cons_self
          · exact (ih h).imp (mem_cons_of_mem a) fun ⟨x, hx, hp⟩ =>
              ⟨x, mem_cons_of_mem a hx, hp⟩
      | some b =>
          rw [ha] at h
          rcases mem_cons.1 h with rfl | h
          · exact .inr ⟨a, mem_cons_self, ha⟩
          · exact .inl (mem_cons_of_mem a h)

theorem forall_writeback {o : EpollObj} {slots : List Slot} (h : ∀ e ∈ o.list, Q e)
    (hslots : ∀ x ∈ slots, x.et = true → ∀ e : Entry, e.fd = x.fd → e.gen = x.gen →
      Q (e.absorb x)) :
    ∀ e ∈ (o.edgesWriteback slots).list, Q e := by
  unfold EpollObj.edgesWriteback
  induction slots generalizing o with
  | nil => exact h
  | cons x slots ih =>
      rw [foldl_cons]
      refine ih (o := { o with list := if x.et then EpollObj.writebackOne x o.list else o.list }) ?_
        fun y hy => hslots y (mem_cons_of_mem x hy)
      dsimp only
      split
      · next het =>
          intro e he
          rcases mem_replaceF he with he | ⟨e', -, he'⟩
          · exact h e he
          · obtain ⟨hm, ⟨⟩⟩ := ite_none_right_eq_some.1 he'
            exact hslots x mem_cons_self het e' hm.1 hm.2
      · exact h

theorem forall_ctl {o o' : EpollObj} {op : CtlOp} {fd : Int} {events : BitVec 32} {data : BitVec 64}
    (h : ∀ e ∈ o.list, Q e) (hfresh : ∀ e : Entry, e.haveSeq = false → Q e)
    (hctl : o.ctl op fd events data = .ok o') : ∀ e ∈ o'.list, Q e := by
  revert hctl
  fun_cases EpollObj.ctl o op fd events data <;> rintro ⟨⟩ e he
  · rcases mem_append.1 he with he | he
    · exact h e he
    · exact hfresh e (by rw [mem_singleton.1 he])
  · rcases mem_replaceF he with he | ⟨e', -, he'⟩
    · exact h e he
    · obtain ⟨-, ⟨⟩⟩ := ite_none_right_eq_some.1 he'
      exact hfresh _ rfl
  · exact h e (mem_of_mem_eraseP he)

theorem Known.step [DecidableEq τ] [DecidableEq ι] [DecidableEq κ] [DecidableEq ε]
    {set : ε} {fd : Int} {gen : BitVec 32} {last : Mask} {have_ : Bool} {n : Nat}
    (h : Known s set fd gen last have_ n) (hcount : ∀ t, Counted (s.thread t))
    (hm : Moves w s a s') :
    Known s' set fd gen last have_ n :=
  fun hh b he hb => (h hh b he hb).step hcount he hm

/-- A scan in edge mode: what was seen is reported now, or was told before for the same counter. -/
theorem scan_edge {x : Slot} {seq : Option Nat} {got : Mask} {b : Nat} (het : x.et = true)
    (hs : (x.scan seq got).haveSeq = true) (hb : (x.scan seq got).last.getLsbD b = true) :
    (x.scan seq got).revents.getLsbD b = true ∨
      x.haveSeq = true ∧ x.seq = (x.scan seq got).seq ∧ x.last.getLsbD b = true := by
  have hseq : seq = some (x.scan seq got).seq := scan_counter (by simp [Slot.scan, het]) hs
  have hlt : b < 16 := BitVec.lt_of_getLsbD hb
  have hnot : ∀ m : Mask, m.getLsbD b = false → (~~~m).getLsbD b = true := fun m hm => by
    rw [BitVec.getLsbD_not, hm, decide_eq_true hlt]
    rfl
  cases harm : x.armed seq with
  | true =>
      left
      simp only [Slot.scan, het, harm, if_true] at hb ⊢
      rw [BitVec.getLsbD_and, hb, hnot 0 (BitVec.getLsbD_zero ..)]
      rfl
  | false =>
      by_cases hl : x.last.getLsbD b = true
      · right
        simp only [Slot.armed, Bool.or_eq_false_iff, Bool.not_eq_false',
          bne_eq_false_iff_eq] at harm
        exact ⟨harm.1, (some.inj (hseq.symm.trans harm.2)).symm, hl⟩
      · left
        simp only [Slot.scan, het, harm, if_true, if_false, Bool.false_eq_true] at hb ⊢
        rw [BitVec.getLsbD_and, hb, hnot x.last (Bool.eq_false_iff.2 hl)]
        rfl

theorem Slot.Known.congr {set : ε} {x y : Slot} (h : x.Known s set) (het : y.et = x.et)
    (hfd : y.fd = x.fd) (hgen : y.gen = x.gen) (hlast : y.last = x.last)
    (hh : y.haveSeq = x.haveSeq)
    (hseq : y.seq = x.seq) : y.Known s set := by
  unfold Slot.Known at h ⊢
  rwa [het, hfd, hgen, hlast, hh, hseq]

theorem scan_keys (x : Slot) (seq : Option Nat) (got : Mask) :
    (x.scan seq got).et = x.et ∧ (x.scan seq got).gen = x.gen := by
  unfold Slot.scan
  dsimp only
  split
  · exact ⟨rfl, rfl⟩
  · exact ⟨rfl, rfl⟩

theorem Remembers.turn (h : Remembers s)
    (hrun : ∀ {set : ε} {y : Slot}, y.Known s set → y.Known s' set) (hself : s'.thread t = x)
    (ht : Turn w s t (s.thread t) x) (hcall : x.call = some call) (hpc : x.pc ≠ .idle) :
    ∀ y ∈ x.slots, y.Known s' call.set := by
  have hkeep : (s.thread t).call = some call → (s.thread t).pc ≠ .idle →
      ∀ y ∈ (s.thread t).slots, y.Known s' call.set :=
    fun hc hp y hy => hrun (h.slot t call hc hp y hy)
  cases ht
  case skip i y hp hy _ =>
    intro z hz
    have hall := hkeep hcall (by rw [hp]; nofun)
    rcases mem_or_eq_of_mem_set hz with hz | rfl
    · exact hall z hz
    · exact (hall y (mem_of_getElem? hy)).congr rfl rfl rfl rfl rfl rfl
  case poll i seq y z hp hy hz =>
    have hall := hkeep hcall (by rw [hp]; nofun)
    intro z' hz'
    rcases mem_or_eq_of_mem_set hz' with hz' | rfl
    · exact hall z' hz'
    intro het hhave b he hb
    have hkeys : z'.fd = y.fd ∧ z'.gen = y.gen ∧ z'.et = y.et := by
      rw [hz]
      exact ⟨scan_fd .., (scan_keys ..).2, (scan_keys ..).1⟩
    have hyet : y.et = true := hkeys.2.2 ▸ het
    have hlen : i < (s.thread t).slots.length := (List.getElem?_eq_some_iff.1 hy).1
    have hcase := scan_edge (x := y) hyet (by rw [hz] at hhave; exact hhave)
      (by rw [hz] at hb; exact hb)
    rw [← hz] at hcase
    rcases hcase with hrev | ⟨hold, hseq, hlast⟩
    · -- reported by this scan: the thread itself carries it
      refine .inr ⟨t, ?_⟩
      rw [hself]
      exact ⟨call, i, z', hcall, rfl, Nat.lt_succ_self i, getElem?_set_self hlen, rfl, rfl, hrev,
        Nat.le_refl _⟩
    · rw [hkeys.1, hkeys.2.1, ← hseq]
      exact hall y (mem_of_getElem? hy) hyet hold b he hlast
  case callPoll => cases hcall
  case callEpoll => exact fun _ hy => nomatch hy
  case snapshot call' hp hc =>
    obtain rfl := some.inj (hc.symm.trans hcall)
    intro y hy
    obtain ⟨e, he, rfl⟩ := mem_map.1 hy
    exact hrun fun _ => h.entry call'.set e (mem_of_mem_take he)
  case empty => exact absurd rfl hpc
  case again => exact fun _ hy => nomatch hy
  case registered hp _ | registerClosed hp _ _ | registerNone hp _ _ _ | publish hp | clear hp
    | sample hp _ _ | found hp _ _ | nothing hp _ _ | stop hp | retry hp | resume hp _ | leave hp
    | finish hp _ _ =>
    exact hkeep hcall (by rw [hp]; nofun)

theorem Remembers.change [DecidableEq ε] (h : Remembers s)
    (hrun : ∀ {set : ε} {y : Slot}, y.Known s set → y.Known s' set) (hself : s'.thread t = x)
    (hc : Change w s s' t (s.thread t) x) (hcall : x.call = some call) (hpc : x.pc ≠ .idle) :
    ∀ y ∈ x.slots, y.Known s' call.set := by
  have hkeep : (s.thread t).call = some call → (s.thread t).pc ≠ .idle →
      ∀ y ∈ (s.thread t).slots, y.Known s' call.set :=
    fun hc hp y hy => hrun (h.slot t call hc hp y hy)
  cases hc with
  | mark => exact hkeep hcall hpc
  | woken hp | sleep hp | writeback hp => exact hkeep hcall (by rw [hp]; nofun)
  | @register i x hp hx | @unregister i _ x hp hx =>
      intro y hy
      have hall := hkeep hcall (by rw [hp]; nofun)
      rcases mem_or_eq_of_mem_set hy with hy | rfl
      · exact hall y hy
      · exact (hall x (mem_of_getElem? hx)).congr rfl rfl rfl rfl rfl rfl
  | deliver => exact absurd rfl hpc
  | turn ht => exact h.turn hrun hself ht hcall hpc

theorem Remembers.step [DecidableEq τ] [DecidableEq ι] [DecidableEq κ] [DecidableEq ε]
    (h : Remembers s) (hcount : ∀ t, Counted (s.thread t))
    (hm : Moves w s a s') :
    Remembers s' := by
  have hentry : ∀ set, ∀ e ∈ (s.epoll set).list, e.Known s' set :=
    fun set e he => Known.step (h.entry set e he) hcount hm
  have hrun : ∀ {set : ε} {y : Slot}, y.Known s set → y.Known s' set :=
    fun hy het => (hy het).step hcount hm
  refine ⟨?_, fun t call hc hp => h.change hrun rfl (hm.changes t) hc hp⟩
  cases hm with
  | @ctl _ set _ _ _ _ o _ _ hctl =>
      intro set' e he
      change e ∈ (update s.epoll set o set').list at he
      by_cases hs : set' = set
      · subst hs
        rw [update_self] at he
        exact forall_ctl (Q := Entry.Known _ set') (hentry set')
          (fun e hf hh => absurd (hf.symm.trans hh) nofun) hctl e he
      · rw [update_of_ne hs] at he
        exact hentry set' e he
  | @writeback t intr call o hp hc ho =>
      intro set e he
      change e ∈ (update s.epoll call.set o set).list at he
      by_cases hs : set = call.set
      · subst hs
        rw [update_self, ho] at he
        refine forall_writeback (Q := Entry.Known _ call.set) (hentry call.set) ?_ e he
        intro x hx het e hfd hgen hh b hb hlast
        change Told _ call.set e.fd e.gen b x.seq
        rw [hfd, hgen]
        exact hrun (h.slot t call hc (by rw [hp]; nofun) x hx) het hh b hb hlast
      · rw [update_of_ne hs] at he
        exact hentry set e he
  | _ => exact hentry

def Pc.Done (i : Nat) : Pc → Prop
  | .scan j => i < j
  | .sampled j _ => i < j
  | .wait | .asleep | .resumed | .leave _ _ | .back _ | .out _ => True
  | _ => False

/-- An index in edge mode whose object has a head has its counter. -/
def Sampled (w : World τ ι) (t : τ) (th : Thread ε) : Prop :=
  ∀ i x o, Asks w t th i x o → x.et = true → w.head o = true →
    (th.pc.Done i → x.haveSeq = true) ∧ ∀ q, th.pc = .sampled i q → q.isSome = true

/-- One call of `poll_core` for `epoll_wait` is bounded by the re-evaluation time. -/
def Bounded (th : Thread ε) : Prop :=
  ∀ call, th.call = some call → th.pc ≠ .idle → th.pc ≠ .snap → th.deadline = call.deadline th.setAt

theorem EpollCall.deadline_le (call : EpollCall ε) (now : Nat) :
    ∃ d, call.deadline now = some d ∧ d ≤ now + epollReevalNs := by
  unfold EpollCall.deadline
  split
  · exact ⟨0, rfl, Nat.zero_le _⟩
  · exact ⟨_, rfl, Nat.min_le_right ..⟩
  · exact ⟨_, rfl, Nat.le_refl _⟩

theorem Sampled.congr (h : Sampled w t th) (hp : ∀ i, x.pc.Done i → th.pc.Done i)
    (hq : ∀ i q, x.pc ≠ .sampled i q)
    (hs : ∀ (i : Nat) (y : Slot), x.slots[i]? = some y → ∃ z : Slot, th.slots[i]? = some z ∧
      z.fd = y.fd ∧ z.et = y.et ∧ z.haveSeq = y.haveSeq) : Sampled w t x := by
  rintro i y o ⟨hy, h0, ho⟩ het hh
  obtain ⟨z, hz, hfd, hzet, hzh⟩ := hs i y hy
  have hz' := (h i z o ⟨hz, hfd ▸ h0, hfd ▸ ho⟩ (hzet.trans het) hh).1
  exact ⟨fun hd => hzh ▸ hz' (hp i hd), fun q hpq => absurd hpq (hq i q)⟩

theorem Sampled.of_out (hp : ∀ i, ¬ x.pc.Done i) (hq : ∀ i q, x.pc ≠ .sampled i q) :
    Sampled w t x :=
  fun i _ _ _ _ _ => ⟨fun hd => absurd hd (hp i), fun q hpq => absurd hpq (hq i q)⟩

theorem Sampled.turn (h : Sampled w t th) (ht : Turn w s t th x) : Sampled w t x := by
  have hsame : ∀ (i : Nat) (y : Slot), th.slots[i]? = some y → ∃ z : Slot, th.slots[i]? = some z ∧
      z.fd = y.fd ∧ z.et = y.et ∧ z.haveSeq = y.haveSeq := fun i y hy => ⟨y, hy, rfl, rfl, rfl⟩
  cases ht
  case clear => exact .of_out (fun i => Nat.not_lt_zero i) (by simp)
  case skip i y hp hy hneg =>
    rintro j z o ⟨hz, h0, ho⟩ het hh
    refine ⟨fun hd => ?_, by simp⟩
    rcases getElem?_set_cases hy hz with ⟨rfl, rfl⟩ | ⟨hij, hz⟩
    · exact absurd h0 (Int.not_le.2 hneg)
    · refine (h j z o ⟨hz, h0, ho⟩ het hh).1 ?_
      rw [hp]
      exact Nat.lt_of_le_of_ne (Nat.le_of_lt_succ hd) hij
  case sample i y hp hy hnn =>
    rintro j z o ⟨hz, h0, ho⟩ het hh
    refine ⟨fun hd => (h j z o ⟨hz, h0, ho⟩ het hh).1 (by rw [hp]; exact hd), fun q hq => ?_⟩
    obtain ⟨rfl, rfl⟩ := Pc.sampled.inj hq
    cases hy.symm.trans hz
    rw [het, if_pos rfl, fileReadySeq, ho, bind_some, hh]
    rfl
  case poll i seq y z hp hy hz =>
    rintro j z' o ⟨hz', h0, ho⟩ het hh
    refine ⟨fun hd => ?_, by simp⟩
    rcases getElem?_set_cases hy hz' with ⟨rfl, rfl⟩ | ⟨hij, hz'⟩
    · have hkeys : z'.fd = y.fd ∧ z'.et = y.et := by
        rw [hz]
        exact ⟨scan_fd .., (scan_keys ..).1⟩
      have hyet : y.et = true := hkeys.2 ▸ het
      have hsome := (h _ y o ⟨hy, hkeys.1 ▸ h0, hkeys.1 ▸ ho⟩ hyet hh).2 seq hp
      rw [hz]
      simpa [Slot.scan, hyet] using hsome
    · refine (h j z' o ⟨hz', h0, ho⟩ het hh).1 ?_
      rw [hp]
      exact Nat.lt_of_le_of_ne (Nat.le_of_lt_succ hd) hij
  case found i hp hend _ | nothing i hp hend _ =>
    rintro j z o ⟨hz, h0, ho⟩ het hh
    refine ⟨fun _ => (h j z o ⟨hz, h0, ho⟩ het hh).1 ?_, by simp⟩
    rw [hp]
    exact Nat.lt_of_lt_of_le (List.getElem?_eq_some_iff.1 hz).1 (List.getElem?_eq_none_iff.1 hend)
  case stop hp => exact h.congr (fun _ _ => by rw [hp]; trivial) (by simp) hsame
  case resume hp hpc =>
    refine h.congr (fun _ _ => by rw [hp]; trivial) (fun i q hq => ?_) hsame
    rcases hpc with rfl | ⟨intr, rfl⟩ <;> cases hq
  case leave hp => exact h.congr (fun _ _ => by rw [hp]; trivial) (by simp) hsame
  case finish i intr pc hp _ hpc =>
    refine h.congr (fun _ _ => by rw [hp]; trivial) (fun i q hq => ?_) hsame
    rw [hpc] at hq
    split at hq <;> cases hq
  all_goals exact .of_out (fun _ => not_false) (by simp)

theorem Bounded.turn (h : Bounded th) (ht : Turn w s t th x) : Bounded x := by
  cases ht
  case callPoll => exact fun _ hc => nomatch hc
  case callEpoll => exact fun _ _ _ hs => absurd rfl hs
  case snapshot call hp hc =>
    intro call' hc' _ _
    obtain rfl := some.inj (hc.symm.trans hc')
    rfl
  case empty => exact fun _ _ hi => absurd rfl hi
  case again => exact fun _ _ _ hs => absurd rfl hs
  case registered hp _ | registerClosed hp _ _ | registerNone hp _ _ _ | publish hp | clear hp
    | skip hp _ _ | sample hp _ _ | poll hp _ _ | found hp _ _ | nothing hp _ _ | stop hp | retry hp
    | resume hp _ | leave hp | finish hp _ _ =>
    exact fun call hc _ _ => h call hc (by rw [hp]; nofun) (by rw [hp]; nofun)

theorem Sampled.change [DecidableEq ε] {th : Thread ε} (h : Sampled w t th)
    (hc : Change w s s' t th x) :
    Sampled w t x := by
  cases hc with
  | mark => exact fun i y o hask => h i y o ⟨hask.slot, hask.nonneg, hask.file⟩
  | woken hp | sleep hp | writeback hp =>
      exact h.congr (fun _ _ => by rw [hp]; trivial) nofun fun i y hy => ⟨y, hy, rfl, rfl, rfl⟩
  | register | deliver => exact .of_out (fun _ => nofun) nofun
  | @unregister i intr x hp hx =>
      refine h.congr (fun _ _ => by rw [hp]; trivial) nofun fun j y hy => ?_
      rcases getElem?_set_cases hx hy with ⟨rfl, rfl⟩ | ⟨-, hy⟩
      · exact ⟨x, hx, rfl, rfl, rfl⟩
      · exact ⟨y, hy, rfl, rfl, rfl⟩
  | turn ht => exact h.turn ht

theorem Bounded.change [DecidableEq ε] {th : Thread ε} (h : Bounded th)
    (hc : Change w s s' t th x) :
    Bounded x := by
  cases hc with
  | mark => exact h
  | woken hp | register hp | unregister hp | sleep hp | writeback hp =>
      exact fun call hc _ _ => h call hc (by rw [hp]; nofun) (by rw [hp]; nofun)
  | deliver => exact fun _ _ hi => absurd rfl hi
  | turn ht => exact h.turn ht

structure EdgeSound (w : World τ ι) (s : PollState τ ι κ ε) : Prop where
  sound : Sound w (fun o => w.head o = true) s
  remembers : Remembers s
  sampled : ∀ t, Sampled w t (s.thread t)
  bounded : ∀ t, Bounded (s.thread t)

theorem EdgeSound.of_reach [DecidableEq τ] [DecidableEq ι] [DecidableEq κ] [DecidableEq ε]
    (hr : (pollSystem w).Reach SignalsQueued s) : EdgeSound w s := by
  refine hr.invariant (EdgeSound w) (fun s h => ?_) fun s a s' h hok hs => ?_
  · have hidle : ∀ t, (s.thread t).pc = .idle := h.pc
    refine ⟨h.sound, ⟨fun set e he => ?_, fun t _ _ hp => absurd (hidle t) hp⟩,
      fun t => .of_out (fun i => by rw [hidle t]; nofun) (fun i q => by rw [hidle t]; nofun),
      fun t _ _ hp => absurd (hidle t) hp⟩
    rw [h.epoll] at he
    cases he
  · have hm := pollStep_moves h.sound.single hok hs
    exact ⟨h.sound.step (relies_head h.sound.sane a) hm, h.remembers.step h.sound.counted hm,
      fun t => (h.sampled t).change (hm.changes t), fun t => (h.bounded t).change (hm.changes t)⟩

section Final

variable {i : Nat} {x : Slot} {o : ι}

theorem EdgeSound.asleep (h : EdgeSound w s) (hcall : (s.thread t).call = some call)
    (hp : (s.thread t).pc = .asleep) (hask : Asks w t (s.thread t) i x o) (het : x.et = true)
    (hh : w.head o = true) (he : EventBit b)
    (hb : ((s.obj o).ready &&& x.want).getLsbD b = true) :
    Told s call.set x.fd x.gen b (s.obj o).seq ∨ Waking s o t := by
  by_cases hwake : Waking s o t
  · exact .inr hwake
  left
  have hfresh : ¬ Stale w o (s.obj o) (s.thread t).pc i x := fun hst =>
    hwake ((h.sound.watched t i x o hask hh hst).1 hp)
  have hpast : (s.thread t).pc.Past i := by rw [hp]; trivial
  have hhave : x.haveSeq = true := (h.sampled t i x o hask het hh).1 (by rw [hp]; trivial)
  have hseen : (s.obj o).ready &&& x.want &&& ~~~x.last = 0 := by
    by_contra hne
    exact hfresh (.inl ⟨hpast, .inl (by rw [Slot.seen, het, if_pos rfl]; exact hne)⟩)
  have hseq : x.seq = (s.obj o).seq := by
    by_contra hne
    exact hfresh (.inl ⟨hpast, .inr ⟨hh, het, hhave, hne⟩⟩)
  have hlast : x.last.getLsbD b = true := by
    by_contra hno
    have hbit : ((s.obj o).ready &&& x.want &&& ~~~x.last).getLsbD b = true := by
      rw [BitVec.getLsbD_and, hb, BitVec.getLsbD_not, Bool.eq_false_iff.2 hno,
        decide_eq_true (BitVec.lt_of_getLsbD hb)]
      rfl
    rw [hseen] at hbit
    simp at hbit
  rw [← hseq]
  exact h.remembers.slot t call hcall (by simp [hp]) x (mem_of_getElem? hask.slot) het hhave
    b he hlast

variable [DecidableEq τ] [DecidableEq ι] [DecidableEq κ] [DecidableEq ε]

theorem EdgeSound.poll (h' : EdgeSound w s') (hcall : (s.thread t).call = some call)
    (hp : (s.thread t).pc = .sampled i (some n)) (hask : Asks w t (s.thread t) i x o)
    (het : x.et = true) (he : EventBit b) (hb : ((s.obj o).ready &&& x.want).getLsbD b = true)
    (hs : pollStep w s (.poll t) = some s') : Told s' call.set x.fd x.gen b n := by
  let y := x.scan (some n) (x.got (some (s.obj o).ready))
  have hs' : s' = s.setThread t { s.thread t with
      pc := .scan (i + 1), slots := (s.thread t).slots.set i y
      ready := if y.revents = 0 then (s.thread t).ready else (s.thread t).ready + 1 } := by
    simp only [pollStep, PollState.coreStep, hp, hask.slot, hask.file, map_some] at hs
    exact (some.inj hs).symm
  have hself : s'.thread t = { s.thread t with
      pc := .scan (i + 1), slots := (s.thread t).slots.set i y
      ready := if y.revents = 0 then (s.thread t).ready else (s.thread t).ready + 1 } := by
    rw [hs']
    exact update_self ..
  have hmem : y ∈ (s'.thread t).slots := by
    rw [hself]
    exact mem_of_getElem? (getElem?_set_self (List.getElem?_eq_some_iff.1 hask.slot).1)
  have hy : y.fd = x.fd ∧ y.gen = x.gen ∧ y.et = true ∧ y.haveSeq = true ∧ y.seq = n ∧
      y.last = (s.obj o).ready &&& x.want := by
    refine ⟨scan_fd .., (scan_keys ..).2, (scan_keys ..).1.trans het, ?_, ?_, ?_⟩
    · simp [y, Slot.scan, het]
    · simp [y, Slot.scan, het]
    · simp [y, Slot.scan, het, got_scan_mask]
  obtain ⟨hfd, hgen, hyet, hhave, hseq, hlast⟩ := hy
  have htold := h'.remembers.slot t call (by rw [hself]; exact hcall) (by simp [hself]) y hmem hyet
    hhave b he (by rw [hlast]; exact hb)
  rwa [hfd, hgen, hseq] at htold

end Final

def edgeEvents : BitVec 32 := 0x80000001

end NeoKernel.Poll
