import Mathlib.Data.Finset.Basic
import Mathlib.Data.Finset.SDiff
import Mathlib.Logic.Function.Basic
import NeoKernel.Lib.Trans

/-!
# Going to sleep against being signalled (kernel/sync/waitq.c, kernel/ipc/signal.c)

The threads of one process take the steps of `sleep_common`, and senders those of
`signal_send_thread` and `signal_send_process`. A sender holds `p->lock` from the moment it
sets the pending bit until it has woken its target; the sleeper's check takes no lock.
-/
namespace NeoKernel.Signal
open Lib Function Option

inductive SleepPc where
  | awake
  /-- `signal_pending_any` has read `t->pending` and found nothing to deliver. -/
  | checkedOwn
  /-- It has read `p->pending` too: the thread is going to sleep. -/
  | checked
  /-- Queued, `t->state` is `THREAD_BLOCKED`; still on its CPU. -/
  | blocked
  | parked
  /-- In `signal_take_pending`; `own` is which of the two sets `sig` came from. -/
  | taking (sig : Nat) (own : Bool)
  deriving DecidableEq, Repr

/-- `struct thread`: `mask` is the field `blocked`. -/
structure Thread where
  pending : Finset Nat
  mask : Finset Nat
  pc : SleepPc
  deriving DecidableEq

def Thread.isBlocked (t : Thread) : Bool := t.pc == .blocked || t.pc == .parked

/-- The thread has made part of its check and has not yet published its state. -/
def Thread.inWindow (t : Thread) : Bool := t.pc == .checkedOwn || t.pc == .checked

/-- A sender, between setting the pending bit and giving `p->lock` up. -/
inductive Sender (τ : Type*) where
  /-- The walk over `p->threads` in `signal_send_process_locked`. -/
  | walk (sig : Nat) (rest : List τ) (target : Option τ)
  /-- `signal_wake_for_delivery` before it reads the state of `t`. -/
  | look (t : τ)
  | wake (t : τ)
  | waitOffCpu (t : τ)
  | cas (t : τ)
  deriving DecidableEq

def Sender.isWalk {τ : Type*} : Sender τ → Bool
  | .walk .. => true
  | _ => false

inductive Holder (τ : Type*) where
  | sender (s : Sender τ)
  | taker (t : τ)
  deriving DecidableEq

structure Proc (τ : Type*) where
  thr : τ → Thread
  pending : Finset Nat
  lock : Option (Holder τ)

variable {τ : Type*} [DecidableEq τ]

namespace Proc

def deliverable (p : Proc τ) (t : τ) : Bool :=
  decide ((p.thr t).pending \ (p.thr t).mask ≠ ∅) || decide (p.pending \ (p.thr t).mask ≠ ∅)

def setThr (p : Proc τ) (t : τ) (x : Thread) : Proc τ := { p with thr := update p.thr t x }

def setPc (p : Proc τ) (t : τ) (pc : SleepPc) : Proc τ := p.setThr t { p.thr t with pc }

def setLock (p : Proc τ) (h : Option (Holder τ)) : Proc τ := { p with lock := h }

def sending (p : Proc τ) (s : Sender τ) : Proc τ := p.setLock (some (.sender s))

end Proc

def unblockable : Finset Nat := {9, 19}

def senderStep (p : Proc τ) : Sender τ → Option (Proc τ)
  | .walk _ [] none => some (p.setLock none)
  | .walk _ [] (some t) => some (p.sending (.look t))
  | .walk sig (u :: rest) target =>
      if sig ∈ (p.thr u).mask then some (p.sending (.walk sig rest target))
      else if (p.thr u).isBlocked then some (p.sending (.walk sig rest (some u)))
      else some (p.sending (.look u))
  | .look t =>
      if (p.thr t).isBlocked && p.deliverable t then some (p.sending (.wake t))
      else some (p.setLock none)
  | .wake t =>
      if (p.thr t).isBlocked then some (p.sending (.waitOffCpu t)) else some (p.setLock none)
  | .waitOffCpu t => if (p.thr t).pc = .blocked then none else some (p.sending (.cas t))
  | .cas t =>
      if (p.thr t).isBlocked then some ((p.setPc t .awake).setLock none)
      else some (p.setLock none)

inductive SleepAct (τ : Type*) where
  | setMask (t : τ) (mask : Finset Nat)
  | checkOwn (t : τ)
  | checkProc (t : τ)
  | block (t : τ)
  | switchAway (t : τ)
  /-- Some other waker: the event the thread waits for, or its timeout. -/
  | wakeup (t : τ)
  | sendThread (t : τ) (sig : Nat)
  | sendProcess (sig : Nat)
  | send
  /-- `signal_take_pending` takes the signal out of the set it is in. -/
  | takeClear (t : τ) (sig : Nat)
  /-- It puts the signal back if another payload of it is queued, and leaves. -/
  | takeEnd (t : τ) (more : Bool)
  deriving DecidableEq

variable (threads : List τ)

def sleepStep (p : Proc τ) : SleepAct τ → Option (Proc τ)
  | .setMask t mask =>
      if (p.thr t).pc = .awake then
        some (p.setThr t { p.thr t with mask := mask \ unblockable })
      else none
  | .checkOwn t =>
      if (p.thr t).pc = .awake then
        -- -EINTR if there is something to deliver
        if (p.thr t).pending \ (p.thr t).mask ≠ ∅ then some p else some (p.setPc t .checkedOwn)
      else none
  | .checkProc t =>
      if (p.thr t).pc = .checkedOwn then
        if p.pending \ (p.thr t).mask ≠ ∅ then some (p.setPc t .awake)
        else some (p.setPc t .checked)
      else none
  | .block t => if (p.thr t).pc = .checked then some (p.setPc t .blocked) else none
  | .switchAway t => if (p.thr t).pc = .blocked then some (p.setPc t .parked) else none
  | .wakeup t => if (p.thr t).pc = .parked then some (p.setPc t .awake) else none
  | .sendThread t sig =>
      if p.lock = none then
        some ((p.setThr t
          { p.thr t with pending := insert sig (p.thr t).pending }).sending (.look t))
      else none
  | .sendProcess sig =>
      if p.lock = none then
        some ({ p with pending := insert sig p.pending }.sending (.walk sig threads none))
      else none
  | .send =>
      match p.lock with
      | some (.sender s) => senderStep p s
      | _ => none
  | .takeClear t sig =>
      if (p.thr t).pc = .awake ∧ p.lock = none then
        if sig ∈ (p.thr t).pending then
          some ((p.setThr t { p.thr t with
            pending := (p.thr t).pending.erase sig
            pc := .taking sig true }).setLock (some (.taker t)))
        else
          some ({ p.setPc t (.taking sig false) with pending := p.pending.erase sig }.setLock
            (some (.taker t)))
      else none
  | .takeEnd t more =>
      match (p.thr t).pc with
      | .taking sig true =>
          some ((p.setThr t { p.thr t with
            pending := if more then insert sig (p.thr t).pending else (p.thr t).pending
            pc := .awake }).setLock none)
      | .taking sig false =>
          some ({ p.setPc t .awake with
            pending := if more then insert sig p.pending else p.pending }.setLock none)
      | _ => none

def sleepSystem : System (Proc τ) (SleepAct τ) where
  init p := p.lock = none ∧ ∀ t, (p.thr t).pc = .awake
  step := sleepStep threads

theorem takeClear_takeEnd {p : Proc τ} {t : τ} (sig : Nat) (hawake : (p.thr t).pc = .awake)
    (hfree : p.lock = none) (more : Bool) :
    ∃ p₁ p₂, sleepStep threads p (.takeClear t sig) = some p₁ ∧
      sleepStep threads p₁ (.takeEnd t more) = some p₂ ∧
      let left (pending : Finset Nat) :=
        if more then insert sig (pending.erase sig) else pending.erase sig
      if sig ∈ (p.thr t).pending then
        (p₂.thr t).pending = left (p.thr t).pending ∧ p₂.pending = p.pending
      else (p₂.thr t).pending = (p.thr t).pending ∧ p₂.pending = left p.pending := by
  by_cases hmem : sig ∈ (p.thr t).pending
  · simp [sleepStep, hawake, hfree, hmem, Proc.setThr, Proc.setLock]
  · simp [sleepStep, hawake, hfree, hmem, Proc.setThr, Proc.setPc, Proc.setLock]

/-- The thread that a walk over `rest` ends up with, as the masks and states are now. -/
def walkTarget (thr : τ → Thread) (sig : Nat) : List τ → Option τ → Option τ
  | [], target => target
  | u :: rest, target =>
      if sig ∈ (thr u).mask then walkTarget thr sig rest target
      else if (thr u).isBlocked then walkTarget thr sig rest (some u)
      else some u

def senderTarget (thr : τ → Thread) : Sender τ → Option τ
  | .walk sig rest target => walkTarget thr sig rest target
  | .look t => some t
  | .wake t => some t
  | .waitOffCpu t => some t
  | .cas t => some t

/-- A sender that holds the lock goes on to wake `t`. -/
def WakeComing (p : Proc τ) (t : τ) : Prop :=
  ∃ s, p.lock = some (.sender s) ∧ senderTarget p.thr s = some t

/-- A signal comes only while none of the threads that would take it is between its check
and publishing its state, and a signal for the process only while a single thread leaves it
unblocked; meanwhile no mask changes. A payload that is put back likewise. -/
def Calm (p : Proc τ) : SleepAct τ → Prop
  | .sendThread t sig => sig ∉ (p.thr t).mask → (p.thr t).inWindow = false
  | .sendProcess sig =>
      (∀ t ∈ threads, sig ∉ (p.thr t).mask → (p.thr t).inWindow = false) ∧
        ∀ t ∈ threads, ∀ u ∈ threads, sig ∉ (p.thr t).mask → sig ∉ (p.thr u).mask → t = u
  | .setMask _ _ =>
      match p.lock with
      | some (.sender s) => s.isWalk = false
      | _ => True
  | .takeEnd t more =>
      match (p.thr t).pc with
      | .taking sig false =>
          more = true → ∀ u ∈ threads, u ≠ t → sig ∉ (p.thr u).mask →
            (p.thr u).inWindow = false ∧ (p.thr u).isBlocked = false
      | _ => True
  | _ => True

instance (p : Proc τ) (a : SleepAct τ) : Decidable (Calm threads p a) := by
  unfold Calm
  split
  all_goals first
    | infer_instance
    | (split <;> infer_instance)

structure Fit (pending : Finset Nat) (lock : Option (Holder τ)) (t : τ) (x : Thread) : Prop where
  own : x.inWindow = true → x.pending \ x.mask = ∅
  process : x.pc = .checked → pending \ x.mask = ∅
  taker : ∀ sig own, x.pc = .taking sig own → lock = some (.taker t)

/-- A walk is for a signal that one thread leaves unblocked, which it has found or will come to. -/
def Sole (thr : τ → Thread) : Option (Holder τ) → Prop
  | some (.sender (.walk sig rest target)) =>
      (∀ t u, sig ∉ (thr t).mask → sig ∉ (thr u).mask → t = u) ∧
        (∀ t, sig ∉ (thr t).mask → t ∈ rest ∨ target = some t) ∧
        ∀ t, target = some t → sig ∉ (thr t).mask
  | _ => True

structure Sound (p : Proc τ) : Prop where
  fit : ∀ t, Fit p.pending p.lock t (p.thr t)
  coming : ∀ t, (p.thr t).isBlocked = true → p.deliverable t = true → WakeComing p t
  sole : Sole p.thr p.lock

variable {threads} {p p' : Proc τ} {t u : τ} {sig : Nat} {thr : τ → Thread} {target : Option τ}
  {l : Option (Holder τ)} {s : Sender τ}

omit [DecidableEq τ] in
theorem deliverable_iff : p.deliverable t = true ↔
    (p.thr t).pending \ (p.thr t).mask ≠ ∅ ∨ p.pending \ (p.thr t).mask ≠ ∅ := by
  simp [Proc.deliverable]

theorem insert_sdiff_mask {s mask : Finset Nat} (h : sig ∈ mask) : insert sig s \ mask = s \ mask :=
  Finset.insert_sdiff_of_mem s h

section

omit [DecidableEq τ]

theorem walkTarget_sole {rest : List τ} (hsole : ∀ u, sig ∉ (thr u).mask → u = t)
    (ht : sig ∉ (thr t).mask) (hin : t ∈ rest ∨ target = some t) :
    walkTarget thr sig rest target = some t := by
  induction rest generalizing target with
  | nil =>
      rcases hin with hin | hin
      · cases hin
      · exact hin
  | cons u rest ih =>
      rw [walkTarget]
      by_cases hu : sig ∈ (thr u).mask
      · rw [if_pos hu]
        refine ih (hin.imp_left fun hmem => (List.mem_cons.1 hmem).resolve_left fun htu => ?_)
        exact ht (htu ▸ hu)
      · obtain rfl := hsole u hu
        rw [if_neg hu]
        split
        · exact ih (.inr rfl)
        · rfl

theorem walkTarget_mask {rest : List τ} (htarget : ∀ t, target = some t → sig ∉ (thr t).mask)
    (h : walkTarget thr sig rest target = some t) : sig ∉ (thr t).mask := by
  induction rest generalizing target with
  | nil => exact htarget t h
  | cons u rest ih =>
      rw [walkTarget] at h
      split at h
      · exact ih htarget h
      · next hu =>
          split at h
          · exact ih (fun t ht => some.inj ht ▸ hu) h
          · exact some.inj h ▸ hu

theorem Sole.congr {thr' : τ → Thread} (h : Sole thr l)
    (hmask : ∀ u, (thr' u).mask = (thr u).mask) :
    Sole thr' l := by
  unfold Sole at h ⊢
  simp only [hmask]
  exact h

theorem Sound.wakeComing (h : Sound p) (hlock : p'.lock = p.lock)
    (hmask : ∀ u, (p'.thr u).mask = (p.thr u).mask) (hw : WakeComing p t) : WakeComing p' t := by
  obtain ⟨s, hs, ht⟩ := hw
  refine ⟨s, hlock.trans hs, ?_⟩
  cases s with
  | walk sig rest target =>
      have hwalk := h.sole
      rw [hs] at hwalk
      obtain ⟨hsole, hin, htarget⟩ := hwalk
      have hmt := walkTarget_mask htarget ht
      refine walkTarget_sole (fun u hu => ?_) ?_ (hin t hmt)
      · exact hsole u t (hmask u ▸ hu) hmt
      · rw [hmask]
        exact hmt
  | look | wake | waitOffCpu | cas => exact ht

end

theorem setPc_self (pc : SleepPc) : (p.setPc t pc).thr t = { p.thr t with pc } :=
  update_self ..

theorem setPc_of_ne (pc : SleepPc) (h : u ≠ t) : (p.setPc t pc).thr u = p.thr u :=
  update_of_ne h ..

theorem setPc_mask (pc : SleepPc) (u : τ) : ((p.setPc t pc).thr u).mask = (p.thr u).mask := by
  by_cases hu : u = t
  · rw [hu, setPc_self]
  · rw [setPc_of_ne pc hu]

theorem setPc_deliverable (pc : SleepPc) (u : τ) :
    (p.setPc t pc).deliverable u = p.deliverable u := by
  by_cases hu : u = t
  · rw [hu]
    unfold Proc.deliverable
    rw [setPc_self]
    rfl
  · unfold Proc.deliverable
    rw [setPc_of_ne pc hu]
    rfl

section

variable (h : Sound p)
include h

theorem Sound.setThr {x : Thread} (hx : Fit p.pending p.lock t x)
    (hcoming : ∀ u, ((p.setThr t x).thr u).isBlocked = true → (p.setThr t x).deliverable u = true →
      WakeComing (p.setThr t x) u)
    (hsole : Sole (p.setThr t x).thr p.lock) : Sound (p.setThr t x) where
  fit := (forall_update_iff p.thr (Fit p.pending p.lock)).2 ⟨hx, fun u _ => h.fit u⟩
  coming := hcoming
  sole := hsole

theorem Sound.setPc (pc : SleepPc)
    (hown : pc = .checkedOwn ∨ pc = .checked → (p.thr t).pending \ (p.thr t).mask = ∅)
    (hproc : pc = .checked → p.pending \ (p.thr t).mask = ∅)
    (hblocked : pc = .blocked ∨ pc = .parked → (p.thr t).isBlocked = true ∨ p.deliverable t = false)
    (htaking : ∀ sig own, pc ≠ .taking sig own) : Sound (p.setPc t pc) := by
  refine h.setThr ⟨fun hu => hown (by simpa [Thread.inWindow] using hu), hproc,
    fun sig own hu => absurd hu (htaking sig own)⟩ (fun u hu hd => ?_)
      (h.sole.congr (setPc_mask pc))
  change (p.setPc t pc).deliverable u = true at hd
  rw [setPc_deliverable] at hd
  refine h.wakeComing (show (p.setPc t pc).lock = p.lock from rfl) (setPc_mask pc)
    (h.coming u ?_ hd)
  by_cases hut : u = t
  · subst hut
    rw [← Proc.setPc, setPc_self] at hu
    refine (hblocked (by simpa [Thread.isBlocked] using hu)).resolve_right fun hb => ?_
    cases hb.symm.trans hd
  · rwa [← Proc.setPc, setPc_of_ne pc hut] at hu

section

variable (hs : p.lock = some (.sender s))
include hs

section

omit [DecidableEq τ]

theorem Sound.setLock
    (hcoming : ∀ t, senderTarget p.thr s = some t → (p.thr t).isBlocked = true →
      p.deliverable t = true → WakeComing (p.setLock l) t)
    (hsole : Sole p.thr l) : Sound (p.setLock l) where
  fit t := { h.fit t with
    taker := fun sig own ht => nomatch hs.symm.trans ((h.fit t).taker sig own ht) }
  coming t ht hd := by
    obtain ⟨s₀, hs₀, hst⟩ := h.coming t ht hd
    cases hs.symm.trans hs₀
    exact hcoming t hst ht hd
  sole := hsole

theorem Sound.sending {s' : Sender τ}
    (htarget : ∀ t, senderTarget p.thr s = some t → senderTarget p.thr s' = some t)
    (hsole : Sole p.thr (some (.sender s'))) : Sound (p.sending s') :=
  h.setLock hs (fun t ht _ _ => ⟨s', rfl, htarget t ht⟩) hsole

theorem Sound.unlock
    (hnone : ∀ t, senderTarget p.thr s = some t → (p.thr t).isBlocked = true →
      p.deliverable t = true → False) :
    Sound (p.setLock none) :=
  h.setLock hs (fun t ht hb hd => (hnone t ht hb hd).elim) trivial

end

theorem senderStep_sound (hstep : senderStep p s = some p') : Sound p' := by
  have hwalk := h.sole
  rw [hs] at hwalk
  revert hstep
  fun_cases senderStep p s <;> rintro ⟨⟩
  · exact h.unlock hs nofun
  · exact h.sending hs (fun u hu => hu) trivial
  · next hu =>
      obtain ⟨hsole, hin, htarget⟩ := hwalk
      refine h.sending hs (fun t ht => ?_)
        ⟨hsole, fun t ht => (hin t ht).imp_left fun hmem => ?_, htarget⟩
      · rwa [senderTarget, walkTarget, if_pos hu] at ht
      · exact (List.mem_cons.1 hmem).resolve_left fun htu => ht (htu ▸ hu)
  · next hu hb =>
      have hsole := hwalk.1
      refine h.sending hs (fun t ht => ?_) ⟨hsole,
        fun t ht => .inr (congrArg some (hsole _ t hu ht)), fun t ht => some.inj ht ▸ hu⟩
      rwa [senderTarget, walkTarget, if_neg hu, if_pos hb] at ht
  · next hu hb =>
      refine h.sending hs (fun t ht => ?_) trivial
      rwa [senderTarget, walkTarget, if_neg hu, if_neg hb] at ht
  · exact h.sending hs (fun u hu => hu) trivial
  · next t hno =>
      refine h.unlock hs fun u hu hb hd => hno ?_
      obtain rfl : t = u := some.inj hu
      rw [hb, hd]
      rfl
  · exact h.sending hs (fun u hu => hu) trivial
  · next hno => exact h.unlock hs fun u hu hb _ => hno (some.inj hu ▸ hb)
  · exact h.sending hs (fun u hu => hu) trivial
  · next t _ =>
      have hawake : Sound (p.setPc t .awake) := h.setPc .awake nofun nofun nofun nofun
      refine hawake.unlock hs fun u hu hb _ => ?_
      obtain rfl : t = u := some.inj hu
      rw [setPc_self] at hb
      cases hb
  · next hno => exact h.unlock hs fun u hu hb _ => hno (some.inj hu ▸ hb)

end

omit [DecidableEq τ] in
theorem Sound.not_taking (hl : p.lock = none) (t : τ) (sig : Nat) (own : Bool) :
    (p.thr t).pc ≠ .taking sig own := by
  intro ht
  cases hl.symm.trans ((h.fit t).taker sig own ht)

omit [DecidableEq τ] in
theorem Sound.not_deliverable (hl : ∀ s, p.lock ≠ some (.sender s))
    (hb : (p.thr t).isBlocked = true) : ¬p.deliverable t = true := by
  intro hd
  obtain ⟨s, hs, -⟩ := h.coming t hb hd
  exact hl s hs

end

def Fewer (p p' : Proc τ) (u : τ) : Prop :=
  (p'.thr u).pending \ (p'.thr u).mask ⊆ (p.thr u).pending \ (p.thr u).mask ∧
    p'.pending \ (p'.thr u).mask ⊆ p.pending \ (p.thr u).mask

omit [DecidableEq τ] in
/-- A step that starts while no sender is at work: a thread has no more to be delivered than
before, or it is out of the window, and if it sleeps a wake is coming. -/
theorem Sound.outside_send (h : Sound p) (hno : ∀ s, p.lock ≠ some (.sender s))
    (hpc : ∀ u, (p'.thr u).pc = (p.thr u).pc ∨ (p'.thr u).pc = .awake ∨
      ∃ sig own, (p'.thr u).pc = .taking sig own)
    (hset : ∀ u, (p'.thr u).pc = (p.thr u).pc → Fewer p p' u ∨
      (p.thr u).inWindow = false ∧ ((p.thr u).isBlocked = true → WakeComing p' u))
    (hsole : Sole p'.thr p'.lock)
    (htaker : ∀ u sig own, (p'.thr u).pc = .taking sig own → p'.lock = some (.taker u)) :
    Sound p' := by
  have hwindow : ∀ u, (p'.thr u).inWindow = true → (p'.thr u).pc = (p.thr u).pc := fun u hu =>
    (hpc u).resolve_right fun hother => by
      rcases hother with hother | ⟨sig, own, hother⟩ <;> simp [Thread.inWindow, hother] at hu
  have hblocked : ∀ u, (p'.thr u).isBlocked = true → (p'.thr u).pc = (p.thr u).pc := fun u hu =>
    (hpc u).resolve_right fun hother => by
      rcases hother with hother | ⟨sig, own, hother⟩ <;> simp [Thread.isBlocked, hother] at hu
  have hfewer : ∀ u, (p'.thr u).inWindow = true → (p.thr u).inWindow = true ∧ Fewer p p' u := by
    intro u hu
    have hsame := hwindow u hu
    have hold : (p.thr u).inWindow = true := by rwa [Thread.inWindow, hsame] at hu
    rcases hset u hsame with hf | ⟨hout, -⟩
    · exact ⟨hold, hf⟩
    · rw [hout] at hold
      cases hold
  refine ⟨fun u => ⟨fun hu => ?_, fun hu => ?_, htaker u⟩, fun u hu hd => ?_, hsole⟩
  · obtain ⟨hold, hf⟩ := hfewer u hu
    exact Finset.subset_empty.1 ((h.fit u).own hold ▸ hf.1)
  · obtain ⟨-, hf⟩ := hfewer u (by simp [Thread.inWindow, hu])
    have hold : (p.thr u).pc = .checked := by
      rw [← hwindow u (by simp [Thread.inWindow, hu])]
      exact hu
    exact Finset.subset_empty.1 ((h.fit u).process hold ▸ hf.2)
  · have hsame := hblocked u hu
    have hold : (p.thr u).isBlocked = true := by rwa [Thread.isBlocked, hsame] at hu
    rcases hset u hsame with hf | ⟨-, hw⟩
    · refine absurd ?_ (h.not_deliverable hno hold)
      rw [deliverable_iff] at hd ⊢
      refine hd.imp (fun hd he => hd ?_) fun hd he => hd ?_
      · exact Finset.subset_empty.1 (he ▸ hf.1)
      · exact Finset.subset_empty.1 (he ▸ hf.2)
    · exact hw hold

omit [DecidableEq τ] in
theorem not_sender_of_none (hl : p.lock = none) (s : Sender τ) : p.lock ≠ some (.sender s) := by
  rw [hl]
  exact nofun

theorem sendThread_sound (h : Sound p) (hl : p.lock = none)
    (hcalm : sig ∉ (p.thr t).mask → (p.thr t).inWindow = false) :
    Sound ((p.setThr t { p.thr t with
      pending := insert sig (p.thr t).pending }).sending (.look t)) := by
  have hpc : ∀ u, (((p.setThr t { p.thr t with
      pending := insert sig (p.thr t).pending }).sending (.look t)).thr u).pc = (p.thr u).pc := by
    intro u
    by_cases hu : u = t
    · simp [Proc.setThr, Proc.sending, Proc.setLock, hu]
    · simp [Proc.setThr, Proc.sending, Proc.setLock, hu]
  refine h.outside_send (not_sender_of_none hl) (fun u => .inl (hpc u)) (fun u _ => ?_) trivial ?_
  · by_cases hu : u = t
    · subst hu
      by_cases hm : sig ∈ (p.thr u).mask
      · left
        simp [Fewer, Proc.setThr, Proc.sending, Proc.setLock, insert_sdiff_mask hm]
      · exact .inr ⟨hcalm hm, fun _ => ⟨.look u, rfl, rfl⟩⟩
    · left
      simp [Fewer, Proc.setThr, Proc.sending, Proc.setLock, hu]
  · intro u sig' own hu
    rw [hpc] at hu
    exact absurd hu (h.not_taking hl u sig' own)

omit [DecidableEq τ] in
theorem sendProcess_sound (hall : ∀ t, t ∈ threads) (h : Sound p) (hl : p.lock = none)
    (hcalm : Calm threads p (.sendProcess sig)) :
    Sound ({ p with pending := insert sig p.pending }.sending (.walk sig threads none)) := by
  obtain ⟨hwindow, hsole⟩ := hcalm
  refine h.outside_send (not_sender_of_none hl) (fun u => .inl rfl) (fun u _ => ?_)
    ⟨fun t u => hsole t (hall t) u (hall u), fun t _ => .inl (hall t), nofun⟩
    fun u sig' own hu => absurd hu (h.not_taking hl u sig' own)
  by_cases hm : sig ∈ (p.thr u).mask
  · left
    simp [Fewer, Proc.sending, Proc.setLock, insert_sdiff_mask hm]
  · refine .inr ⟨hwindow u (hall u) hm, fun _ => ⟨_, rfl, ?_⟩⟩
    exact walkTarget_sole (fun v hv => hsole v (hall v) u (hall u) hv hm) hm (.inl (hall u))

theorem setMask_sound (h : Sound p) (ht : (p.thr t).pc = .awake) (mask : Finset Nat)
    (hwalk : ∀ s, p.lock = some (.sender s) → s.isWalk = false) :
    Sound (p.setThr t { p.thr t with mask }) := by
  have hsole : Sole (p.setThr t { p.thr t with mask }).thr p.lock := by
    unfold Sole
    split
    · next hs => exact nomatch hwalk _ hs
    · trivial
  refine h.setThr ⟨by simp [Thread.inWindow, ht], by simp [ht], by simp [ht]⟩
    (fun u hu hd => ?_) hsole
  have hut : u ≠ t := by
    rintro rfl
    simp [Proc.setThr, Thread.isBlocked, ht] at hu
  have hsame : (p.setThr t { p.thr t with mask }).thr u = p.thr u := update_of_ne hut ..
  unfold Proc.deliverable at hd
  rw [hsame] at hu hd
  -- past its walk the sender no longer looks at masks to find its target
  obtain ⟨s, hs, hst⟩ := h.coming u hu hd
  have := hwalk s hs
  refine ⟨s, hs, ?_⟩
  cases s with
  | walk => cases this
  | look | wake | waitOffCpu | cas => exact hst

theorem Sound.take (h : Sound p) (hno : ∀ s, p.lock ≠ some (.sender s)) {x : Thread}
    (hx : x.pc = .awake ∨ ∃ sig own, x.pc = .taking sig own) {pending : Finset Nat}
    {lock : Option (Holder τ)} (hlock : ∀ s, lock ≠ some (.sender s))
    (hpending : ∀ u, u ≠ t → pending \ (p.thr u).mask ⊆ p.pending \ (p.thr u).mask ∨
      (p.thr u).inWindow = false ∧ (p.thr u).isBlocked = false)
    (htaker : ∀ sig own, x.pc = .taking sig own → lock = some (.taker t))
    (hother : ∀ u, u ≠ t → ∀ sig own, (p.thr u).pc ≠ .taking sig own) :
    Sound ⟨update p.thr t x, pending, lock⟩ := by
  have hsole : Sole (update p.thr t x) lock := by
    unfold Sole
    split
    · exact absurd rfl (hlock _)
    · trivial
  refine h.outside_send hno (fun u => ?_) (fun u hu => ?_) hsole ?_
  · by_cases hut : u = t
    · exact .inr (by simpa [hut] using hx)
    · exact .inl (by simp [hut])
  · by_cases hut : u = t
    · subst hut
      dsimp only at hu
      rw [update_self] at hu
      rw [hu] at hx
      refine .inr ⟨?_, fun hb => ?_⟩ <;> rcases hx with hx | ⟨sig, own, hx⟩ <;>
        simp_all [Thread.inWindow, Thread.isBlocked]
    · refine (hpending u hut).imp (fun hsub => ?_) fun hout => ⟨hout.1, fun hb => ?_⟩
      · simpa [Fewer, hut] using hsub
      · cases hout.2.symm.trans hb
  · exact (forall_update_iff p.thr fun u x => ∀ sig own, x.pc = .taking sig own →
      lock = some (.taker u)).2 ⟨htaker, fun u hu sig own hu' => absurd hu' (hother u hu sig own)⟩

theorem erase_sdiff_subset (s mask : Finset Nat) (sig : Nat) : s.erase sig \ mask ⊆ s \ mask :=
  Finset.sdiff_subset_sdiff (Finset.erase_subset sig s) (Finset.Subset.refl mask)

omit [DecidableEq τ] in
theorem Sound.taker_alone {own : Bool} (h : Sound p) (ht : (p.thr t).pc = .taking sig own) :
    (∀ s, p.lock ≠ some (.sender s)) ∧ ∀ u, u ≠ t → ∀ sig' own',
    (p.thr u).pc ≠ .taking sig' own' := by
  have hl := (h.fit t).taker sig own ht
  refine ⟨fun s hs => (nomatch hl.symm.trans hs), fun u hu sig' own' hut => hu ?_⟩
  cases hl.symm.trans ((h.fit u).taker sig' own' hut)
  rfl

theorem sleepStep_sound (hall : ∀ t, t ∈ threads) (h : Sound p) {a : SleepAct τ}
    (hcalm : Calm threads p a) (hstep : sleepStep threads p a = some p') : Sound p' := by
  revert hstep
  fun_cases sleepStep threads p a
  all_goals try rintro ⟨⟩
  · next ht =>
      refine setMask_sound h ht _ fun s hs => ?_
      simpa only [Calm, hs] using hcalm
  · exact h
  · next hown => exact h.setPc .checkedOwn (fun _ => by simpa using hown) nofun nofun nofun
  · exact h.setPc .awake nofun nofun nofun nofun
  · next t ht hproc =>
      refine h.setPc .checked (fun _ => (h.fit t).own ?_)
        (fun _ => by simpa using hproc) nofun nofun
      simp [Thread.inWindow, ht]
  · next t ht =>
      refine h.setPc .blocked nofun nofun (fun _ => .inr ?_) nofun
      have hown := (h.fit t).own (by simp [Thread.inWindow, ht])
      simp [Proc.deliverable, hown, (h.fit t).process ht]
  · next ht =>
      exact h.setPc .parked nofun nofun (fun _ => .inl (by simp [Thread.isBlocked, ht])) nofun
  · exact h.setPc .awake nofun nofun nofun nofun
  · next hl => exact sendThread_sound h hl hcalm
  · next hl => exact sendProcess_sound hall h hl hcalm
  · next hs => exact senderStep_sound h hs
  · next hg _ =>
      exact h.take (not_sender_of_none hg.2) (.inr ⟨_, true, rfl⟩) nofun
        (fun u _ => .inl (Finset.Subset.refl _)) (fun _ _ _ => rfl) fun u _ => h.not_taking hg.2 u
  · next hg _ =>
      exact h.take (not_sender_of_none hg.2) (.inr ⟨_, false, rfl⟩) nofun
        (fun u _ => .inl (erase_sdiff_subset ..)) (fun _ _ _ => rfl) fun u _ => h.not_taking hg.2 u
  · next ht =>
      obtain ⟨hno, hother⟩ := h.taker_alone ht
      exact h.take hno (.inl rfl) nofun (fun u _ => .inl (Finset.Subset.refl _)) nofun hother
  · next more sig ht =>
      obtain ⟨hno, hother⟩ := h.taker_alone ht
      simp only [Calm, ht] at hcalm
      refine h.take hno (.inl rfl) nofun (fun u hu => ?_) nofun hother
      cases more with
      | false => exact .inl (Finset.Subset.refl _)
      | true =>
          by_cases hm : sig ∈ (p.thr u).mask
          · exact .inl (insert_sdiff_mask hm).subset
          · exact .inr (hcalm rfl u (hall u) hu hm)

/-- In every run whose steps are calm, a thread that is blocked while a signal for it is
pending and deliverable has a sender on the way to wake it. -/
theorem signal_wakes_sleeper (hall : ∀ t, t ∈ threads)
    (hr : (sleepSystem threads).Reach (Calm threads) p) (t : τ)
    (hb : (p.thr t).isBlocked = true) (hd : p.deliverable t = true) : WakeComing p t := by
  have hsound : Sound p := by
    refine hr.invariant Sound (fun p ⟨hl, hawake⟩ => ?_) fun _ _ _ h hok hs =>
      sleepStep_sound hall h hok hs
    refine ⟨fun u => ⟨?_, ?_, ?_⟩, fun u hu => ?_, ?_⟩
    · simp [Thread.inWindow, hawake u]
    · simp [hawake u]
    · simp [hawake u]
    · simp [Thread.isBlocked, hawake u] at hu
    · rw [hl]
      trivial
  exact hsound.coming t hb hd

def quietProc : Proc (Fin 1) := ⟨fun _ => ⟨∅, ∅, .awake⟩, ∅, none⟩

theorem signal_wakes_sleeper_parked : ∃ p : Proc (Fin 1),
    (sleepSystem [0]).Reach (Calm [0]) p ∧
      ((p.thr 0).isBlocked = true ∧ p.deliverable 0 = true) ∧ WakeComing p 0 :=
  System.Reach.exists_of_run_and
    [.checkOwn 0, .checkProc 0, .block 0, .switchAway 0, .sendThread 0 10]
    (⟨rfl, fun _ => rfl⟩ : (sleepSystem [0]).init quietProc) (by decide +kernel)
    fun _ hr hp => signal_wakes_sleeper (by decide) hr 0 hp.1 hp.2

/-- SIGUSR1 between the check and the sleep: the sender sees a thread that still runs. -/
theorem signal_misses_sleeper : ∃ p : Proc (Fin 1),
    (sleepSystem [0]).Reach (fun _ _ => True) p ∧
      (p.thr 0).isBlocked = true ∧ p.deliverable 0 = true ∧ ¬WakeComing p 0 := by
  refine System.Reach.exists_of_run_imp
    [.checkOwn 0, .checkProc 0, .sendThread 0 10, .send, .block 0, .switchAway 0]
    (⟨rfl, fun _ => rfl⟩ : (sleepSystem [0]).init quietProc) (by decide +kernel)
    fun p _ (hp : (p.thr 0).isBlocked = true ∧ p.deliverable 0 = true ∧ p.lock = none) =>
      ⟨hp.1, hp.2.1, ?_⟩
  rintro ⟨s, hs, -⟩
  rw [hp.2.2] at hs
  cases hs

end NeoKernel.Signal
