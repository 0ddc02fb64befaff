import Mathlib.Data.Fintype.Basic
import Mathlib.Logic.Function.Basic
import NeoKernel.Lib.Trans

/-!
# Cancelling a timer on several CPUs (kernel/time/hrtimer.c)

One timer, the interrupts of all CPUs, and callers of `hrtimer_cancel` and `hrtimer_start`. What
happens under the lock of a base is one step, except that the interrupt stores `HRTIMER_INACTIVE`
and then `HRTIMER_RUNNING`, and `hrtimer_try_cancel` loads the state without the lock.
-/
namespace NeoKernel.Hrtimer
open Lib Function

inductive TimerState where
  | inactive
  | queued
  | running
  deriving DecidableEq

/-- How far `hrtimer_interrupt` of a CPU is with the timer, and which start it is. -/
inductive IrqPc where
  | idle
  /-- After `dequeue_locked`. -/
  | taken (start : Nat)
  /-- In the callback, without the lock. -/
  | calling (start : Nat)
  deriving DecidableEq

inductive Caller (ι : Type*) where
  | cancel
  | start (cpu : ι)
  deriving DecidableEq

/-- Where a caller is; `since` is the last start when it called. -/
inductive CallPc (ι : Type*) where
  | idle
  | load (who : Caller ι) (since : Nat)
  | loadCpu (who : Caller ι) (since : Nat)
  | lock (who : Caller ι) (since : Nat) (cpu : ι)
  /-- `hrtimer_start` past its `hrtimer_cancel`. -/
  | enqueue (cpu : ι)
  deriving DecidableEq

/-- CPUs `ι` and callers `κ`; only the `owner` calls `hrtimer_start`. `starts` and `cancelled` are
not in the source: how often the timer has been started, and the latest start that a returned
`hrtimer_cancel` was called after. -/
structure Timer (ι κ : Type*) where
  state : TimerState
  cpu : ι
  /-- The base whose tree has the node. -/
  tree : Option ι
  irq : ι → IrqPc
  pc : κ → CallPc ι
  owner : κ
  starts : Nat
  cancelled : Nat

inductive TimerAct (ι κ : Type*) where
  /-- Calls of `hrtimer_cancel`, and of `hrtimer_start` on a CPU. -/
  | cancel (k : κ)
  | start (cpu : ι)
  /-- The load of `t->state`. -/
  | load (k : κ)
  | loadCpu (k : κ)
  /-- The locked part of `hrtimer_try_cancel`. -/
  | lock (k : κ)
  /-- The locked part of `hrtimer_start`. -/
  | enqueue (k : κ)
  /-- `hrtimer_interrupt`: up to `dequeue_locked`, the store of `HRTIMER_RUNNING`, and the part
  after the callback. -/
  | take (c : ι)
  | mark (c : ι)
  | done (c : ι) (restart : Bool)

variable {ι κ : Type*} [DecidableEq ι] [DecidableEq κ]

namespace Timer

def setPc (s : Timer ι κ) (k : κ) (pc : CallPc ι) : Timer ι κ :=
  { s with pc := update s.pc k pc }

def setIrq (s : Timer ι κ) (c : ι) (pc : IrqPc) : Timer ι κ :=
  { s with irq := update s.irq c pc }

/-- `hrtimer_cancel` returns, to its caller or into `hrtimer_start`. -/
def returned (s : Timer ι κ) (k : κ) (since : Nat) : Caller ι → Timer ι κ
  | .cancel => { s.setPc k .idle with cancelled := max s.cancelled since }
  | .start cpu => s.setPc k (.enqueue cpu)

/-- The interrupt holds the lock of the base of `c` while it has two stores to make. -/
def Unlocked (s : Timer ι κ) (c : ι) : Prop := ∀ g, s.irq c ≠ .taken g

instance (s : Timer ι κ) (c : ι) : Decidable (s.Unlocked c) :=
  match h : s.irq c with
  | .idle => .isTrue fun g hg => by rw [h] at hg; cases hg
  | .taken g => .isFalse fun hu => hu g h
  | .calling g => .isTrue fun g hg => by rw [h] at hg; cases hg

end Timer

def timerStep (s : Timer ι κ) : TimerAct ι κ → Option (Timer ι κ)
  | .cancel k => if s.pc k = .idle then some (s.setPc k (.load .cancel s.starts)) else none
  | .start cpu =>
      if s.pc s.owner = .idle then some (s.setPc s.owner (.load (.start cpu) s.starts)) else none
  | .load k =>
      match s.pc k with
      | .load who since =>
          match s.state with
          | .inactive => some (s.returned k since who)
          | .running => some s
          | .queued => some (s.setPc k (.loadCpu who since))
      | _ => none
  | .loadCpu k =>
      match s.pc k with
      | .loadCpu who since => some (s.setPc k (.lock who since s.cpu))
      | _ => none
  | .lock k =>
      match s.pc k with
      | .lock who since cpu =>
          if s.Unlocked cpu then
            if s.state = .queued ∧ s.cpu = cpu then
              some ({ s with state := .inactive, tree := none }.returned k since who)
            else some (s.setPc k (.load who since))
          else none
      | _ => none
  | .enqueue k =>
      match s.pc k with
      | .enqueue cpu =>
          if s.Unlocked cpu then
            some { s.setPc k .idle with
              state := .queued, cpu, tree := some cpu, starts := s.starts + 1 }
          else none
      | _ => none
  | .take c =>
      if s.tree = some c ∧ s.irq c = .idle then
        some ({ s with state := .inactive, tree := none }.setIrq c (.taken s.starts))
      else none
  | .mark c =>
      match s.irq c with
      | .taken g => some ({ s with state := .running }.setIrq c (.calling g))
      | _ => none
  | .done c restart =>
      match s.irq c with
      | .calling _ =>
          if restart then some ({ s with state := .queued, tree := some c }.setIrq c .idle)
          else some ({ s with state := .inactive }.setIrq c .idle)
      | _ => none

structure TimerInit (s : Timer ι κ) : Prop where
  state : s.state = .inactive
  tree : s.tree = none
  irq : ∀ c, s.irq c = .idle
  pc : ∀ k, s.pc k = .idle
  starts : s.starts = 0
  cancelled : s.cancelled = 0

def timerSystem : System (Timer ι κ) (TimerAct ι κ) := ⟨TimerInit, timerStep⟩

inductive Place (ι : Type*) where
  | nowhere
  | inTree (c : ι)
  | taken (c : ι)
  | calling (c : ι)

def At (s : Timer ι κ) : Place ι → Prop
  | .nowhere => s.state = .inactive ∧ s.tree = none ∧ ∀ c, s.irq c = .idle
  | .inTree c => s.state = .queued ∧ s.cpu = c ∧ s.tree = some c ∧ ∀ c, s.irq c = .idle
  | .taken c => s.state = .inactive ∧ s.cpu = c ∧ s.tree = none ∧ s.irq c = .taken s.starts ∧
      ∀ c', c' ≠ c → s.irq c' = .idle
  | .calling c => s.state = .running ∧ s.cpu = c ∧ s.tree = none ∧ s.irq c = .calling s.starts ∧
      ∀ c', c' ≠ c → s.irq c' = .idle

def CallPc.since : CallPc ι → Nat
  | .load _ n => n
  | .loadCpu _ n => n
  | .lock _ n _ => n
  | _ => 0

def Caller.Starts : Caller ι → Prop
  | .cancel => False
  | .start _ => True

def CallPc.Starting : CallPc ι → Prop
  | .load who _ => who.Starts
  | .loadCpu who _ => who.Starts
  | .lock who _ _ => who.Starts
  | .enqueue _ => True
  | .idle => False

structure Single (s : Timer ι κ) : Prop where
  place : ∃ p, At s p ∧ (p = .nowhere ∨ s.cancelled < s.starts)
  known : ∀ k, (s.pc k).since ≤ s.starts
  cancelled : s.cancelled ≤ s.starts
  starter : ∀ k, (s.pc k).Starting → k = s.owner
  enqueue : ∀ k c, s.pc k = .enqueue c → At s .nowhere

section Step

variable {s s' : Timer ι κ} {k : κ} {pc : CallPc ι} {p : Place ι} {c : ι}

section

omit [DecidableEq ι] [DecidableEq κ]

theorem At.nowhere_of_inactive (h : At s p) (hs : s.state = .inactive)
    (hsettled : ∀ c, s.Unlocked c) : p = .nowhere := by
  cases p with
  | nowhere => rfl
  | inTree c | calling c => exact absurd (h.1.symm.trans hs) nofun
  | taken c => exact absurd h.2.2.2.1 (hsettled c _)

theorem At.inTree_of_tree (h : At s p) (hs : s.tree = some c) : p = .inTree c := by
  cases p with
  | nowhere => exact absurd (h.2.1.symm.trans hs) nofun
  | inTree c' =>
      cases h.2.2.1.symm.trans hs
      rfl
  | taken c' | calling c' => exact absurd (h.2.2.1.symm.trans hs) nofun

theorem At.inTree_of_queued (h : At s p) (hs : s.state = .queued) : p = .inTree s.cpu := by
  cases p with
  | nowhere | taken c | calling c => exact absurd (h.1.symm.trans hs) nofun
  | inTree c => rw [h.2.1]

/-- An interrupt that is not idle has the timer, and it is the last start. -/
theorem At.of_busy (h : At s p) (hs : s.irq c ≠ .idle) :
    p = .taken c ∧ s.irq c = .taken s.starts ∨ p = .calling c ∧ s.irq c = .calling s.starts := by
  cases p with
  | nowhere => exact absurd (h.2.2 c) hs
  | inTree c' => exact absurd (h.2.2.2 c) hs
  | taken c' =>
      have hc : c = c' := by_contra fun hc => hs (h.2.2.2.2 c hc)
      subst hc
      exact .inl ⟨rfl, h.2.2.2.1⟩
  | calling c' =>
      have hc : c = c' := by_contra fun hc => hs (h.2.2.2.2 c hc)
      subst hc
      exact .inr ⟨rfl, h.2.2.2.1⟩

theorem At.taken_of_irq {g : Nat} (h : At s p) (hs : s.irq c = .taken g) :
    p = .taken c ∧ g = s.starts := by
  obtain ⟨rfl, hirq⟩ | ⟨-, hirq⟩ := h.of_busy (by rw [hs]; nofun)
  · cases hirq.symm.trans hs
    exact ⟨rfl, rfl⟩
  · cases hirq.symm.trans hs

theorem At.calling_of_irq {g : Nat} (h : At s p) (hs : s.irq c = .calling g) :
    p = .calling c ∧ g = s.starts := by
  obtain ⟨-, hirq⟩ | ⟨rfl, hirq⟩ := h.of_busy (by rw [hs]; nofun)
  · cases hirq.symm.trans hs
  · cases hirq.symm.trans hs
    exact ⟨rfl, rfl⟩

end

omit [DecidableEq κ] in
theorem At.released (h : At s (.calling c)) (c' : ι) : update s.irq c .idle c' = .idle :=
  (forall_update_iff s.irq fun _ pc => pc = .idle).2 ⟨rfl, h.2.2.2.2⟩ c'

omit [DecidableEq ι] in
theorem At.setPc (h : At s p) (k : κ) (pc : CallPc ι) : At (s.setPc k pc) p := by
  cases p <;> exact h

omit [DecidableEq ι] [DecidableEq κ] in
theorem Single.caller (h : Single s) (hpc : s.pc k = pc) :
    pc.since ≤ s.starts ∧ (pc.Starting → k = s.owner) :=
  hpc ▸ ⟨h.known k, h.starter k⟩

omit [DecidableEq ι] in
theorem Single.setPc (h : Single s) (hknown : pc.since ≤ s.starts)
    (hstarter : pc.Starting → k = s.owner) (henqueue : ∀ c, pc = .enqueue c → At s .nowhere) :
    Single (s.setPc k pc) := by
  obtain ⟨p, hp, hold⟩ := h.place
  refine ⟨⟨p, hp.setPc k pc, hold⟩, ?_, h.cancelled, ?_, ?_⟩
  · exact (forall_update_iff s.pc fun _ pc => pc.since ≤ s.starts).2
      ⟨hknown, fun k' _ => h.known k'⟩
  · exact (forall_update_iff s.pc fun k pc => pc.Starting → k = s.owner).2
      ⟨hstarter, fun k' _ => h.starter k'⟩
  · exact (forall_update_iff s.pc fun _ pc => ∀ c, pc = .enqueue c → At s .nowhere).2
      ⟨henqueue, fun k' _ => h.enqueue k'⟩

omit [DecidableEq ι] [DecidableEq κ] in
/-- The timer goes to another place and no caller moves. Without a place, no caller is about to
queue it. -/
theorem Single.move {state : TimerState} {tree : Option ι} {irq : ι → IrqPc} (h : Single s)
    (hp : At { s with state, tree, irq } p) (hold : p = .nowhere ∨ s.cancelled < s.starts)
    (hidle : p ≠ .nowhere → ¬ At s .nowhere) : Single { s with state, tree, irq } := by
  refine ⟨⟨p, hp, hold⟩, h.known, h.cancelled, h.starter, fun k c hk => ?_⟩
  by_cases hn : p = .nowhere
  · rw [← hn]
    exact hp
  · exact absurd (h.enqueue k c hk) (hidle hn)

omit [DecidableEq ι] in
theorem Single.returned {who : Caller ι} {since : Nat} (h : Single s) (hat : At s .nowhere)
    (hsince : since ≤ s.starts) (hwho : who.Starts → k = s.owner) :
    Single (s.returned k since who) := by
  cases who with
  | start c =>
      exact h.setPc (Nat.zero_le _) (fun _ => hwho trivial) fun _ _ => hat
  | cancel =>
      have hidle : Single (s.setPc k .idle) := h.setPc (Nat.zero_le _) nofun nofun
      exact ⟨⟨.nowhere, hat, .inl rfl⟩, hidle.known, Nat.max_le.2 ⟨h.cancelled, hsince⟩,
        hidle.starter,
        hidle.enqueue⟩

end Step

/-- No caller loads the state between the two stores of an interrupt. -/
def Settled (s : Timer ι κ) : TimerAct ι κ → Prop
  | .load _ => ∀ c, s.Unlocked c
  | _ => True

instance [Fintype ι] (s : Timer ι κ) (a : TimerAct ι κ) : Decidable (Settled s a) := by
  cases a <;> unfold Settled <;> infer_instance

omit [DecidableEq ι] [DecidableEq κ] in
theorem TimerInit.single {s : Timer ι κ} (h : TimerInit s) : Single s := by
  refine ⟨⟨.nowhere, ⟨h.state, h.tree, h.irq⟩, .inl rfl⟩, fun k => ?_, ?_, fun k hk => ?_,
    fun k c hk => ?_⟩
  · rw [h.pc k]
    exact Nat.zero_le _
  · rw [h.cancelled]
    exact Nat.zero_le _
  · rw [h.pc k] at hk
    exact hk.elim
  · exact absurd ((h.pc k).symm.trans hk) nofun

theorem timerStep_single {s s' : Timer ι κ} {a : TimerAct ι κ} (h : Single s) (hok : Settled s a)
    (hs : timerStep s a = some s') : Single s' := by
  obtain ⟨p, hp, hold⟩ := h.place
  revert hs
  fun_cases timerStep s a <;> intro hs <;> cases hs
  -- the calls
  · exact h.setPc (Nat.le_refl _) nofun nofun
  · exact h.setPc (Nat.le_refl _) (fun _ => rfl) nofun
  -- the load of the state
  · next hpc hstate =>
      obtain ⟨hknown, hstarter⟩ := h.caller hpc
      have hn := hp.nowhere_of_inactive hstate hok
      exact h.returned (hn ▸ hp) hknown hstarter
  · exact h
  · next hpc _ =>
      obtain ⟨hknown, hstarter⟩ := h.caller hpc
      exact h.setPc hknown hstarter nofun
  · next hpc =>
      obtain ⟨hknown, hstarter⟩ := h.caller hpc
      exact h.setPc hknown hstarter nofun
  -- the locked part of the cancel
  · next hpc _ hq =>
      obtain ⟨hknown, hstarter⟩ := h.caller hpc
      have htree := hp.inTree_of_queued hq.1
      subst htree
      have hat : At { s with state := .inactive, tree := none } .nowhere := ⟨rfl, rfl, hp.2.2.2⟩
      exact (h.move hat (.inl rfl) fun hne => absurd rfl hne).returned hat hknown hstarter
  · next hpc _ _ =>
      obtain ⟨hknown, hstarter⟩ := h.caller hpc
      exact h.setPc hknown hstarter nofun
  · next k cpu hpc _ =>
      have hnow := h.enqueue k cpu hpc
      have howner := h.starter k (hpc ▸ trivial)
      have hidle : Single (s.setPc k .idle) := h.setPc (Nat.zero_le _) nofun nofun
      refine ⟨⟨.inTree cpu, ⟨rfl, rfl, rfl, hnow.2.2⟩, .inr ?_⟩, fun k' => ?_, ?_, hidle.starter,
        fun k' c hk' => ?_⟩
      · exact Nat.lt_succ_of_le h.cancelled
      · exact Nat.le_succ_of_le (hidle.known k')
      · exact Nat.le_succ_of_le h.cancelled
      · -- only the owner queues the timer, and it has just done so
        have hk : k' = k := (hidle.starter k' (hk' ▸ trivial)).trans howner.symm
        rw [hk] at hk'
        exact absurd ((update_self k _ s.pc).symm.trans hk') nofun
  -- the interrupt
  · next c hc =>
      have hpl := hp.inTree_of_tree hc.1
      subst hpl
      refine h.move (p := .taken c) ⟨rfl, hp.2.1, rfl, update_self .., fun c' hc' => ?_⟩
        (.inr (hold.resolve_left nofun)) fun _ hn => absurd (hn.2.1.symm.trans hc.1) nofun
      exact (update_of_ne hc' ..).trans (hp.2.2.2 c')
  · next c g hirq =>
      obtain ⟨hpl, rfl⟩ := hp.taken_of_irq hirq
      subst hpl
      refine h.move (p := .calling c) ⟨rfl, hp.2.1, hp.2.2.1, update_self .., fun c' hc' => ?_⟩
        (.inr (hold.resolve_left nofun)) fun _ hn => absurd ((hn.2.2 c).symm.trans hirq) nofun
      exact (update_of_ne hc' ..).trans (hp.2.2.2.2 c' hc')
  · next c g hirq =>
      obtain ⟨hpl, rfl⟩ := hp.calling_of_irq hirq
      subst hpl
      exact h.move (p := .inTree c) ⟨rfl, hp.2.1, rfl, hp.released⟩
        (.inr (hold.resolve_left nofun)) fun _ hn => absurd ((hn.2.2 c).symm.trans hirq) nofun
  · next c g hirq _ =>
      obtain ⟨hpl, rfl⟩ := hp.calling_of_irq hirq
      subst hpl
      exact h.move (p := .nowhere) ⟨rfl, hp.2.2.1, hp.released⟩ (.inl rfl) fun hne => absurd rfl hne

/-- In every run in which no caller loads the state between the two stores of an interrupt: a
running callback belongs to a start later than every start that a returned `hrtimer_cancel`
was called after. -/
theorem cancel_final {s : Timer ι κ} (hr : timerSystem.Reach Settled s) {c : ι} {start : Nat}
    (hrun : s.irq c = .calling start) : s.cancelled < start := by
  have h : Single s := hr.invariant Single (fun _ h => h.single) fun _ _ _ h hok hs =>
    timerStep_single h hok hs
  obtain ⟨p, hp, hold⟩ := h.place
  obtain ⟨rfl, rfl⟩ := hp.calling_of_irq hrun
  exact hold.resolve_left nofun

def freshTimer : Timer (Fin 2) (Fin 2) where
  state := .inactive
  cpu := 0
  tree := none
  irq _ := .idle
  pc _ := .idle
  owner := 0
  starts := 0
  cancelled := 0

theorem freshTimer_init : timerSystem.init freshTimer :=
  ⟨rfl, rfl, fun _ => rfl, fun _ => rfl, rfl, rfl⟩

theorem cancel_final_restarted : ∃ s : Timer (Fin 2) (Fin 2), timerSystem.Reach Settled s ∧
    s.cancelled = 1 ∧ s.irq 0 = .calling 2 ∧ s.cancelled < 2 :=
  System.Reach.exists_of_run_imp [.start 0, .load 0, .enqueue 0, .cancel 1, .take 0, .mark 0,
    .load 1, .done 0 false, .load 1, .start 0, .load 0, .enqueue 0, .take 0, .mark 0]
    freshTimer_init (by decide +kernel) fun s hr (hs : s.cancelled = 1 ∧ s.irq 0 = .calling 2) =>
      ⟨hs.1, hs.2, cancel_final hr hs.2⟩

/-- The load falls between the two stores: `hrtimer_cancel` returns and the callback runs. -/
theorem cancelled_timer_runs : ∃ s : Timer (Fin 2) (Fin 2),
    timerSystem.Reach (fun _ _ => True) s ∧ s.pc 1 = .idle ∧ s.cancelled = 1 ∧
      s.irq 0 = .calling 1 :=
  System.Reach.exists_of_run [.start 0, .load 0, .enqueue 0, .take 0, .cancel 1, .load 1, .mark 0]
    freshTimer_init (by decide +kernel)

end NeoKernel.Hrtimer
