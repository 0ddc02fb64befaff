import Mathlib.Data.Finset.Basic
import Mathlib.Data.Finset.SDiff
import NeoKernel.Lib.Trans
import NeoKernel.Lib.Update

/-!
# Taking the pending signals of a process (kernel/ipc/signal.c)

Threads of one process select a signal from `p->pending` without a lock and take it later
under `p->lock`. Senders set bits and append payloads under the lock; the sender of a stop
signal first clears SIGCONT without it. Signals of a single thread are left out.
-/
namespace NeoKernel.Delivery
open Lib Function List

def sigcont : Nat := 18

def sigstop : Nat := 19

def sigrtmin : Nat := 32

/-- One return of `signal_take_pending`: `payload` is `none` for a made-up SI_USER. -/
structure Take (τ ν : Type*) where
  thread : τ
  sig : Nat
  payload : Option ν

/-- The process, its threads and the CPUs that run senders. The last three fields are the
record of what happened. -/
structure Proc (τ κ ν : Type*) where
  pending : Finset Nat
  queued : List (Nat × ν)
  mask : τ → Finset Nat
  selected : τ → Option Nat
  /-- What a sender of a stop signal has read of `p->pending`. -/
  loaded : κ → Option (Finset Nat)
  sent : Nat → Nat
  posted : List (Nat × ν)
  takes : List (Take τ ν)

variable {τ κ ν : Type*} {sig : Nat}

def lowest (ready : Finset Nat) : Option Nat := (List.range' 1 64).find? fun sig => sig ∈ ready

def hasPayload (queued : List (Nat × ν)) (sig : Nat) : Bool := queued.any fun q => q.1 == sig

namespace Proc

/-- The locked part of `signal_send_process`. -/
def sendLocked (p : Proc τ κ ν) (sig : Nat) (info : Option ν) : Proc τ κ ν :=
  match info with
  | some v =>
      if sigrtmin ≤ sig then
        { p with
          pending := insert sig p.pending
          queued := p.queued ++ [(sig, v)]
          sent := update p.sent sig (p.sent sig + 1)
          posted := p.posted ++ [(sig, v)] }
      else
        { p with
          pending := insert sig p.pending
          sent := update p.sent sig (p.sent sig + 1) }
  | none =>
      { p with
        pending := insert sig p.pending
        sent := update p.sent sig (p.sent sig + 1) }

def takePending [DecidableEq τ] (p : Proc τ κ ν) (t : τ) (sig : Nat) : Proc τ κ ν :=
  let found := p.queued.find? fun q => q.1 == sig
  let rest := p.queued.eraseP fun q => q.1 == sig
  { p with
    -- an RT signal with more payloads stays pending
    pending :=
      if found.isSome ∧ sigrtmin ≤ sig ∧ hasPayload rest sig then insert sig (p.pending.erase sig)
      else p.pending.erase sig
    queued := rest
    selected := update p.selected t none
    takes := p.takes ++ [⟨t, sig, found.map Prod.snd⟩] }

end Proc

inductive DeliverAct (τ κ ν : Type*) where
  | setMask (t : τ) (mask : Finset Nat)
  /-- `signal_next_deliverable`; `hidden` are signals that a take in progress has cleared and
  will put back. -/
  | select (t : τ) (hidden : Finset Nat)
  /-- `signal_next_pending_in`, for `rt_sigtimedwait`. -/
  | selectIn (t : τ) (want hidden : Finset Nat)
  | take (t : τ)
  /-- `room` is whether `sigqueue_alloc` has a free entry. -/
  | send (sig : Nat) (info : Option ν) (room : Bool)
  /-- `sigset_del(&p->pending, SIGCONT)` without the lock reads the set, and writes it. -/
  | interlockLoad (k : κ)
  | interlockStore (k : κ)
  /-- `signal_do_continue` clears SIGSTOP under the lock. -/
  | doContinue

def deliverStep [DecidableEq τ] [DecidableEq κ] (p : Proc τ κ ν) :
    DeliverAct τ κ ν → Option (Proc τ κ ν)
  | .setMask t mask => some { p with mask := update p.mask t mask }
  | .select t hidden =>
      if p.selected t = none then
        some { p with selected := update p.selected t (lowest ((p.pending \ hidden) \ p.mask t)) }
      else none
  | .selectIn t want hidden =>
      if p.selected t = none then
        some { p with selected := update p.selected t (lowest ((p.pending \ hidden) ∩ want)) }
      else none
  | .take t => (p.selected t).map (p.takePending t)
  | .send sig info room =>
      if sig = 0 ∨ 65 ≤ sig then none
      -- a full pool: -EAGAIN
      else if sigrtmin ≤ sig ∧ info.isSome ∧ !room then some p
      else some (p.sendLocked sig info)
  | .interlockLoad k => some { p with loaded := update p.loaded k (some p.pending) }
  | .interlockStore k =>
      (p.loaded k).map fun old =>
        { p with pending := old.erase sigcont, loaded := update p.loaded k none }
  | .doContinue => some { p with pending := p.pending.erase sigstop }

def deliverSystem [DecidableEq τ] [DecidableEq κ] : System (Proc τ κ ν) (DeliverAct τ κ ν) where
  init p := p.pending = ∅ ∧ p.queued = [] ∧ (∀ t, p.selected t = none) ∧
    (∀ k, p.loaded k = none) ∧ (∀ sig, p.sent sig = 0) ∧ p.posted = [] ∧ p.takes = []
  step := deliverStep

/-- No thread selects a signal that another has selected and not taken yet, and the unlocked
write finds the set as it was read. -/
def Alone (p : Proc τ κ ν) : DeliverAct τ κ ν → Prop
  | .select t hidden => ∀ u sig, u ≠ t → p.selected u = some sig →
      lowest ((p.pending \ hidden) \ p.mask t) ≠ some sig
  | .selectIn t want hidden => ∀ u sig, u ≠ t → p.selected u = some sig →
      lowest ((p.pending \ hidden) ∩ want) ≠ some sig
  | .interlockStore k => ∀ old, p.loaded k = some old → old = p.pending
  | _ => True

def payloadsOf (sig : Nat) (l : List (Nat × ν)) : List ν :=
  (l.filter fun q => q.1 == sig).map Prod.snd

/-- The payloads of a signal that were taken, in the order of the takes. -/
def takenOf (sig : Nat) (l : List (Take τ ν)) : List ν :=
  l.filterMap fun d => if d.sig = sig then d.payload else none

def takeCount (sig : Nat) (l : List (Take τ ν)) : Nat := (l.filter fun d => d.sig == sig).length

theorem payloadsOf_append (sig : Nat) (l l' : List (Nat × ν)) :
    payloadsOf sig (l ++ l') = payloadsOf sig l ++ payloadsOf sig l' := by
  simp [payloadsOf]

theorem takenOf_append (sig : Nat) (l l' : List (Take τ ν)) :
    takenOf sig (l ++ l') = takenOf sig l ++ takenOf sig l' := by
  simp [takenOf]

theorem hasPayload_iff (l : List (Nat × ν)) (sig : Nat) :
    hasPayload l sig = true ↔ payloadsOf sig l ≠ [] := by
  simp [hasPayload, payloadsOf]

theorem payloadsOf_take (sig : Nat) (l : List (Nat × ν)) :
    ((l.find? fun q => q.1 == sig).map Prod.snd).toList ++
      payloadsOf sig (l.eraseP fun q => q.1 == sig) = payloadsOf sig l := by
  induction l with
  | nil => rfl
  | cons q l ih =>
      by_cases hq : q.1 = sig
      · simp [payloadsOf, hq]
      · simpa [payloadsOf, hq] using ih

theorem payloadsOf_eraseP_of_ne {sig' : Nat} (h : sig' ≠ sig) (l : List (Nat × ν)) :
    payloadsOf sig' (l.eraseP fun q => q.1 == sig) = payloadsOf sig' l := by
  induction l with
  | nil => rfl
  | cons q l ih =>
      by_cases hq : q.1 = sig
      · simp [payloadsOf, hq, Ne.symm h]
      · by_cases hq' : q.1 = sig'
        · simpa [payloadsOf, hq', h] using ih
        · simpa [payloadsOf, hq, hq'] using ih

theorem lowest_mem {ready : Finset Nat} (h : lowest ready = some sig) : sig ∈ ready := by
  have := find?_some h
  simpa using this

structure Kept (p : Proc τ κ ν) : Prop where
  /-- Every payload that waits was sent by a call of its own. -/
  counted : ∀ sig, takeCount sig p.takes + (payloadsOf sig p.queued).length ≤ p.sent sig
  /-- A signal that is still to be taken has been sent once more. -/
  credit : ∀ sig, (sig ∈ p.pending ∨ ∃ t, p.selected t = some sig) →
    takeCount sig p.takes + 1 ≤ p.sent sig
  unique : ∀ t u sig, p.selected t = some sig → p.selected u = some sig → t = u
  fifo : ∀ sig, takenOf sig p.takes ++ payloadsOf sig p.queued = payloadsOf sig p.posted
  kept : ∀ sig, payloadsOf sig p.queued ≠ [] → sig ∈ p.pending
  realtime : ∀ q ∈ p.queued, sigrtmin ≤ q.1

variable {p p' : Proc τ κ ν} {t : τ} {sig : Nat} {a : DeliverAct τ κ ν}

theorem Kept.payloadsOf_standard (h : Kept p) (hsig : sig < sigrtmin) :
    payloadsOf sig p.queued = [] := by
  by_contra hne
  rw [← ne_eq, ← hasPayload_iff] at hne
  obtain ⟨q, hq, heq⟩ := any_eq_true.1 hne
  have := h.realtime q hq
  simp only [beq_iff_eq] at heq
  omega

theorem Kept.clear (h : Kept p) {pending : Finset Nat} {loaded : κ → Option (Finset Nat)}
    (hsub : pending ⊆ p.pending) (hkeep : ∀ sig, sigrtmin ≤ sig → sig ∈ p.pending → sig ∈ pending) :
    Kept { p with pending, loaded } where
  counted := h.counted
  credit sig ht := h.credit sig (ht.imp_left fun hp => hsub hp)
  unique := h.unique
  fifo := h.fifo
  kept sig hne := by
    by_cases hsig : sig < sigrtmin
    · exact absurd (h.payloadsOf_standard hsig) hne
    · exact hkeep sig (by omega) (h.kept sig hne)
  realtime := h.realtime

theorem Kept.clear_erase (h : Kept p) (hsig : sig < sigrtmin) (loaded : κ → Option (Finset Nat)) :
    Kept { p with pending := p.pending.erase sig, loaded } := by
  refine h.clear (Finset.erase_subset sig p.pending) fun sig' hsig' hmem => ?_
  exact Finset.mem_erase.2 ⟨by omega, hmem⟩

theorem Kept.select [DecidableEq τ] (h : Kept p) (o : Option Nat)
    (hpending : ∀ sig, o = some sig → sig ∈ p.pending)
    (halone : ∀ u sig, u ≠ t → p.selected u = some sig → o ≠ some sig) :
    Kept { p with selected := update p.selected t o } where
  counted := h.counted
  credit sig ht := by
    refine h.credit sig ?_
    rcases ht with hp | ⟨u, hu⟩
    · exact .inl hp
    · rcases update_eq_cases hu with ⟨-, hu⟩ | ⟨-, hu⟩
      · exact .inl (hpending sig hu)
      · exact .inr ⟨u, hu⟩
  unique _ _ sig := unique_update (p := (· = some sig)) (fun u v => h.unique u v sig)
    fun ho u hut hu => halone u sig hut hu ho
  fifo := h.fifo
  kept := h.kept
  realtime := h.realtime

theorem takeCount_append_one (sig : Nat) (l : List (Take τ ν)) (d : Take τ ν) :
    takeCount sig (l ++ [d]) = takeCount sig l + if d.sig = sig then 1 else 0 := by
  unfold takeCount
  by_cases hd : d.sig = sig
  · simp [hd]
  · simp [hd]

theorem takePending_pending_of_ne [DecidableEq τ] {sig' : Nat} (hne : sig' ≠ sig) :
    sig' ∈ (p.takePending t sig).pending ↔ sig' ∈ p.pending := by
  unfold Proc.takePending
  dsimp only
  split
  · simp [hne]
  · simp [hne]

/-- A take moves the first payload of its signal from the queue to what has been taken. -/
theorem takePending_payloads [DecidableEq τ] (sig' : Nat) :
    takenOf sig' (p.takePending t sig).takes ++ payloadsOf sig' (p.takePending t sig).queued =
      takenOf sig' p.takes ++ payloadsOf sig' p.queued := by
  change takenOf sig' (p.takes ++ [⟨t, sig, _⟩]) ++
    payloadsOf sig' (p.queued.eraseP fun q => q.1 == sig) = _
  rw [takenOf_append, append_assoc]
  congr 1
  by_cases heq : sig = sig'
  · subst heq
    rw [← payloadsOf_take sig p.queued]
    congr 1
    cases (p.queued.find? fun q => q.1 == sig).map Prod.snd with
    | none | some v => simp [takenOf]
  · rw [payloadsOf_eraseP_of_ne (Ne.symm heq)]
    simp [takenOf, heq]

/-- A signal with further payloads stays pending when one of them is taken. -/
theorem Kept.pending_of_left [DecidableEq τ] (h : Kept p)
    (hne : payloadsOf sig (p.takePending t sig).queued ≠ []) :
    sig ∈ (p.takePending t sig).pending := by
  have hpayload : hasPayload (p.queued.eraseP fun q => q.1 == sig) sig = true :=
    (hasPayload_iff _ sig).2 hne
  obtain ⟨q, hq, hqs⟩ := any_eq_true.1 hpayload
  have hmem := mem_of_mem_eraseP hq
  have hrt := h.realtime q hmem
  rw [beq_iff_eq.1 hqs] at hrt
  unfold Proc.takePending
  dsimp only
  rw [if_pos ⟨find?_isSome.2 ⟨q, hmem, hqs⟩, hrt, hpayload⟩]
  exact Finset.mem_insert_self sig _

theorem Kept.take [DecidableEq τ] (h : Kept p) (ht : p.selected t = some sig) :
    Kept (p.takePending t sig) := by
  have hselected : ∀ u sig', (p.takePending t sig).selected u = some sig' →
      u ≠ t ∧ p.selected u = some sig' := by
    intro u sig' hu
    rcases update_eq_cases hu with ⟨-, hu⟩ | hu
    · cases hu
    · exact hu
  have hcount : ∀ sig', takeCount sig' (p.takePending t sig).takes =
      takeCount sig' p.takes + if sig = sig' then 1 else 0 :=
    fun sig' => takeCount_append_one sig' p.takes _
  have hqueued := congrArg length (payloadsOf_take sig p.queued)
  rw [length_append] at hqueued
  have hcounted := h.counted sig
  have hcredit := h.credit sig (.inr ⟨t, ht⟩)
  constructor
  · intro sig'
    rw [hcount]
    change _ + (payloadsOf sig' (p.queued.eraseP fun q => q.1 == sig)).length ≤ p.sent sig'
    by_cases heq : sig = sig'
    · subst heq
      rw [if_pos rfl]
      cases hfound : p.queued.find? fun q => q.1 == sig with
      | none =>
          -- nothing was queued, and the signal itself was sent
          have hnil : payloadsOf sig p.queued = [] := by
            simpa [payloadsOf] using hfound
          rw [hnil] at hqueued
          simp only [length_nil] at hqueued
          omega
      | some q =>
          rw [hfound] at hqueued
          simp only [Option.map_some, Option.toList_some, length_singleton] at hqueued
          omega
    · rw [if_neg heq, payloadsOf_eraseP_of_ne (Ne.symm heq)]
      exact h.counted sig'
  · intro sig' hto
    rw [hcount]
    change _ ≤ p.sent sig'
    by_cases heq : sig = sig'
    · -- it is still pending only for payloads that wait, and nobody else has selected it
      subst heq
      rw [if_pos rfl]
      rcases hto with hp | ⟨u, hu⟩
      · unfold Proc.takePending at hp
        dsimp only at hp
        split at hp
        · next hc =>
            obtain ⟨q, hq⟩ := Option.isSome_iff_exists.mp hc.1
            rw [hq] at hqueued
            simp only [Option.map_some, Option.toList_some, length_singleton] at hqueued
            have hrest := length_pos_of_ne_nil ((hasPayload_iff _ sig).1 hc.2.2)
            omega
        · exact absurd hp (Finset.notMem_erase sig p.pending)
      · obtain ⟨hut, hu⟩ := hselected u sig hu
        exact absurd (h.unique u t sig hu ht) hut
    · rw [if_neg heq]
      refine h.credit sig' (hto.imp (fun hp => ?_) fun ⟨u, hu⟩ => ?_)
      · exact (takePending_pending_of_ne (Ne.symm heq)).1 hp
      · exact ⟨u, (hselected u sig' hu).2⟩
  · intro u v sig' hu hv
    exact h.unique u v sig' (hselected u sig' hu).2 (hselected v sig' hv).2
  · exact fun sig' => (takePending_payloads sig').trans (h.fifo sig')
  · intro sig' hne
    by_cases heq : sig = sig'
    · subst heq
      exact h.pending_of_left hne
    · rw [takePending_pending_of_ne (Ne.symm heq)]
      refine h.kept sig' ?_
      rwa [← payloadsOf_eraseP_of_ne (Ne.symm heq)]
  · intro q hq
    exact h.realtime q (mem_of_mem_eraseP hq)

theorem Kept.post (h : Kept p) (sig : Nat) (more : List (Nat × ν))
    (hmore : ∀ q ∈ more, q.1 = sig ∧ sigrtmin ≤ sig) (hone : more.length ≤ 1) :
    Kept { p with
      pending := insert sig p.pending
      queued := p.queued ++ more
      sent := update p.sent sig (p.sent sig + 1)
      posted := p.posted ++ more } where
  counted sig' := by
    have hc := h.counted sig'
    have hfilter : (payloadsOf sig' more).length ≤ more.length := by
      rw [payloadsOf, length_map]
      exact length_filter_le ..
    dsimp only
    rw [payloadsOf_append, length_append]
    by_cases heq : sig' = sig
    · subst heq
      rw [update_self]
      omega
    · have hnil : payloadsOf sig' more = [] := by
        simp only [payloadsOf, map_eq_nil_iff, filter_eq_nil_iff, beq_iff_eq]
        exact fun q hq hqs => heq (hqs.symm.trans (hmore q hq).1)
      rwa [update_of_ne heq, hnil]
  credit sig' hto := by
    dsimp only at hto ⊢
    by_cases heq : sig' = sig
    · subst heq
      have := h.counted sig'
      rw [update_self]
      omega
    · rw [update_of_ne heq]
      exact h.credit sig' (hto.imp_left fun hp => Finset.mem_of_mem_insert_of_ne hp heq)
  unique := h.unique
  fifo sig' := by
    dsimp only
    rw [payloadsOf_append, payloadsOf_append, ← append_assoc, h.fifo]
  kept sig' hne := by
    dsimp only at hne ⊢
    rw [payloadsOf_append] at hne
    by_cases heq : sig' = sig
    · rw [heq]
      exact Finset.mem_insert_self sig _
    · refine Finset.mem_insert_of_mem (h.kept sig' fun hnil => hne ?_)
      rw [hnil, nil_append]
      simp only [payloadsOf, map_eq_nil_iff, filter_eq_nil_iff, beq_iff_eq]
      intro q hq hqs
      exact heq (hqs.symm.trans (hmore q hq).1)
  realtime q hq := by
    rcases mem_append.1 hq with hq | hq
    · exact h.realtime q hq
    · obtain ⟨h1, h2⟩ := hmore q hq
      rw [h1]
      exact h2

theorem Kept.send (h : Kept p) (sig : Nat) (info : Option ν) : Kept (p.sendLocked sig info) := by
  have hplain : Kept { p with
      pending := insert sig p.pending
      sent := update p.sent sig (p.sent sig + 1) } := by
    simpa using h.post sig [] nofun (Nat.zero_le 1)
  unfold Proc.sendLocked
  split
  · next v =>
      split
      · next hrt =>
          refine h.post sig [(sig, v)] (fun q hq => ?_) le_rfl
          rw [mem_singleton.1 hq]
          exact ⟨rfl, hrt⟩
      · exact hplain
  · exact hplain

/-- The step reads or writes the pending set without the lock. -/
def DeliverAct.unlocked : DeliverAct τ κ ν → Bool
  | .select .. => true
  | .selectIn .. => true
  | .interlockStore _ => true
  | _ => false

theorem alone_of_quiet
    (h : a.unlocked = true → (∀ u, p.selected u = none) ∧ ∀ k, p.loaded k = none) : Alone p a := by
  cases a with
  | select t hidden | selectIn t want hidden =>
      intro u sig _ hu
      rw [(h rfl).1 u] at hu
      cases hu
  | interlockStore k =>
      intro old hold
      rw [(h rfl).2 k] at hold
      cases hold
  | _ => trivial

variable [DecidableEq τ] [DecidableEq κ]

theorem deliverStep_kept (h : Kept p) (halone : Alone p a) (hs : deliverStep p a = some p') :
    Kept p' := by
  cases a with
  | setMask t mask | interlockLoad k =>
      cases hs
      exact { h with }
  | select t hidden =>
      rw [deliverStep] at hs
      split at hs
      · cases hs
        refine h.select _ (fun sig hsig => ?_) halone
        exact (Finset.mem_sdiff.1 (Finset.mem_sdiff.1 (lowest_mem hsig)).1).1
      · cases hs
  | selectIn t want hidden =>
      rw [deliverStep] at hs
      split at hs
      · cases hs
        refine h.select _ (fun sig hsig => ?_) halone
        exact (Finset.mem_sdiff.1 (Finset.mem_inter.1 (lowest_mem hsig)).1).1
      · cases hs
  | take t =>
      obtain ⟨sig, hsig, rfl⟩ := Option.map_eq_some_iff.1 hs
      exact h.take hsig
  | send sig info room =>
      rw [deliverStep] at hs
      split at hs
      · cases hs
      · split at hs
        · cases hs
          exact h
        · cases hs
          exact h.send sig info
  | interlockStore k =>
      obtain ⟨old, hold, rfl⟩ := Option.map_eq_some_iff.1 hs
      rw [halone old hold]
      exact h.clear_erase (by decide) _
  | doContinue =>
      cases hs
      exact h.clear_erase (by decide) p.loaded

theorem Kept.of_init (h : deliverSystem.init p) : Kept p := by
  obtain ⟨hpending, hqueued, hselected, -, hsent, hposted, htakes⟩ := h
  constructor
  · intro sig
    simp [htakes, hqueued, takeCount, payloadsOf]
  · intro sig hto
    simp [hpending, hselected] at hto
  · intro t u sig ht
    rw [hselected] at ht
    cases ht
  · intro sig
    simp [htakes, hqueued, hposted, takenOf, payloadsOf]
  · intro sig hne
    simp [hqueued, payloadsOf] at hne
  · intro q hq
    rw [hqueued] at hq
    cases hq

/-- In every run in which no signal is selected twice before it is taken and no unlocked write
overtakes another: a signal is taken at most as often as it was sent; the payloads of a signal that
were taken, followed by those that wait, are the ones that were sent, in order; and a signal whose
payloads wait is pending. -/
theorem signal_taken_once (hr : deliverSystem.Reach Alone p) :
    (∀ sig, takeCount sig p.takes ≤ p.sent sig) ∧
      ∀ sig, takenOf sig p.takes ++ payloadsOf sig p.queued = payloadsOf sig p.posted ∧
        (payloadsOf sig p.queued ≠ [] → sig ∈ p.pending) := by
  have h : Kept p := hr.invariant Kept (fun _ h => .of_init h) fun _ _ _ h hok hs =>
    deliverStep_kept h hok hs
  exact ⟨fun sig => (Nat.le_add_right ..).trans (h.counted sig),
    fun sig => ⟨h.fifo sig, h.kept sig⟩⟩

abbrev SmallProc := Proc (Fin 2) (Fin 1) Nat

def quiet : SmallProc := ⟨∅, [], fun _ => ∅, fun _ => none, fun _ => none, fun _ => 0, [], []⟩

theorem quiet_init : deliverSystem.init quiet :=
  ⟨rfl, rfl, fun _ => rfl, fun _ => rfl, fun _ => rfl, rfl, rfl⟩

/-- Two payloads of one signal and a signal without one, taken by two threads in turn. -/
theorem signal_taken_once_payloads : ∃ p : SmallProc, deliverSystem.Reach Alone p ∧
    (takeCount 10 p.takes = 1 ∧ payloadsOf 40 p.posted = [7, 8]) ∧
      takeCount 10 p.takes ≤ p.sent 10 ∧
      takeCount 40 p.takes ≤ p.sent 40 ∧ takenOf 40 p.takes ++ payloadsOf 40 p.queued = [7, 8] := by
  obtain ⟨p, hr, hp⟩ : ∃ p : SmallProc, deliverSystem.Reach (fun p a => a.unlocked = true →
      (∀ u, p.selected u = none) ∧ ∀ k, p.loaded k = none) p ∧
      (takeCount 10 p.takes = 1 ∧ payloadsOf 40 p.posted = [7, 8]) :=
    System.Reach.exists_of_run [.send 40 (some 7) true, .send 10 none true, .send 40 (some 8) true,
      .select 0 ∅, .take 0, .select 1 ∅, .take 1] quiet_init (by decide +kernel)
  have hr' := hr.mono fun p a => alone_of_quiet
  obtain ⟨hcount, hpayload⟩ := signal_taken_once hr'
  refine ⟨p, hr', hp, hcount 10, hcount 40, ?_⟩
  rw [(hpayload 40).1]
  exact hp.2

/-- Both threads select SIGUSR1 before either takes it. -/
theorem signal_taken_twice : ∃ p : SmallProc, deliverSystem.Reach (fun _ _ => True) p ∧
    p.sent 10 = 1 ∧ takeCount 10 p.takes = 2 := by
  exact System.Reach.exists_of_run
    [.send 10 none true, .select 0 ∅, .select 1 ∅, .take 0, .take 1] quiet_init (by decide +kernel)

end NeoKernel.Delivery
