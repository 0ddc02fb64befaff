import Mathlib.Data.List.Perm.Basic
import NeoKernel.Errno
import NeoKernel.Ipc.SignalOnce
import NeoKernel.Ipc.SignalWake
import NeoKernel.Lib.Table

/-!
# The nodes of queued signals (kernel/ipc/signal.c)

The queues of all processes and threads, over the pool that their nodes come from. A call is one
step. A thread or process that exits, or runs a program, keeps its queue as long as its record is
there; the record goes with its last reference, in `thread_put` and `proc_put`.
-/
namespace NeoKernel.SigQueue
open Lib Delivery List

def sigqueuePool : Nat := 64

def nsig : Nat := 65

/-- `node` is the index in `sigqueue_pool`. -/
structure Sigqueue where
  node : Nat
  signo : Nat
  value : Nat

structure Target where
  pending : Finset Nat
  queued : List Sigqueue

inductive Owner where
  | proc (p : Nat)
  | thread (p t : Nat)
  deriving DecidableEq, Repr

def Owner.process : Owner → Nat
  | .proc p => p
  | .thread p _ => p

structure Signals where
  free : List Nat
  targets : Table Owner Target

namespace Signals

def setTarget (s : Signals) (o : Owner) (x : Target) : Signals :=
  { s with targets := s.targets.insert o x }

def signalQueueInit : Signals := ⟨(List.range sigqueuePool).reverse, ∅⟩

def queueAppend (s : Signals) (queued : List Sigqueue) (sig value : Nat) :
    Option (Signals × List Sigqueue) :=
  match s.free with
  | [] => none
  | n :: rest => some ({ s with free := rest }, queued ++ [⟨n, sig, value⟩])

/-- `signal_send_thread_locked` and `signal_send_process_locked`. -/
def sendLocked (s : Signals) (o : Owner) (x : Target) (sig : Nat) (info : Option Nat) :
    Signals × Option Errno :=
  match info with
  | some value =>
      if sigrtmin ≤ sig then
        match s.queueAppend x.queued sig value with
        | none => (s, some .eagain)
        | some (s, queued) => (s.setTarget o ⟨insert sig x.pending, queued⟩, none)
      else (s.setTarget o { x with pending := insert sig x.pending }, none)
  | none => (s.setTarget o { x with pending := insert sig x.pending }, none)

def clearPending (s : Signals) (sig : Nat) (test : Owner → Bool) : Signals :=
  { s with targets := s.targets.adjust fun o x =>
      if test o then { x with pending := x.pending.erase sig } else x }

def stopContInterlock (s : Signals) (p sig : Nat) : Signals :=
  if sig = sigcont then s.clearPending sigstop (·.process = p)
  -- SIGSTOP, SIGTSTP, SIGTTIN and SIGTTOU
  else if sig ∈ [sigstop, 20, 21, 22] then s.clearPending sigcont (· = .proc p)
  else s

/-- `signal_send_thread` and `signal_send_process`; `ignored` is `signal_is_ignored`. -/
def send (s : Signals) (o : Owner) (sig : Nat) (info : Option Nat) (ignored : Bool) :
    Signals × Option Errno :=
  if sig = 0 ∨ nsig ≤ sig then (s, some .einval)
  else
    let s := s.stopContInterlock o.process sig
    if ignored then (s, none)
    else
      match s.targets.lookup o with
      | none => (s, none)
      | some x => s.sendLocked o x sig info

def takeFrom (s : Signals) (o : Owner) (x : Target) (sig : Nat) : Signals :=
  let found := x.queued.find? (·.signo == sig)
  let rest := x.queued.eraseP (·.signo == sig)
  let pending :=
    if found.isSome ∧ sigrtmin ≤ sig ∧ rest.any (·.signo == sig) then
      insert sig (x.pending.erase sig)
    else x.pending.erase sig
  { s with free := (found.toList.map Sigqueue.node) ++ s.free }.setTarget o ⟨pending, rest⟩

def takePending (s : Signals) (p t sig : Nat) : Option Signals :=
  match s.targets.lookup (.thread p t), s.targets.lookup (.proc p) with
  | some x, some y =>
      some (if sig ∈ x.pending then s.takeFrom (.thread p t) x sig else s.takeFrom (.proc p) y sig)
  | _, _ => none

end Signals

inductive SigAct where
  /-- `signal_init_process` and `signal_init_thread`. -/
  | create (o : Owner)
  | send (o : Owner) (sig : Nat) (info : Option Nat) (ignored : Bool)
  | take (p t sig : Nat)
  /-- `kfree` of the record in `thread_put` or `proc_put`. -/
  | free (o : Owner)

def sigStep (s : Signals) : SigAct → Option Signals
  | .create o => if s.targets.lookup o = none then some (s.setTarget o ⟨∅, []⟩) else none
  | .send o sig info ignored => some (s.send o sig info ignored).1
  | .take p t sig => s.takePending p t sig
  | .free o => some { s with targets := s.targets.erase o }

def sigSystem : System Signals SigAct where
  init s := s = .signalQueueInit
  step := sigStep

def Drained (s : Signals) : SigAct → Prop
  | .free o => ∀ x ∈ s.targets.lookup o, x.queued = []
  | _ => True

namespace Signals

variable {s s' : Signals} {o : Owner} {x : Target} {sig : Nat}

def linked (s : Signals) : List Nat :=
  s.targets.values.flatMap fun x => x.queued.map Sigqueue.node

/-- Every node of the pool is free or on one queue, and in one place only. -/
def Whole (s : Signals) : Prop := (s.free ++ s.linked).Perm (List.range sigqueuePool)

theorem perm_of_lookup (h : s.targets.lookup o = some x) : s.linked.Perm
    (x.queued.map Sigqueue.node ++ linked { s with targets := s.targets.erase o }) :=
  (Table.values_perm h).flatMap_right _

theorem linked_setTarget (x : Target) : (s.setTarget o x).linked =
    x.queued.map Sigqueue.node ++ linked { s with targets := s.targets.erase o } := by
  rw [linked, setTarget, Table.values_insert, flatMap_cons]
  rfl

theorem Whole.move {free : List Nat} {x' : Target} (h : Whole s)
    (hx : s.targets.lookup o = some x)
    (hmove : (free ++ x'.queued.map Sigqueue.node).Perm (s.free ++ x.queued.map Sigqueue.node)) :
    Whole ({ s with free }.setTarget o x') := by
  refine List.Perm.trans ?_ h
  rw [linked_setTarget]
  refine List.Perm.trans ?_ ((perm_of_lookup hx).append_left s.free).symm
  rw [← append_assoc, ← append_assoc]
  exact hmove.append_right _

theorem Whole.clearPending (h : Whole s) (test : Owner → Bool) :
    Whole (s.clearPending sig test) := by
  have hlinked : (s.clearPending sig test).linked = s.linked := by
    unfold linked Table.values
    rw [flatMap_map, flatMap_map]
    change (s.targets.entries.map _).flatMap _ = _
    rw [flatMap_map]
    congr 1
    funext e
    dsimp only
    split <;> rfl
  rw [Whole, hlinked]
  exact h

theorem Whole.stopContInterlock (h : Whole s) (p sig : Nat) :
    Whole (s.stopContInterlock p sig) := by
  unfold Signals.stopContInterlock
  split
  · exact h.clearPending _
  · split
    · exact h.clearPending _
    · exact h

theorem Whole.sendLocked (h : Whole s) (hx : s.targets.lookup o = some x) (info : Option Nat) :
    Whole (s.sendLocked o x sig info).1 := by
  have hplain : Whole (s.setTarget o { x with pending := insert sig x.pending }) :=
    h.move hx (.refl _)
  cases info with
  | none => exact hplain
  | some value =>
      unfold Signals.sendLocked
      dsimp only
      split
      · cases hf : s.free with
        | nil =>
            rw [queueAppend, hf]
            exact h
        | cons n rest =>
            rw [queueAppend, hf]
            refine h.move hx ?_
            rw [hf, map_append, ← append_assoc]
            exact perm_append_singleton n _
      · exact hplain

theorem Whole.send (h : Whole s) (info : Option Nat) (ignored : Bool) :
    Whole (s.send o sig info ignored).1 := by
  unfold Signals.send
  split
  · exact h
  · have hcut := h.stopContInterlock o.process sig
    dsimp only
    split
    · exact hcut
    · split
      · exact hcut
      · next hx => exact hcut.sendLocked hx info

theorem perm_find_eraseP {α : Type*} (p : α → Bool) (l : List α) :
    ((l.find? p).toList ++ l.eraseP p).Perm l := by
  induction l with
  | nil => rfl
  | cons a l ih =>
      cases ha : p a with
      | true =>
          rw [find?_cons_of_pos ha, eraseP_cons_of_pos ha]
          rfl
      | false =>
          rw [find?_cons_of_neg (by simp [ha]), eraseP_cons_of_neg (by simp [ha])]
          exact perm_middle.trans (ih.cons a)

theorem Whole.takeFrom (h : Whole s) (hx : s.targets.lookup o = some x) :
    Whole (s.takeFrom o x sig) := by
  refine h.move hx ?_
  have hfound := (perm_find_eraseP (·.signo == sig) x.queued).map Sigqueue.node
  rw [map_append] at hfound
  refine (perm_append_comm.append_right _).trans ?_
  rw [append_assoc]
  exact hfound.append_left s.free

theorem Whole.step {a : SigAct} (h : Whole s) (hok : Drained s a) (hs : sigStep s a = some s') :
    Whole s' := by
  cases a with
  | create o =>
      obtain ⟨ho, ⟨⟩⟩ := Option.ite_none_right_eq_some.1 hs
      rw [Whole, linked_setTarget, Table.erase_of_none ho]
      exact h
  | send o sig info ignored =>
      cases hs
      exact h.send info ignored
  | take p t sig =>
      change s.takePending p t sig = some s' at hs
      unfold takePending at hs
      split at hs
      · next hx hy =>
          rw [← Option.some.inj hs]
          split
          · exact h.takeFrom hx
          · exact h.takeFrom hy
      · cases hs
  | free o =>
      cases hs
      cases hx : s.targets.lookup o with
      | none => rwa [Table.erase_of_none hx]
      | some x =>
          have hlinked := perm_of_lookup hx
          rw [hok x hx] at hlinked
          exact (hlinked.symm.append_left s.free).trans h

section Views

variable {τ κ : Type} [DecidableEq τ] {p : Delivery.Proc τ κ Nat}

/-- What the threads that take signals see of a queue: the payloads and not the nodes. -/
structure Shows (x : Target) (p : Delivery.Proc τ κ Nat) : Prop where
  pending : p.pending = x.pending
  queued : p.queued = x.queued.map fun q => (q.signo, q.value)

omit [DecidableEq τ] in
theorem Shows.sendLocked (h : Shows x p) {info : Option Nat}
    (hok : (s.sendLocked o x sig info).2 = none) :
    ∃ x' ∈ (s.sendLocked o x sig info).1.targets.lookup o, Shows x' (p.sendLocked sig info) := by
  obtain ⟨hpending, hqueued⟩ := h
  unfold Signals.sendLocked at hok ⊢
  unfold Delivery.Proc.sendLocked
  cases info with
  | none => exact ⟨_, AList.lookup_insert _, by rw [hpending], hqueued⟩
  | some value =>
      dsimp only at hok ⊢
      split at hok
      · next hrt =>
          rw [if_pos hrt, if_pos hrt]
          split at hok
          · cases hok
          · next s' queued happend =>
              unfold queueAppend at happend
              split at happend
              · cases happend
              · cases happend
                exact ⟨_, AList.lookup_insert _, by rw [hpending], by simp [hqueued]⟩
      · next hrt =>
          rw [if_neg hrt, if_neg hrt]
          exact ⟨_, AList.lookup_insert _, by rw [hpending], hqueued⟩

theorem Shows.takeFrom (h : Shows x p) (t : τ) :
    ∃ x' ∈ (s.takeFrom o x sig).targets.lookup o, Shows x' (p.takePending t sig) := by
  obtain ⟨hpending, hqueued⟩ := h
  refine ⟨_, AList.lookup_insert _, ?_, ?_⟩
  · simp [Delivery.Proc.takePending, hasPayload, hpending, hqueued, find?_map, eraseP_map, any_map,
      Function.comp_def]
  · simp [Delivery.Proc.takePending, hqueued, eraseP_map, Function.comp_def]

/-- A take is the two steps that a thread which is going to sleep can see of it. -/
theorem takePending_bits {threads : List τ} {b : Signal.Proc τ} {t : τ} {pid tid : Nat} {y : Target}
    (hx : s.targets.lookup (.thread pid tid) = some x) (hy : s.targets.lookup (.proc pid) = some y)
    (hown : (b.thr t).pending = x.pending) (hproc : b.pending = y.pending)
    (hawake : (b.thr t).pc = .awake) (hfree : b.lock = none)
    (hs : s.takePending pid tid sig = some s') :
    ∃ more b₁ b₂, Signal.sleepStep threads b (.takeClear t sig) = some b₁ ∧
      Signal.sleepStep threads b₁ (.takeEnd t more) = some b₂ ∧
      ∃ x' ∈ s'.targets.lookup (.thread pid tid), ∃ y' ∈ s'.targets.lookup (.proc pid),
        (b₂.thr t).pending = x'.pending ∧ b₂.pending = y'.pending := by
  unfold takePending at hs
  rw [hx, hy] at hs
  cases hs
  have hne : Owner.proc pid ≠ .thread pid tid := nofun
  let more (z : Target) : Bool := decide ((z.queued.find? (·.signo == sig)).isSome ∧
    sigrtmin ≤ sig ∧ (z.queued.eraseP (·.signo == sig)).any (·.signo == sig))
  by_cases hmem : sig ∈ x.pending
  · obtain ⟨b₁, b₂, hclear, hend, hbits⟩ :=
      Signal.takeClear_takeEnd threads sig hawake hfree (more x)
    rw [hown, if_pos hmem] at hbits
    rw [if_pos hmem]
    refine ⟨_, b₁, b₂, hclear, hend, _, AList.lookup_insert _, y,
      (AList.lookup_insert_ne hne).trans hy, hbits.1.trans ?_, hbits.2.trans hproc⟩
    simp [more]
  · obtain ⟨b₁, b₂, hclear, hend, hbits⟩ :=
      Signal.takeClear_takeEnd threads sig hawake hfree (more y)
    rw [hown, if_neg hmem, hproc] at hbits
    rw [if_neg hmem]
    refine ⟨_, b₁, b₂, hclear, hend, x, (AList.lookup_insert_ne hne.symm).trans hx, _,
      AList.lookup_insert _, hbits.1, hbits.2.trans ?_⟩
    simp [more]

end Views

end Signals

/-- In every run in which a thread or a process is freed only with nothing queued on it: the free
nodes and those on the queues of the processes and threads there are make up the pool, and no node
is in two places. -/
theorem sigqueue_nodes_conserved {s : Signals} (hr : sigSystem.Reach Drained s) :
    s.free.length + s.linked.length = sigqueuePool ∧ (s.free ++ s.linked).Nodup := by
  have h : s.Whole := by
    apply hr.invariant Signals.Whole
    · rintro s rfl
      rw [Signals.Whole]
      exact (append_nil _).symm ▸ reverse_perm _
    · exact fun s a s' h hok hs => h.step hok hs
  constructor
  · rw [← length_append, h.length_eq, length_range]
  · exact h.nodup_iff.2 nodup_range

instance (s : Signals) : (a : SigAct) → Decidable (Drained s a)
  | .free o => inferInstanceAs (Decidable (∀ x ∈ s.targets.lookup o, x.queued = []))
  | .create _ | .send .. | .take .. => isTrue trivial

theorem sigqueue_nodes_conserved_taken : ∃ s : Signals, sigSystem.Reach Drained s ∧
    s.linked = [62] ∧ s.free.length + s.linked.length = sigqueuePool :=
  System.Reach.exists_of_run_and
    [.create (.proc 1), .create (.thread 1 1), .send (.proc 1) 40 (some 7) false,
      .send (.proc 1) 40 (some 8) false, .take 1 1 40, .free (.thread 1 1)] rfl
    (by decide +kernel) fun _ hr _ => (sigqueue_nodes_conserved hr).1

/-- A process that nobody else signals exits with 64 payloads queued: no process or thread is left,
and no node is free. -/
theorem reaped_process_keeps_nodes : ∃ s : Signals, sigSystem.Reach (fun _ _ => True) s ∧
    s.targets.keys = [] ∧ s.linked = [] ∧ s.free = [] :=
  System.Reach.exists_of_run
    (.create (.proc 1) :: List.replicate 64
      (.send (.proc 1) 40 (some 7) false) ++ [.free (.proc 1)])
    rfl (by decide +kernel)

end NeoKernel.SigQueue
