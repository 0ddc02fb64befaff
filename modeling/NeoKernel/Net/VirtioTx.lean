import NeoKernel.Errno
import NeoKernel.Lib.Trans
import Mathlib.Data.List.Nodup
import Mathlib.Data.List.Perm.Basic
import Mathlib.Logic.Function.Basic

/-!
# The transmit queue of the network card

The split ring of `drivers/virtio/virtio.c` and `virtio_net_transmit` of
`drivers/net/virtio_net.c`, against a device that completes what was submitted in any
order and as late as it likes. The ring indices are 16-bit words.
-/
namespace NeoKernel.Virtio
open List Option

open Lib Function

def virtioNetHdrLen : Nat := 10
def ethFrameMax : Nat := 1514
def spinMax : Nat := 10000000

structure Virtqueue where
  size : UInt16
  next : Nat → Nat
  freeHead : Nat
  numFree : Nat
  availRing : Nat → Nat
  availIdx : UInt16
  usedRing : Nat → Nat
  usedIdx : UInt16
  lastUsed : UInt16

namespace Virtqueue

def setup (qsize : UInt16) : Virtqueue where
  size := qsize
  next := fun i => if i = qsize.toNat - 1 then 0 else i + 1
  freeHead := 0
  numFree := qsize.toNat
  availRing := fun _ => 0
  availIdx := 0
  usedRing := fun _ => 0
  usedIdx := 0
  lastUsed := 0

/-- The address, the length and the flags are the same for every submission of the
transmit queue: one buffer, read by the device. -/
def add (q : Virtqueue) : Option (Nat × Virtqueue) :=
  if q.numFree = 0 then none
  else
    let d := q.freeHead
    some (d, { q with
      freeHead := q.next d
      numFree := q.numFree - 1
      next := update q.next d 0
      availRing := update q.availRing (q.availIdx % q.size).toNat d
      availIdx := q.availIdx + 1 })

/-- `none` for the `-1` of an empty ring or of an id that is none. -/
def get (q : Virtqueue) : Option Nat × Virtqueue :=
  if q.lastUsed = q.usedIdx then (none, q)
  else
    let id := q.usedRing (q.lastUsed % q.size).toNat
    let q := { q with lastUsed := q.lastUsed + 1 }
    if id ≥ q.size.toNat then (none, q) else (some id, q)

def free (q : Virtqueue) (d : Nat) : Virtqueue :=
  if d ≥ q.size.toNat then q
  else { q with next := update q.next d q.freeHead, freeHead := d, numFree := q.numFree + 1 }

/-- The device's side: the entry is written, then the index. -/
def use (q : Virtqueue) (d : Nat) : Virtqueue :=
  { q with
    usedRing := update q.usedRing (q.usedIdx % q.size).toNat d
    usedIdx := q.usedIdx + 1 }

def walk (next : Nat → Nat) : Nat → Nat → List Nat
  | _, 0 => []
  | h, n+1 => h :: walk next (next h) n

def freeList (q : Virtqueue) : List Nat := walk q.next q.freeHead q.numFree

def uncollected (q : Virtqueue) : List Nat :=
  (List.range (q.usedIdx - q.lastUsed).toNat).map fun i =>
    q.usedRing ((q.lastUsed + .ofNat i) % q.size).toNat

end Virtqueue

/-- Transmits are numbered in the order of their calls. -/
structure TxState where
  q : Virtqueue
  present : Bool
  buf : List UInt8 := []
  /-- the caller that spins for its completion, with the polls it has made -/
  waiting : Option (Nat × Nat) := none
  calls : Nat := 0
  /-- submitted and not completed: descriptor and transmit -/
  inFlight : List (Nat × Nat) := []
  completed : List Nat := []
  outcome : Nat → Option (Except Errno Unit) := fun _ => none
  /-- the buffer was written while the device had a descriptor of it -/
  scribbled : Bool := false

inductive TxAct where
  | transmit (frame : List UInt8)
  | spin (polls : Nat)
  | poll
  | timeout
  | complete (d n : Nat)

namespace TxState

def finish (s : TxState) (n : Nat) (r : Except Errno Unit) : TxState :=
  { s with waiting := none, outcome := update s.outcome n (some r) }

/-- `virtio_net_transmit` up to its first poll. -/
def transmit (s : TxState) (frame : List UInt8) : TxState :=
  let n := s.calls
  let s := { s with calls := n + 1 }
  if ¬ s.present then s.finish n (.error .enetdown)
  else if frame.length > ethFrameMax then s.finish n (.error .emsgsize)
  else
    let s := { s with
      buf := List.replicate virtioNetHdrLen 0 ++ frame
      scribbled := s.scribbled || !s.inFlight.isEmpty }
    match s.q.add with
    | none => s.finish n (.error .enobufs)
    | some (d, q) => { s with q := q, inFlight := (d, n) :: s.inFlight, waiting := some (n, 0) }

def step (s : TxState) : TxAct → Option TxState
  | .transmit frame => if s.waiting = none then some (s.transmit frame) else none
  | .spin polls =>
      s.waiting.bind fun (n, k) =>
        if s.q.lastUsed = s.q.usedIdx ∧ k + polls ≤ spinMax then
          some { s with waiting := some (n, k + polls) }
        else none
  | .poll =>
      s.waiting.bind fun (n, k) =>
        if k < spinMax then
          match s.q.get with
          | (none, q) => some { s with q := q, waiting := some (n, k + 1) }
          | (some d, q) => some ({ s with q := q.free d }.finish n (.ok ()))
        else none
  | .timeout =>
      s.waiting.bind fun (n, k) => if k = spinMax then some (s.finish n (.error .eio)) else none
  | .complete d n =>
      if (d, n) ∈ s.inFlight then
        some { s with
          q := s.q.use d
          inFlight := s.inFlight.erase (d, n)
          completed := n :: s.completed }
      else none

end TxState

def txSystem : System TxState TxAct where
  init s := ∃ qsize present, qsize ≠ 0 ∧ s = { q := .setup qsize, present }
  step := TxState.step

namespace Virtqueue

variable {next : Nat → Nat} {h n d : Nat} {q q' : Virtqueue}

theorem walk_update (hd : d ∉ walk next h n) (x : Nat) :
    walk (update next d x) h n = walk next h n := by
  induction n generalizing h with
  | zero => rfl
  | succ n ih =>
      rw [walk, mem_cons, not_or] at hd
      rw [walk, walk, update_of_ne (Ne.symm hd.1), ih hd.2]

theorem walk_range' (hnext : ∀ i, h ≤ i → i + 1 < h + n → next i = i + 1) :
    walk next h n = List.range' h n := by
  induction n generalizing h with
  | zero => rfl
  | succ n ih =>
      rw [walk, List.range'_succ]
      cases n with
      | zero => rfl
      | succ n =>
          rw [hnext h (Nat.le_refl h) (by omega)]
          rw [ih fun i hi hlt => hnext i (by omega) (by omega)]

theorem freeList_setup (qsize : UInt16) : (setup qsize).freeList = List.range qsize.toNat := by
  rw [range_eq_range']
  refine walk_range' fun i _ hlt => if_neg ?_
  simp only [setup] at hlt
  omega

theorem add_spec (hadd : q.add = some (d, q')) (hnodup : q.freeList.Nodup) :
    q.freeList = d :: q'.freeList ∧ q'.size = q.size ∧ q'.lastUsed = q.lastUsed ∧
      q'.usedIdx = q.usedIdx := by
  simp only [add] at hadd
  split at hadd
  · cases hadd
  · next hfree =>
      obtain ⟨rfl, rfl⟩ := hadd
      obtain ⟨n, hn⟩ := Nat.exists_eq_succ_of_ne_zero hfree
      refine ⟨?_, rfl, rfl, rfl⟩
      simp only [freeList, hn, walk, Nat.succ_eq_add_one, Nat.add_sub_cancel] at hnodup ⊢
      rw [walk_update (nodup_cons.mp hnodup).1]

theorem freeList_free (hd : d ∉ q.freeList) (hlt : d < q.size.toNat) :
    (q.free d).freeList = d :: q.freeList := by
  rw [free, if_neg (Nat.not_le.mpr hlt)]
  simp only [freeList, walk, update_self]
  rw [walk_update hd]

end Virtqueue

/-- A transmit starts only when every earlier frame has been completed and collected. -/
def Settled (s : TxState) : TxAct → Prop
  | .transmit _ => s.inFlight = [] ∧ s.q.lastUsed = s.q.usedIdx
  | _ => True

instance (s : TxState) : (a : TxAct) → Decidable (Settled s a)
  | .transmit _ => inferInstanceAs (Decidable (_ ∧ _))
  | .spin _ | .poll | .timeout | .complete _ _ => .isTrue trivial

variable {s s' : TxState} {l : List Nat} {d n k : Nat}

/-- The descriptors that are not free: none, or that of the last submission, which the
device has or has handed back. -/
inductive Owed (s : TxState) : List Nat → Prop where
  | none : s.waiting = none → s.inFlight = [] → s.q.lastUsed = s.q.usedIdx → Owed s []
  | flying (d n : Nat) : (∀ m k, s.waiting = some (m, k) → m = n) → s.inFlight = [(d, n)] →
      s.q.lastUsed = s.q.usedIdx → Owed s [d]
  | landed (d n : Nat) : (∀ m k, s.waiting = some (m, k) → m = n) → s.inFlight = [] →
      s.q.usedIdx = s.q.lastUsed + 1 → s.q.usedRing (s.q.lastUsed % s.q.size).toNat = d →
      n ∈ s.completed → Owed s [d]

def TxState.outstanding (s : TxState) : List Nat := s.inFlight.map Prod.fst ++ s.q.uncollected

theorem Owed.outstanding (h : Owed s l) : s.outstanding = l := by
  have hdiff (x : UInt16) : x + 1 - x = 1 := by rw [UInt16.add_comm, UInt16.add_sub_cancel]
  unfold TxState.outstanding Virtqueue.uncollected
  cases h with
  | none _ hf hu => rw [hf, hu, UInt16.sub_self]; rfl
  | flying d n _ hf hu => rw [hf, hu, UInt16.sub_self]; rfl
  | landed d n _ hf hu hd =>
      have hfirst : s.q.lastUsed + .ofNat 0 = s.q.lastUsed := UInt16.add_zero _
      rw [hf, hu, hdiff, ← hd]
      change [s.q.usedRing ((s.q.lastUsed + .ofNat 0) % s.q.size).toNat] = _
      rw [hfirst]

theorem Owed.eq_nil (h : Owed s l) (hf : s.inFlight = []) (hu : s.q.lastUsed = s.q.usedIdx) :
    l = [] := by
  cases h with
  | none => rfl
  | flying d n _ hf' => cases hf.symm.trans hf'
  | landed d n _ _ hu' =>
      rw [← hu] at hu'
      exact absurd hu' (by simp)

theorem Owed.wait {w : Option (Nat × Nat)} (o : Nat → Option (Except Errno Unit)) (h : Owed s l)
    (hw : s.waiting = some (n, k)) (hw' : ∀ m j, w = some (m, j) → m = n) :
    Owed { s with waiting := w, outcome := o } l := by
  cases h with
  | none hnone => cases hw.symm.trans hnone
  | flying d n' hn hf hu => exact .flying d n' (fun m j hm => hw' m j hm ▸ hn n k hw) hf hu
  | landed d n' hn hf hu hd hc =>
      exact .landed d n' (fun m j hm => hw' m j hm ▸ hn n k hw) hf hu hd hc

structure TxInv (s : TxState) : Prop where
  untouched : s.scribbled = false
  told : ∀ n, s.outcome n = some (.ok ()) → n ∈ s.completed
  owed : ∃ l, Owed s l ∧ (s.q.freeList ++ l).Perm (List.range s.q.size.toNat)

theorem told_error (h : ∀ m, s.outcome m = some (.ok ()) → m ∈ s.completed) (n : Nat) (e : Errno)
    (m : Nat) (hm : (s.finish n (.error e)).outcome m = some (.ok ())) : m ∈ s.completed := by
  by_cases hmn : m = n
  · subst hmn
    simp [TxState.finish] at hm
  · exact h m ((update_of_ne hmn _ _).symm.trans hm)

theorem TxInv.transmit (h : TxInv s) (hf : s.inFlight = [])
    (hu : s.q.lastUsed = s.q.usedIdx) (frame : List UInt8) : TxInv (s.transmit frame) := by
  obtain ⟨l, hl, hperm⟩ := h.owed
  obtain rfl := hl.eq_nil hf hu
  simp only [TxState.transmit]
  split
  · exact ⟨h.untouched, told_error h.told _ _, [], .none rfl hf hu, hperm⟩
  · split
    · exact ⟨h.untouched, told_error h.told _ _, [], .none rfl hf hu, hperm⟩
    · have hclean : (s.scribbled || !s.inFlight.isEmpty) = false := by rw [h.untouched, hf]; rfl
      split
      · exact ⟨hclean, told_error h.told _ _, [], .none rfl hf hu, hperm⟩
      · next d q hadd =>
          have hnodup := append_nil _ ▸ hperm.nodup_iff.mpr nodup_range
          obtain ⟨hfree, hsize, hlast, hidx⟩ := Virtqueue.add_spec hadd hnodup
          refine ⟨hclean, h.told, [d], .flying d s.calls ?_ ?_ ?_, ?_⟩
          · rintro m k ⟨⟩
            rfl
          · exact congrArg _ hf
          · exact hlast.trans (hu.trans hidx.symm)
          · rw [append_nil, hfree, ← hsize] at hperm
            exact (perm_append_singleton d q.freeList).trans hperm

theorem TxInv.poll (h : TxInv s) (hw : s.waiting = some (n, k)) (hk : k < spinMax)
    (hs : s.step .poll = some s') : TxInv s' := by
  obtain ⟨l, hl, hperm⟩ := h.owed
  simp only [TxState.step, hw, bind_some, if_pos hk, Virtqueue.get] at hs
  cases hl with
  | none hw' => cases hw.symm.trans hw'
  | flying d n' hn hf hu =>
      rw [if_pos hu] at hs
      cases hs
      refine ⟨h.untouched, h.told, [d], ?_, hperm⟩
      exact (Owed.flying d n' hn hf hu).wait _ hw (by rintro m j ⟨⟩; rfl)
  | landed d n' hn hf hu hd hc =>
      have hne : s.q.lastUsed ≠ s.q.usedIdx := by rw [hu]; simp
      have hlt : d < s.q.size.toNat :=
        mem_range.mp (hperm.subset (mem_append_right _ mem_cons_self))
      have hnodup := hperm.nodup_iff.mpr nodup_range
      have hout : d ∉ s.q.freeList := fun hm => disjoint_of_nodup_append hnodup hm mem_cons_self
      rw [if_neg hne, hd, if_neg (Nat.not_le.mpr hlt)] at hs
      cases hs
      have hfree :=
        Virtqueue.freeList_free (q := { s.q with lastUsed := s.q.lastUsed + 1 }) hout hlt
      have hsame : ∀ q : Virtqueue, (q.free d).size = q.size ∧ (q.free d).lastUsed = q.lastUsed ∧
          (q.free d).usedIdx = q.usedIdx := by
        intro q
        unfold Virtqueue.free
        split <;> exact ⟨rfl, rfl, rfl⟩
      obtain ⟨h1, h2, h3⟩ := hsame { s.q with lastUsed := s.q.lastUsed + 1 }
      refine ⟨h.untouched, ?_, [], .none rfl hf ?_, ?_⟩
      · intro m hm
        by_cases hmn : m = n
        · rw [hmn, hn n k hw]
          exact hc
        · exact h.told m ((update_of_ne hmn _ _).symm.trans hm)
      · exact h2.trans (hu.symm.trans h3.symm)
      · simp only [TxState.finish]
        rw [hfree, h1, append_nil]
        exact (perm_append_singleton d _).symm.trans hperm

theorem TxInv.step {a : TxAct} (h : TxInv s) (hok : Settled s a) (hs : s.step a = some s') :
    TxInv s' := by
  cases a with
  | transmit frame =>
      obtain ⟨-, ⟨⟩⟩ := ite_none_right_eq_some.mp hs
      exact h.transmit hok.1 hok.2 frame
  | spin polls =>
      obtain ⟨⟨n, k⟩, hw, hs⟩ := bind_eq_some_iff.mp hs
      obtain ⟨-, ⟨⟩⟩ := ite_none_right_eq_some.mp hs
      obtain ⟨l, hl, hperm⟩ := h.owed
      exact ⟨h.untouched, h.told, l, hl.wait _ hw (by rintro m j ⟨⟩; rfl), hperm⟩
  | poll =>
      obtain ⟨⟨n, k⟩, hw, hs'⟩ := bind_eq_some_iff.mp hs
      exact h.poll hw (ite_none_right_eq_some.mp hs').1 hs
  | timeout =>
      obtain ⟨⟨n, k⟩, hw, hs⟩ := bind_eq_some_iff.mp hs
      obtain ⟨-, ⟨⟩⟩ := ite_none_right_eq_some.mp hs
      obtain ⟨l, hl, hperm⟩ := h.owed
      exact ⟨h.untouched, told_error h.told n _, l, hl.wait _ hw nofun, hperm⟩
  | complete d n =>
      obtain ⟨hmem, ⟨⟩⟩ := ite_none_right_eq_some.mp hs
      obtain ⟨l, hl, hperm⟩ := h.owed
      refine ⟨h.untouched, fun m hm => mem_cons_of_mem n (h.told m hm), l, ?_, hperm⟩
      cases hl with
      | none _ hf => rw [hf] at hmem; cases hmem
      | landed _ _ _ hf => rw [hf] at hmem; cases hmem
      | flying d' n' hn hf hu =>
          rw [hf, mem_singleton] at hmem
          cases hmem
          refine .landed d n hn ?_ ?_ ?_ mem_cons_self
          · simp only [hf, erase_cons_head]
          · exact congrArg (· + 1) hu.symm
          · simp only [Virtqueue.use, hu, update_self]

theorem txInv_reach (hr : txSystem.Reach Settled s) : TxInv s := by
  refine hr.invariant TxInv ?_ fun s a s' h hok hs => h.step hok hs
  rintro s ⟨qsize, present, -, rfl⟩
  refine ⟨rfl, nofun, [], .none rfl rfl rfl, ?_⟩
  rw [append_nil, Virtqueue.freeList_setup]
  exact List.Perm.refl _

/-- The buffer is the driver's when it writes it, success is the completion of the frame
itself, and each descriptor is on the free chain once or outstanding. -/
theorem transmit_owns_buffer (hr : txSystem.Reach Settled s) :
    s.scribbled = false ∧ (∀ n, s.outcome n = some (.ok ()) → n ∈ s.completed) ∧
      (s.q.freeList ++ s.outstanding).Perm (List.range s.q.size.toNat) := by
  obtain ⟨hclean, htold, l, hl, hperm⟩ := txInv_reach hr
  exact ⟨hclean, htold, hl.outstanding ▸ hperm⟩

def txBoot : TxState := { q := .setup 2, present := true }

theorem transmit_owns_buffer_twice : ∃ s, txSystem.Reach Settled s ∧
    s.outcome 1 = some (.ok ()) ∧ s.scribbled = false :=
  System.Reach.exists_of_run_and (s := txBoot)
    [.transmit [1], .spin 9, .complete 0 0, .poll, .transmit [2], .complete 0 1, .poll]
    ⟨2, true, by decide, rfl⟩ (by decide +kernel) fun _ hr _ => (transmit_owns_buffer hr).1

/-- The first frame times out. The second is written over it, and its caller takes the
late completion of the first for its own. -/
theorem late_completion_taken : ∃ s, txSystem.Reach (fun _ _ => True) s ∧
    s.scribbled = true ∧ s.outcome 1 = some (.ok ()) ∧ 1 ∉ s.completed :=
  System.Reach.exists_of_run (s := txBoot)
    [.transmit [1], .spin spinMax, .timeout, .transmit [2], .complete 0 0, .poll]
    ⟨2, true, by decide, rfl⟩ (by decide +kernel)

end NeoKernel.Virtio
