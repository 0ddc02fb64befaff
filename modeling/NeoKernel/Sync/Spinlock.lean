import Mathlib.Data.Prod.Lex
import Mathlib.Logic.Relation
import Mathlib.Order.Fin.Basic
import Mathlib.Order.MinMax
import NeoKernel.Lib.Trans

/-!
# Spinlocks (kernel/sync/lock.c)

Each CPU keeps a stack of the ranks of its locks, and an acquire must be of a higher rank
than the top. A release pops the stack whichever lock it gives back.
-/
namespace NeoKernel.Spinlock
open Lib Function List Option

variable {κ ι : Type*}

def lockMaxHeld : Nat := 8

/-- One acquire: its locks, the last taken first, and the interrupt flag it returns. -/
structure Grip (ι : Type*) where
  locks : List ι
  flags : Bool
  deriving DecidableEq

/-- `taking` is an acquire under way and the locks that it has yet to take. -/
structure Cpu (ι : Type*) where
  irq : Bool
  heldRanks : List Nat
  held : List (Grip ι)
  taking : Option (Grip ι × List ι)

structure State (κ ι : Type*) where
  locked : ι → Bool
  cpu : κ → Cpu ι

inductive Act (κ ι : Type*) where
  | lock (c : κ) (l : ι)
  | lockPair (c : κ) (a b : ι)
  /-- The exchange of a spinning CPU finds the lock free. -/
  | acquire (c : κ)
  /-- `spin_unlock_irqrestore`, or `spin_unlock_ordered_pair` where the acquire was one. -/
  | unlock (c : κ) (g : Grip ι)

namespace Cpu

def lockRankOk (c : Cpu ι) (rank : Nat) : Bool := c.heldRanks.head?.all (· < rank)

/-- `none` where the source panics. -/
def begin (c : Cpu ι) (rank : Nat) (locks : List ι) : Option (Cpu ι) :=
  if c.taking.isNone ∧ c.lockRankOk rank ∧ c.heldRanks.length + locks.length ≤ lockMaxHeld then
    some { c with irq := false, taking := some (⟨[], c.irq⟩, locks) }
  else none

/-- The next lock is taken; after the last one the ranks are recorded. -/
def take (c : Cpu ι) (rank : ι → Nat) (g : Grip ι) (l : ι) (rest : List ι) : Cpu ι :=
  let g : Grip ι := { g with locks := l :: g.locks }
  if rest = [] then
    { c with heldRanks := g.locks.map rank ++ c.heldRanks, held := g :: c.held, taking := none }
  else { c with taking := some (g, rest) }

def release [DecidableEq ι] (c : Cpu ι) (g : Grip ι) : Cpu ι :=
  { c with
    heldRanks := c.heldRanks.drop g.locks.length
    held := c.held.erase g
    irq := c.irq || g.flags }

end Cpu

section Step

variable [DecidableEq κ] [LinearOrder ι] (rank : ι → Nat)

def lockStep (s : State κ ι) : Act κ ι → Option (State κ ι)
  | .lock c l => ((s.cpu c).begin (rank l) [l]).map fun x => { s with cpu := update s.cpu c x }
  | .lockPair c a b =>
      if a = b then none
      else ((s.cpu c).begin (rank (min a b)) [min a b, max a b]).map fun x =>
        { s with cpu := update s.cpu c x }
  | .acquire c => match (s.cpu c).taking with
      | some (g, l :: rest) =>
          if s.locked l then none
          else some ⟨update s.locked l true, update s.cpu c ((s.cpu c).take rank g l rest)⟩
      | _ => none
  | .unlock c g =>
      if (s.cpu c).taking.isNone ∧ g ∈ (s.cpu c).held ∧
          g.locks.length ≤ (s.cpu c).heldRanks.length then
        some ⟨fun l => s.locked l && l ∉ g.locks, update s.cpu c ((s.cpu c).release g)⟩
      else none

def lockSystem : System (State κ ι) (Act κ ι) where
  init s := s.locked = (fun _ => false) ∧ ∀ c, ∃ irq, s.cpu c = ⟨irq, [], [], none⟩
  step := lockStep rank

/-- A release gives back the last acquire, and a pair is of one rank. -/
def Nested (s : State κ ι) : Act κ ι → Prop
  | .lockPair _ a b => rank a = rank b
  | .unlock c g => (s.cpu c).held.head? = some g
  | _ => True

end Step

namespace Cpu

/-- The acquires, also the one under way, the last first. -/
def grips (c : Cpu ι) : List (Grip ι) := (c.taking.map Prod.fst).toList ++ c.held

def has (c : Cpu ι) : List ι := c.grips.flatMap Grip.locks

def todo (c : Cpu ι) : List ι := (c.taking.map Prod.snd).getD []

end Cpu

def State.WaitsFor (s : State κ ι) (c d : κ) : Prop := ∃ l ∈ (s.cpu c).todo.head?, l ∈ (s.cpu d).has

variable [LinearOrder ι] {rank : ι → Nat}

def key (rank : ι → Nat) (l : ι) : ℕ ×ₗ ι := toLex (rank l, l)

/-- The locks that the CPU has and that it is going to take ascend, and only its outermost
acquire can have found interrupts enabled. -/
structure Cpu.Ok (rank : ι → Nat) (c : Cpu ι) : Prop where
  ranks : c.heldRanks = (c.held.flatMap Grip.locks).map rank
  order : (c.todo.reverse ++ c.has).Pairwise fun x y => key rank y < key rank x
  flags : c.grips.Pairwise fun g _ => g.flags = false
  irq : c.grips ≠ [] → c.irq = false

namespace Cpu.Ok

variable {c c' : Cpu ι} {g : Grip ι}

theorem rank_lt {r : Nat} (h : c.Ok rank) (hnone : c.taking = none) (hr : c.lockRankOk r) {l : ι}
    (hl : l ∈ c.has) : rank l < r := by
  have hranks := h.ranks
  have horder := h.order
  unfold Cpu.has Cpu.grips Cpu.todo at *
  rw [hnone] at hl horder
  change l ∈ c.held.flatMap Grip.locks at hl
  change (c.held.flatMap Grip.locks).Pairwise _ at horder
  generalize c.held.flatMap Grip.locks = ls at *
  cases ls with
  | nil => cases hl
  | cons x ls =>
      rw [Cpu.lockRankOk, hranks] at hr
      have hx : rank x < r := by simpa using hr
      obtain rfl | hl := mem_cons.mp hl
      · exact hx
      · refine lt_of_le_of_lt ?_ hx
        exact Prod.Lex.monotone_fst_ofLex ((pairwise_cons.mp horder).1 l hl).le

theorem begin {r : Nat} {locks : List ι} (h : c.Ok rank) (hr : ∀ l ∈ locks, rank l = r)
    (ho : locks.Pairwise fun x y => key rank x < key rank y) (hs : c.begin r locks = some c') :
    c'.Ok rank := by
  rw [Cpu.begin, ite_none_right_eq_some] at hs
  obtain ⟨⟨hnone, hrank, -⟩, hs⟩ := hs
  obtain rfl := some.inj hs
  rw [isNone_iff_eq_none] at hnone
  have hgrips : c.grips = c.held := by rw [Cpu.grips, hnone]; rfl
  refine ⟨h.ranks, pairwise_append.mpr ⟨pairwise_reverse.mpr ho, ?_, ?_⟩, ?_, fun _ => rfl⟩
  · exact hgrips ▸ (pairwise_append.mp h.order).2.1
  · intro x hx y hy
    refine Prod.Lex.toLex_lt_toLex.mpr (.inl ?_)
    rw [hr x (mem_reverse.mp hx)]
    exact h.rank_lt hnone hrank (by rw [Cpu.has, hgrips]; exact hy)
  · refine pairwise_cons.mpr ⟨fun g hg => h.irq ?_, hgrips ▸ h.flags⟩
    rw [hgrips]
    exact ne_nil_of_mem hg

theorem take {l : ι} {rest : List ι} (h : c.Ok rank) (ht : c.taking = some (g, l :: rest)) :
    (c.take rank g l rest).Ok rank := by
  obtain ⟨irq, ranks, held, taking⟩ := c
  obtain rfl : taking = some (g, l :: rest) := ht
  have horder := h.order
  have hflags := pairwise_cons.mp h.flags
  have hirq : irq = false := h.irq nofun
  unfold Cpu.take
  split
  · next hrest =>
      subst hrest
      refine ⟨?_, horder, pairwise_cons.mpr hflags, fun _ => hirq⟩
      change _ = (l :: g.locks ++ held.flatMap Grip.locks).map rank
      rw [map_append, ← h.ranks]
  · refine ⟨h.ranks, ?_, pairwise_cons.mpr hflags, fun _ => hirq⟩
    change (rest.reverse ++ (l :: g.locks ++ held.flatMap Grip.locks)).Pairwise _
    rwa [cons_append, append_cons, ← reverse_cons]

theorem release (h : c.Ok rank) (hnone : c.taking = none) (hg : c.held.head? = some g) :
    (c.release g).Ok rank := by
  obtain ⟨irq, ranks, held, taking⟩ := c
  obtain rfl : taking = none := hnone
  obtain ⟨held, rfl⟩ : ∃ held', held = g :: held' := head?_eq_some_iff.mp hg
  have hflags := pairwise_cons.mp h.flags
  have herase : (g :: held).erase g = held := erase_cons_head ..
  unfold Cpu.release
  dsimp only
  rw [herase]
  refine ⟨?_, ?_, hflags.2, fun hne => ?_⟩
  · change ranks.drop _ = _
    rw [show ranks = _ from h.ranks, flatMap_cons, map_append, drop_left' (by simp)]
  · have hall : (g.locks ++ held.flatMap Grip.locks).Pairwise _ := h.order
    exact (pairwise_append.mp hall).2.1
  · obtain ⟨x, hx⟩ := exists_mem_of_ne_nil held hne
    rw [show irq = false from h.irq nofun, hflags.1 x hx]
    rfl

end Cpu.Ok

theorem Cpu.Ok.step [DecidableEq κ] {s s' : State κ ι} {a : Act κ ι}
    (h : ∀ c, (s.cpu c).Ok rank) (hok : Nested rank s a)
    (hs : lockStep rank s a = some s') (c : κ) :
    (s'.cpu c).Ok rank := by
  have hset (d : κ) (x : Cpu ι) (hx : x.Ok rank) : (update s.cpu d x c).Ok rank := by
    rw [update_apply]
    split
    · exact hx
    · exact h c
  cases a with
  | lock d l =>
      obtain ⟨x, hx, rfl⟩ := map_eq_some_iff.mp hs
      exact hset d x ((h d).begin (by simp) (pairwise_singleton _ _) hx)
  | lockPair d a b =>
      obtain ⟨hne, hs⟩ := ite_none_left_eq_some.mp hs
      obtain ⟨x, hx, rfl⟩ := map_eq_some_iff.mp hs
      have hranks : ∀ l ∈ [min a b, max a b], rank l = rank (min a b) := by
        have hab : rank a = rank b := hok
        rcases le_total a b with hle | hle <;> simp [hle, hab]
      refine hset d x ((h d).begin hranks (pairwise_pair.mpr ?_) hx)
      exact Prod.Lex.toLex_lt_toLex.mpr (.inr ⟨(hranks _ (by simp)).symm, min_lt_max.mpr hne⟩)
  | acquire d =>
      simp only [lockStep] at hs
      split at hs
      · next g l rest ht =>
          obtain ⟨-, hs⟩ := ite_none_left_eq_some.mp hs
          cases hs
          exact hset d _ ((h d).take ht)
      · cases hs
  | unlock d g =>
      obtain ⟨hg, hs⟩ := ite_none_right_eq_some.mp hs
      cases hs
      exact hset d _ ((h d).release (isNone_iff_eq_none.mp hg.1) hok)

theorem key_lt_of_waits {s : State κ ι} {c d : κ} (h : ∀ c, (s.cpu c).Ok rank)
    (hw : Relation.TransGen s.WaitsFor c d) {l l' : ι}
    (hl : l ∈ (s.cpu c).todo.head?) (hl' : l' ∈ (s.cpu d).todo.head?) :
    key rank l < key rank l' := by
  have hedge {e : κ} {l l' : ι} (hl : l ∈ (s.cpu e).has) (hl' : l' ∈ (s.cpu e).todo.head?) :
      key rank l < key rank l' :=
    (pairwise_append.mp (h e).order).2.2 l' (mem_reverse.mpr (mem_of_mem_head? hl')) l hl
  induction hw generalizing l' with
  | single hw =>
      obtain ⟨x, hx, hhas⟩ := hw
      exact hedge (mem_unique hx hl ▸ hhas) hl'
  | tail _ hw ih =>
      obtain ⟨x, hx, hhas⟩ := hw
      exact (ih hx).trans (hedge hhas hl')

/-- A CPU that has a lock has interrupts disabled, its rank stack is that of its locks, and the
CPUs that spin do not wait for each other in a circle. -/
theorem spinlocks_ordered [DecidableEq κ] {s : State κ ι}
    (hr : (lockSystem rank).Reach (Nested rank) s) :
    (∀ c, (s.cpu c).has ≠ [] → (s.cpu c).irq = false) ∧
      (∀ c, (s.cpu c).heldRanks = ((s.cpu c).held.flatMap Grip.locks).map rank) ∧
      ∀ c, ¬ Relation.TransGen s.WaitsFor c c := by
  have h : ∀ c, (s.cpu c).Ok rank := by
    refine hr.invariant _ (fun s hs c => ?_) fun _ _ _ h hok hs => Cpu.Ok.step h hok hs
    obtain ⟨irq, hc⟩ := hs.2 c
    rw [hc]
    exact ⟨rfl, .nil, .nil, fun hno => absurd rfl hno⟩
  refine ⟨fun c hc => (h c).irq fun hno => hc ?_, fun c => (h c).ranks, fun c hw => ?_⟩
  · rw [Cpu.has, hno]
    rfl
  · obtain ⟨l, hl⟩ : ∃ l, l ∈ (s.cpu c).todo.head? := by
      obtain ⟨d, ⟨l, hl, -⟩, -⟩ := (Relation.TransGen.head'_iff).mp hw
      exact ⟨l, hl⟩
    exact lt_irrefl _ (key_lt_of_waits h hw hl hl)

instance (s : State κ ι) [DecidableEq κ] : (a : Act κ ι) → Decidable (Nested rank s a)
  | .lockPair _ a b => inferInstanceAs (Decidable (rank a = rank b))
  | .unlock c g => inferInstanceAs (Decidable ((s.cpu c).held.head? = some g))
  | .lock .. | .acquire _ => isTrue trivial

def sockRank (l : Fin 3) : Nat := if l = 0 then 11 else 12

def boot : State (Fin 2) (Fin 3) := ⟨fun _ => false, fun _ => ⟨true, [], [], none⟩⟩

theorem boot_init : (lockSystem sockRank).init boot := ⟨rfl, fun _ => ⟨true, rfl⟩⟩

/-- `net_udp_deliver` as far as the release of the table, for a datagram to socket `x`. -/
def udpDeliver (c : Fin 2) (x : Fin 3) : List (Act (Fin 2) (Fin 3)) :=
  [.lock c 0, .acquire c, .lock c x, .acquire c, .unlock c ⟨[0], true⟩]

/-- Under the lock of the table one socket is locked and released, and then two are locked as an
ordered pair. -/
def pairInside : List (Act (Fin 2) (Fin 3)) :=
  [.lock 0 0, .acquire 0, .lock 0 1, .acquire 0, .unlock 0 ⟨[1], false⟩,
    .lockPair 0 2 1, .acquire 0, .acquire 0, .lock 1 2]

theorem spinlocks_ordered_pair_inside : ∃ s : State (Fin 2) (Fin 3),
    (lockSystem sockRank).Reach (Nested sockRank) s ∧
      ((s.cpu 0).has = [2, 1, 0] ∧ (s.cpu 1).todo = [2]) ∧
      (s.cpu 0).irq = false ∧ ¬ Relation.TransGen s.WaitsFor 1 1 :=
  System.Reach.exists_of_run_and pairInside boot_init (by decide +kernel) fun _ hr hs =>
    ⟨(spinlocks_ordered hr).1 0 (by rw [hs.1]; nofun), (spinlocks_ordered hr).2.2 1⟩

/-- The socket is still locked with interrupts enabled, on a stack that has the rank of the table;
two CPUs that then take each other's socket wait for ever. -/
theorem handover_enables_interrupts :
    (∃ s : State (Fin 2) (Fin 3), (lockSystem sockRank).Reach (fun _ _ => True) s ∧
      (s.cpu 0).has = [1] ∧ (s.cpu 0).irq = true ∧ (s.cpu 0).heldRanks = [11]) ∧
    ∃ s : State (Fin 2) (Fin 3), (lockSystem sockRank).Reach (fun _ _ => True) s ∧
      Relation.TransGen s.WaitsFor 0 0 := by
  refine ⟨System.Reach.exists_of_run (udpDeliver 0 1) boot_init (by decide +kernel), ?_⟩
  exact System.Reach.exists_of_run_imp (udpDeliver 0 1 ++ udpDeliver 1 2 ++ [.lock 0 2, .lock 1 1])
    boot_init (by decide +kernel) fun s _ (h : ((s.cpu 0).todo.head? = some 2 ∧ 2 ∈ (s.cpu 1).has) ∧
      (s.cpu 1).todo.head? = some 1 ∧ 1 ∈ (s.cpu 0).has) => .tail (.single ⟨2, h.1⟩) ⟨1, h.2⟩

end NeoKernel.Spinlock
