import Mathlib.Algebra.BigOperators.Group.List.Basic
import Mathlib.Data.BitVec
import NeoKernel.Lib.Trans

/-!
# `eventfd`: a counter that writes fill and reads empty

A call tests the counter under `e->lock`. One that finds nothing to take, or no room for what it
adds, returns `-EAGAIN` or sleeps, and tests again when it is woken.
-/
namespace NeoKernel.Evfd
open Lib Function

structure Eventfd where
  count : BitVec 64
  semaphore : Bool

def eventfdMax : BitVec 64 := 0xfffffffffffffffe#64

def eventfdAlloc (initval : BitVec 32) (semaphore : Bool) : Eventfd where
  count := initval.setWidth 64
  semaphore := semaphore

inductive Call where
  | read
  | write (v : BitVec 64)
  deriving DecidableEq

inductive Ret where
  | took (v : BitVec 64)
  | added (v : BitVec 64)
  | inval
  | again
  | intr
  deriving DecidableEq

def Call.invalid (len : Nat) : Call → Bool
  | .read => len < 8
  | .write v => len < 8 || v == 0xffffffffffffffff#64

section Pass

variable (e : Eventfd)

/-- A pass of the loop, and what follows the test if it passes. -/
def eventfdDoRead : Option (Ret × Eventfd) :=
  if 0 < e.count then
    if e.semaphore then some (.took 1, { e with count := e.count - 1 })
    else some (.took e.count, { e with count := 0 })
  else none

def eventfdDoWrite (v : BitVec 64) : Option (Ret × Eventfd) :=
  if e.count + v ≤ eventfdMax then some (.added v, { e with count := e.count + v }) else none

def doCall : Call → Option (Ret × Eventfd)
  | .read => eventfdDoRead e
  | .write v => eventfdDoWrite e v

end Pass

inductive Pc where
  | out
  | testing (c : Call) (nonblock : Bool)
  | asleep (c : Call)
  deriving DecidableEq

def Pc.adds : Pc → Nat
  | .testing (.write v) _ => v.toNat
  | _ => 0

structure Shared (τ : Type*) where
  eventfd : Eventfd
  pc : τ → Pc
  rets : List Ret

inductive Act (τ : Type*) where
  | call (t : τ) (c : Call) (nonblock : Bool) (len : Nat)
  | test (t : τ)
  -- the other side's `waitq_wake_all`, which may come late or find nothing changed
  | wake (t : τ)
  | interrupt (t : τ)

section Step

variable {τ : Type*} [DecidableEq τ]

def Shared.ret (s : Shared τ) (t : τ) (r : Ret) : Shared τ :=
  { s with pc := update s.pc t .out, rets := r :: s.rets }

def step (s : Shared τ) : Act τ → Option (Shared τ)
  | .call t c nonblock len =>
      if s.pc t = .out then
        if c.invalid len then some (s.ret t .inval)
        else some { s with pc := update s.pc t (.testing c nonblock) }
      else none
  | .test t =>
      match s.pc t with
      | .testing c nonblock =>
          match doCall s.eventfd c with
          | some (r, e) => some ({ s with eventfd := e }.ret t r)
          | none =>
              if nonblock then some (s.ret t .again)
              else some { s with pc := update s.pc t (.asleep c) }
      | _ => none
  | .wake t =>
      match s.pc t with
      | .asleep c => some { s with pc := update s.pc t (.testing c false) }
      | _ => none
  | .interrupt t =>
      match s.pc t with
      | .asleep _ => some (s.ret t .intr)
      | _ => none

def eventfdSystem (τ : Type*) [DecidableEq τ] (initval : BitVec 32) (semaphore : Bool) :
    System (Shared τ) (Act τ) where
  init s := s = ⟨eventfdAlloc initval semaphore, fun _ => .out, []⟩
  step := step

def Sums64 (s : Shared τ) : Act τ → Prop
  | .test t => s.eventfd.count.toNat + (s.pc t).adds < 2 ^ 64
  | _ => True

instance (s : Shared τ) : (a : Act τ) → Decidable (Sums64 s a)
  | .test _ => inferInstanceAs (Decidable (_ < _))
  | .call .. | .wake _ | .interrupt _ => inferInstanceAs (Decidable True)

end Step

def Ret.taken : Ret → Nat
  | .took v => v.toNat
  | _ => 0

def Ret.accepted : Ret → Nat
  | .added v => v.toNat
  | _ => 0

/-- The counter is what it was at first, with what was added and without what was taken. -/
structure Exact (initval : Nat) (semaphore : Bool) (e : Eventfd) (rets : List Ret) : Prop where
  count : e.count.toNat + (rets.map Ret.taken).sum = initval + (rets.map Ret.accepted).sum
  bound : e.count.toNat ≤ 2 ^ 64 - 2
  mode : e.semaphore = semaphore
  single : semaphore = true → ∀ v, .took v ∈ rets → v = 1

section Exact

variable {initval : Nat} {semaphore : Bool} {e e' : Eventfd} {rets : List Ret} {r : Ret} {c : Call}

theorem Exact.cons (h : Exact initval semaphore e rets)
    (hcount : e'.count.toNat + r.taken = e.count.toNat + r.accepted)
    (hbound : e'.count.toNat ≤ 2 ^ 64 - 2) (hmode : e'.semaphore = e.semaphore)
    (hsingle : semaphore = true → ∀ v, r = .took v → v = 1) :
    Exact initval semaphore e' (r :: rets) := by
  refine ⟨?_, hbound, hmode.trans h.mode, fun hsem v hv => ?_⟩
  · have hexact := h.count
    simp only [List.map_cons, List.sum_cons]
    omega
  · rcases List.mem_cons.1 hv with hr | hv
    · exact hsingle hsem v hr.symm
    · exact h.single hsem v hv

theorem Exact.doCall (h : Exact initval semaphore e rets)
    (hsum : ∀ v, c = .write v → e.count.toNat + v.toNat < 2 ^ 64)
    (hs : Evfd.doCall e c = some (r, e')) : Exact initval semaphore e' (r :: rets) := by
  have hbound := h.bound
  revert hs
  fun_cases Evfd.doCall e c
  · fun_cases eventfdDoRead e <;> rintro ⟨⟩
    · next hpos hsem =>
        have hsub : (e.count - 1#64).toNat + 1 = e.count.toNat := by bv_omega
        refine h.cons hsub ?_ rfl fun _ v hv => (Ret.took.inj hv).symm
        change (e.count - 1#64).toNat ≤ _
        omega
    · next hpos hsem =>
        refine h.cons (Nat.zero_add _) (Nat.zero_le _) rfl fun hmode => ?_
        exact absurd (h.mode.trans hmode) hsem
  · next v =>
      have hlt := hsum v rfl
      fun_cases eventfdDoWrite e v <;> rintro ⟨⟩
      next hle =>
        have hadd : (e.count + v).toNat = e.count.toNat + v.toNat := BitVec.toNat_add_of_lt hlt
        exact h.cons hadd (BitVec.le_def.1 hle) rfl nofun

variable {τ : Type*} [DecidableEq τ] {s s' : Shared τ} {a : Act τ}

theorem Exact.step (h : Exact initval semaphore s.eventfd s.rets) (hok : Sums64 s a)
    (hs : Evfd.step s a = some s') : Exact initval semaphore s'.eventfd s'.rets := by
  revert hs
  fun_cases Evfd.step s a <;> rintro ⟨⟩
  · exact h.cons rfl h.bound rfl nofun
  · exact h
  · next c nonblock hpc r e hcall =>
      refine h.doCall (fun v hv => ?_) hcall
      simpa only [Sums64, hpc, hv, Pc.adds] using hok
  · exact h.cons rfl h.bound rfl nofun
  · exact h
  · exact h
  · exact h.cons rfl h.bound rfl nofun

end Exact

theorem Exact.alloc {initval : BitVec 32} {semaphore : Bool} :
    Exact initval.toNat semaphore (eventfdAlloc initval semaphore) [] := by
  have hwidth : (initval.setWidth 64).toNat = initval.toNat :=
    BitVec.toNat_setWidth_of_le (by decide)
  refine ⟨congrArg (· + 0) hwidth, Nat.le_trans (Nat.le_of_eq hwidth) ?_, rfl, nofun⟩
  exact Nat.le_trans (Nat.le_of_lt initval.isLt) (by decide)

/-- In every run in which no writer tests the counter with a value that would take it past 64
bits, the counter is its first value, with all that was accepted and without all that was
returned; it stays below its ceiling; and a semaphore's reads return 1 each. -/
theorem eventfd_counts_exactly {τ : Type*} [DecidableEq τ] {initval : BitVec 32}
    {semaphore : Bool} {s : Shared τ} (hr : (eventfdSystem τ initval semaphore).Reach Sums64 s) :
    s.eventfd.count.toNat + (s.rets.map Ret.taken).sum =
        initval.toNat + (s.rets.map Ret.accepted).sum ∧
      s.eventfd.count.toNat ≤ 2 ^ 64 - 2 ∧
      (semaphore = true → ∀ v, .took v ∈ s.rets → v = 1) := by
  have h : Exact initval.toNat semaphore s.eventfd s.rets :=
    hr.invariant (fun s => Exact initval.toNat semaphore s.eventfd s.rets)
      (fun _ h => h ▸ Exact.alloc) fun _ _ _ h hok hs => h.step hok hs
  exact ⟨h.count, h.bound, h.single⟩

theorem eventfd_counts_exactly_full : ∃ s : Shared (Fin 2),
    s.rets = [.added 1, .took 1, .added (2 ^ 64 - 4)] ∧
      s.eventfd.count.toNat + (s.rets.map Ret.taken).sum = 2 + (s.rets.map Ret.accepted).sum := by
  obtain ⟨s, hr, hrets⟩ : ∃ s : Shared (Fin 2), (eventfdSystem (Fin 2) 2 true).Reach Sums64 s ∧
      s.rets = [.added 1, .took 1, .added (2 ^ 64 - 4)] :=
    System.Reach.exists_of_run [.call 0 (.write (2 ^ 64 - 4)) false 8, .test 0,
      .call 0 (.write 1) false 8, .test 0, .call 1 .read false 8, .test 1, .wake 0, .test 0] rfl
      (by decide +kernel)
  exact ⟨s, hrets, (eventfd_counts_exactly hr).1⟩

/-- The sum of `e->count + v` wraps, so a writer that should have waited is let in. -/
theorem overflowing_write_accepted : ∃ s : Shared (Fin 1),
    (eventfdSystem (Fin 1) 5 false).Reach (fun _ _ => True) s ∧
      s.rets = [.added (2 ^ 64 - 2)] ∧ s.eventfd.count = 3 :=
  System.Reach.exists_of_run [.call 0 (.write (2 ^ 64 - 2)) false 8, .test 0] rfl
    (by decide +kernel)

end NeoKernel.Evfd
