import Mathlib.Data.Fintype.Basic
import Mathlib.Data.Fintype.Prod
import NeoKernel.Lib.Calendar
import NeoKernel.Lib.Trans

/-!
# The timer wheel (kernel/time/wheel.c)

Four levels of 64 buckets, with granularities of 1, 8, 64 and 512 jiffies. Every function runs
under `wheel_lock`, so each is one step. A bucket is the list of its timers; `x & ~(g - 1)` for
a power of two `g` is `x / g * g`.
-/
namespace NeoKernel.Wheel
open Lib Function

def lvlSize : Nat := 64

/-- `1 << LVL_SHIFT(l)`. -/
def gran (l : Fin 4) : Nat := 8 ^ l.val

def levelFor (delta : Nat) : Fin 4 :=
  if delta < lvlSize * gran 0 then 0
  else if delta < lvlSize * gran 1 then 1
  else if delta < lvlSize * gran 2 then 2
  else 3

/-- A list head: a bucket, or the list of timers whose jiffy has come. -/
inductive Head where
  | bucket (l : Fin 4) (i : Fin 64)
  | due
  deriving DecidableEq

structure WheelBase (τ : Type*) where
  list : Head → List τ
  clk : Nat
  expires : τ → Nat

def uint64Max : Nat := 2 ^ 64 - 1

def indexOf (l : Fin 4) (slot : Nat) : Fin 64 := Fin.ofNat 64 (slot / gran l)

def slotFor (clk expires : Nat) : Fin 4 × Nat :=
  let exp := if expires < clk then clk else expires
  let l := levelFor (exp - clk)
  let g := gran l
  let slotTime := (exp + g - 1) % 2 ^ 64 / g * g
  let max := clk + (lvlSize - 1) * g
  (l, if max < slotTime then max / g * g else slotTime)

variable {τ : Type*} [DecidableEq τ]

namespace WheelBase

def link (b : WheelBase τ) (head : Head) (t : τ) : WheelBase τ :=
  { b with list := update b.list head (t :: b.list head) }

def enqueue (b : WheelBase τ) (t : τ) : WheelBase τ :=
  let slot := slotFor b.clk (b.expires t)
  b.link (.bucket slot.1 (indexOf slot.1 slot.2)) t

def detach (b : WheelBase τ) (t : τ) : WheelBase τ :=
  { b with list := fun head => (b.list head).erase t }

def pending (b : WheelBase τ) (t : τ) : Bool :=
  decide (t ∈ b.list .due) || decide (∃ p : Fin 4 × Fin 64, t ∈ b.list (.bucket p.1 p.2))

def slotTime (b : WheelBase τ) (l : Fin 4) (i : Fin 64) : Nat :=
  let base := roundUp (gran l) b.clk
  base + (i - indexOf l base).val * gran l

def nextExpiry (b : WheelBase τ) : Nat :=
  if b.list .due ≠ [] then b.clk
  else
    (List.finRange 4).foldl
      (fun best l => (List.finRange 64).foldl
        (fun best i =>
          if b.list (.bucket l i) = [] then best
          else if b.slotTime l i < best then b.slotTime l i else best)
        best)
      uint64Max

def collectOne (b : WheelBase τ) (t : τ) : WheelBase τ :=
  if b.expires t ≤ b.clk then b.link .due t else b.enqueue t

def collectLevel (b : WheelBase τ) (l : Fin 4) : WheelBase τ :=
  if b.clk % gran l ≠ 0 then b
  else
    let head := Head.bucket l (indexOf l b.clk)
    (b.list head).foldl collectOne { b with list := update b.list head [] }

def collectJiffy (b : WheelBase τ) : WheelBase τ :=
  let b := (((b.collectLevel 3).collectLevel 2).collectLevel 1).collectLevel 0
  { b with clk := b.clk + 1 }

def collectExpired (b : WheelBase τ) (now : Nat) : WheelBase τ := collectJiffy^[now + 1 - b.clk] b

def forward (b : WheelBase τ) (now : Nat) : WheelBase τ :=
  if now < b.clk then b
  else if b.nextExpiry = uint64Max then { b with clk := now }
  else b.collectExpired now

/-- What `mod_timer` and `timer_reduce` have in common; the clock has been forwarded. -/
def file (b : WheelBase τ) (t : τ) (expires : Nat) : WheelBase τ :=
  { b with expires := update b.expires t expires }.enqueue t

end WheelBase

/-- A timer as it was queued: its expiry and the wheel's clock then. -/
structure Arming where
  expires : Nat
  clk : Nat
  deriving DecidableEq

namespace Arming

/-- The granularity of the level it was first queued on. -/
def granularity (a : Arming) : Nat := gran (levelFor (max a.expires a.clk - a.clk))

end Arming

inductive Event where
  | armed (a : Arming)
  | cancelled
  | fired (now : Nat)
  deriving DecidableEq

/-- The wheel, the time, and for each timer what has happened to it, latest event first. -/
structure Timers (τ : Type*) where
  base : WheelBase τ
  now : Nat
  history : τ → List Event

inductive TimerAct (τ : Type*) where
  | modTimer (t : τ) (expires : Nat)
  | timerReduce (t : τ) (expires : Nat)
  | delTimer (t : τ)
  | advance (d : Nat)
  /-- A pass of `ktimerd` brings the wheel up to date. -/
  | collect
  /-- `ktimerd` takes the first due timer and runs it. -/
  | fire

namespace Timers

def log (s : Timers τ) (t : τ) (e : Event) : Timers τ :=
  { s with history := update s.history t (e :: s.history t) }

def cancel (s : Timers τ) (t : τ) : Timers τ :=
  if s.base.pending t then { s with base := s.base.detach t }.log t .cancelled else s

def arm (s : Timers τ) (t : τ) (expires : Nat) : Timers τ :=
  let s := s.cancel t
  let base := s.base.forward s.now
  { s with base := base.file t expires }.log t (.armed ⟨expires, base.clk⟩)

end Timers

/-- The largest value of `jiffies()`: nanoseconds in 64 bits, a jiffy of 1 ms. -/
def maxJiffies : Nat := uint64Max / 1000000

def timerStep (s : Timers τ) : TimerAct τ → Option (Timers τ)
  | .modTimer t expires => if expires ≤ uint64Max then some (s.arm t expires) else none
  | .timerReduce t expires =>
      if expires ≤ uint64Max then
        if s.base.pending t ∧ s.base.expires t ≤ expires then some s else some (s.arm t expires)
      else none
  | .delTimer t => some (s.cancel t)
  | .advance d => if s.now + d ≤ maxJiffies then some { s with now := s.now + d } else none
  | .collect => some { s with base := s.base.collectExpired s.now }
  | .fire =>
      match s.base.list .due with
      | [] => none
      | t :: _ => some ({ s with base := s.base.detach t }.log t (.fired s.now))

def fires : Nat → Timers τ → Option (Timers τ)
  | 0, s => some s
  | n + 1, s => (timerStep s .fire).bind (fires n)

def timerSystem : System (Timers τ) (TimerAct τ) where
  init s := (∀ head, s.base.list head = []) ∧ s.base.clk = s.now ∧ s.now ≤ maxJiffies ∧
    ∀ t, s.history t = []
  step := timerStep

end NeoKernel.Wheel
