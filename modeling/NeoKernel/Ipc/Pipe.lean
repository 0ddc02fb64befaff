import NeoKernel.Errno
import NeoKernel.Lib.RingBuf

/-!
# Pipes (kernel/ipc/pipe.c)

One call of `pipe_read_ep` or `pipe_write_ep` takes and drops the lock several times; a
function here is what it does from one taking of the lock to the next sleep or the return.
-/
namespace NeoKernel.Ipc
open Lib

def pipeCapacity : Nat := 4096

structure Pipe where
  ring : RingBuf UInt8
  readersOpen : Nat
  writersOpen : Nat
  refs : Nat

/-- How a pass ends: the call returns, or it sleeps after `n` bytes. -/
inductive Pass (α : Type) where
  | done (r : Except Errno α)
  | sleep (n : Nat)

inductive Side where
  | reader
  | writer
  deriving DecidableEq, Repr

namespace Side

def asReader : Side → Bool
  | .reader => true
  | .writer => false

def asWriter : Side → Bool
  | .reader => false
  | .writer => true

end Side

namespace Pipe

def buffered (p : Pipe) : List UInt8 := p.ring.contents pipeCapacity

def initEnds : Pipe := ⟨⟨fun _ => 0, 0, 0⟩, 1, 1, 2⟩

def dupEp (p : Pipe) (asReader asWriter : Bool) : Pipe :=
  { p with
    readersOpen := p.readersOpen + asReader.toNat
    writersOpen := p.writersOpen + asWriter.toNat
    refs := p.refs + 1 }

/-- `none` if it was the last reference: the pipe is freed. -/
def closeEp (p : Pipe) (asReader asWriter : Bool) : Option Pipe :=
  let p' : Pipe :=
    { p with
      readersOpen := p.readersOpen - asReader.toNat
      writersOpen := p.writersOpen - asWriter.toNat
      refs := p.refs - 1 }
  if p'.refs = 0 then none else some p'

/-- The length is taken as a `uint32_t` when the ring is read. -/
def readEp (p : Pipe) (nonblock : Bool) (len : Nat) : Pipe × Pass (List UInt8) :=
  if len = 0 then (p, .done (.ok []))
  else if 0 < p.ring.len then
    let n := min (len % 2 ^ 32) p.ring.len
    ({ p with ring := p.ring.pop pipeCapacity n }, .done (.ok (p.ring.front pipeCapacity n)))
  else if p.writersOpen = 0 then (p, .done (.ok []))
  else if nonblock then (p, .done (.error .eagain))
  else (p, .sleep 0)

/-- `written` bytes of the call are in the ring already, `rest` is left. -/
def writeEp (p : Pipe) (nonblock : Bool) (written : Nat) (rest : List UInt8) : Pipe × Pass Nat :=
  if rest = [] then (p, .done (.ok written))
  else if p.readersOpen = 0 then
    (p, .done (if written = 0 then .error .epipe else .ok written))
  else
    let n := min (rest.length % 2 ^ 32) (pipeCapacity - p.ring.len)
    let p' : Pipe := { p with ring := p.ring.push pipeCapacity (rest.take n) }
    if n = rest.length then (p', .done (.ok (written + n)))
    else if nonblock then
      (p', .done (if written + n = 0 then .error .eagain else .ok (written + n)))
    else (p', .sleep (written + n))

def opened (p : Pipe) : Side → Nat
  | .reader => p.readersOpen
  | .writer => p.writersOpen

structure SameEnds (p p' : Pipe) : Prop where
  opened : ∀ side, p'.opened side = p.opened side
  refs : p'.refs = p.refs

variable {p : Pipe} {nonblock : Bool}

theorem readEp_sameEnds (p : Pipe) (nonblock : Bool) (len : Nat) :
    SameEnds p (p.readEp nonblock len).1 := by
  unfold readEp
  constructor
  · intro side
    cases side <;> split_ifs <;> rfl
  · split_ifs <;> rfl

theorem writeEp_sameEnds (p : Pipe) (nonblock : Bool) (written : Nat) (rest : List UInt8) :
    SameEnds p (p.writeEp nonblock written rest).1 := by
  unfold writeEp
  constructor
  · intro side
    cases side <;> dsimp only <;> split_ifs <;> rfl
  · dsimp only
    split_ifs <;> rfl

theorem closeEp_of_more (side : Side) (h : p.refs - 1 ≠ 0) :
    ∃ p', p.closeEp side.asReader side.asWriter = some p' ∧ p'.refs = p.refs - 1 ∧
      ∀ side', p'.opened side' = p.opened side' - if side' = side then 1 else 0 := by
  refine ⟨_, if_neg h, rfl, fun side' => ?_⟩
  cases side <;> cases side' <;> rfl

theorem readEp_of_no_writers {len : Nat} (h : p.writersOpen = 0) (hlen : len ≠ 0) :
    (p.readEp nonblock len).2 = .done (.ok (p.buffered.take (len % 2 ^ 32))) := by
  rw [readEp, if_neg hlen]
  split
  · next hdata =>
      dsimp only
      rw [RingBuf.front_eq_take _ (Nat.min_le_right _ _), ← RingBuf.length_contents, buffered,
        ← List.take_eq_take_min]
  · next hempty =>
      have hnil : p.buffered = [] := by
        rw [← List.length_eq_zero_iff, buffered, RingBuf.length_contents]
        omega
      rw [hnil, List.take_nil]

theorem writeEp_of_no_readers {rest : List UInt8} (h : p.readersOpen = 0) (hrest : rest ≠ []) :
    p.writeEp nonblock 0 rest = (p, .done (.error .epipe)) := by
  rw [writeEp, if_neg hrest, if_pos h]
  rfl

end Pipe

end NeoKernel.Ipc
