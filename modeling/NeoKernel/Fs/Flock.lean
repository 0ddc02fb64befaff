import Mathlib.Algebra.Group.Int.Defs
import Mathlib.Data.Fintype.Card
import Mathlib.Data.List.FinRange
import Mathlib.Logic.Function.Basic
import NeoKernel.Errno
import NeoKernel.Lib.Trans

/-!
# Record locks (kernel/fs/flock.c)

One table of lock ranges and one table of sleeping requests. Every function below runs
under `flock_lock`, so a call is one step, apart from `F_SETLKW`, which gives the lock up
while it sleeps: it is one step up to the sleep and one for each time the thread runs again.
-/
namespace NeoKernel.Flock
open Lib Function

def flockMax : Nat := 512

def flockWaiters : Nat := 64

instance : NeZero flockMax := ⟨by decide⟩

instance : NeZero flockWaiters := ⟨by decide⟩

/-- `END_OF_FILE`: the end of a range that goes to the end of the file and beyond. -/
def endOfFile : Nat := 2 ^ 64 - 1

inductive LockType where
  | rdlck
  | wrlck
  deriving DecidableEq, Repr

/-- `struct lock_rec`; the range is inclusive and `stop` is the field `end`. -/
structure LockRec where
  inUse : Bool
  vn : Nat
  pid : Nat
  type : LockType
  start : Nat
  stop : Nat
  deriving DecidableEq, Repr

/-- `struct waiter`: a process asleep in `F_SETLKW` and what it wants. -/
structure Waiter where
  inUse : Bool
  pid : Nat
  vn : Nat
  type : LockType
  start : Nat
  stop : Nat
  deriving DecidableEq, Repr

abbrev Slot := Fin flockMax

abbrev Recs := Slot → LockRec

abbrev WaitSlot := Fin flockWaiters

structure Locks where
  recs : Recs
  waiters : WaitSlot → Waiter

@[irreducible] def slots : List Slot := List.finRange flockMax

theorem mem_slots (i : Slot) : i ∈ slots := by
  unfold slots
  exact List.mem_finRange i

theorem nodup_slots : slots.Nodup := by
  unfold slots
  exact List.nodup_finRange flockMax

@[irreducible] def waitSlots : List WaitSlot := List.finRange flockWaiters

theorem mem_waitSlots (k : WaitSlot) : k ∈ waitSlots := by
  unfold waitSlots
  exact List.mem_finRange k

/-! ## The loops over the table -/

def overlaps (s1 e1 s2 e2 : Nat) : Bool := s1 ≤ e2 && s2 ≤ e1

namespace LockRec

def mine (r : LockRec) (vn pid : Nat) : Bool := r.inUse && r.vn == vn && r.pid == pid

def forbids (r : LockRec) (vn pid : Nat) (type : LockType) (s e : Nat) : Bool :=
  r.inUse && r.vn == vn && r.pid != pid && overlaps r.start r.stop s e &&
    (r.type == .wrlck || type == .wrlck)

def touch (a b : LockRec) : Bool :=
  overlaps a.start a.stop b.start b.stop ||
    (a.stop != endOfFile && a.stop + 1 == b.start) ||
    (b.stop != endOfFile && b.stop + 1 == a.start)

end LockRec

def conflictLocked (recs : Recs) (vn pid : Nat) (type : LockType) (s e : Nat) : Option Slot :=
  slots.find? fun i => (recs i).forbids vn pid type s e

/-- The free record `rec_alloc_locked` takes; its caller fills it in. -/
def recAllocLocked (recs : Recs) : Option Slot := slots.find? fun i => !(recs i).inUse

def freeRecsLocked (recs : Recs) : Nat := (slots.filter fun i => !(recs i).inUse).length

def splitsLocked (recs : Recs) (vn pid s e : Nat) : Nat :=
  (slots.filter fun i =>
    (recs i).mine vn pid && decide ((recs i).start < s) && decide ((recs i).stop > e)).length

/-- One turn of the loop in `carve_locked`; `none` is the null pointer it would write
through if the allocation of the tail failed. -/
def carveStep (vn pid s e : Nat) (recs : Recs) (i : Slot) : Option Recs :=
  let r := recs i
  if !r.mine vn pid || !overlaps r.start r.stop s e then some recs
  else if r.start ≥ s ∧ r.stop ≤ e then
    some (update recs i { r with inUse := false })
  else if r.start < s ∧ r.stop > e then
    (recAllocLocked recs).map fun k =>
      update (update recs k { r with start := e + 1 }) i
        { r with stop := s - 1 }
  else if r.start < s then some (update recs i { r with stop := s - 1 })
  else some (update recs i { r with start := e + 1 })

/-- `carve_locked`; the outer `Option` is that of `carveStep`. -/
def carveLocked (recs : Recs) (vn pid s e : Nat) : Option (Except Errno Recs) :=
  if splitsLocked recs vn pid s e > freeRecsLocked recs then some (.error .enolck)
  else (slots.foldlM (carveStep vn pid s e) recs).map .ok

/-- The record `merge_locked` joins with record `i`, if there is one. -/
def mergePartner (recs : Recs) (vn pid : Nat) (i : Slot) : Option Slot :=
  if (recs i).mine vn pid then
    slots.find? fun j =>
      decide (j ≠ i) && (recs j).mine vn pid && (recs j).type == (recs i).type &&
        (recs i).touch (recs j)
  else none

def mergePair (recs : Recs) (i j : Slot) : Recs :=
  let a := recs i
  let b := recs j
  update
    (update recs i
      { a with start := if b.start < a.start then b.start else a.start
               stop := if b.stop > a.stop then b.stop else a.stop })
    j { b with inUse := false }

/-- One turn of the outer loop of `merge_locked`; `none` leaves `changed` at 0. -/
def mergeOnce (recs : Recs) (vn pid : Nat) : Option Recs :=
  slots.findSome? fun i => (mergePartner recs vn pid i).map (mergePair recs i)

def mergeLoop (vn pid : Nat) : Nat → Recs → Recs
  | 0, recs => recs
  | n + 1, recs =>
      match mergeOnce recs vn pid with
      | none => recs
      | some recs' => mergeLoop vn pid n recs'

/-- `merge_locked`. Each turn frees a record, so the loop ends within `FLOCK_MAX` turns
(`mergeOnce_mergeLocked`). -/
def mergeLocked (recs : Recs) (vn pid : Nat) : Recs := mergeLoop vn pid flockMax recs

def waiterOf (st : Locks) (pid : Nat) : Option WaitSlot :=
  waitSlots.find? fun k => (st.waiters k).inUse && (st.waiters k).pid == pid

def waiterConflict (st : Locks) (w : Waiter) : Option Slot :=
  conflictLocked st.recs w.vn w.pid w.type w.start w.stop

def deadlockLoop (st : Locks) (pid : Nat) : Nat → Nat → Bool
  | 0, _ => false
  | hops + 1, holder =>
      if holder = pid then true
      else
        match waiterOf st holder with
        | none => false
        | some k =>
            match waiterConflict st (st.waiters k) with
            | none => false
            | some next => deadlockLoop st pid hops (st.recs next).pid

def deadlockLocked (st : Locks) (pid holder : Nat) : Bool :=
  deadlockLoop st pid flockWaiters holder

/-! ## The calls -/

def i64 (x : Int) : Int := Int.bmod x (2 ^ 64)

def u64 (x : Int) : Nat := (x % 2 ^ 64).toNat

inductive FlockType where
  | rdlck
  | wrlck
  | unlck
  | other
  deriving DecidableEq, Repr

structure KFlock where
  lType : FlockType
  lWhence : Int
  lStart : Int
  lLen : Int
  lPid : Nat
  deriving DecidableEq, Repr

/-- What `flock_fcntl` reads of the descriptor: the vnode if there is one, whether it is a
regular file, its size, the position and whether the descriptor is writable. -/
structure File where
  vn : Option Nat
  isFile : Bool
  size : Nat
  position : Nat
  writable : Bool
  deriving DecidableEq, Repr

/-- `range_of` once the base of `l_whence` is known. -/
def rangeFrom (fl : KFlock) (base : Int) : Except Errno (Nat × Nat) :=
  let start := i64 (base + i64 fl.lStart)
  let len := i64 fl.lLen
  let start' := if len < 0 then i64 (start + len) else start
  let len' := if len < 0 then i64 (-len) else len
  if start' < 0 then .error .einval
  else .ok (u64 start', if len' = 0 then endOfFile else u64 (start' + u64 len' - 1))

def rangeOf (f : File) (fl : KFlock) : Except Errno (Nat × Nat) :=
  if fl.lWhence = 0 then rangeFrom fl 0
  else if fl.lWhence = 1 then rangeFrom fl (i64 f.position)
  else if fl.lWhence = 2 then rangeFrom fl (i64 f.size)
  else .error .einval

inductive Cmd where
  | getlk
  | setlk
  | setlkw
  deriving DecidableEq, Repr

inductive Outcome where
  | done
  | failed (e : Errno)
  /-- `F_GETLK` with its answer. -/
  | answer (fl : KFlock)
  | sleeps (k : WaitSlot)
  deriving DecidableEq

structure Request where
  vn : Nat
  pid : Nat
  type : LockType
  start : Nat
  stop : Nat
  deriving DecidableEq, Repr

def Request.record (q : Request) : LockRec := ⟨true, q.vn, q.pid, q.type, q.start, q.stop⟩

def Request.waiter (q : Request) : Waiter := ⟨true, q.pid, q.vn, q.type, q.start, q.stop⟩

def Waiter.request (w : Waiter) : Request := ⟨w.vn, w.pid, w.type, w.start, w.stop⟩

/-- The end of `flock_fcntl`, once nothing conflicts. -/
def takeLocked (recs : Recs) (q : Request) : Option (Recs × Outcome) :=
  if freeRecsLocked recs < 1 then some (recs, .failed .enolck)
  else
    (carveLocked recs q.vn q.pid q.start q.stop).map fun
      | .error e => (recs, .failed e)
      | .ok recs =>
          match recAllocLocked recs with
          | none => (recs, .failed .enolck)
          | some i => (mergeLocked (update recs i q.record) q.vn q.pid, .done)

/-- `for (;;)` in `flock_fcntl` up to the next sleep. -/
def lockLocked (st : Locks) (wait : Bool) (q : Request) : Option (Locks × Outcome) :=
  match conflictLocked st.recs q.vn q.pid q.type q.start q.stop with
  | none => (takeLocked st.recs q).map fun r => ({ st with recs := r.1 }, r.2)
  | some c =>
      if !wait then some (st, .failed .eagain)
      else if deadlockLocked st q.pid (st.recs c).pid then some (st, .failed .edeadlk)
      else
        match waitSlots.find? fun k => !(st.waiters k).inUse with
        | none => some (st, .failed .enolck)
        | some k =>
            some ({ st with waiters := update st.waiters k q.waiter }, .sleeps k)

def unlockLocked (recs : Recs) (vn pid s e : Nat) : Option (Recs × Outcome) :=
  (carveLocked recs vn pid s e).map fun
    | .error er => (recs, .failed er)
    | .ok recs => (recs, .done)

def getLocked (st : Locks) (fl : KFlock) (conflict : Option Slot) : KFlock :=
  match conflict with
  | none => { fl with lType := .unlck }
  | some c =>
      let r := st.recs c
      { lType := match r.type with
          | .rdlck => .rdlck
          | .wrlck => .wrlck
        lWhence := 0
        lStart := i64 r.start
        lLen := if r.stop = endOfFile then 0 else i64 (r.stop - r.start + 1 : Int)
        lPid := r.pid }

def FlockType.lock? : FlockType → Option (Option LockType)
  | .rdlck => some (some .rdlck)
  | .wrlck => some (some .wrlck)
  | .unlck => some none
  | .other => none

/-- The checks on the arguments that `flock_fcntl` makes before it takes `flock_lock`: the
file, the type of lock and the range. -/
def flockArgs (f : File) (cmd : Cmd) (fl : KFlock) :
    Except Errno (Nat × Option LockType × Nat × Nat) :=
  match f.vn, f.isFile, fl.lType.lock? with
  | some vn, true, some type =>
      if cmd ≠ .getlk ∧ type = some .wrlck ∧ !f.writable then .error .ebadf
      else (rangeOf f fl).map fun (s, e) => (vn, type, s, e)
  | _, _, _ => .error .einval

def flockFcntl (st : Locks) (pid : Nat) (f : File) (cmd : Cmd) (fl : KFlock) :
    Option (Locks × Outcome) :=
  match flockArgs f cmd fl with
  | .error e => some (st, .failed e)
  | .ok (vn, type, s, e) =>
      match cmd, type with
      | .getlk, none => some (st, .answer (getLocked st fl none))
      | .getlk, some t => some (st, .answer (getLocked st fl (conflictLocked st.recs vn pid t s e)))
      | _, none => (unlockLocked st.recs vn pid s e).map fun r => ({ st with recs := r.1 }, r.2)
      | .setlk, some t => lockLocked st false ⟨vn, pid, t, s, e⟩
      | .setlkw, some t => lockLocked st true ⟨vn, pid, t, s, e⟩

def clearWaiter (st : Locks) (k : WaitSlot) : Locks :=
  { st with waiters := update st.waiters k { st.waiters k with inUse := false } }

/-- The thread asleep as waiter `k` runs again: woken, or interrupted by a signal. -/
def flockResume (st : Locks) (k : WaitSlot) (interrupted : Bool) : Option (Locks × Outcome) :=
  if !(st.waiters k).inUse then none
  else if interrupted then some (clearWaiter st k, .failed .eintr)
  else lockLocked (clearWaiter st k) true (st.waiters k).request

def flockReleaseVnode (st : Locks) (vn pid : Nat) : Locks :=
  { st with recs := fun i =>
      if (st.recs i).mine vn pid then { st.recs i with inUse := false } else st.recs i }

def flockReleasePid (st : Locks) (pid : Nat) : Locks :=
  { st with recs := fun i =>
      if (st.recs i).inUse && (st.recs i).pid == pid then { st.recs i with inUse := false }
      else st.recs i }

/-! ## Runs -/

inductive FlockAct where
  | fcntl (pid : Nat) (f : File) (cmd : Cmd) (fl : KFlock)
  | resume (k : WaitSlot) (interrupted : Bool)
  | close (pid vn : Nat)
  | exit (pid : Nat)
  deriving DecidableEq

def flockStep (st : Locks) : FlockAct → Option (Locks × Outcome)
  | .fcntl pid f cmd fl => flockFcntl st pid f cmd fl
  | .resume k interrupted => flockResume st k interrupted
  | .close pid vn => some (flockReleaseVnode st vn pid, .done)
  | .exit pid => some (flockReleasePid st pid, .done)

def bootLocks : Locks where
  recs _ := ⟨false, 0, 0, .rdlck, 0, 0⟩
  waiters _ := ⟨false, 0, 0, .rdlck, 0, 0⟩

def flockSystem : System Locks FlockAct where
  init st := st = bootLocks
  step st a := (flockStep st a).map Prod.fst

end NeoKernel.Flock
