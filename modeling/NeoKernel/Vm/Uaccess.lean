import NeoKernel.Vm.Exec

/-!
# Copies between the kernel and user memory (kernel/mm/uaccess.c, kernel/syscall/sys_file.c)

An access in ring 0 to a page that is present is made whatever the entry grants to user code:
CR0.WP and CR4.SMAP are clear. One to an absent page is a page fault, which the handler serves
like one of the process or sends to the fixup of the copy; one to an address that is not
canonical has no fixup, and the machine stops. `answers` is what the page faults to come will
meet. `touched` is not in the program: the addresses at which a byte was read or written.
-/
namespace NeoKernel.Vm
open Lib Function

def kernelHalf : Nat := 2 ^ 64 - userAddrLimit

def stageMax : Nat := 4096

structure FaultAnswer where
  alloc : Option Frame
  tables : Bool
  /-- the frames that `vma_reclaim` gives back, none if there are none -/
  reclaim : Option (List Frame)
  /-- memory for the second attempt, after `vma_reclaim` -/
  allocAgain : Option Frame
  tablesAgain : Bool
  /-- the page as the file has it, none if it cannot be read -/
  page : Option (Nat → Byte)

def FaultResult.isHandled : FaultResult → Bool
  | .handled _ _ => true
  | _ => false

namespace Machine

/-- The frame for a page that is read from a file, after `vma_reclaim` if need be. -/
def ioFrame (device : Frame → Bool) (m : Machine) (x : FaultAnswer) :
    Option (Machine × Option Frame) :=
  match x.alloc, x.reclaim with
  | none, some fs => (releaseAll device fs m).map fun m => (m, x.allocAgain)
  | f, _ => some (m, f)

/-- `vma_fault`, and whether it has handled the fault. -/
def vmaFault (device : Frame → Bool) (m : Machine) (p : Pid) (P : Process) (addr : Nat)
    (write : Bool) (x : FaultAnswer) : Option (Machine × Bool) :=
  (m.fault device p P addr write x.alloc x.tables).bind fun m₁ =>
    match vmaFaultLocked P addr write x.alloc x.tables with
    | .sigsegv => some (m₁, false)
    | .handled _ _ => some (m₁, true)
    | .nomem =>
        match x.reclaim with
        | none => some (m₁, false)
        | some fs =>
            (releaseAll device fs m₁).bind fun m₂ =>
              (m₂.fault device p P addr write x.allocAgain x.tablesAgain).map fun m₃ =>
                (m₃, (vmaFaultLocked P addr write x.allocAgain x.tablesAgain).isHandled)
    | .needsIo io =>
        (m₁.ioFrame device x).bind fun r =>
          match r.2, x.page with
          -- handled even if the page was not installed
          | some f, some content =>
              (r.1.install device m.ios.length p io P f content x.tables).map fun m₃ => (m₃, true)
          | _, _ => some ({ r.1 with ios := r.1.ios.eraseIdx m.ios.length }, false)

/-- Page faults at `va` until the page is there, or until one is not handled. -/
def demand (device : Frame → Bool) (p : Pid) (va : Nat) (write : Bool) (xs : List FaultAnswer)
    (m : Machine) : Option (Machine × Option Pte × List FaultAnswer) :=
  (m.proc p).bind fun P =>
    match (entry P va).filter (·.present) with
    | some e => some (m, some e, xs)
    | none =>
        match xs with
        | [] => none
        | x :: xs =>
            (m.vmaFault device p P va write x).bind fun r =>
              if r.2 then demand device p va write xs r.1 else some (r.1, none, xs)

def poke (m : Machine) (p : Pid) (e : Pte) (va : Nat) (b : Byte) : Machine :=
  { m with
    mem := update m.mem e.frame (update (m.mem e.frame) (va % pageSize) b)
    last := update m.last p (update (m.last p) va b) }

end Machine

/-- What ring 0 sees while it works for a process. -/
structure Ring0 where
  m : Machine
  /-- the kernel's half, none where nothing is mapped -/
  kernel : Nat → Option Byte
  answers : List FaultAnswer
  touched : List Nat

/-- Why an access was not made: a page fault that is not handled, or an address that is not
canonical. -/
inductive Trap where
  | fixup
  | halt
  deriving DecidableEq, Repr

/-- One `movb` of a copy, a store if there is a byte. -/
def Ring0.access (device : Frame → Bool) (p : Pid) (va : Nat) (store : Option Byte) (s : Ring0) :
    Option (Ring0 × Except Trap Byte) :=
  if va < userAddrLimit then
    (s.m.demand device p va store.isSome s.answers).map fun r =>
      match r.2.1 with
      | none => ({ s with m := r.1, answers := r.2.2 }, .error .fixup)
      | some e =>
          ({ s with
              m := store.elim r.1 (r.1.poke p e va)
              answers := r.2.2
              touched := va :: s.touched },
            .ok (store.getD (r.1.mem e.frame (va % pageSize))))
  else if va < kernelHalf then some (s, .error .halt)
  else
    match s.kernel va with
    -- no mapping of the process is there
    | none => some (s, .error .fixup)
    | some b =>
        some ({ s with
            kernel := store.elim s.kernel fun b => update s.kernel va (some b)
            touched := va :: s.touched },
          .ok (store.getD b))

structure Copied where
  s : Ring0
  bytes : List Byte
  missed : Nat
  halted : Bool

/-- The loop of `copy_to_user` and `copy_from_user`. -/
def userCopy (device : Frame → Bool) (p : Pid) : Nat → List (Option Byte) → Ring0 → Option Copied
  | _, [], s => some ⟨s, [], 0, false⟩
  | va, x :: xs, s =>
      (s.access device p (u64 va) x).bind fun r =>
        match r.2 with
        | .ok b =>
            (userCopy device p (va + 1) xs r.1).map fun c => { c with bytes := b :: c.bytes }
        | .error t => some ⟨r.1, [], xs.length + 1, t == .halt⟩

def copyToUser (device : Frame → Bool) (p : Pid) (dst : Nat) (src : List Byte) (s : Ring0) :
    Option Copied :=
  userCopy device p dst (src.map some) s

def copyFromUser (device : Frame → Bool) (p : Pid) (src n : Nat) (s : Ring0) : Option Copied :=
  userCopy device p src (List.replicate n none) s

/-! ## read and write -/

/-- How a system call ends, if the machine does not stop in it. -/
inductive Ended where
  | halted
  | returned (r : Except Errno Nat)
  deriving DecidableEq, Repr

/-- What was done so far, or the error if that is nothing. -/
def doneOr (total : Nat) (e : Errno) : Ended :=
  .returned (if total > 0 then .ok total else .error e)

/-- `read_to_user`, with what `file_read` answers. -/
def readToUser (device : Frame → Bool) (p : Pid) (reads : List (Except Errno (List Byte)))
    (uptr total remaining : Nat) (s : Ring0) : Option (Ring0 × Ended) :=
  if remaining = 0 then some (s, .returned (.ok total))
  else
    match reads with
    | [] => none
    | .error e :: _ => some (s, doneOr total e)
    | .ok data :: reads =>
        if data = [] then some (s, .returned (.ok total))
        else if data.length > min remaining stageMax then none
        else
          (copyToUser device p (uptr + total) data s).bind fun c =>
            if c.halted then some (c.s, .halted)
            else if c.missed > 0 then
              some (c.s, doneOr (total + (data.length - c.missed)) .efault)
            else if data.length < min remaining stageMax then
              some (c.s, .returned (.ok (total + data.length)))
            else readToUser device p reads uptr (total + data.length) (remaining - data.length) c.s

/-- `write_from_user`, with what `file_write` answers, and the bytes that the file took. -/
def writeFromUser (device : Frame → Bool) (p : Pid) (writes : List (Except Errno Nat))
    (uptr total remaining : Nat) (s : Ring0) : Option (Ring0 × List Byte × Ended) :=
  if remaining = 0 then some (s, [], .returned (.ok total))
  else
    (copyFromUser device p (uptr + total) (min remaining stageMax) s).bind fun c =>
      if c.halted then some (c.s, [], .halted)
      else if c.bytes = [] then some (c.s, [], doneOr total .efault)
      else
        match writes with
        | [] => none
        | .error e :: _ => some (c.s, [], doneOr total e)
        | .ok n :: writes =>
            if n > c.bytes.length then none
            else if n < c.bytes.length ∨ c.missed > 0 then
              some (c.s, c.bytes.take n, .returned (.ok (total + n)))
            else
              (writeFromUser device p writes uptr (total + n) (remaining - n) c.s).map fun r =>
                (r.1, c.bytes.take n ++ r.2.1, r.2.2)

end NeoKernel.Vm
