import NeoKernel.Sched.FdTable
import NeoKernel.Vm.Machine

/-!
# Memory files (kernel/ipc/memfd.c)

A memory file owns its frames. Descriptors refer to it, from the tables of the processes and
from messages in flight between unix sockets; a mapping of it does not. One step is one system
call, with the answers of `kmalloc` and `pmm_alloc`. Of the objects only memory files are kept;
any process may send on a direction, which may lose its last reference at any time.
-/
namespace NeoKernel.Memfd
open Lib Vm
open Fd (fdTableMax fdTableAllocFrom)

def memfdMaxFrames : Nat := 8192
def scmMaxFds : Nat := 8

def mfdCloexec : BitVec 32 := 1
def mfdAllowSealing : BitVec 32 := 2

/-- `struct memfd`: `refs` are its descriptors, also those in flight. -/
structure MemFile where
  frames : List Frame
  size : Nat
  refs : Int

inductive File where
  | memfd (i : Nat)
  | other
  deriving DecidableEq, Repr

abbrev FdTable := Fd.FdTable File

structure State where
  m : Machine
  memfds : Table Nat MemFile
  fds : Fd.Tables File
  /-- the batches of descriptors in flight, for each `unix_dir` -/
  dirs : Table Nat (List (List File))

namespace State

def fdTable (k : State) (p : Pid) : FdTable := Fd.tableOf k.fds p

def setFds (k : State) (p : Pid) (t : FdTable) : State := { k with fds := k.fds.insert p t }

end State

/-! ## References -/

def memfdGet (k : State) (i : Nat) : State :=
  match k.memfds.lookup i with
  | none => k
  | some x => { k with memfds := k.memfds.insert i { x with refs := x.refs + 1 } }

def memfdFree (k : State) (i : Nat) (x : MemFile) : State :=
  { k with m := x.frames.foldl Machine.pmmFree k.m, memfds := k.memfds.erase i }

def memfdPut (k : State) (i : Nat) : State :=
  match k.memfds.lookup i with
  | none => k
  | some x =>
      if x.refs - 1 = 0 then memfdFree k i x
      else { k with memfds := k.memfds.insert i { x with refs := x.refs - 1 } }

def fileDup (k : State) : File → State
  | .memfd i => memfdGet k i
  | .other => k

def fileClose (k : State) : File → State
  | .memfd i => memfdPut k i
  | .other => k

/-! ## Descriptor tables (kernel/sched/fd_table.c) -/

def fdTableAlloc (slots : Bool) (t : FdTable) : Option Nat := fdTableAllocFrom slots t 0

def fdTableClose (k : State) (p : Pid) (fd : Nat) : State :=
  match (k.fdTable p).lookup fd with
  | none => k
  | some f => fileClose (k.setFds p ((k.fdTable p).erase fd)) f

def fdTableDup2 (k : State) (p : Pid) (oldfd newfd : Nat) (slots : Bool) :
    State × Except Errno Nat :=
  if oldfd ≥ fdTableMax ∨ newfd ≥ fdTableMax then (k, .error .ebadf)
  else
    match (k.fdTable p).lookup oldfd with
    | none => (k, .error .ebadf)
    | some src =>
        if oldfd = newfd then (k, .ok newfd)
        else if !slots then (k, .error .emfile)
        else
          let k' := fileDup (k.setFds p ((k.fdTable p).insert newfd src)) src
          match (k.fdTable p).lookup newfd with
          | none => (k', .ok newfd)
          | some closing => (fileClose k' closing, .ok newfd)

/-- `dup` and `F_DUPFD`: a slot is taken first and then overwritten. -/
def dupFd (k : State) (p : Pid) (oldfd start : Nat) (slots : Bool) : State × Except Errno Nat :=
  match (k.fdTable p).lookup oldfd with
  | none => (k, .error .ebadf)
  | some _ =>
      match fdTableAllocFrom slots (k.fdTable p) start with
      | none => (k, .error .emfile)
      | some newfd =>
          let r := fdTableDup2 (k.setFds p ((k.fdTable p).insert newfd .other)) p oldfd newfd slots
          match r.2 with
          | .ok _ => r
          | .error _ => (fdTableClose r.1 p newfd, r.2)

def fdTableDup (k : State) (p c : Pid) : State :=
  ((k.fdTable p).values.foldl fileDup k).setFds c (k.fdTable p)

def fdTableFree (k : State) (p : Pid) : State :=
  (k.fdTable p).values.foldl fileClose { k with fds := k.fds.erase p }

/-- The hooks of the objects, on the tables that an operation of `Fd` has left. -/
def runHooks (k : State) (r : Fd.Tables File × List (Fd.Hook File)) : State :=
  r.2.foldl (fun k h => match h with
    | .dup f => fileDup k f
    | .close f => fileClose k f) { k with fds := r.1 }

theorem fdTableClose_hooks (k : State) (p : Pid) (fd : Nat) :
    fdTableClose k p fd = runHooks k (Fd.fdTableClose k.fds p fd) := by
  unfold fdTableClose Fd.fdTableClose State.fdTable
  cases (Fd.tableOf k.fds p).lookup fd <;> rfl

theorem fdTableDup2_hooks (k : State) (p : Pid) (oldfd newfd : Nat) (slots : Bool) :
    fdTableDup2 k p oldfd newfd slots =
      let r := Fd.fdTableDup2 k.fds p oldfd newfd slots
      (runHooks k (r.1, r.2.1), r.2.2) := by
  unfold fdTableDup2 Fd.fdTableDup2 State.fdTable
  cases (Fd.tableOf k.fds p).lookup oldfd <;> cases (Fd.tableOf k.fds p).lookup newfd <;>
    dsimp only <;> split_ifs <;> rfl

theorem fdTableFree_hooks (k : State) (p : Pid) :
    fdTableFree k p = runHooks k (Fd.fdTableFree k.fds p) := by
  unfold fdTableFree Fd.fdTableFree runHooks State.fdTable
  rw [List.foldl_map]

/-! ## Operations of memory files -/

def memfdCreateFd (k : State) (p : Pid) (flags : BitVec 32) (i : Nat) (kmalloc slots : Bool) :
    State × Except Errno Nat :=
  if flags &&& ~~~(mfdCloexec ||| mfdAllowSealing) ≠ 0 then (k, .error .einval)
  else if !kmalloc then (k, .error .enomem)
  else
    match fdTableAlloc slots (k.fdTable p) with
    | none => (k, .error .emfile)
    | some fd =>
        ({ k with memfds := k.memfds.insert i ⟨[], 0, 1⟩ }.setFds p
          ((k.fdTable p).insert fd (.memfd i)), .ok fd)

/-- `pmm_alloc(0)` for each of the frames, which are zeroed; none if one of them is in use. -/
def allocFrames (device : Frame → Bool) : List Frame → Machine → Option Machine
  | [], m => some m
  | f :: fs, m => if m.Free device f then allocFrames device fs (m.alloc f fun _ => 0) else none

def wanted (len : Nat) : Nat := (len + pageSize - 1) / pageSize

/-- `mfd_truncate`; `allocs` are the frames that `pmm_alloc` returns before it fails. None if
these are not answers it can give. -/
def mfdTruncate (device : Frame → Bool) (k : State) (i : Nat) (x : MemFile) (len : Nat)
    (kmalloc : Bool) (allocs : List Frame) : Option (State × Except Errno Unit) :=
  let want := wanted len
  if want > memfdMaxFrames then some (k, .error .efbig)
  else if want > x.frames.length then
    if !kmalloc then some (k, .error .enomem)
    else
      (allocFrames device allocs k.m).bind fun m =>
        if x.frames.length + allocs.length = want then
          some ({ k with
            m := m
            memfds := k.memfds.insert i
              { x with frames := x.frames ++ allocs, size := len } }, .ok ())
        else if x.frames.length + allocs.length < want then
          some ({ k with m := allocs.foldl Machine.pmmFree m }, .error .enomem)
        else none
  else if want < x.frames.length then
    if x.refs > 1 then some (k, .error .ebusy)
    else
      some ({ k with
        m := (x.frames.drop want).foldl Machine.pmmFree k.m
        memfds := k.memfds.insert i { x with frames := x.frames.take want, size := len } }, .ok ())
  else some ({ k with memfds := k.memfds.insert i { x with size := len } }, .ok ())

/-- What another object does with the call is not modelled. -/
def sysFtruncate (device : Frame → Bool) (k : State) (p : Pid) (fd : Nat) (len : Int)
    (kmalloc : Bool) (allocs : List Frame) : Option (State × Except Errno Unit) :=
  match (k.fdTable p).lookup fd with
  | none => some (k, .error .ebadf)
  | some .other => some (k, .ok ())
  | some (.memfd i) =>
      if len < 0 then some (k, .error .einval)
      else (k.memfds.lookup i).bind fun x => mfdTruncate device k i x len.toNat kmalloc allocs

structure MmapReq where
  len : Nat
  prot : Prot
  flags : BitVec 32
  off : Nat

namespace MmapReq

def first (r : MmapReq) : Nat := r.off / pageSize
def count (r : MmapReq) : Nat := u64 (r.len + 0xFFF) / pageSize

end MmapReq

/-- `mfd_mmap`: `slice` is the answer of the first `kmalloc`, the rest are those of
`vma_map_frames`. -/
def mfdMmap (P : Process) (x : MemFile) (r : MmapReq) (slice tailOk kmalloc : Bool)
    (failAt : Option Nat) : Mapping :=
  if r.len = 0 then ⟨P, [], .error .einval⟩
  else if r.off % pageSize ≠ 0 then ⟨P, [], .error .einval⟩
  else if r.prot.executable then ⟨P, [], .error .einval⟩
  else if !hasBit r.flags mapShared then ⟨P, [], .error .einval⟩
  else if r.first + r.count > x.frames.length then ⟨P, [], .error .einval⟩
  else if !slice then ⟨P, [], .error .enomem⟩
  else vmaMapFramesLocked P ((x.frames.drop r.first).take r.count) r.prot tailOk kmalloc failAt

def sysMmap (k : State) (p : Pid) (P : Process) (fd : Nat) (r : MmapReq)
    (slice tailOk kmalloc : Bool)
    (failAt : Option Nat) : Option State :=
  match (k.fdTable p).lookup fd with
  | none | some .other => some k
  | some (.memfd i) =>
      (k.memfds.lookup i).map fun x =>
        { k with m := k.m.mapped p (mfdMmap P x r slice tailOk kmalloc failAt) }

/-! ## Passing descriptors (kernel/ipc/unix_sock.c) -/

/-- The loop of `unix_scm_send`; `b` is the batch so far. -/
def scmCollect (t : FdTable) : List Nat → State → List File → State × Except Errno (List File)
  | [], k, b => (k, .ok b)
  | n :: nums, k, b =>
      match t.lookup n with
      | none => (b.foldl fileClose k, .error .ebadf)
      | some f => scmCollect t nums (fileDup k f) (b ++ [f])

def unixScmSend (k : State) (p : Pid) (d : Nat) (q : List (List File)) (nums : List Nat)
    (kmalloc : Bool) : State × Except Errno Unit :=
  if nums.length = 0 then (k, .ok ())
  else if nums.length > scmMaxFds then (k, .error .einval)
  else if !kmalloc then (k, .error .enomem)
  else
    match scmCollect (k.fdTable p) nums k [] with
    | (k', .error err) => (k', .error err)
    | (k', .ok b) => ({ k' with dirs := k'.dirs.insert d (q ++ [b]) }, .ok ())

/-- The loop of `unix_scm_recv`, with what did not fit; slots can be had `n` times. -/
def scmInstall : Nat → List File → FdTable → FdTable × List File
  | _, [], t => (t, [])
  | 0, f :: fs, t => (t, f :: fs)
  | n + 1, f :: fs, t =>
      match fdTableAlloc true t with
      | none => (t, f :: fs)
      | some fd => scmInstall n fs (t.insert fd f)

/-- `unix_scm_recv`: `room` says whether the control buffer can take the answer. -/
def unixScmRecv (k : State) (p : Pid) (d : Nat) (q : List (List File)) (room : Bool) (slots : Nat) :
    State × Except Errno Unit :=
  match q with
  | [] => (k, .ok ())
  | b :: q =>
      let k := { k with dirs := k.dirs.insert d q }
      if !room then (b.foldl fileClose k, .error .emsgsize)
      else
        let r := scmInstall slots b (k.fdTable p)
        (r.2.foldl fileClose (k.setFds p r.1), .ok ())

def unixDirFree (k : State) (d : Nat) (q : List (List File)) : State :=
  q.flatten.foldl fileClose { k with dirs := k.dirs.erase d }

/-! ## Steps -/

/-- `fork_task`. If no thread can be had for the child, its pages are gone and its table of
descriptors stays (`leak`). -/
def forkTask (k : State) (p c : Pid) (P : Process) (fail : ForkFail) (leak : Bool) : State :=
  let k := { k with m := k.m.fork p c P fail }
  if fail = none ∨ leak then fdTableDup k p c else k

inductive MemfdAct where
  | vm (a : VmAct)
  | create (p : Pid) (flags : BitVec 32) (i : Nat) (kmalloc slots : Bool)
  | ftruncate (p : Pid) (fd : Nat) (len : Int) (kmalloc : Bool) (allocs : List Frame)
  | mmap (p : Pid) (fd : Nat) (r : MmapReq) (slice tailOk kmalloc : Bool) (failAt : Option Nat)
  | close (p : Pid) (fd : Nat)
  | dup (p : Pid) (oldfd start : Nat) (slots : Bool)
  | dup2 (p : Pid) (oldfd newfd : Nat) (slots : Bool)
  | fork (p c : Pid) (fail : ForkFail) (leak : Bool)
  | connect (d : Nat)
  | scmSend (p : Pid) (d : Nat) (nums : List Nat) (kmalloc : Bool)
  | scmRecv (p : Pid) (d : Nat) (room : Bool) (slots : Nat)
  | dirFree (d : Nat)
  | fdTableFree (p : Pid)

/-- Steps of one address space. Frames are mapped through a descriptor, and a fork copies the
descriptors too. `exit` is the first half of `proc_put_live`; `fdTableFree` is the second. -/
def ofSpace : VmAct → Bool
  | .mapFrames .. | .fork .. => false
  | _ => true

def memfdStep (device : Frame → Bool) (k : State) : MemfdAct → Option State
  | .vm a => if ofSpace a then (vmStep device k.m a).map fun m => { k with m := m } else none
  | .create p flags i kmalloc slots =>
      if (k.m.proc p).isSome ∧ (k.memfds.lookup i).isNone then
        some (memfdCreateFd k p flags i kmalloc slots).1
      else none
  | .ftruncate p fd len kmalloc allocs =>
      (k.m.proc p).bind fun _ => (sysFtruncate device k p fd len kmalloc allocs).map (·.1)
  | .mmap p fd r slice tailOk kmalloc failAt =>
      (k.m.proc p).bind fun P => sysMmap k p P fd r slice tailOk kmalloc failAt
  | .close p fd => (k.m.proc p).map fun _ => fdTableClose k p fd
  | .dup p oldfd start slots => (k.m.proc p).map fun _ => (dupFd k p oldfd start slots).1
  | .dup2 p oldfd newfd slots => (k.m.proc p).map fun _ => (fdTableDup2 k p oldfd newfd slots).1
  | .fork p c fail leak =>
      (k.m.proc p).bind fun P =>
        if k.m.proc c = none ∧ (k.fds.lookup c).isNone then some (forkTask k p c P fail leak)
        else none
  | .connect d =>
      if (k.dirs.lookup d).isNone then some { k with dirs := k.dirs.insert d [] } else none
  | .scmSend p d nums kmalloc =>
      (k.m.proc p).bind fun _ =>
        (k.dirs.lookup d).map fun q => (unixScmSend k p d q nums kmalloc).1
  | .scmRecv p d room slots =>
      (k.m.proc p).bind fun _ => (k.dirs.lookup d).map fun q => (unixScmRecv k p d q room slots).1
  | .dirFree d => (k.dirs.lookup d).map fun q => unixDirFree k d q
  | .fdTableFree p => if k.m.proc p = none then some (fdTableFree k p) else none

structure MemfdInit (k : State) : Prop where
  m : VmInit k.m
  memfds : k.memfds = ∅
  fds : ∀ p t, k.fds.lookup p = some t → ∀ f ∈ t.values, f = .other
  dirs : k.dirs = ∅

def memfdSystem (device : Frame → Bool) : System State MemfdAct where
  init := MemfdInit
  step := memfdStep device

end NeoKernel.Memfd
