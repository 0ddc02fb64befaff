import NeoKernel.Lib.Trans
import NeoKernel.Vm.Area

/-!
# Address spaces of all processes

One step is one system call, one fault or one access of user code. A fault in a file
mapping takes two steps, because the file is read with no lock held. `refcount` is
`frame_refcount` of pmm.c; which free frame `pmm_alloc` returns is part of the step. `last` is not
in the program: what each process wrote last at an address, or found or inherited there.

`device` are the frames of devices and of kernel objects, which `pmm_alloc` never
returns. Stale translations are not modelled here.
-/
namespace NeoKernel.Vm
open Lib Function

abbrev Pid := Nat

def pmmMaxFrames : Nat := 2 ^ 20

structure Machine where
  procs : Table Pid Process
  refcount : Frame → Nat
  mem : Frame → Nat → Byte
  /-- frames unmapped but not yet released, see kernel/smp/tlb.c -/
  deferred : List Frame
  /-- faults whose page is being read from a file -/
  ios : List (Pid × FaultIo)
  last : Pid → Nat → Byte

/-- The least page that `fork_duplicate_user_pages` fails at; none if the fork succeeds. -/
abbrev ForkFail := Option Nat

inductive VmAct where
  | mmap (p : Pid) (addr len : Nat) (prot : Prot) (flags : BitVec 32) (tailOk kmalloc : Bool)
  | mmapFile (p : Pid) (addr len : Nat) (prot : Prot) (flags : BitVec 32) (vn off : Nat)
      (tailOk kmalloc : Bool)
  | mapFrames (p : Pid) (frames : List Frame) (prot : Prot) (tailOk kmalloc : Bool)
      (failAt : Option Nat)
  | mapPhys (p : Pid) (phys len : Nat) (prot : Prot) (tailOk kmalloc : Bool)
      (failAt : Option Nat)
  | munmap (p : Pid) (addr len : Nat) (kmalloc : Bool)
  | mprotect (p : Pid) (addr len : Nat) (prot : Prot) (ks : List Kmalloc)
  | mremap (p : Pid) (oldAddr oldSize newSize : Nat) (flags : BitVec 32)
  | fork (p c : Pid) (fail : ForkFail)
  | fault (p : Pid) (addr : Nat) (write : Bool) (alloc : Option Frame) (tables : Bool)
  | install (k : Nat) (f : Frame) (content : Nat → Byte) (tables : Bool)
  | ioFail (k : Nat)
  | cowFault (p : Pid) (addr : Nat) (alloc : Option Frame)
  | write (p : Pid) (addr : Nat) (b : Byte)
  | exit (p : Pid)
  | release (f : Frame)

namespace Machine

def setProc (m : Machine) (p : Pid) (proc : Process) : Machine :=
  { m with procs := m.procs.insert p proc }

def defer (m : Machine) (fs : List Frame) : Machine := { m with deferred := m.deferred ++ fs }

/-! ## The frame counts of pmm.c -/

/-- A frame that `pmm_alloc(0)` can return. -/
def Free (device : Frame → Bool) (m : Machine) (f : Frame) : Prop :=
  m.refcount f = 0 ∧ device f = false

instance (device : Frame → Bool) (m : Machine) (f : Frame) : Decidable (m.Free device f) :=
  inferInstanceAs (Decidable (_ ∧ _))

def alloc (m : Machine) (f : Frame) (content : Nat → Byte) : Machine :=
  { m with refcount := update m.refcount f 1, mem := update m.mem f content }

def share (m : Machine) (f : Frame) : Machine :=
  { m with refcount := update m.refcount f ((m.refcount f + 1) % 2 ^ 16) }

def pmmFree (m : Machine) (f : Frame) : Machine :=
  if f ≥ pmmMaxFrames then m
  else { m with refcount := update m.refcount f ((m.refcount f + (2 ^ 16 - 1)) % 2 ^ 16) }

/-! ## Calls -/

def mapped (m : Machine) (p : Pid) (r : Mapping) : Machine := (m.setProc p r.proc).defer r.freed

/-- The page of `addr`, of which the process `P` had none, has been filled. -/
def filled (m : Machine) (p : Pid) (P : Process) (addr : Nat) (content : Nat → Byte) : Machine :=
  if (P.pt.lookup (pageOf addr)).isSome then m
  else
    { m with last := update m.last p fun a =>
        if a / pageSize = addr / pageSize then content (a % pageSize) else m.last p a }

/-- The pages that `fork_duplicate_user_pages` has come to, and of these the ones that
are in the child. -/
def reached (fail : ForkFail) (s : Nat) : Bool := fail.all fun k => s ≤ k
def copied (fail : ForkFail) (s : Nat) : Bool := fail.all fun k => s < k

def privateFrames (test : Nat → Bool) (pt : PageTable) : List Frame :=
  (pt.entries.filter fun x => test x.1 && !x.2.nofree).map fun x => x.2.frame

def forkParentTable (fail : ForkFail) (pt : PageTable) : PageTable :=
  pt.adjust fun s e => if reached fail s then e.forkParent else e

def forkChildTable (pt : PageTable) : PageTable := pt.adjust fun _ e => e.forkParent.forkChild

def copyVma (v : Vma) : Vma := { v with vn := if v.file then v.vn else 0 }

/-- `fork_task`. A fork that fails has changed the parent up to the page it failed at,
and `free_address_space` of the child gives back what was shared with it. -/
def fork (m : Machine) (p c : Pid) (P : Process) (fail : ForkFail) : Machine :=
  let m' := (privateFrames (reached fail) P.pt).foldl share
    (m.setProc p { P with pt := forkParentTable fail P.pt })
  if fail = none then
    { m'.setProc c { P with vmas := P.vmas.map copyVma, pt := forkChildTable P.pt } with
      last := update m.last c (m.last p) }
  else m'.defer (privateFrames (copied fail) P.pt)

def proc (m : Machine) (p : Pid) : Option Process := m.procs.lookup p

def entry (P : Process) (addr : Nat) : Option Pte :=
  if addr < userAddrLimit then P.pt.lookup (pageOf addr) else none

def fault (device : Frame → Bool) (m : Machine) (p : Pid) (P : Process) (addr : Nat) (write : Bool)
    (alloc : Option Frame) (tables : Bool) : Option Machine :=
  -- the access finds the page absent
  if addr ≥ userAddrLimit ∨ (entry P addr).any (·.present) then none
  else if ¬ ∀ f ∈ alloc, m.Free device f then none
  else
    match vmaFaultLocked P addr write alloc tables with
    | .sigsegv | .nomem => some m
    | .needsIo io => some { m with ios := m.ios ++ [(p, io)] }
    | .handled pt f =>
        some (((m.setProc p { P with pt := pt }).alloc f fun _ => 0).filled p P addr fun _ => 0)

def install (device : Frame → Bool) (m : Machine) (k : Nat) (p : Pid) (io : FaultIo) (P : Process)
    (f : Frame) (content : Nat → Byte) (tables : Bool) : Option Machine :=
  if m.Free device f then
    let m := { m with ios := m.ios.eraseIdx k }
    match vmaInstallFaultedPageLocked P io f tables with
    | none => some m
    | some pt => some (((m.setProc p { P with pt := pt }).alloc f content).filled p P io.page
        content)
  else none

def cowFault (device : Frame → Bool) (m : Machine) (p : Pid) (P : Process) (addr : Nat)
    (alloc : Option Frame) : Option Machine :=
  match entry P addr with
  | none => none
  | some e =>
      -- the access finds the page present and read-only
      if !(e.present && e.user) then none
      else if ¬ ∀ f ∈ alloc, m.Free device f then none
      else
        match e.cowFault (m.refcount e.frame) alloc with
        | .refused => some m
        | .upgrade e' => some (m.setProc p { P with pt := P.pt.insert (pageOf addr) e' })
        | .copy e' =>
            some (((m.setProc p { P with pt := P.pt.insert (pageOf addr) e' }).alloc e'.frame
              (m.mem e.frame)).pmmFree e.frame)

def write (m : Machine) (p : Pid) (P : Process) (addr : Nat) (b : Byte) : Option Machine :=
  match entry P addr with
  | none => none
  | some e =>
      if e.present && e.user && e.writable then
        some { m with
          mem := update m.mem e.frame
            (update (m.mem e.frame) (addr % pageSize) b)
          last := update m.last p (update (m.last p) addr b) }
      else none

def exit (m : Machine) (p : Pid) (P : Process) : Option Machine :=
  if ∀ io ∈ m.ios, io.1 ≠ p then
    some ({ m with procs := m.procs.erase p }.defer (privateFrames (fun _ => true) P.pt))
  else none

end Machine

open Machine in
def vmStep (device : Frame → Bool) (m : Machine) : VmAct → Option Machine
  | .mmap p addr len prot flags tailOk kmalloc =>
      (m.proc p).map fun P => m.mapped p (vmaMmapLocked P addr len prot flags tailOk kmalloc)
  | .mmapFile p addr len prot flags vn off tailOk kmalloc =>
      (m.proc p).map fun P =>
        m.mapped p (vmaMmapFile P addr len prot flags vn off tailOk kmalloc)
  | .mapFrames p frames prot tailOk kmalloc failAt =>
      (m.proc p).bind fun P =>
        -- `frames` is an array of the kernel
        if (∀ f ∈ frames, device f) ∧ frames.length < 2 ^ 52 then
          some (m.mapped p (vmaMapFramesLocked P frames prot tailOk kmalloc failAt))
        else none
  | .mapPhys p phys len prot tailOk kmalloc failAt =>
      (m.proc p).bind fun P =>
        if ∀ f ∈ physFrames phys len, device f then
          some (m.mapped p (vmaMapPhysLocked P phys len prot tailOk kmalloc failAt))
        else none
  | .munmap p addr len kmalloc =>
      (m.proc p).map fun P =>
        let u := vmaMunmapLocked P addr len kmalloc
        (m.setProc p { P with vmas := u.vmas, pt := u.pt }).defer u.freed
  | .mprotect p addr len prot ks =>
      (m.proc p).map fun P =>
        let r := vmaMprotectLocked P addr len prot ks
        m.setProc p { P with vmas := r.vmas, pt := r.pt }
  | .mremap p oldAddr oldSize newSize flags =>
      -- whatever the answer, nothing is changed
      (m.proc p).map fun P => match vmaMremapLocked P oldAddr oldSize newSize flags with
        | .error _ | .ok _ => m
  | .fork p c fail =>
      (m.proc p).bind fun P => if m.proc c = none then some (m.fork p c P fail) else none
  | .fault p addr write alloc tables =>
      (m.proc p).bind fun P => m.fault device p P addr write alloc tables
  | .install k f content tables =>
      (m.ios[k]?).bind fun io =>
        (m.proc io.1).bind fun P => m.install device k io.1 io.2 P f content tables
  | .ioFail k => some { m with ios := m.ios.eraseIdx k }
  | .cowFault p addr alloc => (m.proc p).bind fun P => m.cowFault device p P addr alloc
  | .write p addr b => (m.proc p).bind fun P => m.write p P addr b
  | .exit p => (m.proc p).bind fun P => m.exit p P
  | .release f =>
      if f ∈ m.deferred then some ({ m with deferred := m.deferred.erase f }.pmmFree f) else none

/-- One process with an empty address space, and no frame in use. -/
structure VmInit (m : Machine) : Prop where
  procs : m.procs = (∅ : Table Pid Process).insert 1 ⟨[], mmapBase, ∅⟩
  refcount : ∀ f, m.refcount f = 0
  deferred : m.deferred = []
  ios : m.ios = []

def vmSystem (device : Frame → Bool) : System Machine VmAct where
  init := VmInit
  step := vmStep device

end NeoKernel.Vm
