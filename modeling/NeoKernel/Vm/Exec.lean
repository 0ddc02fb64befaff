import NeoKernel.Vm.Machine

/-!
# `exec_task` (kernel/sched/proc.c, kernel/elf.c)

A new address space is built from the `PT_LOAD` segments of the image and of its interpreter.
Then the old one is given up, and the stack and the list of mappings are made anew. What memory
answers is part of the call. The other threads of the process are gone by then.
-/
namespace NeoKernel.Vm
open Lib

def userStackTop : Nat := 0x0000700000000000
def userStackPages : Nat := 2048
def userStackPrepopulatePages : Nat := 4

def userStackLow : Nat := userStackTop - userStackPages * pageSize
def userStackPrepopulated : Nat := userStackTop - userStackPrepopulatePages * pageSize

def userStackProt : Prot := protRead ||| protWrite

/-- One page: the frame of `pmm_alloc`, what is copied into it, and whether `paging_map_into`
finds the tables. -/
structure Grant where
  frame : Frame
  content : Nat → Byte
  tables : Bool

/-- An address space under construction, with the answers that are left; `ok` is false once the
construction has failed. -/
structure Built where
  m : Machine
  pt : PageTable
  left : List Grant
  ok : Bool

/-- Pages are mapped until `pmm_alloc` fails. That `paging_map_into` fails is not looked at. -/
def mapPages (device : Frame → Bool) (prot : Prot) :
    List Nat → Machine → PageTable → List Grant → Option Built
  | [], m, pt, gs => some ⟨m, pt, gs, true⟩
  | _ :: _, m, pt, [] => some ⟨m, pt, [], false⟩
  | va :: vas, m, pt, g :: gs =>
      if m.Free device g.frame then
        mapPages device prot vas (m.alloc g.frame g.content)
          (if g.tables then mapInto pt va (userPage g.frame prot) else pt) gs
      else none

/-! ## The loader -/

def elfPfX : BitVec 32 := 1
def elfPfW : BitVec 32 := 2
def elfWxExceptionMaxBytes : Nat := 16 * 1024 * 1024
def elfMaxLoadSegments : Nat := 16

/-- A `PT_LOAD` header; `vaddr` includes the base that the image is loaded at. -/
structure Phdr where
  vaddr : Nat
  memsz : Nat
  flags : BitVec 32
  deriving DecidableEq, Repr

structure Segment where
  start : Nat
  stop : Nat
  prot : Prot
  deriving DecidableEq, Repr

namespace Phdr

def segment (ph : Phdr) : Segment where
  start := pageDown (u64 ph.vaddr)
  stop := pageUp (u64 (ph.vaddr + ph.memsz))
  prot := protRead ||| (if hasBit ph.flags elfPfW then protWrite else 0) |||
    (if hasBit ph.flags elfPfX then protExec else 0)

/-- A segment that is writable and executable may only be small. -/
def refused (ph : Phdr) : Bool :=
  hasBit ph.flags elfPfW && hasBit ph.flags elfPfX && elfWxExceptionMaxBytes < ph.memsz

end Phdr

/-- `elf_load_at` for the `PT_LOAD` headers. -/
def elfLoadAt (device : Frame → Bool) :
    List Phdr → Machine → PageTable → List Grant → Option Built
  | [], m, pt, gs => some ⟨m, pt, gs, true⟩
  | ph :: phs, m, pt, gs =>
      if ph.refused then some ⟨m, pt, gs, false⟩
      else
        (mapPages device ph.segment.prot (pages ph.segment.start ph.segment.stop) m pt gs).bind
          fun b => if b.ok then elfLoadAt device phs b.m b.pt b.left else some b

/-! ## The stack and the mappings -/

/-- `vma_register_image_segment` for each segment, with the answers of `kmalloc`. A segment that
cannot be registered is passed over. -/
def registerSegments : List Vma → List Segment → List Bool → List Vma
  | vmas, [], _ => vmas
  | vmas, s :: segs, ks =>
      registerSegments
        ((vmaInsert vmas s.start s.stop s.prot mapPrivate (ks.headD false)).getD vmas) segs ks.tail

/-- `ensure_user_page` for the addresses that `build_initial_stack` writes to, until it fails. -/
def ensureUserPages (device : Frame → Bool) :
    List Nat → Machine → PageTable → List Grant → Option Built
  | [], m, pt, gs => some ⟨m, pt, gs, true⟩
  | va :: vas, m, pt, gs =>
      if (pt.lookup (pageOf va)).any (·.present) then ensureUserPages device vas m pt gs
      else
        match gs with
        | [] => some ⟨m, pt, [], false⟩
        | g :: gs =>
            if m.Free device g.frame then
              if g.tables then
                ensureUserPages device vas (m.alloc g.frame g.content)
                  (mapInto pt va (userPage g.frame userStackProt)) gs
              else some ⟨(m.alloc g.frame g.content).pmmFree g.frame, pt, gs, false⟩
            else none

structure Exec where
  loads : List Phdr
  /-- no other check of the image or of its interpreter fails -/
  valid : Bool
  image : List Grant
  /-- the pending frees that `tlb_shootdown` of the old address space completes -/
  released : List Frame
  stack : List Grant
  kmallocs : List Bool
  /-- where the arguments are written, and the memory for it -/
  pokes : List Nat
  entry : List Grant

def Exec.segments (x : Exec) : List Segment := (x.loads.map Phdr.segment).take elfMaxLoadSegments

namespace Machine

def releaseAll (device : Frame → Bool) : List Frame → Machine → Option Machine
  | [], m => some m
  | f :: fs, m => (vmStep device m (.release f)).bind (releaseAll device fs)

/-- `thread_stack_alloc` and what follows it, in the new address space. -/
def enter (device : Frame → Bool) (m : Machine) (p : Pid) (pt : PageTable) (x : Exec) :
    Option Machine :=
  (mapPages device userStackProt (pages userStackPrepopulated userStackTop) m pt x.stack).bind
    fun b =>
      if b.ok then
        let vmas := registerSegments [] (⟨userStackLow, userStackTop, userStackProt⟩ :: x.segments)
          x.kmallocs
        (ensureUserPages device x.pokes b.m b.pt x.entry).map fun t =>
          t.m.setProc p ⟨vmas, mmapBase, t.pt⟩
      else
        let u := unmapRange b.pt userStackPrepopulated
          (userStackPrepopulated + pageSize * x.stack.length)
        some ((b.m.setProc p ⟨[], mmapBase, u.1⟩).defer u.2)

/-- `exec_task`. The argument strings and vectors take less than the stack has. -/
def exec (device : Frame → Bool) (m : Machine) (p : Pid) (P : Process) (x : Exec) :
    Option Machine :=
  if ∀ va ∈ x.pokes, userStackLow ≤ va ∧ va < userStackTop then
    (elfLoadAt device x.loads m ∅ x.image).bind fun b =>
      if b.ok && x.valid then
        (releaseAll device x.released
          ({ b.m with procs := b.m.procs.erase p }.defer (privateFrames (fun _ => true) P.pt))).bind
          fun m => enter device m p b.pt x
      else some (b.m.defer (privateFrames (fun _ => true) b.pt))
  else none

end Machine

end NeoKernel.Vm
