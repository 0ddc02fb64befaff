import NeoKernel.Sched.FdTable
import NeoKernel.Vm.Steps

/-!
# What a failed fork leaves behind (kernel/sched/proc.c)

`fork_task` with the answers of its allocations. `proc_alloc` puts the child into the process
table, and none of the failures after it takes the child out again.
-/
namespace NeoKernel.Vm
open Lib Fd Function

def fdTableSlots : Nat := 512

/-- `table` is the process table, `ids` the bits of the pid allocator that are set, and `refs` the
reference counts of the objects behind descriptors. -/
structure ForkState (φ : Type) where
  m : Machine
  table : List Pid
  ids : List Pid
  fds : Tables φ
  refs : φ → Nat

/-- Where `fork_task` ends when physical page 0 is the child's page table. -/
structure Astray (φ : Type) where
  m : Machine
  fds : Tables φ
  refs : φ → Nat
  ok : Bool

/-- What memory answers. `pid` is that of `alloc_id`, 0 if all are in use. If `paging_alloc_pml4`
has no frame, which nobody looks at, page 0 is written to and read as a page table: what comes of
that is left open (`astray`). `pages` is the page that cannot be mapped for the child, `vmas` how
many mappings can be copied, `bucket` the first bucket of descriptors that cannot be had. -/
structure ForkCall (φ : Type) where
  process : Bool
  fdTable : Bool
  threadTable : Bool
  pid : Pid
  astray : Option (Astray φ)
  pages : ForkFail
  vmas : Nat
  stack : Option (List Frame)
  bucket : Option Nat
  thread : Bool
  xstate : Bool

variable {φ : Type} [DecidableEq φ] {s : ForkState φ} {m : Machine} {p c : Pid} {P : Process}
  {x : ForkCall φ}

/-- The pages are shared with the child, and `free_address_space` drops the child's. -/
def Machine.abandon (m : Machine) (p : Pid) (P : Process) (fail : ForkFail) : Machine :=
  ((privateFrames (reached fail) P.pt).foldl share
    (m.setProc p { P with pt := forkParentTable fail P.pt })).defer
      (privateFrames (copied fail) P.pt)

theorem Machine.fork_eq_abandon {k : Nat} : m.fork p c P (some k) = m.abandon p P (some k) := rfl

def runHooks (hs : List (Hook φ)) (refs : φ → Nat) : φ → Nat :=
  hs.foldl (fun refs h => match h with
    | .dup f => update refs f (refs f + 1)
    | .close f => update refs f (refs f - 1)) refs

namespace ForkState

/-- `proc_alloc`, which gives back what it got if one of its three records cannot be had. -/
def procAlloc (s : ForkState φ) (x : ForkCall φ) : Option (ForkState φ) :=
  if x.process && x.fdTable && x.threadTable then
    if x.pid = 0 then some s
    else some { s with table := x.pid :: s.table, ids := x.pid :: s.ids }
  else none

/-- The objects of the descriptors that `fd_table_dup` gets to. -/
def copied (s : ForkState φ) (p : Pid) (x : ForkCall φ) : List φ :=
  ((tableOf s.fds p).entries.filter fun e => x.bucket.all (e.1 / fdTableSlots < ·)).map (·.2)

/-- `fork_task` after `proc_alloc`, and whether it succeeds. -/
def build (s : ForkState φ) (p : Pid) (P : Process) (x : ForkCall φ) : ForkState φ × Bool :=
  match x.astray with
  | some r => ({ s with m := r.m, fds := r.fds, refs := r.refs }, r.ok)
  | none =>
  if x.pages.isSome || x.vmas < P.vmas.length then
    ({ s with m := s.m.abandon p P x.pages }, false)
  else
    match x.stack with
    | none => ({ s with m := s.m.abandon p P none }, false)
    | some stack =>
        let take (m : Machine) := stack.foldl (fun m f => m.alloc f fun _ => 0) m
        let failed := stack.foldl Machine.pmmFree (take (s.m.abandon p P none))
        let refs := runHooks ((s.copied p x).map .dup) s.refs
        if x.bucket.isSome then
          -- the child's table is freed with what is in it
          ({ s with m := failed, refs := runHooks ((s.copied p x).map .close) refs }, false)
        else
          let fds := (fdTableDup s.fds p x.pid).1
          if x.thread && x.xstate then
            ({ s with m := take (s.m.fork p x.pid P none), fds, refs }, true)
          else ({ s with m := failed, fds, refs }, false)

def forkTask (s : ForkState φ) (p : Pid) (P : Process) (x : ForkCall φ) : ForkState φ × Bool :=
  match s.procAlloc x with
  | none => (s, false)
  | some s => s.build p P x

/-- Whatever comes of it, what `proc_alloc` has done stays. -/
theorem build_table : (s.build p P x).1.table = s.table := by
  unfold build
  split
  · rfl
  split
  · rfl
  split
  · rfl
  dsimp only
  split
  · rfl
  split <;> rfl

/-- There is memory for everything that follows `proc_alloc`. -/
structure Ample (P : Process) (x : ForkCall φ) : Prop where
  pml4 : x.astray = none
  pages : x.pages = none
  vmas : P.vmas.length ≤ x.vmas
  stack : x.stack.isSome = true
  bucket : x.bucket = none
  thread : x.thread = true
  xstate : x.xstate = true

theorem build_ok (h : Ample P x) : (s.build p P x).2 = true := by
  obtain ⟨stack, hstack⟩ := Option.isSome_iff_exists.1 h.stack
  unfold build
  rw [h.pml4]
  dsimp only
  rw [h.pages, if_neg (by simpa using h.vmas), hstack, h.bucket, h.thread, h.xstate]
  rfl

theorem forkTask_table (hpid : x.pid ≠ 0) (halloc : s.procAlloc x ≠ none) :
    (s.forkTask p P x).1.table = x.pid :: s.table := by
  unfold forkTask
  unfold procAlloc at halloc ⊢
  split at halloc
  · next hrecords =>
      rw [if_pos hrecords, if_neg hpid]
      exact build_table
  · exact absurd rfl halloc

def forkingPage : Process := ⟨[], mmapBase, (∅ : PageTable).insert 0x400 (userPage 7 protRead)⟩

def forking : ForkState Nat where
  m := (bootVm.alloc 7 fun _ => 1).setProc 1 forkingPage
  table := [1]
  ids := [1, 0]
  fds := (∅ : Tables Nat).insert 1 ((∅ : FdTable Nat).insert 0 5)
  refs _ := 1

def callFork (process thread : Bool) (stack : Option (List Frame)) : ForkCall Nat :=
  ⟨process, true, true, 2, none, none, 0, stack, none, thread, true⟩

end ForkState

end NeoKernel.Vm
