import NeoKernel.Lib.Table

/-!
# Page tables (kernel/mm/paging.c)

A page table is a table from page numbers to leaf entries: the four-level walk reaches
an entry through bits 12 to 47 of the address, and the tables on the way only matter
when one cannot be allocated. An entry without a frame is 0 in the program and absent here.
-/
namespace NeoKernel.Vm
open Lib

abbrev Frame := Nat
abbrev Byte := BitVec 8

def pageSize : Nat := 4096
def userAddrLimit : Nat := 0x0000800000000000
def mmapBase : Nat := 0x0000500000000000
def mmapLimit : Nat := 0x0000600000000000

def u64 (n : Nat) : Nat := n % 2 ^ 64
def pageDown (a : Nat) : Nat := a / pageSize * pageSize
def pageUp (a : Nat) : Nat := u64 (a + 0xFFF) / pageSize * pageSize

def hasBit (x b : BitVec 32) : Bool := x &&& b != 0

/-! ## Protections -/

abbrev Prot := BitVec 32

def protNone : Prot := 0
def protRead : Prot := 1
def protWrite : Prot := 2
def protExec : Prot := 4

namespace Prot

def writable (p : Prot) : Bool := hasBit p protWrite
def executable (p : Prot) : Bool := hasBit p protExec

end Prot

/-! ## Leaf entries -/

structure Pte where
  frame : Frame
  present : Bool
  writable : Bool
  user : Bool
  nx : Bool
  /-- `PAGE_COW`: shared by a fork, write by copying -/
  cow : Bool
  /-- `PAGE_NOFREE`: the frame belongs to a device or an object, not to the process -/
  nofree : Bool
  /-- `PAGE_PROTNONE`: the frame is kept while nothing may be accessed -/
  protnone : Bool
  deriving DecidableEq, Repr

abbrev PageTable := Table Nat Pte

def pageOf (va : Nat) : Nat := va / pageSize % 2 ^ 36

def userPage (f : Frame) (prot : Prot) : Pte where
  frame := f
  present := true
  writable := prot.writable
  user := true
  nx := !prot.executable
  cow := false
  nofree := false
  protnone := false

/-- The flags of `vma_map_phys` and `vma_map_frames`. -/
def devicePage (f : Frame) (prot : Prot) : Pte :=
  { userPage f prot with nx := true, nofree := true }

/-- `paging_map_into`, when the tables on the way are there. -/
def mapInto (pt : PageTable) (va : Nat) (e : Pte) : PageTable :=
  pt.insert (pageOf va) { e with present := true }

/-- `paging_unmap_from`, with the frame the entry had. -/
def unmapFrom (pt : PageTable) (va : Nat) : PageTable × Option Frame :=
  match pt.lookup (pageOf va) with
  | none => (pt, none)
  | some e => (pt.erase (pageOf va), some e.frame)

/-- The access bits that `paging_setprot_from` is called with, none for `PROT_NONE`. -/
structure Access where
  writable : Bool
  nx : Bool

def Prot.access (p : Prot) : Option Access :=
  if p = protNone then none else some ⟨p.writable, !p.executable⟩

/-- The new value of an entry: a copy-on-write page stays read-only. -/
def Pte.setprot (e : Pte) : Option Access → Pte
  | some a =>
      { frame := e.frame, present := true, writable := a.writable && !e.cow, user := true,
        nx := a.nx, cow := e.cow, nofree := e.nofree, protnone := false }
  | none =>
      { frame := e.frame, present := false, writable := false, user := false, nx := false,
        cow := e.cow, nofree := e.nofree, protnone := true }

def setprotFrom (a : Option Access) (pt : PageTable) (va : Nat) : PageTable :=
  match pt.lookup (pageOf va) with
  | none => pt
  | some e => pt.insert (pageOf va) (e.setprot a)

/-- The addresses of a loop `for (v = lo; v < hi; v += PMM_FRAME_SIZE)`. -/
def pages (lo hi : Nat) : List Nat :=
  (List.range ((hi - lo + 0xFFF) / pageSize)).map fun k => lo + pageSize * k

/-- `unmap_range`, with the frames it found. -/
def unmapRange (pt : PageTable) (lo hi : Nat) : PageTable × List Frame :=
  (pages lo hi).foldl (fun r va => ((unmapFrom r.1 va).1, r.2 ++ (unmapFrom r.1 va).2.toList))
    (pt, [])

def setprotRange (a : Option Access) (pt : PageTable) (lo hi : Nat) : PageTable :=
  (pages lo hi).foldl (setprotFrom a) pt

/-! ## Copy on write -/

/-- What `paging_handle_cow_fault` does with a leaf entry. -/
inductive CowFault where
  | refused
  | upgrade (e : Pte)
  | copy (e : Pte)

/-- `paging_handle_cow_fault` on an entry: `refs` is the count of its frame and `alloc`
what `pmm_alloc` answers. -/
def Pte.cowFault (e : Pte) (refs : Nat) (alloc : Option Frame) : CowFault :=
  if !e.present || e.writable then .refused
  else if !e.cow then .refused
  else if refs = 1 then .upgrade { e with cow := false, writable := true }
  else
    match alloc with
    | none => .refused
    | some f => .copy { e with frame := f, cow := false, writable := true }

/-! ## Fork -/

/-- The parent's entry after `fork_duplicate_user_pages`: what was writable, or parked
`PROT_NONE`, becomes copy-on-write. -/
def Pte.forkParent (e : Pte) : Pte :=
  if e.nofree then e
  else if e.writable || !e.present then { e with writable := false, cow := true }
  else e

/-- The child's entry, made from the parent's new one. `paging_map_into` always sets
`PAGE_PRESENT`, so a private page that was parked is parked again. -/
def Pte.forkChild (e : Pte) : Pte :=
  if !e.nofree && !e.present then { e with present := true }.setprot none
  else { e with present := true }

section Ranges

variable {pt : PageTable} {lo hi : Nat} {s : Nat}

theorem lookup_unmapFrom (pt : PageTable) (va : Nat) (s : Nat) :
    (unmapFrom pt va).1.lookup s = if s = pageOf va then none else pt.lookup s := by
  unfold unmapFrom
  split
  · next h =>
      split
      · next hs => rw [hs, h]
      · rfl
  · split
    · next hs => rw [hs, AList.lookup_erase]
    · next hs => rw [AList.lookup_erase_ne hs]

theorem lookup_setprotFrom (a : Option Access) (pt : PageTable) (va : Nat) (s : Nat) :
    (setprotFrom a pt va).lookup s =
      if s = pageOf va then (pt.lookup s).map (Pte.setprot · a) else pt.lookup s := by
  unfold setprotFrom
  split
  · next h =>
      split
      · next hs =>
          rw [hs, h]
          rfl
      · rfl
  · next e h =>
      split
      · next hs =>
          rw [hs, AList.lookup_insert, h]
          rfl
      · next hs => rw [AList.lookup_insert_ne hs]

end Ranges

end NeoKernel.Vm
