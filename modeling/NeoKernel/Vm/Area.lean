import NeoKernel.Errno
import NeoKernel.Vm.Page

/-!
# Mappings of a process (kernel/mm/vma.c)

The sorted list of mappings and the page table of one process, as the `_locked` bodies
change them. Answers of `kmalloc` and `pmm_alloc` are arguments. What `vnode_ref` and
`vnode_put` count is left out.
-/
namespace NeoKernel.Vm
open Lib

def mapShared : BitVec 32 := 0x01
def mapPrivate : BitVec 32 := 0x02
def mapFixed : BitVec 32 := 0x10
def mapAnonymous : BitVec 32 := 0x20
def vmaPhys : BitVec 32 := 0x40
def vmaFile : BitVec 32 := 0x1000

structure Vma where
  start : Nat
  /-- the `end` of the source -/
  stop : Nat
  prot : Prot
  flags : BitVec 32
  /-- the address of the vnode, 0 for none -/
  vn : Nat
  fileOff : Nat
  deriving DecidableEq, Repr

structure Process where
  vmas : List Vma
  mmapNext : Nat
  pt : PageTable

namespace Vma

def phys (v : Vma) : Bool := hasBit v.flags vmaPhys
def file (v : Vma) : Bool := hasBit v.flags vmaFile

end Vma

def vmaFind : List Vma → Nat → Option Vma
  | [], _ => none
  | v :: vs, addr =>
      if v.start ≤ addr ∧ addr < v.stop then some v
      else if v.start > addr then none
      else vmaFind vs addr

/-! ## `vma_insert` -/

def Vma.same (v : Vma) (prot : Prot) (flags : BitVec 32) : Bool :=
  v.prot == prot && v.flags == flags

/-- The merge with the mapping after: `nx` in the source. -/
def mergeNext (stop : Nat) (prot : Prot) (flags : BitVec 32) : List Vma → Nat × List Vma
  | nx :: rest =>
      if nx.start = stop ∧ nx.same prot flags then (nx.stop, rest) else (stop, nx :: rest)
  | [] => (stop, [])

def freshVma (start stop : Nat) (prot : Prot) (flags : BitVec 32) : Vma :=
  ⟨start, stop, prot, flags, 0, 0⟩

/-- The new mapping before `post`, extending the first of them or on its own. -/
def insertBefore (start stop : Nat) (prot : Prot) (flags : BitVec 32) (kmalloc : Bool)
    (pre post : List Vma) : Option (List Vma) :=
  match post with
  | v :: rest =>
      if !hasBit flags vmaFile ∧ v.start = stop ∧ v.same prot flags then
        some (pre ++ { v with start := start } :: rest)
      else if kmalloc then some (pre ++ freshVma start stop prot flags :: v :: rest) else none
  | [] => if kmalloc then some (pre ++ [freshVma start stop prot flags]) else none

def vmaInsert (vmas : List Vma) (start stop : Nat) (prot : Prot) (flags : BitVec 32)
    (kmalloc : Bool) : Option (List Vma) :=
  let pre := vmas.takeWhile fun v => v.stop ≤ start
  let post := vmas.dropWhile fun v => v.stop ≤ start
  match pre.getLast? with
  | some prev =>
      if !hasBit flags vmaFile ∧ prev.stop = start ∧ prev.same prot flags then
        let next := mergeNext stop prot flags post
        some (pre.dropLast ++ { prev with stop := next.1 } :: next.2)
      else insertBefore start stop prot flags kmalloc pre post
  | none => insertBefore start stop prot flags kmalloc pre post

/-! ## `vma_munmap_locked` -/

/-- What the loop has done: the mappings, the page table, the frames to release and the
answer. -/
structure Unmapping where
  vmas : List Vma
  pt : PageTable
  freed : List Frame
  rc : Except Errno Unit

def Unmapping.keep (u : Unmapping) (v : Vma) : Unmapping := { u with vmas := v :: u.vmas }

def Unmapping.free (u : Unmapping) (fs : List Frame) : Unmapping :=
  { u with freed := fs ++ u.freed }

def Vma.tailFrom (v : Vma) (pos : Nat) : Vma :=
  if v.file then { v with start := pos, fileOff := v.fileOff + (pos - v.start) }
  else { v with start := pos }

def Vma.punched (v : Vma) (pos : Nat) : Vma :=
  if v.file ∧ v.vn ≠ 0 then v.tailFrom pos else { v.tailFrom pos with vn := 0, fileOff := 0 }

/-- The frames that `unmap_range` releases: none of a device mapping. -/
def Vma.released (v : Vma) (fs : List Frame) : List Frame := if v.phys then [] else fs

def munmapLoop (start stop : Nat) (kmalloc : Bool) : List Vma → PageTable → Unmapping
  | [], pt => ⟨[], pt, [], .ok ()⟩
  | v :: rest, pt =>
      if v.stop ≤ start then (munmapLoop start stop kmalloc rest pt).keep v
      else if stop ≤ v.start then ⟨v :: rest, pt, [], .ok ()⟩
      else
        let u := unmapRange pt (max v.start start) (min v.stop stop)
        let fs := v.released u.2
        if v.start < start ∧ stop < v.stop then
          if kmalloc then
            ⟨{ v with stop := start } :: v.punched stop :: rest, u.1, fs, .ok ()⟩
          else ⟨v :: rest, u.1, fs, .error .enomem⟩
        else if v.start < start then
          ((munmapLoop start stop kmalloc rest u.1).keep { v with stop := start }).free fs
        else if stop < v.stop then ⟨v.tailFrom stop :: rest, u.1, fs, .ok ()⟩
        else (munmapLoop start stop kmalloc rest u.1).free fs

def vmaMunmapLocked (p : Process) (addr len : Nat) (kmalloc : Bool) : Unmapping :=
  let stop := pageUp (u64 (addr + len))
  if addr % pageSize ≠ 0 then ⟨p.vmas, p.pt, [], .error .einval⟩
  else if stop ≤ addr then ⟨p.vmas, p.pt, [], .error .einval⟩
  else munmapLoop addr stop kmalloc p.vmas p.pt

/-! ## `vma_mmap_locked` and its relatives -/

/-- A call that maps: the process after it, the frames to release and the answer. -/
structure Mapping where
  proc : Process
  freed : List Frame
  rc : Except Errno Nat

/-- Where a mapping of `len` bytes goes, after `MAP_FIXED` has made room for it. -/
inductive Placement where
  | refused (err : Errno)
  | placed (addr : Nat) (proc : Process) (freed : List Frame)

/-- The placement that `vma_mmap_locked` and `vma_mmap_file_locked` share; `len` is
rounded already. The answer of the munmap inside is ignored. -/
def place (p : Process) (addr len : Nat) (flags : BitVec 32) (tailOk : Bool) : Placement :=
  if hasBit flags mapFixed then
    if addr % pageSize ≠ 0 then .refused .einval
    else
      let u := vmaMunmapLocked p addr len tailOk
      .placed addr { p with vmas := u.vmas, pt := u.pt } u.freed
  else
    let stop := u64 (p.mmapNext + len)
    if stop > mmapLimit ∨ stop < p.mmapNext then .refused .enomem
    else .placed p.mmapNext { p with mmapNext := stop } []

def mapPlaced (p : Process) (len : Nat) (prot : Prot) (flags : BitVec 32) (kmalloc : Bool) :
    Placement → Mapping
  | .refused err => ⟨p, [], .error err⟩
  | .placed addr q freed =>
      match vmaInsert q.vmas addr (u64 (addr + len)) prot flags kmalloc with
      | none => ⟨q, freed, .error .enomem⟩
      | some vmas => ⟨{ q with vmas := vmas }, freed, .ok addr⟩

def vmaMmapLocked (p : Process) (addr len : Nat) (prot : Prot) (flags : BitVec 32)
    (tailOk kmalloc : Bool) : Mapping :=
  if len = 0 then ⟨p, [], .error .einval⟩
  -- W^X: no mapping is both writable and executable
  else if prot.writable && prot.executable then ⟨p, [], .error .einval⟩
  else mapPlaced p (pageUp len) prot flags kmalloc (place p addr (pageUp len) flags tailOk)

def vmaUpdate (f : Vma → Vma) : List Vma → Nat → List Vma
  | [], _ => []
  | v :: vs, addr =>
      if v.start ≤ addr ∧ addr < v.stop then f v :: vs
      else if v.start > addr then v :: vs
      else v :: vmaUpdate f vs addr

/-- `vma_mmap_file` for a vnode `vn` that is not null. -/
def vmaMmapFile (p : Process) (addr len : Nat) (prot : Prot) (flags : BitVec 32) (vn off : Nat)
    (tailOk kmalloc : Bool) : Mapping :=
  if prot.writable && prot.executable then ⟨p, [], .error .einval⟩
  else if len = 0 then ⟨p, [], .error .einval⟩
  else
    let m := mapPlaced p (pageUp len) prot (mapPrivate ||| vmaFile) kmalloc
      (place p addr (pageUp len) flags tailOk)
    match m.rc with
    | .error _ => m
    | .ok addr =>
        match vmaFind m.proc.vmas addr with
        | none => { m with rc := .error .enomem }
        | some _ =>
            let vmas := vmaUpdate (fun v => { v with vn := vn, fileOff := off }) m.proc.vmas addr
            { m with proc := { m.proc with vmas := vmas } }

/-- The loop that maps the frames of a device or an object: `failAt` is the index at
which `paging_map_into` finds no table frame, after which the pages so far are unmapped. -/
def mapDevicePages (pt : PageTable) (addr : Nat) (prot : Prot) (frames : List Frame)
    (failAt : Option Nat) : PageTable × Bool :=
  let mapped := frames.take (failAt.getD frames.length)
  let pt' := mapped.zipIdx.foldl
    (fun t x => mapInto t (addr + pageSize * x.2) (devicePage x.1 prot)) pt
  if failAt.all fun k => frames.length ≤ k then (pt', true)
  else ((unmapRange pt' addr (addr + pageSize * mapped.length)).1, false)

/-- The body that `vma_map_frames_locked` and `vma_map_phys_locked` share. -/
def mapDevice (p : Process) (frames : List Frame) (prot : Prot) (tailOk kmalloc : Bool)
    (failAt : Option Nat) : Mapping :=
  let len := pageSize * frames.length
  let stop := u64 (p.mmapNext + len)
  if prot.executable then ⟨p, [], .error .einval⟩
  else if stop > mmapLimit ∨ stop < p.mmapNext then ⟨p, [], .error .enomem⟩
  else
    match vmaInsert p.vmas p.mmapNext stop prot (mapShared ||| vmaPhys) kmalloc with
    | none => ⟨p, [], .error .enomem⟩
    | some vmas =>
        let res := mapDevicePages p.pt p.mmapNext prot frames failAt
        let q : Process := { vmas := vmas, mmapNext := stop, pt := res.1 }
        if res.2 then ⟨q, [], .ok p.mmapNext⟩
        else
          let u := vmaMunmapLocked q p.mmapNext len tailOk
          ⟨{ q with vmas := u.vmas, pt := u.pt }, u.freed, .error .enomem⟩

def vmaMapFramesLocked (p : Process) (frames : List Frame) (prot : Prot) (tailOk kmalloc : Bool)
    (failAt : Option Nat) : Mapping :=
  if frames.length = 0 then ⟨p, [], .error .einval⟩
  else mapDevice p frames prot tailOk kmalloc failAt

def physFrames (phys len : Nat) : List Frame :=
  (List.range (pageUp len / pageSize)).map fun k => (phys / pageSize + k) % 2 ^ 40

def vmaMapPhysLocked (p : Process) (phys len : Nat) (prot : Prot) (tailOk kmalloc : Bool)
    (failAt : Option Nat) : Mapping :=
  if len = 0 then ⟨p, [], .error .einval⟩
  else mapDevice p (physFrames phys len) prot tailOk kmalloc failAt

/-! ## `vma_mprotect_locked` -/

/-- The answer of `kmalloc` for a mapping; `vma_split_at` leaves `vn` and `file_off` of
the new mapping as they are in the memory it gets. -/
abbrev Kmalloc := Option (Nat × Nat)

structure Protecting where
  vmas : List Vma
  pt : PageTable
  rc : Except Errno Unit

def Vma.splitTail (v : Vma) (pos : Nat) (junk : Nat × Nat) : Vma :=
  { v with start := pos, vn := junk.1, fileOff := junk.2 }

/-- The piece of a mapping before `start` is split off and keeps its protection: what
stays in front, the piece to go on with and the answers left. -/
def splitFront (start : Nat) (ks : List Kmalloc) (v : Vma) :
    Option (List Vma × Vma × List Kmalloc) :=
  if v.start < start then
    match ks.headD none with
    | none => none
    | some junk => some ([{ v with stop := start }], v.splitTail start junk, ks.tail)
  else some ([], v, ks)

/-- The loop; `ks` are the answers of `kmalloc` in order, and it fails once they run out. -/
def mprotectLoop (start stop : Nat) (prot : Prot) :
    List Kmalloc → List Vma → PageTable → Protecting
  | _, [], pt => ⟨[], pt, .ok ()⟩
  | ks, v :: rest, pt =>
      if v.stop ≤ start then
        let r := mprotectLoop start stop prot ks rest pt
        { r with vmas := v :: r.vmas }
      else if stop ≤ v.start then ⟨v :: rest, pt, .ok ()⟩
      else
        match splitFront start ks v with
        | none => ⟨v :: rest, pt, .error .enomem⟩
        | some (front, w, ks) =>
            if stop < w.stop then
              match ks.headD none with
              | none => ⟨front ++ w :: rest, pt, .error .enomem⟩
              | some junk =>
                  -- the tail begins at `stop`, where the loop ends
                  ⟨front ++ { w with stop := stop, prot := prot } :: w.splitTail stop junk :: rest,
                    setprotRange prot.access pt w.start stop, .ok ()⟩
            else
              let r := mprotectLoop start stop prot ks rest
                (setprotRange prot.access pt w.start w.stop)
              { r with vmas := front ++ { w with prot := prot } :: r.vmas }

def vmaMprotectLocked (p : Process) (addr len : Nat) (prot : Prot) (ks : List Kmalloc) :
    Protecting :=
  let stop := pageUp (u64 (addr + len))
  if addr % pageSize ≠ 0 then ⟨p.vmas, p.pt, .error .einval⟩
  else if len = 0 then ⟨p.vmas, p.pt, .ok ()⟩
  else if prot.writable && prot.executable then ⟨p.vmas, p.pt, .error .einval⟩
  else if stop ≤ addr then ⟨p.vmas, p.pt, .error .einval⟩
  else mprotectLoop addr stop prot ks p.vmas p.pt

def vmaMremapLocked (p : Process) (oldAddr oldSize newSize : Nat) (flags : BitVec 32) :
    Except Errno Nat :=
  let oldStop := u64 (oldAddr + pageUp oldSize)
  let newStop := u64 (oldAddr + pageUp newSize)
  if flags ≠ 0 then .error .einval
  else if oldAddr % pageSize ≠ 0 then .error .einval
  else if oldSize = 0 ∨ newSize = 0 then .error .einval
  else
    match vmaFind p.vmas oldAddr with
    | none => .error .efault
    | some v => if oldStop > v.stop ∨ newStop > v.stop then .error .enomem else .ok oldAddr

/-! ## Demand faults -/

/-- What a fault in a file mapping needs done with no lock held. -/
structure FaultIo where
  vn : Nat
  fileOff : Nat
  page : Nat
  prot : Prot
  deriving DecidableEq, Repr

inductive FaultResult where
  | sigsegv
  | nomem
  | needsIo (io : FaultIo)
  /-- the frame was zeroed and mapped -/
  | handled (pt : PageTable) (f : Frame)

/-- `vma_fault_locked`: `alloc` is what `pmm_alloc` answers and `tables` whether the page
tables on the way can be had. -/
def vmaFaultLocked (p : Process) (addr : Nat) (write : Bool) (alloc : Option Frame)
    (tables : Bool) : FaultResult :=
  match vmaFind p.vmas addr with
  | none => .sigsegv
  | some v =>
      if v.prot = protNone then .sigsegv
      else if write && !v.prot.writable then .sigsegv
      else if v.phys then .sigsegv
      else if v.file then
        if v.vn = 0 then .sigsegv
        else .needsIo ⟨v.vn, v.fileOff + (pageDown addr - v.start), pageDown addr, v.prot⟩
      else
        match alloc with
        | none => .nomem
        | some f =>
            if tables then .handled (mapInto p.pt (pageDown addr) (userPage f v.prot)) f
            else .nomem

/-- `vma_install_faulted_page_locked`: the page table if the frame was installed. -/
def vmaInstallFaultedPageLocked (p : Process) (io : FaultIo) (f : Frame) (tables : Bool) :
    Option PageTable :=
  match vmaFind p.vmas io.page with
  | none => none
  | some v =>
      if !v.file || v.vn ≠ io.vn then none
      else if v.fileOff + (io.page - v.start) ≠ io.fileOff then none
      else if (p.pt.lookup (pageOf io.page)).any (·.present) then none
      else if tables then some (mapInto p.pt io.page (userPage f io.prot))
      else none

theorem pageOf_pageDown (a : Nat) : pageOf (pageDown a) = pageOf a := by
  unfold pageOf pageDown
  rw [Nat.mul_div_cancel _ (by decide)]

theorem vmaFaultLocked_handled {p : Process} {addr : Nat} {write : Bool} {alloc : Option Frame}
    {tables : Bool} {pt : PageTable} {f : Frame}
    (h : vmaFaultLocked p addr write alloc tables = .handled pt f) :
    ∃ v, vmaFind p.vmas addr = some v ∧ alloc = some f ∧ v.prot ≠ protNone ∧ v.phys = false ∧
      pt = p.pt.insert (pageOf addr) (userPage f v.prot) := by
  revert h
  fun_cases vmaFaultLocked p addr write alloc tables <;> intro h <;> cases h
  next v hfind hprot _ hphys _ _ =>
    refine ⟨v, hfind, rfl, hprot, Bool.eq_false_of_not_eq_true hphys, ?_⟩
    rw [mapInto, pageOf_pageDown]
    rfl

theorem vmaInstallFaultedPageLocked_some {p : Process} {io : FaultIo} {f : Frame} {tables : Bool}
    {pt : PageTable} (h : vmaInstallFaultedPageLocked p io f tables = some pt) :
    ∃ v, vmaFind p.vmas io.page = some v ∧
      (v.file = true ∧ v.vn = io.vn ∧ v.fileOff + (io.page - v.start) = io.fileOff) ∧
      (p.pt.lookup (pageOf io.page)).any (·.present) = false ∧
      pt = p.pt.insert (pageOf io.page) (userPage f io.prot) := by
  revert h
  fun_cases vmaInstallFaultedPageLocked p io f tables <;> intro h <;> cases h
  next v hfind hfile hoff habs _ =>
    simp only [Bool.or_eq_true, Bool.not_eq_true', decide_eq_true_eq, not_or, not_not,
      Bool.not_eq_false] at hfile
    exact ⟨v, hfind, ⟨hfile.1, hfile.2, not_not.1 hoff⟩, Bool.eq_false_of_not_eq_true habs, rfl⟩

end NeoKernel.Vm
