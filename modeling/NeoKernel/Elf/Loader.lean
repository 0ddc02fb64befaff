import NeoKernel.Vm.Exec

/-!
# The loader of executables (kernel/elf.c)

The image is a buffer in kernel memory. Most of the offsets it names are not compared with its
size: one past the end reads what lies there, or stops the machine where nothing is mapped.
`left` is what `pmm_alloc` and the page tables will answer.
-/
namespace NeoKernel.Elf
open Lib Vm

def headerSize : Nat := 64
def programHeaderSize : Nat := 56
def interpMax : Nat := 128

def ptLoad : Nat := 1
def ptInterp : Nat := 3
def ptTls : Nat := 7

structure Image where
  bytes : List Byte
  /-- what ring 0 finds at an offset past the end, none where nothing is mapped -/
  beyond : Nat → Option Byte
  /-- the size is a `uint32_t` -/
  small : bytes.length < 2 ^ 32

structure Header where
  ident : List Byte
  entry : Nat
  phoff : Nat
  phentsize : Nat
  phnum : Nat

structure ProgramHeader where
  type : Nat
  flags : BitVec 32
  offset : Nat
  vaddr : Nat
  filesz : Nat
  memsz : Nat
  align : Nat
  deriving DecidableEq, Repr

namespace Image

def size (im : Image) : Nat := im.bytes.length

def byte (im : Image) (o : Nat) : Option Byte :=
  match im.bytes[u64 o]? with
  | some b => some b
  | none => im.beyond (u64 o)

def read (im : Image) : Nat → Nat → Option (List Byte)
  | _, 0 => some []
  | o, n + 1 => (im.byte o).bind fun b => (im.read (o + 1) n).map (b :: ·)

def little : List Byte → Nat
  | [] => 0
  | b :: bs => b.toNat + 256 * little bs

def field (im : Image) (o n : Nat) : Option Nat := (im.read o n).map little

def header (im : Image) : Option Header := do
  let ident ← im.read 0 5
  let entry ← im.field 24 8
  let phoff ← im.field 32 8
  let phentsize ← im.field 54 2
  let phnum ← im.field 56 2
  return ⟨ident, entry, phoff, phentsize, phnum⟩

/-- The fields that the loader looks at in a header of its type; the others are taken as zero. -/
def programHeader (im : Image) (h : Header) (i : Nat) : Option ProgramHeader := do
  let o := h.phoff + i * h.phentsize
  let type ← im.field o 4
  let seen (types : List Nat) (k n : Nat) := if type ∈ types then im.field (o + k) n else some 0
  let flags ← seen [ptLoad] 4 4
  let offset ← seen [ptInterp, ptLoad] 8 8
  let vaddr ← seen [ptTls, ptLoad] 16 8
  let filesz ← seen [ptInterp, ptTls, ptLoad] 32 8
  let memsz ← seen [ptTls, ptLoad] 40 8
  let align ← seen [ptTls] 48 8
  return ⟨type, flags, offset, vaddr, filesz, memsz, align⟩

end Image

/-- `is_valid_image`: none if the header is refused, else whether the magic is NOX. -/
def isValidImage (h : Header) : Option Bool :=
  match h.ident with
  | [0x7f, 0x45, 0x4c, 0x46, 2] => some false
  | [0x7f, 0x4e, 0x4f, 0x58, 2] => some true
  | _ => none

structure ElfInfo where
  entry : Nat := 0
  interp : Option (List Byte) := none
  loadBase : Nat := 0
  isNox : Bool := false
  phdr : Nat := 0
  phentsize : Nat := 0
  phnum : Nat := 0
  tlsVaddr : Nat := 0
  tlsFilesz : Nat := 0
  tlsMemsz : Nat := 0
  tlsAlign : Nat := 0
  segments : List Segment := []

/-- What one page gets: a frame, and whether the tables on the way can be had. -/
structure PageMem where
  frame : Frame
  tables : Bool

structure Loading where
  m : Machine
  pt : PageTable
  left : List PageMem
  out : ElfInfo

/-- Why a load does not succeed: it reports failure, or the machine stops at an offset where
nothing is mapped. -/
inductive Stop where
  | failed
  | halted
  deriving DecidableEq, Repr

namespace ProgramHeader

def addr (ph : ProgramHeader) (base : Nat) : Nat := u64 (ph.vaddr + base)

def load (ph : ProgramHeader) (base : Nat) : Phdr := ⟨ph.addr base, ph.memsz, ph.flags⟩

def pages (ph : ProgramHeader) (base : Nat) : List Nat :=
  Vm.pages (ph.load base).segment.start (ph.load base).segment.stop

def copyStart (ph : ProgramHeader) (base va : Nat) : Nat := max (ph.addr base) va
def copyEnd (ph : ProgramHeader) (base va : Nat) : Nat :=
  min (u64 (ph.addr base + ph.filesz)) (u64 (va + pageSize))

end ProgramHeader

def pageContent (im : Image) (ph : ProgramHeader) (base va : Nat) : Option (Nat → Byte) :=
  let start := ph.copyStart base va
  if ph.copyEnd base va > start then
    (im.read (ph.offset + (start - ph.addr base)) (ph.copyEnd base va - start)).map
      fun bs k => if start - va ≤ k then (bs[k - (start - va)]?).getD 0 else 0
  else some fun _ => 0

/-- A page is filled and mapped. That `paging_map_into` fails is not looked at. -/
def Loading.addPage (l : Loading) (x : PageMem) (prot : Prot) (va : Nat) (content : Nat → Byte) :
    Loading :=
  { l with
    m := l.m.alloc x.frame content
    pt := if x.tables then mapInto l.pt va (userPage x.frame prot) else l.pt
    left := l.left.tail }

def loadPages (device : Frame → Bool) (im : Image) (ph : ProgramHeader) (base : Nat) :
    List Nat → Loading → Except Stop Loading
  | [], l => .ok l
  | va :: vas, l =>
      match l.left with
      | [] => .error .failed
      | x :: _ =>
          if l.m.Free device x.frame then
            match pageContent im ph base va with
            | none => .error .halted
            | some content =>
                loadPages device im ph base vas
                  (l.addPage x (ph.load base).segment.prot va content)
          else .error .failed

/-- A `PT_INTERP` header: its path, ended by a zero. -/
def loadInterp (im : Image) (ph : ProgramHeader) (l : Loading) : Except Stop Loading :=
  if ph.filesz = 0 ∨ ph.filesz > interpMax then .error .failed
  else if u64 (ph.offset + ph.filesz) > im.size then .error .failed
  else
    match im.read ph.offset ph.filesz with
    | none => .error .halted
    | some path => .ok { l with out := { l.out with interp := some (path.set (ph.filesz - 1) 0) } }

def loadTls (ph : ProgramHeader) (base : Nat) (l : Loading) : Loading :=
  { l with out := { l.out with
      tlsVaddr := ph.addr base
      tlsFilesz := ph.filesz
      tlsMemsz := ph.memsz
      tlsAlign := if ph.align = 0 then 1 else ph.align } }

/-- Where the program headers are in memory, if this segment covers them. -/
def findPhdr (h : Header) (ph : ProgramHeader) (base : Nat) (out : ElfInfo) : ElfInfo :=
  if h.phoff ≥ ph.offset ∧ h.phoff < u64 (ph.offset + ph.filesz) then
    { out with phdr := u64 (ph.vaddr + base + (h.phoff - ph.offset)) }
  else out

def recordSegment (s : Segment) (out : ElfInfo) : ElfInfo :=
  if out.segments.length < elfMaxLoadSegments then { out with segments := out.segments ++ [s] }
  else out

def loadSegment (device : Frame → Bool) (im : Image) (h : Header) (ph : ProgramHeader) (base : Nat)
    (l : Loading) : Except Stop Loading :=
  if (ph.load base).refused then .error .failed
  else
    (loadPages device im ph base (ph.pages base)
      { l with out := findPhdr h ph base l.out }).map fun l =>
        { l with out := recordSegment (ph.load base).segment l.out }

def loadHeader (device : Frame → Bool) (im : Image) (h : Header) (base i : Nat) (l : Loading) :
    Except Stop Loading :=
  match im.programHeader h i with
  | none => .error .halted
  | some ph =>
      if ph.type = ptInterp then loadInterp im ph l
      else if ph.type = ptTls then .ok (loadTls ph base l)
      else if ph.type ≠ ptLoad then .ok l
      else loadSegment device im h ph base l

def loadHeaders (device : Frame → Bool) (im : Image) (h : Header) (base : Nat) :
    List Nat → Loading → Except Stop Loading
  | [], l => .ok l
  | i :: is, l =>
      match loadHeader device im h base i l with
      | .error t => .error t
      | .ok l => loadHeaders device im h base is l

def elfLoadAt (device : Frame → Bool) (im : Image) (base : Nat) (l : Loading) :
    Except Stop Loading :=
  if im.size < headerSize then .error .failed
  else
    match im.header with
    | none => .error .halted
    | some h =>
        match isValidImage h with
        | none => .error .failed
        | some nox =>
            (loadHeaders device im h base (List.range h.phnum)
              { l with out := { isNox := nox } }).map fun l =>
                { l with out := { l.out with
                    entry := u64 (h.entry + base)
                    loadBase := base
                    phentsize := h.phentsize
                    phnum := h.phnum } }

/-- What a program finds at an address. -/
def Loading.byteAt (l : Loading) (a : Nat) : Option Byte :=
  if a < userAddrLimit then (l.pt.lookup (pageOf a)).map fun e => l.m.mem e.frame (a % pageSize)
  else none

/-! ## The loader as exec sees it

A load that succeeds is one of `Vm.elfLoadAt`, which `exec_task` is modelled with, for the
`PT_LOAD` headers of the image and for pages filled from it.
-/

def Image.loads (im : Image) (h : Header) (base : Nat) (is : List Nat) : List Phdr :=
  is.filterMap fun i => (im.programHeader h i).bind fun ph =>
    if ph.type = ptLoad then some (ph.load base) else none

section Exec

variable {device : Frame → Bool} {im : Image} {h : Header} {base : Nat} {l l' : Loading}

theorem loadPages_mapPages {ph : ProgramHeader} {vas : List Nat}
    (hs : loadPages device im ph base vas l = .ok l') :
    ∃ gs, ∀ rest, mapPages device (ph.load base).segment.prot vas l.m l.pt (gs ++ rest) =
      some ⟨l'.m, l'.pt, rest, true⟩ := by
  induction vas generalizing l with
  | nil =>
      cases hs
      exact ⟨[], fun rest => rfl⟩
  | cons va vas ih =>
      unfold loadPages at hs
      split at hs
      · cases hs
      next x xs hleft =>
      split at hs
      · next hfree =>
          split at hs
          · cases hs
          next content hcontent =>
          obtain ⟨gs, hgs⟩ := ih hs
          refine ⟨⟨x.frame, content, x.tables⟩ :: gs, fun rest => ?_⟩
          rw [List.cons_append, mapPages, if_pos hfree]
          exact hgs rest
      · cases hs

theorem loadHeader_elfLoadAt {i : Nat} (hs : loadHeader device im h base i l = .ok l') :
    ∃ gs, ∀ rest, Vm.elfLoadAt device (im.loads h base [i]) l.m l.pt (gs ++ rest) =
      some ⟨l'.m, l'.pt, rest, true⟩ := by
  unfold loadHeader at hs
  split at hs
  · cases hs
  next ph hph =>
  -- only a `PT_LOAD` header is one that exec sees
  have hskip : ph.type ≠ ptLoad → im.loads h base [i] = [] := fun hne => by
    simp [Image.loads, hph, hne]
  split at hs
  · next htype =>
      have hne : ph.type ≠ ptLoad := by rw [htype]; decide
      unfold loadInterp at hs
      split at hs
      · cases hs
      split at hs
      · cases hs
      split at hs
      · cases hs
      · cases hs
        exact ⟨[], fun rest => by rw [hskip hne]; rfl⟩
  split at hs
  · next htype =>
      have hne : ph.type ≠ ptLoad := by rw [htype]; decide
      cases hs
      exact ⟨[], fun rest => by rw [hskip hne]; rfl⟩
  split at hs
  · next hne =>
      cases hs
      exact ⟨[], fun rest => by rw [hskip hne]; rfl⟩
  · next htype =>
      have hload : im.loads h base [i] = [ph.load base] := by
        simp [Image.loads, hph, not_not.1 htype]
      unfold loadSegment at hs
      split at hs
      · cases hs
      next hrefused =>
      cases hr : loadPages device im ph base (ph.pages base)
          { l with out := findPhdr h ph base l.out } with
      | error t =>
          rw [hr] at hs
          cases hs
      | ok l₁ =>
          rw [hr] at hs
          cases hs
          obtain ⟨gs, hgs⟩ := loadPages_mapPages hr
          refine ⟨gs, fun rest => ?_⟩
          have hpages : mapPages device (ph.load base).segment.prot (pages _ _) _ _ _ = _ :=
            hgs rest
          rw [hload, Vm.elfLoadAt, if_neg hrefused, hpages]
          rfl

theorem elfLoadAt_append {loads more : List Phdr} {m m' : Machine} {pt pt' : PageTable}
    {gs rest : List Grant} (hs : Vm.elfLoadAt device loads m pt gs = some ⟨m', pt', rest, true⟩) :
    Vm.elfLoadAt device (loads ++ more) m pt gs = Vm.elfLoadAt device more m' pt' rest := by
  induction loads generalizing m pt gs with
  | nil =>
      cases hs
      rfl
  | cons ph loads ih =>
      rw [Vm.elfLoadAt] at hs
      rw [List.cons_append, Vm.elfLoadAt]
      split at hs
      · cases hs
      next hrefused =>
      obtain ⟨b, hb, hs⟩ := Option.bind_eq_some_iff.1 hs
      rw [if_neg hrefused, hb, Option.bind_some]
      split at hs
      · next hok =>
          rw [if_pos hok]
          exact ih hs
      · next hok =>
          cases hs
          exact absurd rfl hok

theorem loadHeaders_elfLoadAt {is : List Nat} (hs : loadHeaders device im h base is l = .ok l') :
    ∃ gs, ∀ rest, Vm.elfLoadAt device (im.loads h base is) l.m l.pt (gs ++ rest) =
      some ⟨l'.m, l'.pt, rest, true⟩ := by
  induction is generalizing l with
  | nil =>
      cases hs
      exact ⟨[], fun rest => rfl⟩
  | cons i is ih =>
      unfold loadHeaders at hs
      split at hs
      · cases hs
      next l₁ hone =>
      obtain ⟨gs, hgs⟩ := loadHeader_elfLoadAt hone
      obtain ⟨gs', hgs'⟩ := ih hs
      refine ⟨gs ++ gs', fun rest => ?_⟩
      have hsplit : im.loads h base (i :: is) = im.loads h base [i] ++ im.loads h base is := by
        unfold Image.loads
        rw [← List.filterMap_append]
        rfl
      rw [hsplit, List.append_assoc, elfLoadAt_append (hgs _)]
      exact hgs' rest

theorem elfLoadAt_exec (hs : elfLoadAt device im base l = .ok l') :
    ∃ h gs, im.header = some h ∧
      Vm.elfLoadAt device (im.loads h base (List.range h.phnum)) l.m l.pt gs =
        some ⟨l'.m, l'.pt, [], true⟩ := by
  unfold elfLoadAt at hs
  split at hs
  · cases hs
  split at hs
  · cases hs
  next h hh =>
  split at hs
  · cases hs
  next nox _ =>
  cases hr : loadHeaders device im h base (List.range h.phnum)
      { l with out := { isNox := nox } } with
  | error t =>
      rw [hr] at hs
      cases hs
  | ok l₁ =>
      rw [hr] at hs
      cases hs
      obtain ⟨gs, hgs⟩ := loadHeaders_elfLoadAt hr
      have hexact := hgs []
      rw [List.append_nil] at hexact
      exact ⟨h, gs, hh, hexact⟩

end Exec

end NeoKernel.Elf
