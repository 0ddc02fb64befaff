import NeoKernel.Elf.Loader
import NeoKernel.Vm.Space

/-!
# What a loaded image looks like

The loader compares neither the addresses of a segment with `USER_ADDR_LIMIT` nor its file
offsets with the size of the image. What an image comes to can be told from its headers:
`layout` has the contents of the pages, where those of a later segment replace those of an
earlier one, and `Placed` says when they are what they should be.
-/
namespace NeoKernel.Elf
open Lib Vm Function List Option

variable {device : Frame → Bool} {im : Image} {h : Header} {base : Nat} {ph : ProgramHeader}
  {l l' l₀ : Loading} {r : Except Stop Loading}

/-! ## The image by itself -/

/-- The image with other memory around it. -/
def Image.within (im : Image) (around : Nat → Option Byte) : Image := { im with beyond := around }

/-- The image with nothing mapped around it. -/
def Image.alone (im : Image) : Image := im.within fun _ => none

section Alone

variable (around : Nat → Option Byte) {o n : Nat}

theorem Image.byte_alone (im : Image) (o : Nat) : im.alone.byte o = im.bytes[u64 o]? := by
  unfold Image.byte
  split
  · next b hb => exact hb.symm
  · next hb => exact hb.symm

theorem Image.read_of_alone {bs : List Byte} (hs : im.alone.read o n = some bs) :
    (im.within around).read o n = some bs := by
  induction n generalizing o bs with
  | zero => exact hs
  | succ n ih =>
      obtain ⟨b, hb, hs⟩ := bind_eq_some_iff.1 hs
      obtain ⟨bs', hbs', rfl⟩ := map_eq_some_iff.1 hs
      rw [Image.byte_alone] at hb
      have hbyte : (im.within around).byte o = some b := by
        unfold Image.byte
        rw [show (im.within around).bytes[u64 o]? = some b from hb]
      rw [Image.read, hbyte, bind_some, ih hbs']
      rfl

theorem Image.field_of_alone {v : Nat} (hs : im.alone.field o n = some v) :
    (im.within around).field o n = some v := by
  obtain ⟨bs, hbs, rfl⟩ := map_eq_some_iff.1 hs
  rw [Image.field, im.read_of_alone around hbs]
  rfl

theorem Image.header_of_alone (hs : im.alone.header = some h) :
    (im.within around).header = some h := by
  simp only [Image.header, bind_eq_bind, bind_eq_some_iff] at hs ⊢
  obtain ⟨ident, h₀, entry, h₁, phoff, h₂, phentsize, h₃, phnum, h₄, hs⟩ := hs
  exact ⟨ident, im.read_of_alone around h₀, entry, im.field_of_alone around h₁, phoff,
    im.field_of_alone around h₂, phentsize, im.field_of_alone around h₃, phnum,
    im.field_of_alone around h₄, hs⟩

theorem Image.programHeader_of_alone {i : Nat} (hs : im.alone.programHeader h i = some ph) :
    (im.within around).programHeader h i = some ph := by
  have hseen {c : Prop} [Decidable c] {o n v : Nat}
      (hv : (if c then im.alone.field o n else some 0) = some v) :
      (if c then (im.within around).field o n else some 0) = some v := by
    split at hv
    · next hc =>
        rw [if_pos hc]
        exact im.field_of_alone around hv
    · next hc =>
        rw [if_neg hc]
        exact hv
  simp only [Image.programHeader, bind_eq_bind, bind_eq_some_iff] at hs ⊢
  obtain ⟨type, h₀, flags, h₁, offset, h₂, vaddr, h₃, filesz, h₄, memsz, h₅, align, h₆, hs⟩ := hs
  exact ⟨type, im.field_of_alone around h₀, flags, hseen h₁, offset, hseen h₂, vaddr, hseen h₃,
    filesz, hseen h₄, memsz, hseen h₅, align, hseen h₆, hs⟩

theorem pageContent_of_alone {va : Nat} {content : Nat → Byte}
    (hs : pageContent im.alone ph base va = some content) :
    pageContent (im.within around) ph base va = some content := by
  unfold pageContent at hs ⊢
  dsimp only at hs ⊢
  split at hs
  · next hcopy =>
      obtain ⟨bs, hbs, rfl⟩ := map_eq_some_iff.1 hs
      rw [if_pos hcopy, im.read_of_alone around hbs]
      rfl
  · next hcopy =>
      rw [if_neg hcopy]
      exact hs

theorem Image.read_inside (im : Image) (o n : Nat) (h : o + n ≤ im.size) :
    ∃ bs, im.alone.read o n = some bs := by
  induction n generalizing o with
  | zero => exact ⟨[], rfl⟩
  | succ n ih =>
      obtain ⟨bs, hbs⟩ := ih (o + 1) (by omega)
      have hlt : o < im.bytes.length := by
        change o + (n + 1) ≤ im.bytes.length at h
        omega
      have hu : u64 o = o := Nat.mod_eq_of_lt (hlt.trans (im.small.trans (by decide)))
      refine ⟨im.bytes[o] :: bs, ?_⟩
      rw [Image.read, Image.byte_alone, hu, getElem?_eq_getElem hlt, bind_some, hbs]
      rfl

theorem Image.header_inside (im : Image) (h : headerSize ≤ im.size) :
    ∃ hdr, im.alone.header = some hdr := by
  have hfield (o n : Nat) (hle : o + n ≤ headerSize) : ∃ v, im.alone.field o n = some v := by
    obtain ⟨bs, hbs⟩ := im.read_inside o n (hle.trans h)
    exact ⟨Image.little bs, by rw [Image.field, hbs]; rfl⟩
  obtain ⟨ident, h₀⟩ := im.read_inside 0 5 (h.trans' (by decide))
  obtain ⟨entry, h₁⟩ := hfield 24 8 (by decide)
  obtain ⟨phoff, h₂⟩ := hfield 32 8 (by decide)
  obtain ⟨phentsize, h₃⟩ := hfield 54 2 (by decide)
  obtain ⟨phnum, h₄⟩ := hfield 56 2 (by decide)
  refine ⟨⟨ident, entry, phoff, phentsize, phnum⟩, ?_⟩
  simp only [Image.header, h₀, h₁, h₂, h₃, h₄, bind_eq_bind, bind_some, Option.pure_def]

end Alone

/-! ## What the headers ask for -/

/-- The loader refuses an image for this header. -/
def Refused (im : Image) (base : Nat) (ph : ProgramHeader) : Prop :=
  ph.type = ptInterp ∧ ((ph.filesz = 0 ∨ ph.filesz > interpMax) ∨
    u64 (ph.offset + ph.filesz) > im.size) ∨
  ph.type = ptLoad ∧ (ph.load base).refused = true

/-- What is read of the file for this header can be read. -/
def Inside (im : Image) (base : Nat) (ph : ProgramHeader) : Prop :=
  (ph.type = ptInterp → (im.read ph.offset ph.filesz).isSome) ∧
    (ph.type = ptLoad → ∀ va ∈ ph.pages base, (pageContent im ph base va).isSome)

/-- Header after header can be read, with what it asks for, until one is refused. -/
def Walks (im : Image) (h : Header) (base : Nat) : List Nat → Prop
  | [] => True
  | i :: is => ∃ ph ∈ im.programHeader h i,
      Refused im base ph ∨ Inside im base ph ∧ Walks im h base is

def Accepts (im : Image) (h : Header) (base : Nat) (is : List Nat) : Prop :=
  ∀ i ∈ is, ∀ ph ∈ im.programHeader h i, ¬Refused im base ph

/-- The `PT_LOAD` headers. -/
def Image.segments (im : Image) (h : Header) (is : List Nat) : List ProgramHeader :=
  is.filterMap fun i => (im.programHeader h i).filter (·.type = ptLoad)

/-- What pages are to contain, by their place in the page table. -/
abbrev Layout := Nat → Option (Nat → Byte)

def layPages (im : Image) (ph : ProgramHeader) (base : Nat) (vas : List Nat)
    (lay : Layout) : Layout :=
  vas.foldl (fun lay va => update lay (pageOf va) (pageContent im ph base va)) lay

def layout (im : Image) (base : Nat) (phs : List ProgramHeader) (lay : Layout) : Layout :=
  phs.foldl (fun lay ph => layPages im ph base (ph.pages base) lay) lay

def Layout.byteAt (lay : Layout) (a : Nat) : Option Byte :=
  if a < userAddrLimit then (lay (pageOf a)).map (· (a % pageSize)) else none

/-- The bytes of a segment are found at their addresses: those of the file, which are in the
image, and zero after them. -/
def Holds (im : Image) (base : Nat) (found : Nat → Option Byte) (ph : ProgramHeader) : Prop :=
  ∀ j < ph.memsz,
    (j < ph.filesz → ph.offset + j < im.size ∧
      found (ph.addr base + j) = im.bytes[ph.offset + j]?) ∧
    (ph.filesz ≤ j → found (ph.addr base + j) = some 0)

/-- The address ranges of two segments are disjoint. -/
def Apart (base : Nat) (a b : ProgramHeader) : Prop :=
  a.memsz = 0 ∨ b.memsz = 0 ∨ a.addr base + a.memsz ≤ b.addr base ∨
    b.addr base + b.memsz ≤ a.addr base

def Below (s : Nat) : Prop := pageSize * s + pageSize ≤ userAddrLimit

/-- Nothing outside of the image is read before a header is refused. If none is, the pages of the
segments lie below the limit, and where the segments are disjoint the last one that has the page
of a byte leaves this byte in it. -/
structure Placed (im : Image) (h : Header) (base : Nat) : Prop where
  inside : Walks im h base (range h.phnum)
  below : Accepts im h base (range h.phnum) → ∀ ph ∈ im.segments h (range h.phnum),
    ∀ va ∈ ph.pages base, Below (pageOf va)
  bytes : Accepts im h base (range h.phnum) →
    (im.segments h (range h.phnum)).Pairwise (Apart base) →
    ∀ ph ∈ im.segments h (range h.phnum),
      Holds im base (layout im base (im.segments h (range h.phnum)) fun _ => none).byteAt ph

/-- The loader reports failure; or the pages it has mapped lie below the limit and, where the
segments are disjoint, they hold their bytes. -/
def Confined (im : Image) (base : Nat) (l : Loading) : Except Stop Loading → Prop
  | .error t => t = .failed
  | .ok l' => (∀ s e, l'.pt.lookup s = some e → l.pt.lookup s = some e ∨ Below s) ∧
      ∀ h ∈ im.header, (im.segments h (range h.phnum)).Pairwise (Apart base) →
        ∀ ph ∈ im.segments h (range h.phnum), Holds im base l'.byteAt ph

/-! ## The layout -/

section Layouts

variable {lay : Layout} {vas : List Nat} {phs : List ProgramHeader} {s : Nat}

theorem layPages_isSome (hin : ∀ va ∈ vas, (pageContent im ph base va).isSome) :
    (layPages im ph base vas lay s).isSome ↔ (lay s).isSome ∨ s ∈ vas.map pageOf := by
  induction vas generalizing lay with
  | nil => simp [layPages]
  | cons va vas ih =>
      have hva := hin va mem_cons_self
      change (layPages im ph base vas (update lay _ _) s).isSome ↔ _
      rw [ih fun w hw => hin w (mem_cons_of_mem _ hw)]
      by_cases hs : s = pageOf va
      · subst hs
        simp [hva]
      · simp [hs]

theorem layout_isSome (lay : Layout)
    (hin : ∀ ph ∈ phs, ∀ va ∈ ph.pages base, (pageContent im ph base va).isSome) :
    (layout im base phs lay s).isSome ↔
      (lay s).isSome ∨ ∃ ph ∈ phs, s ∈ (ph.pages base).map pageOf := by
  induction phs generalizing lay with
  | nil => simp [layout]
  | cons ph phs ih =>
      change (layout im base phs (layPages im ph base _ lay) s).isSome ↔ _
      rw [ih _ fun q hq => hin q (mem_cons_of_mem _ hq), layPages_isSome (hin ph mem_cons_self)]
      rw [exists_mem_cons_iff]
      exact or_assoc

theorem Image.segments_cons {i : Nat} {is : List Nat} (hph : im.programHeader h i = some ph) :
    im.segments h (i :: is) = (if ph.type = ptLoad then [ph] else []) ++ im.segments h is := by
  unfold Image.segments
  rw [filterMap_cons, hph, Option.filter_some]
  by_cases htype : ph.type = ptLoad
  · simp [htype]
  · simp [htype]

theorem Walks.inside {is : List Nat} (hw : Walks im h base is) (hacc : Accepts im h base is) :
    ∀ ph ∈ im.segments h is, ∀ va ∈ ph.pages base, (pageContent im ph base va).isSome := by
  induction is with
  | nil => exact fun ph hph => absurd hph not_mem_nil
  | cons i is ih =>
      obtain ⟨q, hq, hw⟩ := hw
      obtain ⟨hin, hw⟩ := hw.resolve_left (hacc i mem_cons_self q hq)
      have hrest := ih hw fun j hj => hacc j (mem_cons_of_mem _ hj)
      intro ph hph
      rw [Image.segments_cons hq, mem_append] at hph
      rcases hph with hph | hph
      · obtain ⟨htype, hph⟩ := mem_ite_nil_right.1 hph
        cases mem_singleton.1 hph
        exact hin.2 htype
      · exact hrest ph hph

end Layouts

/-! ## What the loader leaves -/

/-- The pages of the layout are mapped to frames in use that hold their contents, and the rest of
the page table is as it was. -/
structure Laid (l₀ : Loading) (lay : Layout) (l : Loading) : Prop where
  laid : ∀ s c, lay s = some c →
    ∃ e, l.pt.lookup s = some e ∧ l.m.mem e.frame = c ∧ l.m.refcount e.frame ≠ 0
  rest : ∀ s, lay s = none → l.pt.lookup s = l₀.pt.lookup s
  tables : ∀ x ∈ l.left, x.tables = true

/-- The load reports failure, or ends in a state with `P`: the machine does not stop. -/
def Ends (P : Loading → Prop) : Except Stop Loading → Prop
  | .error t => t = .failed
  | .ok l => P l

theorem Laid.start (htables : ∀ x ∈ l.left, x.tables = true) (out : ElfInfo) :
    Laid l (fun _ => none) { l with out } :=
  ⟨fun _ _ hc => absurd hc (by simp), fun _ _ => rfl, htables⟩

section Laid

variable {lay : Layout} {vas : List Nat} {is : List Nat} {i : Nat}

theorem Laid.addPage {x : PageMem} {xs : List PageMem} (hl : Laid l₀ lay l)
    (hleft : l.left = x :: xs) (hfree : l.m.Free device x.frame) (prot : Prot) (va : Nat)
    (content : Nat → Byte) :
    Laid l₀ (update lay (pageOf va) (some content)) (l.addPage x prot va content) := by
  have hx : x.tables = true := hl.tables x (hleft ▸ mem_cons_self)
  have hpt : (l.addPage x prot va content).pt = mapInto l.pt va (userPage x.frame prot) := if_pos hx
  refine ⟨fun s c hc => ?_, fun s hs => ?_, fun y hy => hl.tables y (mem_of_mem_tail hy)⟩
  · rw [hpt]
    by_cases heq : s = pageOf va
    · subst heq
      rw [update_self] at hc
      cases hc
      refine ⟨_, AList.lookup_insert .., update_self .., ?_⟩
      change update l.m.refcount x.frame 1 x.frame ≠ 0
      rw [update_self]
      exact Nat.one_ne_zero
    · rw [update_of_ne heq] at hc
      obtain ⟨e, he, hmem, hused⟩ := hl.laid s c hc
      -- a frame in use is not the one that was free
      have hne : e.frame ≠ x.frame := fun h => hused (h ▸ hfree.1)
      refine ⟨e, (AList.lookup_insert_ne heq).trans he, ?_, ?_⟩
      · change update l.m.mem x.frame content e.frame = c
        rw [update_of_ne hne, hmem]
      · change update l.m.refcount x.frame 1 e.frame ≠ 0
        rwa [update_of_ne hne]
  · have hne : s ≠ pageOf va := fun h => by simp [h] at hs
    rw [update_of_ne hne] at hs
    rw [hpt]
    exact (AList.lookup_insert_ne hne).trans (hl.rest s hs)

theorem loadPages_laid (device : Frame → Bool)
    (hin : ∀ va ∈ vas, (pageContent im ph base va).isSome) (hl : Laid l₀ lay l) :
    Ends (Laid l₀ (layPages im ph base vas lay)) (loadPages device im ph base vas l) := by
  induction vas generalizing l lay with
  | nil => exact hl
  | cons va vas ih =>
      obtain ⟨content, hcontent⟩ := isSome_iff_exists.1 (hin va mem_cons_self)
      unfold loadPages
      split
      · rfl
      next x xs hleft =>
      split
      · next hfree =>
          rw [hcontent]
          have hadd := hl.addPage hleft hfree (ph.load base).segment.prot va content
          rw [← hcontent] at hadd
          exact ih (fun w hw => hin w (mem_cons_of_mem _ hw)) hadd
      · rfl

theorem loadHeader_refused (hph : im.programHeader h i = some ph) (href : Refused im base ph) :
    loadHeader device im h base i l = .error .failed := by
  unfold loadHeader
  rw [hph]
  dsimp only
  rcases href with ⟨htype, hsize⟩ | ⟨htype, hwx⟩
  · rw [if_pos htype]
    unfold loadInterp
    rcases hsize with hsize | hsize
    · rw [if_pos hsize]
    · rw [if_pos hsize, ite_self]
  · rw [if_neg (by rw [htype]; decide), if_neg (by rw [htype]; decide), if_neg (not_not.2 htype)]
    unfold loadSegment
    rw [if_pos hwx]

theorem loadHeader_laid (device : Frame → Bool) (hph : im.programHeader h i = some ph)
    (hin : Inside im base ph) (hl : Laid l₀ lay l) :
    Ends (fun l' => ¬Refused im base ph ∧
      Laid l₀ (layout im base (if ph.type = ptLoad then [ph] else []) lay) l')
      (loadHeader device im h base i l) := by
  unfold loadHeader
  rw [hph]
  dsimp only
  by_cases hload : ph.type = ptLoad
  · have hinterp : ph.type ≠ ptInterp := by rw [hload]; decide
    have htls : ph.type ≠ ptTls := by rw [hload]; decide
    rw [if_pos hload, if_neg hinterp, if_neg htls, if_neg (not_not.2 hload)]
    unfold loadSegment
    split
    · rfl
    next hwx =>
    have hends := loadPages_laid device (hin.2 hload)
      (l := { l with out := findPhdr h ph base l.out }) ⟨hl.laid, hl.rest, hl.tables⟩
    generalize loadPages device im ph base (ph.pages base) _ = r at hends
    cases r with
    | error t => exact hends
    | ok l' => exact ⟨fun h => h.elim (hinterp ·.1) (hwx ·.2), hends.laid, hends.rest, hends.tables⟩
  -- the other headers leave the memory as it is
  rw [if_neg hload, if_pos hload]
  by_cases hinterp : ph.type = ptInterp
  · obtain ⟨path, hpath⟩ := isSome_iff_exists.1 (hin.1 hinterp)
    rw [if_pos hinterp]
    unfold loadInterp
    rw [hpath]
    split
    · rfl
    next hlen =>
    split
    · rfl
    next hsize =>
    exact ⟨fun h => h.elim (fun h => h.2.elim hlen hsize) (hload ·.1), hl.laid, hl.rest, hl.tables⟩
  · have hnot : ¬Refused im base ph := fun h => h.elim (hinterp ·.1) (hload ·.1)
    rw [if_neg hinterp]
    split
    · exact ⟨hnot, hl.laid, hl.rest, hl.tables⟩
    · exact ⟨hnot, hl⟩

theorem layout_append (phs qs : List ProgramHeader) :
    layout im base (phs ++ qs) lay = layout im base qs (layout im base phs lay) :=
  foldl_append

theorem loadHeaders_laid (hw : Walks im h base is) (hl : Laid l₀ lay l) :
    Ends (fun l' => Accepts im h base is ∧ Laid l₀ (layout im base (im.segments h is) lay) l')
      (loadHeaders device im h base is l) := by
  induction is generalizing l lay with
  | nil => exact ⟨fun i hi => absurd hi not_mem_nil, hl⟩
  | cons i is ih =>
      obtain ⟨ph, hph, hw⟩ := hw
      unfold loadHeaders
      rcases hw with href | ⟨hin, hw⟩
      · rw [loadHeader_refused hph href]
        rfl
      have hone := loadHeader_laid device hph hin hl
      cases hr : loadHeader device im h base i l with
      | error t =>
          rw [hr] at hone
          exact hone
      | ok l₁ =>
          rw [hr] at hone
          have hrest := ih hw hone.2
          rw [Image.segments_cons hph, layout_append]
          dsimp only
          generalize loadHeaders device im h base is l₁ = r at hrest
          cases r with
          | error t => exact hrest
          | ok l' =>
              refine ⟨fun j hj q hq => ?_, hrest.2⟩
              rcases mem_cons.1 hj with rfl | hj
              · cases hph.symm.trans hq
                exact hone.1
              · exact hrest.1 j hj q hq

theorem Laid.byteAt (hl : Laid l₀ lay l) {a : Nat} {b : Byte} (hb : lay.byteAt a = some b) :
    l.byteAt a = some b := by
  unfold Layout.byteAt at hb
  unfold Loading.byteAt
  split at hb
  · next hlt =>
      obtain ⟨c, hc, rfl⟩ := map_eq_some_iff.1 hb
      obtain ⟨e, he, hmem, -⟩ := hl.laid _ c hc
      rw [if_pos hlt, he, ← hmem]
      rfl
  · cases hb

/-- With no other pages in the table nothing else is found. -/
theorem Laid.byteAt_eq (hl : Laid l₀ lay l) (hnone : l₀.pt = ∅) : l.byteAt = lay.byteAt := by
  funext a
  cases hb : lay.byteAt a with
  | some b => exact hl.byteAt hb
  | none =>
      unfold Layout.byteAt at hb
      unfold Loading.byteAt
      split at hb
      · next hlt =>
          rw [if_pos hlt, hl.rest _ (map_eq_none_iff.1 hb), hnone]
          rfl
      · next hlt => rw [if_neg hlt]

end Laid

/-! ## The loader and the memory around the image -/

section Around

variable (around : Nat → Option Byte) {vas is : List Nat} {i : Nat}

theorem loadPages_alone (hin : ∀ va ∈ vas, (pageContent im.alone ph base va).isSome) :
    loadPages device (im.within around) ph base vas l =
      loadPages device im.alone ph base vas l := by
  induction vas generalizing l with
  | nil => rfl
  | cons va vas ih =>
      obtain ⟨content, hcontent⟩ := isSome_iff_exists.1 (hin va mem_cons_self)
      have hrest := fun l => ih (l := l) fun w hw => hin w (mem_cons_of_mem _ hw)
      unfold loadPages
      rw [hcontent, pageContent_of_alone around hcontent]
      simp only [hrest]

theorem loadHeader_alone (hph : im.alone.programHeader h i = some ph)
    (hin : Inside im.alone base ph) :
    loadHeader device (im.within around) h base i l = loadHeader device im.alone h base i l := by
  unfold loadHeader
  rw [hph, im.programHeader_of_alone around hph]
  dsimp only
  split
  · next htype =>
      obtain ⟨path, hpath⟩ := isSome_iff_exists.1 (hin.1 htype)
      unfold loadInterp
      rw [hpath, im.read_of_alone around hpath]
      rfl
  split
  · rfl
  split
  · rfl
  · next htype =>
      unfold loadSegment
      rw [loadPages_alone around (hin.2 (not_not.1 htype))]

theorem loadHeaders_alone (hw : Walks im.alone h base is) :
    loadHeaders device (im.within around) h base is l =
      loadHeaders device im.alone h base is l := by
  induction is generalizing l with
  | nil => rfl
  | cons i is ih =>
      obtain ⟨ph, hph, hw⟩ := hw
      unfold loadHeaders
      rcases hw with href | ⟨hin, hw⟩
      · rw [loadHeader_refused hph href,
          loadHeader_refused (im.programHeader_of_alone around hph) href]
      · rw [loadHeader_alone around hph hin]
        split
        · rfl
        · exact ih hw

end Around

/-! ## A machine with memory enough -/

/-- At least `n` frames, and tables for the pages. -/
def Supply (n : Nat) (l : Loading) : Prop :=
  ∃ k d, l.left = (range' k (n + d)).map (⟨·, true⟩) ∧ ∀ f ≥ k, l.m.refcount f = 0

section Supply

variable {vas is : List Nat} {i n : Nat}

theorem loadPages_supply (hs : Supply (vas.length + n) l)
    (hne : loadPages (fun _ => false) im ph base vas l ≠ .error .halted) :
    (∀ va ∈ vas, (pageContent im ph base va).isSome) ∧
      ∃ l', loadPages (fun _ => false) im ph base vas l = .ok l' ∧ Supply n l' := by
  induction vas generalizing l with
  | nil =>
      rw [length_nil, Nat.zero_add] at hs
      exact ⟨fun va hva => absurd hva not_mem_nil, l, rfl, hs⟩
  | cons va vas ih =>
      obtain ⟨k, d, hleft, hfree⟩ := hs
      rw [length_cons, Nat.add_right_comm _ 1, Nat.add_right_comm _ 1, range'_succ,
        map_cons] at hleft
      unfold loadPages at hne ⊢
      rw [hleft] at hne ⊢
      dsimp only at hne ⊢
      rw [if_pos ⟨hfree k le_rfl, rfl⟩] at hne ⊢
      split at hne
      · exact absurd rfl hne
      next content hcontent =>
      have hsupply : Supply (vas.length + n)
          (l.addPage ⟨k, true⟩ (ph.load base).segment.prot va content) :=
        ⟨k + 1, d, congrArg List.tail hleft, fun f hf =>
          (update_of_ne (Nat.ne_of_gt hf) ..).trans (hfree f (Nat.le_of_succ_le hf))⟩
      obtain ⟨hin, hok⟩ := ih hsupply hne
      refine ⟨fun w hw => ?_, hok⟩
      rcases mem_cons.1 hw with rfl | hw
      · rw [hcontent]
        rfl
      · exact hin w hw

theorem loadHeader_supply (hph : im.programHeader h i = some ph)
    (hs : Supply ((ph.pages base).length + n) l)
    (hne : loadHeader (fun _ => false) im h base i l ≠ .error .halted) :
    Refused im base ph ∨ Inside im base ph ∧
      ∃ l', loadHeader (fun _ => false) im h base i l = .ok l' ∧ Supply n l' := by
  have hfewer : Supply n l := by
    obtain ⟨k, d, hleft, hfree⟩ := hs
    exact ⟨k, (ph.pages base).length + d, by rw [hleft, Nat.add_comm _ n, Nat.add_assoc], hfree⟩
  unfold loadHeader at hne ⊢
  rw [hph] at hne ⊢
  dsimp only at hne ⊢
  by_cases hload : ph.type = ptLoad
  · have hinterp : ph.type ≠ ptInterp := by rw [hload]; decide
    have htls : ph.type ≠ ptTls := by rw [hload]; decide
    rw [if_neg hinterp, if_neg htls, if_neg (not_not.2 hload)] at hne ⊢
    unfold loadSegment at hne ⊢
    split at hne
    · next hwx => exact .inl (.inr ⟨hload, hwx⟩)
    next hwx =>
    rw [if_neg hwx]
    obtain ⟨hin, l', hok, hsupply⟩ := loadPages_supply
      (l := { l with out := findPhdr h ph base l.out }) hs fun hstop => hne (by rw [hstop]; rfl)
    rw [hok]
    exact .inr ⟨⟨fun h => absurd h hinterp, fun _ => hin⟩, _, rfl, hsupply⟩
  by_cases hinterp : ph.type = ptInterp
  · rw [if_pos hinterp] at hne ⊢
    unfold loadInterp at hne ⊢
    split at hne
    · next hlen => exact .inl (.inl ⟨hinterp, .inl hlen⟩)
    next hlen =>
    split at hne
    · next hsize => exact .inl (.inl ⟨hinterp, .inr hsize⟩)
    next hsize =>
    split at hne
    · exact absurd rfl hne
    next path hpath =>
    rw [if_neg hlen, if_neg hsize]
    exact .inr ⟨⟨fun _ => by rw [hpath]; rfl, fun h => absurd h hload⟩, _, rfl, hfewer⟩
  · rw [if_neg hinterp] at hne ⊢
    refine .inr ⟨⟨fun h => absurd h hinterp, fun h => absurd h hload⟩, ?_⟩
    rw [if_pos hload]
    split
    · exact ⟨_, rfl, hfewer⟩
    · exact ⟨_, rfl, hfewer⟩

theorem loadHeaders_supply (im : Image) (h : Header) (base : Nat) (is : List Nat) :
    ∃ n, ∀ l, Supply n l → loadHeaders (fun _ => false) im h base is l ≠ .error .halted →
      Walks im h base is ∧ (Accepts im h base is →
        ∃ l', loadHeaders (fun _ => false) im h base is l = .ok l') := by
  induction is with
  | nil => exact ⟨0, fun l _ _ => ⟨trivial, fun _ => ⟨l, rfl⟩⟩⟩
  | cons i is ih =>
      obtain ⟨n, ih⟩ := ih
      cases hph : im.programHeader h i with
      | none =>
          refine ⟨0, fun l _ hne => absurd ?_ hne⟩
          unfold loadHeaders loadHeader
          rw [hph]
      | some ph =>
          refine ⟨(ph.pages base).length + n, fun l hs hne => ?_⟩
          unfold loadHeaders at hne ⊢
          have hone := loadHeader_supply hph hs fun hstop => hne (by rw [hstop])
          rcases hone with href | ⟨hin, l₁, hok, hsupply⟩
          · exact ⟨⟨ph, hph, .inl href⟩, fun hacc => absurd href (hacc i mem_cons_self ph hph)⟩
          rw [hok] at hne ⊢
          obtain ⟨hw, hacc⟩ := ih l₁ hsupply hne
          exact ⟨⟨ph, hph, .inr ⟨hin, hw⟩⟩, fun h => hacc fun j hj => h j (mem_cons_of_mem _ hj)⟩

end Supply

def plenty (n : Nat) : Loading where
  m := ⟨∅, fun _ => 0, fun _ _ => 0, [], [], fun _ _ => 0⟩
  pt := ∅
  left := (range' 1 n).map (⟨·, true⟩)
  out := {}

theorem plenty_tables (n : Nat) : ∀ x ∈ (plenty n).left, x.tables = true := by
  intro x hx
  obtain ⟨k, -, rfl⟩ := mem_map.1 hx
  rfl

/-! ## The loader -/

theorem Placed.confined {around : Nat → Option Byte} (hpl : Placed im.alone h base)
    (hh : im.alone.header = some h) (htables : ∀ x ∈ l.left, x.tables = true) (out : ElfInfo) :
    Confined im.alone base l (loadHeaders device (im.within around) h base (range h.phnum)
      { l with out }) := by
  have hends : Ends _ (loadHeaders device im.alone h base _ _) :=
    loadHeaders_laid hpl.inside (Laid.start htables out)
  rw [loadHeaders_alone around hpl.inside]
  generalize loadHeaders device im.alone h base _ _ = r at hends
  cases r with
  | error t => exact hends
  | ok l' =>
      obtain ⟨hacc, hlaid⟩ := hends
      refine ⟨fun s e he => ?_, fun h' hh' hap ph hph j hj => ?_⟩
      · cases hs : layout im.alone base (im.alone.segments h (range h.phnum)) (fun _ => none) s with
        | none => exact .inl ((hlaid.rest s hs).symm.trans he)
        | some c =>
            have hsome := (layout_isSome _ (hpl.inside.inside hacc)).1 (isSome_of_eq_some hs)
            obtain ⟨ph, hph, hs⟩ := hsome.resolve_left (by simp)
            obtain ⟨va, hva, rfl⟩ := mem_map.1 hs
            exact .inr (hpl.below hacc ph hph va hva)
      · cases hh.symm.trans hh'
        obtain ⟨hfile, hzero⟩ := hpl.bytes hacc hap ph hph j hj
        refine ⟨fun hlt => ?_, fun hge => hlaid.byteAt (hzero hge)⟩
        obtain ⟨hin, hbyte⟩ := hfile hlt
        rw [getElem?_eq_getElem hin] at hbyte ⊢
        exact ⟨hin, hlaid.byteAt hbyte⟩

theorem placed_of_confined (hh : im.header = some h) (nox : Bool)
    (hall : ∀ n, Confined im base (plenty n) (loadHeaders (fun _ => false) im h base
      (range h.phnum) { plenty n with out := { isNox := nox } })) : Placed im h base := by
  obtain ⟨n, hn⟩ := loadHeaders_supply im h base (range h.phnum)
  have hconf := hall n
  obtain ⟨hw, hok⟩ := hn { plenty n with out := { isNox := nox } } ⟨1, 0, rfl, fun _ _ => rfl⟩
    fun hstop => by
      rw [hstop] at hconf
      cases (hconf : Stop.halted = .failed)
  have hlaid : Ends _ (loadHeaders (fun _ => false) im h base _ _) :=
    loadHeaders_laid hw (Laid.start (plenty_tables n) { isNox := nox })
  have hsucc (hacc : Accepts im h base (range h.phnum)) : ∃ l',
      Confined im base (plenty n) (.ok l') ∧
        Laid (plenty n) (layout im base (im.segments h (range h.phnum)) fun _ => none) l' := by
    obtain ⟨l', hl'⟩ := hok hacc
    rw [hl'] at hconf hlaid
    exact ⟨l', hconf, hlaid.2⟩
  refine ⟨hw, fun hacc ph hph va hva => ?_, fun hacc hap ph hph => ?_⟩
  · obtain ⟨l', hc, hl⟩ := hsucc hacc
    have hsome := (layout_isSome (fun _ => none) (hw.inside hacc)).2
      (.inr ⟨ph, hph, mem_map_of_mem hva⟩)
    obtain ⟨c, hlay⟩ := isSome_iff_exists.1 hsome
    obtain ⟨e, he, -⟩ := hl.laid _ c hlay
    exact (hc.1 _ e he).resolve_left nofun
  · obtain ⟨l', hc, hl⟩ := hsucc hacc
    have hholds := hc.2 h hh hap ph hph
    rwa [hl.byteAt_eq rfl] at hholds

theorem Confined.map {f : Loading → Loading} (hpt : ∀ l, (f l).pt = l.pt) (hm : ∀ l, (f l).m = l.m)
    (r : Except Stop Loading) : Confined im base l (r.map f) ↔ Confined im base l r := by
  cases r with
  | error t => rfl
  | ok l' =>
      have hbyte : (f l').byteAt = l'.byteAt := by
        unfold Loading.byteAt
        rw [hpt, hm]
      change (_ ∧ _) ↔ (_ ∧ _)
      rw [hpt, hbyte]

theorem elfLoadAt_confined (im : Image) (hsize : headerSize ≤ im.size) (hh : im.header = some h)
    {nox : Bool} (hvalid : isValidImage h = some nox) :
    Confined im.alone base l (elfLoadAt device im base l) ↔ Confined im.alone base l
      (loadHeaders device im h base (range h.phnum) { l with out := { isNox := nox } }) := by
  unfold elfLoadAt
  rw [if_neg (not_lt.2 hsize), hh]
  dsimp only
  rw [hvalid]
  apply Confined.map
  · exact fun _ => rfl
  · exact fun _ => rfl

section Decide

variable (im : Image) (h : Header) (base : Nat)

instance (ph : ProgramHeader) : Decidable (Refused im base ph) :=
  inferInstanceAs (Decidable (_ ∨ _))

instance (ph : ProgramHeader) : Decidable (Inside im base ph) :=
  inferInstanceAs (Decidable (_ ∧ _))

instance : DecidablePred (Walks im h base)
  | [] => .isTrue trivial
  | i :: is =>
      have : Decidable (Walks im h base is) := instDecidablePredListNatWalks is
      decidable_of_iff (((im.programHeader h i).any fun ph =>
        decide (Refused im base ph ∨ Inside im base ph ∧ Walks im h base is)) = true) <| by
          simp [Walks, Option.any_eq_true]

instance (is : List Nat) : Decidable (Accepts im h base is) :=
  inferInstanceAs (Decidable (∀ i ∈ is, ∀ ph ∈ im.programHeader h i, ¬Refused im base ph))

instance (found : Nat → Option Byte) (ph : ProgramHeader) : Decidable (Holds im base found ph) :=
  inferInstanceAs (Decidable (∀ j < ph.memsz, _ ∧ _))

instance (a b : ProgramHeader) : Decidable (Apart base a b) := inferInstanceAs (Decidable (_ ∨ _))

instance (s : Nat) : Decidable (Below s) := inferInstanceAs (Decidable (_ ≤ _))

instance : Decidable (Placed im h base) :=
  decidable_of_iff (_ ∧ _ ∧ _) ⟨fun h => ⟨h.1, h.2.1, h.2.2⟩, fun h => ⟨h.inside, h.below, h.bytes⟩⟩

end Decide

def encode (n v : Nat) : List Byte := (List.range n).map fun k => BitVec.ofNat 8 (v / 256 ^ k)

def ProgramHeader.encode (ph : ProgramHeader) : List Byte :=
  Elf.encode 4 ph.type ++ Elf.encode 4 ph.flags.toNat ++ Elf.encode 8 ph.offset ++
    Elf.encode 8 ph.vaddr ++ Elf.encode 8 0 ++ Elf.encode 8 ph.filesz ++ Elf.encode 8 ph.memsz ++
    Elf.encode 8 ph.align

def executable (phs : List ProgramHeader) (content : List Byte) : List Byte :=
  [0x7f, 0x45, 0x4c, 0x46, 2] ++ encode 11 0 ++ encode 8 0 ++ encode 8 0x400000 ++
    encode 8 headerSize ++ encode 8 0 ++ encode 4 0 ++ encode 2 headerSize ++
    encode 2 programHeaderSize ++ encode 2 phs.length ++ encode 6 0 ++
    phs.flatMap ProgramHeader.encode ++ content

/-- Three segments: the third is in a page of the second, where the second has only zeros. -/
def threeSegments : Image where
  bytes := executable [⟨ptLoad, 5, 232, 0x3ff010, 2, 4, 4096⟩,
    ⟨ptLoad, 4, 234, 0x400fff, 1, 3, 4096⟩, ⟨ptLoad, 6, 235, 0x401800, 2, 4, 4096⟩] [1, 2, 3, 4, 5]
  beyond _ := none
  small := by decide +kernel

/-- A segment where the physical memory is mapped for the kernel. -/
def kernelSegment : Image where
  bytes := executable [⟨ptLoad, 4, 120, 0xffff800000000000, 1, 1, 4096⟩] [1]
  beyond _ := none
  small := by decide +kernel

def pastTheEnd : Image where
  bytes := executable [⟨ptLoad, 4, 4096, 0x400000, 1, 1, 4096⟩] [1]
  beyond o := if o = 4096 then some 0x2a else none
  small := by decide +kernel

def sharedPage : Image where
  bytes := executable [⟨ptLoad, 4, 176, 0x400000, 1, 1, 4096⟩,
    ⟨ptLoad, 6, 177, 0x400001, 1, 1, 4096⟩] [1, 2]
  beyond _ := none
  small := by decide +kernel

end NeoKernel.Elf
