import NeoKernel.Vm.Perm

/-!
# munmap, mprotect and file pages, address by address

What is seen at an address is the protection, the flags and the file page of the mapping that
covers it. munmap takes away what is seen in its range, mprotect changes the protection there, and
the second half of a fault installs the file page that is seen.
-/
namespace NeoKernel.Vm
open Lib Function Machine List Option

/-- What the mapping at an address is like, and the page of the file behind it. -/
abbrev Seen := Prot × BitVec 32 × Option (Nat × Nat)

def Vma.seen (v : Vma) (a : Nat) : Seen := (v.prot, v.flags, v.backing a)

def seenAt (vmas : List Vma) (a : Nat) : Option Seen := (vmaFind vmas a).map (·.seen a)

def Shows (vmas : List Vma) (a : Nat) (x : Seen) : Prop :=
  ∃ v ∈ vmas, (v.start ≤ a ∧ a < v.stop) ∧ v.seen a = x

section Views

variable {rights keeps ok : Prop} {l l' vs : List Vma} {v : Vma} {pt pt' : PageTable}
  {fs : List Frame}
  {start stop a s : Nat} {prot : Prot} {x y : Seen}
  {step : Vma → PageTable → List Vma → PageTable → List Frame → Prop}

theorem seenAt_eq_some_iff (h : Laid rights l) : seenAt l a = some x ↔ Shows l a x := by
  rw [seenAt, map_eq_some_iff]
  constructor
  · rintro ⟨v, hv, hx⟩
    obtain ⟨hmem, hin⟩ := vmaFind_mem hv
    exact ⟨v, hmem, hin, hx⟩
  · rintro ⟨v, hv, ⟨hlo, hhi⟩, hx⟩
    exact ⟨v, vmaFind_of_mem h hv hlo hhi, hx⟩

theorem shows_append : Shows (vs ++ l) a x ↔ Shows vs a x ∨ Shows l a x := by
  simp only [Shows, mem_append, or_and_right, exists_or]

theorem shows_singleton : Shows [v] a x ↔ (v.start ≤ a ∧ a < v.stop) ∧ v.seen a = x := by
  simp [Shows]

theorem Recut.shows {stay : Nat → Prop} {prot : Nat → Prot}
    (h : Recut rights keeps v stay prot v.start v.stop vs) (hk : keeps) :
    Shows vs a y ↔ (v.start ≤ a ∧ a < v.stop) ∧ stay a ∧ (prot a, v.flags, v.backing a) = y := by
  constructor
  · rintro ⟨w, hw, ⟨hlo, hhi⟩, rfl⟩
    obtain ⟨hprot, hkeep⟩ := h.same w hw a hlo hhi
    obtain ⟨hstay, hback⟩ := hkeep hk
    refine ⟨⟨(h.above w hw).trans hlo, hhi.trans_le (h.below w hw)⟩, hstay, ?_⟩
    rw [Vma.seen, hprot, h.flags w hw, hback]
  · rintro ⟨⟨hlo, hhi⟩, hstay, rfl⟩
    obtain ⟨w, hw, hin⟩ := h.left a hlo hhi hstay
    obtain ⟨hprot, hkeep⟩ := h.same w hw a hin.1 hin.2
    refine ⟨w, hw, hin, ?_⟩
    rw [Vma.seen, hprot, h.flags w hw, (hkeep hk).2]

theorem Edit.seenAt {T : Seen → Option Seen} (h : Edit step l pt l' pt' fs) (hl : Laid rights l)
    (hl' : Laid rights l') (hstep : ∀ v ∈ l, ∀ {pt vs pt' fs}, step v pt vs pt' fs →
      ∀ y, Shows vs a y ↔ ∃ x, Shows [v] a x ∧ T x = some y) :
    seenAt l' a = (seenAt l a).bind T := by
  have hshows : ∀ y, Shows l' a y ↔ ∃ x, Shows l a x ∧ T x = some y := by
    clear hl hl'
    induction h with
    | nil => simp [Shows]
    | @cons v l vs l' pt pt' pt'' fs fs' hv _ ih =>
        obtain ⟨hhead, htail⟩ := forall_mem_cons.1 hstep
        intro y
        rw [shows_append, hhead hv, ih htail, ← exists_or]
        simp only [← or_and_right, ← shows_append]
        rfl
  ext y
  rw [seenAt_eq_some_iff hl', hshows, bind_eq_some_iff]
  simp only [seenAt_eq_some_iff hl]

theorem Unmap.laid {pre : List Vma} (h : Unmap rights start stop ok v pt vs pt' fs)
    (hl : Laid rights (pre ++ v :: l)) : Laid rights (pre ++ (vs ++ l)) := by
  cases h with
  | cut hvs => exact hl.replace hvs.toPieces

theorem Unmap.shows (h : Unmap rights start stop True v pt vs pt' fs) (y : Seen) :
    Shows vs a y ↔ ∃ x, Shows [v] a x ∧
    (if start ≤ a ∧ a < stop then none else some x) = some y := by
  cases h with
  | cut hvs =>
      rw [hvs.shows trivial]
      simp only [shows_singleton]
      constructor
      · rintro ⟨hv, hstay, hy⟩
        exact ⟨y, ⟨hv, hy⟩, if_neg hstay⟩
      · rintro ⟨x, ⟨hv, hx⟩, hy⟩
        obtain ⟨hstay, ⟨⟩⟩ := ite_none_left_eq_some.1 hy
        exact ⟨hv, hstay, hx⟩

theorem Unmap.lookup (h : Unmap rights start stop ok v pt vs pt' fs) (hstart : pageSize ∣ start)
    (hv : v.Ok rights) : pt'.lookup s =
      if (start ≤ pageSize * s ∧ pageSize * s < stop) ∧ v.Covers s then none else pt.lookup s := by
  cases h with
  | cut =>
      obtain ⟨hlo, hhi⟩ := hv.cut hstart stop
      rw [lookup_unmapRange pt hlo hhi]
      refine if_congr ?_ rfl rfl
      unfold Vma.Covers
      omega

theorem Edit.lookup_unmap (h : Edit (Unmap rights start stop ok) l pt l' pt' fs)
    (hstart : pageSize ∣ start) (hl : ∀ v ∈ l, v.Ok rights) : pt'.lookup s =
      if (start ≤ pageSize * s ∧ pageSize * s < stop) ∧ ∃ v ∈ l, v.Covers s then none
      else pt.lookup s := by
  induction h with
  | nil => simp
  | cons hv _ ih =>
      obtain ⟨hhead, htail⟩ := forall_mem_cons.1 hl
      rw [ih htail, hv.lookup hstart hhead, ← ite_or]
      refine if_congr ?_ rfl rfl
      rw [exists_mem_cons_iff, ← and_or_left, or_comm]

theorem Protect.laid {pre : List Vma} (h : Protect rights start stop prot ok v pt vs pt' fs)
    (hl : Laid rights (pre ++ v :: l)) : Laid rights (pre ++ (vs ++ l)) := by
  cases h with
  | fail _ hvs => exact hl.replace hvs.toPieces
  | change hvs => exact hl.replace hvs.toPieces

theorem Protect.shows (h : Protect rights start stop prot True v pt vs pt' fs)
    (hv : v.Unsplit start stop) (y : Seen) :
    Shows vs a y ↔ ∃ x, Shows [v] a x ∧
      some (if start ≤ a ∧ a < stop then prot else x.1, x.2) = some y := by
  cases h with
  | fail hok => exact absurd trivial hok
  | change hvs =>
      rw [hvs.shows hv]
      simp only [shows_singleton, some_inj]
      constructor
      · rintro ⟨hin, -, hy⟩
        exact ⟨v.seen a, ⟨hin, rfl⟩, hy⟩
      · rintro ⟨x, ⟨hin, rfl⟩, hy⟩
        exact ⟨hin, trivial, hy⟩

theorem Protect.frame (h : Protect rights start stop prot ok v pt vs pt' fs)
    (hstart : pageSize ∣ start)
    (hv : v.Ok rights) : (pt'.lookup s).map (·.frame) = (pt.lookup s).map (·.frame) := by
  cases h with
  | fail => rfl
  | change =>
      obtain ⟨hlo, hhi⟩ := hv.cut hstart stop
      rw [lookup_setprotRange _ pt hlo hhi]
      split
      · cases prot.access <;> simp [comp_def, Pte.setprot]
      · rfl

theorem Edit.frame_protect (h : Edit (Protect rights start stop prot ok) l pt l' pt' fs)
    (hstart : pageSize ∣ start) (hl : ∀ v ∈ l, v.Ok rights) :
    (pt'.lookup s).map (·.frame) = (pt.lookup s).map (·.frame) := by
  induction h with
  | nil => rfl
  | cons hv _ ih =>
      obtain ⟨hhead, htail⟩ := forall_mem_cons.1 hl
      exact (ih htail).trans (hv.frame hstart hhead)

end Views

section Calls

variable {rights : Prop} {P : Process} {addr len : Nat} {kmalloc : Bool}

theorem vmaMunmapLocked_eq (haddr : addr < 2 ^ 64) (hlen : len < 2 ^ 64) (hdvd : pageSize ∣ len)
    (hrc : (vmaMunmapLocked P addr len kmalloc).rc = .ok ()) :
    (pageSize ∣ addr ∧ addr < addr + len) ∧
      vmaMunmapLocked P addr len kmalloc = munmapLoop addr (addr + len) kmalloc P.vmas P.pt := by
  unfold vmaMunmapLocked at hrc ⊢
  dsimp only at hrc ⊢
  split at hrc
  · cases hrc
  next haligned =>
  split at hrc
  · cases hrc
  next hlt =>
  have hstart : pageSize ∣ addr := Nat.dvd_of_mod_eq_zero (not_not.1 haligned)
  have hstop : pageUp (u64 (addr + len)) = addr + len := by
    unfold pageUp u64 at hlt ⊢
    unfold pageSize at *
    omega
  rw [hstop] at hlt ⊢
  exact ⟨⟨hstart, not_le.1 hlt⟩, by rw [if_neg haligned, if_neg hlt]⟩

/-- After a munmap that succeeds no address of the range is covered or has a page, and at every
other address the mapping, the file page behind it and the entry are as before. That is so exactly
if each page of the range that has an entry lies in a mapping: `unmap_range` is called for the part
of the range that a mapping covers, and for nothing else. -/
theorem munmap_removes_range (hl : Laid rights P.vmas)
    (haddr : addr < 2 ^ 64) (hlen : len < 2 ^ 64) (hdvd : pageSize ∣ len)
    (hrc : (vmaMunmapLocked P addr len kmalloc).rc = .ok ()) :
    (∀ a s, seenAt (vmaMunmapLocked P addr len kmalloc).vmas a =
        (if addr ≤ a ∧ a < addr + len then none else seenAt P.vmas a) ∧
      (vmaMunmapLocked P addr len kmalloc).pt.lookup s =
        if addr ≤ pageSize * s ∧ pageSize * s < addr + len then none else P.pt.lookup s) ↔
    ∀ s e, P.pt.lookup s = some e → addr ≤ pageSize * s ∧ pageSize * s < addr + len →
      ∃ v ∈ P.vmas, v.Covers s := by
  obtain ⟨⟨hstart, hlt⟩, heq⟩ := vmaMunmapLocked_eq haddr hlen hdvd hrc
  rw [heq] at hrc ⊢
  have hedit := munmapLoop_edit hstart (dvd_add hstart hdvd) hlt kmalloc hl P.pt
  have hlaid := hedit.invariant (I := fun vs _ => Laid rights vs) [] Unmap.laid hl
  rw [eq_true hrc] at hedit
  have hlook := fun s => hedit.lookup_unmap hstart hl.ok (s := s)
  constructor
  · intro h s e hs hin
    by_contra hno
    have hgone := (h 0 s).2
    rw [hlook, if_neg (fun hc => hno hc.2), if_pos hin, hs] at hgone
    cases hgone
  · intro hpt a s
    constructor
    · rw [hedit.seenAt hl hlaid fun v _ => Unmap.shows]
      cases seenAt P.vmas a <;> simp
    · rw [hlook]
      cases hs : P.pt.lookup s with
      | none => simp
      | some e =>
          by_cases hin : addr ≤ pageSize * s ∧ pageSize * s < addr + len
          · rw [if_pos ⟨hin, hpt s e hs hin⟩, if_pos hin]
          · rw [if_neg (fun hc => hin hc.1), if_neg hin]

def fileBetween : Process where
  vmas := [⟨0x1000, 0x2000, protRead, mapPrivate, 0, 0⟩,
    ⟨0x2000, 0x5000, protRead, mapPrivate ||| vmaFile, 7, 0x1000⟩,
    ⟨0x5000, 0x6000, protRead ||| protWrite, mapPrivate, 0, 0⟩]
  mmapNext := mmapBase
  pt := (∅ : PageTable).insert 3 (userPage 9 protRead)

theorem laid_fileBetween : Laid True fileBetween.vmas := by
  refine ⟨?_, by decide⟩
  intro v hv
  simp only [fileBetween, mem_cons, not_mem_nil, or_false] at hv
  rcases hv with rfl | rfl | rfl <;>
    exact ⟨by decide, by decide, by decide, by decide, fun _ => by decide⟩

theorem munmap_removes_middle :
    seenAt (vmaMunmapLocked fileBetween 0x3000 0x1000 true).vmas 0x3008 = none ∧
      seenAt (vmaMunmapLocked fileBetween 0x3000 0x1000 true).vmas 0x4008 =
        some (protRead, mapPrivate ||| vmaFile, some (7, 0x3008)) ∧
      (vmaMunmapLocked fileBetween 0x3000 0x1000 true).pt.lookup 3 = none := by
  have hpt : ∀ s e, fileBetween.pt.lookup s = some e → ∃ v ∈ fileBetween.vmas, v.Covers s := by
    intro s e he
    obtain ⟨rfl, -⟩ | ⟨-, he⟩ := Table.lookup_insert_cases he
    · decide
    · simp at he
  have h := (munmap_removes_range laid_fileBetween (show 0x3000 < 2 ^ 64 by decide)
    (show 0x1000 < 2 ^ 64 by decide) (by decide)
    (show (vmaMunmapLocked _ _ _ true).rc = .ok () by decide)).2 fun s e hs _ => hpt s e hs
  exact ⟨(h 0x3008 0).1, (h 0x4008 0).1.trans (by decide), (h 0 3).2⟩

/-- A program of seventeen one-page segments after exec: `elf_load` maps them all and records
`ELF_MAX_LOAD_SEGMENTS` of them, so that the last one has its page and no mapping. -/
def unrecordedSegment : Process where
  vmas := (range 16).map fun i =>
    ⟨0x400000 + 0x1000 * i, 0x401000 + 0x1000 * i, protRead, mapPrivate, 0, 0⟩
  mmapNext := mmapBase
  pt := (∅ : PageTable).insert 0x410 (userPage 9 protRead)

/-- munmap of that segment returns 0 and leaves its page in place. -/
theorem munmap_leaves_page :
    Laid True unrecordedSegment.vmas ∧
      (vmaMunmapLocked unrecordedSegment 0x410000 0x1000 true).rc = .ok () ∧
      (vmaMunmapLocked unrecordedSegment 0x410000 0x1000 true).pt.lookup 0x410 =
        some (userPage 9 protRead) := by
  refine ⟨⟨?_, by decide⟩, by decide, by decide⟩
  intro v hv
  obtain ⟨i, hi, rfl⟩ := mem_map.1 hv
  have hlt := mem_range.1 hi
  have hwx : protRead.writable = true → protRead.executable = false := by decide
  refine ⟨?_, ?_, ?_, ?_, fun _ => hwx⟩ <;> simp only [pageSize, userAddrLimit] <;> omega

theorem vmaMprotectLocked_eq {prot : Prot} {ks : List Kmalloc}
    (hrc : (vmaMprotectLocked P addr len prot ks).rc = .ok ()) :
    (pageUp (u64 (addr + len)) ≤ addr ∧
        vmaMprotectLocked P addr len prot ks = ⟨P.vmas, P.pt, .ok ()⟩) ∨
      (pageSize ∣ addr ∧ addr < pageUp (u64 (addr + len)) ∧
        (prot.writable = true → prot.executable = false)) ∧
      ∀ ks', vmaMprotectLocked P addr len prot ks' =
        mprotectLoop addr (pageUp (u64 (addr + len))) prot ks' P.vmas P.pt := by
  unfold vmaMprotectLocked at hrc ⊢
  dsimp only at hrc ⊢
  split at hrc
  · cases hrc
  next haligned =>
  rw [if_neg haligned]
  split at hrc
  · next hlen =>
      refine .inl ⟨?_, if_pos hlen⟩
      unfold pageUp u64
      unfold pageSize at *
      omega
  next hlen =>
  rw [if_neg hlen]
  split at hrc
  · cases hrc
  next hwx =>
  split at hrc
  · cases hrc
  next hlt =>
  refine .inr ⟨⟨Nat.dvd_of_mod_eq_zero (not_not.1 haligned), not_le.1 hlt, by simpa using hwx⟩, ?_⟩
  intro ks'
  rw [if_neg haligned, if_neg hlen, if_neg hwx, if_neg hlt]

theorem mprotectLoop_laid {start stop : Nat} {prot : Prot} {l : List Vma}
    (hstart : pageSize ∣ start)
    (hstop : pageSize ∣ stop) (hlt : start < stop)
    (hwx : prot.writable = true → prot.executable = false) (ks : List Kmalloc)
    (hl : Laid rights l) (pt : PageTable) :
    Laid rights (mprotectLoop start stop prot ks l pt).vmas :=
  (mprotectLoop_edit hstart hstop hlt hwx ks hl pt).invariant (I := fun vs _ => Laid rights vs) []
    Protect.laid hl

theorem splitFront_replicate (start n : Nat) (j : Nat × Nat) (v : Vma) :
    ∃ front w k, splitFront start (replicate (n + 1) (some j)) v =
        some (front, w, replicate k (some j)) ∧ n ≤ k ∧ w.stop = v.stop ∧ w.flags = v.flags ∧
      (v.start < start → w.start = start ∧ w.vn = j.1) := by
  unfold splitFront
  split
  · exact ⟨_, _, n, rfl, le_rfl, rfl, rfl, fun _ => ⟨rfl, rfl⟩⟩
  · next hfrom => exact ⟨_, _, n + 1, rfl, n.le_succ, rfl, rfl, fun h => absurd h hfrom⟩

/-- With memory for every mapping that it splits the loop ends well. Where the range cuts a
mapping, the piece that begins there has the file words of its memory. -/
theorem mprotectLoop_replicate {start stop n : Nat} {l : List Vma} (prot : Prot) (j : Nat × Nat)
    (hlt : start < stop) (hl : Laid rights l) (hn : 2 * l.length ≤ n) (pt : PageTable) :
    (mprotectLoop start stop prot (replicate n (some j)) l pt).rc = .ok () ∧
      ∀ v ∈ l, ∀ pos, pos = start ∨ pos = stop → v.start < pos → pos < v.stop →
        ∃ w ∈ (mprotectLoop start stop prot (replicate n (some j)) l pt).vmas,
          w.start = pos ∧ pos < w.stop ∧ w.flags = v.flags ∧ w.vn = j.1 := by
  induction l generalizing n pt with
  | nil => exact ⟨rfl, by simp⟩
  | cons u rest ih =>
      have hsorted := (pairwise_cons.1 hl.sorted).1
      have hu := (hl.ok u mem_cons_self).lt
      rw [length_cons] at hn
      obtain ⟨n, rfl⟩ : ∃ k, n = k + 1 + 1 := ⟨n - 2, by omega⟩
      unfold mprotectLoop
      split
      · next hbefore =>
          obtain ⟨hrc, hcut⟩ := ih hl.tail (show 2 * rest.length ≤ n + 1 + 1 by omega) pt
          refine ⟨hrc, forall_mem_cons.2 ⟨by omega, fun v hv pos hpos hlo hhi => ?_⟩⟩
          obtain ⟨w, hw, hfacts⟩ := hcut v hv pos hpos hlo hhi
          exact ⟨w, mem_cons_of_mem _ hw, hfacts⟩
      next hbefore =>
      split
      · next hafter =>
          refine ⟨rfl, forall_mem_cons.2 ⟨by omega, fun v hv pos hpos hlo hhi => ?_⟩⟩
          have hle := hsorted v hv
          omega
      next hafter =>
      obtain ⟨front, w, k, hfront, hk, hstop, hflags, hcutStart⟩ :=
        splitFront_replicate start (n + 1) j u
      obtain ⟨k, rfl⟩ : ∃ i, k = i + 1 := ⟨k - 1, by omega⟩
      rw [hfront]
      dsimp only
      split
      · next hbeyond =>
          refine ⟨rfl, forall_mem_cons.2
            ⟨fun pos hpos hlo hhi => ?_, fun v hv pos hpos hlo hhi => ?_⟩⟩
          · obtain rfl | rfl := hpos
            · obtain ⟨hwstart, hvn⟩ := hcutStart hlo
              exact ⟨{ w with stop := stop, prot := prot }, mem_append_right _ mem_cons_self,
                hwstart, hlt, hflags, hvn⟩
            · exact ⟨w.splitTail pos j, mem_append_right _ (mem_cons_of_mem _ mem_cons_self), rfl,
                hbeyond, hflags, rfl⟩
          · have hle := hsorted v hv
            omega
      · next hwithin =>
          obtain ⟨hrc, hcut⟩ := ih hl.tail (show 2 * rest.length ≤ k + 1 by omega)
            (setprotRange prot.access pt w.start w.stop)
          refine ⟨hrc, forall_mem_cons.2
            ⟨fun pos hpos hlo hhi => ?_, fun v hv pos hpos hlo hhi => ?_⟩⟩
          · obtain rfl : pos = start := by omega
            obtain ⟨hwstart, hvn⟩ := hcutStart hlo
            exact ⟨{ w with prot := prot }, by simp, hwstart, hhi.trans_eq hstop.symm, hflags, hvn⟩
          · obtain ⟨x, hx, hfacts⟩ := hcut v hv pos hpos hlo hhi
            exact ⟨x, by simp [hx], hfacts⟩

/-- What a mprotect that succeeds is to leave: the protection changed in its range and nothing
else. The mappings cover the same addresses with the same flags and file pages, and every page
keeps its frame, whose contents are not written. -/
def OnlyProtects (device : Frame → Bool) (m : Machine) (p : Pid) (P : Process) (addr len : Nat)
    (prot : Prot) (ks : List Kmalloc) : Prop :=
  ∃ m' Q, vmStep device m (.mprotect p addr len prot ks) = some m' ∧ m'.proc p = some Q ∧
    m'.mem = m.mem ∧ ∀ a,
      seenAt Q.vmas a = (seenAt P.vmas a).map (fun x =>
        (if addr ≤ a ∧ a < pageUp (u64 (addr + len)) then prot else x.1, x.2)) ∧
      (Machine.entry Q a).map (·.frame) = (Machine.entry P a).map (·.frame)

theorem onlyProtects_of_unsplit {device : Frame → Bool} {m : Machine} {p : Pid} {prot : Prot}
    {ks : List Kmalloc} (hP : m.proc p = some P) (hl : Laid rights P.vmas)
    (hrc : (vmaMprotectLocked P addr len prot ks).rc = .ok ())
    (hcut : addr < pageUp (u64 (addr + len)) →
      ∀ v ∈ P.vmas, v.Unsplit addr (pageUp (u64 (addr + len)))) :
    OnlyProtects device m p P addr len prot ks := by
  have hs : vmStep device m (.mprotect p addr len prot ks) = some (m.setProc p
      { P with vmas := (vmaMprotectLocked P addr len prot ks).vmas,
               pt := (vmaMprotectLocked P addr len prot ks).pt }) := by
    rw [vmStep, hP]
    rfl
  refine ⟨_, _, hs, AList.lookup_insert _, rfl, fun a => ?_⟩
  obtain ⟨hempty, heq⟩ | ⟨⟨hstart, hlt, hwx⟩, heq⟩ := vmaMprotectLocked_eq hrc
  · rw [heq]
    refine ⟨?_, rfl⟩
    have hout : ¬(addr ≤ a ∧ a < pageUp (u64 (addr + len))) := by omega
    simp [hout]
  · rw [heq] at hrc ⊢
    have hedit := mprotectLoop_edit hstart (dvd_pageUp _) hlt hwx ks hl P.pt
    have hlaid := mprotectLoop_laid hstart (dvd_pageUp _) hlt hwx ks hl P.pt
    constructor
    · rw [eq_true hrc] at hedit
      rw [hedit.seenAt hl hlaid fun v hv _ _ _ _ h => h.shows (hcut hlt v hv)]
      exact (map_eq_bind ..).symm
    · have hframe := hedit.frame_protect hstart hl.ok (s := pageOf a)
      unfold entry
      split
      · exact hframe
      · rfl

/-- A mprotect that can succeed changes only protection, whatever memory `kmalloc` gives it,
exactly if its range is empty or neither begins nor ends inside of a file mapping. -/
theorem mprotect_changes_protection (device : Frame → Bool) {m : Machine} {p : Pid} {prot : Prot}
    {ks : List Kmalloc} (hP : m.proc p = some P) (hl : Laid rights P.vmas)
    (hrc : (vmaMprotectLocked P addr len prot ks).rc = .ok ()) :
    (∀ ks', (vmaMprotectLocked P addr len prot ks').rc = .ok () →
      OnlyProtects device m p P addr len prot ks') ↔
    (addr < pageUp (u64 (addr + len)) →
      ∀ v ∈ P.vmas, v.Unsplit addr (pageUp (u64 (addr + len)))) := by
  constructor
  · intro h hlt v hv hfile
    obtain ⟨hempty, -⟩ | ⟨⟨hstart, -, hwx⟩, heq⟩ := vmaMprotectLocked_eq hrc
    · exact absurd hlt (not_lt.2 hempty)
    -- the memory for the pieces names another file
    obtain ⟨hok, hpieces⟩ := mprotectLoop_replicate prot (v.vn + 1, 0) hlt hl
      le_rfl P.pt
    have hlaid := mprotectLoop_laid hstart (dvd_pageUp _) hlt hwx
      (replicate (2 * P.vmas.length) (some (v.vn + 1, 0))) hl P.pt
    have hkeeps : ∀ pos, pos = addr ∨ pos = pageUp (u64 (addr + len)) →
        ¬(v.start < pos ∧ pos < v.stop) := by
      rintro pos hpos ⟨hlo, hhi⟩
      obtain ⟨w, hw, hwstart, hwstop, hflags, hvn⟩ := hpieces v hv pos hpos hlo hhi
      have hseen := (seenAt_eq_some_iff hlaid).2 ⟨w, hw, ⟨hwstart.le, hwstop⟩, rfl⟩
      have hbefore := (seenAt_eq_some_iff hl).2 ⟨v, hv, ⟨hlo.le, hhi⟩, rfl⟩
      obtain ⟨m', Q, hs, hQ, -, hall⟩ := h _ ((congrArg Protecting.rc (heq _)).trans hok)
      rw [vmStep, hP] at hs
      cases hs
      cases (AList.lookup_insert _).symm.trans hQ
      have hsame := (hall pos).1
      simp only [heq] at hsame
      rw [hseen, hbefore] at hsame
      have hback : w.backing pos = v.backing pos := congrArg (·.2.2) (some.inj hsame)
      have hwfile : w.file ∧ w.vn ≠ 0 := by
        rw [Vma.file, hflags, hvn]
        exact ⟨hfile, Nat.succ_ne_zero _⟩
      rw [Vma.backing, if_pos hwfile, hvn, Vma.backing] at hback
      obtain ⟨-, hpair⟩ := ite_none_right_eq_some.1 hback.symm
      exact absurd (congrArg Prod.fst (some.inj hpair)) (Nat.succ_ne_self _).symm
    exact ⟨hkeeps addr (.inl rfl), hkeeps _ (.inr rfl)⟩
  · exact fun hcut ks' hrc' => onlyProtects_of_unsplit hP hl hrc' hcut

theorem mprotect_whole_file :
    ∃ m' Q, vmStep (fun _ => false) (bootVm.setProc 1 fileBetween)
        (.mprotect 1 0x2000 0x4000 protNone []) = some m' ∧ m'.proc 1 = some Q ∧
      seenAt Q.vmas 0x3008 = some (protNone, mapPrivate ||| vmaFile, some (7, 0x2008)) ∧
      seenAt Q.vmas 0x1008 = seenAt fileBetween.vmas 0x1008 ∧
      (Machine.entry Q 0x3008).map (·.frame) = some 9 := by
  have hcut : ∀ v ∈ fileBetween.vmas, v.Unsplit 0x2000 (pageUp (u64 (0x2000 + 0x4000))) := by
    unfold Vma.Unsplit
    decide
  have hrc : (vmaMprotectLocked fileBetween 0x2000 0x4000 protNone []).rc = .ok () := by decide
  obtain ⟨m', Q, hs, hQ, -, h⟩ := (mprotect_changes_protection (fun _ => false)
    (m := bootVm.setProc 1 fileBetween) (AList.lookup_insert _) laid_fileBetween hrc).2
    (fun _ => hcut) [] hrc
  exact ⟨m', Q, hs, hQ, (h 0x3008).1.trans (by decide), (h 0x1008).1.trans (by decide),
    (h 0x3008).2.trans (by decide)⟩

/-- The protection of the middle page of the file mapping is changed. The pages from there on
belong to the mappings that `vma_split_at` has made, and to whatever file their memory names. -/
theorem mprotect_loses_file :
    Laid True fileBetween.vmas ∧
      seenAt fileBetween.vmas 0x3000 = some (protRead, mapPrivate ||| vmaFile, some (7, 0x2000)) ∧
      (vmaMprotectLocked fileBetween 0x3000 0x1000 protNone
        [some (5, 0), some (0, 0)]).rc = .ok () ∧
      seenAt (vmaMprotectLocked fileBetween 0x3000 0x1000 protNone [some (5, 0), some (0, 0)]).vmas
        0x3000 = some (protNone, mapPrivate ||| vmaFile, some (5, 0)) ∧
      seenAt (vmaMprotectLocked fileBetween 0x3000 0x1000 protNone [some (5, 0), some (0, 0)]).vmas
        0x4000 = some (protRead, mapPrivate ||| vmaFile, none) :=
  ⟨laid_fileBetween, by decide, by rfl, by decide, by decide⟩

end Calls

namespace Machine

variable {m : Machine} {p c : Pid} {P : Process}

theorem pmmFree_ios (f : Frame) : (m.pmmFree f).ios = m.ios := by
  unfold pmmFree
  split <;> rfl

theorem filled_eq (addr : Nat) (content : Nat → Byte) :
    ∃ last, m.filled p P addr content = { m with last := last } := by
  unfold filled
  split
  · exact ⟨m.last, rfl⟩
  · exact ⟨_, rfl⟩

theorem fork_ios (fail : ForkFail) : (m.fork p c P fail).ios = m.ios := by
  have hshare (fs : List Frame) (m : Machine) : (fs.foldl share m).ios = m.ios := by
    induction fs generalizing m with
    | nil => rfl
    | cons f fs ih => exact ih _
  unfold fork
  dsimp only
  split <;> exact hshare _ _

end Machine

/-- No page is read for a mapping without access. -/
def Asked (ios : List (Pid × FaultIo)) : Prop := ∀ x ∈ ios, x.2.prot ≠ protNone

theorem Asked.eraseIdx {ios : List (Pid × FaultIo)} (h : Asked ios) (k : Nat) :
    Asked (ios.eraseIdx k) :=
  fun x hx => h x (mem_of_mem_eraseIdx hx)

theorem vmaFaultLocked_needsIo {P : Process} {addr : Nat} {write tables : Bool}
    {alloc : Option Frame} {io : FaultIo}
    (h : vmaFaultLocked P addr write alloc tables = .needsIo io) : io.prot ≠ protNone := by
  unfold vmaFaultLocked at h
  split at h
  · cases h
  · split at h
    · cases h
    · next hprot =>
        cases alloc <;> split_ifs at h <;> cases h
        all_goals exact hprot

theorem Asked.step {device : Frame → Bool} {m m' : Machine} {a : VmAct} (h : Asked m.ios)
    (hs : vmStep device m a = some m') : Asked m'.ios := by
  cases vmStep_moves hs with
  | call | mremap | write | exit => exact h
  | fork =>
      rw [fork_ios]
      exact h
  | fault hP hs =>
      obtain rfl | ⟨io, hio, rfl⟩ | ⟨v, g, -, -, -, -, -, -, -, rfl⟩ := fault_cases hs
      · exact h
      · exact forall_mem_append.2
          ⟨h, forall_mem_singleton.2 (vmaFaultLocked_needsIo hio)⟩
      · obtain ⟨last, hfilled⟩ := filled_eq _ _
        rw [hfilled]
        exact h
  | install hx hP hs =>
      obtain rfl | ⟨v, -, -, -, -, rfl⟩ := install_cases hs
      · exact h.eraseIdx _
      · obtain ⟨last, hfilled⟩ := filled_eq _ _
        rw [hfilled]
        exact h.eraseIdx _
  | ioFail k => exact h.eraseIdx k
  | cowFault hP hs =>
      obtain rfl | ⟨e, -, -, -, ⟨-, rfl⟩ | ⟨g, -, rfl⟩⟩ := cowFault_cases hs
      · exact h
      · exact h
      · rw [pmmFree_ios]
        exact h
  | release =>
      rw [pmmFree_ios]
      exact h

/-- Whatever happens between the two halves of a fault: if the mapping still has the protection that
the first half has seen, the second half changes nothing, or installs the page of the file that the
mapping has at this address, with no more rights than the mapping gives. `pages` are the contents of
the pages of files. -/
theorem installed_page_of_mapping {device : Frame → Bool} {m m' : Machine} {k : Nat} {f : Frame}
    {tables : Bool} {p : Pid} {io : FaultIo} {P : Process} (pages : Nat → Nat → Nat → Byte)
    (hr : (vmSystem device).Reach (fun _ _ => True) m) (hio : m.ios[k]? = some (p, io))
    (hP : m.procs.lookup p = some P)
    (hright : Rightful m (.install k f (pages io.vn io.fileOff) tables))
    (hs : vmStep device m (.install k f (pages io.vn io.fileOff) tables) = some m') :
    m'.procs.lookup p = some P ∨
      ∃ v e, vmaFind P.vmas io.page = some v ∧ v.file = true ∧
        m'.procs.lookup p = some { P with pt := P.pt.insert (pageOf io.page) e } ∧
        m'.mem e.frame = pages v.vn (v.fileOff + (io.page - v.start)) ∧
        v.prot ≠ protNone ∧ (e.writable = true → v.prot.writable = true) ∧
        (e.nx = false → v.prot.executable = true) := by
  have hasked : Asked m.ios := by
    refine hr.invariant (fun m => Asked m.ios) (fun m h => ?_) fun _ _ _ h _ hs => h.step hs
    rw [h.ios]
    exact nofun
  generalize hcontent : pages io.vn io.fileOff = content at hs hright
  cases vmStep_moves hs with
  | call _ hc => cases hc
  | install hx hP' hs =>
      cases hio.symm.trans hx
      cases hP.symm.trans hP'
      obtain rfl | ⟨v, -, hfind, ⟨hfile, hvn, hoff⟩, -, rfl⟩ := install_cases hs
      · exact .inl hP
      · have hprot : v.prot = io.prot := hright _ hio P hP v hfind
        obtain ⟨last, hfilled⟩ := filled_eq _ _
        rw [hfilled]
        refine .inr ⟨v, userPage f io.prot, hfind, hfile, AList.lookup_insert _, ?_, ?_⟩
        · rw [hvn, hoff, hcontent]
          exact update_self ..
        · rw [hprot]
          exact ⟨hasked _ (mem_of_getElem? hio), id, by simp [userPage]⟩

def touchFile : List VmAct :=
  [.mmapFile 1 0 4096 (protRead ||| protWrite) mapPrivate 9 8192 true true,
   .fault 1 mmapBase false none true]

theorem installed_page_of_mapping_touched :
    ∃ (m m' : Machine) (P : Process) (v : Vma) (e : Pte),
      (vmSystem fun _ => false).Reach (fun _ _ => True) m ∧
      vmStep (fun _ => false) m (.install 0 5 (fun _ => 7) true) = some m' ∧
      vmaFind P.vmas mmapBase = some v ∧
      m'.procs.lookup 1 = some { P with pt := P.pt.insert (pageOf mmapBase) e } ∧
      m'.mem e.frame = fun _ => 7 := by
  obtain ⟨m, hr, hio, hright, hm⟩ : ∃ m, (vmSystem fun _ => false).Reach (fun _ _ => True) m ∧
      m.ios[0]? = some (1, ⟨9, 8192, mmapBase, protRead ||| protWrite⟩) ∧
      Rightful m (.install 0 5 (fun _ => 7) true) ∧
      ((m.procs.lookup 1).any fun P => (vmStep (fun _ => false) m
        (.install 0 5 (fun _ => 7) true)).any fun m' => (m'.procs.lookup 1).any fun Q =>
          decide ((Q.pt.lookup (pageOf mmapBase)).isSome ≠
            (P.pt.lookup (pageOf mmapBase)).isSome)) = true :=
    System.Reach.exists_of_run touchFile bootVm_init (by decide +kernel)
  obtain ⟨P, hP, hm⟩ := (Option.any_eq_true ..).1 hm
  obtain ⟨m', hs, hm⟩ := (Option.any_eq_true ..).1 hm
  obtain ⟨Q, hQ, hm⟩ := (Option.any_eq_true ..).1 hm
  obtain hsame | ⟨v, e, hfind, -, hinst, hmem, -⟩ :=
    installed_page_of_mapping (fun _ _ _ => 7) hr hio hP hright hs
  · cases hsame.symm.trans hQ
    exact absurd rfl (of_decide_eq_true hm)
  · exact ⟨m, m', P, v, e, hr, hs, hfind, hinst, hmem⟩

/-- While the page is read the mapping becomes read-only: the page is installed writable. -/
theorem installed_page_exceeds_mapping :
    ∃ (m : Machine) (P : Process) (e : Pte), (vmSystem fun _ => false).Reach (fun _ _ => True) m ∧
      m.procs.lookup 1 = some P ∧ P.pt.lookup (pageOf mmapBase) = some e ∧
      (e.present = true ∧ e.user = true ∧ e.writable = true) ∧
      ∃ v ∈ P.vmas, v.Covers (pageOf mmapBase) ∧ v.prot.writable = false := by
  obtain ⟨m, hr, hm⟩ : ∃ m, (vmSystem fun _ => false).Reach (fun _ _ => True) m ∧
      (m.procs.lookup 1).any (fun P => (P.pt.lookup (pageOf mmapBase)).any fun e =>
        (e.present ∧ e.user ∧ e.writable) ∧
          ∃ v ∈ P.vmas, v.Covers (pageOf mmapBase) ∧ v.prot.writable = false) = true :=
    System.Reach.exists_of_run (touchFile ++ [.mprotect 1 mmapBase 4096 protRead [],
      .install 0 5 (fun _ => 7) true]) bootVm_init (by decide +kernel)
  obtain ⟨P, hP, hm⟩ := (Option.any_eq_true ..).1 hm
  obtain ⟨e, he, hm⟩ := (Option.any_eq_true ..).1 hm
  exact ⟨m, P, e, hr, hP, he, of_decide_eq_true hm⟩

end NeoKernel.Vm
