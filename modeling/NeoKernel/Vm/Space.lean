import NeoKernel.Vm.Machine

/-!
# What a well-formed address space is

`Space rights vmas pt`: the mappings are aligned and apart from each other, and every entry
of the page table lies in a mapping that allows it. `rights` says whether this includes the
permissions, and that no mapping is both writable and executable.
-/
namespace NeoKernel.Vm
open Lib Function List

def Vma.Covers (v : Vma) (s : Nat) : Prop := v.start ≤ pageSize * s ∧ pageSize * s < v.stop

structure Vma.Ok (rights : Prop) (v : Vma) : Prop where
  lt : v.start < v.stop
  start : pageSize ∣ v.start
  stop : pageSize ∣ v.stop
  limit : v.stop ≤ userAddrLimit
  wx : rights → v.prot.writable = true → v.prot.executable = false

/-- The mapping allows what the entry grants. A parked page is in a `PROT_NONE` mapping
and grants nothing; a page without `PAGE_USER` cannot be written either. One of a writable
mapping can be, if need be after a copy. -/
structure Allowed (rights : Prop) (v : Vma) (e : Pte) : Prop where
  write : rights → e.writable = true → v.prot.writable = true
  exec : rights → e.user = true → e.nx = false → v.prot.executable = true
  parked : e.present = false → v.prot = protNone ∧ e.user = false
  kernel : e.user = false → e.writable = false
  nofree : e.nofree = true → v.phys = true
  ready : rights → v.prot.writable = true → e.user = true ∧ (e.writable = true ∨ e.cow = true)

structure Laid (rights : Prop) (vmas : List Vma) : Prop where
  ok : ∀ v ∈ vmas, v.Ok rights
  sorted : vmas.Pairwise fun v w => v.stop ≤ w.start

def Covered (rights : Prop) (vmas : List Vma) (pt : PageTable) : Prop :=
  ∀ s e, pt.lookup s = some e → ∃ v ∈ vmas, v.Covers s ∧ Allowed rights v e

structure Space (rights : Prop) (vmas : List Vma) (pt : PageTable) : Prop where
  laid : Laid rights vmas
  covered : Covered rights vmas pt

structure Process.Ok (rights : Prop) (P : Process) : Prop where
  space : Space rights P.vmas P.pt
  cursor : pageSize ∣ P.mmapNext
  limit : P.mmapNext ≤ mmapLimit

variable {lo hi s : Nat}

theorem pageOf_page (h : pageSize * s < 2 ^ 48) : pageOf (pageSize * s) = s := by
  unfold pageOf
  unfold pageSize at *
  omega

theorem mem_pages_iff {va : Nat} (hlo : pageSize ∣ lo) :
    va ∈ pages lo hi ↔ lo ≤ va ∧ va < hi ∧ pageSize ∣ va := by
  obtain ⟨q, rfl⟩ := hlo
  unfold pages
  rw [mem_map]
  constructor
  · rintro ⟨k, hk, rfl⟩
    rw [mem_range] at hk
    refine ⟨Nat.le_add_right .., ?_, ⟨q + k, (Nat.mul_add ..).symm⟩⟩
    unfold pageSize at *
    omega
  · rintro ⟨hle, hlt, r, rfl⟩
    refine ⟨r - q, mem_range.2 ?_, ?_⟩ <;> unfold pageSize at * <;> omega

theorem mem_pages (hlo : pageSize ∣ lo) (hhi : hi ≤ 2 ^ 48) :
    s ∈ (pages lo hi).map pageOf ↔ lo ≤ pageSize * s ∧ pageSize * s < hi := by
  simp only [mem_map, mem_pages_iff hlo]
  constructor
  · rintro ⟨_, ⟨hle, hlt, r, rfl⟩, rfl⟩
    rw [pageOf_page (hlt.trans_le hhi)]
    exact ⟨hle, hlt⟩
  · rintro ⟨hle, hlt⟩
    exact ⟨_, ⟨hle, hlt, Dvd.intro _ rfl⟩, pageOf_page (hlt.trans_le hhi)⟩

theorem pages_nodup (hlo : pageSize ∣ lo) (hhi : hi ≤ 2 ^ 48) :
    ((pages lo hi).map pageOf).Nodup := by
  obtain ⟨k, rfl⟩ := hlo
  unfold pages
  rw [map_map]
  refine (nodup_map_iff_inj_on nodup_range).2 fun i hi' j hj heq => ?_
  rw [mem_range] at hi' hj
  simp only [comp_apply, ← Nat.mul_add] at heq
  rw [pageOf_page (by unfold pageSize at *; omega), pageOf_page (by unfold pageSize at *; omega)]
    at heq
  omega

theorem lookup_unmap_foldl (l : List Nat) (r : PageTable × List Frame) :
    ((l.foldl (fun r va => ((unmapFrom r.1 va).1, r.2 ++ (unmapFrom r.1 va).2.toList)) r).1).lookup
      s = if s ∈ l.map pageOf then none else r.1.lookup s := by
  induction l generalizing r with
  | nil => rfl
  | cons va l ih =>
      rw [foldl_cons, ih, lookup_unmapFrom, map_cons]
      by_cases hs : s = pageOf va
      · simp [hs]
      · simp [hs]

theorem lookup_unmapRange (pt : PageTable) (hlo : pageSize ∣ lo) (hhi : hi ≤ 2 ^ 48) :
    (unmapRange pt lo hi).1.lookup s =
      if lo ≤ pageSize * s ∧ pageSize * s < hi then none else pt.lookup s := by
  unfold unmapRange
  rw [lookup_unmap_foldl]
  exact if_congr (mem_pages hlo hhi) rfl rfl

theorem Pte.setprot_setprot (e : Pte) (a : Option Access) :
    (e.setprot a).setprot a = e.setprot a := by
  cases a <;> rfl

theorem lookup_setprotRange (a : Option Access) (pt : PageTable) (hlo : pageSize ∣ lo)
    (hhi : hi ≤ 2 ^ 48) :
    (setprotRange a pt lo hi).lookup s =
      if lo ≤ pageSize * s ∧ pageSize * s < hi then (pt.lookup s).map (Pte.setprot · a)
      else pt.lookup s := by
  have hfold : ∀ (l : List Nat) (pt : PageTable), (l.foldl (setprotFrom a) pt).lookup s =
      if s ∈ l.map pageOf then (pt.lookup s).map (Pte.setprot · a) else pt.lookup s := by
    intro l
    induction l with
    | nil => intro pt; rfl
    | cons va l ih =>
        intro pt
        rw [foldl_cons, ih, lookup_setprotFrom, map_cons]
        by_cases hs : s = pageOf va
        · simp [hs, comp_def, Pte.setprot_setprot]
        · simp [hs]
  unfold setprotRange
  rw [hfold]
  exact if_congr (mem_pages hlo hhi) rfl rfl

variable {vmas pre rest : List Vma} {v w : Vma}

section Lists

variable {addr : Nat}

theorem Laid.eq_of_covers (h : Laid rights vmas) (hv : v ∈ vmas) (hw : w ∈ vmas) (hcv : v.Covers s)
    (hcw : w.Covers s) : v = w := by
  have hpair := pairwise_iff_getElem.1 h.sorted
  obtain ⟨i, hi, rfl⟩ := getElem_of_mem hv
  obtain ⟨j, hj, rfl⟩ := getElem_of_mem hw
  rcases Nat.lt_trichotomy i j with hij | rfl | hij
  · exact absurd (hcv.2.trans_le (hpair i j hi hj hij)) (not_lt_of_ge hcw.1)
  · rfl
  · exact absurd (hcw.2.trans_le (hpair j i hj hi hij)) (not_lt_of_ge hcv.1)

/-- Mappings between two addresses, in order. -/
structure Pieces (rights : Prop) (lo hi : Nat) (vs : List Vma) : Prop where
  ok : ∀ w ∈ vs, w.Ok rights
  above : ∀ w ∈ vs, lo ≤ w.start
  below : ∀ w ∈ vs, w.stop ≤ hi
  sorted : vs.Pairwise fun v w => v.stop ≤ w.start

theorem Laid.replace {vs : List Vma} (h : Laid rights (pre ++ v :: rest))
    (hvs : Pieces rights v.start v.stop vs) : Laid rights (pre ++ (vs ++ rest)) := by
  obtain ⟨hpre, htail, hacross⟩ := pairwise_append.1 h.sorted
  obtain ⟨hv, hrest⟩ := pairwise_cons.1 htail
  constructor
  · intro w hw
    rcases mem_append.1 hw with hw | hw
    · exact h.ok w (mem_append_left _ hw)
    · rcases mem_append.1 hw with hw | hw
      · exact hvs.ok w hw
      · exact h.ok w (mem_append_right _ (mem_cons_of_mem _ hw))
  · refine pairwise_append.2 ⟨hpre, pairwise_append.2 ⟨hvs.sorted, hrest, ?_⟩, ?_⟩
    · intro w hw x hx
      exact (hvs.below w hw).trans (hv x hx)
    · intro w hw x hx
      rcases mem_append.1 hx with hx | hx
      · exact (hacross w hw v mem_cons_self).trans (hvs.above x hx)
      · exact hacross w hw x (mem_cons_of_mem _ hx)

theorem Laid.tail (h : Laid rights (v :: rest)) : Laid rights rest :=
  ⟨fun w hw => h.ok w (mem_cons_of_mem _ hw), (pairwise_cons.1 h.sorted).2⟩

theorem vmaFind_mem (h : vmaFind vmas addr = some v) :
    v ∈ vmas ∧ v.start ≤ addr ∧ addr < v.stop := by
  induction vmas with
  | nil => cases h
  | cons u vs ih =>
      unfold vmaFind at h
      split at h
      · next hin =>
          cases h
          exact ⟨mem_cons_self, hin⟩
      · split at h
        · cases h
        · exact ⟨mem_cons_of_mem _ (ih h).1, (ih h).2⟩

theorem vmaFind_of_mem (h : Laid rights vmas) (hv : v ∈ vmas) (hlo : v.start ≤ addr)
    (hhi : addr < v.stop) : vmaFind vmas addr = some v := by
  induction vmas with
  | nil => cases hv
  | cons u vs ih =>
      unfold vmaFind
      rcases mem_cons.1 hv with rfl | hmem
      · rw [if_pos ⟨hlo, hhi⟩]
      · -- the mappings before it end at or below the address
        have hle : u.stop ≤ v.start := rel_of_pairwise_cons h.sorted hmem
        have hlt : u.start < u.stop := (h.ok u mem_cons_self).lt
        rw [if_neg (by omega), if_neg (by omega)]
        exact ih h.tail hmem

theorem Vma.Ok.covers (h : v.Ok rights) (hlo : v.start ≤ addr) (hhi : addr < v.stop) :
    v.Covers (pageOf addr) := by
  have hlimit := h.limit
  obtain ⟨k, hk⟩ := h.start
  unfold Covers pageOf
  unfold userAddrLimit at hlimit
  unfold pageSize at *
  omega

theorem Vma.Ok.of_covers (h : v.Ok rights) (hlt : addr < userAddrLimit)
    (hcov : v.Covers (pageOf addr)) : v.start ≤ addr ∧ addr < v.stop := by
  obtain ⟨k, hk⟩ := h.stop
  unfold Covers pageOf at hcov
  unfold userAddrLimit at hlt
  unfold pageSize at *
  omega

end Lists

variable {rights : Prop} {e : Pte} {pt : PageTable}

section Pieces

variable {pos : Nat}

def Vma.Like (w v : Vma) : Prop := w.prot = v.prot ∧ w.flags = v.flags

theorem Allowed.like (h : Allowed rights v e) (hw : w.Like v) : Allowed rights w e := by
  have hphys : w.phys = v.phys := by rw [Vma.phys, Vma.phys, hw.2]
  refine ⟨fun hr hwr => ?_, fun hr hu hx => ?_, fun hp => ?_, h.kernel,
    fun hn => hphys.trans (h.nofree hn), fun hr hwr => h.ready hr (hw.1 ▸ hwr)⟩
  · rw [hw.1]
    exact h.write hr hwr
  · rw [hw.1]
    exact h.exec hr hu hx
  · rw [hw.1]
    exact h.parked hp

/-- The part of a mapping from `pos` on. -/
structure Vma.TailOf (w v : Vma) (pos : Nat) : Prop where
  start : w.start = pos
  stop : w.stop = v.stop
  like : w.Like v

theorem Vma.tailFrom_tailOf (v : Vma) (pos : Nat) : (v.tailFrom pos).TailOf v pos := by
  unfold tailFrom
  split <;> exact ⟨rfl, rfl, rfl, rfl⟩

theorem Vma.punched_tailOf (v : Vma) (pos : Nat) : (v.punched pos).TailOf v pos := by
  obtain ⟨hstart, hstop, hlike⟩ := tailFrom_tailOf v pos
  unfold punched
  split <;> exact ⟨hstart, hstop, hlike⟩

theorem Vma.Ok.piece (h : v.Ok rights) (hlike : w.Like v) (hlt : w.start < w.stop)
    (hstart : pageSize ∣ w.start) (hstop : pageSize ∣ w.stop) (hle : w.stop ≤ v.stop) :
    w.Ok rights :=
  ⟨hlt, hstart, hstop, hle.trans h.limit, by rw [hlike.1]; exact h.wx⟩

theorem Vma.Ok.head (h : v.Ok rights) (hpos : pageSize ∣ pos) (hlt : v.start < pos)
    (hle : pos ≤ v.stop) : ({ v with stop := pos } : Vma).Ok rights :=
  h.piece ⟨rfl, rfl⟩ hlt h.start hpos hle

theorem Vma.TailOf.ok (h : w.TailOf v pos) (hv : v.Ok rights) (hpos : pageSize ∣ pos)
    (hlt : pos < v.stop) : w.Ok rights := by
  refine hv.piece h.like ?_ (h.start ▸ hpos) (h.stop ▸ hv.stop) h.stop.le
  rw [h.start, h.stop]
  exact hlt

/-- The file and the offset behind an address. -/
def Vma.backing (v : Vma) (a : Nat) : Option (Nat × Nat) :=
  if v.file ∧ v.vn ≠ 0 then some (v.vn, v.fileOff + (a - v.start)) else none

/-- Pieces of a mapping that hold the addresses which `stay`. At each address they have the
protection `prot`; if `keeps`, they hold nothing else and have the file page that was there. -/
structure Recut (rights keeps : Prop) (v : Vma) (stay : Nat → Prop) (prot : Nat → Prot)
    (lo hi : Nat) (vs : List Vma) : Prop extends Pieces rights lo hi vs where
  flags : ∀ w ∈ vs, w.flags = v.flags
  same : ∀ w ∈ vs, ∀ a, w.start ≤ a → a < w.stop →
    w.prot = prot a ∧ (keeps → stay a ∧ w.backing a = v.backing a)
  left : ∀ a, lo ≤ a → a < hi → stay a → ∃ w ∈ vs, w.start ≤ a ∧ a < w.stop

section Recut

variable {keeps : Prop} {stay : Nat → Prop} {prot : Nat → Prot} {vs ws : List Vma} {pt' : PageTable}

theorem Recut.nil (h : ∀ a, lo ≤ a → a < hi → ¬stay a) : Recut rights keeps v stay prot lo hi [] :=
  ⟨⟨nofun, nofun, nofun, .nil⟩, nofun, nofun, fun a hlo hhi hs => absurd hs (h a hlo hhi)⟩

theorem Recut.single (hw : w.Ok rights) (hlo : w.start = lo) (hhi : w.stop = hi)
    (hflags : w.flags = v.flags)
    (hsame : ∀ a, lo ≤ a → a < hi →
      w.prot = prot a ∧ (keeps → stay a ∧ w.backing a = v.backing a)) :
    Recut rights keeps v stay prot lo hi [w] := by
  subst hlo hhi
  refine ⟨⟨?_, ?_, ?_, pairwise_singleton _ _⟩, ?_, ?_, fun a hlo hhi _ => ⟨w, by simp, hlo, hhi⟩⟩
  · simpa using hw
  · simp
  · simp
  · simpa using hflags
  · simpa using hsame

theorem Recut.append {mid : Nat} (h : Recut rights keeps v stay prot lo mid vs)
    (h' : Recut rights keeps v stay prot mid hi ws) (hlo : lo ≤ mid) (hhi : mid ≤ hi) :
    Recut rights keeps v stay prot lo hi (vs ++ ws) where
  ok := forall_mem_append.2 ⟨h.ok, h'.ok⟩
  above := forall_mem_append.2 ⟨h.above, fun w hw => hlo.trans (h'.above w hw)⟩
  below := forall_mem_append.2 ⟨fun w hw => (h.below w hw).trans hhi, h'.below⟩
  sorted := pairwise_append.2
    ⟨h.sorted, h'.sorted, fun w hw x hx => (h.below w hw).trans (h'.above x hx)⟩
  flags := forall_mem_append.2 ⟨h.flags, h'.flags⟩
  same := forall_mem_append.2 ⟨h.same, h'.same⟩
  left a hla hah hs := by
    rcases lt_or_ge a mid with hmid | hmid
    · obtain ⟨w, hw, hin⟩ := h.left a hla hmid hs
      exact ⟨w, mem_append_left _ hw, hin⟩
    · obtain ⟨w, hw, hin⟩ := h'.left a hmid hah hs
      exact ⟨w, mem_append_right _ hw, hin⟩

theorem Space.recut (h : Space rights (pre ++ v :: rest) pt)
    (hvs : Recut rights keeps v stay prot v.start v.stop vs)
    (hpt : ∀ s e', pt'.lookup s = some e' → ∃ e, pt.lookup s = some e ∧ (¬v.Covers s → e' = e) ∧
      (v.Covers s → stay (pageSize * s) ∧ ∀ w : Vma, w.flags = v.flags →
        w.prot = prot (pageSize * s) → Allowed rights v e → Allowed rights w e')) :
    Space rights (pre ++ (vs ++ rest)) pt' := by
  refine ⟨h.laid.replace hvs.toPieces, fun s e' he' => ?_⟩
  obtain ⟨e, he, hout, hin⟩ := hpt s e' he'
  obtain ⟨w, hw, hcov, hall⟩ := h.covered s e he
  by_cases hv : v.Covers s
  · obtain rfl := h.laid.eq_of_covers hw (mem_append_right _ mem_cons_self) hcov hv
    obtain ⟨hstay, hallow⟩ := hin hcov
    obtain ⟨x, hx, hlo, hhi⟩ := hvs.left _ hcov.1 hcov.2 hstay
    exact ⟨x, mem_append_right _ (mem_append_left _ hx), ⟨hlo, hhi⟩,
      hallow x (hvs.flags x hx) (hvs.same x hx _ hlo hhi).1 hall⟩
  · rw [hout hv]
    refine ⟨w, ?_, hcov, hall⟩
    rcases mem_append.1 hw with hw | hw
    · exact mem_append_left _ hw
    rcases mem_cons.1 hw with rfl | hw
    · exact absurd hcov hv
    · exact mem_append_right _ (mem_append_right _ hw)

end Recut

end Pieces

section Entries

variable {l : List Vma}

theorem Space.insert (h : Space rights vmas pt) (hv : v ∈ vmas) (hcov : v.Covers s)
    (hall : Allowed rights v e) : Space rights vmas (pt.insert s e) := by
  refine ⟨h.laid, fun s' e' he => ?_⟩
  obtain ⟨hs, rfl⟩ | ⟨-, he⟩ := Table.lookup_insert_cases he
  · exact ⟨v, hv, hs ▸ hcov, hall⟩
  · exact h.covered s' e' he

theorem Space.adjust (h : Space rights vmas pt) (f : Nat → Pte → Pte)
    (hf : ∀ v s e, Allowed rights v e → Allowed rights v (f s e)) :
    Space rights vmas (pt.adjust f) := by
  refine ⟨h.laid, fun s e he => ?_⟩
  rw [Table.lookup_adjust] at he
  obtain ⟨e', he', rfl⟩ := Option.map_eq_some_iff.1 he
  obtain ⟨v, hv, hcov, hall⟩ := h.covered s e' he'
  exact ⟨v, hv, hcov, hf v s e' hall⟩

def Vma.SameArea (w v : Vma) : Prop := w.start = v.start ∧ w.stop = v.stop ∧ w.Like v

theorem Space.swap {w : Vma} (h : Space rights (pre ++ v :: l) pt) (hw : w.SameArea v) :
    Space rights (pre ++ w :: l) pt := by
  have hv : v.Ok rights := h.laid.ok v (mem_append_right _ mem_cons_self)
  have hok : w.Ok rights := by
    refine hv.piece hw.2.2 ?_ ?_ ?_ hw.2.1.le
    · rw [hw.1, hw.2.1]
      exact hv.lt
    · rw [hw.1]
      exact hv.start
    · rw [hw.2.1]
      exact hv.stop
  have hvs : Recut rights False v (fun _ => True) (fun _ => v.prot) v.start v.stop [w] :=
    .single hok hw.1 hw.2.1 hw.2.2.2 fun _ _ _ => ⟨hw.2.2.1, nofun⟩
  refine h.recut hvs fun s e he => ?_
  exact ⟨e, he, fun _ => rfl, fun _ =>
    ⟨trivial, fun x hflags hprot hall => hall.like ⟨hprot, hflags⟩⟩⟩

theorem Space.map {f : Vma → Vma} (hf : ∀ v, (f v).SameArea v) (h : Space rights (pre ++ l) pt) :
    Space rights (pre ++ l.map f) pt := by
  induction l generalizing pre with
  | nil => exact h
  | cons v rest ih =>
      have hswap : Space rights ((pre ++ [f v]) ++ rest) pt := by simpa using h.swap (hf v)
      simpa using ih hswap

theorem vmaUpdate_space (f : Vma → Vma) (hf : ∀ v, (f v).SameArea v) (addr : Nat)
    (pre : List Vma) (h : Space rights (pre ++ l) pt) :
    Space rights (pre ++ vmaUpdate f l addr) pt := by
  induction l generalizing pre with
  | nil => exact h
  | cons v rest ih =>
      unfold vmaUpdate
      split
      · exact h.swap (hf v)
      split
      · exact h
      · have hskip : Space rights ((pre ++ [v]) ++ rest) pt := by simpa using h
        simpa using ih _ hskip

end Entries

end NeoKernel.Vm
