import NeoKernel.Ipc.MemfdRefs

/-!
# When the frames of a memory file are freed

A process that maps a memory file keeps a descriptor of it, and does not cut off what it maps
(`Keeping`). Then every call keeps the invariant, and the frames that are given back are in no
page table.
-/
namespace NeoKernel.Memfd
open Lib Vm List Option Table AList

/-- If the process maps the file of this descriptor, it has another one of it. -/
def MayClose (k : State) (p : Pid) (fd : Nat) : Prop :=
  ∀ P ∈ k.m.proc p, ∀ f ∈ (k.fdTable p).lookup fd, ∀ x ∈ k.memfds.entries,
    f = .memfd x.1 → mapsAny P x.2.frames = true →
      .memfd x.1 ∈ Table.values ((k.fdTable p).erase fd)

/-- Nobody else has a descriptor of the file, and the process maps none of the pages that go. -/
def MayShrink (k : State) (p : Pid) (fd : Nat) (len : Int) : Prop :=
  ∀ P ∈ k.m.proc p, ∀ f ∈ (k.fdTable p).lookup fd, ∀ x ∈ k.memfds.entries,
    f = .memfd x.1 → x.2.refs ≤ 1 → 0 ≤ len →
      mapsAny P (x.2.frames.drop (wanted len.toNat)) = false

/-- A process keeps a descriptor of every memory file that it maps, and does not cut off pages
that it maps. The rest is what address spaces need: room for what is mapped, and `Mild`. -/
def Keeping (k : State) : MemfdAct → Prop
  | .vm a => Roomy k.m a ∧ Mild k.m a
  | .ftruncate p fd len _ _ => MayShrink k p fd len
  | .mmap p _ r _ _ _ _ => ∀ P ∈ k.m.proc p, r.count = 0 ∨ Room P 0 (pageSize * r.count) 0 false
  | .close p fd => MayClose k p fd
  | .dup2 p _ newfd _ => MayClose k p newfd
  | .fork p c fail _ => Mild k.m (.fork p c fail)
  | _ => True

variable {kmalloc : Bool} {device : Frame → Bool} {k k' : State} {p : Pid} {fd : Nat}
  {loose : List File} {K : Prop}

section Spaces

variable {m' : Machine} {c : Pid} {P : Process} {i : Nat} {x y : MemFile}

theorem Inv.space {origin : Pid → Pid} (h : Inv K device k loose)
    (hsound : K → Sound (objectOf device k.held) k.held m')
    (hpages : K → PagesFrom device k.m m' origin)
    (horigin : ∀ q Q i, m'.procs.lookup q = some Q → .memfd i ∈ (k.fdTable (origin q)).values →
      .memfd i ∈ (k.fdTable q).values) : Inv K device { k with m := m' } loose := by
  refine ⟨hsound, h.owned, h.refs, fun hK q Q i x hQ hx hmaps => ?_⟩
  obtain ⟨s', e', he', hframe⟩ := mapsAny_iff.1 hmaps
  have hheld := held_of_mem hx hframe
  have hnofree : e'.nofree = true := by
    rw [(((hsound hK).spaces q Q hQ).entries s' e' he').1]
    exact objectOf_iff.2 (.inr hheld)
  obtain ⟨P, hP, hfrom⟩ := hpages hK q Q hQ
  rcases hfrom s' e' he' hnofree with hdev | ⟨s, e, he, heq⟩
  · rw [(h.owned hK _).2 hheld] at hdev
    cases hdev
  · refine horigin q Q i hQ (h.keeps hK _ P i x hP hx (mapsAny_iff.2 ⟨s, e, he, ?_⟩))
    rw [heq]
    exact hframe

theorem Inv.vm {a : VmAct} (hpmm : ∀ f, device f = false → f < pmmMaxFrames)
    (h : Inv K device k loose) (ha : ofSpace a = true) (hok : K → Roomy k.m a ∧ Mild k.m a)
    (hs : vmStep device k.m a = some m') : Inv K device { k with m := m' } loose := by
  refine h.space (fun hK => ?_) (fun hK => vmStep_pagesFrom (h.sound hK) (hok hK).1 hs)
    fun q Q i _ hi => ?_
  · have hs' : vmStep (objectOf device k.held) k.m a = some m' := vmStep_mono
      (fun f hf => objectOf_iff.2 (.inl hf)) (fun f hf => (h.sound hK).free_object hf) hs
    exact (vmStep_sound (fun f hf => lt_of_objectOf hpmm hf) (h.sound hK) (hok hK).1 (hok hK).2
      hs').1
  have horigin : originOf a q = q := by
    cases a with
    | fork => cases ha
    | _ => rfl
  rw [horigin] at hi
  exact hi

theorem fdTableDup_eq (k : State) (p c : Pid) : Memfd.fdTableDup k p c =
    { k with
      memfds := (k.fdTable p).values.foldl dupped k.memfds
      fds := k.fds.insert c (k.fdTable p) } := by
  rw [Memfd.fdTableDup, dupAll_eq]
  rfl

theorem fdTableDup_hooks (k : State) (p c : Pid) :
    Memfd.fdTableDup k p c = runHooks k (Fd.fdTableDup k.fds p c) := by
  rw [fdTableDup_eq, Fd.fdTableDup, runHooks, foldl_map]
  exact (dupAll_eq (k.fdTable p).values { k with fds := k.fds.insert c (k.fdTable p) }).symm

theorem Inv.fdTableDup (h : Inv K device k []) (hc : k.m.proc c = none)
    (hfds : (k.fds.lookup c).isNone = true) : Inv K device (Memfd.fdTableDup k p c) [] := by
  have hinv := h.dupAll (p := p) (k.fdTable p).values fun f hf => hf
  have hempty : k.fdTable c = ∅ := by
    rw [State.fdTable, Fd.tableOf, isNone_iff_eq_none.1 hfds]
    rfl
  unfold Memfd.fdTableDup
  rw [dupAll_eq] at hinv ⊢
  refine hinv.setFds (fun i => ?_) fun _ P i x hP => (some_ne_none P (hP.symm.trans hc)).elim
  change _ = (k.fdTable c).values.count _ + _
  rw [hempty, append_nil]
  exact Nat.add_comm _ _

theorem Inv.forkTask {fail : ForkFail} {leak : Bool} (h : Inv K device k [])
    (hP : k.m.proc p = some P) (hc : k.m.proc c = none) (hfds : (k.fds.lookup c).isNone = true)
    (hmild : K → Mild k.m (.fork p c fail)) : Inv K device (forkTask k p c P fail leak) [] := by
  unfold Memfd.forkTask
  dsimp only
  split
  · have hdup := h.fdTableDup (p := p) hc hfds
    rw [fdTableDup_eq] at hdup ⊢
    refine hdup.space (fun hK => ((hdup.sound hK).fork hP hc (hmild hK P hP)).1)
      (fun _ => fork_pagesFrom hP hc) fun q Q i _ hi => ?_
    change _ ∈ ((k.setFds c (k.fdTable p)).fdTable _).values at hi ⊢
    rw [fdTable_setFds] at hi ⊢
    by_cases hq : q = c
    · simpa [hq] using hi
    · simpa [hq] using hi
  · next hfail =>
      exact h.space (fun hK => ((h.sound hK).fork hP hc (hmild hK P hP)).1)
        (fun _ => fork_failed_pagesFrom hP fun hnone => hfail (.inl hnone)) fun _ _ _ _ hi => hi

theorem allocFrames_sound {held : Frame → Nat} {m : Machine} (fs : List Frame)
    (h : Sound (objectOf device held) held m) (hs : allocFrames device fs m = some m') :
    Sound (objectOf device fun g => held g + fs.count g) (fun g => held g + fs.count g) m' ∧
      m'.procs = m.procs ∧ ∀ g ∈ fs, (device g = false ∧ held g + fs.count g = 1) ∧
        ∀ q R s e, m.procs.lookup q = some R → R.pt.lookup s = some e → e.frame ≠ g := by
  induction fs generalizing m held with
  | nil =>
      cases hs
      exact ⟨h, rfl, nofun⟩
  | cons f fs ih =>
      unfold allocFrames at hs
      obtain ⟨hfree, hs⟩ := ite_none_right_eq_some.1 hs
      have hone : Sound (objectOf device fun g => held g + [f].count g)
          (fun g => held g + [f].count g) (m.alloc f fun _ => 0) :=
        h.adopt hfree fun _ => rfl
      obtain ⟨hsound, hprocs, hfresh⟩ := ih hone hs
      have hcount : ∀ g, held g + [f].count g + fs.count g = held g + (f :: fs).count g := by
        intro g
        rw [Nat.add_assoc, ← count_append]
        rfl
      refine ⟨?_, hprocs, forall_mem_cons.2 ⟨?_, fun g hg => ?_⟩⟩
      · rw [← funext hcount]
        exact hsound
      · have hzero := (h.unused (h.free_object hfree)).2
        have honce : f ∉ fs := fun hf => by
          have := (hfresh f hf).1.2
          have := count_pos_iff.2 hf
          rw [count_singleton_self] at *
          omega
        rw [count_cons_self, count_eq_zero_of_not_mem honce]
        exact ⟨⟨hfree.2, by omega⟩, fun q R s e hR he => h.not_mapped hfree hR he⟩
      · obtain ⟨⟨hdev, hone⟩, hnone⟩ := hfresh g hg
        exact ⟨⟨hdev, by rw [← hcount]; exact hone⟩, hnone⟩

theorem Inv.mfdTruncate {len : Nat} {allocs : List Frame} {r : State × Except Errno Unit}
    (hpmm : ∀ f, device f = false → f < pmmMaxFrames) (h : Inv K device k [])
    (hx : k.memfds.lookup i = some x) (hfd : .memfd i ∈ (k.fdTable p).values)
    (hcut : K → x.refs ≤ 1 → ∀ P, k.m.procs.lookup p = some P →
      mapsAny P (x.frames.drop (wanted len)) = false)
    (hs : mfdTruncate device k i x len kmalloc allocs = some r) : Inv K device r.1 [] := by
  unfold Memfd.mfdTruncate at hs
  dsimp only at hs
  split at hs
  · cases hs
    exact h
  split at hs
  · split at hs
    · cases hs
      exact h
    obtain ⟨m', hm', hs⟩ := bind_eq_some_iff.1 hs
    have halloc := fun hK => allocFrames_sound allocs (h.sound hK) hm'
    split at hs
    · cases hs
      -- grown
      have hheld : ∀ g,
          { k with
            memfds := k.memfds.insert i
              { x with frames := x.frames ++ allocs, size := len } }.held g =
          k.held g + allocs.count g := fun g => by
        have := held_insert (y := { x with frames := x.frames ++ allocs, size := len }) hx g
        rw [count_append] at this
        omega
      refine h.refile hx (fun hK => (halloc hK).2.1) (h.refs_eq hx).symm (fun _ _ => rfl)
        (fun hK => ?_) (fun hK g => ?_) fun hK g hg => ?_
      · rw [funext hheld]
        exact (halloc hK).1
      · rw [hheld]
        by_cases hg : g ∈ allocs
        · obtain ⟨hdev, hone⟩ := ((halloc hK).2.2 g hg).1
          exact ⟨hone.le, fun _ => hdev⟩
        · rw [count_eq_zero_of_not_mem hg]
          exact h.owned hK g
      · exact (mem_append.1 hg).imp_right fun hg => ((halloc hK).2.2 g hg).2
    · obtain ⟨-, ⟨⟩⟩ := ite_none_right_eq_some.1 hs
      -- the frames that were had are given back
      have hsame (hK : K) : PagesFrom device k.m (allocs.foldl Machine.pmmFree m') id := .same (by
        rw [foldl_pmmFree_procs, (halloc hK).2.1])
      refine h.space (fun hK => ?_) hsame fun _ _ _ _ hi => hi
      obtain ⟨hsound, hprocs, hfresh⟩ := halloc hK
      refine hsound.disown_all hpmm allocs (fun g hg => (hfresh g hg).1.1) (fun _ => rfl) ?_
      intro q R s e hR he hg
      rw [hprocs] at hR
      exact (hfresh _ hg).2 q R s e hR he rfl
  split at hs
  · split at hs
    · cases hs
      exact h
    next hrefs =>
    cases hs
    have hheld : ∀ g, k.held g =
        { k with
          memfds := k.memfds.insert i
            { x with frames := x.frames.take (wanted len), size := len } }.held g +
          (x.frames.drop (wanted len)).count g := fun g => by
      have := held_insert (y := { x with frames := x.frames.take (wanted len), size := len }) hx g
      have hsplit := congrArg (List.count g) (take_append_drop (wanted len) x.frames)
      rw [count_append] at hsplit
      dsimp only at this
      omega
    refine h.refile hx (fun _ => foldl_pmmFree_procs _ _) (h.refs_eq hx).symm (fun _ _ => rfl)
      (fun hK => ?_) (fun hK g => ?_) fun _ g hg => .inl (mem_of_mem_take hg)
    · refine (h.sound hK).disown_all hpmm _
        (fun g hg => (h.owned hK g).2 (held_of_mem hx (mem_of_mem_drop hg))) hheld ?_
      -- another process that maps the file has a second descriptor of it
      intro q R s e hR he hg
      have hmaps := mapsAny_iff.2 ⟨s, e, he, hg⟩
      by_cases hq : q = p
      · rw [hq] at hR
        cases (hcut hK (not_lt.1 hrefs) R hR).symm.trans hmaps
      · have htwo := two_le_descriptors hq (h.keeps hK q R i x hR hx
          (mapsAny_mono hmaps fun _ => mem_of_mem_drop)) hfd
        have := h.refs_eq hx
        omega
    · have hg := hheld g
      obtain ⟨hone, hdev⟩ := h.owned hK g
      exact ⟨by omega, fun hpos => hdev (by omega)⟩
  · cases hs
    exact h.record hx rfl (h.refs_eq hx).symm fun _ _ => rfl

theorem mfdMmap_reshaped (own : Frame → Bool) (r : MmapReq) (slice tailOk kmalloc : Bool)
    (failAt : Option Nat) (hok : P.Ok False)
    (hroom : r.count = 0 ∨ Room P 0 (pageSize * r.count) 0 false)
    (hown : ∀ f ∈ x.frames, own f = true) :
    Reshaped False own AnyFrame P (mfdMmap P x r slice tailOk kmalloc failAt).proc
      (mfdMmap P x r slice tailOk kmalloc failAt).freed := by
  have hsame : Reshaped False own AnyFrame P P [] := .refl hok
  fun_cases mfdMmap P x r slice tailOk kmalloc failAt
  · exact hsame
  · exact hsame
  · exact hsame
  · exact hsame
  · exact hsame
  · exact hsame
  next hfits _ =>
  have hlen : ((x.frames.drop r.first).take r.count).length = r.count := by
    rw [length_take, length_drop]
    omega
  have hlt : ((x.frames.drop r.first).take r.count).length < 2 ^ 52 := by
    rw [hlen]
    unfold MmapReq.count u64 pageSize
    omega
  have hroom' : ((x.frames.drop r.first).take r.count).length = 0 ∨
      Room P 0 (pageSize * ((x.frames.drop r.first).take r.count).length) 0 false := by
    rw [hlen]
    exact hroom
  exact vmaMapFramesLocked_reshaped hok hlt hroom'
    fun f hf => hown f (mem_of_mem_drop (mem_of_mem_take hf))

theorem Inv.mmap {r : MmapReq} {slice tailOk : Bool} {failAt : Option Nat}
    (h : Inv K device k []) (hP : k.m.procs.lookup p = some P) (hx : k.memfds.lookup i = some x)
    (hfd : .memfd i ∈ (k.fdTable p).values)
    (hroom : K → r.count = 0 ∨ Room P 0 (pageSize * r.count) 0 false) :
    Inv K device { k with m := k.m.mapped p (mfdMmap P x r slice tailOk kmalloc failAt) } [] := by
  refine ⟨fun hK => ?_, h.owned, h.refs, fun hK q Q j z hQ hz hmaps => ?_⟩
  · have hcall := mfdMmap_reshaped (objectOf device k.held) r slice tailOk kmalloc failAt
      ((h.sound hK).spaces p P hP).ok (hroom hK)
      fun f hf => objectOf_iff.2 (.inr (held_of_mem hx hf))
    obtain ⟨hsound, -⟩ : Sound (objectOf device k.held) k.held
          (k.m.mapped p (mfdMmap P x r slice tailOk kmalloc failAt)) ∧
        Balanced k.m (k.m.mapped p (mfdMmap P x r slice tailOk kmalloc failAt)) :=
      (h.sound hK).call hP hcall rfl rfl rfl
    exact hsound
  have hPs := (h.sound hK).spaces p P hP
  have hnew := (mfdMmap_reshaped (fun f => decide (f ∈ x.frames)) r slice tailOk kmalloc failAt
    hPs.ok (hroom hK) fun f hf => decide_eq_true hf).shrunk hPs.kinds
  have hQ' : (k.m.procs.insert p (mfdMmap P x r slice tailOk kmalloc failAt).proc).lookup q =
    some Q := hQ
  obtain ⟨hq, rfl⟩ | ⟨-, hQ'⟩ := lookup_insert_cases hQ'
  · rw [hq]
    obtain ⟨s, e', he', hg⟩ := mapsAny_iff.1 hmaps
    rcases hnew.table.kept s e' he' with ⟨-, hmem, -⟩ | ⟨e, he, hframe, -⟩
    · -- a page of this file, of which there is the descriptor that was used
      rw [h.apart hK hz hx hg (of_decide_eq_true hmem)]
      exact hfd
    · exact h.keeps hK p P j z hP hz (mapsAny_iff.2 ⟨s, e, he, hframe ▸ hg⟩)
  · exact h.keeps hK q Q j z hQ' hz hmaps

end Spaces

section Tables

variable {t : FdTable} {oldfd newfd : Nat} {slots : Bool} {start : Nat} {f : File}

theorem values_put (h : Fd.fdTableAllocFrom slots t start = some fd) (f : File) :
    Table.values (t.insert fd f) = f :: t.values := by
  rw [values_insert, erase_of_none (Fd.lookup_of_allocFrom h)]

theorem Inv.take (h : Inv K device k loose) (hf : (k.fdTable p).lookup fd = some f)
    (hclose : K → MayClose k p fd) :
    Inv K device (k.setFds p ((k.fdTable p).erase fd)) (f :: loose) := by
  have hperm := values_perm hf
  refine h.setFds (fun i => ?_) fun hK P i x hP hx hmaps => ?_
  · rw [hperm.count_eq, count_cons, count_cons]
    omega
  · have hmem := hperm.mem_iff.1 (h.keeps hK p P i x hP hx hmaps)
    rcases mem_cons.1 hmem with hfi | hmem
    · exact hclose hK P hP f hf ⟨i, x⟩ (mem_entries_iff.2 hx) hfi.symm hmaps
    · exact hmem

theorem MayClose.of_other (h : (k.fdTable p).lookup fd = some .other) : MayClose k p fd := by
  intro P _ f hf x _ hfx
  rw [h] at hf
  cases hf
  cases hfx

theorem Inv.create {flags : BitVec 32} {i : Nat} (h : Inv K device k [])
    (hi : (k.memfds.lookup i).isNone = true) :
    Inv K device (memfdCreateFd k p flags i kmalloc slots).1 [] := by
  have hnone := isNone_iff_eq_none.1 hi
  fun_cases memfdCreateFd k p flags i kmalloc slots
  · exact h
  · exact h
  · exact h
  next fd hfd =>
  -- the new file has no frames, and its one descriptor is not in the table yet
  have hnew : Inv K device { k with memfds := k.memfds.insert i ⟨[], 0, 1⟩ } [.memfd i] := by
    have hheld : { k with memfds := k.memfds.insert i ⟨[], 0, 1⟩ }.held = k.held := by
      funext g
      unfold State.held
      dsimp only
      rw [weigh_insert_of_none hnone]
      exact Nat.zero_add _
    refine ⟨fun hK => ?_, hheld ▸ h.owned, fun j => ?_, fun hK q P j z hP hz hmaps => ?_⟩
    · rw [hheld]
      exact h.sound hK
    · rw [refs_insert]
      have hj := h.refs j
      change ((k.descriptors j + _ : Nat) : Int) = _
      by_cases hji : j = i
      · rw [State.refs, hji, hnone] at hj
        rw [if_pos hji, hji, count_singleton_self]
        dsimp only [elim_none, count_nil] at hj ⊢
        omega
      · rw [if_neg hji, ← hj, count_cons_of_ne fun heq => hji (File.memfd.inj heq).symm]
    · rcases lookup_insert_cases hz with ⟨-, rfl⟩ | ⟨-, hz⟩
      · obtain ⟨s, e, he, hg⟩ := mapsAny_iff.1 hmaps
        cases hg
      · exact h.keeps hK q P j z hP hz hmaps
  exact hnew.put (values_put hfd _)

theorem fdTableDup2_error {err : Errno}
    (h : (Memfd.fdTableDup2 k p oldfd newfd slots).2 = .error err) :
    (Memfd.fdTableDup2 k p oldfd newfd slots).1 = k := by
  revert h
  fun_cases Memfd.fdTableDup2 k p oldfd newfd slots <;> intro h
  · rfl
  · rfl
  · rfl
  · rfl
  · cases h
  · cases h

variable (hpmm : ∀ f, device f = false → f < pmmMaxFrames)
include hpmm

theorem Inv.fdTableClose (h : Inv K device k []) (hclose : K → MayClose k p fd) :
    Inv K device (Memfd.fdTableClose k p fd) [] := by
  unfold Memfd.fdTableClose
  split
  · exact h
  · next f hf => exact (h.take hf hclose).fileClose hpmm

theorem Inv.fdTableDup2 (h : Inv K device k []) (hclose : K → MayClose k p newfd) :
    Inv K device (Memfd.fdTableDup2 k p oldfd newfd slots).1 [] := by
  unfold Memfd.fdTableDup2
  split
  · exact h
  split
  · exact h
  next src hsrc =>
  split
  · exact h
  split
  · exact h
  dsimp only
  -- the old file of the slot, if there is one, is taken out of the table first
  have hput : ∀ loose, Inv K device (k.setFds p ((k.fdTable p).erase newfd)) loose →
      Inv K device (Memfd.fileDup (k.setFds p ((k.fdTable p).insert newfd src)) src) loose := by
    intro loose hoff
    have hdup := hoff.fileDup (f := src) fun i hi =>
      h.live_of_mem (hi ▸ mem_values.2 ⟨oldfd, hsrc⟩)
    have htable : (Memfd.fileDup (k.setFds p ((k.fdTable p).erase newfd)) src).fdTable p =
        (k.fdTable p).erase newfd := by
      rw [fdTable_fileDup, fdTable_setFds, if_pos rfl]
    have heq : Memfd.fileDup (k.setFds p ((k.fdTable p).insert newfd src)) src =
        (Memfd.fileDup (k.setFds p ((k.fdTable p).erase newfd)) src).setFds p
          ((k.fdTable p).insert newfd src) := by
      rw [fileDup_eq, fileDup_eq, State.setFds, State.setFds, State.setFds, insert_insert]
    rw [heq]
    exact hdup.put (by rw [values_insert, htable])
  split
  · next hnone =>
      refine hput [] (h.setFds (fun i => ?_) fun hK P i x hP hx hmaps => ?_)
      · rw [erase_of_none hnone]
      · rw [erase_of_none hnone]
        exact h.keeps hK p P i x hP hx hmaps
  · next closing hclosing => exact (hput [closing] (h.take hclosing hclose)).fileClose hpmm

theorem Inv.dupFd {start : Nat} (h : Inv K device k []) :
    Inv K device (Memfd.dupFd k p oldfd start slots).1 [] := by
  unfold Memfd.dupFd
  split
  · exact h
  split
  · exact h
  next newfd hfree =>
  -- the new slot is a placeholder first
  have hslot := h.other.put (values_put hfree _)
  have hplace : ((k.setFds p ((k.fdTable p).insert newfd .other)).fdTable p).lookup newfd =
      some .other := by
    rw [fdTable_setFds, if_pos rfl, lookup_insert]
  dsimp only
  split
  · exact hslot.fdTableDup2 hpmm fun _ => .of_other hplace
  · next err herr =>
      rw [fdTableDup2_error herr]
      exact hslot.fdTableClose hpmm fun _ => .of_other hplace

theorem Inv.fdTableFree (h : Inv K device k []) (hp : k.m.proc p = none) :
    Inv K device (Memfd.fdTableFree k p) [] := by
  have hempty : Inv K device { k with fds := k.fds.erase p } ((k.fdTable p).values ++ []) := by
    refine ⟨h.sound, h.owned, fun i => ?_, fun hK q P i x hP hx hmaps => ?_⟩
    · change _ = k.refs i
      rw [← h.refs i, append_nil]
      have herase := Fd.descriptors_erase k.fds p (.memfd i)
      unfold State.descriptors State.fdTable
      rw [count_nil]
      dsimp only
      omega
    · have hq : q ≠ p := by
        rintro rfl
        cases hp.symm.trans hP
      have hkeep := h.keeps hK q P i x hP hx hmaps
      unfold State.fdTable Fd.tableOf at hkeep ⊢
      dsimp only
      rw [lookup_erase_ne hq]
      exact hkeep
  exact hempty.closeAll hpmm _

end Tables

section Messages

variable {d : Nat} {q : List (List File)}

theorem Inv.scmInstall (n : Nat) (fs : List File) (h : Inv K device k (fs ++ loose)) :
    Inv K device (k.setFds p (Memfd.scmInstall n fs (k.fdTable p)).1)
      ((Memfd.scmInstall n fs (k.fdTable p)).2 ++ loose) := by
  induction fs generalizing n k with
  | nil => cases n <;> exact h.setFds (fun _ => rfl) fun hK => h.keeps hK p
  | cons f fs ih =>
      cases n with
      | zero => exact h.setFds (fun _ => rfl) fun hK => h.keeps hK p
      | succ n =>
          unfold Memfd.scmInstall
          split
          · exact h.setFds (fun _ => rfl) fun hK => h.keeps hK p
          · next fd hfd =>
              have hput := ih n (h.put (values_put hfd _))
              rwa [fdTable_setFds, if_pos rfl, State.setFds, State.setFds, insert_insert] at hput

theorem Inv.connect (h : Inv K device k []) (hd : (k.dirs.lookup d).isNone = true) :
    Inv K device { k with dirs := k.dirs.insert d [] } [] := by
  refine h.moveDirs rfl rfl rfl fun i => ?_
  unfold State.descriptors
  dsimp only
  rw [weigh_insert_of_none (isNone_iff_eq_none.1 hd)]
  exact congrArg (_ + · + _) (Nat.zero_add _)

variable (hpmm : ∀ f, device f = false → f < pmmMaxFrames)
include hpmm

/-- The batch is made of copies with references of their own; if a descriptor is not open they
are given back. -/
theorem Inv.scmCollect {t : FdTable} (nums : List Nat) (b : List File) (h : Inv K device k b)
    (ht : t = k.fdTable p) :
    (∀ err, (Memfd.scmCollect t nums k b).2 = .error err →
      Inv K device (Memfd.scmCollect t nums k b).1 []) ∧
    ∀ b', (Memfd.scmCollect t nums k b).2 = .ok b' →
      Inv K device (Memfd.scmCollect t nums k b).1 b' ∧
        (Memfd.scmCollect t nums k b).1.dirs = k.dirs := by
  induction nums generalizing k b with
  | nil =>
      refine ⟨nofun, fun b' hb => ?_⟩
      cases hb
      exact ⟨h, rfl⟩
  | cons n nums ih =>
      unfold Memfd.scmCollect
      split
      · refine ⟨fun _ _ => ?_, nofun⟩
        exact Inv.closeAll hpmm b (by rwa [append_nil])
      · next f hf =>
          have hmem : f ∈ (k.fdTable p).values := ht ▸ mem_values.2 ⟨n, hf⟩
          have hdup : Inv K device (Memfd.fileDup k f) (b ++ [f]) :=
            (h.fileDup fun i hi => h.live_of_mem (hi ▸ hmem)).perm (perm_append_singleton f b).symm
          obtain ⟨herror, hok⟩ := ih (b ++ [f]) hdup (ht.trans (fdTable_fileDup k f p).symm)
          refine ⟨herror, fun b' hb => ?_⟩
          obtain ⟨hinv, hdirs⟩ := hok b' hb
          exact ⟨hinv, hdirs.trans (by rw [fileDup_eq])⟩

theorem Inv.unixScmSend {nums : List Nat} (h : Inv K device k []) (hd : k.dirs.lookup d = some q) :
    Inv K device (unixScmSend k p d q nums kmalloc).1 [] := by
  obtain ⟨herror, hok⟩ := h.scmCollect hpmm nums [] rfl (p := p)
  fun_cases Memfd.unixScmSend k p d q nums kmalloc
  · exact h
  · exact h
  · exact h
  · next k' err heq =>
      rw [heq] at herror
      exact herror err rfl
  · next k' b heq =>
      rw [heq] at hok
      obtain ⟨hinv, hdirs⟩ := hok b rfl
      refine hinv.setDir (hdirs ▸ hd) ?_
      rw [flatten_append, flatten_singleton, append_nil]

theorem Inv.unixScmRecv {room : Bool} {slots : Nat} (h : Inv K device k [])
    (hd : k.dirs.lookup d = some q) : Inv K device (unixScmRecv k p d q room slots).1 [] := by
  unfold Memfd.unixScmRecv
  split
  · exact h
  next b rest =>
  have htaken : Inv K device { k with dirs := k.dirs.insert d rest } (b ++ []) := by
    refine h.setDir hd ?_
    rw [flatten_cons, append_nil, append_nil]
    exact perm_append_comm
  dsimp only
  split
  · exact htaken.closeAll hpmm b
  · exact (htaken.scmInstall slots b).closeAll hpmm _

theorem Inv.unixDirFree (h : Inv K device k []) (hd : k.dirs.lookup d = some q) :
    Inv K device (unixDirFree k d q) [] :=
  (h.eraseDir hd).closeAll hpmm _

end Messages

theorem memfdStep_inv {a : MemfdAct} (hpmm : ∀ f, device f = false → f < pmmMaxFrames)
    (h : Inv K device k []) (hok : K → Keeping k a) (hs : memfdStep device k a = some k') :
    Inv K device k' [] := by
  cases a with
  | vm a =>
      simp only [memfdStep] at hs
      split at hs
      · next ha =>
          obtain ⟨m', hm', rfl⟩ := map_eq_some_iff.1 hs
          exact h.vm hpmm ha hok hm'
      · cases hs
  | create p flags i kmalloc slots =>
      simp only [memfdStep] at hs
      obtain ⟨hnew, ⟨⟩⟩ := ite_none_right_eq_some.1 hs
      exact h.create hnew.2
  | ftruncate p fd len kmalloc allocs =>
      obtain ⟨P, hP, hs⟩ := bind_eq_some_iff.1 hs
      obtain ⟨r, hr, rfl⟩ := map_eq_some_iff.1 hs
      unfold sysFtruncate at hr
      split at hr
      · cases hr
        exact h
      · cases hr
        exact h
      · next i hfd =>
          split at hr
          · cases hr
            exact h
          next hlen =>
          obtain ⟨x, hx, hr⟩ := bind_eq_some_iff.1 hr
          refine h.mfdTruncate hpmm hx (mem_values.2 ⟨fd, hfd⟩) (fun hK hrefs Q hQ => ?_) hr
          exact hok hK Q hQ _ hfd ⟨i, x⟩ (mem_entries_iff.2 hx) rfl hrefs (not_lt.1 hlen)
  | mmap p fd r slice tailOk kmalloc failAt =>
      obtain ⟨P, hP, hs⟩ := bind_eq_some_iff.1 hs
      unfold sysMmap at hs
      split at hs
      · cases hs
        exact h
      · cases hs
        exact h
      · next i hfd =>
          obtain ⟨x, hx, rfl⟩ := map_eq_some_iff.1 hs
          exact h.mmap hP hx (mem_values.2 ⟨fd, hfd⟩) fun hK => hok hK P hP
  | close p fd =>
      obtain ⟨P, hP, rfl⟩ := map_eq_some_iff.1 hs
      exact h.fdTableClose hpmm hok
  | dup p oldfd start slots =>
      obtain ⟨P, hP, rfl⟩ := map_eq_some_iff.1 hs
      exact h.dupFd hpmm
  | dup2 p oldfd newfd slots =>
      obtain ⟨P, hP, rfl⟩ := map_eq_some_iff.1 hs
      exact h.fdTableDup2 hpmm hok
  | fork p c fail leak =>
      obtain ⟨P, hP, hs⟩ := bind_eq_some_iff.1 hs
      obtain ⟨hc, ⟨⟩⟩ := ite_none_right_eq_some.1 hs
      exact h.forkTask hP hc.1 hc.2 hok
  | connect d =>
      simp only [memfdStep] at hs
      obtain ⟨hd, ⟨⟩⟩ := ite_none_right_eq_some.1 hs
      exact h.connect hd
  | scmSend p d nums kmalloc =>
      obtain ⟨P, hP, hs⟩ := bind_eq_some_iff.1 hs
      obtain ⟨q, hq, rfl⟩ := map_eq_some_iff.1 hs
      exact h.unixScmSend hpmm hq
  | scmRecv p d room slots =>
      obtain ⟨P, hP, hs⟩ := bind_eq_some_iff.1 hs
      obtain ⟨q, hq, rfl⟩ := map_eq_some_iff.1 hs
      exact h.unixScmRecv hpmm hq
  | dirFree d =>
      obtain ⟨q, hq, rfl⟩ := map_eq_some_iff.1 hs
      exact h.unixDirFree hpmm hq
  | fdTableFree p =>
      simp only [memfdStep] at hs
      obtain ⟨hp, ⟨⟩⟩ := ite_none_right_eq_some.1 hs
      exact h.fdTableFree hpmm hp

theorem MemfdInit.inv (h : MemfdInit k) : Inv K device k [] := by
  have hheld : k.held = fun _ => 0 := by
    funext g
    unfold State.held
    rw [h.memfds]
    rfl
  have hnone : ∀ i, k.memfds.lookup i = none := fun i => by
    rw [h.memfds]
    exact lookup_empty i
  have hobject : objectOf device (fun _ => 0) = device := funext fun f => objectOf_of_zero rfl
  refine ⟨fun _ => ?_, fun _ f => ?_, fun i => ?_, fun _ p P i x _ hx => ?_⟩
  · rw [hheld, hobject]
    exact h.m.sound
  · rw [hheld]
    exact ⟨Nat.zero_le 1, nofun⟩
  · have hfds : Fd.descriptors k.fds (.memfd i) = 0 :=
      weigh_eq_zero fun p t ht => count_eq_zero_of_not_mem fun hmem =>
        nomatch h.fds p t ht _ hmem
    unfold State.refs State.descriptors
    rw [hnone, hfds, h.dirs]
    rfl
  · cases (hnone i).symm.trans hx

/-- In every run in which each process keeps a descriptor of what it maps, a frame that is in
some page table has not been given back; and if it is one of a memory file, that file still has
a descriptor. -/
theorem mapped_frames_not_freed {device : Frame → Bool}
    (hpmm : ∀ f, device f = false → f < pmmMaxFrames) {k : State}
    (hr : (memfdSystem device).Reach Keeping k) {p : Pid} {P : Process} {s : Nat} {e : Pte}
    (hP : k.m.procs.lookup p = some P) (he : P.pt.lookup s = some e)
    (hdev : device e.frame = false) :
    ¬k.m.Free device e.frame ∧
      (e.nofree = true → ∃ i x, k.memfds.lookup i = some x ∧ e.frame ∈ x.frames ∧ 1 ≤ x.refs) := by
  have hinv : Inv True device k [] := hr.invariant (Inv True device · []) (fun _ h => h.inv)
    fun _ _ _ h hok hs => memfdStep_inv hpmm h (fun _ => hok) hs
  have hsound := hinv.sound trivial
  refine ⟨fun hfree => ?_, fun hn => ?_⟩
  · have hone := hsound.mapped_counted hP he hdev
    rw [hfree.1] at hone
    omega
  · have hobj := ((hsound.spaces p P hP).entries s e he).1
    rw [hn] at hobj
    have hheld : k.held e.frame ≠ 0 := by
      rcases objectOf_iff.1 hobj.symm with hd | hheld
      · rw [hdev] at hd
        cases hd
      · omega
    obtain ⟨i, x, hx, hmem⟩ := exists_of_held hheld
    have hpos := count_pos_iff.2 (hinv.keeps trivial p P i x hP hx (mapsAny_iff.2 ⟨s, e, he, hmem⟩))
    have hle := values_fdTable_le k p i
    have hrefs := hinv.refs_eq hx
    exact ⟨i, x, hx, hmem, by omega⟩

instance (k : State) (p : Pid) (fd : Nat) : Decidable (MayClose k p fd) :=
  inferInstanceAs (Decidable (∀ P ∈ k.m.proc p, ∀ f ∈ _, ∀ x ∈ k.memfds.entries, _))

instance (k : State) (p : Pid) (fd : Nat) (len : Int) : Decidable (MayShrink k p fd len) :=
  inferInstanceAs (Decidable (∀ P ∈ k.m.proc p, ∀ f ∈ _, ∀ x ∈ k.memfds.entries, _))

instance (k : State) : (a : MemfdAct) → Decidable (Keeping k a)
  | .vm _ => inferInstanceAs (Decidable (_ ∧ _))
  | .ftruncate .. => inferInstanceAs (Decidable (MayShrink ..))
  | .mmap p .. => inferInstanceAs (Decidable (∀ P ∈ k.m.proc p, _))
  | .close .. | .dup2 .. => inferInstanceAs (Decidable (MayClose ..))
  | .fork p c fail _ => inferInstanceAs (Decidable (Mild k.m (.fork p c fail)))
  | .create .. | .dup .. | .connect .. | .scmSend .. | .scmRecv .. | .dirFree ..
  | .fdTableFree .. =>
      inferInstanceAs (Decidable True)

def bootMemfd : State := ⟨bootVm, ∅, ∅, ∅⟩

theorem bootMemfd_init : MemfdInit bootMemfd := ⟨bootVm_init, rfl, nofun, rfl⟩

def mapSecondPage : List MemfdAct :=
  [.create 1 0 7 true true,
   .ftruncate 1 0 8192 true [5, 6],
   .mmap 1 0 ⟨4096, 3, mapShared, 4096⟩ true true true none]

/-- The child gets a second descriptor in a message and closes the one that it has inherited;
the parent exits. -/
def passAndExit : List MemfdAct := mapSecondPage ++
  [.connect 9,
   .scmSend 1 9 [0] true,
   .fork 1 2 none false,
   .scmRecv 2 9 true 8,
   .close 2 0,
   .vm (.exit 1),
   .fdTableFree 1]

def firstPage (k : State) (p : Pid) : Option Pte :=
  (k.m.procs.lookup p).bind fun P => P.pt.lookup (pageOf mmapBase)

theorem mapped_frames_not_freed_passed :
    ∃ k, (memfdSystem beyondPmm).Reach Keeping k ∧ firstPage k 1 = none ∧
      firstPage k 2 = some (devicePage 6 3) ∧ ¬k.m.Free beyondPmm 6 ∧
      ∃ i x, k.memfds.lookup i = some x ∧ 6 ∈ x.frames ∧ 1 ≤ x.refs := by
  refine System.Reach.exists_of_run_imp passAndExit bootMemfd_init (by decide +kernel)
    fun k hr (hk : firstPage k 1 = none ∧ firstPage k 2 = some (devicePage 6 3)) => ?_
  obtain ⟨P, hP, he⟩ := bind_eq_some_iff.1 hk.2
  obtain ⟨hfree, hfile⟩ :=
    mapped_frames_not_freed (fun _ => lt_of_beyondPmm) hr hP he (by decide)
  exact ⟨hk.1, hk.2, hfree, hfile rfl⟩

/-- The last descriptor is closed, or the file cut to nothing, while its page is mapped: the
frame is free. In the first case another process then gets it for a page of its own. -/
theorem frame_freed_while_mapped :
    (∃ k, (memfdSystem beyondPmm).Reach (fun _ _ => True) k ∧
      firstPage k 1 = some (devicePage 6 3) ∧ k.m.Free beyondPmm 6) ∧
    (∃ k, (memfdSystem beyondPmm).Reach (fun _ _ => True) k ∧
      firstPage k 1 = some (devicePage 6 3) ∧ k.m.Free beyondPmm 6) ∧
    ∃ k, (memfdSystem beyondPmm).Reach (fun _ _ => True) k ∧
      firstPage k 1 = some (devicePage 6 3) ∧ firstPage k 2 = some (userPage 6 3) := by
  refine ⟨?_, ?_, ?_⟩
  · exact System.Reach.exists_of_run (mapSecondPage ++ [.close 1 0]) bootMemfd_init
      (by decide +kernel)
  · exact System.Reach.exists_of_run (mapSecondPage ++ [.ftruncate 1 0 0 true []]) bootMemfd_init
      (by decide +kernel)
  · exact System.Reach.exists_of_run ([.fork 1 2 none false] ++ mapSecondPage ++ [.close 1 0,
      .vm (.mmap 2 0 4096 3 (mapPrivate ||| mapAnonymous) true true),
      .vm (.fault 2 mmapBase true (some 6) true)]) bootMemfd_init (by decide +kernel)

/-- In every run, the references of a memory file are the descriptors and messages in flight that
name it, and none names a file that is gone; in those that keep to `Keeping`, no two files share a
frame. -/
theorem memfd_refs_exact {device : Frame → Bool} (hpmm : ∀ f, device f = false → f < pmmMaxFrames)
    {k : State} (hr : (memfdSystem device).Reach (fun _ _ => True) k) :
    (∀ i x, k.memfds.lookup i = some x → x.refs = k.descriptors i) ∧
      (∀ i, k.memfds.lookup i = none → k.descriptors i = 0) ∧
      ((memfdSystem device).Reach Keeping k →
        ∀ i j x y f, k.memfds.lookup i = some x → k.memfds.lookup j = some y →
          f ∈ x.frames → f ∈ y.frames → i = j) := by
  have hinv : Inv False device k [] := hr.invariant (Inv False device · []) (fun _ h => h.inv)
    fun _ _ _ h _ hs => memfdStep_inv hpmm h nofun hs
  refine ⟨fun i x hx => ?_, fun i hi => ?_, fun hkeeping i j x y f => ?_⟩
  · simpa using hinv.refs_eq hx
  · have hrefs := hinv.refs i
    rw [State.refs, hi] at hrefs
    simpa using hrefs
  · have hkept : Inv True device k [] := hkeeping.invariant (Inv True device · [])
      (fun _ h => h.inv) fun _ _ _ h hok hs => memfdStep_inv hpmm h (fun _ => hok) hs
    exact hkept.apart trivial

theorem memfd_refs_exact_passed :
    ∃ k, (memfdSystem beyondPmm).Reach Keeping k ∧ k.descriptors 7 = 1 ∧
      ∀ x, k.memfds.lookup 7 = some x → x.refs = 1 :=
  System.Reach.exists_of_run_imp passAndExit bootMemfd_init (by decide +kernel)
    fun k hr (hk : k.descriptors 7 = 1) => ⟨hk, fun x hx => by
      have hexact := memfd_refs_exact (fun _ => lt_of_beyondPmm) (hr.mono fun _ _ _ => trivial)
      simpa [hk] using hexact.1 7 x hx⟩

end NeoKernel.Memfd
