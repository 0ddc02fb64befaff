import NeoKernel.Vm.ExecSound

/-!
# What a failed exec leaves to its caller (kernel/sched/proc.c)

`exec_task` with its answer and with the state of the calling thread. The new image is built
beside the old one; after that the old one is gone, and three allocations may still fail.
-/
namespace NeoKernel.Vm
open Lib Function Option

/-- The caller beside its address space. `rest` is what no line of `exec_task` writes to: the
descriptors, the signal dispositions, the pid. -/
structure Caller (ρ : Type) where
  rcx : Nat
  userRsp : Nat
  fsBase : Nat
  xstate : Nat → Byte
  siblings : List Nat
  rest : ρ

/-- `victims` and `argvPtr` tell whether the two calls of `kmalloc` succeed; with no argument
vector, `argvPtr` includes `spawn_args_single`. -/
structure ExecCall extends Exec where
  victims : Bool
  argvPtr : Bool
  cpuState : Nat → Byte
  start : Nat
  entrySp : Nat

structure ExecOut (ρ : Type) where
  m : Machine
  caller : Caller ρ
  ok : Bool

variable {ρ : Type} {device : Frame → Bool} {m m' m'' : Machine} {p : Pid} {P : Process}
  {c : Caller ρ} {x : ExecCall} {o : ExecOut ρ} {pt : PageTable} {gs : List Grant} {b : Built}

/-- `thread_stack_alloc` and what follows it. -/
def enterTask (device : Frame → Bool) (m : Machine) (p : Pid) (pt : PageTable) (x : ExecCall)
    (c : Caller ρ) : Option (ExecOut ρ) :=
  (mapPages device userStackProt (pages userStackPrepopulated userStackTop) m pt x.stack).bind
    fun b =>
      if b.ok then
        let vmas := registerSegments [] (⟨userStackLow, userStackTop, userStackProt⟩ :: x.segments)
          x.kmallocs
        -- `build_initial_stack` writes nothing if it has no memory for the pointers
        (if x.argvPtr then ensureUserPages device x.pokes b.m b.pt x.entry
          else some ⟨b.m, b.pt, x.entry, false⟩).map fun t =>
          ⟨t.m.setProc p ⟨vmas, mmapBase, t.pt⟩,
            if t.ok then { c with fsBase := 0, rcx := x.start, userRsp := x.entrySp } else c, t.ok⟩
      else
        let u := unmapRange b.pt userStackPrepopulated
          (userStackPrepopulated + pageSize * x.stack.length)
        some ⟨(b.m.setProc p ⟨[], mmapBase, u.1⟩).defer u.2, c, false⟩

def execTask (device : Frame → Bool) (m : Machine) (p : Pid) (P : Process) (x : ExecCall)
    (c : Caller ρ) : Option (ExecOut ρ) :=
  if ∀ va ∈ x.pokes, userStackLow ≤ va ∧ va < userStackTop then
    (elfLoadAt device x.loads m ∅ x.image).bind fun b =>
      if b.ok && x.valid then
        (Machine.releaseAll device x.released
          ({ b.m with procs := b.m.procs.erase p }.defer
            (Machine.privateFrames (fun _ => true) P.pt))).bind fun m =>
          enterTask device m p b.pt x
            { c with siblings := if x.victims then [] else c.siblings, xstate := x.cpuState }
      else some ⟨b.m.defer (Machine.privateFrames (fun _ => true) b.pt), c, false⟩
  else none

/-- The address spaces are those of `Machine.exec`. -/
theorem execTask_machine (h : x.argvPtr = true) :
    (execTask device m p P x c).map ExecOut.m = m.exec device p P x.toExec := by
  have henter : ∀ (m : Machine) pt (c : Caller ρ),
      (enterTask device m p pt x c).map ExecOut.m = m.enter device p pt x.toExec := by
    intro m pt c
    unfold enterTask Machine.enter
    rw [map_bind]
    congr 1
    funext b
    dsimp only [comp_apply]
    rw [if_pos h]
    split
    · rw [map_map]
      rfl
    · rfl
  unfold execTask Machine.exec
  split
  · rw [map_bind]
    congr 1
    funext b
    dsimp only [comp_apply]
    split
    · rw [map_bind]
      congr 1
      funext m
      exact henter _ _ _
    · rfl
  · rfl

/-! ## Before the old address space is given up -/

/-- The address spaces are as before, and so are the frames that were not free. -/
structure Kept (device : Frame → Bool) (m m' : Machine) : Prop where
  procs : m'.procs = m.procs
  frames : ∀ f, ¬ m.Free device f → ¬ m'.Free device f ∧ m'.mem f = m.mem f

theorem Kept.refl (m : Machine) : Kept device m m := ⟨rfl, fun _ h => ⟨h, rfl⟩⟩

theorem Kept.trans (h : Kept device m m') (h' : Kept device m' m'') : Kept device m m'' := by
  refine ⟨h'.procs.trans h.procs, fun f hf => ?_⟩
  obtain ⟨hf', hmem⟩ := h.frames f hf
  exact ⟨(h'.frames f hf').1, (h'.frames f hf').2.trans hmem⟩

theorem Kept.alloc {g : Frame} (h : m.Free device g) (content : Nat → Byte) :
    Kept device m (m.alloc g content) := by
  refine ⟨rfl, fun f hf => ?_⟩
  have hne : f ≠ g := by
    rintro rfl
    exact hf h
  refine ⟨fun hfree => hf ⟨?_, hfree.2⟩, update_of_ne hne _ _⟩
  exact (update_of_ne hne _ _).symm.trans hfree.1

theorem mapPages_kept {prot : Prot} (vas : List Nat)
    (hs : mapPages device prot vas m pt gs = some b) : Kept device m b.m := by
  induction vas generalizing m pt gs with
  | nil =>
      cases hs
      exact .refl _
  | cons va vas ih =>
      cases gs with
      | nil =>
          cases hs
          exact .refl _
      | cons g gs =>
          obtain ⟨hfree, hs⟩ := ite_none_right_eq_some.1 hs
          exact (Kept.alloc hfree _).trans (ih hs)

theorem elfLoadAt_kept (phs : List Phdr) (hs : elfLoadAt device phs m pt gs = some b) :
    Kept device m b.m := by
  induction phs generalizing m pt gs with
  | nil =>
      cases hs
      exact .refl _
  | cons ph phs ih =>
      unfold elfLoadAt at hs
      split at hs
      · cases hs
        exact .refl _
      · obtain ⟨b', hb', hs⟩ := bind_eq_some_iff.1 hs
        have hkept := mapPages_kept _ hb'
        split at hs
        · exact hkept.trans (ih hs)
        · cases hs
          exact hkept

/-! ## After it -/

theorem ensureUserPages_ok (vas : List Nat) (hlen : vas.length ≤ gs.length)
    (htables : ∀ g ∈ gs, g.tables = true) (hs : ensureUserPages device vas m pt gs = some b) :
    b.ok = true := by
  induction vas generalizing m pt gs with
  | nil =>
      cases hs
      rfl
  | cons va vas ih =>
      unfold ensureUserPages at hs
      split at hs
      · exact ih ((Nat.le_succ _).trans hlen) htables hs
      · cases gs with
        | nil => cases hlen
        | cons g gs =>
            obtain ⟨hg, htables⟩ := List.forall_mem_cons.1 htables
            obtain ⟨-, hs⟩ := ite_none_right_eq_some.1 hs
            rw [if_pos hg] at hs
            exact ih (Nat.le_of_succ_le_succ hlen) htables hs

/-- There is memory for the stack and for the arguments. -/
structure ExecCall.Ample (x : ExecCall) : Prop where
  stack : userStackPrepopulatePages ≤ x.stack.length
  argvPtr : x.argvPtr = true
  entry : x.pokes.length ≤ x.entry.length
  tables : ∀ g ∈ x.entry, g.tables = true

theorem enterTask_ok (hmem : x.Ample) (hs : enterTask device m p pt x c = some o) :
    o.ok = true := by
  obtain ⟨b, hb, hs⟩ := bind_eq_some_iff.1 hs
  have hok : b.ok = true := mapPages_ok _ (le_trans (by decide) hmem.stack) hb
  rw [if_pos hok, if_pos hmem.argvPtr] at hs
  obtain ⟨t, ht, rfl⟩ := map_eq_some_iff.1 hs
  exact ensureUserPages_ok _ hmem.entry hmem.tables ht

/-! ## The page that the caller runs on -/

theorem Kept.free {f : Frame} (h : Kept device m m') (hf : m'.Free device f) : m.Free device f :=
  not_not.1 fun hno => (h.frames f hno).1 hf

theorem mapPages_fresh {prot : Prot} {s : Nat} {e : Pte} (vas : List Nat)
    (hs : mapPages device prot vas m pt gs = some b) (he : b.pt.lookup s = some e) :
    pt.lookup s = some e ∨ s ∈ vas.map pageOf ∧ m.Free device e.frame := by
  induction vas generalizing m pt gs with
  | nil =>
      cases hs
      exact .inl he
  | cons va vas ih =>
      cases gs with
      | nil =>
          cases hs
          exact .inl he
      | cons g gs =>
          obtain ⟨hfree, hs⟩ := ite_none_right_eq_some.1 hs
          rw [List.map_cons, List.mem_cons]
          rcases ih hs with hold | ⟨hmem, hnew⟩
          · split at hold
            · obtain ⟨rfl, rfl⟩ | ⟨-, hold⟩ := Table.lookup_insert_cases hold
              · exact .inr ⟨.inl rfl, hfree⟩
              · exact .inl hold
            · exact .inl hold
          · exact .inr ⟨.inr hmem, (Kept.alloc hfree g.content).free hnew⟩

theorem elfLoadAt_fresh {s : Nat} {e : Pte} (phs : List Phdr)
    (hs : elfLoadAt device phs m pt gs = some b) (he : b.pt.lookup s = some e) :
    pt.lookup s = some e ∨ m.Free device e.frame := by
  induction phs generalizing m pt gs with
  | nil =>
      cases hs
      exact .inl he
  | cons ph phs ih =>
      unfold elfLoadAt at hs
      split at hs
      · cases hs
        exact .inl he
      · obtain ⟨b', hb', hs⟩ := bind_eq_some_iff.1 hs
        have hpages : ∀ {e}, b'.pt.lookup s = some e → pt.lookup s = some e ∨
          m.Free device e.frame :=
          fun h => (mapPages_fresh _ hb' h).imp_right And.right
        split at hs
        · exact (ih hs).elim hpages fun hnew => .inr ((mapPages_kept _ hb').free hnew)
        · cases hs
          exact hpages he

theorem ensureUserPages_elsewhere {s : Nat} {e : Pte} (vas : List Nat) (hout : s ∉ vas.map pageOf)
    (hs : ensureUserPages device vas m pt gs = some b) (he : b.pt.lookup s = some e) :
    pt.lookup s = some e := by
  induction vas generalizing m pt gs with
  | nil =>
      cases hs
      exact he
  | cons va vas ih =>
      rw [List.map_cons, List.mem_cons, not_or] at hout
      unfold ensureUserPages at hs
      split at hs
      · exact ih hout.2 hs
      split at hs
      · cases hs
        exact he
      next g gs =>
      obtain ⟨-, hs⟩ := ite_none_right_eq_some.1 hs
      split at hs
      · obtain ⟨heq, -⟩ | ⟨-, hold⟩ := Table.lookup_insert_cases (ih hout.2 hs)
        · exact absurd heq hout.1
        · exact hold
      · cases hs
        exact he

theorem lookup_of_unmapRange {lo hi s : Nat} {e : Pte} {pt' : PageTable} {fs : List Frame}
    (h : unmapRange pt lo hi = (pt', fs)) (he : pt'.lookup s = some e) : pt.lookup s = some e := by
  obtain rfl : pt' = (unmapRange pt lo hi).1 := by rw [h]
  rw [unmapRange, lookup_unmap_foldl] at he
  exact (ite_none_left_eq_some.1 he).2

theorem lookup_setProc_defer (m : Machine) (p : Pid) (Q : Process) (fs : List Frame) :
    ((m.setProc p Q).defer fs).procs.lookup p = some Q := AList.lookup_insert _

/-- The new address space has, outside of the stack, the pages of the image only. -/
theorem enterTask_page {s : Nat} {e : Pte} {Q : Process}
    (hpokes : ∀ va ∈ x.pokes, userStackLow ≤ va ∧ va < userStackTop)
    (hout : ¬stackSegment.Has s) (hs : enterTask device m p pt x c = some o)
    (hQ : o.m.procs.lookup p = some Q) (he : Q.pt.lookup s = some e) : pt.lookup s = some e := by
  obtain ⟨b, hb, hs⟩ := bind_eq_some_iff.1 hs
  have hstack : b.pt.lookup s = some e → pt.lookup s = some e := by
    intro h
    refine (mapPages_fresh _ hb h).resolve_right fun hnew => ?_
    obtain ⟨va, hva, rfl⟩ := List.mem_map.1 hnew.1
    exact hout (stackSegment_has_pages va hva)
  have hpoke : s ∉ x.pokes.map pageOf := by
    intro hmem
    obtain ⟨va, hva, rfl⟩ := List.mem_map.1 hmem
    exact hout (stackSegment_has (hpokes va hva).1 (hpokes va hva).2)
  rcases hu : unmapRange b.pt userStackPrepopulated
    (userStackPrepopulated + pageSize * x.stack.length) with ⟨pt', fs⟩
  rw [hu] at hs
  dsimp only at hs
  split at hs
  · obtain ⟨t, ht, rfl⟩ := map_eq_some_iff.1 hs
    cases (AList.lookup_insert _).symm.trans hQ
    split at ht
    · exact hstack (ensureUserPages_elsewhere _ hpoke ht he)
    · cases ht
      exact hstack he
  · obtain rfl := some.inj hs
    rw [lookup_setProc_defer, some_inj] at hQ
    subst hQ
    exact hstack (lookup_of_unmapRange hu he)

/-- The image and its interpreter are found good, and there is memory for them. -/
def ExecCall.Accepted (x : ExecCall) (device : Frame → Bool) (m : Machine) : Prop :=
  ∃ b, elfLoadAt device x.loads m ∅ x.image = some b ∧ (b.ok && x.valid) = true

/-- The caller runs on a page of its own outside of the stack, at the address in `rcx`. -/
def Runs (device : Frame → Bool) (m : Machine) (P : Process) (c : Caller ρ) : Prop :=
  ¬stackSegment.Has (pageOf c.rcx) ∧
    ∃ e, P.pt.lookup (pageOf c.rcx) = some e ∧ ¬m.Free device e.frame

/-- The caller's registers and threads, the address spaces with all mappings and what is in the
frames are as they were. -/
def ExecOut.Intact (o : ExecOut ρ) (device : Frame → Bool) (m : Machine) (c : Caller ρ) : Prop :=
  o.caller = c ∧ o.m.procs = m.procs ∧ ∀ f, ¬ m.Free device f → o.m.mem f = m.mem f

def program : Process :=
  ⟨[⟨0x400000, 0x401000, protRead, mapPrivate, 0, 0⟩], mmapBase,
    (∅ : PageTable).insert 0x400 (userPage 7 protRead)⟩

def running : Machine := (bootVm.alloc 7 fun _ => 1).setProc 1 program

def calling : Caller Unit := ⟨0x400010, userStackTop - 64, 0, fun _ => 1, [2], ()⟩

def callExec (valid : Bool) (stack : List Grant) : ExecCall where
  loads := []
  valid := valid
  image := []
  released := []
  stack := stack
  kmallocs := [true]
  pokes := [userStackTop - 16]
  entry := [⟨13, fun _ => 0, true⟩]
  victims := true
  argvPtr := true
  cpuState _ := 0
  start := 0x500000
  entrySp := userStackTop - 256

end NeoKernel.Vm
