import NeoKernel.Vm.Owed

/-!
# Frames of kernel objects

An object takes frames from `pmm_alloc` and hands them out to processes as device pages; `held`
counts them. How the invariant of the counts goes over when an object takes or gives back a frame,
and that a step of a process adds no page of an object.
-/
namespace NeoKernel.Vm
open Lib Machine List Option Table

def objectOf (device : Frame → Bool) (held : Frame → Nat) (f : Frame) : Bool :=
  device f || decide (0 < held f)

section Objects

variable {device device' : Frame → Bool} {held held' : Frame → Nat} {m m' : Machine} {p : Pid}
  {P Q : Process} {f : Frame} {content : Nat → Byte} {addr : Nat} {alloc : Option Frame}

theorem objectOf_iff : objectOf device held f = true ↔ device f = true ∨ 0 < held f := by
  unfold objectOf
  rw [Bool.or_eq_true, decide_eq_true_iff]

theorem objectOf_of_zero (h : held f = 0) : objectOf device held f = device f := by
  unfold objectOf
  rw [h]
  exact Bool.or_false _

theorem objectOf_congr (h : held' f = held f) :
    objectOf device held' f = objectOf device held f := by
  unfold objectOf
  rw [h]

theorem lt_of_objectOf (hpmm : ∀ f, device f = false → f < pmmMaxFrames)
    (h : objectOf device held f = false) : f < pmmMaxFrames := by
  refine hpmm f ?_
  unfold objectOf at h
  exact (Bool.or_eq_false_iff.1 h).1

section

variable (h : Sound (objectOf device held) held m)
include h

theorem Sound.mapped_counted (hP : m.procs.lookup p = some P) {s : Nat} {e : Pte}
    (he : P.pt.lookup s = some e) (hdev : device e.frame = false) : 1 ≤ m.refcount e.frame := by
  cases hn : e.nofree with
  | false => exact h.one_le_refcount hP he hn
  | true =>
      have hobj := ((h.spaces p P hP).entries s e he).1
      rw [hn] at hobj
      have hheld : 0 < held e.frame := by
        rcases objectOf_iff.1 hobj.symm with hd | hheld
        · rw [hdev] at hd
          cases hd
        · exact hheld
      have := h.owed e.frame
      omega

theorem Sound.not_mapped (hf : m.Free device f) (hP : m.procs.lookup p = some P) {s : Nat} {e : Pte}
    (he : P.pt.lookup s = some e) : e.frame ≠ f := by
  rintro rfl
  have := h.mapped_counted hP he hf.2
  rw [hf.1] at this
  omega

theorem Sound.free_object (hf : m.Free device f) : m.Free (objectOf device held) f := by
  refine ⟨hf.1, ?_⟩
  have howed := h.owed f
  rw [hf.1] at howed
  rw [objectOf_of_zero (by omega)]
  exact hf.2

end

/-- The notion of device frames may change where no page and no pending free is concerned. -/
theorem Process.Sound.congr (h : P.Sound device)
    (hframes : ∀ s e, P.pt.lookup s = some e → device' e.frame = device e.frame) :
    P.Sound device' := by
  refine ⟨h.ok, h.kinds, fun s e he => ?_⟩
  rw [hframes s e he]
  exact h.entries s e he

theorem Sound.adopt (h : Sound (objectOf device held) held m) (hf : m.Free device f)
    (hheld : ∀ x, held' x = held x + [f].count x) :
    Sound (objectOf device held') held' (m.alloc f content) := by
  have hother : ∀ x, x ≠ f → held' x = held x := fun x hx => by
    rw [hheld, count_singleton, if_neg (by simpa using Ne.symm hx)]
    rfl
  have hunused := h.unused (h.free_object hf)
  have hcount : ∀ x, (m.alloc f content).refcount x = m.refcount x + [f].count x :=
    fun x => alloc_refcount hf.1
  refine ⟨fun q R hR => ?_, fun x hx => ?_, fun x => ?_, fun x => ?_⟩
  · refine (h.spaces q R hR).congr fun s e he => objectOf_congr (hother _ ?_)
    exact h.not_mapped hf hR he
  · have hx' : x ∈ m.deferred := hx
    rw [objectOf_congr (hother x ?_)]
    · exact h.deferred x hx'
    · rintro rfl
      have hpos := count_pos_iff.2 hx'
      unfold Machine.owed at hunused
      omega
  · rw [hcount]
    by_cases hx : x = f
    · rw [hx, hf.1]
      simp
    · rw [count_singleton, if_neg (by simpa using Ne.symm hx)]
      exact h.bound x
  · have howed : (m.alloc f content).owed x = m.owed x := rfl
    have := h.owed x
    rw [howed, hcount, hheld]
    omega

theorem Sound.disown (hpmm : ∀ f, device f = false → f < pmmMaxFrames)
    (h : Sound (objectOf device held) held m) (hdev : device f = false)
    (hheld : ∀ x, held x = held' x + [f].count x)
    (hnone : ∀ q R s e, m.procs.lookup q = some R → R.pt.lookup s = some e → e.frame ≠ f) :
    Sound (objectOf device held') held' (m.pmmFree f) := by
  have hother : ∀ x, x ≠ f → held' x = held x := fun x hx => by
    rw [hheld, count_singleton, if_neg (by simpa using Ne.symm hx)]
    rfl
  have hone : 1 ≤ m.refcount f := by
    have := h.owed f
    have := hheld f
    rw [count_singleton_self] at this
    omega
  have hcount : ∀ x, (m.pmmFree f).refcount x + [f].count x = m.refcount x :=
    fun x => pmmFree_refcount (hpmm f hdev) hone (h.bound f)
  refine ⟨fun q R hR => ?_, fun x hx => ?_, fun x => ?_, fun x => ?_⟩
  · rw [pmmFree_procs] at hR
    exact (h.spaces q R hR).congr fun s e he => objectOf_congr (hother _ (hnone q R s e hR he))
  · rw [pmmFree_deferred] at hx
    have hobj := h.deferred x hx
    unfold objectOf at hobj ⊢
    rw [Bool.or_eq_false_iff, decide_eq_false_iff_not] at hobj ⊢
    have := hheld x
    exact ⟨hobj.1, by omega⟩
  · have := hcount x
    have := h.bound x
    omega
  · have howed : (m.pmmFree f).owed x = m.owed x := by
      unfold Machine.owed refs
      rw [pmmFree_procs, pmmFree_deferred]
    have := h.owed x
    have := hcount x
    have := hheld x
    rw [howed]
    omega

theorem foldl_pmmFree_procs (fs : List Frame) (m : Machine) :
    (fs.foldl pmmFree m).procs = m.procs := by
  induction fs generalizing m with
  | nil => rfl
  | cons f fs ih => rw [foldl_cons, ih, pmmFree_procs]

theorem Sound.disown_all (hpmm : ∀ f, device f = false → f < pmmMaxFrames) (fs : List Frame)
    (h : Sound (objectOf device held) held m) (hdev : ∀ f ∈ fs, device f = false)
    (hheld : ∀ x, held x = held' x + fs.count x)
    (hnone : ∀ q R s e, m.procs.lookup q = some R → R.pt.lookup s = some e → e.frame ∉ fs) :
    Sound (objectOf device held') held' (fs.foldl pmmFree m) := by
  induction fs generalizing m held with
  | nil =>
      have heq : held = held' := funext hheld
      rw [← heq]
      exact h
  | cons f fs ih =>
      have hrest : ∀ x, held x = held' x + fs.count x + [f].count x := fun x => by
        rw [hheld x, ← singleton_append, count_append]
        omega
      have hstep : Sound (objectOf device fun x => held' x + fs.count x)
          (fun x => held' x + fs.count x) (m.pmmFree f) :=
        h.disown hpmm (hdev f mem_cons_self) hrest
          fun q R s e hR he heq => hnone q R s e hR he (heq ▸ mem_cons_self)
      refine ih hstep (fun x hx => hdev x (mem_cons_of_mem _ hx)) (fun x => rfl) ?_
      intro q R s e hR he hmem
      rw [pmmFree_procs] at hR
      exact hnone q R s e hR he (mem_cons_of_mem _ hmem)

/-- What a process may do stays possible when more frames are device frames, as long as none
of them is free. -/
theorem vmStep_mono {a : VmAct} (hdev : ∀ f, device f = true → device' f = true)
    (hfree : ∀ f, m.Free device f → m.Free device' f) (hs : vmStep device m a = some m') :
    vmStep device' m a = some m' := by
  cases a with
  | mapFrames p frames prot tailOk kmalloc failAt =>
      obtain ⟨P, hP, hs⟩ := bind_eq_some_iff.1 hs
      refine bind_eq_some_iff.2 ⟨P, hP, ?_⟩
      split at hs
      · next hframes =>
          rw [if_pos ⟨fun f hf => hdev f (hframes.1 f hf), hframes.2⟩]
          exact hs
      · cases hs
  | mapPhys p phys len prot tailOk kmalloc failAt =>
      obtain ⟨P, hP, hs⟩ := bind_eq_some_iff.1 hs
      refine bind_eq_some_iff.2 ⟨P, hP, ?_⟩
      split at hs
      · next hframes =>
          rw [if_pos fun f hf => hdev f (hframes f hf)]
          exact hs
      · cases hs
  | fault p addr write alloc tables =>
      obtain ⟨P, hP, hs⟩ := bind_eq_some_iff.1 hs
      refine bind_eq_some_iff.2 ⟨P, hP, ?_⟩
      unfold fault at hs ⊢
      split at hs
      · cases hs
      next habs =>
      split at hs
      · cases hs
      next hall =>
      rw [if_neg habs, if_neg fun h => h fun f hf => hfree f (not_not.1 hall f hf)]
      exact hs
  | install k f content tables =>
      obtain ⟨x, hx, hs⟩ := bind_eq_some_iff.1 hs
      obtain ⟨P, hP, hs⟩ := bind_eq_some_iff.1 hs
      refine bind_eq_some_iff.2 ⟨x, hx, bind_eq_some_iff.2 ⟨P, hP, ?_⟩⟩
      unfold install at hs ⊢
      split at hs
      · next hf =>
          rw [if_pos (hfree f hf)]
          exact hs
      · cases hs
  | cowFault p addr alloc =>
      obtain ⟨P, hP, hs⟩ := bind_eq_some_iff.1 hs
      refine bind_eq_some_iff.2 ⟨P, hP, ?_⟩
      unfold cowFault at hs ⊢
      split at hs
      · cases hs
      next e he =>
      split at hs
      · cases hs
      next huser =>
      split at hs
      · cases hs
      next hall =>
      rw [if_neg huser, if_neg fun h => h fun f hf => hfree f (not_not.1 hall f hf)]
      exact hs
  | mmap | mmapFile | munmap | mprotect | mremap | fork | ioFail | write | exit | release =>
      exact hs

/-- Every device page of `Q` has the frame of a page of `P`, or of a device. -/
def FromOld (device : Frame → Bool) (P Q : Process) : Prop :=
  ∀ s' e', Q.pt.lookup s' = some e' → e'.nofree = true →
    device e'.frame = true ∨ ∃ s e, P.pt.lookup s = some e ∧ e.frame = e'.frame

theorem FromOld.refl (P : Process) : FromOld device P P :=
  fun s e he _ => .inr ⟨s, e, he, rfl⟩

theorem Shrunk.fromOld {fs : List Frame} (h : Shrunk device AnyFrame P Q fs) :
    FromOld device P Q := by
  intro s e' he' _
  rcases h.table.kept s e' he' with ⟨-, hdev, -⟩ | ⟨e, he, hframe, -⟩
  · exact .inl hdev
  · exact .inr ⟨s, e, he, hframe.symm⟩

theorem FromOld.insert {e : Pte}
    (he : e.nofree = true → ∃ s d, P.pt.lookup s = some d ∧ d.frame = e.frame) :
    FromOld device P { P with pt := P.pt.insert (pageOf addr) e } := by
  intro s e' he' hn
  obtain ⟨-, rfl⟩ | ⟨-, he'⟩ := lookup_insert_cases he'
  · exact .inr (he hn)
  · exact .inr ⟨s, e', he', rfl⟩

/-- The process from which the pages of `q` come in this step. -/
def originOf : VmAct → Pid → Pid
  | .fork p c _ => fun q => if q = c then p else q
  | _ => id

/-- In the state `m'` every process has only device pages that its origin had in `m`, besides
those of devices. -/
def PagesFrom (device : Frame → Bool) (m m' : Machine) (origin : Pid → Pid) : Prop :=
  ∀ q Q, m'.procs.lookup q = some Q →
    ∃ P, m.procs.lookup (origin q) = some P ∧ FromOld device P Q

theorem PagesFrom.same (h : m'.procs = m.procs) : PagesFrom device m m' id := fun _ Q hQ =>
  ⟨Q, h ▸ hQ, .refl Q⟩

theorem PagesFrom.insert (hP : m.procs.lookup p = some P) (h : FromOld device P Q)
    (hm : m'.procs = m.procs.insert p Q) : PagesFrom device m m' id := by
  intro q R hR
  rw [hm] at hR
  obtain ⟨hq, rfl⟩ | ⟨-, hR⟩ := lookup_insert_cases hR
  · exact ⟨P, hq ▸ hP, h⟩
  · exact ⟨R, hR, .refl R⟩

theorem fromOld_forkParent (fail : ForkFail) :
    FromOld device P { P with pt := forkParentTable fail P.pt } := by
  intro s e' he' _
  obtain ⟨e, he, rfl⟩ := map_eq_some_iff.1 ((lookup_adjust _).symm.trans he')
  refine .inr ⟨s, e, he, ?_⟩
  split
  · exact e.forkParent_alike.frame.symm
  · rfl

def Process.forked (P : Process) : Process :=
  { P with vmas := P.vmas.map copyVma, pt := forkChildTable P.pt }

theorem fromOld_forked : FromOld device P P.forked := by
  intro s e' he' _
  obtain ⟨e, he, rfl⟩ := map_eq_some_iff.1 ((lookup_adjust _).symm.trans he')
  exact .inr ⟨s, e, he, e.forked_alike.frame.symm⟩

section

variable (hP : m.procs.lookup p = some P)
include hP

theorem fork_failed_pagesFrom {c : Pid} {fail : ForkFail} (hfail : fail ≠ none) :
    PagesFrom device m (m.fork p c P fail) id := by
  unfold fork
  rw [if_neg hfail]
  exact .insert hP (fromOld_forkParent fail) (foldl_share_procs _)

theorem fork_pagesFrom {c : Pid} {fail : ForkFail} (hc : m.proc c = none) :
    PagesFrom device m (m.fork p c P fail) fun q => if q = c then p else q := by
  intro q Q hQ
  dsimp only
  by_cases hfail : fail = none
  · have hprocs : (m.fork p c P fail).procs =
        (m.procs.insert p { P with pt := forkParentTable fail P.pt }).insert c P.forked := by
      unfold fork
      rw [if_pos hfail]
      exact congrArg (AList.insert c P.forked) (foldl_share_procs _)
    rw [hprocs] at hQ
    have hparent : PagesFrom device m
        (m.setProc p { P with pt := forkParentTable fail P.pt }) id :=
      .insert hP (fromOld_forkParent fail) rfl
    obtain ⟨hq, rfl⟩ | ⟨hq, hQ⟩ := lookup_insert_cases hQ
    · rw [if_pos hq]
      exact ⟨P, hP, fromOld_forked⟩
    · rw [if_neg hq]
      exact hparent q Q hQ
  · have hfailed : PagesFrom device m (m.fork p c P fail) id := fork_failed_pagesFrom hP hfail
    obtain ⟨R, hR, hfrom⟩ := hfailed q Q hQ
    have hq : q ≠ c := by
      rintro rfl
      cases hc.symm.trans hR
    rw [if_neg hq]
    exact ⟨R, hR, hfrom⟩

theorem Machine.fault_pagesFrom {write tables : Bool}
    (hs : m.fault device' p P addr write alloc tables = some m') : PagesFrom device m m' id := by
  obtain rfl | ⟨io, -, rfl⟩ | ⟨v, g, -, -, -, -, -, -, -, rfl⟩ := fault_cases hs
  · exact .same rfl
  · exact .same rfl
  · exact .insert hP (.insert (e := userPage g v.prot) nofun) (filled_procs _ _)

theorem Machine.install_pagesFrom {k : Nat} {io : FaultIo} {g : Frame} {tables : Bool}
    (hs : m.install device' k p io P g content tables = some m') : PagesFrom device m m' id := by
  obtain rfl | ⟨v, -, -, -, -, rfl⟩ := install_cases hs
  · exact .same rfl
  · exact .insert hP (.insert (e := userPage g io.prot) nofun) (filled_procs _ _)

theorem Machine.cowFault_pagesFrom (hsound : P.Sound device')
    (hs : m.cowFault device p P addr alloc = some m') : PagesFrom device m m' id := by
  obtain rfl | ⟨e, he, -, hcow, ⟨-, rfl⟩ | ⟨g, -, rfl⟩⟩ := cowFault_cases hs
  · exact .same rfl
  all_goals have hlook := (lookup_of_entry he).2
  · exact .insert hP (.insert (e := e.granted e.frame) fun _ => ⟨_, e, hlook, rfl⟩) rfl
  · -- a page of an object is never copied
    refine .insert hP (.insert fun hn => ?_) (pmmFree_procs _)
    cases hcow.symm.trans ((hsound.entries _ e hlook).2 hn)

end

theorem vmStep_pagesFrom {a : VmAct} (h : Sound device' held m) (hroom : Roomy m a)
    (hs : vmStep device m a = some m') : PagesFrom device m m' (originOf a) := by
  cases vmStep_moves hs with
  | call hP hc =>
      have hPs := h.spaces _ _ hP
      have hshrunk := (hc.reshaped_any hP hPs.ok hroom).shrunk hPs.kinds
      cases hc <;> exact .insert hP hshrunk.fromOld rfl
  | mremap | ioFail | write => exact .same rfl
  | fork hP hc => exact fork_pagesFrom hP hc
  | fault hP hs => exact fault_pagesFrom hP hs
  | install _ hP hs => exact install_pagesFrom hP hs
  | cowFault hP hs => exact cowFault_pagesFrom hP (h.spaces _ _ hP) hs
  | exit => exact fun q Q hQ => ⟨Q, (lookup_erase_some hQ).2, .refl Q⟩
  | release => exact .same (pmmFree_procs _)

end Objects

end NeoKernel.Vm
