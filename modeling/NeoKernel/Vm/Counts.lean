import NeoKernel.Vm.ExecSound

/-!
# Exact frame counts

All processes with the frames that the kernel itself holds: page tables, buffers, and the like.
A step is one of a process, an exec, or one of the kernel, which takes a free frame, frees one
it holds, or defers the free to the next shootdown.
-/
namespace NeoKernel.Vm
open Lib List Option

structure Kernel where
  m : Machine
  held : List Frame

inductive KernelAct where
  | vm (a : VmAct)
  | exec (p : Pid) (x : Exec)
  | hold (f : Frame)
  | drop (f : Frame)
  | retire (f : Frame)

def kernelStep (device : Frame → Bool) (k : Kernel) : KernelAct → Option Kernel
  | .vm a => (vmStep device k.m a).map fun m => { k with m := m }
  | .exec p x =>
      (k.m.proc p).bind fun P => (k.m.exec device p P x).map fun m => { k with m := m }
  | .hold f =>
      if k.m.Free device f then some ⟨k.m.alloc f (k.m.mem f), f :: k.held⟩ else none
  | .drop f => if f ∈ k.held then some ⟨k.m.pmmFree f, k.held.erase f⟩ else none
  | .retire f => if f ∈ k.held then some ⟨k.m.defer [f], k.held.erase f⟩ else none

def kernelSystem (device : Frame → Bool) : System Kernel KernelAct where
  init k := VmInit k.m ∧ k.held = []
  step := kernelStep device

/-- Calls find room, a fork does not fail at a private page, and the rest of `Mild` and
`Exec.Neat`. -/
def Provisioned (k : Kernel) : KernelAct → Prop
  | .vm a => Roomy k.m a ∧ Mild k.m a ∧ Tidy k.m a
  | .exec _ x => x.Neat
  | _ => True

instance (k : Kernel) : (a : KernelAct) → Decidable (Provisioned k a)
  | .vm a => inferInstanceAs (Decidable (Roomy k.m a ∧ Mild k.m a ∧ Tidy k.m a))
  | .exec _ x => inferInstanceAs (Decidable x.Neat)
  | .hold _ | .drop _ | .retire _ => inferInstanceAs (Decidable True)

section Kernel

variable {device : Frame → Bool} {k k' : Kernel} {f : Frame}

def Kernel.holds (k : Kernel) (f : Frame) : Nat := k.held.count f

def Kernel.Settled (device : Frame → Bool) (k : Kernel) : Prop :=
  Vm.Settled device k.holds k.m ∧ ∀ f ∈ k.held, device f = false

theorem Kernel.Settled.hold (h : k.Settled device) (hf : k.m.Free device f) :
    Kernel.Settled device ⟨k.m.alloc f (k.m.mem f), f :: k.held⟩ := by
  obtain ⟨⟨hsound, hexact⟩, hheld⟩ := h
  have hcount : ∀ x, (k.m.alloc f (k.m.mem f)).refcount x = k.m.refcount x + [f].count x :=
    fun x => alloc_refcount hf.1
  have hexact' : ∀ x, (k.m.alloc f (k.m.mem f)).refcount x =
      k.m.owed x + (f :: k.held).count x := fun x => by
    have hx : (f :: k.held).count x = [f].count x + k.held.count x := by
      rw [← count_append]
      rfl
    have := hexact x
    unfold Kernel.holds at this
    rw [hcount, hx]
    omega
  refine ⟨⟨⟨hsound.spaces, hsound.deferred, fun x => ?_, fun x => (hexact' x).ge⟩, hexact'⟩,
    forall_mem_cons.2 ⟨hf.2, hheld⟩⟩
  rw [hcount]
  by_cases hx : x = f
  · simp [hx, hf.1]
  · simpa [Ne.symm hx] using hsound.bound x

theorem Kernel.count_held (hf : f ∈ k.held) (x : Frame) :
    k.held.count x = [f].count x + (k.held.erase f).count x := by
  rw [(perm_cons_erase hf).count_eq x, ← count_append]
  rfl

theorem Kernel.Settled.drop (hpmm : ∀ f, device f = false → f < pmmMaxFrames)
    (h : k.Settled device) (hf : f ∈ k.held) :
    Kernel.Settled device ⟨k.m.pmmFree f, k.held.erase f⟩ := by
  obtain ⟨⟨hsound, hexact⟩, hheld⟩ := h
  have hpos : 1 ≤ k.m.refcount f := by
    have := hexact f
    have := count_pos_iff.2 hf
    unfold Kernel.holds at *
    omega
  have hcount : ∀ x, (k.m.pmmFree f).refcount x + [f].count x = k.m.refcount x := fun x =>
    pmmFree_refcount (hpmm f (hheld f hf)) hpos (hsound.bound f)
  have hexact' : ∀ x, (k.m.pmmFree f).refcount x =
      (k.m.pmmFree f).owed x + (k.held.erase f).count x := fun x => by
    have := hexact x
    have := hcount x
    have := Kernel.count_held hf x
    unfold Kernel.holds Machine.owed Machine.refs at *
    rw [Machine.pmmFree_procs, pmmFree_deferred]
    omega
  refine ⟨⟨⟨fun q R hR => ?_, ?_, fun x => ?_, fun x => (hexact' x).ge⟩, hexact'⟩,
    fun x hx => hheld x (mem_of_mem_erase hx)⟩
  · rw [Machine.pmmFree_procs] at hR
    exact hsound.spaces q R hR
  · rw [pmmFree_deferred]
    exact hsound.deferred
  · have := hcount x
    have := hsound.bound x
    dsimp only
    omega

theorem Kernel.Settled.retire (h : k.Settled device) (hf : f ∈ k.held) :
    Kernel.Settled device ⟨k.m.defer [f], k.held.erase f⟩ := by
  obtain ⟨⟨hsound, hexact⟩, hheld⟩ := h
  have hexact' : ∀ x, k.m.refcount x = (k.m.defer [f]).owed x + (k.held.erase f).count x :=
    fun x => by
      have := hexact x
      have := Kernel.count_held hf x
      unfold Kernel.holds Machine.owed at *
      change _ = k.m.refs x + (k.m.deferred ++ [f]).count x + _
      rw [count_append]
      omega
  refine ⟨⟨⟨hsound.spaces, fun x hx => ?_, hsound.bound, fun x => (hexact' x).ge⟩, hexact'⟩,
    fun x hx => hheld x (mem_of_mem_erase hx)⟩
  rcases mem_append.1 hx with hx | hx
  · exact hsound.deferred x hx
  · cases mem_singleton.1 hx
    exact hheld f hf

theorem kernelStep_settled {a : KernelAct} (hpmm : ∀ f, device f = false → f < pmmMaxFrames)
    (h : k.Settled device) (hok : Provisioned k a) (hs : kernelStep device k a = some k') :
    k'.Settled device := by
  cases a with
  | vm a =>
      obtain ⟨m, hm, rfl⟩ := map_eq_some_iff.1 hs
      obtain ⟨hroom, hmild, htidy⟩ := hok
      obtain ⟨hsound, hbal⟩ := vmStep_sound hpmm h.1.sound hroom hmild hm
      exact ⟨h.1.step ⟨hsound, hbal htidy⟩, h.2⟩
  | exec p x =>
      obtain ⟨P, hP, hs⟩ := bind_eq_some_iff.1 hs
      obtain ⟨m, hm, rfl⟩ := map_eq_some_iff.1 hs
      exact ⟨h.1.exec hpmm hP hok hm, h.2⟩
  | hold f =>
      simp only [kernelStep] at hs
      obtain ⟨hf, ⟨⟩⟩ := ite_none_right_eq_some.1 hs
      exact h.hold hf
  | drop f =>
      simp only [kernelStep] at hs
      obtain ⟨hf, ⟨⟩⟩ := ite_none_right_eq_some.1 hs
      exact h.drop hpmm hf
  | retire f =>
      simp only [kernelStep] at hs
      obtain ⟨hf, ⟨⟩⟩ := ite_none_right_eq_some.1 hs
      exact h.retire hf

theorem kernelSystem_settled (hpmm : ∀ f, device f = false → f < pmmMaxFrames)
    (hr : (kernelSystem device).Reach Provisioned k) : k.Settled device := by
  refine hr.invariant (Kernel.Settled device) (fun k h => ?_)
    fun _ _ _ h hok hs => kernelStep_settled hpmm h hok hs
  have hheld : k.holds = fun _ => 0 := by
    funext f
    rw [Kernel.holds, h.2]
    rfl
  refine ⟨hheld ▸ ⟨h.1.sound, h.1.exact⟩, ?_⟩
  rw [h.2]
  exact nofun

end Kernel

/-- In every run of such steps, the count of a frame that `pmm_alloc` can return is the number
of private entries that point to it, with its pending frees and what the kernel holds. A frame
that is mapped is not free, and one that nothing refers to is. -/
theorem frame_counts_exact {device : Frame → Bool} (hpmm : ∀ f, device f = false → f < pmmMaxFrames)
    {k : Kernel} (hr : (kernelSystem device).Reach Provisioned k) {f : Frame}
    (hf : device f = false) :
    k.m.refcount f = k.m.refs f + k.m.deferred.count f + k.held.count f ∧
      (∀ p P s e, k.m.procs.lookup p = some P → P.pt.lookup s = some e → e.nofree = false →
        e.frame = f → ¬ k.m.Free device f) ∧
      (k.m.refs f = 0 → f ∉ k.m.deferred → f ∉ k.held → k.m.Free device f) := by
  obtain ⟨⟨hsound, hexact⟩, -⟩ := kernelSystem_settled hpmm hr
  refine ⟨hexact f, ?_, fun hrefs hdef hheld => ⟨?_, hf⟩⟩
  · rintro p P s e hP he hn rfl hfree
    have hpos := hsound.one_le_refcount hP he hn
    rw [hfree.1] at hpos
    omega
  · rw [hexact, Machine.owed, Kernel.holds, hrefs, count_eq_zero_of_not_mem hdef,
      count_eq_zero_of_not_mem hheld]

def bootKernel : Kernel := ⟨bootVm, []⟩

theorem bootKernel_init : (kernelSystem beyondPmm).init bootKernel := ⟨bootVm_init, rfl⟩

/-- A page is written, a fork shares it and the child copies it; then the child runs a program of
one segment, and a second fork fails at a page that is not there. -/
def forkThenExec : List KernelAct :=
  [.vm (.mmap 1 0 0x1000 (protRead ||| protWrite) (mapPrivate ||| mapAnonymous) true true),
   .vm (.fault 1 mmapBase true (some 7) true),
   .vm (.fork 1 2 none),
   .vm (.cowFault 2 mmapBase (some 8)),
   .hold 20,
   .exec 2 ⟨[⟨0x400000, 0x800, 5⟩], true, [⟨9, fun _ => 0, true⟩], [8],
     [⟨8, fun _ => 0, true⟩, ⟨10, fun _ => 0, true⟩, ⟨11, fun _ => 0, true⟩,
      ⟨12, fun _ => 0, true⟩], [true, true], [userStackTop - 0x4001], [⟨13, fun _ => 0, true⟩]⟩,
   .vm (.fork 1 3 (some 0)),
   .vm (.munmap 1 mmapBase 0x1000 true)]

theorem frame_counts_exact_exec :
    ∃ k : Kernel, (kernelSystem beyondPmm).Reach Provisioned k ∧ k.m.refcount 7 = 1 ∧
      k.m.refs 7 = 0 ∧ k.m.deferred = [7] ∧ k.m.refs 13 = 1 ∧ k.held = [20] ∧
      (k.m.refcount 7 = k.m.refs 7 + k.m.deferred.count 7 + k.held.count 7 ∧
        (∀ p P s e, k.m.procs.lookup p = some P → P.pt.lookup s = some e → e.nofree = false →
          e.frame = 7 → ¬ k.m.Free beyondPmm 7) ∧
        (k.m.refs 7 = 0 → 7 ∉ k.m.deferred → 7 ∉ k.held → k.m.Free beyondPmm 7)) := by
  refine System.Reach.exists_of_run_imp forkThenExec bootKernel_init (by decide +kernel)
    fun k hr (hk : k.m.refcount 7 = 1 ∧ k.m.refs 7 = 0 ∧ k.m.deferred = [7] ∧ k.m.refs 13 = 1 ∧
      k.held = [20]) => ?_
  obtain ⟨h₁, h₂, h₃, h₄, h₅⟩ := hk
  exact ⟨h₁, h₂, h₃, h₄, h₅, frame_counts_exact (fun _ => lt_of_beyondPmm) hr (by decide)⟩

/-- A page is written, and a fork fails at it for want of a page table. The process exits and its
frames are released. -/
def forkFailsAtPage : List KernelAct :=
  [.vm (.mmap 1 0 0x1000 (protRead ||| protWrite) (mapPrivate ||| mapAnonymous) true true),
   .vm (.fault 1 mmapBase true (some 7) true),
   .vm (.fork 1 2 (some (mmapBase / pageSize))),
   .vm (.exit 1),
   .vm (.release 7)]

/-- The frame is lost: nothing refers to it, and it is not free. -/
theorem failed_fork_leaks_frame :
    ∃ k : Kernel, (kernelSystem beyondPmm).Reach (fun _ _ => True) k ∧ beyondPmm 7 = false ∧
      k.m.refcount 7 = 1 ∧ k.m.refs 7 + k.m.deferred.count 7 + k.held.count 7 = 0 :=
  System.Reach.exists_of_run forkFailsAtPage bootKernel_init (by decide +kernel)

end NeoKernel.Vm
