import NeoKernel.Ipc.SigReturn

/-!
# The mask of a wait (`sys_ppoll`, `sys_rt_sigsuspend`)

The thread waits with the mask of the call. When a signal has ended the wait, the old mask is put
back by the return from its handler, out of the frame; a signal that no handler catches has none.
-/
namespace NeoKernel.SigReturn
open Function List

inductive MaskCall where
  | ppoll
  /-- does not apply its mask -/
  | epollPwait
  | rtSigsuspend
  deriving DecidableEq, Repr

namespace MaskCall

def enter (mask : Sigset) (th : Thread) : MaskCall → Thread
  | ppoll | rtSigsuspend =>
      { th with
        savedBlocked := th.blocked
        inSigsuspend := true
        blocked := mask &&& ~~~unblockable }
  | epollPwait => th

/-- The thread when its wait has ended with `rc`. -/
def leave (rc : Nat) (th : Thread) : MaskCall → Thread
  | ppoll =>
      if rc = minusEintr then th
      else { th with blocked := th.savedBlocked, inSigsuspend := false }
  | epollPwait | rtSigsuspend => th

def retval (rc : Nat) : MaskCall → Nat
  | ppoll | epollPwait => rc
  | rtSigsuspend => minusEintr

end MaskCall

/-- A call, what it was given and how its wait ended: with `rc` and the signals `found`, for the
thread `th` as it was before. -/
structure Wait where
  call : MaskCall
  mask : Sigset
  num : Nat
  frame : Context
  th : Thread
  rc : Nat
  found : List Pending

def KSigaction.Handled (ka : KSigaction) : Prop := ka.handler ≠ sigIgn ∧ ka.handler ≠ sigDfl

instance (ka : KSigaction) : Decidable ka.Handled := inferInstanceAs (Decidable (_ ∧ _))

/-- The mask that `deliver_one` has stored in the frame. -/
def oldmask (th : Thread) : Sigset := if th.inSigsuspend then th.savedBlocked else th.blocked

theorem MaskCall.oldmask_leave (c : MaskCall) (mask : Sigset) (rc : Nat) (th : Thread) :
    oldmask (c.leave rc (c.enter mask th)) =
      if c = .epollPwait then oldmask th else th.blocked := by
  cases c with
  | ppoll =>
      rw [leave]
      split <;> rfl
  | epollPwait | rtSigsuspend => rfl

theorem MaskCall.blocked_leave (c : MaskCall) (mask : Sigset) (rc : Nat) (th : Thread) :
    (c.leave rc (c.enter mask th)).blocked =
      if c ≠ .epollPwait ∧ c.retval rc = minusEintr then mask &&& ~~~unblockable
      else th.blocked := by
  cases c with
  | ppoll =>
      by_cases hrc : rc = minusEintr
      · simp [leave, enter, retval, hrc]
      · simp [leave, enter, retval, hrc]
  | epollPwait | rtSigsuspend => rfl

variable {τ : Type*} [DecidableEq τ]

/-- The masks in the frames that `signal_deliver_from_syscall` builds, the innermost first. -/
def frameMasks (cpu : Cpu) (t : τ) (num : Nat) : List Pending → Context → Nat → Proc τ → List Sigset
  | [], _, _, _ => []
  | d :: ds, f, retval, p =>
      let sc := scFromSyscall f retval
      let sc := if restarts (p.actions d.sig) retval then rewound num sc else sc
      match deliverOne cpu p t d sc with
      | (_, none) => []
      | (p', some sc) =>
          frameMasks cpu t num ds (scToSyscall f sc) (sc .rax) p' ++
            if (p.actions d.sig).Handled then [oldmask (p.thr t)] else []

namespace Wait

def after (w : Wait) (t : τ) (p : Proc τ) : Proc τ :=
  p.setThr t (w.call.leave w.rc (w.call.enter w.mask w.th))

def deliver (w : Wait) (cpu : Cpu) (t : τ) (p : Proc τ) :
    Option (Proc τ × Option (Context × Nat)) :=
  deliverFromSyscall cpu t w.num w.found w.frame (w.call.retval w.rc) (w.after t p)

def masks (w : Wait) (cpu : Cpu) (t : τ) (p : Proc τ) : List Sigset :=
  frameMasks cpu t w.num w.found w.frame (w.call.retval w.rc) (w.after t p)

end Wait

/-- The handlers of these frames have returned. What they do before is their affair. -/
inductive Returned (cpu : Cpu) (t : τ) : List Sigset → Proc τ → Proc τ → Prop where
  | done (p : Proc τ) : Returned cpu t [] p p
  | next {ms p p₁ q rsp u} : (doSigreturn cpu p₁ t rsp u).dead = false →
      Returned cpu t ms (doSigreturn cpu p₁ t rsp u) q → Returned cpu t (u.frame.sigmask :: ms) p q

section Masks

variable {cpu : Cpu} {t : τ} {p p' q : Proc τ} {x : Context × Nat} {ds : List Pending}
  {f : Context} {num rc : Nat} {ms : List Sigset} {m : Sigset}

theorem deliverOne_ignored {d : Pending} {sc sc' : Context} (h : ¬(p.actions d.sig).Handled)
    (hr : deliverOne cpu p t d sc = (p', some sc')) : p' = p := by
  revert hr
  fun_cases deliverOne cpu p t d sc <;> intro hr <;> cases hr <;> try rfl
  next hign hdfl _ _ _ _ => exact absurd ⟨hign, hdfl⟩ h

/-- The outermost frame holds the mask from before; without a frame nothing has changed. There is
one if a signal has a handler. -/
theorem frameMasks_outermost (hs : deliverFromSyscall cpu t num ds f rc p = some (p', some x)) :
    (∃ d ∈ ds, (p.actions d.sig).Handled) ∧
        (frameMasks cpu t num ds f rc p).getLast? = some (oldmask (p.thr t)) ∨
      (¬∃ d ∈ ds, (p.actions d.sig).Handled) ∧ frameMasks cpu t num ds f rc p = [] ∧ p' = p := by
  revert hs
  fun_induction deliverFromSyscall cpu t num ds f rc p with
  | case1 f rc p =>
      rintro ⟨⟩
      exact .inr ⟨by simp, rfl, rfl⟩
  | case2 => rintro ⟨⟩
  | case3 d ds f rc p _ sc₀ sc p₁ sc₁ heq ih =>
      intro hs
      simp only [sc, sc₀] at heq
      simp only [frameMasks, heq]
      split
      · next hcatch => exact .inl ⟨⟨d, mem_cons_self, hcatch⟩, getLast?_concat⟩
      · next hno =>
          obtain rfl := deliverOne_ignored hno heq
          rw [append_nil, exists_mem_cons_iff, or_iff_right hno]
          exact ih hs
  | case4 => rintro ⟨⟩

theorem doSigreturn_blocked {rsp : Nat} {u : SigreturnMemory}
    (h : (doSigreturn cpu p t rsp u).dead = false) :
    ((doSigreturn cpu p t rsp u).thr t).blocked = u.frame.sigmask &&& ~~~unblockable := by
  unfold doSigreturn at h ⊢
  split at h
  · cases h
  · next hmapped =>
      rw [if_neg hmapped]
      change (update p.thr t _ t).blocked = _
      rw [update_self]

theorem Returned.blocked (h : Returned cpu t ms p q) (hm : ms.getLast? = some m) :
    (q.thr t).blocked = m &&& ~~~unblockable := by
  induction h with
  | done => cases hm
  | next hlive hrest ih =>
      cases hrest with
      | done =>
          cases hm
          exact doSigreturn_blocked hlive
      | next => exact ih hm

end Masks

/-- A thread that blocks SIGHUP waits in `rt_sigsuspend` for one signal. -/
def suspended (sig : Nat) : Wait :=
  ⟨.rtSigsuspend, 0, 130, userAt 0x400002, ⟨sigmaskOf 1, 0, false, ⟨0, 0⟩⟩, 0, [⟨sig, true⟩]⟩

def catching : Proc Unit :=
  { startProc with actions := fun _ => ⟨0x402000, saRestorer, 0x401000, 0⟩ }

def handlerFrame : SigreturnMemory :=
  { returnTo 0 0 0 with frame := ⟨userAt 0, 0, sigmaskOf 1, ⟨0, 0⟩⟩ }

end NeoKernel.SigReturn
