import NeoKernel.Lib.Trans
import NeoKernel.Vm.Page

/-!
# Return to user mode after signals (kernel/ipc/signal.c, kernel/syscall/sys_signal.c)

The instruction pointer that `sysret` or `iretq` gets is the one user code had at its entry to
the kernel, the address of a handler, or what a signal frame in user memory says. The frame may
hold anything by the time of `rt_sigreturn`, so it is part of the step. Not in the program:
`exits`, what the instructions that leave the kernel have got, and `saved`, the contexts in frames.
-/
namespace NeoKernel.SigReturn
open Lib Vm Function Option

def nsig : Nat := 65
def sigkill : Nat := 9
def sigstop : Nat := 19

def sigDfl : Nat := 0
def sigIgn : Nat := 1

def saSiginfo : BitVec 64 := 0x00000004
def saRestorer : BitVec 64 := 0x04000000
def saOnstack : BitVec 64 := 0x08000000
def saRestart : BitVec 64 := 0x10000000
def saNodefer : BitVec 64 := 0x40000000
def saResethand : BitVec 64 := 0x80000000

def sigframeFpstateAlign : Nat := 64
/-- `sizeof(struct rt_sigframe)`, with the offsets of two of its fields -/
def rtSigframeSize : Nat := 560
def sigframeUc : Nat := 8
def sigframeInfo : Nat := 432

def minusEintr : Nat := 2 ^ 64 - 4

abbrev Sigset := BitVec 64

def sigmaskOf (sig : Nat) : Sigset := 1#64 <<< (sig - 1)
def sigsetTest (s : Sigset) (sig : Nat) : Bool := s &&& sigmaskOf sig != 0
def unblockable : Sigset := sigmaskOf sigkill ||| sigmaskOf sigstop

structure KSigaction where
  handler : Nat
  flags : BitVec 64
  restorer : Nat
  mask : Sigset
  deriving DecidableEq, Repr

def KSigaction.has (ka : KSigaction) (flag : BitVec 64) : Bool := ka.flags &&& flag != 0

inductive Reg where
  | r8 | r9 | r10 | r11 | r12 | r13 | r14 | r15
  | rdi | rsi | rbp | rbx | rdx | rax | rcx | rsp | rip | eflags
  deriving DecidableEq, Repr

/-- The registers of user code: a syscall frame, the frame of an interrupt or a `sigcontext_64`. -/
abbrev Context := Reg → Nat

/-- What the restore instruction reads of an image: `MXCSR`, and the header where there is one. -/
structure FpImage where
  mxcsr : BitVec 32
  xstateBv : BitVec 64
  xcompBv : BitVec 64
  reserved : List (BitVec 64)
  deriving DecidableEq, Repr

structure AltStack where
  sp : Nat
  size : Nat
  deriving DecidableEq, Repr

/-- `rt_sigframe`, as far as `rt_sigreturn` reads it, with the address of the image. -/
structure RtSigframe where
  mcontext : Context
  fpstate : Nat
  sigmask : Sigset
  stack : AltStack

structure Thread where
  blocked : Sigset
  savedBlocked : Sigset
  inSigsuspend : Bool
  altstack : AltStack

/-- What `cpu_state_size` and `cpu_state_xcr0` return, and the bits of `MXCSR` that there are. -/
structure Cpu where
  stateSize : Nat
  xcr0 : BitVec 64
  mxcsrMask : BitVec 32

/-- What an instruction that leaves the kernel, or restores the floating-point state, gets. -/
inductive Exit where
  | sysret (rip : Nat)
  | iretq (rip : Nat)
  | fpRestore (image : FpImage)
  deriving DecidableEq, Repr

structure Proc (τ : Type*) where
  actions : Nat → KSigaction
  thr : τ → Thread
  /-- `signal_terminate` has been called -/
  dead : Bool
  exits : List Exit
  saved : List Context

/-- A signal that is delivered, and whether the pages of its frame can be written. -/
structure Pending where
  sig : Nat
  mapped : Bool

inductive DefaultAction where
  | ign
  | stop
  | cont
  | core
  | term
  deriving DecidableEq, Repr

def signalDefaultAction (sig : Nat) : DefaultAction :=
  if sig = 17 then .ign
  else if sig ∈ [19, 20, 21, 22] then .stop
  else if sig = 18 then .cont
  else if sig ∈ [3, 4, 6, 8, 11, 7, 31, 5] then .core
  else .term

/-- `user_range_writable`: `mapped` is what the walk of the page tables finds. -/
def userRangeWritable (mapped : Bool) (addr len : Nat) : Bool :=
  len == 0 || (decide (addr + len < 2 ^ 64) && decide (addr + len ≤ userAddrLimit) && mapped)

variable {τ : Type*} [DecidableEq τ]

namespace Proc

def setThr (p : Proc τ) (t : τ) (x : Thread) : Proc τ := { p with thr := update p.thr t x }

def terminate (p : Proc τ) : Proc τ := { p with dead := true }

end Proc

/-- Where `build_frame` starts: the stack of the thread, or the alternate one. -/
def frameTop (th : Thread) (ka : KSigaction) (rsp : Nat) : Nat :=
  if ka.has saOnstack ∧ th.altstack.size ≠ 0 ∧
      ¬(th.altstack.sp ≤ rsp ∧ rsp < u64 (th.altstack.sp + th.altstack.size)) then
    u64 (th.altstack.sp + th.altstack.size)
  else rsp

def sub64 (a b : Nat) : Nat := if b ≤ a then a - b else 2 ^ 64 - (b - a)

/-- `build_frame`: the new stack pointer, none if the stack cannot take the frame. -/
def buildFrame (cpu : Cpu) (th : Thread) (ka : KSigaction) (mapped : Bool) (sc : Context) :
    Option Nat :=
  let fpaddr := sub64 (frameTop th ka (sc .rsp)) (cpu.stateSize + 4) / sigframeFpstateAlign *
    sigframeFpstateAlign
  let sp := sub64 (sub64 fpaddr rtSigframeSize / 16 * 16) 8
  if userRangeWritable mapped sp (sub64 (u64 (fpaddr + cpu.stateSize + 4)) sp) then some sp
  else none

def handlerContext (ka : KSigaction) (sig sp : Nat) (sc : Context) : Context := fun
  | .rip => ka.handler
  | .rsp => sp
  | .rdi => sig
  | .rsi => if ka.has saSiginfo then u64 (sp + sigframeInfo) else sc .rsi
  | .rdx => if ka.has saSiginfo then u64 (sp + sigframeUc) else sc .rdx
  -- the direction flag is cleared
  | .eflags => sc .eflags - sc .eflags / 2 ^ 10 % 2 * 2 ^ 10
  | r => sc r

def handlerThread (th : Thread) (ka : KSigaction) (sig : Nat) : Thread :=
  { th with
    blocked := (th.blocked ||| ka.mask ||| (if ka.has saNodefer then 0 else sigmaskOf sig)) &&&
      ~~~unblockable
    inSigsuspend := false }

/-- `deliver_one`; none if the process is terminated. -/
def deliverOne (cpu : Cpu) (p : Proc τ) (t : τ) (d : Pending) (sc : Context) :
    Proc τ × Option Context :=
  let ka := p.actions d.sig
  if ka.handler = sigIgn then (p, some sc)
  else if ka.handler = sigDfl then
    match signalDefaultAction d.sig with
    | .ign | .stop | .cont => (p, some sc)
    | .core | .term => (p.terminate, none)
  else if ¬ka.has saRestorer ∨ ka.restorer = 0 then (p.terminate, none)
  else
    match buildFrame cpu (p.thr t) ka d.mapped sc with
    | none => (p.terminate, none)
    | some sp =>
        let p := p.setThr t (handlerThread (p.thr t) ka d.sig)
        ({ p with
            actions := if ka.has saResethand then
                update p.actions d.sig { ka with handler := sigDfl }
              else p.actions
            saved := sc :: p.saved },
          some (handlerContext ka d.sig sp sc))

def scFromSyscall (f : Context) (retval : Nat) : Context := fun
  | .rax => retval
  | .rip => f .rcx
  | .eflags => f .r11
  | r => f r

def scToSyscall (f sc : Context) : Context := fun
  | .rcx => sc .rip
  | .r11 => sc .eflags
  -- not in a syscall frame
  | .rax => f .rax
  | .rip => f .rip
  | .eflags => f .eflags
  | r => sc r

/-- The call is made again after the handler: back onto the `syscall` instruction. -/
def restarts (ka : KSigaction) (retval : Nat) : Bool :=
  decide (retval = minusEintr) && ka.has saRestart && ka.handler != sigDfl && ka.handler != sigIgn

def rewound (num : Nat) (sc : Context) : Context := fun
  | .rip => sub64 (sc .rip) 2
  | .rax => num
  | r => sc r

def deliverable (th : Thread) (sig : Nat) : Bool :=
  decide (0 < sig) && decide (sig < nsig) && !sigsetTest th.blocked sig

/-- `signal_deliver_from_syscall`, for the signals that are found one after the other. -/
def deliverFromSyscall (cpu : Cpu) (t : τ) (num : Nat) :
    List Pending → Context → Nat → Proc τ → Option (Proc τ × Option (Context × Nat))
  | [], f, retval, p => some (p, some (f, retval))
  | d :: ds, f, retval, p =>
      if deliverable (p.thr t) d.sig then
        let sc := scFromSyscall f retval
        let sc := if restarts (p.actions d.sig) retval then rewound num sc else sc
        match deliverOne cpu p t d sc with
        | (p, none) => some (p, none)
        | (p, some sc) => deliverFromSyscall cpu t num ds (scToSyscall f sc) (sc .rax) p
      else none

/-- `signal_deliver_from_interrupt`, on the registers of the interrupt frame. -/
def deliverFromInterrupt (cpu : Cpu) (t : τ) :
    List Pending → Context → Proc τ → Option (Proc τ × Option Context)
  | [], regs, p => some (p, some regs)
  | d :: ds, regs, p =>
      if deliverable (p.thr t) d.sig then
        match deliverOne cpu p t d regs with
        | (p, none) => some (p, none)
        | (p, some sc) => deliverFromInterrupt cpu t ds sc p
      else none

def raiseFault (cpu : Cpu) (p : Proc τ) (t : τ) (d : Pending) (regs : Context) :
    Proc τ × Option Context :=
  if sigsetTest (p.thr t).blocked d.sig ∨ (p.actions d.sig).handler = sigIgn then
    (p.terminate, none)
  else deliverOne cpu p t d regs

/-- The system calls that concern signals, with what they read from user memory. -/
inductive Call where
  /-- none if the new action is not given -/
  | sigaction (sig : Nat) (act : Option KSigaction)
  | sigaltstack (ss : AltStack)
  /-- `rt_sigprocmask` and `rt_sigsuspend`, which set the mask -/
  | setMask (blocked saved : Sigset) (inSigsuspend : Bool)
  | other

def sysRtSigaction (p : Proc τ) (sig : Nat) (act : Option KSigaction) : Proc τ :=
  if sig = 0 ∨ sig ≥ nsig then p
  else
    match act with
    | none => p
    | some ka =>
        if sig = sigkill ∨ sig = sigstop then p
        else
          { p with actions := update p.actions sig { ka with mask := ka.mask &&& ~~~unblockable } }

def sysCall (p : Proc τ) (t : τ) : Call → Proc τ
  | .sigaction sig act => sysRtSigaction p sig act
  | .sigaltstack ss =>
      if ss.size < 2048 then p else p.setThr t { p.thr t with altstack := ss }
  | .setMask blocked saved inSigsuspend =>
      p.setThr t { p.thr t with
        blocked := blocked &&& ~~~unblockable
        savedBlocked := saved
        inSigsuspend := inSigsuspend }
  | .other => p

def maskHeader (cpu : Cpu) (im : FpImage) : FpImage :=
  if cpu.stateSize > 512 then
    { im with
      xstateBv := im.xstateBv &&& cpu.xcr0
      xcompBv := 0
      reserved := im.reserved.map fun _ => 0 }
  else im

structure SigreturnMemory where
  frameMapped : Bool
  frame : RtSigframe
  imageMapped : Bool
  image : FpImage
  /-- what other threads have written over the image after its header was masked -/
  overwritten : Option FpImage

def usesImage (cpu : Cpu) (u : SigreturnMemory) : Bool :=
  u.frame.fpstate != 0 && u.frame.fpstate % sigframeFpstateAlign == 0 &&
    userRangeWritable u.imageMapped u.frame.fpstate cpu.stateSize

def doSigreturn (cpu : Cpu) (p : Proc τ) (t : τ) (rsp : Nat) (u : SigreturnMemory) : Proc τ :=
  if !userRangeWritable u.frameMapped (sub64 rsp 8) rtSigframeSize then p.terminate
  else
    let p := p.setThr t { p.thr t with
      blocked := u.frame.sigmask &&& ~~~unblockable
      altstack := u.frame.stack }
    { p with exits := .iretq (u.frame.mcontext .rip) ::
        (if usesImage cpu u then
          .fpRestore (u.overwritten.getD (maskHeader cpu u.image)) :: p.exits
        else p.exits) }

inductive SigAct (τ : Type*) where
  | syscall (t : τ) (f : Context) (num : Nat) (call : Call) (retval : Nat) (found : List Pending)
  | interrupt (t : τ) (regs : Context) (fault : Option Pending) (found : List Pending)
  | sigreturn (t : τ) (rsp : Nat) (u : SigreturnMemory)

def sysret (f : Context) (p : Proc τ) : Proc τ := { p with exits := .sysret (f .rcx) :: p.exits }
def iretq (regs : Context) (p : Proc τ) : Proc τ :=
  { p with exits := .iretq (regs .rip) :: p.exits }

/-- `isr_handler_inner`: an exception raises its signal, an interrupt leaves the registers. -/
def isrHandlerInner (cpu : Cpu) (p : Proc τ) (t : τ) (regs : Context) :
    Option Pending → Proc τ × Option Context
  | none => (p, some regs)
  | some d => raiseFault cpu p t d regs

/-- `isr_handler` for an interrupt or exception in user mode. -/
def interrupt (cpu : Cpu) (p : Proc τ) (t : τ) (regs : Context) (fault : Option Pending)
    (found : List Pending) : Option (Proc τ) :=
  match isrHandlerInner cpu p t regs fault with
  | (p, none) => some p
  | (p, some regs) =>
      (deliverFromInterrupt cpu t found regs p).map fun r => r.2.elim r.1 fun regs => iretq regs r.1

def sigStep (cpu : Cpu) (p : Proc τ) (a : SigAct τ) : Option (Proc τ) :=
  if p.dead then none
  else
    match a with
    | .syscall t f num call retval found =>
        (deliverFromSyscall cpu t num found f retval (sysCall p t call)).map fun r =>
          r.2.elim r.1 fun x => sysret x.1 r.1
    | .interrupt t regs fault found => interrupt cpu p t regs fault found
    | .sigreturn t rsp u => some (doSigreturn cpu p t rsp u)

structure SigInit (p : Proc τ) : Prop where
  actions : ∀ sig, p.actions sig = ⟨sigDfl, 0, 0, 0⟩
  alive : p.dead = false
  exits : p.exits = []
  saved : p.saved = []

def sigSystem (τ : Type*) [DecidableEq τ] (cpu : Cpu) : System (Proc τ) (SigAct τ) where
  init := SigInit
  step := sigStep cpu

/-- An image that the restore instruction takes without a fault. -/
def Cpu.Accepts (cpu : Cpu) (im : FpImage) : Prop :=
  im.mxcsr &&& ~~~cpu.mxcsrMask = 0 ∧
    (cpu.stateSize > 512 →
      im.xstateBv &&& ~~~cpu.xcr0 = 0 ∧ im.xcompBv = 0 ∧ ∀ w ∈ im.reserved, w = 0)

def Exit.Good (cpu : Cpu) : Exit → Prop
  | .sysret rip => rip < userAddrLimit
  | .iretq rip => rip < userAddrLimit
  | .fpRestore im => cpu.Accepts im

instance (cpu : Cpu) (im : FpImage) : Decidable (cpu.Accepts im) :=
  inferInstanceAs (Decidable (_ ∧ (_ → _ ∧ _ ∧ ∀ w ∈ im.reserved, w = 0)))

instance (cpu : Cpu) : (x : Exit) → Decidable (x.Good cpu)
  | .sysret _ | .iretq _ => inferInstanceAs (Decidable (_ < _))
  | .fpRestore im => inferInstanceAs (Decidable (cpu.Accepts im))

/-- User code is in its half and not at the very end of it, handlers are set to addresses in it,
and the frame that a handler returns through has an instruction pointer in it and an image
without reserved bits in `MXCSR`, which no other thread changes meanwhile. -/
def Polite (cpu : Cpu) (_ : Proc τ) : SigAct τ → Prop
  | .syscall _ f _ call _ _ => (2 ≤ f .rcx ∧ f .rcx < userAddrLimit) ∧
      match call with
      | .sigaction _ (some ka) => ka.handler < userAddrLimit
      | _ => True
  | .interrupt _ regs _ _ => regs .rip < userAddrLimit
  | .sigreturn _ _ u => u.frame.mcontext .rip < userAddrLimit ∧
      (usesImage cpu u = true → u.overwritten = none ∧ u.image.mxcsr &&& ~~~cpu.mxcsrMask = 0)

structure Safe (cpu : Cpu) (p : Proc τ) : Prop where
  handlers : ∀ sig, (p.actions sig).handler < userAddrLimit
  exits : ∀ x ∈ p.exits, x.Good cpu
  saved : ∀ sc ∈ p.saved, sc .rip < userAddrLimit

section Safety

variable {cpu : Cpu} {p p' : Proc τ} {t : τ} {d : Pending} {sc sc' f regs : Context}
  {r : Proc τ × Option Context} {found : List Pending} {fault : Option Pending}

theorem Safe.setThr (h : Safe cpu p) (x : Thread) : Safe cpu (p.setThr t x) :=
  ⟨h.handlers, h.exits, h.saved⟩

omit [DecidableEq τ] in
theorem Safe.terminate (h : Safe cpu p) : Safe cpu p.terminate := ⟨h.handlers, h.exits, h.saved⟩

omit [DecidableEq τ] in
theorem Safe.exit {x : Exit} (h : Safe cpu p) (hx : x.Good cpu) :
    Safe cpu { p with exits := x :: p.exits } := by
  refine ⟨h.handlers, fun y hy => ?_, h.saved⟩
  rcases List.mem_cons.1 hy with rfl | hy
  · exact hx
  · exact h.exits y hy

theorem sigDfl_lt : sigDfl < userAddrLimit := by decide

theorem update_handler {actions : Nat → KSigaction} {ka : KSigaction}
    (h : ∀ sig, (actions sig).handler < userAddrLimit) (hka : ka.handler < userAddrLimit)
    (sig : Nat) : ∀ s, (update actions sig ka s).handler < userAddrLimit := by
  exact (forall_update_iff actions fun _ ka => ka.handler < userAddrLimit).2
    ⟨hka, fun s _ => h s⟩

theorem Safe.deliverOne (h : Safe cpu p) (hsc : sc .rip < userAddrLimit)
    (hr : SigReturn.deliverOne cpu p t d sc = r) :
    Safe cpu r.1 ∧ ∀ sc' ∈ r.2,
      sc' = sc ∧ ((p.actions d.sig).handler = sigDfl ∨ (p.actions d.sig).handler = sigIgn) ∨
        2 ≤ sc' .rip ∧ sc' .rip < userAddrLimit := by
  revert hr
  fun_cases SigReturn.deliverOne cpu p t d sc <;> rintro rfl
  all_goals try exact ⟨h.terminate, nofun⟩
  · next hign => exact ⟨h, fun sc' hsc' => .inl ⟨(some.inj hsc').symm, .inr hign⟩⟩
  · next hdfl _ => exact ⟨h, fun sc' hsc' => .inl ⟨(some.inj hsc').symm, .inl hdfl⟩⟩
  · next hdfl _ => exact ⟨h, fun sc' hsc' => .inl ⟨(some.inj hsc').symm, .inl hdfl⟩⟩
  · next hdfl _ => exact ⟨h, fun sc' hsc' => .inl ⟨(some.inj hsc').symm, .inl hdfl⟩⟩
  · next ka hign hdfl _ sp hsp p₁ =>
      refine ⟨⟨?_, h.exits, fun x hx => ?_⟩, fun sc' hsc' => .inr ?_⟩
      · dsimp only
        split
        · exact update_handler h.handlers sigDfl_lt _
        · exact h.handlers
      · rcases List.mem_cons.1 hx with rfl | hx
        · exact hsc
        · exact h.saved x hx
      · cases hsc'
        refine ⟨?_, h.handlers d.sig⟩
        change 2 ≤ ka.handler
        unfold sigIgn at hign
        unfold sigDfl at hdfl
        omega

theorem restart_rip {ka : KSigaction} {num retval : Nat}
    (hf : 2 ≤ f .rcx ∧ f .rcx < userAddrLimit) :
    (if restarts ka retval then rewound num (scFromSyscall f retval)
      else scFromSyscall f retval) .rip < userAddrLimit := by
  split
  · change sub64 (f .rcx) 2 < _
    rw [sub64, if_pos hf.1]
    exact (Nat.sub_le ..).trans_lt hf.2
  · exact hf.2

theorem Safe.deliverFromSyscall {num retval : Nat} {r : Proc τ × Option (Context × Nat)}
    (h : Safe cpu p) (hf : 2 ≤ f .rcx ∧ f .rcx < userAddrLimit)
    (hs : SigReturn.deliverFromSyscall cpu t num found f retval p = some r) :
    Safe cpu r.1 ∧ ∀ x ∈ r.2, x.1 .rcx < userAddrLimit := by
  revert hs
  fun_induction SigReturn.deliverFromSyscall cpu t num found f retval p with
  | case1 f retval p =>
      rintro ⟨⟩
      exact ⟨h, fun x hx => some.inj hx ▸ hf.2⟩
  | case2 d ds f retval p hd sc₀ sc p₁ heq =>
      rintro ⟨⟩
      exact ⟨(h.deliverOne (restart_rip hf) heq).1, nofun⟩
  | case3 d ds f retval p hd sc₀ sc p₁ sc₁ heq ih =>
      obtain ⟨hsafe, hctx⟩ := h.deliverOne (restart_rip hf) heq
      refine ih hsafe ?_
      rcases hctx sc₁ rfl with ⟨hsame, hkept⟩ | hhandler
      · -- a signal that is not caught does not restart the call
        have hrest : restarts (p.actions d.sig) retval ≠ true := by
          unfold restarts
          rcases hkept with hkept | hkept <;> simp [hkept]
        have hsc : sc₁ = sc₀ := hsame.trans (if_neg hrest)
        rw [hsc]
        exact hf
      · exact hhandler
  | case4 => nofun

theorem Safe.deliverFromInterrupt (h : Safe cpu p) (hregs : regs .rip < userAddrLimit)
    (hs : SigReturn.deliverFromInterrupt cpu t found regs p = some r) :
    Safe cpu r.1 ∧ ∀ x ∈ r.2, x .rip < userAddrLimit := by
  revert hs
  fun_induction SigReturn.deliverFromInterrupt cpu t found regs p with
  | case1 regs p =>
      rintro ⟨⟩
      exact ⟨h, fun x hx => some.inj hx ▸ hregs⟩
  | case2 d ds regs p hd p₁ heq =>
      rintro ⟨⟩
      exact ⟨(h.deliverOne hregs heq).1, nofun⟩
  | case3 d ds regs p hd p₁ sc heq ih =>
      obtain ⟨hsafe, hctx⟩ := h.deliverOne hregs heq
      refine ih hsafe ?_
      rcases hctx sc rfl with ⟨rfl, -⟩ | hhandler
      · exact hregs
      · exact hhandler.2
  | case4 => nofun

theorem Safe.raiseFault (h : Safe cpu p) (hregs : regs .rip < userAddrLimit)
    (hr : SigReturn.raiseFault cpu p t d regs = r) :
    Safe cpu r.1 ∧ ∀ x ∈ r.2, x .rip < userAddrLimit := by
  unfold SigReturn.raiseFault at hr
  split at hr
  · cases hr
    exact ⟨h.terminate, nofun⟩
  · obtain ⟨hsafe, hctx⟩ := h.deliverOne hregs hr
    refine ⟨hsafe, fun x hx => ?_⟩
    rcases hctx x hx with ⟨rfl, -⟩ | hhandler
    · exact hregs
    · exact hhandler.2

theorem Safe.sysCall {call : Call} (h : Safe cpu p)
    (hcall : match call with
      | .sigaction _ (some ka) => ka.handler < userAddrLimit
      | _ => True) : Safe cpu (SigReturn.sysCall p t call) := by
  cases call with
  | sigaction sig act =>
      change Safe cpu (sysRtSigaction p sig act)
      fun_cases sysRtSigaction p sig act <;> try exact h
      next ka _ =>
        have hka : { ka with mask := ka.mask &&& ~~~unblockable }.handler < userAddrLimit := hcall
        exact ⟨update_handler h.handlers hka _, h.exits, h.saved⟩
  | sigaltstack ss =>
      change Safe cpu (if ss.size < 2048 then p else p.setThr t { p.thr t with altstack := ss })
      split
      · exact h
      · exact h.setThr _
  | setMask blocked saved inSigsuspend => exact h.setThr _
  | other => exact h

/-- The header of an image is masked to what the processor takes; `MXCSR` is left as it is. -/
theorem accepts_maskHeader {im : FpImage} (h : im.mxcsr &&& ~~~cpu.mxcsrMask = 0) :
    cpu.Accepts (maskHeader cpu im) := by
  unfold maskHeader
  split
  · refine ⟨h, fun _ => ⟨?_, rfl, fun w hw => ?_⟩⟩
    · change (im.xstateBv &&& cpu.xcr0) &&& ~~~cpu.xcr0 = 0
      rw [BitVec.and_assoc, BitVec.and_not_self]
      exact BitVec.and_zero
    · obtain ⟨_, -, rfl⟩ := List.mem_map.1 hw
      rfl
  · next hsize => exact ⟨h, fun hlt => absurd hlt hsize⟩

theorem Safe.doSigreturn {rsp : Nat} {u : SigreturnMemory} (h : Safe cpu p)
    (hrip : u.frame.mcontext .rip < userAddrLimit)
    (himage : usesImage cpu u = true →
      u.overwritten = none ∧ u.image.mxcsr &&& ~~~cpu.mxcsrMask = 0) :
    Safe cpu (SigReturn.doSigreturn cpu p t rsp u) := by
  unfold SigReturn.doSigreturn
  split
  · exact h.terminate
  dsimp only
  split
  · next huse =>
      obtain ⟨hover, hmxcsr⟩ := himage huse
      rw [hover]
      exact ((h.setThr _).exit (x := .fpRestore _) (accepts_maskHeader hmxcsr)).exit
        (x := .iretq _) hrip
  · exact (h.setThr _).exit (x := .iretq _) hrip

theorem Safe.isrHandlerInner (h : Safe cpu p) (hregs : regs .rip < userAddrLimit)
    (hr : SigReturn.isrHandlerInner cpu p t regs fault = r) :
    Safe cpu r.1 ∧ ∀ x ∈ r.2, x .rip < userAddrLimit := by
  cases fault with
  | none =>
      subst hr
      exact ⟨h, fun x hx => some.inj hx ▸ hregs⟩
  | some d => exact h.raiseFault hregs hr

theorem Safe.interrupt (h : Safe cpu p) (hregs : regs .rip < userAddrLimit)
    (hs : SigReturn.interrupt cpu p t regs fault found = some p') : Safe cpu p' := by
  revert hs
  fun_cases SigReturn.interrupt cpu p t regs fault found <;> intro hs
  · next heq =>
      cases hs
      exact (h.isrHandlerInner hregs heq).1
  · next regs₁ heq =>
      obtain ⟨hsafe, hregs₁⟩ := h.isrHandlerInner hregs heq
      obtain ⟨r, hr, rfl⟩ := map_eq_some_iff.1 hs
      obtain ⟨hsafe', hrip⟩ := hsafe.deliverFromInterrupt (hregs₁ regs₁ rfl) hr
      cases hx : r.2 with
      | none => exact hsafe'
      | some x => exact hsafe'.exit (x := .iretq _) (hrip x hx)

theorem sigStep_safe {a : SigAct τ} (h : Safe cpu p) (hok : Polite cpu p a)
    (hs : sigStep cpu p a = some p') : Safe cpu p' := by
  revert hs
  fun_cases sigStep cpu p a <;> intro hs
  · cases hs
  · obtain ⟨r, hr, rfl⟩ := map_eq_some_iff.1 hs
    obtain ⟨hsafe, hrcx⟩ := (h.sysCall hok.2).deliverFromSyscall hok.1 hr
    cases hx : r.2 with
    | none => exact hsafe
    | some x => exact hsafe.exit (x := .sysret _) (hrcx x hx)
  · exact h.interrupt hok hs
  · rw [← some.inj hs]
    exact h.doSigreturn hok.1 hok.2

end Safety

/-- In every run of such steps, every instruction pointer that `sysret` or `iretq` got is one of
the user half, every image that was restored had a header and an `MXCSR` that the processor
takes, and every context in a signal frame has its instruction pointer in the user half. -/
theorem exits_stay_in_user_half {cpu : Cpu} {p : Proc τ}
    (hr : (sigSystem τ cpu).Reach (Polite cpu) p) :
    (∀ x ∈ p.exits, x.Good cpu) ∧ ∀ sc ∈ p.saved, sc .rip < userAddrLimit := by
  have hsafe : Safe cpu p := hr.invariant (Safe cpu)
    (fun p h => ⟨fun sig => by rw [h.actions]; exact sigDfl_lt, by rw [h.exits]; nofun,
      by rw [h.saved]; nofun⟩)
    fun p a p' h hok hs => sigStep_safe h hok hs
  exact ⟨hsafe.exits, hsafe.saved⟩

def haswell : Cpu := ⟨832, 7, 0xffff⟩

def startProc : Proc Unit :=
  ⟨fun _ => ⟨sigDfl, 0, 0, 0⟩, fun _ => ⟨0, 0, false, ⟨0, 0⟩⟩, false, [], []⟩

theorem startProc_init : SigInit startProc := ⟨fun _ => rfl, rfl, rfl, rfl⟩

def userAt (rip : Nat) : Context := fun
  | .rcx => rip
  | .rip => rip
  | .rsp => 0x700000000000
  | _ => 0

def returnTo (rip : Nat) (mxcsr : BitVec 32) (xstateBv : BitVec 64) : SigreturnMemory where
  frameMapped := true
  frame := ⟨userAt rip, 0x6ffffffffc80, 0, ⟨0, 0⟩⟩
  imageMapped := true
  image := ⟨mxcsr, xstateBv, 1, [1, 0, 0, 0, 0, 0]⟩
  overwritten := none

/-- A handler for SIGUSR1 is set, the signal comes, and the handler returns; the header of the
image names features that the processor does not have. -/
def handleAndReturn (handler rip : Nat) (mxcsr : BitVec 32) : List (SigAct Unit) :=
  [.syscall () (userAt 0x400002) 13 (.sigaction 10 (some ⟨handler, saRestorer, 0x401000, 0⟩)) 0 [],
   .syscall () (userAt 0x400004) 39 .other 0 [⟨10, true⟩],
   .sigreturn () 0x6ffffffff000 (returnTo rip mxcsr 0xffff)]

instance (cpu : Cpu) (p : Proc τ) : (a : SigAct τ) → Decidable (Polite cpu p a)
  | .syscall _ _ _ (.sigaction _ (some _)) _ _ => inferInstanceAs (Decidable ((_ ∧ _) ∧ _ < _))
  | .syscall _ _ _ (.sigaction _ none) _ _ | .syscall _ _ _ (.sigaltstack _) _ _
  | .syscall _ _ _ (.setMask _ _ _) _ _ | .syscall _ _ _ .other _ _ =>
      inferInstanceAs (Decidable ((_ ∧ _) ∧ True))
  | .interrupt .. => inferInstanceAs (Decidable (_ < _))
  | .sigreturn .. => inferInstanceAs (Decidable (_ ∧ (_ → _ ∧ _)))

theorem exits_stay_in_user_half_handled :
    ∃ p : Proc Unit, (sigSystem Unit haswell).Reach (Polite haswell) p ∧
      p.exits = [.iretq 0x400004, .fpRestore ⟨0x1f80, 7, 0, [0, 0, 0, 0, 0, 0]⟩, .sysret 0x401100,
        .sysret 0x400002] ∧
      (∀ x ∈ p.exits, x.Good haswell) ∧ ∀ sc ∈ p.saved, sc .rip < userAddrLimit :=
  System.Reach.exists_of_run_and (handleAndReturn 0x401100 0x400004 0x1f80) startProc_init
    (by decide +kernel) fun _ hr _ => exits_stay_in_user_half hr

/-- A handler and a saved context at addresses that are not canonical, and an image with a
reserved bit in `MXCSR`: each gets to the instruction that faults on it. -/
theorem exits_get_user_values :
    (∃ p : Proc Unit, (sigSystem Unit haswell).Reach (fun _ _ => True) p ∧
      .sysret 0x800000000000 ∈ p.exits) ∧
    (∃ p : Proc Unit, (sigSystem Unit haswell).Reach (fun _ _ => True) p ∧
      .iretq 0x800000000000 ∈ p.exits) ∧
    ∃ p : Proc Unit, (sigSystem Unit haswell).Reach (fun _ _ => True) p ∧
      .fpRestore ⟨0x10000, 7, 0, [0, 0, 0, 0, 0, 0]⟩ ∈ p.exits ∧
      ¬haswell.Accepts ⟨0x10000, 7, 0, [0, 0, 0, 0, 0, 0]⟩ := by
  refine ⟨?_, ?_, ?_⟩
  · exact System.Reach.exists_of_run (handleAndReturn 0x800000000000 0x400004 0x1f80)
      startProc_init (by decide +kernel)
  · exact System.Reach.exists_of_run (handleAndReturn 0x401100 0x800000000000 0x1f80)
      startProc_init (by decide +kernel)
  · exact System.Reach.exists_of_run (handleAndReturn 0x401100 0x400004 0x10000)
      startProc_init (by decide +kernel)

end NeoKernel.SigReturn
