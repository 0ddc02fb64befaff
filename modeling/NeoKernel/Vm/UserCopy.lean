import NeoKernel.Vm.Isolation
import NeoKernel.Vm.Uaccess

/-!
# A user buffer and the kernel's half

Nothing compares a user pointer with `USER_ADDR_LIMIT`: a copy stops only at a page fault
that is not handled. It stays below the limit exactly when the buffer does or a page fault on the
way is not handled (`Stays`), as at an address that no mapping covers (`Fenced`).
-/
namespace NeoKernel.Vm
open Lib Function Machine List Option AList

/-- The mapping allows a page to be added for an access. -/
def Vma.Admits (write : Bool) (v : Vma) : Prop :=
  v.prot ≠ protNone ∧ v.phys = false ∧ (write = true → v.prot.writable = true)

/-- A step of the handler of a page fault of `p`. A page read from a file is installed where
the fault has found a mapping that allows it, with the protection of that mapping. -/
def FaultAct (p : Pid) (write : Bool) (m : Machine) : VmAct → Prop
  | .fault q _ w .. => q = p ∧ w = write
  | .install k .. => ∀ x ∈ m.ios[k]?, x.1 = p ∧ ∀ P ∈ m.proc p, ∀ v ∈ vmaFind P.vmas x.2.page,
      v.Admits write ∧ x.2.prot = v.prot
  | .ioFail _ => True
  | .release _ => True
  | _ => False

variable {device : Frame → Bool} {m m' : Machine} {p : Pid} {P : Process} {va : Nat} {write : Bool}

section Faults

variable {addr : Nat} {x : FaultAnswer} {b : Bool} {Inv : Machine → Prop} {alloc : Option Frame}

theorem FaultAct.roomy {a : VmAct} (h : FaultAct p write m a) : Roomy m a := by
  cases a <;> trivial

theorem Machine.releaseAll_invariant {fs : List Frame}
    (hstep : ∀ m a m', Inv m → FaultAct p write m a → vmStep device m a = some m' → Inv m')
    (h : Inv m) (hs : releaseAll device fs m = some m') :
    Inv m' ∧ m'.procs = m.procs ∧ m'.ios = m.ios := by
  induction fs generalizing m with
  | nil =>
      cases hs
      exact ⟨h, rfl, rfl⟩
  | cons f fs ih =>
      obtain ⟨m₁, hm₁, hs⟩ := bind_eq_some_iff.1 hs
      obtain ⟨hinv, hprocs, hios⟩ := ih (hstep m (.release f) m₁ h trivial hm₁) hs
      simp only [vmStep] at hm₁
      split at hm₁
      · cases hm₁
        refine ⟨hinv, hprocs.trans (pmmFree_procs _), hios.trans ?_⟩
        unfold pmmFree
        split <;> rfl
      · cases hm₁

theorem vmaFaultLocked_found {tables : Bool}
    (h : vmaFaultLocked P addr write alloc tables ≠ .sigsegv) :
    ∃ v, vmaFind P.vmas addr = some v ∧ v.Admits write ∧
      ∀ io, vmaFaultLocked P addr write alloc tables = .needsIo io →
        io.page = pageDown addr ∧ io.prot = v.prot := by
  unfold vmaFaultLocked at h ⊢
  split at h
  · exact absurd rfl h
  next v hfind =>
  split at h
  · exact absurd rfl h
  next hprot =>
  split at h
  · exact absurd rfl h
  next hw =>
  split at h
  · exact absurd rfl h
  next hphys =>
  refine ⟨v, hfind, ⟨hprot, Bool.eq_false_of_not_eq_true hphys, fun hwrite => ?_⟩, fun io hio => ?_⟩
  · simpa [hwrite] using hw
  · simp only [if_neg hprot, if_neg hw, if_neg hphys] at hio
    split at hio
    · split at hio
      · cases hio
      · cases hio
        exact ⟨rfl, rfl⟩
    · split at hio
      · cases hio
      · split at hio <;> cases hio

theorem vmaFind_pageDown {v : Vma} (h : P.Ok False) (hfind : vmaFind P.vmas addr = some v) :
    vmaFind P.vmas (pageDown addr) = some v := by
  obtain ⟨hv, hlo, hhi⟩ := vmaFind_mem hfind
  obtain ⟨k, hk⟩ := (h.space.laid.ok v hv).start
  refine vmaFind_of_mem h.space.laid hv ?_ ((Nat.div_mul_le_self ..).trans_lt hhi)
  rw [hk] at hlo ⊢
  rw [Nat.mul_comm]
  exact Nat.mul_le_mul_right _ ((Nat.le_div_iff_mul_le (by decide)).2 (Nat.mul_comm _ k ▸ hlo))

theorem Machine.fault_locked {tables : Bool}
    (hs : m.fault device p P addr write alloc tables = some m') :
    (vmaFaultLocked P addr write alloc tables = .nomem → m' = m) ∧
      ∀ io, vmaFaultLocked P addr write alloc tables = .needsIo io →
        m' = { m with ios := m.ios ++ [(p, io)] } := by
  unfold fault at hs
  split at hs
  · cases hs
  split at hs
  · cases hs
  refine ⟨fun hres => ?_, fun io hres => ?_⟩ <;>
  · rw [hres] at hs
    exact (some.inj hs).symm

theorem Machine.ioFrame_invariant {r : Machine × Option Frame}
    (hstep : ∀ m a m', Inv m → FaultAct p write m a → vmStep device m a = some m' → Inv m')
    (h : Inv m) (hs : m.ioFrame device x = some r) :
    Inv r.1 ∧ r.1.procs = m.procs ∧ r.1.ios = m.ios := by
  unfold ioFrame at hs
  split at hs
  · obtain ⟨m₁, hm₁, rfl⟩ := map_eq_some_iff.1 hs
    exact releaseAll_invariant hstep h hm₁
  · cases hs
    exact ⟨h, rfl, rfl⟩

theorem Machine.vmaFault_invariant (Inv : Machine → Prop) (hok : P.Ok False)
    (hP : m.proc p = some P)
    (hstep : ∀ m a m', Inv m → FaultAct p write m a → vmStep device m a = some m' → Inv m')
    (h : Inv m) (hs : m.vmaFault device p P addr write x = some (m', b)) : Inv m' := by
  have hfault : ∀ {n n' : Machine} {alloc : Option Frame} {tables : Bool}, Inv n →
      n.proc p = some P → n.fault device p P addr write alloc tables = some n' → Inv n' :=
    fun {n n' alloc tables} hn hPn hf =>
      hstep n (.fault p addr write alloc tables) n' hn ⟨rfl, rfl⟩
        (bind_eq_some_iff.2 ⟨P, hPn, hf⟩)
  unfold vmaFault at hs
  obtain ⟨m₁, hm₁, hs⟩ := bind_eq_some_iff.1 hs
  have h₁ := hfault h hP hm₁
  split at hs
  · cases hs
    exact h₁
  · cases hs
    exact h₁
  · next hnomem =>
      split at hs
      · cases hs
        exact h₁
      · obtain ⟨m₂, hm₂, hs⟩ := bind_eq_some_iff.1 hs
        obtain ⟨m₃, hm₃, hs⟩ := map_eq_some_iff.1 hs
        cases hs
        obtain ⟨h₂, hprocs, -⟩ := releaseAll_invariant hstep h₁ hm₂
        refine hfault h₂ ?_ hm₃
        unfold proc
        rw [hprocs, (fault_locked hm₁).1 hnomem]
        exact hP
  · next io hio =>
      obtain ⟨r, hr, hs⟩ := bind_eq_some_iff.1 hs
      obtain ⟨h₂, hprocs, hios⟩ := ioFrame_invariant hstep h₁ hr
      rw [(fault_locked hm₁).2 io hio] at hprocs hios
      have hP' : r.1.proc p = some P := (congrArg (AList.lookup p) hprocs).trans hP
      have hlast : r.1.ios[m.ios.length]? = some (p, io) := by
        rw [hios]
        exact getElem?_concat_length
      split at hs
      · next f content _ _ =>
          obtain ⟨m₃, hm₃, hs⟩ := map_eq_some_iff.1 hs
          cases hs
          refine hstep r.1 (.install m.ios.length f content x.tables) m' h₂ (fun y hy => ?_)
            (bind_eq_some_iff.2 ⟨_, hlast, bind_eq_some_iff.2 ⟨P, hP', hm₃⟩⟩)
          cases hlast.symm.trans hy
          refine ⟨rfl, fun Q hQ w hw => ?_⟩
          cases hP'.symm.trans hQ
          -- the mapping at the page is the one at the address of the fault
          obtain ⟨v, hfind, hadm, hpage⟩ := vmaFaultLocked_found (hio.trans_ne (by simp))
          rw [(hpage io hio).1] at hw
          cases (vmaFind_pageDown hok hfind).symm.trans hw
          exact ⟨hadm, (hpage io hio).2⟩
      · cases hs
        exact hstep r.1 (.ioFail m.ios.length) _ h₂ trivial rfl

def Added (write : Bool) (P : Process) (s : Nat) (e : Pte) : Prop :=
  e.user = true ∧ ∃ v ∈ P.vmas, v.Covers s ∧ v.Admits write ∧ e.writable = v.prot.writable

/-- The mappings stay, the pages stay with what is in them, others are added, and the other
processes are not concerned. -/
structure Populates (p : Pid) (write : Bool) (m m' : Machine) : Prop where
  others : ∀ q, q ≠ p → m'.proc q = m.proc q ∧ m'.last q = m.last q
  self : ∀ P, m.proc p = some P → ∃ P', m'.proc p = some P' ∧ P'.vmas = P.vmas ∧
    (∀ s e, P.pt.lookup s = some e →
      P'.pt.lookup s = some e ∧ ∀ a, a / pageSize = s → m'.last p a = m.last p a) ∧
    ∀ s e, P'.pt.lookup s = some e → P.pt.lookup s = some e ∨ Added write P s e

theorem Populates.same (hprocs : m'.procs = m.procs) (hlast : m'.last = m.last) :
    Populates p write m m' := by
  have hproc : ∀ q, m'.proc q = m.proc q := fun q => congrArg (AList.lookup q) hprocs
  exact ⟨fun q _ => ⟨hproc q, congrFun hlast q⟩, fun P hP => ⟨P, (hproc p).trans hP, rfl,
    fun s e he => ⟨he, fun a _ => by rw [hlast]⟩, fun s e he => .inl he⟩⟩

theorem Populates.refl (p : Pid) (write : Bool) (m : Machine) : Populates p write m m :=
  .same rfl rfl

theorem Populates.trans {m₁ m₂ m₃ : Machine} (h : Populates p write m₁ m₂)
    (h' : Populates p write m₂ m₃) : Populates p write m₁ m₃ := by
  refine ⟨fun q hq => ?_, fun P hP => ?_⟩
  · exact ⟨(h'.others q hq).1.trans (h.others q hq).1, (h'.others q hq).2.trans (h.others q hq).2⟩
  · obtain ⟨P₂, hP₂, hvmas₂, hkeep₂, hnew₂⟩ := h.self P hP
    obtain ⟨P₃, hP₃, hvmas₃, hkeep₃, hnew₃⟩ := h'.self P₂ hP₂
    refine ⟨P₃, hP₃, hvmas₃.trans hvmas₂, fun s e he => ?_, fun s e he => ?_⟩
    · obtain ⟨he₂, hlast₂⟩ := hkeep₂ s e he
      obtain ⟨he₃, hlast₃⟩ := hkeep₃ s e he₂
      exact ⟨he₃, fun a ha => (hlast₃ a ha).trans (hlast₂ a ha)⟩
    · rcases hnew₃ s e he with he | hadd
      · exact hnew₂ s e he
      · exact .inr (by unfold Added at *; rwa [← hvmas₂])

theorem Populates.mapped {g : Frame} {prot : Prot} {v : Vma} (content : Nat → Byte)
    (hP : m.proc p = some P) (hlt : addr < userAddrLimit) (hok : P.Ok False)
    (hfind : vmaFind P.vmas addr = some v) (hadm : v.Admits write) (hprot : prot = v.prot)
    (hnone : P.pt.lookup (pageOf addr) = none)
    (hm : m'.procs = m.procs.insert p { P with pt := P.pt.insert (pageOf addr) (userPage g prot) })
    (hlast : m'.last = update m.last p fun a =>
      if a / pageSize = addr / pageSize then content (a % pageSize) else m.last p a) :
    Populates p write m m' := by
  refine ⟨fun q hq => ⟨?_, by rw [hlast, update_of_ne hq]⟩, fun Q hQ => ?_⟩
  · exact (congrArg (AList.lookup q) hm).trans (lookup_insert_ne hq)
  · cases hP.symm.trans hQ
    refine ⟨_, (congrArg (AList.lookup p) hm).trans (lookup_insert ..), rfl,
      fun s d hd => ?_, fun s d hd => ?_⟩
    · have hs : s ≠ pageOf addr := by
        rintro rfl
        cases hnone.symm.trans hd
      refine ⟨(lookup_insert_ne hs).trans hd, fun a ha => ?_⟩
      rw [hlast, update_self, if_neg]
      rw [ha, ← pageOf_of_lt hlt]
      exact hs
    · by_cases hs : s = pageOf addr
      · rw [hs, lookup_insert] at hd
        cases hd
        obtain ⟨hv, hlo, hhi⟩ := vmaFind_mem hfind
        have hcov := (hok.space.laid.ok v hv).covers hlo hhi
        exact .inr ⟨rfl, v, hv, hs ▸ hcov, hadm, congrArg Prot.writable hprot⟩
      · exact .inl ((lookup_insert_ne hs).symm.trans hd)

theorem FaultAct.populates {a : VmAct} (h : m.Ok False) (ha : FaultAct p write m a)
    (hs : vmStep device m a = some m') : Populates p write m m' := by
  cases a with
  | fault q addr w alloc tables =>
      obtain ⟨rfl, rfl⟩ := ha
      obtain ⟨P, hP, hs⟩ := bind_eq_some_iff.1 hs
      obtain rfl | ⟨io, -, rfl⟩ | ⟨v, g, -, hfind, hprot, -, hlt, habs, ⟨pt, hhandled⟩, rfl⟩ :=
        fault_cases hs
      · exact .refl ..
      · exact .same rfl rfl
      · obtain ⟨v', hfind', hadm, -⟩ := vmaFaultLocked_found (hhandled.trans_ne (by simp))
        cases hfind.symm.trans hfind'
        have hnone := (h q P hP).lookup_none hfind hprot habs
        rw [filled_of_none hnone]
        exact .mapped (fun _ => 0) hP hlt (h q P hP) hfind hadm rfl hnone rfl rfl
  | install k f content tables =>
      obtain ⟨x, hx, hs⟩ := bind_eq_some_iff.1 hs
      obtain ⟨P, hP, hs⟩ := bind_eq_some_iff.1 hs
      obtain ⟨rfl, hmap⟩ := ha x hx
      obtain rfl | ⟨v, -, hfind, -, habs, rfl⟩ := install_cases hs
      · exact .same rfl rfl
      · obtain ⟨hadm, hprot⟩ := hmap P hP v hfind
        have hok := h x.1 P hP
        have hnone := hok.lookup_none hfind hadm.1 habs
        obtain ⟨hv, -, hhi⟩ := vmaFind_mem hfind
        have hlt : x.2.page < userAddrLimit := hhi.trans_le (hok.space.laid.ok v hv).limit
        rw [filled_of_none hnone]
        exact .mapped content hP hlt hok hfind hadm hprot hnone rfl rfl
  | ioFail k =>
      cases hs
      exact .same rfl rfl
  | release f =>
      simp only [vmStep] at hs
      split at hs
      · cases hs
        exact .same (pmmFree_procs _) (pmmFree_last _)
      · cases hs
  | _ => exact ha.elim

theorem Machine.vmaFault_populates (h : m.Ok False) (hP : m.proc p = some P)
    (hs : m.vmaFault device p P addr write x = some (m', b)) :
    m'.Ok False ∧ Populates p write m m' :=
  vmaFault_invariant (fun n => n.Ok False ∧ Populates p write m n) (h p P hP) hP
    (fun _ _ _ hn ha hstep =>
      ⟨vmStep_ok hn.1 ha.roomy False.elim hstep, hn.2.trans (ha.populates hn.1 hstep)⟩)
    ⟨h, .refl ..⟩ hs

end Faults

def Hole (m : Machine) (p : Pid) (a : Nat) : Prop :=
  m.Ok False ∧ a < userAddrLimit ∧ ∀ P ∈ m.proc p, vmaFind P.vmas a = none

section Copies

variable {stop : Nat} {s : Ring0} {c : Copied} {xs : List FaultAnswer}
  {r : Machine × Option Pte × List FaultAnswer}

theorem Hole.congr (h : Hole m p stop) (hprocs : m'.procs = m.procs) : Hole m' p stop :=
  ⟨h.1.congr hprocs, h.2.1, fun P hP => h.2.2 P ((congrArg (AList.lookup p) hprocs).symm.trans hP)⟩

theorem Hole.entry_none (h : Hole m p stop) (hP : m.proc p = some P) :
    entry P stop = none := by
  cases he : entry P stop with
  | none => rfl
  | some e =>
      obtain ⟨v, hfind, -⟩ := (h.1 p P hP).entry_covered he
      cases (h.2.2 P hP).symm.trans hfind

theorem Hole.vmaFault {x : FaultAnswer} {b : Bool} (h : Hole m p stop) (hP : m.proc p = some P)
    (hs : m.vmaFault device p P va write x = some (m', b)) : Hole m' p stop := by
  obtain ⟨hok, hpop⟩ := vmaFault_populates h.1 hP hs
  obtain ⟨P', hP', hvmas, -⟩ := hpop.self P hP
  refine ⟨hok, h.2.1, fun Q hQ => ?_⟩
  cases hP'.symm.trans hQ
  rw [hvmas]
  exact h.2.2 P hP

/-- What every page fault keeps holds when the faults at an address end, with the page there or
without it. -/
theorem Machine.demand_invariant (Inv : Machine → Prop)
    (hfault : ∀ m P x m' b, Inv m → m.proc p = some P →
      m.vmaFault device p P va write x = some (m', b) → Inv m')
    (h : Inv m) (hs : m.demand device p va write xs = some r) :
    Inv r.1 ∧ ∀ e, r.2.1 = some e →
      ∃ P, r.1.proc p = some P ∧ entry P va = some e ∧ e.present = true := by
  have hfound {n : Machine} {P : Process} {d : Pte} (hP : n.proc p = some P)
      (hd : (entry P va).filter (·.present) = some d) :
      ∃ P, n.proc p = some P ∧ entry P va = some d ∧ d.present = true :=
    ⟨P, hP, filter_eq_some_iff.1 hd⟩
  induction xs generalizing m with
  | nil =>
      unfold demand at hs
      obtain ⟨P, hP, hs⟩ := bind_eq_some_iff.1 hs
      split at hs
      · next e he =>
          cases hs
          exact ⟨h, fun d hd => hfound hP (he.trans hd)⟩
      · cases hs
  | cons x xs ih =>
      unfold demand at hs
      obtain ⟨P, hP, hs⟩ := bind_eq_some_iff.1 hs
      split at hs
      · next e he =>
          cases hs
          exact ⟨h, fun d hd => hfound hP (he.trans hd)⟩
      · obtain ⟨⟨m₁, b⟩, hm₁, hs⟩ := bind_eq_some_iff.1 hs
        have h₁ := hfault m P x m₁ b h hP hm₁
        split at hs
        · exact ih h₁ hs
        · cases hs
          exact ⟨h₁, nofun⟩

theorem Hole.demand (h : Hole m p stop) (hs : m.demand device p va write xs = some r) :
    Hole r.1 p stop ∧ (va = stop → r.2.1 = none) := by
  obtain ⟨hole, hentry⟩ :=
    demand_invariant (Hole · p stop) (fun _ _ _ _ _ h hP hs => h.vmaFault hP hs) h hs
  refine ⟨hole, fun heq => eq_none_iff_forall_ne_some.2 fun e hr => ?_⟩
  obtain ⟨P, hP, he, -⟩ := hentry e hr
  rw [heq, hole.entry_none hP] at he
  cases he

theorem Ring0.access_below {x : Option Byte} {r : Ring0 × Except Trap Byte}
    (hva : va < userAddrLimit) (hs : s.access device p va x = some r) :
    r.1.kernel = s.kernel ∧ (∀ a ∈ r.1.touched, a ∈ s.touched ∨ a = va) ∧
      (∀ t, r.2 = .error t → t = .fixup ∧ r.1.touched = s.touched) ∧
      ∀ stop, Hole s.m p stop → Hole r.1.m p stop ∧ (va = stop → ∀ b, r.2 ≠ .ok b) := by
  unfold Ring0.access at hs
  rw [if_pos hva] at hs
  obtain ⟨⟨m₁, e, xs⟩, hd, rfl⟩ := map_eq_some_iff.1 hs
  cases e with
  | none =>
      refine ⟨rfl, fun a ha => .inl ha, fun t ht => ⟨?_, rfl⟩, fun stop hole => ?_⟩
      · cases ht
        rfl
      · exact ⟨(hole.demand hd).1, fun _ b hb => nomatch hb⟩
  | some e =>
      dsimp only
      refine ⟨rfl, fun a ha => (mem_cons.1 ha).symm, fun t ht => (nomatch ht),
        fun stop hole => ⟨?_, fun heq => ?_⟩⟩
      · refine (hole.demand hd).1.congr ?_
        cases x <;> rfl
      · cases (hole.demand hd).2 heq

structure Copied.Below (s : Ring0) (p : Pid) (va n stop : Nat) (c : Copied) : Prop where
  kernel : c.s.kernel = s.kernel
  touched : ∀ a ∈ c.s.touched, a ∈ s.touched ∨ a < stop
  halted : c.halted = false
  moved : va + c.bytes.length ≤ stop
  count : c.bytes.length + c.missed = n
  hole : Hole s.m p stop → Hole c.s.m p stop

theorem userCopy_below {xs : List (Option Byte)} (hstop : stop ≤ userAddrLimit) (hva : va ≤ stop)
    (hfence : va + xs.length ≤ stop ∨ Hole s.m p stop) (hs : userCopy device p va xs s = some c) :
    c.Below s p va xs.length stop := by
  induction xs generalizing va s c with
  | nil =>
      cases hs
      exact ⟨rfl, fun a ha => .inl ha, rfl, hva, rfl, id⟩
  | cons x xs ih =>
      obtain ⟨⟨s₁, res⟩, hs₁, hs⟩ := bind_eq_some_iff.1 hs
      rw [length_cons] at hfence
      have hlt : va < userAddrLimit := by
        rcases hfence with h | h
        · omega
        · exact hva.trans_lt h.2.1
      have hu : u64 va = va := Nat.mod_eq_of_lt (hlt.trans (by decide))
      rw [hu] at hs₁
      obtain ⟨hkernel, htouched, herror, hhole⟩ := Ring0.access_below hlt hs₁
      cases res with
      | error t =>
          cases hs
          obtain ⟨rfl, htouched⟩ := herror t rfl
          refine ⟨hkernel, fun a ha => .inl (htouched ▸ ha), rfl, hva, Nat.zero_add _,
            fun h => (hhole stop h).1⟩
      | ok b =>
          obtain ⟨c₁, hc₁, rfl⟩ := map_eq_some_iff.1 hs
          -- the address was not the hole
          have hne : va < stop := by
            rcases hfence with h | h
            · omega
            · exact hva.lt_of_ne fun heq => (hhole stop h).2 heq b rfl
          have hrest := ih hne (hfence.imp (by omega) fun h => (hhole stop h).1) hc₁
          have hmoved := hrest.moved
          have hcount := hrest.count
          refine ⟨hrest.kernel.trans hkernel, fun a ha => ?_, hrest.halted, ?_, ?_,
            fun h => hrest.hole (hhole stop h).1⟩
          · rcases hrest.touched a ha with ha | ha
            · exact (htouched a ha).imp id fun (heq : a = va) => heq ▸ hne
            · exact .inr ha
          · rw [length_cons]
            omega
          · dsimp only
            rw [length_cons, length_cons]
            omega

/-- A call with a buffer of `len` bytes at `uptr` has kept below the limit, and has
transferred bytes below it or failed. -/
structure Confined (errors : Errno → Prop) (uptr len : Nat) (s s' : Ring0) (r : Ended) : Prop where
  kernel : s'.kernel = s.kernel
  touched : ∀ a ∈ s'.touched, a < userAddrLimit
  result : (∃ n, r = .returned (.ok n) ∧ n ≤ len ∧ (n = 0 ∨ uptr + n ≤ userAddrLimit)) ∨
    ∃ e, r = .returned (.error e) ∧ (e = .efault ∨ errors e)

structure Copied.Confined (uptr len : Nat) (s : Ring0) (c : Copied) : Prop where
  kernel : c.s.kernel = s.kernel
  touched : ∀ a ∈ c.s.touched, a < userAddrLimit
  halted : c.halted = false
  count : c.bytes.length + c.missed = len
  moved : c.bytes = [] ∨ uptr + c.bytes.length ≤ userAddrLimit

/-- A copy does not get past the limit. The part of the buffer below the limit is all of it, or a
page fault there is not handled; or the buffer begins at an address of the kernel's half where
nothing is mapped. -/
def Stays (device : Frame → Bool) (p : Pid) (va : Nat) (xs : List (Option Byte)) (s : Ring0) :
    Prop :=
  if va < userAddrLimit then
    va + xs.length ≤ userAddrLimit ∨
      ∀ c, userCopy device p va (xs.take (userAddrLimit - va)) s = some c → 0 < c.missed
  else xs = [] ∨ kernelHalf ≤ va ∧ s.kernel va = none

variable {errors : Errno → Prop} {uptr total len n : Nat} {s' : Ring0} {r : Ended} {e : Errno}

theorem Ring0.access_touched {x : Option Byte} {r : Ring0 × Except Trap Byte}
    (hs : s.access device p va x = some r) : s.touched ⊆ r.1.touched := by
  unfold Ring0.access at hs
  split at hs
  · obtain ⟨⟨m₁, e, xs⟩, -, rfl⟩ := map_eq_some_iff.1 hs
    cases e with
    | none => exact List.Subset.refl _
    | some e => exact subset_cons_self ..
  split at hs
  · cases hs
    exact List.Subset.refl _
  split at hs
  · cases hs
    exact List.Subset.refl _
  · cases hs
    exact subset_cons_self ..

theorem userCopy_touched {xs : List (Option Byte)} (hs : userCopy device p va xs s = some c) :
    s.touched ⊆ c.s.touched := by
  induction xs generalizing va s c with
  | nil =>
      cases hs
      exact List.Subset.refl _
  | cons x xs ih =>
      obtain ⟨⟨s₁, res⟩, hs₁, hs⟩ := bind_eq_some_iff.1 hs
      have haccess := Ring0.access_touched hs₁
      cases res with
      | error t =>
          cases hs
          exact haccess
      | ok b =>
          obtain ⟨c₁, hc₁, rfl⟩ := map_eq_some_iff.1 hs
          exact List.Subset.trans haccess (ih (c := c₁) hc₁)

/-- A copy in two parts: the second is made if the first is complete. -/
theorem userCopy_append (va : Nat) (xs ys : List (Option Byte)) (s : Ring0) :
    userCopy device p va (xs ++ ys) s = (userCopy device p va xs s).bind fun c =>
      if 0 < c.missed then some { c with missed := c.missed + ys.length }
      else (userCopy device p (va + xs.length) ys c.s).map fun d =>
        { d with bytes := c.bytes ++ d.bytes } := by
  induction xs generalizing va s with
  | nil => simp [userCopy]
  | cons x xs ih =>
      simp only [cons_append, userCopy, bind_assoc]
      congr 1
      funext r
      cases r.2 with
      | error t => simp [Nat.add_right_comm]
      | ok b =>
          simp only [ih, length_cons, map_bind, bind_map]
          congr 1
          funext c
          simp only [Function.comp_apply]
          split
          · rfl
          · rw [Nat.add_right_comm, Nat.add_assoc]
            simp [Function.comp_def]

theorem Copied.Below.confined (h : c.Below s p uptr len stop) (hstop : stop ≤ userAddrLimit)
    (hs : ∀ a ∈ s.touched, a < userAddrLimit) : c.Confined uptr len s :=
  ⟨h.kernel, fun a ha => (h.touched a ha).elim (hs a) fun hlt => hlt.trans_le hstop, h.halted,
    h.count, .inr (h.moved.trans hstop)⟩

/-- A copy that does not stay below the limit stops the machine or touches the kernel's half. -/
theorem userCopy_cases {xs : List (Option Byte)} (hva : va < 2 ^ 64)
    (htouched : ∀ a ∈ s.touched, a < userAddrLimit) (hs : userCopy device p va xs s = some c) :
    Stays device p va xs s ∧ c.Confined va xs.length s ∨
      ¬Stays device p va xs s ∧ (c.halted = true ∨ ∃ a ∈ c.s.touched, userAddrLimit ≤ a) := by
  have hword : u64 va = va := Nat.mod_eq_of_lt hva
  unfold Stays
  split
  · next hlt =>
      by_cases hfits : va + xs.length ≤ userAddrLimit
      · exact .inl ⟨.inl hfits,
          (userCopy_below hfits (Nat.le_add_right ..) (.inl le_rfl) hs).confined
          hfits htouched⟩
      -- the part below the limit, and what is left
      have hpart := take_append_drop (userAddrLimit - va) xs
      have hlen : (xs.take (userAddrLimit - va)).length = userAddrLimit - va := by
        rw [length_take]
        omega
      rw [← hpart, userCopy_append] at hs
      obtain ⟨c₀, hc₀, hs⟩ := bind_eq_some_iff.1 hs
      have hbelow := userCopy_below le_rfl hlt.le (.inl (by omega)) hc₀
      split at hs
      · next hmissed =>
          cases hs
          have hconf := hbelow.confined le_rfl htouched
          refine .inl ⟨.inr fun c' hc' => ?_, { hconf with count := ?_ }⟩
          · cases hc₀.symm.trans hc'
            exact hmissed
          have hcount := hconf.count
          rw [length_take] at hcount
          dsimp only
          rw [length_drop]
          omega
      · next hall =>
          refine .inr ⟨?_, .inl ?_⟩
          · rintro (hle | hmissed)
            · exact hfits hle
            · exact hall (hmissed c₀ hc₀)
          · obtain ⟨d, hd, rfl⟩ := map_eq_some_iff.1 hs
            rw [hlen, Nat.add_sub_cancel' hlt.le] at hd
            cases hrest : xs.drop (userAddrLimit - va) with
            | nil => exact absurd (drop_eq_nil_iff.1 hrest) (by omega)
            | cons y ys =>
                rw [hrest] at hd
                cases hd
                rfl
  · next hge =>
      cases xs with
      | nil =>
          cases hs
          exact .inl ⟨.inl rfl, rfl, htouched, rfl, rfl, .inl rfl⟩
      | cons x xs =>
          rw [userCopy, hword, Ring0.access, if_neg hge] at hs
          split at hs
          · next hgap =>
              cases hs
              refine .inr ⟨?_, .inl rfl⟩
              rintro (hnil | ⟨hle, -⟩)
              · cases hnil
              · exact absurd hgap (not_lt.2 hle)
          next hhalf =>
          split at hs
          · next hnone =>
              cases hs
              exact .inl ⟨.inr ⟨not_lt.1 hhalf, hnone⟩, rfl, htouched, rfl,
                Nat.zero_add _, .inl rfl⟩
          · next b hb =>
              obtain ⟨c₁, hc₁, rfl⟩ := map_eq_some_iff.1 hs
              refine .inr ⟨?_, .inr ⟨va, userCopy_touched hc₁ mem_cons_self, not_lt.1 hge⟩⟩
              rintro (hnil | ⟨-, hnone⟩)
              · cases hnil
              · cases hb.symm.trans hnone

theorem userCopy_confined_iff {xs : List (Option Byte)} (hva : va < 2 ^ 64)
    (htouched : ∀ a ∈ s.touched, a < userAddrLimit) (hs : userCopy device p va xs s = some c) :
    c.Confined va xs.length s ↔ Stays device p va xs s := by
  rcases userCopy_cases hva htouched hs with ⟨hstays, hconf⟩ | ⟨hno, hbad⟩
  · exact ⟨fun _ => hstays, fun _ => hconf⟩
  · refine ⟨fun hconf => ?_, fun hstays => absurd hstays hno⟩
    rcases hbad with hhalt | ⟨a, ha, hle⟩
    · cases hhalt.symm.trans hconf.halted
    · exact absurd (hconf.touched a ha) (not_lt.2 hle)

theorem Confined.done (hs : ∀ a ∈ s.touched, a < userAddrLimit) (hlen : total ≤ len)
    (huptr : total = 0 ∨ uptr + total ≤ userAddrLimit) :
    Confined errors uptr len s s (.returned (.ok total)) :=
  ⟨rfl, hs, .inl ⟨total, rfl, hlen, huptr⟩⟩

theorem Confined.doneOr (hs : ∀ a ∈ s.touched, a < userAddrLimit) (hlen : total ≤ len)
    (huptr : total = 0 ∨ uptr + total ≤ userAddrLimit)
    (he : e = .efault ∨ errors e) : Confined errors uptr len s s (doneOr total e) := by
  unfold Vm.doneOr
  split
  · exact .done hs hlen huptr
  · exact ⟨rfl, hs, .inr ⟨e, rfl, he⟩⟩

theorem Copied.Confined.trans (hc : c.Confined va n s) :
    Vm.Confined errors uptr len c.s s' r ↔ Vm.Confined errors uptr len s s' r :=
  ⟨fun h => { h with kernel := h.kernel.trans hc.kernel },
    fun h => { h with kernel := h.kernel.trans hc.kernel.symm }⟩

/-- Every copy of a `read_to_user` stays below the limit. -/
def ReadStays (device : Frame → Bool) (p : Pid) (uptr : Nat) :
    List (Except Errno (List Byte)) → Nat → Nat → Ring0 → Prop
  | reads, total, remaining, s => remaining ≠ 0 →
      match reads with
      | .ok data :: reads => data ≠ [] → data.length ≤ min remaining stageMax →
          Stays device p (uptr + total) (data.map some) s ∧
            ∀ c, copyToUser device p (uptr + total) data s = some c → c.missed = 0 →
              data.length = min remaining stageMax →
              ReadStays device p uptr reads (total + data.length) (remaining - data.length) c.s
      | _ => True

/-- Every copy of a `write_from_user` stays below the limit. -/
def WriteStays (device : Frame → Bool) (p : Pid) (uptr : Nat) :
    List (Except Errno Nat) → Nat → Nat → Ring0 → Prop
  | writes, total, remaining, s => remaining ≠ 0 →
      Stays device p (uptr + total) (replicate (min remaining stageMax) none) s ∧
        match writes with
        | .ok n :: writes =>
            ∀ c, copyFromUser device p (uptr + total) (min remaining stageMax) s = some c →
              c.missed = 0 → n = c.bytes.length →
              WriteStays device p uptr writes (total + n) (remaining - n) c.s
        | _ => True

theorem readToUser_touched {reads : List (Except Errno (List Byte))} {remaining : Nat}
    (hs : readToUser device p reads uptr total remaining s = some (s', r)) :
    s.touched ⊆ s'.touched := by
  fun_induction readToUser device p reads uptr total remaining s with
  | case6 total remaining s hmore data reads hdata hchunk ih =>
      obtain ⟨c, hc, hs⟩ := bind_eq_some_iff.1 hs
      refine List.Subset.trans (userCopy_touched hc) ?_
      split_ifs at hs
      · cases hs
        exact List.Subset.refl _
      · cases hs
        exact List.Subset.refl _
      · cases hs
        exact List.Subset.refl _
      · exact ih c hs
  | _ =>
      cases hs
      try exact List.Subset.refl _

theorem writeFromUser_touched {writes : List (Except Errno Nat)} {remaining : Nat} {bs : List Byte}
    (hs : writeFromUser device p writes uptr total remaining s = some (s', bs, r)) :
    s.touched ⊆ s'.touched := by
  fun_induction writeFromUser device p writes uptr total remaining s generalizing bs with
  | case1 =>
      cases hs
      exact List.Subset.refl _
  | case2 writes total remaining s hmore ih =>
      obtain ⟨c, hc, hs⟩ := bind_eq_some_iff.1 hs
      refine List.Subset.trans (userCopy_touched hc) ?_
      split at hs
      · cases hs
        exact List.Subset.refl _
      split at hs
      · cases hs
        exact List.Subset.refl _
      split at hs
      · cases hs
      · cases hs
        exact List.Subset.refl _
      split at hs
      · cases hs
      split at hs
      · cases hs
        exact List.Subset.refl _
      · obtain ⟨⟨s₂, bs₂, r₂⟩, hs₂, hs⟩ := map_eq_some_iff.1 hs
        cases hs
        exact ih c hs₂

/-- A call whose first copy does not stay is not confined. -/
theorem not_confined (hbad : c.halted = true ∨ ∃ a ∈ c.s.touched, userAddrLimit ≤ a)
    (hhalt : c.halted = true → r = .halted) (hsub : c.halted = false → c.s.touched ⊆ s'.touched) :
    ¬Confined errors uptr len s s' r := by
  intro h
  cases hc : c.halted with
  | true =>
      rw [hhalt hc] at h
      obtain ⟨n, hn, -⟩ | ⟨e, he, -⟩ := h.result
      · cases hn
      · cases he
  | false =>
      obtain ⟨a, ha, hle⟩ := hbad.resolve_left (by simp [hc])
      exact absurd (h.touched a (hsub hc ha)) (not_lt.2 hle)

theorem readToUser_confined_iff {reads : List (Except Errno (List Byte))} {remaining : Nat}
    (herr : ∀ e, .error e ∈ reads → errors e) (htouched : ∀ a ∈ s.touched, a < userAddrLimit)
    (huptr : uptr < 2 ^ 64) (hlen : total + remaining = len)
    (hpos : total = 0 ∨ uptr + total ≤ userAddrLimit)
    (hs : readToUser device p reads uptr total remaining s = some (s', r)) :
    Confined errors uptr len s s' r ↔ ReadStays device p uptr reads total remaining s := by
  fun_induction readToUser device p reads uptr total remaining s with
  | case1 =>
      cases hs
      unfold ReadStays
      exact iff_of_true (.done htouched (by omega) hpos) (fun h => absurd rfl h)
  | case2 => cases hs
  | case3 =>
      cases hs
      unfold ReadStays
      exact iff_of_true (.doneOr htouched (by omega) hpos (.inr (herr _ mem_cons_self)))
        fun _ => trivial
  | case4 =>
      cases hs
      unfold ReadStays
      exact iff_of_true (.done htouched (by omega) hpos) fun _ h => absurd rfl h
  | case5 => cases hs
  | case6 total remaining s hmore data reads hdata hchunk ih =>
      obtain ⟨c, hc, hs⟩ := bind_eq_some_iff.1 hs
      have hva : uptr + total < 2 ^ 64 := by
        unfold userAddrLimit at hpos
        omega
      unfold ReadStays
      simp only [hmore, hdata, not_lt.1 hchunk, ne_eq, not_false_eq_true, forall_const]
      rcases userCopy_cases hva htouched hc with ⟨hstays, hconf⟩ | ⟨hno, hbad⟩
      · have hcount := hconf.count
        rw [length_map] at hcount
        have hmoved : total + c.bytes.length = 0 ∨
          uptr + (total + c.bytes.length) ≤ userAddrLimit := by
          rcases hconf.moved with hnil | hle
          · rw [hnil]
            exact hpos
          · exact .inr (by omega)
        rw [and_iff_right hstays, ← hconf.trans]
        rw [hconf.halted, if_neg Bool.false_ne_true] at hs
        split at hs
        · next hmissed =>
            cases hs
            have htot : data.length - c.missed = c.bytes.length := by omega
            rw [htot]
            refine iff_of_true (.doneOr hconf.touched (by omega) hmoved (.inl rfl)) ?_
            intro c' hc' hzero
            cases hc.symm.trans hc'
            omega
        have hall : data.length = c.bytes.length := by omega
        split at hs
        · next hshort =>
            cases hs
            rw [hall]
            refine iff_of_true (.done hconf.touched (by omega) hmoved) ?_
            intro c' _ _ hfull
            omega
        · refine (ih c (fun e he => herr e (mem_cons_of_mem _ he)) hconf.touched (by omega)
            (by rwa [hall]) hs).trans ⟨fun h c' hc' _ _ => ?_, fun h =>
              h c hc (by omega) (by omega)⟩
          cases hc.symm.trans hc'
          exact h
      · refine ⟨fun h => absurd h (not_confined hbad (fun hhalt => ?_) fun hhalt => ?_),
          fun h => absurd h.1 hno⟩
        · rw [if_pos hhalt] at hs
          cases hs
          rfl
        · rw [hhalt, if_neg Bool.false_ne_true] at hs
          split_ifs at hs
          · cases hs
            exact List.Subset.refl _
          · cases hs
            exact List.Subset.refl _
          · exact readToUser_touched hs

theorem writeFromUser_confined_iff {writes : List (Except Errno Nat)} {remaining : Nat}
    {bs : List Byte} (herr : ∀ e, .error e ∈ writes → errors e)
    (htouched : ∀ a ∈ s.touched, a < userAddrLimit) (huptr : uptr < 2 ^ 64)
    (hlen : total + remaining = len) (hpos : total = 0 ∨ uptr + total ≤ userAddrLimit)
    (hs : writeFromUser device p writes uptr total remaining s = some (s', bs, r)) :
    Confined errors uptr len s s' r ↔ WriteStays device p uptr writes total remaining s := by
  fun_induction writeFromUser device p writes uptr total remaining s generalizing bs with
  | case1 =>
      cases hs
      unfold WriteStays
      exact iff_of_true (.done htouched (by omega) hpos) (fun h => absurd rfl h)
  | case2 writes total remaining s hmore ih =>
      obtain ⟨c, hc, hs⟩ := bind_eq_some_iff.1 hs
      have hva : uptr + total < 2 ^ 64 := by
        unfold userAddrLimit at hpos
        omega
      unfold WriteStays
      simp only [hmore, ne_eq, not_false_eq_true, forall_const]
      rcases userCopy_cases hva htouched hc with ⟨hstays, hconf⟩ | ⟨hno, hbad⟩
      · have hcount := hconf.count
        rw [length_replicate] at hcount
        rw [and_iff_right hstays, ← hconf.trans]
        rw [hconf.halted, if_neg Bool.false_ne_true] at hs
        split at hs
        · next hnil =>
            cases hs
            refine iff_of_true (.doneOr hconf.touched (by omega) hpos (.inl rfl)) ?_
            split
            · intro c' hc' hzero
              cases hc.symm.trans hc'
              rw [hnil, hzero] at hcount
              unfold stageMax at hcount
              simp at hcount
              omega
            · trivial
        next hsome =>
        have hmoved : uptr + total + c.bytes.length ≤ userAddrLimit :=
          hconf.moved.resolve_left hsome
        split at hs
        · cases hs
        · cases hs
          exact iff_of_true (.doneOr hconf.touched (by omega) hpos (.inr (herr _ mem_cons_self)))
            trivial
        next n writes _ =>
        split at hs
        · cases hs
        split at hs
        · next hshort =>
            cases hs
            refine iff_of_true (.done hconf.touched (by omega) (.inr (by omega))) ?_
            intro c' hc' hzero hn
            cases hc.symm.trans hc'
            omega
        · obtain ⟨⟨s₂, bs₂, r₂⟩, hs₂, hs⟩ := map_eq_some_iff.1 hs
          cases hs
          refine (ih c (fun e he => herr e (mem_cons_of_mem _ he)) hconf.touched (by omega)
            (.inr (by omega)) hs₂).trans
            ⟨fun h c' hc' _ _ => ?_, fun h => h c hc (by omega) (by omega)⟩
          cases hc.symm.trans hc'
          exact h
      · refine ⟨fun h => absurd h (not_confined hbad (fun hhalt => ?_) fun hhalt => ?_),
          fun h => absurd h.1 hno⟩
        · rw [if_pos hhalt] at hs
          cases hs
          rfl
        · rw [hhalt, if_neg Bool.false_ne_true] at hs
          split at hs
          · cases hs
            exact List.Subset.refl _
          split at hs
          · cases hs
          · cases hs
            exact List.Subset.refl _
          split at hs
          · cases hs
          split at hs
          · cases hs
            exact List.Subset.refl _
          · obtain ⟨⟨s₂, bs₂, r₂⟩, hs₂, hs⟩ := map_eq_some_iff.1 hs
            cases hs
            exact writeFromUser_touched hs₂

/-- A buffer that ends at or below `stop`, or meets a hole there. -/
theorem stays_of_fence {xs : List (Option Byte)} (hstop : stop ≤ userAddrLimit) (hva : va ≤ stop)
    (hfence : va + xs.length ≤ stop ∨ Hole s.m p stop) : Stays device p va xs s := by
  unfold Stays
  split
  · next hlt =>
      by_cases hfits : va + xs.length ≤ userAddrLimit
      · exact .inl hfits
      · refine .inr fun c hc => ?_
        have hole : Hole s.m p stop := hfence.resolve_left (by omega)
        have hbelow := userCopy_below hstop hva (.inr hole) hc
        have hmoved := hbelow.moved
        have hcount := hbelow.count
        have hinside := hole.2.1
        rw [length_take] at hcount
        omega
  · next hge =>
      rcases hfence with hle | hole
      · exact .inl (length_eq_zero_iff.1 (by omega))
      · exact absurd (hva.trans_lt hole.2.1) hge

theorem readStays_of_fence (hstop : stop ≤ userAddrLimit) (reads : List (Except Errno (List Byte)))
    {remaining : Nat} (hlen : total + remaining = len) (huptr : uptr + total ≤ stop)
    (hfence : uptr + len ≤ stop ∨ Hole s.m p stop) :
    ReadStays device p uptr reads total remaining s := by
  induction reads generalizing total remaining s with
  | nil =>
      unfold ReadStays
      exact fun _ => trivial
  | cons x reads ih =>
      unfold ReadStays
      intro _
      split
      · next data rest hx =>
          cases hx
          intro _ hchunk
          have hhere : uptr + total + (data.map some).length ≤ stop ∨ Hole s.m p stop :=
            hfence.imp (fun h => by rw [length_map]; omega) id
          refine ⟨stays_of_fence hstop huptr hhere, fun c hc hmissed _ => ?_⟩
          have hbelow := userCopy_below hstop huptr hhere hc
          have hmoved := hbelow.moved
          have hcount := hbelow.count
          rw [length_map] at hcount
          exact ih (by omega) (by omega) (hfence.imp id hbelow.hole)
      · trivial

theorem writeStays_of_fence (hstop : stop ≤ userAddrLimit) (writes : List (Except Errno Nat))
    {remaining : Nat} (hlen : total + remaining = len) (huptr : uptr + total ≤ stop)
    (hfence : uptr + len ≤ stop ∨ Hole s.m p stop) :
    WriteStays device p uptr writes total remaining s := by
  have hhere : ∀ {total remaining : Nat} {s : Ring0}, total + remaining = len →
      (uptr + len ≤ stop ∨ Hole s.m p stop) → uptr + total +
        (replicate (min remaining stageMax) (none : Option Byte)).length ≤ stop ∨ Hole s.m p stop :=
    fun hlen hf => hf.imp (fun h => by rw [length_replicate]; omega) id
  induction writes generalizing total remaining s with
  | nil =>
      unfold WriteStays
      exact fun _ => ⟨stays_of_fence hstop huptr (hhere hlen hfence), trivial⟩
  | cons x writes ih =>
      unfold WriteStays
      refine fun _ => ⟨stays_of_fence hstop huptr (hhere hlen hfence), ?_⟩
      split
      · next n rest hx =>
          cases hx
          intro c hc hmissed hn
          have hbelow := userCopy_below hstop huptr (hhere hlen hfence) hc
          have hmoved := hbelow.moved
          have hcount := hbelow.count
          rw [length_replicate] at hcount
          exact ih (by omega) (by omega) (hfence.imp id hbelow.hole)
      · trivial

end Copies

/-- The buffer ends at or below the limit, or meets an address below it that no mapping of the
process covers, in a run whose calls find room for what they map. -/
def Fenced (device : Frame → Bool) (m : Machine) (p : Pid) (uptr len : Nat) : Prop :=
  uptr + len ≤ userAddrLimit ∨
    (vmSystem device).Reach Roomy m ∧ ∃ a, uptr ≤ a ∧ a < userAddrLimit ∧
      ∀ P ∈ m.proc p, vmaFind P.vmas a = none

theorem Fenced.exists_stop {device : Frame → Bool} {m : Machine} {p : Pid} {uptr len : Nat}
    (h : Fenced device m p uptr len) :
    ∃ stop, stop ≤ userAddrLimit ∧ uptr ≤ stop ∧ (uptr + len ≤ stop ∨ Hole m p stop) := by
  rcases h with h | ⟨hr, a, hle, hlt, hnone⟩
  · exact ⟨uptr + len, h, Nat.le_add_right .., .inl le_rfl⟩
  · have hok : m.Ok False := hr.invariant (Machine.Ok False) (fun _ h => h.ok)
      fun _ _ _ h hroom hs => vmStep_ok h hroom False.elim hs
    exact ⟨a, hlt.le, hle, .inr ⟨hok, hlt, hnone⟩⟩

/-- The kernel's half has one byte mapped, and memory is there for one page fault. -/
def onePageFault (m : Machine) : Ring0 where
  m := m
  kernel := fun a => if a = kernelHalf then some 0x2a else none
  answers := [⟨some 7, true, none, none, true, none⟩, ⟨none, true, none, none, true, none⟩]
  touched := []

def mapOnePage : List VmAct :=
  [.mmap 1 0 0x1000 (protRead ||| protWrite) (mapPrivate ||| mapAnonymous) true true]

end NeoKernel.Vm
