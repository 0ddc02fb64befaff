import NeoKernel.Vm.Refs

/-!
# Every step keeps the address spaces well formed

A step must find room for what it maps (`Roomy`). For the permissions, a write to a
copy-on-write page must be one to a writable mapping, and a page read from a file must be
installed under the protection its fault has seen (`Rightful`).
-/
namespace NeoKernel.Vm
open Lib Function Machine Option

def Roomy (m : Machine) : VmAct → Prop
  | .mmap p addr len _ flags tailOk _ =>
      ∀ P ∈ m.proc p, len = 0 ∨ Room P addr (pageUp len) flags tailOk
  | .mmapFile p addr len _ flags _ _ tailOk _ =>
      ∀ P ∈ m.proc p, len = 0 ∨ Room P addr (pageUp len) flags tailOk
  | .mapFrames p frames _ _ _ _ =>
      ∀ P ∈ m.proc p, frames.length = 0 ∨ Room P 0 (pageSize * frames.length) 0 false
  | .mapPhys p phys len _ _ _ _ =>
      ∀ P ∈ m.proc p, len = 0 ∨ Room P 0 (pageSize * (physFrames phys len).length) 0 false
  | _ => True

instance (m : Machine) : (a : VmAct) → Decidable (Roomy m a)
  | .mmap .. | .mmapFile .. | .mapFrames .. | .mapPhys .. =>
      inferInstanceAs (Decidable (∀ _ ∈ _, _))
  | .munmap .. | .mprotect .. | .mremap .. | .fork .. | .fault .. | .install .. | .ioFail ..
  | .cowFault .. | .write .. | .exit .. | .release .. => inferInstanceAs (Decidable True)

def Rightful (m : Machine) : VmAct → Prop
  | .cowFault p addr _ => ∀ P ∈ m.proc p, ∀ v ∈ vmaFind P.vmas addr, v.prot.writable = true
  | .install k _ _ _ =>
      ∀ x ∈ m.ios[k]?, ∀ P ∈ m.proc x.1, ∀ v ∈ vmaFind P.vmas x.2.page, v.prot = x.2.prot
  | _ => True

instance (m : Machine) : (a : VmAct) → Decidable (Rightful m a)
  | .cowFault p addr _ =>
      inferInstanceAs (Decidable (∀ P ∈ m.proc p, ∀ v ∈ vmaFind P.vmas addr, _))
  | .install k .. =>
      inferInstanceAs (Decidable (∀ x ∈ m.ios[k]?, ∀ P ∈ m.proc x.1, ∀ v ∈ _, _))
  | .mmap .. | .mmapFile .. | .mapFrames .. | .mapPhys .. | .munmap .. | .mprotect ..
  | .mremap .. | .fork .. | .fault .. | .ioFail .. | .write .. | .exit .. | .release .. =>
      inferInstanceAs (Decidable True)

variable {rights : Prop} {P : Process} {addr : Nat}

section Process

variable {v : Vma} {e : Pte}

theorem Process.Ok.insert (h : P.Ok rights) (hfind : vmaFind P.vmas addr = some v)
    (hall : Allowed rights v e) : { P with pt := P.pt.insert (pageOf addr) e }.Ok rights := by
  obtain ⟨hv, hlo, hhi⟩ := vmaFind_mem hfind
  exact ⟨h.space.insert hv ((h.space.laid.ok v hv).covers hlo hhi) hall, h.cursor, h.limit⟩

theorem lookup_of_entry (he : entry P addr = some e) :
    addr < userAddrLimit ∧ P.pt.lookup (pageOf addr) = some e := by
  unfold entry at he
  split at he
  · next hlt => exact ⟨hlt, he⟩
  · cases he

theorem Process.Ok.entry_covered (h : P.Ok rights) (he : entry P addr = some e) :
    ∃ v, vmaFind P.vmas addr = some v ∧ Allowed rights v e := by
  obtain ⟨hlt, he⟩ := lookup_of_entry he
  obtain ⟨v, hv, hcov, hall⟩ := h.space.covered _ _ he
  obtain ⟨hlo, hhi⟩ := (h.space.laid.ok v hv).of_covers hlt hcov
  exact ⟨v, vmaFind_of_mem h.space.laid hv hlo hhi, hall⟩

theorem allowed_userPage_of (f : Frame) {prot : Prot} (hprot : rights → v.prot = prot) :
    Allowed rights v (userPage f prot) := by
  refine ⟨fun hr hw => ?_, fun hr _ hx => ?_, nofun, nofun, nofun, fun hr hw => ⟨rfl, .inl ?_⟩⟩
  · rw [hprot hr]
    exact hw
  · rw [hprot hr]
    simpa [userPage] using hx
  · rwa [hprot hr] at hw

theorem allowed_userPage (f : Frame) : Allowed rights v (userPage f v.prot) :=
  allowed_userPage_of f fun _ => rfl

theorem Allowed.forkParent (h : Allowed rights v e) : Allowed rights v e.forkParent := by
  unfold Pte.forkParent
  split
  · exact h
  split
  · exact ⟨fun _ => nofun, h.exec, h.parked, fun _ => rfl, h.nofree,
      fun hr hw => ⟨(h.ready hr hw).1, .inr rfl⟩⟩
  · exact h

theorem Allowed.forkChild (h : Allowed rights v e) : Allowed rights v e.forkChild := by
  unfold Pte.forkChild
  split
  · next hparked =>
      have hnone := (h.parked (by simpa using (Bool.and_eq_true_iff.1 hparked).2)).1
      exact ⟨fun _ => nofun, fun _ => nofun, fun _ => ⟨hnone, rfl⟩, fun _ => rfl, h.nofree,
        fun _ hw => absurd (hnone ▸ hw) (by decide)⟩
  · exact { h with parked := nofun }

theorem Process.Ok.forkParent (h : P.Ok rights) (fail : ForkFail) :
    { P with pt := forkParentTable fail P.pt }.Ok rights := by
  refine ⟨?_, h.cursor, h.limit⟩
  refine h.space.adjust (fun s e => if reached fail s then e.forkParent else e) ?_
  intro v s e hall
  split
  · exact hall.forkParent
  · exact hall

theorem Process.Ok.forkChild (h : P.Ok rights) :
    { P with vmas := P.vmas.map copyVma, pt := forkChildTable P.pt }.Ok rights := by
  have hspace : Space rights ([] ++ P.vmas) (forkChildTable P.pt) :=
    h.space.adjust _ fun _ _ _ hall => hall.forkParent.forkChild
  have hsame : ∀ v, (copyVma v).SameArea v := fun _ => ⟨rfl, rfl, rfl, rfl⟩
  exact ⟨Space.map hsame hspace, h.cursor, h.limit⟩

/-- The entry after a copy-on-write fault: writable, with its own frame or a new one. -/
def Pte.granted (e : Pte) (f : Frame) : Pte := { e with frame := f, cow := false, writable := true }

theorem Allowed.granted (h : Allowed rights v e) (hu : e.user = true)
    (hw : rights → v.prot.writable = true) (f : Frame) : Allowed rights v (e.granted f) :=
  ⟨fun hr _ => hw hr, h.exec, h.parked, fun hk => absurd (hu.symm.trans hk) nofun, h.nofree,
    fun _ _ => ⟨hu, .inl rfl⟩⟩

end Process

def Machine.Ok (rights : Prop) (m : Machine) : Prop :=
  ∀ p P, m.procs.lookup p = some P → P.Ok rights

variable {m : Machine} {device : Frame → Bool}

namespace Machine

variable {m' : Machine} {p c : Pid} {Q : Process} {tables : Bool} {alloc : Option Frame}
  {content : Nat → Byte}

theorem fault_cases {write : Bool} (hs : m.fault device p P addr write alloc tables = some m') :
    m' = m ∨ (∃ io, vmaFaultLocked P addr write alloc tables = .needsIo io ∧
        m' = { m with ios := m.ios ++ [(p, io)] }) ∨
      ∃ v g, m.Free device g ∧ vmaFind P.vmas addr = some v ∧ v.prot ≠ protNone ∧
        v.phys = false ∧ addr < userAddrLimit ∧
        (P.pt.lookup (pageOf addr)).any (·.present) = false ∧
        (∃ pt, vmaFaultLocked P addr write alloc tables = .handled pt g) ∧
        m' = ((m.setProc p { P with pt := P.pt.insert (pageOf addr) (userPage g v.prot) }).alloc g
          fun _ => 0).filled p P addr fun _ => 0 := by
  revert hs
  fun_cases fault device m p P addr write alloc tables <;> intro hs <;> cases hs
  · exact .inl rfl
  · exact .inl rfl
  · next io hio => exact .inr (.inl ⟨io, hio, rfl⟩)
  · next habs hfree pt g hhandled =>
      obtain ⟨hlt, hpresent⟩ := not_or.1 habs
      have hlt : addr < userAddrLimit := not_le.1 hlt
      obtain ⟨v, hfind, halloc, hprot, hphys, rfl⟩ := vmaFaultLocked_handled hhandled
      exact .inr (.inr ⟨v, g, not_not.1 hfree g halloc, hfind, hprot, hphys, hlt,
        by simpa [entry, hlt] using hpresent, ⟨_, hhandled⟩, rfl⟩)

theorem install_cases {k : Nat} {io : FaultIo} {g : Frame}
    (hs : m.install device k p io P g content tables = some m') :
    m' = { m with ios := m.ios.eraseIdx k } ∨
      ∃ v, m.Free device g ∧ vmaFind P.vmas io.page = some v ∧
        (v.file = true ∧ v.vn = io.vn ∧ v.fileOff + (io.page - v.start) = io.fileOff) ∧
        (P.pt.lookup (pageOf io.page)).any (·.present) = false ∧
        m' = (({ m with ios := m.ios.eraseIdx k }.setProc p
          { P with pt := P.pt.insert (pageOf io.page) (userPage g io.prot) }).alloc g
            content).filled p P io.page content := by
  unfold install at hs
  obtain ⟨hg, hs⟩ := ite_none_right_eq_some.1 hs
  split at hs
  · exact .inl (some.inj hs).symm
  · next pt hinstall =>
      obtain ⟨v, hfind, hsame, habs, rfl⟩ := vmaInstallFaultedPageLocked_some hinstall
      exact .inr ⟨v, hg, hfind, hsame, habs, (some.inj hs).symm⟩

theorem cowFault_cases (hs : m.cowFault device p P addr alloc = some m') :
    m' = m ∨ ∃ e, entry P addr = some e ∧ e.user = true ∧ e.cow = true ∧
      (m.refcount e.frame = 1 ∧
          m' = m.setProc p { P with pt := P.pt.insert (pageOf addr) (e.granted e.frame) } ∨
        ∃ g, m.Free device g ∧
          m' = ((m.setProc p { P with pt := P.pt.insert (pageOf addr) (e.granted g) }).alloc g
            (m.mem e.frame)).pmmFree e.frame) := by
  revert hs
  fun_cases cowFault device m p P addr alloc <;> intro hs <;> cases hs
  · exact .inl rfl
  all_goals
    rename_i e he huser hfree e' hcow
    have hu : e.user = true := (Bool.and_eq_true_iff.1 (by simpa using huser)).2
    revert hcow
    fun_cases Pte.cowFault e (m.refcount e.frame) alloc <;> intro hc <;> cases hc
  · next hcow hone => exact .inr ⟨_, he, hu, by simpa using hcow, .inl ⟨hone, rfl⟩⟩
  · next hcow _ g =>
      exact .inr ⟨_, he, hu, by simpa using hcow, .inr ⟨g, not_not.1 hfree g rfl, rfl⟩⟩

theorem Ok.setProc (h : m.Ok rights) (hQ : Q.Ok rights) (hm : m'.procs = m.procs.insert p Q) :
    m'.Ok rights := by
  intro q R hR
  rw [hm] at hR
  obtain ⟨-, rfl⟩ | ⟨-, hR⟩ := Table.lookup_insert_cases hR
  · exact hQ
  · exact h q R hR

theorem Ok.congr (h : m.Ok rights) (hm : m'.procs = m.procs) : m'.Ok rights :=
  fun q R hR => h q R (hm ▸ hR)

@[simp] theorem pmmFree_procs (f : Frame) : (m.pmmFree f).procs = m.procs := by
  unfold pmmFree
  split <;> rfl

@[simp] theorem filled_procs (addr : Nat) (content : Nat → Byte) :
    (m.filled p P addr content).procs = m.procs := by
  unfold filled
  split <;> rfl

theorem foldl_share_procs (fs : List Frame) : (fs.foldl share m).procs = m.procs := by
  induction fs generalizing m with
  | nil => rfl
  | cons f fs ih => exact ih

theorem Ok.fork (h : m.Ok rights) (hP : P.Ok rights) (fail : ForkFail) :
    (m.fork p c P fail).Ok rights := by
  have hparent : ((privateFrames (reached fail) P.pt).foldl share
      (m.setProc p { P with pt := forkParentTable fail P.pt })).Ok rights :=
    h.setProc (hP.forkParent fail) (foldl_share_procs _)
  unfold Machine.fork
  dsimp only
  split
  · exact hparent.setProc hP.forkChild rfl
  · exact hparent

theorem Ok.fault {write : Bool} (h : m.Ok rights) (hP : P.Ok rights)
    (hs : m.fault device p P addr write alloc tables = some m') : m'.Ok rights := by
  obtain rfl | ⟨io, -, rfl⟩ | ⟨v, g, -, hfind, -, -, -, -, -, rfl⟩ := fault_cases hs
  · exact h
  · exact h
  · exact h.setProc (hP.insert hfind (allowed_userPage g)) (filled_procs _ _)

theorem Ok.install {k : Nat} {io : FaultIo} {f : Frame} (h : m.Ok rights) (hP : P.Ok rights)
    (hprot : rights → ∀ v ∈ vmaFind P.vmas io.page, v.prot = io.prot)
    (hs : m.install device k p io P f content tables = some m') : m'.Ok rights := by
  obtain rfl | ⟨v, -, hfind, -, -, rfl⟩ := install_cases hs
  · exact h
  · exact h.setProc (hP.insert hfind (allowed_userPage_of f fun hr => hprot hr v hfind))
      (filled_procs _ _)

theorem Ok.cowFault (h : m.Ok rights) (hP : P.Ok rights)
    (hprot : rights → ∀ v ∈ vmaFind P.vmas addr, v.prot.writable = true)
    (hs : m.cowFault device p P addr alloc = some m') : m'.Ok rights := by
  obtain rfl | ⟨e, he, hu, -, ⟨-, rfl⟩ | ⟨g, -, rfl⟩⟩ := cowFault_cases hs
  · exact h
  all_goals
    obtain ⟨v, hfind, hall⟩ := hP.entry_covered he
    have hQ := fun f => hP.insert hfind (hall.granted hu (fun hr => hprot hr v hfind) f)
  · exact h.setProc (hQ _) rfl
  · exact h.setProc (hQ _) (pmmFree_procs _)

end Machine

def Mapping.out (r : Mapping) : Process × List Frame := (r.proc, r.freed)

/-- The calls on the mappings of a process: what `P` becomes, and the frames it gives up. -/
inductive VmCall (device : Frame → Bool) (P : Process) (p : Pid) :
    VmAct → Process × List Frame → Prop where
  | mmap (addr len prot flags tailOk kmalloc) :
      VmCall device P p (.mmap p addr len prot flags tailOk kmalloc)
        (vmaMmapLocked P addr len prot flags tailOk kmalloc).out
  | mmapFile (addr len prot flags vn off tailOk kmalloc) :
      VmCall device P p (.mmapFile p addr len prot flags vn off tailOk kmalloc)
        (vmaMmapFile P addr len prot flags vn off tailOk kmalloc).out
  | mapFrames {frames} (prot tailOk kmalloc failAt) :
      (∀ f ∈ frames, device f) ∧ frames.length < 2 ^ 52 →
      VmCall device P p (.mapFrames p frames prot tailOk kmalloc failAt)
        (vmaMapFramesLocked P frames prot tailOk kmalloc failAt).out
  | mapPhys {phys len} (prot tailOk kmalloc failAt) : (∀ f ∈ physFrames phys len, device f) →
      VmCall device P p (.mapPhys p phys len prot tailOk kmalloc failAt)
        (vmaMapPhysLocked P phys len prot tailOk kmalloc failAt).out
  | munmap {u addr len kmalloc} : vmaMunmapLocked P addr len kmalloc = u →
      VmCall device P p (.munmap p addr len kmalloc)
        ({ P with vmas := u.vmas, pt := u.pt }, u.freed)
  | mprotect {r addr len prot ks} : vmaMprotectLocked P addr len prot ks = r →
      VmCall device P p (.mprotect p addr len prot ks) ({ P with vmas := r.vmas, pt := r.pt }, [])

inductive VmMove (device : Frame → Bool) (m : Machine) : VmAct → Machine → Prop where
  | call {p P a r} : m.procs.lookup p = some P → VmCall device P p a r →
      VmMove device m a ((m.setProc p r.1).defer r.2)
  | mremap (p oldAddr oldSize newSize flags) :
      VmMove device m (.mremap p oldAddr oldSize newSize flags) m
  | fork {p c P fail} : m.procs.lookup p = some P → m.procs.lookup c = none →
      VmMove device m (.fork p c fail) (m.fork p c P fail)
  | fault {p P addr write alloc tables m'} : m.procs.lookup p = some P →
      m.fault device p P addr write alloc tables = some m' →
      VmMove device m (.fault p addr write alloc tables) m'
  | install {k x P f content tables m'} : m.ios[k]? = some x → m.procs.lookup x.1 = some P →
      m.install device k x.1 x.2 P f content tables = some m' →
      VmMove device m (.install k f content tables) m'
  | ioFail (k) : VmMove device m (.ioFail k) { m with ios := m.ios.eraseIdx k }
  | cowFault {p P addr alloc m'} : m.procs.lookup p = some P →
      m.cowFault device p P addr alloc = some m' → VmMove device m (.cowFault p addr alloc) m'
  | write {p P e addr} (b) : m.procs.lookup p = some P → entry P addr = some e →
      (e.present && e.user && e.writable) = true →
      VmMove device m (.write p addr b) { m with
        mem := update m.mem e.frame
          (update (m.mem e.frame) (addr % pageSize) b)
        last := update m.last p (update (m.last p) addr b) }
  | exit {p P} : m.procs.lookup p = some P → (∀ io ∈ m.ios, io.1 ≠ p) →
      VmMove device m (.exit p)
        ({ m with procs := m.procs.erase p }.defer (privateFrames (fun _ => true) P.pt))
  | release {f} : f ∈ m.deferred →
      VmMove device m (.release f) ({ m with deferred := m.deferred.erase f }.pmmFree f)

variable {a : VmAct}

theorem vmStep_moves {m' : Machine} (hs : vmStep device m a = some m') : VmMove device m a m' := by
  cases a with
  | mmap =>
      obtain ⟨P, hP, rfl⟩ := map_eq_some_iff.1 hs
      exact .call hP (.mmap ..)
  | mmapFile =>
      obtain ⟨P, hP, rfl⟩ := map_eq_some_iff.1 hs
      exact .call hP (.mmapFile ..)
  | mapFrames =>
      obtain ⟨P, hP, hs⟩ := bind_eq_some_iff.1 hs
      obtain ⟨hframes, ⟨⟩⟩ := ite_none_right_eq_some.1 hs
      exact .call hP (.mapFrames _ _ _ _ hframes)
  | mapPhys =>
      obtain ⟨P, hP, hs⟩ := bind_eq_some_iff.1 hs
      obtain ⟨hframes, ⟨⟩⟩ := ite_none_right_eq_some.1 hs
      exact .call hP (.mapPhys _ _ _ _ hframes)
  | munmap =>
      obtain ⟨P, hP, rfl⟩ := map_eq_some_iff.1 hs
      exact .call hP (.munmap rfl)
  | mprotect p addr len prot ks =>
      obtain ⟨P, hP, rfl⟩ := map_eq_some_iff.1 hs
      have hm : VmMove device m (.mprotect p addr len prot ks) _ := .call hP (.mprotect rfl)
      rwa [defer, List.append_nil] at hm
  | mremap =>
      obtain ⟨P, hP, rfl⟩ := map_eq_some_iff.1 hs
      split <;> exact .mremap ..
  | fork =>
      obtain ⟨P, hP, hs⟩ := bind_eq_some_iff.1 hs
      obtain ⟨hc, ⟨⟩⟩ := ite_none_right_eq_some.1 hs
      exact .fork hP hc
  | fault =>
      obtain ⟨P, hP, hs⟩ := bind_eq_some_iff.1 hs
      exact .fault hP hs
  | install =>
      obtain ⟨x, hx, hs⟩ := bind_eq_some_iff.1 hs
      obtain ⟨P, hP, hs⟩ := bind_eq_some_iff.1 hs
      exact .install hx hP hs
  | ioFail k =>
      cases hs
      exact .ioFail k
  | cowFault =>
      obtain ⟨P, hP, hs⟩ := bind_eq_some_iff.1 hs
      exact .cowFault hP hs
  | write =>
      obtain ⟨P, hP, hs⟩ := bind_eq_some_iff.1 hs
      revert hs
      fun_cases write m _ P _ _ <;> intro hs <;> cases hs
      next he hbits => exact .write _ hP he hbits
  | exit =>
      obtain ⟨P, hP, hs⟩ := bind_eq_some_iff.1 hs
      obtain ⟨hios, ⟨⟩⟩ := ite_none_right_eq_some.1 hs
      exact .exit hP hios
  | release =>
      obtain ⟨hf, ⟨⟩⟩ := ite_none_right_eq_some.1 hs
      exact .release hf

variable {r : Process × List Frame}

theorem VmCall.reshaped {alone : Frame → Prop} {p : Pid} {P : Process} (hc : VmCall device P p a r)
    (hP : m.proc p = some P) (h : P.Ok rights) (hroom : Roomy m a)
    (hup : ∀ addr len prot ks, a = .mprotect p addr len prot ks → prot.writable = true →
      MayWrite alone P.pt addr (pageUp (u64 (addr + len)))) :
    Reshaped rights device alone P r.1 r.2 := by
  cases hc with
  | mmap => exact vmaMmapLocked_reshaped h (hroom P hP)
  | mmapFile => exact vmaMmapFile_reshaped h (hroom P hP)
  | mapFrames _ _ _ _ hframes =>
      exact vmaMapFramesLocked_reshaped h hframes.2 (hroom P hP) hframes.1
  | mapPhys _ _ _ _ hframes => exact vmaMapPhysLocked_reshaped h (hroom P hP) hframes
  | munmap hu => exact hu ▸ vmaMunmapLocked_reshaped h _ _ _
  | mprotect hr => exact hr ▸ vmaMprotectLocked_reshaped h _ _ _ _ (hup _ _ _ _ rfl)

def AnyFrame : Frame → Prop := fun _ => True

theorem VmCall.reshaped_any {p : Pid} {P : Process} (hc : VmCall device P p a r)
    (hP : m.proc p = some P) (h : P.Ok rights) (hroom : Roomy m a) :
    Reshaped rights device AnyFrame P r.1 r.2 :=
  hc.reshaped hP h hroom fun _ _ _ _ _ _ _ _ _ _ _ => .inr (.inr (.inr trivial))

theorem vmStep_ok {m' : Machine} (h : m.Ok rights) (hok : Roomy m a)
    (hright : rights → Rightful m a) (hs : vmStep device m a = some m') : m'.Ok rights := by
  cases vmStep_moves hs with
  | call hP hc => exact h.setProc (hc.reshaped_any hP (h _ _ hP) hok).ok rfl
  | mremap | ioFail | write => exact h
  | fork hP => exact h.fork (h _ _ hP) _
  | fault hP hs => exact h.fault (h _ _ hP) hs
  | install hx hP hs => exact h.install (h _ _ hP) (fun hr => hright hr _ hx _ hP) hs
  | cowFault hP hs => exact h.cowFault (h _ _ hP) (fun hr => hright hr _ hP) hs
  | exit => exact fun q R hR => h q R (Table.lookup_erase_some hR).2
  | release => exact h.congr (pmmFree_procs _)

theorem VmInit.ok (h : VmInit m) : m.Ok rights := by
  intro p P hP
  rw [h.procs] at hP
  obtain ⟨-, rfl⟩ | ⟨-, hP⟩ := Table.lookup_insert_cases hP
  · refine ⟨⟨⟨nofun, .nil⟩, fun s e he => ?_⟩, by decide, by decide⟩
    cases (AList.lookup_empty _).symm.trans he
  · cases hP

theorem vmSystem_laid (hr : (vmSystem device).Reach Roomy m) : m.Ok False :=
  hr.invariant (Machine.Ok False) (fun _ h => h.ok)
    (fun _ _ _ h hok hs => vmStep_ok h hok nofun hs)

/-- In every run whose calls find room, the mappings of each process are sorted and
disjoint, and each is non-empty, page aligned and below the user address limit. -/
theorem mappings_laid_out {device : Frame → Bool} {m : Machine}
    (hr : (vmSystem device).Reach Roomy m) {p : Pid} {P : Process}
    (hP : m.procs.lookup p = some P) :
    P.vmas.Pairwise (fun v w => v.start < w.start ∧ v.stop ≤ w.start) ∧
      ∀ v ∈ P.vmas, v.start < v.stop ∧ pageSize ∣ v.start ∧ pageSize ∣ v.stop ∧
        v.stop ≤ userAddrLimit := by
  have hlaid := (vmSystem_laid hr p P hP).space.laid
  constructor
  · refine hlaid.sorted.imp_of_mem fun {v w} hv _ hle => ?_
    exact ⟨(hlaid.ok v hv).lt.trans_le hle, hle⟩
  · intro v hv
    have hok := hlaid.ok v hv
    exact ⟨hok.lt, hok.start, hok.stop, hok.limit⟩

def bootVm : Machine where
  procs := (∅ : Table Pid Process).insert 1 ⟨[], mmapBase, ∅⟩
  refcount _ := 0
  mem _ _ := 0
  deferred := []
  ios := []
  last _ _ := 0

theorem bootVm_init : VmInit bootVm := ⟨rfl, fun _ => rfl, rfl, rfl⟩

/-- A mapping of three pages, a `MAP_FIXED` one over its middle, and a fork. -/
def fixedInside : List VmAct :=
  [.mmap 1 0 0x3000 protRead (mapPrivate ||| mapAnonymous) true true,
   .mmap 1 (mmapBase + 0x1000) 0x1000 (protRead ||| protWrite)
     (mapPrivate ||| mapAnonymous ||| mapFixed) true true,
   .fork 1 2 none]

theorem mappings_laid_out_fixed_inside :
    ∃ (m : Machine) (P : Process), (vmSystem fun _ => false).Reach Roomy m ∧
      m.procs.lookup 2 = some P ∧ P.vmas.length = 3 ∧
      P.vmas.Pairwise (fun v w => v.start < w.start ∧ v.stop ≤ w.start) ∧
      ∀ v ∈ P.vmas, v.start < v.stop ∧ pageSize ∣ v.start ∧ pageSize ∣ v.stop ∧
        v.stop ≤ userAddrLimit := by
  obtain ⟨m, hr, hm⟩ : ∃ m, (vmSystem fun _ => false).Reach Roomy m ∧
      (m.procs.lookup 2).any (fun P => P.vmas.length = 3) = true :=
    System.Reach.exists_of_run fixedInside bootVm_init (by decide +kernel)
  obtain ⟨P, hP, hlen⟩ := (any_eq_true ..).1 hm
  have h := mappings_laid_out hr hP
  exact ⟨m, P, hr, hP, of_decide_eq_true hlen, h.1, h.2⟩

/-- One page is mapped with `MAP_FIXED` where the cursor has not come to yet, then two
pages are mapped anywhere. -/
def cursorRunsIn : List VmAct :=
  [.mmap 1 (mmapBase + 0x1000) 0x1000 (protRead ||| protWrite)
     (mapPrivate ||| mapAnonymous ||| mapFixed) true true,
   .mmap 1 0 0x2000 protRead (mapPrivate ||| mapAnonymous) true true]

/-- The second mapping is laid over the first. -/
theorem cursor_overlaps_fixed_mapping :
    ∃ (m : Machine) (P : Process), (vmSystem fun _ => false).Reach (fun _ _ => True) m ∧
      m.procs.lookup 1 = some P ∧
      ¬P.vmas.Pairwise (fun v w => v.start < w.start ∧ v.stop ≤ w.start) := by
  obtain ⟨m, hr, hm⟩ : ∃ m, (vmSystem fun _ => false).Reach (fun _ _ => True) m ∧
      (m.procs.lookup 1).any (fun P =>
        ¬P.vmas.Pairwise (fun v w => v.start < w.start ∧ v.stop ≤ w.start)) = true :=
    System.Reach.exists_of_run cursorRunsIn bootVm_init (by decide +kernel)
  obtain ⟨P, hP, hover⟩ := (any_eq_true ..).1 hm
  exact ⟨m, P, hr, hP, of_decide_eq_true hover⟩

/-- In every such run, a page lies in exactly one mapping of its process, a parked one in a
`PROT_NONE` mapping, and one whose frame is not the process's in one of physical memory. -/
theorem page_in_one_mapping {device : Frame → Bool} {m : Machine}
    (hr : (vmSystem device).Reach Roomy m) {p : Pid} {P : Process} {s : Nat} {e : Pte}
    (hP : m.procs.lookup p = some P) (he : P.pt.lookup s = some e) :
    ∃ v ∈ P.vmas, v.Covers s ∧ (∀ w ∈ P.vmas, w.Covers s → w = v) ∧
      (e.present = false → v.prot = protNone ∧ e.user = false) ∧
      (e.nofree = true → v.phys = true) := by
  obtain ⟨hlaid, hcov⟩ := (vmSystem_laid hr p P hP).space
  obtain ⟨v, hv, hc, hallowed⟩ := hcov s e he
  refine ⟨v, hv, hc, ?_, hallowed.parked, hallowed.nofree⟩
  intro w hw hcw
  exact hlaid.eq_of_covers hw hv hcw hc

theorem page_in_one_mapping_faulted :
    ∃ m, (vmSystem fun _ => false).Reach Roomy m ∧ ∃ P, m.procs.lookup 1 = some P ∧
      ∃ v ∈ P.vmas, v.Covers (pageOf mmapBase) ∧
        ∀ w ∈ P.vmas, w.Covers (pageOf mmapBase) → w = v := by
  refine System.Reach.exists_of_run_imp (fixedInside ++ [.fault 1 mmapBase false (some 7) true])
    bootVm_init (by decide +kernel) fun m hr
    (hm : ((m.procs.lookup 1).any fun P => (P.pt.lookup (pageOf mmapBase)).isSome) = true) => ?_
  obtain ⟨P, hP, hm⟩ := (any_eq_true ..).1 hm
  obtain ⟨e, he⟩ := isSome_iff_exists.1 hm
  obtain ⟨v, hv, hc, hone, -⟩ := page_in_one_mapping hr hP he
  exact ⟨P, hP, v, hv, hc, hone⟩

end NeoKernel.Vm
