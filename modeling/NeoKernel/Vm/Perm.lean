import NeoKernel.Vm.Steps

/-!
# Page permissions stay within those of the mapping

`paging_handle_cow_fault` makes a page writable without a look at its mapping. The other ways to
break the rule are a mapping placed over another one and a page read from a file while its mapping
was being protected. `Careful` keeps all three out.
-/
namespace NeoKernel.Vm
open Lib Option

def Careful (m : Machine) (a : VmAct) : Prop := Roomy m a ∧ Rightful m a

instance (m : Machine) (a : VmAct) : Decidable (Careful m a) :=
  inferInstanceAs (Decidable (_ ∧ _))

instance (v : Vma) (s : Nat) : Decidable (v.Covers s) := inferInstanceAs (Decidable (_ ∧ _))

theorem vmSystem_ok {device : Frame → Bool} {m : Machine}
    (hr : (vmSystem device).Reach Careful m) : m.Ok True :=
  hr.invariant (Machine.Ok True) (fun _ h => h.ok)
    (fun _ _ _ h hok hs => vmStep_ok h hok.1 (fun _ => hok.2) hs)

theorem Process.Ok.wx {P : Process} {s : Nat} {e : Pte} (h : P.Ok True)
    (he : P.pt.lookup s = some e)
    (hw : e.writable = true) : e.nx = true := by
  obtain ⟨v, hv, _, hall⟩ := h.space.covered s e he
  by_contra hnx
  have huser : e.user = true := by
    by_contra hk
    cases hw.symm.trans (hall.kernel (Bool.eq_false_of_not_eq_true hk))
  have hexec := hall.exec trivial huser (Bool.eq_false_of_not_eq_true hnx)
  cases hexec.symm.trans ((h.space.laid.ok v hv).wx trivial (hall.write trivial hw))

/-- In every run whose steps are careful, each present user entry lies in a mapping and
grants no more than any mapping it lies in, and no entry is both writable and
executable. -/
theorem entry_within_mapping {device : Frame → Bool} {m : Machine}
    (hr : (vmSystem device).Reach Careful m) {p : Pid} {P : Process}
    (hP : m.procs.lookup p = some P) {s : Nat} {e : Pte} (he : P.pt.lookup s = some e) :
    (e.present = true → e.user = true → ∀ v ∈ P.vmas, v.Covers s →
      (e.writable = true → v.prot.writable = true) ∧
        (e.nx = false → v.prot.executable = true)) ∧
      ¬(e.writable = true ∧ e.nx = false) := by
  have hok := vmSystem_ok hr p P hP
  constructor
  · intro _ huser v hv hcov
    obtain ⟨w, hw, hcw, hall⟩ := hok.space.covered s e he
    cases hok.space.laid.eq_of_covers hv hw hcov hcw
    exact ⟨hall.write trivial, hall.exec trivial huser⟩
  · rintro ⟨hw, hnx⟩
    cases (hok.wx he hw).symm.trans hnx

/-- A page of anonymous memory is touched, and shared with a child. -/
def touchAndFork : List VmAct :=
  [.mmap 1 0 4096 (protRead ||| protWrite) (mapPrivate ||| mapAnonymous) true true,
   .fault 1 mmapBase true (some 5) true, .write 1 mmapBase 7, .fork 1 2 none]

theorem entry_within_mapping_after_fork :
    ∃ (m : Machine) (P : Process) (e : Pte), (vmSystem fun _ => false).Reach Careful m ∧
      m.procs.lookup 2 = some P ∧ P.pt.lookup (pageOf mmapBase) = some e ∧
      e.present = true ∧ e.user = true ∧
      (∀ v ∈ P.vmas, v.Covers (pageOf mmapBase) →
        (e.writable = true → v.prot.writable = true) ∧
          (e.nx = false → v.prot.executable = true)) ∧
      ¬(e.writable = true ∧ e.nx = false) := by
  obtain ⟨m, hr, hm⟩ : ∃ m, (vmSystem fun _ => false).Reach Careful m ∧
      ((m.procs.lookup 2).bind fun P => P.pt.lookup (pageOf mmapBase)).any
        (fun e => e.present && e.user) = true :=
    System.Reach.exists_of_run touchAndFork bootVm_init (by decide +kernel)
  obtain ⟨e, he, hbits⟩ := (any_eq_true ..).1 hm
  obtain ⟨P, hP, he⟩ := bind_eq_some_iff.1 he
  obtain ⟨hpresent, huser⟩ := Bool.and_eq_true_iff.1 hbits
  have h := entry_within_mapping hr hP he
  exact ⟨m, P, e, hr, hP, he, hpresent, huser, h.1 hpresent huser, h.2⟩

/-- The parent then makes its page executable in place of writable, and writes to it. -/
def protectThenWrite : List VmAct :=
  touchAndFork ++
    [.mprotect 1 mmapBase 4096 (protRead ||| protExec) [], .cowFault 1 mmapBase (some 6)]

/-- The write is granted: the page is writable and executable at once, in a mapping that
may not be written. -/
theorem cow_fault_grants_write :
    ∃ (m : Machine) (P : Process) (e : Pte), (vmSystem fun _ => false).Reach (fun _ _ => True) m ∧
      m.procs.lookup 1 = some P ∧ P.pt.lookup (pageOf mmapBase) = some e ∧
      (e.present = true ∧ e.user = true ∧ e.writable = true ∧ e.nx = false) ∧
      ∃ v ∈ P.vmas, v.Covers (pageOf mmapBase) ∧ v.prot.writable = false := by
  obtain ⟨m, hr, hm⟩ : ∃ m, (vmSystem fun _ => false).Reach (fun _ _ => True) m ∧
      (m.procs.lookup 1).any (fun P => (P.pt.lookup (pageOf mmapBase)).any fun e =>
        (e.present ∧ e.user ∧ e.writable ∧ e.nx = false) ∧
          ∃ v ∈ P.vmas, v.Covers (pageOf mmapBase) ∧ v.prot.writable = false) = true :=
    System.Reach.exists_of_run protectThenWrite bootVm_init (by decide +kernel)
  obtain ⟨P, hP, hm⟩ := (any_eq_true ..).1 hm
  obtain ⟨e, he, hm⟩ := (any_eq_true ..).1 hm
  exact ⟨m, P, e, hr, hP, he, of_decide_eq_true hm⟩

end NeoKernel.Vm
