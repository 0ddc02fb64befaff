import NeoKernel.Vm.UserCopy

/-!
# A store of the kernel to user memory

With CR0.WP clear `copy_to_user` writes to every page that is present. When those of the
destination are writable ones of writable mappings (`Granted`), each byte is a store that the
process could have made itself: a copy is then a run of steps of `vmSystem`.
-/
namespace NeoKernel.Vm
open Lib Function Machine Option

/-- The kernel at work for a process, with nothing of its own half in view. -/
def Machine.ring0 (m : Machine) (answers : List FaultAnswer) : Ring0 :=
  ⟨m, fun _ => none, answers, []⟩

inductive StoreAct where
  | vm (a : VmAct)
  | copyToUser (p : Pid) (dst : Nat) (src : List Byte) (answers : List FaultAnswer)

/-- Processes and forks, and copies to user destinations. -/
def storeStep (device : Frame → Bool) (m : Machine) : StoreAct → Option Machine
  | .vm a => vmStep device m a
  | .copyToUser p dst src answers =>
      if dst + src.length ≤ userAddrLimit then
        (copyToUser device p dst src (m.ring0 answers)).map (·.s.m)
      else none

def storeSystem (device : Frame → Bool) : System Machine StoreAct where
  init := VmInit
  step := storeStep device

/-- Pages of the destination that are present can be written, and so can their mappings. -/
def Granted (m : Machine) (p : Pid) (dst n : Nat) : Prop :=
  ∀ P ∈ m.proc p, ∀ i < n, ∀ e ∈ entry P (dst + i), e.present = true →
    e.writable = true ∧ ∀ v ∈ vmaFind P.vmas (dst + i), v.prot.writable = true

def Obedient (m : Machine) : StoreAct → Prop
  | .vm a => Discreet m a
  | .copyToUser p dst src _ => Granted m p dst src.length

instance (m : Machine) (p : Pid) (dst n : Nat) : Decidable (Granted m p dst n) :=
  inferInstanceAs (Decidable (∀ P ∈ m.proc p, ∀ i < n, ∀ e ∈ entry P (dst + i), _))

instance (m : Machine) : (a : StoreAct) → Decidable (Obedient m a)
  | .vm a => inferInstanceAs (Decidable (Discreet m a))
  | .copyToUser p dst src _ => inferInstanceAs (Decidable (Granted m p dst src.length))

variable {device : Frame → Bool} {m m' : Machine} {p : Pid} {P : Process}

section Bytes

variable {dst va n : Nat} {e : Pte}

theorem FaultAct.discreet {a : VmAct} {write : Bool} (h : FaultAct p write m a) : Discreet m a := by
  refine ⟨h.roomy, ?_, ?_⟩
  · cases a with
    | install k f content tables =>
        intro x hx P hP v hv
        obtain ⟨rfl, hmap⟩ := h x hx
        obtain ⟨hadm, -⟩ := hmap P hP v hv
        exact ⟨hadm.1, hadm.2.1⟩
    | fork => exact h.elim
    | _ => trivial
  · cases a <;> trivial

theorem Populates.granted (h : Populates p true m m') (hok : m.Ok False)
    (hlim : dst + n ≤ userAddrLimit) (hg : Granted m p dst n) (hP : m.proc p = some P) :
    Granted m' p dst n := by
  obtain ⟨P', hP', hvmas, -, hnew⟩ := h.self P hP
  intro Q hQ i hi e he hpresent
  cases hP'.symm.trans hQ
  have hlt : dst + i < userAddrLimit := by omega
  unfold entry at he
  rw [if_pos hlt] at he
  rcases hnew _ e he with hold | ⟨-, v, hv, hcov, hadm, hw⟩
  · rw [hvmas]
    refine hg P hP i hi e ?_ hpresent
    unfold entry
    rw [if_pos hlt]
    exact hold
  · obtain ⟨hlo, hhi⟩ := ((hok p P hP).space.laid.ok v hv).of_covers hlt hcov
    have hfind := vmaFind_of_mem (hok p P hP).space.laid hv hlo hhi
    refine ⟨hw.trans (hadm.2.2 rfl), fun w hw => ?_⟩
    rw [hvmas] at hw
    cases hfind.symm.trans hw
    exact hadm.2.2 rfl

theorem Machine.demand_reach {xs : List FaultAnswer} {write : Bool}
    {r : Machine × Option Pte × List FaultAnswer} (hr : (vmSystem device).Reach Discreet m)
    (hok : m.Ok False) (hs : m.demand device p va write xs = some r) :
    ((vmSystem device).Reach Discreet r.1 ∧ r.1.Ok False ∧ Populates p write m r.1) ∧
      ∀ e, r.2.1 = some e → ∃ P, r.1.proc p = some P ∧ entry P va = some e ∧
        e.present = true := by
  refine demand_invariant
    (fun n => (vmSystem device).Reach Discreet n ∧ n.Ok False ∧ Populates p write m n)
    (fun n P x n' b hn hP hf => ?_) ⟨hr, hok, .refl ..⟩ hs
  obtain ⟨hrn, hokn, hpop⟩ := hn
  obtain ⟨hok', hpop'⟩ := vmaFault_populates hokn hP hf
  have hr' := vmaFault_invariant _ (hokn p P hP) hP
    (fun _ _ _ hn ha hstep => .step hn ha.discreet hstep) hrn hf
  exact ⟨hr', hok', hpop.trans hpop'⟩

theorem Allowed.user_of_writable {rights : Prop} {v : Vma} (h : Allowed rights v e)
    (hw : e.writable = true) : e.user = true := by
  by_contra hu
  cases hw.symm.trans (h.kernel (by simpa using hu))

/-- The store to a writable page is one that user code can make. -/
theorem Machine.write_eq_poke (hok : P.Ok False) (he : entry P va = some e)
    (hpresent : e.present = true) (hw : e.writable = true) (b : Byte) :
    m.write p P va b = some (m.poke p e va b) := by
  obtain ⟨v, -, hall⟩ := hok.entry_covered he
  have huser := hall.user_of_writable hw
  unfold write
  rw [he]
  simp only [hpresent, huser, hw, Bool.and_self, if_true]
  rfl

/-- The first `k` bytes of a source have come to user memory at `dst`, in pages that the
process may write, and nothing else has changed. -/
structure Delivered (p : Pid) (dst : Nat) (src : List Byte) (k : Nat) (m m' : Machine) : Prop where
  others : ∀ q, q ≠ p → m'.proc q = m.proc q ∧ m'.last q = m.last q
  self : ∀ P, m.proc p = some P → ∃ P', m'.proc p = some P' ∧ P'.vmas = P.vmas ∧
    (∀ s e, P.pt.lookup s = some e → P'.pt.lookup s = some e ∧
      ∀ a, a / pageSize = s → a < dst ∨ dst + k ≤ a → m'.last p a = m.last p a) ∧
    ∀ i < k, (∃ e, entry P' (dst + i) = some e ∧ e.present = true ∧ e.writable = true) ∧
      ∀ v ∈ vmaFind P.vmas (dst + i), v.prot.writable = true
  bytes : ∀ i < k, src[i]? = some (m'.last p (dst + i))

theorem Populates.delivered (h : Populates p true m m') (src : List Byte) :
    Delivered p dst src 0 m m' := by
  refine ⟨h.others, fun P hP => ?_, fun i hi => absurd hi (Nat.not_lt_zero i)⟩
  obtain ⟨P', hP', hvmas, hkeep, -⟩ := h.self P hP
  exact ⟨P', hP', hvmas, fun s e he => ⟨(hkeep s e he).1, fun a ha _ => (hkeep s e he).2 a ha⟩,
    fun i hi => absurd hi (Nat.not_lt_zero i)⟩

theorem Machine.poke_last (m : Machine) (p : Pid) (e : Pte) (va : Nat) (b : Byte) :
    (m.poke p e va b).last p = update (m.last p) va b :=
  update_self ..

theorem Delivered.cons {m₁ : Machine} {b : Byte} {src : List Byte} {k : Nat}
    (hpop : Populates p true m m₁) (hP : m₁.proc p = some P) (he : entry P va = some e)
    (hpresent : e.present = true) (hw : e.writable = true)
    (hv : ∀ v ∈ vmaFind P.vmas va, v.prot.writable = true)
    (h : Delivered p (va + 1) src k (m₁.poke p e va b) m') :
    Delivered p va (b :: src) (k + 1) m m' := by
  obtain ⟨P', hP', hvmas', hkeep', hbytes'⟩ := h.self P hP
  obtain ⟨hlt, hlook⟩ : va < userAddrLimit ∧ P.pt.lookup (pageOf va) = some e := by
    unfold entry at he
    split at he
    · next hlt => exact ⟨hlt, he⟩
    · cases he
  have hva := pageOf_of_lt hlt
  refine ⟨fun q hq => ?_, fun Q hQ => ?_, fun i hi => ?_⟩
  · obtain ⟨hproc, hlast⟩ := h.others q hq
    exact ⟨hproc.trans (hpop.others q hq).1,
      hlast.trans ((update_of_ne hq _ _).trans (hpop.others q hq).2)⟩
  · obtain ⟨P₁, hP₁, hvmas, hkeep, -⟩ := hpop.self Q hQ
    cases hP.symm.trans hP₁
    refine ⟨P', hP', hvmas'.trans hvmas, fun s d hd => ?_, fun i hi => ?_⟩
    · obtain ⟨hd₁, hlast₁⟩ := hkeep s d hd
      obtain ⟨hd', hlast'⟩ := hkeep' s d hd₁
      refine ⟨hd', fun a ha hout => ?_⟩
      have hne : a ≠ va := by omega
      calc m'.last p a
        _ = (m₁.poke p e va b).last p a := hlast' a ha (by omega)
        _ = m₁.last p a := by rw [poke_last, update_of_ne hne]
        _ = m.last p a := hlast₁ a ha
    · rw [← hvmas]
      cases i with
      | zero =>
          refine ⟨⟨e, ?_, hpresent, hw⟩, hv⟩
          unfold entry
          rw [Nat.add_zero, if_pos hlt]
          exact (hkeep' _ e hlook).1
      | succ i =>
          have hi := hbytes' i (by omega)
          rwa [Nat.add_assoc, Nat.add_comm 1 i] at hi
  · cases i with
    | zero =>
        -- the rest of the copy begins after this byte
        have hlast := (hkeep' _ e hlook).2 va hva.symm (.inl (Nat.lt_succ_self va))
        rw [Nat.add_zero, hlast, poke_last, update_self]
        rfl
    | succ i =>
        have hi := h.bytes i (by omega)
        rwa [Nat.add_assoc, Nat.add_comm 1 i] at hi

/-- A copy to pages that are granted is a run of the process's own steps. -/
theorem copyToUser_delivered {src : List Byte} {s : Ring0} {c : Copied}
    (hr : (vmSystem device).Reach Discreet s.m) (hok : s.m.Ok False)
    (hlim : dst + src.length ≤ userAddrLimit) (hg : Granted s.m p dst src.length)
    (hs : copyToUser device p dst src s = some c) :
    (vmSystem device).Reach Discreet c.s.m ∧ c.halted = false ∧
      c.bytes.length + c.missed = src.length ∧ Delivered p dst src c.bytes.length s.m c.s.m := by
  induction src generalizing dst s c with
  | nil =>
      cases hs
      exact ⟨hr, rfl, rfl, (Populates.refl ..).delivered _⟩
  | cons b src ih =>
      obtain ⟨⟨s₁, res⟩, hs₁, hs⟩ := bind_eq_some_iff.1 hs
      rw [List.length_cons] at hlim hg
      have hlt : dst < userAddrLimit := by omega
      have hu : u64 dst = dst := Nat.mod_eq_of_lt (hlt.trans (by decide))
      rw [hu] at hs₁
      unfold Ring0.access at hs₁
      rw [if_pos hlt] at hs₁
      obtain ⟨⟨m₁, oe, xs⟩, hd, hs₁⟩ := map_eq_some_iff.1 hs₁
      obtain ⟨⟨hr₁, hok₁, hpop⟩, hentry⟩ := demand_reach hr hok hd
      cases oe with
      | none =>
          cases hs₁
          cases hs
          exact ⟨hr₁, rfl, by simp, hpop.delivered _⟩
      | some e =>
          cases hs₁
          obtain ⟨c', hc', rfl⟩ := map_eq_some_iff.1 hs
          obtain ⟨P, hP, he, hpresent⟩ := hentry e rfl
          have hPm : ∃ P₀, s.m.proc p = some P₀ := by
            unfold demand at hd
            exact (bind_eq_some_iff.1 hd).imp fun _ h => h.1
          obtain ⟨P₀, hP₀⟩ := hPm
          have hg₁ := hpop.granted hok (Nat.add_assoc .. ▸ hlim) hg hP₀
          obtain ⟨hw, hv⟩ := hg₁ P hP 0 (Nat.succ_pos _) e he hpresent
          have hstep : vmStep device m₁ (.write p dst b) = some (m₁.poke p e dst b) :=
            bind_eq_some_iff.2
              ⟨P, hP, write_eq_poke (hok₁ p P hP) he hpresent hw b⟩
          have hdiscreet : Discreet m₁ (.write p dst b) := ⟨trivial, trivial, trivial⟩
          have hr₂ : (vmSystem device).Reach Discreet (m₁.poke p e dst b) :=
            .step hr₁ hdiscreet hstep
          have hg₂ : Granted (m₁.poke p e dst b) p (dst + 1) src.length := fun Q hQ i hi => by
            have hi := hg₁ Q hQ (i + 1) (Nat.succ_lt_succ hi)
            rwa [← Nat.add_assoc, Nat.add_right_comm] at hi
          obtain ⟨hr', hhalt, hcount, hdel⟩ := ih hr₂ (hok₁.congr rfl) (by omega) hg₂ hc'
          refine ⟨hr', hhalt, ?_, .cons hpop hP he hpresent hw hv hdel⟩
          dsimp only
          rw [List.length_cons, List.length_cons]
          omega

end Bytes

section Runs

variable {q : Pid} {P' : Process} {a : Nat} {b : Byte}

theorem vmSystem_ok_of_discreet (hr : (vmSystem device).Reach Discreet m) : m.Ok False :=
  hr.invariant (Machine.Ok False) (fun _ h => h.ok)
    fun _ _ _ h hok hs => vmStep_ok h hok.1 False.elim hs

/-- Copies to granted pages lead to no state that the processes could not have come to by
themselves. -/
theorem storeSystem_vm (hr : (storeSystem device).Reach Obedient m) :
    (vmSystem device).Reach Discreet m := by
  refine hr.invariant ((vmSystem device).Reach Discreet) (fun _ h => .init h)
    fun m act m' ih hok hs => ?_
  cases act with
  | vm act => exact .step ih hok hs
  | copyToUser p dst src answers =>
      simp only [storeSystem, storeStep] at hs
      obtain ⟨hlim, hs⟩ := ite_none_right_eq_some.1 hs
      obtain ⟨c, hc, rfl⟩ := map_eq_some_iff.1 hs
      exact (copyToUser_delivered (s := m.ring0 answers) ih (vmSystem_ok_of_discreet ih) hlim
        hok hc).1

theorem readPrivate_of_entry {e : Pte} (hP : m.proc p = some P) (he : entry P a = some e)
    (hpresent : e.present = true) (huser : e.user = true) (hn : e.nofree = false) :
    m.readPrivate p a = some (m.mem e.frame (a % pageSize)) := by
  unfold readPrivate
  rw [hP, bind_some, he, bind_some, hpresent, huser, hn]
  rfl

theorem Isolated.read_kept (h : Isolated m) (h' : Isolated m') (hP : m.proc p = some P)
    (hP' : m'.proc p = some P')
    (hkeep : ∀ s e, P.pt.lookup s = some e → P'.pt.lookup s = some e ∧
      (a / pageSize = s → m'.last p a = m.last p a))
    (hr : m.readPrivate p a = some b) : m'.readPrivate p a = some b := by
  have hb := h.read hr
  unfold readPrivate at hr
  rw [hP, bind_some] at hr
  obtain ⟨e, he, hr⟩ := bind_eq_some_iff.1 hr
  have hlook := he
  unfold entry at hlook
  obtain ⟨hlt, hlook⟩ := ite_none_right_eq_some.1 hlook
  obtain ⟨hlook', hlast⟩ := hkeep _ e hlook
  have he' : entry P' a = some e := by
    unfold entry
    rw [if_pos hlt]
    exact hlook'
  split at hr
  · next hbits =>
      simp only [Bool.and_eq_true, Bool.not_eq_true'] at hbits
      have hr' := readPrivate_of_entry hP' he' hbits.1.1 hbits.1.2 hbits.2
      rw [hr', h'.read hr', hlast (pageOf_of_lt hlt).symm, hb]
  · cases hr

end Runs

/-- What a copy of `src` to `dst` does for the process `p`, which has the mappings `vmas`, and
for the others, when `missed` bytes were not copied. -/
structure LikeOwnStore (p : Pid) (vmas : List Vma) (dst : Nat) (src : List Byte) (missed : Nat)
    (m m' : Machine) : Prop where
  /-- no other process reads anything else than before -/
  others : ∀ q, q ≠ p → ∀ a, m'.readPrivate q a = m.readPrivate q a
  /-- the bytes that were copied are in the private pages of the destination -/
  bytes : ∀ i, i + missed < src.length → ∃ P e, m'.proc p = some P ∧
    entry P (dst + i) = some e ∧ (e.nofree = false → m'.readPrivate p (dst + i) = src[i]?)
  /-- what the process reads elsewhere is as before -/
  outside : ∀ a b, a < dst ∨ dst + src.length ≤ a + missed → m.readPrivate p a = some b →
    m'.readPrivate p a = some b
  /-- the copy ends before the first page that the process may not write -/
  refused : ∀ i v, vmaFind vmas (dst + i) = some v → v.prot.writable = false → i < src.length →
    src.length ≤ i + missed

/-- In every run of such steps and copies, a copy to pages that are granted is what a store of
the process itself is: the other processes do not see it, the rest of the page stays, and a page
that the process may not write is left alone and counted as not copied. -/
theorem kernel_store_like_own {device : Frame → Bool}
    (hpmm : ∀ f, device f = false → f < pmmMaxFrames) {m : Machine}
    (hr : (storeSystem device).Reach Obedient m) {p : Pid} {P : Process} (hP : m.proc p = some P)
    {dst : Nat} {src : List Byte} {answers : List FaultAnswer}
    (hlim : dst + src.length ≤ userAddrLimit) (hg : Granted m p dst src.length) {c : Copied}
    (hs : copyToUser device p dst src (m.ring0 answers) = some c) :
    c.halted = false ∧ LikeOwnStore p P.vmas dst src c.missed m c.s.m := by
  have hvm := storeSystem_vm hr
  obtain ⟨hr', hhalt, hcount, hdel⟩ :=
    copyToUser_delivered (s := m.ring0 answers) hvm (vmSystem_ok_of_discreet hvm) hlim hg hs
  obtain ⟨-, hiso⟩ := vmSystem_isolated hpmm hvm
  obtain ⟨hsound', hiso'⟩ := vmSystem_isolated hpmm hr'
  change Delivered p dst src c.bytes.length m c.s.m at hdel
  obtain ⟨P', hP', hvmas, hkeep, hbytes⟩ := hdel.self P hP
  refine ⟨hhalt, fun q hq a => ?_, fun i hi => ?_, fun a b hout hread => ?_,
    fun i v hfind hw hi => ?_⟩
  · obtain ⟨hproc, hlast⟩ := hdel.others q hq
    exact hiso.read_congr hiso' hproc hlast
  · have hi : i < c.bytes.length := by omega
    obtain ⟨⟨e, he, hpresent, hw⟩, -⟩ := hbytes i hi
    refine ⟨P', e, hP', he, fun hn => ?_⟩
    obtain ⟨v, -, hall⟩ := (hsound'.spaces p P' hP').ok.entry_covered he
    have huser := hall.user_of_writable hw
    have hread := readPrivate_of_entry hP' he hpresent huser hn
    rw [hdel.bytes i hi, hread, hiso'.read hread]
  · exact hiso.read_kept hiso' hP hP' (fun s e he => ⟨(hkeep s e he).1, fun ha =>
      (hkeep s e he).2 a ha (by omega)⟩) hread
  · by_contra hlt
    cases hw.symm.trans ((hbytes i (by omega)).2 v hfind)

/-- Two pages to write and one to read, and a fork; the first page is written before it. -/
def mapAndFork : List StoreAct :=
  [.vm (.mmap 1 0 0x2000 (protRead ||| protWrite) (mapPrivate ||| mapAnonymous) true true),
   .vm (.mmap 1 0 0x1000 protRead (mapPrivate ||| mapAnonymous) true true),
   .vm (.fault 1 mmapBase true (some 7) true),
   .vm (.write 1 mmapBase 0x41),
   .vm (.fork 1 2 none)]

def oneFrame : List FaultAnswer :=
  [⟨some 8, true, none, none, true, none⟩, ⟨none, true, none, none, true, none⟩]

/-- Two bytes for the child, of which the second falls on the page that it may only read. -/
theorem kernel_store_like_own_forked :
    ∃ (m : Machine) (P : Process) (c : Copied), (storeSystem beyondPmm).Reach Obedient m ∧
      m.proc 2 = some P ∧
      copyToUser beyondPmm 2 (mmapBase + 0x1fff) [1, 2] (m.ring0 oneFrame) = some c ∧
      c.missed = 1 ∧ c.halted = false ∧
      LikeOwnStore 2 P.vmas (mmapBase + 0x1fff) [1, 2] c.missed m c.s.m := by
  obtain ⟨m, hr, hP, hg, hc⟩ : ∃ m, (storeSystem beyondPmm).Reach Obedient m ∧
      ((m.proc 2).isSome = true ∧ Granted m 2 (mmapBase + 0x1fff) 2 ∧
        (copyToUser beyondPmm 2 (mmapBase + 0x1fff) [1, 2] (m.ring0 oneFrame)).any
          (fun c => c.missed = 1) = true) :=
    System.Reach.exists_of_run mapAndFork bootVm_init (by decide +kernel)
  obtain ⟨P, hP⟩ := isSome_iff_exists.1 hP
  obtain ⟨c, hc, hmissed⟩ := (any_eq_true ..).1 hc
  obtain ⟨hhalt, hlike⟩ := kernel_store_like_own (fun _ => lt_of_beyondPmm) hr hP (by decide) hg hc
  exact ⟨m, P, c, hr, hP, hc, of_decide_eq_true hmissed, hhalt, hlike⟩

/-- One byte for the child, in the page that it shares copy-on-write, is read by the parent; and
a page of the parent's that was only ever mapped for reading takes a byte. -/
theorem kernel_store_ignores_protection :
    ∃ m : Machine, (storeSystem beyondPmm).Reach Obedient m ∧
      m.readPrivate 1 mmapBase = some 0x41 ∧
      ((copyToUser beyondPmm 2 mmapBase [0x42] (m.ring0 oneFrame)).any
        (fun c => c.s.m.readPrivate 1 mmapBase = some 0x42) = true) ∧
      m.readPrivate 1 (mmapBase + 0x2000) = some 0 ∧
      ((m.proc 1).any (fun P => (vmaFind P.vmas (mmapBase + 0x2000)).any
        (fun v => v.prot = protRead)) = true) ∧
      (copyToUser beyondPmm 1 (mmapBase + 0x2000) [0x42] (m.ring0 oneFrame)).any
        (fun c => c.missed = 0 ∧ c.s.m.readPrivate 1 (mmapBase + 0x2000) = some 0x42) = true :=
  System.Reach.exists_of_run
    (mapAndFork ++ [.vm (.fault 1 (mmapBase + 0x2000) false (some 9) true)])
    bootVm_init (by decide +kernel)

end NeoKernel.Vm
