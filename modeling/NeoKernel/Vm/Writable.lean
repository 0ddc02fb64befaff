import NeoKernel.Vm.Perm

/-!
# Is a range of user memory writable? (`user_range_writable` of kernel/mm/paging.c)

The answer is read off the page tables, so a page of a writable mapping that has not been touched
is refused, and a copy-on-write page is accepted whatever its mapping allows.
-/
namespace NeoKernel.Vm
open Lib Machine List Option

namespace Machine

/-- The pages of the range, one after another. `allocs` is what `pmm_alloc` answers to each
copy-on-write fault. -/
def writableLoop (device : Frame → Bool) (p : Pid) :
    List Nat → List (Option Frame) → Machine → Option (Machine × Bool)
  | [], _, m => some (m, true)
  | va :: vs, allocs, m =>
      (m.proc p).bind fun P =>
        match entry P va with
        | none => some (m, false)
        | some e =>
            if !(e.present && e.user) then some (m, false)
            else if e.writable then writableLoop device p vs allocs m
            else if !e.cow then some (m, false)
            else
              match allocs with
              | [] => none
              | x :: allocs =>
                  (m.cowFault device p P va x).bind fun m' =>
                    match e.cowFault (m.refcount e.frame) x with
                    | .refused => some (m', false)
                    | .upgrade _ | .copy _ => writableLoop device p vs allocs m'

def userRangeWritable (device : Frame → Bool) (p : Pid) (addr len : Nat)
    (allocs : List (Option Frame)) (m : Machine) : Option (Machine × Bool) :=
  if len = 0 then some (m, true)
  else if u64 (addr + len) < addr then some (m, false)
  else if u64 (addr + len) > userAddrLimit then some (m, false)
  else writableLoop device p (pages (pageDown addr) (u64 (addr + len))) allocs m

end Machine

/-- User code can write to the address, if need be after a copy of the page. -/
def Process.Ready (P : Process) (a : Nat) : Prop :=
  ∃ e ∈ entry P a, (e.present = true ∧ e.user = true) ∧ (e.writable = true ∨ e.cow = true)

def Process.MayWrite (P : Process) (a : Nat) : Prop :=
  ∃ v, vmaFind P.vmas a = some v ∧ v.prot.writable = true

def Process.Populated (P : Process) (a : Nat) : Prop := ∃ e ∈ entry P a, e.present = true

instance (P : Process) (a : Nat) : Decidable (P.MayWrite a) := decidable_of_iff _ (any_eq_true ..)

instance (P : Process) (a : Nat) : Decidable (P.Populated a) := decidable_of_iff _ (any_eq_true ..)

section Walk

variable {device : Frame → Bool} {m m' : Machine} {p : Pid} {P P₀ : Process} {addr len a va : Nat}
  {alloc : Option Frame} {allocs : List (Option Frame)} {vs : List Nat} {b : Bool}

theorem cowFault_elsewhere (hP : m.proc p = some P)
    (hs : m.cowFault device p P va alloc = some m') :
    ∃ P', m'.proc p = some P' ∧ ∀ a, pageOf a ≠ pageOf va → entry P' a = entry P a := by
  have hinsert : ∀ e a, pageOf a ≠ pageOf va →
      entry { P with pt := P.pt.insert (pageOf va) e } a = entry P a := by
    intro e a hne
    simp only [entry, AList.lookup_insert_ne hne]
  obtain rfl | ⟨e, -, -, -, ⟨-, rfl⟩ | ⟨g, -, rfl⟩⟩ := cowFault_cases hs
  · exact ⟨P, hP, fun _ _ => rfl⟩
  · exact ⟨_, AList.lookup_insert _, hinsert _⟩
  · refine ⟨_, ?_, hinsert (e.granted g)⟩
    rw [proc, pmmFree_procs]
    exact AList.lookup_insert _

/-- Each page is taken as it was when the walk began: the walk has been to other pages only. -/
theorem writableLoop_spec (hs : m.writableLoop device p vs allocs = some (m', b))
    (hP : m.proc p = some P) (hsame : ∀ va ∈ vs, entry P va = entry P₀ va)
    (hnd : (vs.map pageOf).Nodup) :
    (b = true → ∀ va ∈ vs, P₀.Ready va) ∧
      ((∀ va ∈ vs, P₀.Ready va) → none ∉ allocs → b = true) := by
  induction vs generalizing m P allocs with
  | nil =>
      cases hs
      exact ⟨fun _ => nofun, fun _ _ => rfl⟩
  | cons va vs ih =>
      obtain ⟨hne, hnd⟩ := nodup_cons.1 hnd
      obtain ⟨hva, hsame⟩ := forall_mem_cons.1 hsame
      rw [forall_mem_cons]
      have hstop : ¬P₀.Ready va → some (m, false) = some (m', b) →
          (b = true → P₀.Ready va ∧ ∀ va ∈ vs, P₀.Ready va) ∧
            ((P₀.Ready va ∧ ∀ va ∈ vs, P₀.Ready va) → none ∉ allocs → b = true) := by
        rintro hno ⟨⟩
        exact ⟨nofun, fun h => absurd h.1 hno⟩
      unfold writableLoop at hs
      rw [hP, bind_some, hva] at hs
      split at hs
      · next he =>
          refine hstop ?_ hs
          rintro ⟨e, he', -⟩
          cases he.symm.trans he'
      next e he =>
      have hready : P₀.Ready va ↔
          (e.present = true ∧ e.user = true) ∧ (e.writable = true ∨ e.cow = true) := by
        rw [Process.Ready, he]
        simp
      split_ifs at hs with hpu hw hcow
      · exact hstop (fun h => by simp [hready.1 h] at hpu) hs
      · rw [and_iff_right (hready.2 ⟨by simpa using hpu, .inl hw⟩)]
        exact ih hs hP hsame hnd
      · exact hstop (fun h => (hready.1 h).2.elim hw (by simpa using hcow)) hs
      have hpu : e.present = true ∧ e.user = true := by simpa using hpu
      have hcow : e.cow = true := by simpa using hcow
      rw [and_iff_right (hready.2 ⟨hpu, .inr hcow⟩)]
      cases allocs with
      | nil => cases hs
      | cons x allocs =>
          obtain ⟨m₁, hm₁, hs⟩ := bind_eq_some_iff.1 hs
          obtain ⟨P₁, hP₁, helse⟩ := cowFault_elsewhere hP hm₁
          have hrest : ∀ va ∈ vs, entry P₁ va = entry P₀ va := fun va' hva' =>
            (helse va' (ne_of_mem_of_not_mem (mem_map_of_mem hva') hne)).trans (hsame va' hva')
          rw [mem_cons, not_or]
          -- only for want of memory is the fault not handled
          have hfault : x ≠ none → e.cowFault (m.refcount e.frame) x ≠ .refused := by
            cases x with
            | none => exact fun h => absurd rfl h
            | some f =>
                by_cases hone : m.refcount e.frame = 1 <;>
                  simp [Pte.cowFault, hpu.1, hw, hcow, hone]
          split at hs
          · next href =>
              cases hs
              exact ⟨nofun, fun _ hmem => absurd href (hfault (Ne.symm hmem.1))⟩
          all_goals
            have hih := ih hs hP₁ hrest hnd
            exact ⟨hih.1, fun h hmem => hih.2 h hmem.2⟩

theorem lt_of_mem_pages {lo hi : Nat} (h : va ∈ pages lo hi) : va < hi := by
  obtain ⟨k, hk, rfl⟩ := mem_map.1 h
  rw [mem_range] at hk
  unfold pageSize at *
  omega

theorem Process.Ready.of_page (h : P.Ready va) (ha : a < userAddrLimit)
    (hpage : pageOf a = pageOf va) :
    P.Ready a := by
  obtain ⟨e, he, hbits⟩ := h
  refine ⟨e, ?_, hbits⟩
  rw [entry, if_pos ha, hpage]
  exact (lookup_of_entry he).2

theorem ready_pages (hlim : addr + len ≤ userAddrLimit) (hpos : 0 < len) :
    (∀ va ∈ pages (pageDown addr) (addr + len), P.Ready va) ↔
      ∀ a, addr ≤ a → a < addr + len → P.Ready a := by
  have hmem : ∀ s, s ∈ (pages (pageDown addr) (addr + len)).map pageOf ↔
      pageDown addr ≤ pageSize * s ∧ pageSize * s < addr + len :=
    fun _ => mem_pages (Dvd.intro_left _ rfl) (hlim.trans (by decide))
  unfold pageDown userAddrLimit at *
  constructor
  · intro h a hlo hhi
    obtain ⟨va, hva, hpage⟩ := mem_map.1 ((hmem (pageOf a)).2 (by
      unfold pageOf pageSize
      omega))
    exact (h va hva).of_page (hhi.trans_le hlim) hpage.symm
  · intro h va hva
    obtain ⟨hlo, hhi⟩ := (hmem _).1 (mem_map_of_mem hva)
    refine (h (max addr (pageSize * pageOf va)) (le_max_left _ _) (max_lt (by omega) hhi)).of_page
      ((lt_of_mem_pages hva).trans_le hlim) ?_
    unfold pageOf pageSize at *
    omega

/-- With memory for the copies, a range is accepted exactly if user code can write to all of it. -/
theorem userRangeWritable_iff (hP : m.proc p = some P) (haddr : addr < 2 ^ 64) (hlen : len < 2 ^ 64)
    (hmem : none ∉ allocs) (hs : m.userRangeWritable device p addr len allocs = some (m', b)) :
    b = true ↔ ∀ a, addr ≤ a → a < addr + len → P.Ready a := by
  by_cases hzero : len = 0
  · rw [userRangeWritable, if_pos hzero] at hs
    cases hs
    exact ⟨fun _ a hlo hhi => absurd hhi (by omega), fun _ => rfl⟩
  by_cases hfits : addr + len ≤ userAddrLimit
  · have hword : u64 (addr + len) = addr + len := by
      unfold u64
      unfold userAddrLimit at hfits
      omega
    rw [userRangeWritable, if_neg hzero, hword, if_neg (by omega), if_neg (by omega)] at hs
    have hwalk := writableLoop_spec hs hP (fun va _ => Eq.refl (entry P va))
      (pages_nodup (Dvd.intro_left _ rfl) (hfits.trans (by decide)))
    rw [ready_pages hfits (by omega)] at hwalk
    exact ⟨hwalk.1, fun h => hwalk.2 h hmem⟩
  · have hstop : b = false := by
      rw [userRangeWritable, if_neg hzero] at hs
      split_ifs at hs with hwrap hbig
      · cases hs
        rfl
      · cases hs
        rfl
      · unfold u64 at hwrap hbig
        omega
    refine ⟨fun hb => absurd (hstop.symm.trans hb) nofun, fun h => ?_⟩
    obtain ⟨e, he, -⟩ := h (addr + len - 1) (by omega) (by omega)
    have hlast := (lookup_of_entry he).1
    omega

/-- In every careful run, and with memory for the copies, `user_range_writable` accepts a range
exactly if the process may write all of it, under two conditions that are both needed. If user code
can write to all of the range, its copy-on-write pages lie in writable mappings. And if the process
may write all of the range, every page of it is there. -/
theorem range_writable_of_mappings (hr : (vmSystem device).Reach Careful m)
    (hP : m.procs.lookup p = some P) (haddr : addr < 2 ^ 64) (hlen : len < 2 ^ 64)
    (hmem : none ∉ allocs) (hs : m.userRangeWritable device p addr len allocs = some (m', b)) :
    ((b = true → ∀ a, addr ≤ a → a < addr + len → a < userAddrLimit ∧ P.MayWrite a) ∧
      ((∀ a, addr ≤ a → a < addr + len → P.MayWrite a) → b = true)) ↔
    ((∀ a, addr ≤ a → a < addr + len → P.Ready a) → ∀ a, addr ≤ a → a < addr + len →
      ∀ e ∈ Machine.entry P a, e.cow = true → P.MayWrite a) ∧
    ((∀ a, addr ≤ a → a < addr + len → P.MayWrite a) → ∀ a, addr ≤ a → a < addr + len →
      P.Populated a) := by
  have hok := vmSystem_ok hr p P hP
  rw [userRangeWritable_iff hP haddr hlen hmem hs]
  constructor
  · rintro ⟨honly, hall⟩
    refine ⟨fun h a hlo hhi _ _ _ => (honly h a hlo hhi).2, fun h a hlo hhi => ?_⟩
    obtain ⟨e, he, ⟨hpresent, -⟩, -⟩ := hall h a hlo hhi
    exact ⟨e, he, hpresent⟩
  · rintro ⟨hcow, hthere⟩
    refine ⟨fun h a hlo hhi => ?_, fun h a hlo hhi => ?_⟩
    · obtain ⟨e, he, -, hw | hc⟩ := h a hlo hhi
      · obtain ⟨v, hv, hgrants⟩ := hok.entry_covered he
        exact ⟨(lookup_of_entry he).1, v, hv, hgrants.write trivial hw⟩
      · exact ⟨(lookup_of_entry he).1, hcow h a hlo hhi e he hc⟩
    · obtain ⟨v, hv, hw⟩ := h a hlo hhi
      obtain ⟨e, he, hpresent⟩ := hthere h a hlo hhi
      obtain ⟨w, hw', hgrants⟩ := hok.entry_covered he
      cases hv.symm.trans hw'
      obtain ⟨huser, hready⟩ := hgrants.ready trivial hw
      exact ⟨e, he, ⟨hpresent, huser⟩, hready⟩

end Walk

theorem range_writable_after_fork :
    ∃ m m' P b, (vmSystem fun _ => false).Reach Careful m ∧ m.procs.lookup 1 = some P ∧
      (P.MayWrite mmapBase ∧ ∃ e ∈ Machine.entry P mmapBase, e.writable = false) ∧
      m.userRangeWritable (fun _ => false) 1 mmapBase 1 [some 6] = some (m', b) ∧ b = true := by
  obtain ⟨m, hr, hm⟩ : ∃ m, (vmSystem fun _ => false).Reach Careful m ∧
      (m.procs.lookup 1).any (fun P => (P.MayWrite mmapBase ∧ P.Populated mmapBase) ∧
        (entry P mmapBase).any (!·.writable)) = true ∧
      (m.userRangeWritable (fun _ => false) 1 mmapBase 1 [some 6]).isSome = true :=
    System.Reach.exists_of_run touchAndFork bootVm_init (by decide +kernel)
  obtain ⟨P, hP, hm'⟩ := (Option.any_eq_true ..).1 hm.1
  obtain ⟨⟨hmay, hpop⟩, hro⟩ := of_decide_eq_true hm'
  obtain ⟨e, he, hro⟩ := (Option.any_eq_true ..).1 hro
  obtain ⟨⟨m', b⟩, hs⟩ := isSome_iff_exists.1 hm.2
  have honly : ∀ {Q : Nat → Prop}, Q mmapBase → ∀ a, mmapBase ≤ a → a < mmapBase + 1 → Q a := by
    intro Q hQ a hlo hhi
    obtain rfl : a = mmapBase := by omega
    exact hQ
  have h := (range_writable_of_mappings hr hP (by decide) (by decide) (by decide) hs).2
    ⟨fun _ => honly fun _ _ _ => hmay, fun _ => honly hpop⟩
  exact ⟨m, m', P, b, hr, hP, ⟨hmay, e, he, by simpa using hro⟩, hs, h.2 (honly hmay)⟩

def mapOnly : List VmAct :=
  [.mmap 1 0 4096 (protRead ||| protWrite) (mapPrivate ||| mapAnonymous) true true]

def forkAndProtect : List VmAct := touchAndFork ++ [.mprotect 1 mmapBase 4096 protRead []]

/-- The page of a writable mapping is refused, and that of a read-only one is accepted. -/
theorem range_writable_of_pages :
    (∃ m P, (vmSystem fun _ => false).Reach Careful m ∧ m.procs.lookup 1 = some P ∧
      P.MayWrite mmapBase ∧
      (m.userRangeWritable (fun _ => false) 1 mmapBase 1 []).map (·.2) = some false) ∧
    ∃ m P, (vmSystem fun _ => false).Reach Careful m ∧ m.procs.lookup 1 = some P ∧
      ¬P.MayWrite mmapBase ∧
      (m.userRangeWritable (fun _ => false) 1 mmapBase 1 [some 6]).map (·.2) = some true := by
  constructor
  · obtain ⟨m, hr, hm⟩ : ∃ m, (vmSystem fun _ => false).Reach Careful m ∧
        (m.procs.lookup 1).any (fun P => P.MayWrite mmapBase) = true ∧
        (m.userRangeWritable (fun _ => false) 1 mmapBase 1 []).map (·.2) = some false :=
      System.Reach.exists_of_run mapOnly bootVm_init (by decide +kernel)
    obtain ⟨P, hP, hmay⟩ := (Option.any_eq_true ..).1 hm.1
    exact ⟨m, P, hr, hP, of_decide_eq_true hmay, hm.2⟩
  · obtain ⟨m, hr, hm⟩ : ∃ m, (vmSystem fun _ => false).Reach Careful m ∧
        (m.procs.lookup 1).any (fun P => ¬P.MayWrite mmapBase) = true ∧
        (m.userRangeWritable (fun _ => false) 1 mmapBase 1 [some 6]).map (·.2) = some true :=
      System.Reach.exists_of_run forkAndProtect bootVm_init (by decide +kernel)
    obtain ⟨P, hP, hmay⟩ := (Option.any_eq_true ..).1 hm.1
    exact ⟨m, P, hr, hP, of_decide_eq_true hmay, hm.2⟩

end NeoKernel.Vm
