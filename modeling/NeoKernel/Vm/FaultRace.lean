import NeoKernel.Lib.Trans
import NeoKernel.Lib.Update
import NeoKernel.Vm.Area

/-!
# Threads that fault on the same page

The threads of one process access anonymous memory. An access that finds its page absent
is a fault: `vma_fault_locked` runs some time later under `mm_lock`, and the access is made again
after it. Not in the program: `written`, the last completed write to each address, and `taken`,
the frames that faults have taken.
-/
namespace NeoKernel.Vm
open Lib Function Option AList

/-- An access of user code: the byte is what it writes, none if it reads. -/
structure UserAccess where
  addr : Nat
  byte : Option Byte
  deriving DecidableEq, Repr

inductive ThreadPc where
  | run
  /-- the access has found its page absent, and the handler has not run yet -/
  | faulted (x : UserAccess)
  | retry (x : UserAccess)
  | dead
  deriving DecidableEq, Repr

def ThreadPc.waitsFor : ThreadPc → Option Nat
  | .faulted x => some (pageOf x.addr)
  | _ => none

def ThreadPc.pending : ThreadPc → Option UserAccess
  | .faulted x | .retry x => some x
  | _ => none

structure Threads (θ : Type) where
  proc : Process
  mem : Frame → Nat → Byte
  taken : List Frame
  written : Nat → Option Byte
  pc : θ → ThreadPc

namespace Threads

variable {θ : Type} [DecidableEq θ]

def goto (m : Threads θ) (th : θ) (pc : ThreadPc) : Threads θ :=
  { m with pc := update m.pc th pc }

def complete (m : Threads θ) (e : Pte) (x : UserAccess) : Threads θ :=
  match x.byte with
  | none => m
  | some b =>
      { m with
        mem := update m.mem e.frame
          (update (m.mem e.frame) (x.addr % pageSize) b)
        written := update m.written x.addr (some b) }

def access (m : Threads θ) (th : θ) (x : UserAccess) : Threads θ :=
  match m.proc.pt.lookup (pageOf x.addr) with
  | none => m.goto th (.faulted x)
  | some e =>
      if !e.present then m.goto th (.faulted x)
      else if e.user && (e.writable || x.byte.isNone) then (m.complete e x).goto th .run
      else m.goto th .dead

/-- The handler runs; a frame that cannot be mapped is given back. -/
def handle (m : Threads θ) (th : θ) (x : UserAccess) (alloc : Option Frame) (tables : Bool) :
    Threads θ :=
  match vmaFaultLocked m.proc x.addr x.byte.isSome alloc tables with
  | .handled pt f =>
      { m with
        proc := { m.proc with pt := pt }
        mem := update m.mem f fun _ => 0
        taken := f :: m.taken }.goto th (.retry x)
  | _ => m.goto th .dead

end Threads

inductive ThreadAct (θ : Type) where
  | access (th : θ) (x : UserAccess)
  | handle (th : θ) (alloc : Option Frame) (tables : Bool)
  | retry (th : θ)

variable {θ : Type} [DecidableEq θ]

def threadStep (m : Threads θ) : ThreadAct θ → Option (Threads θ)
  | .access th x =>
      match m.pc th with
      | .run => if x.addr < userAddrLimit then some (m.access th x) else none
      | _ => none
  | .handle th alloc tables =>
      match m.pc th with
      -- `pmm_alloc` returns a frame that is not in use
      | .faulted x => if ∀ f ∈ alloc, f ∉ m.taken then some (m.handle th x alloc tables) else none
      | _ => none
  | .retry th =>
      match m.pc th with
      | .retry x => some (m.access th x)
      | _ => none

/-- Anonymous mappings of which no page has been touched. -/
structure Untouched (m : Threads θ) : Prop where
  anonymous : ∀ v ∈ m.proc.vmas, v.file = false
  pt : m.proc.pt = ∅
  taken : m.taken = []
  written : ∀ a, m.written a = none
  pc : ∀ th, m.pc th = .run

variable (θ) in
def threadSystem : System (Threads θ) (ThreadAct θ) where
  init := Untouched
  step := threadStep

def Threads.Quiet (m : Threads θ) (addr : Nat) : Prop :=
  ∀ th, (m.pc th).waitsFor ≠ some (pageOf addr)

/-- An access is made only while no fault on its page is outstanding. -/
def OneFault (m : Threads θ) : ThreadAct θ → Prop
  | .access _ x => m.Quiet x.addr
  | .retry th => ∀ x ∈ (m.pc th).pending, m.Quiet x.addr
  | .handle .. => True

/-- What the handler counts on: a page with a fault outstanding is absent and has only this one. -/
structure Faults (pc : θ → ThreadPc) (pt : PageTable) : Prop where
  absent : ∀ th s, (pc th).waitsFor = some s → pt.lookup s = none
  unique : ∀ s th th', (pc th).waitsFor = some s → (pc th').waitsFor = some s → th = th'
  below : ∀ th x, (pc th).pending = some x → x.addr < userAddrLimit

/-- Every frame is in one page, and the last completed write to an address is what its frame
holds. -/
structure Populated (m : Threads θ) : Prop extends Faults m.pc m.proc.pt where
  present : ∀ {s e}, m.proc.pt.lookup s = some e → e.present = true
  used : ∀ {s e}, m.proc.pt.lookup s = some e → e.frame ∈ m.taken
  single : ∀ {s s' e e'}, m.proc.pt.lookup s = some e → m.proc.pt.lookup s' = some e' →
    e.frame = e'.frame → s = s'
  kept : ∀ {a b}, m.written a = some b → a < userAddrLimit ∧
    ∃ e, m.proc.pt.lookup (pageOf a) = some e ∧ m.mem e.frame (a % pageSize) = b
  count : m.taken.length = m.proc.pt.entries.length

theorem addr_eq_of_page {a a' : Nat} (ha : a < userAddrLimit) (ha' : a' < userAddrLimit)
    (hpage : pageOf a = pageOf a') (hoff : a % pageSize = a' % pageSize) : a = a' := by
  unfold pageOf at hpage
  unfold userAddrLimit at ha ha'
  unfold pageSize at hpage hoff
  omega

variable {m : Threads θ} {th : θ} {pc : ThreadPc} {x : UserAccess}

/-- A thread goes on to `p`, and the table to `pt'`. -/
theorem Faults.update {pc : θ → ThreadPc} {p : ThreadPc} {pt pt' : PageTable} (h : Faults pc pt)
    (hself : ∀ s, p.waitsFor = some s →
      pt'.lookup s = none ∧ ∀ th', th' ≠ th → (pc th').waitsFor ≠ some s)
    (hother : ∀ th', th' ≠ th → ∀ s, (pc th').waitsFor = some s → pt'.lookup s = none)
    (hpend : ∀ y, p.pending = some y → y.addr < userAddrLimit) :
    Faults (update pc th p) pt' where
  absent := (forall_update_iff pc fun _ p => ∀ s, p.waitsFor = some s → pt'.lookup s = none).2
    ⟨fun s hs => (hself s hs).1, hother⟩
  unique s _ _ := unique_update (p := fun p : ThreadPc => p.waitsFor = some s) (h.unique s)
    fun hs => (hself s hs).2
  below := (forall_update_iff pc fun _ p => ∀ y, p.pending = some y → y.addr < userAddrLimit).2
    ⟨hpend, fun th' _ => h.below th'⟩

namespace Threads

theorem populated_goto (h : Populated m) (hwait : pc.waitsFor = none)
    (hpend : ∀ y, pc.pending = some y → y.addr < userAddrLimit) : Populated (m.goto th pc) := by
  refine { h with toFaults := h.toFaults.update (fun s hs => ?_) (fun th' _ => h.absent th') hpend }
  rw [hwait] at hs
  cases hs

theorem populated_fault (h : Populated m) (hquiet : m.Quiet x.addr)
    (habs : m.proc.pt.lookup (pageOf x.addr) = none) (hx : x.addr < userAddrLimit) :
    Populated (m.goto th (.faulted x)) := by
  refine { h with
    toFaults := h.toFaults.update (fun s hs => ?_) (fun th' _ => h.absent th') fun y hy => ?_ }
  · cases hs
    exact ⟨habs, fun th' _ => hquiet th'⟩
  · cases hy
    exact hx

omit [DecidableEq θ] in
theorem populated_complete (h : Populated m) {e : Pte}
    (he : m.proc.pt.lookup (pageOf x.addr) = some e) (hx : x.addr < userAddrLimit) :
    Populated (m.complete e x) := by
  unfold complete
  split
  · exact h
  next b _ =>
  refine { h with kept := fun {a c} hw => ?_ }
  dsimp only at hw ⊢
  by_cases ha : a = x.addr
  · subst ha
    rw [update_self] at hw
    refine ⟨hx, e, he, ?_⟩
    rw [update_self, update_self]
    exact some.inj hw
  · rw [update_of_ne ha] at hw
    obtain ⟨hlt, e', he', hbyte⟩ := h.kept hw
    refine ⟨hlt, e', he', ?_⟩
    by_cases hf : e'.frame = e.frame
    · have hpage := h.single he' he hf
      have hoff : a % pageSize ≠ x.addr % pageSize := fun hoff =>
        ha (addr_eq_of_page hlt hx hpage hoff)
      rw [hf, update_self, update_of_ne hoff, ← hf]
      exact hbyte
    · rw [update_of_ne hf]
      exact hbyte

theorem populated_access (h : Populated m) (hquiet : m.Quiet x.addr)
    (hx : x.addr < userAddrLimit) : Populated (m.access th x) := by
  unfold access
  split
  · next habs => exact populated_fault h hquiet habs hx
  · next e he =>
      split
      · next hp => exact absurd (h.present he) (by simpa using hp)
      split
      · exact populated_goto (populated_complete h he hx) rfl nofun
      · exact populated_goto h rfl nofun

theorem populated_handle (h : Populated m) {alloc : Option Frame} {tables : Bool}
    (hpc : m.pc th = .faulted x) (hfresh : ∀ f ∈ alloc, f ∉ m.taken) :
    Populated (m.handle th x alloc tables) := by
  unfold handle
  split
  case h_2 => exact populated_goto h rfl nofun
  next pt f hhandled =>
  obtain ⟨v, _, halloc, _, _, rfl⟩ := vmaFaultLocked_handled hhandled
  have hf : f ∉ m.taken := hfresh f halloc
  have hwait := congrArg ThreadPc.waitsFor hpc
  have habs : m.proc.pt.lookup (pageOf x.addr) = none := h.absent th _ hwait
  have hcases : ∀ {s e}, (m.proc.pt.insert (pageOf x.addr) (userPage f v.prot)).lookup s = some e →
      s = pageOf x.addr ∧ e = userPage f v.prot ∨
        s ≠ pageOf x.addr ∧ m.proc.pt.lookup s = some e ∧ e.frame ≠ f := by
    intro s e hs
    obtain ⟨hpage, he⟩ | ⟨hpage, hs⟩ := Table.lookup_insert_cases hs
    · exact .inl ⟨hpage, he.symm⟩
    · exact .inr ⟨hpage, hs, fun heq => hf (heq ▸ h.used hs)⟩
  constructor
  · refine h.toFaults.update nofun (fun th' hne s hs => ?_) fun y hy => ?_
    · -- a fault on the page itself would be a second one
      have hpage : s ≠ pageOf x.addr := fun he => hne (h.unique _ th' th (he ▸ hs) hwait)
      exact (lookup_insert_ne hpage).trans (h.absent th' s hs)
    · cases hy
      exact h.below th x (congrArg ThreadPc.pending hpc)
  · intro s e hs
    rcases hcases hs with ⟨_, rfl⟩ | ⟨_, hs, _⟩
    · rfl
    · exact h.present hs
  · intro s e hs
    rcases hcases hs with ⟨_, rfl⟩ | ⟨_, hs, _⟩
    · exact List.mem_cons_self
    · exact List.mem_cons_of_mem _ (h.used hs)
  · intro s s' e e' hs hs' heq
    rcases hcases hs with ⟨hpage, rfl⟩ | ⟨_, hold, hne⟩
    · rcases hcases hs' with ⟨hpage', _⟩ | ⟨_, _, hne⟩
      · exact hpage.trans hpage'.symm
      · exact absurd heq.symm hne
    · rcases hcases hs' with ⟨_, rfl⟩ | ⟨_, hold', _⟩
      · exact absurd heq hne
      · exact h.single hold hold' heq
  · intro a b hw
    obtain ⟨hlt, e, he, hbyte⟩ := h.kept hw
    have hpage : pageOf a ≠ pageOf x.addr := by
      intro heq
      rw [heq, habs] at he
      cases he
    have hframe : e.frame ≠ f := fun heq => hf (heq ▸ h.used he)
    refine ⟨hlt, e, (lookup_insert_ne hpage).trans he, ?_⟩
    exact (congrFun (update_of_ne hframe ..) _).trans hbyte
  · have hmem : pageOf x.addr ∉ m.proc.pt := lookup_eq_none.1 habs
    change (f :: m.taken).length =
      (m.proc.pt.insert (pageOf x.addr) (userPage f v.prot)).entries.length
    rw [entries_insert_of_notMem hmem, List.length_cons, List.length_cons, h.count]

end Threads

theorem threadStep_populated {m m' : Threads θ} {a : ThreadAct θ} (h : Populated m)
    (hok : OneFault m a) (hs : threadStep m a = some m') : Populated m' := by
  cases a with
  | access th x =>
      simp only [threadStep] at hs
      split at hs
      · obtain ⟨hx, hs⟩ := ite_none_right_eq_some.1 hs
        rw [← some.inj hs]
        exact Threads.populated_access h hok hx
      · cases hs
  | handle th alloc tables =>
      simp only [threadStep] at hs
      split at hs
      · next x hpc =>
          obtain ⟨hfresh, hs⟩ := ite_none_right_eq_some.1 hs
          rw [← some.inj hs]
          exact Threads.populated_handle h hpc hfresh
      · cases hs
  | retry th =>
      simp only [threadStep] at hs
      split at hs
      · next x hpc =>
          have hpend : (m.pc th).pending = some x := by rw [hpc]; rfl
          rw [← some.inj hs]
          exact Threads.populated_access h (hok x hpend) (h.below th x hpend)
      · cases hs

omit [DecidableEq θ] in
theorem Untouched.populated {m : Threads θ} (h : Untouched m) : Populated m := by
  have hrun : ∀ th s, (m.pc th).waitsFor ≠ some s := by
    intro th s
    rw [h.pc th]
    nofun
  have hempty : ∀ {s e}, m.proc.pt.lookup s ≠ some e := by
    intro s e
    rw [h.pt, lookup_empty]
    nofun
  refine ⟨⟨fun th s hs => absurd hs (hrun th s), fun s th _ hs => absurd hs (hrun th s),
    fun th x hx => ?_⟩, fun hs => absurd hs hempty, fun hs => absurd hs hempty,
    fun hs => absurd hs hempty, fun {a b} hw => ?_, ?_⟩
  · rw [h.pc th] at hx
    cases hx
  · rw [h.written a] at hw
    cases hw
  · rw [h.taken, h.pt]
    rfl

/-- As long as no access is made to a page on which another fault is outstanding, a fault
finds its page still absent when its handler runs, no completed write is lost, and as
many frames have been taken as pages are populated. -/
theorem populated_page_kept {m : Threads θ} (hr : (threadSystem θ).Reach OneFault m) :
    (∀ th x, m.pc th = .faulted x → m.proc.pt.lookup (pageOf x.addr) = none) ∧
      (∀ a b, m.written a = some b → ∃ e, m.proc.pt.lookup (pageOf a) = some e ∧
        m.mem e.frame (a % pageSize) = b) ∧
      m.taken.length = m.proc.pt.entries.length := by
  have h : Populated m := hr.invariant Populated (fun _ => Untouched.populated)
    (fun _ _ _ h hok hs => threadStep_populated h hok hs)
  refine ⟨fun th x hpc => ?_, fun a b hw => (h.kept hw).2, h.count⟩
  exact h.absent th _ (congrArg ThreadPc.waitsFor hpc)

instance [Fintype θ] (m : Threads θ) (addr : Nat) : Decidable (m.Quiet addr) :=
  inferInstanceAs (Decidable (∀ _, _))

instance [Fintype θ] (m : Threads θ) : (a : ThreadAct θ) → Decidable (OneFault m a)
  | .access _ x => inferInstanceAs (Decidable (m.Quiet x.addr))
  | .retry th => inferInstanceAs (Decidable (∀ x ∈ (m.pc th).pending, m.Quiet x.addr))
  | .handle .. => inferInstanceAs (Decidable True)

def twoThreads : Threads (Fin 2) where
  proc :=
    ⟨[freshVma 0x1000 0x2000 (protRead ||| protWrite) (mapPrivate ||| mapAnonymous)], mmapBase, ∅⟩
  mem _ _ := 0
  taken := []
  written _ := none
  pc _ := .run

theorem twoThreads_untouched : Untouched twoThreads :=
  ⟨by decide, rfl, rfl, fun _ => rfl, fun _ => rfl⟩

def inTurn : List (ThreadAct (Fin 2)) :=
  [.access 0 ⟨0x1000, some 7⟩, .handle 0 (some 5) true, .retry 0, .access 1 ⟨0x1001, some 9⟩]

theorem populated_page_kept_in_turn :
    ∃ m : Threads (Fin 2), (threadSystem (Fin 2)).Reach OneFault m ∧ m.written 0x1000 = some 7 ∧
      (∃ e, m.proc.pt.lookup (pageOf 0x1000) = some e ∧ m.mem e.frame (0x1000 % pageSize) = 7) ∧
        m.taken.length = m.proc.pt.entries.length := by
  refine System.Reach.exists_of_run_and inTurn twoThreads_untouched (by decide +kernel)
    fun m hr hw => ?_
  have h := populated_page_kept hr
  exact ⟨h.2.1 _ _ hw, h.2.2⟩

/-- Both threads find the page absent before either handler has run. -/
def atOnce : List (ThreadAct (Fin 2)) :=
  [.access 0 ⟨0x1000, some 7⟩, .access 1 ⟨0x1001, some 9⟩, .handle 0 (some 5) true, .retry 0,
   .handle 1 (some 6) true]

/-- The second handler maps a fresh frame over the first: the byte 7, whose write has
completed, reads as 0, and two frames have been taken for one page. -/
theorem second_fault_replaces_page :
    ∃ m : Threads (Fin 2), (threadSystem (Fin 2)).Reach (fun _ _ => True) m ∧
      m.written 0x1000 = some 7 ∧
      (m.proc.pt.lookup (pageOf 0x1000)).map (fun e => m.mem e.frame (0x1000 % pageSize)) = some 0 ∧
      m.taken.length = 2 ∧ m.proc.pt.entries.length = 1 :=
  System.Reach.exists_of_run atOnce twoThreads_untouched (by decide +kernel)

end NeoKernel.Vm
