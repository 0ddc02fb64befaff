import NeoKernel.Vm.Steps

/-!
# What frame counts must cover

`owed` are the references that page tables and pending frees hold. Every step changes the
count of a frame by as much as it changes what is owed; only a fork that fails at a private
page raises the count by more. `held` is what the kernel holds of a frame besides.
-/
namespace NeoKernel.Vm
open Lib Function Machine List Option Table

variable {g f : Frame} {alloc : Option Frame} {fail : ForkFail} {m₁ m m' : Machine}
  {device : Frame → Bool} {held : Frame → Nat} {p : Pid} {P Q : Process}

namespace Machine

def refs (m : Machine) (f : Frame) : Nat := m.procs.weigh fun _ P => refsIn P.pt f

def owed (m : Machine) (f : Frame) : Nat := m.refs f + m.deferred.count f

end Machine

/-- Device pages have device frames and are never copy-on-write, and no other page has. -/
structure Process.Sound (device : Frame → Bool) (P : Process) : Prop where
  ok : P.Ok False
  kinds : Pure P.vmas P.pt
  entries : ∀ s e, P.pt.lookup s = some e →
    e.nofree = device e.frame ∧ (e.nofree = true → e.cow = false)

structure Sound (device : Frame → Bool) (held : Frame → Nat) (m : Machine) : Prop where
  spaces : ∀ p P, m.procs.lookup p = some P → P.Sound device
  deferred : ∀ f ∈ m.deferred, device f = false
  bound : ∀ f, m.refcount f < 2 ^ 16
  owed : ∀ f, m.owed f + held f ≤ m.refcount f

/-- A step changes the count of each frame as it changes what is owed. -/
def Balanced (m m' : Machine) : Prop :=
  ∀ f, m'.refcount f + m.owed f = m.refcount f + m'.owed f

/-- A step that is balanced and keeps the counts above what is owed. -/
def Carried (device : Frame → Bool) (held : Frame → Nat) (m m' : Machine) : Prop :=
  Sound device held m' ∧ Balanced m m'

section Counts

variable {pt : PageTable} {test : Nat → Bool}

theorem count_privateFrames (test : Nat → Bool) (pt : PageTable) (f : Frame) :
    (privateFrames test pt).count f =
      pt.weigh fun s e => if test s then e.holds f else 0 := by
  unfold privateFrames Table.weigh
  induction pt.entries with
  | nil => rfl
  | cons x l ih =>
      cases ht : test x.1 with
      | false => simpa [ht] using ih
      | true =>
          cases hn : x.2.nofree with
          | true => simpa [ht, hn, Pte.holds_of_nofree hn] using ih
          | false =>
              simp only [filter_cons, ht, hn, Bool.not_false, Bool.and_self, if_true,
                map_cons, sum_cons, Pte.holds_eq_count hn, ← ih]
              rw [← singleton_append, count_append]

theorem count_allFrames (pt : PageTable) (f : Frame) :
    (privateFrames (fun _ => true) pt).count f = refsIn pt f := by
  rw [count_privateFrames]
  rfl

theorem alloc_refcount (h : m.refcount g = 0) :
    update m.refcount g 1 f = m.refcount f + [g].count f := by
  by_cases hf : f = g
  · subst hf
    simp [h]
  · simp [hf, Ne.symm hf]

theorem pmmFree_refcount (hg : g < pmmMaxFrames) (hpos : 1 ≤ m.refcount g)
    (hlt : m.refcount g < 2 ^ 16) :
    (m.pmmFree g).refcount f + [g].count f = m.refcount f := by
  unfold pmmFree
  rw [if_neg (not_le.2 hg)]
  by_cases hf : f = g
  · subst hf
    simp
    omega
  · simp [hf, Ne.symm hf]

theorem foldl_share_refcount (fs : List Frame) (m : Machine)
    (h : ∀ f ∈ fs, m.refcount f + fs.count f < 2 ^ 16) :
    (fs.foldl share m).refcount f = m.refcount f + fs.count f := by
  induction fs generalizing m with
  | nil => rfl
  | cons g fs ih =>
      have hg := h g mem_cons_self
      rw [count_cons_self] at hg
      have hshare : ∀ x, (m.share g).refcount x = m.refcount x + [g].count x := by
        intro x
        by_cases hx : x = g
        · subst hx
          simp [share]
          omega
        · simp [share, hx, Ne.symm hx]
      have hrest := ih (m.share g) fun x hx => by
        have hxs := h x (mem_cons_of_mem _ hx)
        rw [hshare, Nat.add_assoc, ← count_append, singleton_append]
        exact hxs
      rw [foldl_cons, hrest, hshare, Nat.add_assoc, ← count_append, singleton_append]

@[simp] theorem foldl_share_deferred (fs : List Frame) (m : Machine) :
    (fs.foldl share m).deferred = m.deferred := by
  induction fs generalizing m with
  | nil => rfl
  | cons f fs ih => exact ih _

@[simp] theorem pmmFree_deferred (f : Frame) : (m.pmmFree f).deferred = m.deferred := by
  unfold pmmFree
  split <;> rfl

theorem pmmFree_mem (f : Frame) : (m.pmmFree f).mem = m.mem := by
  unfold pmmFree
  split <;> rfl

theorem pmmFree_last (f : Frame) : (m.pmmFree f).last = m.last := by
  unfold pmmFree
  split <;> rfl

@[simp] theorem filled_refcount (p : Pid) (P : Process) (addr : Nat) (content : Nat → Byte) :
    (m.filled p P addr content).refcount = m.refcount := by
  unfold filled
  split <;> rfl

@[simp] theorem filled_deferred (p : Pid) (P : Process) (addr : Nat) (content : Nat → Byte) :
    (m.filled p P addr content).deferred = m.deferred := by
  unfold filled
  split <;> rfl

end Counts

theorem refs_insert {Q : Process} (m : Machine) (hm : m'.procs = m.procs.insert p Q) (f : Frame) :
    m'.refs f + ((m.procs.lookup p).elim 0 fun P => refsIn P.pt f) = m.refs f + refsIn Q.pt f := by
  unfold refs
  rw [hm]
  cases hP : m.procs.lookup p with
  | none =>
      rw [weigh_insert_of_none hP]
      dsimp only [elim_none]
      omega
  | some P =>
      rw [weigh_insert, weigh_of_lookup hP]
      dsimp only [elim_some]
      omega

theorem refs_replace (hP : m.procs.lookup p = some P) (hm : m'.procs = m.procs.insert p Q)
    (f : Frame) : m'.refs f + refsIn P.pt f = m.refs f + refsIn Q.pt f := by
  have h := refs_insert m hm f
  rw [hP] at h
  exact h

section

variable (h : Sound device held m)
include h

theorem Sound.spaces_insert (hQ : Q.Sound device) (hm : m'.procs = m.procs.insert p Q) {q : Pid}
    {R : Process} (hR : m'.procs.lookup q = some R) : R.Sound device := by
  rw [hm] at hR
  obtain ⟨-, rfl⟩ | ⟨-, hR⟩ := lookup_insert_cases hR
  · exact hQ
  · exact h.spaces q R hR

theorem Sound.unused {f : Frame} (hf : m.Free device f) : m.owed f = 0 ∧ held f = 0 := by
  have howed := h.owed f
  rw [hf.1] at howed
  omega

theorem Sound.of_balanced (hspaces : ∀ q R, m'.procs.lookup q = some R → R.Sound device)
    (hdef : ∀ f ∈ m'.deferred, device f = false) (hbound : ∀ f, m'.refcount f < 2 ^ 16)
    (hbal : Balanced m m') : Carried device held m m' := by
  refine ⟨⟨hspaces, hdef, hbound, fun f => ?_⟩, hbal⟩
  have := h.owed f
  have := hbal f
  omega

theorem Sound.carried : Carried device held m m := ⟨h, fun _ => rfl⟩

end

theorem Balanced.replace (hP : m.procs.lookup p = some P) (hm : m'.procs = m.procs.insert p Q)
    (h : ∀ f, m'.refcount f + refsIn P.pt f + m.deferred.count f =
      m.refcount f + refsIn Q.pt f + m'.deferred.count f) : Balanced m m' := by
  intro f
  have hrefs := refs_replace hP hm f
  have hf := h f
  unfold Machine.owed
  omega

section Calls

variable {alone : Frame → Prop} {fs : List Frame}

theorem exists_of_refsIn {pt : PageTable} (h : refsIn pt f ≠ 0) :
    ∃ s e, pt.lookup s = some e ∧ e.nofree = false ∧ e.frame = f := by
  by_contra hno
  refine h (weigh_eq_zero fun s e he => if_neg fun hf => hno ⟨s, e, he, hf⟩)

theorem Process.Sound.not_device (h : P.Sound device) (hf : refsIn P.pt f ≠ 0) :
    device f = false := by
  obtain ⟨s, e, he, hn, rfl⟩ := exists_of_refsIn hf
  rw [← (h.entries s e he).1, hn]

theorem Process.Sound.reshaped (h : P.Sound device) (hr : Reshaped False device alone P Q fs) :
    Q.Sound device := by
  have hs := hr.shrunk h.kinds
  refine ⟨hr.ok, hs.kinds, fun s e' he' => ?_⟩
  rcases hs.table.kept s e' he' with ⟨hn, hdev, hcow⟩ | ⟨e, he, hframe, hnofree, hcow, -⟩
  · exact ⟨hn.trans hdev.symm, fun _ => hcow⟩
  · rw [hframe, hnofree, hcow]
    exact h.entries s e he

theorem Sound.call (h : Sound device held m) (hP : m.procs.lookup p = some P)
    (hr : Reshaped False device AnyFrame P Q fs) (hm : m'.procs = m.procs.insert p Q)
    (hcount : m'.refcount = m.refcount) (hdef : m'.deferred = m.deferred ++ fs) :
    Carried device held m m' := by
  have hPs := h.spaces p P hP
  have hs := hr.shrunk hPs.kinds
  refine h.of_balanced (fun q R hR => h.spaces_insert (hPs.reshaped hr) hm hR) ?_ ?_
    (.replace hP hm fun f => ?_)
  · intro f hf
    rw [hdef] at hf
    rcases mem_append.1 hf with hf | hf
    · exact h.deferred f hf
    · refine hPs.not_device ?_
      have hpos := count_pos_iff.2 hf
      have hbalance := hs.table.balance f
      omega
  · rw [hcount]
    exact h.bound
  · rw [hcount, hdef, count_append, ← hs.table.balance f]
    omega

theorem Sound.same (h : Sound device held m) (hm : m'.procs = m.procs)
    (hcount : m'.refcount = m.refcount) (hdef : m'.deferred = m.deferred) :
    Carried device held m m' := by
  refine h.of_balanced (fun q R hR => h.spaces q R (hm ▸ hR)) ?_ ?_ fun f => ?_
  · rw [hdef]
    exact h.deferred
  · rw [hcount]
    exact h.bound
  · unfold Machine.owed refs
    rw [hm, hcount, hdef]

end Calls

section Faults

variable {addr : Nat} {v : Vma} {e : Pte}

theorem Process.Sound.insert (h : P.Sound device) (hfind : vmaFind P.vmas addr = some v)
    (hall : Allowed False v e) (hphys : e.nofree = v.phys) (hdev : e.nofree = device e.frame)
    (hcow : e.nofree = true → e.cow = false) :
    { P with pt := P.pt.insert (pageOf addr) e }.Sound device := by
  obtain ⟨hv, hlo, hhi⟩ := vmaFind_mem hfind
  have hcov := (h.ok.space.laid.ok v hv).covers hlo hhi
  refine ⟨h.ok.insert hfind hall, h.kinds.insert fun w hw hcw => ?_, fun s e' he' => ?_⟩
  · rw [h.ok.space.laid.eq_of_covers hw hv hcw hcov, hphys]
  · obtain ⟨-, rfl⟩ | ⟨-, he'⟩ := lookup_insert_cases he'
    · exact ⟨hdev, hcow⟩
    · exact h.entries s e' he'

theorem Process.Ok.lookup_none (h : P.Ok False) (hfind : vmaFind P.vmas addr = some v)
    (hprot : v.prot ≠ protNone) (hpresent : (P.pt.lookup (pageOf addr)).any (·.present) = false) :
    P.pt.lookup (pageOf addr) = none := by
  cases he : P.pt.lookup (pageOf addr) with
  | none => rfl
  | some e =>
      exfalso
      obtain ⟨hv, hlo, hhi⟩ := vmaFind_mem hfind
      obtain ⟨w, hw, hcw, hall⟩ := h.space.covered _ e he
      cases h.space.laid.eq_of_covers hv hw ((h.space.laid.ok v hv).covers hlo hhi) hcw
      refine hprot (hall.parked ?_).1
      simpa [he] using hpresent

section

variable (h : Sound device held m)
include h

theorem Sound.setEntry (hP : m.procs.lookup p = some P)
    (hQ : { P with pt := P.pt.insert (pageOf addr) e }.Sound device)
    (hm : m'.procs = m.procs.insert p { P with pt := P.pt.insert (pageOf addr) e })
    (hdef : m'.deferred = m.deferred) (hbound : ∀ f, m'.refcount f < 2 ^ 16)
    (hcount : ∀ f, m'.refcount f + (P.pt.lookup (pageOf addr)).elim 0 (Pte.holds f) =
      m.refcount f + e.holds f) : Carried device held m m' := by
  refine h.of_balanced (fun q R hR => h.spaces_insert hQ hm hR) (hdef ▸ h.deferred) hbound
    (.replace hP hm fun f => ?_)
  have hrefs := refsIn_set P.pt (pageOf addr) e f
  have hf := hcount f
  rw [hdef]
  dsimp only
  omega

theorem Sound.bound_of_free (hg : m.Free device g)
    (hle : ∀ f, m'.refcount f ≤ m.refcount f + [g].count f) (f : Frame) :
    m'.refcount f < 2 ^ 16 := by
  have hf := hle f
  by_cases hfg : f = g
  · rw [hfg, hg.1, count_singleton_self] at hf
    rw [hfg]
    omega
  · have hzero : [g].count f = 0 := by simp [Ne.symm hfg]
    have := h.bound f
    omega

theorem Sound.mapped (hP : m.procs.lookup p = some P)
    {prot : Prot} (hg : m.Free device g)
    (hfind : vmaFind P.vmas addr = some v) (hphys : v.phys = false)
    (hnone : P.pt.lookup (pageOf addr) = none)
    (hm : m'.procs = m.procs.insert p { P with pt := P.pt.insert (pageOf addr) (userPage g prot) })
    (hcount : m'.refcount = update m.refcount g 1) (hdef : m'.deferred = m.deferred) :
    Carried device held m m' := by
  have hrc : ∀ f, m'.refcount f = m.refcount f + [g].count f := fun f => by
    rw [hcount, alloc_refcount hg.1]
  refine h.setEntry hP ?_ hm hdef (h.bound_of_free hg fun f => (hrc f).le) fun f => ?_
  · exact (h.spaces p P hP).insert hfind (allowed_userPage_of g nofun) hphys.symm hg.2.symm nofun
  · have hnew : (userPage g prot).holds f = [g].count f := Pte.holds_eq_count rfl
    rw [hnone, hrc, hnew]
    rfl

theorem Sound.fault {write tables : Bool} (hP : m.procs.lookup p = some P)
    (hs : m.fault device p P addr write alloc tables = some m') : Carried device held m m' := by
  obtain rfl | ⟨io, -, rfl⟩ | ⟨v, g, hg, hfind, hprot, hphys, -, habs, -, rfl⟩ :=
    fault_cases hs
  · exact h.carried
  · exact h.same rfl rfl rfl
  · have hnone := (h.spaces p P hP).ok.lookup_none hfind hprot habs
    exact h.mapped hP hg hfind hphys hnone (filled_procs _ _) (filled_refcount _ _ _ _)
      (filled_deferred _ _ _ _)

theorem Sound.install {k : Nat} {io : FaultIo} {content : Nat → Byte} {tables : Bool}
    (hP : m.procs.lookup p = some P)
    (hmap : ∀ v ∈ vmaFind P.vmas io.page, v.prot ≠ protNone ∧ v.phys = false)
    (hs : m.install device k p io P g content tables = some m') : Carried device held m m' := by
  obtain rfl | ⟨v, hg, hfind, -, habs, rfl⟩ := install_cases hs
  · exact h.same rfl rfl rfl
  · obtain ⟨hprot, hphys⟩ := hmap v hfind
    have hnone := (h.spaces p P hP).ok.lookup_none hfind hprot habs
    exact h.mapped hP hg hfind hphys hnone (filled_procs _ _) (filled_refcount _ _ _ _)
      (filled_deferred _ _ _ _)

end

theorem refsIn_le_refs (hP : m.procs.lookup p = some P) (f : Frame) : refsIn P.pt f ≤ m.refs f :=
  le_weigh (w := fun _ R => refsIn R.pt f) hP

theorem one_le_refs (hP : m.procs.lookup p = some P) {s : Nat} (he : P.pt.lookup s = some e)
    (hn : e.nofree = false) : 1 ≤ m.refs e.frame :=
  (one_le_refsIn he hn).trans (refsIn_le_refs hP _)

theorem Sound.one_le_refcount (h : Sound device held m) (hP : m.procs.lookup p = some P) {s : Nat}
    (he : P.pt.lookup s = some e) (hn : e.nofree = false) : 1 ≤ m.refcount e.frame := by
  have hrefs := one_le_refs hP he hn
  have howed := h.owed e.frame
  unfold Machine.owed at howed
  omega

theorem Process.Sound.granted (h : P.Sound device) (he : entry P addr = some e)
    (hu : e.user = true) (hcow : e.cow = true) : P.pt.lookup (pageOf addr) = some e ∧
      e.nofree = false ∧ ∀ f, device f = false →
        { P with pt := P.pt.insert (pageOf addr) (e.granted f) }.Sound device := by
  obtain ⟨v, hfind, hall⟩ := h.ok.entry_covered he
  have hlook := (lookup_of_entry he).2
  obtain ⟨hv, hlo, hhi⟩ := vmaFind_mem hfind
  have hphys := h.kinds v hv _ e ((h.ok.space.laid.ok v hv).covers hlo hhi) hlook
  have hn : e.nofree = false := Bool.eq_false_of_not_eq_true fun hn => by
    cases hcow.symm.trans ((h.entries _ e hlook).2 hn)
  exact ⟨hlook, hn, fun f hf => h.insert hfind (hall.granted hu nofun f) hphys
    (hn.trans hf.symm) fun _ => rfl⟩

theorem Sound.cowFault (hpmm : ∀ f, device f = false → f < pmmMaxFrames)
    (h : Sound device held m) (hP : m.procs.lookup p = some P)
    (hs : m.cowFault device p P addr alloc = some m') : Carried device held m m' := by
  have hPs := h.spaces p P hP
  obtain rfl | ⟨e, he, hu, hcow, hcases⟩ := cowFault_cases hs
  · exact h.carried
  obtain ⟨hlook, hn, hQ⟩ := hPs.granted he hu hcow
  have hdev : device e.frame = false := (hPs.entries _ e hlook).1.symm.trans hn
  obtain ⟨-, rfl⟩ | ⟨g, hg, rfl⟩ := hcases
  · refine h.setEntry hP (hQ _ hdev) rfl rfl h.bound fun f => ?_
    rw [hlook]
    rfl
  · have hpos := h.one_le_refcount hP hlook hn
    have hne : e.frame ≠ g := by
      rintro heq
      rw [heq, hg.1] at hpos
      omega
    have halloc : ∀ {Q f}, ((m.setProc p Q).alloc g (m.mem e.frame)).refcount f =
        m.refcount f + [g].count f := alloc_refcount hg.1
    have hsame : [g].count e.frame = 0 := by simp [Ne.symm hne]
    have hcount : ∀ {Q f}, (((m.setProc p Q).alloc g (m.mem e.frame)).pmmFree e.frame).refcount f +
        [e.frame].count f = m.refcount f + [g].count f := by
      intro Q f
      rw [pmmFree_refcount (hpmm _ hdev), halloc]
      · rw [halloc, hsame]
        exact hpos
      · rw [halloc, hsame]
        exact h.bound _
    refine h.setEntry hP (hQ g hg.2) (pmmFree_procs _) (pmmFree_deferred _)
      (h.bound_of_free hg fun f => hcount ▸ Nat.le_add_right _ _) fun f => ?_
    have hnew : (e.granted g).holds f = [g].count f := Pte.holds_eq_count hn
    rw [hlook, hnew, ← hcount, ← Pte.holds_eq_count hn]
    rfl

end Faults

section Fork

variable {c : Pid}

theorem Sound.leave (h : Sound device held m) (hP : m.procs.lookup p = some P) :
    Carried device held m ({ m with procs := m.procs.erase p }.defer
      (privateFrames (fun _ => true) P.pt)) := by
  have hPs := h.spaces p P hP
  refine h.of_balanced (fun q R hR => ?_) (fun f hf => ?_) h.bound fun f => ?_
  · exact h.spaces q R (lookup_erase_some hR).2
  · rcases mem_append.1 hf with hf | hf
    · exact h.deferred f hf
    · refine hPs.not_device ?_
      rw [← count_allFrames]
      exact (count_pos_iff.2 hf).ne'
  · have hrefs : m.refs f =
        refsIn P.pt f + Table.weigh (fun _ P => refsIn P.pt f) (m.procs.erase p) :=
      weigh_of_lookup hP
    change m.refcount f + (m.refs f + _) = m.refcount f +
      (Table.weigh (fun _ P => refsIn P.pt f) (m.procs.erase p) + (m.deferred ++ _).count f)
    rw [count_append, count_allFrames, hrefs]
    omega

theorem Sound.release (hpmm : ∀ f, device f = false → f < pmmMaxFrames) (h : Sound device held m)
    (hg : g ∈ m.deferred) :
    Carried device held m ({ m with deferred := m.deferred.erase g }.pmmFree g) := by
  have hcons : ∀ f, m.deferred.count f = [g].count f + (m.deferred.erase g).count f := fun f => by
    rw [(perm_cons_erase hg).count_eq f, ← count_append]
    rfl
  have hpos : 1 ≤ m.refcount g := by
    have howed := h.owed g
    have := count_pos_iff.2 hg
    unfold Machine.owed at howed
    omega
  have hcount : ∀ f, ({ m with deferred := m.deferred.erase g }.pmmFree g).refcount f +
      [g].count f = m.refcount f := fun f =>
    pmmFree_refcount (hpmm g (h.deferred g hg)) hpos (h.bound g)
  refine h.of_balanced (fun q R hR => ?_) (fun f hf => ?_) (fun f => ?_) fun f => ?_
  · rw [pmmFree_procs] at hR
    exact h.spaces q R hR
  · rw [pmmFree_deferred] at hf
    exact h.deferred f (mem_of_mem_erase hf)
  · have := hcount f
    have := h.bound f
    omega
  · have := hcount f
    have := hcons f
    unfold Machine.owed refs
    rw [pmmFree_procs, pmmFree_deferred]
    dsimp only
    omega

/-- The entry has the frame of `e`, and shares it in no other way if it is a device page. -/
structure Pte.Alike (e' e : Pte) : Prop where
  frame : e'.frame = e.frame
  nofree : e'.nofree = e.nofree
  cow : e.nofree = true → e'.cow = e.cow

theorem Pte.forkParent_alike (e : Pte) : e.forkParent.Alike e := by
  unfold Pte.forkParent
  split
  · exact ⟨rfl, rfl, fun _ => rfl⟩
  · next hn => split <;> exact ⟨rfl, rfl, fun h => absurd h hn⟩

theorem Pte.forked_alike (e : Pte) : e.forkParent.forkChild.Alike e := by
  obtain ⟨hframe, hnofree, hcow⟩ := e.forkParent_alike
  unfold Pte.forkChild
  split <;> exact ⟨hframe, hnofree, hcow⟩

theorem Pte.reached_alike (fail : ForkFail) (s : Nat) (e : Pte) :
    (if reached fail s then e.forkParent else e).Alike e := by
  split
  · exact e.forkParent_alike
  · exact ⟨rfl, rfl, fun _ => rfl⟩

theorem refsIn_adjust (pt : PageTable) {g : Nat → Pte → Pte} (hg : ∀ s e, (g s e).Alike e)
    (f : Frame) : refsIn (pt.adjust g) f = refsIn pt f := by
  unfold refsIn
  rw [weigh_adjust]
  exact weigh_congr fun x _ => Pte.holds_congr (hg _ _).frame (hg _ _).nofree

theorem Process.Sound.adjust {Q : Process} {g : Nat → Pte → Pte} (h : P.Sound device)
    (hQ : Q.Ok False) (hpt : Q.pt = P.pt.adjust g)
    (hvmas : ∀ w ∈ Q.vmas, ∃ v ∈ P.vmas, w.PieceOf v) (hg : ∀ s e, (g s e).Alike e) :
    Q.Sound device := by
  have hlook : ∀ s e', Q.pt.lookup s = some e' → ∃ e, P.pt.lookup s = some e ∧ e'.Alike e := by
    intro s e' he'
    rw [hpt, lookup_adjust] at he'
    obtain ⟨e, he, rfl⟩ := map_eq_some_iff.1 he'
    exact ⟨e, he, hg s e⟩
  refine ⟨hQ, h.kinds.pieces hvmas fun s e' he' => ?_, fun s e' he' => ?_⟩
  · obtain ⟨e, he, halike⟩ := hlook s e' he'
    exact ⟨e, he, halike.nofree⟩
  · obtain ⟨e, he, halike⟩ := hlook s e' he'
    rw [halike.frame, halike.nofree]
    exact ⟨(h.entries s e he).1, fun hn => (halike.cow hn).trans ((h.entries s e he).2 hn)⟩

theorem Process.Sound.forkParent (h : P.Sound device) (fail : ForkFail) :
    { P with pt := forkParentTable fail P.pt }.Sound device :=
  h.adjust (h.ok.forkParent fail) rfl (fun w hw => ⟨w, hw, .refl w⟩) (Pte.reached_alike fail)

theorem Process.Sound.forkChild (h : P.Sound device) :
    { P with vmas := P.vmas.map copyVma, pt := forkChildTable P.pt }.Sound device := by
  refine h.adjust h.ok.forkChild rfl (fun w hw => ?_) fun _ => Pte.forked_alike
  obtain ⟨v, hv, rfl⟩ := mem_map.1 hw
  exact ⟨v, hv, le_rfl, le_rfl, rfl⟩

theorem count_copied_le (fail : ForkFail) (pt : PageTable) (f : Frame) :
    (privateFrames (copied fail) pt).count f ≤
      (privateFrames (reached fail) pt).count f := by
  rw [count_privateFrames, count_privateFrames]
  refine sum_le_sum fun x _ => ?_
  cases fail with
  | none => exact le_rfl
  | some k =>
      by_cases hlt : x.1 < k
      · simp [copied, reached, hlt, hlt.le]
      · simp [copied, hlt]

theorem count_copied_eq {pt : PageTable}
    (h : ∀ k ∈ fail, ∀ e ∈ pt.lookup k, e.nofree = true) (f : Frame) :
    (privateFrames (copied fail) pt).count f =
      (privateFrames (reached fail) pt).count f := by
  rw [count_privateFrames, count_privateFrames]
  refine weigh_congr fun x hx => ?_
  cases fail with
  | none => rfl
  | some k =>
      rcases Nat.lt_trichotomy x.1 k with hlt | heq | hgt
      · simp [copied, reached, hlt, hlt.le]
      · have hn : x.2.nofree = true := h k rfl x.2 (heq ▸ mem_entries_iff.1 hx)
        simp [Pte.holds_of_nofree hn]
      · simp [copied, reached, not_lt.2 hgt.le, not_le.2 hgt]

/-- The parent has been changed and its private frames shared, up to where the fork fails. -/
structure Shared (m m₁ : Machine) (p : Pid) (P : Process) (fail : ForkFail) : Prop where
  procs : m₁.procs = m.procs.insert p { P with pt := forkParentTable fail P.pt }
  count : ∀ f, m₁.refcount f =
    m.refcount f + (privateFrames (reached fail) P.pt).count f
  bound : ∀ f, m₁.refcount f < 2 ^ 16
  deferred : m₁.deferred = m.deferred

theorem Sound.shared (h : Sound device held m) (P : Process)
    (hbound : ∀ f ∈ privateFrames (reached fail) P.pt,
      m.refcount f + (privateFrames (reached fail) P.pt).count f < 2 ^ 16) :
    Shared m ((privateFrames (reached fail) P.pt).foldl share
      (m.setProc p { P with pt := forkParentTable fail P.pt })) p P fail := by
  have hcount : ∀ f, _ = m.refcount f + (privateFrames (reached fail) P.pt).count f :=
    fun f => foldl_share_refcount _
      (m.setProc p { P with pt := forkParentTable fail P.pt }) hbound
  refine ⟨foldl_share_procs _, hcount, fun f => ?_, foldl_share_deferred _ _⟩
  rw [hcount]
  by_cases hf : f ∈ privateFrames (reached fail) P.pt
  · exact hbound f hf
  · rw [count_eq_zero_of_not_mem hf]
    exact h.bound f

theorem Shared.refs (h : Shared m m₁ p P fail)
    (hP : m.procs.lookup p = some P) (f : Frame) : m₁.refs f = m.refs f := by
  have hrefs := refs_replace hP h.procs f
  have hsame : refsIn (forkParentTable fail P.pt) f = refsIn P.pt f :=
    refsIn_adjust _ (Pte.reached_alike fail) f
  dsimp only at hrefs
  omega

theorem Shared.refs_child {m₂ : Machine} (hsh : Shared m m₁ p P none)
    (hP : m.procs.lookup p = some P) (hc : m.procs.lookup c = none)
    (hprocs : m₂.procs = m₁.procs.insert c
      { P with vmas := P.vmas.map copyVma, pt := forkChildTable P.pt })
    (f : Frame) : m₂.refs f = m.refs f + refsIn P.pt f := by
  have hne : c ≠ p := by
    rintro rfl
    cases hc.symm.trans hP
  have hchild : m₁.procs.lookup c = none := by
    rw [hsh.procs, AList.lookup_insert_ne hne]
    exact hc
  have hrefs := refs_insert m₁ hprocs f
  rw [hchild] at hrefs
  dsimp only [elim_none] at hrefs
  have hsame : refsIn (forkChildTable P.pt) f = refsIn P.pt f :=
    refsIn_adjust _ (fun _ => Pte.forked_alike) f
  rw [hsh.refs hP] at hrefs
  omega

theorem Sound.fork_done {m₂ : Machine} (h : Sound device held m)
    (hP : m.procs.lookup p = some P) (hc : m.procs.lookup c = none) (hsh : Shared m m₁ p P none)
    (hprocs : m₂.procs = m₁.procs.insert c
      { P with vmas := P.vmas.map copyVma, pt := forkChildTable P.pt })
    (hcount : m₂.refcount = m₁.refcount) (hdef : m₂.deferred = m₁.deferred) :
    Carried device held m m₂ := by
  have hPs := h.spaces p P hP
  refine h.of_balanced (fun q R hR => ?_) ?_ ?_ fun f => ?_
  · rw [hprocs] at hR
    obtain ⟨-, rfl⟩ | ⟨-, hR⟩ := lookup_insert_cases hR
    · exact hPs.forkChild
    · exact h.spaces_insert (hPs.forkParent none) hsh.procs hR
  · rw [hdef, hsh.deferred]
    exact h.deferred
  · rw [hcount]
    exact hsh.bound
  · have hall : (privateFrames (reached none) P.pt).count f = refsIn P.pt f :=
      count_allFrames P.pt f
    have hrefs := hsh.refs_child hP hc hprocs f
    unfold Machine.owed
    rw [hcount, hdef, hsh.count, hsh.deferred, hall]
    omega

/-- A fork that fails leaves the count of a frame too high by what it shared at the page where
it failed. -/
theorem Sound.fork_failed (h : Sound device held m)
    (hP : m.procs.lookup p = some P) (hsh : Shared m m₁ p P fail) :
    Sound device held (m₁.defer (privateFrames (copied fail) P.pt)) ∧
      ((∀ k ∈ fail, ∀ e ∈ P.pt.lookup k, e.nofree = true) →
        Balanced m (m₁.defer (privateFrames (copied fail) P.pt))) := by
  have hPs := h.spaces p P hP
  have howed : ∀ f, (m₁.defer (privateFrames (copied fail) P.pt)).owed f =
      m.owed f + (privateFrames (copied fail) P.pt).count f := fun f => by
    change m₁.refs f + (m₁.deferred ++ _).count f = _
    rw [hsh.refs hP, hsh.deferred, count_append]
    unfold Machine.owed
    omega
  refine ⟨⟨fun q R hR => ?_, fun f hf => ?_, hsh.bound, fun f => ?_⟩, fun htidy f => ?_⟩
  · exact h.spaces_insert (hPs.forkParent fail) hsh.procs hR
  · change f ∈ m₁.deferred ++ _ at hf
    rw [hsh.deferred] at hf
    rcases mem_append.1 hf with hf | hf
    · exact h.deferred f hf
    · obtain ⟨x, hx, rfl⟩ := mem_map.1 hf
      obtain ⟨hx, hx'⟩ := mem_filter.1 hx
      have hn : x.2.nofree = false := by simpa using (Bool.and_eq_true_iff.1 hx').2
      rw [← (hPs.entries x.1 x.2 (mem_entries_iff.1 hx)).1, hn]
  · rw [howed]
    change _ ≤ m₁.refcount f
    have := count_copied_le fail P.pt f
    have := h.owed f
    rw [hsh.count]
    omega
  · rw [howed]
    change m₁.refcount f + _ = _
    rw [hsh.count, count_copied_eq htidy]
    omega

theorem Sound.fork (h : Sound device held m) (hP : m.procs.lookup p = some P)
    (hc : m.procs.lookup c = none)
    (hbound : ∀ f ∈ privateFrames (reached fail) P.pt,
      m.refcount f + (privateFrames (reached fail) P.pt).count f < 2 ^ 16) :
    Sound device held (m.fork p c P fail) ∧
      ((∀ k ∈ fail, ∀ e ∈ P.pt.lookup k, e.nofree = true) → Balanced m (m.fork p c P fail)) := by
  have hsh := h.shared (p := p) P hbound
  unfold Machine.fork
  dsimp only
  split
  · next hfail =>
      subst hfail
      refine And.imp id (fun hbal _ => hbal) ?_
      exact h.fork_done hP hc hsh rfl rfl rfl
  · exact h.fork_failed hP hsh

end Fork

/-- A fork finds no count at its limit, and a page read from a file is installed where access
is allowed and the pages are not device pages. -/
def Mild (m : Machine) : VmAct → Prop
  | .fork p _ fail => ∀ P ∈ m.proc p, ∀ f ∈ privateFrames (reached fail) P.pt,
      m.refcount f + (privateFrames (reached fail) P.pt).count f < 2 ^ 16
  | .install k _ _ _ => ∀ x ∈ m.ios[k]?, ∀ P ∈ m.proc x.1, ∀ v ∈ vmaFind P.vmas x.2.page,
      v.prot ≠ protNone ∧ v.phys = false
  | _ => True

/-- A fork does not fail at a private page. -/
def Tidy (m : Machine) : VmAct → Prop
  | .fork p _ fail => ∀ P ∈ m.proc p, ∀ k ∈ fail, ∀ e ∈ P.pt.lookup k, e.nofree = true
  | _ => True

instance (m : Machine) : (a : VmAct) → Decidable (Mild m a)
  | .fork p .. => inferInstanceAs (Decidable (∀ P ∈ m.proc p, ∀ f ∈ _, _))
  | .install k .. => inferInstanceAs (Decidable (∀ x ∈ m.ios[k]?, ∀ P ∈ m.proc x.1, ∀ v ∈ _, _))
  | .mmap .. | .mmapFile .. | .mapFrames .. | .mapPhys .. | .munmap .. | .mprotect .. | .mremap ..
  | .fault .. | .ioFail .. | .cowFault .. | .write .. | .exit .. | .release .. =>
      inferInstanceAs (Decidable True)

instance (m : Machine) : (a : VmAct) → Decidable (Tidy m a)
  | .fork p _ fail => inferInstanceAs (Decidable (∀ P ∈ m.proc p, ∀ k ∈ fail, ∀ e ∈ _, _))
  | .mmap .. | .mmapFile .. | .mapFrames .. | .mapPhys .. | .munmap .. | .mprotect .. | .mremap ..
  | .fault .. | .install .. | .ioFail .. | .cowFault .. | .write .. | .exit .. | .release .. =>
      inferInstanceAs (Decidable True)

theorem vmStep_sound {device : Frame → Bool} {held : Frame → Nat} {m m' : Machine} {a : VmAct}
    (hpmm : ∀ f, device f = false → f < pmmMaxFrames) (h : Sound device held m) (hroom : Roomy m a)
    (hmild : Mild m a) (hs : vmStep device m a = some m') :
    Sound device held m' ∧ (Tidy m a → Balanced m m') := by
  have hall : Carried device held m m' →
      Sound device held m' ∧ (Tidy m a → Balanced m m') := fun h => ⟨h.1, fun _ => h.2⟩
  cases vmStep_moves hs with
  | call hP hc =>
      exact hall (h.call hP (hc.reshaped_any hP (h.spaces _ _ hP).ok hroom) rfl rfl rfl)
  | mremap => exact hall h.carried
  | fork hP hc =>
      obtain ⟨hsound, hbal⟩ := h.fork hP hc (hmild _ hP)
      exact ⟨hsound, fun htidy => hbal (htidy _ hP)⟩
  | fault hP hs => exact hall (h.fault hP hs)
  | install hx hP hs => exact hall (h.install hP (hmild _ hx _ hP) hs)
  | ioFail | write => exact hall (h.same rfl rfl rfl)
  | cowFault hP hs => exact hall (h.cowFault hpmm hP hs)
  | exit hP => exact hall (h.leave hP)
  | release hf => exact hall (h.release hpmm hf)

theorem VmInit.empty {m : Machine} (h : VmInit m) {p : Pid} {P : Process}
    (hP : m.procs.lookup p = some P) : P = ⟨[], mmapBase, ∅⟩ := by
  rw [h.procs] at hP
  obtain ⟨-, rfl⟩ | ⟨-, hP⟩ := lookup_insert_cases hP
  · rfl
  · cases hP

theorem VmInit.exact {m : Machine} (h : VmInit m) (f : Frame) : m.refcount f = m.owed f := by
  unfold Machine.owed refs
  rw [h.refcount, h.procs, h.deferred, weigh_insert_of_none (AList.lookup_empty _)]
  rfl

theorem VmInit.sound {device : Frame → Bool} {m : Machine} (h : VmInit m) :
    Sound device (fun _ => 0) m := by
  refine ⟨fun p P hP => ⟨h.ok p P hP, ?_, ?_⟩, ?_, fun f => ?_, fun f => (h.exact f).ge⟩
  · rw [h.empty hP]
    exact nofun
  · rw [h.empty hP]
    exact fun s e he => nomatch (AList.lookup_empty _).symm.trans he
  · rw [h.deferred]
    exact nofun
  · rw [h.refcount]
    decide

/-- The frames that pmm.c manages are those below its limit. -/
def beyondPmm (f : Frame) : Bool := pmmMaxFrames ≤ f

theorem lt_of_beyondPmm {f : Frame} (h : beyondPmm f = false) : f < pmmMaxFrames := by
  simpa [beyondPmm] using h

end NeoKernel.Vm
