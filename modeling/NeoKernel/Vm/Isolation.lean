import NeoKernel.Vm.Owed

/-!
# Private memory of one process is not seen by another

A private page that can be written has a frame to which nothing else refers, so a write changes
no other page. It needs that mprotect makes a page writable only if its frame is not shared, or
shared copy-on-write (`Separate`).
-/
namespace NeoKernel.Vm
open Lib Function Machine Option Table

namespace Machine

def Owns (m : Machine) (p : Pid) (s : Nat) (e : Pte) : Prop :=
  ∃ P, m.procs.lookup p = some P ∧ P.pt.lookup s = some e ∧ e.nofree = false

def readPrivate (m : Machine) (p : Pid) (addr : Nat) : Option Byte :=
  (m.proc p).bind fun P => (entry P addr).bind fun e =>
    if e.present && e.user && !e.nofree then some (m.mem e.frame (addr % pageSize)) else none

end Machine

structure Isolated (m : Machine) : Prop where
  alone : ∀ p s e, m.Owns p s e → e.writable = true → m.refs e.frame ≤ 1
  content : ∀ p s e, m.Owns p s e → ∀ a, a / pageSize = s →
    m.mem e.frame (a % pageSize) = m.last p a

variable {m m' : Machine} {p q : Pid} {e : Pte} {P Q : Process}

section Owners

variable {s t : Nat} {d : Pte}

theorem two_le_refs (h : m.Owns p s e) (h' : m.Owns q t d) (hframe : d.frame = e.frame)
    (hne : p ≠ q ∨ s ≠ t) : 2 ≤ m.refs e.frame := by
  obtain ⟨P, hP, he, hn⟩ := h
  obtain ⟨Q, hQ, hd, hn'⟩ := h'
  by_cases hpq : p = q
  · subst hpq
    cases hP.symm.trans hQ
    have htwo := add_le_weigh (w := fun _ x => x.holds e.frame)
      (hne.resolve_left (not_not.2 rfl)) he hd
    rw [Pte.holds_self hn, ← hframe, Pte.holds_self hn'] at htwo
    rw [← hframe]
    exact htwo.trans (refsIn_le_refs hP _)
  · have htwo := add_le_weigh (w := fun _ P => refsIn P.pt e.frame) hpq hP hQ
    have h₁ := one_le_refsIn he hn
    have h₂ := one_le_refsIn hd hn'
    rw [hframe] at h₂
    exact (Nat.add_le_add h₁ h₂).trans htwo

def Changes (m m' : Machine) (p : Pid) (Q : Process) : Prop :=
  ∀ q R, m'.procs.lookup q = some R → q = p ∧ R = Q ∨ q ≠ p ∧ m.procs.lookup q = some R

theorem Changes.insert (h : m'.procs = m.procs.insert p Q) : Changes m m' p Q := by
  intro q R hR
  rw [h] at hR
  exact (lookup_insert_cases hR).imp_left fun ⟨hq, hQ⟩ => ⟨hq, hQ.symm⟩

theorem Isolated.change (h : Isolated m) (hch : Changes m m' p Q)
    (hothers : ∀ q t d, q ≠ p → m.Owns q t d →
      (m.refs d.frame ≤ 1 → m'.refs d.frame ≤ 1) ∧ m'.mem d.frame = m.mem d.frame)
    (hlast : ∀ q, q ≠ p → m'.last q = m.last q)
    (hself : ∀ s e, Q.pt.lookup s = some e → e.nofree = false →
      (e.writable = true → m'.refs e.frame ≤ 1) ∧
        ∀ a, a / pageSize = s → m'.mem e.frame (a % pageSize) = m'.last p a) : Isolated m' := by
  constructor
  · rintro q t d ⟨R, hR, hd, hn⟩ hw
    rcases hch q R hR with ⟨rfl, rfl⟩ | ⟨hq, hR⟩
    · exact (hself t d hd hn).1 hw
    · exact (hothers q t d hq ⟨R, hR, hd, hn⟩).1 (h.alone q t d ⟨R, hR, hd, hn⟩ hw)
  · rintro q t d ⟨R, hR, hd, hn⟩ a ha
    rcases hch q R hR with ⟨rfl, rfl⟩ | ⟨hq, hR⟩
    · exact (hself t d hd hn).2 a ha
    · rw [(hothers q t d hq ⟨R, hR, hd, hn⟩).2, hlast q hq]
      exact h.content q t d ⟨R, hR, hd, hn⟩ a ha

theorem Isolated.setEntry (h : Isolated m) (hP : m.procs.lookup p = some P) (hch : Changes m m' p Q)
    (hQ : ∀ s d, Q.pt.lookup s = some d → s = t ∧ e = d ∨ s ≠ t ∧ P.pt.lookup s = some d)
    (hothers : ∀ {q s d}, m.Owns q s d → q ≠ p ∨ s ≠ t →
      (m.refs d.frame ≤ 1 → m'.refs d.frame ≤ 1) ∧ m'.mem d.frame = m.mem d.frame)
    (hlast : ∀ q a, q ≠ p ∨ a / pageSize ≠ t → m'.last q a = m.last q a)
    (hself : e.nofree = false → (e.writable = true → m'.refs e.frame ≤ 1) ∧
      ∀ a, a / pageSize = t → m'.mem e.frame (a % pageSize) = m'.last p a) : Isolated m' := by
  refine h.change hch (fun q s d hq hown => hothers hown (.inl hq))
    (fun q hq => funext fun a => hlast q a (.inl hq)) fun s d hd hn => ?_
  obtain ⟨rfl, rfl⟩ | ⟨hs, hd⟩ := hQ s d hd
  · exact hself hn
  · have hown : m.Owns p s d := ⟨P, hP, hd, hn⟩
    obtain ⟨hrefs, hmem⟩ := hothers hown (.inr hs)
    refine ⟨fun hw => hrefs (h.alone p s d hown hw), fun a ha => ?_⟩
    rw [hmem, hlast p a (.inr (ha ▸ hs))]
    exact h.content p s d hown a ha

end Owners

variable {device : Frame → Bool} {held : Frame → Nat}

section Calls

variable {fs : List Frame}

theorem Shrunk.refs_le {alone : Frame → Prop} (hP : m.procs.lookup p = some P)
    (hs : Shrunk device alone P Q fs) (hm : m'.procs = m.procs.insert p Q) (f : Frame) :
    m'.refs f ≤ m.refs f := by
  have hrefs := refs_replace hP hm f
  have hbal := hs.table.balance f
  omega

/-- Pages that stay keep what is in them, and become writable only if nothing else has their
frame. -/
theorem Isolated.call (h : Isolated m) (hsound : Sound device held m)
    (hP : m.procs.lookup p = some P) (hs : Shrunk device (fun f => m.refcount f = 1) P Q fs)
    (hm : m'.procs = m.procs.insert p Q) (hmem : m'.mem = m.mem) (hlast : m'.last = m.last) :
    Isolated m' := by
  have hle := hs.refs_le hP hm
  refine h.change (.insert hm) (fun q t d _ _ => ⟨(hle _).trans, by rw [hmem]⟩)
    (fun q _ => by rw [hlast]) fun s e' he' hn' => ?_
  rcases hs.table.kept s e' he' with ⟨hn, -⟩ | ⟨e, he, hframe, hnofree, -, hwrite⟩
  · cases hn'.symm.trans hn
  have hown : m.Owns p s e := ⟨P, hP, he, hnofree ▸ hn'⟩
  refine ⟨fun hw => ?_, fun a ha => ?_⟩
  · rw [hframe]
    refine (hle _).trans ?_
    rcases hwrite hw with hn | hw | hone
    · cases hn'.symm.trans (hnofree.trans hn)
    · exact h.alone p s e hown hw
    · have howed := hsound.owed e.frame
      unfold Machine.owed at howed
      omega
  · rw [hframe, hmem, hlast]
    exact h.content p s e hown a ha

end Calls

variable {addr : Nat}

section Faults

variable {v : Vma} {g : Frame} {content : Nat → Byte} {alloc : Option Frame}

theorem pageOf_of_lt (h : addr < userAddrLimit) : pageOf addr = addr / pageSize := by
  unfold pageOf
  unfold userAddrLimit at h
  unfold pageSize
  omega

theorem Sound.not_free (h : Sound device held m) {q : Pid} {s : Nat} (hown : m.Owns q s e)
    (hg : m.Free device g) : e.frame ≠ g := by
  rintro rfl
  obtain ⟨P, hP, he, hn⟩ := hown
  have hpos := h.one_le_refcount hP he hn
  rw [hg.1] at hpos
  omega

theorem Sound.refs_free (h : Sound device held m) (hg : m.Free device g) : m.refs g = 0 := by
  have howed := (h.unused hg).1
  unfold Machine.owed at howed
  omega

theorem Isolated.fresh (h : Isolated m) (hsound : Sound device held m)
    (hP : m.procs.lookup p = some P) (hg : m.Free device g)
    (hn : e.nofree = false) (hframe : e.frame = g)
    (hm : m'.procs = m.procs.insert p { P with pt := P.pt.insert (pageOf addr) e })
    (hmem : m'.mem = update m.mem g content)
    (hlast : ∀ q a, q ≠ p ∨ a / pageSize ≠ pageOf addr → m'.last q a = m.last q a)
    (hcontent : ∀ a, a / pageSize = pageOf addr → content (a % pageSize) = m'.last p a) :
    Isolated m' := by
  have hrefs : ∀ f, m'.refs f ≤ m.refs f + [g].count f := fun f => by
    have hreplace := refs_replace hP hm f
    have hset := refsIn_set P.pt (pageOf addr) e f
    rw [Pte.holds_eq_count hn, hframe] at hset
    dsimp only at hreplace
    omega
  refine h.setEntry hP (.insert hm) (fun s d hd => lookup_insert_cases hd)
    (fun {q s d} hown _ => ?_) hlast fun _ => ⟨fun _ => ?_, fun a ha => ?_⟩
  · have hne := hsound.not_free hown hg
    rw [hmem, update_of_ne hne]
    refine ⟨fun hd => (hrefs _).trans ?_, rfl⟩
    simpa [Ne.symm hne] using hd
  · have hle := hrefs g
    rw [hsound.refs_free hg, List.count_singleton_self] at hle
    rwa [hframe]
  · rw [hframe, hmem, update_self]
    exact hcontent a ha

theorem Isolated.mapped (h : Isolated m) (hsound : Sound device held m)
    (hP : m.procs.lookup p = some P) {prot : Prot}
    (hg : m.Free device g) (hlt : addr < userAddrLimit)
    (hm : m'.procs = m.procs.insert p { P with pt := P.pt.insert (pageOf addr) (userPage g prot) })
    (hmem : m'.mem = update m.mem g content)
    (hlast : m'.last = update m.last p fun a =>
      if a / pageSize = addr / pageSize then content (a % pageSize) else m.last p a) :
    Isolated m' := by
  rw [← pageOf_of_lt hlt] at hlast
  refine h.fresh (e := userPage g prot) hsound hP hg rfl rfl hm hmem (fun q a hout => ?_)
    fun a ha => ?_
  · rw [hlast]
    by_cases hq : q = p
    · rw [hq, update_self, if_neg (hout.resolve_left (not_not.2 hq))]
    · rw [update_of_ne hq]
  · rw [hlast, update_self, if_pos ha]

theorem filled_of_none (h : P.pt.lookup (pageOf addr) = none) :
    m.filled p P addr content = { m with last := update m.last p fun a =>
      if a / pageSize = addr / pageSize then content (a % pageSize) else m.last p a } := by
  unfold filled
  rw [h]
  rfl

theorem Isolated.fault {write tables : Bool} (h : Isolated m) (hsound : Sound device held m)
    (hP : m.procs.lookup p = some P) (hs : m.fault device p P addr write alloc tables = some m') :
    Isolated m' := by
  obtain rfl | ⟨io, -, rfl⟩ | ⟨v, g, hg, hfind, hprot, -, hlt, habs, -, rfl⟩ :=
    fault_cases hs
  · exact h
  · exact ⟨h.alone, h.content⟩
  · have hnone := (hsound.spaces p P hP).ok.lookup_none hfind hprot habs
    rw [filled_of_none hnone]
    exact h.mapped hsound hP hg hlt rfl rfl rfl

theorem Isolated.install {k : Nat} {io : FaultIo} {tables : Bool} (h : Isolated m)
    (hsound : Sound device held m) (hP : m.procs.lookup p = some P)
    (hmap : ∀ v ∈ vmaFind P.vmas io.page, v.prot ≠ protNone ∧ v.phys = false)
    (hs : m.install device k p io P g content tables = some m') : Isolated m' := by
  obtain rfl | ⟨v, hg, hfind, -, habs, rfl⟩ := install_cases hs
  · exact ⟨h.alone, h.content⟩
  · have hok := (hsound.spaces p P hP).ok
    have hnone := hok.lookup_none hfind (hmap v hfind).1 habs
    obtain ⟨hv, -, hhi⟩ := vmaFind_mem hfind
    have hlt : io.page < userAddrLimit := hhi.trans_le (hok.space.laid.ok v hv).limit
    rw [filled_of_none hnone]
    exact h.mapped hsound hP hg hlt rfl rfl rfl

theorem Isolated.write {b : Byte} (h : Isolated m) (hsound : Sound device held m)
    {e : Pte} (hP : m.procs.lookup p = some P) (he : entry P addr = some e)
    (hbits : (e.present && e.user && e.writable) = true) :
    Isolated { m with
      mem := update m.mem e.frame (update (m.mem e.frame) (addr % pageSize) b)
      last := update m.last p (update (m.last p) addr b) } := by
  obtain ⟨hlt, hlook⟩ := lookup_of_entry he
  have hw : e.writable = true := (Bool.and_eq_true_iff.1 hbits).2
  -- another private page has another frame
  have hne : ∀ {q s d}, m.Owns q s d → (q ≠ p ∨ s ≠ pageOf addr) → d.frame ≠ e.frame := by
    intro q s d hown hdiff hframe
    by_cases hn : e.nofree = false
    · have hown' : m.Owns p (pageOf addr) e := ⟨P, hP, hlook, hn⟩
      have htwo := two_le_refs hown' hown hframe
        (hdiff.imp (fun h => Ne.symm h) fun h => Ne.symm h)
      have hone := h.alone p _ e hown' hw
      omega
    · obtain ⟨R, hR, hd, hn'⟩ := hown
      refine hn ?_
      rw [((hsound.spaces p P hP).entries _ e hlook).1, ← hframe,
        ← ((hsound.spaces q R hR).entries s d hd).1, hn']
  refine h.setEntry (Q := P) (t := pageOf addr) (e := e) hP (fun q R hR => ?_) (fun s d hd => ?_)
    (fun hown hout => ⟨id, ?_⟩)
    (fun q a hout => ?_) fun hn => ⟨?_, fun a ha => ?_⟩
  · by_cases hq : q = p
    · rw [hq] at hR
      exact .inl ⟨hq, some.inj (hR.symm.trans hP)⟩
    · exact .inr ⟨hq, hR⟩
  · by_cases hs : s = pageOf addr
    · exact .inl ⟨hs, some.inj (hlook.symm.trans (hs ▸ hd))⟩
    · exact .inr ⟨hs, hd⟩
  · exact update_of_ne (hne hown hout) _ _
  · by_cases hq : q = p
    · have haddr : a ≠ addr := fun ha =>
        (hout.resolve_left (not_not.2 hq)) (by rw [ha, pageOf_of_lt hlt])
      dsimp only
      rw [hq, update_self, update_of_ne haddr]
    · exact congrFun (update_of_ne hq _ _) a
  · exact h.alone p _ e ⟨P, hP, hlook, hn⟩
  · dsimp only
    rw [update_self, update_self]
    by_cases haddr : a = addr
    · rw [haddr, update_self, update_self]
    · have hoff : a % pageSize ≠ addr % pageSize := fun heq => by
        rw [pageOf_of_lt hlt] at ha
        exact haddr (by rw [← Nat.div_add_mod a pageSize, ha, heq, Nat.div_add_mod])
      rw [update_of_ne hoff, update_of_ne haddr]
      exact h.content p _ e ⟨P, hP, hlook, hn⟩ a ha

theorem Isolated.cowFault (h : Isolated m) (hsound : Sound device held m)
    (hP : m.procs.lookup p = some P) (hs : m.cowFault device p P addr alloc = some m') :
    Isolated m' := by
  obtain rfl | ⟨e, he, hu, hcow, hcases⟩ := cowFault_cases hs
  · exact h
  obtain ⟨hlook, hn, -⟩ := (hsound.spaces p P hP).granted he hu hcow
  have hcontent := h.content p _ e ⟨P, hP, hlook, hn⟩
  obtain ⟨hone, rfl⟩ | ⟨g, hg, rfl⟩ := hcases
  · have hrefs (f : Frame) : refs (m.setProc p
        { P with pt := P.pt.insert (pageOf addr) (e.granted e.frame) }) f = m.refs f := by
      have hreplace := refs_replace hP (rfl : (m.setProc p
        { P with pt := P.pt.insert (pageOf addr) (e.granted e.frame) }).procs = _) f
      have hsame : refsIn (P.pt.insert (pageOf addr) (e.granted e.frame)) f = refsIn P.pt f :=
        refsIn_replace hlook rfl rfl f
      rw [hsame] at hreplace
      omega
    refine h.setEntry hP (.insert rfl) (fun s d hd => lookup_insert_cases hd)
      (fun hown _ => ⟨fun hd => (hrefs _).trans_le hd, rfl⟩) (fun _ _ _ => rfl)
      fun _ => ⟨fun _ => (hrefs _).trans_le ?_, hcontent⟩
    have howed := hsound.owed e.frame
    unfold Machine.owed at howed
    change m.refs e.frame ≤ 1
    omega
  · refine h.fresh (e := e.granted g) hsound hP hg hn rfl (pmmFree_procs _) (pmmFree_mem _)
      (fun q a _ => ?_) fun a ha => ?_
    · rw [pmmFree_last]
      rfl
    · rw [pmmFree_last]
      exact hcontent a ha

end Faults

section Fork

variable {c : Pid} {fail : ForkFail}

theorem Isolated.exit (h : Isolated m) (hP : m.procs.lookup p = some P) :
    Isolated ({ m with procs := m.procs.erase p }.defer
      (privateFrames (fun _ => true) P.pt)) := by
  have hrefs : ∀ f, Table.weigh (fun _ P => refsIn P.pt f) (m.procs.erase p) ≤ m.refs f :=
    fun f => by
      have hweigh : m.refs f =
          refsIn P.pt f + Table.weigh (fun _ P => refsIn P.pt f) (m.procs.erase p) :=
        weigh_of_lookup hP
      omega
  have howns : ∀ {q s d}, ({ m with procs := m.procs.erase p }.defer
      (privateFrames (fun _ => true) P.pt)).Owns q s d → m.Owns q s d := by
    rintro q s d ⟨R, hR, hd⟩
    exact ⟨R, (lookup_erase_some hR).2, hd⟩
  exact ⟨fun q s d hown hw => (hrefs _).trans (h.alone q s d (howns hown) hw),
    fun q s d hown => h.content q s d (howns hown)⟩

theorem Isolated.release (h : Isolated m) (g : Frame) :
    Isolated ({ m with deferred := m.deferred.erase g }.pmmFree g) := by
  have howns : ∀ {q s d}, ({ m with deferred := m.deferred.erase g }.pmmFree g).Owns q s d →
      m.Owns q s d := by
    rintro q s d ⟨R, hR, hd⟩
    rw [pmmFree_procs] at hR
    exact ⟨R, hR, hd⟩
  refine ⟨fun q s d hown hw => ?_, fun q s d hown => ?_⟩
  · unfold refs
    rw [pmmFree_procs]
    exact h.alone q s d (howns hown) hw
  · rw [pmmFree_mem, pmmFree_last]
    exact h.content q s d (howns hown)

theorem Pte.forkParent_writable {e : Pte} (hn : e.nofree = false) :
    e.forkParent.writable = false := by
  unfold Pte.forkParent
  rw [if_neg (by simp [hn])]
  split
  · rfl
  · next hw => exact Bool.eq_false_of_not_eq_true fun h => hw (by simp [h])

theorem Pte.forkChild_writable {e : Pte} (h : e.writable = false) :
    e.forkChild.writable = false := by
  unfold Pte.forkChild
  split
  · rfl
  · exact h

theorem lookup_forkParent {s : Nat} {d : Pte}
    (hd : (forkParentTable fail P.pt).lookup s = some d) (hn : d.nofree = false) :
    ∃ e, P.pt.lookup s = some e ∧ e.nofree = false ∧ d.frame = e.frame ∧
      (d.writable = true → e.writable = true ∧ reached fail s = false) := by
  unfold forkParentTable at hd
  rw [lookup_adjust] at hd
  obtain ⟨e, he, rfl⟩ := map_eq_some_iff.1 hd
  cases hr : reached fail s with
  | false =>
      simp only [hr, Bool.false_eq_true, if_false] at hn ⊢
      exact ⟨e, he, hn, rfl, fun hw => ⟨hw, trivial⟩⟩
  | true =>
      simp only [hr, if_true] at hn ⊢
      rw [e.forkParent_alike.nofree] at hn
      refine ⟨e, he, hn, e.forkParent_alike.frame, fun hw => ?_⟩
      rw [Pte.forkParent_writable hn] at hw
      cases hw

theorem lookup_forkChild {s : Nat} {d : Pte} (hd : (forkChildTable P.pt).lookup s = some d)
    (hn : d.nofree = false) :
    ∃ e, P.pt.lookup s = some e ∧ e.nofree = false ∧ d.frame = e.frame ∧ d.writable = false := by
  unfold forkChildTable at hd
  rw [lookup_adjust] at hd
  obtain ⟨e, he, rfl⟩ := map_eq_some_iff.1 hd
  rw [e.forked_alike.nofree] at hn
  exact ⟨e, he, hn, e.forked_alike.frame, Pte.forkChild_writable (Pte.forkParent_writable hn)⟩

theorem foldl_share_mem (fs : List Frame) (m : Machine) :
    (fs.foldl share m).mem = m.mem ∧ (fs.foldl share m).last = m.last := by
  induction fs generalizing m with
  | nil => exact ⟨rfl, rfl⟩
  | cons f fs ih => exact ih _

/-- After a fork neither side can write to a private page, and what the child has in its pages
is what its parent had. -/
theorem Isolated.fork_done {m₁ m₂ : Machine} (h : Isolated m) (hP : m.procs.lookup p = some P)
    (hc : m.procs.lookup c = none) (hsh : Shared m m₁ p P none)
    (hprocs : m₂.procs = m₁.procs.insert c
      { P with vmas := P.vmas.map copyVma, pt := forkChildTable P.pt })
    (hmem : m₂.mem = m.mem) (hlast : m₂.last = update m.last c (m.last p)) :
    Isolated m₂ := by
  have hrefs := hsh.refs_child hP hc hprocs
  -- the owner of a private page before the fork, and whether the page can be written
  have howns : ∀ {q s d}, m₂.Owns q s d → ∃ q' e, m.Owns q' s e ∧ d.frame = e.frame ∧
      m₂.last q = m.last q' ∧ (d.writable = true → q' ≠ p ∧ e.writable = true) := by
    rintro q s d ⟨R, hR, hd, hn⟩
    rw [hprocs] at hR
    by_cases hqc : q = c
    · rw [hqc, AList.lookup_insert] at hR
      cases hR
      obtain ⟨e, he, hn', hframe, hw⟩ := lookup_forkChild hd hn
      refine ⟨p, e, ⟨P, hP, he, hn'⟩, hframe, ?_, fun hw' => ?_⟩
      · rw [hlast, hqc, update_self]
      · cases hw.symm.trans hw'
    rw [AList.lookup_insert_ne hqc, hsh.procs] at hR
    have hsame : m₂.last q = m.last q := by rw [hlast, update_of_ne hqc]
    obtain ⟨hqp, rfl⟩ | ⟨hqp, hR⟩ := lookup_insert_cases hR
    · obtain ⟨e, he, hn', hframe, hw⟩ := lookup_forkParent hd hn
      refine ⟨p, e, ⟨P, hP, he, hn'⟩, hframe, hqp ▸ hsame, fun hw' => ?_⟩
      cases (hw hw').2
    · exact ⟨q, d, ⟨R, hR, hd, hn⟩, rfl, hsame, fun hw => ⟨hqp, hw⟩⟩
  refine ⟨fun q s d hown hw => ?_, fun q s d hown a ha => ?_⟩
  · obtain ⟨q', e, hown', hframe, -, hwrite⟩ := howns hown
    obtain ⟨hq', hw'⟩ := hwrite hw
    have hone := h.alone q' s e hown' hw'
    obtain ⟨R, hR, he, hn⟩ := hown'
    have htwo := add_le_weigh (w := fun _ R => refsIn R.pt e.frame) hq' hR hP
    have hpos := one_le_refsIn he hn
    have hrest : refsIn R.pt e.frame + refsIn P.pt e.frame ≤ m.refs e.frame := htwo
    rw [hframe, hrefs]
    omega
  · obtain ⟨q', e, hown', hframe, hl, -⟩ := howns hown
    rw [hframe, hmem, hl]
    exact h.content q' s e hown' a ha

theorem Isolated.fork_failed {m₁ : Machine} (h : Isolated m) (hP : m.procs.lookup p = some P)
    (hsh : Shared m m₁ p P fail) (hmem : m₁.mem = m.mem) (hlast : m₁.last = m.last)
    (fs : List Frame) : Isolated (m₁.defer fs) := by
  refine h.change (.insert hsh.procs)
    (fun q t d _ _ => ⟨fun hd => (hsh.refs hP _).trans_le hd, congrFun hmem _⟩)
    (fun q _ => congrFun hlast q) fun s d hd hn => ?_
  obtain ⟨e, he, hn', hframe, hw⟩ := lookup_forkParent hd hn
  have hown : m.Owns p s e := ⟨P, hP, he, hn'⟩
  rw [hframe]
  refine ⟨fun hw' => (hsh.refs hP _).trans_le (h.alone p s e hown (hw hw').1), fun a ha => ?_⟩
  change m₁.mem e.frame _ = m₁.last p a
  rw [hmem, hlast]
  exact h.content p s e hown a ha

theorem Isolated.fork (h : Isolated m) (hsound : Sound device held m)
    (hP : m.procs.lookup p = some P) (hc : m.procs.lookup c = none)
    (hbound : ∀ f ∈ privateFrames (reached fail) P.pt,
      m.refcount f + (privateFrames (reached fail) P.pt).count f < 2 ^ 16) :
    Isolated (m.fork p c P fail) := by
  have hsh := hsound.shared (p := p) P hbound
  obtain ⟨hmem, hlast⟩ := foldl_share_mem (privateFrames (reached fail) P.pt)
    (m.setProc p { P with pt := forkParentTable fail P.pt })
  unfold Machine.fork
  dsimp only
  split
  · next hfail =>
      subst hfail
      exact h.fork_done hP hc hsh rfl hmem rfl
  · exact h.fork_failed hP hsh hmem hlast _

end Fork

/-- mprotect makes a private page writable only if it is so already, or copy-on-write, or the
only one with its frame. -/
def Separate (m : Machine) : VmAct → Prop
  | .mprotect p addr len prot _ => prot.writable = true → ∀ P ∈ m.proc p, ∀ x ∈ P.pt.entries,
      addr ≤ pageSize * x.1 → pageSize * x.1 < pageUp (u64 (addr + len)) →
        x.2.nofree = true ∨ x.2.cow = true ∨ x.2.writable = true ∨ m.refcount x.2.frame = 1
  | _ => True

instance (m : Machine) : (a : VmAct) → Decidable (Separate m a)
  | .mprotect p .. => inferInstanceAs (Decidable (_ → ∀ P ∈ m.proc p, ∀ x ∈ P.pt.entries,
      _ → _ → _))
  | .mmap .. | .mmapFile .. | .mapFrames .. | .mapPhys .. | .munmap .. | .mremap .. | .fork ..
  | .fault .. | .install .. | .ioFail .. | .cowFault .. | .write .. | .exit .. | .release .. =>
      inferInstanceAs (Decidable True)

/-- Calls find room, forks and installed pages are as in `Mild`, and mprotect as in `Separate`. -/
def Discreet (m : Machine) (a : VmAct) : Prop := Roomy m a ∧ Mild m a ∧ Separate m a

instance (m : Machine) (a : VmAct) : Decidable (Discreet m a) :=
  inferInstanceAs (Decidable (_ ∧ _ ∧ _))

theorem vmStep_isolated {held : Frame → Nat} {m' : Machine} {a : VmAct} (h : Isolated m)
    (hsound : Sound device held m) (hok : Discreet m a) (hs : vmStep device m a = some m') :
    Isolated m' := by
  obtain ⟨hroom, hmild, hsep⟩ := hok
  cases vmStep_moves hs with
  | call hP hc =>
      have hPs := hsound.spaces _ _ hP
      refine h.call hsound hP ((hc.reshaped hP hPs.ok hroom ?_).shrunk hPs.kinds) rfl rfl rfl
      rintro addr len prot ks rfl hw s e hlo hhi he
      exact hsep hw _ hP ⟨s, e⟩ (mem_entries_iff.2 he) hlo hhi
  | mremap => exact h
  | fork hP hc => exact h.fork hsound hP hc (hmild _ hP)
  | fault hP hs => exact h.fault hsound hP hs
  | install hx hP hs => exact h.install hsound hP (hmild _ hx _ hP) hs
  | ioFail => exact ⟨h.alone, h.content⟩
  | cowFault hP hs => exact h.cowFault hsound hP hs
  | write _ hP he hbits => exact h.write hsound hP he hbits
  | exit hP => exact h.exit hP
  | release => exact h.release _

theorem VmInit.isolated (h : VmInit m) : Isolated m := by
  have hnone : ∀ {p s e}, ¬ m.Owns p s e := by
    rintro p s e ⟨P, hP, he, -⟩
    rw [h.empty hP] at he
    cases (AList.lookup_empty _).symm.trans he
  exact ⟨fun p s e hown => absurd hown hnone, fun p s e hown => absurd hown hnone⟩

theorem vmSystem_isolated (hpmm : ∀ f, device f = false → f < pmmMaxFrames)
    (hr : (vmSystem device).Reach Discreet m) : Sound device (fun _ => 0) m ∧ Isolated m :=
  hr.invariant (fun m => Sound device (fun _ => 0) m ∧ Isolated m)
    (fun _ h => ⟨h.sound, h.isolated⟩)
    fun _ _ _ h hok hs =>
      ⟨(vmStep_sound hpmm h.1 hok.1 hok.2.1 hs).1, vmStep_isolated h.2 h.1 hok hs⟩

section Reads

variable {a : Nat} {b : Byte}

theorem Isolated.read (h : Isolated m) (hr : m.readPrivate p addr = some b) :
    b = m.last p addr := by
  unfold readPrivate at hr
  obtain ⟨P, hP, hr⟩ := bind_eq_some_iff.1 hr
  obtain ⟨e, he, hr⟩ := bind_eq_some_iff.1 hr
  obtain ⟨hbits, ⟨⟩⟩ := ite_none_right_eq_some.1 hr
  have hn : e.nofree = false := by simpa using (Bool.and_eq_true_iff.1 hbits).2
  unfold entry at he
  split at he
  · next hlt => exact h.content p _ e ⟨P, hP, he, hn⟩ addr (pageOf_of_lt hlt).symm
  · cases he

theorem Isolated.read_congr (h : Isolated m) (h' : Isolated m') (hprocs : m'.proc q = m.proc q)
    (hlast : m'.last q = m.last q) : m'.readPrivate q a = m.readPrivate q a := by
  have hsome : m'.readPrivate q a = none ↔ m.readPrivate q a = none := by
    unfold readPrivate
    rw [hprocs]
    cases m.proc q with
    | none => rfl
    | some P =>
        dsimp only [bind_some]
        cases entry P a with
        | none => rfl
        | some e =>
            dsimp only [bind_some]
            split <;> simp
  cases hr : m.readPrivate q a with
  | none => exact hsome.2 hr
  | some b =>
      cases hr' : m'.readPrivate q a with
      | none => rw [hsome.1 hr'] at hr; cases hr
      | some b' => rw [h.read hr, h'.read hr', hlast]

end Reads

/-- In every run of such steps, what a process reads in private memory is what it wrote there
last, or found there when the page was filled, or what its parent had there at the fork; and a
write of one process changes nothing that another reads. -/
theorem private_memory_isolated {device : Frame → Bool}
    (hpmm : ∀ f, device f = false → f < pmmMaxFrames) {m : Machine}
    (hr : (vmSystem device).Reach Discreet m) :
    (∀ p addr b, m.readPrivate p addr = some b → b = m.last p addr) ∧
      ∀ p addr b m', vmStep device m (.write p addr b) = some m' → ∀ q, q ≠ p →
        ∀ a, m'.readPrivate q a = m.readPrivate q a := by
  obtain ⟨hsound, hiso⟩ := vmSystem_isolated hpmm hr
  refine ⟨fun p addr b => hiso.read, fun p addr b m' hs q hq a => ?_⟩
  have hok : Discreet m (.write p addr b) := ⟨trivial, trivial, trivial⟩
  have hiso' := vmStep_isolated hiso hsound hok hs
  cases vmStep_moves hs with
  | call _ hc => cases hc
  | write => exact hiso.read_congr hiso' rfl (update_of_ne hq _ _)

def forkAndWrite : List VmAct :=
  [.mmap 1 0 0x1000 (protRead ||| protWrite) (mapPrivate ||| mapAnonymous) true true,
   .fault 1 mmapBase true (some 7) true,
   .write 1 mmapBase 0x41,
   .fork 1 2 none,
   .cowFault 1 mmapBase (some 8),
   .write 1 mmapBase 0x42,
   .cowFault 2 mmapBase none]

theorem private_memory_isolated_forked :
    ∃ m : Machine, (vmSystem beyondPmm).Reach Discreet m ∧
      m.readPrivate 1 mmapBase = some 0x42 ∧ m.readPrivate 2 mmapBase = some 0x41 ∧
      ((∀ p addr b, m.readPrivate p addr = some b → b = m.last p addr) ∧
        ∀ p addr b m', vmStep beyondPmm m (.write p addr b) = some m' → ∀ q, q ≠ p →
          ∀ a, m'.readPrivate q a = m.readPrivate q a) := by
  exact System.Reach.exists_of_run_imp forkAndWrite bootVm_init (by decide +kernel) fun m hr
    (hm : m.readPrivate 1 mmapBase = some 0x42 ∧ m.readPrivate 2 mmapBase = some 0x41) =>
      ⟨hm.1, hm.2, private_memory_isolated (fun _ => lt_of_beyondPmm) hr⟩

/-- A page is made read-only before the fork, so that the fork does not make it copy-on-write,
and writable again after it. -/
def protectAcrossFork : List VmAct :=
  [.mmap 1 0 0x1000 (protRead ||| protWrite) (mapPrivate ||| mapAnonymous) true true,
   .fault 1 mmapBase true (some 7) true,
   .write 1 mmapBase 0x41,
   .mprotect 1 mmapBase 0x1000 protRead [],
   .fork 1 2 none,
   .mprotect 1 mmapBase 0x1000 (protRead ||| protWrite) [],
   .write 1 mmapBase 0x42]

/-- The child, which wrote nothing, reads what its parent wrote after the fork. -/
theorem write_seen_by_child :
    ∃ m : Machine, (vmSystem beyondPmm).Reach (fun _ _ => True) m ∧
      m.readPrivate 2 mmapBase = some 0x42 ∧ m.last 2 mmapBase = 0x41 :=
  System.Reach.exists_of_run protectAcrossFork bootVm_init (by decide +kernel)

end NeoKernel.Vm
