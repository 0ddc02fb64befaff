import NeoKernel.Vm.Exec
import NeoKernel.Vm.Owed

/-!
# Exec keeps the counts exact

While the new address space is built, its references are among those that the kernel holds.
An exec is `Neat` if it finds the memory it does not check for, and its segments are apart
from each other and from the stack.
-/
namespace NeoKernel.Vm
open Lib Machine List Option AList

variable {s : Nat} {g : Frame} {b : Built} {gs : List Grant} {prot : Prot} {segs : List Segment}
  {device : Frame → Bool} {held : Frame → Nat} {m m' : Machine} {pt : PageTable}

/-- The counts are exactly what is owed and what the kernel holds. -/
structure Settled (device : Frame → Bool) (held : Frame → Nat) (m : Machine) : Prop where
  sound : Sound device held m
  exact : ∀ f, m.refcount f = m.owed f + held f

theorem Settled.step {device : Frame → Bool} {held : Frame → Nat} {m m' : Machine}
    (h : Settled device held m) (hs : Sound device held m' ∧ Balanced m m') :
    Settled device held m' := by
  refine ⟨hs.1, fun f => ?_⟩
  have := h.exact f
  have := hs.2 f
  omega

section Build

variable {m'' : Machine} {pt' pt'' : PageTable} {inside : Nat → Prop}

/-- Frames have been taken for the pages added; nothing else has changed. -/
structure Grown (m : Machine) (pt : PageTable) (m' : Machine) (pt' : PageTable) : Prop where
  procs : m'.procs = m.procs
  deferred : m'.deferred = m.deferred
  count : ∀ f, m'.refcount f + refsIn pt f = m.refcount f + refsIn pt' f
  bound : (∀ f, m.refcount f < 2 ^ 16) → ∀ f, m'.refcount f < 2 ^ 16

theorem Grown.refl (m : Machine) (pt : PageTable) : Grown m pt m pt := ⟨rfl, rfl, fun _ => rfl, id⟩

theorem Grown.trans (h : Grown m pt m' pt') (h' : Grown m' pt' m'' pt'') : Grown m pt m'' pt'' := by
  refine ⟨h'.procs.trans h.procs, h'.deferred.trans h.deferred, fun f => ?_,
    fun hb => h'.bound (h.bound hb)⟩
  have := h.count f
  have := h'.count f
  omega

theorem Settled.grown (h : Settled device (fun f => held f + refsIn pt f) m)
    (hg : Grown m pt m' pt') : Settled device (fun f => held f + refsIn pt' f) m' := by
  have howed : ∀ f, m'.owed f = m.owed f := fun f => by
    unfold owed refs
    rw [hg.procs, hg.deferred]
  have hexact : ∀ f, m'.refcount f = m'.owed f + (held f + refsIn pt' f) := fun f => by
    have := h.exact f
    have := hg.count f
    rw [howed]
    omega
  refine ⟨⟨fun q R hR => h.sound.spaces q R (hg.procs ▸ hR), ?_, hg.bound h.sound.bound,
    fun f => (hexact f).ge⟩, hexact⟩
  rw [hg.deferred]
  exact h.sound.deferred

/-- Ordinary user pages, all of them inside. -/
def UserPages (device : Frame → Bool) (inside : Nat → Prop) (pt : PageTable) : Prop :=
  ∀ s e, pt.lookup s = some e →
    inside s ∧ ∃ g prot, e = userPage g prot ∧ device g = false

theorem UserPages.insert (h : UserPages device inside pt) (hs : inside s) (hg : device g = false) :
    UserPages device inside (pt.insert s (userPage g prot)) := by
  intro s' e he
  obtain ⟨heq, rfl⟩ | ⟨-, he⟩ := Table.lookup_insert_cases he
  · exact ⟨heq ▸ hs, g, prot, rfl, hg⟩
  · exact h s' e he

theorem UserPages.mono {inside' : Nat → Prop} (h : UserPages device inside pt)
    (himp : ∀ s, inside s → inside' s) : UserPages device inside' pt := fun s e he =>
  ⟨himp s (h s e he).1, (h s e he).2⟩

theorem Grown.page {content : Nat → Byte} (hg : m.refcount g = 0) (hs : pt.lookup s = none) :
    Grown m pt (m.alloc g content) (pt.insert s (userPage g prot)) := by
  have hcount : ∀ f, (m.alloc g content).refcount f = m.refcount f + [g].count f := fun f =>
    alloc_refcount hg
  refine ⟨rfl, rfl, fun f => ?_, fun hb f => ?_⟩
  · rw [hcount, refsIn_insert_of_none hs, Pte.holds_eq_count rfl]
    change _ = _ + ([g].count f + _)
    omega
  · rw [hcount]
    by_cases hf : f = g
    · simp [hf, hg]
    · simpa [Ne.symm hf] using hb f

theorem mapInto_userPage (pt : PageTable) (va : Nat) (g : Frame) (prot : Prot) :
    mapInto pt va (userPage g prot) = pt.insert (pageOf va) (userPage g prot) := rfl

theorem mapPages_grown (inside : Nat → Prop) (vas : List Nat) (htables : ∀ g ∈ gs, g.tables = true)
    (hnodup : (vas.map pageOf).Nodup) (habsent : ∀ va ∈ vas, pt.lookup (pageOf va) = none)
    (hinside : ∀ va ∈ vas, inside (pageOf va)) (hpt : UserPages device inside pt)
    (hs : mapPages device prot vas m pt gs = some b) :
    Grown m pt b.m b.pt ∧ UserPages device inside b.pt ∧ (∀ g ∈ b.left, g.tables = true) ∧
      ∀ s, s ∉ vas.map pageOf → b.pt.lookup s = pt.lookup s := by
  induction vas generalizing m pt gs with
  | nil =>
      cases hs
      exact ⟨.refl _ _, hpt, htables, fun _ _ => rfl⟩
  | cons va vas ih =>
      cases gs with
      | nil =>
          cases hs
          exact ⟨.refl _ _, hpt, nofun, fun _ _ => rfl⟩
      | cons g gs =>
          unfold mapPages at hs
          obtain ⟨hfree, hs⟩ := ite_none_right_eq_some.1 hs
          rw [if_pos (htables g mem_cons_self)] at hs
          obtain ⟨hne, hnodup⟩ := nodup_cons.1 hnodup
          have hpage : Grown m pt (m.alloc g.frame g.content)
              (mapInto pt va (userPage g.frame prot)) :=
            .page hfree.1 (habsent va mem_cons_self)
          obtain ⟨hgrown, hpages, hleft, hother⟩ := ih
            (fun g' hg' => htables g' (mem_cons_of_mem _ hg')) hnodup
            (fun va' hva' => by
              have hne' : pageOf va' ≠ pageOf va := fun heq =>
                hne (heq ▸ mem_map_of_mem hva')
              rw [lookup_insert_ne hne']
              exact habsent va' (mem_cons_of_mem _ hva'))
            (fun va' hva' => hinside va' (mem_cons_of_mem _ hva'))
            (hpt.insert (hinside va mem_cons_self) hfree.2) hs
          refine ⟨hpage.trans hgrown, hpages, hleft, fun s hs' => ?_⟩
          rw [map_cons, mem_cons, not_or] at hs'
          rw [hother s hs'.2, lookup_insert_ne hs'.1]

def Segment.Has (x : Segment) (s : Nat) : Prop := x.start ≤ pageSize * s ∧ pageSize * s < x.stop

/-- A segment of whole pages, of which there is at least one, below the user address limit. -/
structure Segment.Ok (x : Segment) : Prop where
  lt : x.start < x.stop
  start : pageSize ∣ x.start
  stop : pageSize ∣ x.stop
  limit : x.stop ≤ userAddrLimit

def Segment.Apart (x y : Segment) : Prop := x.stop ≤ y.start ∨ y.stop ≤ x.start

instance (x y : Segment) : Decidable (x.Apart y) := inferInstanceAs (Decidable (_ ∨ _))

theorem Segment.Apart.not_has {x y : Segment} (h : x.Apart y) (hx : x.Has s) :
    ¬ y.Has s := by
  unfold Segment.Apart Segment.Has at *
  omega

theorem elfLoadAt_grown (inside : Nat → Prop) (phs : List Phdr)
    (htables : ∀ g ∈ gs, g.tables = true) (hok : ∀ ph ∈ phs, ph.segment.Ok)
    (hapart : (phs.map Phdr.segment).Pairwise Segment.Apart)
    (habsent : ∀ ph ∈ phs, ∀ s, ph.segment.Has s → pt.lookup s = none)
    (hinside : ∀ ph ∈ phs, ∀ s, ph.segment.Has s → inside s)
    (hpt : UserPages device inside pt) (hs : elfLoadAt device phs m pt gs = some b) :
    Grown m pt b.m b.pt ∧ UserPages device inside b.pt := by
  induction phs generalizing m pt gs with
  | nil =>
      cases hs
      exact ⟨.refl _ _, hpt⟩
  | cons ph phs ih =>
      have hph := hok ph mem_cons_self
      have hhi : ph.segment.stop ≤ 2 ^ 48 := hph.limit.trans (by decide)
      have hhas : ∀ va ∈ pages ph.segment.start ph.segment.stop, ph.segment.Has (pageOf va) :=
        fun va hva => (mem_pages hph.start hhi).1 (mem_map_of_mem hva)
      obtain ⟨hfar, hapart⟩ := pairwise_cons.1 hapart
      unfold elfLoadAt at hs
      split at hs
      · cases hs
        exact ⟨.refl _ _, hpt⟩
      obtain ⟨b₁, hb₁, hs⟩ := bind_eq_some_iff.1 hs
      obtain ⟨hgrown, hpages, hleft, hother⟩ := mapPages_grown inside _ htables
        (pages_nodup hph.start hhi) (fun va hva => habsent ph mem_cons_self _ (hhas va hva))
        (fun va hva => hinside ph mem_cons_self _ (hhas va hva)) hpt hb₁
      split at hs
      · have hrest := ih hleft (fun ph' h' => hok ph' (mem_cons_of_mem _ h')) hapart ?_
          (fun ph' h' => hinside ph' (mem_cons_of_mem _ h')) hpages hs
        · exact ⟨hgrown.trans hrest.1, hrest.2⟩
        · intro ph' h' s hs'
          rw [hother s]
          · exact habsent ph' (mem_cons_of_mem _ h') s hs'
          · intro hmem
            have hfar' := hfar ph'.segment (mem_map_of_mem h')
            exact hfar'.not_has ((mem_pages hph.start hhi).1 hmem) hs'
      · cases hs
        exact ⟨hgrown, hpages⟩

theorem pmmFree_alloc (content : Nat → Byte) (hpmm : g < pmmMaxFrames)
    (hg : m.refcount g = 0) : ((m.alloc g content).pmmFree g).refcount = m.refcount := by
  funext f
  have hcount : ∀ f, (m.alloc g content).refcount f = m.refcount f + [g].count f := fun f =>
    alloc_refcount hg
  have hself : (m.alloc g content).refcount g = 1 := by
    rw [hcount, hg, count_singleton_self]
  have hfree := pmmFree_refcount (f := f) hpmm (hself.ge) (by rw [hself]; decide)
  have := hcount f
  omega

theorem ensureUserPages_grown (hpmm : ∀ f, device f = false → f < pmmMaxFrames)
    (vas : List Nat) (hinside : ∀ va ∈ vas, inside (pageOf va))
    (hpt : UserPages device inside pt) (hs : ensureUserPages device vas m pt gs = some b) :
    Grown m pt b.m b.pt ∧ UserPages device inside b.pt := by
  induction vas generalizing m pt gs with
  | nil =>
      cases hs
      exact ⟨.refl _ _, hpt⟩
  | cons va vas ih =>
      have hrest : ∀ va' ∈ vas, inside (pageOf va') := fun va' h' =>
        hinside va' (mem_cons_of_mem _ h')
      unfold ensureUserPages at hs
      split at hs
      · exact ih hrest hpt hs
      next habs =>
      -- every entry is present, so there is none here
      have hnone : pt.lookup (pageOf va) = none := by
        cases he : pt.lookup (pageOf va) with
        | none => rfl
        | some e =>
            obtain ⟨-, g, prot, rfl, -⟩ := hpt _ e he
            exact absurd (by rw [he]; rfl) habs
      split at hs
      · cases hs
        exact ⟨.refl _ _, hpt⟩
      next g gs =>
      obtain ⟨hfree, hs⟩ := ite_none_right_eq_some.1 hs
      split at hs
      · rw [mapInto_userPage] at hs
        have hmore := ih hrest (hpt.insert (hinside va mem_cons_self) hfree.2) hs
        exact ⟨.trans (.page hfree.1 hnone) hmore.1, hmore.2⟩
      · cases hs
        have hcount := pmmFree_alloc g.content (hpmm _ hfree.2) hfree.1
        refine ⟨⟨pmmFree_procs _, pmmFree_deferred _, fun f => ?_, fun hb => ?_⟩, hpt⟩
        · rw [hcount]
        · rw [hcount]
          exact hb

end Build

section Register

variable {vmas vmas' pre post : List Vma} {start stop a : Nat} {flags : BitVec 32} {kmalloc : Bool}

def Mapped (vmas : List Vma) (a : Nat) : Prop := ∃ v ∈ vmas, v.start ≤ a ∧ a < v.stop

theorem Lower.mapped {lo : Nat} (h : Lower start prot flags pre vmas lo) :
    vmas ⊆ pre ∧ (lo ≤ a → a < start → Mapped pre a) := by
  cases h with
  | alone => exact ⟨List.Subset.refl _, fun hlo hlt => absurd hlt (not_lt.2 hlo)⟩
  | @join _ v hstop _ =>
      refine ⟨subset_append_left _ _, fun hlo hlt => ?_⟩
      exact ⟨v, mem_append_right _ mem_cons_self, hlo, hlt.trans_eq hstop.symm⟩

theorem Upper.mapped {hi : Nat} (h : Upper stop prot flags post vmas hi) :
    vmas ⊆ post ∧ (stop ≤ a → a < hi → Mapped post a) := by
  cases h with
  | alone => exact ⟨List.Subset.refl _, fun hge hlt => absurd hlt (not_lt.2 hge)⟩
  | @join v _ hstart _ =>
      refine ⟨subset_cons_self _ _, fun hge hlt => ?_⟩
      exact ⟨v, mem_cons_self, hstart.le.trans hge, hlt⟩

theorem vmaInsert_within (hs : vmaInsert vmas start stop prot flags kmalloc = some vmas')
    (ha : Mapped vmas' a) : (start ≤ a ∧ a < stop) ∨ Mapped vmas a := by
  obtain ⟨init, rest, w, hlow, hup, -, -, rfl⟩ := vmaInsert_joined hs
  rw [← takeWhile_append_dropWhile (p := fun v : Vma => decide (v.stop ≤ start)) (l := vmas)]
  generalize vmas.takeWhile (fun v => decide (v.stop ≤ start)) = pre at *
  generalize vmas.dropWhile (fun v => decide (v.stop ≤ start)) = post at *
  have hpre : Mapped pre a → Mapped (pre ++ post) a := fun ⟨v, hv, hin⟩ =>
    ⟨v, mem_append_left _ hv, hin⟩
  have hpost : Mapped post a → Mapped (pre ++ post) a := fun ⟨v, hv, hin⟩ =>
    ⟨v, mem_append_right _ hv, hin⟩
  obtain ⟨v, hv, hlo, hhi⟩ := ha
  rcases mem_append.1 hv with hv | hv
  · exact .inr (hpre ⟨v, (hlow.mapped (a := a)).1 hv, hlo, hhi⟩)
  rcases mem_cons.1 hv with rfl | hv
  · -- the new mapping: what it joins before the range, the range, or what it joins after it
    by_cases hbefore : a < start
    · exact .inr (hpre (hlow.mapped.2 hlo hbefore))
    by_cases hlt : a < stop
    · exact .inl ⟨not_lt.1 hbefore, hlt⟩
    · exact .inr (hpost (hup.mapped.2 (not_lt.1 hlt) hhi))
  · exact .inr (hpost ⟨v, (hup.mapped (a := a)).1 hv, hlo, hhi⟩)

theorem vmaInsert_isSome (vmas : List Vma) (start stop : Nat) (prot : Prot) (flags : BitVec 32) :
    (vmaInsert vmas start stop prot flags true).isSome = true := by
  have hbefore : ∀ pre post, (insertBefore start stop prot flags true pre post).isSome = true := by
    intro pre post
    unfold insertBefore
    split
    · split <;> rfl
    · rfl
  unfold vmaInsert
  dsimp only
  split
  · split
    · rfl
    · exact hbefore _ _
  · exact hbefore _ _

structure Registered (segs : List Segment) (vmas : List Vma) : Prop where
  laid : Laid False vmas
  within : ∀ a, Mapped vmas a → ∃ x ∈ segs, x.start ≤ a ∧ a < x.stop
  holds : ∀ x ∈ segs, ∃ w ∈ vmas, w.start ≤ x.start ∧ x.stop ≤ w.stop ∧ w.phys = false

theorem Registered.insert {x : Segment} (h : Registered segs vmas) (hx : x.Ok)
    (hapart : ∀ y ∈ segs, y.Apart x) :
    Registered (segs ++ [x])
      ((vmaInsert vmas x.start x.stop x.prot mapPrivate true).getD vmas) := by
  have hfree : ∀ v ∈ vmas, v.stop ≤ x.start ∨ x.stop ≤ v.start := by
    intro v hv
    by_contra hover
    obtain ⟨hlo, hhi⟩ := not_or.1 hover
    have hvlt := (h.laid.ok v hv).lt
    have hxlt := hx.lt
    obtain ⟨y, hy, hya, hyb⟩ := h.within (max v.start x.start)
      ⟨v, hv, le_max_left _ _, max_lt hvlt (not_le.1 hlo)⟩
    have hfar := hapart y hy
    unfold Segment.Apart at hfar
    omega
  have hnew : (freshVma x.start x.stop x.prot 0).Ok False :=
    { hx with wx := nofun }
  obtain ⟨vmas', hinsert⟩ : ∃ vmas', vmaInsert vmas x.start x.stop x.prot mapPrivate true =
      some vmas' := isSome_iff_exists.1 (vmaInsert_isSome _ _ _ _ _)
  have hins := vmaInsert_inserted h.laid hnew hfree hinsert
  rw [hinsert, getD_some]
  refine ⟨hins.laid, fun a ha => ?_, fun y hy => ?_⟩
  · rcases vmaInsert_within hinsert ha with hin | hold
    · exact ⟨x, mem_append_right _ mem_cons_self, hin⟩
    · obtain ⟨y, hy, hya⟩ := h.within a hold
      exact ⟨y, mem_append_left _ hy, hya⟩
  · rcases mem_append.1 hy with hy | hy
    · obtain ⟨v, hv, hlo, hhi, hphys⟩ := h.holds y hy
      obtain ⟨w, hw, hwlo, hwhi, hlike⟩ := hins.old v hv
      exact ⟨w, hw, hwlo.trans hlo, hhi.trans hwhi, (Vma.phys_congr hlike.2).trans hphys⟩
    · cases mem_singleton.1 hy
      obtain ⟨w, hw, hlo, hhi, -, hflags⟩ := hins.range
      refine ⟨w, hw, hlo, hhi, ?_⟩
      rw [Vma.phys, hflags]
      decide

theorem registerSegments_registered (segs done : List Segment) {ks : List Bool}
    (h : Registered done vmas) (hok : ∀ x ∈ segs, x.Ok)
    (hapart : (done ++ segs).Pairwise Segment.Apart) (hlen : segs.length ≤ ks.length)
    (hks : ∀ k ∈ ks, k = true) : Registered (done ++ segs) (registerSegments vmas segs ks) := by
  induction segs generalizing done vmas ks with
  | nil => simpa [registerSegments] using h
  | cons x segs ih =>
      cases ks with
      | nil => cases hlen
      | cons k ks =>
          obtain rfl : k = true := hks k mem_cons_self
          have hnext := h.insert (hok x mem_cons_self) fun y hy =>
            (pairwise_append.1 hapart).2.2 y hy x mem_cons_self
          have hmore := ih (done ++ [x]) hnext (fun y hy => hok y (mem_cons_of_mem _ hy))
            (by simpa using hapart) (Nat.le_of_succ_le_succ hlen)
            (fun k hk => hks k (mem_cons_of_mem _ hk))
          simpa [registerSegments] using hmore

end Register

def stackSegment : Segment := ⟨userStackLow, userStackTop, userStackProt⟩

/-- The segments are not empty, end below the user address limit, and lie apart from each other
and from the stack. There are tables for each page of the image and of the stack, frames for
the stack, and records for all mappings. -/
structure Exec.Neat (x : Exec) : Prop where
  inside : ∀ ph ∈ x.loads, 0 < ph.memsz ∧ ph.vaddr + ph.memsz ≤ userAddrLimit
  apart : (stackSegment :: x.loads.map Phdr.segment).Pairwise Segment.Apart
  few : x.loads.length ≤ elfMaxLoadSegments
  tables : ∀ g ∈ x.image ++ x.stack, g.tables = true
  stack : userStackPrepopulatePages ≤ x.stack.length
  records : x.loads.length < x.kmallocs.length ∧ ∀ k ∈ x.kmallocs, k = true

instance (x : Exec) : Decidable x.Neat :=
  decidable_of_iff ((∀ ph ∈ x.loads, _) ∧ _ ∧ _ ∧ (∀ g ∈ x.image ++ x.stack, _) ∧ _ ∧ _)
    ⟨fun ⟨h₁, h₂, h₃, h₄, h₅, h₆⟩ => ⟨h₁, h₂, h₃, h₄, h₅, h₆⟩,
      fun ⟨h₁, h₂, h₃, h₄, h₅, h₆⟩ => ⟨h₁, h₂, h₃, h₄, h₅, h₆⟩⟩

section Call

variable {p : Pid} {P Q : Process} {x : Exec}

theorem Phdr.segment_ok {ph : Phdr} (hpos : 0 < ph.memsz)
    (hlimit : ph.vaddr + ph.memsz ≤ userAddrLimit) : ph.segment.Ok := by
  refine ⟨?_, Dvd.intro_left _ rfl, dvd_pageUp _, ?_⟩
  · unfold segment pageDown pageUp u64
    unfold userAddrLimit at hlimit
    unfold pageSize
    dsimp only
    omega
  · unfold segment pageUp u64
    unfold userAddrLimit at *
    unfold pageSize
    dsimp only
    omega

theorem stackSegment_ok : stackSegment.Ok :=
  ⟨by decide, by decide, by decide, by decide⟩

theorem Settled.giveUp (h : Settled device (fun f => held f + refsIn pt f) m)
    (hpt : ∀ s e, pt.lookup s = some e → e.nofree = device e.frame) :
    Settled device held (m.defer (privateFrames (fun _ => true) pt)) := by
  have hexact : ∀ f, m.refcount f =
      (m.defer (privateFrames (fun _ => true) pt)).owed f + held f := fun f => by
    have := h.exact f
    change _ = m.refs f + (m.deferred ++ _).count f + held f
    rw [count_append, count_allFrames]
    unfold owed at this
    omega
  refine ⟨⟨h.sound.spaces, fun f hf => ?_, h.sound.bound, fun f => (hexact f).ge⟩, hexact⟩
  rcases mem_append.1 hf with hf | hf
  · exact h.sound.deferred f hf
  · obtain ⟨s, e, he, hn, rfl⟩ : ∃ s e, pt.lookup s = some e ∧ e.nofree = false ∧ e.frame = f :=
      exists_of_refsIn (by
        rw [← count_allFrames]
        exact (count_pos_iff.2 hf).ne')
    rw [← hpt s e he, hn]

theorem Settled.enter (h : Settled device (fun f => held f + refsIn Q.pt f) m)
    (hp : m.procs.lookup p = none) (hQ : Q.Sound device) : Settled device held (m.setProc p Q) := by
  have hexact : ∀ f, m.refcount f = (m.setProc p Q).owed f + held f := fun f => by
    have hf := h.exact f
    have hrefs : (m.setProc p Q).refs f + _ = _ := refs_insert m rfl f
    rw [hp] at hrefs
    dsimp only [elim_none] at hrefs
    unfold owed at *
    change _ = (m.setProc p Q).refs f + m.deferred.count f + held f
    omega
  exact ⟨⟨fun q R hR => h.sound.spaces_insert hQ rfl hR, h.sound.deferred, h.sound.bound,
    fun f => (hexact f).ge⟩, hexact⟩

theorem Settled.releaseAll (hpmm : ∀ f, device f = false → f < pmmMaxFrames) (fs : List Frame)
    (h : Settled device held m) (hs : releaseAll device fs m = some m') :
    Settled device held m' ∧ m'.procs = m.procs := by
  induction fs generalizing m with
  | nil =>
      cases hs
      exact ⟨h, rfl⟩
  | cons f fs ih =>
      unfold releaseAll at hs
      obtain ⟨m₁, hm₁, hs⟩ := bind_eq_some_iff.1 hs
      simp only [vmStep] at hm₁
      obtain ⟨hf, ⟨⟩⟩ := ite_none_right_eq_some.1 hm₁
      obtain ⟨hdone, hprocs⟩ := ih (h.step (h.sound.release hpmm hf)) hs
      exact ⟨hdone, hprocs.trans (pmmFree_procs _)⟩

theorem mapPages_ok (vas : List Nat) (hlen : vas.length ≤ gs.length)
    (hs : mapPages device prot vas m pt gs = some b) : b.ok = true := by
  induction vas generalizing m pt gs with
  | nil =>
      cases hs
      rfl
  | cons va vas ih =>
      cases gs with
      | nil => cases hlen
      | cons g gs =>
          unfold mapPages at hs
          split at hs
          · exact ih (Nat.le_of_succ_le_succ hlen) hs
          · cases hs

theorem Registered.process_sound {vmas : List Vma} (h : Registered segs vmas)
    (hpt : UserPages device (fun s => ∃ y ∈ segs, y.Has s) pt) :
    (⟨vmas, mmapBase, pt⟩ : Process).Sound device := by
  have hcov : ∀ {s}, (∃ y ∈ segs, y.Has s) → ∃ w ∈ vmas, w.Covers s ∧ w.phys = false := by
    rintro s ⟨y, hy, hlo, hhi⟩
    obtain ⟨w, hw, hwlo, hwhi, hphys⟩ := h.holds y hy
    exact ⟨w, hw, ⟨hwlo.trans hlo, hhi.trans_le hwhi⟩, hphys⟩
  refine ⟨⟨⟨h.laid, fun s e he => ?_⟩, (by decide : pageSize ∣ mmapBase),
    (by decide : mmapBase ≤ mmapLimit)⟩,
    fun v hv s e hcv he => ?_,
    fun s e he => ?_⟩
  · obtain ⟨hin, g, prot, rfl, -⟩ := hpt s e he
    obtain ⟨w, hw, hcw, -⟩ := hcov hin
    exact ⟨w, hw, hcw, allowed_userPage_of g nofun⟩
  · obtain ⟨hin, g, prot, rfl, -⟩ := hpt s e he
    obtain ⟨w, hw, hcw, hphys⟩ := hcov hin
    rw [h.laid.eq_of_covers hv hw hcv hcw, hphys]
    rfl
  · obtain ⟨-, g, prot, rfl, hg⟩ := hpt s e he
    exact ⟨hg.symm, nofun⟩

theorem stackSegment_has {va : Nat} (hlo : userStackLow ≤ va) (hhi : va < userStackTop) :
    stackSegment.Has (pageOf va) := by
  unfold Segment.Has stackSegment pageOf
  unfold userStackLow userStackTop userStackPages pageSize at *
  dsimp only
  omega

theorem stackSegment_has_pages : ∀ va ∈ pages userStackPrepopulated userStackTop,
    stackSegment.Has (pageOf va) := by
  intro va hva
  have hmem := (mem_pages (by decide) (by decide)).1 (mem_map_of_mem hva)
  exact ⟨le_trans (by decide) hmem.1, hmem.2⟩

theorem Settled.entered (hpmm : ∀ f, device f = false → f < pmmMaxFrames) (hneat : x.Neat)
    (hpokes : ∀ va ∈ x.pokes, userStackLow ≤ va ∧ va < userStackTop)
    (h : Settled device (fun f => held f + refsIn pt f) m) (hp : m.procs.lookup p = none)
    (hpt : UserPages device (fun s => ∃ y ∈ x.loads.map Phdr.segment, y.Has s) pt)
    (hs : m.enter device p pt x = some m') : Settled device held m' := by
  unfold Machine.enter at hs
  obtain ⟨b, hb, hs⟩ := bind_eq_some_iff.1 hs
  have hok : b.ok = true := mapPages_ok _ (by
    refine le_trans ?_ hneat.stack
    decide) hb
  rw [if_pos hok] at hs
  obtain ⟨t, ht, rfl⟩ := map_eq_some_iff.1 hs
  obtain ⟨hfar, hapart⟩ := pairwise_cons.1 hneat.apart
  have hstack := stackSegment_has_pages
  obtain ⟨hgrown, hpages, -, -⟩ := mapPages_grown
    (fun s => ∃ y ∈ stackSegment :: x.loads.map Phdr.segment, y.Has s) _
    (fun g hg => hneat.tables g (mem_append_right _ hg)) (pages_nodup (by decide) (by decide))
    (fun va hva => by
      cases he : pt.lookup (pageOf va) with
      | none => rfl
      | some e =>
          obtain ⟨⟨y, hy, hhas⟩, -⟩ := hpt _ e he
          exact absurd hhas ((hfar y hy).not_has (hstack va hva)))
    (fun va hva => ⟨_, mem_cons_self, hstack va hva⟩)
    (hpt.mono fun s ⟨y, hy, hhas⟩ => ⟨y, mem_cons_of_mem _ hy, hhas⟩) hb
  obtain ⟨hgrown', hpages'⟩ := ensureUserPages_grown hpmm _
    (fun va hva => ⟨_, mem_cons_self, stackSegment_has (hpokes va hva).1 (hpokes va hva).2⟩)
    hpages ht
  have hbuilt := (h.grown hgrown).grown hgrown'
  have hsegs : x.segments = x.loads.map Phdr.segment :=
    take_of_length_le (by simpa using hneat.few)
  have hreg : Registered (stackSegment :: x.loads.map Phdr.segment)
      (registerSegments [] (stackSegment :: x.segments) x.kmallocs) := by
    rw [hsegs]
    refine registerSegments_registered _ [] ⟨⟨nofun, .nil⟩, nofun, nofun⟩ ?_ hneat.apart ?_
      hneat.records.2
    · refine forall_mem_cons.2 ⟨stackSegment_ok, fun y hy => ?_⟩
      obtain ⟨ph, hph, rfl⟩ := mem_map.1 hy
      exact Phdr.segment_ok (hneat.inside ph hph).1 (hneat.inside ph hph).2
    · simpa using hneat.records.1
  refine Settled.enter hbuilt ?_ (hreg.process_sound hpages')
  rw [hgrown'.procs, hgrown.procs]
  exact hp

theorem Settled.exec (hpmm : ∀ f, device f = false → f < pmmMaxFrames)
    (h : Settled device held m) (hP : m.procs.lookup p = some P) (hneat : x.Neat)
    (hs : m.exec device p P x = some m') : Settled device held m' := by
  unfold Machine.exec at hs
  obtain ⟨hpokes, hs⟩ := ite_none_right_eq_some.1 hs
  obtain ⟨b, hb, hs⟩ := bind_eq_some_iff.1 hs
  obtain ⟨hgrown, hpages⟩ := elfLoadAt_grown
    (fun s => ∃ y ∈ x.loads.map Phdr.segment, y.Has s) _
    (fun g hg => hneat.tables g (mem_append_left _ hg))
    (fun ph hph => Phdr.segment_ok (hneat.inside ph hph).1 (hneat.inside ph hph).2)
    (pairwise_cons.1 hneat.apart).2 (fun _ _ _ _ => lookup_empty _)
    (fun ph hph s hhas => ⟨_, mem_map_of_mem hph, hhas⟩)
    (fun s e he => nomatch (lookup_empty _).symm.trans he) hb
  have hempty : Settled device (fun f => held f + refsIn ∅ f) m := h
  have hbuilt := hempty.grown hgrown
  split at hs
  · obtain ⟨m₁, hm₁, hs⟩ := bind_eq_some_iff.1 hs
    have hPb : b.m.procs.lookup p = some P := by
      rw [hgrown.procs]
      exact hP
    have hleft := hbuilt.step (hbuilt.sound.leave hPb)
    obtain ⟨hrel, hprocs⟩ := hleft.releaseAll hpmm _ hm₁
    refine Settled.entered hpmm hneat hpokes hrel ?_ hpages hs
    rw [hprocs]
    exact lookup_erase p _
  · cases hs
    refine hbuilt.giveUp fun s e he => ?_
    obtain ⟨-, g, prot, rfl, hg⟩ := hpages s e he
    exact hg.symm

end Call

end NeoKernel.Vm
