import Mathlib.Data.List.TakeWhile
import NeoKernel.Vm.Edit

/-!
# The loops of vma.c keep an address space well formed

One lemma for each loop over the list of mappings. A call that adds a mapping does so only if it
finds room (`Room`): the place it chooses is free, and ends below the user address limit.
-/
namespace NeoKernel.Vm
open Lib List

variable {l pre : List Vma} {pt : PageTable} {rights : Prop} {start stop : Nat} {kmalloc : Bool}
  {v : Vma} {prot : Prot} {flags : BitVec 32}

theorem munmapLoop_space (hstart : pageSize ∣ start) (hstop : pageSize ∣ stop) (hlt : start < stop)
    (h : Space rights l pt) :
    Space rights (munmapLoop start stop kmalloc l pt).vmas
    (munmapLoop start stop kmalloc l pt).pt :=
  (munmapLoop_edit hstart hstop hlt kmalloc h.laid pt).invariant [] (Unmap.space hstart) h

theorem munmapLoop_free (hstart : pageSize ∣ start) (hstop : pageSize ∣ stop) (hlt : start < stop)
    (h : Laid rights l) (hrc : (munmapLoop start stop kmalloc l pt).rc = .ok ()) :
    ∀ v ∈ (munmapLoop start stop kmalloc l pt).vmas, v.stop ≤ start ∨ stop ≤ v.start := by
  have hedit := munmapLoop_edit hstart hstop hlt kmalloc h pt
  rw [eq_true hrc] at hedit
  exact hedit.forall_mem fun hv => hv.apart hlt

/-- It fails only where memory for the tail of a punched mapping cannot be had. -/
theorem munmapLoop_rc (l : List Vma) (pt : PageTable) (hk : kmalloc = true ∨
    ∀ v ∈ l, ¬(v.start < start ∧ stop < v.stop)) :
    (munmapLoop start stop kmalloc l pt).rc = .ok () := by
  induction l generalizing pt with
  | nil => rfl
  | cons v rest ih =>
      have hrest : kmalloc = true ∨ ∀ v ∈ rest, ¬(v.start < start ∧ stop < v.stop) :=
        hk.imp id fun h w hw => h w (mem_cons_of_mem _ hw)
      unfold munmapLoop
      split
      · exact ih pt hrest
      split
      · rfl
      dsimp only
      split
      · next hin =>
          split
          · rfl
          · next hno =>
              rcases hk with hk | hk
              · exact absurd hk hno
              · exact absurd hin (hk v mem_cons_self)
      split
      · exact ih _ hrest
      split
      · rfl
      · exact ih _ hrest

section Insert

variable {vmas vmas' post : List Vma} {new : Vma}

theorem Laid.sublist (h : Laid rights vmas) (hs : vmas'.Sublist vmas) : Laid rights vmas' :=
  ⟨fun v hv => h.ok v (hs.subset hv), h.sorted.sublist hs⟩

theorem Laid.insert (h : Laid rights (pre ++ post)) (hnew : new.Ok rights)
    (hpre : ∀ v ∈ pre, v.stop ≤ new.start) (hpost : ∀ v ∈ post, new.stop ≤ v.start) :
    Laid rights (pre ++ new :: post) := by
  obtain ⟨hp, hq, hacross⟩ := pairwise_append.1 h.sorted
  constructor
  · intro v hv
    rcases mem_append.1 hv with hv | hv
    · exact h.ok v (mem_append_left _ hv)
    · rcases mem_cons.1 hv with rfl | hv
      · exact hnew
      · exact h.ok v (mem_append_right _ hv)
  · refine pairwise_append.2 ⟨hp, pairwise_cons.2 ⟨hpost, hq⟩, fun v hv w hw => ?_⟩
    rcases mem_cons.1 hw with rfl | hw
    · exact hpre v hv
    · exact hacross v hv w hw

/-- Every mapping is still there, perhaps as part of a larger one. -/
def Extends (vmas vmas' : List Vma) : Prop :=
  ∀ v ∈ vmas, ∃ w ∈ vmas', w.start ≤ v.start ∧ v.stop ≤ w.stop ∧ w.Like v

/-- What `vma_insert` leaves: the old mappings, and one that holds the new range. -/
structure Inserted (rights : Prop) (vmas vmas' : List Vma) (start stop : Nat) (prot : Prot)
    (flags : BitVec 32) : Prop where
  laid : Laid rights vmas'
  old : Extends vmas vmas'
  range : ∃ w ∈ vmas', w.start ≤ start ∧ stop ≤ w.stop ∧ w.prot = prot ∧ w.flags = flags

theorem Vma.same_iff : v.same prot flags = true ↔ v.prot = prot ∧ v.flags = flags := by
  simp [Vma.same]

structure Fits (rights : Prop) (pre post : List Vma) (start stop : Nat) : Prop where
  laid : Laid rights (pre ++ post)
  pre : ∀ v ∈ pre, v.stop ≤ start
  post : ∀ v ∈ post, stop ≤ v.start

theorem Fits.split (h : Laid rights vmas) (hfree : ∀ v ∈ vmas, v.stop ≤ start ∨ stop ≤ v.start) :
    Fits rights (vmas.takeWhile fun v => v.stop ≤ start) (vmas.dropWhile fun v => v.stop ≤ start)
      start stop := by
  have happ := takeWhile_append_dropWhile (p := fun v : Vma => decide (v.stop ≤ start))
    (l := vmas)
  refine ⟨by rw [happ]; exact h, fun v hv => ?_, ?_⟩
  · simpa using mem_takeWhile_imp hv
  · have hlaid := h.sublist (dropWhile_sublist fun v => decide (v.stop ≤ start))
    have hin : ∀ v ∈ vmas.dropWhile (fun v => decide (v.stop ≤ start)), v ∈ vmas := fun v hv =>
      (dropWhile_sublist _).subset hv
    have hhead := head?_dropWhile_not (fun v : Vma => decide (v.stop ≤ start)) vmas
    generalize hpost : vmas.dropWhile (fun v => decide (v.stop ≤ start)) = post at *
    cases post with
    | nil => nofun
    | cons v rest =>
        have hv : stop ≤ v.start := by
          refine (hfree v (hin v mem_cons_self)).resolve_left ?_
          simpa using hhead
        refine forall_mem_cons.2 ⟨hv, fun w hw => ?_⟩
        exact (hv.trans (hlaid.ok v mem_cons_self).lt.le).trans
          ((pairwise_cons.1 hlaid.sorted).1 w hw)

/-- The mappings before a range and where the new mapping begins: at the range, or with the mapping
that ends there. -/
inductive Lower (start : Nat) (prot : Prot) (flags : BitVec 32) :
    List Vma → List Vma → Nat → Prop where
  | alone {pre : List Vma} : Lower start prot flags pre pre start
  | join {init : List Vma} {v : Vma} : v.stop = start → v.same prot flags = true →
      Lower start prot flags (init ++ [v]) init v.start

/-- The mappings after a range and where the new mapping ends. -/
inductive Upper (stop : Nat) (prot : Prot) (flags : BitVec 32) :
    List Vma → List Vma → Nat → Prop where
  | alone {post : List Vma} : Upper stop prot flags post post stop
  | join {v : Vma} {rest : List Vma} : v.start = stop → v.same prot flags = true →
      Upper stop prot flags (v :: rest) rest v.stop

theorem mergeNext_upper (prot : Prot) (flags : BitVec 32) (post : List Vma) :
    Upper stop prot flags post (mergeNext stop prot flags post).2
    (mergeNext stop prot flags post).1 := by
  cases post with
  | nil => exact .alone
  | cons v rest =>
      simp only [mergeNext]
      split
      · next hmerge => exact .join hmerge.1 hmerge.2
      · exact .alone

theorem vmaInsert_joined (hs : vmaInsert vmas start stop prot flags kmalloc = some vmas') :
    ∃ init rest w, Lower start prot flags (vmas.takeWhile fun v => v.stop ≤ start) init w.start ∧
      Upper stop prot flags (vmas.dropWhile fun v => v.stop ≤ start) rest w.stop ∧
      w.prot = prot ∧ w.flags = flags ∧ vmas' = init ++ w :: rest := by
  unfold vmaInsert at hs
  dsimp only at hs
  generalize vmas.takeWhile (fun v => decide (v.stop ≤ start)) = pre at *
  generalize vmas.dropWhile (fun v => decide (v.stop ≤ start)) = post at *
  have hbefore : insertBefore start stop prot flags kmalloc pre post = some vmas' →
      ∃ init rest w, Lower start prot flags pre init w.start ∧
        Upper stop prot flags post rest w.stop ∧
        w.prot = prot ∧ w.flags = flags ∧ vmas' = init ++ w :: rest := by
    intro hs
    unfold insertBefore at hs
    split at hs
    · next v rest _ =>
      split at hs
      · next hmerge =>
          cases hs
          obtain ⟨hprot, hflags⟩ := Vma.same_iff.1 hmerge.2.2
          exact ⟨_, _, { v with start := start }, .alone, .join hmerge.2.1 hmerge.2.2,
            hprot, hflags,
            rfl⟩
      · obtain ⟨-, ⟨⟩⟩ := Option.ite_none_right_eq_some.1 hs
        exact ⟨_, _, freshVma .., .alone, .alone, rfl, rfl, rfl⟩
    · obtain ⟨-, ⟨⟩⟩ := Option.ite_none_right_eq_some.1 hs
      exact ⟨_, _, freshVma .., .alone, .alone, rfl, rfl, rfl⟩
  split at hs
  · next prev hprev =>
      split at hs
      · next hmerge =>
          obtain ⟨init, rfl⟩ := getLast?_eq_some_iff.1 hprev
          rw [dropLast_concat] at hs
          cases hs
          obtain ⟨hprot, hflags⟩ := Vma.same_iff.1 hmerge.2.2
          exact ⟨_, _, { prev with stop := (mergeNext stop prot flags post).1 },
            .join hmerge.2.1 hmerge.2.2, mergeNext_upper .., hprot, hflags, rfl⟩
      · exact hbefore hs
  · exact hbefore hs

theorem Lower.spec {lo : Nat} (h : Lower start prot flags pre vmas lo) (hlaid : Laid rights pre)
    (hpre : ∀ v ∈ pre, v.stop ≤ start) (hstart : pageSize ∣ start) :
    vmas.Sublist pre ∧ lo ≤ start ∧ pageSize ∣ lo ∧ (∀ v ∈ vmas, v.stop ≤ lo) ∧
      ∀ v ∈ pre, v ∈ vmas ∨ lo ≤ v.start ∧ v.prot = prot ∧ v.flags = flags := by
  cases h with
  | alone => exact ⟨.refl _, le_rfl, hstart, hpre, fun _ => .inl⟩
  | @join _ v hstop hsame =>
      have hv := hlaid.ok v (mem_append_right _ mem_cons_self)
      refine ⟨sublist_append_left _ _, hv.lt.le.trans_eq hstop, hv.start, fun u hu => ?_,
        fun u hu => ?_⟩
      · exact (pairwise_append.1 hlaid.sorted).2.2 u hu v mem_cons_self
      · refine (mem_append.1 hu).imp_right fun hu => ?_
        rw [mem_singleton.1 hu]
        exact ⟨le_rfl, Vma.same_iff.1 hsame⟩

theorem Upper.spec {hi : Nat} (h : Upper stop prot flags post vmas hi) (hlaid : Laid rights post)
    (hpost : ∀ v ∈ post, stop ≤ v.start) (hstop : pageSize ∣ stop ∧ stop ≤ userAddrLimit) :
    vmas.Sublist post ∧ stop ≤ hi ∧ (pageSize ∣ hi ∧ hi ≤ userAddrLimit) ∧
      (∀ v ∈ vmas, hi ≤ v.start) ∧
      ∀ v ∈ post, v ∈ vmas ∨ v.stop ≤ hi ∧ v.prot = prot ∧ v.flags = flags := by
  cases h with
  | alone => exact ⟨.refl _, le_rfl, hstop, hpost, fun _ => .inl⟩
  | @join v _ hstart hsame =>
      have hv := hlaid.ok v mem_cons_self
      refine ⟨sublist_cons_self _ _, hstart.ge.trans hv.lt.le, ⟨hv.stop, hv.limit⟩,
        (pairwise_cons.1 hlaid.sorted).1, fun u hu => ?_⟩
      rcases mem_cons.1 hu with rfl | hu
      · exact .inr ⟨le_rfl, Vma.same_iff.1 hsame⟩
      · exact .inl hu

theorem vmaInsert_inserted (h : Laid rights vmas) (hnew : (freshVma start stop prot 0).Ok rights)
    (hfree : ∀ v ∈ vmas, v.stop ≤ start ∨ stop ≤ v.start)
    (hs : vmaInsert vmas start stop prot flags kmalloc = some vmas') :
    Inserted rights vmas vmas' start stop prot flags := by
  have hfits := Fits.split h hfree
  obtain ⟨init, rest, w, hlow, hup, hprot, hflags, rfl⟩ := vmaInsert_joined hs
  obtain ⟨hsub, hlo, hstart, hinit, hpre⟩ :=
    hlow.spec (hfits.laid.sublist (sublist_append_left _ _)) hfits.pre hnew.start
  obtain ⟨hsub', hhi, hstop, hrest, hpost⟩ :=
    hup.spec (hfits.laid.sublist (sublist_append_right _ _)) hfits.post ⟨hnew.stop, hnew.limit⟩
  have hw : w.Ok rights :=
    ⟨(hlo.trans_lt hnew.lt).trans_le hhi, hstart, hstop.1, hstop.2, hprot ▸ hnew.wx⟩
  have hmid : w ∈ init ++ w :: rest := mem_append_right _ mem_cons_self
  refine ⟨(hfits.laid.sublist (hsub.append hsub')).insert hw hinit hrest, fun v hv => ?_, w, hmid,
    hlo, hhi, hprot, hflags⟩
  rw [← takeWhile_append_dropWhile (p := fun v : Vma => decide (v.stop ≤ start)) (l := vmas)] at hv
  rcases mem_append.1 hv with hv | hv
  · rcases hpre v hv with hkept | ⟨hle, hp, hf⟩
    · exact ⟨v, mem_append_left _ hkept, le_rfl, le_rfl, rfl, rfl⟩
    · refine ⟨w, hmid, hle, ?_, hprot.trans hp.symm, hflags.trans hf.symm⟩
      exact ((hfits.pre v hv).trans hnew.lt.le).trans hhi
  · rcases hpost v hv with hkept | ⟨hle, hp, hf⟩
    · exact ⟨v, mem_append_right _ (mem_cons_of_mem _ hkept), le_rfl, le_rfl, rfl, rfl⟩
    · refine ⟨w, hmid, ?_, hle, hprot.trans hp.symm, hflags.trans hf.symm⟩
      exact (hlo.trans hnew.lt.le).trans (hfits.post v hv)

end Insert

section Mprotect

variable {rest : List Vma} {w : Vma}

theorem mprotectLoop_space (hstart : pageSize ∣ start) (hstop : pageSize ∣ stop)
    (hlt : start < stop) (hwx : prot.writable = true → prot.executable = false) (ks : List Kmalloc)
    (h : Space rights l pt) : Space rights (mprotectLoop start stop prot ks l pt).vmas
      (mprotectLoop start stop prot ks l pt).pt :=
  (mprotectLoop_edit hstart hstop hlt hwx ks h.laid pt).invariant [] (Protect.space hstart) h

end Mprotect

section Processes

variable {P : Process} {addr len : Nat} {tailOk : Bool}

theorem dvd_pageUp (a : Nat) : pageSize ∣ pageUp a := Dvd.intro_left _ rfl

theorem pageUp_lt (a : Nat) : pageUp a < 2 ^ 64 :=
  (Nat.div_mul_le_self _ _).trans_lt (Nat.mod_lt _ (by decide))

theorem pageUp_of_dvd {a : Nat} (h : pageSize ∣ a) (ha : a ≤ userAddrLimit) : pageUp a = a := by
  obtain ⟨k, rfl⟩ := h
  unfold pageUp u64 userAddrLimit pageSize at *
  omega

/-- The place that a mapping of `len` bytes gets is free and below the limit: with
`MAP_FIXED` the munmap inside must not run out of memory, without it the cursor must not
have reached a mapping that was placed above it. -/
def Room (P : Process) (addr len : Nat) (flags : BitVec 32) (tailOk : Bool) : Prop :=
  0 < len ∧
    if hasBit flags mapFixed then
      addr + len ≤ userAddrLimit ∧
        (tailOk = true ∨ ∀ v ∈ P.vmas, ¬(v.start < addr ∧ addr + len < v.stop))
    else ∀ v ∈ P.vmas, v.stop ≤ P.mmapNext ∨ P.mmapNext + len ≤ v.start

instance (P : Process) (addr len : Nat) (flags : BitVec 32) (tailOk : Bool) :
    Decidable (Room P addr len flags tailOk) := by
  unfold Room
  infer_instance

theorem Process.Ok.cursor_add (h : P.Ok rights) (hlen : len < 2 ^ 64)
    (hle : ¬(u64 (P.mmapNext + len) > mmapLimit ∨ u64 (P.mmapNext + len) < P.mmapNext)) :
    u64 (P.mmapNext + len) = P.mmapNext + len ∧ P.mmapNext + len ≤ mmapLimit := by
  have hlimit := h.limit
  unfold u64 mmapLimit at *
  omega

structure Placed (q : Process) (a len : Nat) : Prop where
  aligned : pageSize ∣ a
  limit : a + len ≤ userAddrLimit
  free : ∀ v ∈ q.vmas, v.stop ≤ a ∨ a + len ≤ v.start

theorem Inserted.space {vmas vmas' : List Vma} {start stop : Nat}
    (hi : Inserted rights vmas vmas' start stop prot flags) (h : Space rights vmas pt) :
    Space rights vmas' pt := by
  refine ⟨hi.laid, fun s e he => ?_⟩
  obtain ⟨v, hv, hcov, hall⟩ := h.covered s e he
  obtain ⟨w, hw, hlo, hhi, hlike⟩ := hi.old v hv
  exact ⟨w, hw, ⟨hlo.trans hcov.1, hcov.2.trans_le hhi⟩, hall.like hlike⟩

theorem freshVma_ok_of_placed {a : Nat} {q : Process} (h : Placed q a len) (hdvd : pageSize ∣ len)
    (hpos : 0 < len) (hwx : prot.writable = true → prot.executable = false) :
    (freshVma a (a + len) prot 0).Ok rights :=
  ⟨Nat.lt_add_of_pos_right hpos, h.aligned, dvd_add h.aligned hdvd, h.limit, fun _ => hwx⟩

theorem u64_of_limit {a : Nat} (h : a ≤ userAddrLimit) : u64 a = a :=
  Nat.mod_eq_of_lt (h.trans_lt (by decide))

theorem lookup_mapDevice_foldl {s : Nat} {e : Pte} (fs : List (Frame × Nat))
    (h : (fs.foldl (fun t x => mapInto t (addr + pageSize * x.2) (devicePage x.1 prot))
      pt).lookup s = some e) :
    pt.lookup s = some e ∨
      ∃ x ∈ fs, s = pageOf (addr + pageSize * x.2) ∧ e = devicePage x.1 prot := by
  induction fs generalizing pt with
  | nil => exact .inl h
  | cons x fs ih =>
      rcases ih h with hold | ⟨y, hy, heq⟩
      · obtain ⟨hs, he⟩ | ⟨-, hold⟩ := Table.lookup_insert_cases hold
        · exact .inr ⟨x, mem_cons_self, hs, he.symm⟩
        · exact .inl hold
      · exact .inr ⟨y, mem_cons_of_mem _ hy, heq⟩

end Processes

end NeoKernel.Vm
