import NeoKernel.Vm.Space

/-!
# Loops over the mappings

`vma_munmap_locked` and `vma_mprotect_locked` replace the mappings they reach by pieces and
rewrite the entries of their pages. What they do with one mapping is said here once.
-/
namespace NeoKernel.Vm
open Lib List

/-- Each mapping is replaced in turn, with the page table that those before it have left. -/
inductive Edit (step : Vma → PageTable → List Vma → PageTable → List Frame → Prop) :
    List Vma → PageTable → List Vma → PageTable → List Frame → Prop where
  | nil {pt : PageTable} : Edit step [] pt [] pt []
  | cons {v : Vma} {l vs l' : List Vma} {pt pt' pt'' : PageTable} {fs fs' : List Frame} :
      step v pt vs pt' fs → Edit step l pt' l' pt'' fs' →
      Edit step (v :: l) pt (vs ++ l') pt'' (fs ++ fs')

variable {l vs : List Vma} {v : Vma} {pt pt' : PageTable} {fs : List Frame}

section Edit

variable {l' : List Vma} {step : Vma → PageTable → List Vma → PageTable → List Frame → Prop}

theorem Edit.stay (h : ∀ v ∈ l, step v pt [v] pt []) : Edit step l pt l pt [] := by
  induction l with
  | nil => exact .nil
  | cons v l ih =>
      obtain ⟨hv, hl⟩ := forall_mem_cons.1 h
      exact .cons hv (ih hl)

theorem Edit.last (hv : step v pt vs pt' fs) (h : ∀ w ∈ l, step w pt' [w] pt' []) :
    Edit step (v :: l) pt (vs ++ l) pt' fs := by
  simpa using Edit.cons hv (.stay h)

theorem Edit.forall_mem {P : Vma → Prop} (h : Edit step l pt l' pt' fs)
    (hstep : ∀ {v vs pt pt' fs}, step v pt vs pt' fs → ∀ w ∈ vs, P w) : ∀ w ∈ l', P w := by
  induction h with
  | nil => nofun
  | cons hv _ ih => exact forall_mem_append.2 ⟨hstep hv, ih⟩

/-- What holds of all the mappings is kept if replacing one of them keeps it. -/
theorem Edit.invariant {I : List Vma → PageTable → Prop} (pre : List Vma)
    (hstep : ∀ {pre v l vs pt pt' fs},
      step v pt vs pt' fs → I (pre ++ v :: l) pt → I (pre ++ (vs ++ l)) pt')
    (h : Edit step l pt l' pt' fs) (hi : I (pre ++ l) pt) : I (pre ++ l') pt' := by
  induction h generalizing pre with
  | nil => exact hi
  | @cons v l vs l' pt pt' pt'' fs fs' hv _ ih =>
      simpa using ih (pre ++ vs) (by simpa using hstep hv hi)

end Edit

variable {rights : Prop}

section Ends

variable {keeps : Prop} {w : Vma} {stay : Nat → Prop} {prot : Nat → Prot} {pos a : Nat}

theorem Recut.imp {keeps' : Prop} {lo hi : Nat} {vs : List Vma}
    (h : Recut rights keeps v stay prot lo hi vs) (hk : keeps' → keeps) :
    Recut rights keeps' v stay prot lo hi vs :=
  { h with same := fun w hw a hlo hhi => ⟨(h.same w hw a hlo hhi).1,
      fun hk' => (h.same w hw a hlo hhi).2 (hk hk')⟩ }

theorem Vma.Ok.cut {start : Nat} (h : v.Ok rights) (hstart : pageSize ∣ start) (stop : Nat) :
    pageSize ∣ max v.start start ∧ min v.stop stop ≤ 2 ^ 48 := by
  refine ⟨?_, (min_le_left _ _).trans (h.limit.trans (by decide))⟩
  rcases max_choice v.start start with heq | heq <;> rw [heq]
  · exact h.start
  · exact hstart

theorem Recut.head (hv : v.Ok rights) (hpos : pageSize ∣ pos) (hlt : v.start < pos)
    (hle : pos ≤ v.stop)
    (hprot : ∀ a, a < pos → v.prot = prot a ∧ stay a) :
    Recut rights keeps v stay prot v.start pos [{ v with stop := pos }] :=
  .single (hv.head hpos hlt hle) rfl rfl rfl fun a _ ha =>
    ⟨(hprot a ha).1, fun _ => ⟨(hprot a ha).2, rfl⟩⟩

theorem Vma.TailOf.recut (h : w.TailOf v pos) (hv : v.Ok rights) (hpos : pageSize ∣ pos)
    (hlt : pos < v.stop) (hprot : ∀ a, pos ≤ a → v.prot = prot a ∧ stay a)
    (hback : keeps → ∀ a, pos ≤ a → w.backing a = v.backing a) :
    Recut rights keeps v stay prot pos v.stop [w] :=
  .single (h.ok hv hpos hlt) h.start h.stop h.like.2 fun a ha _ =>
    ⟨h.like.1.trans (hprot a ha).1, fun hk => ⟨(hprot a ha).2, hback hk a ha⟩⟩

theorem Vma.backing_tailFrom (hpos : v.start ≤ pos) (ha : pos ≤ a) :
    (v.tailFrom pos).backing a = v.backing a := by
  unfold tailFrom
  split
  · have hoff : v.fileOff + (pos - v.start) + (a - pos) = v.fileOff + (a - v.start) := by omega
    exact congrArg (fun off => if v.file ∧ v.vn ≠ 0 then some (v.vn, off) else none) hoff
  · next hfile =>
      have hnone : ¬(v.file ∧ v.vn ≠ 0) := fun h => hfile h.1
      exact (if_neg hnone).trans (if_neg hnone).symm

theorem Vma.backing_punched (hpos : v.start ≤ pos) (ha : pos ≤ a) :
    (v.punched pos).backing a = v.backing a := by
  unfold punched
  split
  · exact backing_tailFrom hpos ha
  · next hnone => exact (if_neg (by simp)).trans (if_neg hnone).symm

end Ends

variable {start stop : Nat} {prot : Prot}

/-- What munmap does with one mapping: unless it fails (`¬ok`) nothing of the range is left. -/
inductive Unmap (rights : Prop) (start stop : Nat) (ok : Prop) (v : Vma) (pt : PageTable) :
    List Vma → PageTable → List Frame → Prop where
  | cut {vs : List Vma} :
      Recut rights ok v (fun a => ¬(start ≤ a ∧ a < stop)) (fun _ => v.prot) v.start v.stop vs →
      Unmap rights start stop ok v pt vs (unmapRange pt (max v.start start) (min v.stop stop)).1
        (v.released (unmapRange pt (max v.start start) (min v.stop stop)).2)

theorem pages_of_le {lo hi : Nat} (h : hi ≤ lo) : pages lo hi = [] := by
  unfold pages
  rw [Nat.sub_eq_zero_of_le h]
  rfl

theorem Unmap.skip {ok : Prop} {pt : PageTable} (hv : v.Ok rights)
    (hout : v.stop ≤ start ∨ stop ≤ v.start) : Unmap rights start stop ok v pt [v] pt [] := by
  have h : Unmap rights start stop ok v pt [v] _ _ := .cut (.single hv rfl rfl rfl fun a _ _ =>
    ⟨rfl, fun _ => ⟨by omega, rfl⟩⟩)
  simpa [unmapRange, pages_of_le (show min v.stop stop ≤ max v.start start by omega),
    Vma.released] using h

theorem munmapLoop_edit (hstart : pageSize ∣ start) (hstop : pageSize ∣ stop) (hlt : start < stop)
    (kmalloc : Bool) {l : List Vma} (h : Laid rights l) (pt : PageTable) :
    Edit (Unmap rights start stop ((munmapLoop start stop kmalloc l pt).rc = .ok ())) l pt
      (munmapLoop start stop kmalloc l pt).vmas (munmapLoop start stop kmalloc l pt).pt
      (munmapLoop start stop kmalloc l pt).freed := by
  induction l generalizing pt with
  | nil => exact .nil
  | cons v rest ih =>
      have hv : v.Ok rights := h.ok v mem_cons_self
      have hsorted := (pairwise_cons.1 h.sorted).1
      unfold munmapLoop
      split
      · next hbefore => exact .cons (.skip hv (.inl hbefore)) (ih h.tail pt)
      have hrest : stop ≤ v.stop →
          ∀ {ok pt}, ∀ w ∈ rest, Unmap rights start stop ok w pt [w] pt [] :=
        fun hle _ _ w hw => .skip (h.tail.ok w hw) (.inr (hle.trans (hsorted w hw)))
      split
      · next hafter =>
          exact .last (.skip hv (.inr hafter)) (hrest (hafter.trans hv.lt.le))
      next hbefore hafter =>
      have hhead : v.start < start → Recut rights True v (fun a => ¬(start ≤ a ∧ a < stop))
          (fun _ => v.prot) v.start start [{ v with stop := start }] := fun hin =>
        .head hv hstart hin (le_of_not_ge hbefore) fun a ha =>
          ⟨rfl, fun hr => absurd hr.1 (not_le.2 ha)⟩
      have hgone : ∀ {lo hi}, start ≤ lo → hi ≤ stop → Recut rights True v
          (fun a => ¬(start ≤ a ∧ a < stop)) (fun _ => v.prot) lo hi [] := fun hlo hhi =>
        .nil fun a ha ha' hout => hout ⟨hlo.trans ha, ha'.trans_le hhi⟩
      have htail : ∀ {w}, w.TailOf v stop → stop < v.stop →
          (∀ a, stop ≤ a → w.backing a = v.backing a) → Recut rights True v
            (fun a => ¬(start ≤ a ∧ a < stop)) (fun _ => v.prot) stop v.stop [w] := fun hw hin hb =>
        hw.recut hv hstop hin (fun a ha => ⟨rfl, fun hr => absurd hr.2 (not_lt.2 ha)⟩) fun _ => hb
      have hfrom : v.start ≤ stop := le_of_not_ge hafter
      dsimp only
      split
      · next hin =>
          split
          · -- a hole is punched
            have hback := htail (Vma.punched_tailOf v stop) hin.2 fun a ha =>
              Vma.backing_punched hfrom ha
            have hvs := (hhead hin.1).append ((hgone le_rfl le_rfl).append hback hlt.le hin.2.le)
              hin.1.le (hlt.trans hin.2).le
            exact .last (.cut (hvs.imp fun _ => trivial)) (hrest hin.2.le)
          · -- no memory for the tail: the mapping stays as it was
            refine .last (.cut (.single hv rfl rfl rfl fun _ _ _ => ⟨rfl, ?_⟩)) (hrest hin.2.le)
            rintro ⟨⟩
      next hpunch =>
      split
      · next hin =>
          have hle : v.stop ≤ stop := not_lt.1 fun hlt => hpunch ⟨hin, hlt⟩
          have hvs := (hhead hin).append (hgone le_rfl hle) hin.le (le_of_not_ge hbefore)
          exact .cons (.cut (hvs.imp fun _ => trivial)) (ih h.tail _)
      next hto =>
      split
      · next hin =>
          have hback := htail (Vma.tailFrom_tailOf v stop) hin fun a ha =>
            Vma.backing_tailFrom hfrom ha
          have hvs := (hgone (not_lt.1 hto) le_rfl).append hback hfrom hin.le
          exact .last (.cut (hvs.imp fun _ => trivial)) (hrest hin.le)
      · next hin =>
          exact .cons (.cut ((hgone (not_lt.1 hto) (not_lt.1 hin)).imp fun _ => trivial))
            (ih h.tail _)

/-- The protection at an address, after a change of those from `start` to `stop`. -/
def Vma.protAt (v : Vma) (start stop : Nat) (prot : Prot) (a : Nat) : Prot :=
  if start ≤ a ∧ a < stop then prot else v.prot

/-- The range does not begin or end inside of a file mapping. -/
def Vma.Unsplit (v : Vma) (start stop : Nat) : Prop :=
  v.file → ¬(v.start < start ∧ start < v.stop) ∧ ¬(v.start < stop ∧ stop < v.stop)

/-- What mprotect does with one mapping. If it fails (`¬ok`) the mapping may be split already. -/
inductive Protect (rights : Prop) (start stop : Nat) (prot : Prot) (ok : Prop) (v : Vma)
    (pt : PageTable) : List Vma → PageTable → List Frame → Prop where
  | fail {vs : List Vma} : ¬ok →
      Recut rights False v (fun _ => True) (fun _ => v.prot) v.start v.stop vs →
      Protect rights start stop prot ok v pt vs pt []
  | change {vs : List Vma} :
      Recut rights (v.Unsplit start stop) v (fun _ => True) (v.protAt start stop prot)
        v.start v.stop vs →
      Protect rights start stop prot ok v pt vs
        (setprotRange prot.access pt (max v.start start) (min v.stop stop)) []

theorem Protect.skip {ok : Prop} {pt : PageTable} (hv : v.Ok rights)
    (hout : v.stop ≤ start ∨ stop ≤ v.start) :
    Protect rights start stop prot ok v pt [v] pt [] := by
  have h : Protect rights start stop prot ok v pt [v] _ _ := .change (.single hv rfl rfl rfl
    fun a _ _ => ⟨(if_neg (by omega)).symm, fun _ => ⟨trivial, rfl⟩⟩)
  simpa [setprotRange, pages_of_le (show min v.stop stop ≤ max v.start start by omega)] using h

theorem Vma.backing_of_flags {w : Vma} (h : w.flags = v.flags) (hv : ¬v.file) (a : Nat) :
    w.backing a = v.backing a := by
  have hw : ¬w.file := by rwa [file, h]
  exact (if_neg fun hf => hw hf.1).trans (if_neg fun hf => hv hf.1).symm

theorem splitFront_recut (keeps : Prop) (protAt : Nat → Prot) (stop : Nat) {w : Vma}
    {ks ks' : List Kmalloc} {front : List Vma} (hv : v.Ok rights) (hstart : pageSize ∣ start)
    (hlt : start < v.stop)
    (hprot : ∀ a, a < start → v.prot = protAt a)
    (hs : splitFront start ks v = some (front, w, ks')) :
    Recut rights keeps v (fun _ => True) protAt v.start w.start front ∧
      w.start = max v.start start ∧ w.stop = v.stop ∧ w.Like v ∧
      (v.Unsplit start stop → ∀ a, w.backing a = v.backing a) := by
  unfold splitFront at hs
  split at hs
  · next hbefore =>
      split at hs
      · cases hs
      · cases hs
        refine ⟨.head hv hstart hbefore hlt.le fun a ha => ⟨hprot a ha, trivial⟩,
          (max_eq_right hbefore.le).symm, rfl, ⟨rfl, rfl⟩, fun hw => ?_⟩
        exact Vma.backing_of_flags rfl fun hf => (hw hf).1 ⟨hbefore, hlt⟩
  · next hfrom =>
      cases hs
      exact ⟨.nil fun a hlo hhi => absurd hlo (not_le.2 hhi),
        (max_eq_left (not_lt.1 hfrom)).symm, rfl,
        ⟨rfl, rfl⟩, fun _ _ => rfl⟩

theorem mprotectLoop_edit (hstart : pageSize ∣ start) (hstop : pageSize ∣ stop) (hlt : start < stop)
    (hwx : prot.writable = true → prot.executable = false) (ks : List Kmalloc) {l : List Vma}
    (h : Laid rights l) (pt : PageTable) :
    Edit (Protect rights start stop prot ((mprotectLoop start stop prot ks l pt).rc = .ok ())) l pt
      (mprotectLoop start stop prot ks l pt).vmas (mprotectLoop start stop prot ks l pt).pt [] := by
  induction l generalizing ks pt with
  | nil => exact .nil
  | cons v rest ih =>
      have hv : v.Ok rights := h.ok v mem_cons_self
      have hsorted := (pairwise_cons.1 h.sorted).1
      unfold mprotectLoop
      split
      · next hbefore => exact .cons (.skip hv (.inl hbefore)) (ih ks h.tail pt)
      have hrest : stop ≤ v.stop → ∀ {ok pt}, ∀ w ∈ rest,
          Protect rights start stop prot ok w pt [w] pt [] := fun hle _ _ w hw =>
        .skip (h.tail.ok w hw) (.inr (hle.trans (hsorted w hw)))
      split
      · next hafter =>
          exact .last (.skip hv (.inr hafter)) (hrest (hafter.trans hv.lt.le))
      next hbefore hafter =>
      have hstay : ∀ {ok pt}, ¬ok →
          ∀ w ∈ v :: rest, Protect rights start stop prot ok w pt [w] pt [] :=
        fun hok w hw => .fail hok (.single (h.ok w hw) rfl rfl rfl fun _ _ _ => ⟨rfl, nofun⟩)
      split
      · exact .stay (hstay (by simp))
      next front w ks' hfront =>
      have hbefore := not_le.1 hbefore
      obtain ⟨hpieces, hwstart, hwstop, hlike, hback⟩ := splitFront_recut (v.Unsplit start stop)
        (v.protAt start stop prot) stop hv hstart hbefore
        (fun a ha => (if_neg fun hr => absurd hr.1 (not_le.2 ha)).symm) hfront
      have hw : w.Ok rights := by
        refine hv.piece hlike ?_ ?_ (hwstop ▸ hv.stop) hwstop.le
        · rw [hwstart, hwstop]
          exact max_lt hv.lt hbefore
        · rw [hwstart]
          exact (hv.cut hstart stop).1
      have hwle : v.start ≤ w.start := by omega
      have hin : ∀ {a}, w.start ≤ a → a < stop → prot = v.protAt start stop prot a := fun ha ha' =>
        (if_pos ⟨by omega, ha'⟩).symm
      split
      · next hbeyond =>
          split
          · obtain ⟨hpieces, -⟩ := splitFront_recut False (fun _ => v.prot) stop hv hstart hbefore
              (fun _ _ => rfl) hfront
            have hvs := hpieces.append (.single hw rfl hwstop hlike.2 fun _ _ _ => ⟨hlike.1, nofun⟩)
              hwle (hw.lt.le.trans_eq hwstop)
            have hfail : ¬(Except.error Errno.enomem : Except Errno Unit) = .ok () := nofun
            have hedit : Edit _ (v :: rest) pt _ _ _ := .last (.fail hfail hvs) fun x hx =>
              hstay hfail x (mem_cons_of_mem _ hx)
            simpa using hedit
          · next junk _ =>
              have htail : (w.splitTail stop junk).TailOf w stop := ⟨rfl, rfl, rfl, rfl⟩
              have hlow : w.start < stop := by omega
              have hmid : Recut rights (v.Unsplit start stop) v (fun _ => True)
                  (v.protAt start stop prot) w.start stop [{ w with stop := stop, prot := prot }] :=
                .single ⟨hlow, hw.start, hstop, hbeyond.le.trans hw.limit,
                  fun _ => hwx⟩ rfl rfl hlike.2
                  fun a ha ha' => ⟨hin ha ha', fun hk => ⟨trivial, hback hk a⟩⟩
              have hend : Recut rights (v.Unsplit start stop) v (fun _ => True)
                  (v.protAt start stop prot) stop v.stop [w.splitTail stop junk] := by
                refine .single (htail.ok hw hstop hbeyond) rfl hwstop hlike.2 fun a ha _ => ⟨?_, ?_⟩
                · exact hlike.1.trans (if_neg fun hr => absurd hr.2 (not_lt.2 ha)).symm
                · intro hk
                  refine ⟨trivial, Vma.backing_of_flags (w := w.splitTail stop junk) hlike.2
                    (fun hf => ?_) a⟩
                  exact (hk hf).2 ⟨not_le.1 hafter, hbeyond.trans_eq hwstop⟩
              have hvs :=
                hpieces.append (hmid.append hend hlow.le (hbeyond.trans_eq hwstop).le) hwle
                (hw.lt.le.trans_eq hwstop)
              have hedit : Edit (Protect rights start stop prot True) (v :: rest) pt _ _ _ :=
                .last (.change hvs) (hrest (hbeyond.trans_eq hwstop).le)
              have hmin : min v.stop stop = stop := min_eq_right (hbeyond.trans_eq hwstop).le
              rw [hmin, ← hwstart] at hedit
              simpa using hedit
      · next hwithin =>
          have hmid : ({ w with prot := prot } : Vma).Ok rights := { hw with wx := fun _ => hwx }
          have hvs := hpieces.append (.single hmid rfl hwstop hlike.2 fun a ha ha' =>
            ⟨hin ha (by omega), fun hk => ⟨trivial, hback hk a⟩⟩) hwle (hw.lt.le.trans_eq hwstop)
          have hedit : Edit _ (v :: rest) pt _ _ _ := .cons (.change hvs) (ih ks' h.tail _)
          have hmin : min v.stop stop = w.stop := by omega
          rw [hmin, ← hwstart] at hedit
          simpa using hedit

section Space

variable {ok : Prop} {pre : List Vma}

theorem Unmap.space (hstart : pageSize ∣ start) (h : Unmap rights start stop ok v pt vs pt' fs)
    (hs : Space rights (pre ++ v :: l) pt) : Space rights (pre ++ (vs ++ l)) pt' := by
  cases h with
  | cut hvs =>
      have hv : v.Ok rights := hs.laid.ok v (mem_append_right _ mem_cons_self)
      obtain ⟨hlo, hhi⟩ := hv.cut hstart stop
      refine hs.recut hvs fun s e he => ?_
      rw [lookup_unmapRange pt hlo hhi] at he
      split at he
      · cases he
      next hout =>
      refine ⟨e, he, fun _ => rfl, fun hcov =>
        ⟨fun hr => ?_, fun w hf hp hall => hall.like ⟨hp, hf⟩⟩⟩
      exact hout ⟨max_le hcov.1 hr.1, lt_min hcov.2 hr.2⟩

theorem Unmap.apart (hlt : start < stop) (h : Unmap rights start stop True v pt vs pt' fs) :
    ∀ w ∈ vs, w.stop ≤ start ∨ stop ≤ w.start := by
  cases h with
  | cut hvs =>
      intro w hw
      by_contra hin
      obtain ⟨hlo, hhi⟩ := not_or.1 hin
      have hstay := (hvs.same w hw (max w.start start) (le_max_left _ _)
        (max_lt (hvs.ok w hw).lt (not_le.1 hlo))).2 trivial
      exact hstay.1 ⟨le_max_right _ _, max_lt (not_le.1 hhi) hlt⟩

theorem lookup_setprotRange_some {lo hi s : Nat} {e' : Pte} (a : Option Access)
    (hlo : pageSize ∣ lo)
    (hhi : hi ≤ 2 ^ 48) (h : (setprotRange a pt lo hi).lookup s = some e') :
    ∃ e, pt.lookup s = some e ∧ (¬(lo ≤ pageSize * s ∧ pageSize * s < hi) ∧ e' = e ∨
      (lo ≤ pageSize * s ∧ pageSize * s < hi) ∧ e' = e.setprot a) := by
  rw [lookup_setprotRange a pt hlo hhi] at h
  split at h
  · next hin =>
      obtain ⟨e, he, rfl⟩ := Option.map_eq_some_iff.1 h
      exact ⟨e, he, .inr ⟨hin, rfl⟩⟩
  · next hout => exact ⟨e', h, .inl ⟨hout, rfl⟩⟩

theorem allowed_setprot {e : Pte} {w : Vma} (hnofree : e.nofree = true → w.phys = true)
    (hprot : w.prot = prot) :
    Allowed rights w (e.setprot prot.access) := by
  subst hprot
  unfold Prot.access
  split
  · next hnone =>
      exact ⟨fun _ => nofun, fun _ => nofun, fun _ => ⟨hnone, rfl⟩, fun _ => rfl, hnofree,
        fun _ hw => absurd (hnone ▸ hw) (by decide)⟩
  · refine ⟨fun _ hw => ?_, fun _ _ hx => ?_, nofun, nofun, hnofree, fun _ hw => ⟨rfl, ?_⟩⟩
    · exact (Bool.and_eq_true_iff.1 hw).1
    · simpa [Pte.setprot] using hx
    · cases hcow : e.cow <;> simp [Pte.setprot, hw, hcow]

theorem Protect.space (hstart : pageSize ∣ start)
    (h : Protect rights start stop prot ok v pt vs pt' fs)
    (hs : Space rights (pre ++ v :: l) pt) : Space rights (pre ++ (vs ++ l)) pt' := by
  cases h with
  | fail _ hvs =>
      exact hs.recut hvs fun s e he => ⟨e, he, fun _ => rfl, fun _ =>
        ⟨trivial, fun w hf hp hall => hall.like ⟨hp, hf⟩⟩⟩
  | change hvs =>
      have hv : v.Ok rights := hs.laid.ok v (mem_append_right _ mem_cons_self)
      obtain ⟨hlo, hhi⟩ := hv.cut hstart stop
      refine hs.recut hvs fun s e' he' => ?_
      obtain ⟨e, he, ⟨hout, rfl⟩ | ⟨hin, rfl⟩⟩ := lookup_setprotRange_some _ hlo hhi he'
      · refine ⟨_, he, fun _ => rfl, fun hcov =>
          ⟨trivial, fun w hf hp hall => hall.like ⟨hp.trans ?_, hf⟩⟩⟩
        exact if_neg fun hr => hout ⟨max_le hcov.1 hr.1, lt_min hcov.2 hr.2⟩
      · have hr : start ≤ pageSize * s ∧ pageSize * s < stop :=
          ⟨(le_max_right _ _).trans hin.1, hin.2.trans_le (min_le_right _ _)⟩
        refine ⟨e, he, fun hcov => absurd ⟨(le_max_left _ _).trans hin.1,
          hin.2.trans_le (min_le_left _ _)⟩ hcov, fun _ => ⟨trivial, fun w hf hp hall => ?_⟩⟩
        refine allowed_setprot (fun hn => ?_) (hp.trans (if_pos hr))
        rw [Vma.phys, hf]
        exact hall.nofree hn

end Space

end NeoKernel.Vm
