import NeoKernel.Vm.Locked

/-!
# The calls of vma.c, and references to private frames

An entry without `PAGE_NOFREE` holds a reference to its frame. `Shrinks` is what the calls of
vma.c do with a page table: each reference they give up is among the frames to release, an entry
that stays keeps its frame, and what they add are device pages. It needs that the pages of device
mappings, and no others, are device pages (`Pure`). `Reshaped` says this of each `_locked`
function, and that it keeps the address space well formed.
-/
namespace NeoKernel.Vm
open Lib List Table

def Pte.holds (f : Frame) (e : Pte) : Nat := if e.nofree = false ∧ e.frame = f then 1 else 0

def refsIn (pt : PageTable) (f : Frame) : Nat := pt.weigh fun _ e => e.holds f

variable {pt : PageTable} {s : Nat} {e e' : Pte}

section Tables

variable {va : Nat} {f : Frame}

theorem Pte.holds_self (h : e.nofree = false) : e.holds e.frame = 1 := if_pos ⟨h, rfl⟩

theorem Pte.holds_of_ne (h : e.frame ≠ f) : e.holds f = 0 := if_neg fun hf => h hf.2

theorem Pte.holds_of_nofree (h : e.nofree = true) : e.holds f = 0 :=
  if_neg fun hf => by cases h.symm.trans hf.1

theorem Pte.holds_congr (hf : e'.frame = e.frame) (hn : e'.nofree = e.nofree) :
    e'.holds f = e.holds f := by
  unfold holds
  rw [hf, hn]

theorem Pte.holds_eq_count (h : e.nofree = false) : e.holds f = [e.frame].count f := by
  by_cases hf : e.frame = f
  · rw [← hf, holds_self h, count_singleton_self]
  · rw [holds_of_ne hf, count_singleton, if_neg (by simpa using hf)]

theorem refsIn_of_lookup (h : pt.lookup s = some e) (f : Frame) :
    refsIn pt f = e.holds f + refsIn (pt.erase s) f :=
  weigh_of_lookup h

theorem refsIn_insert (pt : PageTable) (s : Nat) (e : Pte) (f : Frame) :
    refsIn (pt.insert s e) f = e.holds f + refsIn (pt.erase s) f :=
  weigh_insert

theorem refsIn_insert_of_none (h : pt.lookup s = none) (e : Pte) (f : Frame) :
    refsIn (pt.insert s e) f = e.holds f + refsIn pt f :=
  weigh_insert_of_none h

theorem refsIn_set (pt : PageTable) (s : Nat) (e : Pte) (f : Frame) :
    refsIn (pt.insert s e) f + (pt.lookup s).elim 0 (Pte.holds f) = refsIn pt f + e.holds f := by
  cases h : pt.lookup s with
  | none => exact (refsIn_insert_of_none h e f).trans (Nat.add_comm _ _)
  | some d =>
      rw [refsIn_insert, refsIn_of_lookup h]
      dsimp only [Option.elim_some]
      omega

theorem refsIn_replace (h : pt.lookup s = some e) (hf : e'.frame = e.frame)
    (hn : e'.nofree = e.nofree) (f : Frame) : refsIn (pt.insert s e') f = refsIn pt f := by
  rw [refsIn_insert, refsIn_of_lookup h, Pte.holds_congr hf hn]

theorem one_le_refsIn (h : pt.lookup s = some e) (hn : e.nofree = false) :
    1 ≤ refsIn pt e.frame := by
  rw [refsIn_of_lookup h, Pte.holds_self hn]
  exact Nat.le_add_right _ _

end Tables

/-- The entry `e'` has come from `e`. It may have become writable if its frame is `alone`. -/
def Pte.KeptFrom (alone : Frame → Prop) (e' e : Pte) : Prop :=
  e'.frame = e.frame ∧ e'.nofree = e.nofree ∧ e'.cow = e.cow ∧
    (e'.writable = true → e.nofree = true ∨ e.writable = true ∨ alone e.frame)

/-- The page table `pt` becomes `pt'` and the references `freed` are to be released. -/
structure Shrinks (device : Frame → Bool) (alone : Frame → Prop) (pt pt' : PageTable)
    (freed : List Frame) : Prop where
  balance : ∀ f, refsIn pt' f + freed.count f = refsIn pt f
  kept : ∀ s e', pt'.lookup s = some e' →
    (e'.nofree = true ∧ device e'.frame = true ∧ e'.cow = false) ∨
    ∃ e, pt.lookup s = some e ∧ e'.KeptFrom alone e

variable {device : Frame → Bool} {alone : Frame → Prop} {pt' pt'' : PageTable} {fs fs' : List Frame}

section Shrinks

variable {e'' : Pte}

theorem Pte.KeptFrom.refl (e : Pte) : e.KeptFrom alone e :=
  ⟨rfl, rfl, rfl, fun hw => .inr (.inl hw)⟩

theorem Pte.KeptFrom.trans (h' : e''.KeptFrom alone e') (h : e'.KeptFrom alone e) :
    e''.KeptFrom alone e := by
  obtain ⟨hframe, hnofree, hcow, hwrite⟩ := h
  obtain ⟨hframe', hnofree', hcow', hwrite'⟩ := h'
  refine ⟨hframe'.trans hframe, hnofree'.trans hnofree, hcow'.trans hcow, fun hw => ?_⟩
  rcases hwrite' hw with hn | hw | halone
  · exact .inl (hnofree ▸ hn)
  · exact hwrite hw
  · exact .inr (.inr (hframe ▸ halone))

theorem Shrinks.refl (pt : PageTable) : Shrinks device alone pt pt [] :=
  ⟨fun _ => rfl, fun _ e he => .inr ⟨e, he, .refl e⟩⟩

theorem Shrinks.trans (h : Shrinks device alone pt pt' fs)
    (h' : Shrinks device alone pt' pt'' fs') :
    Shrinks device alone pt pt'' (fs ++ fs') := by
  constructor
  · intro f
    rw [count_append]
    have := h.balance f
    have := h'.balance f
    omega
  · intro s e'' he''
    rcases h'.kept s e'' he'' with hdev | ⟨e', he', hkept'⟩
    · exact .inl hdev
    rcases h.kept s e' he' with ⟨hnofree, hdev, hcow⟩ | ⟨e, he, hkept⟩
    · obtain ⟨hframe', hnofree', hcow', -⟩ := hkept'
      exact .inl ⟨hnofree'.trans hnofree, hframe' ▸ hdev, hcow'.trans hcow⟩
    · exact .inr ⟨e, he, hkept'.trans hkept⟩

end Shrinks

/-- The pages of device mappings are device pages, those of other mappings are not. -/
def Pure (vmas : List Vma) (pt : PageTable) : Prop :=
  ∀ v ∈ vmas, ∀ s e, v.Covers s → pt.lookup s = some e → e.nofree = v.phys

/-- The mapping is part of an older one of the same kind. -/
def Vma.PieceOf (w v : Vma) : Prop := v.start ≤ w.start ∧ w.stop ≤ v.stop ∧ w.flags = v.flags

variable {rights : Prop} {vmas vmas' : List Vma} {v w : Vma}

section Pure

variable {u : Vma}

theorem Vma.PieceOf.refl (v : Vma) : v.PieceOf v := ⟨le_rfl, le_rfl, rfl⟩

theorem Vma.SameArea.pieceOf (h : w.SameArea v) : w.PieceOf v := ⟨h.1.ge, h.2.1.le, h.2.2.2⟩

theorem Vma.PieceOf.covers (h : w.PieceOf v) (hw : w.Covers s) : v.Covers s :=
  ⟨h.1.trans hw.1, hw.2.trans_le h.2.1⟩

theorem Vma.phys_congr (h : w.flags = v.flags) : w.phys = v.phys := by
  unfold Vma.phys
  rw [h]

theorem Pure.pieces (h : Pure vmas pt) (hpieces : ∀ w ∈ vmas', ∃ v ∈ vmas, w.PieceOf v)
    (hsub : ∀ s e', pt'.lookup s = some e' → ∃ e, pt.lookup s = some e ∧ e'.nofree = e.nofree) :
    Pure vmas' pt' := by
  intro w hw s e' hcov he'
  obtain ⟨v, hv, hpiece⟩ := hpieces w hw
  obtain ⟨e, he, hkind⟩ := hsub s e' he'
  rw [hkind, h v hv s e (hpiece.covers hcov) he, Vma.phys_congr hpiece.2.2]

theorem Pure.inserted {start stop : Nat} {prot : Prot} {flags : BitVec 32}
    (h : Pure vmas pt) (hspace : Space rights vmas pt)
    (hins : Inserted rights vmas vmas' start stop prot flags) : Pure vmas' pt := by
  intro w hw s e hcov he
  obtain ⟨v, hv, hcv, -⟩ := hspace.covered s e he
  obtain ⟨x, hx, hlo, hhi, hlike⟩ := hins.old v hv
  have hcx : x.Covers s := ⟨hlo.trans hcv.1, hcv.2.trans_le hhi⟩
  cases hins.laid.eq_of_covers hw hx hcov hcx
  rw [h v hv s e hcv he, Vma.phys_congr hlike.2]

theorem Pure.insert {e : Pte} (h : Pure vmas pt)
    (hkind : ∀ v ∈ vmas, v.Covers s → e.nofree = v.phys) :
    Pure vmas (pt.insert s e) := by
  intro v hv s' e' hcov he'
  obtain ⟨rfl, rfl⟩ | ⟨-, he'⟩ := lookup_insert_cases he'
  · exact hkind v hv hcov
  · exact h v hv s' e' hcov he'

end Pure

/-- What munmap and mprotect do: mappings are cut into pieces, and entries go, or stay with
their frame. -/
structure Cut (alone : Frame → Prop) (vmas : List Vma) (pt : PageTable) (vmas' : List Vma)
    (pt' : PageTable) (freed : List Frame) : Prop where
  balance : ∀ f, refsIn pt' f + freed.count f = refsIn pt f
  pieces : ∀ w ∈ vmas', ∃ v ∈ vmas, w.PieceOf v
  kept : ∀ s e', pt'.lookup s = some e' → ∃ e, pt.lookup s = some e ∧ e'.KeptFrom alone e

structure Shrunk (device : Frame → Bool) (alone : Frame → Prop) (P Q : Process)
    (freed : List Frame) : Prop where
  table : Shrinks device alone P.pt Q.pt freed
  kinds : Pure Q.vmas Q.pt

structure Reshaped (rights : Prop) (device : Frame → Bool) (alone : Frame → Prop) (P Q : Process)
    (freed : List Frame) : Prop where
  ok : Q.Ok rights
  shrunk : Pure P.vmas P.pt → Shrunk device alone P Q freed

variable {vs : List Vma} {P : Process}

section Cut

variable {rest : List Vma}

theorem Cut.refl (vmas : List Vma) (pt : PageTable) : Cut alone vmas pt vmas pt [] :=
  ⟨fun _ => rfl, fun v hv => ⟨v, hv, .refl v⟩, fun _ e he => ⟨e, he, .refl e⟩⟩

theorem Cut.shrunk {Q : Process} (h : Cut alone P.vmas P.pt Q.vmas Q.pt fs)
    (hp : Pure P.vmas P.pt) : Shrunk device alone P Q fs :=
  ⟨⟨h.balance, fun s e' he => .inr (h.kept s e' he)⟩, hp.pieces h.pieces fun s e' he =>
    let ⟨e, he', hkept⟩ := h.kept s e' he
    ⟨e, he', hkept.2.1⟩⟩

theorem Reshaped.refl {rights : Prop} (h : P.Ok rights) : Reshaped rights device alone P P [] :=
  ⟨h, fun hp => (Cut.refl _ _).shrunk hp⟩

theorem Reshaped.trans {rights : Prop} {Q R : Process} (h : Reshaped rights device alone P Q fs)
    (h' : Reshaped rights device alone Q R fs') : Reshaped rights device alone P R (fs ++ fs') :=
  ⟨h'.ok, fun hp =>
    let hq := h.shrunk hp
    let hr := h'.shrunk hq.kinds
    ⟨hq.table.trans hr.table, hr.kinds⟩⟩

theorem Cut.cons (hv : Cut alone [v] pt vs pt' fs) (hrest : Cut alone rest pt' vmas' pt'' fs') :
    Cut alone (v :: rest) pt (vs ++ vmas') pt'' (fs ++ fs') := by
  refine ⟨fun f => ?_, fun w hw => ?_, fun s e'' he'' => ?_⟩
  · rw [count_append]
    have := hv.balance f
    have := hrest.balance f
    omega
  · rcases mem_append.1 hw with hw | hw
    · obtain ⟨x, hx, hpiece⟩ := hv.pieces w hw
      exact ⟨x, mem_cons.2 (.inl (mem_singleton.1 hx)), hpiece⟩
    · obtain ⟨x, hx, hpiece⟩ := hrest.pieces w hw
      exact ⟨x, mem_cons_of_mem _ hx, hpiece⟩
  · obtain ⟨e', he', hkept'⟩ := hrest.kept s e'' he''
    obtain ⟨e, he, hkept⟩ := hv.kept s e' he'
    exact ⟨e, he, hkept'.trans hkept⟩

theorem Cut.stay (hpieces : ∀ w ∈ vs, w.PieceOf v) : Cut alone [v] pt vs pt [] :=
  ⟨fun _ => rfl, fun w hw => ⟨v, mem_cons_self, hpieces w hw⟩, fun _ e he => ⟨e, he, .refl e⟩⟩

end Cut

variable {lo hi start stop : Nat} {kmalloc : Bool}

theorem refsIn_unmapFrom (pt : PageTable) (va : Nat) (f : Frame) {phys : Bool}
    (h : ∀ e, pt.lookup (pageOf va) = some e → e.nofree = phys) :
    refsIn (unmapFrom pt va).1 f + (if phys then [] else (unmapFrom pt va).2.toList).count f =
      refsIn pt f := by
  unfold unmapFrom
  split
  · cases phys <;> rfl
  · next e he =>
      rw [refsIn_of_lookup he]
      cases phys with
      | true => rw [Pte.holds_of_nofree (h e he)]; simp
      | false =>
          rw [Pte.holds_eq_count (h e he)]
          exact Nat.add_comm _ _

theorem refsIn_unmap_foldl (phys : Bool) (l : List Nat) (r : PageTable × List Frame) (f : Frame)
    (h : ∀ va ∈ l, ∀ e, r.1.lookup (pageOf va) = some e → e.nofree = phys) :
    refsIn (l.foldl (fun r va => ((unmapFrom r.1 va).1, r.2 ++ (unmapFrom r.1 va).2.toList)) r).1 f
      + (if phys then [] else
        (l.foldl
          (fun r va => ((unmapFrom r.1 va).1, r.2 ++ (unmapFrom r.1 va).2.toList)) r).2).count f
      = refsIn r.1 f + (if phys then [] else r.2).count f := by
  induction l generalizing r with
  | nil => rfl
  | cons va l ih =>
      have hva := refsIn_unmapFrom r.1 va f (h va mem_cons_self)
      have hl := ih ((unmapFrom r.1 va).1, r.2 ++ (unmapFrom r.1 va).2.toList) (by
        intro va' hva' e he
        rw [lookup_unmapFrom] at he
        split at he
        · cases he
        · exact h va' (mem_cons_of_mem _ hva') e he)
      rw [foldl_cons, hl]
      cases phys with
      | true => simpa using hva
      | false =>
          simp only [Bool.false_eq_true, if_false, count_append] at hva ⊢
          omega

theorem Cut.unmap (hlo : pageSize ∣ lo) (hhi : hi ≤ 2 ^ 48) (hstart : v.start ≤ lo)
    (hstop : hi ≤ v.stop) (h : ∀ s e, v.Covers s → pt.lookup s = some e → e.nofree = v.phys)
    (hpieces : ∀ w ∈ vs, w.PieceOf v) :
    Cut alone [v] pt vs (unmapRange pt lo hi).1 (v.released (unmapRange pt lo hi).2) := by
  refine ⟨fun f => ?_, fun w hw => ⟨v, mem_cons_self, hpieces w hw⟩, fun s e he => ?_⟩
  · have hfold := refsIn_unmap_foldl v.phys (pages lo hi) (pt, []) f fun va hva e he => by
      obtain ⟨hle, hlt⟩ := (mem_pages hlo hhi).1 (mem_map_of_mem hva)
      exact h _ e ⟨hstart.trans hle, hlt.trans_le hstop⟩ he
    simpa [Vma.released, unmapRange] using hfold
  · rw [lookup_unmapRange pt hlo hhi] at he
    split at he
    · cases he
    · exact ⟨e, he, .refl e⟩

theorem Recut.pieceOf {keeps : Prop} {stay : Nat → Prop} {prot : Nat → Prot}
    (h : Recut rights keeps v stay prot v.start v.stop vs) : ∀ w ∈ vs, w.PieceOf v := fun w hw =>
  ⟨h.above w hw, h.below w hw, h.flags w hw⟩

theorem unmap_cut {ok : Prop} {l l' : List Vma} (hstart : pageSize ∣ start)
    (he : Edit (Unmap rights start stop ok) l pt l' pt' fs) (hok : ∀ v ∈ l, v.Ok rights)
    (h : Pure l pt) : Cut alone l pt l' pt' fs := by
  induction he with
  | nil => exact .refl _ _
  | @cons v l vs l' pt pt' pt'' fs fs' hv _ ih =>
      obtain ⟨hv', hoks⟩ := forall_mem_cons.1 hok
      have hcut : Cut alone [v] pt vs pt' fs := by
        cases hv with
        | cut hvs =>
            obtain ⟨hlo, hhi⟩ := hv'.cut hstart stop
            exact .unmap hlo hhi (le_max_left _ _) (min_le_left _ _) (h v mem_cons_self) hvs.pieceOf
      refine hcut.cons (ih hoks ?_)
      have htail : Pure l pt := fun w hw => h w (mem_cons_of_mem _ hw)
      refine htail.pieces (fun w hw => ⟨w, hw, .refl w⟩) fun s e' he => ?_
      obtain ⟨e, he', hkept⟩ := hcut.kept s e' he
      exact ⟨e, he', hkept.2.1⟩

theorem vmaMunmapLocked_reshaped (h : P.Ok rights) (addr len : Nat) (kmalloc : Bool) :
    Reshaped rights device alone P
      { P with vmas := (vmaMunmapLocked P addr len kmalloc).vmas,
               pt := (vmaMunmapLocked P addr len kmalloc).pt }
      (vmaMunmapLocked P addr len kmalloc).freed := by
  fun_cases vmaMunmapLocked P addr len kmalloc
  · exact .refl h
  · exact .refl h
  · next haddr hlt =>
      have hstart := Nat.dvd_of_mod_eq_zero (not_not.1 haddr)
      refine ⟨⟨?_, h.cursor, h.limit⟩, fun hp => ?_⟩
      · exact munmapLoop_space hstart (dvd_pageUp _) (not_le.1 hlt) h.space
      · exact (unmap_cut hstart (munmapLoop_edit hstart (dvd_pageUp _) (not_le.1 hlt) _
          h.space.laid _) h.space.laid.ok hp).shrunk hp

variable {prot : Prot}

def Pte.Upgradable (alone : Frame → Prop) (e : Pte) : Prop :=
  e.nofree = true ∨ e.cow = true ∨ e.writable = true ∨ alone e.frame

theorem Prot.access_writable {a : Access} (h : prot.access = some a) :
    a.writable = prot.writable := by
  unfold Prot.access at h
  split at h
  · cases h
  · cases h
    rfl

theorem Pte.setprot_keptFrom (h : prot.writable = true → e.Upgradable alone) :
    (e.setprot prot.access).KeptFrom alone e := by
  cases ha : prot.access with
  | none => exact ⟨rfl, rfl, rfl, nofun⟩
  | some a =>
      refine ⟨rfl, rfl, rfl, fun hw => ?_⟩
      have hw' : a.writable = true ∧ e.cow = false := by simpa [Pte.setprot] using hw
      rcases h (Prot.access_writable ha ▸ hw'.1) with hn | hc | hw | halone
      · exact .inl hn
      · cases hw'.2.symm.trans hc
      · exact .inr (.inl hw)
      · exact .inr (.inr halone)

theorem Pte.setprot_upgradable (e : Pte) (h : prot.writable = true) :
    (e.setprot prot.access).Upgradable alone := by
  have ha : prot.access = some ⟨prot.writable, !prot.executable⟩ := by
    refine if_neg ?_
    rintro rfl
    cases h
  rw [ha]
  cases hc : e.cow with
  | true => exact .inr (.inl hc)
  | false => exact .inr (.inr (.inl (by simp [Pte.setprot, h, hc])))

theorem refsIn_setprotRange (a : Option Access) (pt : PageTable) (lo hi : Nat) (f : Frame) :
    refsIn (setprotRange a pt lo hi) f = refsIn pt f := by
  have hfold : ∀ (l : List Nat) (pt : PageTable),
      refsIn (l.foldl (setprotFrom a) pt) f = refsIn pt f := by
    intro l
    induction l with
    | nil => intro pt; rfl
    | cons va l ih =>
        intro pt
        rw [foldl_cons, ih]
        unfold setprotFrom
        split
        · rfl
        · next e he => cases a <;> exact refsIn_replace he rfl rfl f
  exact hfold _ pt

def MayWrite (alone : Frame → Prop) (pt : PageTable) (lo hi : Nat) : Prop :=
  ∀ s e, lo ≤ pageSize * s → pageSize * s < hi → pt.lookup s = some e → e.Upgradable alone

theorem MayWrite.mono {lo' hi' : Nat} (h : MayWrite alone pt lo hi) (hlo : lo ≤ lo')
    (hhi : hi' ≤ hi) :
    MayWrite alone pt lo' hi' := fun s e hs hs' =>
  h s e (hlo.trans hs) (hs'.trans_le hhi)

theorem Cut.setprot {vs : List Vma} (hlo : pageSize ∣ lo) (hhi : hi ≤ 2 ^ 48)
    (hup : prot.writable = true → MayWrite alone pt lo hi) (hpieces : ∀ w ∈ vs, w.PieceOf v) :
    Cut alone [v] pt vs (setprotRange prot.access pt lo hi) [] := by
  refine ⟨fun f => refsIn_setprotRange _ _ _ _ f,
    fun w hw => ⟨v, mem_cons_self, hpieces w hw⟩, fun s e' he' => ?_⟩
  obtain ⟨e, he, ⟨-, rfl⟩ | ⟨⟨hle, hlt⟩, rfl⟩⟩ := lookup_setprotRange_some _ hlo hhi he'
  · exact ⟨_, he, .refl _⟩
  · exact ⟨e, he, Pte.setprot_keptFrom fun hw => hup hw s e hle hlt he⟩

theorem MayWrite.setprot (hlo : pageSize ∣ lo) (hhi : hi ≤ 2 ^ 48) (hw : prot.writable = true)
    (h : MayWrite alone pt start stop) :
    MayWrite alone (setprotRange prot.access pt lo hi) start stop := by
  intro s e' hs hs' he'
  obtain ⟨e, he, ⟨-, rfl⟩ | ⟨-, rfl⟩⟩ := lookup_setprotRange_some _ hlo hhi he'
  · exact h s _ hs hs' he
  · exact e.setprot_upgradable hw

theorem protect_cut {ok : Prop} {l l' : List Vma} {pt' : PageTable} {fs : List Frame}
    (hstart : pageSize ∣ start) (he : Edit (Protect rights start stop prot ok) l pt l' pt' fs)
    (hok : ∀ v ∈ l, v.Ok rights) (hup : prot.writable = true → MayWrite alone pt start stop) :
    Cut alone l pt l' pt' fs := by
  induction he with
  | nil => exact .refl _ _
  | cons hv _ ih =>
      obtain ⟨hv', hoks⟩ := forall_mem_cons.1 hok
      cases hv with
      | fail _ hvs => exact (Cut.stay hvs.pieceOf).cons (ih hoks hup)
      | change hvs =>
          obtain ⟨hlo, hhi⟩ := hv'.cut hstart stop
          refine (Cut.setprot hlo hhi (fun hw => ?_) hvs.pieceOf).cons
            (ih hoks fun hw => (hup hw).setprot hlo hhi hw)
          exact (hup hw).mono (le_max_right _ _) (min_le_right _ _)

theorem vmaMprotectLocked_reshaped (h : P.Ok rights) (addr len : Nat) (prot : Prot)
    (ks : List Kmalloc)
    (hup : prot.writable = true → MayWrite alone P.pt addr (pageUp (u64 (addr + len)))) :
    Reshaped rights device alone P
      { P with vmas := (vmaMprotectLocked P addr len prot ks).vmas,
               pt := (vmaMprotectLocked P addr len prot ks).pt } [] := by
  fun_cases vmaMprotectLocked P addr len prot ks
  · exact .refl h
  · exact .refl h
  · exact .refl h
  · exact .refl h
  · next haddr _ hwx hlt =>
      have hstart := Nat.dvd_of_mod_eq_zero (not_not.1 haddr)
      have hwx : prot.writable = true → prot.executable = false := by simpa using hwx
      refine ⟨⟨?_, h.cursor, h.limit⟩, fun hp => ?_⟩
      · exact mprotectLoop_space hstart (dvd_pageUp _) (not_le.1 hlt) hwx ks h.space
      · exact (protect_cut hstart (mprotectLoop_edit hstart (dvd_pageUp _) (not_le.1 hlt) hwx ks
          h.space.laid _) h.space.laid.ok hup).shrunk hp

variable {addr len : Nat} {tailOk : Bool}

section Mmap

variable {flags : BitVec 32} {Q : Process}

theorem place_placed (h : P.Ok rights) (hdvd : pageSize ∣ len) (hlen : len < 2 ^ 64)
    (hroom : Room P addr len flags tailOk) {a : Nat}
    (hs : place P addr len flags tailOk = .placed a Q fs) :
    Reshaped rights device alone P Q fs ∧ Placed Q a len := by
  obtain ⟨hpos, hroom⟩ := hroom
  revert hs
  fun_cases place P addr len flags tailOk <;> intro hs <;> cases hs
  · next hfixed haligned u =>
      rw [if_pos hfixed] at hroom
      have hstart : pageSize ∣ addr := Nat.dvd_of_mod_eq_zero (not_not.1 haligned)
      have hu64 : u64 (addr + len) = addr + len :=
        Nat.mod_eq_of_lt (hroom.1.trans_lt (by decide))
      have hstop : pageUp (u64 (addr + len)) = addr + len := by
        rw [hu64]
        exact pageUp_of_dvd (dvd_add hstart hdvd) hroom.1
      refine ⟨vmaMunmapLocked_reshaped h addr len tailOk, hstart, hroom.1, ?_⟩
      have heq : vmaMunmapLocked P addr len tailOk =
          munmapLoop addr (addr + len) tailOk P.vmas P.pt := by
        unfold vmaMunmapLocked
        dsimp only
        rw [if_neg haligned, hstop, if_neg (by omega)]
      dsimp only [u]
      rw [heq]
      exact munmapLoop_free hstart (dvd_add hstart hdvd) (by omega) h.space.laid
        (munmapLoop_rc _ _ hroom.2)
  · next hfixed stop hle =>
      rw [if_neg hfixed] at hroom
      obtain ⟨heq, hlimit⟩ := h.cursor_add hlen hle
      have hq : { P with mmapNext := stop }.Ok rights := by
        refine ⟨h.space, ?_, heq.le.trans hlimit⟩
        change pageSize ∣ u64 (P.mmapNext + len)
        rw [heq]
        exact dvd_add h.cursor hdvd
      exact ⟨⟨hq, fun hp => ⟨.refl _, hp⟩⟩, h.cursor, hlimit.trans (by decide), hroom⟩

theorem mapPlaced_reshaped (h : P.Ok rights) (hdvd : pageSize ∣ len) (hlen : len < 2 ^ 64)
    (hroom : Room P addr len flags tailOk)
    (hwx : prot.writable = true → prot.executable = false) (newFlags : BitVec 32)
    (kmalloc : Bool) :
    Reshaped rights device alone P
      (mapPlaced P len prot newFlags kmalloc (place P addr len flags tailOk)).proc
      (mapPlaced P len prot newFlags kmalloc (place P addr len flags tailOk)).freed := by
  unfold mapPlaced
  split
  · exact .refl h
  next a q freed hplace =>
  obtain ⟨hq, hplaced⟩ := place_placed h hdvd hlen hroom hplace
  split
  · exact hq
  next vmas hinsert =>
  rw [u64_of_limit hplaced.limit] at hinsert
  have hins := vmaInsert_inserted hq.ok.space.laid
    (freshVma_ok_of_placed hplaced hdvd hroom.1 hwx) hplaced.free hinsert
  refine ⟨⟨hins.space hq.ok.space, hq.ok.cursor, hq.ok.limit⟩, fun hp => ?_⟩
  exact ⟨(hq.shrunk hp).table, (hq.shrunk hp).kinds.inserted hq.ok.space hins⟩

theorem vmaMmapLocked_reshaped (h : P.Ok rights)
    (hroom : len = 0 ∨ Room P addr (pageUp len) flags tailOk) :
    Reshaped rights device alone P (vmaMmapLocked P addr len prot flags tailOk kmalloc).proc
      (vmaMmapLocked P addr len prot flags tailOk kmalloc).freed := by
  fun_cases vmaMmapLocked P addr len prot flags tailOk kmalloc
  · exact .refl h
  · exact .refl h
  · next hlen hwx =>
      exact mapPlaced_reshaped h (dvd_pageUp _) (pageUp_lt _) (hroom.resolve_left hlen)
        (by simpa using hwx) _ _

theorem vmaUpdate_pieces (f : Vma → Vma) (hf : ∀ v, (f v).SameArea v) (l : List Vma) (addr : Nat) :
    ∀ w ∈ vmaUpdate f l addr, ∃ v ∈ l, w.PieceOf v := by
  induction l with
  | nil => nofun
  | cons v rest ih =>
      have hself : ∀ w ∈ rest, ∃ v' ∈ v :: rest, w.PieceOf v' := fun w hw =>
        ⟨w, mem_cons_of_mem _ hw, .refl w⟩
      unfold vmaUpdate
      split
      · exact forall_mem_cons.2 ⟨⟨v, mem_cons_self, (hf v).pieceOf⟩, hself⟩
      split
      · exact forall_mem_cons.2 ⟨⟨v, mem_cons_self, .refl v⟩, hself⟩
      · refine forall_mem_cons.2 ⟨⟨v, mem_cons_self, .refl v⟩, fun w hw => ?_⟩
        obtain ⟨x, hx, hpiece⟩ := ih w hw
        exact ⟨x, mem_cons_of_mem _ hx, hpiece⟩

theorem vmaMmapFile_reshaped (h : P.Ok rights) {vn off : Nat}
    (hroom : len = 0 ∨ Room P addr (pageUp len) flags tailOk) :
    Reshaped rights device alone P (vmaMmapFile P addr len prot flags vn off tailOk kmalloc).proc
      (vmaMmapFile P addr len prot flags vn off tailOk kmalloc).freed := by
  unfold vmaMmapFile
  split
  · exact .refl h
  next hwx =>
  split
  · exact .refl h
  next hlen =>
  have hplaced : Reshaped rights device alone P _ _ := mapPlaced_reshaped h (dvd_pageUp _)
    (pageUp_lt _) (hroom.resolve_left hlen) (by simpa using hwx) (mapPrivate ||| vmaFile) kmalloc
  dsimp only
  split
  · exact hplaced
  split
  · exact hplaced
  · have hsame : ∀ v : Vma, { v with vn := vn, fileOff := off }.SameArea v :=
      fun v => ⟨rfl, rfl, rfl, rfl⟩
    refine ⟨⟨vmaUpdate_space _ hsame _ [] hplaced.ok.space, hplaced.ok.cursor, hplaced.ok.limit⟩,
      fun hp => ⟨(hplaced.shrunk hp).table, ?_⟩⟩
    exact (hplaced.shrunk hp).kinds.pieces (vmaUpdate_pieces _ hsame _ _) fun s e he => ⟨e, he, rfl⟩

end Mmap

section Device

variable {frames : List Frame} {failAt : Option Nat}

theorem refsIn_insert_nofree {s : Nat} {e : Pte} (he : e.nofree = true)
    (h : ∀ e', pt.lookup s = some e' → e'.nofree = true) (f : Frame) :
    refsIn (pt.insert s e) f = refsIn pt f := by
  cases hs : pt.lookup s with
  | none => rw [refsIn_insert_of_none hs, Pte.holds_of_nofree he, Nat.zero_add]
  | some e' =>
      rw [refsIn_insert, refsIn_of_lookup hs, Pte.holds_of_nofree he, Pte.holds_of_nofree (h e' hs)]

theorem refsIn_mapDevice_foldl (f : Frame) (fs : List (Frame × Nat)) (pt : PageTable)
    (h : ∀ x ∈ fs, ∀ e, pt.lookup (pageOf (addr + pageSize * x.2)) = some e → e.nofree = true) :
    refsIn (fs.foldl (fun t x => mapInto t (addr + pageSize * x.2) (devicePage x.1 prot)) pt) f =
      refsIn pt f := by
  induction fs generalizing pt with
  | nil => rfl
  | cons x fs ih =>
      rw [foldl_cons, ih, mapInto, refsIn_insert_nofree rfl (h x mem_cons_self)]
      intro y hy e he
      obtain ⟨-, rfl⟩ | ⟨-, he⟩ := lookup_insert_cases he
      · rfl
      · exact h y (mem_cons_of_mem _ hy) e he

/-- Every entry is an old one or a device page in the mapping, and no reference is gained or lost
where the mapping had device pages only. -/
theorem mapDevicePages_spec (pt : PageTable) (prot : Prot) (failAt : Option Nat) (hv : v.Ok rights)
    (haddr : pageSize ∣ addr) (hlo : v.start ≤ addr)
    (hhi : addr + pageSize * frames.length ≤ v.stop) :
    (∀ s e, (mapDevicePages pt addr prot frames failAt).1.lookup s = some e →
      pt.lookup s = some e ∨ v.Covers s ∧ ∃ f ∈ frames, e = devicePage f prot) ∧
    ((∀ s e, v.Covers s → pt.lookup s = some e → e.nofree = true) →
      ∀ f, refsIn (mapDevicePages pt addr prot frames failAt).1 f = refsIn pt f) := by
  unfold mapDevicePages
  dsimp only
  generalize hmapped : frames.take (failAt.getD frames.length) = mapped
  have hlen : mapped.length ≤ frames.length := by
    rw [← hmapped, length_take]
    omega
  have hcov : ∀ x ∈ mapped.zipIdx, v.Covers (pageOf (addr + pageSize * x.2)) := by
    intro x hx
    have hlt : x.2 < frames.length := by
      have := (mem_zipIdx hx).2.1
      omega
    refine hv.covers (by omega) (lt_of_lt_of_le ?_ hhi)
    exact Nat.add_lt_add_left (Nat.mul_lt_mul_of_pos_left hlt (by decide)) _
  generalize hpt' : mapped.zipIdx.foldl
    (fun t x => mapInto t (addr + pageSize * x.2) (devicePage x.1 prot)) pt = pt'
  have hlook : ∀ s e, pt'.lookup s = some e → pt.lookup s = some e ∨
      v.Covers s ∧ ∃ f ∈ frames, e = devicePage f prot := by
    intro s e he
    rw [← hpt'] at he
    rcases lookup_mapDevice_foldl _ he with hold | ⟨x, hx, rfl, rfl⟩
    · exact .inl hold
    · have hin : x.1 ∈ mapped := fst_mem_of_mem_zipIdx hx
      exact .inr ⟨hcov x hx, x.1, mem_of_mem_take (hmapped ▸ hin), rfl⟩
  have hrefs : (∀ s e, v.Covers s → pt.lookup s = some e → e.nofree = true) →
      ∀ f, refsIn pt' f = refsIn pt f := by
    intro hpure f
    rw [← hpt']
    exact refsIn_mapDevice_foldl f _ pt fun x hx e he => hpure _ e (hcov x hx) he
  split
  · exact ⟨hlook, hrefs⟩
  · -- the pages so far are unmapped; their frames are not released
    have hstop : addr + pageSize * mapped.length ≤ v.stop :=
      le_trans (Nat.add_le_add_left (Nat.mul_le_mul_left _ hlen) _) hhi
    have hlimit := hstop.trans (hv.limit.trans (by decide : userAddrLimit ≤ 2 ^ 48))
    refine ⟨fun s e he => ?_, fun hpure f => ?_⟩
    · rw [lookup_unmapRange _ haddr hlimit] at he
      split at he
      · cases he
      · exact hlook s e he
    · have hfold := refsIn_unmap_foldl true
        (pages addr (addr + pageSize * mapped.length)) (pt', []) f
        fun va hva e he => by
          obtain ⟨hle, hlt⟩ := (mem_pages haddr hlimit).1 (mem_map_of_mem hva)
          rcases hlook _ e he with hold | ⟨-, f, -, rfl⟩
          · exact hpure _ e ⟨hlo.trans hle, hlt.trans_le hstop⟩ hold
          · rfl
      exact hfold.trans (hrefs hpure f)

theorem mapDevice_reshaped (h : P.Ok rights) (hlen : pageSize * frames.length < 2 ^ 64)
    (hroom : Room P 0 (pageSize * frames.length) 0 false)
    (hframes : ∀ f ∈ frames, device f = true) :
    Reshaped rights device alone P (mapDevice P frames prot tailOk kmalloc failAt).proc
      (mapDevice P frames prot tailOk kmalloc failAt).freed := by
  obtain ⟨hpos, hfree⟩ := hroom
  rw [if_neg (by decide)] at hfree
  unfold mapDevice
  dsimp only
  split
  · exact .refl h
  next hexec =>
  split
  · exact .refl h
  next hle =>
  obtain ⟨heq, hlimit⟩ := h.cursor_add hlen hle
  rw [heq]
  have hdvd : pageSize ∣ P.mmapNext + pageSize * frames.length := dvd_add h.cursor (Dvd.intro _ rfl)
  have hnew : (freshVma P.mmapNext (P.mmapNext + pageSize * frames.length) prot 0).Ok rights :=
    ⟨Nat.lt_add_of_pos_right hpos, h.cursor, hdvd, hlimit.trans (by decide),
      fun _ _ => Bool.eq_false_of_not_eq_true hexec⟩
  split
  · exact .refl h
  next vmas hinsert =>
  have hins := vmaInsert_inserted h.space.laid hnew hfree hinsert
  have hspace := hins.space h.space
  obtain ⟨w, hw, hlo, hhi, hprot, hflags⟩ := hins.range
  have hphys : w.phys = true := by
    rw [Vma.phys, hflags]
    decide
  obtain ⟨hlook, hrefs⟩ := mapDevicePages_spec P.pt prot failAt
    (hins.laid.ok w hw) h.cursor hlo hhi
  have hq : Reshaped rights device alone P ⟨vmas, P.mmapNext + pageSize * frames.length,
      (mapDevicePages P.pt P.mmapNext prot frames failAt).1⟩ [] := by
    refine ⟨⟨⟨hins.laid, fun s e he => ?_⟩, hdvd, hlimit⟩, fun hp => ?_⟩
    · rcases hlook s e he with hold | ⟨hcov, f, -, rfl⟩
      · exact hspace.covered s e hold
      · refine ⟨w, hw, hcov, fun _ hw => ?_,
          by rintro _ _ ⟨⟩, by rintro ⟨⟩, by rintro ⟨⟩, fun _ => hphys,
          fun _ hw => ⟨rfl, .inl ?_⟩⟩
        · rw [hprot]
          exact hw
        · rwa [hprot] at hw
    · have hpure := hp.inserted h.space hins
      refine ⟨⟨fun f => ?_, fun s e he => ?_⟩, fun u hu s e hcov he => ?_⟩
      · exact hrefs (fun s e hcov he => (hpure w hw s e hcov he).trans hphys) f
      · rcases hlook s e he with hold | ⟨-, f, hf, rfl⟩
        · exact .inr ⟨e, hold, .refl e⟩
        · exact .inl ⟨rfl, hframes f hf, rfl⟩
      · rcases hlook s e he with hold | ⟨hcw, f, -, rfl⟩
        · exact hpure u hu s e hcov hold
        · rw [hins.laid.eq_of_covers hu hw hcov hcw, hphys]
          rfl
  split
  · exact hq
  · exact hq.trans (vmaMunmapLocked_reshaped hq.ok _ _ _)

theorem vmaMapFramesLocked_reshaped (h : P.Ok rights) (hlen : frames.length < 2 ^ 52)
    (hroom : frames.length = 0 ∨ Room P 0 (pageSize * frames.length) 0 false)
    (hframes : ∀ f ∈ frames, device f = true) :
    Reshaped rights device alone P (vmaMapFramesLocked P frames prot tailOk kmalloc failAt).proc
      (vmaMapFramesLocked P frames prot tailOk kmalloc failAt).freed := by
  fun_cases vmaMapFramesLocked P frames prot tailOk kmalloc failAt
  · exact .refl h
  · next hne =>
      refine mapDevice_reshaped h ?_ (hroom.resolve_left hne) hframes
      unfold pageSize
      omega

theorem vmaMapPhysLocked_reshaped (h : P.Ok rights) {phys : Nat}
    (hroom : len = 0 ∨ Room P 0 (pageSize * (physFrames phys len).length) 0 false)
    (hframes : ∀ f ∈ physFrames phys len, device f = true) :
    Reshaped rights device alone P (vmaMapPhysLocked P phys len prot tailOk kmalloc failAt).proc
      (vmaMapPhysLocked P phys len prot tailOk kmalloc failAt).freed := by
  fun_cases vmaMapPhysLocked P phys len prot tailOk kmalloc failAt
  · exact .refl h
  · next hne =>
      refine mapDevice_reshaped h ?_ (hroom.resolve_left hne) hframes
      rw [physFrames, length_map, length_range, Nat.mul_div_cancel' (dvd_pageUp len)]
      exact pageUp_lt len

end Device

end NeoKernel.Vm
