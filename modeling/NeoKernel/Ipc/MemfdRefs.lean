import NeoKernel.Ipc.Memfd
import NeoKernel.Vm.Objects

/-!
# References to memory files

The count of a memory file is the number of its descriptors, in tables and in messages. Those in
neither in the middle of a call are the list `loose` of the invariant. A process that maps a file
has a descriptor of it, so when the count falls to zero no page table has its frames.
-/
namespace NeoKernel.Memfd
open Lib Vm List Table AList

def mapsAny (P : Process) (fs : List Frame) : Bool :=
  P.pt.entries.any fun x => decide (x.2.frame ∈ fs)

namespace State

def held (k : State) (f : Frame) : Nat := k.memfds.weigh fun _ x => x.frames.count f

def descriptors (k : State) (i : Nat) : Nat :=
  Fd.descriptors k.fds (.memfd i) + k.dirs.weigh fun _ q => q.flatten.count (.memfd i)

def refs (k : State) (i : Nat) : Int := (k.memfds.lookup i).elim 0 (·.refs)

end State

/-- The references are counted in every run; the rest is for those runs in which `K` is kept. -/
structure Inv (K : Prop) (device : Frame → Bool) (k : State) (loose : List File) : Prop where
  sound : K → Sound (objectOf device k.held) k.held k.m
  owned : K → ∀ f, k.held f ≤ 1 ∧ (0 < k.held f → device f = false)
  refs : ∀ i, ((k.descriptors i + loose.count (.memfd i) : Nat) : Int) = k.refs i
  keeps : K → ∀ p P i x, k.m.procs.lookup p = some P → k.memfds.lookup i = some x →
    mapsAny P x.frames = true → .memfd i ∈ (k.fdTable p).values

variable {q : List (List File)} {k : State} {p : Pid} {t : FdTable} {i d fd : Nat} {f : File}
  {loose loose' : List File} {K : Prop}

theorem fdTable_setFds (k : State) (p : Pid) (t : FdTable) (q : Pid) :
    (k.setFds p t).fdTable q = if q = p then t else k.fdTable q := by
  unfold State.fdTable State.setFds Fd.tableOf
  by_cases hq : q = p
  · rw [if_pos hq, hq, lookup_insert]
    rfl
  · rw [if_neg hq, lookup_insert_ne hq]

theorem descriptors_setFds (k : State) (p : Pid) (t : FdTable) (i : Nat) :
    (k.setFds p t).descriptors i + (k.fdTable p).values.count (.memfd i) =
      k.descriptors i + t.values.count (.memfd i) := by
  have hset := Fd.descriptors_setTable k.fds p t (.memfd i)
  unfold State.descriptors State.setFds State.fdTable
  unfold Fd.setTable at hset
  dsimp only
  omega

theorem descriptors_setDir (h : k.dirs.lookup d = some q) (q' : List (List File)) (i : Nat) :
    { k with dirs := k.dirs.insert d q' }.descriptors i + q.flatten.count (.memfd i) =
      k.descriptors i + q'.flatten.count (.memfd i) := by
  unfold State.descriptors
  dsimp only
  rw [weigh_insert, weigh_of_lookup h]
  omega

theorem descriptors_eraseDir (h : k.dirs.lookup d = some q) (i : Nat) :
    { k with dirs := k.dirs.erase d }.descriptors i + q.flatten.count (.memfd i) =
      k.descriptors i := by
  unfold State.descriptors
  dsimp only
  rw [weigh_of_lookup h]
  omega

theorem values_fdTable_le (k : State) (p : Pid) (i : Nat) :
    (k.fdTable p).values.count (.memfd i) ≤ k.descriptors i :=
  (Fd.values_count_le k.fds p (.memfd i)).trans (Nat.le_add_right _ _)

theorem two_le_descriptors {p q : Pid} (hne : p ≠ q) (hp : .memfd i ∈ (k.fdTable p).values)
    (hq : .memfd i ∈ (k.fdTable q).values) : 2 ≤ k.descriptors i := by
  have hsome : ∀ {r}, .memfd i ∈ (k.fdTable r).values →
      ∃ t, k.fds.lookup r = some t ∧ 1 ≤ t.values.count (.memfd i) := by
    intro r hr
    unfold State.fdTable Fd.tableOf at hr
    cases ht : k.fds.lookup r with
    | none =>
        rw [ht] at hr
        cases hr
    | some t =>
        rw [ht] at hr
        exact ⟨t, rfl, count_pos_iff.2 hr⟩
  obtain ⟨t, ht, hone⟩ := hsome hp
  obtain ⟨t', ht', hone'⟩ := hsome hq
  have hsum : 2 ≤ t.values.count (.memfd i) + t'.values.count (.memfd i) :=
    Nat.add_le_add hone hone'
  exact (hsum.trans (add_le_weigh (w := fun _ t => (Table.values t).count (File.memfd i))
    hne ht ht')).trans (Nat.le_add_right _ _)

section Pages

variable {P Q : Process} {fs gs : List Frame}

theorem mapsAny_iff : mapsAny P fs = true ↔ ∃ s e, P.pt.lookup s = some e ∧ e.frame ∈ fs := by
  unfold mapsAny
  rw [any_eq_true]
  constructor
  · rintro ⟨⟨s, e⟩, hx, hf⟩
    exact ⟨s, e, mem_entries_iff.1 hx, of_decide_eq_true hf⟩
  · rintro ⟨s, e, he, hf⟩
    exact ⟨⟨s, e⟩, mem_entries_iff.2 he, decide_eq_true hf⟩

theorem mapsAny_mono (h : mapsAny P fs = true) (hsub : ∀ f ∈ fs, f ∈ gs) : mapsAny P gs = true := by
  obtain ⟨s, e, he, hf⟩ := mapsAny_iff.1 h
  exact mapsAny_iff.2 ⟨s, e, he, hsub _ hf⟩

end Pages

section Moves

variable {device : Frame → Bool} {x y : MemFile} {g : Frame}

section

variable (h : Inv K device k loose)
include h

theorem Inv.live (hi : 0 < k.descriptors i + loose.count (.memfd i)) :
    ∃ x, k.memfds.lookup i = some x := by
  cases hx : k.memfds.lookup i with
  | some x => exact ⟨x, rfl⟩
  | none =>
      exfalso
      have := h.refs i
      unfold State.refs at this
      rw [hx] at this
      dsimp only [Option.elim_none] at this
      omega

theorem Inv.live_of_mem (hf : .memfd i ∈ (k.fdTable p).values) :
    ∃ x, k.memfds.lookup i = some x := by
  refine h.live ?_
  have := count_pos_iff.2 hf
  have := values_fdTable_le k p i
  omega

theorem Inv.refs_eq (hx : k.memfds.lookup i = some x) :
    x.refs = (k.descriptors i + loose.count (.memfd i) : Nat) := by
  rw [h.refs i, State.refs, hx]
  rfl

theorem Inv.setFds
    (hcount : ∀ i, t.values.count (.memfd i) + loose'.count (.memfd i) =
      (k.fdTable p).values.count (.memfd i) + loose.count (.memfd i))
    (hkeeps : K → ∀ P i x, k.m.procs.lookup p = some P → k.memfds.lookup i = some x →
      mapsAny P x.frames = true → .memfd i ∈ t.values) :
    Inv K device (k.setFds p t) loose' := by
  refine ⟨h.sound, h.owned, fun i => ?_, fun hK q P i x hP hx hmaps => ?_⟩
  · have hi := hcount i
    have hset := descriptors_setFds k p t i
    change _ = k.refs i
    rw [← h.refs i]
    congr 1
    omega
  · rw [fdTable_setFds]
    split
    · next hq => exact hkeeps hK P i x (hq ▸ hP) hx hmaps
    · exact h.keeps hK q P i x hP hx hmaps

end

theorem Inv.put (h : Inv K device k (f :: loose))
    (hvalues : Table.values t = f :: (k.fdTable p).values) : Inv K device (k.setFds p t) loose := by
  refine h.setFds (fun i => ?_) fun hK P i x hP hx hmaps => ?_
  · rw [hvalues, count_cons, count_cons]
    omega
  · rw [hvalues]
    exact mem_cons_of_mem _ (h.keeps hK p P i x hP hx hmaps)

section

variable (h : Inv K device k loose)
include h

theorem Inv.moveDirs {k' : State} (hm : k'.m = k.m) (hmemfds : k'.memfds = k.memfds)
    (hfds : k'.fds = k.fds)
    (hcount : ∀ i, k'.descriptors i + loose'.count (.memfd i) =
      k.descriptors i + loose.count (.memfd i)) :
    Inv K device k' loose' := by
  have hheld : k'.held = k.held := by
    funext f
    unfold State.held
    rw [hmemfds]
  refine ⟨fun hK => ?_, hheld ▸ h.owned, fun i => ?_, fun hK q P i x hP hx hmaps => ?_⟩
  · rw [hheld, hm]
    exact h.sound hK
  · unfold State.refs
    rw [hcount, hmemfds]
    exact h.refs i
  · rw [hm] at hP
    rw [hmemfds] at hx
    unfold State.fdTable
    rw [hfds]
    exact h.keeps hK q P i x hP hx hmaps

theorem Inv.perm (hp : loose.Perm loose') : Inv K device k loose' :=
  h.moveDirs rfl rfl rfl fun i => by rw [hp.count_eq]

theorem Inv.setDir {q' : List (List File)} (hd : k.dirs.lookup d = some q)
    (hperm : (q'.flatten ++ loose').Perm (q.flatten ++ loose)) :
    Inv K device { k with dirs := k.dirs.insert d q' } loose' := by
  refine h.moveDirs rfl rfl rfl fun i => ?_
  have hcount := hperm.count_eq (File.memfd i)
  rw [count_append, count_append] at hcount
  have := descriptors_setDir hd q' i
  omega

theorem Inv.eraseDir (hd : k.dirs.lookup d = some q) :
    Inv K device { k with dirs := k.dirs.erase d } (q.flatten ++ loose) := by
  refine h.moveDirs rfl rfl rfl fun i => ?_
  rw [count_append]
  have := descriptors_eraseDir hd i
  omega

end

theorem held_insert (hx : k.memfds.lookup i = some x) (g : Frame) :
    { k with memfds := k.memfds.insert i y }.held g + x.frames.count g =
      k.held g + y.frames.count g := by
  unfold State.held
  dsimp only
  rw [weigh_insert, weigh_of_lookup hx]
  omega

theorem held_of_mem (hx : k.memfds.lookup i = some x) (hg : g ∈ x.frames) : 0 < k.held g := by
  have := le_weigh (w := fun _ x => List.count g x.frames) hx
  have := count_pos_iff.2 hg
  unfold State.held
  omega

theorem Inv.apart (h : Inv K device k loose) (hK : K) {j : Nat} (hx : k.memfds.lookup i = some x)
    (hy : k.memfds.lookup j = some y) (hgx : g ∈ x.frames) (hgy : g ∈ y.frames) : i = j := by
  by_contra hne
  have hle := add_le_weigh (w := fun _ x => List.count g x.frames) hne hx hy
  have := count_pos_iff.2 hgx
  have := count_pos_iff.2 hgy
  have := (h.owned hK g).1
  unfold State.held at this
  omega

theorem exists_of_held (h : k.held g ≠ 0) : ∃ i x, k.memfds.lookup i = some x ∧ g ∈ x.frames := by
  by_contra hno
  refine h (weigh_eq_zero fun i x hx => count_eq_zero_of_not_mem fun hmem => ?_)
  exact hno ⟨i, x, hx, hmem⟩

theorem refs_insert (i j : Nat) (y : MemFile) :
    { k with memfds := k.memfds.insert i y }.refs j = if j = i then y.refs else k.refs j := by
  unfold State.refs
  dsimp only
  by_cases hj : j = i
  · rw [if_pos hj, hj, lookup_insert]
    rfl
  · rw [if_neg hj, lookup_insert_ne hj]

section

variable (h : Inv K device k loose)
include h

/-- A memory file gets other frames or another count; no page table has the frames it gets. -/
theorem Inv.refile {m' : Machine} (hx : k.memfds.lookup i = some x)
    (hprocs : K → m'.procs = k.m.procs)
    (hrefs : ((k.descriptors i + loose'.count (.memfd i) : Nat) : Int) = y.refs)
    (hothers : ∀ j, j ≠ i → loose'.count (.memfd j) = loose.count (.memfd j))
    (hsound : K → Sound (objectOf device { k with memfds := k.memfds.insert i y }.held)
      { k with memfds := k.memfds.insert i y }.held m')
    (howned : K → ∀ g, { k with memfds := k.memfds.insert i y }.held g ≤ 1 ∧
      (0 < { k with memfds := k.memfds.insert i y }.held g → device g = false))
    (hframes : K → ∀ g ∈ y.frames, g ∈ x.frames ∨
      ∀ q R s e, k.m.procs.lookup q = some R → R.pt.lookup s = some e → e.frame ≠ g) :
    Inv K device { k with m := m', memfds := k.memfds.insert i y } loose' := by
  refine ⟨hsound, howned, fun j => ?_, fun hK q P j z hP hz hmaps => ?_⟩
  · change ((k.descriptors j + _ : Nat) : Int) = { k with memfds := k.memfds.insert i y }.refs j
    rw [refs_insert]
    split
    · next hj =>
        rw [hj]
        exact hrefs
    · next hj =>
        rw [hothers j hj]
        exact h.refs j
  · rw [hprocs hK] at hP
    rcases lookup_insert_cases hz with ⟨rfl, rfl⟩ | ⟨-, hz⟩
    · refine h.keeps hK q P j x hP hx ?_
      obtain ⟨s, e, he, hg⟩ := mapsAny_iff.1 hmaps
      rcases hframes hK _ hg with hgx | hnone
      · exact mapsAny_iff.2 ⟨s, e, he, hgx⟩
      · exact absurd rfl (hnone q P s e hP he)
    · exact h.keeps hK q P j z hP hz hmaps

theorem Inv.record (hx : k.memfds.lookup i = some x) (hframes : y.frames = x.frames)
    (hrefs : ((k.descriptors i + loose'.count (.memfd i) : Nat) : Int) = y.refs)
    (hothers : ∀ j, j ≠ i → loose'.count (.memfd j) = loose.count (.memfd j)) :
    Inv K device { k with memfds := k.memfds.insert i y } loose' := by
  have hheld : { k with memfds := k.memfds.insert i y }.held = k.held := by
    funext g
    have := held_insert (y := y) hx g
    rw [hframes] at this
    omega
  refine h.refile hx (fun _ => rfl) hrefs hothers (fun hK => ?_) (hheld ▸ h.owned)
    fun _ g hg => .inl (hframes ▸ hg)
  rw [hheld]
  exact h.sound hK

theorem Inv.other : Inv K device k (.other :: loose) :=
  h.moveDirs rfl rfl rfl fun i => by rw [count_cons_of_ne File.noConfusion]

theorem Inv.fileDup (hf : ∀ i, f = .memfd i → ∃ x, k.memfds.lookup i = some x) :
    Inv K device (fileDup k f) (f :: loose) := by
  cases f with
  | other => exact h.other
  | memfd i =>
      obtain ⟨x, hx⟩ := hf i rfl
      unfold Memfd.fileDup memfdGet
      dsimp only
      rw [hx]
      refine h.record hx rfl ?_ fun j hj => count_cons_of_ne fun heq => hj (File.memfd.inj heq).symm
      rw [count_cons_self]
      have := h.refs_eq hx
      dsimp only
      omega

end

section

variable (hpmm : ∀ f, device f = false → f < pmmMaxFrames)
include hpmm

theorem Inv.free (h : Inv K device k (.memfd i :: loose)) (hx : k.memfds.lookup i = some x)
    (hone : x.refs - 1 = 0) : Inv K device (memfdFree k i x) loose := by
  have hrefs := h.refs_eq hx
  rw [count_cons_self] at hrefs
  have hnone : K → ∀ q R s e, k.m.procs.lookup q = some R → R.pt.lookup s = some e →
      e.frame ∉ x.frames := by
    intro hK q R s e hR he hmem
    have hpos := count_pos_iff.2 (h.keeps hK q R i x hR hx (mapsAny_iff.2 ⟨s, e, he, hmem⟩))
    have := values_fdTable_le k q i
    omega
  have hheld : ∀ g, k.held g = (memfdFree k i x).held g + x.frames.count g := fun g => by
    unfold State.held memfdFree
    dsimp only
    rw [weigh_of_lookup hx]
    omega
  have hold : ∀ {j z}, (k.memfds.erase i).lookup j = some z → j ≠ i ∧ k.memfds.lookup j = some z :=
    lookup_erase_some
  refine ⟨fun hK => ?_, fun hK g => ?_, fun j => ?_, fun hK q P j z hP hz hmaps => ?_⟩
  · exact (h.sound hK).disown_all hpmm x.frames
      (fun g hg => (h.owned hK g).2 (held_of_mem hx hg)) hheld (hnone hK)
  · have hg := hheld g
    obtain ⟨hone, hdev⟩ := h.owned hK g
    exact ⟨by omega, fun hpos => hdev (by omega)⟩
  · by_cases hj : j = i
    · have hzero : (memfdFree k i x).refs j = 0 := by
        unfold State.refs memfdFree
        dsimp only
        rw [hj, lookup_erase]
        rfl
      rw [hzero, hj]
      change ((k.descriptors i + _ : Nat) : Int) = 0
      omega
    · have hsame : (memfdFree k i x).refs j = k.refs j := by
        unfold State.refs memfdFree
        dsimp only
        rw [lookup_erase_ne hj]
      rw [hsame, ← h.refs j, count_cons_of_ne fun heq => hj (File.memfd.inj heq).symm]
      rfl
  · have hP' : k.m.procs.lookup q = some P := by
      rw [← hP]
      exact congrArg (AList.lookup q) (foldl_pmmFree_procs _ _).symm
    exact h.keeps hK q P j z hP' (hold hz).2 hmaps

theorem Inv.fileClose (h : Inv K device k (f :: loose)) : Inv K device (fileClose k f) loose := by
  cases f with
  | other =>
      refine h.moveDirs rfl rfl rfl fun i => ?_
      rw [count_cons_of_ne File.noConfusion]
      rfl
  | memfd i =>
      obtain ⟨x, hx⟩ := h.live (i := i) (by rw [count_cons_self]; omega)
      unfold Memfd.fileClose memfdPut
      dsimp only
      rw [hx]
      dsimp only
      split
      · next hone => exact h.free hpmm hx hone
      · refine h.record hx rfl ?_ fun j hj =>
          (count_cons_of_ne fun heq => hj (File.memfd.inj heq).symm).symm
        have := h.refs_eq hx
        rw [count_cons_self] at this
        dsimp only
        omega

theorem Inv.closeAll (fs : List File) (h : Inv K device k (fs ++ loose)) :
    Inv K device (fs.foldl Memfd.fileClose k) loose := by
  induction fs generalizing k with
  | nil => exact h
  | cons f fs ih => exact ih (h.fileClose hpmm)

end

def dupped (memfds : Table Nat MemFile) : File → Table Nat MemFile
  | .memfd i => (memfds.lookup i).elim memfds fun x => memfds.insert i { x with refs := x.refs + 1 }
  | .other => memfds

theorem fileDup_eq (k : State) (f : File) :
    Memfd.fileDup k f = { k with memfds := dupped k.memfds f } := by
  cases f with
  | other => rfl
  | memfd i =>
      cases hx : k.memfds.lookup i <;> simp [Memfd.fileDup, memfdGet, dupped, hx]

theorem dupAll_eq (fs : List File) (k : State) :
    fs.foldl Memfd.fileDup k = { k with memfds := fs.foldl dupped k.memfds } := by
  induction fs generalizing k with
  | nil => rfl
  | cons f fs ih =>
      rw [foldl_cons, ih, fileDup_eq]
      rfl

theorem fdTable_fileDup (k : State) (f : File) (p : Pid) :
    (Memfd.fileDup k f).fdTable p = k.fdTable p := by
  rw [fileDup_eq]
  rfl

theorem Inv.dupAll (fs : List File) (h : Inv K device k loose)
    (hfs : ∀ f ∈ fs, f ∈ (k.fdTable p).values) :
    Inv K device (fs.foldl Memfd.fileDup k) (fs ++ loose) := by
  induction fs generalizing k loose with
  | nil => exact h
  | cons f fs ih =>
      have hstep : Inv K device (Memfd.fileDup k f) (f :: loose) := h.fileDup fun i hi =>
        h.live_of_mem (hi ▸ hfs f mem_cons_self)
      refine (ih hstep fun g hg => ?_).perm perm_middle
      rw [fdTable_fileDup]
      exact hfs g (mem_cons_of_mem _ hg)

end Moves

end NeoKernel.Memfd
