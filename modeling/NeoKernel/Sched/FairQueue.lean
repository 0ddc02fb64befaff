import NeoKernel.Rbtree.Sorted
import NeoKernel.Sched.Propagate

/-!
# Runs of the fair run queue

Every sequence of enqueues and dequeues on an empty queue. The aggregate stays
exact as long as each dequeue is one that `SafeErase` describes. The last part
of this file is a run with one that is not.
-/
namespace NeoKernel.Sched
open Lib Rbtree List

variable {ι : Type} [DecidableEq ι]
variable {A : (ι → SchedEntity) → CTree ι → Prop} {h : RbStore ι SchedEntity}
  {data : ι → SchedEntity} {t : CTree ι} {se : ι} {cfs : CfsRq ι}

def FairSound (h : RbStore ι SchedEntity) (t : CTree ι) : Prop :=
  Sound h t ∧ InHalf h.data t.inorder ∧ Exact h.data t

omit [DecidableEq ι] in
theorem Aggregate.fairSound (hA : Aggregate data h.data t) (hs : Sound h t) : FairSound h t :=
  ⟨hs, hA.2.1.congr_vruntime hA.1.vruntime, hA.2.2⟩

/-- A new leaf with its own value as aggregate: only its parent may disagree. -/
theorem propagate_leaf {g : RbStore ι SchedEntity} {ctx : Ctx ι} {x : ι}
    (hg : Spans g ctx (.node .red .nil x .nil))
    (hnd : (plug ctx (.node .red .nil x .nil)).inorder.Nodup)
    (hw : InHalf g.data (plug ctx (.node .red .nil x .nil)).inorder)
    (hx : (g.data x).minVruntime = (g.data x).vruntime)
    (hex : Exact data (plug ctx .nil)) (heq : ∀ i ∈ Ctx.ids ctx, g.data i = data i) :
    Returns (fun fuel => Aug.propagate (some minVruntimeCb) fuel g (Ctx.parent ctx)) fun g' =>
      Aggregate g.data g'.data (plug ctx (.node .red .nil x .nil)) := by
  have ht : IsTree g (plug ctx (.node .red .nil x .nil)) := ⟨spans_nil.mpr hg, hnd⟩
  have hwd : InHalf data (plug ctx (.nil : CTree ι)).inorder := by
    obtain ⟨base, hw⟩ := hw
    refine ⟨base, fun i hi => ?_⟩
    rw [(inorder_plug_perm _ _).mem_iff] at hi
    have hi : i ∈ Ctx.ids ctx := by simpa using hi
    rw [← heq i hi]
    exact hw i (by rw [(inorder_plug_perm _ _).mem_iff]; simp [hi])
  obtain ⟨-, hctx⟩ := localOff_plug.mp (localOff_false.mpr ((exact_iff_local hwd).mp hex))
  have hoff : LocalOff g.data (fun i => Ctx.parent ctx = some i)
      (plug ctx (.node .red .nil x .nil)) := by
    refine localOff_plug.mpr ⟨⟨fun _ => ?_, trivial, trivial⟩, ?_⟩
    · simpa [combine, minWith] using hx
    · exact hctx.congr heq (by simp) (.inl fun i hi => hi)
  have hat := (rep_localOff_iff ht.1.1).mp hoff
  refine (mvPropagate_returns (S := fun _ => False) ht (Ctx.parent_mem_plug _)
    fun i hi hne _ => hat i hi hne).map ?_
  rintro data' ⟨hom, hloc⟩
  exact ⟨hom, hw,
    (exact_iff_local (hw.congr_vruntime hom.vruntime)).mpr (localOff_false.mp hloc)⟩

theorem enqueueEntity_returns (haug : AugKeeps (some minVruntimeCb) A)
    (hs : Sound cfs.tasksTimeline t) (hse : se ∉ t.inorder)
    (hprop : ∀ ctx g, t = plug ctx .nil → se ∉ Ctx.ids ctx → Spans g ctx (.node .red .nil se .nil) →
      (plug ctx (.node .red .nil se .nil)).inorder.Nodup →
      (plug ctx (.node .red .nil se .nil)).inorder.Perm (se :: t.inorder) →
      g.data = (setMinVruntime cfs.tasksTimeline se (cfs.entity se).vruntime).data →
      Returns (fun fuel => Aug.propagate (some minVruntimeCb) fuel g (Ctx.parent ctx))
        fun g' => A g'.data (plug ctx (.node .red .nil se .nil))) :
    Returns (fun fuel => enqueueEntity fuel cfs se) fun cfs' =>
      cfs' = { avgVruntimeAdd cfs se with tasksTimeline := cfs'.tasksTimeline } ∧
        ∃ t', Sound cfs'.tasksTimeline t' ∧ A cfs'.tasksTimeline.data t' ∧
          t'.inorder.Perm (se :: t.inorder) := by
  obtain ⟨h, hh⟩ : ∃ h, h = setMinVruntime cfs.tasksTimeline se (cfs.entity se).vruntime := ⟨_, rfl⟩
  have hs : Sound h t := by
    rw [hh]
    exact hs.withData _
  have hrun : ∀ fuel, enqueueEntity fuel cfs se =
      (loop (descendStep h se) fuel ⟨none, .root, true⟩).bind fun d =>
        (rbInsertAugmentedCached (some minVruntimeCb) fuel (rbLinkNode h se d.parent d.link) se
          d.leftmost).map fun h' => { avgVruntimeAdd cfs se with tasksTimeline := h' } := by
    intro fuel
    rw [hh]
    simp only [Option.map_eq_bind]
    rfl
  simp only [hrun]
  refine (descent_returns (deadlineLess h se) Descent.mk (fun _ _ _ => rfl) hs.1.1).bind ?_
  rintro d ⟨ctx, leftmost, rfl, rfl, hlm, -⟩
  have hsec : se ∉ Ctx.ids ctx := by
    rw [(inorder_plug_perm _ _).mem_iff] at hse
    simpa using hse
  have hperm : (plug ctx (.node .red .nil se .nil)).inorder.Perm
      (se :: (plug ctx (.nil : CTree ι)).inorder) :=
    (inorder_plug_perm _ _).trans ((inorder_plug_perm ctx .nil).symm.cons se)
  refine (hs.insert haug hse hlm fun g hg hnd hgd =>
    hprop ctx g rfl hsec hg hnd hperm (hgd.trans (hh ▸ rfl))).map ?_
  rintro h' ⟨t', hs', hA, hseq⟩
  refine ⟨rfl, t', hs', hA, ?_⟩
  rw [hseq]
  simp [inorder_plug]

theorem enqueueEntity_sound (hs : Sound cfs.tasksTimeline t) (hse : se ∉ t.inorder)
    (hex : Exact data t) (heq : ∀ i, i ≠ se → cfs.entity i = data i)
    (hw : InHalf cfs.tasksTimeline.data (se :: t.inorder)) :
    Returns (fun fuel => enqueueEntity fuel cfs se) fun cfs' =>
      ∃ t', FairSound cfs'.tasksTimeline t' ∧ t'.inorder.Perm (se :: t.inorder) := by
  have hhv : OnlyMin cfs.tasksTimeline.data
      (setMinVruntime cfs.tasksTimeline se (cfs.entity se).vruntime).data := onlyMin_setMin _ _ _
  refine (enqueueEntity_returns (mvRotate_keeps
    (setMinVruntime cfs.tasksTimeline se (cfs.entity se).vruntime).data) hs hse ?_).mono ?_
  · rintro ctx g rfl hsec hg hnd hperm hgd
    refine (propagate_leaf hg hnd ?_ ?_ hex ?_).mono fun g' hagg => hgd ▸ hagg
    · rw [hgd]
      exact (hw.mono fun i hi => hperm.mem_iff.mp hi).congr_vruntime hhv.vruntime
    · rw [hgd]
      simp [setMinVruntime, CfsRq.entity]
    · intro i hi
      have hne : i ≠ se := by rintro rfl; exact hsec hi
      rw [hgd, ← heq i hne]
      simp [setMinVruntime, hne, CfsRq.entity]
  · rintro cfs' ⟨-, t', hs', hA, hperm⟩
    exact ⟨t', hA.fairSound hs', hperm⟩

theorem evaluates_mvPropagate_none (g : RbStore ι SchedEntity) :
    Evaluates (fun fuel => mvPropagate fuel g none none) g.data := by
  refine ⟨1, fun fuel hfuel => ?_⟩
  obtain ⟨n, rfl⟩ := Nat.exists_eq_add_of_le' hfuel
  simp [mvPropagate, loop, mvPropagateStep]

theorem copy_data (g : RbStore ι SchedEntity) (z : ι) (heir : Option ι) :
    (g.ifSome heir fun g y => Aug.copy (some minVruntimeCb) g z y).data =
      spliceData g.data z heir := by
  cases heir <;> rfl

theorem onlyMin_spliceData (h : RbStore ι SchedEntity) (z : ι) (heir : Option ι) :
    OnlyMin h.data (spliceData h.data z heir) := by
  cases heir with
  | none => exact .refl _
  | some y => exact onlyMin_setMin h y (h.data z).minVruntime

theorem dequeueEntity_returns (haug : AugKeeps (some minVruntimeCb) A)
    (hs : Sound cfs.tasksTimeline t) (hse : se ∈ t.inorder)
    (hprop : ∀ ctx c l r ctx' u k heir g, t = plug ctx (.node c l se r) →
      Spliced ctx c l se r ctx' u k heir → Spans g ctx' u →
      g.data = spliceData cfs.tasksTimeline.data se heir →
      Returns (fun fuel => mvPropagate fuel g (Ctx.parent ctx') none)
        fun data => A data (plug ctx' u))
    (hagain : ∀ g u n, IsTree g u → A g.data u → n ∈ u.inorder →
      Returns (fun fuel => mvPropagate fuel g (some n) none) fun data => A data u) :
    Returns (fun fuel => dequeueEntity fuel cfs se) fun cfs' =>
      cfs' = avgVruntimeSub { cfs with tasksTimeline := cfs'.tasksTimeline } se ∧
        ∃ t', Sound cfs'.tasksTimeline t' ∧ A cfs'.tasksTimeline.data t' ∧
          t'.inorder = t.inorder.erase se := by
  have herase : Returns (fun fuel => rbEraseAugmentedCached (some minVruntimeCb) fuel
      cfs.tasksTimeline se) fun h' =>
        ∃ t', Sound h' t' ∧ A h'.data t' ∧ t'.inorder = t.inorder.erase se := by
    refine hs.erase haug hse (fun ctx c l r ctx' u k heir g ht hsp hg _ hgd => ?_)
      fun g u n hg hA hn => (hagain g u n hg hA hn).map fun data hd => hd
    have hret := hprop ctx c l r ctx' u k heir
      (g.ifSome heir fun g y => Aug.copy (some minVruntimeCb) g se y) ht hsp
      (hg.congr (by cases heir <;> rfl) (by cases heir <;> rfl)) (by rw [copy_data, hgd])
    cases hp : Ctx.parent ctx' with
    | none =>
        rw [hp] at hret
        exact .of_eq (fun _ => rfl) ((evaluates_mvPropagate_none _).post hret)
    | some n =>
        rw [hp] at hret
        exact hret.map fun data hd => hd
  have hrun : ∀ fuel, dequeueEntity fuel cfs se =
      (rbEraseAugmentedCached (some minVruntimeCb) fuel cfs.tasksTimeline se).map fun h' =>
        avgVruntimeSub { cfs with tasksTimeline := h' } se := by
    intro fuel
    simp only [Option.map_eq_bind]
    rfl
  simp only [hrun]
  exact herase.map fun h' ht => ⟨rfl, ht⟩

theorem dequeueEntity_sound (hs : FairSound cfs.tasksTimeline t) (hse : se ∈ t.inorder)
    (hsafe : ∀ ctx c l r, t = plug ctx (.node c l se r) → SafeErase cfs.tasksTimeline.data l se r) :
    Returns (fun fuel => dequeueEntity fuel cfs se) fun cfs' =>
      ∃ t', FairSound cfs'.tasksTimeline t' ∧ t'.inorder = t.inorder.erase se := by
  obtain ⟨hsound, hw, hex⟩ := hs
  have hnd := hsound.1.2
  refine (dequeueEntity_returns (mvRotate_keeps cfs.tasksTimeline.data) hsound hse ?_ ?_).mono ?_
  · rintro ctx c l r ctx' u k heir g rfl hsp hg hgd
    refine (mvPropagate_spliced hsp hnd hw hex (hsafe ctx c l r rfl) hg hgd).mono ?_
    rintro data ⟨hom, hloc⟩
    rw [hgd] at hom
    have hom' := (onlyMin_spliceData cfs.tasksTimeline se heir).trans hom
    have hsub : InHalf cfs.tasksTimeline.data (plug ctx' u).inorder := by
      refine hw.mono fun i hi => ?_
      rw [hsp.inorder_erase hnd] at hi
      exact mem_of_mem_erase hi
    exact ⟨hom', hsub,
      (exact_iff_local (hsub.congr_vruntime hom'.vruntime)).mpr (localOff_false.mp hloc)⟩
  · rintro g u n ht ⟨hom, hwu, hexu⟩ hn
    have hloc := (localAt_iff ht).mp ((exact_iff_local (hwu.congr_vruntime hom.vruntime)).mp hexu)
    refine (mvPropagate_returns (S := fun _ => False) (n := some n) ht ?_
      fun i hi _ _ => hloc i hi).mono ?_
    · rintro _ ⟨⟩
      exact hn
    · rintro data ⟨hom', hloc'⟩
      have hom' := hom.trans hom'
      exact ⟨hom', hwu,
        (exact_iff_local (hwu.congr_vruntime hom'.vruntime)).mpr (localOff_false.mp hloc')⟩
  · rintro cfs' ⟨-, t', hs', hA, herase⟩
    exact ⟨t', hA.fairSound hs', herase⟩

/-- One call on the queue. An enqueued entity comes with the fields its owner has
set by then. -/
inductive FairOp (ι : Type) where
  | enqueue (se : ι) (e : SchedEntity)
  | dequeue (se : ι)

def CfsRq.put (cfs : CfsRq ι) (se : ι) (e : SchedEntity) : CfsRq ι :=
  { cfs with tasksTimeline := { cfs.tasksTimeline with
      data := Function.update cfs.tasksTimeline.data se e } }

def FairOp.run (fuel : Nat) (cfs : CfsRq ι) : FairOp ι → Option (CfsRq ι)
  | .enqueue se e => enqueueEntity fuel (cfs.put se e) se
  | .dequeue se => dequeueEntity fuel cfs se

/-- A new entity lies within half of the ring of those in the tree; a dequeued one
is in the tree. -/
def FairOp.Legal (cfs : CfsRq ι) (t : CTree ι) : FairOp ι → Prop
  | .enqueue se e =>
      se ∉ t.inorder ∧ InHalf (cfs.put se e).tasksTimeline.data (se :: t.inorder)
  | .dequeue se => se ∈ t.inorder

def FairOp.Safe (cfs : CfsRq ι) (t : CTree ι) : FairOp ι → Prop
  | .enqueue _ _ => True
  | .dequeue se => ∀ ctx c l r, t = plug ctx (.node c l se r) →
      SafeErase cfs.tasksTimeline.data l se r

/-- The queues reached from an empty one by legal calls that all meet `ok`. -/
inductive Reach (ok : CfsRq ι → CTree ι → FairOp ι → Prop) : CfsRq ι → Prop where
  | init {cfs : CfsRq ι} : cfs.tasksTimeline.rbNode = none →
      cfs.tasksTimeline.rbLeftmost = none → Reach ok cfs
  | step {cfs cfs' : CfsRq ι} {t : CTree ι} {op : FairOp ι} : Reach ok cfs →
      IsTree cfs.tasksTimeline t → op.Legal cfs t → ok cfs t op →
      Evaluates (fun fuel => op.run fuel cfs) cfs' → Reach ok cfs'

theorem FairOp.run_sound {op : FairOp ι} (hs : FairSound cfs.tasksTimeline t) (hl : op.Legal cfs t)
    (hok : op.Safe cfs t) :
    Returns (fun fuel => op.run fuel cfs) fun cfs' => ∃ t', FairSound cfs'.tasksTimeline t' := by
  cases op with
  | enqueue se e =>
      obtain ⟨hse, hw⟩ := hl
      have hsound : Sound (cfs.put se e).tasksTimeline t := hs.1.withData _
      refine (enqueueEntity_sound hsound hse hs.2.2 ?_ hw).mono fun cfs' h =>
        ⟨h.choose, h.choose_spec.1⟩
      intro i hi
      simp [CfsRq.entity, CfsRq.put, hi]
  | dequeue se =>
      exact (dequeueEntity_sound hs hl hok).mono fun cfs' h => ⟨h.choose, h.choose_spec.1⟩

theorem Reach.fairSound (hr : Reach FairOp.Safe cfs) : ∃ t, FairSound cfs.tasksTimeline t := by
  induction hr with
  | init hroot hleft =>
      exact ⟨.nil, ⟨⟨⟨trivial, hroot⟩, nodup_nil⟩, ⟨0, .nil⟩, hleft⟩, ⟨0, by simp⟩, trivial⟩
  | step _ ht hl hok hrun ih =>
      obtain ⟨u, hs⟩ := ih
      cases ht.unique hs.1.1
      exact hrun.post (FairOp.run_sound hs hl hok)

/-- In every run whose dequeues are all safe, each reached queue has an exact
aggregate at every node, and the next safe call returns. -/
theorem minVruntime_exact {cfs : CfsRq ι} (hr : Reach FairOp.Safe cfs) :
    ∃ t, IsTree cfs.tasksTimeline t ∧ Exact cfs.tasksTimeline.data t ∧
      ∀ op : FairOp ι, op.Legal cfs t → op.Safe cfs t →
        Returns (fun fuel => op.run fuel cfs) (Reach FairOp.Safe) := by
  obtain ⟨t, hs⟩ := hr.fairSound
  refine ⟨t, hs.1.1, hs.2.2, ?_⟩
  intro op hl hok
  obtain ⟨cfs', -, hrun⟩ := FairOp.run_sound hs hl hok
  exact ⟨cfs', hr.step hs.1.1 hl hok hrun, hrun⟩

theorem propagate_fuelMono (g : RbStore ι SchedEntity) (n : Option ι) :
    FuelMono fun fuel => Aug.propagate (some minVruntimeCb) fuel g n :=
  (loop_fuelMono _ _).map _

theorem enqueueEntity_fuelMono (cfs : CfsRq ι) (se : ι) :
    FuelMono fun fuel => enqueueEntity fuel cfs se :=
  (loop_fuelMono _ _).bind fun _ =>
    (rbInsertAugmentedCached_fuelMono propagate_fuelMono _ se _).bind fun _ => .const _

theorem dequeueEntity_fuelMono (cfs : CfsRq ι) (se : ι) :
    FuelMono fun fuel => dequeueEntity fuel cfs se :=
  (rbEraseAugmentedCached_fuelMono propagate_fuelMono _ se).bind fun _ => .const _

theorem FairOp.run_fuelMono (cfs : CfsRq ι) (op : FairOp ι) :
    FuelMono fun fuel => op.run fuel cfs := by
  cases op with
  | enqueue se e => exact enqueueEntity_fuelMono _ se
  | dequeue se => exact dequeueEntity_fuelMono cfs se

def FairOp.next (cfs : CfsRq ι) (op : FairOp ι) : CfsRq ι := (op.run 10 cfs).getD cfs

def FairOp.Small (cfs : CfsRq ι) (t : CTree ι) : FairOp ι → Prop
  | .enqueue se e => se ∉ t.inorder ∧
      ∀ i ∈ se :: t.inorder, Half 0 ((cfs.put se e).tasksTimeline.data i).vruntime
  | .dequeue se => se ∈ t.inorder

instance (cfs : CfsRq ι) (t : CTree ι) (op : FairOp ι) : Decidable (op.Small cfs t) := by
  cases op <;> unfold FairOp.Small <;> infer_instance

def Checks (cfs : CfsRq ι) : List (CTree ι × FairOp ι) → Prop
  | [] => True
  | (t, op) :: rest =>
      (IsTree cfs.tasksTimeline t ∧ op.Small cfs t ∧ (op.run 10 cfs).isSome) ∧
        Checks (op.next cfs) rest

instance decidableChecks (cfs : CfsRq ι) : (tr : List (CTree ι × FairOp ι)) →
    Decidable (Checks cfs tr)
  | [] => .isTrue trivial
  | (_, op) :: rest =>
      have := decidableChecks (op.next cfs) rest
      inferInstanceAs (Decidable (_ ∧ Checks (op.next cfs) rest))

def endOf (cfs : CfsRq ι) (tr : List (CTree ι × FairOp ι)) : CfsRq ι :=
  tr.foldl (fun cfs s => s.2.next cfs) cfs

theorem Reach.endOf {ok : CfsRq ι → CTree ι → FairOp ι → Prop} {tr : List (CTree ι × FairOp ι)}
    (hr : Reach ok cfs) (hc : Checks cfs tr) (hok : ∀ s ∈ tr, ∀ cfs, ok cfs s.1 s.2) :
    Reach ok (Sched.endOf cfs tr) := by
  induction tr generalizing cfs with
  | nil => exact hr
  | cons s tr ih =>
      obtain ⟨⟨ht, hsmall, hrun⟩, hrest⟩ := hc
      refine ih (hr.step ht ?_ (hok s (by simp) cfs)
        ((FairOp.run_fuelMono cfs s.2).evaluates (n := 10) ?_)) hrest
        fun s hs => hok s (by simp [hs])
      · obtain ⟨t, op⟩ := s
        cases op with
        | enqueue se e => exact ⟨hsmall.1, 0, hsmall.2⟩
        | dequeue se => exact hsmall
      · obtain ⟨q, hq⟩ := Option.isSome_iff_exists.mp hrun
        change s.2.run 10 cfs = some ((s.2.run 10 cfs).getD cfs)
        rw [hq]
        rfl

/-- Four entities with the least virtual run time at the root, and the dequeue of
the root. Its successor 3 is the left child of 2 and takes its place. -/
def staleTrace : List (CTree Nat × FairOp Nat) :=
  [(.nil, .enqueue 0 ⟨1024, 10, 4, 0⟩),
   (.node .black .nil 0 .nil, .enqueue 1 ⟨1024, 30, 2, 0⟩),
   (.node .black (.node .red .nil 1 .nil) 0 .nil, .enqueue 2 ⟨1024, 20, 6, 0⟩),
   (.node .black (.node .red .nil 1 .nil) 0 (.node .red .nil 2 .nil),
     .enqueue 3 ⟨1024, 25, 5, 0⟩),
   (.node .black (.node .black .nil 1 .nil) 0 (.node .black (.node .red .nil 3 .nil) 2 .nil),
     .dequeue 0)]

def emptyQueue : CfsRq Nat := ⟨emptyStore Nat SchedEntity fun _ => ⟨0, 0, 0, 0⟩, 0, 0, 0⟩

/-- The dequeue of the last entity, which has no right subtree. -/
def safeTrace : List (CTree Nat × FairOp Nat) :=
  staleTrace.take 4 ++ [(.node .black (.node .black .nil 1 .nil) 0
    (.node .black (.node .red .nil 3 .nil) 2 .nil), .dequeue 2)]

theorem minVruntime_exact_safeTrace :
    ∃ t, IsTree (endOf emptyQueue safeTrace).tasksTimeline t ∧
      Exact (endOf emptyQueue safeTrace).tasksTimeline.data t := by
  have hr : Reach FairOp.Safe (endOf emptyQueue safeTrace) := by
    refine Reach.endOf (.init rfl rfl) (by decide +kernel) ?_
    intro s hs cfs
    simp only [safeTrace, staleTrace, take_succ_cons, take_zero, cons_append, nil_append, mem_cons,
      not_mem_nil, or_false] at hs
    rcases hs with rfl | rfl | rfl | rfl | rfl
    iterate 4 trivial
    intro ctx c l r ht
    have hin : [1, 0, 3] ++ 2 :: [] = (Ctx.before ctx ++ l.inorder) ++
        2 :: (r.inorder ++ Ctx.after ctx) := by
      have h := congrArg CTree.inorder ht
      rw [inorder_plug] at h
      simpa using h
    obtain ⟨hr, -⟩ := append_eq_nil_iff.mp
      (append_cons_inj_of_notMem (by decide) (by decide) |>.mp hin).2.2.symm
    cases r with
    | nil => exact .inr (.inl rfl)
    | node _ _ _ _ => simp at hr
  obtain ⟨t, ht, hex, -⟩ := minVruntime_exact hr
  exact ⟨t, ht, hex⟩

/-- The aggregate of the root is the virtual run time of the entity that left. -/
theorem minVruntime_stale :
    Reach (fun _ _ _ => True) (endOf emptyQueue staleTrace) ∧
    IsTree (endOf emptyQueue staleTrace).tasksTimeline
      (.node .black (.node .black .nil 1 .nil) 3 (.node .black .nil 2 .nil)) ∧
    ¬ Exact (endOf emptyQueue staleTrace).tasksTimeline.data
      (.node .black (.node .black .nil 1 .nil) 3 (.node .black .nil 2 .nil)) := by
  refine ⟨Reach.endOf (.init rfl rfl) (by decide +kernel)
    (fun _ _ _ => trivial), by decide +kernel, ?_⟩
  rintro ⟨⟨⟨i, hi, hm⟩, -⟩, -⟩
  have hne : ∀ i ∈ [1, 3, 2], ((endOf emptyQueue staleTrace).tasksTimeline.data i).vruntime ≠
      ((endOf emptyQueue staleTrace).tasksTimeline.data 3).minVruntime := by decide +kernel
  exact hne i hi hm

end NeoKernel.Sched
