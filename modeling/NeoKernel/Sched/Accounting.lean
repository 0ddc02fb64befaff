import Mathlib.Algebra.BigOperators.Group.List.Basic
import Mathlib.Data.BitVec
import Mathlib.Tactic.Ring
import NeoKernel.Sched.FairClass
import NeoKernel.Sched.FairQueue

/-!
# The accounts of the fair run queue

The two sums are kept in step with the tree while their reference point moves, and the count
of runnable entities covers those that are not in the tree. All of it is independent of the
aggregate, which need not be exact.
-/
namespace NeoKernel.Sched
open Lib Rbtree Function List Option

variable {ι : Type} [DecidableEq ι] {t : CTree ι} {cfs : CfsRq ι} {ids : List ι} {o : Option ι}
  {rq rq' : FairRq ι} {se : ι}

theorem mvPropagate_onlyMin {h : RbStore ι SchedEntity} {n : Option ι} (ht : IsTree h t)
    (hn : ∀ x, n = some x → x ∈ t.inorder) :
    Returns (fun fuel => mvPropagate fuel h n none) fun data => OnlyMin h.data data :=
  (mvPropagate_returns (S := fun _ => True) ht hn fun _ _ _ hS => absurd trivial hS).mono
    fun _ hd => hd.1

theorem onlyMin_keeps (data : ι → SchedEntity) :
    AugKeeps (some minVruntimeCb) fun data' _ => OnlyMin data data' := by
  refine ⟨fun _ hom => hom, ?_⟩
  intro h ctx d c k a b e x y hnd hrep hom
  exact (hom.trans (onlyMin_setMin h y (h.data x).minVruntime)).trans (onlyMin_setMin _ x _)

theorem enqueueEntity_shape {se : ι} (hs : Sound cfs.tasksTimeline t) (hse : se ∉ t.inorder) :
    Returns (fun fuel => enqueueEntity fuel cfs se) fun cfs' =>
      cfs' = { avgVruntimeAdd cfs se with tasksTimeline := cfs'.tasksTimeline } ∧
        ∃ t', Sound cfs'.tasksTimeline t' ∧
          OnlyMin cfs.tasksTimeline.data cfs'.tasksTimeline.data ∧
            t'.inorder.Perm (se :: t.inorder) := by
  refine enqueueEntity_returns (onlyMin_keeps cfs.tasksTimeline.data) hs hse ?_
  intro ctx g ht hsec hg hnd hperm hgd
  refine (mvPropagate_onlyMin ⟨spans_nil.mpr hg, hnd⟩ (Ctx.parent_mem_plug _)).map
    fun data hom => ?_
  have hset := onlyMin_setMin cfs.tasksTimeline se (cfs.entity se).vruntime
  rw [← hgd] at hset
  exact hset.trans hom

theorem dequeueEntity_shape {se : ι} (hs : Sound cfs.tasksTimeline t) (hse : se ∈ t.inorder) :
    Returns (fun fuel => dequeueEntity fuel cfs se) fun cfs' =>
      cfs' = avgVruntimeSub { cfs with tasksTimeline := cfs'.tasksTimeline } se ∧
        ∃ t', Sound cfs'.tasksTimeline t' ∧
          OnlyMin cfs.tasksTimeline.data cfs'.tasksTimeline.data ∧
            t'.inorder = t.inorder.erase se := by
  have hnd := hs.1.2
  refine dequeueEntity_returns (onlyMin_keeps cfs.tasksTimeline.data) hs hse ?_ ?_
  · rintro ctx c l r ctx' u k heir g rfl hsp hg hgd
    refine (mvPropagate_onlyMin ⟨spans_nil.mpr hg, (hsp.nodup hnd).2⟩
      (Ctx.parent_mem_plug u)).mono fun data hom => ?_
    rw [hgd] at hom
    exact (onlyMin_spliceData cfs.tasksTimeline se heir).trans hom
  · intro g u n hu hom hn
    refine (mvPropagate_onlyMin (n := some n) hu ?_).mono fun data hom' => hom.trans hom'
    rintro _ ⟨⟩
    exact hn

section Sums

variable {data data' : ι → SchedEntity} {ids' : List ι} {m d : BitVec 64} {i : ι}

def weightSum (data : ι → SchedEntity) (ids : List ι) : BitVec 64 :=
  (ids.map fun i => (data i).weight).sum

def keySum (data : ι → SchedEntity) (m : BitVec 64) (ids : List ι) : BitVec 64 :=
  (ids.map fun i => ((data i).vruntime - m) * (data i).weight).sum

section

omit [DecidableEq ι]

theorem weightSum_cons : weightSum data (i :: ids) = (data i).weight + weightSum data ids := by
  rw [weightSum, map_cons, sum_cons]
  rfl

theorem keySum_cons : keySum data m (i :: ids) =
    ((data i).vruntime - m) * (data i).weight + keySum data m ids := by
  rw [keySum, map_cons, sum_cons]
  rfl

theorem weightSum_perm (h : ids.Perm ids') : weightSum data ids = weightSum data ids' :=
  (h.map _).sum_eq

theorem keySum_perm (h : ids.Perm ids') : keySum data m ids = keySum data m ids' :=
  (h.map _).sum_eq

theorem weightSum_congr (h : ∀ i ∈ ids, (data' i).weight = (data i).weight) :
    weightSum data' ids = weightSum data ids :=
  congrArg List.sum (map_congr_left h)

theorem keySum_congr (h : ∀ i ∈ ids, (data' i).weight = (data i).weight ∧
    (data' i).vruntime = (data i).vruntime) : keySum data' m ids = keySum data m ids := by
  refine congrArg List.sum (map_congr_left fun i hi => ?_)
  rw [(h i hi).1, (h i hi).2]

theorem keySum_shift : keySum data (m + d) ids = keySum data m ids - weightSum data ids * d := by
  induction ids with
  | nil => simp [keySum, weightSum]
  | cons i ids ih =>
      rw [keySum_cons, keySum_cons, weightSum_cons, ih]
      ring

theorem weightSum_toNat (hlt : (ids.map fun i => (data i).weight.toNat).sum < 2 ^ 64) :
    (weightSum data ids).toNat = (ids.map fun i => (data i).weight.toNat).sum := by
  have hword :
    weightSum data ids = BitVec.ofNat 64 (ids.map fun i => (data i).weight.toNat).sum := by
    clear hlt
    induction ids with
    | nil => rfl
    | cons i ids ih =>
        rw [weightSum_cons, ih, map_cons, sum_cons, BitVec.ofNat_add, BitVec.ofNat_toNat,
          BitVec.setWidth_eq]
  rw [hword, BitVec.toNat_ofNat]
  exact Nat.mod_eq_of_lt hlt

theorem keySum_toInt (hlo : -2 ^ 63 ≤ (ids.map fun i =>
      ((data i).vruntime - m).toInt * ((data i).weight.toNat : Int)).sum)
    (hhi : (ids.map fun i =>
      ((data i).vruntime - m).toInt * ((data i).weight.toNat : Int)).sum < 2 ^ 63) :
    (keySum data m ids).toInt = (ids.map fun i =>
      ((data i).vruntime - m).toInt * ((data i).weight.toNat : Int)).sum := by
  have hword : keySum data m ids = BitVec.ofInt 64 (ids.map fun i =>
      ((data i).vruntime - m).toInt * ((data i).weight.toNat : Int)).sum := by
    clear hlo hhi
    induction ids with
    | nil => rfl
    | cons i ids ih =>
        rw [keySum_cons, ih, map_cons, sum_cons, BitVec.ofInt_add, BitVec.ofInt_mul,
          BitVec.ofInt_toInt, BitVec.ofInt_natCast, BitVec.ofNat_toNat, BitVec.setWidth_eq]
  rw [hword, BitVec.toInt_ofInt]
  exact Int.bmod_eq_of_le (by omega) (by omega)

end

end Sums

structure Sums (cfs : CfsRq ι) (ids : List ι) : Prop where
  load : cfs.avgLoad = weightSum cfs.tasksTimeline.data ids
  key : cfs.avgVruntime = keySum cfs.tasksTimeline.data cfs.minVruntime ids

section

omit [DecidableEq ι]

theorem Sums.perm {ids' : List ι} (h : Sums cfs ids) (hp : ids.Perm ids') :
    Sums cfs ids' :=
  ⟨h.load.trans (weightSum_perm hp), h.key.trans (keySum_perm hp)⟩

theorem Sums.of_onlyMin {cfs' : CfsRq ι} (h : Sums cfs ids) (hload : cfs'.avgLoad = cfs.avgLoad)
    (hkey : cfs'.avgVruntime = cfs.avgVruntime) (hmin : cfs'.minVruntime = cfs.minVruntime)
    (hdata : ∀ i ∈ ids, (cfs'.entity i).weight = (cfs.entity i).weight ∧
      (cfs'.entity i).vruntime = (cfs.entity i).vruntime) :
    Sums cfs' ids := by
  refine ⟨?_, ?_⟩
  · rw [hload, h.load]
    exact (weightSum_congr fun i hi => (hdata i hi).1).symm
  · rw [hkey, hmin, h.key]
    exact (keySum_congr hdata).symm

theorem Sums.add (h : Sums cfs ids) (se : ι) : Sums (avgVruntimeAdd cfs se) (se :: ids) := by
  refine ⟨?_, ?_⟩
  · rw [weightSum_cons, BitVec.add_comm]
    exact congrArg (· + _) h.load
  · rw [keySum_cons, BitVec.add_comm]
    exact congrArg (· + _) h.key

theorem Sums.sub {se : ι} (h : Sums cfs (se :: ids)) : Sums (avgVruntimeSub cfs se) ids := by
  refine ⟨?_, ?_⟩
  · change cfs.avgLoad - _ = _
    rw [h.load, weightSum_cons]
    exact add_sub_cancel_left _ _
  · change cfs.avgVruntime - _ = _
    rw [h.key, keySum_cons]
    exact add_sub_cancel_left _ _

end

/-- The values of `min_vruntime`, each not before the one that it replaced. -/
structure Trail (rq : FairRq ι) : Prop where
  last : rq.minTrail.head? = some rq.cfs.minVruntime
  forward : rq.minTrail.IsChain fun new old => vtimeBefore new old = false

/-- What changes: the fields of the entity `o`, apart from `on_rq`, and the reference point. -/
structure Charges (o : Option ι) (rq rq' : FairRq ι) : Prop where
  tree : rq'.cfs.tasksTimeline = { rq.cfs.tasksTimeline with data := rq'.cfs.tasksTimeline.data }
  sums : ∀ ids, (∀ i ∈ ids, o ≠ some i) → Sums rq.cfs ids → Sums rq'.cfs ids
  onRq : ∀ i, (rq'.task i).onRq = (rq.task i).onRq
  curr : rq'.curr = rq.curr
  nrRunning : rq'.nrRunning = rq.nrRunning
  trail : Trail rq → Trail rq'

section Charges

variable {rq'' : FairRq ι}

omit [DecidableEq ι] in
theorem Charges.refl : Charges o rq rq := ⟨rfl, fun _ _ h => h, fun _ => rfl, rfl, rfl, id⟩

omit [DecidableEq ι] in
theorem Charges.trans (h : Charges o rq rq') (h' : Charges o rq' rq'') : Charges o rq rq'' where
  tree := by
    rw [h'.tree, h.tree]
  sums ids hids hs := h'.sums ids hids (h.sums ids hids hs)
  onRq i := (h'.onRq i).trans (h.onRq i)
  curr := h'.curr.trans h.curr
  nrRunning := h'.nrRunning.trans h.nrRunning
  trail ht := h'.trail (h.trail ht)

theorem charges_setEntity (rq : FairRq ι) (se : ι) (e : SchedEntity) :
    Charges (some se) rq (rq.setEntity se e) where
  tree := rfl
  sums ids hids hs := by
    refine hs.of_onlyMin rfl rfl rfl fun i hi => ?_
    have hne : i ≠ se := fun he => hids i hi (he ▸ rfl)
    have hsame : (rq.setEntity se e).cfs.entity i = rq.cfs.entity i := update_of_ne hne ..
    rw [hsame]
    exact ⟨rfl, rfl⟩
  onRq _ := rfl
  curr := rfl
  nrRunning := rfl
  trail ht := ⟨ht.last, ht.forward⟩

theorem charges_setTask {x : Task} (hx : x.onRq = (rq.task se).onRq) :
    Charges o rq (rq.setTask se x) where
  tree := rfl
  sums _ _ hs := hs
  onRq i := by
    by_cases hi : i = se
    · rw [hi, ← hx]
      exact congrArg Task.onRq (update_self ..)
    · exact congrArg Task.onRq (update_of_ne hi ..)
  curr := rfl
  nrRunning := rfl
  trail ht := ⟨ht.last, ht.forward⟩

theorem Charges.setEntity (h : Charges (some se) rq rq') (e : SchedEntity) :
    Charges (some se) rq (rq'.setEntity se e) := h.trans (charges_setEntity rq' se e)

theorem Charges.setTask (h : Charges o rq rq') {x : Task} (hx : x.onRq = (rq'.task se).onRq) :
    Charges o rq (rq'.setTask se x) := h.trans (charges_setTask hx)

omit [DecidableEq ι] in
theorem charges_updateMinVruntime (rq : FairRq ι) : Charges o rq rq.updateMinVruntime := by
  unfold FairRq.updateMinVruntime
  dsimp only
  split
  · next hpos =>
      refine ⟨rfl, fun ids _ hs => ⟨hs.load, ?_⟩, fun _ => rfl, rfl, rfl, fun ht => ⟨rfl, ?_⟩⟩
      · change rq.cfs.avgVruntime - rq.cfs.avgLoad * (rq.leastVruntime - rq.cfs.minVruntime) =
          keySum rq.cfs.tasksTimeline.data rq.leastVruntime ids
        have hmove : rq.leastVruntime =
            rq.cfs.minVruntime + (rq.leastVruntime - rq.cfs.minVruntime) := by ring
        conv_rhs => rw [hmove]
        rw [keySum_shift, hs.key, hs.load]
      · have hlast := ht.last
        have hforward := ht.forward
        change (rq.leastVruntime :: rq.minTrail).IsChain _
        cases htrail : rq.minTrail with
        | nil =>
            rw [htrail] at hlast
            cases hlast
        | cons m rest =>
            rw [htrail] at hlast hforward
            obtain rfl : m = rq.cfs.minVruntime := some.inj hlast
            refine .cons_cons ?_ hforward
            rw [BitVec.slt_iff_toInt_lt] at hpos
            simp only [vtimeBefore, serialBefore, decide_eq_false_iff_not, not_lt]
            exact hpos.le
  · exact .refl

theorem charges_updateDeadline (rq : FairRq ι) (se : ι) :
    Charges (some se) rq (rq.updateDeadline se) := by
  unfold FairRq.updateDeadline
  split
  · exact .refl
  · refine Charges.setEntity ?_ _
    exact Charges.refl.setTask rfl

theorem charges_updateCurr (rq : FairRq ι) : Charges rq.curr rq rq.updateCurr := by
  unfold FairRq.updateCurr
  split
  · exact .refl
  · next c hc =>
      rw [hc]
      dsimp only
      split
      · exact .setTask .refl rfl
      · refine Charges.trans ?_ ((charges_updateDeadline _ c).trans (charges_updateMinVruntime _))
        refine Charges.setEntity ?_ _
        exact Charges.refl.setTask rfl

theorem charges_updateEntityLag (rq : FairRq ι) : Charges o rq (rq.updateEntityLag se) :=
  .setTask .refl rfl

theorem charges_setLoadWeight (rq : FairRq ι) (se : ι) (nice : Int) :
    Charges (some se) rq (rq.setLoadWeight se nice) := by
  unfold FairRq.setLoadWeight
  split
  · exact .setTask (.setEntity .refl _) rfl
  · exact .setTask (.setEntity .refl _) rfl

theorem charges_placeEntity (rq : FairRq ι) (se : ι) (initial : Bool) :
    Charges (some se) rq (rq.placeEntity se initial) := .setTask (.setEntity .refl _) rfl

theorem charges_reweight (nice policy : Int) (sliceNs : BitVec 64) :
    Charges rq.curr rq (rq.fairReweightCurrent nice policy sliceNs) := by
  unfold FairRq.fairReweightCurrent
  split
  · exact .refl
  · next se hse =>
      have hcurr := charges_updateCurr rq
      rw [hse] at hcurr ⊢
      refine .setEntity (Charges.trans ?_ (charges_setLoadWeight _ se nice)) _
      exact hcurr.setTask rfl

theorem charges_yield : Charges rq.curr rq rq.fairYieldCurrent := by
  unfold FairRq.fairYieldCurrent
  split
  · exact .refl
  · next se hse =>
      have hcurr := charges_updateCurr rq
      rw [hse] at hcurr ⊢
      exact (hcurr.setEntity _).trans (charges_updateMinVruntime _)

end Charges

section Tree

theorem intoTree_returns (hs : Sound rq.cfs.tasksTimeline t) (hsum : Sums rq.cfs t.inorder)
    (hse : se ∉ t.inorder) :
    Returns (fun fuel => rq.intoTree fuel se) fun rq' =>
      ∃ cfs t', rq' = { rq with cfs } ∧ cfs.minVruntime = rq.cfs.minVruntime ∧
        OnlyMin rq.cfs.tasksTimeline.data cfs.tasksTimeline.data ∧
        Sound cfs.tasksTimeline t' ∧ Sums cfs t'.inorder ∧ t'.inorder.Perm (se :: t.inorder) := by
  refine (enqueueEntity_shape hs hse).map ?_
  rintro cfs ⟨hcfs, t', hs', hom, hperm⟩
  have hmin : cfs.minVruntime = rq.cfs.minVruntime := by rw [hcfs]; rfl
  have hsum' : Sums cfs (se :: t.inorder) :=
    (hsum.add se).of_onlyMin (by rw [hcfs]) (by rw [hcfs]) (by rw [hcfs]) fun i _ =>
      ⟨(congrArg SchedEntity.weight (hom i) :), hom.vruntime i⟩
  exact ⟨cfs, t', rfl, hmin, hom, hs', hsum'.perm hperm.symm, hperm⟩

theorem outOfTree_returns (hs : Sound rq.cfs.tasksTimeline t) (hsum : Sums rq.cfs t.inorder)
    (hse : se ∈ t.inorder) :
    Returns (fun fuel => rq.outOfTree fuel se) fun rq' =>
      ∃ cfs t', rq' = { rq with cfs } ∧ cfs.minVruntime = rq.cfs.minVruntime ∧
        Sound cfs.tasksTimeline t' ∧ Sums cfs t'.inorder ∧ t'.inorder = t.inorder.erase se := by
  refine (dequeueEntity_shape hs hse).map ?_
  rintro cfs ⟨hcfs, t', hs', hom, herase⟩
  have hmin : cfs.minVruntime = rq.cfs.minVruntime := by rw [hcfs]; rfl
  have hsum' : Sums { rq.cfs with tasksTimeline := cfs.tasksTimeline } (se :: t.inorder.erase se) :=
    (hsum.perm (perm_cons_erase hse)).of_onlyMin rfl rfl rfl fun i _ =>
      ⟨(congrArg SchedEntity.weight (hom i) :), hom.vruntime i⟩
  refine ⟨cfs, t', rfl, hmin, hs', ?_, herase⟩
  rw [herase, hcfs]
  exact hsum'.sub

omit [DecidableEq ι] in
theorem pickTree_returns (hs : Sound rq.cfs.tasksTimeline t) :
    Returns (fun fuel => rq.pickTree fuel) fun o => ∀ i ∈ o, i ∈ t.inorder := by
  obtain ⟨⟨hspans, -⟩, -, hleftmost⟩ := hs
  have hloop : Returns (fun fuel => loop rq.pickStep fuel rq.cfs.tasksTimeline.rbNode)
      fun o => ∀ i ∈ o, i ∈ t.inorder := by
    refine loop_total (fun n node => ∃ ctx u, Spans rq.cfs.tasksTimeline ctx u ∧ t = plug ctx u ∧
      node = u.rootId ∧ n = u.inorder.length) ?_ t.inorder.length _
      ⟨[], t, hspans, rfl, hspans.2, rfl⟩
    rintro n node ⟨ctx, u, hu, rfl, rfl, rfl⟩
    cases u with
    | nil => exact .inl ⟨none, rfl, nofun⟩
    | node c l x r =>
        have hnode := hu.1.1
        have hstep : rq.pickStep (some x) =
            if l.rootId.any fun l => rq.vruntimeEligible (rq.entity l).minVruntime then
              some (.next l.rootId)
            else if rq.entityEligible x then some (.done (some x)) else some (.next r.rootId) := by
          simp only [FairRq.pickStep, hnode]
        split_ifs at hstep
        · exact .inr ⟨l.inorder.length, _, by simp, hstep, ⟨.left, c, x, r⟩ :: ctx, l,
            spans_cons.mpr hu, rfl, rfl, rfl⟩
        · refine .inl ⟨_, hstep, ?_⟩
          rintro _ ⟨⟩
          rw [(inorder_plug_perm _ _).mem_iff]
          simp
        · exact .inr ⟨r.inorder.length, _, by simp; omega, hstep, ⟨.right, c, x, l⟩ :: ctx, r,
            spans_cons.mpr hu, rfl, rfl, rfl⟩
  unfold FairRq.pickTree
  split
  · next first hf =>
      split
      · refine .of_eq (fun _ => rfl) ?_
        rintro _ ⟨⟩
        exact mem_of_mem_head? (hleftmost.symm.trans hf)
      · exact hloop
  · exact hloop

omit [DecidableEq ι] in
theorem pickEevdf_returns (hs : Sound rq.cfs.tasksTimeline t) :
    Returns (fun fuel => rq.pickEevdf fuel) fun o => ∀ i ∈ o, i ∈ t.inorder ∨ rq.curr = some i := by
  have hfirst : ∀ i ∈ rq.cfs.tasksTimeline.rbLeftmost, i ∈ t.inorder := fun i hi =>
    mem_of_mem_head? (hs.2.2.symm.trans hi)
  have hrunning : ∀ i ∈ rq.runningCurr, rq.curr = some i := fun i hi =>
    (filter_eq_some_iff.1 hi).1
  unfold FairRq.pickEevdf
  dsimp only
  split
  · refine .of_eq (fun _ => rfl) fun i hi => ?_
    rcases or_eq_some_iff.1 hi with hi | ⟨-, hi⟩
    · exact .inr (hrunning i hi)
    · exact .inl (hfirst i hi)
  · refine (pickTree_returns hs).bind fun best hbest => .of_eq (fun _ => rfl) fun i hi => ?_
    have hcurr : ∀ c ∈ rq.runningCurr.filter rq.entityEligible, rq.curr = some c := fun c hc =>
      hrunning c (filter_eq_some_iff.1 hc).1
    rcases or_eq_some_iff.1 hi with hi | ⟨-, hi⟩
    · split at hi
      · next hc _ =>
          split at hi
          · exact .inr (hcurr i (hc.trans hi))
          · exact .inl (hbest i hi)
      · exact .inl (hbest i hi)
      · exact .inr (hcurr i hi)
    · exact .inl (hfirst i hi)

end Tree

structure Counts (rq : FairRq ι) (l : List ι) : Prop where
  nodup : l.Nodup
  onRq : ∀ i ∈ l, (rq.task i).onRq = true
  count : rq.nrRunning = l.length

structure Accounted (cpu : Cpu ι) (t : CTree ι) : Prop extends Counts cpu.rq (cpu.runnable t) where
  sound : Sound cpu.rq.cfs.tasksTimeline t
  sums : Sums cpu.rq.cfs t.inorder
  trail : Trail cpu.rq

section Hooks

variable {p p' : Option ι} {t' : CTree ι}

section

omit [DecidableEq ι]

theorem Trail.of_eq (h : Trail rq) (htrail : rq'.minTrail = rq.minTrail)
    (hmin : rq'.cfs.minVruntime = rq.cfs.minVruntime) : Trail rq' := by
  refine ⟨?_, ?_⟩
  · rw [htrail, hmin]
    exact h.last
  · rw [htrail]
    exact h.forward

theorem Accounted.curr_off (h : Accounted ⟨rq, p⟩ t) : ∀ i ∈ t.inorder, rq.curr ≠ some i := by
  intro i hi hcurr
  have hnd : (p.toList ++ (rq.curr.toList ++ t.inorder)).Nodup := h.nodup
  rw [hcurr] at hnd
  exact (nodup_cons.1 (nodup_append.1 hnd).2.1).1 hi

theorem mem_runnable {i : ι} (hi : i ∈ t.inorder) : i ∈ Cpu.runnable ⟨rq, p⟩ t :=
  mem_append_right _ (mem_append_right _ hi)

end

section

variable (h : Accounted ⟨rq, p⟩ t)
include h

omit [DecidableEq ι] in
theorem Accounted.charge (hc : Charges o rq rq') (ho : ∀ i ∈ t.inorder, o ≠ some i) :
    Accounted ⟨rq', p⟩ t := by
  have hrun : Cpu.runnable ⟨rq', p⟩ t = Cpu.runnable ⟨rq, p⟩ t := by
    unfold Cpu.runnable
    rw [hc.curr]
  refine ⟨⟨hrun ▸ h.nodup, fun i hi => ?_, ?_⟩, ?_, hc.sums _ ho h.sums, hc.trail h.trail⟩
  · rw [hrun] at hi
    exact (hc.onRq i).trans (h.onRq i hi)
  · rw [hrun, ← h.count]
    exact hc.nrRunning
  · change Sound rq'.cfs.tasksTimeline t
    rw [hc.tree]
    exact h.sound.withData _

theorem Accounted.updateCurr : Accounted ⟨rq.updateCurr, p⟩ t :=
  h.charge (charges_updateCurr rq) h.curr_off

theorem Accounted.outside (hse : se ∉ Cpu.runnable ⟨rq, p⟩ t) (e : SchedEntity) (x : Task) :
    Accounted ⟨(rq.setEntity se e).setTask se x, p⟩ t := by
  have hne : ∀ i ∈ Cpu.runnable ⟨rq, p⟩ t, i ≠ se := fun i hi => ne_of_mem_of_not_mem hi hse
  have hoff : ∀ i ∈ t.inorder, some se ≠ some i := fun i hi he =>
    hne i (mem_runnable hi) (some.inj he).symm
  have hentity := h.charge (charges_setEntity rq se e) hoff
  refine ⟨⟨h.nodup, fun i hi => ?_, h.count⟩, hentity.sound, hentity.sums, h.trail.of_eq rfl rfl⟩
  have hsame : ((rq.setEntity se e).setTask se x).task i = rq.task i :=
    update_of_ne (hne i hi) ..
  change (((rq.setEntity se e).setTask se x).task i).onRq = true
  rw [hsame]
  exact h.onRq i hi

theorem Accounted.placed (hse : se ∉ Cpu.runnable ⟨rq, p⟩ t) : Accounted ⟨rq.placed se, p⟩ t := by
  have hoff : ∀ i ∈ t.inorder, some se ≠ some i := fun i hi he =>
    hse (some.inj he ▸ mem_runnable hi)
  exact (h.updateCurr.charge (charges_setLoadWeight _ se _) hoff).charge
    (charges_placeEntity _ se _) hoff

end

theorem curr_placed : (rq.placed se).curr = rq.curr :=
  ((charges_placeEntity _ se _).curr.trans (charges_setLoadWeight _ se _).curr).trans
    (charges_updateCurr rq).curr

omit [DecidableEq ι] in
theorem Accounted.of_perm {l : List ι} (hs : Sound rq.cfs.tasksTimeline t)
    (hsum : Sums rq.cfs t.inorder) (htrail : Trail rq) (hl : Counts rq l)
    (hperm : (Cpu.runnable ⟨rq, p⟩ t).Perm l) : Accounted ⟨rq, p⟩ t :=
  ⟨⟨hperm.nodup_iff.2 hl.nodup, fun i hi => hl.onRq i (hperm.mem_iff.1 hi),
    hl.count.trans hperm.length_eq.symm⟩, hs, hsum, htrail⟩

theorem Accounted.enqueueEntity (h : Accounted ⟨rq, p⟩ t) (hse : se ∉ Cpu.runnable ⟨rq, p⟩ t) :
    Returns (fun fuel => rq.enqueueEntity fuel se) fun rq' => ∃ t', Accounted ⟨rq', p⟩ t' := by
  have hplaced := h.placed hse
  have hnew : se ∉ Cpu.runnable ⟨rq.placed se, p⟩ t := by
    unfold Cpu.runnable
    rw [curr_placed]
    exact hse
  have htree : se ∉ t.inorder := fun hi => hse (mem_runnable hi)
  unfold FairRq.enqueueEntity
  refine (intoTree_returns hplaced.sound hplaced.sums htree).bind ?_
  rintro _ ⟨cfs, t', rfl, hmin, -, hs', hsum', hperm⟩
  refine .of_eq (fun _ => rfl) ⟨t', .of_perm hs' hsum' (hplaced.trail.of_eq rfl hmin)
    (l := se :: Cpu.runnable ⟨rq.placed se, p⟩ t)
    ⟨nodup_cons.2 ⟨hnew, hplaced.nodup⟩, fun i hi => ?_, congrArg (· + 1) hplaced.count⟩ ?_⟩
  · change (update (rq.placed se).task se _ i).onRq = true
    by_cases hi' : i = se
    · rw [hi', update_self]
    · rw [update_of_ne hi']
      exact hplaced.onRq i ((mem_cons.1 hi).resolve_left hi')
  · change (p.toList ++ ((rq.placed se).curr.toList ++ t'.inorder)).Perm
      (se :: (p.toList ++ ((rq.placed se).curr.toList ++ t.inorder)))
    rw [← append_assoc, ← append_assoc]
    exact (hperm.append_left _).trans perm_middle

theorem Accounted.retire {l : List ι} (hs : Sound rq.cfs.tasksTimeline t)
    (hsum : Sums rq.cfs t.inorder) (htrail : Trail rq) (hl : Counts rq l)
    (hperm : (se :: Cpu.runnable ⟨rq, p⟩ t).Perm l) :
    Accounted ⟨(rq.retired se).updateMinVruntime, p⟩ t := by
  have hnd := nodup_cons.1 (hperm.nodup_iff.2 hl.nodup)
  have hretired : Accounted ⟨rq.retired se, p⟩ t := by
    refine ⟨⟨hnd.2, fun i hi => ?_, ?_⟩, hs, hsum, htrail.of_eq rfl rfl⟩
    · change (update rq.task se _ i).onRq = true
      rw [update_of_ne (ne_of_mem_of_not_mem hi hnd.1)]
      exact hl.onRq i (hperm.mem_iff.1 (mem_cons_of_mem _ hi))
    · change rq.nrRunning - 1 = _
      rw [hl.count, ← hperm.length_eq]
      rfl
  exact hretired.charge (charges_updateMinVruntime (o := none) _) nofun

theorem Accounted.dequeueEntity (h : Accounted ⟨rq, p⟩ t)
    (hse : rq.curr = some se ∨ se ∈ t.inorder) :
    Returns (fun fuel => rq.dequeueEntity fuel se) fun rq' => ∃ t', Accounted ⟨rq', p⟩ t' := by
  have hlag : Accounted ⟨rq.updateCurr.updateEntityLag se, p⟩ t :=
    h.updateCurr.charge (charges_updateEntityLag (o := none) _) nofun
  have hcurr : (rq.updateCurr.updateEntityLag se).curr = rq.curr := (charges_updateCurr rq).curr
  unfold FairRq.dequeueEntity
  dsimp only
  generalize rq.updateCurr.updateEntityLag se = rq₁ at hlag hcurr
  by_cases hrun : rq.curr = some se
  · have hrun₁ := hcurr.trans hrun
    simp only [hrun₁, if_true]
    refine .of_eq (fun _ => rfl) ⟨t, .retire hlag.sound hlag.sums (hlag.trail.of_eq rfl rfl)
      { hlag.toCounts with } ?_⟩
    change (se :: (p.toList ++ ([] ++ t.inorder))).Perm (p.toList ++ (rq₁.curr.toList ++ t.inorder))
    rw [hrun₁]
    exact perm_middle.symm
  · have htree := hse.resolve_left hrun
    have hrun₁ : rq₁.curr ≠ some se := fun he => hrun (hcurr.symm.trans he)
    simp only [hrun₁, if_false]
    refine (outOfTree_returns hlag.sound hlag.sums htree).bind ?_
    rintro _ ⟨cfs, t', rfl, hmin, hs', hsum', herase⟩
    refine .of_eq (fun _ => rfl) ⟨t', .retire hs' hsum' (hlag.trail.of_eq rfl hmin)
      { hlag.toCounts with } ?_⟩
    change (se :: (p.toList ++ (rq₁.curr.toList ++ t'.inorder))).Perm
      (p.toList ++ (rq₁.curr.toList ++ t.inorder))
    rw [herase, ← append_assoc, ← append_assoc]
    exact perm_middle.symm.trans ((perm_cons_erase htree).symm.append_left _)

theorem Accounted.requeue (h : Accounted ⟨rq, some se⟩ t) :
    Returns (fun fuel => rq.fairRequeuePreempted fuel se) fun rq' =>
      ∃ t', Accounted ⟨rq', none⟩ t' := by
  have hcharged := h.updateCurr
  have hnd : (se :: (rq.updateCurr.curr.toList ++ t.inorder)).Nodup := hcharged.nodup
  have hse := (nodup_cons.1 hnd).1
  have hon : (rq.updateCurr.task se).onRq = true := hcharged.onRq se mem_cons_self
  have hcurr : rq.updateCurr.curr ≠ some se := by
    intro he
    rw [he] at hse
    exact hse mem_cons_self
  unfold FairRq.fairRequeuePreempted FairRq.putPrevEntity
  dsimp only
  generalize rq.updateCurr = rq₁ at *
  simp only [hon, if_true]
  have htree : se ∉ t.inorder := fun hi => hse (mem_append_right _ hi)
  refine (intoTree_returns hcharged.sound hcharged.sums htree).bind ?_
  rintro _ ⟨cfs, t', rfl, hmin, -, hs', hsum', hperm⟩
  simp only [hcurr, if_false]
  refine .of_eq (fun _ => rfl) ⟨t', .of_perm hs' hsum' (hcharged.trail.of_eq rfl hmin)
    { hcharged.toCounts with } ?_⟩
  change (rq₁.curr.toList ++ t'.inorder).Perm (se :: (rq₁.curr.toList ++ t.inorder))
  exact (hperm.append_left _).trans perm_middle

theorem Accounted.setNext (h : Accounted ⟨rq, none⟩ t) (hse : se ∈ t.inorder) :
    Returns (fun fuel => rq.setNextEntity fuel se)
      fun rq' => ∃ t', Accounted ⟨rq', rq.curr⟩ t' := by
  have hon : (rq.task se).onRq = true := h.onRq se (mem_runnable hse)
  have hne := h.curr_off se hse
  unfold FairRq.setNextEntity
  simp only [hon, hne, ne_eq, not_false_eq_true, and_self, if_true]
  refine (outOfTree_returns h.sound h.sums hse).bind ?_
  rintro _ ⟨cfs, t', rfl, hmin, hs', hsum', herase⟩
  refine .of_eq (fun _ => rfl) ⟨t', .of_perm hs' hsum' (h.trail.of_eq rfl hmin)
    (l := Cpu.runnable ⟨rq, none⟩ t) ⟨h.nodup, fun i hi => ?_, h.count⟩ ?_⟩
  · change (update rq.task se _ i).onRq = true
    by_cases hi' : i = se
    · rw [hi', update_self]
      exact hon
    · rw [update_of_ne hi']
      exact h.onRq i hi
  · change (rq.curr.toList ++ (se :: t'.inorder)).Perm (rq.curr.toList ++ t.inorder)
    rw [herase]
    exact (perm_cons_erase hse).symm.append_left _

theorem Accounted.pick (h : Accounted ⟨rq, none⟩ t) :
    Returns (fun fuel => rq.fairPick fuel) fun r =>
      ∃ t', Accounted (Cpu.switch ⟨rq, none⟩ r.1 r.2) t' := by
  have hcharged := h.updateCurr
  have hcurr : rq.updateCurr.curr = rq.curr := (charges_updateCurr rq).curr
  unfold FairRq.fairPick
  dsimp only
  generalize rq.updateCurr = rq₁ at hcharged hcurr ⊢
  by_cases hzero : rq₁.nrRunning = 0
  · simp only [hzero, if_true]
    have hnil : rq₁.curr.toList ++ t.inorder = [] :=
      eq_nil_of_length_eq_zero (hcharged.count.symm.trans hzero)
    have hnone : rq₁.curr = none := toList_eq_nil_iff.1 (append_eq_nil_iff.1 hnil).1
    have hsame : ({ rq₁ with nrRunning := 0, curr := none } : FairRq ι) = rq₁ := by
      rw [← hzero, ← hnone]
    rw [hsame]
    exact .of_eq (fun _ => rfl) ⟨t, hcharged⟩
  · simp only [hzero, if_false]
    refine (pickEevdf_returns hcharged.sound).bind fun o ho => ?_
    cases o with
    | none => exact .of_eq (fun _ => rfl) ⟨t, hcharged⟩
    | some se =>
        dsimp only
        by_cases hsame : rq₁.curr = some se
        · simp only [hsame, ne_eq, not_true_eq_false, if_false]
          refine .of_eq (fun _ => rfl) ⟨t, ?_⟩
          rw [Cpu.switch, if_pos (hcurr.symm.trans hsame)]
          exact hcharged.charge (charges_setTask (o := none) rfl) nofun
        · simp only [hsame, ne_eq, not_false_eq_true, if_true]
          have htree := (ho se rfl).resolve_right hsame
          refine (hcharged.setNext htree).bind ?_
          rintro rq' ⟨t', hnext⟩
          refine .of_eq (fun _ => rfl) ⟨t', ?_⟩
          rw [Cpu.switch, if_neg (hcurr ▸ hsame), ← hcurr]
          exact hnext.charge (charges_setTask (o := none) rfl) nofun

theorem Accounted.tick (h : Accounted ⟨rq, p⟩ t) :
    Returns (fun fuel => rq.fairEntityTick fuel) fun r => Accounted ⟨r.1, p⟩ t := by
  have hcharged := h.updateCurr
  unfold FairRq.fairEntityTick
  dsimp only
  generalize rq.updateCurr = rq₁ at hcharged
  cases hcurr : rq₁.curr with
  | none => exact .of_eq (fun _ => rfl) hcharged
  | some c =>
      dsimp only
      split
      · exact .of_eq (fun _ => rfl) hcharged
      split
      · exact .of_eq (fun _ => rfl) hcharged
      split
      · exact .of_eq (fun _ => rfl) hcharged
      exact (pickEevdf_returns hcharged.sound).bind fun _ _ => .of_eq (fun _ => rfl) hcharged

theorem Accounted.steal (h : Accounted ⟨rq, p⟩ t) (now : BitVec 64) :
    Returns (fun fuel => rq.fairSteal fuel now) fun r => ∃ t', Accounted ⟨r.1, p⟩ t' := by
  unfold FairRq.fairSteal
  cases hfirst : rq.cfs.tasksTimeline.rbLeftmost with
  | none => exact .of_eq (fun _ => rfl) ⟨t, h⟩
  | some se =>
      have hse : se ∈ t.inorder :=
        mem_of_mem_head? (h.sound.2.2.symm.trans hfirst)
      have hclock : Accounted ⟨{ rq with clockTask := now }, p⟩ t :=
        { h with trail := h.trail.of_eq rfl rfl }
      exact (hclock.dequeueEntity (.inr hse)).map fun _ => id

end Hooks

section Runs

variable {cpu cpu' : Cpu ι} {hook : Hook ι}

omit [DecidableEq ι] in
theorem CpuInit.accounted (h : CpuInit cpu) : Accounted cpu .nil where
  sound := ⟨⟨⟨trivial, h.root⟩, nodup_nil⟩, ⟨0, .nil⟩, h.leftmost⟩
  sums := ⟨h.avgLoad, h.avgVruntime⟩
  nodup := by
    rw [Cpu.runnable, h.prevPending, h.curr]
    exact nodup_nil
  onRq i hi := by
    rw [Cpu.runnable, h.prevPending, h.curr] at hi
    cases hi
  count := by
    rw [Cpu.runnable, h.prevPending, h.curr, h.nrRunning]
    rfl
  trail := by
    refine ⟨?_, ?_⟩ <;> rw [h.minTrail]
    · rw [h.minVruntime]
      rfl
    · exact .singleton _

theorem Accounted.run (h : Accounted cpu t) (hlegal : hook.Legal cpu t) :
    Returns (fun fuel => hook.run fuel cpu) fun cpu' => ∃ t', Accounted cpu' t' := by
  obtain ⟨rq, p⟩ := cpu
  cases hook with
  | clockUpdate now =>
      exact .of_eq (fun _ => rfl)
        ⟨t, { h with trail := h.trail.of_eq rfl rfl }⟩
  | applyAttr se nice policy sliceNs =>
      exact .of_eq (fun _ => rfl) ⟨t, h.charge (charges_setTask (o := none) rfl) nofun⟩
  | enqueue se e x =>
      have hout := h.outside hlegal e x
      exact (hout.enqueueEntity hlegal).map fun _ => id
  | pick =>
      cases hlegal
      exact h.pick.map fun _ => id
  | tick => exact h.tick.map fun r hr => ⟨t, hr⟩
  | block =>
      obtain ⟨prev, hprev⟩ := ne_none_iff_exists'.1 hlegal
      have hrun : ∀ fuel, Hook.run fuel ⟨rq, p⟩ .block =
          (rq.dequeueEntity fuel prev).map fun rq' => ⟨rq', p⟩ := fun fuel => by
        simp only [Hook.run, show rq.curr = some prev from hprev]
        rfl
      simp only [hrun]
      exact (h.dequeueEntity (.inl hprev)).map fun _ => id
  | requeue =>
      obtain ⟨prev, hprev⟩ := ne_none_iff_exists'.1 hlegal
      cases hprev
      exact h.requeue.map fun _ => id
  | yield => exact .of_eq (fun _ => rfl) ⟨t, h.charge charges_yield h.curr_off⟩
  | reweight nice policy sliceNs =>
      exact .of_eq (fun _ => rfl) ⟨t, h.charge (charges_reweight _ _ _) h.curr_off⟩
  | steal now => exact (h.steal now).map fun _ => id

theorem CpuReach.accounted (hr : CpuReach cpu) : ∃ t, Accounted cpu t := by
  induction hr with
  | init h => exact ⟨.nil, h.accounted⟩
  | step _ ht hlegal hrun ih =>
      obtain ⟨t', h⟩ := ih
      obtain rfl := h.sound.1.unique ht
      exact hrun.post (h.run hlegal)

/-- In every reached state the two sums are those of the tree, as words and, as long as they fit,
as numbers; `min_vruntime` has never moved backwards; `nr_running` counts the tree, the running
entity and a preempted one; and the next call of a hook returns in such a state. -/
theorem run_queue_accounted (hr : CpuReach cpu) :
    ∃ t, IsTree cpu.rq.cfs.tasksTimeline t ∧
      cpu.rq.cfs.avgLoad = weightSum cpu.rq.cfs.tasksTimeline.data t.inorder ∧
      cpu.rq.cfs.avgVruntime =
        keySum cpu.rq.cfs.tasksTimeline.data cpu.rq.cfs.minVruntime t.inorder ∧
      ((t.inorder.map fun i => (cpu.rq.entity i).weight.toNat).sum < 2 ^ 64 →
        cpu.rq.cfs.avgLoad.toNat = (t.inorder.map fun i => (cpu.rq.entity i).weight.toNat).sum) ∧
      (∀ sum, sum = (t.inorder.map fun i => ((cpu.rq.entity i).vruntime -
          cpu.rq.cfs.minVruntime).toInt * ((cpu.rq.entity i).weight.toNat : Int)).sum →
        -2 ^ 63 ≤ sum → sum < 2 ^ 63 → cpu.rq.cfs.avgVruntime.toInt = sum) ∧
      (cpu.rq.minTrail.head? = some cpu.rq.cfs.minVruntime ∧
        cpu.rq.minTrail.IsChain fun new old => 0 ≤ (new - old).toInt) ∧
      cpu.rq.nrRunning =
        t.inorder.length + cpu.rq.curr.toList.length + cpu.prevPending.toList.length ∧
      (cpu.runnable t).Nodup ∧
      ∀ hook : Hook ι, hook.Legal cpu t → Returns (fun fuel => hook.run fuel cpu) CpuReach := by
  obtain ⟨t, h⟩ := hr.accounted
  refine ⟨t, h.sound.1, h.sums.load, h.sums.key, ?_, ?_, ⟨h.trail.last, ?_⟩, ?_, h.nodup, ?_⟩
  · intro hlt
    rw [h.sums.load]
    exact weightSum_toNat hlt
  · rintro sum rfl hlo hhi
    rw [h.sums.key]
    exact keySum_toInt hlo hhi
  · refine h.trail.forward.imp fun new old hnew => ?_
    simpa [vtimeBefore, serialBefore, BitVec.slt] using hnew
  · rw [h.count, Cpu.runnable, length_append, length_append]
    omega
  · intro hook hlegal
    obtain ⟨cpu', -, hrun⟩ := h.run hlegal
    exact ⟨cpu', hr.step h.sound.1 hlegal hrun, hrun⟩

end Runs

omit [DecidableEq ι] in
theorem pickEevdf_fuelMono (rq : FairRq ι) : FuelMono fun fuel => rq.pickEevdf fuel := by
  unfold FairRq.pickEevdf
  dsimp only
  split
  · exact .const _
  refine .bind ?_ fun _ => .const _
  unfold FairRq.pickTree
  split
  · split
    · exact .const _
    · exact loop_fuelMono _ _
  · exact loop_fuelMono _ _

theorem dequeue_fuelMono (rq : FairRq ι) (se : ι) :
    FuelMono fun fuel => rq.dequeueEntity fuel se := by
  unfold FairRq.dequeueEntity
  dsimp only
  split
  · exact .const _
  · exact ((dequeueEntity_fuelMono _ se).map _).bind fun _ => .const _

theorem fairPick_fuelMono (rq : FairRq ι) : FuelMono fun fuel => rq.fairPick fuel := by
  unfold FairRq.fairPick
  dsimp only
  split
  · exact .const _
  refine (pickEevdf_fuelMono _).bind fun o => ?_
  cases o with
  | none => exact .const _
  | some se =>
      dsimp only
      split
      · refine .bind ?_ fun _ => .const _
        unfold FairRq.setNextEntity
        dsimp only
        split
        · exact ((dequeueEntity_fuelMono _ se).map _).bind fun _ => .const _
        · exact .const _
      · exact .const _

theorem fairEntityTick_fuelMono (rq : FairRq ι) : FuelMono fun fuel => rq.fairEntityTick fuel := by
  unfold FairRq.fairEntityTick
  dsimp only
  split
  · exact .const _
  · split
    · exact .const _
    split
    · exact .const _
    split
    · exact .const _
    exact (pickEevdf_fuelMono _).bind fun _ => .const _

theorem Hook.run_fuelMono (cpu : Cpu ι) (hook : Hook ι) :
    FuelMono fun fuel => hook.run fuel cpu := by
  cases hook with
  | clockUpdate now | applyAttr se nice policy sliceNs | yield | reweight nice policy sliceNs =>
      exact .const _
  | enqueue se e x =>
      exact .map _ (((enqueueEntity_fuelMono _ se).map _).bind fun _ => .const _)
  | pick => exact (fairPick_fuelMono _).map _
  | tick => exact (fairEntityTick_fuelMono _).map _
  | block =>
      unfold Hook.run
      dsimp only
      split
      · exact .const _
      · exact (dequeue_fuelMono _ _).map _
  | requeue =>
      unfold Hook.run
      dsimp only
      split
      · exact .const _
      · refine .map _ ?_
        unfold FairRq.fairRequeuePreempted FairRq.putPrevEntity
        dsimp only
        split
        · exact ((enqueueEntity_fuelMono _ _).map _).bind fun _ => .const _
        · exact .const _
  | steal now =>
      refine .map _ ?_
      unfold FairRq.fairSteal
      split
      · exact .const _
      · exact (dequeue_fuelMono _ _).map _

def Hook.next (cpu : Cpu ι) (hook : Hook ι) : Cpu ι := (hook.run 10 cpu).getD cpu

instance (cpu : Cpu ι) (t : CTree ι) (hook : Hook ι) : Decidable (hook.Legal cpu t) := by
  cases hook <;> unfold Hook.Legal <;> infer_instance

/-- A trace lists each call with the tree it finds. -/
def Cpu.Checks (cpu : Cpu ι) : List (CTree ι × Hook ι) → Prop
  | [] => True
  | (t, hook) :: rest =>
      (IsTree cpu.rq.cfs.tasksTimeline t ∧ hook.Legal cpu t ∧ (hook.run 10 cpu).isSome) ∧
        (hook.next cpu).Checks rest

instance Cpu.decidableChecks (cpu : Cpu ι) : (tr : List (CTree ι × Hook ι)) →
    Decidable (cpu.Checks tr)
  | [] => .isTrue trivial
  | (_, hook) :: rest =>
      have := Cpu.decidableChecks (hook.next cpu) rest
      inferInstanceAs (Decidable (_ ∧ (hook.next cpu).Checks rest))

def Cpu.endOf (cpu : Cpu ι) (tr : List (CTree ι × Hook ι)) : Cpu ι :=
  tr.foldl (fun cpu s => s.2.next cpu) cpu

theorem CpuReach.endOf {cpu : Cpu ι} {tr : List (CTree ι × Hook ι)} (hr : CpuReach cpu)
    (hc : cpu.Checks tr) : CpuReach (cpu.endOf tr) := by
  induction tr generalizing cpu with
  | nil => exact hr
  | cons s tr ih =>
      obtain ⟨⟨ht, hlegal, hrun⟩, hrest⟩ := hc
      obtain ⟨cpu', hcpu⟩ := isSome_iff_exists.mp hrun
      have hnext : s.2.run 10 cpu = some (s.2.next cpu) := by
        rw [Hook.next, hcpu]
        rfl
      exact ih (hr.step ht hlegal ((Hook.run_fuelMono cpu s.2).evaluates hnext)) hrest

def newTask (nice : Int) : Task := ⟨0, 0, 0, false, 0, nice, 0, 0, 0⟩

def idleCpu : Cpu Nat where
  rq := ⟨emptyQueue, fun _ => newTask 0, 0, none, 0, [0]⟩
  prevPending := none

/-- Two threads start, the first runs for a millisecond and is preempted by the second, and is
put back only after a pick. -/
def preemption : List (CTree Nat × Hook Nat) :=
  [(.nil, .enqueue 0 ⟨0, 0, 0, 0⟩ (newTask 0)),
   (.node .black .nil 0 .nil, .enqueue 1 ⟨0, 0, 0, 0⟩ (newTask 5)),
   (.node .black .nil 0 (.node .red .nil 1 .nil), .pick),
   (.node .black .nil 1 .nil, .clockUpdate 1000000),
   (.node .black .nil 1 .nil, .tick),
   (.node .black .nil 1 .nil, .pick),
   (.nil, .requeue),
   (.node .black .nil 0 .nil, .clockUpdate 2000000),
   (.node .black .nil 0 .nil, .tick)]

/-- Before the requeue the tree is empty and two entities are counted; at the end the reference
point has moved and the tree is the first entity. -/
theorem run_queue_accounted_preemption :
    ((idleCpu.endOf (preemption.take 6)).rq.nrRunning = 2 ∧
      (idleCpu.endOf (preemption.take 6)).prevPending = some 0) ∧
    (idleCpu.endOf preemption).rq.minTrail = [1000000, 0] ∧
    ∃ t, IsTree (idleCpu.endOf preemption).rq.cfs.tasksTimeline t ∧
      (idleCpu.endOf preemption).rq.cfs.avgLoad =
        weightSum (idleCpu.endOf preemption).rq.cfs.tasksTimeline.data t.inorder := by
  have hr : CpuReach (idleCpu.endOf preemption) :=
    CpuReach.endOf (.init ⟨rfl, rfl, rfl, rfl, rfl, rfl, rfl, rfl, rfl⟩) (by decide +kernel)
  refine ⟨⟨by decide +kernel, by decide +kernel⟩, by decide +kernel, ?_⟩
  obtain ⟨t, ht, hload, -⟩ := run_queue_accounted hr
  exact ⟨t, ht, hload⟩

end NeoKernel.Sched
