import NeoKernel.Sched.Exact

/-!
# The augment callbacks keep the aggregate

`mv_propagate` stops at the first node whose aggregate does not change, which is right when every
node above the starting one agrees with its children. The splice of an erase may break this at a
second node: the heir that gets the aggregate of the erased one.
-/
namespace NeoKernel.Sched
open Lib Rbtree Function List CTree

variable {ι : Type}
variable {data data' : ι → SchedEntity} {S : ι → Prop} {t l : CTree ι} {hole parent : Option ι}
  {n : Nat} {s : RbStore ι SchedEntity × Option ι} {ctx : Ctx ι} {c : Color} {z : ι}
  {h : RbStore ι SchedEntity}

def LocalOff (data : ι → SchedEntity) (S : ι → Prop) : CTree ι → Prop
  | .nil => True
  | .node _ l x r =>
      (¬ S x → (data x).minVruntime = combine data x l.rootId r.rootId) ∧
        LocalOff data S l ∧ LocalOff data S r

def combineAt (data : ι → SchedEntity) (f : Frame ι) (hole : Option ι) : BitVec 64 :=
  match f.dir with
  | .left => combine data f.id hole f.sib.rootId
  | .right => combine data f.id f.sib.rootId hole

def CtxLocal (data : ι → SchedEntity) (S : ι → Prop) : Ctx ι → Option ι → Prop
  | [], _ => True
  | f :: ctx, hole =>
      (¬ S f.id → (data f.id).minVruntime = combineAt data f hole) ∧
        LocalOff data S f.sib ∧ CtxLocal data S ctx (some f.id)

theorem localOff_plug :
    LocalOff data S (plug ctx t) ↔ LocalOff data S t ∧ CtxLocal data S ctx t.rootId := by
  induction ctx generalizing t with
  | nil => simp [CtxLocal]
  | cons f ctx ih =>
      rw [plug_cons, ih, rootId_bin]
      cases hd : f.dir <;> simp only [CTree.bin, LocalOff, CtxLocal, combineAt, hd] <;> tauto

theorem localOff_false :
    LocalOff data (fun _ => False) t ↔ Local data t := by
  induction t with
  | nil => exact Iff.rfl
  | node c l x r ihl ihr => simp only [LocalOff, Local, ihl, ihr, not_false_eq_true, true_imp_iff]

theorem minWith_congr {n n' : Option ι}
    (h : n'.map (fun i => (data' i).minVruntime) = n.map fun i => (data i).minVruntime)
    (m : BitVec 64) : minWith data' m n' = minWith data m n := by
  cases n <;> cases n' <;> simp_all [minWith]

theorem map_min_rootId (heq : ∀ i ∈ t.inorder, data' i = data i) :
    t.rootId.map (fun i => (data' i).minVruntime) =
      t.rootId.map fun i => (data i).minVruntime := by
  cases t with
  | nil => rfl
  | node c l x r => simp [CTree.rootId, heq x (by simp)]

theorem LocalOff.congr {R : ι → Prop} (h : LocalOff data S t)
    (heq : ∀ i ∈ t.inorder, data' i = data i) (hS : ∀ i ∈ t.inorder, S i → R i) :
    LocalOff data' R t := by
  induction t with
  | nil => trivial
  | node c l x r ihl ihr =>
      have hl : ∀ i ∈ l.inorder, data' i = data i := fun i hi => heq i (by simp [hi])
      have hr : ∀ i ∈ r.inorder, data' i = data i := fun i hi => heq i (by simp [hi])
      refine ⟨?_, ihl h.2.1 hl fun i hi => hS i (by simp [hi]),
        ihr h.2.2 hr fun i hi => hS i (by simp [hi])⟩
      intro hx
      rw [heq x (by simp), h.1 fun hs => hx (hS x (by simp) hs), combine, combine,
        minWith_congr (map_min_rootId hl),
        minWith_congr (map_min_rootId hr), heq x (by simp)]

/-- A context sees the subtree in its hole only through its aggregate, and does
not see it at all when the node right above is exempt. -/
theorem CtxLocal.congr {R : ι → Prop} {hole' : Option ι} (h : CtxLocal data S ctx hole)
    (heq : ∀ i ∈ Ctx.ids ctx, data' i = data i) (hS : ∀ i ∈ Ctx.ids ctx, S i → R i)
    (hhole : (∀ i, Ctx.parent ctx = some i → R i) ∨
      hole'.map (fun i => (data' i).minVruntime) = hole.map fun i => (data i).minVruntime) :
    CtxLocal data' R ctx hole' := by
  induction ctx generalizing hole hole' with
  | nil => trivial
  | cons f ctx ih =>
      have hid : data' f.id = data f.id := heq f.id (by simp [Ctx.ids])
      have hsib : ∀ i ∈ f.sib.inorder, data' i = data i := fun i hi => heq i (by simp [Ctx.ids, hi])
      refine ⟨?_, h.2.1.congr hsib fun i hi => hS i (by simp [Ctx.ids, hi]),
        ih h.2.2 (fun i hi => heq i (by simp [Ctx.ids, hi]))
          (fun i hi => hS i (by simp [Ctx.ids, hi])) (.inr (by simp [hid]))⟩
      intro hx
      rcases hhole with hR | hhole
      · exact absurd (hR f.id rfl) hx
      · rw [hid, h.1 fun hs => hx (hS f.id (by simp [Ctx.ids]) hs)]
        cases hd : f.dir <;>
          simp only [combineAt, combine, hd, hid, minWith_congr (map_min_rootId hsib),
            minWith_congr hhole]

def spliceData [DecidableEq ι] (data : ι → SchedEntity) (z : ι) : Option ι → ι → SchedEntity
  | none => data
  | some y => update data y { data y with minVruntime := (data z).minVruntime }

theorem spliced_localOff [DecidableEq ι] {ctx' : Ctx ι} {k : Color} {r : CTree ι} {heir : Option ι}
    (hsp : Spliced ctx c l z r ctx' t k heir) (hnd : (plug ctx (.node c l z r)).inorder.Nodup)
    (h : Local data (plug ctx (.node c l z r))) :
    LocalOff (spliceData data z heir)
      (fun i => Ctx.parent ctx' = some i ∨ heir = some i) (plug ctx' t) := by
  obtain ⟨⟨-, hl, hr⟩, hctx⟩ := localOff_plug.mp (localOff_false.mpr h)
  cases hsp with
  | noLeft =>
      exact localOff_plug.mpr ⟨hr.congr (fun _ _ => rfl) (by simp),
        hctx.congr (fun _ _ => rfl) (by simp) (.inl fun i hi => .inl hi)⟩
  | noRight =>
      exact localOff_plug.mpr ⟨hl.congr (fun _ _ => rfl) (by simp),
        hctx.congr (fun _ _ => rfl) (by simp) (.inl fun i hi => .inl hi)⟩
  | both spine cy y yr hlne hspine =>
      obtain ⟨⟨-, -, hyr⟩, hsp⟩ := localOff_plug.mp hr
      have hnd' : (plug (spine ++ ⟨.right, c, z, l⟩ :: ctx) (.node k .nil y t)).inorder.Nodup := by
        rw [plug_append]
        exact hnd
      obtain ⟨hndy, -, hdis⟩ := nodup_plug hnd'
      have hy : y ∉ Ctx.ids (spine ++ ⟨.right, c, z, l⟩ :: ctx) := fun hm => hdis (by simp) hm
      have hyt : y ∉ t.inorder := (nodup_cons.mp (by simpa using hndy)).1
      simp only [Ctx.ids_append, Ctx.ids, cons_append, mem_append, mem_cons,
        not_or] at hy
      obtain ⟨hys, -, hyl, hyc⟩ := hy
      have hne : ∀ i, i ≠ y → spliceData data z (some y) i = data i := by
        intro i hi
        simp [spliceData, hi]
      rw [plug_append, localOff_plug, localOff_plug]
      refine ⟨⟨hyr.congr ?_ (by simp), hsp.congr ?_ (by simp) (.inl ?_)⟩, ?_,
        hl.congr ?_ (by simp), hctx.congr ?_ (by simp) (.inr ?_)⟩
      · intro i hi
        exact hne i (by rintro rfl; exact hyt hi)
      · intro i hi
        exact hne i (by rintro rfl; exact hys hi)
      · intro i hi
        left
        cases spine with
        | nil => cases hi
        | cons f spine => exact hi
      · intro hS
        exact absurd (.inr rfl) hS
      · intro i hi
        exact hne i (by rintro rfl; exact hyl hi)
      · intro i hi
        exact hne i (by rintro rfl; exact hyc hi)
      · simp [spliceData, CTree.rootId]

def LocalAt (h : RbStore ι SchedEntity) (i : ι) : Prop :=
  (h.data i).minVruntime = nodeMinVruntime h i

theorem rep_localOff_iff (ht : Rep h parent t) :
    LocalOff h.data S t ↔ ∀ i ∈ t.inorder, ¬ S i → LocalAt h i := by
  induction t generalizing parent with
  | nil => simp [LocalOff]
  | node c l x r ihl ihr =>
      obtain ⟨hx, hl, hr⟩ := ht
      have hat : LocalAt h x ↔
          (h.data x).minVruntime = combine h.data x l.rootId r.rootId := by
        simp only [LocalAt, nodeMinVruntime, combine, hx]
      simp only [LocalOff, ihl hl, ihr hr, inorder_node, mem_append, mem_cons, ← hat]
      constructor
      · rintro ⟨h1, h2, h3⟩ i (hi | rfl | hi)
        · exact h2 i hi
        · exact h1
        · exact h3 i hi
      · intro h1
        exact ⟨h1 x (.inr (.inl rfl)), fun i hi => h1 i (.inl hi), fun i hi =>
          h1 i (.inr (.inr hi))⟩

theorem localAt_iff (ht : IsTree h t) : Local h.data t ↔ ∀ i ∈ t.inorder, LocalAt h i := by
  rw [← localOff_false, rep_localOff_iff ht.1.1]
  simp

variable [DecidableEq ι] {a b : ι → SchedEntity} {g : RbStore ι SchedEntity}

theorem minWith_update {n : ι} {e : SchedEntity} {o : Option ι}
    (ho : o ≠ some n) (m : BitVec 64) :
    minWith (update data n e) m o = minWith data m o := by
  cases o with
  | none => rfl
  | some k =>
      have hk : k ≠ n := fun he => ho (by rw [he])
      simp [minWith, hk]

theorem localAt_setMin {n i : ι} (ht : IsTree h t) (hi : i ∈ t.inorder)
    (hpar : (h.node n).rbParent ≠ some i) (hloc : i ≠ n → LocalAt h i) :
    LocalAt (setMinVruntime h n (nodeMinVruntime h n)) i := by
  have hleft : (h.node i).rbLeft ≠ some n := fun hc => hpar (ht.rbParent_of_child hi (.inl hc)).1
  have hright : (h.node i).rbRight ≠ some n := fun hc => hpar (ht.rbParent_of_child hi (.inr hc)).1
  have hsame : nodeMinVruntime (setMinVruntime h n (nodeMinVruntime h n)) i =
      nodeMinVruntime h i := by
    simp only [nodeMinVruntime, setMinVruntime, minWith_update hleft, minWith_update hright]
    congr 2
    by_cases hin : i = n
    · subst hin
      simp
    · simp [hin]
  rw [LocalAt, hsame]
  by_cases hin : i = n
  · subst hin
    simp [setMinVruntime]
  · have hat := hloc hin
    rw [LocalAt] at hat
    simpa [setMinVruntime, hin] using hat

def OnlyMin (data data' : ι → SchedEntity) : Prop :=
  ∀ i, data' i = { data i with minVruntime := (data' i).minVruntime }

section

omit [DecidableEq ι]

theorem OnlyMin.refl (data : ι → SchedEntity) : OnlyMin data data := fun _ => rfl

theorem OnlyMin.trans {c : ι → SchedEntity} (hab : OnlyMin a b) (hbc : OnlyMin b c) :
    OnlyMin a c := by
  intro i
  rw [hbc i, hab i]

theorem OnlyMin.vruntime (hab : OnlyMin a b) (i : ι) : (b i).vruntime = (a i).vruntime := by
  rw [hab i]

end

theorem onlyMin_setMin (h : RbStore ι SchedEntity) (n : ι) (m : BitVec 64) :
    OnlyMin h.data (setMinVruntime h n m).data := by
  intro i
  by_cases hi : i = n
  · subst hi
    simp [setMinVruntime]
  · simp [setMinVruntime, hi]

/-- The loop state: `node` is a node of the tree at depth `n`, or null, and every
other node agrees with its children unless it is in `S`. -/
structure Climb (h : RbStore ι SchedEntity) (t : CTree ι) (S : ι → Prop) (n : Nat)
    (s : RbStore ι SchedEntity × Option ι) : Prop where
  store : s.1 = { h with data := s.1.data }
  onlyMin : OnlyMin h.data s.1.data
  depth : (s.2 = none ∧ n = 0) ∨
    ∃ x ctx c l r, s.2 = some x ∧ t = plug ctx (.node c l x r) ∧ n = ctx.length + 1
  rest : ∀ i ∈ t.inorder, s.2 ≠ some i → ¬ S i → LocalAt s.1 i

omit [DecidableEq ι] in
theorem Climb.isTree (hc : Climb h t S n s) (ht : IsTree h t) : IsTree s.1 t := by
  rw [hc.store]
  exact ht.withData _

theorem Climb.pass (hc : Climb h t S n s) (ht : IsTree h t) :
    (mvPropagateStep none s = some (.done s.1.data) ∧
      ∀ i ∈ t.inorder, ¬ S i → LocalAt s.1 i) ∨
    (∃ x m s', s.2 = some x ∧ m < n ∧ mvPropagateStep none s = some (.next s') ∧
      s' = (setMinVruntime s.1 x (nodeMinVruntime s.1 x), (h.node x).rbParent) ∧
      ¬ LocalAt s.1 x ∧ Climb h t S m s') := by
  have htree := hc.isTree ht
  obtain ⟨g, node⟩ := s
  obtain ⟨hstore, honly, hdepth, hrest⟩ := hc
  dsimp only at hstore honly hdepth hrest htree ⊢
  rcases hdepth with ⟨rfl, rfl⟩ | ⟨x, ctx, c, l, r, rfl, rfl, rfl⟩
  · left
    exact ⟨by simp [mvPropagateStep], fun i hi hS => hrest i hi (by simp) hS⟩
  · by_cases hx : LocalAt g x
    · left
      refine ⟨?_, ?_⟩
      · rw [LocalAt] at hx
        simp only [mvPropagateStep, reduceCtorEq, if_false, if_pos hx]
      · intro i hi hS
        by_cases hix : i = x
        · rw [hix]
          exact hx
        · exact hrest i hi (by simp [Ne.symm hix]) hS
    · right
      have hpar : (g.node x).rbParent = Ctx.parent ctx := by
        obtain ⟨⟨hx, -, -⟩, -⟩ := spans_nil.mp htree.1
        rw [hx]
      have hnode : g.node = h.node := by rw [hstore]
      refine ⟨x, ctx.length, _, rfl, by simp, ?_, rfl, hx, ?_, ?_, ?_, ?_⟩
      · rw [LocalAt] at hx
        simp only [mvPropagateStep, reduceCtorEq, if_false, if_neg hx, hnode]
      · rw [hstore]
        rfl
      · exact honly.trans (onlyMin_setMin g x _)
      · rw [← hnode, hpar]
        cases ctx with
        | nil => exact .inl ⟨rfl, rfl⟩
        | cons f ctx =>
            right
            cases hd : f.dir with
            | left | right => exact ⟨f.id, ctx, f.color, _, _, rfl, by rw [plug_cons, hd]; rfl, rfl⟩
      · intro i hi hne hS
        refine localAt_setMin htree hi (by rw [hnode]; exact hne) fun hix => ?_
        exact hrest i hi (by simp [Ne.symm hix]) hS

theorem Climb.returns (hc : Climb h t S n s) (ht : IsTree h t) :
    Returns (fun fuel => loop (mvPropagateStep none) fuel s) fun data =>
      OnlyMin h.data data ∧ LocalOff data S t := by
  refine loop_total (fun n s => Climb h t S n s) ?_ n s hc
  intro n s hc
  rcases hc.pass ht with ⟨hstep, hall⟩ | ⟨x, m, s', -, hm, hstep, -, -, hc'⟩
  · left
    exact ⟨_, hstep, hc.onlyMin, (rep_localOff_iff (hc.isTree ht).1.1).mpr hall⟩
  · right
    exact ⟨m, s', hm, hstep, hc'⟩

theorem mvPropagate_returns {n : Option ι} (ht : IsTree h t) (hn : ∀ x, n = some x → x ∈ t.inorder)
    (hloc : ∀ i ∈ t.inorder, n ≠ some i → ¬ S i → LocalAt h i) :
    Returns (fun fuel => mvPropagate fuel h n none) fun data =>
      OnlyMin h.data data ∧ LocalOff data S t := by
  cases n with
  | none =>
      have hc : Climb h t S 0 (h, none) := ⟨rfl, .refl _, .inl ⟨rfl, rfl⟩, hloc⟩
      exact hc.returns ht
  | some x =>
      obtain ⟨ctx, c, l, r, he⟩ := exists_plug_of_mem (hn x rfl)
      have hc : Climb h t S (ctx.length + 1) (h, some x) :=
        ⟨rfl, .refl _, .inr ⟨x, ctx, c, l, r, rfl, he, rfl⟩, hloc⟩
      exact hc.returns ht

/-- When the erase of `z`, with subtrees `l` and `r`, leaves the aggregate exact.
Otherwise `z` alone has the least virtual run time of its subtree, its successor
is not its right child, and that successor is not the strict minimum of `r`. -/
def SafeErase (data : ι → SchedEntity) (l : CTree ι) (z : ι) (r : CTree ι) : Prop :=
  l = .nil ∨ r = .nil ∨ (∃ c y yr, r = .node c .nil y yr) ∨
    (∃ i ∈ l.inorder ++ r.inorder, vtimeBefore (data z).vruntime (data i).vruntime = false) ∨
    (∀ y rest, r.inorder = y :: rest → ∀ i ∈ rest,
      vtimeBefore (data y).vruntime (data i).vruntime = true)

omit [DecidableEq ι] in
theorem IsMin.drop {a b : List ι} {m : BitVec 64} (hw : InHalf data (a ++ z :: b))
    (hm : IsMin data (a ++ z :: b) m)
    (hz : ∃ i ∈ a ++ b, vtimeBefore (data z).vruntime (data i).vruntime = false) :
    IsMin data (a ++ b) m := by
  obtain ⟨base, hw⟩ := hw
  have hsub : ∀ i ∈ a ++ b, i ∈ a ++ z :: b := by
    intro i hi
    simp only [mem_append, mem_cons] at hi ⊢
    tauto
  have hzm : z ∈ a ++ z :: b := by simp
  obtain ⟨⟨j, hj, rfl⟩, hle⟩ := (isMin_iff_offset hw).mp hm
  rw [isMin_iff_offset fun i hi => hw i (hsub i hi)]
  refine ⟨?_, fun i hi => hle i (hsub i hi)⟩
  have hjz : j = z ∨ j ∈ a ++ b := by
    simp only [mem_append, mem_cons] at hj ⊢
    tauto
  rcases hjz with rfl | hj
  · obtain ⟨i, hi, hbefore⟩ := hz
    refine ⟨i, hi, offset_injective base (le_antisymm ?_ (hle i (hsub i hi)))⟩
    exact (serialBefore_eq_false_iff (hw j hzm) (hw i (hsub i hi))).mp hbefore
  · exact ⟨j, hj, rfl⟩

section Deep
variable {spine : Ctx ι} {cy : Color} {yr : CTree ι} {y : ι}

/-- The whole tree before and after `y` takes the place of `z`. -/
private abbrev treeBefore (ctx spine : Ctx ι) (c cy : Color) (l yr : CTree ι) (z y : ι) : CTree ι :=
  plug ctx (.node c l z (plug spine (.node cy .nil y yr)))

private abbrev treeAfter (ctx spine : Ctx ι) (c : Color) (l yr : CTree ι) (y : ι) : CTree ι :=
  plug ctx (.node c l y (plug spine yr))

omit [DecidableEq ι] in
private theorem mem_treeAfter (hspine : LeftSpine spine) {i : ι}
    (hi : i ∈ (treeAfter ctx spine c l yr y).inorder) :
    i ∈ (treeBefore ctx spine c cy l yr z y).inorder := by
  simp only [treeAfter, treeBefore, inorder_plug, inorder_node, hspine.inorder_plug,
    mem_append, mem_cons] at hi ⊢
  tauto

variable (hspine : LeftSpine spine)
  (hw : InHalf h.data (treeBefore ctx spine c cy l yr z y).inorder)
  (hex : Exact h.data (treeBefore ctx spine c cy l yr z y))
  (hsafe : (∃ i ∈ l.inorder ++ (plug spine (.node cy .nil y yr)).inorder,
      vtimeBefore (h.data z).vruntime (h.data i).vruntime = false) ∨
    (∀ i ∈ (plug spine yr).inorder, vtimeBefore (h.data y).vruntime (h.data i).vruntime = true))

include hspine hw hex hsafe

omit [DecidableEq ι] in
/-- When the climb stops inside the right subtree, the heir is right already. -/
private theorem heir_local {s1 s2 : Ctx ι} {f : Frame ι} (hs : spine = s1 ++ f :: s2)
    (hv : ∀ i, (data i).vruntime = (h.data i).vruntime)
    (hymin : (data y).minVruntime = (h.data z).minVruntime)
    (hfmin : (data f.id).minVruntime = (h.data f.id).minVruntime)
    (hl : Local data l) (hr : Local data (plug spine yr)) :
    (data y).minVruntime = combine data y l.rootId (plug spine yr).rootId := by
  have hw' : InHalf data (treeAfter ctx spine c l yr y).inorder :=
    (hw.mono fun i hi => mem_treeAfter hspine hi).congr_vruntime hv
  have hwsub : InHalf data (l.inorder ++ y :: (plug spine yr).inorder) :=
    hw'.mono fun i hi => by
      rw [treeAfter, (inorder_plug_perm _ _).mem_iff]
      exact mem_append_left _ hi
  have hel : Exact data l := (exact_iff_local (hwsub.mono (by simp +contextual))).mpr hl
  have her : Exact data (plug spine yr) :=
    (exact_iff_local (hwsub.mono (by simp +contextual))).mpr hr
  have hez : IsMin h.data (l.inorder ++ z :: (plug spine (.node cy .nil y yr)).inorder)
      (h.data z).minVruntime := (exact_of_plug hex).1
  have hwz : InHalf h.data (l.inorder ++ z :: (plug spine (.node cy .nil y yr)).inorder) :=
    hw.mono fun i hi => by
      rw [treeBefore, (inorder_plug_perm _ _).mem_iff]
      exact mem_append_left _ hi
  rcases hsafe with hA | hB
  · have hmin := (hez.drop hwz hA).congr_vruntime hv
    rw [hymin]
    refine IsMin.unique hwsub (hmin.congr_mem fun i => ?_) (isMin_combine hwsub hel her)
    simp only [hspine.inorder_plug, inorder_node, inorder_nil, nil_append,
      mem_append, mem_cons]
    tauto
  · -- the stored aggregate of `f` is the value of `y`, which is no longer below it
    exfalso
    have hsub : Exact h.data (plug (s1 ++ [f]) (.node cy .nil y yr)) := by
      have hsp := (exact_of_plug hex).2.2
      rw [hs, append_cons, plug_append] at hsp
      exact exact_of_plug hsp
    have hsub' : Exact data (plug (s1 ++ [f]) yr) := by
      rw [hs, append_cons, plug_append] at her
      exact exact_of_plug her
    have hroot : ∀ t : CTree ι, (plug (s1 ++ [f]) t).rootId = some f.id := by
      intro t
      rw [plug_append]
      simp
    obtain ⟨⟨i, hi, hvi⟩, -⟩ := hsub'.isMin_root (hroot yr)
    obtain ⟨-, hle⟩ := hsub.isMin_root (hroot _)
    have hiy := hB i (by
      rw [hs, append_cons, plug_append, (inorder_plug_perm _ _).mem_iff]
      exact mem_append_left _ hi)
    have hyi := hle y (by
      rw [(inorder_plug_perm _ _).mem_iff]
      simp)
    rw [← hv i, hvi, hfmin, hyi] at hiy
    cases hiy

/-- The climb through the right subtree, before it reaches the heir. -/
private structure Pending (g : RbStore ι SchedEntity) (t : CTree ι) (spine : Ctx ι) (y : ι)
    (n : Nat) (s : RbStore ι SchedEntity × Option ι) : Prop where
  climb : Climb g t (· = y) n s
  heir : s.1.data y = g.data y
  path : ∃ s1 f s2, spine = s1 ++ f :: s2 ∧ s.2 = some f.id ∧
    ∀ k ∈ f :: s2, s.1.data k.id = g.data k.id

private theorem Pending.pass (hp : Pending g (treeAfter ctx spine c l yr y) spine y n s)
    (ht : IsTree g (treeAfter ctx spine c l yr y))
    (hgd : g.data = spliceData h.data z (some y)) :
    (∃ data, mvPropagateStep none s = some (.done data) ∧ OnlyMin g.data data ∧
      LocalOff data (fun _ => False) (treeAfter ctx spine c l yr y)) ∨
    (∃ m s', m < n ∧ mvPropagateStep none s = some (.next s') ∧
      (Climb g (treeAfter ctx spine c l yr y) (fun _ => False) m s' ∨
        Pending g (treeAfter ctx spine c l yr y) spine y m s')) := by
  obtain ⟨hc, hy, s1, f, s2, hs, hnode, hold⟩ := hp
  have htree := hc.isTree ht
  have htree' : IsTree g (plug (s1 ++ f :: (s2 ++ ⟨.right, c, y, l⟩ :: ctx)) yr) := by
    simpa [treeAfter, hs, plug_append, CTree.bin] using ht
  obtain ⟨-, hndc, -⟩ := nodup_plug htree'.2
  rw [Ctx.ids_append, nodup_append] at hndc
  obtain ⟨-, hndf, -⟩ := hndc
  have hfrest : f.id ∉ Ctx.ids (s2 ++ ⟨.right, c, y, l⟩ :: ctx) := by
    intro hm
    rw [Ctx.ids, cons_append, nodup_cons] at hndf
    exact hndf.1 (mem_append_right _ hm)
  have hfy : f.id ≠ y := by
    intro he
    exact hfrest (by rw [he, Ctx.ids_append]; simp [Ctx.ids])
  have hpar : (g.node f.id).rbParent = Ctx.parent (s2 ++ ⟨.right, c, y, l⟩ :: ctx) := by
    obtain ⟨-, hup, -, -⟩ := spans_append.mp (spans_nil.mp htree'.1)
    rw [hup, mkNode_rbParent]
  have hv : ∀ i, (s.1.data i).vruntime = (h.data i).vruntime := by
    intro i
    rw [hc.onlyMin.vruntime, hgd]
    by_cases hi : i = y
    · subst hi
      simp [spliceData]
    · simp [spliceData, hi]
  rcases hc.pass ht with ⟨hstep, hall⟩ | ⟨x, m, s', hx, hm, hstep, hs', -, hc'⟩
  · left
    refine ⟨_, hstep, hc.onlyMin, ?_⟩
    have hoff : LocalOff s.1.data (· = y) (treeAfter ctx spine c l yr y) :=
      (rep_localOff_iff htree.1.1).mpr hall
    obtain ⟨⟨-, hl, hr⟩, hup⟩ := localOff_plug.mp hoff
    have hndy : y ∉ l.inorder ∧ y ∉ (plug spine yr).inorder ∧ y ∉ Ctx.ids ctx := by
      obtain ⟨hndn, -, hdis⟩ := nodup_plug ht.2
      obtain ⟨h1, h2, -⟩ := (nodup_inorder_bin (d := .left)).mp hndn
      exact ⟨h1, h2, fun hm => hdis (by simp) hm⟩
    have hl := hl.congr (R := fun _ => False) (fun _ _ => rfl) fun i hi he => hndy.1 (he ▸ hi)
    have hr := hr.congr (R := fun _ => False) (fun _ _ => rfl) fun i hi he => hndy.2.1 (he ▸ hi)
    have hup := hup.congr (R := fun _ => False) (fun _ _ => rfl)
      (fun i hi he => hndy.2.2 (he ▸ hi)) (.inr rfl)
    have hheir := heir_local hspine hw hex hsafe hs hv
      (by rw [hy, hgd]; simp [spliceData])
      (by rw [hold f (by simp), hgd]; simp [spliceData, hfy])
      (localOff_false.mp hl) (localOff_false.mp hr)
    exact localOff_plug.mpr ⟨⟨fun _ => hheir, hl, hr⟩, hup⟩
  · right
    obtain rfl : x = f.id := by
      rw [hnode] at hx
      cases hx
      rfl
    refine ⟨m, s', hm, hstep, ?_⟩
    rw [hpar] at hs'
    have hkeep : ∀ i, i ≠ f.id → s'.1.data i = s.1.data i := by
      intro i hi
      rw [hs']
      simp [setMinVruntime, hi]
    cases s2 with
    | nil =>
        left
        have hsy : s'.2 = some y := by rw [hs']; rfl
        refine ⟨hc'.store, hc'.onlyMin, hc'.depth, ?_⟩
        intro i hi hne _
        exact hc'.rest i hi hne fun he => hne (by rw [hsy, he])
    | cons f' s2 =>
        right
        refine ⟨hc', ?_, s1 ++ [f], f', s2, by simp [hs], by rw [hs']; rfl, ?_⟩
        · rw [hkeep y hfy.symm, hy]
        · intro k hk
          rw [hkeep k.id, hold k (by simp only [mem_cons] at hk ⊢; tauto)]
          intro he
          refine hfrest ?_
          rw [← he, Ctx.ids_append]
          exact mem_append_left _ (Ctx.id_mem_ids hk)

end Deep

omit [DecidableEq ι] in
theorem SafeErase.deep {yr : CTree ι} {y : ι} {cy : Color}
    {spine : Ctx ι} {f : Frame ι} (hspine : LeftSpine (f :: spine)) (hl : l ≠ .nil)
    (hsafe : SafeErase data l z (plug (f :: spine) (.node cy .nil y yr))) :
    (∃ i ∈ l.inorder ++ (plug (f :: spine) (.node cy .nil y yr)).inorder,
        vtimeBefore (data z).vruntime (data i).vruntime = false) ∨
      (∀ i ∈ (plug (f :: spine) yr).inorder,
        vtimeBefore (data y).vruntime (data i).vruntime = true) := by
  rcases hsafe with hn | hn | ⟨c, w, wr, hn⟩ | hA | hB
  · exact absurd hn hl
  · exact absurd hn (plug_ne_nil spine bin_ne_nil)
  · exact absurd hn (hspine.plug_ne_leftless (by simp))
  · exact .inl hA
  · right
    intro i hi
    refine hB y ((plug (f :: spine) yr).inorder) ?_ i hi
    rw [hspine.inorder_plug, hspine.inorder_plug]
    rfl

theorem mvPropagate_spliced {ctx' : Ctx ι} {k : Color} {r : CTree ι} {heir : Option ι}
    (hsp : Spliced ctx c l z r ctx' t k heir) (hnd : (plug ctx (.node c l z r)).inorder.Nodup)
    (hw : InHalf h.data (plug ctx (.node c l z r)).inorder)
    (hex : Exact h.data (plug ctx (.node c l z r))) (hsafe : SafeErase h.data l z r)
    (hg : Spans g ctx' t) (hgd : g.data = spliceData h.data z heir) :
    Returns (fun fuel => mvPropagate fuel g (Ctx.parent ctx') none) fun data =>
      OnlyMin g.data data ∧ LocalOff data (fun _ => False) (plug ctx' t) := by
  have ht : IsTree g (plug ctx' t) := ⟨spans_nil.mpr hg, (hsp.nodup hnd).2⟩
  have hoff := spliced_localOff hsp hnd ((exact_iff_local hw).mp hex)
  rw [← hgd] at hoff
  have hat := (rep_localOff_iff ht.1.1).mp hoff
  by_cases hone : ∀ y, heir = some y → Ctx.parent ctx' = some y
  · refine mvPropagate_returns ht (Ctx.parent_mem_plug t) ?_
    intro i hi hne _
    refine hat i hi ?_
    rintro (hp | hh)
    · exact hne hp
    · exact hne (hone i hh)
  · cases hsp with
    | noLeft | noRight _ => exact absurd (by simp) hone
    | both spine cy y yr hl hspine =>
        cases spine with
        | nil => exact absurd (by rintro _ ⟨⟩; rfl) hone
        | cons f spine =>
            have hT : plug ((f :: spine) ++ ⟨.right, c, y, l⟩ :: ctx) t =
                plug ctx (.node c l y (plug (f :: spine) t)) := by
              rw [plug_append]
              rfl
            rw [hT] at ht hat ⊢
            refine loop_total (fun n s =>
              Climb g (plug ctx (.node c l y (plug (f :: spine) t))) (fun _ => False) n s ∨
              Pending g (plug ctx (.node c l y (plug (f :: spine) t))) (f :: spine) y n s)
              ?_ ((spine ++ ⟨.right, c, y, l⟩ :: ctx).length + 1) (g, some f.id) (.inr ?_)
            · rintro n s (hc | hp)
              · rcases hc.pass ht with ⟨hstep, hall⟩ | ⟨x, m, s', -, hm, hstep, -, -, hc'⟩
                · left
                  exact ⟨_, hstep, hc.onlyMin, (rep_localOff_iff (hc.isTree ht).1.1).mpr hall⟩
                · right
                  exact ⟨m, s', hm, hstep, .inl hc'⟩
              · exact hp.pass hspine hw hex (hsafe.deep hspine hl) ht hgd
            · refine ⟨⟨rfl, .refl _, .inr ?_, ?_⟩, rfl, [], f, spine, rfl, rfl, fun _ _ => rfl⟩
              · have hf := hspine f (by simp)
                refine ⟨f.id, spine ++ ⟨.right, c, y, l⟩ :: ctx, f.color, t, f.sib, rfl, ?_, rfl⟩
                rw [← hT, cons_append, plug_cons, hf]
                rfl
              · intro i hi hne hy
                refine hat i hi ?_
                rintro (hp | hh)
                · exact hne hp
                · cases hh
                  exact hy rfl

/-- The aggregate kept through the fix-ups: the entities are those of `data₀`
apart from their aggregates, and these are exact. -/
def Aggregate (data₀ data : ι → SchedEntity) (t : CTree ι) : Prop :=
  OnlyMin data₀ data ∧ InHalf data₀ t.inorder ∧ Exact data t

omit [DecidableEq ι] in
theorem isMin_nodeMin {d : Dir} {a b : CTree ι} {x : ι} (hrep : Rep g parent (.bin d c a x b))
    (hw : InHalf g.data (a.inorder ++ x :: b.inorder)) (ha : Exact g.data a) (hb : Exact g.data b) :
    IsMin g.data (a.inorder ++ x :: b.inorder) (nodeMinVruntime g x) := by
  obtain ⟨hx, -, -⟩ := rep_bin.mp hrep
  cases d with
  | left =>
      simp only [nodeMinVruntime, hx, mkNode]
      exact isMin_combine hw ha hb
  | right =>
      have hmem : ∀ i, i ∈ b.inorder ++ x :: a.inorder ↔ i ∈ a.inorder ++ x :: b.inorder := by
        intro i
        simp only [mem_append, mem_cons]
        tauto
      simp only [nodeMinVruntime, hx, mkNode]
      exact (isMin_combine (hw.mono fun i hi => (hmem i).mp hi) hb ha).congr_mem hmem

theorem mvRotate_keeps (data₀ : ι → SchedEntity) :
    AugKeeps (some minVruntimeCb) (Aggregate data₀) := by
  refine ⟨?_, ?_⟩
  · rintro data t u hs ⟨hom, hw, hex⟩
    exact ⟨hom, by rw [← inorder_of_shape hs]; exact hw, hex.of_shape hs⟩
  · rintro h ctx d c k a b e x y hnd hrep ⟨hom, hw, hex⟩
    rw [inorder_plug_congr (inorder_rotate d c k a b e x y)] at hw
    obtain ⟨hndt, -, hdis⟩ := nodup_plug hnd
    obtain ⟨hyx, hye, hndx, -, hxe⟩ := nodup_inorder_bin.mp hndt
    obtain ⟨hxa, hxb, -, -, -⟩ := nodup_inorder_bin.mp hndx
    simp only [mem_inorder_bin, not_or] at hyx
    obtain ⟨hyx, hya, hyb⟩ := hyx
    obtain ⟨hmx, hea, hey⟩ := exact_bin.mp (exact_of_plug hex)
    obtain ⟨-, heb, hee⟩ := exact_bin.mp hey
    -- `g` is the store after `mv_copy`
    obtain ⟨g, hg⟩ : ∃ g, g = setMinVruntime h y (h.data x).minVruntime := ⟨_, rfl⟩
    have hdata : (Aug.rotate (some minVruntimeCb) h x y).data =
        (setMinVruntime g x (nodeMinVruntime g x)).data := by
      rw [hg]
      rfl
    have hgo : OnlyMin h.data g.data := hg ▸ onlyMin_setMin h y _
    have hdo : OnlyMin h.data (setMinVruntime g x (nodeMinVruntime g x)).data :=
      hgo.trans (onlyMin_setMin g x _)
    have hgne : ∀ i, i ≠ y → g.data i = h.data i := by
      intro i hi
      simp [hg, setMinVruntime, hi]
    have hdne : ∀ i, i ≠ x → i ≠ y → (setMinVruntime g x (nodeMinVruntime g x)).data i =
        h.data i := by
      intro i hix hiy
      rw [← hgne i hiy]
      simp [setMinVruntime, hix]
    have hgrep : Rep g (some y) (.bin d c a x b) := by
      refine (rep_bin.mp hrep).2.1.congr fun z _ => ?_
      rw [hg]
      rfl
    have hwx : InHalf g.data (a.inorder ++ x :: b.inorder) := by
      refine (hw.mono fun i hi => ?_).congr_vruntime (hom.trans hgo).vruntime
      rw [(inorder_plug_perm _ _).mem_iff]
      refine mem_append_left _ (mem_inorder_bin.mpr (.inr (.inl ?_)))
      simp only [mem_append, mem_cons] at hi
      rw [mem_inorder_bin]
      tauto
    have hmin := isMin_nodeMin hgrep hwx
      (hea.congr hgo.vruntime fun i hi => hgne i (by rintro rfl; exact hya hi))
      (heb.congr hgo.vruntime fun i hi => hgne i (by rintro rfl; exact hyb hi))
    rw [hdata]
    refine ⟨hom.trans hdo, hw, hex.replace (exact_bin.mpr ⟨?_, exact_bin.mpr ⟨?_, ?_, ?_⟩, ?_⟩)
      ?_ hdo.vruntime ?_⟩
    · have hy : ((setMinVruntime g x (nodeMinVruntime g x)).data y).minVruntime =
          (h.data x).minVruntime := by
        simp [setMinVruntime, hg, hyx]
      rw [hy]
      refine (hmx.congr_vruntime hdo.vruntime).congr_mem fun i => ?_
      simp only [mem_append, mem_cons, mem_inorder_bin]
      tauto
    · have hx : ((setMinVruntime g x (nodeMinVruntime g x)).data x).minVruntime =
          nodeMinVruntime g x := by
        simp [setMinVruntime]
      rw [hx]
      exact hmin.congr_vruntime (onlyMin_setMin g x _).vruntime
    · exact hea.congr hdo.vruntime fun i hi =>
        hdne i (by rintro rfl; exact hxa hi) (by rintro rfl; exact hya hi)
    · exact heb.congr hdo.vruntime fun i hi =>
        hdne i (by rintro rfl; exact hxb hi) (by rintro rfl; exact hyb hi)
    · refine hee.congr hdo.vruntime fun i hi => hdne i ?_ (by rintro rfl; exact hye hi)
      rintro rfl
      exact hxe (mem_inorder_bin.mpr (.inl rfl)) hi
    · intro i
      simp only [mem_inorder_bin]
      tauto
    · intro i hi
      refine hdne i ?_ ?_
      · rintro rfl
        exact hdis (by simp [mem_inorder_bin]) hi
      · rintro rfl
        exact hdis (by simp [mem_inorder_bin]) hi

end NeoKernel.Sched
