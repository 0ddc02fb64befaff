import NeoKernel.Rbtree.Rep

/-!
# Taking a node out of the tree

`__rb_erase` before its fix-up. In each case the result is a hole, the subtree
`x` that moves into it, and the context above it; the fix-up starts there.
-/
namespace NeoKernel.Rbtree
open Lib List CTree RbStore

variable {ι α : Type} [DecidableEq ι]
variable {h : RbStore ι α} {ctx : Ctx ι}

def SameData (h h' : RbStore ι α) : Prop := h'.rbLeftmost = h.rbLeftmost ∧ h'.data = h.data

omit [DecidableEq ι] in
theorem SameData.trans {g k : RbStore ι α} (hg : SameData h g) (hk : SameData g k) :
    SameData h k := ⟨hk.1.trans hg.1, hk.2.trans hg.2⟩

theorem sameData_transplant (u : ι) (v : Option ι) : SameData h (transplant h u v) := by
  cases v <;> simp [SameData, transplant, RbStore.ifSome, RbStore.rbSetParent]

theorem transplant_node_of_ne {u z : ι} {v : Option ι} (hup : (h.node u).rbParent ≠ some z)
    (hv : v ≠ some z) : (transplant h u v).node z = h.node z := by
  cases v with
  | none => exact h.replaceChild_node_of_ne u hup
  | some v =>
      have hzv : z ≠ v := fun he => hv (by rw [he])
      simp only [transplant, RbStore.ifSome, RbStore.rbSetParent]
      rw [setNode_node_of_ne _ _ hzv, replaceChild_node_of_ne _ _ hup]

theorem transplant_node_root {u v : ι} (hup : (h.node u).rbParent ≠ some v) :
    (transplant h u (some v)).node v = { h.node v with rbParent := (h.node u).rbParent } := by
  simp only [transplant, RbStore.ifSome, RbStore.rbSetParent, setNode_node_self]
  rw [replaceChild_node_of_ne _ _ hup]

omit [DecidableEq ι] in
theorem parent_ne_of_not_mem {z : ι} (hz : z ∉ Ctx.ids ctx) : Ctx.parent ctx ≠ some z := by
  cases ctx with
  | nil => simp
  | cons f ctx =>
      rintro ⟨⟩
      exact hz (by simp [Ctx.ids])

theorem CtxRep.transplant {u : ι} {v : Option ι} (hc : CtxRep h ctx (some u))
    (hu : (h.node u).rbParent = Ctx.parent ctx) (hnd : (Ctx.ids ctx).Nodup)
    (huc : u ∉ Ctx.ids ctx) (hv : ∀ z, v = some z → z ∉ Ctx.ids ctx) :
    CtxRep (transplant h u v) ctx v := by
  have hrep := hc.replaceChild (v := v) hnd huc
  rw [Rbtree.transplant, hu]
  cases v with
  | none => exact hrep
  | some v =>
      refine hrep.congr rfl ?_
      intro z hz
      refine setNode_node_of_ne _ _ ?_
      rintro rfl
      exact hv z rfl hz

theorem transplant_rep {u : ι} {t : CTree ι} {parent : Option ι} (hc : CtxRep h ctx (some u))
    (hu : (h.node u).rbParent = Ctx.parent ctx) (hnd : (Ctx.ids ctx).Nodup)
    (huc : u ∉ Ctx.ids ctx) (ht : Rep h parent t) (hndt : t.inorder.Nodup)
    (hdis : t.inorder.Disjoint (Ctx.ids ctx)) :
    Rep (transplant h u t.rootId) (Ctx.parent ctx) t ∧
    CtxRep (transplant h u t.rootId) ctx t.rootId := by
  constructor
  · refine ht.reparent hndt ?_ ?_
    · intro x hx
      rw [hx, transplant_node_root, hu]
      rw [hu]
      exact parent_ne_of_not_mem fun hm => hdis (mem_inorder_of_rootId hx) hm
    · intro z hz hne
      refine transplant_node_of_ne ?_ hne
      rw [hu]
      exact parent_ne_of_not_mem fun hm => hdis hz hm
  · refine hc.transplant hu hnd huc ?_
    intro z hz hm
    exact hdis (mem_inorder_of_rootId hz) hm

theorem adopt_rep {d : Dir} {x y : ι} {t : CTree ι} {parent : Option ι} (ht : Rep h parent t)
    (hnd : t.inorder.Nodup) (hx : t.rootId = some x) (hy : y ∉ t.inorder) :
    ∃ k, k = (h.setChild y d (some x)).rbSetParent x (some y) ∧ Rep k (some y) t ∧
      k.node y = (h.node y).withChild d (some x) ∧
      ∀ w, w ≠ y → w ∉ t.inorder → k.node w = h.node w := by
  have hxt := mem_inorder_of_rootId hx
  have hxy : x ≠ y := by rintro rfl; exact hy hxt
  have hother : ∀ w, w ≠ y → w ≠ x →
      ((h.setChild y d (some x)).rbSetParent x (some y)).node w = h.node w := by
    intro w hwy hwx
    simp [RbStore.setChild, RbStore.rbSetParent, RbStore.setNode, hwy, hwx]
  refine ⟨_, rfl, ht.reparent hnd ?_ ?_, ?_, ?_⟩
  · intro w hw
    cases hx.symm.trans hw
    simp [RbStore.setChild, RbStore.rbSetParent, RbStore.setNode, hxy]
  · intro w hw hne
    exact hother w (by rintro rfl; exact hy hw) (by rintro rfl; exact hne hx)
  · simp [RbStore.setChild, RbStore.rbSetParent, RbStore.setNode, hxy.symm]
  · intro w hwy hw
    exact hother w hwy (by rintro rfl; exact hw hxt)

theorem takePlace_rep {c : Color} {l r : CTree ι} {z y : ι} {rr : Option ι}
    (hc : CtxRep h ctx (some z)) (hz : h.node z = ⟨Ctx.parent ctx, c, rr, l.rootId⟩)
    (hl : Rep h (some z) l) (hlne : l ≠ .nil) (hy : (h.node y).rbRight = r.rootId)
    (hr : Rep h (some y) r)
    (hnd : (plug ctx (.node c l y r)).inorder.Nodup)
    (hzn : z ∉ (plug ctx (.node c l y r)).inorder) :
    ∃ h', takePlace h z y = some h' ∧ SameData h h' ∧
      Rep h' (Ctx.parent ctx) (.node c l y r) ∧ CtxRep h' ctx (some y) := by
  rw [(inorder_plug_perm _ _).mem_iff, mem_append, not_or] at hzn
  obtain ⟨hzt, hzc⟩ := hzn
  obtain ⟨hnd, hndc, hdis⟩ := nodup_plug hnd
  obtain ⟨hyl, hyr, hndl, -, hlr⟩ := (nodup_inorder_bin (d := .left)).mp hnd
  simp only [inorder_node, mem_append, mem_cons, not_or] at hzt
  obtain ⟨hzl, hzy, hzr⟩ := hzt
  have hyc : y ∉ Ctx.ids ctx := fun hm => hdis (by simp) hm
  obtain ⟨x, hx⟩ := exists_rootId hlne
  have hup : (h.node z).rbParent = Ctx.parent ctx := by rw [hz]
  -- the store after `transplant(root, z, y)`
  obtain ⟨g, hg⟩ : ∃ g, g = transplant h z (some y) := ⟨_, rfl⟩
  have hgc : CtxRep g ctx (some y) := by
    rw [hg]
    exact hc.transplant hup hndc hzc (by rintro w ⟨⟩; exact hyc)
  have hgy : g.node y = { h.node y with rbParent := Ctx.parent ctx } := by
    rw [hg, transplant_node_root (by rw [hup]; exact parent_ne_of_not_mem hyc), hup]
  have hgne : ∀ w, w ∉ Ctx.ids ctx → w ≠ y → g.node w = h.node w := by
    intro w hw hwy
    rw [hg]
    refine transplant_node_of_ne (by rw [hup]; exact parent_ne_of_not_mem hw) ?_
    simp [Ne.symm hwy]
  have hgz : g.node z = ⟨Ctx.parent ctx, c, rr, some x⟩ := by rw [hgne z hzc hzy, hz, hx]
  have hgl : Rep g (some z) l := hl.congr fun w hw =>
    hgne w (fun hm => hdis (by simp [hw]) hm) (by rintro rfl; exact hyl hw)
  obtain ⟨k, hk, hkl, hky, hkne⟩ := adopt_rep (d := .left) hgl hndl hx hyl
  have hlast : ∀ w, w ≠ y → (k.rbSetParentColor y (Ctx.parent ctx) c).node w = k.node w :=
    fun w hwy => setNode_node_of_ne _ _ hwy
  refine ⟨k.rbSetParentColor y (Ctx.parent ctx) c, ?_, ?_, ⟨?_, ?_, ?_⟩, ?_⟩
  · have hset : ((g.setChild y .left (some x)).node y).rbLeft = some x := by
      simp [RbStore.setChild, RbNode.withChild]
    simp [takePlace, ← hg, hgz, hset, ← hk, hky, hkne z hzy hzl, hgy, RbNode.withChild]
  · have hsd : SameData h g := hg ▸ sameData_transplant z (some y)
    rw [hk]
    exact hsd
  · simp [RbStore.rbSetParentColor, hky, RbNode.withChild, hgy, hy, hx]
  · exact hkl.congr fun w hw => hlast w (by rintro rfl; exact hyl hw)
  · refine hr.congr fun w hw => ?_
    have hwy : w ≠ y := by rintro rfl; exact hyr hw
    rw [hlast w hwy, hkne w hwy fun hm => hlr hm hw]
    exact hgne w (fun hm => hdis (by simp [hw]) hm) hwy
  · rw [hk]
    refine hgc.congr rfl fun w hw => ?_
    have hwy : w ≠ y := by rintro rfl; exact hyc hw
    rw [← hk, hlast w hwy, hkne w hwy fun hm => hdis (by simp [hm]) hw]

/-- `liftSuccessor` leaves `z` with its left subtree in place and gives `y` what
is left of the right one. -/
theorem liftSuccessor_rep {c cy : Color} {l yr : CTree ι} {z y : ι} {spine : Ctx ι}
    (hs : Spans h ctx (.node c l z (plug spine (.node cy .nil y yr))))
    (hnd : (plug ctx (.node c l z (plug spine (.node cy .nil y yr)))).inorder.Nodup) :
    ∃ h' rr, liftSuccessor h z y =
        some (h', Ctx.parent (spine ++ ⟨.right, c, y, l⟩ :: ctx)) ∧ SameData h h' ∧
      CtxRep h' ctx (some z) ∧ h'.node z = ⟨Ctx.parent ctx, c, rr, l.rootId⟩ ∧
      Rep h' (some z) l ∧ (h'.node y).rbRight = (plug spine yr).rootId ∧
      Rep h' (some y) (plug spine yr) := by
  cases spine with
  | nil =>
      obtain ⟨⟨hz, hl, hy, -, hyr⟩, hc⟩ := hs
      refine ⟨h, some y, ?_, ⟨rfl, rfl⟩, hc, hz, hl, ?_, hyr⟩
      · simp [liftSuccessor, hy]
      · rw [hy]
        rfl
  | cons f spine =>
      obtain ⟨a, ha⟩ : ∃ a, a = f :: spine := ⟨_, rfl⟩
      rw [← ha] at hs hnd ⊢
      -- the context above `y`
      have hin : Spans h (a ++ ⟨.right, c, z, l⟩ :: ctx) (.node cy .nil y yr) :=
        spans_append.mpr (spans_cons.mpr hs)
      have hndy : (plug (a ++ ⟨.right, c, z, l⟩ :: ctx) (.node cy .nil y yr)).inorder.Nodup := by
        rw [plug_append]
        exact hnd
      obtain ⟨hndt, hndc, hdis⟩ := nodup_plug hndy
      obtain ⟨⟨hy, -, hyr⟩, hup⟩ := hin
      have hyc : y ∉ Ctx.ids (a ++ ⟨.right, c, z, l⟩ :: ctx) := fun hm => hdis (by simp) hm
      obtain ⟨hyyr, hndyr⟩ := nodup_cons.mp (by simpa using hndt)
      obtain ⟨g, hg⟩ : ∃ g, g = transplant h y yr.rootId := ⟨_, rfl⟩
      have hspans : Spans g (a ++ ⟨.right, c, z, l⟩ :: ctx) yr := by
        rw [hg]
        refine transplant_rep hup (by rw [hy]) hndc hyc hyr hndyr ?_
        intro w hw hm
        exact hdis (by simp [hw]) hm
      obtain ⟨⟨hgz, hgl, hgr⟩, hgc⟩ := spans_cons.mp (spans_append.mp hspans)
      -- where the nodes of the pieces are
      have hperm := inorder_plug_perm (a ++ ⟨.right, c, z, l⟩ :: ctx) yr
      rw [plug_append] at hperm
      have hnd' : (plug ctx (.node c l z (plug a yr))).inorder.Nodup := by
        refine (hperm.nodup_iff).mpr ?_
        rw [nodup_append']
        exact ⟨hndyr, hndc, fun w hw hm => hdis (by simp [hw]) hm⟩
      have hynew : y ∉ (plug ctx (.node c l z (plug a yr))).inorder := by
        change y ∉ (plug (⟨.right, c, z, l⟩ :: ctx) (plug a yr)).inorder
        rw [hperm.mem_iff, mem_append, not_or]
        exact ⟨hyyr, hyc⟩
      obtain ⟨x, hx⟩ : ∃ x, (plug a yr).rootId = some x :=
        exists_rootId (by rw [ha]; exact plug_ne_nil spine bin_ne_nil)
      obtain ⟨hndz, -, hdisz⟩ := nodup_plug hnd'
      obtain ⟨hzl, hzr, -, hndr, hlr⟩ := (nodup_inorder_bin (d := .left)).mp hndz
      rw [(inorder_plug_perm _ _).mem_iff, mem_append, not_or] at hynew
      simp only [inorder_node, mem_append, mem_cons, not_or] at hynew
      obtain ⟨⟨hyl, hyz, hyr'⟩, hyctx⟩ := hynew
      obtain ⟨k, hk, hkr, hky, hkne⟩ := adopt_rep (d := .right) hgr hndr hx hyr'
      rw [hx] at hgz
      have hne : (h.node y).rbParent ≠ some z := by
        rw [hy, ha]
        rintro ⟨⟩
        exact hzr (by
          rw [ha, (inorder_plug_perm _ _).mem_iff]
          simp [Ctx.ids])
      refine ⟨k, some x, ?_, ?_, ?_, ?_, ?_, ?_, hkr⟩
      · simp only [liftSuccessor, if_neg hne]
        simp only [hy, ← hg, hgz]
        simp [RbStore.setChild, RbNode.withChild, hk, ha]
      · have hsd : SameData h g := hg ▸ sameData_transplant y yr.rootId
        rw [hk]
        exact hsd
      · rw [hk]
        refine hgc.congr rfl fun w hw => ?_
        rw [← hk]
        exact hkne w (by rintro rfl; exact hyctx hw) fun hm => hdisz (by simp [hm]) hw
      · rw [hkne z (Ne.symm hyz) hzr, hgz]
      · refine hgl.congr fun w hw => ?_
        exact hkne w (by rintro rfl; exact hyl hw) fun hm => hlr hw hm
      · rw [hky, hx]
        rfl

omit [DecidableEq ι] in
theorem subtreeMin_returns {parent : Option ι} {t : CTree ι} {x : ι} (ht : Rep h parent t)
    (hx : t.rootId = some x) :
    Returns (fun fuel => subtreeMin fuel h x) (fun y => t.inorder.head? = some y) := by
  refine loop_total
    (fun n s => ∃ u parent, Rep h parent u ∧ u.rootId = some s ∧
      u.inorder.head? = t.inorder.head? ∧ u.inorder.length = n)
    ?_ t.inorder.length x ⟨t, parent, ht, hx, rfl, rfl⟩
  rintro n s ⟨u, parent, hu, hs, hhead, rfl⟩
  cases u with
  | nil => simp at hs
  | node c l y r =>
      obtain rfl : y = s := by simpa [CTree.rootId] using hs
      obtain ⟨hy, hl, -⟩ := hu
      cases l with
      | nil =>
          left
          refine ⟨y, ?_, ?_⟩
          · simp [leftStep, hy]
          · rw [← hhead]
            rfl
      | node k a w b =>
          right
          refine ⟨_, w, ?_, ?_, .node k a w b, some y, hl, rfl, ?_, rfl⟩
          · simp
          · simp [leftStep, hy, CTree.rootId]
          · rw [← hhead]
            cases ha : a.inorder <;> simp [ha]

theorem spliceOut_returns {aug : Aug ι α} {c k : Color} {l r t : CTree ι} {z : ι} {ctx' : Ctx ι}
    {heir : Option ι} (hs : Spans h ctx (.node c l z r))
    (hnd : (plug ctx (.node c l z r)).inorder.Nodup)
    (hsp : Spliced ctx c l z r ctx' t k heir) :
    Returns (fun fuel => spliceOut aug fuel h z) fun s =>
      ∃ g, SameData h g ∧ Spans g ctx' t ∧
        s = ⟨g.ifSome heir fun g y => aug.copy g z y, t.rootId, Ctx.parent ctx', Ctx.parent ctx',
          k = .black⟩ := by
  obtain ⟨hndt, hndc, hdis⟩ := nodup_plug hnd
  obtain ⟨-, -, hndl, hndr, -⟩ := (nodup_inorder_bin (d := .left)).mp hndt
  have hzc : z ∉ Ctx.ids ctx := fun hm => hdis (by simp) hm
  obtain ⟨⟨hz, hl, hr⟩, hc⟩ := id hs
  cases hsp with
  | noLeft =>
      refine .of_eq (r := ⟨transplant h z r.rootId, r.rootId, _, _, _⟩) ?_
        ⟨_, sameData_transplant z r.rootId, ?_, rfl⟩
      · intro fuel
        simp [spliceOut, hz]
      · exact transplant_rep hc (by rw [hz]) hndc hzc hr hndr
          fun w hw hm => hdis (by simp [hw]) hm
  | noRight hlne =>
      refine .of_eq (r := ⟨transplant h z l.rootId, l.rootId, _, _, _⟩) ?_
        ⟨_, sameData_transplant z l.rootId, ?_, rfl⟩
      · intro fuel
        obtain ⟨x, hx⟩ := exists_rootId hlne
        simp [spliceOut, hz, hx]
      · exact transplant_rep hc (by rw [hz]) hndc hzc hl hndl
          fun w hw hm => hdis (by simp [hw]) hm
  | both spine cy y yr hlne hspine =>
      have hrne : plug spine (.node k .nil y t) ≠ .nil := plug_ne_nil spine (by simp)
      obtain ⟨x, hx⟩ := exists_rootId hrne
      obtain ⟨w, hw⟩ := exists_rootId hlne
      have hrun : ∀ fuel, spliceOut aug fuel h z =
          (subtreeMin fuel h x).bind (spliceSuccessor aug h z) := by
        intro fuel
        simp [spliceOut, hz, hx, hw]
      simp only [hrun]
      refine (subtreeMin_returns hr hx).bind ?_
      intro y' hy'
      rw [hspine.inorder_plug] at hy'
      obtain rfl : y = y' := by simpa using hy'
      obtain ⟨⟨hy, -, -⟩, -⟩ := spans_append.mpr (spans_cons (f := ⟨.right, c, z, l⟩).mpr hs)
      obtain ⟨h1, rr, hlift, hsd, hc1, hz1, hl1, hyr1, hrep1⟩ := liftSuccessor_rep hs hnd
      have hnew := (Spliced.both spine k y t hlne hspine).nodup hnd
      rw [plug_append] at hnew
      obtain ⟨h2, htake, hsd2, hrep2, hc2⟩ :=
        takePlace_rep hc1 hz1 hl1 hlne hyr1 hrep1 hnew.2 hnew.1
      refine .of_eq (r := ⟨aug.copy h2 z y, t.rootId, _, _, _⟩) ?_ ⟨h2, hsd.trans hsd2, ?_, rfl⟩
      · intro fuel
        simp [spliceSuccessor, hlift, htake, hy]
      · exact spans_append.mpr (spans_cons.mpr ⟨hrep2, hc2⟩)

end NeoKernel.Rbtree
