import NeoKernel.Rbtree.Defs

/-!
# Stores that represent a tree

`Rep` reads a subtree off the store, `CtxRep` the path from a hole to the root.
`Holds` puts them together with what every fix-up keeps: the in-order sequence,
the cached leftmost node and the aggregate of the augment callbacks.
-/
namespace NeoKernel.Rbtree
open Lib List CTree

variable {ι α : Type} {h h' : RbStore ι α} {parent : Option ι} {d : Dir} {c : Color} {t : CTree ι}
  {x : ι} {ctx : Ctx ι}

def mkNode (d : Dir) (c : Color) (parent near far : Option ι) : RbNode ι :=
  match d with
  | .left => ⟨parent, c, far, near⟩
  | .right => ⟨parent, c, near, far⟩

section
variable (d : Dir) (c : Color) (parent near far v : Option ι)

@[simp] theorem mkNode_rbParent : (mkNode d c parent near far).rbParent = parent := by
  cases d <;> rfl
@[simp] theorem mkNode_rbColor : (mkNode d c parent near far).rbColor = c := by
  cases d <;> rfl
@[simp] theorem mkNode_child : (mkNode d c parent near far).child d = near := by
  cases d <;> rfl
@[simp] theorem mkNode_child_flip : (mkNode d c parent near far).child d.flip = far := by
  cases d <;> rfl

end

def Rep (h : RbStore ι α) : Option ι → CTree ι → Prop
  | _, .nil => True
  | parent, .node c l x r =>
      h.node x = ⟨parent, c, r.rootId, l.rootId⟩ ∧ Rep h (some x) l ∧ Rep h (some x) r

/-- `CtxRep h ctx hole`: the pointer at the end of the path is `hole`. -/
def CtxRep (h : RbStore ι α) : Ctx ι → Option ι → Prop
  | [], hole => h.rbNode = hole
  | f :: ctx, hole =>
      h.node f.id = mkNode f.dir f.color (Ctx.parent ctx) hole f.sib.rootId ∧
        Rep h (some f.id) f.sib ∧ CtxRep h ctx (some f.id)

theorem rep_bin {s : CTree ι} : Rep h parent (.bin d c t x s) ↔
      h.node x = mkNode d c parent t.rootId s.rootId ∧ Rep h (some x) t ∧ Rep h (some x) s := by
  cases d with
  | left => exact Iff.rfl
  | right => exact and_congr_right fun _ => and_comm

theorem Rep.congr (ht : Rep h parent t) (heq : ∀ z ∈ t.inorder, h'.node z = h.node z) :
    Rep h' parent t := by
  induction t generalizing parent with
  | nil => trivial
  | node c l x r ihl ihr =>
      obtain ⟨hx, hl, hr⟩ := ht
      refine ⟨?_, ihl hl ?_, ihr hr ?_⟩
      · rw [heq x (by simp), hx]
      · intro z hz
        exact heq z (by simp [hz])
      · intro z hz
        exact heq z (by simp [hz])

theorem Rep.reparent {parent' : Option ι}
    (ht : Rep h parent t) (hnd : t.inorder.Nodup)
    (hroot : ∀ x, t.rootId = some x → h'.node x = { h.node x with rbParent := parent' })
    (heq : ∀ z ∈ t.inorder, t.rootId ≠ some z → h'.node z = h.node z) :
    Rep h' parent' t := by
  cases t with
  | nil => trivial
  | node c l x r =>
      obtain ⟨hx, hl, hr⟩ := ht
      rw [inorder_node, nodup_append] at hnd
      obtain ⟨_, hxr, hlx⟩ := hnd
      refine ⟨?_, hl.congr ?_, hr.congr ?_⟩
      · rw [hroot x rfl, hx]
      · intro z hz
        refine heq z (by simp [hz]) ?_
        rintro ⟨⟩
        exact hlx x hz x (by simp) rfl
      · intro z hz
        refine heq z (by simp [hz]) ?_
        rintro ⟨⟩
        exact (nodup_cons.mp hxr).1 hz

theorem CtxRep.congr {hole : Option ι} (hc : CtxRep h ctx hole) (hroot : h'.rbNode = h.rbNode)
    (heq : ∀ z ∈ Ctx.ids ctx, h'.node z = h.node z) : CtxRep h' ctx hole := by
  induction ctx generalizing hole with
  | nil => exact hroot.trans hc
  | cons f ctx ih =>
      obtain ⟨hf, hs, hc⟩ := hc
      refine ⟨?_, hs.congr ?_, ih hc ?_⟩
      · rw [heq f.id (by simp [Ctx.ids]), hf]
      · intro z hz
        exact heq z (by simp [Ctx.ids, hz])
      · intro z hz
        exact heq z (by simp [Ctx.ids, hz])

def Spans (h : RbStore ι α) (ctx : Ctx ι) (t : CTree ι) : Prop :=
  Rep h (Ctx.parent ctx) t ∧ CtxRep h ctx t.rootId

theorem spans_cons {f : Frame ι} :
    Spans h (f :: ctx) t ↔ Spans h ctx (.bin f.dir f.color t f.id f.sib) := by
  simp only [Spans, CtxRep, rep_bin, rootId_bin, Ctx.parent_cons]
  tauto

theorem spans_append {a : Ctx ι} : Spans h (a ++ ctx) t ↔ Spans h ctx (plug a t) := by
  induction a generalizing t with
  | nil => exact Iff.rfl
  | cons f a ih => rw [cons_append, spans_cons, ih, plug_cons]

theorem spans_nil : Spans h [] (plug ctx t) ↔ Spans h ctx t := by
  rw [← spans_append, append_nil]

/-- The parts of a tree that recolouring and rotating leave as they are. -/
structure Keep (ι α : Type) where
  seq : List ι
  leftmost : Option ι
  aggregate : (ι → α) → CTree ι → Prop
  nodup : seq.Nodup

structure Holds (K : Keep ι α) (h : RbStore ι α) (ctx : Ctx ι) (t : CTree ι) : Prop where
  spans : Spans h ctx t
  seq : (plug ctx t).inorder = K.seq
  leftmost : h.rbLeftmost = K.leftmost
  aggregate : K.aggregate h.data (plug ctx t)

variable {K : Keep ι α}

theorem Holds.sub (hh : Holds K h ctx t) : Rep h (Ctx.parent ctx) t := hh.spans.1

theorem Holds.up (hh : Holds K h ctx t) : CtxRep h ctx t.rootId := hh.spans.2

theorem Holds.nodup (hh : Holds K h ctx t) : (plug ctx t).inorder.Nodup := by
  rw [hh.seq]
  exact K.nodup

theorem holds_append {a : Ctx ι} : Holds K h (a ++ ctx) t ↔ Holds K h ctx (plug a t) := by
  constructor
  · rintro ⟨hs, hseq, hl, ha⟩
    rw [plug_append] at hseq ha
    exact ⟨spans_append.mp hs, hseq, hl, ha⟩
  · rintro ⟨hs, hseq, hl, ha⟩
    rw [← plug_append] at hseq ha
    exact ⟨spans_append.mpr hs, hseq, hl, ha⟩

theorem holds_cons {f : Frame ι} :
    Holds K h (f :: ctx) t ↔ Holds K h ctx (.bin f.dir f.color t f.id f.sib) :=
  holds_append (a := [f])

variable [DecidableEq ι] {aug : Aug ι α}

namespace RbStore
variable (h : RbStore ι α) (n : ι) (v : RbNode ι)

@[simp] theorem setNode_node_self : (h.setNode n v).node n = v := by simp [setNode]
theorem setNode_node_of_ne {n m : ι} (hne : m ≠ n) : (h.setNode n v).node m = h.node m := by
  simp [setNode, hne]
@[simp] theorem setNode_rbNode : (h.setNode n v).rbNode = h.rbNode := rfl
@[simp] theorem setNode_rbLeftmost : (h.setNode n v).rbLeftmost = h.rbLeftmost := rfl
@[simp] theorem setNode_data : (h.setNode n v).data = h.data := rfl

@[simp] theorem replaceChild_rbLeftmost (p : Option ι) (v : Option ι) :
    (h.replaceChild p n v).rbLeftmost = h.rbLeftmost := by
  cases p with
  | none => rfl
  | some p => simp only [replaceChild]; split <;> rfl
@[simp] theorem replaceChild_data (p : Option ι) (v : Option ι) :
    (h.replaceChild p n v).data = h.data := by
  cases p with
  | none => rfl
  | some p => simp only [replaceChild]; split <;> rfl
theorem replaceChild_node_of_ne {p : Option ι} {v : Option ι} {m : ι} (hne : p ≠ some m) :
    (h.replaceChild p n v).node m = h.node m := by
  cases p with
  | none => rfl
  | some p =>
      have hpm : m ≠ p := fun he => hne (by rw [he])
      simp only [replaceChild]
      split <;> exact setNode_node_of_ne _ _ hpm

end RbStore

theorem CtxRep.replaceChild {v : Option ι} (hc : CtxRep h ctx (some x)) (hnd : (Ctx.ids ctx).Nodup)
    (hx : x ∉ Ctx.ids ctx) : CtxRep (h.replaceChild (Ctx.parent ctx) x v) ctx v := by
  cases ctx with
  | nil => rfl
  | cons f ctx =>
      obtain ⟨hf, hs, hc⟩ := hc
      obtain ⟨d, c, p, s⟩ := f
      simp only [Ctx.ids, cons_append, nodup_cons, mem_append, not_or,
        mem_cons] at hnd hx
      obtain ⟨⟨hps, hpc⟩, hnd⟩ := hnd
      have hne : ∀ z, z ≠ p →
          (h.replaceChild (some p) x v).node z = h.node z := by
        intro z hz
        exact h.replaceChild_node_of_ne x (by simp [Ne.symm hz])
      refine ⟨?_, hs.congr ?_, hc.congr ?_ ?_⟩
      · have hsx : s.rootId ≠ some x := fun he => hx.2.1 (mem_inorder_of_rootId he)
        cases d <;>
          simp [RbStore.replaceChild, Ctx.parent, hf, mkNode, hsx, RbStore.setChild,
            RbNode.withChild]
      · intro z hz
        exact hne z (by rintro rfl; exact hps hz)
      · simp only [RbStore.replaceChild, Ctx.parent]
        split <;> rfl
      · intro z hz
        exact hne z (by rintro rfl; exact hpc hz)

/-- What the callbacks owe: the aggregate does not look at colours, and the
rotate callback repairs it when `y` has moved above `x`. -/
structure AugKeeps (aug : Aug ι α) (P : (ι → α) → CTree ι → Prop) : Prop where
  recolor : ∀ {data : ι → α} {t u : CTree ι}, t.shape = u.shape → P data t → P data u
  rotate : ∀ {h : RbStore ι α} {ctx : Ctx ι} {d : Dir} {c k : Color} {a b e : CTree ι} {x y : ι},
    (plug ctx (.bin d k (.bin d c a x b) y e)).inorder.Nodup →
    Rep h (Ctx.parent ctx) (.bin d k (.bin d c a x b) y e) →
    P h.data (plug ctx (.bin d c a x (.bin d k b y e))) →
    P (aug.rotate h x y).data (plug ctx (.bin d k (.bin d c a x b) y e))

theorem Holds.setColor {s : CTree ι} (haug : AugKeeps aug K.aggregate)
    (hh : Holds K h ctx (.bin d c t x s)) (k : Color) :
    Holds K (h.setColor x k) ctx (.bin d k t x s) := by
  obtain ⟨hnd, hndc, hdis⟩ := nodup_plug hh.nodup
  obtain ⟨hxt, hxs, _, _, _⟩ := nodup_inorder_bin.mp hnd
  obtain ⟨hx, ht, hs⟩ := rep_bin.mp hh.sub
  have hne : ∀ z, z ≠ x → (h.setColor x k).node z = h.node z := by
    intro z hz
    exact h.setNode_node_of_ne _ hz
  refine ⟨⟨rep_bin.mpr ⟨?_, ht.congr ?_, hs.congr ?_⟩, ?_⟩, ?_, hh.leftmost, ?_⟩
  · simp only [RbStore.setColor, RbStore.setNode_node_self, hx]
    cases d <;> rfl
  · intro z hz
    exact hne z (by rintro rfl; exact hxt hz)
  · intro z hz
    exact hne z (by rintro rfl; exact hxs hz)
  · refine CtxRep.congr (h := h) (by simpa using hh.up) rfl ?_
    intro z hz
    refine hne z ?_
    rintro rfl
    exact hdis (mem_inorder_bin.mpr (.inl rfl)) hz
  · rw [← hh.seq]
    exact inorder_plug_congr (by cases d <;> rfl)
  · refine haug.recolor (shape_plug_congr ?_) hh.aggregate
    rw [shape_bin, shape_bin]

theorem Holds.paint (haug : AugKeeps aug K.aggregate) (hh : Holds K h ctx t) (k : Color) :
    Holds K (h.ifSome t.rootId fun h x => h.setColor x k) ctx (t.paint k) := by
  cases t with
  | nil => exact hh
  | node c l x r => exact hh.setColor (d := .left) haug k

section
variable {k : Color} {p A B E : Option ι} {y : ι}

theorem rotatePair_node (hx : h.node x = mkNode d c p A (some y))
    (hy : h.node y = mkNode d k (some x) B E) (hxy : x ≠ y) (hBx : B ≠ some x)
    (hBy : B ≠ some y) :
    (rotatePair d h x y).node x = mkNode d c (some y) A B ∧
    (rotatePair d h x y).node y = mkNode d k p (some x) E ∧
    (∀ z, B = some z → (rotatePair d h x y).node z = { h.node z with rbParent := some x }) ∧
    (∀ z, z ≠ x → z ≠ y → B ≠ some z → (rotatePair d h x y).node z = h.node z) := by
  have hyx : y ≠ x := hxy.symm
  cases B with
  | none =>
      cases d <;>
        simp +contextual [rotatePair, RbStore.ifSome, RbStore.setChild, RbStore.rbSetParent,
          RbStore.setNode, RbNode.withChild, hx, hy, mkNode, RbNode.child, hxy, hyx]
  | some b =>
      have hbx : b ≠ x := fun he => hBx (by rw [he])
      have hby : b ≠ y := fun he => hBy (by rw [he])
      cases d <;>
        simp +contextual [rotatePair, RbStore.ifSome, RbStore.setChild, RbStore.rbSetParent,
          RbStore.setNode, RbNode.withChild, hx, hy, mkNode, RbNode.child, hxy, hyx, hbx,
          hbx.symm, hby.symm, Function.update_apply, eq_comm]

theorem rotatePair_frame (h : RbStore ι α) (d : Dir) (x y : ι) :
    (rotatePair d h x y).rbNode = h.rbNode ∧
    (rotatePair d h x y).rbLeftmost = h.rbLeftmost ∧
    (rotatePair d h x y).data = h.data := by
  cases hb : (h.node y).child d <;>
    simp [rotatePair, hb, RbStore.ifSome, RbStore.setChild, RbStore.rbSetParent]

end

omit [DecidableEq ι] in
theorem Aug.rotate_frame (aug : Aug ι α) (h : RbStore ι α) (x y : ι) :
    (aug.rotate h x y).node = h.node ∧ (aug.rotate h x y).rbNode = h.rbNode ∧
    (aug.rotate h x y).rbLeftmost = h.rbLeftmost := by
  unfold Aug.rotate
  split <;> exact ⟨rfl, rfl, rfl⟩

theorem rotateLinks_holds {k : Color} {a b e : CTree ι} {y : ι}
    (hnd : (plug ctx (.bin d c a x (.bin d k b y e))).inorder.Nodup)
    (hsub : Rep h (Ctx.parent ctx) (.bin d c a x (.bin d k b y e))) (hup : CtxRep h ctx (some x)) :
    Rep (rotateLinks d h x y) (Ctx.parent ctx) (.bin d k (.bin d c a x b) y e) ∧
    CtxRep (rotateLinks d h x y) ctx (some y) := by
  obtain ⟨hnd, hndc, hdis⟩ := nodup_plug hnd
  obtain ⟨hxa, hxy, _, hndy, hay⟩ := nodup_inorder_bin.mp hnd
  obtain ⟨hyb, hye, hndb, _, hbe⟩ := nodup_inorder_bin.mp hndy
  simp only [mem_inorder_bin, not_or] at hxy
  obtain ⟨hxy, hxb, hxe⟩ := hxy
  obtain ⟨hx, ha, hrest⟩ := rep_bin.mp hsub
  obtain ⟨hy, hb, he⟩ := rep_bin.mp hrest
  rw [rootId_bin] at hx
  obtain ⟨hnx, hny, hnb, hne⟩ := rotatePair_node hx hy hxy
    (fun h' => hxb (mem_inorder_of_rootId h'))
    (fun h' => hyb (mem_inorder_of_rootId h'))
  obtain ⟨hroot, _, _⟩ := rotatePair_frame h d x y
  -- no node of the subtree is the one whose child pointer is rewritten last
  have hlast : ∀ z ∈ (CTree.bin d c a x (.bin d k b y e)).inorder,
      (rotateLinks d h x y).node z = (rotatePair d h x y).node z := by
    intro z hz
    rw [rotateLinks, hx, mkNode_rbParent]
    refine RbStore.replaceChild_node_of_ne _ _ ?_
    intro hp
    cases ctx with
    | nil => cases hp
    | cons f ctx =>
        cases hp
        exact hdis hz (by simp [Ctx.ids])
  simp only [mem_inorder_bin] at hlast
  refine ⟨rep_bin.mpr ⟨?_, rep_bin.mpr ⟨?_, ha.congr ?_, ?_⟩, he.congr ?_⟩, ?_⟩
  · rw [hlast y (by simp), hny, rootId_bin]
  · rw [hlast x (by simp), hnx]
  · intro z hz
    rw [hlast z (by simp [hz])]
    refine hne z (by rintro rfl; exact hxa hz) ?_ ?_
    · rintro rfl
      exact hay hz (mem_inorder_bin.mpr (.inl rfl))
    · intro hbz
      exact hay hz (mem_inorder_bin.mpr (.inr (.inl (mem_inorder_of_rootId hbz))))
  · refine hb.reparent hndb ?_ ?_
    · intro z hz
      rw [hlast z (by simp [mem_inorder_of_rootId hz]), hnb z hz]
    · intro z hz hbz
      rw [hlast z (by simp [hz])]
      exact hne z (by rintro rfl; exact hxb hz) (by rintro rfl; exact hyb hz) hbz
  · intro z hz
    rw [hlast z (by simp [hz])]
    refine hne z (by rintro rfl; exact hxe hz) (by rintro rfl; exact hye hz) ?_
    intro hbz
    exact hbe (mem_inorder_of_rootId hbz) hz
  · rw [rotateLinks, hx, mkNode_rbParent]
    refine CtxRep.replaceChild (hup.congr hroot ?_) hndc ?_
    · intro z hz
      refine hne z ?_ ?_ ?_
      · rintro rfl
        exact hdis (by simp [mem_inorder_bin]) hz
      · rintro rfl
        exact hdis (by simp [mem_inorder_bin]) hz
      · intro hbz
        exact hdis (by simp [mem_inorder_bin, mem_inorder_of_rootId hbz]) hz
    · exact fun hz => hdis (by simp [mem_inorder_bin]) hz

theorem rbRotate_holds {k : Color} {a b e : CTree ι} {y : ι} (haug : AugKeeps aug K.aggregate)
    (hh : Holds K h ctx (.bin d c a x (.bin d k b y e))) :
    ∃ h', rbRotate d aug h x = some h' ∧ Holds K h' ctx (.bin d k (.bin d c a x b) y e) := by
  have hnd := hh.nodup
  obtain ⟨hx, -, -⟩ := rep_bin.mp hh.sub
  have hup : CtxRep h ctx (some x) := by simpa using hh.up
  obtain ⟨hsub', hup'⟩ := rotateLinks_holds hnd hh.sub hup
  obtain ⟨hnode, hroot, hleft⟩ := Aug.rotate_frame aug (rotateLinks d h x y) x y
  obtain ⟨-, hl, hdata⟩ := rotatePair_frame h d x y
  have hseq : (plug ctx (.bin d c a x (.bin d k b y e))).inorder =
      (plug ctx (.bin d k (.bin d c a x b) y e)).inorder :=
    inorder_plug_congr (inorder_rotate d c k a b e x y)
  refine ⟨aug.rotate (rotateLinks d h x y) x y, ?_, ⟨hsub'.congr ?_, ?_⟩, ?_, ?_, ?_⟩
  · simp [rbRotate, hx]
  · intro z _
    rw [hnode]
  · rw [rootId_bin]
    exact hup'.congr hroot fun z _ => by rw [hnode]
  · rw [← hseq, hh.seq]
  · rw [hleft, rotateLinks, RbStore.replaceChild_rbLeftmost, hl, hh.leftmost]
  · refine haug.rotate (hseq ▸ hnd) hsub' ?_
    rw [rotateLinks, RbStore.replaceChild_data, hdata]
    exact hh.aggregate

end NeoKernel.Rbtree
