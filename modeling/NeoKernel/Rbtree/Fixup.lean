import NeoKernel.Rbtree.Rep

/-!
# The insert and erase fix-ups restore the balance

Both loops climb the path above a hole. The insert loop carries a red node with
balanced children, which a red parent may not accept. The erase loop carries a
subtree that is one black node short of what its context takes.
-/
namespace NeoKernel.Rbtree
open Lib Option CTree

variable {ι α : Type} [DecidableEq ι]
variable {K : Keep ι α} {aug : Aug ι α} {h : RbStore ι α} {ctx : Ctx ι}
variable {t s a b : CTree ι} {q c : Color} {n k : Nat} {parent : Option ι} {d : Dir} {x p w : ι}

def Balanced (K : Keep ι α) (h : RbStore ι α) : Prop :=
  ∃ t m, Holds K h [] t ∧ Bal t .black m

omit [DecidableEq ι] in
theorem Holds.balanced (hh : Holds K h ctx t)
    (hctx : CtxBal ctx q n) (ht : Bal t c n) (hc : q = .black → c = .black) : Balanced K h := by
  obtain ⟨m, hm⟩ := hctx.plug ht hc
  exact ⟨plug ctx t, m, holds_append.mp (by simpa using hh), hm⟩

omit [DecidableEq ι] in
theorem Rep.nodeIsBlack (ht : Rep h parent t) :
    h.nodeIsBlack t.rootId = decide (t.rootColor = .black) := by
  cases t with
  | nil => rfl
  | node c l x r =>
      change decide ((h.node x).rbColor = .black) = _
      rw [ht.1]
      rfl

/-- The source finds the side of a child by comparing it with the left pointer. -/
theorem side_eq {near far : Option ι} (hne : far ≠ near) :
    (if (mkNode d c parent near far).rbLeft = near then Dir.left else Dir.right) = d := by
  cases d <;> simp [mkNode, hne]

theorem Holds.paintFar
    (haug : AugKeeps aug K.aggregate) (hh : Holds K h ctx (.bin d c t x s)) (k : Color) :
    Holds K (h.ifSome s.rootId fun h y => h.setColor y k) ctx (.bin d c t x (s.paint k)) := by
  have hs : Holds K h (⟨d.flip, c, x, t⟩ :: ctx) s := by
    rw [holds_cons, bin_flip]
    exact hh
  have hp := hs.paint haug k
  rw [holds_cons, bin_flip] at hp
  exact hp

theorem Holds.paintNear
    (haug : AugKeeps aug K.aggregate) (hh : Holds K h ctx (.bin d c t x s)) (k : Color) :
    Holds K (h.ifSome t.rootId fun h y => h.setColor y k) ctx (.bin d c (t.paint k) x s) := by
  rw [← bin_flip] at hh ⊢
  exact hh.paintFar haug k

omit [DecidableEq ι] in
theorem Holds.far_ne_near {y : ι}
    (hh : Holds K h ctx (.bin d c t x s)) (ht : t.rootId = some y) : s.rootId ≠ some y := by
  intro hs
  obtain ⟨hnd, -, -⟩ := nodup_plug hh.nodup
  obtain ⟨-, -, -, -, hdis⟩ := nodup_inorder_bin.mp hnd
  exact hdis (mem_inorder_of_rootId ht) (mem_inorder_of_rootId hs)

theorem rbInsertRotate_outer {e : Dir} {u : CTree ι} {g : ι}
    (haug : AugKeeps aug K.aggregate)
    (hh : Holds K h ctx (.bin e .black (.bin e .red t p s) g u)) :
    ∃ h', rbRotate e.flip aug ((h.rbSetBlack p).rbSetRed g) g = some h' ∧
      Holds K h' ctx (.bin e .black t p (.bin e .red s g u)) := by
  have h1 := hh.paintNear haug .black
  rw [rootId_bin, paint_bin] at h1
  have h2 := h1.setColor haug .red
  rw [← bin_flip, ← bin_flip e .black s p t] at h2
  obtain ⟨h', hrot, h3⟩ := rbRotate_holds haug h2
  rw [bin_flip, bin_flip] at h3
  exact ⟨h', hrot, h3⟩

theorem rbInsertRotate_holds {e : Dir} {l r u : CTree ι} {g : ι}
    (haug : AugKeeps aug K.aggregate)
    (hh : Holds K h ctx (.bin e .black (.bin d .red (.bin e .red l x r) p s) g u)) :
    ∃ h' a b y z i, rbInsertRotate e aug h x p g = some h' ∧
      Holds K h' ctx (.bin e .black (.bin e .red a y b) i (.bin e .red z g u)) ∧
      (∀ n, Bal l .black n → Bal r .black n → Bal s .black n →
        Bal a .black n ∧ Bal b .black n ∧ Bal z .black n) := by
  have hin := (holds_cons (f := ⟨e, .black, g, u⟩)).mpr hh
  obtain ⟨hp, -, -⟩ := rep_bin.mp hin.sub
  rcases Dir.eq_or_eq_flip e d with rfl | rfl
  · have hne : s.rootId ≠ some x := hin.far_ne_near (rootId_bin ..)
    obtain ⟨h', hrot, h3⟩ := rbInsertRotate_outer haug hh
    refine ⟨h', l, r, x, s, p, ?_, h3, fun n hl hr hs => ⟨hl, hr, hs⟩⟩
    simp [rbInsertRotate, hp, hne, hrot]
  · rw [bin_flip] at hin
    obtain ⟨h1, hrot1, hin1⟩ := rbRotate_holds haug hin
    obtain ⟨h', hrot, h3⟩ := rbInsertRotate_outer haug (holds_cons.mp hin1)
    refine ⟨h', s, l, p, r, x, ?_, h3, fun n hl hr hs => ⟨hs, hl, hr⟩⟩
    have hnear : (h.node p).child e.flip = some x := by
      rw [hp, mkNode_child, rootId_bin]
    simp [rbInsertRotate, hnear, hrot1, hrot]

def InsertInv (K : Keep ι α) (n : Nat) (s : RbStore ι α × ι) : Prop :=
  ∃ ctx d l r q k, Holds K s.1 ctx (.bin d .red l s.2 r) ∧ CtxBal ctx q k ∧
    Bal l .black k ∧ Bal r .black k ∧ ctx.length = n

theorem rbInsertStep_pass (haug : AugKeeps aug K.aggregate) (n : Nat) (s : RbStore ι α × ι)
    (hs : InsertInv K n s) :
    (∃ h', rbInsertStep aug s = some (.done h') ∧ Balanced K h') ∨
    (∃ m s', m < n ∧ rbInsertStep aug s = some (.next s') ∧ InsertInv K m s') := by
  obtain ⟨h, x⟩ := s
  obtain ⟨ctx, d, l, r, q, k, hh, hctx, hl, hr, rfl⟩ := hs
  obtain ⟨hx, -, -⟩ := rep_bin.mp hh.sub
  dsimp only at hh hx
  cases hctx with
  | root =>
      left
      have hcol := hh.setColor haug .black
      refine ⟨_, ?_, hcol.balanced .root (.black_bin hl hr) (fun _ => rfl)⟩
      have hpar : (h.node x).rbParent = none := by simp [hx]
      simp [rbInsertStep, hpar, RbStore.rbSetParentColor, RbStore.setColor]
  | black hctx hs =>
      left
      obtain ⟨hp, -, -⟩ := hh.up
      dsimp only at hp
      refine ⟨h, ?_, hh.balanced (.black hctx hs) (.red_bin hl hr) (by simp)⟩
      simp [rbInsertStep, hx, hp]
  | red hctx hs =>
      rename_i ctx d' p s
      cases hctx with
      | black hctx hu =>
          rename_i ctx e g u q c
          have hh2 := holds_cons.mp (holds_cons.mp hh)
          obtain ⟨hp, -, hg, hrep, -⟩ := hh.up
          dsimp only at hp hg
          have hug : u.rootId ≠ some p := hh2.far_ne_near (rootId_bin ..)
          have hside : (if (h.node g).rbLeft = some p then Dir.left else Dir.right) = e := by
            rw [hg]
            exact side_eq hug
          have hunc : (h.node g).child e.flip = u.rootId := by rw [hg, mkNode_child_flip]
          have hublack := hrep.nodeIsBlack
          rw [hu.rootColor] at hublack
          cases c with
          | black =>
              left
              have hflip : CTree.bin d .red l x r = .bin e .red
                  (if d = e then l else r) x (if d = e then r else l) := by
                rcases Dir.eq_or_eq_flip e d with rfl | rfl
                · simp
                · simp [bin_flip]
              rw [hflip] at hh2
              obtain ⟨h', a, b, y, z, i, hrun, hh', hbal⟩ := rbInsertRotate_holds haug hh2
              obtain ⟨ha, hb, hz⟩ := hbal _ (by split <;> assumption) (by split <;> assumption) hs
              refine ⟨h', ?_, hh'.balanced hctx (.black_bin (.red_bin ha hb) (.red_bin hz hu))
                (fun _ => rfl)⟩
              simp [rbInsertStep, hx, hp, hside, hunc, hublack, hrun]
          | red =>
              right
              have h1 := hh2.paintFar haug .black
              have h2 := h1.paintNear haug .black
              rw [rootId_bin, paint_bin] at h2
              have h3 := h2.setColor haug .red
              refine ⟨ctx.length, (_, g), by simp, ?_, ctx, e, _, _, q, _, h3, hctx,
                .black_bin (.red_bin hl hr) hs, ?_, rfl⟩
              · simp [rbInsertStep, hx, hp, hside, hunc, hublack]
                rfl
              · cases hu with
                | red ha hb => exact .black ha hb

theorem rbInsertFixup_balanced {l r : CTree ι}
    (haug : AugKeeps aug K.aggregate) (hh : Holds K h ctx (.bin d .red l x r))
    (hctx : CtxBal ctx q k) (hl : Bal l .black k) (hr : Bal r .black k) :
    Returns (fun fuel => rbInsertFixup aug fuel h x) (Balanced K) :=
  loop_total (InsertInv K) (rbInsertStep_pass haug) ctx.length (h, x)
    ⟨ctx, d, l, r, q, k, hh, hctx, hl, hr, rfl⟩

omit [DecidableEq ι] in
theorem CtxRep.rbNode_mem {f : Frame ι} {hole : Option ι} (hc : CtxRep h (f :: ctx) hole) :
    ∃ z ∈ Ctx.ids (f :: ctx), h.rbNode = some z := by
  induction ctx generalizing f hole with
  | nil => exact ⟨f.id, by simp [Ctx.ids], hc.2.2⟩
  | cons g ctx ih =>
      obtain ⟨z, hz, hroot⟩ := ih hc.2.2
      exact ⟨z, by simp only [Ctx.ids, List.mem_append] at hz ⊢; exact .inr hz, hroot⟩

omit [DecidableEq ι] in
theorem Holds.rootId_ne_rbNode {f : Frame ι} (hh : Holds K h (f :: ctx) t) :
    t.rootId ≠ h.rbNode := by
  obtain ⟨z, hz, hroot⟩ := hh.up.rbNode_mem
  obtain ⟨-, -, hdis⟩ := nodup_plug hh.nodup
  intro he
  exact hdis (mem_inorder_of_rootId (he.trans hroot)) hz

section

variable (haug : AugKeeps aug K.aggregate)
include haug

theorem Balanced.paint_rbNode (hb : Balanced K h) :
    Balanced K (h.ifSome h.rbNode RbStore.rbSetBlack) := by
  obtain ⟨t, m, hh, ht⟩ := hb
  have hroot : h.rbNode = t.rootId := hh.up
  obtain ⟨m', hm'⟩ := ht.paint_black
  rw [hroot]
  exact ⟨t.paint .black, m', hh.paint haug .black, hm'⟩

theorem fixupRedSibling_holds (hh : Holds K h (⟨d, c, p, s⟩ :: ctx) t)
    (hctx : CtxBal (⟨d, c, p, s⟩ :: ctx) q (n+1)) :
    ∃ w h' ctx' c' a w' b q', (h.node p).child d.flip = some w ∧
      fixupRedSibling d aug h p w = some (h', w') ∧
      Holds K h' (⟨d, c', p, .bin d .black a w' b⟩ :: ctx') t ∧
      CtxBal (⟨d, c', p, .bin d .black a w' b⟩ :: ctx') q' (n+1) ∧
      (ctx'.length = ctx.length ∨ ctx'.length = ctx.length + 1 ∧ c' = .red) := by
  obtain ⟨hp, hs, -⟩ := hh.up
  dsimp only at hp hs
  cases hctx with
  | red hctx hbal =>
      obtain ⟨a, w, b, rfl⟩ := hbal.exists_bin d (by rintro rfl; cases hbal)
      obtain ⟨hw, -, -⟩ := rep_bin.mp hs
      refine ⟨w, h, ctx, .red, a, w, b, .black, ?_, ?_, hh, .red hctx hbal, .inl rfl⟩
      · simp [hp]
      · simp [fixupRedSibling, hw]
  | black hctx hbal =>
      rename_i q k
      obtain ⟨a, w, b, rfl⟩ := hbal.exists_bin d (by rintro rfl; cases hbal)
      obtain ⟨hw, -, -⟩ := rep_bin.mp hs
      have hpw : (h.node p).child d.flip = some w := by simp [hp]
      cases k with
      | black =>
          refine ⟨w, h, ctx, .black, a, w, b, .red, hpw, ?_, hh, .black hctx hbal, .inl rfl⟩
          simp [fixupRedSibling, hw]
      | red =>
          obtain ⟨-, ha, hb⟩ := hbal.red_inv
          obtain ⟨a1, w', b1, rfl⟩ := ha.exists_bin d (by rintro rfl; cases ha)
          have h1 := (holds_cons.mp hh).paintFar haug .black
          rw [paint_bin, rootId_bin] at h1
          have h2 := h1.setColor haug .red
          obtain ⟨h', hrot, h3⟩ := rbRotate_holds haug h2
          have h4 := (holds_cons (f := ⟨d, .black, w, b⟩)).mpr h3
          obtain ⟨hp', -, -⟩ := rep_bin.mp h4.sub
          have h5 := (holds_cons (f := ⟨d, .red, p, _⟩)).mpr h4
          refine ⟨w, h', ⟨d, .black, w, b⟩ :: ctx, .red, a1, w', b1, .black, hpw, ?_, h5,
            .red (.black hctx hb) ha, .inr ⟨rfl, rfl⟩⟩
          have hrot' : rbRotate d aug ((h.rbSetBlack w).rbSetRed p) p = some h' := hrot
          simp [fixupRedSibling, hw, hrot', hp']

theorem fixupOuter_holds (hh : Holds K h ctx (.bin d c t p (.bin d .black a w b))) :
    ∃ h', (let g := h.rbSetParentColor w (h.node w).rbParent (h.node p).rbColor
           let g := g.rbSetBlack p
           let g := g.ifSome ((g.node w).child d.flip) RbStore.rbSetBlack
           rbRotate d aug g p) = some h' ∧
      Holds K h' ctx (.bin d c (.bin d .black t p a) w (b.paint .black)) := by
  have hsub := hh.sub
  obtain ⟨hp, -, hw⟩ := rep_bin.mp hsub
  have hcol : h.rbSetParentColor w (h.node w).rbParent (h.node p).rbColor = h.setColor w c := by
    rw [hp, mkNode_rbColor]
    rfl
  have h1 := hh.paintFar haug c
  rw [paint_bin, rootId_bin] at h1
  have h2 := h1.setColor haug .black
  have h3 : Holds K ((h.setColor w c).setColor p .black) (⟨d.flip, .black, p, t⟩ :: ctx)
      (.bin d c a w b) := by
    rw [holds_cons, bin_flip]
    exact h2
  obtain ⟨hw', -, -⟩ := rep_bin.mp h3.sub
  have h4 := h3.paintFar haug .black
  rw [holds_cons, bin_flip] at h4
  obtain ⟨h', hrot, h5⟩ := rbRotate_holds haug h4
  refine ⟨h', ?_, h5⟩
  simp only [hcol, RbStore.rbSetBlack, hw', mkNode_child_flip]
  exact hrot

theorem fixupRedNephew_holds {ca cb : Color}
    (hh : Holds K h ctx (.bin d c t p (.bin d .black a w b))) (ht : Bal t .black n)
    (ha : Bal a ca n) (hb : Bal b cb n) (hred : ¬ (ca = .black ∧ cb = .black)) :
    ∃ h' l y r, fixupRedNephew d aug h p w = some h' ∧ Holds K h' ctx (.bin d c l y r) ∧
      Bal l .black (n+1) ∧ Bal r .black (n+1) := by
  have hin := (holds_cons (f := ⟨d.flip, c, p, t⟩)).mpr (by rw [bin_flip]; exact hh)
  obtain ⟨hw, hra, hrb⟩ := rep_bin.mp hin.sub
  have hfar : (h.node w).child d.flip = b.rootId := by rw [hw, mkNode_child_flip]
  have hblack := hrb.nodeIsBlack
  rw [hb.rootColor] at hblack
  cases cb with
  | red =>
      obtain ⟨h', hrun, hh'⟩ := fixupOuter_holds haug hh
      refine ⟨h', _, w, _, ?_, hh', .black_bin ht ha, ?_⟩
      · simpa [fixupRedNephew, hfar, hblack] using hrun
      · cases hb with
        | red hl hr => exact .black hl hr
  | black =>
      have hca : ca = .red := by
        cases ca with
        | red => rfl
        | black => exact absurd ⟨rfl, rfl⟩ hred
      subst hca
      obtain ⟨a1, y, a2, rfl⟩ := ha.exists_bin d (by rintro rfl; cases ha)
      obtain ⟨-, ha1, ha2⟩ := ha.red_inv
      have hnear : (h.node w).child d = some y := by rw [hw, mkNode_child, rootId_bin]
      have h1 := hin.paintNear haug .black
      rw [paint_bin, rootId_bin] at h1
      have h2 := h1.setColor haug .red
      rw [← bin_flip, ← bin_flip d .black a2 y a1] at h2
      obtain ⟨g, hrot, h3⟩ := rbRotate_holds haug h2
      rw [bin_flip, bin_flip, holds_cons, bin_flip] at h3
      obtain ⟨hp, -, -⟩ := rep_bin.mp h3.sub
      obtain ⟨h', hrun, hh'⟩ := fixupOuter_holds haug h3
      rw [paint_bin] at hh'
      refine ⟨h', _, y, _, ?_, hh', .black_bin ht ha1, .black_bin ha2 hb⟩
      have hrot' : rbRotate d.flip aug ((h.rbSetBlack y).rbSetRed w) w = some g := hrot
      simpa [fixupRedNephew, hfar, hblack, hnear, RbStore.ifSome, hrot', hp] using hrun

end

/-- The subtree in the hole is one black node short, or its red root has only to
be painted black. -/
def FixupInv (K : Keep ι α) (n : Nat) (s : RbStore ι α × Option ι × Option ι) : Prop :=
  ∃ ctx t q k, Holds K s.1 ctx t ∧ s.2.1 = t.rootId ∧ s.2.2 = Ctx.parent ctx ∧
    CtxBal ctx q (k+1) ∧
    (Bal t .black k ∨ t.rootColor = .red ∧ Bal (t.paint .black) .black (k+1)) ∧
    n = 2 * ctx.length + if t.rootColor = .black then 1 else 0

theorem rbEraseFixupStep_exit
    (haug : AugKeeps aug K.aggregate) (hh : Holds K h ctx t) (hctx : CtxBal ctx q (k+1))
    (ht : Bal t .black k ∨ t.rootColor = .red ∧ Bal (t.paint .black) .black (k+1))
    (hexit : ctx = [] ∨ t.rootColor = .red) :
    rbEraseFixupStep aug (h, t.rootId, Ctx.parent ctx) =
        some (.done (h.ifSome t.rootId RbStore.rbSetBlack)) ∧
      Balanced K (h.ifSome t.rootId RbStore.rbSetBlack) := by
  have hpaint := hh.paint haug .black
  have hblack := hh.sub.nodeIsBlack
  constructor
  · have hcond : t.rootId = h.rbNode ∨ h.nodeIsBlack t.rootId = false := by
      rcases hexit with rfl | hred
      · exact .inl hh.up.symm
      · exact .inr (by rw [hblack, hred]; rfl)
    simp only [rbEraseFixupStep, if_pos hcond]
  · rcases ht with ht | ⟨_, ht⟩
    · rcases hexit with rfl | hred
      · obtain ⟨m, hm⟩ := ht.paint_black
        exact ⟨_, m, hpaint, hm⟩
      · rw [ht.rootColor] at hred
        cases hred
    · exact hpaint.balanced hctx ht (fun _ => rfl)

omit [DecidableEq ι] in
theorem nephews_eq (hs : Rep h parent (.bin d c a w b)) :
    (h.nodeIsBlack (h.node w).rbLeft && h.nodeIsBlack (h.node w).rbRight) =
      decide (a.rootColor = .black ∧ b.rootColor = .black) := by
  obtain ⟨hw, ha, hb⟩ := rep_bin.mp hs
  have h1 := ha.nodeIsBlack
  have h2 := hb.nodeIsBlack
  cases d with
  | left => simp [hw, mkNode, h1, h2]
  | right => simp [hw, mkNode, h1, h2, Bool.and_comm]

/-- Both nephews are black: the sibling gives up its black and the parent's
subtree is the short one now. -/
theorem fixupRecolor_inv (haug : AugKeeps aug K.aggregate)
    (hh : Holds K h (⟨d, c, p, .bin d .black a w b⟩ :: ctx) t)
    (hctx : CtxBal (⟨d, c, p, .bin d .black a w b⟩ :: ctx) q (k+1)) (ht : Bal t .black k)
    (ha : Bal a .black k) (hb : Bal b .black k) :
    ((h.rbSetRed w).node p).rbParent = Ctx.parent ctx ∧
    FixupInv K (2 * ctx.length + if c = .black then 1 else 0)
      (h.rbSetRed w, some p, Ctx.parent ctx) := by
  have hred := (holds_cons.mp hh).paintFar haug .red
  rw [paint_bin, rootId_bin] at hred
  dsimp only at hred
  obtain ⟨hp, -, -⟩ := rep_bin.mp hred.sub
  have hbin : Bal (.bin d .black t p (.bin d .red a w b)) .black (k+1) :=
    .black_bin ht (.red_bin ha hb)
  refine ⟨?_, ?_⟩
  · change (((h.setColor w .red).node p).rbParent) = _
    simpa [RbStore.ifSome] using congrArg RbNode.rbParent hp
  · cases hctx with
    | red hctx _ =>
        exact ⟨ctx, _, .red, k, hred, by simp, rfl, hctx, .inr (by simpa using hbin), by simp⟩
    | black hctx _ =>
        exact ⟨ctx, _, _, k+1, hred, by simp, rfl, hctx, .inl hbin, by simp⟩

theorem rbEraseFixupStep_pass (haug : AugKeeps aug K.aggregate) (n : Nat)
    (s : RbStore ι α × Option ι × Option ι) (hs : FixupInv K n s) :
    (∃ h', rbEraseFixupStep aug s = some (.done h') ∧ Balanced K h') ∨
    (∃ m s', m < n ∧ rbEraseFixupStep aug s = some (.next s') ∧ FixupInv K m s') := by
  obtain ⟨h, x, parent⟩ := s
  obtain ⟨ctx, t, q, k, hh, rfl, rfl, hctx, ht, rfl⟩ := hs
  dsimp only at hh
  by_cases hexit : ctx = [] ∨ t.rootColor = .red
  · left
    exact ⟨_, rbEraseFixupStep_exit haug hh hctx ht hexit⟩
  obtain ⟨hne, hcol⟩ := not_or.mp hexit
  have ht : Bal t .black k := by
    rcases ht with ht | ⟨hred, _⟩
    · exact ht
    · exact absurd hred hcol
  cases ctx with
  | nil => exact absurd rfl hne
  | cons f ctx =>
      obtain ⟨d, c, p, s⟩ := f
      have hgo : ¬ (t.rootId = h.rbNode ∨ h.nodeIsBlack t.rootId = false) := by
        rw [hh.sub.nodeIsBlack, ht.rootColor]
        simpa using hh.rootId_ne_rbNode
      obtain ⟨w, g, ctx', c', a, w', b, q', hw, hsib, hg, hctx', hlen⟩ :=
        fixupRedSibling_holds haug hh hctx
      have hside : (if (h.node p).rbLeft = t.rootId then Dir.left else Dir.right) = d := by
        obtain ⟨hp, -, -⟩ := hh.up
        dsimp only at hp
        have hsw : s.rootId = some w := by
          rw [← hw, hp, mkNode_child_flip]
        rw [hp]
        refine side_eq ?_
        intro he
        exact (holds_cons.mp hh).far_ne_near (he.symm.trans hsw) hsw
      obtain ⟨ca, cb, ha, hb⟩ : ∃ ca cb, Bal a ca k ∧ Bal b cb k := by
        cases hctx' with
        | red _ hb | black _ hb =>
            obtain ⟨-, m, ca, cb, hm, ha, hb⟩ := hb.black_inv
            cases hm
            exact ⟨ca, cb, ha, hb⟩
      have hnephews := nephews_eq hg.up.2.1
      rw [ha.rootColor, hb.rootColor] at hnephews
      by_cases hboth : ca = .black ∧ cb = .black
      · right
        obtain ⟨rfl, rfl⟩ := hboth
        obtain ⟨hpar, hinv⟩ := fixupRecolor_inv haug hg hctx' ht ha hb
        refine ⟨_, _, ?_, ?_, hinv⟩
        · rw [if_pos ht.rootColor, List.length_cons]
          rcases hlen with hlen | ⟨hlen, rfl⟩
          · split <;> omega
          · rw [if_neg (by simp)]
            omega
        · simp only [rbEraseFixupStep, if_neg hgo, Ctx.parent_cons, bind_eq_bind,
            bind_some, hside, hw, hsib, hnephews, hpar]
          rfl
      · left
        obtain ⟨h', l, y, r, hrun, hh', hl, hr⟩ :=
          fixupRedNephew_holds haug (holds_cons.mp hg) ht ha hb hboth
        have hbal : Balanced K h' := by
          cases hctx' with
          | red hctx _ => exact hh'.balanced hctx (.red_bin hl hr) (by simp)
          | black hctx _ => exact hh'.balanced hctx (.black_bin hl hr) (fun _ => rfl)
        refine ⟨_, ?_, hbal.paint_rbNode haug⟩
        simp only [rbEraseFixupStep, if_neg hgo, Ctx.parent_cons, bind_eq_bind,
          bind_some, hside, hw, hsib, hnephews, hboth, decide_false, hrun]
        rfl

theorem rbEraseFixup_balanced
    (haug : AugKeeps aug K.aggregate) (hh : Holds K h ctx t) (hctx : CtxBal ctx q (k+1))
    (ht : Bal t c k) :
    Returns (fun fuel => rbEraseFixup aug fuel h t.rootId (Ctx.parent ctx)) (Balanced K) := by
  refine loop_total (FixupInv K) (rbEraseFixupStep_pass haug) _ (h, t.rootId, Ctx.parent ctx)
    ⟨ctx, t, q, k, hh, rfl, rfl, hctx, ?_, rfl⟩
  cases ht with
  | nil => exact .inl .nil
  | red hl hr => exact .inr ⟨rfl, .black hl hr⟩
  | black hl hr => exact .inl (.black hl hr)

end NeoKernel.Rbtree
