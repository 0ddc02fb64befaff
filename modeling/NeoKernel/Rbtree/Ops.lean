import NeoKernel.Rbtree.Fixup
import NeoKernel.Rbtree.Splice

/-!
# Insertion, erasure and iteration

The public operations on a store that represents a balanced tree. The augment
callbacks enter through the aggregate `P`: what the propagate callback owes is a
hypothesis of the two main theorems, in terms of the tree it is called on.
-/
namespace NeoKernel.Rbtree
open Lib List

variable {ι α : Type} [DecidableEq ι]
variable {h g : RbStore ι α} {ctx : Ctx ι} {aug : Aug ι α} {t l r : CTree ι} {c : Color}

section

omit [DecidableEq ι]

theorem Spans.congr (hs : Spans h ctx t) (hn : g.node = h.node) (hr : g.rbNode = h.rbNode) :
    Spans g ctx t :=
  ⟨hs.1.congr fun z _ => by rw [hn], hs.2.congr hr fun z _ => by rw [hn]⟩

theorem Aug.propagate_eq {fuel : Nat} {n : Option ι} (hp : aug.propagate fuel h n = some g) :
    g = { h with data := g.data } := by
  unfold Aug.propagate at hp
  split at hp
  · cases hp
    rfl
  · obtain ⟨data, -, rfl⟩ := Option.map_eq_some_iff.mp hp
    rfl

theorem propagateFrom_eq {fuel : Nat} {n : Option ι} (hp : propagateFrom aug fuel h n = some g) :
    g = { h with data := g.data } := by
  cases n with
  | none =>
      cases hp
      rfl
  | some n => exact Aug.propagate_eq hp

theorem copy_eq (h : RbStore ι α) (z : ι) (heir : Option ι) :
    (h.ifSome heir fun h y => aug.copy h z y) =
      { h with data := (h.ifSome heir fun h y => aug.copy h z y).data } := by
  cases heir with
  | none => rfl
  | some y =>
      simp only [RbStore.ifSome, Aug.copy]
      split <;> rfl

end

def slot : Ctx ι → Link ι
  | [] => .root
  | f :: _ => .child f.id f.dir

theorem rbLinkNode_spans {x : ι} (hs : Spans h ctx .nil) (hnd : (Ctx.ids ctx).Nodup)
    (hx : x ∉ Ctx.ids ctx) :
    Spans (rbLinkNode h x (Ctx.parent ctx) (slot ctx)) ctx (.node .red .nil x .nil) ∧
    SameData h (rbLinkNode h x (Ctx.parent ctx) (slot ctx)) := by
  cases ctx with
  | nil =>
      refine ⟨⟨⟨?_, trivial, trivial⟩, rfl⟩, rfl, rfl⟩
      simp [rbLinkNode, slot, Link.set, Ctx.parent]
  | cons f ctx =>
      obtain ⟨d, c, p, s⟩ := f
      obtain ⟨-, hp, hsib, hup⟩ := hs
      dsimp only at hp hsib hup
      simp only [Ctx.ids, cons_append, nodup_cons, mem_append, mem_cons,
        not_or] at hnd hx
      obtain ⟨hxp, hxs, hxc⟩ := hx
      obtain ⟨⟨hps, hpc⟩, -⟩ := hnd
      have hne : ∀ z, z ≠ x → z ≠ p →
          (rbLinkNode h x (some p) (.child p d)).node z = h.node z := by
        intro z hzx hzp
        simp [rbLinkNode, Link.set, RbStore.setChild, RbStore.setNode, hzx, hzp]
      refine ⟨⟨⟨?_, trivial, trivial⟩, ?_, hsib.congr ?_, hup.congr rfl ?_⟩, rfl, rfl⟩
      · simp [rbLinkNode, slot, Link.set, RbStore.setChild, RbStore.setNode, hxp]
      · have hpx : p ≠ x := fun he => hxp he.symm
        cases d <;>
          simp [rbLinkNode, slot, Link.set, RbStore.setChild, RbStore.setNode, hpx, hp, mkNode,
            RbNode.withChild, CTree.rootId]
      · intro z hz
        exact hne z (by rintro rfl; exact hxs hz) (by rintro rfl; exact hps hz)
      · intro z hz
        exact hne z (by rintro rfl; exact hxc hz) (by rintro rfl; exact hpc hz)

/-- Inserting `x` into the slot at the end of `ctx`. The propagate callback has
to bring the aggregate to the tree in which `x` is a red leaf. -/
theorem rbInsertAugmentedCached_returns {x : ι} {leftmost : Bool} {m : Nat} {K : Keep ι α}
    (haug : AugKeeps aug K.aggregate) (hs : Spans h ctx .nil) (hx : x ∉ Ctx.ids ctx)
    (hbal : Bal (plug ctx .nil) .black m)
    (hseq : K.seq = (plug ctx (.node .red .nil x .nil)).inorder)
    (hleft : K.leftmost = if leftmost then some x else h.rbLeftmost)
    (hprop : ∀ g, Spans g ctx (.node .red .nil x .nil) → g.data = h.data →
      Returns (fun fuel => aug.propagate fuel g (Ctx.parent ctx))
        fun g' => K.aggregate g'.data (plug ctx (.node .red .nil x .nil))) :
    Returns (fun fuel => rbInsertAugmentedCached aug fuel
      (rbLinkNode h x (Ctx.parent ctx) (slot ctx)) x leftmost) (Balanced K) := by
  have hnd : (plug ctx (.node .red .nil x .nil)).inorder.Nodup := by
    rw [← hseq]
    exact K.nodup
  obtain ⟨-, hndc, -⟩ := nodup_plug hnd
  obtain ⟨hspans, hleft', hdata⟩ := rbLinkNode_spans hs hndc hx
  obtain ⟨q, c, n, hctx, hnil, -⟩ := hbal.split
  cases hnil
  obtain ⟨g, hg⟩ : ∃ g, g = if leftmost then
      { rbLinkNode h x (Ctx.parent ctx) (slot ctx) with rbLeftmost := some x }
    else rbLinkNode h x (Ctx.parent ctx) (slot ctx) := ⟨_, rfl⟩
  have hgs : Spans g ctx (.node .red .nil x .nil) := by
    refine hspans.congr ?_ ?_ <;> rw [hg] <;> split <;> rfl
  have hgd : g.data = h.data := by
    rw [← hdata, hg]
    split <;> rfl
  have hgl : g.rbLeftmost = K.leftmost := by
    rw [hleft, ← hleft', hg]
    split <;> rfl
  have hpar : (g.node x).rbParent = Ctx.parent ctx := by rw [hgs.1.1]
  have hrun : ∀ fuel, rbInsertAugmentedCached aug fuel
      (rbLinkNode h x (Ctx.parent ctx) (slot ctx)) x leftmost =
      (aug.propagate fuel g (Ctx.parent ctx)).bind fun g' => rbInsertFixup aug fuel g' x := by
    intro fuel
    simp only [rbInsertAugmentedCached, rbInsertAugmented, ← hg, hpar]
    rfl
  simp only [hrun]
  refine ((hprop g hgs hgd).and_of_eq fun fuel g' hg' => Aug.propagate_eq hg').bind ?_
  rintro g' ⟨hagg, hg'⟩
  have hh : Holds K g' ctx (.bin .left .red .nil x .nil) := by
    refine ⟨hgs.congr ?_ ?_, hseq.symm, ?_, hagg⟩
    · rw [hg']
    · rw [hg']
    · rw [hg', ← hgl]
  exact rbInsertFixup_balanced haug hh hctx .nil .nil

/-- Erasing `z`. The propagate callback has to repair the aggregate of the
spliced tree, and to keep an aggregate that is already right. -/
theorem rbErase_returns {k : Color} {z : ι} {ctx' : Ctx ι} {heir : Option ι} {m : Nat}
    {K : Keep ι α} (haug : AugKeeps aug K.aggregate) (hs : Spans h ctx (.node c l z r))
    (hnd : (plug ctx (.node c l z r)).inorder.Nodup)
    (hbal : Bal (plug ctx (.node c l z r)) .black m) (hsp : Spliced ctx c l z r ctx' t k heir)
    (hseq : K.seq = (plug ctx' t).inorder) (hleft : K.leftmost = h.rbLeftmost)
    (hprop : ∀ g, Spans g ctx' t → g.data = h.data →
      Returns (fun fuel => propagateFrom aug fuel (g.ifSome heir fun g y => aug.copy g z y)
        (Ctx.parent ctx')) fun g' => K.aggregate g'.data (plug ctx' t))
    (hagain : ∀ g u n, Holds K g [] u → n ∈ u.inorder →
      Returns (fun fuel => aug.propagate fuel g (some n)) fun g' => K.aggregate g'.data u) :
    Returns (fun fuel => rbErase aug fuel h z) (Balanced K) := by
  refine (spliceOut_returns hs hnd hsp).bind ?_
  rintro s ⟨g, ⟨hgl, hgd⟩, hgs, rfl⟩
  dsimp only
  refine ((hprop g hgs hgd).and_of_eq fun fuel g' hg' => propagateFrom_eq hg').bind ?_
  rintro g' ⟨hagg, hg'⟩
  have hh : Holds K g' ctx' t := by
    refine ⟨hgs.congr ?_ ?_, hseq.symm, ?_, hagg⟩ <;> rw [hg', copy_eq]
    exact hgl.trans hleft.symm
  obtain ⟨q, kt, n, ht, hblack, hred⟩ := hsp.bal hbal
  have hfix : ∀ s : RbStore ι α, Returns (fun fuel => rebalance aug fuel g'
      ⟨s, t.rootId, Ctx.parent ctx', Ctx.parent ctx', k = .black⟩) (Balanced K) := by
    intro s
    cases k with
    | black => simpa [rebalance] using rbEraseFixup_balanced haug hh (hblack rfl) ht
    | red =>
        obtain ⟨hctx, rfl⟩ := hred rfl
        exact .of_eq (by simp [rebalance]) (hh.balanced hctx ht fun _ => rfl)
  refine (hfix _).bind ?_
  rintro g'' ⟨u, m', hu, hbu⟩
  cases hpar : Ctx.parent ctx' with
  | none => exact .of_eq (fun _ => rfl) ⟨u, m', hu, hbu⟩
  | some n =>
      have hmem : n ∈ u.inorder := by
        have hse : u.inorder = K.seq := hu.seq
        rw [hse, hseq]
        exact Ctx.parent_mem_plug _ _ hpar
      refine ((hagain g'' u n hu hmem).and_of_eq fun fuel g' hg' => Aug.propagate_eq hg').mono ?_
      rintro k' ⟨hagg', hk'⟩
      refine ⟨u, m', ⟨hu.spans.congr ?_ ?_, hu.seq, ?_, hagg'⟩, hbu⟩
      · rw [hk']
      · rw [hk']
      · rw [hk', ← hu.leftmost]

omit [DecidableEq ι] in
theorem rbFirst_returns (hs : Spans h [] t) :
    Returns (fun fuel => rbFirst fuel h) (· = t.inorder.head?) := by
  obtain ⟨ht, hroot⟩ := hs
  change h.rbNode = t.rootId at hroot
  cases t with
  | nil =>
      refine .of_eq (r := none) (fun fuel => ?_) rfl
      simp only [rbFirst, hroot, CTree.rootId]
  | node c l x r =>
      simp only [rbFirst, hroot, CTree.rootId]
      exact (subtreeMin_returns ht rfl).map fun y hy => hy.symm

theorem climb_returns {x : ι} (hs : Spans h ctx t) (hnd : (plug ctx t).inorder.Nodup)
    (hx : t.rootId = some x) :
    Returns (fun fuel => loop (climbStep h) fuel x) (· = (Ctx.after ctx).head?) := by
  refine loop_total
    (fun n s => ∃ a u, Spans h a u ∧ (plug a u).inorder.Nodup ∧ u.rootId = some s ∧
      Ctx.after a = Ctx.after ctx ∧ a.length = n)
    ?_ ctx.length x ⟨ctx, t, hs, hnd, hx, rfl, rfl⟩
  rintro n s ⟨a, u, hsu, hndu, hsr, hafter, rfl⟩
  have hpar : (h.node s).rbParent = Ctx.parent a := by
    cases u with
    | nil => simp at hsr
    | node c l y r =>
        obtain rfl : y = s := by simpa [CTree.rootId] using hsr
        rw [hsu.1.1]
  cases a with
  | nil =>
      left
      exact ⟨none, by simp [climbStep, hpar], by rw [← hafter]; rfl⟩
  | cons f a =>
      obtain ⟨d, c, p, sib⟩ := f
      obtain ⟨hp, -, -⟩ := hsu.2
      dsimp only at hp
      cases d with
      | left =>
          left
          have hne : sib.rootId ≠ some s := by
            intro he
            obtain ⟨-, -, hdis⟩ := nodup_plug hndu
            refine hdis (CTree.mem_inorder_of_rootId hsr) ?_
            simp [Ctx.ids, CTree.mem_inorder_of_rootId he]
          exact ⟨some p, by simp [climbStep, hpar, hp, mkNode, hne], by rw [← hafter]; rfl⟩
      | right =>
          right
          refine ⟨a.length, p, by simp, ?_, a, _, spans_cons.mp hsu, hndu, by simp, ?_, rfl⟩
          · simp [climbStep, hpar, hp, mkNode, hsr]
          · exact hafter

theorem rbNext_returns {z : ι} (hs : Spans h ctx (.node c l z r))
    (hnd : (plug ctx (.node c l z r)).inorder.Nodup) :
    Returns (fun fuel => rbNext fuel h z) (· = (r.inorder ++ Ctx.after ctx).head?) := by
  obtain ⟨⟨hz, -, hr⟩, -⟩ := id hs
  have hempty : h.rbEmptyNode z = false := by
    obtain ⟨-, -, hdis⟩ := nodup_plug hnd
    have hne : Ctx.parent ctx ≠ some z := parent_ne_of_not_mem fun hm => hdis (by simp) hm
    simp [RbStore.rbEmptyNode, hz, hne]
  cases r with
  | nil =>
      have hrun : ∀ fuel, rbNext fuel h z = loop (climbStep h) fuel z := by
        intro fuel
        simp [rbNext, hempty, hz]
      simp only [hrun]
      exact climb_returns hs hnd rfl
  | node k a w b =>
      have hrun : ∀ fuel, rbNext fuel h z = (subtreeMin fuel h w).map some := by
        intro fuel
        simp [rbNext, hempty, hz, CTree.rootId]
      simp only [hrun]
      refine (subtreeMin_returns hr rfl).map fun y hy => ?_
      rw [head?_append, hy]
      rfl

theorem advanceLeftmost_returns {k : Color} {z : ι} {ctx' : Ctx ι} {heir : Option ι}
    (hs : Spans h ctx (.node c l z r)) (hnd : (plug ctx (.node c l z r)).inorder.Nodup)
    (hsp : Spliced ctx c l z r ctx' t k heir)
    (hleft : h.rbLeftmost = (plug ctx (.node c l z r)).inorder.head?) :
    Returns (fun fuel => advanceLeftmost fuel h z) fun g =>
      g = { h with rbLeftmost := (plug ctx' t).inorder.head? } := by
  have hsplit : (plug ctx' t).inorder =
      (Ctx.before ctx ++ l.inorder) ++ (r.inorder ++ Ctx.after ctx) := by
    rw [hsp.inorder]
    simp
  have hz : z ∉ Ctx.before ctx ++ l.inorder := by
    rw [inorder_plug_node, nodup_middle, nodup_cons] at hnd
    exact fun hm => hnd.1 (mem_append_left _ hm)
  rw [inorder_plug_node] at hleft
  rw [hsplit]
  cases hfront : Ctx.before ctx ++ l.inorder with
  | nil =>
      rw [hfront] at hleft
      have hz : h.rbLeftmost = some z := hleft
      simp only [advanceLeftmost, if_pos hz]
      exact (rbNext_returns hs hnd).map fun n hn => by rw [hn]; rfl
  | cons x xs =>
      rw [hfront] at hleft hz
      have hne : h.rbLeftmost ≠ some z := by
        rw [hleft]
        rintro ⟨⟩
        exact hz (by simp)
      refine .of_eq (r := h) (fun fuel => ?_) ?_
      · rw [advanceLeftmost, if_neg hne]
      · have he : h.rbLeftmost = some x := hleft
        simp [← he]

section Fuel

variable (hprop : ∀ (g : RbStore ι α) n, FuelMono fun fuel => aug.propagate fuel g n)
include hprop

theorem rbInsertAugmentedCached_fuelMono (h : RbStore ι α) (x : ι) (leftmost : Bool) :
    FuelMono fun fuel => rbInsertAugmentedCached aug fuel h x leftmost :=
  (hprop _ _).bind fun _ => loop_fuelMono _ _

theorem rbErase_fuelMono (h : RbStore ι α) (z : ι) : FuelMono fun fuel => rbErase aug fuel h z := by
  have hfrom : ∀ (g : RbStore ι α) n, FuelMono fun fuel => propagateFrom aug fuel g n := by
    intro g n
    cases n with
    | none => exact .const _
    | some n => exact hprop g (some n)
  refine .bind ?_ fun s => .bind (hfrom _ _) fun g => .bind ?_ fun g' => hfrom _ _
  · cases hl : (h.node z).rbLeft <;> cases hr : (h.node z).rbRight <;>
      simp only [spliceOut, hl, hr]
    · exact .const _
    · exact .const _
    · exact .const _
    · exact (loop_fuelMono _ _).bind fun y => .const _
  · unfold rebalance
    split
    · exact loop_fuelMono _ _
    · exact .const _

theorem rbEraseAugmentedCached_fuelMono (h : RbStore ι α) (x : ι) :
    FuelMono fun fuel => rbEraseAugmentedCached aug fuel h x := by
  refine .bind ?_ fun h => rbErase_fuelMono hprop h x
  unfold advanceLeftmost
  split
  · refine .map _ ?_
    unfold rbNext
    split
    · exact .const _
    · split
      · exact (loop_fuelMono _ _).map _
      · exact loop_fuelMono _ _
  · exact .const _

end Fuel

end NeoKernel.Rbtree
