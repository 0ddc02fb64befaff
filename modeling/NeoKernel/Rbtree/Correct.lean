import NeoKernel.Rbtree.Ops

/-!
# Every tree built by insertions and erasures is a red-black tree

An insertion names its slot by the path of left and right steps the caller's
descent takes from the root. The owner of the containers may write their data
between two operations.
-/
namespace NeoKernel.Rbtree
open Lib CTree

variable {ι α : Type}
variable {h : RbStore ι α} {t : CTree ι} {ctx : Ctx ι} {aug : Aug ι α}

def IsTree (h : RbStore ι α) (t : CTree ι) : Prop := Spans h [] t ∧ t.inorder.Nodup

instance decidableRep [DecidableEq ι] (h : RbStore ι α) :
    (p : Option ι) → (t : CTree ι) → Decidable (Rep h p t)
  | _, .nil => .isTrue trivial
  | p, .node c l x r =>
      have := decidableRep h (some x) l
      have := decidableRep h (some x) r
      inferInstanceAs (Decidable (h.node x = ⟨p, c, r.rootId, l.rootId⟩ ∧ _ ∧ _))

instance [DecidableEq ι] (h : RbStore ι α) (t : CTree ι) : Decidable (IsTree h t) :=
  inferInstanceAs (Decidable ((Rep h none t ∧ h.rbNode = t.rootId) ∧ t.inorder.Nodup))

theorem Rep.unique {p q : Option ι} {u : CTree ι} (ht : Rep h p t)
    (hu : Rep h q u) (hroot : t.rootId = u.rootId) : t = u := by
  induction t generalizing p q u with
  | nil =>
      cases u with
      | nil => rfl
      | node _ _ _ _ => cases hroot
  | node c l x r ihl ihr =>
      cases u with
      | nil => cases hroot
      | node c' l' x' r' =>
          cases hroot
          obtain ⟨hx, hl, hr⟩ := ht
          obtain ⟨hx', hl', hr'⟩ := hu
          have he := hx.symm.trans hx'
          simp only [RbNode.mk.injEq] at he
          obtain ⟨-, rfl, her, hel⟩ := he
          rw [ihl hl hl' hel, ihr hr hr' her]

theorem IsTree.unique {u : CTree ι} (ht : IsTree h t) (hu : IsTree h u) :
    t = u :=
  ht.1.1.unique hu.1.1 (ht.1.2.symm.trans hu.1.2)

theorem IsTree.rbParent_of_child {i n : ι}
    (ht : IsTree h t) (hi : i ∈ t.inorder)
    (hn : (h.node i).rbLeft = some n ∨ (h.node i).rbRight = some n) :
    (h.node n).rbParent = some i ∧ n ≠ i := by
  obtain ⟨ctx, c, l, r, rfl⟩ := exists_plug_of_mem hi
  obtain ⟨⟨hx, hl, hr⟩, -⟩ := spans_nil.mp ht.1
  obtain ⟨hnd, -, -⟩ := nodup_plug ht.2
  obtain ⟨hil, hir, -, -, -⟩ := (nodup_inorder_bin (d := .left)).mp hnd
  rw [hx] at hn
  rcases hn with hn | hn
  · refine ⟨?_, by rintro rfl; exact hil (mem_inorder_of_rootId hn)⟩
    cases l with
    | nil => cases hn
    | node _ _ _ _ =>
        cases hn
        rw [hl.1]
  · refine ⟨?_, by rintro rfl; exact hir (mem_inorder_of_rootId hn)⟩
    cases r with
    | nil => cases hn
    | node _ _ _ _ =>
        cases hn
        rw [hr.1]

theorem IsTree.withData (ht : IsTree h t)
    (data : ι → α) : IsTree { h with data := data } t :=
  ⟨ht.1.congr rfl rfl, ht.2⟩

/-- The caller's descent: the parent to link to and the address of its empty slot. -/
def rbDescend (h : RbStore ι α) : Option ι → Link ι → List Dir → Option (Option ι × Link ι)
  | parent, link, [] =>
      match link.get h with
      | none => some (parent, link)
      | some _ => none
  | _, link, d :: path =>
      match link.get h with
      | none => none
      | some p => rbDescend h (some p) (.child p d) path

theorem slot_get (hs : Spans h ctx t) :
    (slot ctx).get h = t.rootId := by
  cases ctx with
  | nil => exact hs.2
  | cons f ctx =>
      obtain ⟨-, hf, -, -⟩ := hs
      simp [slot, Link.get, hf]

theorem rbDescend_slot {path : List Dir}
    {parent : Option ι} {link : Link ι} (hs : Spans h ctx t)
    (hd : rbDescend h (Ctx.parent ctx) (slot ctx) path = some (parent, link)) :
    ∃ a, t = plug a .nil ∧ parent = Ctx.parent (a ++ ctx) ∧ link = slot (a ++ ctx) ∧
      a.map Frame.dir = path.reverse := by
  induction path generalizing ctx t with
  | nil =>
      simp only [rbDescend, slot_get hs] at hd
      cases t with
      | nil =>
          cases hd
          exact ⟨[], rfl, rfl, rfl, rfl⟩
      | node _ _ _ _ => cases hd
  | cons d path ih =>
      simp only [rbDescend, slot_get hs] at hd
      by_cases hnil : t = .nil
      · subst hnil
        cases hd
      · obtain ⟨c, u, x, s, rfl⟩ := eq_bin_of_ne_nil d hnil
        rw [rootId_bin] at hd
        have hs : Spans h (⟨d, c, x, s⟩ :: ctx) u := spans_cons.mpr hs
        obtain ⟨a, rfl, hp, hl, hdirs⟩ := ih hs hd
        refine ⟨a ++ [⟨d, c, x, s⟩], by rw [plug_append]; rfl, ?_, ?_, ?_⟩
        · rw [hp, List.append_assoc]
          rfl
        · rw [hl, List.append_assoc]
          rfl
        · simp [hdirs]

theorem before_eq_nil :
    Ctx.before ctx = [] ↔ ∀ d ∈ ctx.map Frame.dir, d = .left := by
  induction ctx with
  | nil => simp [Ctx.before]
  | cons f ctx ih => cases hd : f.dir <;> simp [Ctx.before, hd, ih]

variable [DecidableEq ι]

inductive RbOp (ι : Type) where
  | insert (x : ι) (path : List Dir)
  | erase (x : ι)

def RbOp.run (aug : Aug ι α) (fuel : Nat) (h : RbStore ι α) : RbOp ι → Option (RbStore ι α)
  | .insert x path =>
      match rbDescend h none .root path with
      | none => none
      | some (parent, link) =>
          rbInsertAugmentedCached aug fuel (rbLinkNode h x parent link) x (path.all (· = .left))
  | .erase x => rbEraseAugmentedCached aug fuel h x

/-- The contract of rbtree.h: a new node goes to an empty slot, an erased one is
in the tree. -/
def RbOp.Legal (h : RbStore ι α) (t : CTree ι) : RbOp ι → Prop
  | .insert x path => x ∉ t.inorder ∧ (rbDescend h none .root path).isSome
  | .erase x => x ∈ t.inorder

/-- The in-order sequence after an operation. A new node stands right before
its link parent when linked as a left child, right after it otherwise. -/
def RbOp.Effect (h : RbStore ι α) (before after : List ι) : RbOp ι → Prop
  | .insert x path => ∃ xs ys, before = xs ++ ys ∧ after = xs ++ x :: ys ∧
      match rbDescend h none .root path with
      | none => False
      | some (_, .root) => xs = [] ∧ ys = []
      | some (_, .child p .left) => ys.head? = some p
      | some (_, .child p .right) => xs.getLast? = some p
  | .erase x => after = before.erase x

inductive Built (aug : Aug ι α) : RbStore ι α → Prop where
  | empty {h : RbStore ι α} : h.rbNode = none → h.rbLeftmost = none → Built aug h
  | step {h h' : RbStore ι α} {t : CTree ι} {op : RbOp ι} {data : ι → α} :
      Built aug h → IsTree h t → op.Legal h t →
      Evaluates (fun fuel => op.run aug fuel { h with data := data }) h' → Built aug h'

/-- The propagate callback returns when it is called on a node of a tree, or on
the null parent of a root. -/
def PropagateReturns (aug : Aug ι α) : Prop :=
  ∀ (h : RbStore ι α) (t : CTree ι) (n : Option ι), IsTree h t → (∀ x, n = some x → x ∈ t.inorder) →
    Returns (fun fuel => aug.propagate fuel h n) fun _ => True

def Sound (h : RbStore ι α) (t : CTree ι) : Prop :=
  IsTree h t ∧ (∃ m, Bal t .black m) ∧ h.rbLeftmost = t.inorder.head?

/-- What the fix-ups keep: the order of the nodes and the aggregate `A` of their data. -/
def keepOf (A : (ι → α) → CTree ι → Prop) (seq : List ι) (nodup : seq.Nodup) : Keep ι α :=
  ⟨seq, seq.head?, A, nodup⟩

section Aggregates

variable {A : (ι → α) → CTree ι → Prop} {x : ι}

omit [DecidableEq ι] in
theorem Balanced.sound {seq : List ι} {hnd : seq.Nodup} (hb : Balanced (keepOf A seq hnd) h) :
    ∃ t, Sound h t ∧ A h.data t ∧ t.inorder = seq := by
  obtain ⟨t, m, hh, hbal⟩ := hb
  have hseq : t.inorder = seq := hh.seq
  refine ⟨t, ⟨⟨hh.spans, ?_⟩, ⟨m, hbal⟩, ?_⟩, hh.aggregate, hseq⟩
  · rw [hseq]
    exact hnd
  · rw [hh.leftmost, hseq]
    rfl

/-- `x` becomes a leaf in the slot at the end of `ctx`, and the propagate callback establishes
the aggregate. -/
theorem Sound.insert {leftmost : Bool} (haug : AugKeeps aug A) (hs : Sound h (plug ctx .nil))
    (hx : x ∉ (plug ctx .nil).inorder) (hlm : leftmost = true ↔ Ctx.before ctx = [])
    (hprop : ∀ g, Spans g ctx (.node .red .nil x .nil) →
      (plug ctx (.node .red .nil x .nil)).inorder.Nodup → g.data = h.data →
      Returns (fun fuel => aug.propagate fuel g (Ctx.parent ctx)) fun g' =>
        A g'.data (plug ctx (.node .red .nil x .nil))) :
    Returns (fun fuel => rbInsertAugmentedCached aug fuel
        (rbLinkNode h x (Ctx.parent ctx) (slot ctx)) x leftmost) fun h' =>
      ∃ t', Sound h' t' ∧ A h'.data t' ∧ t'.inorder = Ctx.before ctx ++ x :: Ctx.after ctx := by
  obtain ⟨⟨hspans, hnd⟩, ⟨m, hbal⟩, hleft⟩ := hs
  rw [(inorder_plug_perm _ _).mem_iff] at hx
  have hxc : x ∉ Ctx.ids ctx := by simpa using hx
  have hnd' : (plug ctx (.node .red .nil x .nil)).inorder.Nodup := by
    rw [(inorder_plug_perm _ _).nodup_iff] at hnd ⊢
    simpa [hxc] using hnd
  refine (rbInsertAugmentedCached_returns (K := keepOf A _ hnd') haug (spans_nil.mp hspans) hxc
    hbal rfl ?_ fun g hg hgd => hprop g hg hnd' hgd).mono fun h' hb => ?_
  · change (plug ctx (.node .red .nil x .nil)).inorder.head? = _
    rw [hleft, inorder_plug, inorder_plug]
    cases hb : Ctx.before ctx with
    | nil =>
        rw [if_pos (hlm.mpr hb)]
        rfl
    | cons y ys =>
        rw [if_neg (by rw [hlm, hb]; simp)]
        rfl
  · obtain ⟨t', hs', hA, hseq⟩ := hb.sound
    exact ⟨t', hs', hA, by rw [hseq]; simp [inorder_plug]⟩

/-- `x` is spliced out, and the propagate callback repairs the aggregate of the spliced tree and
keeps one that is right. -/
theorem Sound.erase (haug : AugKeeps aug A) (hs : Sound h t) (hx : x ∈ t.inorder)
    (hprop : ∀ ctx c l r ctx' u k heir g, t = plug ctx (.node c l x r) →
      Spliced ctx c l x r ctx' u k heir → Spans g ctx' u → (plug ctx' u).inorder.Nodup →
      g.data = h.data →
      Returns (fun fuel => propagateFrom aug fuel (g.ifSome heir fun g y => aug.copy g x y)
        (Ctx.parent ctx')) fun g' => A g'.data (plug ctx' u))
    (hagain : ∀ g u n, IsTree g u → A g.data u → n ∈ u.inorder →
      Returns (fun fuel => aug.propagate fuel g (some n)) fun g' => A g'.data u) :
    Returns (fun fuel => rbEraseAugmentedCached aug fuel h x) fun h' =>
      ∃ t', Sound h' t' ∧ A h'.data t' ∧ t'.inorder = t.inorder.erase x := by
  obtain ⟨⟨hspans, hnd⟩, ⟨m, hbal⟩, hleft⟩ := hs
  obtain ⟨ctx, c, l, r, rfl⟩ := exists_plug_of_mem hx
  have hin : Spans h ctx (.node c l x r) := spans_nil.mp hspans
  obtain ⟨ctx', u, k, heir, hsp⟩ := exists_spliced ctx c l x r
  obtain ⟨-, hnd'⟩ := hsp.nodup hnd
  refine (advanceLeftmost_returns hin hnd hsp hleft).bind ?_
  rintro g rfl
  refine (rbErase_returns (h := { h with rbLeftmost := (plug ctx' u).inorder.head? })
    (K := keepOf A _ hnd') haug (hin.congr rfl rfl) hnd hbal hsp rfl rfl
    (fun g hg hgd => hprop ctx c l r ctx' u k heir g rfl hsp hg hnd' hgd)
    fun g v n hv hn => hagain g v n ⟨hv.spans, hv.nodup⟩ hv.aggregate hn).mono fun h' hb => ?_
  obtain ⟨t', hs', hA, hseq⟩ := hb.sound
  exact ⟨t', hs', hA, by rw [hseq, hsp.inorder_erase hnd]⟩

end Aggregates

omit [DecidableEq ι] in
theorem augKeeps_true (aug : Aug ι α) : AugKeeps aug fun _ _ => True :=
  ⟨fun _ _ => trivial, fun _ _ _ => trivial⟩

theorem insert_sound {x : ι} {path : List Dir}
    (haug : PropagateReturns aug) (hs : Sound h t) (hx : x ∉ t.inorder)
    (hpath : (rbDescend h none .root path).isSome) :
    Returns (fun fuel => (RbOp.insert x path).run aug fuel h) fun h' =>
      ∃ t', Sound h' t' ∧ (RbOp.insert x path).Effect h t.inorder t'.inorder := by
  obtain ⟨⟨parent, link⟩, hd⟩ := Option.isSome_iff_exists.mp hpath
  obtain ⟨ctx, rfl, hparent, hlink, hdirs⟩ := rbDescend_slot hs.1.1 hd
  rw [List.append_nil] at hparent hlink
  have hall : path.all (· = .left) = true ↔ Ctx.before ctx = [] := by
    rw [before_eq_nil, hdirs]
    simp
  simp only [RbOp.run, hd, hparent, hlink]
  refine (hs.insert (augKeeps_true aug) hx hall fun g hg hnd _ => ?_).mono ?_
  · exact (haug g _ _ ⟨spans_nil.mpr hg, hnd⟩ (Ctx.parent_mem_plug _)).mono fun _ _ => trivial
  · rintro h' ⟨t', hs', -, hseq⟩
    refine ⟨t', hs', Ctx.before ctx, Ctx.after ctx, by simp [inorder_plug], hseq, ?_⟩
    rw [hd, hlink]
    cases ctx with
    | nil => exact ⟨rfl, rfl⟩
    | cons f ctx => cases hdir : f.dir <;> simp [slot, Ctx.before, Ctx.after, hdir]

theorem erase_sound {x : ι}
    (haug : PropagateReturns aug) (hs : Sound h t) (hx : x ∈ t.inorder) :
    Returns (fun fuel => rbEraseAugmentedCached aug fuel h x) fun h' =>
      ∃ t', Sound h' t' ∧ t'.inorder = t.inorder.erase x := by
  refine (hs.erase (augKeeps_true aug) hx ?_ fun g u n hg _ hn => ?_).mono ?_
  · intro ctx c l r ctx' u k heir g _ _ hg hnd _
    cases hp : Ctx.parent ctx' with
    | none => exact .of_eq (fun _ => rfl) trivial
    | some n =>
        have hcopy : Spans (g.ifSome heir fun g y => aug.copy g x y) ctx' u := by
          rw [copy_eq]
          exact hg.congr rfl rfl
        refine (haug _ _ (some n) ⟨spans_nil.mpr hcopy, hnd⟩ ?_).mono fun _ _ => trivial
        rintro _ ⟨⟩
        exact Ctx.parent_mem_plug _ _ hp
  · refine (haug g u (some n) hg ?_).mono fun _ _ => trivial
    rintro _ ⟨⟩
    exact hn
  · rintro h' ⟨t', hs', -, hseq⟩
    exact ⟨t', hs', hseq⟩

omit [DecidableEq ι] in
theorem Sound.withData (hs : Sound h t) (data : ι → α) :
    Sound { h with data := data } t :=
  ⟨⟨hs.1.1.congr rfl rfl, hs.1.2⟩, hs.2⟩

omit [DecidableEq ι] in
theorem rbDescend_withData (h : RbStore ι α) (data : ι → α) (parent : Option ι) (link : Link ι)
    (path : List Dir) :
    rbDescend { h with data := data } parent link path = rbDescend h parent link path := by
  induction path generalizing parent link with
  | nil => cases link <;> rfl
  | cons d path ih =>
      have hget : link.get { h with data := data } = link.get h := by cases link <;> rfl
      simp only [rbDescend, hget, ih]

theorem run_sound {op : RbOp ι} {data : ι → α}
    (haug : PropagateReturns aug) (hs : Sound h t) (hop : op.Legal h t) :
    Returns (fun fuel => op.run aug fuel { h with data := data }) fun h' =>
      ∃ t', Sound h' t' ∧ op.Effect h t.inorder t'.inorder := by
  cases op with
  | insert x path =>
      have hret := insert_sound haug (hs.withData data) hop.1
        (by rw [rbDescend_withData]; exact hop.2)
      refine hret.mono ?_
      rintro h' ⟨t', hs', heff⟩
      refine ⟨t', hs', ?_⟩
      simpa only [RbOp.Effect, rbDescend_withData] using heff
  | erase x => exact erase_sound haug (hs.withData data) hop

theorem Built.sound (haug : PropagateReturns aug)
    (hb : Built aug h) : ∃ t, Sound h t := by
  induction hb with
  | empty hroot hleft =>
      exact ⟨.nil, ⟨⟨⟨trivial, hroot⟩, List.nodup_nil⟩, ⟨0, .nil⟩, hleft⟩⟩
  | step _ ht hop hrun ih =>
      obtain ⟨u, hs⟩ := ih
      cases ht.unique hs.1
      obtain ⟨t', hs', -⟩ := hrun.post (run_sound haug hs hop)
      exact ⟨t', hs'⟩

/-- Every store built by legal insertions and erasures holds a red-black tree
with the cached minimum right, and every further operation returns with the
in-order sequence it should have. -/
theorem built_correct {aug : Aug ι α} (haug : PropagateReturns aug) {h : RbStore ι α}
    (hb : Built aug h) :
    ∃ t, IsTree h t ∧ t.rootColor = .black ∧ t.NoRedRed ∧
      (∀ i ∈ t.pathBlacks, ∀ j ∈ t.pathBlacks, i = j) ∧
      Returns (fun fuel => rbFirst fuel h) (· = h.rbLeftmost) ∧
      ∀ (op : RbOp ι) (data : ι → α), op.Legal h t →
        Returns (fun fuel => op.run aug fuel { h with data := data }) fun h' =>
          Built aug h' ∧ ∃ t', IsTree h' t' ∧ op.Effect h t.inorder t'.inorder := by
  obtain ⟨t, hs⟩ := hb.sound haug
  obtain ⟨m, hbal⟩ := hs.2.1
  refine ⟨t, hs.1, hbal.rootColor, hbal.noRedRed, ?_, ?_, ?_⟩
  · intro i hi j hj
    rw [hbal.pathBlacks i hi, hbal.pathBlacks j hj]
  · rw [hs.2.2]
    exact rbFirst_returns hs.1.1
  · intro op data hop
    obtain ⟨h', ⟨t', hs', heff⟩, hrun⟩ := run_sound haug hs hop
    exact ⟨h', ⟨hb.step hs.1 hop hrun, t', hs'.1, heff⟩, hrun⟩

def emptyStore (ι α : Type) (data : ι → α) : RbStore ι α :=
  ⟨fun _ => ⟨none, .red, none, none⟩, none, none, data⟩

/-- Fuel that is enough for a tree of a few nodes. -/
def RbOp.next (h : RbStore ι α) (op : RbOp ι) : RbStore ι α := (op.run none 10 h).getD h

theorem RbOp.run_fuelMono (h : RbStore ι α) (op : RbOp ι) :
    FuelMono fun fuel => op.run none fuel h := by
  have hprop : ∀ (h : RbStore ι α) n, FuelMono fun fuel => Aug.propagate none fuel h n :=
    fun _ _ => .const _
  cases op with
  | insert x path =>
      unfold RbOp.run
      dsimp only
      split
      · exact .const _
      · exact rbInsertAugmentedCached_fuelMono hprop _ x _
  | erase x => exact rbEraseAugmentedCached_fuelMono hprop h x

theorem Built.next (hb : Built none h) (t : CTree ι) (op : RbOp ι) (ht : IsTree h t)
    (hl : op.Legal h t) (hrun : (op.run none 10 h).isSome) : Built none (op.next h) := by
  obtain ⟨h', hh'⟩ := Option.isSome_iff_exists.mp hrun
  have hnext : op.run none 10 { h with data := h.data } = some (op.next h) := by
    rw [RbOp.next, hh']
    rfl
  exact hb.step ht hl ((op.run_fuelMono h).evaluates hnext)

/-- The third insertion and the erasure rotate. -/
def rotated : RbStore Nat Unit :=
  [.insert 1 [], .insert 2 [.right], .insert 3 [.right, .right], .insert 4 [.right, .right],
    .erase 1].foldl RbOp.next (emptyStore Nat Unit fun _ => ())

theorem built_correct_rotated :
    ∃ t, IsTree rotated t ∧ t.inorder = [2, 3, 4] ∧ t.rootId = some 3 ∧ t.NoRedRed ∧
      ∀ i ∈ t.pathBlacks, ∀ j ∈ t.pathBlacks, i = j := by
  have hb : Built none rotated :=
    Built.empty (h := emptyStore Nat Unit fun _ => ()) rfl rfl
    |>.next .nil (.insert 1 []) (by decide) ⟨by decide, rfl⟩ rfl
    |>.next (.node .black .nil 1 .nil) (.insert 2 [.right]) (by decide +kernel)
      ⟨by decide, by decide +kernel⟩ (by decide +kernel)
    |>.next (.node .black .nil 1 (.node .red .nil 2 .nil)) (.insert 3 [.right, .right])
      (by decide +kernel) ⟨by decide, by decide +kernel⟩ (by decide +kernel)
    |>.next (.node .black (.node .red .nil 1 .nil) 2 (.node .red .nil 3 .nil))
      (.insert 4 [.right, .right]) (by decide +kernel) ⟨by decide, by decide +kernel⟩
      (by decide +kernel)
    |>.next (.node .black (.node .black .nil 1 .nil) 2
        (.node .black .nil 3 (.node .red .nil 4 .nil)))
      (.erase 1) (by decide +kernel) (by decide +kernel : 1 ∈ [1, 2, 3, 4]) (by decide +kernel)
  obtain ⟨t, ht, -, hred, hpaths, -⟩ :=
    built_correct (fun h _ _ _ _ => .of_eq (r := h) (fun _ => rfl) trivial) hb
  have hfinal : IsTree rotated (.node .black (.node .black .nil 2 .nil) 3
      (.node .black .nil 4 .nil)) := by decide +kernel
  obtain rfl := ht.unique hfinal
  exact ⟨_, ht, rfl, rfl, hred, hpaths⟩

end NeoKernel.Rbtree
