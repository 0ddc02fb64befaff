import NeoKernel.Rbtree.Correct

/-!
# Trees kept in an order

The loop that looks for the slot of a new node compares it with every node on the way and
remembers whether it has gone left only. In a tree that is sorted by the comparison the new
node gets its place in the order; a tree without callbacks keeps the data of its nodes.
-/
namespace NeoKernel.Rbtree
open Lib List

variable {ι α : Type} [DecidableEq ι]

/-- The last node passed, the link below it, and whether every step went left. -/
structure Search (ι : Type) where
  parent : Option ι
  link : Link ι
  leftmost : Bool

def searchStep (less : ι → Bool) (h : RbStore ι α) (d : Search ι) :
    Option (Iter (Search ι) (Search ι)) :=
  match d.link.get h with
  | none => some (.done d)
  | some p =>
      if less p then some (.next ⟨some p, .child p .left, d.leftmost⟩)
      else some (.next ⟨some p, .child p .right, false⟩)

def search (less : ι → Bool) (fuel : Nat) (h : RbStore ι α) : Option (Search ι) :=
  loop (searchStep less h) fuel ⟨none, .root, true⟩

def insertBy (less : ι → Bool) (fuel : Nat) (h : RbStore ι α) (x : ι) : Option (RbStore ι α) :=
  (search less fuel h).bind fun d =>
    rbInsertColorCached fuel (rbLinkNode h x d.parent d.link) x d.leftmost

/-- What the search knows of the nodes it has left behind on either side. -/
structure Sided (less : ι → Bool) (ctx : Ctx ι) : Prop where
  before : ∀ y ∈ Ctx.before ctx, less y = false
  after : ∀ y ∈ Ctx.after ctx, less y = true

section Search

variable {less : ι → Bool} {h : RbStore ι α} {t : CTree ι} {ctx : Ctx ι} {c : Color}
  {l r : CTree ι} {x : ι}

section

omit [DecidableEq ι]

theorem Sided.left (hs : Sided less ctx) (hx : less x = true)
    (hmono : (plug ctx (.node c l x r)).inorder.Pairwise fun a b => less a = true → less b = true) :
    Sided less (⟨.left, c, x, r⟩ :: ctx) := by
  refine ⟨hs.before, fun y hy => ?_⟩
  rw [inorder_plug, append_assoc] at hmono
  have hr : (l.inorder ++ (x :: r.inorder) ++ Ctx.after ctx).Pairwise
      fun a b => less a = true → less b = true := (pairwise_append.1 hmono).2.1
  rw [append_assoc] at hr
  have hcons : (x :: (r.inorder ++ Ctx.after ctx)).Pairwise
      fun a b => less a = true → less b = true := (pairwise_append.1 hr).2.1
  rcases mem_cons.1 hy with rfl | hy
  · exact hx
  · exact rel_of_pairwise_cons hcons hy hx

theorem Sided.right (hs : Sided less ctx) (hx : less x = false)
    (hmono : (plug ctx (.node c l x r)).inorder.Pairwise fun a b => less a = true → less b = true) :
    Sided less (⟨.right, c, x, l⟩ :: ctx) := by
  refine ⟨fun y hy => ?_, hs.after⟩
  rw [inorder_plug] at hmono
  have hl : (Ctx.before ctx ++ (l.inorder ++ x :: r.inorder)).Pairwise
      fun a b => less a = true → less b = true := (pairwise_append.1 hmono).1
  have hl' := (pairwise_append.1 (pairwise_append.1 hl).2.1).2.2
  change y ∈ Ctx.before ctx ++ l.inorder ++ [x] at hy
  rcases mem_append.1 hy with hy | hy
  · rcases mem_append.1 hy with hy | hy
    · exact hs.before y hy
    · cases hy' : less y with
      | false => rfl
      | true => exact absurd (hl' y hy x mem_cons_self hy') (by rw [hx]; nofun)
  · rw [mem_singleton.1 hy]
    exact hx

/-- A descent from the root that keeps the last node passed, the link below it and whether every
step went left. -/
theorem descent_returns {σ : Type} (less : ι → Bool) (state : Option ι → Link ι → Bool → σ)
    {step : σ → Option (Iter σ σ)}
    (hstep : ∀ parent link leftmost, step (state parent link leftmost) =
      match link.get h with
      | none => some (.done (state parent link leftmost))
      | some p =>
          if less p then some (.next (state (some p) (.child p .left) leftmost))
          else some (.next (state (some p) (.child p .right) false)))
    (ht : Spans h [] t) :
    Returns (fun fuel => loop step fuel (state none .root true)) fun d =>
      ∃ ctx leftmost, d = state (Ctx.parent ctx) (slot ctx) leftmost ∧ t = plug ctx .nil ∧
        (leftmost = true ↔ Ctx.before ctx = []) ∧
        ((t.inorder.Pairwise fun a b => less a = true → less b = true) → Sided less ctx) := by
  -- the subtree below the link gets smaller with every pass
  refine loop_total (fun n d => ∃ ctx leftmost u, Spans h ctx u ∧ t = plug ctx u ∧
    d = state (Ctx.parent ctx) (slot ctx) leftmost ∧ (leftmost = true ↔ Ctx.before ctx = []) ∧
    ((t.inorder.Pairwise fun a b => less a = true → less b = true) → Sided less ctx) ∧
    n = u.inorder.length) ?_ t.inorder.length _
    ⟨[], true, t, ht, rfl, rfl, by simp [Ctx.before], fun _ => ⟨nofun, nofun⟩, rfl⟩
  rintro n d ⟨ctx, leftmost, u, hs, rfl, rfl, hleft, hside, rfl⟩
  cases u with
  | nil =>
      left
      exact ⟨_, by simp [hstep, slot_get hs], ctx, leftmost, rfl, rfl, hleft, hside⟩
  | node c l x r =>
      right
      cases hless : less x with
      | true =>
          refine ⟨l.inorder.length, state (some x) (.child x .left) leftmost, by simp, ?_,
            ⟨.left, c, x, r⟩ :: ctx, leftmost, l, spans_cons.mpr hs, rfl, rfl, hleft,
            fun hmono => (hside hmono).left hless hmono, rfl⟩
          simp [hstep, slot_get hs, CTree.rootId, hless]
      | false =>
          refine ⟨r.inorder.length, state (some x) (.child x .right) false, by simp; omega, ?_,
            ⟨.right, c, x, l⟩ :: ctx, false, r, spans_cons.mpr hs, rfl, rfl, by simp [Ctx.before],
            fun hmono => (hside hmono).right hless hmono, rfl⟩
          simp [hstep, slot_get hs, CTree.rootId, hless]

end

end Search

section Plain

variable {less : ι → Bool} {h : RbStore ι α} {t : CTree ι} {x : ι}

omit [DecidableEq ι] in
theorem dataKeeps (data : ι → α) : AugKeeps none fun (d : ι → α) (_ : CTree ι) => d = data :=
  ⟨fun _ h => h, fun _ _ h => h⟩

theorem insertBy_returns (hs : Sound h t) (hx : x ∉ t.inorder)
    (hmono : t.inorder.Pairwise fun a b => less a = true → less b = true) :
    Returns (fun fuel => insertBy less fuel h x) fun h' =>
      h'.data = h.data ∧ ∃ t' xs ys, Sound h' t' ∧ t.inorder = xs ++ ys ∧
        t'.inorder = xs ++ x :: ys ∧ (∀ y ∈ xs, less y = false) ∧ ∀ y ∈ ys, less y = true := by
  refine (descent_returns less Search.mk (fun _ _ _ => rfl) hs.1.1).bind ?_
  rintro d ⟨ctx, leftmost, rfl, rfl, hlm, hside⟩
  refine (hs.insert (dataKeeps h.data) hx hlm fun g _ _ hg => .of_eq (fun _ => rfl) hg).mono ?_
  rintro h' ⟨t', hs', hdata, hseq⟩
  exact ⟨hdata, t', Ctx.before ctx, Ctx.after ctx, hs', by simp [inorder_plug], hseq,
    (hside hmono).before, (hside hmono).after⟩

theorem rbEraseCached_returns (hs : Sound h t) (hx : x ∈ t.inorder) :
    Returns (fun fuel => rbEraseCached fuel h x) fun h' =>
      h'.data = h.data ∧ ∃ t', Sound h' t' ∧ t'.inorder = t.inorder.erase x := by
  refine (hs.erase (dataKeeps h.data) hx ?_ fun g u n _ hg _ => .of_eq (fun _ => rfl) hg).mono ?_
  · intro ctx c l r ctx' u k heir g _ _ _ _ hg
    refine .of_eq (r := g) (fun fuel => ?_) hg
    have hcopy : (g.ifSome heir fun g y => Aug.copy none g x y) = g := by
      cases heir <;> rfl
    rw [hcopy]
    cases Ctx.parent ctx' <;> rfl
  · rintro h' ⟨t', hs', hdata, hseq⟩
    exact ⟨hdata, t', hs', hseq⟩

end Plain

end NeoKernel.Rbtree
