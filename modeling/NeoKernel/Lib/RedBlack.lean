import Mathlib.Tactic

/-!
# Coloured binary trees and their one-hole contexts

`bin d` builds a node from its child on side `d` and the child on the other
side. A rotation or a rebalancing case stated with `bin d` covers both mirror
images. `CtxBal` says which subtrees a context accepts: those of one black
height, and only black-rooted ones below a red parent or at the root.
-/
namespace NeoKernel.Lib
open List

inductive Dir where
  | left
  | right
  deriving DecidableEq, Repr

def Dir.flip : Dir → Dir
  | .left => .right
  | .right => .left

@[simp] theorem Dir.flip_left : Dir.flip .left = .right := rfl
@[simp] theorem Dir.flip_right : Dir.flip .right = .left := rfl
@[simp] theorem Dir.flip_ne (d : Dir) : d.flip ≠ d := by cases d <;> simp

theorem Dir.eq_or_eq_flip (d e : Dir) : e = d ∨ e = d.flip := by
  cases d <;> cases e <;> simp

inductive Color where
  | red
  | black
  deriving DecidableEq, Repr

inductive CTree (ι : Type) where
  | nil
  | node (c : Color) (l : CTree ι) (x : ι) (r : CTree ι)
  deriving DecidableEq, Repr

namespace CTree

variable {ι : Type} {d : Dir} {c k : Color} {t s u r l : CTree ι} {x y z : ι}

def inorder : CTree ι → List ι
  | nil => []
  | node _ l x r => l.inorder ++ x :: r.inorder

def rootId : CTree ι → Option ι
  | nil => none
  | node _ _ x _ => some x

def rootColor : CTree ι → Color
  | nil => .black
  | node c _ _ _ => c

def paint (c : Color) : CTree ι → CTree ι
  | nil => nil
  | node _ l x r => node c l x r

def bin (d : Dir) (c : Color) (t : CTree ι) (x : ι) (s : CTree ι) : CTree ι :=
  match d with
  | .left => node c t x s
  | .right => node c s x t

@[simp] theorem inorder_nil : (nil : CTree ι).inorder = [] := rfl
@[simp] theorem inorder_node (c : Color) (l : CTree ι) (x : ι) (r : CTree ι) :
    (node c l x r).inorder = l.inorder ++ x :: r.inorder := rfl
@[simp] theorem rootId_nil : (nil : CTree ι).rootId = none := rfl
@[simp] theorem rootId_bin (d : Dir) (c : Color) (t : CTree ι) (x : ι) (s : CTree ι) :
    (bin d c t x s).rootId = some x := by cases d <;> rfl
@[simp] theorem rootColor_nil : (nil : CTree ι).rootColor = .black := rfl
@[simp] theorem rootColor_node (c : Color) (l : CTree ι) (x : ι) (r : CTree ι) :
    (node c l x r).rootColor = c := rfl
@[simp] theorem rootColor_bin (d : Dir) (c : Color) (t : CTree ι) (x : ι) (s : CTree ι) :
    (bin d c t x s).rootColor = c := by cases d <;> rfl
@[simp] theorem paint_bin (d : Dir) (c k : Color) (t : CTree ι) (x : ι) (s : CTree ι) :
    (bin d c t x s).paint k = bin d k t x s := by cases d <;> rfl

theorem bin_flip (d : Dir) (c : Color) (t : CTree ι) (x : ι) (s : CTree ι) :
    bin d.flip c t x s = bin d c s x t := by cases d <;> rfl

theorem bin_ne_nil : bin d c t x s ≠ nil := by
  cases d <;> simp [bin]

theorem eq_bin_of_ne_nil (d : Dir) (h : t ≠ nil) :
    ∃ c l x r, t = bin d c l x r := by
  cases t with
  | nil => exact absurd rfl h
  | node c l x r =>
      cases d with
      | left => exact ⟨c, l, x, r, rfl⟩
      | right => exact ⟨c, r, x, l, rfl⟩

theorem mem_inorder_bin :
    y ∈ (bin d c t x s).inorder ↔ y = x ∨ y ∈ t.inorder ∨ y ∈ s.inorder := by
  cases d <;> simp [bin] <;> tauto

theorem nodup_inorder_bin :
    (bin d c t x s).inorder.Nodup ↔
      x ∉ t.inorder ∧ x ∉ s.inorder ∧ t.inorder.Nodup ∧ s.inorder.Nodup ∧
        t.inorder.Disjoint s.inorder := by
  cases d <;>
    simp [bin, nodup_append, List.Disjoint] <;> grind

theorem inorder_rotate (d : Dir) (c k : Color) (a b e : CTree ι) (x y : ι) :
    (bin d c a x (bin d k b y e)).inorder = (bin d k (bin d c a x b) y e).inorder := by
  cases d <;> simp [bin]

theorem mem_inorder_of_rootId (h : t.rootId = some x) :
    x ∈ t.inorder := by
  cases t with
  | nil => simp [rootId] at h
  | node c l y r =>
      cases h
      simp

theorem exists_rootId (h : t ≠ nil) : ∃ x, t.rootId = some x := by
  cases t with
  | nil => exact absurd rfl h
  | node _ _ x _ => exact ⟨x, rfl⟩

def shape : CTree ι → CTree ι
  | nil => nil
  | node _ l x r => node .black l.shape x r.shape

theorem shape_bin (d : Dir) (c : Color) (t : CTree ι) (x : ι) (s : CTree ι) :
    (bin d c t x s).shape = bin d .black t.shape x s.shape := by cases d <;> rfl

theorem inorder_shape (t : CTree ι) : t.shape.inorder = t.inorder := by
  induction t with
  | nil => rfl
  | node c l x r ihl ihr => simp only [shape, inorder_node, ihl, ihr]

theorem inorder_of_shape (h : t.shape = u.shape) : t.inorder = u.inorder := by
  rw [← inorder_shape t, h, inorder_shape]

end CTree

/-- One step of the path from a hole to the root: the hole is the child on
side `dir` of `id`, and `sib` is the other child. -/
structure Frame (ι : Type) where
  dir : Dir
  color : Color
  id : ι
  sib : CTree ι

abbrev Ctx (ι : Type) := List (Frame ι)

variable {ι : Type} {d : Dir} {c k : Color} {t s u r l : CTree ι} {x y z : ι}
  {ctx spine ctx' : Ctx ι} {n : Nat} {heir : Option ι}

def Ctx.parent : Ctx ι → Option ι
  | [] => none
  | f :: _ => some f.id

@[simp] theorem Ctx.parent_nil : Ctx.parent ([] : Ctx ι) = none := rfl
@[simp] theorem Ctx.parent_cons (f : Frame ι) (ctx : Ctx ι) :
    Ctx.parent (f :: ctx) = some f.id := rfl

def plug : Ctx ι → CTree ι → CTree ι
  | [], t => t
  | f :: ctx, t => plug ctx (.bin f.dir f.color t f.id f.sib)

@[simp] theorem plug_nil (t : CTree ι) : plug [] t = t := rfl
@[simp] theorem plug_cons (f : Frame ι) (ctx : Ctx ι) (t : CTree ι) :
    plug (f :: ctx) t = plug ctx (.bin f.dir f.color t f.id f.sib) := rfl

theorem plug_append (a b : Ctx ι) (t : CTree ι) : plug (a ++ b) t = plug b (plug a t) := by
  induction a generalizing t with
  | nil => rfl
  | cons f a ih => simp only [cons_append, plug_cons, ih]

def Ctx.before : Ctx ι → List ι
  | [] => []
  | f :: ctx =>
      match f.dir with
      | .left => Ctx.before ctx
      | .right => Ctx.before ctx ++ f.sib.inorder ++ [f.id]

def Ctx.after : Ctx ι → List ι
  | [] => []
  | f :: ctx =>
      match f.dir with
      | .left => f.id :: f.sib.inorder ++ Ctx.after ctx
      | .right => Ctx.after ctx

theorem inorder_plug (ctx : Ctx ι) (t : CTree ι) :
    (plug ctx t).inorder = Ctx.before ctx ++ t.inorder ++ Ctx.after ctx := by
  induction ctx generalizing t with
  | nil => simp [Ctx.before, Ctx.after]
  | cons f ctx ih =>
      rw [plug_cons, ih]
      cases hd : f.dir <;> simp [Ctx.before, Ctx.after, CTree.bin, hd]

def Ctx.ids : Ctx ι → List ι
  | [] => []
  | f :: ctx => f.id :: f.sib.inorder ++ Ctx.ids ctx

theorem Ctx.ids_append (a b : Ctx ι) : Ctx.ids (a ++ b) = Ctx.ids a ++ Ctx.ids b := by
  induction a with
  | nil => rfl
  | cons f a ih => simp [Ctx.ids, ih]

theorem Ctx.id_mem_ids {f : Frame ι} (hf : f ∈ ctx) : f.id ∈ Ctx.ids ctx := by
  induction ctx with
  | nil => cases hf
  | cons g ctx ih =>
      rcases mem_cons.mp hf with rfl | hf
      · simp [Ctx.ids]
      · simp [Ctx.ids, ih hf]

theorem CTree.inorder_bin_perm (d : Dir) (c : Color) (t : CTree ι) (x : ι) (s : CTree ι) :
    (CTree.bin d c t x s).inorder.Perm (t.inorder ++ x :: s.inorder) := by
  cases d with
  | left => exact .refl _
  | right =>
      exact perm_middle.trans
        (((perm_append_comm).cons x).trans perm_middle.symm)

theorem inorder_plug_perm (ctx : Ctx ι) (t : CTree ι) :
    (plug ctx t).inorder.Perm (t.inorder ++ Ctx.ids ctx) := by
  induction ctx generalizing t with
  | nil => simp [Ctx.ids]
  | cons f ctx ih =>
      refine (ih _).trans ?_
      have hbin := (CTree.inorder_bin_perm f.dir f.color t f.id f.sib).append_right (Ctx.ids ctx)
      simpa [Ctx.ids] using hbin

theorem Ctx.parent_mem_plug (t : CTree ι) (x : ι) (hx : Ctx.parent ctx = some x) :
    x ∈ (plug ctx t).inorder := by
  rw [(inorder_plug_perm ctx t).mem_iff]
  cases ctx with
  | nil => cases hx
  | cons f ctx =>
      cases hx
      simp [Ctx.ids]

theorem nodup_plug (h : (plug ctx t).inorder.Nodup) :
    t.inorder.Nodup ∧ (Ctx.ids ctx).Nodup ∧ t.inorder.Disjoint (Ctx.ids ctx) := by
  rw [(inorder_plug_perm ctx t).nodup_iff, nodup_append'] at h
  exact h

theorem inorder_plug_congr (h : t.inorder = u.inorder) :
    (plug ctx t).inorder = (plug ctx u).inorder := by
  rw [inorder_plug, inorder_plug, h]

theorem shape_plug_congr (h : t.shape = u.shape) :
    (plug ctx t).shape = (plug ctx u).shape := by
  induction ctx generalizing t u with
  | nil => exact h
  | cons f ctx ih => exact ih (by rw [CTree.shape_bin, CTree.shape_bin, h])

theorem exists_plug_of_mem (h : x ∈ t.inorder) :
    ∃ ctx c l r, t = plug ctx (.node c l x r) := by
  induction t with
  | nil => simp at h
  | node c l y r ihl ihr =>
      rcases mem_append.mp h with hl | hr
      · obtain ⟨ctx, k, a, b, rfl⟩ := ihl hl
        exact ⟨ctx ++ [⟨.left, c, y, r⟩], k, a, b, by simp [plug_append, CTree.bin]⟩
      · rcases mem_cons.mp hr with rfl | hr
        · exact ⟨[], c, l, r, rfl⟩
        · obtain ⟨ctx, k, a, b, rfl⟩ := ihr hr
          exact ⟨ctx ++ [⟨.right, c, y, l⟩], k, a, b, by simp [plug_append, CTree.bin]⟩

/-- Red-black balance, indexed by the root's colour and the black height. -/
inductive Bal : CTree ι → Color → Nat → Prop where
  | nil : Bal .nil .black 0
  | red {l r : CTree ι} {x : ι} {n : Nat} :
      Bal l .black n → Bal r .black n → Bal (.node .red l x r) .red n
  | black {l r : CTree ι} {x : ι} {c k : Color} {n : Nat} :
      Bal l c n → Bal r k n → Bal (.node .black l x r) .black (n+1)

theorem Bal.rootColor (h : Bal t c n) : t.rootColor = c := by
  cases h <;> rfl

theorem Bal.exists_bin (d : Dir) (h : Bal t c n)
    (hne : t ≠ .nil) : ∃ a x b, t = .bin d c a x b := by
  obtain ⟨k, a, x, b, rfl⟩ := CTree.eq_bin_of_ne_nil d hne
  have hk := h.rootColor
  rw [CTree.rootColor_bin] at hk
  exact ⟨a, x, b, by rw [hk]⟩

theorem Bal.red_bin
    (ht : Bal t .black n) (hs : Bal s .black n) : Bal (.bin d .red t x s) .red n := by
  cases d with
  | left => exact .red ht hs
  | right => exact .red hs ht

theorem Bal.black_bin
    (ht : Bal t c n) (hs : Bal s k n) : Bal (.bin d .black t x s) .black (n+1) := by
  cases d with
  | left => exact .black ht hs
  | right => exact .black hs ht

theorem Bal.red_inv
    (h : Bal (.bin d .red t x s) c n) : c = .red ∧ Bal t .black n ∧ Bal s .black n := by
  cases d <;> cases h <;> exact ⟨rfl, by assumption, by assumption⟩

theorem Bal.black_inv (h : Bal (.bin d .black t x s) c n) :
    c = .black ∧ ∃ m a b, n = m+1 ∧ Bal t a m ∧ Bal s b m := by
  cases d <;> cases h <;> exact ⟨rfl, _, _, _, rfl, by assumption, by assumption⟩

theorem Bal.paint_black (h : Bal t c n) :
    ∃ m, Bal (t.paint .black) .black m := by
  cases h with
  | nil => exact ⟨0, .nil⟩
  | red hl hr | black hl hr => exact ⟨_, .black hl hr⟩

/-- `CtxBal ctx q n`: the hole takes trees of black height `n`, red-rooted ones
only when `q` is red. The whole tree then has a black root. -/
inductive CtxBal : Ctx ι → Color → Nat → Prop where
  | root {n : Nat} : CtxBal [] .black n
  | red {ctx : Ctx ι} {d : Dir} {x : ι} {s : CTree ι} {n : Nat} :
      CtxBal ctx .red n → Bal s .black n → CtxBal (⟨d, .red, x, s⟩ :: ctx) .black n
  | black {ctx : Ctx ι} {d : Dir} {x : ι} {s : CTree ι} {q k : Color} {n : Nat} :
      CtxBal ctx q (n+1) → Bal s k n → CtxBal (⟨d, .black, x, s⟩ :: ctx) .red n

theorem CtxBal.plug {q : Color} (h : CtxBal ctx q n)
    (ht : Bal t c n) (hc : q = .black → c = .black) : ∃ m, Bal (plug ctx t) .black m := by
  induction h generalizing t c with
  | root =>
      cases hc rfl
      exact ⟨_, ht⟩
  | red _ hs ih =>
      cases hc rfl
      exact ih (.red_bin ht hs) (by simp)
  | black _ hs ih => exact ih (.black_bin ht hs) (by simp)

theorem Bal.split {m : Nat} (h : Bal (plug ctx t) .black m) :
    ∃ q c n, CtxBal ctx q n ∧ Bal t c n ∧ (q = .black → c = .black) := by
  induction ctx generalizing t with
  | nil => exact ⟨.black, .black, m, .root, h, fun _ => rfl⟩
  | cons f ctx ih =>
      obtain ⟨d, k, x, s⟩ := f
      obtain ⟨q, c, n, hctx, ht, hc⟩ := ih h
      cases k with
      | red =>
          obtain ⟨rfl, ht, hs⟩ := ht.red_inv
          have hq : q = .red := by
            cases q with
            | red => rfl
            | black => exact absurd (hc rfl) (by simp)
          subst hq
          exact ⟨.black, .black, n, .red hctx hs, ht, fun _ => rfl⟩
      | black =>
          obtain ⟨rfl, n, a, b, rfl, ht, hs⟩ := ht.black_inv
          exact ⟨.red, a, n, .black hctx hs, ht, by simp⟩

def LeftSpine (ctx : Ctx ι) : Prop := ∀ f ∈ ctx, f.dir = .left

theorem exists_leftSpine (hne : t ≠ .nil) :
    ∃ spine c y yr, LeftSpine spine ∧ t = plug spine (.node c .nil y yr) := by
  induction t with
  | nil => exact absurd rfl hne
  | node c l x r ihl _ =>
      cases l with
      | nil => exact ⟨[], c, x, r, by simp [LeftSpine], rfl⟩
      | node k a w b =>
          obtain ⟨spine, c', y, yr, hs, he⟩ := ihl (by simp)
          refine ⟨spine ++ [⟨.left, c, x, r⟩], c', y, yr, ?_, ?_⟩
          · intro f hf
            rcases mem_append.mp hf with hf | hf
            · exact hs f hf
            · rw [mem_singleton.mp hf]
          · rw [plug_append, ← he]
            rfl

theorem LeftSpine.inorder_plug (hs : LeftSpine spine) (t : CTree ι) :
    (plug spine t).inorder = t.inorder ++ Ctx.after spine := by
  rw [NeoKernel.Lib.inorder_plug]
  have hb : Ctx.before spine = [] := by
    induction spine with
    | nil => rfl
    | cons f spine ih =>
        have hf := hs f (by simp)
        simp only [Ctx.before, hf]
        exact ih fun g hg => hs g (by simp [hg])
  rw [hb, nil_append]

theorem LeftSpine.plug_ne_leftless {f : Frame ι}
    (hs : LeftSpine (f :: spine)) (ht : t ≠ .nil) :
    plug (f :: spine) t ≠ .node c .nil y r := by
  induction spine generalizing f t with
  | nil =>
      have hf := hs f (by simp)
      simp only [plug_cons, plug_nil, hf, CTree.bin]
      rintro ⟨⟩
      exact ht rfl
  | cons g spine ih =>
      rw [plug_cons]
      exact ih (fun k hk => hs k (mem_cons_of_mem f hk)) CTree.bin_ne_nil

theorem plug_ne_nil (ctx : Ctx ι) (h : t ≠ .nil) : plug ctx t ≠ .nil := by
  induction ctx generalizing t with
  | nil => exact h
  | cons f ctx ih => exact ih CTree.bin_ne_nil

/-- The place of `z` after the splice: the context and the subtree that moved
into its hole, the colour that left the tree, and the node that replaced `z`. -/
inductive Spliced : Ctx ι → Color → CTree ι → ι → CTree ι →
    Ctx ι → CTree ι → Color → Option ι → Prop where
  | noLeft {ctx : Ctx ι} {c : Color} {z : ι} {r : CTree ι} :
      Spliced ctx c .nil z r ctx r c none
  | noRight {ctx : Ctx ι} {c : Color} {z : ι} {l : CTree ι} :
      l ≠ .nil → Spliced ctx c l z .nil ctx l c none
  | both {ctx : Ctx ι} {c : Color} {z : ι} {l : CTree ι} (spine : Ctx ι) (cy : Color) (y : ι)
      (yr : CTree ι) : l ≠ .nil → LeftSpine spine →
      Spliced ctx c l z (plug spine (.node cy .nil y yr))
        (spine ++ ⟨.right, c, y, l⟩ :: ctx) yr cy (some y)

theorem exists_spliced (ctx : Ctx ι) (c : Color) (l : CTree ι) (z : ι) (r : CTree ι) :
    ∃ ctx' t k heir, Spliced ctx c l z r ctx' t k heir := by
  by_cases hl : l = .nil
  · subst hl
    exact ⟨ctx, r, c, none, .noLeft⟩
  by_cases hr : r = .nil
  · subst hr
    exact ⟨ctx, l, c, none, .noRight hl⟩
  obtain ⟨spine, cy, y, yr, hs, rfl⟩ := exists_leftSpine hr
  exact ⟨_, yr, cy, some y, .both spine cy y yr hl hs⟩

theorem inorder_plug_node : (plug ctx (.node c l z r)).inorder =
    (Ctx.before ctx ++ l.inorder) ++ z :: (r.inorder ++ Ctx.after ctx) := by
  simp [inorder_plug]

section

variable (hs : Spliced ctx c l z r ctx' t k heir)
include hs

theorem Spliced.inorder :
    (plug ctx' t).inorder = Ctx.before ctx ++ (l.inorder ++ r.inorder) ++ Ctx.after ctx := by
  cases hs with
  | noLeft | noRight => simp [inorder_plug]
  | both spine cy y yr _ hspine =>
      rw [plug_append, plug_cons, inorder_plug]
      simp [CTree.bin, hspine.inorder_plug]

theorem Spliced.nodup (hnd : (plug ctx (.node c l z r)).inorder.Nodup) :
    z ∉ (plug ctx' t).inorder ∧ (plug ctx' t).inorder.Nodup := by
  rw [inorder_plug_node, nodup_middle, nodup_cons] at hnd
  rw [hs.inorder]
  simpa using hnd

theorem Spliced.inorder_erase [DecidableEq ι] (hnd : (plug ctx (.node c l z r)).inorder.Nodup) :
    (plug ctx' t).inorder = (plug ctx (.node c l z r)).inorder.erase z := by
  have hz := (hs.nodup hnd).1
  rw [hs.inorder] at hz ⊢
  simp only [mem_append, not_or] at hz
  simp [inorder_plug, erase_append_right, hz]

end

theorem CtxBal.rename {q : Color}
    (h : CtxBal (spine ++ ⟨d, c, z, l⟩ :: ctx) q n) :
    CtxBal (spine ++ ⟨d, c, y, l⟩ :: ctx) q n := by
  induction spine generalizing q n with
  | nil =>
      cases h with
      | red h hs => exact .red h hs
      | black h hs => exact .black h hs
  | cons f spine ih =>
      cases h with
      | red h hs => exact .red (ih h) hs
      | black h hs => exact .black (ih h) hs

/-- A black node that leaves the tree leaves its place one black node short. -/
theorem Spliced.bal {m : Nat} (hs : Spliced ctx c l z r ctx' t k heir)
    (hbal : Bal (plug ctx (.node c l z r)) .black m) :
    ∃ q kt n, Bal t kt n ∧
      (k = .black → CtxBal ctx' q (n+1)) ∧ (k = .red → CtxBal ctx' q n ∧ kt = .black) := by
  cases hs with
  | noLeft =>
      obtain ⟨q, c', n, hctx, hz, -⟩ := hbal.split
      cases hz with
      | red hl hr => exact ⟨q, .black, n, hr, by simp, fun _ => ⟨hctx, rfl⟩⟩
      | black hl hr => exact ⟨q, _, _, hr, fun _ => hctx, by simp⟩
  | noRight =>
      obtain ⟨q, c', n, hctx, hz, -⟩ := hbal.split
      cases hz with
      | red hl hr => exact ⟨q, .black, n, hl, by simp, fun _ => ⟨hctx, rfl⟩⟩
      | black hl hr => exact ⟨q, _, _, hl, fun _ => hctx, by simp⟩
  | both spine _ y _ _ _ =>
      change Bal (plug (⟨.right, c, z, l⟩ :: ctx) (plug spine (.node k .nil y t))) .black m at hbal
      rw [← plug_append] at hbal
      obtain ⟨q, c', n, hctx, hz, -⟩ := hbal.split
      cases hz with
      | red hl hr => exact ⟨q, .black, n, hr, by simp, fun _ => ⟨hctx.rename, rfl⟩⟩
      | black hl hr => exact ⟨q, _, _, hr, fun _ => hctx.rename, by simp⟩

def CTree.NoRedRed : CTree ι → Prop
  | .nil => True
  | .node c l _ r =>
      (c = .red → l.rootColor = .black ∧ r.rootColor = .black) ∧ l.NoRedRed ∧ r.NoRedRed

def CTree.pathBlacks : CTree ι → List Nat
  | .nil => [0]
  | .node c l _ r =>
      (l.pathBlacks ++ r.pathBlacks).map (· + if c = .black then 1 else 0)

theorem Bal.noRedRed (h : Bal t c n) : t.NoRedRed := by
  induction h with
  | nil => trivial
  | red hl hr ihl ihr => exact ⟨fun _ => ⟨hl.rootColor, hr.rootColor⟩, ihl, ihr⟩
  | black hl hr ihl ihr => exact ⟨fun hc => absurd hc (by simp), ihl, ihr⟩

theorem Bal.pathBlacks (h : Bal t c n) :
    ∀ k ∈ t.pathBlacks, k = n := by
  induction h with
  | nil => simp [CTree.pathBlacks]
  | red hl hr ihl ihr =>
      simp only [CTree.pathBlacks, map_append, mem_append, mem_map]
      rintro k (⟨j, hj, rfl⟩ | ⟨j, hj, rfl⟩)
      · simp [ihl j hj]
      · simp [ihr j hj]
  | black hl hr ihl ihr =>
      simp only [CTree.pathBlacks, map_append, mem_append, mem_map]
      rintro k (⟨j, hj, rfl⟩ | ⟨j, hj, rfl⟩)
      · simp [ihl j hj]
      · simp [ihr j hj]

end NeoKernel.Lib
