import NeoKernel.Lib.Loop
import NeoKernel.Lib.RedBlack

/-!
# The intrusive red-black tree (kernel/lib/rbtree.c)

The pointer program over a store of nodes. A null dereference is `none`. The
source writes the insert and erase fix-ups twice, once for each side. Here both
copies are one definition over the side `d` of the node that is being repaired.
-/
namespace NeoKernel.Rbtree
open Lib

/-- `struct rb_node`; parent and colour share one word in the source. -/
structure RbNode (ι : Type) where
  rbParent : Option ι
  rbColor : Color
  rbRight : Option ι
  rbLeft : Option ι
  deriving DecidableEq, Repr

def RbNode.child {ι : Type} (n : RbNode ι) : Dir → Option ι
  | .left => n.rbLeft
  | .right => n.rbRight

def RbNode.withChild {ι : Type} (n : RbNode ι) (d : Dir) (v : Option ι) : RbNode ι :=
  match d with
  | .left => { n with rbLeft := v }
  | .right => { n with rbRight := v }

/-- A `struct rb_root_cached` with the memory its nodes live in. `data` is what
the containers of the nodes hold, the only part an augment callback writes. -/
structure RbStore (ι α : Type) where
  node : ι → RbNode ι
  rbNode : Option ι
  rbLeftmost : Option ι
  data : ι → α

variable {ι α : Type} [DecidableEq ι]

namespace RbStore

def setNode (h : RbStore ι α) (n : ι) (v : RbNode ι) : RbStore ι α :=
  { h with node := Function.update h.node n v }

def setChild (h : RbStore ι α) (n : ι) (d : Dir) (v : Option ι) : RbStore ι α :=
  h.setNode n ((h.node n).withChild d v)

def rbSetParent (h : RbStore ι α) (n : ι) (p : Option ι) : RbStore ι α :=
  h.setNode n { h.node n with rbParent := p }

def rbSetParentColor (h : RbStore ι α) (n : ι) (p : Option ι) (c : Color) : RbStore ι α :=
  h.setNode n { h.node n with rbParent := p, rbColor := c }

def setColor (h : RbStore ι α) (n : ι) (c : Color) : RbStore ι α :=
  h.setNode n { h.node n with rbColor := c }

def rbSetBlack (h : RbStore ι α) (n : ι) : RbStore ι α := h.setColor n .black

def rbSetRed (h : RbStore ι α) (n : ι) : RbStore ι α := h.setColor n .red

/-- The write the source guards with `if (p)`. -/
def ifSome (h : RbStore ι α) (p : Option ι) (f : RbStore ι α → ι → RbStore ι α) : RbStore ι α :=
  match p with
  | none => h
  | some n => f h n

def nodeIsBlack (h : RbStore ι α) : Option ι → Bool
  | none => true
  | some n => (h.node n).rbColor = .black

/-- `RB_EMPTY_NODE`: the parent word of a detached node is its own address. -/
def rbEmptyNode (h : RbStore ι α) (n : ι) : Bool :=
  (h.node n).rbParent = some n ∧ (h.node n).rbColor = .red

/-- Point whatever pointed at `old` from above at `new`. Rotations and
`transplant` share this; the test is always on the left child. -/
def replaceChild (h : RbStore ι α) (parent : Option ι) (old : ι) (new : Option ι) :
    RbStore ι α :=
  match parent with
  | none => { h with rbNode := new }
  | some p =>
      if (h.node p).rbLeft = some old then h.setChild p .left new else h.setChild p .right new

end RbStore

/-- `struct rb_augment_callbacks`; each of the three may be null. -/
structure RbAugmentCallbacks (ι α : Type) where
  propagate : Option (Nat → RbStore ι α → Option ι → Option ι → Option (ι → α))
  copy : Option (RbStore ι α → ι → ι → ι → α)
  rotate : Option (RbStore ι α → ι → ι → ι → α)

abbrev Aug (ι α : Type) := Option (RbAugmentCallbacks ι α)

def Aug.propagate (aug : Aug ι α) (fuel : Nat) (h : RbStore ι α) (n : Option ι) :
    Option (RbStore ι α) :=
  match aug.bind RbAugmentCallbacks.propagate with
  | none => some h
  | some f => (f fuel h n none).map fun data => { h with data := data }

def Aug.copy (aug : Aug ι α) (h : RbStore ι α) (old new : ι) : RbStore ι α :=
  match aug.bind RbAugmentCallbacks.copy with
  | none => h
  | some f => { h with data := f h old new }

def Aug.rotate (aug : Aug ι α) (h : RbStore ι α) (old new : ι) : RbStore ι α :=
  match aug.bind RbAugmentCallbacks.rotate with
  | none => h
  | some f => { h with data := f h old new }

/-- The five writes of a rotation to `node`, `pivot` and the subtree between
them; the pointer from above still names `node`. -/
def rotatePair (d : Dir) (h : RbStore ι α) (node pivot : ι) : RbStore ι α :=
  let parent := (h.node node).rbParent
  let inner := (h.node pivot).child d
  let h := h.setChild node d.flip inner
  let h := h.ifSome inner fun h b => h.rbSetParent b (some node)
  let h := h.setChild pivot d (some node)
  let h := h.rbSetParent node (some pivot)
  h.rbSetParent pivot parent

def rotateLinks (d : Dir) (h : RbStore ι α) (node pivot : ι) : RbStore ι α :=
  (rotatePair d h node pivot).replaceChild (h.node node).rbParent node (some pivot)

def rbRotate (d : Dir) (aug : Aug ι α) (h : RbStore ι α) (node : ι) : Option (RbStore ι α) :=
  match (h.node node).child d.flip with
  | none => none
  | some pivot => some (aug.rotate (rotateLinks d h node pivot) node pivot)

def rbRotateLeft (aug : Aug ι α) (h : RbStore ι α) (node : ι) : Option (RbStore ι α) :=
  rbRotate .left aug h node

def rbRotateRight (aug : Aug ι α) (h : RbStore ι α) (node : ι) : Option (RbStore ι α) :=
  rbRotate .right aug h node

/-- Cases 2 and 3 of the insert fix-up: `parent` is the child on side `d` of
`gparent` and the uncle is black. -/
def rbInsertRotate (d : Dir) (aug : Aug ι α) (h : RbStore ι α) (node parent gparent : ι) :
    Option (RbStore ι α) := do
  let (h, parent) ←
    if (h.node parent).child d.flip = some node then
      (rbRotate d aug h parent).map fun h => (h, node)
    else some (h, parent)
  let h := h.rbSetBlack parent
  let h := h.rbSetRed gparent
  rbRotate d.flip aug h gparent

def rbInsertStep (aug : Aug ι α) : RbStore ι α × ι → Option (Iter (RbStore ι α × ι) (RbStore ι α))
  | (h, node) =>
      match (h.node node).rbParent with
      | none => some (.done (h.rbSetParentColor node none .black))
      | some parent =>
          if (h.node parent).rbColor = .black then some (.done h)
          else
            match (h.node parent).rbParent with
            | none => none
            | some gparent =>
                let d : Dir := if (h.node gparent).rbLeft = some parent then .left else .right
                let uncle := (h.node gparent).child d.flip
                if h.nodeIsBlack uncle then
                  (rbInsertRotate d aug h node parent gparent).map .done
                else
                  let h := h.ifSome uncle RbStore.rbSetBlack
                  let h := h.rbSetBlack parent
                  let h := h.rbSetRed gparent
                  some (.next (h, gparent))

def rbInsertFixup (aug : Aug ι α) (fuel : Nat) (h : RbStore ι α) (node : ι) :
    Option (RbStore ι α) :=
  loop (rbInsertStep aug) fuel (h, node)

def rbInsertAugmented (aug : Aug ι α) (fuel : Nat) (h : RbStore ι α) (node : ι) :
    Option (RbStore ι α) := do
  let h ← aug.propagate fuel h (h.node node).rbParent
  rbInsertFixup aug fuel h node

/-- The address `rb_link` of an empty child slot. -/
inductive Link (ι : Type) where
  | root
  | child (p : ι) (d : Dir)
  deriving DecidableEq, Repr

def Link.get (h : RbStore ι α) : Link ι → Option ι
  | .root => h.rbNode
  | .child p d => (h.node p).child d

def Link.set (h : RbStore ι α) (v : Option ι) : Link ι → RbStore ι α
  | .root => { h with rbNode := v }
  | .child p d => h.setChild p d v

def rbLinkNode (h : RbStore ι α) (node : ι) (parent : Option ι) (link : Link ι) : RbStore ι α :=
  let h := h.setNode node ⟨parent, .red, none, none⟩
  link.set h (some node)

def rbInsertAugmentedCached (aug : Aug ι α) (fuel : Nat) (h : RbStore ι α) (node : ι)
    (leftmost : Bool) : Option (RbStore ι α) :=
  let h := if leftmost then { h with rbLeftmost := some node } else h
  rbInsertAugmented aug fuel h node

def rbInsertColorCached (fuel : Nat) (h : RbStore ι α) (node : ι) (leftmost : Bool) :
    Option (RbStore ι α) :=
  rbInsertAugmentedCached none fuel h node leftmost

def leftStep (h : RbStore ι α) (n : ι) : Option (Iter ι ι) :=
  match (h.node n).rbLeft with
  | none => some (.done n)
  | some m => some (.next m)

def subtreeMin (fuel : Nat) (h : RbStore ι α) (n : ι) : Option ι := loop (leftStep h) fuel n

def rbFirst (fuel : Nat) (h : RbStore ι α) : Option (Option ι) :=
  match h.rbNode with
  | none => some none
  | some n => (subtreeMin fuel h n).map some

def climbStep (h : RbStore ι α) (n : ι) : Option (Iter ι (Option ι)) :=
  match (h.node n).rbParent with
  | none => some (.done none)
  | some p => if (h.node p).rbRight = some n then some (.next p) else some (.done (some p))

def rbNext (fuel : Nat) (h : RbStore ι α) (node : ι) : Option (Option ι) :=
  if h.rbEmptyNode node then some none
  else
    match (h.node node).rbRight with
    | some m => (subtreeMin fuel h m).map some
    | none => loop (climbStep h) fuel node

def transplant (h : RbStore ι α) (u : ι) (v : Option ι) : RbStore ι α :=
  let up := (h.node u).rbParent
  let h := h.replaceChild up u v
  h.ifSome v fun h v => h.rbSetParent v up

/-- A red sibling: rotate it above the parent, the new sibling is black. -/
def fixupRedSibling (d : Dir) (aug : Aug ι α) (h : RbStore ι α) (parent w : ι) :
    Option (RbStore ι α × ι) :=
  if (h.node w).rbColor = .red then do
    let h := h.rbSetBlack w
    let h := h.rbSetRed parent
    let h ← rbRotate d aug h parent
    let w ← (h.node parent).child d.flip
    some (h, w)
  else some (h, w)

/-- The last two cases: the sibling has a red child, and the loop ends. -/
def fixupRedNephew (d : Dir) (aug : Aug ι α) (h : RbStore ι α) (parent w : ι) :
    Option (RbStore ι α) := do
  let (h, w) ←
    if h.nodeIsBlack ((h.node w).child d.flip) then do
      let h := h.ifSome ((h.node w).child d) RbStore.rbSetBlack
      let h := h.rbSetRed w
      let h ← rbRotate d.flip aug h w
      let w ← (h.node parent).child d.flip
      some (h, w)
    else some (h, w)
  let h := h.rbSetParentColor w (h.node w).rbParent (h.node parent).rbColor
  let h := h.rbSetBlack parent
  let h := h.ifSome ((h.node w).child d.flip) RbStore.rbSetBlack
  rbRotate d aug h parent

/-- The loop state is the store, the doubly black node `x` and its parent, which
is kept apart because `x` may be null. -/
def rbEraseFixupStep (aug : Aug ι α) : RbStore ι α × Option ι × Option ι →
    Option (Iter (RbStore ι α × Option ι × Option ι) (RbStore ι α))
  | (h, x, parent) =>
      if x = h.rbNode ∨ h.nodeIsBlack x = false then
        some (.done (h.ifSome x RbStore.rbSetBlack))
      else do
        let parent ← parent
        let d : Dir := if (h.node parent).rbLeft = x then .left else .right
        let w ← (h.node parent).child d.flip
        let (h, w) ← fixupRedSibling d aug h parent w
        if h.nodeIsBlack (h.node w).rbLeft && h.nodeIsBlack (h.node w).rbRight then
          let h := h.rbSetRed w
          some (.next (h, some parent, (h.node parent).rbParent))
        else do
          let h ← fixupRedNephew d aug h parent w
          some (.done (h.ifSome h.rbNode RbStore.rbSetBlack))

def rbEraseFixup (aug : Aug ι α) (fuel : Nat) (h : RbStore ι α) (x parent : Option ι) :
    Option (RbStore ι α) :=
  loop (rbEraseFixupStep aug) fuel (h, x, parent)

/-- What `__rb_erase` knows once `z` is out of the tree. -/
structure Splice (ι α : Type) where
  store : RbStore ι α
  x : Option ι
  xParent : Option ι
  augFrom : Option ι
  yBlack : Bool

/-- Lift the successor `y` out of the right subtree of `z`, which becomes the
right subtree of `y`. -/
def liftSuccessor (h : RbStore ι α) (z y : ι) : Option (RbStore ι α × Option ι) :=
  if (h.node y).rbParent = some z then some (h, some y)
  else do
    let xParent := (h.node y).rbParent
    let h := transplant h y (h.node y).rbRight
    let h := h.setChild y .right (h.node z).rbRight
    let yr ← (h.node y).rbRight
    some (h.rbSetParent yr (some y), xParent)

def takePlace (h : RbStore ι α) (z y : ι) : Option (RbStore ι α) := do
  let h := transplant h z (some y)
  let h := h.setChild y .left (h.node z).rbLeft
  let yl ← (h.node y).rbLeft
  let h := h.rbSetParent yl (some y)
  some (h.rbSetParentColor y (h.node y).rbParent (h.node z).rbColor)

def spliceSuccessor (aug : Aug ι α) (h : RbStore ι α) (z y : ι) : Option (Splice ι α) := do
  let yBlack := (h.node y).rbColor = .black
  let x := (h.node y).rbRight
  let (h, xParent) ← liftSuccessor h z y
  let h ← takePlace h z y
  some ⟨aug.copy h z y, x, xParent, xParent, yBlack⟩

def spliceOut (aug : Aug ι α) (fuel : Nat) (h : RbStore ι α) (z : ι) : Option (Splice ι α) :=
  let zBlack := (h.node z).rbColor = .black
  let up := (h.node z).rbParent
  match (h.node z).rbLeft, (h.node z).rbRight with
  | none, x => some ⟨transplant h z x, x, up, up, zBlack⟩
  | x, none => some ⟨transplant h z x, x, up, up, zBlack⟩
  | some _, some r => do
      let y ← subtreeMin fuel h r
      spliceSuccessor aug h z y

def propagateFrom (aug : Aug ι α) (fuel : Nat) (h : RbStore ι α) (augFrom : Option ι) :
    Option (RbStore ι α) :=
  match augFrom with
  | none => some h
  | some _ => aug.propagate fuel h augFrom

def rebalance (aug : Aug ι α) (fuel : Nat) (h : RbStore ι α) (s : Splice ι α) :
    Option (RbStore ι α) :=
  if s.yBlack then rbEraseFixup aug fuel h s.x s.xParent else some h

def rbErase (aug : Aug ι α) (fuel : Nat) (h : RbStore ι α) (z : ι) : Option (RbStore ι α) := do
  let s ← spliceOut aug fuel h z
  let h ← propagateFrom aug fuel s.store s.augFrom
  let h ← rebalance aug fuel h s
  propagateFrom aug fuel h s.augFrom

/-- The cached minimum moves on when it is the node to be erased. -/
def advanceLeftmost (fuel : Nat) (h : RbStore ι α) (node : ι) : Option (RbStore ι α) :=
  if h.rbLeftmost = some node then
    (rbNext fuel h node).map fun n => { h with rbLeftmost := n }
  else some h

def rbEraseAugmentedCached (aug : Aug ι α) (fuel : Nat) (h : RbStore ι α) (node : ι) :
    Option (RbStore ι α) := do
  let h ← advanceLeftmost fuel h node
  rbErase aug fuel h node

def rbEraseCached (fuel : Nat) (h : RbStore ι α) (node : ι) : Option (RbStore ι α) :=
  rbEraseAugmentedCached none fuel h node

end NeoKernel.Rbtree
