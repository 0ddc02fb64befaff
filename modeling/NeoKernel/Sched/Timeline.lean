import NeoKernel.Lib.Serial
import NeoKernel.Rbtree.Correct

/-!
# The fair run queue (kernel/sched/fair.c)

Entities live in a tree ordered by virtual deadline. Each node carries the
minimum of the virtual run times below it, kept by the three augment callbacks.
Virtual times are 64-bit words that are only compared by their difference.
-/
namespace NeoKernel.Sched
open Lib Rbtree

/-- The fields of `struct sched_entity` that the timeline reads and writes. -/
structure SchedEntity where
  weight : BitVec 64
  vruntime : BitVec 64
  deadline : BitVec 64
  minVruntime : BitVec 64
  deriving DecidableEq, Repr

def vtimeBefore (a b : BitVec 64) : Bool := serialBefore a b

def vtimeMin (a b : BitVec 64) : BitVec 64 := if vtimeBefore a b then a else b

variable {ι : Type} [DecidableEq ι]

/-- `struct cfs_rq` with the entities linked into it. The signed sum
`avg_vruntime` is kept as its 64-bit word. -/
structure CfsRq (ι : Type) where
  tasksTimeline : RbStore ι SchedEntity
  minVruntime : BitVec 64
  avgVruntime : BitVec 64
  avgLoad : BitVec 64

def CfsRq.entity (cfs : CfsRq ι) (se : ι) : SchedEntity := cfs.tasksTimeline.data se

def entityKey (cfs : CfsRq ι) (se : ι) : BitVec 64 := (cfs.entity se).vruntime - cfs.minVruntime

def avgVruntimeAdd (cfs : CfsRq ι) (se : ι) : CfsRq ι :=
  { cfs with
    avgVruntime := cfs.avgVruntime + entityKey cfs se * (cfs.entity se).weight
    avgLoad := cfs.avgLoad + (cfs.entity se).weight }

def avgVruntimeSub (cfs : CfsRq ι) (se : ι) : CfsRq ι :=
  { cfs with
    avgVruntime := cfs.avgVruntime - entityKey cfs se * (cfs.entity se).weight
    avgLoad := cfs.avgLoad - (cfs.entity se).weight }

def setMinVruntime (h : RbStore ι SchedEntity) (n : ι) (m : BitVec 64) : RbStore ι SchedEntity :=
  { h with data := Function.update h.data n { h.data n with minVruntime := m } }

def minWith (data : ι → SchedEntity) (m : BitVec 64) : Option ι → BitVec 64
  | none => m
  | some n => vtimeMin m (data n).minVruntime

def nodeMinVruntime (h : RbStore ι SchedEntity) (n : ι) : BitVec 64 :=
  let m := (h.data n).vruntime
  let m := minWith h.data m (h.node n).rbLeft
  minWith h.data m (h.node n).rbRight

def mvPropagateStep (stop : Option ι) : RbStore ι SchedEntity × Option ι →
    Option (Iter (RbStore ι SchedEntity × Option ι) (ι → SchedEntity))
  | (h, node) =>
      if node = stop then some (.done h.data)
      else
        match node with
        | none => none
        | some n =>
            let m := nodeMinVruntime h n
            if (h.data n).minVruntime = m then some (.done h.data)
            else some (.next (setMinVruntime h n m, (h.node n).rbParent))

def mvPropagate (fuel : Nat) (h : RbStore ι SchedEntity) (node stop : Option ι) :
    Option (ι → SchedEntity) :=
  loop (mvPropagateStep stop) fuel (h, node)

def mvCopy (h : RbStore ι SchedEntity) (old new : ι) : ι → SchedEntity :=
  (setMinVruntime h new (h.data old).minVruntime).data

def mvRotate (h : RbStore ι SchedEntity) (old new : ι) : ι → SchedEntity :=
  let h := setMinVruntime h new (h.data old).minVruntime
  (setMinVruntime h old (nodeMinVruntime h old)).data

def minVruntimeCb : RbAugmentCallbacks ι SchedEntity :=
  ⟨some mvPropagate, some mvCopy, some mvRotate⟩

def deadlineLess (h : RbStore ι SchedEntity) (a b : ι) : Bool :=
  vtimeBefore (h.data a).deadline (h.data b).deadline

/-- The state of the descent: the last node passed, the link below it and whether
every step went left. -/
structure Descent (ι : Type) where
  parent : Option ι
  link : Link ι
  leftmost : Bool

def descendStep (h : RbStore ι SchedEntity) (se : ι) (d : Descent ι) :
    Option (Iter (Descent ι) (Descent ι)) :=
  match d.link.get h with
  | none => some (.done d)
  | some p =>
      if deadlineLess h se p then some (.next ⟨some p, .child p .left, d.leftmost⟩)
      else some (.next ⟨some p, .child p .right, false⟩)

def enqueueEntity (fuel : Nat) (cfs : CfsRq ι) (se : ι) : Option (CfsRq ι) := do
  let cfs := avgVruntimeAdd cfs se
  let h := setMinVruntime cfs.tasksTimeline se (cfs.entity se).vruntime
  let d ← loop (descendStep h se) fuel ⟨none, .root, true⟩
  let h ← rbInsertAugmentedCached (some minVruntimeCb) fuel (rbLinkNode h se d.parent d.link) se
    d.leftmost
  some { cfs with tasksTimeline := h }

def dequeueEntity (fuel : Nat) (cfs : CfsRq ι) (se : ι) : Option (CfsRq ι) := do
  let h ← rbEraseAugmentedCached (some minVruntimeCb) fuel cfs.tasksTimeline se
  some (avgVruntimeSub { cfs with tasksTimeline := h } se)

end NeoKernel.Sched
