import NeoKernel.Sched.Timeline

/-!
# The hooks of the fair class (kernel/sched/fair.c)

The functions that sched.c calls with the lock of the run queue held, over the timeline of
`Sched.Timeline`. `int64_t` values are kept as their 64-bit words; `nr_running` is a number, as
there are fewer threads than it can count.
-/
namespace NeoKernel.Sched
open Lib Rbtree Function

/-- The other fields of `struct sched_entity`. -/
structure Task where
  invWeight : BitVec 32
  vlag : BitVec 64
  slice : BitVec 64
  onRq : Bool
  policy : Int
  nice : Int
  execStart : BitVec 64
  sumExecRuntime : BitVec 64
  prevSumExecRuntime : BitVec 64
  deriving DecidableEq, Repr

def nice0Weight : BitVec 64 := 1024
def weightIdleprio : BitVec 64 := 3
def schedBaseSliceNs : BitVec 64 := 700000
def schedMinPreemptNs : BitVec 64 := 100000
def schedIdle : Int := 5

def schedPrioToWeight : List (BitVec 64) :=
  [88761, 71755, 56483, 46273, 36291, 29154, 23254, 18705, 14949, 11916, 9548, 7620, 6100, 4904,
   3906, 3121, 2501, 1991, 1586, 1277, 1024, 820, 655, 526, 423, 335, 272, 215, 172, 137, 110, 87,
   70, 56, 45, 36, 29, 23, 18, 15]

def schedPrioToWmult : List (BitVec 32) :=
  [48388, 59856, 76040, 92818, 118348, 147320, 184698, 229616, 287308, 360437, 449829, 563644,
   704093, 875809, 1099582, 1376151, 1717300, 2157191, 2708050, 3363326, 4194304, 5237765, 6557202,
   8165337, 10153587, 12820798, 15790321, 19976592, 24970740, 31350126, 39045157, 49367440,
   61356676, 76695844, 95443717, 119304647, 148102320, 186737708, 238609294, 286331153]

def clampNice (nice : Int) : Int := max (-20) (min 19 nice)

def niceToIndex (nice : Int) : Nat := (clampNice nice + 20).toNat

def sliceOf (x : Task) : BitVec 64 := if x.slice ≠ 0 then x.slice else schedBaseSliceNs

def calcDeltaFair (delta weight : BitVec 64) (invWeight : BitVec 32) : BitVec 64 :=
  if weight = nice0Weight then delta
  else BitVec.ofNat 64 (delta.toNat * nice0Weight.toNat * invWeight.toNat / 2 ^ 32)

/-- `struct rq` with its `cfs_rq`. `minTrail` is not in the source: the values that
`min_vruntime` has had, the latest first. -/
structure FairRq (ι : Type) where
  cfs : CfsRq ι
  task : ι → Task
  nrRunning : Nat
  curr : Option ι
  clockTask : BitVec 64
  minTrail : List (BitVec 64)

variable {ι : Type} [DecidableEq ι]

namespace FairRq

def entity (rq : FairRq ι) (se : ι) : SchedEntity := rq.cfs.entity se

def setEntity (rq : FairRq ι) (se : ι) (e : SchedEntity) : FairRq ι :=
  { rq with cfs := { rq.cfs with tasksTimeline := { rq.cfs.tasksTimeline with
      data := update rq.cfs.tasksTimeline.data se e } } }

def setTask (rq : FairRq ι) (se : ι) (x : Task) : FairRq ι :=
  { rq with task := update rq.task se x }

def setLoadWeight (rq : FairRq ι) (se : ι) (nice : Int) : FairRq ι :=
  if (rq.task se).policy = schedIdle then
    (rq.setEntity se { rq.entity se with weight := weightIdleprio }).setTask se
      { rq.task se with invWeight := BitVec.ofNat 32 (2 ^ 32 / weightIdleprio.toNat) }
  else
    (rq.setEntity se { rq.entity se with
        weight := schedPrioToWeight.getD (niceToIndex nice) 0 }).setTask se
      { rq.task se with invWeight := schedPrioToWmult.getD (niceToIndex nice) 0 }

def deltaFair (rq : FairRq ι) (se : ι) (delta : BitVec 64) : BitVec 64 :=
  calcDeltaFair delta (rq.entity se).weight (rq.task se).invWeight

def runningCurr (rq : FairRq ι) : Option ι := rq.curr.filter fun c => (rq.task c).onRq

def liveSums (rq : FairRq ι) : BitVec 64 × BitVec 64 :=
  match rq.runningCurr with
  | none => (rq.cfs.avgVruntime, rq.cfs.avgLoad)
  | some c =>
      let w := (rq.entity c).weight
      (rq.cfs.avgVruntime + entityKey rq.cfs c * w, rq.cfs.avgLoad + w)

def avgVruntime (rq : FairRq ι) : BitVec 64 :=
  let (avg, load) := rq.liveSums
  if load.sle 0 then rq.cfs.minVruntime
  else
    let avg := if avg.slt 0 then avg - (load - 1) else avg
    rq.cfs.minVruntime + avg.sdiv load

def vruntimeEligible (rq : FairRq ι) (vruntime : BitVec 64) : Bool :=
  let (avg, load) := rq.liveSums
  ((vruntime - rq.cfs.minVruntime) * load).sle avg

def entityEligible (rq : FairRq ι) (se : ι) : Bool := rq.vruntimeEligible (rq.entity se).vruntime

/-- What `update_min_vruntime` compares `min_vruntime` with. -/
def leastVruntime (rq : FairRq ι) : BitVec 64 :=
  match rq.runningCurr, rq.cfs.tasksTimeline.rbNode with
  | some c, some r => vtimeMin (rq.entity c).vruntime (rq.entity r).minVruntime
  | some c, none => (rq.entity c).vruntime
  | none, some r => (rq.entity r).minVruntime
  | none, none => rq.cfs.minVruntime

def updateMinVruntime (rq : FairRq ι) : FairRq ι :=
  let v := rq.leastVruntime
  let delta := v - rq.cfs.minVruntime
  if BitVec.slt 0 delta then
    { rq with
      cfs := { rq.cfs with
        avgVruntime := rq.cfs.avgVruntime - rq.cfs.avgLoad * delta
        minVruntime := v }
      minTrail := v :: rq.minTrail }
  else rq

def updateDeadline (rq : FairRq ι) (se : ι) : FairRq ι :=
  if ((rq.entity se).vruntime - (rq.entity se).deadline).slt 0 then rq
  else
    let slice := sliceOf (rq.task se)
    let rq := rq.setTask se { rq.task se with slice }
    rq.setEntity se { rq.entity se with
      deadline := (rq.entity se).vruntime + rq.deltaFair se slice }

def updateCurr (rq : FairRq ι) : FairRq ι :=
  match rq.curr with
  | none => rq
  | some c =>
      let now := rq.clockTask
      let x := rq.task c
      if now ≤ x.execStart then rq.setTask c { x with execStart := now }
      else
        let delta := now - x.execStart
        let rq := rq.setTask c
          { x with execStart := now, sumExecRuntime := x.sumExecRuntime + delta }
        let rq := rq.setEntity c
          { rq.entity c with vruntime := (rq.entity c).vruntime + rq.deltaFair c delta }
        (rq.updateDeadline c).updateMinVruntime

/-- The bound on a lag: two slices, or a tick, in virtual time. -/
def lagLimit (rq : FairRq ι) (se : ι) : BitVec 64 :=
  let twoslc := 2 * sliceOf (rq.task se)
  rq.deltaFair se (if twoslc > 10000000 then twoslc else 10000000)

def clampLag (lag limit : BitVec 64) : BitVec 64 :=
  let lag := if limit.slt lag then limit else lag
  if lag.slt (-limit) then -limit else lag

def updateEntityLag (rq : FairRq ι) (se : ι) : FairRq ι :=
  let lag := rq.avgVruntime - (rq.entity se).vruntime
  rq.setTask se { rq.task se with vlag := clampLag lag (rq.lagLimit se) }

def placedLag (rq : FairRq ι) (se : ι) : BitVec 64 :=
  if rq.nrRunning ≠ 0 ∧ (rq.task se).vlag ≠ 0 then
    let l := clampLag (rq.task se).vlag (rq.lagLimit se)
    let load := rq.liveSums.2
    let load := if load.slt 1 then 1 else load
    (l * (load + (rq.entity se).weight)).sdiv load
  else 0

def placeEntity (rq : FairRq ι) (se : ι) (initial : Bool) : FairRq ι :=
  let vslice := rq.deltaFair se (sliceOf (rq.task se))
  let vruntime := rq.avgVruntime - rq.placedLag se
  let vslice := if initial then vslice / 2 else vslice
  (rq.setEntity se { rq.entity se with vruntime, deadline := vruntime + vslice }).setTask se
    { rq.task se with vlag := 0 }

/-- One pass of the search for the eligible entity with the earliest deadline. -/
def pickStep (rq : FairRq ι) : Option ι → Option (Iter (Option ι) (Option ι))
  | none => some (.done none)
  | some n =>
      let node := rq.cfs.tasksTimeline.node n
      if node.rbLeft.any fun l => rq.vruntimeEligible (rq.entity l).minVruntime then
        some (.next node.rbLeft)
      else if rq.entityEligible n then some (.done (some n))
      else some (.next node.rbRight)

def pickTree (fuel : Nat) (rq : FairRq ι) : Option (Option ι) :=
  match rq.cfs.tasksTimeline.rbLeftmost with
  | some first =>
      if rq.entityEligible first then some (some first)
      else loop rq.pickStep fuel rq.cfs.tasksTimeline.rbNode
  | none => loop rq.pickStep fuel rq.cfs.tasksTimeline.rbNode

def pickEevdf (fuel : Nat) (rq : FairRq ι) : Option (Option ι) :=
  let first := rq.cfs.tasksTimeline.rbLeftmost
  if rq.nrRunning = 1 then some (rq.runningCurr.or first)
  else do
    let curr := rq.runningCurr.filter rq.entityEligible
    let best ← rq.pickTree fuel
    let best := match best, curr with
      | some b, some c =>
          if vtimeBefore (rq.entity c).deadline (rq.entity b).deadline then some c else some b
      | some b, none => some b
      | none, curr => curr
    some (best.or first)

def intoTree (fuel : Nat) (rq : FairRq ι) (se : ι) : Option (FairRq ι) :=
  (Sched.enqueueEntity fuel rq.cfs se).map fun cfs => { rq with cfs }

def outOfTree (fuel : Nat) (rq : FairRq ι) (se : ι) : Option (FairRq ι) :=
  (Sched.dequeueEntity fuel rq.cfs se).map fun cfs => { rq with cfs }

/-- The entity gets its weight and its place, still outside the tree. -/
def placed (rq : FairRq ι) (se : ι) : FairRq ι :=
  let rq := rq.updateCurr
  let rq := rq.setLoadWeight se (rq.task se).nice
  rq.placeEntity se ((rq.task se).sumExecRuntime = 0)

def enqueueEntity (fuel : Nat) (rq : FairRq ι) (se : ι) : Option (FairRq ι) := do
  let rq ← (rq.placed se).intoTree fuel se
  some { rq.setTask se { rq.task se with onRq := true } with nrRunning := rq.nrRunning + 1 }

def retired (rq : FairRq ι) (se : ι) : FairRq ι :=
  { rq.setTask se { rq.task se with onRq := false } with nrRunning := rq.nrRunning - 1 }

def dequeueEntity (fuel : Nat) (rq : FairRq ι) (se : ι) : Option (FairRq ι) := do
  let rq := rq.updateCurr.updateEntityLag se
  let rq ← if rq.curr = some se then some { rq with curr := none } else rq.outOfTree fuel se
  some (rq.retired se).updateMinVruntime

def setNextEntity (fuel : Nat) (rq : FairRq ι) (se : ι) : Option (FairRq ι) := do
  let rq ← if (rq.task se).onRq ∧ rq.curr ≠ some se then rq.outOfTree fuel se else some rq
  let rq := rq.setTask se
    { rq.task se with prevSumExecRuntime := (rq.task se).sumExecRuntime }
  some { rq with curr := some se }

def putPrevEntity (fuel : Nat) (rq : FairRq ι) (se : ι) : Option (FairRq ι) := do
  let rq := rq.updateCurr
  let rq ← if (rq.task se).onRq then rq.intoTree fuel se else some rq
  some (if rq.curr = some se then { rq with curr := none } else rq)

def fairEnqueue (fuel : Nat) (rq : FairRq ι) (se : ι) : Option (FairRq ι) :=
  rq.enqueueEntity fuel se

def fairPick (fuel : Nat) (rq : FairRq ι) : Option (FairRq ι × Option ι) := do
  let rq := rq.updateCurr
  if rq.nrRunning = 0 then some ({ rq with curr := none }, none)
  else
    match ← rq.pickEevdf fuel with
    | none => some (rq, none)
    | some se =>
        let rq ← if rq.curr ≠ some se then rq.setNextEntity fuel se else some rq
        some (rq.setTask se { rq.task se with execStart := rq.clockTask }, some se)

def fairBlockCurrent (fuel : Nat) (rq : FairRq ι) (prev : ι) : Option (FairRq ι) :=
  rq.dequeueEntity fuel prev

def fairRequeuePreempted (fuel : Nat) (rq : FairRq ι) (prev : ι) : Option (FairRq ι) :=
  rq.putPrevEntity fuel prev

/-- `now` is what `rq_clock_update` reads. -/
def fairSteal (fuel : Nat) (rq : FairRq ι) (now : BitVec 64) : Option (FairRq ι × Option ι) :=
  match rq.cfs.tasksTimeline.rbLeftmost with
  | none => some (rq, none)
  | some se => ({ rq with clockTask := now }.dequeueEntity fuel se).map fun rq => (rq, some se)

def fairEntityTick (fuel : Nat) (rq : FairRq ι) : Option (FairRq ι × Bool) := do
  let rq := rq.updateCurr
  match rq.curr with
  | none => some (rq, false)
  | some c =>
      if rq.nrRunning ≤ 1 then some (rq, false)
      else
        let ran := (rq.task c).sumExecRuntime - (rq.task c).prevSumExecRuntime
        if sliceOf (rq.task c) ≤ ran then some (rq, true)
        else if ran < schedMinPreemptNs then some (rq, false)
        else
          let first ← rq.pickEevdf fuel
          some (rq, first.any fun f =>
            f ≠ c && vtimeBefore (rq.entity f).deadline (rq.entity c).deadline)

/-- The slice stays if it is given as `(uint64_t)-1`. -/
def setAttr (x : Task) (nice policy : Int) (sliceNs : BitVec 64) : Task :=
  { x with nice, policy, slice := if sliceNs ≠ -1 then sliceNs else x.slice }

def fairReweightCurrent (rq : FairRq ι) (nice policy : Int) (sliceNs : BitVec 64) : FairRq ι :=
  match rq.curr with
  | none => rq
  | some se =>
      let rq := rq.updateCurr
      let rq := rq.setTask se (setAttr (rq.task se) nice policy sliceNs)
      let rq := rq.setLoadWeight se nice
      rq.setEntity se { rq.entity se with
        deadline := (rq.entity se).vruntime + rq.deltaFair se (sliceOf (rq.task se)) }

def fairYieldCurrent (rq : FairRq ι) : FairRq ι :=
  match rq.curr with
  | none => rq
  | some se =>
      let rq := rq.updateCurr
      let vslice := rq.deltaFair se (sliceOf (rq.task se))
      let vruntime := (rq.entity se).vruntime + vslice
      (rq.setEntity se { rq.entity se with
        vruntime, deadline := vruntime + vslice }).updateMinVruntime

end FairRq

/-- A CPU's queue, and `prev_pending` while that thread is runnable: preempted and not yet
back in the tree. -/
structure Cpu (ι : Type) where
  rq : FairRq ι
  prevPending : Option ι

/-- A call of a hook. An entity that comes from outside has the fields that it has got there. -/
inductive Hook (ι : Type) where
  | clockUpdate (now : BitVec 64)
  | applyAttr (se : ι) (nice policy : Int) (sliceNs : BitVec 64)
  | enqueue (se : ι) (e : SchedEntity) (x : Task)
  | pick
  | tick
  | block
  | requeue
  | yield
  | reweight (nice policy : Int) (sliceNs : BitVec 64)
  | steal (now : BitVec 64)

/-- `schedule` after `fair_pick`: who ran before and is still runnable waits for its requeue.
Without a thread to run, the current one goes on or the idle thread runs. -/
def Cpu.switch (cpu : Cpu ι) (rq : FairRq ι) : Option ι → Cpu ι
  | none => { cpu with rq }
  | some next => ⟨rq, if cpu.rq.curr = some next then cpu.prevPending else cpu.rq.curr⟩

def Hook.run (fuel : Nat) (cpu : Cpu ι) : Hook ι → Option (Cpu ι)
  | .clockUpdate now => some { cpu with rq := { cpu.rq with clockTask := now } }
  | .applyAttr se nice policy sliceNs =>
      let x := FairRq.setAttr (cpu.rq.task se) (clampNice nice) policy sliceNs
      some { cpu with rq := cpu.rq.setTask se x }
  | .enqueue se e x =>
      (((cpu.rq.setEntity se e).setTask se x).fairEnqueue fuel se).map fun rq => { cpu with rq }
  | .pick => (cpu.rq.fairPick fuel).map fun (rq, next) => cpu.switch rq next
  | .tick => (cpu.rq.fairEntityTick fuel).map fun (rq, _) => { cpu with rq }
  | .block =>
      match cpu.rq.curr with
      | none => none
      | some prev => (cpu.rq.fairBlockCurrent fuel prev).map fun rq => { cpu with rq }
  | .requeue =>
      match cpu.prevPending with
      | none => none
      | some prev => (cpu.rq.fairRequeuePreempted fuel prev).map fun rq => ⟨rq, none⟩
  | .yield => some { cpu with rq := cpu.rq.fairYieldCurrent }
  | .reweight nice policy sliceNs =>
      some { cpu with rq := cpu.rq.fairReweightCurrent (clampNice nice) policy sliceNs }
  | .steal now => (cpu.rq.fairSteal fuel now).map fun (rq, _) => { cpu with rq }

def Cpu.runnable (cpu : Cpu ι) (t : CTree ι) : List ι :=
  cpu.prevPending.toList ++ (cpu.rq.curr.toList ++ t.inorder)

/-- When sched.c calls the hook: what wakes up, is new or was stolen elsewhere is not runnable
here; `schedule` picks after it has put the last preempted thread back. -/
def Hook.Legal (cpu : Cpu ι) (t : CTree ι) : Hook ι → Prop
  | .enqueue se _ _ => se ∉ cpu.runnable t
  | .pick => cpu.prevPending = none
  | .block => cpu.rq.curr ≠ none
  | .requeue => cpu.prevPending ≠ none
  | _ => True

/-- `cfs_rq_init`, and nothing runs. -/
structure CpuInit (cpu : Cpu ι) : Prop where
  root : cpu.rq.cfs.tasksTimeline.rbNode = none
  leftmost : cpu.rq.cfs.tasksTimeline.rbLeftmost = none
  minVruntime : cpu.rq.cfs.minVruntime = 0
  avgVruntime : cpu.rq.cfs.avgVruntime = 0
  avgLoad : cpu.rq.cfs.avgLoad = 0
  nrRunning : cpu.rq.nrRunning = 0
  curr : cpu.rq.curr = none
  minTrail : cpu.rq.minTrail = [0]
  prevPending : cpu.prevPending = none

/-- The states reached by calls in the orders of the scheduler. -/
inductive CpuReach : Cpu ι → Prop where
  | init {cpu : Cpu ι} : CpuInit cpu → CpuReach cpu
  | step {cpu cpu' : Cpu ι} {t : CTree ι} {hook : Hook ι} : CpuReach cpu →
      IsTree cpu.rq.cfs.tasksTimeline t → hook.Legal cpu t →
      Evaluates (fun fuel => hook.run fuel cpu) cpu' → CpuReach cpu'

end NeoKernel.Sched
