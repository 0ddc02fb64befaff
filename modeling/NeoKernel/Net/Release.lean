import NeoKernel.Lib.Ledger
import NeoKernel.Net.Frame
import NeoKernel.Net.Slots

/-!
# A release meets the connection it was begun for

`Machine.ledger` reads the slot machine as the exchange protocol of `NeoKernel.Lib.Ledger`. What
the protocol needs besides is `Settled`: a slot that was never handed out has left no trace that
a release could start from, and only the holder of `table_lock` is in `tcp_alloc`.
-/
namespace NeoKernel.Net
open Lib Function List Option

def closePending (i : Slot) (g : Nat) (st : TcpState) : List (Slot × Nat) :=
  if closeReleases st then [(i, g)] else []

def After.pending : After → List (Slot × Nat)
  | .closeOrphans i g st orphans => closePending i g st ++ orphans
  | _ => []

/-- What a thread is about to do to the slots. A release is pending from the first look
at `sock_gone`, or from the start of `tcp_close`, until its exchange. -/
def claimOf : Pc → Claim Slot
  | .tickState i g _ | .tickReclaimed i g _ => ⟨[(i, g)], none, none⟩
  | .closeOrphans i g st orphans => ⟨closePending i g st ++ orphans, none, none⟩
  | .closeTail i g st => ⟨closePending i g st, none, none⟩
  | .releasing i g after => ⟨(i, g) :: after.pending, none, none⟩
  | .clearing i g after => ⟨after.pending, some (i, g), none⟩
  | .resetOpen i _ => ⟨[], none, some (i, false)⟩
  | .resetGone i _ | .resetRest i _ => ⟨[], none, some (i, true)⟩
  | _ => ⟨[], none, none⟩

theorem claimOf_after (after : After) : claimOf after.pc = ⟨after.pending, none, none⟩ := by
  cases after <;> rfl

variable {θ : Type} {m m' : Machine θ} {th : θ} {i : Slot} {t : Tcb Slot}

namespace Machine

def life (m : Machine θ) (i : Slot) : Life :=
  ⟨(m.conns i).inUse, (m.conns i).reclaimed, m.gen i⟩

def ledger (m : Machine θ) : Ledger Slot θ where
  life := m.life
  claim th := claimOf (m.pc th)
  table := m.table
  freed := m.freed

theorem ledger_setTcb : (m.setTcb i t).ledger =
    m.ledger.setLife i ⟨t.inUse, t.reclaimed, m.gen i⟩ := by
  unfold ledger Ledger.setLife
  congr 1
  funext j
  exact apply_update (fun j t => (⟨t.inUse, t.reclaimed, m.gen j⟩ : Life)) m.conns i t j

theorem ledger_setTcb_of_eq (hu : t.inUse = (m.conns i).inUse)
    (hr : t.reclaimed = (m.conns i).reclaimed) : (m.setTcb i t).ledger = m.ledger := by
  rw [ledger_setTcb, hu, hr]
  exact congrArg (fun l => { m.ledger with life := l }) (update_eq_self i m.life)

theorem ledger_handOut : ((m.handOut i).setTcb i t).ledger =
    m.ledger.setLife i ⟨t.inUse, t.reclaimed, m.gen i + 1⟩ := by
  unfold ledger Ledger.setLife
  congr 1
  funext j
  exact apply_update₂ (fun _ (t : Tcb Slot) g => (⟨t.inUse, t.reclaimed, g⟩ : Life)) m.conns m.gen
    i t (m.gen i + 1) j

theorem ledger_goto [DecidableEq θ] {pc : Pc} :
    (m.goto th pc).ledger = m.ledger.set th (claimOf pc) m.table := by
  unfold ledger Ledger.set
  congr 1
  funext th'
  exact apply_update (fun _ => claimOf) m.pc th pc th'

end Machine

def Pc.reaping : Pc → Bool
  | .reapScan .. | .reapClaim .. => true
  | _ => false

structure Settled {θ : Type} (m : Machine θ) : Prop where
  closed : ∀ i, m.gen i = 0 → (m.conns i).state = .closed
  held : ∀ i, m.gen i = 0 → (m.conns i).sockGone = false
  owned : ∀ i, m.gen i = 0 → m.owned i = false
  queued : ∀ {i c}, c ∈ (m.conns i).acceptQ → 1 ≤ m.gen c
  child : ∀ {th i o}, m.pc th = .openChild i o → 1 ≤ m.gen i
  locked : ∀ {th}, (m.pc th).reaping = true → m.table = some th

variable {pc : Pc}

namespace Settled
open Machine

section

variable (h : Settled m)
include h

theorem setTcb (hst : m.gen i = 0 → t.state = .closed) (hgone : m.gen i = 0 → t.sockGone = false)
    (hq : t.acceptQ ⊆ (m.conns i).acceptQ) : Settled (m.setTcb i t) := by
  refine ⟨?_, ?_, h.owned, fun {j c} => ?_, h.child, h.locked⟩
  · exact (forall_update_iff m.conns fun j t => m.gen j = 0 → t.state = .closed).2
      ⟨hst, fun j _ => h.closed j⟩
  · exact (forall_update_iff m.conns fun j t => m.gen j = 0 → t.sockGone = false).2
      ⟨hgone, fun j _ => h.held j⟩
  · exact (forall_update_iff m.conns fun _ t => c ∈ t.acceptQ → 1 ≤ m.gen c).2
      ⟨fun hc => h.queued (hq hc), fun _ _ => h.queued⟩ j

theorem setTcb_used (hg : 1 ≤ m.gen i) (hq : t.acceptQ ⊆ (m.conns i).acceptQ) :
    Settled (m.setTcb i t) :=
  h.setTcb (fun h0 => absurd h0 (Nat.one_le_iff_ne_zero.1 hg))
    (fun h0 => absurd h0 (Nat.one_le_iff_ne_zero.1 hg)) hq

theorem setLock {holder : Option θ} : Settled (m.setLock i holder) :=
  { h with }

theorem logFree : Settled (m.logFree i) :=
  { h with }

theorem disown : Settled (m.disown i) := by
  refine { h with owned := ?_ }
  exact (forall_update_iff m.owned fun j b => m.gen j = 0 → b = false).2
    ⟨fun _ => rfl, fun j _ => h.owned j⟩

theorem gen_of_owned (howned : m.owned i = true) : 1 ≤ m.gen i := by
  refine Nat.one_le_iff_ne_zero.2 fun hg => ?_
  exact absurd ((h.owned i hg).symm.trans howned) (by decide)

theorem handOut : Settled (m.handOut i) := by
  have hle : ∀ j, m.gen j ≤ (m.handOut i).gen j := by
    intro j
    by_cases hj : j = i
    · rw [hj, gen_handOut_self]
      exact Nat.le_succ _
    · rw [gen_handOut_of_ne hj]
  have hzero : ∀ {j}, (m.handOut i).gen j = 0 → m.gen j = 0 ∧ j ≠ i := by
    intro j hg
    refine ⟨Nat.eq_zero_of_le_zero (hg ▸ hle j), ?_⟩
    rintro rfl
    rw [gen_handOut_self] at hg
    exact Nat.succ_ne_zero _ hg
  refine ⟨fun j hg => h.closed j (hzero hg).1, fun j hg => h.held j (hzero hg).1,
    fun j hg => ?_, fun hc => (h.queued hc).trans (hle _), fun hc => (h.child hc).trans (hle _),
    h.locked⟩
  exact (update_of_ne (hzero hg).2 ..).trans (h.owned j (hzero hg).1)

end

variable [DecidableEq θ]

theorem goto_setTable (h : Settled m) {holder : Option θ}
    (htable : holder = m.table ∨ m.table = none ∨ m.table = some th)
    (hchild : ∀ i o, pc = .openChild i o → 1 ≤ m.gen i)
    (hreap : pc.reaping = true → holder = some th) : Settled ((m.setTable holder).goto th pc) := by
  refine { h with child := fun {th' j o} => ?_, locked := fun {th'} => ?_ }
  · exact (forall_update_iff m.pc fun _ pc => pc = .openChild j o → 1 ≤ m.gen j).2
      ⟨hchild j o, fun _ _ => h.child⟩ th'
  · refine (forall_update_iff m.pc fun th' pc => pc.reaping = true → holder = some th').2
      ⟨hreap, fun th' hth hpc => ?_⟩ th'
    have hlock := h.locked hpc
    rcases htable with rfl | hnone | hown
    · exact hlock
    · rw [hnone] at hlock
      cases hlock
    · rw [hown] at hlock
      exact absurd (some.inj hlock).symm hth

theorem goto (h : Settled m) (hchild : ∀ i o, pc = .openChild i o → 1 ≤ m.gen i)
    (hreap : pc.reaping = true → m.table = some th) : Settled (m.goto th pc) :=
  h.goto_setTable (.inl rfl) hchild hreap

end Settled

structure Leased (t' t : Tcb Slot) : Prop where
  inUse : t'.inUse = t.inUse
  reclaimed : t'.reclaimed = t.reclaimed
  acceptQ : t'.acceptQ ⊆ t.acceptQ

theorem Leased.of_lease {t' t : Tcb Slot} (h : t'.lease = t.lease) : Leased t' t := by
  have hq : t'.acceptQ = t.acceptQ := congrArg Lease.acceptQ h
  exact ⟨congrArg Lease.inUse h, congrArg Lease.reclaimed h, hq ▸ List.Subset.refl _⟩

theorem SockOp.leased (now : Nat) (t : Tcb Slot) (op : SockOp) : Leased (op.run now t) t := by
  cases op with
  | connect dev rand dstN dportN => exact .of_lease (Tcb.lease_tcpConnect ..)
  | listen backlog => exact .of_lease (Tcb.lease_tcpListen ..)
  | accept => exact ⟨rfl, rfl, tail_subset _⟩
  | send data => exact .of_lease (congrArg Kept.lease (Tcb.kept_tcpSend ..))
  | recv len peek => exact .of_lease (Tcb.lease_tcpRecv ..)
  | shutdownWrite => exact .of_lease (Tcb.lease_tcpShutdownWrite ..)
  | txFlush => exact ⟨rfl, rfl, List.Subset.refl _⟩

theorem closeBlock_leased (now : Nat) (st : TcpState) (t : Tcb Slot) :
    Leased (closeBlock now st t) t := by
  unfold closeBlock
  split
  · split
    · exact .of_lease ((congrArg Kept.lease (Tcb.kept_sendFlags ..)).trans rfl)
    · exact .of_lease rfl
  · split
    · exact .of_lease (Tcb.lease_tcpShutdownWrite ..)
    · exact .of_lease rfl

theorem closeBlock_closed (now : Nat) {st : TcpState} {t : Tcb Slot} (h : t.state = .closed) :
    (closeBlock now st t).state = .closed := by
  unfold closeBlock
  split
  · rfl
  · split
    · exact Tcb.tcpShutdownWrite_closed now t h
    · exact h

theorem closeBlock_sockGone (now : Nat) (st : TcpState) (t : Tcb Slot) :
    (closeBlock now st t).sockGone = t.sockGone := by
  unfold closeBlock
  split
  · split
    · exact congrArg Kept.sockGone (Tcb.kept_sendFlags ..)
    · rfl
  · split
    · exact congrArg Lease.sockGone (Tcb.lease_tcpShutdownWrite ..)
    · rfl

theorem closeOrphan_leased (t : Tcb Slot) : Leased (closeOrphan t) t := by
  have h : (closeOrphan t).lease = { t.lease with sockGone := true } :=
    (congrArg Kept.lease (Tcb.kept_sendFlags ..)).trans rfl
  have hq : (closeOrphan t).acceptQ = t.acceptQ := congrArg Lease.acceptQ h
  exact ⟨congrArg Lease.inUse h, congrArg Lease.reclaimed h, hq ▸ List.Subset.refl _⟩

structure Refines {θ : Type} [DecidableEq θ] (m m' : Machine θ) : Prop where
  step : m.ledger.Step m'.ledger
  settled : Settled m'

variable {own : Slot → Ledger.Owner θ} {g now : Nat} {who : AllocFor} {after : After}

namespace Machine

variable {m₁ : Machine θ}

theorem of_whenUnlocked (h : m.whenUnlocked i m₁ = some m') : m' = m₁ := by
  unfold whenUnlocked at h
  split at h
  · exact (some.inj h).symm
  · cases h

theorem of_whenTableFree (h : m.whenTableFree m₁ = some m') : m.table = none ∧ m' = m₁ := by
  unfold whenTableFree at h
  split at h
  · next hfree => exact ⟨hfree, (some.inj h).symm⟩
  · cases h

theorem of_whenIdle {x : Option (Machine θ)} (h : m.whenIdle th x = some m') :
    m.pc th = .idle ∧ x = some m' := by
  unfold whenIdle at h
  split at h
  · next hpc => exact ⟨hpc, h⟩
  · cases h

theorem idle_of_pc (hpc : m.pc th = pc) (h : (claimOf pc).Idle) : (claimOf (m.pc th)).Idle := by
  rw [hpc]
  exact h

theorem pending_of_pc (hex : m.ledger.Exclusive own) (hpc : m.pc th = pc)
    (hm : (i, g) ∈ (claimOf pc).pending) : m.gen i = g ∧ 1 ≤ g := by
  rw [← hpc] at hm
  exact hex.pending hm

theorem settled_tcpSegment (h : Settled m) (s : Segment) :
    Settled { m with conns := tcpSegment now m.conns i s } := by
  have hlease := tcpSegment_lease now m.conns i s
  refine ⟨fun j hg => tcpSegment_closed now m.conns i s (h.closed j hg), fun j hg => ?_, h.owned,
    fun {j c} hc => ?_, h.child, h.locked⟩
  · rcases hlease j with heq | ⟨_, heq⟩
    · exact (congrArg Lease.sockGone heq).trans (h.held j hg)
    · exact (congrArg Lease.sockGone heq).trans (h.held j hg)
  · rcases hlease j with heq | ⟨hst, heq⟩
    · rw [show (tcpSegment now m.conns i s j).acceptQ = _ from congrArg Lease.acceptQ heq] at hc
      exact h.queued hc
    · rw [show (tcpSegment now m.conns i s j).acceptQ = _ from congrArg Lease.acceptQ heq] at hc
      rcases mem_append.1 hc with hc | hc
      · exact h.queued hc
      · -- the child that joins has been handed out, or it would be closed
        rw [mem_singleton.1 hc]
        refine Nat.one_le_iff_ne_zero.2 fun hg => ?_
        rw [h.closed i hg] at hst
        cases hst

theorem ledger_tcpSegment (s : Segment) :
    { m with conns := tcpSegment now m.conns i s }.ledger = m.ledger := by
  have hlife : ({ m with conns := tcpSegment now m.conns i s } : Machine θ).life = m.life := by
    funext j
    rcases tcpSegment_lease now m.conns i s j with heq | ⟨_, heq⟩
    · exact congrArg (fun l : Lease Slot => (⟨l.inUse, l.reclaimed, m.gen j⟩ : Life)) heq
    · exact congrArg (fun l : Lease Slot => (⟨l.inUse, l.reclaimed, m.gen j⟩ : Life)) heq
  exact congrArg (fun l => { m.ledger with life := l }) hlife

variable [DecidableEq θ]

theorem refines_goto {pc₀ : Pc} (hset : Settled m₁) (hm : m₁.ledger = m.ledger)
    (hpc : m.pc th = pc₀) (hold : (claimOf pc₀).Idle) (hnew : (claimOf pc).Idle)
    (hchild : ∀ i o, pc ≠ .openChild i o) (hreap : pc.reaping = true → m.table = some th)
    (hp : ∀ i g, (i, g) ∈ (claimOf pc).pending → m.gen i = g ∧ 1 ≤ g) :
    Refines m (m₁.goto th pc) := by
  have htable : m₁.table = m.table := congrArg Ledger.table hm
  constructor
  · rw [ledger_goto, hm, htable]
    exact .quiet (idle_of_pc hpc hold) hnew hp (.inl rfl)
  · exact hset.goto (fun i o h => absurd h (hchild i o)) (fun h => htable.trans (hreap h))

theorem refines_plain {pc₀ : Pc} (hset : Settled m₁) (hm : m₁.ledger = m.ledger)
    (hpc : m.pc th = pc₀) (hold : (claimOf pc₀).Idle) (hnew : claimOf pc = ⟨[], none, none⟩)
    (hchild : ∀ i o, pc ≠ .openChild i o) (hreap : pc.reaping = true → m.table = some th) :
    Refines m (m₁.goto th pc) := by
  refine refines_goto hset hm hpc hold ?_ hchild hreap ?_
  · rw [hnew]
    exact ⟨rfl, rfl⟩
  · rw [hnew]
    nofun

theorem refines_setTable {pc₀ : Pc} (hset : Settled m₁) (hm : m₁.ledger = m.ledger)
    {holder : Option θ} (hpc : m.pc th = pc₀) (hown : m.table = none ∨ m.table = some th)
    (hold : (claimOf pc₀).Idle) (hnew : claimOf pc = ⟨[], none, none⟩)
    (hchild : ∀ i o, pc ≠ .openChild i o) (hreap : pc.reaping = true → holder = some th) :
    Refines m ((m₁.setTable holder).goto th pc) := by
  have htable : m₁.table = m.table := congrArg Ledger.table hm
  constructor
  · have heq : ((m₁.setTable holder).goto th pc).ledger =
        m.ledger.set th ⟨[], none, none⟩ holder := by
      rw [ledger_goto, hnew, ← hm]
      rfl
    rw [heq]
    exact .quiet (idle_of_pc hpc hold) ⟨rfl, rfl⟩ nofun (.inr hown)
  · exact hset.goto_setTable (.inr (htable ▸ hown)) (fun i o h => absurd h (hchild i o)) hreap

end Machine

theorem After.not_openChild (after : After) (i : Slot) (o : SynOpen) :
    after.pc ≠ .openChild i o := by
  cases after <;> nofun

theorem After.not_reaping (after : After) : after.pc.reaping = false := by
  cases after <;> rfl

namespace Settled
open Machine

variable [DecidableEq θ] {rest : List Slot} {st : TcpState} (h : Settled m)
include h

theorem reapScan {best : Option Slot} (hpc : m.pc th = .reapScan rest best who)
    (hs : m.next th now (.reapScan rest best who) = some m') : Refines m m' := by
  have htable : m.table = some th := h.locked (by rw [hpc]; rfl)
  cases rest with
  | nil =>
      cases best with
      | none =>
          cases hs
          exact refines_setTable h rfl hpc (.inr htable) ⟨rfl, rfl⟩ rfl nofun nofun
      | some b =>
          cases hs
          exact refines_plain h rfl hpc ⟨rfl, rfl⟩ rfl nofun fun _ => htable
  | cons j rest =>
      simp only [Machine.next] at hs
      split at hs <;> cases hs <;>
        exact refines_plain h rfl hpc ⟨rfl, rfl⟩ rfl nofun fun _ => htable

theorem reapClaim (hpc : m.pc th = .reapClaim i who)
    (hs : m.next th now (.reapClaim i who) = some m') : Refines m m' := by
  have htable : m.table = some th := h.locked (by rw [hpc]; rfl)
  simp only [Machine.next] at hs
  split at hs <;> rw [← some.inj hs]
  · next hr =>
      have hset := h.setTcb (t := { m.conns i with reclaimed := true }) (h.closed i) (h.held i)
        (List.Subset.refl _)
      exact refines_setTable hset (ledger_setTcb_of_eq rfl hr.symm) hpc (.inr htable)
        ⟨rfl, rfl⟩ rfl nofun nofun
  · next hr =>
      constructor
      · rw [ledger_goto, ledger_setTcb]
        have hstep := Ledger.Step.reap (idle_of_pc hpc ⟨rfl, rfl⟩) htable
          (Bool.eq_false_of_not_eq_true hr : (m.ledger.life i).reclaimed = false)
        rw [← htable] at hstep
        exact hstep
      · refine Settled.goto ?_ nofun nofun
        exact h.logFree.setTcb (fun _ => rfl) (h.held i) (List.Subset.refl _)

theorem resetGone (hex : m.ledger.Exclusive own) (hpc : m.pc th = .resetGone i who) :
    Refines m ((m.setTcb i { m.conns i with sockGone := false }).goto th (.resetRest i who)) := by
  have htake : (m.ledger.claim th).taking = some (i, true) :=
    congrArg (fun pc => (claimOf pc).taking) hpc
  have hused : { m.life i with inUse := true } = m.life i :=
    congrArg (fun b => ({ m.life i with inUse := b } : Life))
      ((hex.fits_of (hex.taking htake).1).2 rfl).symm
  constructor
  · -- the slot is marked already
    have hstep := Ledger.Step.mark htake
    rw [Ledger.setLife, show m.ledger.life i = m.life i from rfl, hused,
      show m.life i = m.ledger.life i from rfl, update_eq_self] at hstep
    rw [ledger_goto, ledger_setTcb_of_eq (t := { m.conns i with sockGone := false }) rfl rfl]
    exact hstep
  · refine Settled.goto ?_ (by simp) (by simp [Pc.reaping])
    exact h.setTcb (h.closed i) (fun _ => rfl) (List.Subset.refl _)

theorem resetRest (hex : m.ledger.Exclusive own) (hpc : m.pc th = .resetRest i who)
    (hfree : ∀ th' g, (i, g) ∉ (claimOf (m.pc th')).pending)
    (hs : m.next th now (.resetRest i who) = some m') : Refines m m' := by
  have htake : (m.ledger.claim th).taking = some (i, true) :=
    congrArg (fun pc => (claimOf pc).taking) hpc
  have hset : Settled ((m.handOut i).setTcb i (m.conns i).allocRest) := by
    refine h.handOut.setTcb_used ?_ (List.Subset.refl _)
    rw [gen_handOut_self]
    exact Nat.succ_pos _
  have hgo : ∀ pc, claimOf pc = ⟨[], none, none⟩ →
      (∀ j o, pc = .openChild j o → j = i) → pc.reaping = false →
      Refines m ((((m.handOut i).setTcb i (m.conns i).allocRest).setTable none).goto th pc) := by
    intro pc hnew hchild hreap
    constructor
    · have hledger := congrArg (fun L => L.set th ⟨[], none, none⟩ none)
        (ledger_handOut (m := m) (i := i) (t := (m.conns i).allocRest))
      rw [ledger_goto, hnew]
      exact hledger ▸ .finish htake hfree
    · refine hset.goto_setTable (.inr (.inr (hex.taking htake).2)) (fun j o hpc' => ?_)
        (fun hr => absurd (hreap.symm.trans hr) (by decide))
      rw [hchild j o hpc']
      exact (Nat.succ_pos _).trans_eq gen_handOut_self.symm
  cases who with
  | socket =>
      rw [← some.inj hs]
      exact hgo _ rfl nofun rfl
  | syn o =>
      rw [← some.inj hs]
      exact hgo _ rfl (fun j o h => (Pc.openChild.inj h).1.symm) rfl

theorem timer {pc₀ : Pc} {t : Tcb Slot}
    (hpc : m.pc th = pc₀) (hold : (claimOf pc₀).Idle) (hlease : t.lease = (m.conns i).lease)
    (hst : (m.conns i).state = .closed → t.state = .closed) :
    Refines m (((m.setTcb i t).setLock i none).goto th (.tickNext rest)) := by
  have hleased := Leased.of_lease hlease
  have hset : Settled (m.setTcb i t) :=
    h.setTcb (fun hg => hst (h.closed i hg))
      (fun hg => (congrArg Lease.sockGone hlease).trans (h.held i hg)) hleased.acceptQ
  exact refines_plain hset.setLock (ledger_setTcb_of_eq hleased.inUse hleased.reclaimed) hpc hold
    rfl nofun nofun

theorem tickGone (hpc : m.pc th = .tickGone i rest) (hgone : (m.conns i).sockGone = true) :
    Refines m (m.goto th (.tickState i (m.gen i) rest)) := by
  refine refines_goto h rfl hpc ⟨rfl, rfl⟩ ⟨rfl, rfl⟩ nofun nofun fun j g hm => ?_
  obtain ⟨rfl, rfl⟩ := Prod.mk.inj (mem_singleton.1 hm)
  refine ⟨rfl, Nat.one_le_iff_ne_zero.2 fun hg => ?_⟩
  exact absurd ((h.held j hg).symm.trans hgone) (by decide)

theorem closeOrphans (hex : m.ledger.Exclusive own) {o : Slot × Nat} {rest : List (Slot × Nat)}
    (hpc : m.pc th = .closeOrphans i g st (o :: rest))
    (hs : m.next th now (.closeOrphans i g st (o :: rest)) = some m') : Refines m m' := by
  have hleased := closeOrphan_leased (m.conns o.1)
  have hgen := pending_of_pc hex hpc (mem_append_right _ mem_cons_self)
  have hset := h.setTcb_used (hgen.2.trans_eq hgen.1.symm) hleased.acceptQ
  rw [of_whenUnlocked hs]
  refine refines_goto hset.disown (ledger_setTcb_of_eq hleased.inUse hleased.reclaimed) hpc
    ⟨rfl, rfl⟩ ⟨rfl, rfl⟩ nofun nofun fun j g' hm => ?_
  refine pending_of_pc hex hpc (mem_append.2 ?_)
  rcases mem_cons.1 hm with heq | hm
  · rw [heq]
    exact .inr mem_cons_self
  · exact (mem_append.1 hm).imp id (mem_cons_of_mem _)

theorem closeTail (hex : m.ledger.Exclusive own) (hpc : m.pc th = .closeTail i g st)
    (hs : m.next th now (.closeTail i g st) = some m') : Refines m m' := by
  have hleased := closeBlock_leased now st (m.conns i)
  have hset : Settled (m.setTcb i (closeBlock now st (m.conns i))) :=
    h.setTcb (fun hg => closeBlock_closed now (h.closed i hg))
      (fun hg => (closeBlock_sockGone ..).trans (h.held i hg)) hleased.acceptQ
  have hledger := ledger_setTcb_of_eq hleased.inUse hleased.reclaimed
  rw [of_whenUnlocked hs]
  split
  · next hrel =>
      refine refines_goto hset hledger hpc ⟨rfl, rfl⟩ ⟨rfl, rfl⟩ nofun nofun fun j g' hm => ?_
      refine pending_of_pc hex hpc ?_
      rw [claimOf, closePending, if_pos hrel]
      exact hm
  · exact refines_plain hset hledger hpc ⟨rfl, rfl⟩ rfl nofun nofun

theorem releasing (hex : m.ledger.Exclusive own) (hpc : m.pc th = .releasing i g after)
    (hs : m.next th now (.releasing i g after) = some m') : Refines m m' := by
  have hset : Settled (m.setTcb i { m.conns i with reclaimed := true }) :=
    h.setTcb (h.closed i) (h.held i) (List.Subset.refl _)
  rw [← some.inj hs]
  split
  · next hr =>
      -- somebody else has won this slot
      refine refines_goto hset (ledger_setTcb_of_eq rfl hr.symm) hpc ⟨rfl, rfl⟩ ?_
        after.not_openChild ?_ ?_
      · rw [claimOf_after]
        exact ⟨rfl, rfl⟩
      · rw [after.not_reaping]
        nofun
      · rw [claimOf_after]
        exact fun j g' hm => pending_of_pc hex hpc (mem_cons_of_mem _ hm)
  · next hr =>
      have hclaim : m.ledger.claim th = ⟨(i, g) :: after.pending, none, none⟩ :=
        congrArg claimOf hpc
      have hr' : (m.ledger.life i).reclaimed = false := Bool.eq_false_of_not_eq_true hr
      constructor
      · rw [ledger_goto, ledger_setTcb]
        refine .win (idle_of_pc hpc ⟨rfl, rfl⟩) ?_ hr' ?_
        · rw [hclaim]
          exact mem_cons_self
        · rw [hclaim]
          exact subset_cons_self _ _
      · exact hset.goto nofun nofun

theorem clearing (hpc : m.pc th = .clearing i g after)
    (hs : m.next th now (.clearing i g after) = some m') : Refines m m' := by
  rw [(of_whenTableFree hs).2]
  constructor
  · rw [ledger_goto, ledger_setTcb, claimOf_after]
    exact .free (congrArg claimOf hpc)
  · refine Settled.goto ?_ (fun i o heq => absurd heq (after.not_openChild i o)) ?_
    · exact h.logFree.setTcb (fun _ => rfl) (h.held i) (List.Subset.refl _)
    · rw [after.not_reaping]
      nofun

end Settled

namespace Machine

def storing : Pc → Option Slot
  | .resetRest i _ => some i
  | _ => none

/-- When a step may be taken: `tcp_alloc` stores `reclaimed = 0` only while no thread has
decided to release the slot without having tried it. -/
def NoneDecided (m : Machine θ) : SlotAct θ → Prop
  | .step th _ => ∀ i ∈ storing (m.pc th), ∀ th', ∀ p ∈ (claimOf (m.pc th')).pending, p.1 ≠ i
  | _ => True

instance [Fintype θ] (m : Machine θ) (a : SlotAct θ) : Decidable (m.NoneDecided a) := by
  cases a <;> unfold NoneDecided <;> infer_instance

end Machine

namespace Settled
open Machine

variable [DecidableEq θ] (h : Settled m)
include h

theorem next (hex : m.ledger.Exclusive own) (hok : m.NoneDecided (.step th now))
    (hs : m.next th now (m.pc th) = some m') : Refines m m' := by
  simp only [NoneDecided] at hok
  generalize hpc : m.pc th = pc at hs
  cases pc with
  | idle => cases hs
  | reapScan rest best who => exact h.reapScan hpc hs
  | reapClaim b who => exact h.reapClaim hpc hs
  | resetOpen i who =>
      rw [← some.inj hs]
      constructor
      · rw [ledger_goto, ledger_setTcb]
        exact .mark (congrArg (fun pc => (claimOf pc).taking) hpc)
      · refine Settled.goto ?_ nofun nofun
        exact h.setTcb (fun _ => rfl) (h.held i) (nil_subset _)
  | resetGone i who =>
      rw [← some.inj hs]
      exact h.resetGone hex hpc
  | resetRest i who =>
      rw [hpc] at hok
      exact h.resetRest hex hpc (fun th' g hm => hok i rfl th' _ hm rfl) hs
  | openChild i o =>
      rw [of_whenUnlocked hs]
      have hleased := Leased.of_lease (Tcb.lease_openPassive now o.rand (m.conns i) o.l o.localN
        o.remoteN o.lportN o.rportN o.seg)
      exact refines_plain (h.setTcb_used (h.child hpc) hleased.acceptQ)
        (ledger_setTcb_of_eq hleased.inUse hleased.reclaimed) hpc ⟨rfl, rfl⟩ rfl nofun nofun
  | inputFound i s =>
      rw [of_whenUnlocked hs]
      exact refines_plain (settled_tcpSegment h s) (ledger_tcpSegment s) hpc
        ⟨rfl, rfl⟩ rfl nofun nofun
  | tickNext rest =>
      cases rest with
      | nil =>
          rw [← some.inj hs]
          exact refines_plain h rfl hpc ⟨rfl, rfl⟩ rfl nofun nofun
      | cons i rest =>
          rw [← some.inj hs]
          split <;> exact refines_plain h rfl hpc ⟨rfl, rfl⟩ rfl nofun nofun
  | tickLock i rest =>
      rw [of_whenUnlocked hs]
      exact refines_plain h.setLock rfl hpc ⟨rfl, rfl⟩ rfl nofun nofun
  | tickTimewait i rest =>
      simp only [Machine.next] at hs
      split at hs <;> rw [← some.inj hs]
      · exact h.timer hpc ⟨rfl, rfl⟩ rfl (fun _ => rfl)
      · exact refines_plain h rfl hpc ⟨rfl, rfl⟩ rfl nofun nofun
  | tickGone i rest =>
      rw [← some.inj hs]
      split
      · next hgone => exact h.tickGone hpc hgone
      · exact refines_plain h rfl hpc ⟨rfl, rfl⟩ rfl nofun nofun
  | tickState i g rest =>
      rw [← some.inj hs]
      split
      · refine refines_goto h rfl hpc ⟨rfl, rfl⟩ ⟨rfl, rfl⟩ nofun nofun fun j g hm => ?_
        exact pending_of_pc hex hpc hm
      · exact refines_plain h rfl hpc ⟨rfl, rfl⟩ rfl nofun nofun
  | tickReclaimed i g rest =>
      simp only [Machine.next] at hs
      split at hs <;> rw [← some.inj hs]
      · exact refines_plain h rfl hpc ⟨rfl, rfl⟩ rfl nofun nofun
      · refine refines_goto h.setLock rfl hpc ⟨rfl, rfl⟩ ⟨rfl, rfl⟩ nofun nofun fun j g hm => ?_
        exact pending_of_pc hex hpc hm
  | tickDeadlines i rest =>
      rw [← some.inj hs]
      exact h.timer hpc ⟨rfl, rfl⟩ (Tcb.lease_timerDeadlines ..) (Tcb.timerDeadlines_closed now _)
  | closeOrphans i g st orphans =>
      cases orphans with
      | nil =>
          rw [← some.inj hs]
          refine refines_goto h rfl hpc ⟨rfl, rfl⟩ ⟨rfl, rfl⟩ nofun nofun fun j g' hm => ?_
          exact pending_of_pc hex hpc (mem_append_left _ hm)
      | cons o rest => exact h.closeOrphans hex hpc hs
  | closeTail i g st => exact h.closeTail hex hpc hs
  | releasing i g after => exact h.releasing hex hpc hs
  | clearing i g after => exact h.clearing hpc hs

theorem alloc {who : AllocFor} (hs : slotStep m (.alloc th who) = some m') :
    Refines m m' := by
  obtain ⟨hpc, hs⟩ := of_whenIdle hs
  obtain ⟨hfree, rfl⟩ := of_whenTableFree hs
  have hold : (claimOf (m.pc th)).Idle := idle_of_pc hpc ⟨rfl, rfl⟩
  split
  · next i hfind =>
      have hunused : (m.conns i).inUse = false := by
        have := find?_some hfind
        simpa using this
      constructor
      · rw [ledger_goto]
        exact .take hold hfree hunused
      · exact h.goto_setTable (.inr (.inl hfree)) nofun nofun
  · exact refines_setTable h rfl hpc (.inl hfree) ⟨rfl, rfl⟩ rfl nofun fun _ => rfl

theorem close (hs : slotStep m (.close th i) = some m') :
    Refines m m' := by
  obtain ⟨hpc, hs⟩ := of_whenIdle hs
  obtain ⟨howned, hs⟩ := ite_none_right_eq_some.1 hs
  have hgen := h.gen_of_owned howned
  rw [of_whenUnlocked hs]
  have hq : (if (m.conns i).state = .listen then [] else (m.conns i).acceptQ) ⊆
      (m.conns i).acceptQ := by
    split
    · exact nil_subset _
    · exact List.Subset.refl _
  refine refines_goto (h.setTcb_used hgen hq).disown (ledger_setTcb_of_eq rfl rfl) hpc
    ⟨rfl, rfl⟩ ⟨rfl, rfl⟩ nofun nofun fun j g hm => ?_
  rcases mem_append.1 hm with hm | hm
  · unfold closePending at hm
    split at hm
    · obtain ⟨rfl, rfl⟩ := Prod.mk.inj (mem_singleton.1 hm)
      exact ⟨rfl, hgen⟩
    · cases hm
  · split at hm
    · obtain ⟨c, hc, heq⟩ := mem_map.1 hm
      obtain ⟨rfl, rfl⟩ := Prod.mk.inj heq
      exact ⟨rfl, h.queued hc⟩
    · cases hm

theorem sock {op : SockOp}
    (hs : slotStep m (.sock th now i op) = some m') : Refines m m' := by
  obtain ⟨hpc, hs⟩ := of_whenIdle hs
  obtain ⟨howned, hs⟩ := ite_none_right_eq_some.1 hs
  have hgen := h.gen_of_owned howned
  have hleased := SockOp.leased now (m.conns i) op
  rw [of_whenUnlocked hs]
  have hstay : (m.setTcb i (op.run now (m.conns i))).goto th .idle =
      m.setTcb i (op.run now (m.conns i)) := by
    unfold Machine.goto
    rw [← hpc]
    exact congrArg (fun pc => { m.setTcb i (op.run now (m.conns i)) with pc := pc })
      (update_eq_self th m.pc)
  rw [← hstay]
  exact refines_plain (h.setTcb_used hgen hleased.acceptQ)
    (ledger_setTcb_of_eq hleased.inUse hleased.reclaimed) hpc ⟨rfl, rfl⟩ rfl nofun nofun

theorem slotStep (hex : m.ledger.Exclusive own) {a : SlotAct θ} (hok : m.NoneDecided a)
    (hs : Net.slotStep m a = some m') : Refines m m' := by
  cases a with
  | alloc th who => exact h.alloc hs
  | tick th =>
      obtain ⟨hpc, hs⟩ := of_whenIdle hs
      rw [← some.inj hs]
      exact refines_plain h rfl hpc ⟨rfl, rfl⟩ rfl nofun nofun
  | close th i => exact h.close hs
  | input th i s =>
      obtain ⟨hpc, hs⟩ := of_whenIdle hs
      split at hs
      · rw [(of_whenTableFree hs).2]
        exact refines_plain h rfl hpc ⟨rfl, rfl⟩ rfl nofun nofun
      · cases hs
  | sock th now i op => exact h.sock hs
  | step th now => exact h.next hex hok hs

end Settled

namespace Machine

structure Sound (m : Machine θ) : Prop where
  settled : Settled m
  exclusive : ∃ own, m.ledger.Exclusive own

theorem boot_sound : (boot θ).Sound where
  settled := ⟨fun _ _ => rfl, fun _ _ => rfl, fun _ _ => rfl, nofun, nofun, nofun⟩
  exclusive := ⟨fun _ => .nobody, nofun, nofun, fun _ => ⟨nofun, nofun, nofun⟩, nodup_nil, nofun⟩

theorem Sound.of_reach [DecidableEq θ] (hr : (slotSystem θ).Reach NoneDecided m) : m.Sound := by
  refine System.Reach.invariant Sound hr ?_ ?_
  · rintro _ rfl
    exact boot_sound
  · intro m a m' h hok hs
    obtain ⟨own, hex⟩ := h.exclusive
    have hstep := h.settled.slotStep hex hok hs
    exact ⟨hstep.settled, hex.step hstep.step⟩

end Machine

/-- As long as `tcp_alloc` stores `reclaimed = 0` only while no release of that slot has
been decided on and not yet tried, a release meets the incarnation it was begun for, when
it tries the slot and when it marks it free, and no incarnation is freed twice. -/
theorem release_meets_incarnation {θ : Type} [DecidableEq θ] {m : Machine θ}
    (hr : (slotSystem θ).Reach Machine.NoneDecided m) :
    (∀ th i g after, m.pc th = .releasing i g after → m.gen i = g) ∧
      (∀ th i g after, m.pc th = .clearing i g after →
        m.gen i = g ∧ (m.conns i).inUse = true) ∧
      m.freed.Nodup := by
  obtain ⟨own, hex⟩ := (Machine.Sound.of_reach hr).exclusive
  refine ⟨fun th i g after hpc => ?_, fun th i g after hpc => ?_, hex.nodup⟩
  · exact (Machine.pending_of_pc hex hpc mem_cons_self).1
  · obtain ⟨ho, hgen⟩ := hex.winner (congrArg (fun pc => (claimOf pc).winner) hpc)
    exact ⟨hgen, (hex.fits_of ho).1⟩

theorem clearing_of_winner {pc : Pc} {i : Slot} {g : Nat}
    (h : (claimOf pc).winner = some (i, g)) : ∃ after, pc = .clearing i g after := by
  cases pc with
  | clearing j g' after =>
      obtain ⟨rfl, rfl⟩ := Prod.mk.inj (some.inj h)
      exact ⟨after, rfl⟩
  | _ => cases h

def steps {θ : Type} (th : θ) (n : Nat) : List (SlotAct θ) := List.replicate n (.step th 0)

/-- A socket is made and closed, twice, up to the moment before its slot is freed. -/
def twoCloses : List (SlotAct (Fin 2)) :=
  [.alloc 0 .socket] ++ steps 0 3 ++ [.close 0 0] ++ steps 0 4 ++
    [.alloc 0 .socket] ++ steps 0 3 ++ [.close 0 0] ++ steps 0 3

theorem release_meets_incarnation_second :
    ∃ m : Machine (Fin 2), (slotSystem (Fin 2)).Reach Machine.NoneDecided m ∧
      (∃ after, m.pc 0 = .clearing 0 2 after) ∧ m.gen 0 = 2 ∧ (m.conns 0).inUse = true := by
  refine System.Reach.exists_of_run_imp twoCloses rfl (by decide +kernel)
    fun m hr (hwin : (claimOf (m.pc 0)).winner = some (0, 2)) => ?_
  obtain ⟨after, hpc⟩ := clearing_of_winner hwin
  exact ⟨⟨after, hpc⟩, (release_meets_incarnation hr).2.1 0 0 2 after hpc⟩

/-- The timer on CPU 1 decides to release a closed socket and is overtaken: CPU 0
releases the slot, allocates it again, and only then does the timer try it. -/
def staleTick : List (SlotAct (Fin 2)) :=
  [.alloc 0 .socket] ++ steps 0 3 ++ [.close 0 0, .tick 1] ++ steps 1 6 ++ steps 0 4 ++
    [.alloc 0 .socket] ++ steps 0 3 ++ steps 1 1

/-- The timer's release, begun for the first incarnation of the slot, wins the second one
and frees it while its socket is open. -/
theorem stale_release_frees_successor :
    ∃ m : Machine (Fin 2), (slotSystem (Fin 2)).Reach (fun _ _ => True) m ∧
      ((claimOf (m.pc 1)).winner = some (0, 1) ∧ m.gen 0 = 2) ∧
        (slotStep m (.step 1 0)).any (fun m' => m'.owned 0 && !(m'.conns 0).inUse) = true :=
  System.Reach.exists_of_run staleTick rfl (by decide +kernel)

end NeoKernel.Net
