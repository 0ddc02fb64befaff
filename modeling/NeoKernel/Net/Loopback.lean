import Mathlib.Data.List.Perm.Basic
import NeoKernel.Lib.Trans

/-!
# The loopback device

`loopback_transmit` inputs a packet on the stack of its sender, and an input may transmit again.
Past `LOOPBACK_MAX_DEPTH` a packet is left in `loop_defer`, which the outermost frame of any
thread empties before it returns.
-/
namespace NeoKernel.Net
open Lib Function List

def loopbackMaxDepth : Nat := 4
def loopbackHardDepth : Nat := 8
def loopbackDeferMax : Nat := 64
def loopbackDeferSlot : Nat := 2048

structure LoopPacket where
  dev : Nat
  data : List (BitVec 8)
  deriving DecidableEq

inductive Frame where
  -- in `net_ipv4_input` with the packet it was called for
  | input
  -- in `net_ipv4_input` with a packet of `loop_defer`
  | again
  -- at the top of the loop that empties `loop_defer`
  | drain
  -- past the loop, the depth not yet taken down
  | leave
  deriving DecidableEq

def Frame.inInput : Frame → Bool
  | .input | .again => true
  | .drain | .leave => false

/-- The calls of one thread, the innermost first, and its `net_loop_depth`. -/
structure LoopChain where
  depth : Nat
  frames : List Frame
  deriving DecidableEq

structure Loopback (τ : Type*) where
  chains : τ → LoopChain
  loopDefer : List LoopPacket
  statLoopDropped : Nat
  -- what was transmitted, input and dropped so far
  sent : List LoopPacket
  inputs : List LoopPacket
  lost : List LoopPacket

inductive LoopAct (τ : Type*) where
  | transmit (t : τ) (p : LoopPacket)
  -- `net_ipv4_input` returns to its innermost frame
  | inputDone (t : τ)
  | lock (t : τ)
  | leave (t : τ)

section Step

variable {τ : Type*} [DecidableEq τ] (s : Loopback τ) (t : τ) (p : LoopPacket)

def Loopback.deliver : Loopback τ :=
  let c := s.chains t
  { s with
    chains := update s.chains t ⟨c.depth + 1, .input :: c.frames⟩
    sent := p :: s.sent
    inputs := p :: s.inputs }

def loopbackTransmit : Loopback τ :=
  let depth := (s.chains t).depth
  if loopbackMaxDepth ≤ depth ∧ loopbackDeferSlot < p.data.length ∧ depth < loopbackHardDepth then
    s.deliver t p
  else if loopbackMaxDepth ≤ depth then
    if s.loopDefer.length < loopbackDeferMax ∧ p.data.length ≤ loopbackDeferSlot then
      { s with loopDefer := s.loopDefer ++ [p], sent := p :: s.sent }
    else
      { s with
        statLoopDropped := (s.statLoopDropped + 1) % 2 ^ 64
        sent := p :: s.sent
        lost := p :: s.lost }
  else s.deliver t p

def loopStep : LoopAct τ → Option (Loopback τ)
  | .transmit t p =>
      if (s.chains t).frames.head?.all Frame.inInput then some (loopbackTransmit s t p) else none
  | .inputDone t =>
      match s.chains t with
      | ⟨d, .input :: fs⟩ =>
          let next := if d = 1 then .drain else .leave
          some { s with chains := update s.chains t ⟨d, next :: fs⟩ }
      | ⟨d, .again :: fs⟩ => some { s with chains := update s.chains t ⟨d, .drain :: fs⟩ }
      | _ => none
  | .lock t =>
      match s.chains t, s.loopDefer with
      | ⟨d, .drain :: fs⟩, [] => some { s with chains := update s.chains t ⟨d, .leave :: fs⟩ }
      | ⟨d, .drain :: fs⟩, p :: ps =>
          some { s with
            chains := update s.chains t ⟨d, .again :: fs⟩
            loopDefer := ps
            inputs := p :: s.inputs }
      | _, _ => none
  | .leave t =>
      match s.chains t with
      | ⟨d, .leave :: fs⟩ => some { s with chains := update s.chains t ⟨d - 1, fs⟩ }
      | _ => none

end Step

def loopSystem (τ : Type*) [DecidableEq τ] : System (Loopback τ) (LoopAct τ) where
  init s := s = ⟨fun _ => ⟨0, []⟩, [], 0, [], [], []⟩
  step := loopStep

/-- The counter is the length of the chain, and only its innermost call is out of an input. -/
structure LoopChain.Ok (c : LoopChain) : Prop where
  depth : c.depth = c.frames.length
  bound : c.frames.length ≤ loopbackHardDepth
  below : ∀ f ∈ c.frames.tail, f.inInput

/-- The outermost call has not seen the queue empty. -/
def LoopChain.Drains (c : LoopChain) : Prop :=
  ∃ f, c.frames.getLast? = some f ∧ f ≠ .leave

structure Loopback.Inv {τ : Type*} (s : Loopback τ) : Prop where
  ok : ∀ t, (s.chains t).Ok
  drained : s.loopDefer ≠ [] → ∃ t, (s.chains t).Drains
  accounted : (s.inputs ++ s.loopDefer ++ s.lost).Perm s.sent
  counted : s.statLoopDropped = s.lost.length % 2 ^ 64

section Chain

variable {d d' : Nat} {f g : Frame} {fs : List Frame} {c : LoopChain}

theorem LoopChain.Ok.top (h : Ok ⟨d, f :: fs⟩) : Ok ⟨d, g :: fs⟩ := ⟨h.depth, h.bound, h.below⟩

theorem LoopChain.Ok.push (h : c.Ok) (hd : c.depth < loopbackHardDepth)
    (hin : c.frames.head?.all Frame.inInput) : Ok ⟨c.depth + 1, .input :: c.frames⟩ := by
  refine ⟨congrArg Nat.succ h.depth, Nat.succ_le_of_lt (h.depth ▸ hd), ?_⟩
  intro f hf
  obtain ⟨d, _ | ⟨g, fs⟩⟩ := c
  · cases hf
  · rcases mem_cons.mp hf with rfl | hf
    · exact hin
    · exact h.below f hf

theorem LoopChain.Ok.pop (h : Ok ⟨d, f :: fs⟩) : Ok ⟨d - 1, fs⟩ := by
  refine ⟨congrArg Nat.pred h.depth, Nat.le_of_succ_le h.bound, ?_⟩
  intro g hg
  exact h.below g (mem_of_mem_tail hg)

/-- A call that is not the outermost one says nothing of the outermost one. -/
theorem LoopChain.drains_top (hg : g ≠ .leave ∨ fs ≠ []) (h : Drains ⟨d, f :: fs⟩) :
    Drains ⟨d', g :: fs⟩ := by
  cases fs with
  | nil => exact ⟨g, rfl, hg.resolve_right (absurd rfl)⟩
  | cons a as => exact h

theorem LoopChain.Drains.push (h : c.Drains) : Drains ⟨d, f :: c.frames⟩ := by
  obtain ⟨g, hg, hne⟩ := h
  exact ⟨g, by rw [getLast?_cons, hg]; rfl, hne⟩

theorem LoopChain.Drains.pop (h : Drains ⟨d, .leave :: fs⟩) : Drains ⟨d', fs⟩ := by
  cases fs with
  | nil =>
      obtain ⟨g, hg, hne⟩ := h
      exact absurd (Option.some.inj hg).symm hne
  | cons a as => exact h

theorem LoopChain.Ok.drains (h : c.Ok) (hd : loopbackMaxDepth ≤ c.depth) : c.Drains := by
  obtain ⟨d, fs⟩ := c
  have hlen : loopbackMaxDepth ≤ fs.length := h.depth ▸ hd
  match fs, hlen with
  | _ :: f :: fs, _ =>
      have hne : f :: fs ≠ [] := cons_ne_nil f fs
      refine ⟨(f :: fs).getLast hne, by rw [← getLast?_eq_some_getLast]; rfl, ?_⟩
      intro hl
      have hin := h.below _ (getLast_mem hne)
      rw [hl] at hin
      cases hin

end Chain

section Inv

variable {τ : Type*} [DecidableEq τ] {s s' : Loopback τ} {t : τ} {p : LoopPacket} {c : LoopChain}

/-- A step that changes the calls of one thread and no packet. -/
theorem Loopback.Inv.move (h : s.Inv) (hc : c.Ok)
    (hd : s.loopDefer ≠ [] → (s.chains t).Drains → c.Drains) :
    Inv { s with chains := update s.chains t c } := by
  refine { h with ok := ?_, drained := ?_ }
  · exact (forall_update_iff s.chains fun _ c => c.Ok).mpr ⟨hc, fun b _ => h.ok b⟩
  · intro hq
    obtain ⟨b, hdrains⟩ := h.drained hq
    refine ⟨b, ?_⟩
    change (update s.chains t c b).Drains
    by_cases hb : b = t
    · rw [hb] at hdrains ⊢
      rw [update_self]
      exact hd hq hdrains
    · rwa [update_of_ne hb]

theorem Loopback.Inv.deliver (h : s.Inv) (hd : (s.chains t).depth < loopbackHardDepth)
    (hin : (s.chains t).frames.head?.all Frame.inInput) : (s.deliver t p).Inv := by
  have hmove := h.move ((h.ok t).push hd hin) fun _ hdrains => hdrains.push
  exact { hmove with accounted := h.accounted.cons p }

theorem Loopback.Inv.transmit (h : s.Inv) (hin : (s.chains t).frames.head?.all Frame.inInput) :
    (loopbackTransmit s t p).Inv := by
  unfold loopbackTransmit
  dsimp only
  split
  · next hd => exact h.deliver hd.2.2 hin
  · split
    · next hd =>
        split
        · refine { h with drained := fun _ => ⟨t, (h.ok t).drains hd⟩, accounted := ?_ }
          refine .trans ?_ (h.accounted.cons p)
          rw [← append_assoc, append_assoc _ [p]]
          exact perm_middle
        · refine { h with accounted := perm_middle.trans (h.accounted.cons p), counted := ?_ }
          rw [h.counted, length_cons, Nat.mod_add_mod]
    · next hd =>
        exact h.deliver (Nat.lt_trans (Nat.lt_of_not_le hd) (by decide)) hin

theorem Loopback.Inv.step {a : LoopAct τ} (h : s.Inv) (hs : loopStep s a = some s') : s'.Inv := by
  cases a with
  | transmit t p =>
      obtain ⟨hin, hs⟩ := Option.ite_none_right_eq_some.mp hs
      cases hs
      exact h.transmit hin
  | inputDone t =>
      have hok := h.ok t
      rw [loopStep] at hs
      split at hs
      · next d fs hc =>
          cases hs
          rw [hc] at hok
          refine h.move hok.top fun _ hdrains => ?_
          rw [hc] at hdrains
          refine LoopChain.drains_top ?_ hdrains
          -- the outermost call is the one that finds its depth 1
          cases fs with
          | nil =>
              have hd : d = 1 := hok.depth
              exact .inl (by rw [if_pos hd]; nofun)
          | cons f fs => exact .inr (cons_ne_nil f fs)
      · next d fs hc =>
          cases hs
          rw [hc] at hok
          exact h.move hok.top fun _ hdrains => LoopChain.drains_top (.inl nofun) (hc ▸ hdrains)
      · cases hs
  | lock t =>
      have hok := h.ok t
      rw [loopStep] at hs
      split at hs
      · next d fs hc hq =>
          cases hs
          rw [hc] at hok
          exact h.move hok.top fun hne => absurd hq hne
      · next d fs p ps hc hq =>
          cases hs
          rw [hc] at hok
          have hmove : Loopback.Inv _ := h.move (c := ⟨d, .again :: fs⟩) hok.top
            fun _ hdrains => LoopChain.drains_top (.inl nofun) (hc ▸ hdrains)
          refine { hmove with
            drained := fun _ => hmove.drained (hq ▸ cons_ne_nil p ps), accounted := ?_ }
          refine .trans ?_ h.accounted
          rw [hq]
          exact (perm_middle.append_right s.lost).symm
      · cases hs
  | leave t =>
      have hok := h.ok t
      rw [loopStep] at hs
      split at hs
      · next d fs hc =>
          cases hs
          rw [hc] at hok
          exact h.move hok.pop fun _ hdrains => LoopChain.Drains.pop (hc ▸ hdrains)
      · cases hs

end Inv

/-- However the inputs transmit and the threads interleave, a chain nests to the hard depth at
most, each packet is input once, waits or is counted as dropped, and none waits when no call is
under way. -/
theorem loopback_delivers {τ : Type*} [DecidableEq τ] {s : Loopback τ}
    (hr : (loopSystem τ).Reach (fun _ _ => True) s) :
    (∀ t, (s.chains t).frames.length ≤ loopbackHardDepth) ∧
      (s.inputs ++ s.loopDefer ++ s.lost).Perm s.sent ∧ s.statLoopDropped = s.lost.length % 2 ^ 64 ∧
      ((∀ t, (s.chains t).frames = []) → s.loopDefer = [] ∧ (s.inputs ++ s.lost).Perm s.sent) := by
  have h : s.Inv := by
    refine hr.invariant Loopback.Inv ?_ fun _ _ _ h _ hs => h.step hs
    rintro _ rfl
    exact ⟨fun _ => ⟨rfl, Nat.zero_le _, nofun⟩, absurd rfl, .nil, rfl⟩
  refine ⟨fun t => (h.ok t).bound, h.accounted, h.counted, fun hquiet => ?_⟩
  have hempty : s.loopDefer = [] := by
    by_contra hne
    obtain ⟨t, f, hf, -⟩ := h.drained hne
    rw [hquiet t] at hf
    cases hf
  exact ⟨hempty, by simpa only [hempty, append_nil] using h.accounted⟩

theorem loopback_delivers_nested : ∃ s : Loopback Unit,
    (loopSystem Unit).Reach (fun _ _ => True) s ∧ s.sent.length = 5 ∧
      (s.inputs ++ s.lost).Perm s.sent := by
  refine System.Reach.exists_of_run_imp (.replicate 5 (.transmit () ⟨0, []⟩) ++
    (List.replicate 3 [.inputDone (), .leave ()]).flatten ++
    [.inputDone (), .lock (), .inputDone (), .lock (), .leave ()]) rfl (by decide)
    fun s hr (hs : (s.chains ()).frames = [] ∧ s.sent.length = 5) => ⟨hs.2, ?_⟩
  exact ((loopback_delivers hr).2.2.2 fun _ => hs.1).2

end NeoKernel.Net
