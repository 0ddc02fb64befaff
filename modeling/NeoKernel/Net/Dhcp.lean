import Mathlib.Data.Fintype.Basic
import Mathlib.Data.List.Infix
import NeoKernel.Lib.Trans
import NeoKernel.Lib.Update

/-!
# The DHCP client (kernel/net/dhcp.c)

`dhcp_rx` runs on the threads that input packets, `dhcp_thread` on its own. They share `pending`,
the three flags and `cur_xid`, without a lock, and copy a lease word by word. How long the client
waits is left open.
-/
namespace NeoKernel.Dhcp
open Lib Function List

abbrev Byte := BitVec 8

structure Lease where
  (addrN maskN gwN serverN dnsN leaseSecs t1Secs t2Secs : BitVec 32)
  fromServer : Bool
  deriving DecidableEq

/-- The words of a lease. -/
inductive Word where
  | addrN | maskN | gwN | serverN | dnsN | leaseSecs | t1Secs | t2Secs | fromServer
  deriving DecidableEq

def Lease.put (dst src : Lease) : Word → Lease
  | .addrN => { dst with addrN := src.addrN }
  | .maskN => { dst with maskN := src.maskN }
  | .gwN => { dst with gwN := src.gwN }
  | .serverN => { dst with serverN := src.serverN }
  | .dnsN => { dst with dnsN := src.dnsN }
  | .leaseSecs => { dst with leaseSecs := src.leaseSecs }
  | .t1Secs => { dst with t1Secs := src.t1Secs }
  | .t2Secs => { dst with t2Secs := src.t2Secs }
  | .fromServer => { dst with fromServer := src.fromServer }

def words : List Word :=
  [.addrN, .maskN, .gwN, .serverN, .dnsN, .leaseSecs, .t1Secs, .t2Secs, .fromServer]

theorem foldl_words (dst src : Lease) : words.foldl (·.put src) dst = src := by
  simp only [words, foldl_cons, foldl_nil, Lease.put]

def fallbackMask : BitVec 32 := 0x00FFFFFF#32
def dhcpMagic : BitVec 32 := 0x63825363#32

/-- The length of the fixed part of a message. -/
def msgSize : Nat := 236

def rd32 (b : List Byte) (i : Nat) : BitVec 32 :=
  b.getD (i + 3) 0 ++ b.getD (i + 2) 0 ++ b.getD (i + 1) 0 ++ b.getD i 0

def ntohlK (v : BitVec 32) : BitVec 32 :=
  v.extractLsb' 0 8 ++ v.extractLsb' 8 8 ++ v.extractLsb' 16 8 ++ v.extractLsb' 24 8

/-- The `switch` of `parse` over an option, with the type of the message. -/
def takeOption (code : Nat) (v : List Byte) (r : Nat × Lease) : Nat × Lease :=
  let w := rd32 v 0
  let word (l : Lease) := if v.length = 4 then (r.1, l) else r
  let first (l : Lease) := if 4 ≤ v.length then (r.1, l) else r
  match code with
  | 53 => if v.length = 1 then ((v.getD 0 0).toNat, r.2) else r
  | 1 => word { r.2 with maskN := w }
  | 3 => first { r.2 with gwN := w }
  | 6 => first { r.2 with dnsN := w }
  | 54 => word { r.2 with serverN := w }
  | 51 => word { r.2 with leaseSecs := ntohlK w }
  | 58 => word { r.2 with t1Secs := ntohlK w }
  | 59 => word { r.2 with t2Secs := ntohlK w }
  | _ => r

/-- The loop of `parse`; the length of the message is enough fuel. -/
def parseOptions : Nat → List Byte → Nat × Lease → Option (Nat × Lease)
  | 0, _, r | _, [], r => some r
  | fuel + 1, code :: rest, r =>
      if code = 255 then some r
      else if code = 0 then parseOptions fuel rest r
      else
        match rest with
        | [] => none
        | olen :: rest =>
            if rest.length < olen.toNat then none
            else
              parseOptions fuel (rest.drop olen.toNat)
                (takeOption code.toNat (rest.take olen.toNat) r)

def parse (buf : List Byte) (expectXid : BitVec 32) : Option (Nat × Lease) :=
  if buf.length < msgSize + 4 ∨ buf.getD 0 0 ≠ 2 ∨ rd32 buf 4 ≠ expectXid ∨
      rd32 buf msgSize ≠ ntohlK dhcpMagic then none
  else
    (parseOptions buf.length (buf.drop (msgSize + 4))
      (0, ⟨rd32 buf 16, 0, 0, 0, 0, 0, 0, 0, true⟩)).map fun (type, l) =>
        (type, { l with
          t1Secs := if l.t1Secs = 0 then l.leaseSecs / 2 else l.t1Secs
          t2Secs := if l.t2Secs = 0 then l.leaseSecs / 8 * 7 else l.t2Secs })

/-! ## The client and the receivers -/

inductive Kind where
  | offer
  | ack
  | nak
  deriving DecidableEq

def Kind.of : Nat → Option Kind
  | 2 => some .offer
  | 5 => some .ack
  | 6 => some .nak
  | _ => none

inductive ClientState where
  | init
  | selecting
  | requesting
  | bound
  | renewing
  | rebinding
  deriving DecidableEq

/-- What the client does with the shared variables, one access after the other. -/
inductive Op where
  | drawXid
  | clear (k : Kind)
  | goto (st : ClientState)
  | fallback
  | select
  | test
  | copy (w : Word)
  | install
  deriving DecidableEq

/-- The `case` of each state. -/
def code : ClientState → List Op
  | .init => [.drawXid, .clear .nak, .clear .ack, .clear .offer, .goto .selecting]
  | .selecting => [.fallback, .select]
  | .requesting => [.clear .nak, .clear .ack, .test]
  | .bound => [.goto .renewing]
  | .renewing | .rebinding => [.clear .nak, .clear .ack, .drawXid, .test]

def Op.copies : Op → Bool
  | .copy _ => true
  | _ => false

/-- `install(&pending)` with these words of `pending` still to copy. -/
def installing (ws : List Word) : List Op := ws.map .copy ++ [.install]

/-- Where a thread is in `dhcp_rx`: `left` are the words that are still to be stored. -/
inductive Rx where
  | idle
  | parsed (k : Kind) (l : Lease) (left : List Word)
  deriving DecidableEq

/-- A part of the lease has been stored. -/
def Rx.torn : Rx → Bool
  | .idle => false
  | .parsed _ _ left => left ≠ [] && left ≠ words

def Rx.kind : Rx → Option Kind
  | .idle => none
  | .parsed k _ _ => some k

/-- The message is stored, and its flag is not set yet. -/
def Rx.stored : Rx → Option Kind
  | .parsed k _ [] => some k
  | _ => none

structure Client (τ : Type*) where
  state : ClientState
  todo : List Op
  lease : Lease
  bound : Bool
  curXid : BitVec 32
  -- `offer_ready`, `ack_ready` and `nak_ready`
  ready : Kind → Bool
  pending : Lease
  rx : τ → Rx
  -- the acknowledgements received and the leases installed so far
  acks : List (BitVec 32 × Lease)
  installs : List (BitVec 32 × Lease)

inductive DhcpAct (τ : Type*) where
  | client (late : Bool) (rand : BitVec 32)
  | receive (t : τ) (data : List Byte)
  | store (t : τ)
  | raise (t : τ)

section Step

variable {τ : Type*} [DecidableEq τ] (s : Client τ)

def Client.install (l : Lease) : Client τ :=
  let lease := if l.maskN = 0 then { l with maskN := fallbackMask } else l
  { s with lease, bound := true, state := .bound, installs := (s.curXid, lease) :: s.installs }

def fallbackLease : Lease := ⟨0x0F02000A#32, fallbackMask, 0x0202000A#32, 0, 0, 0, 0, 0, false⟩

def Client.exec (late : Bool) (rand : BitVec 32) : Op → Client τ
  | .drawXid => { s with curXid := rand }
  | .clear k => { s with ready := update s.ready k false }
  | .goto st => { s with state := st }
  | .fallback => if late ∧ !s.bound ∧ !s.ready .offer then s.install fallbackLease else s
  | .select =>
      if s.ready .offer then { s with state := .requesting }
      else if s.bound then { s with state := .init }
      else s
  | .test =>
      if s.ready .ack then { s with todo := installing words }
      else if s.state = .renewing ∧ !s.ready .nak then { s with state := .rebinding }
      else { s with state := .init }
  | .copy w => { s with lease := s.lease.put s.pending w }
  | .install => s.install s.lease

def dhcpStep : DhcpAct τ → Option (Client τ)
  | .client late rand =>
      match s.todo with
      | [] => some { s with todo := code s.state }
      | op :: rest => some ({ s with todo := rest }.exec late rand op)
  | .receive t data =>
      if s.rx t = .idle then
        match parse data s.curXid with
        | none => some s
        | some (type, l) =>
            match Kind.of type with
            | none => some s
            | some k =>
                some { s with
                  rx := update s.rx t (.parsed k l (if k = .nak then [] else words))
                  acks := if k = .ack then (s.curXid, l) :: s.acks else s.acks }
      else none
  | .store t =>
      match s.rx t with
      | .parsed k l (w :: left) =>
          some { s with pending := s.pending.put l w, rx := update s.rx t (.parsed k l left) }
      | _ => none
  | .raise t =>
      match s.rx t with
      | .parsed k _ [] => some { s with ready := update s.ready k true, rx := update s.rx t .idle }
      | _ => none

end Step

def dhcpStart (τ : Type*) : Client τ where
  state := .init
  todo := []
  lease := ⟨0, 0, 0, 0, 0, 0, 0, 0, false⟩
  bound := false
  curXid := 0
  ready _ := false
  pending := ⟨0, 0, 0, 0, 0, 0, 0, 0, false⟩
  rx _ := .idle
  acks := []
  installs := []

def dhcpSystem (τ : Type*) [DecidableEq τ] : System (Client τ) (DhcpAct τ) where
  init s := s = dhcpStart τ
  step := dhcpStep

section Orderly

variable {τ : Type*}

/-- The client waits for an answer, or has seen one that it is about to install. -/
def Waits (todo : List Op) : Prop := todo = [.test] ∨ .install ∈ todo

/-- An acknowledgement is in `pending` that the client waits for. -/
def Client.Acked (s : Client τ) : Prop :=
  Waits s.todo ∧ (s.ready .ack = true ∨ ∃ t, (s.rx t).stored = some .ack)

/-- No message is in `dhcp_rx` when the client clears `ack_ready` or draws an id, and none has been
acknowledged between the two. Nothing is stored to `pending` by two threads at a time or while the
client copies it. An offer is not stored over an acknowledgement, and acknowledgements carry a
mask. -/
def Orderly (s : Client τ) : DhcpAct τ → Prop
  | .client .. =>
      (s.todo.head? = some .drawXid ∨ s.todo.head? = some (.clear .ack) → ∀ t, s.rx t = .idle) ∧
        (s.todo = [.drawXid, .test] → s.ready .ack = false) ∧
        (s.todo.head?.any Op.copies = true → ∀ t, (s.rx t).torn = false)
  | .receive _ data => ∀ r ∈ parse data s.curXid, Kind.of r.1 = some .ack → r.2.maskN ≠ 0
  | .store t =>
      (∀ u, u ≠ t → (s.rx u).torn = false) ∧ s.todo.head?.any Op.copies = false ∧
        ((s.rx t).kind ≠ some .ack → ¬s.Acked)
  | .raise _ => True

end Orderly

theorem installing_inj {ws vs : List Word} (h : installing ws = installing vs) : ws = vs :=
  map_injective_iff.2 (fun _ _ h => Op.copy.inj h) (append_cancel_right h)

theorem install_mem (ws : List Word) : .install ∈ installing ws := by simp [installing]

theorem not_waits_nil : ¬Waits [] := by simp [Waits]

theorem install_not_mem {st : ClientState} {todo : List Op} (h : todo <:+ code st) :
    .install ∉ todo := by
  intro hin
  have hmem := h.subset hin
  revert hmem
  cases st <;> decide

theorem code_suffix {st : ClientState} {op : Op} {rest : List Op} (h : op :: rest <:+ code st) :
    (rest = [.test] → op = .clear .ack ∨ op = .drawXid) ∧ (op = .test → rest = []) ∧
      op ≠ .install ∧ ∀ w, op ≠ .copy w := by
  cases st <;> simp [code, suffix_cons_iff] at h ⊢ <;> grind

/-! ## What is installed -/

section Sound

variable {τ : Type*} {s s' : Client τ} {t : τ}

/-- `torn`: to store the rest makes `pending` the lease of the message. `copied`: to copy the rest
makes the client's lease `pending`. -/
structure Sound (s : Client τ) : Prop where
  todo : (∃ st, s.todo <:+ code st) ∨ (∃ ws, s.todo = installing ws) ∧ s.ready .ack = true
  suffix : ∀ t k l left, s.rx t = .parsed k l left → left <:+ words
  flight : ∀ t l left, s.rx t = .parsed .ack l left → (s.curXid, l) ∈ s.acks
  torn : ∀ t k l left, s.rx t = .parsed k l left → (s.rx t).torn = true →
    left.foldl (·.put l) s.pending = l
  acked : s.Acked → (∀ t, (s.rx t).torn = false) → (s.curXid, s.pending) ∈ s.acks
  copied : ∀ ws, s.todo = installing ws → ws ≠ [] → ws.foldl (·.put s.pending) s.lease = s.pending
  installs : s.todo = [.install] → (s.curXid, s.lease) ∈ s.acks
  masks : ∀ p ∈ s.acks, p.2.maskN ≠ 0
  installed : ∀ p ∈ s.installs, p.2.fromServer = true → p ∈ s.acks

/-- A step of the client after which it has no acknowledgement to install. -/
theorem Sound.next (h : Sound s) (htodo : ∃ st, s'.todo <:+ code st) (hrx : s'.rx = s.rx)
    (hacks : s'.acks = s.acks) (hpending : s'.pending = s.pending)
    (hxid : s'.curXid = s.curXid ∨ ∀ t, s.rx t = .idle)
    (hacked : ¬s'.Acked) (hinst : ∀ p ∈ s'.installs, p ∈ s.installs ∨ p.2.fromServer = false) :
    Sound s' := by
  obtain ⟨st, hst⟩ := htodo
  refine ⟨.inl ⟨st, hst⟩, hrx ▸ h.suffix, fun t l left hl => ?_, ?_, fun ha => absurd ha hacked,
    fun ws hws => absurd (hws ▸ install_mem ws) (install_not_mem hst),
    fun hws => absurd (hws ▸ install_mem []) (install_not_mem hst),
    hacks ▸ h.masks, fun p hp hs => ?_⟩
  · rw [hrx] at hl
    rcases hxid with hxid | hidle
    · rw [hxid, hacks]
      exact h.flight t l left hl
    · cases (hidle t).symm.trans hl
  · rw [hrx, hpending]
    exact h.torn
  · rw [hacks]
    rcases hinst p hp with hp | hp
    · exact h.installed p hp hs
    · cases hp.symm.trans hs

theorem exec_kept (s : Client τ) (late : Bool) (rand : BitVec 32) {op : Op} (htest : op ≠ .test)
    (hinst : op ≠ .install) (hcopy : ∀ w, op ≠ .copy w) :
    let s' := s.exec late rand op
    s'.todo = s.todo ∧ s'.rx = s.rx ∧ s'.acks = s.acks ∧ s'.pending = s.pending ∧
      (s'.curXid = s.curXid ∨ op = .drawXid) ∧
      ∀ p ∈ s'.installs, p ∈ s.installs ∨ p.2.fromServer = false := by
  cases op with
  | drawXid => exact ⟨rfl, rfl, rfl, rfl, .inr rfl, fun p => .inl⟩
  | clear | goto => exact ⟨rfl, rfl, rfl, rfl, .inl rfl, fun p => .inl⟩
  | fallback =>
      dsimp only [Client.exec]
      split
      · refine ⟨rfl, rfl, rfl, rfl, .inl rfl, fun p hp => (mem_cons.1 hp).symm.imp id ?_⟩
        rintro rfl
        rfl
      · exact ⟨rfl, rfl, rfl, rfl, .inl rfl, fun p => .inl⟩
  | select =>
      dsimp only [Client.exec]
      split_ifs <;> exact ⟨rfl, rfl, rfl, rfl, .inl rfl, fun p => .inl⟩
  | test => exact absurd rfl htest
  | copy w => exact absurd rfl (hcopy w)
  | install => exact absurd rfl hinst

variable [DecidableEq τ]

/-- A step of `install`. -/
theorem Sound.copy {late : Bool} {rand : BitVec 32} {ws : List Word} (h : Sound s)
    (hok : Orderly s (.client late rand)) (hws : s.todo = installing ws)
    (hack : s.ready .ack = true)
    (hs : dhcpStep s (.client late rand) = some s') : Sound s' := by
  rw [dhcpStep, hws] at hs
  have hacked : s.Acked := ⟨.inr (hws ▸ install_mem ws), .inl hack⟩
  cases ws with
  | nil =>
      cases hs
      have hmem := h.installs hws
      refine { h with
        todo := .inl ⟨.init, nil_suffix⟩
        acked := fun ha => absurd ha.1 not_waits_nil
        copied := fun vs hvs => absurd (show installing vs = [] from hvs.symm)
          (by simp [installing])
        installs := nofun
        installed := ?_ }
      intro p hp hserver
      rcases mem_cons.1 hp with rfl | hp
      · dsimp only
        rw [if_neg (h.masks _ hmem)]
        exact hmem
      · exact h.installed p hp hserver
  | cons w ws =>
      cases hs
      change Sound { s with todo := installing ws, lease := s.lease.put s.pending w }
      have hwhole := h.copied _ hws (by simp)
      refine { h with
        todo := .inr ⟨⟨ws, rfl⟩, hack⟩
        acked := fun _ => h.acked hacked
        copied := fun vs hvs _ => ?_
        installs := fun hlast => ?_ }
      · obtain rfl := installing_inj hvs
        exact hwhole
      · obtain rfl : ws = [] := by simpa [installing] using hlast
        have hmem := h.acked hacked (hok.2.2 (by rw [hws]; rfl))
        rwa [← hwhole] at hmem

theorem Sound.client {late : Bool} {rand : BitVec 32} (h : Sound s)
    (hok : Orderly s (.client late rand)) (hs : dhcpStep s (.client late rand) = some s') :
    Sound s' := by
  rcases h.todo with ⟨st, hst⟩ | ⟨⟨ws, hws⟩, hack⟩
  · rw [dhcpStep] at hs
    cases htodo : s.todo with
    | nil =>
        rw [htodo] at hs
        cases hs
        refine h.next ⟨s.state, suffix_rfl⟩ rfl rfl rfl (.inl rfl) (fun ha => ?_) fun p => .inl
        have hwaits := ha.1.resolve_right (install_not_mem suffix_rfl)
        revert hwaits
        cases s.state <;> simp [code]
    | cons op rest =>
        rw [htodo] at hs hst
        cases hs
        obtain ⟨hwaits, hlast, hne, hcopy⟩ := code_suffix hst
        have hrest : ∃ st, rest <:+ code st := ⟨st, (suffix_cons op rest).trans hst⟩
        by_cases htest : op = .test
        · subst htest
          obtain rfl := hlast rfl
          rw [Client.exec]
          split
          · next hready =>
              refine { h with
                todo := .inr ⟨⟨words, rfl⟩, hready⟩
                acked := fun ha => h.acked ⟨.inl htodo, ha.2⟩
                copied := fun ws hws _ => ?_
                installs := fun hlast => absurd (installing_inj (show _ = installing [] from hlast))
                  (by simp [words]) }
              obtain rfl := installing_inj hws
              exact foldl_words _ _
          · split <;> exact h.next hrest rfl rfl rfl (.inl rfl)
              (fun ha => not_waits_nil ha.1) fun p => .inl
        · obtain ⟨hkeep, hrx, hacks, hpending, hxid, hinst⟩ :=
            exec_kept { s with todo := rest } late rand htest hne hcopy
          have hidle : op = .clear .ack ∨ op = .drawXid → ∀ t, s.rx t = .idle := by
            rintro (rfl | rfl)
            · exact hok.1 (.inr (congrArg List.head? htodo))
            · exact hok.1 (.inl (congrArg List.head? htodo))
          refine h.next (hkeep ▸ hrest) hrx hacks hpending (hxid.imp id fun hop => hidle (.inr hop))
            ?_ hinst
          rintro ⟨hw, hacked⟩
          rw [hkeep] at hw
          have hr : rest = [.test] := hw.resolve_right (install_not_mem hrest.choose_spec)
          have hop := hwaits hr
          rcases hacked with hready | ⟨t, ht⟩
          · rcases hop with rfl | rfl
            · exact absurd hready (by simp [Client.exec])
            · rw [hr] at htodo
              cases (hok.2.1 htodo).symm.trans hready
          · rw [hrx, hidle hop t] at ht
            cases ht
  · exact h.copy hok hws hack hs

theorem stored_of_update {x : Rx} (h : ∃ u, (update s.rx t x u).stored = some .ack)
    (hx : x.stored ≠ some .ack) : ∃ u, (s.rx u).stored = some .ack := by
  obtain ⟨u, hu⟩ := h
  by_cases hut : u = t
  · rw [hut, update_self] at hu
    exact absurd hu hx
  · rw [update_of_ne hut] at hu
    exact ⟨u, hu⟩

theorem Sound.receive {data : List Byte} (h : Sound s) (hok : Orderly s (.receive t data))
    (hs : dhcpStep s (.receive t data) = some s') : Sound s' := by
  rw [dhcpStep] at hs
  obtain ⟨hidle, hs⟩ := Option.ite_none_right_eq_some.1 hs
  split at hs
  · cases hs
    exact h
  next type l hparse =>
  split at hs
  · cases hs
    exact h
  next k hk =>
  cases hs
  have hsub : s.acks ⊆ if k = .ack then (s.curXid, l) :: s.acks else s.acks := by
    split
    · exact subset_cons_self ..
    · exact List.Subset.refl _
  have hwhole : (Rx.parsed k l (if k = .nak then [] else words)).torn = false := by
    cases k <;> rfl
  have htorn : ∀ u, (update s.rx t (.parsed k l (if k = .nak then [] else words)) u).torn =
      (s.rx u).torn := by
    intro u
    by_cases hu : u = t
    · rw [hu, update_self, hwhole, hidle]
      rfl
    · rw [update_of_ne hu]
  refine ⟨h.todo, fun u k' l' left hl => ?_, fun u l' left hl => ?_,
    fun u k' l' left hl htorn' => ?_,
    fun ha hwhole' => hsub (h.acked ⟨ha.1, ha.2.imp id (stored_of_update · ?_)⟩ fun u => ?_),
    h.copied, fun hlast => hsub (h.installs hlast), fun p hp => ?_,
    fun p hp hserver => hsub (h.installed p hp hserver)⟩
  · rcases update_eq_cases hl with ⟨-, heq⟩ | ⟨-, hl⟩
    · cases heq
      split
      · exact nil_suffix
      · exact suffix_rfl
    · exact h.suffix u k' l' left hl
  · rcases update_eq_cases hl with ⟨-, heq⟩ | ⟨-, hl⟩
    · cases heq
      exact mem_cons_self
    · exact hsub (h.flight u l' left hl)
  · rw [htorn] at htorn'
    rcases update_eq_cases hl with ⟨rfl, -⟩ | ⟨-, hl⟩
    · rw [hidle] at htorn'
      cases htorn'
    · exact h.torn u k' l' left hl htorn'
  · cases k <;> simp [Rx.stored, words]
  · exact (htorn u).symm.trans (hwhole' u)
  · dsimp only at hp
    split at hp
    · next hack =>
        rcases mem_cons.1 hp with rfl | hp
        · exact hok _ hparse (hack ▸ hk)
        · exact h.masks p hp
    · exact h.masks p hp

theorem Sound.store (h : Sound s) (hok : Orderly s (.store t))
    (hs : dhcpStep s (.store t) = some s') : Sound s' := by
  obtain ⟨halone, hnocopy, hack⟩ := hok
  rw [dhcpStep] at hs
  split at hs
  · next k l w left hl =>
      cases hs
      -- to store the rest still makes `pending` the lease, from the first word on
      have hwhole : left.foldl (·.put l) (s.pending.put l w) = l := by
        by_cases hall : w :: left = words
        · exact (congrArg (List.foldl (·.put l) s.pending) hall).trans (foldl_words _ _)
        · exact h.torn t k l _ hl (by rw [hl]; simp [Rx.torn, hall])
      have hother : ∀ u, u ≠ t → (update s.rx t (.parsed k l left) u).torn = false := fun u hu => by
        rw [update_of_ne hu]
        exact halone u hu
      have hsuffix := h.suffix t k l _ hl
      refine { h with
        suffix := fun u k' l' left' hu => ?_
        flight := fun u l' left' hu => ?_
        torn := fun u k' l' left' hu htorn => ?_
        acked := fun ha hnone => ?_
        copied := fun ws hws hne => ?_ }
      · rcases update_eq_cases hu with ⟨-, heq⟩ | ⟨-, hu⟩
        · cases heq
          exact (suffix_cons _ _).trans hsuffix
        · exact h.suffix u k' l' left' hu
      · rcases update_eq_cases hu with ⟨rfl, heq⟩ | ⟨-, hu⟩
        · cases heq
          exact h.flight u l _ hl
        · exact h.flight u l' left' hu
      · by_cases hut : u = t
        · subst hut
          cases (update_self ..).symm.trans hu
          exact hwhole
        · rw [hother u hut] at htorn
          cases htorn
      · have hlast : left = [] := by
          by_contra hne
          have ht : (Rx.parsed k l left).torn = false := by simpa using hnone t
          obtain rfl : left = words := by simpa [Rx.torn, hne] using ht
          exact absurd hsuffix.length_le (by simp)
        subst hlast
        rw [show s.pending.put l w = l from hwhole]
        by_cases hk : k = .ack
        · exact h.flight t l _ (hk ▸ hl)
        · have hkind : (s.rx t).kind ≠ some .ack := by
            rw [hl]
            simpa [Rx.kind] using hk
          refine absurd ⟨ha.1, ha.2.imp id (stored_of_update · ?_)⟩ (hack hkind)
          simpa [Rx.stored] using hk
      · cases ws with
        | nil => exact absurd rfl hne
        | cons w' ws =>
            rw [show s.todo = installing (w' :: ws) from hws] at hnocopy
            cases hnocopy
  · cases hs

theorem Sound.raise (h : Sound s) (hs : dhcpStep s (.raise t) = some s') : Sound s' := by
  rw [dhcpStep] at hs
  split at hs
  · next k l hk =>
      cases hs
      have htorn : ∀ u, (update s.rx t .idle u).torn = (s.rx u).torn := by
        intro u
        by_cases hu : u = t
        · rw [hu, update_self, hk]
          rfl
        · rw [update_of_ne hu]
      refine { h with
        todo := ?_
        suffix := fun u k' l left hu => ?_
        flight := fun u l left hu => ?_
        torn := fun u k' l left hu htorn' => ?_
        acked := fun ha hnone => h.acked ⟨ha.1, ?_⟩ fun u => (htorn u).symm.trans (hnone u) }
      · refine h.todo.imp id (And.imp_right fun hr => ?_)
        change update s.ready k true .ack = true
        rw [update_apply]
        split
        · rfl
        · exact hr
      · rcases update_eq_cases hu with ⟨-, heq⟩ | ⟨-, hu⟩
        · cases heq
        · exact h.suffix u k' l left hu
      · rcases update_eq_cases hu with ⟨-, heq⟩ | ⟨-, hu⟩
        · cases heq
        · exact h.flight u l left hu
      · rcases update_eq_cases hu with ⟨-, heq⟩ | ⟨-, hu⟩
        · cases heq
        · exact h.torn u k' l left hu ((htorn u).symm.trans htorn')
      · rcases ha.2 with hready | hstored
        · rcases update_eq_cases hready with ⟨hack, -⟩ | ⟨-, hready⟩
          · exact .inr ⟨t, by rw [hk, hack]; rfl⟩
          · exact .inl hready
        · exact .inr (stored_of_update hstored (by simp [Rx.stored]))
  · cases hs

end Sound

/-- Every lease installed from a server is what an acknowledgement of the transaction said. -/
theorem installed_was_acked {τ : Type*} [DecidableEq τ] {s : Client τ}
    (hr : (dhcpSystem τ).Reach Orderly s) :
    ∀ p ∈ s.installs, p.2.fromServer = true → p ∈ s.acks := by
  refine (hr.invariant Sound ?_ ?_).installed
  · rintro s rfl
    exact ⟨.inl ⟨.init, nil_suffix⟩, nofun, nofun, nofun, fun ha => absurd ha.1 not_waits_nil,
      fun ws hws => absurd (show installing ws = [] from hws.symm) (by simp [installing]), nofun,
      nofun, nofun⟩
  · intro s a s' h hok hs
    cases a with
    | client late rand => exact h.client hok hs
    | receive t data => exact h.receive hok hs
    | store t => exact h.store hok hs
    | raise t => exact h.raise hs

section Witness

variable {τ : Type*} [Fintype τ] [DecidableEq τ] (s : Client τ)

omit [DecidableEq τ] in
instance : Decidable s.Acked := inferInstanceAs (Decidable ((_ ∨ _) ∧ (_ ∨ _)))

instance (a : DhcpAct τ) : Decidable (Orderly s a) :=
  match a with
  | .client .. => inferInstanceAs (Decidable ((_ → _) ∧ (_ → _) ∧ (_ → _)))
  | .receive _ data => inferInstanceAs (Decidable (∀ r ∈ parse data s.curXid, _ → _))
  | .store t => inferInstanceAs (Decidable ((∀ u, u ≠ t → _) ∧ _ ∧ (_ → _)))
  | .raise _ => inferInstanceAs (Decidable True)

end Witness

/-- A reply that gives the address 10.0.0.`host`. -/
def reply (type host : Byte) : List Byte :=
  [2, 1, 6, 0, 7, 0, 0, 0] ++ List.replicate 8 0 ++ [10, 0, 0, host] ++ List.replicate 216 0 ++
    [0x63, 0x82, 0x53, 0x63, 53, 1, type, 1, 4, 255, 255, 255, 0, 255]

def message (type host : Byte) : List (DhcpAct Unit) :=
  .receive () (reply type host) :: (words.map fun _ => .store ()) ++ [.raise ()]

def client (n : Nat) : List (DhcpAct Unit) := List.replicate n (.client false 7)

/-- The offer of 10.0.0.1 is requested and acknowledged. -/
def acknowledged : List (DhcpAct Unit) := client 6 ++ message 2 1 ++ client 6 ++ message 5 1

theorem installed_was_acked_first : ∃ s, (dhcpSystem Unit).Reach Orderly s ∧
    s.installs.map (·.2.addrN) = [0x0100000A#32] ∧
    ∀ p ∈ s.installs, p.2.fromServer = true → p ∈ s.acks :=
  System.Reach.exists_of_run_and (acknowledged ++ client 11) rfl (by decide +kernel)
    fun _ hr _ => installed_was_acked hr

/-- The offer of a second server comes before the client looks: it is what is installed. -/
theorem offer_installed : ∃ s, (dhcpSystem Unit).Reach (fun _ _ => True) s ∧
    ∃ p ∈ s.installs, p.2.fromServer = true ∧ p ∉ s.acks :=
  System.Reach.exists_of_run (acknowledged ++ message 2 2 ++ client 11) rfl (by decide +kernel)

end NeoKernel.Dhcp
