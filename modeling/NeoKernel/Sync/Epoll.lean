import Mathlib.Data.BitVec
import Mathlib.Data.List.Basic
import NeoKernel.Errno

/-!
# epoll sets and the scan of one descriptor (kernel/sync/epoll.c, kernel/syscall/sys_poll.c)

`poll_core` keeps a `struct pollfd`, a `struct poll_edge` and a registration for each index; here
they are one slot. The functions are the parts of `poll_core` and `epoll_wait` that run without a
pause; put together they are one call over descriptors that do not change.
-/
namespace NeoKernel.Poll
open List

abbrev Mask := BitVec 16

def pollin : Mask := 0x001
def pollerr : Mask := 0x008
def pollhup : Mask := 0x010
def pollnval : Mask := 0x020

def epollet : BitVec 32 := 0x80000000

structure Slot where
  fd : Int
  events : Mask
  revents : Mask
  et : Bool
  last : Mask
  seq : Nat
  haveSeq : Bool
  gen : BitVec 32
  data : BitVec 64
  registered : Bool
  deriving DecidableEq

namespace Slot

def want (x : Slot) : Mask := x.events ||| pollerr ||| pollhup

/-- What `file_poll` answers; `none` is a descriptor that is not open. -/
def got (x : Slot) : Option Mask → Mask
  | none => pollnval
  | some ready => ready &&& x.want

/-- The counter that was sampled differs from the one of the last scan, or there is none. -/
def armed (x : Slot) (seq : Option Nat) : Bool := !x.haveSeq || seq != some x.seq

/-- The body of the scan, with the counter sampled before the descriptor was polled. -/
def scan (x : Slot) (seq : Option Nat) (got : Mask) : Slot :=
  let rev := got &&& (x.events ||| pollerr ||| pollhup ||| pollnval)
  if x.et then
    let last := if x.armed seq then 0 else x.last
    { x with revents := rev &&& ~~~last, last := rev, seq := seq.getD 0, haveSeq := seq.isSome }
  else { x with revents := rev }

end Slot

structure Entry where
  fd : Int
  events : BitVec 32
  data : BitVec 64
  lastReady : Mask
  lastSeq : Nat
  haveSeq : Bool
  gen : BitVec 32
  deriving DecidableEq

namespace Entry

/-- `EPOLL_POLL_BITS` of the events, as the `short` of a `struct pollfd`. -/
def pollEvents (e : Entry) : Mask := (e.events &&& 0xffff).truncate 16

def edge (e : Entry) : Bool := e.events &&& epollet != 0

def slot (e : Entry) : Slot where
  fd := e.fd
  events := e.pollEvents
  revents := 0
  et := e.edge
  last := e.lastReady
  seq := e.lastSeq
  haveSeq := e.haveSeq
  gen := e.gen
  data := e.data
  registered := false

def absorb (e : Entry) (x : Slot) : Entry :=
  { e with lastReady := x.last, lastSeq := x.seq, haveSeq := x.haveSeq }

end Entry

/-- `struct epoll_obj`; `nfds` is the length of the list. -/
structure EpollObj where
  list : List Entry
  genCtr : BitVec 32

inductive CtlOp where
  | add
  | mod
  | del
  deriving DecidableEq

namespace EpollObj

/-- `epoll_ctl_do` up to its notification. -/
def ctl (o : EpollObj) (op : CtlOp) (fd : Int) (events : BitVec 32) (data : BitVec 64) :
    Except Errno EpollObj :=
  let fresh : Entry := ⟨fd, events, data, 0, 0, false, o.genCtr + 1⟩
  match op, o.list.find? (·.fd = fd) with
  | .add, some _ => .error .eexist
  | .add, none => .ok ⟨o.list ++ [fresh], o.genCtr + 1⟩
  | .mod, none => .error .enoent
  | .mod, some _ =>
      .ok ⟨o.list.replaceF fun e => if e.fd = fd then some fresh else none, o.genCtr + 1⟩
  | .del, none => .error .enoent
  | .del, some _ => .ok { o with list := o.list.eraseP (·.fd = fd) }

def snapshot (o : EpollObj) (maxevents : Nat) : List Slot := (o.list.take maxevents).map Entry.slot

def writebackOne (x : Slot) (l : List Entry) : List Entry :=
  l.replaceF fun e => if e.fd = x.fd ∧ e.gen = x.gen then some (e.absorb x) else none

def edgesWriteback (o : EpollObj) (slots : List Slot) : EpollObj :=
  { o with list := slots.foldl (fun l x => if x.et then writebackOne x l else l) o.list }

end EpollObj

structure EpollEvent where
  events : Mask
  data : BitVec 64
  deriving DecidableEq

def readyCount (slots : List Slot) : Nat := slots.countP (·.revents ≠ 0)

/-- A closed descriptor is counted but not reported. -/
def Slot.reported (x : Slot) : Bool := x.revents != 0 && x.revents != pollnval

/-- The events copied out after a scan that found `ready` slots. -/
def collect (ready : Nat) (slots : List Slot) : List EpollEvent :=
  ((slots.filter Slot.reported).map fun x => ⟨x.revents, x.data⟩).take ready

structure File where
  ready : Mask
  seq : Option Nat
  valid : ready &&& pollnval = 0

def Slot.visit (files : Int → Option File) (x : Slot) : Slot :=
  if x.fd < 0 then { x with revents := 0 }
  else x.scan ((files x.fd).bind File.seq) (x.got ((files x.fd).map File.ready))

inductive Answer where
  | error (e : Errno)
  | events (out : List EpollEvent)
  /-- Only closed descriptors were found: the set is copied and scanned again. -/
  | retry
  /-- Nothing was found: the call sleeps, or returns 0 when its timeout is 0. -/
  | nothing
  deriving DecidableEq

/-- `epoll_wait_core` up to its first sleep or return, and the set it leaves. -/
def epollWait (files : Int → Option File) (o : EpollObj) (maxevents : Int) : Answer × EpollObj :=
  if maxevents ≤ 0 then (.error .einval, o)
  else
    let slots := (o.snapshot maxevents.toNat).map (Slot.visit files)
    let out := collect (readyCount slots) slots
    (if readyCount slots = 0 then .nothing else if out = [] then .retry else .events out,
      o.edgesWriteback slots)

def epollWaits (files : Int → Option File) : EpollObj → List Int → List Answer
  | _, [] => []
  | o, m :: ms => (epollWait files o m).1 :: epollWaits files (epollWait files o m).2 ms

section Calls

variable {files : Int → Option File} {o : EpollObj} {e : Entry} {f : File} {x : Slot}
  {slots : List Slot} {ev : EpollEvent} {out : List EpollEvent}

theorem got_scan_mask (x : Slot) (ready : Mask) :
    x.got (some ready) &&& (x.events ||| pollerr ||| pollhup ||| pollnval) = ready &&& x.want := by
  unfold Slot.got Slot.want
  ext i
  simp only [BitVec.getElem_and, BitVec.getElem_or]
  grind

theorem scan_revents_subset (x : Slot) (seq : Option Nat) (got : Mask) :
    (x.scan seq got).revents &&& got = (x.scan seq got).revents := by
  unfold Slot.scan
  dsimp only
  split <;>
  · ext i
    simp only [BitVec.getElem_and]
    grind

theorem reported_of_ready (hx : x.revents ≠ 0) (hsub : x.revents &&& f.ready = x.revents) :
    x.reported = true := by
  have hnval : x.revents ≠ pollnval := by
    intro h
    have hv := f.valid
    rw [h] at hsub
    rw [BitVec.and_comm, hsub] at hv
    exact absurd hv (by decide)
  simpa [Slot.reported, hnval] using hx

/-- What an edge-triggered registration has reported for this count already. -/
def Entry.told (e : Entry) (seq : Option Nat) : Mask :=
  if e.edge && !e.slot.armed seq then e.lastReady else 0

/-- The descriptor is open and has something the registration asks for and was not told. -/
def Entry.Shows (files : Int → Option File) (e : Entry) : Prop :=
  0 ≤ e.fd ∧ ∃ f, files e.fd = some f ∧ f.ready &&& e.slot.want &&& ~~~e.told f.seq ≠ 0

theorem Entry.shows_of_level (he : e.edge = false) (hfd : 0 ≤ e.fd) (hf : files e.fd = some f)
    (hready : f.ready &&& e.pollEvents ≠ 0) : e.Shows files := by
  refine ⟨hfd, f, hf, fun h0 => hready ?_⟩
  ext j hj
  have hj0 : (f.ready &&& e.slot.want &&& ~~~e.told f.seq)[j] = (0 : Mask)[j] :=
    congrArg (fun v : Mask => v[j]) h0
  simp only [told, he, Bool.false_and, Bool.false_eq_true, if_false, Slot.want, slot,
    BitVec.getElem_and, BitVec.getElem_or, BitVec.getElem_not] at hj0 ⊢
  grind

theorem visit_revents (hfd : 0 ≤ e.fd) (hf : files e.fd = some f) :
    (e.slot.visit files).revents = f.ready &&& e.slot.want &&& ~~~e.told f.seq := by
  have hneg : ¬ e.slot.fd < 0 := Int.not_lt.2 hfd
  have hopen : files e.slot.fd = some f := hf
  have het : e.slot.et = e.edge := rfl
  rw [Slot.visit, if_neg hneg, hopen]
  dsimp only [Option.map_some, Option.bind_some]
  unfold Slot.scan Entry.told
  rw [got_scan_mask, het]
  cases e.edge with
  | false =>
      have hones : ~~~(0 : Mask) = BitVec.allOnes 16 := by decide
      simp only [Bool.false_and, Bool.false_eq_true, if_false, hones, BitVec.and_allOnes]
  | true => cases e.slot.armed f.seq <;> rfl

theorem visit_reported (h : (x.visit files).reported = true) :
    ∃ f, files x.fd = some f ∧ (x.visit files).revents ≠ 0 ∧
      (x.visit files).revents &&& f.ready = (x.visit files).revents := by
  obtain ⟨hne, hnval⟩ : (x.visit files).revents ≠ 0 ∧ (x.visit files).revents ≠ pollnval := by
    simpa [Slot.reported] using h
  by_cases hfd : x.fd < 0
  · rw [Slot.visit, if_pos hfd] at hne
    exact absurd rfl hne
  have hvisit := scan_revents_subset x ((files x.fd).bind File.seq)
    (x.got ((files x.fd).map File.ready))
  rw [Slot.visit, if_neg hfd] at hne hnval ⊢
  cases hf : files x.fd with
  | none =>
      rw [hf] at hvisit hne hnval
      -- the answer of a closed descriptor is one bit, so what is reported is all of it
      have hbit : ∀ m : Mask, m &&& pollnval = m → m = 0 ∨ m = pollnval := by
        intro m hm
        have hm' := BitVec.and_twoPow m 5
        rw [show BitVec.twoPow 16 5 = pollnval from rfl, hm] at hm'
        split at hm'
        · exact .inr hm'
        · exact .inl hm'
      exact absurd (hbit _ hvisit) (not_or.2 ⟨hne, hnval⟩)
  | some f =>
      rw [hf] at hvisit hne
      refine ⟨f, rfl, hne, ?_⟩
      rw [← hvisit]
      ext i
      simp only [Option.map_some, Slot.got, BitVec.getElem_and]
      grind

theorem visit_reported_iff : (e.slot.visit files).reported = true ↔ e.Shows files := by
  constructor
  · intro h
    obtain ⟨f, hf, hne, -⟩ := visit_reported h
    have hfd : 0 ≤ e.fd := by
      by_contra hneg
      have hneg' : e.slot.fd < 0 := Int.not_le.1 hneg
      rw [Slot.visit, if_pos hneg'] at hne
      exact hne rfl
    exact ⟨hfd, f, hf, visit_revents hfd hf ▸ hne⟩
  · rintro ⟨hfd, f, hf, hne⟩
    have hrev := visit_revents hfd hf
    refine reported_of_ready (f := f) (hrev ▸ hne) ?_
    rw [hrev]
    ext j
    simp only [BitVec.getElem_and]
    grind

theorem mem_collect {ready : Nat} (h : ev ∈ collect ready slots) :
    ∃ x ∈ slots, x.reported = true ∧ ev = ⟨x.revents, x.data⟩ := by
  obtain ⟨x, hx, rfl⟩ := mem_map.1 (mem_of_mem_take h)
  exact ⟨x, mem_of_mem_filter hx, of_mem_filter hx, rfl⟩

theorem readyCount_pos (hx : x ∈ slots) (hr : x.revents ≠ 0) : 0 < readyCount slots :=
  countP_pos_iff.2 ⟨x, hx, decide_eq_true hr⟩

theorem collect_ne_nil (hx : x ∈ slots) (hr : x.reported = true) :
    collect (readyCount slots) slots ≠ [] := by
  have hne : x.revents ≠ 0 := by
    intro h
    simp [Slot.reported, h] at hr
  have hpos := readyCount_pos hx hne
  have hmem : x ∈ slots.filter Slot.reported := mem_filter.2 ⟨hx, hr⟩
  unfold collect
  rw [Ne, take_eq_nil_iff, map_eq_nil_iff, not_or]
  exact ⟨Nat.ne_of_gt hpos, ne_nil_of_mem hmem⟩

/-! The write-back leaves what a registration asks for. -/

def Entry.request (e : Entry) : Int × BitVec 32 × BitVec 64 := (e.fd, e.events, e.data)

theorem map_replaceF {α β : Type} (key : α → β) (p : α → Option α)
    (hp : ∀ a b, p a = some b → key b = key a) (l : List α) :
    (l.replaceF p).map key = l.map key := by
  induction l with
  | nil => rfl
  | cons a l ih =>
      rw [replaceF_cons]
      cases ha : p a with
      | none => exact congrArg (key a :: ·) ih
      | some b => exact congrArg (· :: l.map key) (hp a b ha)

theorem writeback_requests (o : EpollObj) (slots : List Slot) :
    (o.edgesWriteback slots).list.map Entry.request = o.list.map Entry.request := by
  unfold EpollObj.edgesWriteback
  induction slots generalizing o with
  | nil => rfl
  | cons x slots ih =>
      rw [foldl_cons]
      refine (ih { o with
        list := if x.et then EpollObj.writebackOne x o.list else o.list }).trans ?_
      dsimp only
      split
      · refine map_replaceF _ _ (fun a b hb => ?_) _
        obtain ⟨-, ⟨⟩⟩ := Option.ite_none_right_eq_some.1 hb
        rfl
      · rfl

theorem epollWait_requests (files : Int → Option File) (o : EpollObj) (m : Int) :
    (epollWait files o m).2.list.map Entry.request = o.list.map Entry.request := by
  unfold epollWait
  split
  · rfl
  · exact writeback_requests o _

theorem epollWait_out {m : Int} (h : (epollWait files o m).1 = .events out) (hev : ev ∈ out) :
    ∃ e ∈ o.list, ∃ f, files e.fd = some f ∧ ev.data = e.data ∧ ev.events ≠ 0 ∧
      ev.events &&& f.ready = ev.events := by
  unfold epollWait at h
  split at h
  · cases h
  dsimp only at h
  split at h
  · cases h
  split at h
  · cases h
  cases h
  obtain ⟨x, hx, hrep, rfl⟩ := mem_collect hev
  obtain ⟨y, hy, rfl⟩ := mem_map.1 hx
  obtain ⟨e, he, rfl⟩ := mem_map.1 hy
  obtain ⟨f, hf, hne, hsub⟩ := visit_reported hrep
  refine ⟨e, mem_of_mem_take he, f, hf, ?_, hne, hsub⟩
  unfold Slot.visit Slot.scan
  split
  · rfl
  · dsimp only
    split <;> rfl

theorem epollWaits_out {ms : List Int} (h : .events out ∈ epollWaits files o ms) (hev : ev ∈ out) :
    ∃ e ∈ o.list, ∃ f, files e.fd = some f ∧ ev.data = e.data ∧ ev.events ≠ 0 ∧
      ev.events &&& f.ready = ev.events := by
  induction ms generalizing o with
  | nil => cases h
  | cons m ms ih =>
      rcases mem_cons.1 h with h | h
      · exact epollWait_out h.symm hev
      · obtain ⟨e, he, f, hf, hdata, hready⟩ := ih h
        have hreq : e.request ∈ o.list.map Entry.request := by
          rw [← epollWait_requests files o m]
          exact mem_map_of_mem he
        obtain ⟨e', he', heq⟩ := mem_map.1 hreq
        obtain ⟨hfd, -, hd⟩ : e'.fd = e.fd ∧ e'.events = e.events ∧ e'.data = e.data := by
          simpa [Entry.request] using heq
        exact ⟨e', he', f, hfd ▸ hf, hdata.trans hd.symm, hready⟩

theorem epollWait_events_iff {m : Int} (hm : 1 ≤ m) :
    (∃ out, (epollWait files o m).1 = .events out ∧ out ≠ []) ↔
      ∃ e ∈ o.list.take m.toNat, e.Shows files := by
  unfold epollWait
  rw [if_neg (by omega)]
  dsimp only
  constructor
  · rintro ⟨out, hout, hne⟩
    split at hout
    · cases hout
    split at hout
    · cases hout
    cases hout
    obtain ⟨ev, hev⟩ := exists_mem_of_ne_nil _ hne
    obtain ⟨x, hx, hrep, -⟩ := mem_collect hev
    obtain ⟨y, hy, rfl⟩ := mem_map.1 hx
    obtain ⟨e, he, rfl⟩ := mem_map.1 hy
    exact ⟨e, he, visit_reported_iff.1 hrep⟩
  · rintro ⟨e, he, hshows⟩
    have hrep := visit_reported_iff.2 hshows
    have hne : (e.slot.visit files).revents ≠ 0 := by
      intro h
      simp [Slot.reported, h] at hrep
    have hmem : e.slot.visit files ∈ (o.snapshot m.toNat).map (Slot.visit files) :=
      mem_map_of_mem (mem_map_of_mem he)
    refine ⟨_, ?_, collect_ne_nil hmem hrep⟩
    rw [if_neg (Nat.ne_of_gt (readyCount_pos hmem hne)), if_neg (collect_ne_nil hmem hrep)]

/-- A call returns events at once exactly when one of the first `maxevents` registrations shows
something, as every level-triggered one does whose descriptor is ready for a registered event; and
whatever calls return, one after the other over unchanged descriptors, is from a registration whose
descriptor is ready for it. -/
theorem epollWait_reports_ready (files : Int → Option File) (o : EpollObj) :
    (∀ maxevents : Int, 1 ≤ maxevents →
      ((∃ out, (epollWait files o maxevents).1 = .events out ∧ out ≠ []) ↔
        ∃ e ∈ o.list.take maxevents.toNat, e.Shows files)) ∧
    (∀ (e : Entry) (f : File), e.edge = false → 0 ≤ e.fd → files e.fd = some f →
      f.ready &&& e.pollEvents ≠ 0 → e.Shows files) ∧
    ∀ (ms : List Int) (out : List EpollEvent), .events out ∈ epollWaits files o ms → ∀ ev ∈ out,
      ∃ e ∈ o.list, ∃ f, files e.fd = some f ∧ ev.data = e.data ∧ ev.events ≠ 0 ∧
        ev.events &&& f.ready = ev.events := by
  refine ⟨fun m hm => epollWait_events_iff hm, ?_, ?_⟩
  · intro e f he hfd hf hready
    exact Entry.shows_of_level he hfd hf hready
  · intro ms out h ev hev
    exact epollWaits_out h hev

end Calls

def readable : File := ⟨pollin, some 1, rfl⟩
def silent : File := ⟨0, some 0, rfl⟩

def twoFiles (fd : Int) : Option File :=
  if fd = 3 then some silent else if fd = 4 then some readable else none

def twoEntries : EpollObj := ⟨[⟨3, 1, 30, 0, 0, false, 1⟩, ⟨4, 1, 40, 0, 0, false, 2⟩], 2⟩

theorem epollWait_reports_ready_two :
    (∃ out, (epollWait twoFiles twoEntries 2).1 = .events out ∧ out ≠ []) ∧
      (epollWait twoFiles twoEntries 2).1 = .events [⟨pollin, 40⟩] := by
  obtain ⟨hiff, hlevel, -⟩ := epollWait_reports_ready twoFiles twoEntries
  refine ⟨(hiff 2 (by decide)).2 ⟨_, mem_cons_of_mem _ (mem_singleton_self _), ?_⟩, by decide⟩
  exact hlevel _ readable (by decide) (by decide) rfl (by decide)

/-- With room for one event the second descriptor is not looked at: the call sleeps although it can
be read. -/
theorem epollWait_misses_second :
    (EpollObj.ctl ⟨[], 0⟩ .add 3 1 30).bind (fun o => o.ctl .add 4 1 40) = .ok twoEntries ∧
      twoFiles 4 = some readable ∧ readable.ready &&& pollin ≠ 0 ∧
      (epollWait twoFiles twoEntries 1).1 = .nothing :=
  ⟨rfl, rfl, by decide, by decide⟩

end NeoKernel.Poll
