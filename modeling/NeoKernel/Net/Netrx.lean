import NeoKernel.Lib.RingBuf
import NeoKernel.Lib.Trans
import NeoKernel.Sync.Waitq

/-!
# From the network interrupt to the stack (kernel/net/netrx.c)

`netrx_post` wakes the thread after it has dropped the lock. The ring keeps the number of its
frames for `tail`. Not in the program: the frames queued and delivered so far.
-/
namespace NeoKernel.Net
open Lib Function List

def netrxQueueLen : Nat := 64
def netrxFrameMax : Nat := 1536

inductive RxPc where
  | taking
  | checking
  | asleep
  deriving DecidableEq

/-- A frame is a device and bytes. -/
structure Netrx (δ κ : Type*) where
  ring : RingBuf (δ × List (BitVec 8))
  thread : RxPc
  -- who has queued a frame and not yet woken the thread
  waking : κ → Bool
  (queued delivered : List (δ × List (BitVec 8)))

inductive NetrxAct (δ κ : Type*) where
  | post (c : κ) (dev : δ) (frame : List (BitVec 8))
  | wake (c : κ)
  | take
  | check

variable {δ κ : Type*} [DecidableEq κ] {s s' : Netrx δ κ}

/-- `take` is a pass of the thread. A frame without bytes counts as none there. -/
def netrxStep (s : Netrx δ κ) : NetrxAct δ κ → Option (Netrx δ κ)
  | .post c dev frame =>
      let f := (dev, frame.take netrxFrameMax)
      if s.waking c then none
      else if s.ring.len + 1 = netrxQueueLen then some s
      else
        some { s with
          ring := s.ring.push netrxQueueLen [f]
          waking := update s.waking c true
          queued := s.queued ++ [f] }
  | .wake c =>
      if s.waking c then
        some { s with
          waking := update s.waking c false
          thread := if s.thread = .asleep then .taking else s.thread }
      else none
  | .take =>
      if s.thread ≠ .taking then none
      else if s.ring.len = 0 then some { s with thread := .checking }
      else
        let f := s.ring.buf s.ring.head
        let ring := s.ring.pop netrxQueueLen 1
        if f.2 = [] then some { s with ring, thread := .checking }
        else some { s with ring, delivered := s.delivered ++ [f] }
  | .check =>
      if s.thread = .checking then
        some { s with thread := if s.ring.len = 0 then .asleep else .taking }
      else none

def netrxSystem (δ κ : Type*) [DecidableEq κ] : System (Netrx δ κ) (NetrxAct δ κ) where
  init s := s.ring.head = 0 ∧ s.ring.len = 0 ∧ s.thread = .taking ∧ (∀ c, s.waking c = false) ∧
    s.queued = [] ∧ s.delivered = []
  step := netrxStep

structure Netrx.Sound (s : Netrx δ κ) : Prop where
  head : s.ring.head < netrxQueueLen
  room : s.ring.len < netrxQueueLen
  order : s.delivered ++ (s.ring.contents netrxQueueLen).filter (·.2 ≠ []) =
    s.queued.filter (·.2 ≠ [])
  sleep : s.thread = .asleep → s.ring.len = 0 ∨ ∃ c, s.waking c = true

theorem Netrx.Sound.step {a : NetrxAct δ κ} (h : s.Sound) (hs : netrxStep s a = some s') :
    s'.Sound := by
  obtain ⟨hhead, hroom, horder, hsleep⟩ := h
  revert hs
  fun_cases netrxStep s a <;> intro hs <;> cases hs
  -- `post` to a full ring, and to one with room
  · exact ⟨hhead, hroom, horder, hsleep⟩
  · next c dev frame f _ hfull =>
      refine ⟨hhead, by simp; omega, ?_, fun _ => .inr ⟨c, update_self ..⟩⟩
      dsimp only
      rw [RingBuf.contents_push _ _ hroom, filter_append, filter_append, ← append_assoc, horder]
  -- `wake`
  · refine ⟨hhead, hroom, horder, fun h => ?_⟩
    dsimp only at h
    split at h
    · cases h
    · contradiction
  -- `take` from an empty ring, of a frame without bytes, and of another
  · exact ⟨hhead, hroom, horder, nofun⟩
  · next hlen f ring hf =>
      rw [s.ring.contents_cons hhead hlen, filter_cons_of_neg (by simpa using hf)] at horder
      exact ⟨Nat.mod_lt _ (by decide), (Nat.sub_le ..).trans_lt hroom, horder, nofun⟩
  · next ht hlen f ring hf =>
      rw [s.ring.contents_cons hhead hlen, filter_cons_of_pos (by simpa using hf)] at horder
      refine ⟨Nat.mod_lt _ (by decide), (Nat.sub_le ..).trans_lt hroom, ?_, fun h => absurd h ?_⟩
      · rw [← horder, append_assoc]
        rfl
      · rw [not_not.1 ht]
        nofun
  -- `check`
  · refine ⟨hhead, hroom, horder, fun h => .inl ?_⟩
    dsimp only at h
    split at h
    · assumption
    · cases h

/-- The wait queue of the thread, which nobody else sleeps on. -/
structure Netrx.Queues (s : Netrx δ κ) (v : Waitq.Waits Unit Unit κ) : Prop where
  head : v.head () = if s.thread = .asleep then some () else none
  tail : v.tail () = v.head ()
  next : v.next () = none

theorem Netrx.Queues.check {v : Waitq.Waits Unit Unit κ} (h : s.Queues v)
    (hs : netrxStep s .check = some s') :
    s'.Queues (if s'.thread = .asleep then v.sleepOn () () else v) := by
  obtain ⟨ht, ⟨⟩⟩ := Option.ite_none_right_eq_some.1 hs
  have hhead : v.head () = none := by rw [h.head, ht]; rfl
  have htail : v.tail () = none := h.tail.trans hhead
  by_cases hlen : s.ring.len = 0
  · constructor <;> simp [hlen, Waitq.Waits.sleepOn, Waitq.Waits.enqueue, htail]
  · constructor <;> simp [hlen, hhead, htail, h.next]

theorem Netrx.Queues.wake {v : Waitq.Waits Unit Unit κ} {c : κ} (h : s.Queues v)
    (hs : netrxStep s (.wake c) = some s') : s'.Queues ((v.dequeue ()).elim v Prod.snd) := by
  obtain ⟨-, ⟨⟩⟩ := Option.ite_none_right_eq_some.1 hs
  obtain ⟨hhead, htail, hnext⟩ := h
  by_cases ht : s.thread = .asleep
  · rw [if_pos ht] at hhead
    constructor <;> simp [Waitq.Waits.dequeue, hhead, hnext, ht]
  · rw [if_neg ht] at hhead
    constructor <;> simp [Waitq.Waits.dequeue, hhead, htail, hnext, ht]

/-- In every run: the frames delivered are those queued, in order and without the empty ones, as far
as the thread has come; and all of them when it sleeps and no wake is on its way. -/
theorem netrx_delivers (hr : (netrxSystem δ κ).Reach (fun _ _ => True) s) :
    s.delivered <+: s.queued.filter (·.2 ≠ []) ∧
      (s.thread = .asleep → (∀ c, s.waking c = false) →
        s.delivered = s.queued.filter (·.2 ≠ [])) := by
  have h : s.Sound := by
    refine hr.invariant Netrx.Sound ?_ fun _ _ _ h _ => h.step
    rintro s ⟨hhead, hlen, ht, -, hq, hd⟩
    exact ⟨by rw [hhead]; decide, by rw [hlen]; decide,
      by simp [RingBuf.contents, RingBuf.front, *],
      by simp [ht]⟩
  refine ⟨⟨_, h.order⟩, fun ht hw => ?_⟩
  have hlen : s.ring.len = 0 := by simpa [hw] using h.sleep ht
  rw [← h.order, RingBuf.contents, RingBuf.front, hlen]
  simp

/-- An empty frame, and one that comes when the thread sleeps again. -/
theorem netrx_delivers_woken : ∃ s, (netrxSystem Unit Unit).Reach (fun _ _ => True) s ∧
    s.delivered = [((), [2])] ∧ s.delivered = s.queued.filter (·.2 ≠ []) :=
  System.Reach.exists_of_run_imp (s := ⟨⟨fun _ => ((), []), 0, 0⟩, .taking, fun _ => false, [], []⟩)
    [.post () () [], .wake (), .take, .check, .post () () [2], .wake (), .take, .take, .check]
    (by simp [netrxSystem]) (by decide +kernel) fun s hr
      (hs : s.delivered = [((), [2])] ∧ s.thread = .asleep ∧ ∀ c, s.waking c = false) =>
        ⟨hs.1, (netrx_delivers hr).2 hs.2.1 hs.2.2⟩

end NeoKernel.Net
