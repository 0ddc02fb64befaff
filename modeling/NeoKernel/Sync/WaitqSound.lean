import Mathlib.Data.Sum.Basic
import NeoKernel.Lib.Update
import NeoKernel.Sync.Waitq

/-!
# No waiter is lost

The queues and the wakers' own lists together are lists over the one link that a thread has.
-/
namespace NeoKernel.Waitq
open Lib Function List Option

variable {τ θ κ : Type*} [DecidableEq τ] [DecidableEq θ] [DecidableEq κ]

/-- The first thread of each list: of a queue, or of what a waker has to hand out. -/
def Waits.start (s : Waits τ θ κ) : θ ⊕ κ → Option τ := Sum.elim s.head fun k => (s.pc k).rest

def On : θ ⊕ κ → Option θ → Prop
  | .inl q, o => o = some q
  | .inr _, o => o ≠ none

structure Placed (s : Waits τ θ κ) (lists : θ ⊕ κ → List τ) (t : τ) : Prop where
  listed : ∀ p, t ∈ lists p → s.state t = .blocked ∧ On p (s.blockedOn t)
  /-- A thread that is asleep is on a list or about to be woken. -/
  asleep : s.state t = .blocked → (∃ p, t ∈ lists p) ∨ ∃ k rest, s.pc k = .wake t rest
  runnable : s.onRq t = true → s.state t = .ready

def Fits (s : Waits τ θ κ) (lists : θ ⊕ κ → List τ) : Pc τ θ → Prop
  | .wake t _ => ∀ p, t ∉ lists p
  | .removing t q _ => s.blockedOn t = none ∨ s.blockedOn t = some q
  | .publish t _ => s.state t = .ready ∧ s.onRq t = false
  | _ => True

structure Linked (s : Waits τ θ κ) (lists : θ ⊕ κ → List τ) : Prop where
  linked : Lists s.next s.start lists
  last : ∀ q, s.tail q = (lists (.inl q)).getLast?

structure Sound (s : Waits τ θ κ) (lists : θ ⊕ κ → List τ) : Prop extends Linked s lists where
  placed : ∀ t, Placed s lists t
  fits : ∀ k, Fits s lists (s.pc k)
  alone : ∀ t j k, (∃ rest, s.pc j = .publish t rest) → (∃ rest, s.pc k = .publish t rest) → j = k

variable {s s' : Waits τ θ κ} {lists lists' : θ ⊕ κ → List τ} {k : κ} {t : τ} {q : θ} {pc : Pc τ θ}
variable {rest : Option τ} {l : List τ} {head tail : θ → Option τ}

omit [DecidableEq τ] [DecidableEq θ] in
theorem pc_setPc_of_ne {j : κ} (hj : j ≠ k) : (s.setPc k pc).pc j = s.pc j :=
  update_of_ne hj ..

omit [DecidableEq τ] [DecidableEq θ] in
theorem pc_setPc_self : (s.setPc k pc).pc k = pc := update_self ..

section

omit [DecidableEq τ]

theorem start_setPc (s : Waits τ θ κ) (k : κ) (pc : Pc τ θ) :
    (s.setPc k pc).start = update s.start (.inr k) pc.rest := by
  funext p
  cases p with
  | inl q => simp [Waits.start, Waits.setPc]
  | inr j =>
      by_cases hj : j = k
      · simp [Waits.start, Waits.setPc, hj]
      · simp [Waits.start, Waits.setPc, hj]

theorem start_setPc_of_rest (hrest : pc.rest = (s.pc k).rest) : (s.setPc k pc).start = s.start := by
  rw [start_setPc, hrest, show (s.pc k).rest = s.start (.inr k) from rfl, update_eq_self]

theorem start_idle (hrest : (s.pc k).rest = none) :
    update (Sum.elim head fun k => (s.pc k).rest) (.inr k) none =
      Sum.elim head fun k => (s.pc k).rest := by
  rw [← hrest]
  exact update_eq_self ..

theorem start_update (s : Waits τ θ κ) (q : θ) (v : Option τ) :
    (Sum.elim (update s.head q v) fun k => (s.pc k).rest) = update s.start (.inl q) v :=
  Sum.update_elim_inl.symm

end

def Same (s : Waits τ θ κ) (lists : θ ⊕ κ → List τ) (s' : Waits τ θ κ) (lists' : θ ⊕ κ → List τ)
    (t : τ) : Prop :=
  s'.state t = s.state t ∧ s'.blockedOn t = s.blockedOn t ∧ s'.onRq t = s.onRq t ∧
    ∀ p, t ∈ lists' p ↔ t ∈ lists p

/-- A context at `pc` can go on with `t` after the step. -/
structure Serves (s : Waits τ θ κ) (lists : θ ⊕ κ → List τ) (s' : Waits τ θ κ)
    (lists' : θ ⊕ κ → List τ) (pc : Pc τ θ) (t : τ) : Prop where
  off : (∀ p, t ∉ lists p) → ∀ p, t ∉ lists' p
  removed : s'.blockedOn t = s.blockedOn t ∨ s'.blockedOn t = none
  ready : ∀ rest, pc = .publish t rest → s'.state t = .ready ∧ s'.onRq t = false

omit [DecidableEq τ] [DecidableEq θ] [DecidableEq κ] in
theorem Fits.step (h : Fits s lists pc)
    (hserves : ∀ t, pc.current = some t → Serves s lists s' lists' pc t) : Fits s' lists' pc := by
  cases pc with
  | wake t rest => exact (hserves t rfl).off h
  | removing t q who => exact (hserves t rfl).removed.elim (fun he => by rwa [Fits, he]) .inl
  | publish t rest => exact (hserves t rfl).ready rest rfl
  | _ => trivial

omit [DecidableEq τ] in
theorem getLast?_update (h : ∀ q, tail q = (lists (.inl q)).getLast?) (q : θ) (l : List τ)
    (q' : θ) :
    update tail q l.getLast? q' = (update lists (.inl q) l (.inl q')).getLast? := by
  by_cases hq : q' = q
  · rw [hq, update_self, update_self]
  · rw [update_of_ne hq, update_of_ne (by simpa using hq)]
    exact h q'

section

omit [DecidableEq κ]

theorem enqueue_frame (s : Waits τ θ κ) (q : θ) (t : τ) : s.enqueue q t =
    { s with
      next := (s.enqueue q t).next
      head := (s.enqueue q t).head
      tail := update s.tail q (some t) } := by
  unfold Waits.enqueue
  split <;> rfl

theorem dequeue_none (hchain : Chain s.next (s.head q) []) : s.dequeue q = none := by
  unfold Waits.dequeue
  rw [show s.head q = none from hchain]

theorem dequeue_some (hchain : Chain s.next (s.head q) (t :: l))
    (hlast : s.tail q = (t :: l).getLast?) :
    s.dequeue q = some (t,
      { s with
        head := update s.head q (s.next t)
        tail := update s.tail q l.getLast?
        next := update s.next t none }) := by
  unfold Waits.dequeue
  rw [hchain.1]
  dsimp only
  cases l with
  | nil =>
      rw [if_pos (show s.next t = none from hchain.2)]
      rfl
  | cons x l =>
      rw [if_neg (by simp [hchain.2.1])]
      rw [getLast?_cons_cons] at hlast
      rw [← hlast, update_eq_self]

end

theorem drainLoop_spec {n : Nat} {woken : Option τ} (hl : lists (.inl q) = l)
    (hn : l.length ≤ n) (h : Lists s.next (update s.start (.inr k) woken) lists)
    (hlast : ∀ q, s.tail q = (lists (.inl q)).getLast?) (hlists : lists' =
      update (update lists (.inl q) []) (.inr k) (l.reverse ++ lists (.inr k))) :
    ∃ next head tail woken', s.drainLoop n q woken =
        some ({ s with next := next, head := head, tail := tail }, woken') ∧
      Lists next (update (Sum.elim head fun k => (s.pc k).rest) (.inr k) woken') lists' ∧
      ∀ q, tail q = (lists' (.inl q)).getLast? := by
  induction l generalizing s lists n woken with
  | nil =>
      have hchain := h.chain (.inl q)
      rw [update_of_ne (by simp), hl] at hchain
      obtain rfl : lists' = lists := by
        rw [hlists, reverse_nil, nil_append, ← hl, update_eq_self, update_eq_self]
      refine ⟨s.next, s.head, s.tail, woken, ?_, h, hlast⟩
      unfold Waits.drainLoop
      rw [dequeue_none hchain]
  | cons t l ih =>
      have hchain := h.chain (.inl q)
      have hlastq := hlast q
      rw [update_of_ne (by simp), hl] at hchain
      rw [hl] at hlastq
      obtain ⟨n, rfl⟩ : ∃ m, n = m + 1 := ⟨n - 1, by simp only [length_cons] at hn; omega⟩
      -- one round: off the queue, onto the waker's list
      have hoff : ∀ p, t ∉ update lists (.inl q) l p :=
        fun p hp => ((h.mem_drop (hl ▸ List.Perm.refl _)).1 hp).2 rfl
      have hpush := (h.pop hl none).push hoff (.inr k)
      rw [Lists.update_again, ← start_update, update_of_ne (by simp),
        update_self] at hpush
      unfold Waits.drainLoop
      rw [dequeue_some hchain hlastq]
      refine ih (by rw [update_of_ne (by simp), update_self]) (by simpa using hn) hpush
        (fun q' => ?_) ?_
      · rw [update_of_ne (by simp)]
        exact getLast?_update hlast q l q'
      · rw [hlists, update_self, reverse_cons, append_assoc, singleton_append,
          Lists.update_again, update_idem, update_of_ne (by simp)]

theorem tail_unlink {a b : List τ} (hnd : (a ++ t :: b).Nodup)
    (htail : tail q = (a ++ t :: b).getLast?) :
    (if tail q = some t then update tail q a.getLast? else tail) =
      update tail q (a ++ b).getLast? := by
  cases b with
  | nil => rw [htail, getLast?_concat, if_pos rfl, append_nil]
  | cons x b =>
      have hlast : tail q = some ((x :: b).getLast (cons_ne_nil x b)) := by
        rw [htail, getLast?_append_of_ne_nil _ (cons_ne_nil t _), getLast?_cons_cons,
          getLast?_eq_some_getLast (cons_ne_nil x b)]
      have hne : (x :: b).getLast (cons_ne_nil x b) ≠ t := by
        have htb := (nodup_cons.1 hnd.of_append_right).1
        exact ne_of_mem_of_not_mem (getLast_mem _) htb
      rw [if_neg (by simpa [hlast] using hne), getLast?_append_of_ne_nil _ (cons_ne_nil x b),
        getLast?_eq_some_getLast (cons_ne_nil x b), ← hlast, update_eq_self]

namespace Linked

variable (h : Linked s lists)
include h

theorem enqueue (ht : ∀ p, t ∉ lists p) (q : θ) :
    Linked (s.enqueue q t) (update lists (.inl q) (lists (.inl q) ++ [t])) := by
  have hlast := h.last q
  refine ⟨?_, fun q' => ?_⟩
  · unfold Waits.enqueue
    split
    · next u hu => exact h.linked.snoc ht (hlast.symm.trans hu)
    · next hu =>
        have hnil : lists (.inl q) = [] := getLast?_eq_none_iff.1 (hlast.symm.trans hu)
        have hchain := h.linked.chain (.inl q)
        have hpush := h.linked.push ht (.inl q)
        rw [hnil] at hchain hpush
        rw [show s.start (.inl q) = none from hchain] at hpush
        rw [hnil, nil_append]
        rw [show update s.start (.inl q) (some t) = _ from Sum.update_elim_inl] at hpush
        exact hpush
  · have := getLast?_update h.last q (lists (.inl q) ++ [t]) q'
    rw [getLast?_append, getLast?_singleton, some_or] at this
    rw [enqueue_frame]
    exact this

theorem removeFrom [Fintype τ] (ht : t ∈ lists (.inl q)) : ∃ next head tail,
    s.removeFrom q t = some (true,
      { s with next := next, head := head, tail := tail, blockedOn := update s.blockedOn t none }) ∧
    Linked { s with next := next, head := head, tail := tail }
      (update lists (.inl q) ((lists (.inl q)).erase t)) := by
  obtain ⟨a, b, hl⟩ := append_of_mem ht
  have hchain := h.linked.chain (.inl q)
  have hnd := h.linked.nodup (.inl q)
  have hcard := hnd.length_le_card
  have hlast := h.last q
  rw [hl] at hchain hnd hcard hlast
  have hta : t ∉ a := fun hmem => disjoint_of_nodup_append hnd hmem mem_cons_self
  have hseek := hchain.seekPrev_found hta (n := Fintype.card τ) (by simp at hcard; omega) none
  have htail := tail_unlink hnd hlast
  have herase : (lists (.inl q)).erase t = a ++ b := by
    rw [hl, erase_append_right _ hta, erase_cons_head]
  rw [or_none] at hseek
  unfold Waits.removeFrom
  rw [show s.head q = s.start (.inl q) from rfl, hseek, herase]
  rcases eq_nil_or_concat a with rfl | ⟨a, u, rfl⟩
  · refine ⟨_, _, _, rfl, ?_, fun q' => ?_⟩
    · have := h.linked.pop hl none
      rwa [← start_update] at this
    · change (if s.tail q = some t then update s.tail q none else s.tail) q' = _
      rw [show (if s.tail q = some t then update s.tail q none else s.tail) = _ from htail]
      exact getLast?_update h.last q b q'
  · rw [concat_eq_append, append_assoc, singleton_append] at hl
    rw [concat_eq_append] at htail ⊢
    rw [getLast?_concat] at htail ⊢
    rw [append_assoc, singleton_append] at htail ⊢
    refine ⟨_, _, _, rfl, h.linked.unlink hl none, fun q' => ?_⟩
    dsimp only
    rw [htail]
    exact getLast?_update h.last q _ q'

end Linked

namespace Sound

variable (h : Sound s lists)
include h

section

omit [DecidableEq τ] [DecidableEq θ] [DecidableEq κ]

theorem on_queue (ht : t ∈ lists (.inl q)) :
    s.state t = .blocked ∧ s.blockedOn t = some q :=
  (h.placed t).listed _ ht

theorem blocked_of_mem {p : θ ⊕ κ} (ht : t ∈ lists p) :
    s.state t = .blocked ∧ s.blockedOn t ≠ none := by
  cases p with
  | inl q =>
      obtain ⟨hstate, hon⟩ := h.on_queue ht
      exact ⟨hstate, by simp [hon]⟩
  | inr k => exact (h.placed t).listed _ ht

theorem fits_of (hpc : s.pc k = pc) : Fits s lists pc := hpc ▸ h.fits k

end

omit [DecidableEq τ] [DecidableEq θ] in
/-- One step: the threads of `C` change, and at most one context moves on. -/
theorem change (C : τ → Prop) (hlinked : Lists s'.next s'.start lists')
    (hlast : ∀ q, s'.tail q = (lists' (.inl q)).getLast?)
    (hothers : ∀ u, ¬ C u → Same s lists s' lists' u) (hplaced : ∀ u, C u → Placed s' lists' u)
    (hserves : ∀ j u, C u → s'.pc j = s.pc j → (s.pc j).current = some u →
      Serves s lists s' lists' (s.pc j) u)
    (hpc : s'.pc = s.pc ∨ ∃ k pc, s'.pc = update s.pc k pc ∧ Fits s' lists' pc ∧
      (∀ u r, s.pc k = .wake u r → C u ∨ s.state u ≠ .blocked) ∧
      ∀ u r, pc = .publish u r → ∀ j r', s.pc j ≠ .publish u r') : Sound s' lists' := by
  have hfits : ∀ j, s'.pc j = s.pc j → Fits s' lists' (s'.pc j) := by
    intro j hj
    rw [hj]
    refine (h.fits j).step fun u hu => ?_
    by_cases hC : C u
    · exact hserves j u hC hj hu
    · obtain ⟨hstate, hon, hrq, hmem⟩ := hothers u hC
      refine ⟨fun hoff p => (hmem p).not.2 (hoff p), .inl hon, fun r hr => ?_⟩
      rw [hstate, hrq]
      exact h.fits_of hr
  refine ⟨⟨hlinked, hlast⟩, fun u => ?_, fun j => ?_, fun u j i hj hi => ?_⟩
  · by_cases hC : C u
    · exact hplaced u hC
    · obtain ⟨hstate, hon, hrq, hmem⟩ := hothers u hC
      refine ⟨fun p hp => ?_, fun hu => ?_, ?_⟩
      · rw [hstate, hon]
        exact (h.placed u).listed p ((hmem p).1 hp)
      · rw [hstate] at hu
        simp only [hmem]
        refine ((h.placed u).asleep hu).imp_right fun ⟨j, r, hj⟩ => ⟨j, r, ?_⟩
        rcases hpc with hpc | ⟨k, pc, hpc, -, hwoken, -⟩
        · rw [hpc, hj]
        · rw [hpc, update_of_ne, hj]
          rintro rfl
          exact (hwoken u r hj).elim hC (· hu)
      · rw [hrq, hstate]
        exact (h.placed u).runnable
  · rcases hpc with hpc | ⟨k, pc, hpc, hfit, -⟩
    · exact hfits j (congrFun hpc j)
    · by_cases hj : j = k
      · rwa [hpc, hj, update_self]
      · exact hfits j (by rw [hpc, update_of_ne hj])
  · rcases hpc with hpc | ⟨k, pc, hpc, -, -, hpublish⟩
    · rw [hpc] at hj hi
      exact h.alone u j i hj hi
    · rw [hpc] at hj hi
      exact unique_update (p := fun pc : Pc τ θ => ∃ r, pc = .publish u r) (h.alone u)
        (fun ⟨r, hr⟩ j _ ⟨r', hj⟩ => hpublish u r hr j r' hj) hj hi

omit [DecidableEq τ] in
theorem setPc (hrest : pc.rest = (s.pc k).rest)
    (hold : ∀ t rest, s.pc k = .wake t rest → s.state t ≠ .blocked) (hfit : Fits s lists pc)
    (hpublish : ∀ t rest, pc ≠ .publish t rest) : Sound (s.setPc k pc) lists := by
  refine h.change (fun _ => False) ?_ h.last
    (fun _ _ => ⟨rfl, rfl, rfl, fun _ => Iff.rfl⟩) nofun nofun
    (.inr ⟨k, pc, rfl, hfit, fun u r hu => .inr (hold u r hu),
      fun u r hpc => absurd hpc (hpublish u r)⟩)
  rw [start_setPc_of_rest hrest]
  exact h.linked

omit [DecidableEq τ] in
theorem take {next : τ → Option τ} {o : τ → Option θ}
    (hlinked : Lists next (update (Sum.elim head fun k => (s.pc k).rest) (.inr k) rest) lists')
    (hlast : ∀ q, tail q = (lists' (.inl q)).getLast?)
    (hmem : ∀ p u, u ∈ lists' p ↔ u ∈ lists p ∧ u ≠ t) (hold : ∀ u rest, s.pc k ≠ .wake u rest)
    (hothers : ∀ u, u ≠ t → o u = s.blockedOn u) (hthis : o t = s.blockedOn t ∨ o t = none) :
    Sound ({ s with next := next, head := head, tail := tail, blockedOn := o }.setPc k
      (.wake t rest)) lists' := by
  have hoff : ∀ p, t ∉ lists' p := fun p hp => ((hmem p t).1 hp).2 rfl
  refine h.change (· = t) ?_ hlast (fun u hu => ⟨rfl, hothers u hu, rfl, fun p => ?_⟩) ?_ ?_
    (.inr ⟨k, _, rfl, hoff, fun u r hu => absurd hu (hold u r), nofun⟩)
  · rw [start_setPc]
    exact hlinked
  · rw [hmem, and_iff_left hu]
  · rintro u rfl
    exact ⟨fun p hp => absurd hp (hoff p), fun _ => .inr ⟨k, rest, pc_setPc_self⟩,
      (h.placed u).runnable⟩
  · rintro j u rfl - -
    exact ⟨fun _ => hoff, hthis, fun r hr => h.fits_of hr⟩

omit [DecidableEq θ] in
theorem forget (ht : ∀ p, t ∉ lists p) :
    Sound { s with
      next := update s.next t none
      blockedOn := update s.blockedOn t none } lists := by
  refine h.change (· = t) (h.linked.link ht none) h.last
    (fun u hu => ⟨rfl, update_of_ne hu .., rfl, fun _ => Iff.rfl⟩) ?_ ?_ (.inl rfl)
  · rintro u rfl
    exact ⟨fun p hp => absurd hp (ht p), (h.placed u).asleep, (h.placed u).runnable⟩
  · rintro j u rfl - -
    exact ⟨id, .inr (update_self ..), fun r hr => h.fits_of hr⟩

theorem sleepOn (hrun : s.state t = .running)
    (hnone : ∀ k, (s.pc k).current ≠ some t) (q : θ) :
    Sound (s.sleepOn q t) (update lists (.inl q) (lists (.inl q) ++ [t])) := by
  have ht : ∀ p, t ∉ lists p := by
    intro p hp
    cases hrun.symm.trans (h.blocked_of_mem hp).1
  have hlinked := h.toLinked.enqueue ht q
  unfold Waits.sleepOn
  rw [enqueue_frame] at hlinked ⊢
  refine h.change (· = t) hlinked.linked hlinked.last (fun u hu => ?_) ?_ ?_ (.inl rfl)
  · refine ⟨update_of_ne hu .., update_of_ne hu .., rfl, fun p => ?_⟩
    by_cases hp : p = .inl q
    · simp [hp, hu]
    · rw [update_of_ne hp]
  · rintro u rfl
    refine ⟨fun p hp => ⟨update_self .., ?_⟩, fun _ => .inl ⟨.inl q, ?_⟩, fun hon => ?_⟩
    · by_cases hq : p = .inl q
      · rw [hq]
        exact update_self u (some q) s.blockedOn
      · rw [update_of_ne hq] at hp
        exact absurd hp (ht p)
    · rw [update_self]
      exact mem_append_right _ mem_cons_self
    · cases hrun.symm.trans ((h.placed u).runnable hon)
  · rintro j u rfl - hj
    exact absurd hj (hnone j)

theorem wakeOne (hidle : s.pc k = .idle) (hs : s.dequeue q = some (t, s')) :
    ∃ lists', Sound (s'.setPc k (.wake t none)) lists' := by
  have hchain := h.linked.chain (.inl q)
  have hlast := h.last q
  cases hl : lists (.inl q) with
  | nil =>
      rw [hl] at hchain
      rw [dequeue_none hchain] at hs
      cases hs
  | cons u l =>
      rw [hl] at hchain hlast
      cases (dequeue_some hchain hlast).symm.trans hs
      refine ⟨update lists (.inl q) l, h.take ?_ (getLast?_update h.last q l)
        (fun p u => h.linked.mem_drop (hl ▸ List.Perm.refl _)) (by simp [hidle]) (fun u _ => rfl)
        (.inl rfl)⟩
      rw [start_idle (by rw [hidle]; rfl), start_update]
      exact h.linked.pop hl none

omit [DecidableEq τ] [DecidableEq θ] [DecidableEq κ] in
theorem rest_nil (hrest : (s.pc k).rest = none) : lists (.inr k) = [] := by
  have hchain := h.linked.chain (.inr k)
  rw [show s.start (.inr k) = none from hrest] at hchain
  exact hchain.of_none

theorem wakeAll [Fintype τ] (hidle : s.pc k = .idle) :
    ∃ s' woken lists', s.drainLoop (Fintype.card τ) q none = some (s', woken) ∧
      Sound (s'.setPc k (.hand woken)) lists' := by
  have hrest : (s.pc k).rest = none := by rw [hidle]; rfl
  have hnone : update s.start (.inr k) none = s.start := start_idle hrest
  obtain ⟨next, head, tail, woken, hs, hlinked, hlast⟩ := drainLoop_spec (k := k) rfl
    (h.linked.nodup (.inl q)).length_le_card (hnone.symm ▸ h.linked) h.last rfl
  rw [h.rest_nil hrest, append_nil] at hlinked hlast
  refine ⟨_, woken, update (update lists (.inl q) []) (.inr k) (lists (.inl q)).reverse, hs, ?_⟩
  have hmem : ∀ p u, u ∈ update (update lists (.inl q) []) (.inr k) (lists (.inl q)).reverse p ↔
      p = .inr k ∧ u ∈ lists (.inl q) ∨ u ∉ lists (.inl q) ∧ u ∈ lists p := by
    intro p u
    by_cases hp : p = .inr k
    · simp [hp, h.rest_nil hrest]
    · by_cases hq : p = .inl q
      · simp [hq]
      · rw [update_of_ne hp, update_of_ne hq]
        simp only [hp, false_and, false_or, iff_and_self]
        exact fun hu => h.linked.notMem_of_ne hu (Ne.symm hq)
  refine h.change (· ∈ lists (.inl q)) (by rw [start_setPc]; exact hlinked) hlast (fun u hu => ?_)
    (fun u hu => ?_) (fun j u hu _ _ => ?_)
    (.inr ⟨k, _, rfl, trivial, fun u r hu => (nomatch hidle.symm.trans hu), nofun⟩)
  · refine ⟨rfl, rfl, rfl, fun p => ?_⟩
    rw [hmem]
    simp [hu]
  · refine ⟨fun p hp => ?_, fun _ => .inl ⟨.inr k, (hmem ..).2 (.inl ⟨rfl, hu⟩)⟩,
      (h.placed u).runnable⟩
    obtain ⟨rfl, -⟩ | ⟨hno, -⟩ := (hmem p u).1 hp
    · exact h.blocked_of_mem hu
    · exact absurd hu hno
  · exact ⟨fun hoff => absurd hu (hoff _), .inl rfl, fun r hr => h.fits_of hr⟩

theorem handNext (hpc : s.pc k = .hand (some t)) : ∃ lists',
    Sound ({ s with next := update s.next t none }.setPc k (.wake t (s.next t))) lists' ∧
      lists (.inr k) = t :: lists' (.inr k) := by
  have hchain := h.linked.chain (.inr k)
  rw [show s.start (.inr k) = some t from by simp [Waits.start, hpc, Pc.rest]] at hchain
  obtain ⟨l, hl, -⟩ := hchain.of_some
  refine ⟨update lists (.inr k) l, h.take (h.linked.pop hl none) (fun q' => ?_)
    (fun p u => h.linked.mem_drop (hl ▸ List.Perm.refl _)) (by simp [hpc]) (fun u _ => rfl)
    (.inl rfl), ?_⟩
  · rw [update_of_ne (by simp)]
    exact h.last q'
  · rw [update_self, hl]

omit [DecidableEq τ] [DecidableEq θ] in
theorem advance (hoff : ∀ p, t ∉ lists p) (hnext : s'.next = s.next)
    (hstart : s'.start = s.start) (htail : s'.tail = s.tail)
    (hothers : ∀ u, u ≠ t → s'.state u = s.state u ∧ s'.blockedOn u = s.blockedOn u ∧
      s'.onRq u = s.onRq u)
    (hawake : s'.state t ≠ .blocked) (hrunnable : s'.onRq t = true → s'.state t = .ready)
    (hon : s'.blockedOn t = s.blockedOn t ∨ s'.blockedOn t = none)
    (hpublish : ∀ j r, s'.pc j = s.pc j → s.pc j = .publish t r →
      s'.state t = .ready ∧ s'.onRq t = false)
    (hpc : s'.pc = s.pc ∨ ∃ k pc, s'.pc = update s.pc k pc ∧ Fits s' lists pc ∧
      (∀ u r, s.pc k = .wake u r → u = t ∨ s.state u ≠ .blocked) ∧
      ∀ u r, pc = .publish u r → ∀ j r', s.pc j ≠ .publish u r') : Sound s' lists := by
  refine h.change (· = t) (by rw [hnext, hstart]; exact h.linked) (htail ▸ h.last)
    (fun u hu => ?_) ?_
    ?_ hpc
  · obtain ⟨hstate, hblockedOn, hrq⟩ := hothers u hu
    exact ⟨hstate, hblockedOn, hrq, fun _ => Iff.rfl⟩
  · rintro u rfl
    exact ⟨fun p hp => absurd hp (hoff p), fun hblocked => absurd hblocked hawake, hrunnable⟩
  · rintro j u rfl hj -
    exact ⟨id, hon, fun r hr => hpublish j r hj hr⟩

theorem exchange (hpc : s.pc k = .wake t rest)
    (ht : s.state t = .blocked) :
    Sound ({ s with state := update s.state t .ready }.setPc k (.publish t rest)) lists := by
  have hnot : ∀ j rest', s.pc j ≠ .publish t rest' := by
    intro j rest' hj
    cases ht.symm.trans (h.fits_of hj).1
  have hready : update s.state t .ready t = .ready := update_self ..
  have hrq : s.onRq t = false := by
    rw [Bool.eq_false_iff]
    intro hrq
    cases ht.symm.trans ((h.placed t).runnable hrq)
  refine h.advance (h.fits_of hpc) rfl (start_setPc_of_rest (by rw [hpc]; rfl)) rfl
    (fun u hu => ⟨update_of_ne hu .., rfl, rfl⟩)
      (fun hblocked => nomatch hready.symm.trans hblocked)
    (fun _ => hready) (.inl rfl) (fun j r _ hj => absurd hj (hnot j r))
    (.inr ⟨k, _, rfl, ⟨hready, hrq⟩, fun u r hu => .inl (Pc.wake.inj (hu.symm.trans hpc)).1, ?_⟩)
  intro u r hu
  obtain rfl := (Pc.publish.inj hu).1
  exact hnot

omit [DecidableEq τ] in
theorem pass (hpc : s.pc k = .wake t rest) (ht : s.state t ≠ .blocked) :
    Sound (s.setPc k (.hand rest)) lists := by
  refine h.setPc (by rw [hpc]; rfl) (fun u rest' hu => ?_) trivial nofun
  obtain rfl := (Pc.wake.inj (hpc.symm.trans hu)).1
  exact ht

theorem publish (hpc : s.pc k = .publish t rest) :
    Sound ({ s with
      blockedOn := update s.blockedOn t none
      onRq := update s.onRq t true }.setPc k (.hand rest)) lists := by
  have hready : s.state t = .ready := (h.fits_of hpc).1
  have hawake : s.state t ≠ .blocked := fun hblocked => nomatch hready.symm.trans hblocked
  refine h.advance (fun p hp => hawake (h.blocked_of_mem hp).1) rfl
    (start_setPc_of_rest (by rw [hpc]; rfl)) rfl
    (fun u hu => ⟨rfl, update_of_ne hu .., update_of_ne hu ..⟩) hawake (fun _ => hready)
    (.inr (update_self ..)) (fun j r hj hpub => ?_)
    (.inr ⟨k, _, rfl, trivial, fun u r hu => (nomatch hpc.symm.trans hu), nofun⟩)
  obtain rfl := h.alone t j k ⟨r, hpub⟩ ⟨rest, hpc⟩
  cases pc_setPc_self.symm.trans (hj.trans hpub)

theorem removeFrom_queued [Fintype τ] (ht : t ∈ lists (.inl q))
    (hpc : ∀ u rest, s.pc k ≠ .wake u rest) (hrest : (s.pc k).rest = none) :
    ∃ s' lists', s.removeFrom q t = some (true, s') ∧ Sound (s'.setPc k (.wake t none)) lists' := by
  obtain ⟨next, head, tail, hs, hlinked⟩ := h.toLinked.removeFrom ht
  refine ⟨_, _, hs, h.take ?_ hlinked.last
    (fun p u => h.linked.mem_drop (perm_cons_erase ht)) hpc (fun u hut => update_of_ne hut ..)
    (.inr (update_self ..))⟩
  rw [start_idle hrest]
  exact hlinked.linked

theorem removeFrom_absent [Fintype τ] (ht : ∀ p, t ∉ lists p) :
    ∃ s', s.removeFrom q t = some (false, s') ∧ Sound s' lists ∧ s'.pc = s.pc := by
  unfold Waits.removeFrom
  have hseek := (h.linked.chain (.inl q)).seekPrev_absent (ht _)
    (h.linked.nodup (.inl q)).length_le_card none
  rw [show s.head q = s.start (.inl q) from rfl, hseek]
  exact ⟨_, rfl, h.forget ht, rfl⟩

omit [DecidableEq θ] in
theorem run (hready : s.state t = .ready) (hrq : s.onRq t = true) :
    Sound { s with
      state := update s.state t .running
      onRq := update s.onRq t false
      blockedOn := update s.blockedOn t none } lists := by
  have hrun : update s.state t .running t = .running := update_self ..
  refine h.advance (fun p hp => nomatch hready.symm.trans (h.blocked_of_mem hp).1) rfl rfl rfl
    (fun u hu => ⟨update_of_ne hu .., update_of_ne hu .., update_of_ne hu ..⟩)
    (fun hblocked => nomatch hrun.symm.trans hblocked) (fun hon => ?_) (.inr (update_self ..))
    (fun j r _ hj => ?_) (.inl rfl)
  · cases (update_self ..).symm.trans hon
  · cases hrq.symm.trans (h.fits_of hj).2

variable [Fintype τ]

omit [DecidableEq τ] [DecidableEq θ] [DecidableEq κ] [Fintype τ] in
theorem inHand_of_mem (ht : t ∈ lists (.inr k)) : InHand s k t :=
  .inr ⟨lists (.inr k), h.linked.chain (.inr k), ht⟩

omit [Fintype τ] [DecidableEq τ] [DecidableEq θ] [DecidableEq κ] in
theorem notMem_of_inHand (ht : InHand s k t) (q : θ) :
    t ∉ lists (.inl q) := by
  rcases ht with ⟨rest, hpc⟩ | ⟨l, hl, hmem⟩
  · exact h.fits_of hpc (.inl q)
  · rw [(h.linked.chain (.inr k)).unique hl |>.symm] at hmem
    exact h.linked.notMem_of_ne hmem (by simp)

omit [Fintype τ] [DecidableEq τ] [DecidableEq θ] [DecidableEq κ] in
theorem notMem_of_none (ht : s.blockedOn t = none) (p : θ ⊕ κ) :
    t ∉ lists p := fun hp => (h.blocked_of_mem hp).2 ht

omit [Fintype τ] [DecidableEq τ] in
theorem afterRemove (ht : ∀ p, t ∉ lists p) (who : Remover)
    (hrest : (s.pc k).rest = none) (hpc : ∀ u rest, s.pc k ≠ .wake u rest) :
    Sound (s.setPc k (Waitq.afterRemove t who false)) lists := by
  cases who with
  | signal =>
      exact h.setPc hrest.symm (fun u rest hu => absurd hu (hpc u rest)) ht nofun
  | timer => exact h.setPc hrest.symm (fun u rest hu => absurd hu (hpc u rest)) trivial nofun

theorem removeLocked {who : Remover} {found : Bool} (hpc : s.pc k = .removing t q who)
    (hon : s.blockedOn t = some q) (hfree : ∀ j, t ∉ lists (.inr j))
    (hs : s.removeFrom q t = some (found, s')) :
    ∃ lists', Sound (s'.setPc k (Waitq.afterRemove t who found)) lists' := by
  have hrest : (s.pc k).rest = none := by rw [hpc]; rfl
  have hwake : ∀ u rest, s.pc k ≠ .wake u rest := by simp [hpc]
  -- the thread is queued, or it is not asleep at all
  by_cases hmem : ∃ p, t ∈ lists p
  · obtain ⟨p, hp⟩ := hmem
    cases p with
    | inl q' =>
        obtain rfl : q' = q := some.inj ((h.on_queue hp).2.symm.trans hon)
        obtain ⟨s₁, lists', hs₁, hsound⟩ := h.removeFrom_queued hp hwake hrest
        cases hs₁.symm.trans hs
        refine ⟨lists', ?_⟩
        cases who with
        | signal | timer => exact hsound
    | inr j => exact absurd hp (hfree j)
  · rw [not_exists] at hmem
    obtain ⟨s₁, hs₁, hsound, hpc₁⟩ := h.removeFrom_absent (q := q) hmem
    cases hs₁.symm.trans hs
    rw [← hpc₁] at hrest hwake
    exact ⟨lists, hsound.afterRemove hmem who hrest hwake⟩

omit [Fintype τ] [DecidableEq τ] in
theorem removeOther {who : Remover} (hpc : s.pc k = .removing t q who)
    (hon : s.blockedOn t ≠ some q) : Sound (s.setPc k (Waitq.afterRemove t who false)) lists :=
  h.afterRemove (h.notMem_of_none ((h.fits_of hpc).resolve_right hon)) who (by rw [hpc]; rfl)
    (by simp [hpc])

end Sound

variable [Fintype τ] {a : WaitAct τ θ κ}

theorem waitStep_sound (h : Sound s lists) (hok : Orderly s a) (hs : waitStep s a = some s') :
    ∃ lists', Sound s' lists' := by
  revert hs
  -- the two steps that follow links may not end; of the others the result is known
  fun_cases waitStep s a <;> intro hs <;> try cases hs
  · next hrun => exact ⟨_, h.sleepOn hrun hok _⟩
  · exact ⟨lists, h⟩
  · next hidle _ _ hs₁ => exact h.wakeOne hidle hs₁
  · next k q hidle =>
      obtain ⟨s₁, woken, lists', hs₁, hsound⟩ := h.wakeAll (q := q) hidle
      rw [hs₁] at hs
      cases hs
      exact ⟨lists', hsound⟩
  · next hpc => exact ⟨lists, h.setPc (by rw [hpc]; rfl) (by simp [hpc]) trivial nofun⟩
  · next hpc =>
      obtain ⟨lists', hsound, -⟩ := h.handNext hpc
      exact ⟨lists', hsound⟩
  · next hpc ht => exact ⟨lists, h.exchange hpc ht⟩
  · next hpc ht => exact ⟨lists, h.pass hpc ht⟩
  · next hpc => exact ⟨lists, h.publish hpc⟩
  · next hpc => exact ⟨lists, h.setPc (by rw [hpc.1]; rfl) (by simp [hpc.1]) trivial nofun⟩
  · next hpc => exact ⟨lists, h.setPc (by rw [hpc]; rfl) (by simp [hpc]) trivial nofun⟩
  · next who hpc hnone =>
      exact ⟨lists, h.afterRemove (h.notMem_of_none hnone) who (by rw [hpc]; rfl) (by simp [hpc])⟩
  · next hpc _ hq => exact ⟨lists, h.setPc (by rw [hpc]; rfl) (by simp [hpc]) (.inr hq) nofun⟩
  · next k t q who hpc hon =>
      obtain ⟨⟨found, s₁⟩, hs₁, rfl⟩ := map_eq_some_iff.1 hs
      exact h.removeLocked hpc hon (fun j hj => hok t q who hpc hon j (h.inHand_of_mem hj)) hs₁
  · next hpc hon => exact ⟨lists, h.removeOther hpc hon⟩
  · next hready => exact ⟨lists, h.run hready.1 hready.2⟩

theorem Sound.of_init (h : waitSystem.init s) : Sound s fun _ => [] := by
  obtain ⟨hrun, -, hrq, hhead, htail, hpc⟩ := h
  refine ⟨⟨⟨fun p => ?_, fun _ => nodup_nil, nofun⟩, htail⟩, fun t => ?_, ?_, ?_⟩
  · cases p with
    | inl q => exact hhead q
    | inr k => simp [Waits.start, hpc, Pc.rest, Lib.Chain]
  · refine ⟨nofun, fun ht => ?_, fun ht => ?_⟩
    · cases (hrun t).symm.trans ht
    · cases (hrq t).symm.trans ht
  · intro k
    rw [hpc k]
    trivial
  · rintro t j k ⟨rest, hj⟩
    cases (hpc j).symm.trans hj

theorem exists_sound (hr : waitSystem.Reach Orderly s) : ∃ lists, Sound s lists :=
  hr.invariant (fun s => ∃ lists, Sound s lists) (fun _ h => ⟨_, .of_init h⟩)
    fun _ _ _ ⟨_, h⟩ hok hs => waitStep_sound h hok hs

def MadeReady (s : Waits τ θ κ) (k : κ) (t : τ) : Prop :=
  ∃ n s', ownSteps k n s = some s' ∧ s'.state t = .ready

theorem MadeReady.of_step (hs : ownStep k s = some s') (h : MadeReady s' k t) :
    MadeReady s k t := by
  obtain ⟨n, s₂, hn, ht⟩ := h
  refine ⟨n + 1, s₂, ?_, ht⟩
  rw [ownSteps, hs]
  exact hn

theorem MadeReady.of_wake (hpc : s.pc k = .wake t rest)
    (ht : s.state t = .blocked) : MadeReady s k t := by
  refine ⟨1, { s with state := update s.state t .ready }.setPc k (.publish t rest), ?_,
    update_self ..⟩
  simp [ownSteps, ownStep, waitStep, hpc, ht]

theorem MadeReady.of_rest {u : τ} (h : Sound s lists)
    (hl : lists (.inr k) = l) (hpc : s.pc k = .wake u rest ∨ s.pc k = .publish u rest)
    (hhand : ∀ (s : Waits τ θ κ) lists, Sound s lists → lists (.inr k) = l →
      s.pc k = .hand rest → MadeReady s k t) : MadeReady s k t := by
  have hpublish : ∀ s : Waits τ θ κ, Sound s lists → s.pc k = .publish u rest →
    MadeReady s k t := by
    intro s h hpc
    refine .of_step ?_ (hhand _ lists (h.publish hpc) hl pc_setPc_self)
    simp [ownStep, waitStep, hpc]
  rcases hpc with hpc | hpc
  · by_cases hu : s.state u = .blocked
    · refine .of_step ?_ (hpublish _ (h.exchange hpc hu) pc_setPc_self)
      simp [ownStep, waitStep, hpc, hu]
    · have hs : ownStep k s = some (s.setPc k (.hand rest)) := by
        simp [ownStep, waitStep, hpc, hu]
      exact .of_step hs (hhand _ lists (h.pass hpc hu) hl pc_setPc_self)
  · exact hpublish s h hpc

theorem MadeReady.of_hand (ht : t ∈ l) (h : Sound s lists)
    (hl : lists (.inr k) = l) (hpc : s.pc k = .hand rest) : MadeReady s k t := by
  induction l generalizing s lists rest with
  | nil => cases ht
  | cons x l ih =>
      have hchain := h.linked.chain (.inr k)
      rw [hl] at hchain
      obtain rfl : rest = some x := by
        have := hchain.1
        simpa [Waits.start, hpc, Pc.rest] using this
      obtain ⟨lists', h', hl'⟩ := h.handNext hpc
      rw [hl, List.cons.injEq] at hl'
      have hblocked := (h.blocked_of_mem (hl ▸ ht : t ∈ lists (.inr k))).1
      have hs : ownStep k s = some ({ s with next := update s.next x none }.setPc k
          (.wake x (s.next x))) := by
        simp [ownStep, waitStep, hpc]
      refine .of_step hs ?_
      by_cases hxt : x = t
      · subst hxt
        exact .of_wake pc_setPc_self hblocked
      · have hrest := (mem_cons.1 ht).resolve_left (Ne.symm hxt)
        exact .of_rest h' hl'.2.symm (.inl pc_setPc_self) fun _ _ h hl hpc => ih hrest h hl hpc

omit [DecidableEq τ] [DecidableEq θ] [DecidableEq κ] [Fintype τ] in
theorem not_inHand (hwake : ∀ rest, s.pc k ≠ .wake t rest) (hrest : (s.pc k).rest = none) :
    ¬ InHand s k t := by
  rintro (⟨rest, hpc⟩ | ⟨l, hl, hmem⟩)
  · exact hwake rest hpc
  · rw [hrest] at hl
    rw [hl.of_none] at hmem
    cases hmem

theorem Sound.madeReady (h : Sound s lists) (ht : s.state t = .blocked) (hk : InHand s k t) :
    MadeReady s k t := by
  rcases hk with ⟨rest, hpc⟩ | ⟨l, hl, hmem⟩
  · exact .of_wake hpc ht
  · have hlists := (h.linked.chain (.inr k)).unique hl
    cases hpc : s.pc k with
    | hand rest => exact .of_hand hmem h hlists hpc
    | wake u rest =>
        exact .of_rest h hlists (.inl hpc) fun _ _ h hl hpc => .of_hand hmem h hl hpc
    | publish u rest =>
        exact .of_rest h hlists (.inr hpc) fun _ _ h hl hpc => .of_hand hmem h hl hpc
    | _ =>
        rw [hpc] at hl
        rw [hl.of_none] at hmem
        cases hmem

/-- In every run in which no removal goes through for a thread that a waker has in hand, and
no thread sleeps again while an earlier wake of it is in progress: the links of each queue,
from its head to its tail, are the threads blocked on it that no waker has taken; a thread
that is blocked on no queue is in some waker's hand; and a waker's own steps make ready every
thread it has in hand. -/
theorem no_waiter_dropped (hr : waitSystem.Reach Orderly s) :
    (∀ q, ∃ l, Chain s.next (s.head q) l ∧ s.tail q = l.getLast? ∧ l.Nodup ∧
      ∀ t, t ∈ l ↔ s.state t = .blocked ∧ s.blockedOn t = some q ∧ ∀ k, ¬ InHand s k t) ∧
    (∀ t, s.state t = .blocked → s.blockedOn t ≠ none ∨ ∃ k, InHand s k t) ∧
    ∀ k t, s.state t = .blocked → InHand s k t → MadeReady s k t := by
  obtain ⟨lists, h⟩ := exists_sound hr
  refine ⟨fun q => ⟨lists (.inl q), h.linked.chain (.inl q), h.last q, h.linked.nodup (.inl q),
    fun t => ⟨fun ht => ?_, fun ⟨hblocked, hon, hno⟩ => ?_⟩⟩, fun t ht => ?_,
    fun k t ht hk => h.madeReady ht hk⟩
  · obtain ⟨hblocked, hon⟩ := h.on_queue ht
    exact ⟨hblocked, hon, fun k hk => h.notMem_of_inHand hk q ht⟩
  · rcases (h.placed t).asleep hblocked with ⟨p, hp⟩ | ⟨k, rest, hk⟩
    · cases p with
      | inl q' =>
          obtain rfl : q' = q := some.inj ((h.on_queue hp).2.symm.trans hon)
          exact hp
      | inr k => exact absurd (h.inHand_of_mem hp) (hno k)
    · exact absurd (.inl ⟨rest, hk⟩) (hno k)
  · rcases (h.placed t).asleep ht with ⟨p, hp⟩ | ⟨k, rest, hk⟩
    · exact .inl (h.blocked_of_mem hp).2
    · exact .inr ⟨k, .inl ⟨rest, hk⟩⟩

abbrev SmallWaits := Waits (Fin 2) (Fin 1) (Fin 2)

def awake : SmallWaits :=
  ⟨fun _ => .running, fun _ => none, fun _ => none, fun _ => false, fun _ => none, fun _ => none,
    fun _ => .idle⟩

theorem awake_init : waitSystem.init awake :=
  ⟨fun _ => rfl, fun _ => rfl, fun _ => rfl, fun _ => rfl, fun _ => rfl, fun _ => rfl⟩

/-- The step is not one that `Orderly` speaks of, or no waker is at work. -/
def Quiet (s : Waits τ θ κ) : WaitAct τ θ κ → Prop
  | .removeLocked k => ∀ j, j ≠ k → s.pc j = .idle
  | .sleep _ _ => ∀ k, s.pc k = .idle
  | _ => True

instance [Fintype κ] (s : Waits τ θ κ) (a : WaitAct τ θ κ) : Decidable (Quiet s a) := by
  cases a <;> unfold Quiet <;> infer_instance

omit [DecidableEq τ] [DecidableEq θ] [Fintype τ] in
theorem Quiet.orderly (h : Quiet s a) : Orderly s a := by
  cases a with
  | removeLocked k =>
      intro t q who hpc _ j
      by_cases hjk : j = k
      · exact not_inHand (by simp [hjk, hpc]) (by rw [hjk, hpc]; rfl)
      · exact not_inHand (by simp [h j hjk]) (by rw [h j hjk]; rfl)
  | sleep t q =>
      intro k
      rw [h k]
      nofun
  | _ => trivial

theorem no_waiter_dropped_signalled : ∃ s : SmallWaits, waitSystem.Reach Orderly s ∧
    (s.state 0 = .ready ∧ s.state 1 = .blocked ∧ s.pc 0 = .hand (some 1)) ∧
    (∃ l, Chain s.next (s.head 0) l ∧ s.tail 0 = l.getLast?) ∧ MadeReady s 0 1 := by
  obtain ⟨s, hr, hs⟩ : ∃ s : SmallWaits, waitSystem.Reach Quiet s ∧
      (s.state 0 = .ready ∧ s.state 1 = .blocked ∧ s.pc 0 = .hand (some 1) ∧ s.next 1 = none) :=
    System.Reach.exists_of_run [.sleep 0 0, .sleep 1 0, .signal 1 0, .removeRead 1, .removeLocked 1,
      .exchange 1, .publish 1, .wakeAll 0 0] awake_init (by decide +kernel)
  have hr' := hr.mono fun _ _ => Quiet.orderly
  obtain ⟨hqueue, -, hready⟩ := no_waiter_dropped hr'
  obtain ⟨l, hl, hlast, -⟩ := hqueue 0
  refine ⟨s, hr', ⟨hs.1, hs.2.1, hs.2.2.1⟩, ⟨l, hl, hlast⟩, hready 0 1 hs.2.1 (.inr ⟨[1], ?_, ?_⟩)⟩
  · rw [hs.2.2.1]
    exact ⟨rfl, hs.2.2.2⟩
  · exact mem_cons_self

/-- A signal removes a thread that `waitq_wake_all` has drained: the link to the other drained
thread is cut, and that thread stays blocked, on no queue and in nobody's hand. -/
theorem drained_waiter_lost : ∃ s : SmallWaits, waitSystem.Reach (fun _ _ => True) s ∧
    s.state 0 = .blocked ∧ s.head 0 = none ∧ (∀ k, s.pc k = .idle) ∧ ∀ k, ¬ InHand s k 0 := by
  refine System.Reach.exists_of_run_imp [.sleep 0 0, .sleep 1 0, .wakeAll 0 0, .signal 1 1,
    .removeRead 1, .removeLocked 1, .handNext 0, .exchange 0, .publish 0, .handNext 0, .exchange 1,
    .handNext 1] awake_init (by decide +kernel)
    fun s _ (hs : s.state 0 = .blocked ∧ s.head 0 = none ∧ ∀ k, s.pc k = .idle) =>
      ⟨hs.1, hs.2.1, hs.2.2, fun k => not_inHand (by simp [hs.2.2 k]) ?_⟩
  rw [hs.2.2 k]
  rfl

end NeoKernel.Waitq
