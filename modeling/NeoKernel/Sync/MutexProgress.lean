import NeoKernel.Sync.Mutex
import NeoKernel.Sync.WaitqSound

/-!
# A contended mutex makes progress

The guard and the mutex each have one owner, who is known by where the threads are in the
code. A free mutex with a thread on its queue always has a witness: a thread that has been
woken and has not yet looked at `m->locked` again, or the one that is about to wake it.
-/
namespace NeoKernel.Lock
open Lib Waitq Function Option

variable {τ κ : Type*} [DecidableEq τ] [DecidableEq κ] {a : WaitAct τ Unit (τ ⊕ κ)}
  {pc : τ → LockPc} {p q : LockPc} {t : τ} {locked : Bool} {w w' : Waits τ Unit (τ ⊕ κ)}
  {s s' : Mutex τ κ} {c : τ ⊕ κ}

/-- `o` is the one thread at a place where `f` holds. -/
def Sole (f : LockPc → Bool) (pc : τ → LockPc) (o : Option τ) : Prop :=
  ∀ t, f (pc t) = true ↔ o = some t

section Sole

variable {f : LockPc → Bool} {o : Option τ}

theorem Sole.keep (h : Sole f pc o) (hp : f p = f (pc t)) :
    Sole f (update pc t p) o := by
  intro u
  rw [update_keeps f hp u]
  exact h u

theorem Sole.take (h : Sole f pc none) (hp : f p = true) :
    Sole f (update pc t p) (some t) := by
  intro u
  by_cases hu : u = t
  · subst hu
    rw [update_self, hp]
    exact iff_of_true rfl rfl
  · rw [update_of_ne hu]
    refine iff_of_false (fun hf => nomatch (h u).1 hf) fun he => hu (some.inj he).symm

theorem Sole.drop (h : Sole f pc (some t)) (hp : f p = false) :
    Sole f (update pc t p) none := by
  intro u
  refine iff_of_false (fun hf => ?_) nofun
  by_cases hu : u = t
  · rw [hu, update_self, hp] at hf
    cases hf
  · rw [update_of_ne hu] at hf
    exact hu (some.inj ((h u).1 hf)).symm

end Sole

def LockPc.refused : LockPc → Bool
  | .sleeping | .enqueuing => true
  | _ => false

structure Owned (pc : τ → LockPc) (guard : Option τ) (locked : Bool) : Prop where
  guard : Sole LockPc.guards pc guard
  holder : ∃ o, Sole LockPc.holds pc o ∧ locked = o.isSome
  refused : ∀ t, (pc t).refused = true → locked = true

section Owned

variable {guard : Option τ}

section

omit [DecidableEq τ]

theorem Owned.guard_of (h : Owned pc guard locked) (hp : (pc t).guards = true) : guard = some t :=
  (h.guard t).1 hp

theorem Owned.locked_of (h : Owned pc guard locked) (hp : (pc t).holds = true) : locked = true := by
  obtain ⟨o, ho, hlocked⟩ := h.holder
  rw [hlocked, (ho t).1 hp]
  rfl

theorem Owned.holds_unique (h : Owned pc guard locked) {u : τ} (ht : (pc t).holds = true)
    (hu : (pc u).holds = true) : t = u := by
  obtain ⟨o, ho, -⟩ := h.holder
  exact some.inj (((ho t).1 ht).symm.trans ((ho u).1 hu))

theorem Owned.not_guards (h : Owned pc none locked) (u : τ) : (pc u).guards = false := by
  rw [Bool.eq_false_iff]
  intro hu
  cases h.guard_of hu

end

theorem Owned.refused_move (h : Owned pc guard locked) (hp : p.refused = true → locked = true)
    (u : τ) : (update pc t p u).refused = true → locked = true :=
  (forall_update_iff pc fun _ q => q.refused = true → locked = true).2
    ⟨hp, fun u _ => h.refused u⟩ u

theorem Owned.setPc (h : Owned pc guard locked) (hpc : pc t = q) (hguards : p.guards = q.guards)
    (hholds : p.holds = q.holds) (hrefused : p.refused = true → locked = true) :
    Owned (update pc t p) guard locked := by
  subst hpc
  obtain ⟨o, ho, hlocked⟩ := h.holder
  exact ⟨h.guard.keep hguards, ⟨o, ho.keep hholds, hlocked⟩, h.refused_move hrefused⟩

theorem Owned.dropGuard (h : Owned pc guard locked) (hpc : pc t = q) (hguards : q.guards = true)
    (hp : p.guards = false) (hholds : p.holds = q.holds) : Owned (update pc t p) none locked := by
  subst hpc
  obtain ⟨o, ho, hlocked⟩ := h.holder
  have hguard := h.guard
  rw [h.guard_of hguards] at hguard
  refine ⟨hguard.drop hp, ⟨o, ho.keep hholds, hlocked⟩, h.refused_move fun hq => ?_⟩
  cases p <;> cases hp <;> cases hq

theorem Owned.testing (h : Owned pc none locked) (hholds : (pc t).holds = false) :
    Owned (update pc t .testing) (some t) locked := by
  obtain ⟨o, ho, hlocked⟩ := h.holder
  exact ⟨h.guard.take rfl, ⟨o, ho.keep hholds.symm, hlocked⟩, h.refused_move nofun⟩

theorem Owned.cleared (h : Owned pc none locked) (hpc : pc t = .unlocking) :
    Owned (update pc t .cleared) (some t) false := by
  obtain ⟨o, ho, -⟩ := h.holder
  obtain rfl : o = some t := (ho t).1 (hpc ▸ rfl)
  refine ⟨h.guard.take rfl, ⟨none, ho.drop rfl, rfl⟩, ?_⟩
  refine (forall_update_iff pc fun _ q => q.refused = true → _).2 ⟨nofun, fun u _ hu => ?_⟩
  -- who has been refused has the guard
  have hno := h.not_guards u
  cases hq : pc u with
  | sleeping | enqueuing =>
      rw [hq] at hno
      cases hno
  | _ =>
      rw [hq] at hu
      cases hu

theorem Owned.taken (h : Owned pc guard false) (hpc : pc t = .testing) :
    Owned (update pc t .taken) guard true := by
  obtain ⟨o, ho, ho'⟩ := h.holder
  obtain rfl : o = none := isNone_iff_eq_none.1 (isSome_eq_false_iff.1 ho'.symm)
  exact ⟨h.guard.keep (hpc ▸ rfl), ⟨some t, ho.take rfl, rfl⟩, fun _ _ => rfl⟩

end Owned

/-- How many of its own steps a waker or remover still has. -/
def rank : Pc τ Unit → Nat
  | .idle => 0
  | .hand _ => 1
  | .publish _ _ => 2
  | .wake _ _ => 3
  | .removing _ _ _ => 4
  | .remove _ _ => 5

def Fits : LockPc → ThreadState → Prop
  | .queued, st => st = .blocked
  | .parked, st => st ≠ .running
  | _, st => st = .running

/-- What a context is doing: it has no list of threads to wake, and a thread's own context is at
work in `mutex_unlock` only, where it wakes one that has switched away. -/
structure Working (pc : τ → LockPc) (c : τ ⊕ κ) (q : Pc τ Unit) : Prop where
  rest : q.rest = none
  own : ∀ u, c = .inl u → q ≠ .idle → pc u = .waking ∧ rank q ≤ 3
  target : ∀ u, c = .inl u → ∀ t r, q = .wake t r → pc t = .parked ∨ pc t = .resumed

structure Queueing (pc : τ → LockPc) (w : Waits τ Unit (τ ⊕ κ)) : Prop where
  sound : ∃ lists, Sound w lists
  fits : ∀ t, Fits (pc t) (w.state t)
  contexts : ∀ c, Working pc c (w.pc c)

/-- The thread has been taken off the queue, and is on its way to the test of the loop. -/
def Woken (pc : τ → LockPc) (w : Waits τ Unit (τ ⊕ κ)) (t : τ) : Prop :=
  (pc t = .parked ∧ (w.state t = .ready ∨ ∃ u r, w.pc (.inl u) = .wake t r)) ∨
    pc t = .resumed ∨ pc t = .testing

def Witnessed (pc : τ → LockPc) (locked : Bool) (w : Waits τ Unit (τ ⊕ κ)) : Prop :=
  locked = false → w.head () ≠ none → ∃ t, Woken pc w t ∨ pc t = .cleared

structure Inv (s : Mutex τ κ) : Prop extends Owned s.pc s.guard s.locked,
    Queueing s.pc s.waiters where
  witnessed : Witnessed s.pc s.locked s.waiters

section Moves

variable {x x' : Pc τ Unit}

omit [DecidableEq τ] [DecidableEq κ] in
theorem Working.lower (h : Working pc c x) (hrest : x'.rest = none) (hlower : rank x' < rank x) :
    Working pc c x' := by
  have hown : ∀ u, c = .inl u → pc u = .waking ∧ rank x ≤ 3 := by
    rintro u hu
    refine h.own u hu ?_
    rintro rfl
    exact absurd hlower (Nat.not_lt_zero _)
  refine ⟨hrest, fun u hu _ => ⟨(hown u hu).1, hlower.le.trans (hown u hu).2⟩,
    fun u hu t r hx' => ?_⟩
  have hlow := hlower.trans_le (hown u hu).2
  rw [hx'] at hlow
  exact absurd hlow (Nat.lt_irrefl 3)

omit [DecidableEq κ] in
theorem Working.move (h : Working pc c x) (hidle : c = .inl t → x = .idle)
    (htarget : (∀ u, c = .inl u → ∀ r, x ≠ .wake t r) ∨ p = .parked ∨ p = .resumed) :
    Working (update pc t p) c x := by
  refine ⟨h.rest, fun u hu hne => ?_, fun u hu v r hx => ?_⟩
  · have hut : u ≠ t := by
      rintro rfl
      exact hne (hidle hu)
    rw [update_of_ne hut]
    exact h.own u hu hne
  · by_cases hvt : v = t
    · rw [hvt, update_self]
      exact htarget.resolve_left fun hno => hno u hu r (hvt ▸ hx)
    · rw [update_of_ne hvt]
      exact h.target u hu v r hx

section

variable (h : Queueing pc w)
include h

section

omit [DecidableEq κ]

theorem Queueing.relay (hsound : ∃ lists, Sound w' lists) (hcontexts : w'.pc = w.pc)
    (hstate : ∀ u, u ≠ t → w'.state u = w.state u) (hfits : Fits p (w'.state t))
    (hidle : w.pc (.inl t) = .idle)
    (htarget : (∀ u r, w.pc (.inl u) ≠ .wake t r) ∨ p = .parked ∨ p = .resumed) :
    Queueing (update pc t p) w' := by
  refine ⟨hsound, ?_, fun c => ?_⟩
  · refine (forall_update_iff pc fun u q => Fits q (w'.state u)).2 ⟨hfits, fun u hut => ?_⟩
    rw [hstate u hut]
    exact h.fits u
  · rw [hcontexts]
    refine (h.contexts c).move (fun hc => hc ▸ hidle) (htarget.imp_left fun hno u hc r => ?_)
    exact hc ▸ hno u r

theorem Queueing.move (hfits : Fits p (w.state t)) (hidle : w.pc (.inl t) = .idle)
    (htarget : (∀ u r, w.pc (.inl u) ≠ .wake t r) ∨ p = .parked ∨ p = .resumed) :
    Queueing (update pc t p) w :=
  h.relay h.sound rfl (fun _ _ => rfl) hfits hidle htarget

theorem Queueing.context_idle (ht : pc t ≠ .waking) : w.pc (.inl t) = .idle := by
  by_contra hne
  exact ht ((h.contexts (.inl t)).own t rfl hne).1

end

omit [DecidableEq τ] [DecidableEq κ] in
theorem Queueing.not_target (hp : pc t ≠ .parked) (hr : pc t ≠ .resumed) (u : τ) (r : Option τ) :
    w.pc (.inl u) ≠ .wake t r := fun hu =>
  ((h.contexts (.inl u)).target u rfl t r hu).elim hp hr

omit [DecidableEq κ] in
theorem Queueing.moveFrom (hpc : pc t = q)
    (hfits : ∀ st, Fits q st → Fits p st := by exact fun _ => id)
    (hq : q ≠ .waking ∧ q ≠ .parked ∧ q ≠ .resumed := by decide) : Queueing (update pc t p) w := by
  subst hpc
  exact h.move (hfits _ (h.fits t)) (h.context_idle hq.1) (.inl (h.not_target hq.2.1 hq.2.2))

end

omit [DecidableEq κ] in
theorem Witnessed.move (h : Witnessed pc locked w) (hnot : ¬(Woken pc w t ∨ pc t = .cleared)) :
    Witnessed (update pc t p) locked w := by
  intro hfree hhead
  obtain ⟨u, hu⟩ := h hfree hhead
  have hut : u ≠ t := by
    rintro rfl
    exact hnot hu
  refine ⟨u, ?_⟩
  unfold Woken
  rw [update_of_ne hut]
  exact hu

omit [DecidableEq τ] [DecidableEq κ] in
theorem Witnessed.of_locked (h : locked = true) : Witnessed pc locked w := fun hfree =>
  nomatch h.symm.trans hfree

omit [DecidableEq τ] [DecidableEq κ] in
theorem not_woken (hpc : pc t = q)
    (hq : q ≠ .parked ∧ q ≠ .resumed ∧ q ≠ .testing ∧ q ≠ .cleared := by decide) :
    ¬(Woken pc w t ∨ pc t = .cleared) := by
  unfold Woken
  rw [hpc]
  rintro ((⟨h, -⟩ | h | h) | h)
  · exact hq.1 h
  · exact hq.2.1 h
  · exact hq.2.2.1 h
  · exact hq.2.2.2 h

section

omit [DecidableEq κ]

theorem Inv.lock (h : Inv s) (hpc : s.pc t = .out) : Inv (s.setPc t .locking) where
  toOwned := h.toOwned.setPc hpc rfl rfl nofun
  toQueueing := h.toQueueing.moveFrom hpc
  witnessed := h.witnessed.move (not_woken hpc)

theorem Inv.unlock (h : Inv s) (hpc : s.pc t = .holding) : Inv (s.setPc t .unlocking) where
  toOwned := h.toOwned.setPc hpc rfl rfl nofun
  toQueueing := h.toQueueing.moveFrom hpc
  witnessed := .of_locked (h.locked_of (hpc ▸ rfl : (s.pc t).holds = true))

theorem Inv.acquire (h : Inv s) (hs : acquireStep s t = some s') : Inv s' := by
  have hfree : s.guard = none := not_isSome_iff_eq_none.1 (ite_none_left_eq_some.1 hs).1
  have howned : Owned s.pc none s.locked := hfree ▸ h.toOwned
  have hidle : ∀ u, s.waiters.pc (.inl u) = .idle := by
    refine fun u => h.context_idle fun hu => ?_
    have hno := howned.not_guards u
    rw [hu] at hno
    cases hno
  have hno : ∀ u r, s.waiters.pc (.inl u) ≠ .wake t r := by
    intro u r hu
    cases (hidle u).symm.trans hu
  have hfits := h.fits t
  revert hs
  fun_cases acquireStep s t <;> intro hs <;> cases hs
  · next hpc =>
      rw [hpc] at hfits
      exact ⟨howned.testing (hpc ▸ rfl), h.toQueueing.move hfits (hidle t) (.inl hno),
        fun _ _ => ⟨t, .inl (.inr (.inr (update_self ..)))⟩⟩
  · next hpc =>
      rw [hpc] at hfits
      exact ⟨howned.testing (hpc ▸ rfl), h.toQueueing.move hfits (hidle t) (.inl hno),
        fun _ _ => ⟨t, .inl (.inr (.inr (update_self ..)))⟩⟩
  · next hpc =>
      rw [hpc] at hfits
      exact ⟨howned.cleared hpc, h.toQueueing.move hfits (hidle t) (.inl hno),
        fun _ _ => ⟨t, .inr (update_self ..)⟩⟩

end

end Moves

structure Frame (w w' : Waits τ Unit (τ ⊕ κ)) (c : τ ⊕ κ) : Prop where
  sound : ∃ lists, Sound w' lists
  state : ∀ u, w'.state u = w.state u ∨
    w.state u = .blocked ∧ w'.state u = .ready ∧ ∃ r, w.pc c = .wake u r
  others : ∀ d, d ≠ c → w'.pc d = w.pc d
  lower : rank (w'.pc c) < rank (w.pc c)
  rest : (w'.pc c).rest = none
  head : w.head () = none → w'.head () = none
  woke : ∀ u r, w.pc c = .wake u r → w'.state u ≠ .blocked

section Contexts

variable {lists : Unit ⊕ (τ ⊕ κ) → List τ}

omit [DecidableEq τ] in
theorem rank_afterRemove (who : Remover) (found : Bool) :
    rank (afterRemove t who found : Pc τ Unit) ≤ 3 ∧
    (afterRemove t who found : Pc τ Unit).rest = none := by
  cases who <;> cases found <;> exact ⟨by simp [afterRemove, rank], rfl⟩

omit [DecidableEq κ] in
theorem removeFrom_frame [Fintype τ] {found : Bool} (h : w.removeFrom () t = some (found, w')) :
    w'.state = w.state ∧ w'.pc = w.pc ∧ (w.head () = none → w'.head () = none) := by
  unfold Waits.removeFrom at h
  split at h
  · cases h
  · cases h
    exact ⟨rfl, rfl, id⟩
  · next hseek =>
      cases h
      refine ⟨rfl, rfl, fun hnone => ?_⟩
      -- an empty queue has no thread to find
      rw [hnone] at hseek
      cases hseek.symm.trans (Chain.seekPrev_absent (l := []) rfl (List.not_mem_nil)
        (Nat.zero_le _) none)
  · cases h
    exact ⟨rfl, rfl, id⟩

/-- A context goes to a place from which it needs fewer steps, and changes no thread's state. -/
theorem Frame.of_setPc {v : Waits τ Unit (τ ⊕ κ)} {pc : Pc τ Unit}
    (hsound : ∃ lists, Sound (v.setPc c pc) lists) (hstate : v.state = w.state)
    (hpcs : v.pc = w.pc) (hhead : w.head () = none → v.head () = none)
    (hlower : rank pc < rank (w.pc c)) (hrest : pc.rest = none)
    (hwoke : ∀ u r, w.pc c = .wake u r → w.state u ≠ .blocked) : Frame w (v.setPc c pc) c where
  sound := hsound
  state u := .inl (congrFun hstate u)
  others d hd := by rw [pc_setPc_of_ne hd, hpcs]
  lower := by rwa [pc_setPc_self]
  rest := by rwa [pc_setPc_self]
  head := hhead
  woke u r hu := congrFun hstate u ▸ hwoke u r hu

variable [Fintype τ]

theorem context_frame (h : Sound w lists) (hrest : ∀ d, (w.pc d).rest = none)
    (hact : nextAct c (w.pc c) = some a) (hs : waitStep w a = some w') : Frame w w' c := by
  have hnone := hrest c
  generalize hpc : w.pc c = x at hact hnone
  have hlower : ∀ {u who found}, rank (afterRemove u who found : Pc τ Unit) < 4 ∧
      (afterRemove u who found : Pc τ Unit).rest = none :=
    fun {_ who found} => (rank_afterRemove who found).imp_left Nat.lt_succ_of_le
  fun_cases nextAct c x <;> cases hact
  all_goals
    -- `waitStep_sound` asks for more when a thread is taken off a queue
    try have hsound := waitStep_sound h (by trivial) hs
    simp only [waitStep, hpc] at hs
  · obtain rfl := hnone
    cases hs
    exact .of_setPc hsound rfl rfl id (hpc ▸ Nat.zero_lt_one) rfl (by simp [hpc])
  · next u rest =>
      obtain rfl := hnone
      split at hs
      · next hblocked =>
          cases hs
          refine ⟨hsound, fun v => ?_, fun d hd => pc_setPc_of_ne hd, ?_, ?_, id, ?_⟩
          · by_cases hv : v = u
            · subst hv
              exact .inr ⟨hblocked, update_self .., none, hpc⟩
            · exact .inl (update_of_ne hv ..)
          · rw [pc_setPc_self, hpc]
            exact Nat.lt_succ_self 2
          · rw [pc_setPc_self]
            rfl
          · intro v r hv
            obtain rfl := (Pc.wake.inj (hpc.symm.trans hv)).1
            change update w.state u .ready u ≠ _
            rw [update_self]
            rintro ⟨⟩
      · next hawake =>
          cases hs
          refine .of_setPc hsound rfl rfl id (hpc ▸ (by decide : 1 < 3)) rfl fun v r hv => ?_
          obtain rfl := (Pc.wake.inj (hpc.symm.trans hv)).1
          exact hawake
  · obtain rfl := hnone
    cases hs
    exact .of_setPc hsound rfl rfl id (hpc ▸ Nat.lt_succ_self 1) rfl (by simp [hpc])
  · split at hs
    · cases hs
      exact .of_setPc hsound rfl rfl id (hpc ▸ hlower.1.trans (Nat.lt_succ_self 4)) hlower.2
        (by simp [hpc])
    · cases hs
      exact .of_setPc hsound rfl rfl id (hpc ▸ Nat.lt_succ_self 4) rfl (by simp [hpc])
  · next u q who =>
      split at hs
      · next hon =>
          obtain ⟨⟨found, v⟩, hv, rfl⟩ := map_eq_some_iff.1 hs
          obtain ⟨hstate, hpcs, hhead⟩ := removeFrom_frame hv
          have hfree : ∀ j, u ∉ lists (.inr j) := fun j => h.rest_nil (hrest j) ▸ List.not_mem_nil
          exact .of_setPc (h.removeLocked hpc hon hfree hv) hstate hpcs hhead
            (hpc ▸ hlower.1) hlower.2
            (by simp [hpc])
      · next hon =>
          cases hs
          exact .of_setPc ⟨lists, h.removeOther hpc hon⟩ rfl rfl id (hpc ▸ hlower.1) hlower.2
            (by simp [hpc])

theorem contextStep_some (hs : contextStep s c = some s') : waitsOffCpu s c = false ∧
    ∃ a w, nextAct c (s.waiters.pc c) = some a ∧ waitStep s.waiters a = some w ∧
      s' = { s with waiters := w } := by
  unfold contextStep at hs
  split at hs
  · cases hs
  · next hoff =>
      obtain ⟨a, ha, hs⟩ := bind_eq_some_iff.1 hs
      obtain ⟨w, hw, rfl⟩ := map_eq_some_iff.1 hs
      exact ⟨Bool.eq_false_iff.2 hoff, a, w, ha, hw, rfl⟩

theorem Inv.context (h : Inv s) (hs : contextStep s c = some s') :
    Inv s' ∧ s'.pc = s.pc ∧ s'.guard = s.guard ∧ Frame s.waiters s'.waiters c := by
  obtain ⟨hoff, a, w, hact, hw, rfl⟩ := contextStep_some hs
  obtain ⟨lists, hsound⟩ := h.sound
  have hframe := context_frame hsound (fun d => (h.contexts d).rest) hact hw
  refine ⟨⟨h.toOwned, ⟨hframe.sound, fun u => ?_, fun d => ?_⟩, fun hfree hhead => ?_⟩,
    rfl, rfl, hframe⟩
  · have hfits := h.fits u
    rcases hframe.state u with heq | ⟨hblocked, hready, r, hwake⟩
    · change Fits (s.pc u) (w.state u)
      rw [heq]
      exact hfits
    · change Fits (s.pc u) (w.state u)
      rw [hready]
      -- the thread has switched away
      have hnot : s.pc u ≠ .queued := by
        intro hq
        rw [waitsOffCpu, hwake] at hoff
        simp [hq] at hoff
      rw [hblocked] at hfits
      cases hpc : s.pc u with
      | queued => exact absurd hpc hnot
      | parked => exact nofun
      | _ =>
          rw [hpc] at hfits
          cases hfits
  · by_cases hd : d = c
    · subst hd
      exact (h.contexts d).lower hframe.rest hframe.lower
    · change Working s.pc d (w.pc d)
      rw [hframe.others d hd]
      exact h.contexts d
  · obtain ⟨u, hu⟩ := h.witnessed hfree fun hnone => hhead (hframe.head hnone)
    refine ⟨u, hu.imp_left ?_⟩
    rintro (⟨hparked, hwoken⟩ | hrest)
    · refine .inl ⟨hparked, ?_⟩
      rcases hframe.state u with heq | ⟨-, hready, -⟩
      · have hrunning : s.waiters.state u ≠ .running := by simpa [Fits, hparked] using h.fits u
        rcases hwoken with hready | ⟨x, r, hx⟩
        · exact .inl (heq.trans hready)
        · by_cases hc : Sum.inl x = c
          · -- its waker has found it awake
            have hblocked := hframe.woke u r (hc ▸ hx)
            change w.state u = .ready ∨ _
            cases hst : w.state u with
            | ready => exact .inl rfl
            | blocked => exact absurd hst hblocked
            | running => exact absurd (heq.symm.trans hst) hrunning
          · exact .inr ⟨x, r, (hframe.others _ hc).trans hx⟩
      · exact .inl hready
    · exact .inr hrest

end Contexts

section Threads

variable [Fintype τ]

theorem onQueue_some (hs : onQueue s a = some s') :
    ∃ w, waitStep s.waiters a = some w ∧ s' = { s with waiters := w } := by
  obtain ⟨w, hw, rfl⟩ := map_eq_some_iff.1 hs
  exact ⟨w, hw, rfl⟩

theorem Inv.enqueue (h : Inv s) (hpc : s.pc t = .enqueuing)
    (hfree : ∀ c, (s.waiters.pc c).current ≠ some t) (hs : onQueue s (.sleep t ()) = some s') :
    Inv (s'.setPc t .queued) := by
  obtain ⟨w, hw, rfl⟩ := onQueue_some hs
  obtain ⟨lists, hsound⟩ := h.sound
  have hsound' := waitStep_sound (a := .sleep t ()) hsound hfree hw
  have hlocked := h.refused t (hpc ▸ rfl)
  obtain ⟨hstate, hcontexts⟩ : w.state = update s.waiters.state t .blocked ∧
      w.pc = s.waiters.pc := by
    simp only [waitStep, Waits.sleepOn] at hw
    obtain ⟨-, ⟨⟩⟩ := ite_none_right_eq_some.1 hw
    rw [enqueue_frame]
    exact ⟨rfl, rfl⟩
  refine ⟨h.toOwned.setPc hpc rfl rfl (by simp [LockPc.refused]),
    h.toQueueing.relay hsound' hcontexts
    (fun u hu => ?_) ?_ (h.context_idle (by simp [hpc]))
    (.inl (h.not_target (by simp [hpc]) (by simp [hpc]))), .of_locked hlocked⟩
  · change w.state u = _
    rw [hstate, update_of_ne hu]
  · change w.state t = _
    rw [hstate, update_self]

omit [DecidableEq κ] [Fintype τ] [DecidableEq τ] in
theorem Inv.parked_of_blocked (h : Inv s) {u : τ} (hblocked : s.waiters.state u = .blocked)
    (hguard : s.guard ≠ some u) : s.pc u = .parked := by
  have hfits := h.fits u
  rw [hblocked] at hfits
  cases hpc : s.pc u with
  | parked => rfl
  | queued => exact absurd (h.guard_of (hpc ▸ rfl)) hguard
  | _ =>
      rw [hpc] at hfits
      cases hfits

omit [Fintype τ] [DecidableEq τ] [DecidableEq κ] in
theorem head_blocked {w : Waits τ Unit (τ ⊕ κ)} {lists : Unit ⊕ (τ ⊕ κ) → List τ}
    (h : Sound w lists) {u : τ} (hhead : w.head () = some u) : w.state u = .blocked := by
  have hchain : Chain w.next (w.head ()) (lists (.inl ())) := h.linked.chain (.inl ())
  cases hl : lists (.inl ()) with
  | nil =>
      rw [hl] at hchain
      cases hhead.symm.trans hchain
  | cons v l =>
      rw [hl] at hchain
      obtain rfl : v = u := some.inj (hchain.1.symm.trans hhead)
      exact (h.on_queue (hl ▸ List.mem_cons_self : v ∈ lists (.inl ()))).1

theorem Inv.wakeOne (h : Inv s) (hpc : s.pc t = .cleared)
    (hs : onQueue s (.wakeOne (.inl t) ()) = some s') :
    Inv (s'.setPc t .waking) ∧ rank (s'.waiters.pc (.inl t)) ≤ 3 := by
  obtain ⟨w, hw, rfl⟩ := onQueue_some hs
  obtain ⟨lists, hsound⟩ := h.sound
  have hsound' := waitStep_sound (a := .wakeOne (.inl t) ()) hsound trivial hw
  have howned : Owned (update s.pc t .waking) s.guard s.locked :=
    h.toOwned.setPc hpc rfl rfl nofun
  have hidle := h.context_idle (t := t) (by simp [hpc])
  have hguard : s.guard = some t := h.guard_of (hpc ▸ rfl)
  have hfits := h.fits t
  rw [hpc] at hfits
  simp only [waitStep, hidle, if_true] at hw
  unfold Waits.dequeue at hw
  cases hhead : s.waiters.head () with
  | none =>
      rw [hhead] at hw
      cases hw
      refine ⟨⟨howned, h.toQueueing.move hfits hidle
        (.inl (h.not_target (by simp [hpc]) (by simp [hpc]))), fun _ hne => absurd hhead hne⟩, ?_⟩
      rw [hidle]
      exact Nat.zero_le 3
  | some u =>
      rw [hhead] at hw
      cases hw
      have hut : u ≠ t := by
        rintro rfl
        cases hfits.symm.trans (head_blocked hsound hhead)
      have hparked : s.pc u = .parked := h.parked_of_blocked (head_blocked hsound hhead)
        fun he => hut (some.inj (he.symm.trans hguard))
      have hparked' : update s.pc t .waking u = .parked := by
        rw [update_of_ne hut, hparked]
      refine ⟨⟨howned, ⟨hsound', ?_, ?_⟩, fun _ _ => ⟨u, .inl (.inl ⟨hparked', ?_⟩)⟩⟩, ?_⟩
      · exact (forall_update_iff s.pc fun v q => Fits q (s.waiters.state v)).2
          ⟨hfits, fun v _ => h.fits v⟩
      · refine (forall_update_iff s.waiters.pc (Working (update s.pc t .waking))).2
          ⟨⟨rfl, ?_, ?_⟩, ?_⟩
        · rintro _ ⟨⟩ -
          exact ⟨update_self .., Nat.le_refl 3⟩
        · rintro _ - _ _ ⟨⟩
          exact .inl hparked'
        · intro c hc
          refine (h.contexts c).move (fun he => absurd he hc) (.inl ?_)
          rintro v rfl
          exact h.not_target (by simp [hpc]) (by simp [hpc]) v
      · exact .inr ⟨t, none, pc_setPc_self⟩
      · exact (congrArg rank pc_setPc_self).le

theorem Inv.run (h : Inv s) (hpc : s.pc t = .parked) (hs : onQueue s (.run t) = some s') :
    Inv (s'.setPc t .resumed) ∧ s'.waiters.pc = s.waiters.pc := by
  obtain ⟨w, hw, rfl⟩ := onQueue_some hs
  obtain ⟨lists, hsound⟩ := h.sound
  have hsound' := waitStep_sound (a := .run t) hsound trivial hw
  simp only [waitStep] at hw
  split at hw
  · cases hw
    exact ⟨⟨h.toOwned.setPc hpc rfl rfl (by simp [LockPc.refused]), h.toQueueing.relay hsound' rfl
      (fun _ hu => update_of_ne hu ..) (update_self ..) (h.context_idle (by simp [hpc]))
      (.inr (.inr rfl)), fun _ _ => ⟨t, .inl (.inr (.inl (update_self ..)))⟩⟩, rfl⟩
  · cases hw

theorem Inv.signal {k : κ} (h : Inv s) (hs : onQueue s (.signal (.inr k) t) = some s') :
    Inv s' ∧ s'.pc = s.pc ∧ s'.guard = s.guard ∧
      ∀ u, s'.waiters.pc (.inl u) = s.waiters.pc (.inl u) := by
  obtain ⟨w, hw, rfl⟩ := onQueue_some hs
  obtain ⟨lists, hsound⟩ := h.sound
  have hsound' := waitStep_sound (a := .signal (.inr k) t) hsound trivial hw
  simp only [waitStep] at hw
  split at hw
  · cases hw
    have hsame : ∀ u, (s.waiters.setPc (.inr k) (.remove t .signal)).pc (.inl u) =
        s.waiters.pc (.inl u) :=
      fun u => pc_setPc_of_ne Sum.inl_ne_inr
    refine ⟨⟨h.toOwned, ⟨hsound', h.fits, ?_⟩, fun hfree hhead => ?_⟩, rfl, rfl, hsame⟩
    · exact (forall_update_iff s.waiters.pc (Working s.pc)).2
        ⟨⟨rfl, by simp, by simp⟩, fun c _ => h.contexts c⟩
    · obtain ⟨u, hu⟩ := h.witnessed hfree hhead
      refine ⟨u, hu.imp_left (Or.imp_left (And.imp_right (Or.imp_right ?_)))⟩
      rintro ⟨x, r, hx⟩
      exact ⟨x, r, (hsame x).trans hx⟩
  · cases hw

/-- How many steps the thread that has the guard still needs to drop it. -/
def stepsLeft (s : Mutex τ κ) (t : τ) : Nat :=
  match s.pc t with
  | .testing => 4
  | .sleeping => 3
  | .enqueuing => 2
  | .queued | .taken => 1
  | .cleared => 5
  | .waking => rank (s.waiters.pc (.inl t)) + 1
  | _ => 0

/-- The thread with the guard goes on, and comes closer to dropping it. -/
theorem Inv.go (h : Inv s) (hok : Undisturbed s (.go t)) (hs : goStep s t = some s') :
    Inv s' ∧ stepsLeft s' t < stepsLeft s t := by
  obtain ⟨hquiet, hfree⟩ := hok
  have hfits := h.fits t
  have hself : ∀ {x : Mutex τ κ} {p : LockPc}, (x.setPc t p).pc t = p := update_self ..
  revert hs
  fun_cases goStep s t <;> intro hs
  · next hpc hlocked =>
      cases hs
      exact ⟨⟨h.toOwned.setPc hpc rfl rfl fun _ => hlocked, h.toQueueing.moveFrom hpc,
        .of_locked hlocked⟩, by simp [stepsLeft, hself, hpc]⟩
  · next hpc hlocked =>
      cases hs
      have howned : Owned s.pc s.guard false := Bool.eq_false_iff.2 hlocked ▸ h.toOwned
      exact ⟨⟨howned.taken hpc, h.toQueueing.moveFrom hpc, .of_locked rfl⟩,
        by simp [stepsLeft, hself, hpc]⟩
  · next hpc hsignal => exact absurd hsignal (Bool.eq_false_iff.1 (hquiet hpc))
  · next hpc _ =>
      cases hs
      have hlocked := h.refused t (hpc ▸ rfl)
      exact ⟨⟨h.toOwned.setPc hpc rfl rfl fun _ => hlocked, h.toQueueing.moveFrom hpc,
        .of_locked hlocked⟩, by simp [stepsLeft, hself, hpc]⟩
  · next hpc =>
      obtain ⟨s₁, hs₁, rfl⟩ := map_eq_some_iff.1 hs
      exact ⟨h.enqueue hpc (hfree hpc) hs₁, by simp [stepsLeft, hself, hpc]⟩
  · next hpc =>
      cases hs
      rw [hpc] at hfits
      have hstate : s.waiters.state t ≠ .running := fun he => nomatch hfits.symm.trans he
      exact ⟨⟨h.toOwned.dropGuard hpc rfl rfl rfl,
        h.toQueueing.move hstate (h.context_idle (by simp [hpc])) (.inr (.inl rfl)),
        h.witnessed.move (not_woken hpc)⟩, by simp [stepsLeft, hself, hpc]⟩
  · next hpc =>
      cases hs
      have hlocked : s.locked = true := h.locked_of (hpc ▸ rfl : (s.pc t).holds = true)
      exact ⟨⟨h.toOwned.dropGuard hpc rfl rfl rfl, h.toQueueing.moveFrom hpc,
        .of_locked hlocked⟩, by simp [stepsLeft, hself, hpc]⟩
  · next hpc =>
      obtain ⟨s₁, hs₁, rfl⟩ := map_eq_some_iff.1 hs
      obtain ⟨hinv, hrank⟩ := h.wakeOne hpc hs₁
      refine ⟨hinv, ?_⟩
      rw [stepsLeft, stepsLeft, hself, hpc]
      exact Nat.lt_succ_of_le (Nat.succ_le_succ hrank)
  · next hpc hidle =>
      cases hs
      rw [hpc] at hfits
      exact ⟨⟨h.toOwned.dropGuard hpc rfl rfl rfl, h.toQueueing.move hfits hidle
        (.inl (h.not_target (by simp [hpc]) (by simp [hpc]))),
        h.witnessed.move (not_woken hpc)⟩, by simp [stepsLeft, hself, hpc]⟩
  · next hpc _ =>
      obtain ⟨hinv, hpcs, -, hframe⟩ := h.context hs
      refine ⟨hinv, ?_⟩
      rw [stepsLeft, stepsLeft, hpcs, hpc]
      exact Nat.succ_lt_succ hframe.lower
  · cases hs

theorem goStep_guards (hs : goStep s t = some s') : (s.pc t).guards = true := by
  unfold goStep at hs
  cases hpc : s.pc t with
  | out | locking | parked | resumed | holding | unlocking =>
      rw [hpc] at hs
      cases hs
  | _ => rfl

theorem Inv.go_enabled (h : Inv s) (hguard : s.guard = some t) : ∃ s', goStep s t = some s' := by
  have hguards : (s.pc t).guards = true := (h.guard t).2 hguard
  have hfits := h.fits t
  unfold goStep
  cases hpc : s.pc t with
  | testing | sleeping =>
      dsimp only
      split <;> exact ⟨_, rfl⟩
  | enqueuing =>
      rw [hpc] at hfits
      have hrun : s.waiters.state t = .running := hfits
      simp only [onQueue, waitStep, hrun, if_true]
      exact ⟨_, rfl⟩
  | queued | taken => exact ⟨_, rfl⟩
  | cleared =>
      have hidle := h.context_idle (t := t) (by simp [hpc])
      simp only [onQueue, waitStep, hidle, if_true]
      cases s.waiters.dequeue () with
      | none | some r => exact ⟨_, rfl⟩
  | waking =>
      dsimp only
      split
      · exact ⟨_, rfl⟩
      · next hbusy =>
          have hctxt := h.contexts (.inl t)
          have hrank := (hctxt.own t rfl hbusy).2
          unfold contextStep waitsOffCpu
          cases hctx : s.waiters.pc (.inl t) with
          | idle => exact absurd hctx hbusy
          | hand rest =>
              obtain rfl : rest = none := by simpa [hctx, Pc.rest] using hctxt.rest
              simp only [Bool.false_eq_true, if_false, nextAct, bind_some, onQueue, waitStep, hctx]
              exact ⟨_, rfl⟩
          | wake u rest =>
              -- the thread was taken off the queue, and whoever is still on its CPU has the guard
              have hoff : s.pc u ≠ .queued := by
                rcases hctxt.target t rfl u rest hctx with hu | hu
                · simp [hu]
                · simp [hu]
              simp only [beq_iff_eq, hoff, if_false, nextAct, bind_some, onQueue, waitStep, hctx]
              split <;> exact ⟨_, rfl⟩
          | publish u rest =>
              simp only [Bool.false_eq_true, if_false, nextAct, bind_some, onQueue, waitStep, hctx]
              exact ⟨_, rfl⟩
          | remove u who | removing u q who =>
              rw [hctx] at hrank
              exact absurd hrank (by simp [rank])
  | _ =>
      rw [hpc] at hguards
      cases hguards

theorem mutexStep_inv {a : MutexAct τ κ} (h : Inv s) (hok : Undisturbed s a)
    (hs : mutexStep s a = some s') : Inv s' := by
  cases a with
  | lock t =>
      obtain ⟨hpc, ⟨⟩⟩ := ite_none_right_eq_some.1 hs
      exact h.lock hpc
  | unlock t =>
      obtain ⟨hpc, ⟨⟩⟩ := ite_none_right_eq_some.1 hs
      exact h.unlock hpc
  | acquire t => exact h.acquire hs
  | go t => exact (h.go hok hs).1
  | run t =>
      obtain ⟨hpc, hs⟩ := ite_none_right_eq_some.1 hs
      obtain ⟨s₁, hs₁, rfl⟩ := map_eq_some_iff.1 hs
      exact (h.run hpc hs₁).1
  | post t | take t =>
      cases hs
      exact { h with }
  | signal k t =>
      exact (h.signal (ite_none_right_eq_some.1 hs).2).1
  | sender k => exact (h.context hs).1

theorem MutexInit.inv (h : MutexInit s) : Inv s := by
  have hpc := h.out
  have hidle : ∀ c, s.waiters.pc c = .idle := h.waiters.2.2.2.2.2
  refine ⟨⟨fun t => ?_, ⟨none, fun t => ?_, h.free⟩, fun t ht => ?_⟩,
    ⟨⟨_, .of_init h.waiters⟩, fun t => ?_, fun c => ?_⟩,
    fun _ hhead => absurd (h.waiters.2.2.2.1 ()) hhead⟩
  · rw [hpc t, h.guard]
    exact iff_of_false nofun nofun
  · rw [hpc t]
    exact iff_of_false nofun nofun
  · rw [hpc t] at ht
    cases ht
  · rw [hpc t]
    exact h.waiters.1 t
  · rw [hidle c]
    exact ⟨rfl, fun _ _ hne => absurd rfl hne, nofun⟩

theorem Inv.other_step {a : MutexAct τ κ} (h : Inv s) (hguard : s.guard = some t) (ha : a ≠ .go t)
    (hs : mutexStep s a = some s') : stepsLeft s' t = stepsLeft s t := by
  have hguards : (s.pc t).guards = true := (h.guard t).2 hguard
  have hkept : ∀ {u : τ} {p : LockPc}, (s.pc u).guards = false → (s.setPc u p).pc t = s.pc t := by
    intro u p hu
    refine update_of_ne ?_ ..
    rintro rfl
    cases hguards.symm.trans hu
  have hsame : s'.pc t = s.pc t ∧ s'.waiters.pc (.inl t) = s.waiters.pc (.inl t) := by
    cases a with
    | lock u | unlock u =>
        obtain ⟨hpc, ⟨⟩⟩ := ite_none_right_eq_some.1 hs
        exact ⟨hkept (hpc ▸ rfl), rfl⟩
    | acquire u =>
        simp only [mutexStep, acquireStep, hguard, isSome_some, if_true] at hs
        cases hs
    | go u =>
        obtain rfl : u = t := some.inj ((h.guard_of (goStep_guards hs)).symm.trans hguard)
        exact absurd rfl ha
    | run u =>
        obtain ⟨hpc, hs⟩ := ite_none_right_eq_some.1 hs
        obtain ⟨s₁, hs₁, rfl⟩ := map_eq_some_iff.1 hs
        have hcontexts := (h.run hpc hs₁).2
        obtain ⟨w, -, rfl⟩ := onQueue_some hs₁
        exact ⟨hkept (hpc ▸ rfl), congrFun hcontexts _⟩
    | post u | take u =>
        cases hs
        exact ⟨rfl, rfl⟩
    | signal k u =>
        obtain ⟨-, hpcs, -, hcontexts⟩ := h.signal (ite_none_right_eq_some.1 hs).2
        exact ⟨congrFun hpcs t, hcontexts t⟩
    | sender k =>
        obtain ⟨-, hpcs, -, hframe⟩ := h.context hs
        exact ⟨congrFun hpcs t, hframe.others _ nofun⟩
  rw [stepsLeft, stepsLeft, hsame.1, hsame.2]

/-- In every run in which no thread finds the mutex locked with a signal to be delivered, and
none goes to sleep while an earlier wake of it is under way: one thread at most holds the
mutex; the thread that has the guard always has a step to make, and whatever the others do,
each of its steps brings it closer to dropping the guard; and if nobody holds the mutex and its
queue is not empty, a thread has been made ready and will test `m->locked`, or the one that has
the guard is testing it or is still in `mutex_unlock`. -/
theorem mutex_makes_progress (hr : mutexSystem.Reach Undisturbed s) :
    (∀ t u, (s.pc t).holds = true → (s.pc u).holds = true → t = u) ∧
    (∀ t, s.guard = some t → (∃ s', mutexStep s (.go t) = some s') ∧
      ∀ a s', Undisturbed s a → mutexStep s a = some s' →
        stepsLeft s' t ≤ stepsLeft s t ∧ (a = .go t → stepsLeft s' t < stepsLeft s t)) ∧
    ((∀ t, (s.pc t).holds = false) → s.waiters.head () ≠ none →
      ∃ t, (s.pc t = .parked ∧ s.waiters.state t = .ready ∨ s.pc t = .resumed) ∨
        s.guard = some t ∧ (s.pc t = .testing ∨ s.pc t = .cleared ∨ s.pc t = .waking)) := by
  have h : Inv s := hr.invariant Inv (fun _ h => h.inv) fun _ _ _ h hok hs => mutexStep_inv h hok hs
  refine ⟨fun t u => h.holds_unique, fun t hguard => ⟨h.go_enabled hguard, fun a s' hok hs => ?_⟩,
    fun hfree hhead => ?_⟩
  · by_cases ha : a = .go t
    · subst ha
      have hlower := (h.go hok hs).2
      exact ⟨hlower.le, fun _ => hlower⟩
    · exact ⟨(h.other_step hguard ha hs).le, fun he => absurd he ha⟩
  · have hlocked : s.locked = false := by
      obtain ⟨o, ho, hlocked⟩ := h.holder
      cases o with
      | none => exact hlocked
      | some t => exact absurd ((ho t).2 rfl) (by simp [hfree t])
    obtain ⟨t, ((⟨hparked, hready | ⟨u, r, hu⟩⟩ | hresumed | htesting) | hcleared)⟩ :=
      h.witnessed hlocked hhead
    · exact ⟨t, .inl (.inl ⟨hparked, hready⟩)⟩
    · have hwaking := ((h.contexts (.inl u)).own u rfl (by simp [hu])).1
      exact ⟨u, .inr ⟨h.guard_of (hwaking ▸ rfl), .inr (.inr hwaking)⟩⟩
    · exact ⟨t, .inl (.inr hresumed)⟩
    · exact ⟨t, .inr ⟨h.guard_of (htesting ▸ rfl), .inl htesting⟩⟩
    · exact ⟨t, .inr ⟨h.guard_of (hcleared ▸ rfl), .inr (.inl hcleared)⟩⟩

end Threads

abbrev TwoThreads := Mutex (Fin 2) (Fin 1)

def unlocked : TwoThreads where
  locked := false
  guard := none
  waiters := ⟨fun _ => .running, fun _ => none, fun _ => none, fun _ => false, fun _ => none,
    fun _ => none, fun _ => .idle⟩
  deliverable _ := false
  pc _ := .out

theorem unlocked_init : MutexInit unlocked :=
  ⟨rfl, rfl, ⟨fun _ => rfl, fun _ => rfl, fun _ => rfl, fun _ => rfl, fun _ => rfl, fun _ => rfl⟩,
    fun _ => rfl⟩

def takeIt : List (MutexAct (Fin 2) (Fin 1)) := [.lock 0, .acquire 0, .go 0, .go 0]

/-- Thread 1 sleeps on it and is woken by a signal, while thread 0 lets the mutex go. -/
def signalledAsleep : List (MutexAct (Fin 2) (Fin 1)) :=
  takeIt ++ [.lock 1, .acquire 1, .go 1, .go 1, .go 1, .go 1, .post 1, .signal 0 1, .sender 0,
    .unlock 0, .acquire 0, .go 0, .sender 0, .sender 0, .go 0, .go 0]

theorem mutex_makes_progress_signalled :
    ∃ s : TwoThreads, mutexSystem.Reach Undisturbed s ∧ s.deliverable 1 = true ∧
      s.guard = some 0 ∧ (∃ s', mutexStep s (.go 0) = some s') :=
  System.Reach.exists_of_run_imp signalledAsleep unlocked_init (by decide +kernel)
    fun s hr (hs : s.deliverable 1 = true ∧ s.guard = some 0) =>
      ⟨hs.1, hs.2, ((mutex_makes_progress hr).2.1 0 hs.2).1⟩

/-- Thread 1 has a signal to be delivered when it finds the mutex locked. -/
def signalledBefore : List (MutexAct (Fin 2) (Fin 1)) :=
  takeIt ++ [.post 1, .lock 1, .acquire 1, .go 1, .go 1, .unlock 0]

/-- Thread 1 goes round the loop of `mutex_lock` with the guard. -/
structure Spinning (s : TwoThreads) : Prop where
  locked : s.locked = true
  guard : s.guard = some 1
  signal : s.deliverable 1 = true
  looping : s.pc 1 = .testing ∨ s.pc 1 = .sleeping
  unlocking : s.pc 0 = .unlocking

theorem Spinning.step {s s' : TwoThreads} {a : MutexAct (Fin 2) (Fin 1)} (h : Spinning s)
    (ha : a ≠ .take 1) (hs : mutexStep s a = some s') : Spinning s' := by
  have hpc : ∀ t, s.pc t = .unlocking ∨ s.pc t = .testing ∨ s.pc t = .sleeping :=
    Fin.forall_fin_two.2 ⟨.inl h.unlocking, .inr h.looping⟩
  cases a with
  | lock t | unlock t | run t =>
      have hout := (ite_none_right_eq_some.1 hs).1
      rcases hpc t with ht | ht | ht
      · cases ht.symm.trans hout
      · cases ht.symm.trans hout
      · cases ht.symm.trans hout
  | acquire t =>
      simp only [mutexStep, acquireStep, h.guard, isSome_some, if_true] at hs
      cases hs
  | go t =>
      obtain rfl | rfl : t = 0 ∨ t = 1 := by omega
      · simp only [mutexStep, goStep, h.unlocking] at hs
        cases hs
      · rcases h.looping with ht | ht
        · simp only [mutexStep, goStep, ht, h.locked, if_true] at hs
          cases hs
          exact { h with looping := .inr rfl }
        · simp only [mutexStep, goStep, ht, h.signal, if_true] at hs
          cases hs
          exact { h with looping := .inl rfl }
  | post t =>
      cases hs
      refine { h with signal := ?_ }
      by_cases ht : 1 = t
      · subst ht
        exact update_self (1 : Fin 2) true s.deliverable
      · exact (update_of_ne ht ..).trans h.signal
  | take t =>
      cases hs
      have ht : 1 ≠ t := fun he => ha (he ▸ rfl)
      exact { h with signal := (update_of_ne ht ..).trans h.signal }
  | signal k t =>
      obtain ⟨w, -, rfl⟩ := onQueue_some (ite_none_right_eq_some.1 hs).2
      exact { h with }
  | sender k =>
      obtain ⟨-, a, w, -, -, rfl⟩ := contextStep_some hs
      exact { h with }

/-- As long as the signal is not taken away, thread 1 keeps the guard whatever anyone does, and
thread 0 does not get it to finish its `mutex_unlock`. -/
theorem signalled_locker_keeps_guard :
    ∃ s : TwoThreads, mutexSystem.Reach (fun _ _ => True) s ∧ s.pc 0 = .unlocking ∧
      ∀ s', (⟨(· = s), mutexStep⟩ : System TwoThreads (MutexAct (Fin 2) (Fin 1))).Reach
          (fun _ a => a ≠ .take 1) s' →
        s'.guard = some 1 ∧ s'.locked = true ∧ s'.pc 0 = .unlocking := by
  refine System.Reach.exists_of_run_imp signalledBefore unlocked_init (by decide +kernel)
    fun s _ (hs : s.locked = true ∧ s.guard = some 1 ∧ s.deliverable 1 = true ∧
      s.pc 1 = .testing ∧ s.pc 0 = .unlocking) => ?_
  obtain ⟨hlocked, hguard, hsignal, hpc, hholder⟩ := hs
  refine ⟨hholder, fun s' hr' => ?_⟩
  have h : Spinning s' := by
    refine hr'.invariant Spinning ?_ fun _ _ _ h ha hs => h.step ha hs
    rintro _ rfl
    exact ⟨hlocked, hguard, hsignal, .inl hpc, hholder⟩
  exact ⟨h.guard, h.locked, h.unlocking⟩

end NeoKernel.Lock
