import NeoKernel.Fs.Flock
import NeoKernel.Lib.Pursuit

/-!
# The deadlock check of F_SETLKW

The wait-for graph has an edge from a sleeping process to every process that holds a lock in
its way. `deadlock_locked` follows one holder of one request per process: it is an instance
of `NeoKernel.Lib.seek`.
-/
namespace NeoKernel.Flock
open Lib Relation Function Option

def Request.blockedBy (q : Request) (r : LockRec) : Prop :=
  r.forbids q.vn q.pid q.type q.start q.stop = true

instance (q : Request) (r : LockRec) : Decidable (q.blockedBy r) :=
  inferInstanceAs (Decidable (_ = _))

/-- `x` sleeps on a request that a lock of `y` is in the way of. -/
def WaitsFor (st : Locks) (x y : Nat) : Prop :=
  ∃ k, ((st.waiters k).inUse = true ∧ (st.waiters k).pid = x) ∧
    ∃ i, (st.waiters k).request.blockedBy (st.recs i) ∧ (st.recs i).pid = y

instance (st : Locks) (x y : Nat) : Decidable (WaitsFor st x y) :=
  inferInstanceAs (Decidable (∃ _, _))

def WaitsForWith (st : Locks) (q : Request) (x y : Nat) : Prop :=
  WaitsFor st x y ∨ x = q.pid ∧ ∃ i, q.blockedBy (st.recs i) ∧ (st.recs i).pid = y

/-- The tables and the request with which the loop of `flock_fcntl` runs in a step that may
put the caller to sleep. -/
def sleepRequest (st : Locks) : FlockAct → Option (Locks × Request)
  | .fcntl pid f .setlkw fl =>
      match flockArgs f .setlkw fl with
      | .ok (vn, some t, s, e) => some (st, ⟨vn, pid, t, s, e⟩)
      | _ => none
  | .resume k false =>
      if (st.waiters k).inUse then some (clearWaiter st k, (st.waiters k).request) else none
  | _ => none

def SoleHolder (recs : Recs) (q : Request) : Prop :=
  ∀ i, q.blockedBy (recs i) → ∀ j, q.blockedBy (recs j) → (recs i).pid = (recs j).pid

instance (recs : Recs) (q : Request) : Decidable (SoleHolder recs q) :=
  inferInstanceAs (Decidable (∀ _, _))

/-- The graph is a path from every process: one holder per request, one request per process,
and there is room for the new one. -/
structure Plain (st : Locks) (q : Request) : Prop where
  request : SoleHolder st.recs q
  waiters : ∀ k, (st.waiters k).inUse = true → SoleHolder st.recs (st.waiters k).request
  alone : ∀ k, (st.waiters k).inUse = true → ∀ l, (st.waiters l).inUse = true →
    (st.waiters k).pid = (st.waiters l).pid → k = l
  fresh : ∀ k, (st.waiters k).inUse = true → (st.waiters k).pid ≠ q.pid
  room : ∃ k, (st.waiters k).inUse = false

instance (st : Locks) (q : Request) : Decidable (Plain st q) :=
  decidable_of_iff (_ ∧ _ ∧ _ ∧ _ ∧ _)
    ⟨fun ⟨h1, h2, h3, h4, h5⟩ => ⟨h1, h2, h3, h4, h5⟩,
      fun h => ⟨h.request, h.waiters, h.alone, h.fresh, h.room⟩⟩

variable {st st' : Locks} {q : Request} {x y : Nat} {k : WaitSlot}

def nextHolder (st : Locks) (x : Nat) : Option Nat :=
  (waiterOf st x).bind fun k =>
    (waiterConflict st (st.waiters k)).map fun i => (st.recs i).pid

theorem deadlockLoop_eq_seek (st : Locks) (pid n : Nat) (x : Nat) :
    deadlockLoop st pid n x = seek (nextHolder st) pid n x := by
  induction n generalizing x with
  | zero => rfl
  | succ n ih =>
      rw [deadlockLoop, seek]
      split
      · rfl
      · unfold nextHolder
        cases waiterOf st x with
        | none => rfl
        | some k =>
            dsimp only [bind_some]
            cases waiterConflict st (st.waiters k) with
            | none => rfl
            | some i => exact ih _

theorem waiterOf_some (h : waiterOf st x = some k) :
    (st.waiters k).inUse = true ∧ (st.waiters k).pid = x := by
  have := List.find?_some h
  simpa using this

theorem waiterOf_isSome (hu : (st.waiters k).inUse = true) (hx : (st.waiters k).pid = x) :
    ∃ l, waiterOf st x = some l := by
  refine isSome_iff_exists.1 (List.find?_isSome.2 ⟨k, mem_waitSlots k, ?_⟩)
  simp [hu, hx]

theorem conflictLocked_isSome {i : Slot} (h : q.blockedBy (st.recs i)) :
    ∃ j, conflictLocked st.recs q.vn q.pid q.type q.start q.stop = some j ∧
      q.blockedBy (st.recs j) := by
  have hfind : (conflictLocked st.recs q.vn q.pid q.type q.start q.stop).isSome = true := by
    unfold conflictLocked
    exact List.find?_isSome.2 ⟨i, mem_slots i, h⟩
  obtain ⟨j, hj⟩ := isSome_iff_exists.1 hfind
  refine ⟨j, hj, ?_⟩
  unfold conflictLocked at hj
  have hblocked := List.find?_some hj
  exact hblocked

/-- With one holder per request and one request per process, the check follows every edge. -/
theorem Plain.nextHolder (h : Plain st q) (he : WaitsFor st x y) : nextHolder st x = some y := by
  obtain ⟨k, ⟨hu, hx⟩, i, hi, rfl⟩ := he
  obtain ⟨l, hl⟩ := waiterOf_isSome hu hx
  obtain ⟨hlu, hlx⟩ := waiterOf_some hl
  obtain rfl : l = k := h.alone l hlu k hu (hlx.trans hx.symm)
  obtain ⟨j, hj, hblocked⟩ := conflictLocked_isSome hi
  have hpid := h.waiters l hu j hblocked i hi
  unfold Flock.nextHolder waiterConflict
  rw [hl, bind_some]
  exact (congrArg (Option.map fun i => (st.recs i).pid) hj).trans (congrArg some hpid)

def waiting (st : Locks) : Finset Nat :=
  (Finset.univ.filter fun k => (st.waiters k).inUse = true).image fun k => (st.waiters k).pid

theorem nextHolder_waiting (h : nextHolder st x = some y) : x ∈ waiting st := by
  obtain ⟨k, hk, -⟩ := bind_eq_some_iff.1 h
  obtain ⟨hu, hx⟩ := waiterOf_some hk
  exact Finset.mem_image.2 ⟨k, by simpa using hu, hx⟩

theorem card_waiting_lt (h : ∃ k, (st.waiters k).inUse = false) :
    (waiting st).card < flockWaiters := by
  obtain ⟨k, hk⟩ := h
  calc (waiting st).card ≤ (Finset.univ.filter fun k => (st.waiters k).inUse = true).card :=
        Finset.card_image_le
    _ < (Finset.univ : Finset WaitSlot).card := by
        refine Finset.card_lt_card (Finset.ssubset_univ_iff.2 fun hall => ?_)
        have := Finset.mem_filter.1 (hall ▸ Finset.mem_univ k)
        rw [hk] at this
        cases this.2
    _ = flockWaiters := by simp [WaitSlot]

theorem Plain.deadlockLocked (h : Plain st q) (hpath : ReflTransGen (WaitsFor st) x q.pid) :
    deadlockLocked st q.pid x = true := by
  unfold Flock.deadlockLocked
  rw [deadlockLoop_eq_seek]
  refine seek_of_reach (fun a b hab => nextHolder_waiting hab) (card_waiting_lt h.room) ?_
  exact hpath.lift id fun a b hab => h.nextHolder hab

/-- A cycle through the caller leaves it along its own request and comes back along the
requests that sleep already. -/
theorem cycle_cases (hcycle : TransGen (WaitsForWith st q) q.pid q.pid)
    (hfresh : ∀ y, ¬WaitsFor st q.pid y) :
    ∃ i, q.blockedBy (st.recs i) ∧ ReflTransGen (WaitsFor st) (st.recs i).pid q.pid := by
  have hpath : ∀ x, ReflTransGen (WaitsForWith st q) x q.pid →
      ReflTransGen (WaitsFor st) x q.pid ∨
        ∃ i, q.blockedBy (st.recs i) ∧ ReflTransGen (WaitsFor st) (st.recs i).pid q.pid := by
    intro x hx
    induction hx using ReflTransGen.head_induction_on with
    | refl => exact .inl .refl
    | @head x y hxy _ ih =>
        rcases ih with ih | ih
        · rcases hxy with hxy | ⟨-, i, hi, rfl⟩
          · exact .inl (.head hxy ih)
          · exact .inr ⟨i, hi, ih⟩
        · exact .inr ih
  obtain ⟨y, hy, hrest⟩ := TransGen.head'_iff.1 hcycle
  rcases hpath y hrest with hback | hfound
  · rcases hy with hy | ⟨-, i, hi, rfl⟩
    · exact absurd hy (hfresh y)
    · exact ⟨i, hi, hback⟩
  · exact hfound

theorem Plain.not_waitsFor (h : Plain st q) (y : Nat) : ¬WaitsFor st q.pid y := by
  rintro ⟨k, ⟨hu, hx⟩, -⟩
  exact h.fresh k hu hx

theorem Plain.lockLocked (h : Plain st q) (hcycle : TransGen (WaitsForWith st q) q.pid q.pid) :
    lockLocked st true q = some (st, .failed .edeadlk) := by
  obtain ⟨i, hi, hback⟩ := cycle_cases hcycle h.not_waitsFor
  obtain ⟨c, hc, hblocked⟩ := conflictLocked_isSome hi
  have hpid := h.request i hi c hblocked
  have hfound := h.deadlockLocked (hpid ▸ hback)
  unfold Flock.lockLocked
  rw [hc]
  simp [hfound]

theorem takeLocked_ne_sleeps {recs : Recs} {r : Recs × Outcome} (h : takeLocked recs q = some r) :
    r.2 ≠ .sleeps k := by
  unfold takeLocked at h
  split at h
  · cases h
    exact Outcome.noConfusion
  · obtain ⟨c, -, hc⟩ := map_eq_some_iff.1 h
    split at hc
    · cases hc
      exact Outcome.noConfusion
    · split at hc
      · cases hc
        exact Outcome.noConfusion
      · cases hc
        exact Outcome.noConfusion

theorem lockLocked_sleeps (hs : lockLocked st true q = some (st', .sleeps k))
    (he : WaitsFor st' x y) : WaitsForWith st q x y := by
  unfold lockLocked at hs
  split at hs
  · obtain ⟨r, hr, hst⟩ := map_eq_some_iff.1 hs
    exact absurd (congrArg Prod.snd hst) (takeLocked_ne_sleeps hr)
  · simp only [Bool.not_true, Bool.false_eq_true, if_false] at hs
    split at hs
    · cases hs
    · split at hs
      · cases hs
      · next l _ =>
          cases hs
          obtain ⟨j, ⟨hu, hx⟩, i, hi, hy⟩ := he
          dsimp only at hu hx hi hy
          by_cases hj : j = k
          · rw [hj, update_self] at hx hi
            exact .inr ⟨hx.symm, i, hi, hy⟩
          · rw [update_of_ne hj] at hu hx hi
            exact .inl ⟨j, ⟨hu, hx⟩, i, hi, hy⟩

theorem flockStep_sleepRequest {a : FlockAct} {st₀ : Locks}
    (h : sleepRequest st a = some (st₀, q)) :
    flockStep st a = lockLocked st₀ true q := by
  unfold sleepRequest at h
  split at h
  · split at h
    · next hargs =>
        cases h
        simp only [flockStep, flockFcntl, hargs]
    · cases h
  · obtain ⟨hu, ⟨⟩⟩ := ite_none_right_eq_some.1 h
    simp [flockStep, flockResume, hu]
  · cases h

/-- In any state of the tables, if every request, the new one included, is held up by one
process only, no process has two requests and there is room for a waiter: a process that
`F_SETLKW` puts to sleep is on no cycle of the wait-for graph, and a request that would
close one returns `-EDEADLK`. -/
theorem sleep_closes_no_cycle {a : FlockAct} {st₀ : Locks} (ha : sleepRequest st a = some (st₀, q))
    (h : Plain st₀ q) :
    (∀ st' k, flockStep st a = some (st', .sleeps k) → ¬TransGen (WaitsFor st') q.pid q.pid) ∧
      (TransGen (WaitsForWith st₀ q) q.pid q.pid →
        flockStep st a = some (st₀, .failed .edeadlk)) := by
  rw [flockStep_sleepRequest ha]
  refine ⟨fun st' k hs hcycle => ?_, h.lockLocked⟩
  have hrefused := h.lockLocked (hcycle.lift id fun x y hxy => lockLocked_sleeps hs hxy)
  rw [hs] at hrefused
  cases hrefused

def byteCall (pid : Nat) (cmd : Cmd) (type : FlockType) (b : Int) : FlockAct :=
  .fcntl pid ⟨some 7, true, 0, 0, true⟩ cmd ⟨type, 0, b, 1, 0⟩

theorem sleep_closes_no_cycle_chain : ∃ st st' k, flockSystem.Reach (fun _ _ => True) st ∧
    flockStep st (byteCall 3 .setlkw .wrlck 1) = some (st', .sleeps k) ∧
      ¬TransGen (WaitsFor st') 3 3 := by
  obtain ⟨st, hr, hplain, hs⟩ : ∃ st, flockSystem.Reach (fun _ _ => True) st ∧
      (Plain st ⟨7, 3, .wrlck, 1, 1⟩ ∧
        (flockStep st (byteCall 3 .setlkw .wrlck 1)).any
          (fun r => decide (r.2 = .sleeps 1)) = true) :=
    System.Reach.exists_of_run [byteCall 1 .setlk .wrlck 0, byteCall 2 .setlk .wrlck 1,
      byteCall 2 .setlkw .wrlck 0] rfl (by decide +kernel)
  obtain ⟨⟨st', o⟩, hstep, ho⟩ := (any_eq_true ..).1 hs
  obtain rfl : o = .sleeps 1 := of_decide_eq_true ho
  have ha : sleepRequest st (byteCall 3 .setlkw .wrlck 1) = some (st, ⟨7, 3, .wrlck, 1, 1⟩) := rfl
  exact ⟨st, st', 1, hr, hstep, (sleep_closes_no_cycle ha hplain).1 st' 1 hstep⟩

/-- Two readers of byte 0: the check looks at the first one only, and process 3 goes to sleep
behind the second one, which sleeps behind process 3. -/
theorem sleep_closes_reader_cycle : ∃ st st' k, flockSystem.Reach (fun _ _ => True) st ∧
    flockStep st (byteCall 3 .setlkw .wrlck 0) = some (st', .sleeps k) ∧
      TransGen (WaitsFor st') 3 3 := by
  obtain ⟨st, hr, hs⟩ : ∃ st, flockSystem.Reach (fun _ _ => True) st ∧
      (flockStep st (byteCall 3 .setlkw .wrlck 0)).any
        (fun r => decide (r.2 = .sleeps 1 ∧ WaitsFor r.1 3 2 ∧ WaitsFor r.1 2 3)) = true :=
    System.Reach.exists_of_run [byteCall 1 .setlk .rdlck 0, byteCall 2 .setlk .rdlck 0,
      byteCall 3 .setlk .wrlck 1, byteCall 2 .setlkw .wrlck 1] rfl (by decide +kernel)
  obtain ⟨⟨st', o⟩, hstep, ho⟩ := (any_eq_true ..).1 hs
  obtain ⟨rfl, h32, h23⟩ : o = .sleeps 1 ∧ WaitsFor st' 3 2 ∧ WaitsFor st' 2 3 :=
    of_decide_eq_true ho
  exact ⟨st, st', 1, hr, hstep, .tail (.single h32) h23⟩

end NeoKernel.Flock
