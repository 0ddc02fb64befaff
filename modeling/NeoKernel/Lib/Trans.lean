import Mathlib.Algebra.GroupWithZero.Nat

/-!
# Labelled transition systems

A system is given by its initial states and a partial step function: `none` is a
step that is not enabled. `Reach ok` are the states of the runs whose steps all
meet `ok`, a condition on the state before the step and on the label taken.
-/
namespace NeoKernel.Lib

-- for the numerals of the small index types that runs are given over
instance neZeroOne : NeZero 1 := ⟨by decide⟩
instance neZeroTwo : NeZero 2 := ⟨by decide⟩
instance neZeroThree : NeZero 3 := ⟨by decide⟩

structure System (σ α : Type*) where
  init : σ → Prop
  step : σ → α → Option σ

namespace System

variable {σ α : Type*} {M : System σ α} {ok ok' : σ → α → Prop} {s s' : σ}

inductive Reach (M : System σ α) (ok : σ → α → Prop) : σ → Prop where
  | init {s : σ} : M.init s → Reach M ok s
  | step {s s' : σ} {a : α} : Reach M ok s → ok s a → M.step s a = some s' → Reach M ok s'

theorem Reach.invariant (Inv : σ → Prop) (hr : M.Reach ok s) (hinit : ∀ s, M.init s → Inv s)
    (hstep : ∀ s a s', Inv s → ok s a → M.step s a = some s' → Inv s') : Inv s := by
  induction hr with
  | init h => exact hinit _ h
  | step _ hok h ih => exact hstep _ _ _ ih hok h

theorem Reach.mono (hr : M.Reach ok s) (h : ∀ s a, ok s a → ok' s a) : M.Reach ok' s := by
  induction hr with
  | init h0 => exact .init h0
  | step _ hok hs ih => exact .step ih (h _ _ hok) hs

section Run

variable (M) (ok) [∀ s a, Decidable (ok s a)]

/-- Runs a list of labels, stopping at one that is not enabled or breaks `ok`. -/
def run : σ → List α → Option σ
  | s, [] => some s
  | s, a :: as => if ok s a then (M.step s a).bind fun s' => run s' as else none

variable {M} {ok}

theorem Reach.of_run {as : List α} (hr : M.Reach ok s) (h : M.run ok s as = some s') :
    M.Reach ok s' := by
  induction as generalizing s with
  | nil =>
      cases h
      exact hr
  | cons a as ih =>
      rw [run] at h
      split at h
      · next hok =>
          obtain ⟨t, ht, h⟩ := Option.bind_eq_some_iff.mp h
          exact ih (.step hr hok ht) h
      · cases h

/-- A concrete run that ends in a state with `P` shows that such a state is reachable. -/
theorem Reach.exists_of_run {P : σ → Prop} [DecidablePred P] (as : List α) (h0 : M.init s)
    (h : (M.run ok s as).any (fun s' => decide (P s')) = true) : ∃ s', M.Reach ok s' ∧ P s' := by
  obtain ⟨s', hs', hp⟩ := (Option.any_eq_true ..).mp h
  exact ⟨s', Reach.of_run (.init h0) hs', of_decide_eq_true hp⟩

variable {P Q : σ → Prop} [DecidablePred P] (as : List α) (h0 : M.init s)
  (h : (M.run ok s as).any (fun s' => decide (P s')) = true)
  (hq : ∀ s', M.Reach ok s' → P s' → Q s')
include h0 h hq

/-- What holds of the reachable states with `P` holds at the end of a run to such a state. -/
theorem Reach.exists_of_run_imp : ∃ s', M.Reach ok s' ∧ Q s' := by
  obtain ⟨s', hr, hp⟩ := Reach.exists_of_run as h0 h
  exact ⟨s', hr, hq s' hr hp⟩

theorem Reach.exists_of_run_and : ∃ s', M.Reach ok s' ∧ P s' ∧ Q s' :=
  Reach.exists_of_run_imp as h0 h fun s' hr hp => ⟨hp, hq s' hr hp⟩

end Run

end System

end NeoKernel.Lib
