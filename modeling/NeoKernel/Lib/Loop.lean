import Mathlib.Logic.Basic

/-!
# Bounded execution of unbounded loops

A loop of the source is a partial step function. `none` is a step the source
cannot take: the dereference of a null pointer. Fuel exhaustion also returns
`none`, so a run that returns a value is a genuine finished run.
-/
namespace NeoKernel.Lib
open Option

/-- What one pass through a loop body leads to. -/
inductive Iter (σ ρ : Type*) where
  | next (s : σ)
  | done (r : ρ)

variable {σ ρ τ : Type*}
variable {run : Nat → Option ρ} {Post P : ρ → Prop} {r : ρ} {next : Nat → ρ → Option τ}

def loop (step : σ → Option (Iter σ ρ)) : Nat → σ → Option ρ
  | 0, _ => none
  | fuel+1, s =>
      match step s with
      | none => none
      | some (.done r) => some r
      | some (.next s') => loop step fuel s'

/-- The run finishes with `r`: from some fuel on, `r` is what it returns. -/
def Evaluates (run : Nat → Option ρ) (r : ρ) : Prop :=
  ∃ bound, ∀ fuel, bound ≤ fuel → run fuel = some r

/-- The run finishes, and `Post` holds of its result. -/
def Returns (run : Nat → Option ρ) (Post : ρ → Prop) : Prop :=
  ∃ r, Post r ∧ Evaluates run r

theorem Evaluates.post (h : Evaluates run r)
    (hr : Returns run Post) : Post r := by
  obtain ⟨b, hb⟩ := h
  obtain ⟨r', hr', b', hb'⟩ := hr
  have he := (hb _ (Nat.le_max_left b b')).symm.trans (hb' _ (Nat.le_max_right b b'))
  cases he
  exact hr'

theorem Returns.of_eq (hrun : ∀ fuel, run fuel = some r) (hpost : Post r) : Returns run Post :=
  ⟨r, hpost, 0, fun fuel _ => hrun fuel⟩

theorem Returns.mono {Q : ρ → Prop} (h : Returns run P)
    (hpq : ∀ r, P r → Q r) : Returns run Q := by
  obtain ⟨r, hr, hrun⟩ := h
  exact ⟨r, hpq r hr, hrun⟩

theorem Returns.and_of_eq {Q : ρ → Prop} (h : Returns run P)
    (hq : ∀ fuel r, run fuel = some r → Q r) : Returns run fun r => P r ∧ Q r := by
  obtain ⟨r, hr, b, hrun⟩ := h
  exact ⟨r, ⟨hr, hq b r (hrun b (Nat.le_refl b))⟩, b, hrun⟩

theorem Returns.map {f : ρ → τ} {Q : τ → Prop}
    (h : Returns run P) (hf : ∀ r, P r → Q (f r)) :
    Returns (fun fuel => (run fuel).map f) Q := by
  obtain ⟨r, hr, b, hrun⟩ := h
  refine ⟨f r, hf r hr, b, ?_⟩
  intro fuel hfuel
  change (run fuel).map f = some (f r)
  rw [hrun fuel hfuel, map_some]

theorem Returns.bind {Q : τ → Prop} (h : Returns run P)
    (hnext : ∀ r, P r → Returns (fun fuel => next fuel r) Q) :
    Returns (fun fuel => (run fuel).bind (next fuel)) Q := by
  obtain ⟨r, hr, b, hrun⟩ := h
  obtain ⟨t, ht, b', hrun'⟩ := hnext r hr
  refine ⟨t, ht, max b b', ?_⟩
  intro fuel hfuel
  change (run fuel).bind (next fuel) = some t
  rw [hrun fuel (Nat.le_trans (Nat.le_max_left b b') hfuel), bind_some]
  exact hrun' fuel (Nat.le_trans (Nat.le_max_right b b') hfuel)

/-- One pass either finishes with the postcondition or keeps the invariant at a
smaller index. Then the loop returns with the postcondition. -/
theorem loop_total {step : σ → Option (Iter σ ρ)} (Inv : Nat → σ → Prop)
    (pass : ∀ n s, Inv n s →
      (∃ r, step s = some (.done r) ∧ Post r) ∨
      (∃ m s', m < n ∧ step s = some (.next s') ∧ Inv m s'))
    (n : Nat) (s : σ) (hs : Inv n s) : Returns (fun fuel => loop step fuel s) Post := by
  suffices ∃ r, Post r ∧ ∀ fuel, n + 1 ≤ fuel → loop step fuel s = some r by
    obtain ⟨r, hr, hrun⟩ := this
    exact ⟨r, hr, n + 1, hrun⟩
  induction n using Nat.strongRecOn generalizing s with
  | ind n ih =>
      rcases pass n s hs with ⟨r, hstep, hpost⟩ | ⟨m, s', hm, hstep, hinv⟩
      · refine ⟨r, hpost, ?_⟩
        intro fuel hfuel
        cases fuel with
        | zero => omega
        | succ k => simp only [loop, hstep]
      · obtain ⟨r, hpost, hrun⟩ := ih m hm s' hinv
        refine ⟨r, hpost, ?_⟩
        intro fuel hfuel
        cases fuel with
        | zero => omega
        | succ k =>
            simp only [loop, hstep]
            exact hrun k (by omega)

def FuelMono (run : Nat → Option ρ) : Prop := ∀ n r, run n = some r → run (n+1) = some r

theorem FuelMono.evaluates (h : FuelMono run) {n : Nat}
    (hn : run n = some r) : Evaluates run r := by
  refine ⟨n, ?_⟩
  intro fuel hfuel
  induction fuel with
  | zero =>
      obtain rfl : n = 0 := by omega
      exact hn
  | succ fuel ih =>
      by_cases he : n = fuel + 1
      · exact he ▸ hn
      · exact h fuel r (ih (by omega))

theorem loop_fuelMono (step : σ → Option (Iter σ ρ)) (s : σ) :
    FuelMono fun fuel => loop step fuel s := by
  intro n
  induction n generalizing s with
  | zero =>
      intro r h
      cases h
  | succ n ih =>
      intro r h
      simp only [loop] at h ⊢
      cases hstep : step s with
      | none => simp only [hstep] at h; cases h
      | some it =>
          cases it with
          | done r' => simpa only [hstep] using h
          | next s' =>
              simp only [hstep] at h ⊢
              exact ih s' r h

theorem FuelMono.const (x : Option ρ) : FuelMono fun _ => x := fun _ _ h => h

theorem FuelMono.bind (h : FuelMono run) (hnext : ∀ r, FuelMono fun fuel => next fuel r) :
    FuelMono fun fuel => (run fuel).bind (next fuel) := by
  intro n t ht
  obtain ⟨r, hr, ht⟩ := bind_eq_some_iff.mp ht
  exact bind_eq_some_iff.mpr ⟨r, h n r hr, hnext r n t ht⟩

theorem FuelMono.map (f : ρ → τ) (h : FuelMono run) :
    FuelMono fun fuel => (run fuel).map f := by
  intro n t ht
  obtain ⟨r, hr, ht⟩ := map_eq_some_iff.mp ht
  exact map_eq_some_iff.mpr ⟨r, h n r hr, ht⟩

end NeoKernel.Lib
