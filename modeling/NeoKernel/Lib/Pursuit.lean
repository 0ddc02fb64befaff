import Mathlib.Data.Finset.Card
import Mathlib.Logic.Relation

/-!
# Following a partial function to a target

`seek` follows `next` from a start for a bounded number of turns. If the target can be
reached at all and fewer than that many nodes have a successor, it is found.
-/
namespace NeoKernel.Lib

variable {α : Type*} [DecidableEq α]

def seek (next : α → Option α) (target : α) : Nat → α → Bool
  | 0, _ => false
  | n + 1, x =>
      if x = target then true
      else
        match next x with
        | none => false
        | some y => seek next target n y

variable {next next' : α → Option α} {target x y : α}

theorem seek_self (n : Nat) : seek next target (n + 1) target = true := if_pos rfl

theorem seek_next {n : Nat} (h : next x = some y) (hy : seek next target n y = true) :
    seek next target (n + 1) x = true := by
  rw [seek]
  split
  · rfl
  · rw [h]
    exact hy

theorem seek_mono {n : Nat} (h : ∀ a b, next' a = some b → next a = some b)
    (hx : seek next' target n x = true) : seek next target n x = true := by
  induction n generalizing x with
  | zero => cases hx
  | succ n ih =>
      rw [seek] at hx
      split at hx
      · next hxt =>
          rw [hxt]
          exact seek_self n
      · split at hx
        · cases hx
        · next y hy => exact seek_next (h x y hy) (ih hx)

/-- A path from the successor of `x` need not come back to `x`. -/
theorem reach_avoiding (hx : next x = some y)
    (hpath : Relation.ReflTransGen (fun a b => next a = some b) y target) :
    Relation.ReflTransGen (fun a b => (if a = x then none else next a) = some b) y target := by
  -- along the path: either the rest avoids `x`, or the path starts over from `y`
  suffices h : ∀ a, Relation.ReflTransGen (fun a b => next a = some b) a target →
      Relation.ReflTransGen (fun a b => (if a = x then none else next a) = some b) a target ∨
        Relation.ReflTransGen (fun a b => (if a = x then none else next a) = some b) y target from
    (h y hpath).elim id id
  intro a ha
  induction ha using Relation.ReflTransGen.head_induction_on with
  | refl => exact .inl .refl
  | @head a b hab _ ih =>
      rcases ih with ih | ih
      · by_cases hax : a = x
        · rw [hax, hx] at hab
          cases hab
          exact .inr ih
        · exact .inl (.head (by rw [if_neg hax]; exact hab) ih)
      · exact .inr ih

theorem seek_of_reach {n : Nat} {S : Finset α} (hS : ∀ a b, next a = some b → a ∈ S)
    (hn : S.card < n) (hpath : Relation.ReflTransGen (fun a b => next a = some b) x target) :
    seek next target n x = true := by
  induction n generalizing next S x with
  | zero => cases hn
  | succ n ih =>
      rcases Relation.ReflTransGen.cases_head hpath with rfl | ⟨y, hxy, hpath⟩
      · exact seek_self n
      · -- the rest of the path is followed without the successor of `x`
        have hrest : seek (fun a => if a = x then none else next a) target n y = true := by
          refine ih (S := S.erase x) (fun a b hab => ?_) ?_ (reach_avoiding hxy hpath)
          · by_cases hax : a = x
            · simp [hax] at hab
            · rw [if_neg hax] at hab
              exact Finset.mem_erase.2 ⟨hax, hS a b hab⟩
          · have hpos := Finset.card_pos.2 ⟨x, hS x y hxy⟩
            rw [Finset.card_erase_of_mem (hS x y hxy)]
            omega
        refine seek_next hxy (seek_mono (fun a b hab => ?_) hrest)
        by_cases hax : a = x
        · simp [hax] at hab
        · rwa [if_neg hax] at hab

end NeoKernel.Lib
