import Mathlib.Logic.Function.Basic

/-!
# A function changed at one place

The tables of a program are functions that are changed at one key at a time.
-/
namespace NeoKernel.Lib
open Function

variable {α β γ : Type*} [DecidableEq α] {f : α → β} {a b b' : α} {x : β}

/-- What the new value has in common with the old one stays at every key. -/
theorem update_keeps (g : β → γ) (h : g x = g (f a)) (b : α) : g (update f a x b) = g (f b) := by
  rw [apply_update fun _ => g, h, update_eq_self a fun c => g (f c)]

theorem unique_update {p : β → Prop} (h : ∀ b b', p (f b) → p (f b') → b = b')
    (hx : p x → ∀ b, b ≠ a → ¬ p (f b)) (hb : p (update f a x b)) (hb' : p (update f a x b')) :
    b = b' := by
  by_cases hba : b = a <;> by_cases hba' : b' = a
  · exact hba.trans hba'.symm
  · rw [hba, update_self] at hb
    rw [update_of_ne hba'] at hb'
    exact absurd hb' (hx hb b' hba')
  · rw [hba', update_self] at hb'
    rw [update_of_ne hba] at hb
    exact absurd hb (hx hb' b hba)
  · rw [update_of_ne hba] at hb
    rw [update_of_ne hba'] at hb'
    exact h b b' hb hb'

theorem update_eq_cases {y : β} (h : update f a x b = y) : b = a ∧ x = y ∨ b ≠ a ∧ f b = y := by
  by_cases hb : b = a
  · rw [hb, update_self] at h
    exact .inl ⟨hb, h⟩
  · rw [update_of_ne hb] at h
    exact .inr ⟨hb, h⟩

end NeoKernel.Lib
