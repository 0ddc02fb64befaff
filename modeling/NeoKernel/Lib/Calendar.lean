import Mathlib.Algebra.Order.Floor.Div
import Mathlib.Data.List.Nodup
import Mathlib.Logic.Function.Basic

/-!
# Calendar queues

Items wait on several lists, each at most on one. A list stands for the slots of a ring: the
multiples of a granularity `g`, taken modulo the number `m` of lists.
-/
namespace NeoKernel.Lib
open Function List

def roundUp (g n : Nat) : Nat := (n + g - 1) / g * g

variable {g m n x y : Nat}

theorem dvd_roundUp (g n : Nat) : g ∣ roundUp g n := Nat.dvd_mul_left ..

theorem le_roundUp (hg : 0 < g) (n : Nat) : n ≤ roundUp g n := by
  have := Nat.lt_div_mul_add (a := n + g - 1) hg
  unfold roundUp
  omega

theorem roundUp_lt (hg : 0 < g) (n : Nat) : roundUp g n < n + g := by
  have := Nat.div_mul_le_self (n + g - 1) g
  unfold roundUp
  omega

/-- A window of one turn of the ring has one slot of each index. -/
theorem slot_unique (hx : g ∣ x) (hy : g ∣ y) (hle : y ≤ x) (hlt : x < y + m * g)
    (hindex : x / g % m = y / g % m) : x = y := by
  obtain ⟨a, rfl⟩ := hx
  obtain ⟨b, rfl⟩ := hy
  rcases Nat.eq_zero_or_pos g with rfl | hg
  · simp
  · rw [Nat.mul_div_cancel_left a hg, Nat.mul_div_cancel_left b hg] at hindex
    have hba : b ≤ a := Nat.le_of_mul_le_mul_left hle hg
    have hab : a < b + m := by
      refine Nat.lt_of_mul_lt_mul_left (a := g) ?_
      rwa [Nat.mul_add, Nat.mul_comm g m]
    have hdiff : (a - b) % m = 0 := Nat.sub_mod_eq_zero_of_mod_eq hindex
    rw [Nat.mod_eq_of_lt (by omega)] at hdiff
    rw [show a = b by omega]

theorem foldl_le {α : Type*} {f : Nat → α → Nat} (hf : ∀ n a, f n a ≤ n) (l : List α) (n : Nat) :
    l.foldl f n ≤ n := by
  induction l generalizing n with
  | nil => exact le_rfl
  | cons a l ih => exact (ih (f n a)).trans (hf n a)

theorem foldl_le_of_mem {α : Type*} {f : Nat → α → Nat} (hf : ∀ n a, f n a ≤ n) {l : List α} {a : α}
    (ha : a ∈ l) {v : Nat} (hv : ∀ n, f n a ≤ v) (n : Nat) : l.foldl f n ≤ v := by
  obtain ⟨l₁, l₂, rfl⟩ := append_of_mem ha
  rw [foldl_append, foldl_cons]
  exact (foldl_le hf l₂ _).trans (hv _)

variable {π α : Type*} [DecidableEq π] [DecidableEq α]

structure Apart (list : π → List α) : Prop where
  nodup : ∀ p, (list p).Nodup
  unique : ∀ p p' x, x ∈ list p → x ∈ list p' → p = p'

namespace Apart

variable {list : π → List α} {a : α} {p q : π}

omit [DecidableEq π] in
theorem erase (h : Apart list) (a : α) : Apart fun p => (list p).erase a where
  nodup p := (h.nodup p).erase a
  unique p p' x hx hx' := h.unique p p' x (mem_of_mem_erase hx) (mem_of_mem_erase hx')

omit [DecidableEq π] in
theorem mem_erase (h : Apart list) {x : α} : x ∈ (list p).erase a ↔ x ≠ a ∧ x ∈ list p :=
  (h.nodup p).mem_erase_iff

section

omit [DecidableEq α]

theorem mem_push {x : α} :
    x ∈ update list q (a :: list q) p ↔ x = a ∧ p = q ∨ x ∈ list p := by
  by_cases hp : p = q
  · subst hp
    simp
  · simp [hp]

theorem push (h : Apart list) (ha : ∀ p, a ∉ list p) (q : π) :
    Apart (update list q (a :: list q)) where
  nodup p := by
    by_cases hp : p = q
    · subst hp
      rw [update_self]
      exact nodup_cons.2 ⟨ha p, h.nodup p⟩
    · rw [update_of_ne hp]
      exact h.nodup p
  unique p p' x hx hx' := by
    rw [mem_push] at hx hx'
    rcases hx with ⟨rfl, rfl⟩ | hx
    · rcases hx' with ⟨-, rfl⟩ | hx'
      · rfl
      · exact absurd hx' (ha p')
    · rcases hx' with ⟨rfl, -⟩ | hx'
      · exact absurd hx (ha p)
      · exact h.unique p p' x hx hx'

theorem mem_clear {x : α} : x ∈ update list q [] p ↔ p ≠ q ∧ x ∈ list p := by
  by_cases hp : p = q
  · subst hp
    simp
  · simp [hp]

theorem clear (h : Apart list) (q : π) : Apart (update list q []) where
  nodup p := by
    by_cases hp : p = q
    · subst hp
      rw [update_self]
      exact nodup_nil
    · rw [update_of_ne hp]
      exact h.nodup p
  unique p p' x hx hx' := h.unique p p' x (mem_clear.1 hx).2 (mem_clear.1 hx').2

end

end Apart

end NeoKernel.Lib
