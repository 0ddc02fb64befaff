import Mathlib.Tactic

/-!
# Ring buffers

A ring of capacity `cap` is an array, the index of its oldest element and the
number of elements. `contents` is the queue it stands for.
-/
namespace NeoKernel.Lib
open Function List

structure RingBuf (α : Type*) where
  buf : Nat → α
  head : Nat
  len : Nat

namespace RingBuf

variable {α : Type*} {cap : Nat}

/-- Stores `xs` at `pos`, `pos + 1`, ..., each taken modulo the capacity. -/
def storeAt (cap : Nat) : (Nat → α) → Nat → List α → Nat → α
  | buf, _, [] => buf
  | buf, pos, x :: xs => storeAt cap (update buf (pos % cap) x) (pos + 1) xs

def front (cap : Nat) (r : RingBuf α) (n : Nat) : List α :=
  (List.range n).map fun i => r.buf ((r.head + i) % cap)

def contents (cap : Nat) (r : RingBuf α) : List α := r.front cap r.len

def push (cap : Nat) (r : RingBuf α) (xs : List α) : RingBuf α :=
  { r with buf := storeAt cap r.buf (r.head + r.len) xs, len := r.len + xs.length }

def pop (cap : Nat) (r : RingBuf α) (n : Nat) : RingBuf α :=
  { r with head := (r.head + n) % cap, len := r.len - n }

@[simp] theorem len_push (r : RingBuf α) (xs : List α) :
    (r.push cap xs).len = r.len + xs.length := rfl

@[simp] theorem len_pop (r : RingBuf α) (n : Nat) : (r.pop cap n).len = r.len - n := rfl

@[simp] theorem length_front (r : RingBuf α) (n : Nat) : (r.front cap n).length = n := by
  simp [front]

@[simp] theorem length_contents (r : RingBuf α) : (r.contents cap).length = r.len :=
  r.length_front r.len

theorem mod_ne_of_lt {a b : Nat} (hab : a < b) (hb : b < a + cap) : a % cap ≠ b % cap := by
  intro h
  have hdvd : cap ∣ b - a := (Nat.modEq_iff_dvd' hab.le).mp h
  have := Nat.le_of_dvd (by omega) hdvd
  omega

theorem storeAt_before (buf : Nat → α) (xs : List α) {pos p : Nat} (hp : p < pos)
    (hcap : pos + xs.length ≤ p + cap) : storeAt cap buf pos xs (p % cap) = buf (p % cap) := by
  induction xs generalizing buf pos with
  | nil => rfl
  | cons x xs ih =>
      rw [length_cons] at hcap
      rw [storeAt, ih _ (by omega) (by omega),
        update_of_ne (mod_ne_of_lt hp (by omega))]

theorem storeAt_get (buf : Nat → α) (xs : List α) {pos i : Nat} (hi : i < xs.length)
    (hcap : xs.length ≤ cap) : storeAt cap buf pos xs ((pos + i) % cap) = xs[i] := by
  induction xs generalizing buf pos i with
  | nil => cases hi
  | cons x xs ih =>
      rw [length_cons] at hi hcap
      cases i with
      | zero =>
          rw [storeAt, Nat.add_zero, storeAt_before _ _ (by omega) (by omega)]
          simp
      | succ i =>
          rw [storeAt, show pos + (i + 1) = pos + 1 + i by omega, ih _ (by omega) (by omega)]
          rfl

theorem contents_push (r : RingBuf α) (xs : List α) (h : r.len + xs.length ≤ cap) :
    (r.push cap xs).contents cap = r.contents cap ++ xs := by
  refine ext_getElem (by simp) ?_
  intro i hi _
  rw [length_contents, len_push] at hi
  by_cases hlt : i < r.len
  · rw [getElem_append_left (by simpa using hlt)]
    simp only [contents, front, push, getElem_map, getElem_range]
    exact storeAt_before _ _ (by omega) (by omega)
  · rw [getElem_append_right (by simpa using hlt)]
    simp only [contents, front, push, getElem_map, getElem_range, length_map,
      length_range]
    have he : r.head + i = r.head + r.len + (i - r.len) := by omega
    rw [he]
    exact storeAt_get _ _ (by omega) (by omega)

theorem contents_pop (r : RingBuf α) (n : Nat) :
    (r.pop cap n).contents cap = (r.contents cap).drop n := by
  refine ext_getElem (by simp) ?_
  intro i _ _
  simp only [contents, front, pop, getElem_map, getElem_range, getElem_drop,
    Nat.mod_add_mod, Nat.add_assoc]

theorem front_eq_take (r : RingBuf α) {n : Nat} (h : n ≤ r.len) :
    r.front cap n = (r.contents cap).take n := by
  rw [contents, front, front, ← map_take, take_range, Nat.min_eq_left h]

theorem contents_cons (r : RingBuf α) (hhead : r.head < cap) (hlen : r.len ≠ 0) :
    r.contents cap = r.buf r.head :: (r.pop cap 1).contents cap := by
  rw [contents_pop, ← take_append_drop 1 (r.contents cap),
    ← r.front_eq_take (Nat.pos_of_ne_zero hlen)]
  simp [front, Nat.mod_eq_of_lt hhead]

end RingBuf

end NeoKernel.Lib
