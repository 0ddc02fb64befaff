import Mathlib.Data.List.Nodup
import Mathlib.Logic.Function.Basic

/-!
# Singly linked lists

`Chain next h l` says that the links from `h` on are the list `l`. The operations are those
of a queue with a head and a tail pointer: push in front, append behind the tail, unlink.
`Lists` are several such lists that share the links and have no element in common.
-/
namespace NeoKernel.Lib
open List

open Function

variable {α : Type*}

def Chain (next : α → Option α) : Option α → List α → Prop
  | h, [] => h = none
  | h, x :: l => h = some x ∧ Chain next (next x) l

variable {next next' : α → Option α} {h : Option α} {l : List α} {x t : α}

theorem Chain.congr (hl : Chain next h l) (heq : ∀ y ∈ l, next' y = next y) : Chain next' h l := by
  induction l generalizing h with
  | nil => exact hl
  | cons y l ih =>
      refine ⟨hl.1, ?_⟩
      rw [heq y mem_cons_self]
      exact ih hl.2 fun z hz => heq z (mem_cons_of_mem y hz)

theorem Chain.unique {l' : List α} (hl : Chain next h l) (hl' : Chain next h l') : l = l' := by
  induction l generalizing h l' with
  | nil =>
      cases l' with
      | nil => rfl
      | cons y l' => cases hl.symm.trans hl'.1
  | cons x l ih =>
      cases l' with
      | nil => cases hl.1.symm.trans hl'
      | cons y l' =>
          obtain rfl : x = y := Option.some.inj (hl.1.symm.trans hl'.1)
          rw [ih hl.2 hl'.2]

theorem Chain.of_some (hl : Chain next (some x) l) :
    ∃ l', l = x :: l' ∧ Chain next (next x) l' := by
  cases l with
  | nil => cases hl
  | cons y l' =>
      obtain rfl : x = y := Option.some.inj hl.1
      exact ⟨l', rfl, hl.2⟩

theorem Chain.of_none (hl : Chain next none l) : l = [] := by
  cases l with
  | nil => rfl
  | cons y l' => cases hl.1

variable [DecidableEq α]

theorem Chain.update_of_notMem (hl : Chain next h l) (hx : x ∉ l) (v : Option α) :
    Chain (update next x v) h l :=
  hl.congr fun y hy => update_of_ne (fun hyx : y = x => hx (hyx ▸ hy)) ..

theorem Chain.push (hl : Chain next h l) (hx : x ∉ l) :
    Chain (update next x h) (some x) (x :: l) := by
  refine ⟨rfl, ?_⟩
  rw [update_self]
  exact hl.update_of_notMem hx h

theorem Chain.snoc {u : α} (hl : Chain next h (l ++ [u])) (hnd : (l ++ [u]).Nodup)
    (hx : x ∉ l ++ [u]) :
    Chain (update (update next x none) u (some x)) h (l ++ [u] ++ [x]) := by
  induction l generalizing h with
  | nil =>
      have hxu : x ≠ u := fun he => hx (by simp [he])
      refine ⟨hl.1, ?_⟩
      rw [update_self]
      refine ⟨rfl, ?_⟩
      rw [update_of_ne hxu, update_self]
      rfl
  | cons y l ih =>
      obtain ⟨hy, hnd⟩ := nodup_cons.1 hnd
      have hyu : y ≠ u := fun he => hy (by simp [he])
      have hyx : y ≠ x := fun he => hx (by simp [he])
      refine ⟨hl.1, ?_⟩
      rw [update_of_ne hyu, update_of_ne hyx]
      exact ih hl.2 hnd fun hmem => hx (mem_cons_of_mem y hmem)

theorem Chain.unlink {a b : List α} {u : α} (hl : Chain next h (a ++ u :: t :: b))
    (hnd : (a ++ u :: t :: b).Nodup) :
    Chain (update next u (next t)) h (a ++ u :: b) := by
  induction a generalizing h with
  | nil =>
      obtain ⟨hu, hut, hb⟩ := hl
      obtain ⟨hmem, -⟩ := nodup_cons.1 hnd
      refine ⟨hu, ?_⟩
      rw [update_self]
      exact hb.update_of_notMem (fun hub => hmem (mem_cons_of_mem t hub)) _
  | cons y a ih =>
      obtain ⟨hy, hnd⟩ := nodup_cons.1 hnd
      have hyu : y ≠ u := fun he => hy (by simp [he])
      refine ⟨hl.1, ?_⟩
      rw [update_of_ne hyu]
      exact ih hl.2 hnd

inductive Walk (α : Type*) where
  | found (prev : Option α)
  | absent
  | endless

/-- Follows the links from `h` to `t`, remembering the element before. -/
def seekPrev (next : α → Option α) (t : α) : Nat → Option α → Option α → Walk α
  | _, none, _ => .absent
  | 0, some _, _ => .endless
  | n + 1, some y, prev => if y = t then .found prev else seekPrev next t n (next y) (some y)

theorem Chain.seekPrev_found {a b : List α} (hl : Chain next h (a ++ t :: b)) (ht : t ∉ a) {n : Nat}
    (hn : a.length < n) (prev : Option α) :
    seekPrev next t n h prev = .found (a.getLast?.or prev) := by
  induction a generalizing h n prev with
  | nil =>
      obtain ⟨n, rfl⟩ : ∃ m, n = m + 1 := ⟨n - 1, by simp only [length_nil] at hn; omega⟩
      rw [hl.1]
      simp [seekPrev]
  | cons y a ih =>
      obtain ⟨n, rfl⟩ : ∃ m, n = m + 1 := ⟨n - 1, by omega⟩
      have hyt : y ≠ t := fun he => ht (by simp [he])
      rw [hl.1]
      simp only [seekPrev, hyt, if_false]
      rw [ih hl.2 (fun hmem => ht (mem_cons_of_mem y hmem)) (by simpa using hn)]
      cases a with
      | nil => rfl
      | cons z a =>
          rw [getLast?_cons_cons, getLast?_eq_some_getLast (cons_ne_nil z a)]
          rfl

theorem Chain.seekPrev_absent (hl : Chain next h l) (ht : t ∉ l) {n : Nat} (hn : l.length ≤ n)
    (prev : Option α) : seekPrev next t n h prev = .absent := by
  induction l generalizing h n prev with
  | nil =>
      rw [hl]
      cases n <;> rfl
  | cons y l ih =>
      obtain ⟨n, rfl⟩ : ∃ m, n = m + 1 := ⟨n - 1, by simp only [length_cons] at hn; omega⟩
      have hyt : y ≠ t := fun he => ht (by simp [he])
      rw [hl.1]
      simp only [seekPrev, hyt, if_false]
      exact ih hl.2 (fun hmem => ht (mem_cons_of_mem y hmem)) (by simpa using hn) _

structure Lists {π : Type*} (next : α → Option α) (start : π → Option α) (lists : π → List α) :
    Prop where
  chain : ∀ p, Chain next (start p) (lists p)
  nodup : ∀ p, (lists p).Nodup
  apart : ∀ p p' x, x ∈ lists p → x ∈ lists p' → p = p'

namespace Lists

variable {π : Type*} {start : π → Option α} {lists : π → List α} {p : π} {a b : List α} {u : α}

theorem link (h : Lists next start lists) (hx : ∀ p, x ∉ lists p) (v : Option α) :
    Lists (update next x v) start lists where
  chain p := (h.chain p).update_of_notMem (hx p) v
  nodup := h.nodup
  apart := h.apart

variable [DecidableEq π]

omit [DecidableEq α] in
theorem replace (h : Lists next start lists) {v : Option α} (hl : Chain next' v l) (hnd : l.Nodup)
    (hmem : ∀ y ∈ l, y ∈ lists p ∨ ∀ p', y ∉ lists p')
    (hnext : ∀ p', p' ≠ p → ∀ y ∈ lists p', next' y = next y) :
    Lists next' (update start p v) (update lists p l) := by
  have hother : ∀ p' y, p' ≠ p → y ∈ lists p' → y ∉ l := by
    intro p' y hp hy hyl
    rcases hmem y hyl with hyp | hno
    · exact hp (h.apart p' p y hy hyp)
    · exact hno p' hy
  constructor
  · intro p'
    by_cases hp : p' = p
    · subst hp
      rwa [update_self, update_self]
    · rw [update_of_ne hp, update_of_ne hp]
      exact (h.chain p').congr (hnext p' hp)
  · intro p'
    by_cases hp : p' = p
    · subst hp
      rwa [update_self]
    · rw [update_of_ne hp]
      exact h.nodup p'
  · intro p₁ p₂ y h₁ h₂
    by_cases hp₁ : p₁ = p
    · by_cases hp₂ : p₂ = p
      · rw [hp₁, hp₂]
      · rw [hp₁, update_self] at h₁
        rw [update_of_ne hp₂] at h₂
        exact absurd h₁ (hother p₂ y hp₂ h₂)
    · rw [update_of_ne hp₁] at h₁
      by_cases hp₂ : p₂ = p
      · rw [hp₂, update_self] at h₂
        exact absurd h₂ (hother p₁ y hp₁ h₁)
      · rw [update_of_ne hp₂] at h₂
        exact h.apart p₁ p₂ y h₁ h₂

theorem update_again {β : Type*} (f : π → β) {p p' : π} (x y z : β) :
    update (update (update f p x) p' y) p z =
      update (update f p' y) p z := by
  funext i
  by_cases hi : i = p
  · rw [hi, update_self, update_self]
  · simp [update_apply, hi]

theorem update_notMem (hx : x ∉ l) {y : α} (hy : y ∈ l) (v : Option α) :
    update next x v y = next y :=
  update_of_ne (ne_of_mem_of_not_mem hy hx) ..

omit [DecidableEq α] [DecidableEq π] in
theorem notMem_of_ne (h : Lists next start lists) (hx : x ∈ lists p) {p' : π} (hp : p' ≠ p) :
    x ∉ lists p' := fun hx' => hp (h.apart p' p x hx' hx)

theorem push (h : Lists next start lists) (hx : ∀ p, x ∉ lists p) (p : π) :
    Lists (update next x (start p)) (update start p (some x))
      (update lists p (x :: lists p)) := by
  refine h.replace ((h.chain p).push (hx p)) (nodup_cons.2 ⟨hx p, h.nodup p⟩) ?_ ?_
  · intro y hy
    rcases mem_cons.1 hy with rfl | hy
    · exact .inr hx
    · exact .inl hy
  · intro p' _ y hy
    exact update_notMem (hx p') hy _

theorem snoc (h : Lists next start lists) (hx : ∀ p, x ∉ lists p)
    (hu : (lists p).getLast? = some u) :
    Lists (update (update next x none) u (some x)) start
      (update lists p (lists p ++ [x])) := by
  obtain ⟨l, hl⟩ := getLast?_eq_some_iff.1 hu
  have hlinks := (hl ▸ h.chain p).snoc (hl ▸ h.nodup p) (hl ▸ hx p)
  rw [← hl] at hlinks
  have := h.replace hlinks (v := start p) (p := p) ?_ ?_ ?_
  · rwa [update_eq_self] at this
  · exact (h.nodup p).append (nodup_singleton x) (by simpa using hx p)
  · intro y hy
    rcases mem_append.1 hy with hy | hy
    · exact .inl hy
    · rw [mem_singleton.1 hy]
      exact .inr hx
  · intro p' hp y hy
    have hup : u ∈ lists p := mem_of_getLast? hu
    rw [update_notMem (h.notMem_of_ne hup hp) hy, update_notMem (hx p') hy]

theorem pop (h : Lists next start lists) (hl : lists p = x :: l) (v : Option α) :
    Lists (update next x v) (update start p (next x)) (update lists p l) := by
  have hchain := h.chain p
  have hnd := h.nodup p
  rw [hl] at hchain hnd
  obtain ⟨hx, hnd⟩ := nodup_cons.1 hnd
  refine h.replace (hchain.2.update_of_notMem hx v) hnd (fun y hy => .inl ?_) fun p' hp y hy => ?_
  · rw [hl]
    exact mem_cons_of_mem x hy
  · exact update_notMem (h.notMem_of_ne (hl ▸ mem_cons_self) hp) hy v

omit [DecidableEq α] in
theorem mem_drop (h : Lists next start lists) (hl : (lists p).Perm (x :: l)) {y : α} {p' : π} :
    y ∈ update lists p l p' ↔ y ∈ lists p' ∧ y ≠ x := by
  have hx : x ∈ lists p := hl.mem_iff.2 mem_cons_self
  obtain ⟨hxl, -⟩ := nodup_cons.1 (hl.nodup_iff.1 (h.nodup p))
  by_cases hp : p' = p
  · subst hp
    rw [update_self, hl.mem_iff, mem_cons]
    constructor
    · intro hy
      exact ⟨.inr hy, ne_of_mem_of_not_mem hy hxl⟩
    · rintro ⟨hy, hyx⟩
      exact hy.resolve_left hyx
  · rw [update_of_ne hp]
    exact ⟨fun hy => ⟨hy, ne_of_mem_of_not_mem hy (h.notMem_of_ne hx hp)⟩, And.left⟩

omit [DecidableEq α] in
theorem perm_unlink (a : List α) (u t : α) (b : List α) :
    (a ++ u :: t :: b).Perm (t :: (a ++ u :: b)) := by
  have : (a ++ [u] ++ t :: b).Perm (t :: (a ++ [u] ++ b)) := perm_middle
  simpa using this

theorem unlink (h : Lists next start lists) (hl : lists p = a ++ u :: t :: b) (v : Option α) :
    Lists (update (update next u (next t)) t v) start
      (update lists p (a ++ u :: b)) := by
  have hchain := h.chain p
  have hnd := h.nodup p
  rw [hl] at hchain hnd
  have hperm := perm_unlink a u t b
  obtain ⟨ht, hnd'⟩ := nodup_cons.1 (hperm.nodup_iff.1 hnd)
  have := h.replace ((hchain.unlink hnd).update_of_notMem ht v) (v := start p) (p := p) hnd' ?_ ?_
  · rwa [update_eq_self] at this
  · intro y hy
    rw [hl]
    exact .inl (hperm.mem_iff.2 (mem_cons_of_mem t hy))
  · intro p' hp y hy
    have hup : u ∈ lists p := by simp [hl]
    have htp : t ∈ lists p := by simp [hl]
    rw [update_notMem (h.notMem_of_ne htp hp) hy, update_notMem (h.notMem_of_ne hup hp) hy]

end Lists

end NeoKernel.Lib
