import Mathlib.Data.List.Nodup
import Mathlib.Logic.Function.Basic

/-!
# Chained hash indexes

A fixed set of slots, each free or holding a key, and for every hash value the chain of
the slots whose key has it. A key is found by a walk along its chain. `Ok` says that the
chains are those of the slots in use and that no key is held twice; then `find` is exact.
-/
namespace NeoKernel.Lib
open Function

structure HashIndex (σ κ : Type*) where
  /-- the key of a slot, none if the slot is free -/
  key : σ → Option κ
  chain : Nat → List σ

namespace HashIndex

variable {σ κ : Type*} [DecidableEq σ] [DecidableEq κ] {hash : κ → Nat} {t : HashIndex σ κ}
  {s s' : σ} {k : κ}

def find (hash : κ → Nat) (t : HashIndex σ κ) (k : κ) : Option σ :=
  (t.chain (hash k)).find? fun s => t.key s = some k

def unlink (hash : κ → Nat) (t : HashIndex σ κ) (s : σ) : HashIndex σ κ :=
  match t.key s with
  | none => t
  | some k =>
      { key := update t.key s none
        chain := update t.chain (hash k) ((t.chain (hash k)).erase s) }

def link (hash : κ → Nat) (t : HashIndex σ κ) (s : σ) (k : κ) : HashIndex σ κ where
  key := update t.key s (some k)
  chain := update t.chain (hash k) (s :: t.chain (hash k))

structure Ok (hash : κ → Nat) (t : HashIndex σ κ) : Prop where
  mem_chain : ∀ i s, s ∈ t.chain i ↔ ∃ k, t.key s = some k ∧ hash k = i
  nodup : ∀ i, (t.chain i).Nodup
  unique : ∀ s s' k, t.key s = some k → t.key s' = some k → s = s'

omit [DecidableEq σ] [DecidableEq κ] in
theorem Ok.empty : Ok hash (⟨fun _ => none, fun _ => []⟩ : HashIndex σ κ) := by
  refine ⟨fun i s => ⟨nofun, ?_⟩, fun _ => List.nodup_nil, nofun⟩
  rintro ⟨k, hk, -⟩
  cases hk

omit [DecidableEq σ] in
theorem key_of_find (h : t.find hash k = some s) : t.key s = some k := by
  simpa using List.find?_some h

omit [DecidableEq σ] in
theorem Ok.key_ne_of_find (h : t.Ok hash) (hk : t.find hash k = none) (s : σ) :
    t.key s ≠ some k := by
  intro hs
  have hmem : s ∈ t.chain (hash k) := (h.mem_chain _ s).2 ⟨k, hs, rfl⟩
  exact List.find?_eq_none.1 hk s hmem (by simpa using hs)

omit [DecidableEq κ] in
theorem key_unlink (t : HashIndex σ κ) (s : σ) :
    (t.unlink hash s).key = update t.key s none := by
  unfold unlink
  split
  · next h => rw [← h, update_eq_self]
  · rfl

omit [DecidableEq κ] in
theorem Ok.unlink (h : t.Ok hash) (s : σ) : (t.unlink hash s).Ok hash := by
  cases hs : t.key s with
  | none =>
      rw [HashIndex.unlink, hs]
      exact h
  | some k =>
      have hkey : ∀ x k', update t.key s none x = some k' ↔ x ≠ s ∧ t.key x = some k' := by
        intro x k'
        by_cases hx : x = s
        · simp [hx]
        · simp [hx]
      rw [HashIndex.unlink, hs]
      dsimp only
      refine ⟨fun i x => ?_, fun i => ?_, fun x y k' hx hy => ?_⟩
      · simp only [hkey]
        by_cases hi : i = hash k
        · subst hi
          rw [update_self, (h.nodup _).mem_erase_iff, h.mem_chain]
          constructor
          · rintro ⟨hne, k', hk', heq⟩
            exact ⟨k', ⟨hne, hk'⟩, heq⟩
          · rintro ⟨k', ⟨hne, hk'⟩, heq⟩
            exact ⟨hne, k', hk', heq⟩
        · rw [update_of_ne hi, h.mem_chain]
          constructor
          · rintro ⟨k', hk', heq⟩
            refine ⟨k', ⟨?_, hk'⟩, heq⟩
            rintro rfl
            cases hs.symm.trans hk'
            exact hi heq.symm
          · rintro ⟨k', ⟨-, hk'⟩, heq⟩
            exact ⟨k', hk', heq⟩
      · dsimp only
        by_cases hi : i = hash k
        · subst hi
          rw [update_self]
          exact (h.nodup _).erase s
        · rw [update_of_ne hi]
          exact h.nodup i
      · exact h.unique x y k' ((hkey x k').1 hx).2 ((hkey y k').1 hy).2

omit [DecidableEq κ] in
theorem Ok.link (h : t.Ok hash) (hs : t.key s = none) (hk : ∀ x, t.key x ≠ some k) :
    (t.link hash s k).Ok hash := by
  have hkey : ∀ x k', (t.link hash s k).key x = some k' ↔
      x = s ∧ k = k' ∨ x ≠ s ∧ t.key x = some k' := by
    intro x k'
    unfold HashIndex.link
    by_cases hx : x = s
    · simp [hx]
    · simp [hx]
  have hnot : ∀ i, s ∉ t.chain i := by
    intro i hmem
    obtain ⟨k', hk', -⟩ := (h.mem_chain i s).1 hmem
    cases hs.symm.trans hk'
  refine ⟨fun i x => ?_, fun i => ?_, fun x y k' hx hy => ?_⟩
  · simp only [hkey]
    unfold HashIndex.link
    dsimp only
    by_cases hi : i = hash k
    · subst hi
      rw [update_self, List.mem_cons, h.mem_chain]
      constructor
      · rintro (rfl | ⟨k', hk', heq⟩)
        · exact ⟨k, .inl ⟨rfl, rfl⟩, rfl⟩
        · refine ⟨k', .inr ⟨?_, hk'⟩, heq⟩
          rintro rfl
          cases hs.symm.trans hk'
      · rintro ⟨k', ⟨rfl, -⟩ | ⟨-, hk'⟩, heq⟩
        · exact .inl rfl
        · exact .inr ⟨k', hk', heq⟩
    · rw [update_of_ne hi, h.mem_chain]
      constructor
      · rintro ⟨k', hk', heq⟩
        refine ⟨k', .inr ⟨?_, hk'⟩, heq⟩
        rintro rfl
        cases hs.symm.trans hk'
      · rintro ⟨k', ⟨-, rfl⟩ | ⟨-, hk'⟩, heq⟩
        · exact absurd heq.symm hi
        · exact ⟨k', hk', heq⟩
  · unfold HashIndex.link
    dsimp only
    by_cases hi : i = hash k
    · subst hi
      rw [update_self]
      exact List.nodup_cons.2 ⟨hnot _, h.nodup _⟩
    · rw [update_of_ne hi]
      exact h.nodup i
  · rcases (hkey x k').1 hx with ⟨rfl, rfl⟩ | ⟨-, hx⟩
    · rcases (hkey y k).1 hy with ⟨rfl, -⟩ | ⟨-, hy⟩
      · rfl
      · exact absurd hy (hk y)
    · rcases (hkey y k').1 hy with ⟨-, rfl⟩ | ⟨-, hy⟩
      · exact absurd hx (hk x)
      · exact h.unique x y k' hx hy

end HashIndex

end NeoKernel.Lib
