import Mathlib.Data.List.AList
import Mathlib.Tactic

/-!
# Finite tables

`Table κ ν` is Mathlib's association list with distinct keys. Beside its lookups this
adds a change of all values (`adjust`) and the sum of a weight over all entries
(`weigh`), with which references into a table are counted.
-/
namespace NeoKernel.Lib
open Function List Option AList

abbrev Table (κ ν : Type) := AList fun _ : κ => ν

namespace Table

variable {κ ν : Type}

theorem keys_map (f : κ → ν → ν) (l : List (Sigma fun _ : κ => ν)) :
    (l.map fun x => (⟨x.1, f x.1 x.2⟩ : Sigma fun _ : κ => ν)).keys = l.keys := by
  simp [List.keys, comp_def]

def adjust (f : κ → ν → ν) (t : Table κ ν) : Table κ ν where
  entries := t.entries.map fun x => ⟨x.1, f x.1 x.2⟩
  nodupKeys := by
    rw [List.NodupKeys, keys_map]
    exact t.nodupKeys

def weigh (w : κ → ν → Nat) (t : Table κ ν) : Nat := (t.entries.map fun x => w x.1 x.2).sum

section Weigh

variable {w w' : κ → ν → Nat} {t : Table κ ν}

@[simp] theorem weigh_empty : weigh w (∅ : Table κ ν) = 0 := rfl

theorem weigh_adjust (f : κ → ν → ν) :
    weigh w (t.adjust f) = weigh (fun k v => w k (f k v)) t := by
  simp [weigh, adjust, comp_def]

theorem weigh_congr (h : ∀ x ∈ t.entries, w x.1 x.2 = w' x.1 x.2) : weigh w t = weigh w' t := by
  unfold weigh
  rw [map_congr_left h]

end Weigh

variable [DecidableEq κ] {w : κ → ν → Nat} {t : Table κ ν} {k k' : κ} {v v' : ν}

@[simp] theorem lookup_adjust (f : κ → ν → ν) : (t.adjust f).lookup k = (t.lookup k).map (f k) :=
  dlookup_map₂ k

theorem lookup_insert_cases (h : (t.insert k v).lookup k' = some v') :
    k' = k ∧ v = v' ∨ k' ≠ k ∧ t.lookup k' = some v' := by
  by_cases hk : k' = k
  · rw [hk, lookup_insert] at h
    exact .inl ⟨hk, some.inj h⟩
  · rw [lookup_insert_ne hk] at h
    exact .inr ⟨hk, h⟩

theorem lookup_erase_some (h : (t.erase k).lookup k' = some v') :
    k' ≠ k ∧ t.lookup k' = some v' := by
  by_cases hk : k' = k
  · rw [hk, lookup_erase] at h
    cases h
  · rw [lookup_erase_ne hk] at h
    exact ⟨hk, h⟩

theorem mem_entries_iff : (⟨k, v⟩ : Sigma fun _ : κ => ν) ∈ t.entries ↔ t.lookup k = some v :=
  (mem_dlookup_iff t.nodupKeys).symm

theorem weigh_of_lookup (h : t.lookup k = some v) :
    weigh w t = w k v + weigh w (t.erase k) := by
  have hmem : (⟨k, v⟩ : Sigma fun _ : κ => ν) ∈ t.entries := mem_entries_iff.2 h
  obtain ⟨v', l₁, l₂, hk, hl, herase⟩ := exists_of_kerase (mem_keys_of_mem hmem)
  have hv : v' = v := by
    have hmem' : (⟨k, v'⟩ : Sigma fun _ : κ => ν) ∈ t.entries := by
      rw [hl]
      simp
    exact some.inj ((mem_entries_iff.1 hmem').symm.trans h)
  subst hv
  unfold weigh
  rw [show (t.erase k).entries = l₁ ++ l₂ from herase, hl]
  simp only [map_append, map_cons, sum_append, sum_cons]
  omega

theorem erase_of_none (h : t.lookup k = none) : t.erase k = t := by
  apply AList.ext
  exact kerase_of_notMem_keys (lookup_eq_none.1 h)

theorem weigh_insert : weigh w (t.insert k v) = w k v + weigh w (t.erase k) := by
  unfold weigh
  rw [entries_insert]
  rfl

theorem weigh_insert_add (t : Table κ ν) (k : κ) (v : ν) (w : κ → ν → Nat) :
    weigh w (t.insert k v) + (t.lookup k).elim 0 (w k) = weigh w t + w k v := by
  rw [weigh_insert]
  cases hv : t.lookup k with
  | none =>
      rw [erase_of_none hv, elim_none]
      omega
  | some v' =>
      rw [weigh_of_lookup hv, elim_some]
      omega

theorem weigh_insert_getD {d : ν} (h : w k d = 0) :
    weigh w (t.insert k v) + w k ((t.lookup k).getD d) = weigh w t + w k v := by
  rw [← weigh_insert_add t k v]
  cases t.lookup k with
  | none => rw [getD_none, h, elim_none]
  | some v' => rfl

theorem weigh_insert_of_none (h : t.lookup k = none) :
    weigh w (t.insert k v) = w k v + weigh w t := by
  rw [weigh_insert, erase_of_none h]

theorem weigh_insert_of_lookup (h : t.lookup k = some v) :
    weigh w (t.insert k v') + w k v = weigh w t + w k v' := by
  rw [weigh_insert, weigh_of_lookup h]
  omega

theorem le_weigh (h : t.lookup k = some v) : w k v ≤ weigh w t := by
  rw [weigh_of_lookup h]
  exact Nat.le_add_right _ _

theorem add_le_weigh (hne : k ≠ k') (h : t.lookup k = some v) (h' : t.lookup k' = some v') :
    w k v + w k' v' ≤ weigh w t := by
  rw [weigh_of_lookup h]
  refine Nat.add_le_add_left (le_weigh ?_) _
  rw [lookup_erase_ne hne.symm]
  exact h'

def values (t : Table κ ν) : List ν := t.entries.map fun x => x.2

theorem mem_values : v ∈ t.values ↔ ∃ k, t.lookup k = some v := by
  unfold values
  constructor
  · intro h
    obtain ⟨⟨k, v⟩, hx, rfl⟩ := mem_map.1 h
    exact ⟨k, mem_entries_iff.1 hx⟩
  · rintro ⟨k, h⟩
    exact mem_map.2 ⟨⟨k, v⟩, mem_entries_iff.2 h, rfl⟩

theorem values_insert : values (t.insert k v) = v :: values (t.erase k) := by
  unfold values
  rw [entries_insert]
  rfl

theorem values_perm (h : t.lookup k = some v) : t.values.Perm (v :: values (t.erase k)) := by
  have hself : t.entries.Perm (⟨k, v⟩ :: (t.erase k).entries) := by
    have hinsert : t.entries.Perm (t.insert k v).entries := by
      rw [perm_ext_iff_of_nodup t.nodupKeys.nodup (t.insert k v).nodupKeys.nodup]
      rintro ⟨k', v'⟩
      rw [mem_entries_iff, mem_entries_iff]
      by_cases hk : k' = k
      · rw [hk, lookup_insert, h]
      · rw [lookup_insert_ne hk]
    rw [entries_insert] at hinsert
    exact hinsert
  exact hself.map _

theorem weigh_eq_zero (h : ∀ k v, t.lookup k = some v → w k v = 0) : weigh w t = 0 := by
  unfold weigh
  refine sum_eq_zero fun n hn => ?_
  obtain ⟨x, hx, rfl⟩ := mem_map.1 hn
  exact h x.1 x.2 (mem_entries_iff.1 hx)

theorem weigh_single (g : ν → Nat) :
    weigh (fun k' v => if k' = k then g v else 0) t = (t.lookup k).elim 0 g := by
  cases hv : t.lookup k with
  | none =>
      apply weigh_eq_zero
      intro k' v h
      apply if_neg
      rintro rfl
      rw [hv] at h
      cases h
  | some v =>
      have hrest : weigh (fun k' v => if k' = k then g v else 0) (t.erase k) = 0 :=
        weigh_eq_zero fun _ _ h => if_neg (lookup_erase_some h).1
      rw [weigh_of_lookup hv, hrest, if_pos rfl]
      rfl

end Table

end NeoKernel.Lib
