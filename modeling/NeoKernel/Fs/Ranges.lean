import Mathlib.Data.Set.Basic
import Mathlib.Order.BooleanAlgebra.Set
import Mathlib.Tactic.Tauto
import NeoKernel.Fs.Flock

/-!
# The ranges of the lock table

The table of ranges stands for a set of locked bytes. The loops of `carve_locked` and
`merge_locked` are followed through the bytes that a slot covers: every byte of the table
after a loop comes from one slot of the table before it.
-/
namespace NeoKernel.Flock
open Lib Function LockRec List Option

structure Held where
  vn : Nat
  pid : Nat
  byte : Nat
  type : LockType

variable {r : LockRec}

namespace LockRec

def Covers (r : LockRec) (b : Nat) : Prop := r.start ≤ b ∧ b ≤ r.stop

def Locks (r : LockRec) (b : Nat) : Prop := r.inUse = true ∧ r.Covers b

def bytes (r : LockRec) : Set Held :=
  {h | r.Locks h.byte ∧ r.vn = h.vn ∧ r.pid = h.pid ∧ r.type = h.type}

def Alike (r r' : LockRec) : Prop := r.vn = r'.vn ∧ r.pid = r'.pid ∧ r.type = r'.type

theorem Alike.symm {r' : LockRec} (h : r.Alike r') : r'.Alike r :=
  ⟨h.1.symm, h.2.1.symm, h.2.2.symm⟩

theorem mine_iff {vn pid : Nat} :
    r.mine vn pid = true ↔ r.inUse = true ∧ r.vn = vn ∧ r.pid = pid := by
  simp [mine, and_assoc]

end LockRec

theorem overlaps_iff {s1 e1 s2 e2 : Nat} (h1 : s1 ≤ e1) (h2 : s2 ≤ e2) :
    overlaps s1 e1 s2 e2 = true ↔ ∃ b, (s1 ≤ b ∧ b ≤ e1) ∧ s2 ≤ b ∧ b ≤ e2 := by
  simp only [overlaps, Bool.and_eq_true, decide_eq_true_eq]
  constructor
  · intro h
    exact ⟨max s1 s2, by omega, by omega⟩
  · rintro ⟨b, hb⟩
    omega

def described (recs : Recs) : Set Held := {h | ∃ i, h ∈ (recs i).bytes}

/-- The own ranges of a process are disjoint, and processes share read locks only. -/
structure Apart (recs : Recs) : Prop where
  bounds : ∀ i, (recs i).inUse = true →
    (recs i).start ≤ (recs i).stop ∧ (recs i).stop ≤ endOfFile
  own : ∀ i j b, (recs i).Locks b → (recs j).Locks b → (recs i).vn = (recs j).vn →
    (recs i).pid = (recs j).pid → i = j
  shared : ∀ i j b, (recs i).Locks b → (recs j).Locks b → (recs i).vn = (recs j).vn →
    (recs i).pid ≠ (recs j).pid → (recs i).type = .rdlck

def Maximal (recs : Recs) (vn pid : Nat) : Prop :=
  ∀ i j, (recs i).mine vn pid = true → (recs j).mine vn pid = true →
    (recs i).type = (recs j).type → (recs i).stop + 1 ≠ (recs j).start

variable {recs recs' : Recs} {vn pid s e : Nat} {x : Slot}

theorem described_subset (h : ∀ x b, (recs' x).Locks b →
      ∃ y, (recs y).Locks b ∧ (recs' x).Alike (recs y)) : described recs' ⊆ described recs := by
  rintro b ⟨x, hx, hv, hp, ht⟩
  obtain ⟨y, hy, av, ap, at'⟩ := h x b.byte hx
  exact ⟨y, hy, av ▸ hv, ap ▸ hp, at' ▸ ht⟩

/-- If every byte of the new table comes from a slot of the old one, and no two slots take
it from the same, then the new table is as well separated as the old one. -/
theorem Apart.of_source (h : Apart recs)
    (hbounds : ∀ i, (recs' i).inUse = true →
      (recs' i).start ≤ (recs' i).stop ∧ (recs' i).stop ≤ endOfFile)
    {R : Slot → Slot → Prop}
    (hsrc : ∀ i b, (recs' i).Locks b → ∃ x, R i x ∧ (recs x).Locks b ∧ (recs' i).Alike (recs x))
    (hinj : ∀ i j b x, (recs' i).Locks b → (recs' j).Locks b → R i x → R j x → i = j) :
    Apart recs' where
  bounds := hbounds
  own i j b hi hj hvn hpid := by
    obtain ⟨x, hx, hi', vi, pi, -⟩ := hsrc i b hi
    obtain ⟨y, hy, hj', vj, pj, -⟩ := hsrc j b hj
    obtain rfl := h.own x y b hi' hj' (vi ▸ vj ▸ hvn) (pi ▸ pj ▸ hpid)
    exact hinj i j b x hi hj hx hy
  shared i j b hi hj hvn hpid := by
    obtain ⟨x, -, hi', vi, pi, ti⟩ := hsrc i b hi
    obtain ⟨y, -, hj', vj, pj, -⟩ := hsrc j b hj
    rw [ti]
    exact h.shared x y b hi' hj' (vi ▸ vj ▸ hvn) (pi ▸ pj ▸ hpid)

/-- What `carve_locked` does to a record it need not split. -/
def trim (vn pid s e : Nat) (r : LockRec) : LockRec :=
  if !r.mine vn pid || !overlaps r.start r.stop s e then r
  else if r.start ≥ s ∧ r.stop ≤ e then { r with inUse := false }
  else if r.start < s then { r with stop := s - 1 }
  else { r with start := e + 1 }

def Around (vn pid s e : Nat) (r : LockRec) : Prop :=
  r.mine vn pid = true ∧ r.start < s ∧ r.stop > e

theorem carveStep_trim {i : Slot} (h : ¬Around vn pid s e (recs i)) :
    carveStep vn pid s e recs i = some (update recs i (trim vn pid s e (recs i))) := by
  unfold carveStep trim
  by_cases hskip : (!(recs i).mine vn pid || !overlaps (recs i).start (recs i).stop s e) = true
  · simp [hskip]
  · have hmine : (recs i).mine vn pid = true := by
      simp only [Bool.or_eq_true, Bool.not_eq_true', not_or, Bool.not_eq_false] at hskip
      exact hskip.1
    have hside : ¬((recs i).start < s ∧ (recs i).stop > e) := fun hs => h ⟨hmine, hs⟩
    dsimp only
    rw [if_neg hskip, if_neg hskip, if_neg hside]
    by_cases hin : (recs i).start ≥ s ∧ (recs i).stop ≤ e
    · rw [if_pos hin, if_pos hin]
    · rw [if_neg hin, if_neg hin]
      split
      · rfl
      · rfl

theorem carveStep_skip {i : Slot} (h : ∀ b, (recs i).Locks b → (recs i).vn = vn →
      (recs i).pid = pid → ¬(s ≤ b ∧ b ≤ e)) (hse : s ≤ e)
    (hb : (recs i).inUse = true → (recs i).start ≤ (recs i).stop) :
    carveStep vn pid s e recs i = some recs := by
  unfold carveStep
  rw [if_pos]
  by_cases hm : (recs i).mine vn pid = true
  · obtain ⟨hu, hv, hp⟩ := mine_iff.1 hm
    have hno : ¬overlaps (recs i).start (recs i).stop s e = true := by
      rw [overlaps_iff (hb hu) hse]
      rintro ⟨b, hr, hb⟩
      exact h b ⟨hu, hr⟩ hv hp hb
    simp [hno]
  · simp [hm]

theorem trim_locks {b : Nat} (h : ¬Around vn pid s e r) :
    (trim vn pid s e r).Locks b ↔
      r.Locks b ∧ ¬(r.vn = vn ∧ r.pid = pid ∧ s ≤ b ∧ b ≤ e) := by
  unfold trim
  by_cases hm : r.mine vn pid = true
  · obtain ⟨hu, hv, hp⟩ := mine_iff.1 hm
    have hside : ¬(r.start < s ∧ r.stop > e) := fun hs => h ⟨hm, hs⟩
    simp only [hm, hv, hp, LockRec.Locks, LockRec.Covers, overlaps, hu]
    split
    · next hno =>
        simp only [Bool.not_true, Bool.false_or, Bool.not_eq_true', Bool.and_eq_false_iff,
          decide_eq_false_iff_not] at hno
        simp only [hu, true_and]
        omega
    · split
      · simp only [Bool.false_eq_true, false_and, true_and, false_iff]
        omega
      · next hyes _ =>
        simp only [Bool.not_true, Bool.false_or, Bool.not_eq_true', Bool.not_eq_false,
          Bool.and_eq_true, decide_eq_true_eq] at hyes
        split
        · simp only [true_and]
          omega
        · simp only [true_and]
          omega
  · have hn : ¬(r.inUse = true ∧ r.vn = vn ∧ r.pid = pid) := fun h => hm (mine_iff.2 h)
    simp only [hm, Bool.not_false, Bool.true_or, if_true]
    unfold LockRec.Locks
    tauto

theorem trim_alike (vn pid s e : Nat) (r : LockRec) : (trim vn pid s e r).Alike r := by
  fun_cases trim vn pid s e r <;> exact ⟨rfl, rfl, rfl⟩

theorem foldlM_carveStep_skip {l : List Slot}
    (h : ∀ i ∈ l, carveStep vn pid s e recs i = some recs) :
    l.foldlM (carveStep vn pid s e) recs = some recs := by
  induction l with
  | nil => rfl
  | cons i l ih =>
      rw [foldlM_cons, h i mem_cons_self]
      exact ih fun j hj => h j (mem_cons_of_mem i hj)

theorem foldlM_carveStep_trim {l : List Slot} (hnd : l.Nodup)
    (h : ∀ i ∈ l, ¬Around vn pid s e (recs i)) :
    l.foldlM (carveStep vn pid s e) recs =
      some fun i => if i ∈ l then trim vn pid s e (recs i) else recs i := by
  induction l generalizing recs with
  | nil => simp
  | cons i l ih =>
      obtain ⟨hi, hnd⟩ := nodup_cons.1 hnd
      -- the turn at `i` leaves the slots still to come as they were
      have hkeep : ∀ j ∈ l, update recs i (trim vn pid s e (recs i)) j = recs j := by
        intro j hj
        exact update_of_ne (fun hji : j = i => hi (hji ▸ hj)) _ _
      rw [foldlM_cons, carveStep_trim (h i mem_cons_self)]
      refine (ih hnd fun j hj => ?_).trans (congrArg some ?_)
      · rw [hkeep j hj]
        exact h j (mem_cons_of_mem i hj)
      · funext j
        by_cases hj : j ∈ l
        · simp [hj, hkeep j hj]
        · by_cases hji : j = i
          · simp [hji, hi]
          · simp [hj, hji]

def without (S : Set Held) (vn pid s e : Nat) : Set Held :=
  {h ∈ S | ¬(h.vn = vn ∧ h.pid = pid ∧ s ≤ h.byte ∧ h.byte ≤ e)}

structure Carved (recs recs' : Recs) (vn pid s e : Nat) : Prop where
  apart : Apart recs'
  maximal : ∀ v p, Maximal recs v p → Maximal recs' v p
  bytes : described recs' = without (described recs) vn pid s e

theorem trim_bounds (hr : r.inUse = true → r.start ≤ r.stop ∧ r.stop ≤ endOfFile)
    (h : ¬Around vn pid s e r) (hu : (trim vn pid s e r).inUse = true) :
    r.inUse = true ∧ r.start ≤ (trim vn pid s e r).start ∧
      (trim vn pid s e r).start ≤ (trim vn pid s e r).stop ∧ (trim vn pid s e r).stop ≤ r.stop := by
  unfold trim at hu ⊢
  by_cases hskip : (!r.mine vn pid || !overlaps r.start r.stop s e) = true
  · rw [if_pos hskip] at hu ⊢
    have := hr hu
    exact ⟨hu, by omega⟩
  · rw [if_neg hskip] at hu ⊢
    simp only [Bool.or_eq_true, Bool.not_eq_true', not_or, Bool.not_eq_false, overlaps,
      Bool.and_eq_true, decide_eq_true_eq] at hskip
    obtain ⟨hm, hov⟩ := hskip
    have hside : ¬(r.start < s ∧ r.stop > e) := fun hs => h ⟨hm, hs⟩
    have hr := hr (mine_iff.1 hm).1
    split at hu
    · cases hu
    · next hin =>
        rw [if_neg hin]
        refine ⟨(mine_iff.1 hm).1, ?_⟩
        split
        · dsimp only
          omega
        · dsimp only
          omega

theorem Apart.ordered (h : Apart recs) {i j : Slot} (hi : (recs i).mine vn pid = true)
    (hj : (recs j).mine vn pid = true) (hij : i ≠ j) :
    (recs i).stop < (recs j).start ∨ (recs j).stop < (recs i).start := by
  obtain ⟨ui, vi, pi⟩ := mine_iff.1 hi
  obtain ⟨uj, vj, pj⟩ := mine_iff.1 hj
  have bi := h.bounds i ui
  have bj := h.bounds j uj
  by_contra hov
  -- the later of the two starts would be in both ranges
  refine hij (h.own i j (max (recs i).start (recs j).start) ⟨ui, ?_⟩ ⟨uj, ?_⟩ ?_ ?_)
  · unfold Covers
    omega
  · unfold Covers
    omega
  · rw [vi, vj]
  · rw [pi, pj]

/-- Every range of `recs'` is within one of `recs`, and two within the same have a gap. -/
structure Within (recs recs' : Recs) (src : Slot → Slot) : Prop where
  range : ∀ x, (recs' x).inUse = true → (recs (src x)).inUse = true ∧
    (recs' x).Alike (recs (src x)) ∧ (recs (src x)).start ≤ (recs' x).start ∧
    (recs' x).start ≤ (recs' x).stop ∧ (recs' x).stop ≤ (recs (src x)).stop
  gap : ∀ x y, src x = src y → x ≠ y →
    (recs' x).stop + 1 < (recs' y).start ∨ (recs' y).stop + 1 < (recs' x).start

namespace Within

variable {src : Slot → Slot} (hw : Within recs recs' src) (h : Apart recs)
include hw

theorem source {b : Nat} (hx : (recs' x).Locks b) :
    (recs (src x)).Locks b ∧ (recs' x).Alike (recs (src x)) := by
  obtain ⟨hu, hal, hb⟩ := hw.range x hx.1
  have := hx.2
  unfold Covers at this
  refine ⟨⟨hu, ?_⟩, hal⟩
  unfold Covers
  omega

include h

theorem apart : Apart recs' := by
  refine h.of_source (R := fun x y => src x = y) (fun x hx => ?_)
    (fun x b hx => ⟨src x, rfl, hw.source hx⟩) fun x y b z hx hy hxz hyz => ?_
  · obtain ⟨hu, -, hb⟩ := hw.range x hx
    have := h.bounds _ hu
    omega
  · by_contra hne
    have hx := hx.2
    have hy := hy.2
    unfold Covers at hx hy
    have := hw.gap x y (hxz.trans hyz.symm) hne
    omega

theorem maximal (hmax : Maximal recs vn pid) : Maximal recs' vn pid := by
  intro i j hi hj ht hadj
  obtain ⟨ui, vi, pi⟩ := mine_iff.1 hi
  obtain ⟨uj, vj, pj⟩ := mine_iff.1 hj
  obtain ⟨ui', ⟨vi', pi', ti'⟩, bi⟩ := hw.range i ui
  obtain ⟨uj', ⟨vj', pj', tj'⟩, bj⟩ := hw.range j uj
  by_cases hij : i = j
  · subst hij
    omega
  by_cases hsame : src i = src j
  · have := hw.gap i j hsame hij
    omega
  · have mi : (recs (src i)).mine vn pid = true := mine_iff.2 ⟨ui', vi' ▸ vi, pi' ▸ pi⟩
    have mj : (recs (src j)).mine vn pid = true := mine_iff.2 ⟨uj', vj' ▸ vj, pj' ▸ pj⟩
    have hgap := hmax _ _ mi mj (ti' ▸ tj' ▸ ht)
    have hord := h.ordered mi mj hsame
    omega

theorem carved (hout : ∀ x b, (recs' x).Locks b → (recs' x).vn = vn → (recs' x).pid = pid →
      ¬(s ≤ b ∧ b ≤ e))
    (hkept : ∀ y b, (recs y).Locks b → ¬((recs y).vn = vn ∧ (recs y).pid = pid ∧ s ≤ b ∧ b ≤ e) →
      ∃ x, (recs' x).Locks b ∧ (recs' x).Alike (recs y)) : Carved recs recs' vn pid s e where
  apart := hw.apart h
  maximal _ _ := hw.maximal h
  bytes := by
    ext b
    constructor
    · intro hb
      refine ⟨described_subset (fun x b hx => ⟨_, hw.source hx⟩) hb, ?_⟩
      obtain ⟨x, hx, hv, hp, -⟩ := hb
      rintro ⟨rfl, rfl, hin⟩
      exact hout x b.byte hx hv hp hin
    · rintro ⟨⟨y, hy, hv, hp, ht⟩, hb⟩
      obtain ⟨x, hx, av, ap, at'⟩ := hkept y b.byte hy (by rw [hv, hp]; exact hb)
      exact ⟨x, hx, av.trans hv, ap.trans hp, at'.trans ht⟩

end Within

theorem Carved.trim (h : Apart recs) (hno : ∀ i, ¬Around vn pid s e (recs i)) :
    Carved recs (fun i => trim vn pid s e (recs i)) vn pid s e := by
  have hw : Within recs (fun i => Flock.trim vn pid s e (recs i)) id := by
    refine ⟨fun x hx => ?_, fun x y hxy hne => absurd hxy hne⟩
    obtain ⟨hu, hb⟩ := trim_bounds (h.bounds x) (hno x) hx
    exact ⟨hu, trim_alike .., hb⟩
  refine hw.carved h (fun x b hx hv hp hin => ?_) fun y b hy hb => ?_
  · obtain ⟨av, ap, -⟩ := trim_alike vn pid s e (recs x)
    exact ((trim_locks (hno x)).1 hx).2 ⟨av ▸ hv, ap ▸ hp, hin⟩
  · exact ⟨y, (trim_locks (hno y)).2 ⟨hy, hb⟩, trim_alike ..⟩

/-- The table after record `i` has been split around the range, with its tail in `k`. -/
def hole (recs : Recs) (i k : Slot) (s e : Nat) : Recs :=
  update (update recs k { recs i with start := e + 1 }) i
    { recs i with stop := s - 1 }

variable {i k : Slot}

theorem hole_head : hole recs i k s e i = { recs i with stop := s - 1 } :=
  update_self ..

theorem hole_tail (hki : k ≠ i) : hole recs i k s e k = { recs i with start := e + 1 } := by
  unfold hole
  rw [update_of_ne hki, update_self]

theorem hole_of_ne (hxi : x ≠ i) (hxk : x ≠ k) : hole recs i k s e x = recs x := by
  unfold hole
  rw [update_of_ne hxi, update_of_ne hxk]

def holeSource (i k x : Slot) : Slot := if x = k then i else x

theorem hole_within (h : Apart recs) (hki : k ≠ i) (hse : s ≤ e) (ha : Around vn pid s e (recs i)) :
    Within recs (hole recs i k s e) (holeSource i k) := by
  obtain ⟨hm, hs, he⟩ := ha
  have hu := (mine_iff.1 hm).1
  refine ⟨fun x hx => ?_, fun x y hsrc hxy => ?_⟩
  · by_cases hxk : x = k
    · subst hxk
      simp only [holeSource, if_true, hole_tail hki]
      exact ⟨hu, ⟨rfl, rfl, rfl⟩, by omega⟩
    · by_cases hxi : x = i
      · subst hxi
        simp only [holeSource, hxk, if_false, hole_head]
        exact ⟨hu, ⟨rfl, rfl, rfl⟩, by omega⟩
      · rw [hole_of_ne hxi hxk] at hx ⊢
        simp only [holeSource, hxk, if_false]
        exact ⟨hx, ⟨rfl, rfl, rfl⟩, by have := h.bounds x hx; omega⟩
  · unfold holeSource at hsrc
    split at hsrc
    · next hx =>
        rw [if_neg (fun hy => hxy (hx.trans hy.symm))] at hsrc
        right
        rw [← hsrc, hx, hole_head, hole_tail hki]
        dsimp only
        omega
    · split at hsrc
      · next hy =>
          left
          rw [hsrc, hy, hole_head, hole_tail hki]
          dsimp only
          omega
      · exact absurd hsrc hxy

theorem Carved.hole (h : Apart recs) (hse : s ≤ e) (ha : Around vn pid s e (recs i))
    (hk : (recs k).inUse = false) : Carved recs (hole recs i k s e) vn pid s e := by
  obtain ⟨hu, hv, hp⟩ := mine_iff.1 ha.1
  have hki : k ≠ i := by
    rintro rfl
    rw [hk] at hu
    cases hu
  refine (hole_within h hki hse ha).carved h (fun x b hx hxv hxp hin => ?_) fun y b hy hout => ?_
  · obtain ⟨hx, hc⟩ := hx
    by_cases hxk : x = k
    · rw [hxk, hole_tail hki] at hc
      exact absurd hc.1 (by dsimp only; omega)
    · by_cases hxi : x = i
      · rw [hxi, hole_head] at hc
        have := ha.2.1
        exact absurd hc.2 (by dsimp only; omega)
      · -- the range lies within record `i`, which shares no byte with the others
        rw [hole_of_ne hxi hxk] at hx hc hxv hxp
        refine hxi (h.own x i b ⟨hx, hc⟩ ⟨hu, ?_⟩ (hxv.trans hv.symm) (hxp.trans hp.symm))
        unfold Covers
        have := ha.2
        omega
  · by_cases hyi : y = i
    · subst hyi
      have hside : b < s ∨ e < b := by
        by_contra hin
        exact hout ⟨hv, hp, by omega⟩
      rcases hside with hlt | hgt
      · refine ⟨y, ?_⟩
        rw [hole_head]
        exact ⟨⟨hy.1, hy.2.1, Nat.le_sub_one_of_lt hlt⟩, rfl, rfl, rfl⟩
      · refine ⟨k, ?_⟩
        rw [hole_tail hki]
        exact ⟨⟨hy.1, hgt, hy.2.2⟩, rfl, rfl, rfl⟩
    · have hyk : y ≠ k := by
        rintro rfl
        cases hk.symm.trans hy.1
      refine ⟨y, ?_⟩
      rw [hole_of_ne hyi hyk]
      exact ⟨hy, rfl, rfl, rfl⟩

theorem recAllocLocked_free (h : recAllocLocked recs = some k) : (recs k).inUse = false := by
  have := find?_some h
  simpa using this

theorem recAllocLocked_isSome (h : 0 < freeRecsLocked recs) :
    ∃ k, recAllocLocked recs = some k := by
  obtain ⟨k, hk⟩ := exists_mem_of_length_pos h
  refine isSome_iff_exists.1 (find?_isSome.2 ?_)
  exact ⟨k, mem_slots k, (mem_filter.1 hk).2⟩

theorem splitsLocked_pos (ha : Around vn pid s e (recs i)) : 0 < splitsLocked recs vn pid s e := by
  refine length_pos_of_mem (a := i) (mem_filter.2 ⟨mem_slots i, ?_⟩)
  simp [ha.1, ha.2.1, ha.2.2]

theorem foldlM_carveStep_hole (h : Apart recs) (hse : s ≤ e) (ha : Around vn pid s e (recs i))
    (halloc : recAllocLocked recs = some k) :
    slots.foldlM (carveStep vn pid s e) recs = some (hole recs i k s e) := by
  obtain ⟨hu, hv, hp⟩ := mine_iff.1 ha.1
  have hk := recAllocLocked_free halloc
  have hcarved := Carved.hole h hse ha hk
  have hat : carveStep vn pid s e recs i = some (hole recs i k s e) := by
    have hov : overlaps (recs i).start (recs i).stop s e = true := by
      have := ha.2
      simp only [overlaps, Bool.and_eq_true, decide_eq_true_eq]
      omega
    unfold carveStep hole
    dsimp only
    rw [if_neg (by simp [ha.1, hov]), if_neg (by have := ha.2; omega), if_pos ha.2, halloc]
    rfl
  have hbefore : ∀ x, x ≠ i → carveStep vn pid s e recs x = some recs := by
    intro x hxi
    refine carveStep_skip (fun b hb hxv hxp hin => hxi ?_) hse fun hx => (h.bounds x hx).1
    refine h.own x i b hb ⟨hu, ?_⟩ (hxv.trans hv.symm) (hxp.trans hp.symm)
    unfold Covers
    have := ha.2
    omega
  have hafter : ∀ x, carveStep vn pid s e (hole recs i k s e) x = some (hole recs i k s e) := by
    intro x
    refine carveStep_skip (fun b hb hxv hxp hin => ?_) hse fun hx => (hcarved.apart.bounds x hx).1
    have hmem : (⟨vn, pid, b, (hole recs i k s e x).type⟩ : Held) ∈ described (hole recs i k s e) :=
      ⟨x, hb, hxv, hxp, rfl⟩
    rw [hcarved.bytes] at hmem
    exact hmem.2 ⟨rfl, rfl, hin⟩
  obtain ⟨before, after, hsplit⟩ := append_of_mem (mem_slots i)
  have hnd := nodup_slots
  rw [hsplit] at hnd
  have hi : i ∉ before := fun hin => (disjoint_of_nodup_append hnd) hin mem_cons_self
  rw [hsplit, foldlM_append,
    foldlM_carveStep_skip fun x hx => hbefore x fun hxi => hi (hxi ▸ hx)]
  simp only [bind_eq_bind, bind_some, foldlM_cons, hat]
  exact foldlM_carveStep_skip fun x _ => hafter x

/-- `carve_locked` never runs out of records half-way: it takes exactly the range out, or it
says so before it starts. -/
theorem carveLocked_spec (vn pid : Nat) (h : Apart recs) (hse : s ≤ e) :
    carveLocked recs vn pid s e = some (.error .enolck) ∨
      ∃ recs', carveLocked recs vn pid s e = some (.ok recs') ∧ Carved recs recs' vn pid s e := by
  unfold carveLocked
  split
  · exact .inl rfl
  · next hfree =>
      right
      by_cases hsplit : ∃ i, Around vn pid s e (recs i)
      · obtain ⟨i, ha⟩ := hsplit
        have hpos := splitsLocked_pos ha
        obtain ⟨k, hk⟩ := recAllocLocked_isSome (by omega : 0 < freeRecsLocked recs)
        rw [foldlM_carveStep_hole h hse ha hk]
        exact ⟨_, rfl, Carved.hole h hse ha (recAllocLocked_free hk)⟩
      · have hno : ∀ i, ¬Around vn pid s e (recs i) := fun i hi => hsplit ⟨i, hi⟩
        rw [foldlM_carveStep_trim nodup_slots fun i _ => hno i]
        refine ⟨_, rfl, ?_⟩
        simpa only [mem_slots, if_true] using Carved.trim h hno

variable {j : Slot}

theorem mergePartner_spec (h : mergePartner recs vn pid i = some j) :
    (recs i).mine vn pid = true ∧ (recs j).mine vn pid = true ∧ j ≠ i ∧
      (recs j).type = (recs i).type ∧ (recs i).touch (recs j) = true := by
  unfold mergePartner at h
  split at h
  · next hi =>
      have hj := find?_some h
      simp only [ne_eq, Bool.and_eq_true, decide_eq_true_eq, beq_iff_eq] at hj
      tauto
  · cases h

theorem mergeOnce_eq_some (h : mergeOnce recs vn pid = some recs') :
    ∃ i j, mergePartner recs vn pid i = some j ∧ recs' = mergePair recs i j := by
  obtain ⟨i, -, hi⟩ := exists_of_findSome?_eq_some h
  obtain ⟨j, hj, rfl⟩ := map_eq_some_iff.1 hi
  exact ⟨i, j, hj, rfl⟩

theorem maximal_of_mergeOnce (h : Apart recs) (hnone : mergeOnce recs vn pid = none) :
    Maximal recs vn pid := by
  intro i j hi hj ht hadj
  have bi := h.bounds i (mine_iff.1 hi).1
  have bj := h.bounds j (mine_iff.1 hj).1
  have hji : j ≠ i := by
    rintro rfl
    omega
  have hnone := findSome?_eq_none_iff.1 hnone i (mem_slots i)
  rw [map_eq_none_iff, mergePartner, if_pos hi, find?_eq_none] at hnone
  refine hnone j (mem_slots j) ?_
  have htouch : (recs i).touch (recs j) = true := by
    have : (recs i).stop ≠ endOfFile := by omega
    simp [LockRec.touch, this, hadj]
  simp [hji, hj, ht, htouch]

theorem mergePair_freed : mergePair recs i j j = { recs j with inUse := false } :=
  update_self ..

theorem mergePair_of_ne (hxi : x ≠ i) (hxj : x ≠ j) : mergePair recs i j x = recs x := by
  unfold mergePair
  rw [update_of_ne hxj, update_of_ne hxi]

def used (recs : Recs) : Finset Slot := Finset.univ.filter fun i => (recs i).inUse = true

section

variable (hp : mergePartner recs vn pid i = some j)
include hp

theorem mergePair_joined : mergePair recs i j i =
    { recs i with
      start := min (recs i).start (recs j).start
      stop := max (recs i).stop (recs j).stop } := by
  unfold mergePair
  rw [update_of_ne (mergePartner_spec hp).2.2.1.symm, update_self]
  congr 1
  · split <;> omega
  · split <;> omega

theorem mergePair_alike :
    (mergePair recs i j i).Alike (recs i) ∧ (mergePair recs i j i).Alike (recs j) := by
  obtain ⟨hi, hj, -, ht, -⟩ := mergePartner_spec hp
  obtain ⟨-, vi, pi⟩ := mine_iff.1 hi
  obtain ⟨-, vj, pj⟩ := mine_iff.1 hj
  rw [mergePair_joined hp]
  exact ⟨⟨rfl, rfl, rfl⟩, vi.trans vj.symm, pi.trans pj.symm, ht.symm⟩

theorem mergePair_locks (h : Apart recs) (b : Nat) :
    (mergePair recs i j i).Locks b ↔ (recs i).Locks b ∨ (recs j).Locks b := by
  obtain ⟨hi, hj, -, -, htouch⟩ := mergePartner_spec hp
  have ui := (mine_iff.1 hi).1
  have uj := (mine_iff.1 hj).1
  have bi := h.bounds i ui
  have bj := h.bounds j uj
  simp only [LockRec.touch, overlaps, Bool.or_eq_true, Bool.and_eq_true, decide_eq_true_eq,
    bne_iff_ne, ne_eq, beq_iff_eq] at htouch
  rw [mergePair_joined hp]
  unfold LockRec.Locks LockRec.Covers
  simp only [ui, uj, true_and]
  omega

theorem mergePair_bounds (h : Apart recs) (x : Slot) (hx : (mergePair recs i j x).inUse = true) :
    (mergePair recs i j x).start ≤ (mergePair recs i j x).stop ∧
      (mergePair recs i j x).stop ≤ endOfFile := by
  obtain ⟨hi, hj, -⟩ := mergePartner_spec hp
  have bi := h.bounds i (mine_iff.1 hi).1
  have bj := h.bounds j (mine_iff.1 hj).1
  by_cases hxj : x = j
  · rw [hxj, mergePair_freed] at hx
    cases hx
  · by_cases hxi : x = i
    · rw [hxi, mergePair_joined hp]
      dsimp only
      omega
    · rw [mergePair_of_ne hxi hxj] at hx ⊢
      exact h.bounds x hx

theorem mergePair_source (h : Apart recs) {b : Nat}
    (hx : (mergePair recs i j x).Locks b) : ∃ y, (x ≠ j ∧ (y = x ∨ x = i ∧ y = j)) ∧
      (recs y).Locks b ∧ (mergePair recs i j x).Alike (recs y) := by
  have hxj : x ≠ j := by
    rintro rfl
    rw [mergePair_freed] at hx
    cases hx.1
  by_cases hxi : x = i
  · subst hxi
    rcases (mergePair_locks hp h b).1 hx with hb | hb
    · exact ⟨x, ⟨hxj, .inl rfl⟩, hb, (mergePair_alike hp).1⟩
    · exact ⟨j, ⟨hxj, .inr ⟨rfl, rfl⟩⟩, hb, (mergePair_alike hp).2⟩
  · rw [mergePair_of_ne hxi hxj] at hx ⊢
    exact ⟨x, ⟨hxj, .inl rfl⟩, hx, rfl, rfl, rfl⟩

theorem mergePair_bytes (h : Apart recs) :
    described (mergePair recs i j) = described recs := by
  apply Set.Subset.antisymm
  · refine described_subset fun x b hx => ?_
    obtain ⟨y, -, hy⟩ := mergePair_source hp h hx
    exact ⟨y, hy⟩
  · refine described_subset fun x b hx => ?_
    by_cases hxi : x = i
    · exact ⟨i, (mergePair_locks hp h b).2 (.inl (hxi ▸ hx)), hxi ▸ (mergePair_alike hp).1.symm⟩
    · by_cases hxj : x = j
      · exact ⟨i, (mergePair_locks hp h b).2 (.inr (hxj ▸ hx)), hxj ▸ (mergePair_alike hp).2.symm⟩
      · refine ⟨x, ?_⟩
        rw [mergePair_of_ne hxi hxj]
        exact ⟨hx, rfl, rfl, rfl⟩

theorem mergePair_apart (h : Apart recs) :
    Apart (mergePair recs i j) := by
  refine h.of_source (mergePair_bounds hp h) (fun x b hx => mergePair_source hp h hx) ?_
  rintro x y b z - - ⟨hxj, hxz⟩ ⟨hyj, hyz⟩
  rcases hxz with rfl | ⟨rfl, rfl⟩
  · rcases hyz with rfl | ⟨rfl, rfl⟩
    · rfl
    · exact absurd rfl hxj
  · rcases hyz with rfl | ⟨rfl, -⟩
    · exact absurd rfl hyj
    · rfl

theorem mergePair_maximal {v p : Nat}
    (hne : ¬(v = vn ∧ p = pid)) (hmax : Maximal recs v p) : Maximal (mergePair recs i j) v p := by
  obtain ⟨hi, hj, hji, -, -⟩ := mergePartner_spec hp
  obtain ⟨ui, vi, pi⟩ := mine_iff.1 hi
  obtain ⟨uj, vj, pj⟩ := mine_iff.1 hj
  obtain ⟨⟨av, ap, -⟩, -⟩ := mergePair_alike hp
  have hsame : ∀ x, (mergePair recs i j x).mine v p = true → mergePair recs i j x = recs x := by
    intro x hx
    obtain ⟨ux, vx, px⟩ := mine_iff.1 hx
    refine mergePair_of_ne ?_ ?_
    · rintro rfl
      exact hne ⟨by rw [← vx, av, vi], by rw [← px, ap, pi]⟩
    · rintro rfl
      rw [mergePair_freed] at ux
      cases ux
  intro x y hx hy ht
  have hx' := hsame x hx
  have hy' := hsame y hy
  rw [hx'] at hx ht ⊢
  rw [hy'] at hy ht ⊢
  exact hmax x y hx hy ht

theorem mergePair_used :
    (used (mergePair recs i j)).card < (used recs).card := by
  obtain ⟨hi, hj, hji, -, -⟩ := mergePartner_spec hp
  have uj := (mine_iff.1 hj).1
  have ui := (mine_iff.1 hi).1
  refine Finset.card_lt_card (Finset.ssubset_iff_of_subset (fun x hx => ?_) |>.2 ⟨j, ?_, ?_⟩)
  · simp only [used, Finset.mem_filter, Finset.mem_univ, true_and] at hx ⊢
    by_cases hxj : x = j
    · rw [hxj]
      exact uj
    · by_cases hxi : x = i
      · rw [hxi]
        exact ui
      · rwa [mergePair_of_ne hxi hxj] at hx
  · simpa [used] using uj
  · simp [used, mergePair_freed]

end

/-- What joining keeps, over any number of turns. -/
structure Merged (recs recs' : Recs) (vn pid : Nat) : Prop where
  apart : Apart recs'
  bytes : described recs' = described recs
  others : ∀ v p, ¬(v = vn ∧ p = pid) → Maximal recs v p → Maximal recs' v p

theorem mergeLoop_merged (vn pid n : Nat) (h : Apart recs) :
    Merged recs (mergeLoop vn pid n recs) vn pid := by
  induction n generalizing recs with
  | zero => exact ⟨h, rfl, fun _ _ _ hm => hm⟩
  | succ n ih =>
      rw [mergeLoop]
      split
      · exact ⟨h, rfl, fun _ _ _ hm => hm⟩
      · next recs' hsome =>
          obtain ⟨i, j, hp, rfl⟩ := mergeOnce_eq_some hsome
          have hrest := ih (mergePair_apart hp h)
          refine ⟨hrest.apart, hrest.bytes.trans (mergePair_bytes hp h), fun v p hne hm => ?_⟩
          exact hrest.others v p hne (mergePair_maximal hp hne hm)

theorem mergeOnce_mergeLoop {n : Nat} (hn : (used recs).card ≤ n) :
    mergeOnce (mergeLoop vn pid n recs) vn pid = none := by
  induction n generalizing recs with
  | zero =>
      -- nothing is in use, so nothing can be joined
      rw [mergeLoop]
      by_contra hsome
      obtain ⟨recs', hsome⟩ := ne_none_iff_exists'.1 hsome
      obtain ⟨i, j, hp, -⟩ := mergeOnce_eq_some hsome
      have := mergePair_used hp
      omega
  | succ n ih =>
      rw [mergeLoop]
      split
      · next hnone => exact hnone
      · next recs' hsome =>
          obtain ⟨i, j, hp, rfl⟩ := mergeOnce_eq_some hsome
          have := mergePair_used hp
          exact ih (by omega)

theorem mergeOnce_mergeLocked (recs : Recs) (vn pid : Nat) :
    mergeOnce (mergeLocked recs vn pid) vn pid = none := by
  refine mergeOnce_mergeLoop ?_
  simpa [Slot] using Finset.card_le_univ (used recs)

theorem mergeLocked_maximal (h : Apart recs) (vn pid : Nat) :
    Maximal (mergeLocked recs vn pid) vn pid :=
  maximal_of_mergeOnce (mergeLoop_merged vn pid _ h).apart (mergeOnce_mergeLocked recs vn pid)

end NeoKernel.Flock
