import NeoKernel.Sched.Timeline

/-!
# What the min_vruntime aggregate should be

`Exact` is the meaning: each node holds the smallest virtual run time below it.
`Local` is what the callbacks can check: each node holds the minimum of its own
value and the aggregates of its children. They agree when all virtual run times
lie in one half of the ring.
-/
namespace NeoKernel.Sched
open Lib Rbtree

variable {ι : Type}
variable {data data' : ι → SchedEntity} {a b : List ι} {m : BitVec 64} {t : CTree ι} {x : ι}

def IsMin (data : ι → SchedEntity) (ids : List ι) (m : BitVec 64) : Prop :=
  (∃ i ∈ ids, (data i).vruntime = m) ∧ ∀ i ∈ ids, vtimeBefore (data i).vruntime m = false

/-- The virtual run times of `ids` lie within half of the ring of each other. -/
def InHalf (data : ι → SchedEntity) (ids : List ι) : Prop :=
  ∃ base, ∀ i ∈ ids, Half base (data i).vruntime

theorem InHalf.mono (h : InHalf data b)
    (hab : ∀ i ∈ a, i ∈ b) : InHalf data a := by
  obtain ⟨base, hb⟩ := h
  exact ⟨base, fun i hi => hb i (hab i hi)⟩

theorem InHalf.congr_vruntime (h : InHalf data a)
    (hv : ∀ i, (data' i).vruntime = (data i).vruntime) : InHalf data' a := by
  simpa only [InHalf, hv] using h

theorem isMin_singleton (data : ι → SchedEntity) (x : ι) : IsMin data [x] (data x).vruntime :=
  ⟨⟨x, by simp, rfl⟩, by simp [vtimeBefore, serialBefore_irrefl]⟩

theorem IsMin.congr_mem (h : IsMin data a m) (hab : ∀ i, i ∈ a ↔ i ∈ b) : IsMin data b m := by
  obtain ⟨⟨i, hi, hm⟩, hle⟩ := h
  exact ⟨⟨i, (hab i).mp hi, hm⟩, fun j hj => hle j ((hab j).mpr hj)⟩

theorem IsMin.congr_vruntime
    (h : IsMin data a m) (hv : ∀ i, (data' i).vruntime = (data i).vruntime) :
    IsMin data' a m := by
  simpa only [IsMin, hv] using h

theorem isMin_iff_offset {ids : List ι} {base : BitVec 64}
    (hw : ∀ i ∈ ids, Half base (data i).vruntime) :
    IsMin data ids m ↔ (∃ i ∈ ids, (data i).vruntime = m) ∧
      ∀ i ∈ ids, offset base m ≤ offset base (data i).vruntime := by
  constructor
  · rintro ⟨⟨j, hj, rfl⟩, hle⟩
    refine ⟨⟨j, hj, rfl⟩, ?_⟩
    intro i hi
    exact (serialBefore_eq_false_iff (hw i hi) (hw j hj)).mp (hle i hi)
  · rintro ⟨⟨j, hj, rfl⟩, hle⟩
    refine ⟨⟨j, hj, rfl⟩, ?_⟩
    intro i hi
    exact (serialBefore_eq_false_iff (hw i hi) (hw j hj)).mpr (hle i hi)

theorem IsMin.unique {ids : List ι} {n : BitVec 64}
    (hw : InHalf data ids) (hm : IsMin data ids m) (hn : IsMin data ids n) : m = n := by
  obtain ⟨base, hw⟩ := hw
  obtain ⟨⟨i, hi, rfl⟩, hm⟩ := (isMin_iff_offset hw).mp hm
  obtain ⟨⟨j, hj, rfl⟩, hn⟩ := (isMin_iff_offset hw).mp hn
  exact offset_injective base (le_antisymm (hm j hj) (hn i hi))

theorem IsMin.append {n : BitVec 64}
    (hw : InHalf data (a ++ b)) (hm : IsMin data a m) (hn : IsMin data b n) :
    IsMin data (a ++ b) (vtimeMin m n) := by
  obtain ⟨base, hw⟩ := hw
  have hwa : ∀ i ∈ a, Half base (data i).vruntime := fun i hi => hw i (by simp [hi])
  have hwb : ∀ i ∈ b, Half base (data i).vruntime := fun i hi => hw i (by simp [hi])
  obtain ⟨⟨i, hi, rfl⟩, hm⟩ := (isMin_iff_offset hwa).mp hm
  obtain ⟨⟨j, hj, rfl⟩, hn⟩ := (isMin_iff_offset hwb).mp hn
  have hlt := serialBefore_iff (hwa i hi) (hwb j hj)
  rw [isMin_iff_offset hw]
  cases hc : vtimeBefore (data i).vruntime (data j).vruntime with
  | true =>
      have hle := hlt.mp hc
      simp only [vtimeMin, hc, if_true]
      refine ⟨⟨i, by simp [hi], rfl⟩, ?_⟩
      intro k hk
      rcases List.mem_append.mp hk with hk | hk
      · exact hm k hk
      · exact le_trans (le_of_lt hle) (hn k hk)
  | false =>
      have hle := (serialBefore_eq_false_iff (hwa i hi) (hwb j hj)).mp hc
      simp only [vtimeMin, hc]
      refine ⟨⟨j, by simp [hj], rfl⟩, ?_⟩
      intro k hk
      rcases List.mem_append.mp hk with hk | hk
      · exact le_trans hle (hm k hk)
      · exact hn k hk

def Exact (data : ι → SchedEntity) : CTree ι → Prop
  | .nil => True
  | .node _ l x r =>
      IsMin data (l.inorder ++ x :: r.inorder) (data x).minVruntime ∧ Exact data l ∧ Exact data r

/-- What `node_min_vruntime` computes at `x` from the aggregates of its children. -/
def combine (data : ι → SchedEntity) (x : ι) (left right : Option ι) : BitVec 64 :=
  minWith data (minWith data (data x).vruntime left) right

def Local (data : ι → SchedEntity) : CTree ι → Prop
  | .nil => True
  | .node _ l x r =>
      (data x).minVruntime = combine data x l.rootId r.rootId ∧ Local data l ∧ Local data r

theorem exact_bin {d : Dir} {c : Color} {s : CTree ι} :
    Exact data (.bin d c t x s) ↔
      IsMin data (t.inorder ++ x :: s.inorder) (data x).minVruntime ∧ Exact data t ∧
        Exact data s := by
  cases d with
  | left => exact Iff.rfl
  | right =>
      have hmem : ∀ i, i ∈ s.inorder ++ x :: t.inorder ↔ i ∈ t.inorder ++ x :: s.inorder := by
        intro i
        simp only [List.mem_append, List.mem_cons]
        tauto
      constructor
      · rintro ⟨hm, hs, ht⟩
        exact ⟨hm.congr_mem hmem, ht, hs⟩
      · rintro ⟨hm, ht, hs⟩
        exact ⟨hm.congr_mem fun i => (hmem i).symm, hs, ht⟩

theorem Exact.isMin_root (h : Exact data t)
    (hx : t.rootId = some x) : IsMin data t.inorder (data x).minVruntime := by
  cases t with
  | nil => simp at hx
  | node c l y r =>
      cases hx
      exact h.1

theorem IsMin.minWith
    (hw : InHalf data (a ++ t.inorder)) (hm : IsMin data a m) (ht : Exact data t) :
    IsMin data (a ++ t.inorder) (Sched.minWith data m t.rootId) := by
  cases hroot : t.rootId with
  | none =>
      cases t with
      | nil => simpa [Sched.minWith] using hm
      | node _ _ _ _ => cases hroot
  | some x => exact hm.append hw (ht.isMin_root hroot)

theorem isMin_combine {l r : CTree ι}
    (hw : InHalf data (l.inorder ++ x :: r.inorder)) (hl : Exact data l) (hr : Exact data r) :
    IsMin data (l.inorder ++ x :: r.inorder) (combine data x l.rootId r.rootId) := by
  have hxl := (isMin_singleton data x).minWith (t := l) (hw.mono (by simp +contextual)) hl
  have hall := hxl.minWith (t := r) (hw.mono (by simp; tauto)) hr
  exact hall.congr_mem (by simp; tauto)

theorem exact_iff_local (hw : InHalf data t.inorder) :
    Exact data t ↔ Local data t := by
  induction t with
  | nil => exact Iff.rfl
  | node c l x r ihl ihr =>
      rw [CTree.inorder_node] at hw
      have ihl := ihl (hw.mono (by simp +contextual))
      have ihr := ihr (hw.mono (by simp +contextual))
      constructor
      · rintro ⟨hm, hl, hr⟩
        exact ⟨hm.unique hw (isMin_combine hw hl hr), ihl.mp hl, ihr.mp hr⟩
      · rintro ⟨hm, hl, hr⟩
        refine ⟨?_, ihl.mpr hl, ihr.mpr hr⟩
        rw [hm]
        exact isMin_combine hw (ihl.mpr hl) (ihr.mpr hr)

theorem exact_of_plug {ctx : Ctx ι}
    (h : Exact data (plug ctx t)) : Exact data t := by
  induction ctx generalizing t with
  | nil => exact h
  | cons f ctx ih => exact (exact_bin.mp (ih h)).2.1

theorem Exact.congr (h : Exact data t)
    (hv : ∀ i, (data' i).vruntime = (data i).vruntime)
    (heq : ∀ i ∈ t.inorder, data' i = data i) : Exact data' t := by
  induction t with
  | nil => trivial
  | node c l x r ihl ihr =>
      obtain ⟨hm, hl, hr⟩ := h
      refine ⟨?_, ihl hl fun i hi => heq i (by simp [hi]), ihr hr fun i hi => heq i (by simp [hi])⟩
      rw [heq x (by simp)]
      exact hm.congr_vruntime hv

theorem Exact.replace {ctx : Ctx ι} {u : CTree ι}
    (h : Exact data (plug ctx t)) (hu : Exact data' u)
    (hmem : ∀ i, i ∈ t.inorder ↔ i ∈ u.inorder)
    (hv : ∀ i, (data' i).vruntime = (data i).vruntime)
    (heq : ∀ i ∈ Ctx.ids ctx, data' i = data i) : Exact data' (plug ctx u) := by
  induction ctx generalizing t u with
  | nil => exact hu
  | cons f ctx ih =>
      rw [plug_cons] at h
      obtain ⟨hm, -, hs⟩ := exact_bin.mp (exact_of_plug h)
      refine ih h (exact_bin.mpr ⟨?_, hu, hs.congr hv ?_⟩) ?_ ?_
      · rw [heq f.id (by simp [Ctx.ids])]
        exact (hm.congr_vruntime hv).congr_mem (by simp [hmem])
      · intro i hi
        exact heq i (by simp [Ctx.ids, hi])
      · intro i
        simp only [CTree.mem_inorder_bin, hmem]
      · intro i hi
        exact heq i (by simp [Ctx.ids, hi])

theorem Exact.of_shape {u : CTree ι} (h : Exact data t)
    (hs : t.shape = u.shape) : Exact data u := by
  induction t generalizing u with
  | nil =>
      cases u with
      | nil => trivial
      | node _ _ _ _ => cases hs
  | node c l x r ihl ihr =>
      cases u with
      | nil => cases hs
      | node k a y b =>
          simp only [CTree.shape, CTree.node.injEq, true_and] at hs
          obtain ⟨hl, rfl, hr⟩ := hs
          obtain ⟨hm, hel, her⟩ := h
          refine ⟨?_, ihl hel hl, ihr her hr⟩
          rwa [← CTree.inorder_of_shape hl, ← CTree.inorder_of_shape hr]

end NeoKernel.Sched
