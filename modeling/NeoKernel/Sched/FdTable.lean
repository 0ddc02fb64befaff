import NeoKernel.Errno
import NeoKernel.Lib.Table

/-!
# Descriptor tables (kernel/sched/fd_table.c)

A descriptor is a value that is copied; only the hooks `dup` and `close` of its object are
told. An operation returns the new tables and the hooks it calls. `Balanced`: the descriptors of
an object change by as many as its hooks say.
-/
namespace NeoKernel.Fd
open Lib Function List Table

def fdTableMax : Nat := 16384

abbrev FdTable (φ : Type) := Table Nat φ

abbrev Tables (φ : Type) := Table Nat (FdTable φ)

inductive Hook (φ : Type) where
  | dup (f : φ)
  | close (f : φ)
  deriving DecidableEq, Repr

variable {φ : Type}

namespace Hook

def duped : Hook φ → Option φ
  | .dup f => some f
  | .close _ => none

def closed : Hook φ → Option φ
  | .dup _ => none
  | .close f => some f

end Hook

def tableOf (T : Tables φ) (p : Nat) : FdTable φ := (T.lookup p).getD ∅

def setTable (T : Tables φ) (p : Nat) (t : FdTable φ) : Tables φ := T.insert p t

def lowestFree (t : FdTable φ) : Nat → Nat → Option Nat
  | 0, _ => none
  | n + 1, fd => if (t.lookup fd).isNone then some fd else lowestFree t n (fd + 1)

/-- `fd_table_alloc_from`; `slots` says whether the slots of the bucket can be had. -/
def fdTableAllocFrom (slots : Bool) (t : FdTable φ) (start : Nat) : Option Nat :=
  if slots then lowestFree t (fdTableMax - start) start else none

/-- A new descriptor for an object that has just been opened. -/
def fdTableInstall (T : Tables φ) (p : Nat) (slots : Bool) (f : φ) : Option (Tables φ × Nat) :=
  (fdTableAllocFrom slots (tableOf T p) 0).map fun fd =>
    (setTable T p ((tableOf T p).insert fd f), fd)

def fdTableClose (T : Tables φ) (p fd : Nat) : Tables φ × List (Hook φ) :=
  match (tableOf T p).lookup fd with
  | none => (T, [])
  | some f => (setTable T p ((tableOf T p).erase fd), [.close f])

def fdTableDup2 (T : Tables φ) (p oldfd newfd : Nat) (slots : Bool) :
    Tables φ × List (Hook φ) × Except Errno Nat :=
  if oldfd ≥ fdTableMax ∨ newfd ≥ fdTableMax then (T, [], .error .ebadf)
  else
    match (tableOf T p).lookup oldfd with
    | none => (T, [], .error .ebadf)
    | some src =>
        if oldfd = newfd then (T, [], .ok newfd)
        else if !slots then (T, [], .error .emfile)
        else
          let T' := setTable T p ((tableOf T p).insert newfd src)
          match (tableOf T p).lookup newfd with
          | none => (T', [.dup src], .ok newfd)
          | some closing => (T', [.dup src, .close closing], .ok newfd)

/-- `sys_dup` and `F_DUPFD`. The slot that is taken first holds no object; it is overwritten. -/
def dupFd (T : Tables φ) (p oldfd start : Nat) (slots : Bool) :
    Tables φ × List (Hook φ) × Except Errno Nat :=
  match (tableOf T p).lookup oldfd with
  | none => (T, [], .error .ebadf)
  | some _ =>
      match fdTableAllocFrom slots (tableOf T p) start with
      | none => (T, [], .error .emfile)
      | some newfd => fdTableDup2 T p oldfd newfd slots

/-- `fd_table_dup`, for `fork` and `spawn`: the table of `p` is copied for the new process `c`. -/
def fdTableDup (T : Tables φ) (p c : Nat) : Tables φ × List (Hook φ) :=
  (setTable T c (tableOf T p), (tableOf T p).values.map .dup)

def fdTableFree (T : Tables φ) (p : Nat) : Tables φ × List (Hook φ) :=
  (T.erase p, (tableOf T p).values.map .close)

variable [DecidableEq φ]

def descriptors (T : Tables φ) (f : φ) : Nat := T.weigh fun _ t => t.values.count f

/-- The descriptors of each object change by as many as the hooks say. -/
def Balanced (T T' : Tables φ) (hs : List (Hook φ)) : Prop :=
  ∀ f, descriptors T' f + (hs.filterMap Hook.closed).count f =
    descriptors T f + (hs.filterMap Hook.duped).count f

section Count

variable {T : Tables φ} {p fd : Nat} {f : φ} {t : FdTable φ}

theorem descriptors_setTable (T : Tables φ) (p : Nat) (t : FdTable φ) (f : φ) :
    descriptors (setTable T p t) f + (tableOf T p).values.count f =
      descriptors T f + t.values.count f :=
  weigh_insert_getD (w := fun _ (t : FdTable φ) => t.values.count f) rfl

theorem descriptors_erase (T : Tables φ) (p : Nat) (f : φ) :
    descriptors (T.erase p) f + (tableOf T p).values.count f = descriptors T f := by
  unfold descriptors tableOf
  cases ht : T.lookup p with
  | none =>
      rw [erase_of_none ht]
      rfl
  | some t =>
      rw [weigh_of_lookup ht]
      exact Nat.add_comm ..

theorem values_count_le (T : Tables φ) (p : Nat) (f : φ) :
    (tableOf T p).values.count f ≤ descriptors T f := by
  have := descriptors_erase T p f
  omega

theorem descriptors_pos (h : (tableOf T p).lookup fd = some f) : 0 < descriptors T f := by
  have hmem : f ∈ (tableOf T p).values := mem_values.2 ⟨fd, h⟩
  exact (count_pos_iff.2 hmem).trans_le (values_count_le T p f)

theorem values_count_insert (t : FdTable φ) (fd : Nat) (g f : φ) :
    (Table.values (t.insert fd g)).count f + ((t.lookup fd).toList).count f =
      t.values.count f + [g].count f := by
  rw [values_insert]
  cases ht : t.lookup fd with
  | none =>
      rw [erase_of_none ht]
      simp [count_cons]
  | some v =>
      rw [(values_perm ht).count_eq]
      simp only [Option.toList, count_cons, count_nil]
      omega

theorem values_count_erase (h : t.lookup fd = some f) (g : φ) :
    (Table.values (t.erase fd)).count g + [f].count g = t.values.count g := by
  rw [(values_perm h).count_eq]
  simp only [count_cons, count_nil]
  omega

end Count

/-- The hooks tell of every change, and those of `dup` are of objects in `src`. -/
structure Told (T T' : Tables φ) (hs : List (Hook φ)) (src : φ → Prop) : Prop where
  balanced : Balanced T T' hs
  duped : ∀ f ∈ hs.filterMap Hook.duped, src f

section Balance

variable {T : Tables φ} {p fd start oldfd newfd : Nat} {slots : Bool} {t : FdTable φ} {f : φ}
  {src : φ → Prop}

theorem Told.refl : Told T T [] src := ⟨fun _ => rfl, nofun⟩

omit [DecidableEq φ] in
theorem lookup_of_lowestFree {n : Nat} (h : lowestFree t n start = some fd) :
    t.lookup fd = none := by
  induction n generalizing start with
  | zero => cases h
  | succ n ih =>
      rw [lowestFree] at h
      split at h
      · next hfree =>
          cases h
          exact Option.isNone_iff_eq_none.1 hfree
      · exact ih h

omit [DecidableEq φ] in
theorem lookup_of_allocFrom (h : fdTableAllocFrom slots t start = some fd) : t.lookup fd = none :=
  lookup_of_lowestFree (Option.ite_none_right_eq_some.1 h).2

theorem descriptors_install {T' : Tables φ}
    (h : fdTableInstall T p slots f = some (T', fd)) (g : φ) :
    descriptors T' g = descriptors T g + [f].count g := by
  obtain ⟨fd', hfd, heq⟩ := Option.map_eq_some_iff.1 h
  cases heq
  have hset := descriptors_setTable T p ((tableOf T p).insert fd f) g
  have hins := values_count_insert (tableOf T p) fd f g
  rw [lookup_of_allocFrom hfd] at hins
  simp only [Option.toList, count_nil] at hins
  omega

section

omit [DecidableEq φ]

theorem filterMap_closed_close (l : List φ) : (l.map Hook.close).filterMap Hook.closed = l := by
  simp [filterMap_map, comp_def, Hook.closed]

theorem filterMap_duped_close (l : List φ) : (l.map Hook.close).filterMap Hook.duped = [] := by
  simp [filterMap_map, comp_def, Hook.duped]

theorem filterMap_closed_dup (l : List φ) : (l.map Hook.dup).filterMap Hook.closed = [] := by
  simp [filterMap_map, comp_def, Hook.closed]

theorem filterMap_duped_dup (l : List φ) : (l.map Hook.dup).filterMap Hook.duped = l := by
  simp [filterMap_map, comp_def, Hook.duped]

end

/-- What was in the slot is closed. -/
theorem Told.insert (T : Tables φ) (p fd : Nat) (src : φ → Prop) (hf : src f) :
    Told T (setTable T p ((tableOf T p).insert fd f))
      (.dup f :: ((tableOf T p).lookup fd).toList.map .close) src := by
  refine ⟨fun g => ?_, fun g hg => ?_⟩
  · have hset := descriptors_setTable T p ((tableOf T p).insert fd f) g
    have hins := values_count_insert (tableOf T p) fd f g
    simp only [filterMap_cons, Hook.closed, Hook.duped, filterMap_closed_close,
      filterMap_duped_close]
    omega
  · simp only [filterMap_cons, Hook.duped, filterMap_duped_close] at hg
    exact mem_singleton.1 hg ▸ hf

theorem fdTableClose_told :
    Told T (fdTableClose T p fd).1 (fdTableClose T p fd).2 fun _ => False := by
  unfold fdTableClose
  split
  · exact .refl
  · next f hf =>
      refine ⟨fun g => ?_, nofun⟩
      have hset := descriptors_setTable T p ((tableOf T p).erase fd) g
      have herase := values_count_erase hf g
      simp only [filterMap_cons, filterMap_nil, Hook.closed, Hook.duped, count_nil]
      omega

theorem fdTableDup2_told : Told T (fdTableDup2 T p oldfd newfd slots).1
    (fdTableDup2 T p oldfd newfd slots).2.1
    fun f => oldfd ≠ newfd ∧ (tableOf T p).lookup oldfd = some f := by
  unfold fdTableDup2
  split
  · exact .refl
  split
  · exact .refl
  next src hsrc =>
  split
  · exact .refl
  next hne =>
  split
  · exact .refl
  have hins := Told.insert T p newfd
    (fun f => oldfd ≠ newfd ∧ (tableOf T p).lookup oldfd = some f) ⟨hne, hsrc⟩
  dsimp only
  split
  · next hnew =>
      rw [hnew] at hins
      exact hins
  · next hnew =>
      rw [hnew] at hins
      exact hins

theorem dupFd_told : Told T (dupFd T p oldfd start slots).1 (dupFd T p oldfd start slots).2.1
    fun f => (tableOf T p).lookup oldfd = some f := by
  unfold dupFd
  split
  · exact .refl
  · split
    · exact .refl
    · exact ⟨fdTableDup2_told.balanced, fun f hf => (fdTableDup2_told.duped f hf).2⟩

theorem fdTableDup_told {c : Nat} (hc : T.lookup c = none) :
    Told T (fdTableDup T p c).1 (fdTableDup T p c).2 (· ∈ (tableOf T p).values) := by
  unfold fdTableDup
  dsimp only
  refine ⟨fun g => ?_, fun f hf => ?_⟩
  · have hset := descriptors_setTable T c (tableOf T p) g
    have hempty : (tableOf T c).values.count g = 0 := by
      rw [tableOf, hc]
      rfl
    rw [filterMap_closed_dup, filterMap_duped_dup, count_nil]
    omega
  · rwa [filterMap_duped_dup] at hf

theorem fdTableFree_told : Told T (fdTableFree T p).1 (fdTableFree T p).2 fun _ => False := by
  unfold fdTableFree
  refine ⟨fun g => ?_, fun f hf => ?_⟩
  · have hfree := descriptors_erase T p g
    rw [filterMap_closed_close, filterMap_duped_close, count_nil]
    omega
  · rw [filterMap_duped_close] at hf
    cases hf

end Balance

end NeoKernel.Fd
