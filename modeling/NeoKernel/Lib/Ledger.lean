import Mathlib.Tactic
import NeoKernel.Lib.Update

/-!
# Releasing and reusing the slots of a table

To give a slot back a thread exchanges the slot's `reclaimed` flag; the thread that finds it clear
has won and marks the slot free under the table lock. Taking a slot ends with clearing the flag.
`gen` counts how often that has happened and `freed` lists the generations that were given back.

A thread's `Claim` is what it is about to do: the releases it has decided on but not yet tried
(`pending`), the one it has won (`winner`), and the slot it is taking. `Exclusive` is what the
exchange is meant to guarantee; it survives every step as long as the flag of a slot is cleared
only while no release of that slot is pending. Then no generation is given back twice.
-/
namespace NeoKernel.Lib
open Function List Option

structure Life where
  inUse : Bool
  reclaimed : Bool
  gen : Nat
  deriving DecidableEq, Repr

structure Claim (ι : Type*) where
  pending : List (ι × Nat)
  winner : Option (ι × Nat)
  /-- the slot, and whether it is already marked as in use -/
  taking : Option (ι × Bool)

structure Ledger (ι θ : Type*) where
  life : ι → Life
  claim : θ → Claim ι
  /-- who holds the table lock -/
  table : Option θ
  freed : List (ι × Nat)

variable {ι θ : Type*}

def Claim.Idle (c : Claim ι) : Prop := c.winner = none ∧ c.taking = none

namespace Ledger

def set [DecidableEq θ] (L : Ledger ι θ) (th : θ) (c : Claim ι) (table : Option θ) : Ledger ι θ :=
  { L with claim := update L.claim th c, table := table }

def setLife [DecidableEq ι] (L : Ledger ι θ) (i : ι) (l : Life) : Ledger ι θ :=
  { L with life := update L.life i l }

def logFree (L : Ledger ι θ) (i : ι) : Ledger ι θ :=
  { L with freed := (i, (L.life i).gen) :: L.freed }

inductive Step [DecidableEq ι] [DecidableEq θ] (L : Ledger ι θ) : Ledger ι θ → Prop where
  | quiet {th : θ} {c : Claim ι} {table : Option θ} : (L.claim th).Idle → c.Idle →
      (∀ i g, (i, g) ∈ c.pending → (L.life i).gen = g ∧ 1 ≤ g) →
      (table = L.table ∨ L.table = none ∨ L.table = some th) → Step L (L.set th c table)
  | take {th : θ} {i : ι} : (L.claim th).Idle → L.table = none → (L.life i).inUse = false →
      Step L (L.set th ⟨[], none, some (i, false)⟩ (some th))
  | reap {th : θ} {i : ι} : (L.claim th).Idle → L.table = some th →
      (L.life i).reclaimed = false →
      Step L (((L.logFree i).setLife i ⟨false, true, (L.life i).gen⟩).set th
        ⟨[], none, some (i, false)⟩ (some th))
  | mark {th : θ} {i : ι} {opened : Bool} : (L.claim th).taking = some (i, opened) →
      Step L ((L.setLife i { L.life i with inUse := true }).set th
        ⟨[], none, some (i, true)⟩ L.table)
  | finish {th : θ} {i : ι} : (L.claim th).taking = some (i, true) →
      (∀ th' g, (i, g) ∉ (L.claim th').pending) →
      Step L ((L.setLife i ⟨(L.life i).inUse, false, (L.life i).gen + 1⟩).set th
        ⟨[], none, none⟩ none)
  | win {th : θ} {i : ι} {g : Nat} {ps : List (ι × Nat)} : (L.claim th).Idle →
      (i, g) ∈ (L.claim th).pending → (L.life i).reclaimed = false →
      ps ⊆ (L.claim th).pending →
      Step L ((L.setLife i { L.life i with reclaimed := true }).set th
        ⟨ps, some (i, g), none⟩ L.table)
  | free {th : θ} {i : ι} {g : Nat} {ps : List (ι × Nat)} : L.claim th = ⟨ps, some (i, g), none⟩ →
      Step L (((L.logFree i).setLife i { L.life i with inUse := false }).set th
        ⟨ps, none, none⟩ L.table)

inductive Owner (θ : Type*) where
  | nobody
  | users
  | winner (th : θ)
  | taker (th : θ) (opened : Bool)

def Fits (l : Life) : Owner θ → Prop
  | .nobody => 1 ≤ l.gen → l.reclaimed = true
  | .users => l.inUse = true
  | .winner _ => l.inUse = true ∧ l.reclaimed = true
  | .taker _ opened => (1 ≤ l.gen → l.reclaimed = true) ∧ (opened = true → l.inUse = true)

/-- The claim is for present generations, and for slots that belong to the thread. -/
def Backed (L : Ledger ι θ) (own : ι → Owner θ) (th : θ) (c : Claim ι) : Prop :=
  (∀ i g, (i, g) ∈ c.pending → (L.life i).gen = g ∧ 1 ≤ g) ∧
    (∀ i g, c.winner = some (i, g) → own i = .winner th ∧ (L.life i).gen = g) ∧
    ∀ i b, c.taking = some (i, b) → own i = .taker th b

/-- Every slot has one owner whom its life and his claim fit, no generation has been given back
twice, and one that has been is not to be won again. -/
structure Exclusive (L : Ledger ι θ) (own : ι → Owner θ) : Prop where
  fits : ∀ i, Fits (L.life i) (own i)
  holds : ∀ i th b, own i = .taker th b → (L.claim th).taking = some (i, b) ∧ L.table = some th
  backed : ∀ th, L.Backed own th (L.claim th)
  nodup : L.freed.Nodup
  logged : ∀ i g, (i, g) ∈ L.freed → g ≤ (L.life i).gen ∧
    (g = (L.life i).gen → (L.life i).reclaimed = true ∧ ∀ th, own i ≠ .winner th)

namespace Exclusive

variable {L : Ledger ι θ} {own : ι → Owner θ} {o : Owner θ} {th th' : θ} {i j : ι} {g : Nat}
  {b b' : Bool} {c : Claim ι} {table : Option θ} {l : Life} {fs : List (ι × Nat)}

section

variable (h : L.Exclusive own)
include h

theorem fits_of (ho : own i = o) : Fits (L.life i) o := ho ▸ h.fits i

theorem pending (hm : (i, g) ∈ (L.claim th).pending) : (L.life i).gen = g ∧ 1 ≤ g :=
  (h.backed th).1 i g hm

theorem winner (hw : (L.claim th).winner = some (i, g)) : own i = .winner th ∧ (L.life i).gen = g :=
  (h.backed th).2.1 i g hw

theorem taking (ht : (L.claim th).taking = some (i, b)) : own i = .taker th b ∧ L.table = some th :=
  have ho := (h.backed th).2.2 i b ht
  ⟨ho, (h.holds i th b ho).2⟩

theorem taker_ne (hidle : (L.claim th).taking = none) (ho : own j = .taker th' b) : th' ≠ th := by
  rintro rfl
  cases hidle.symm.trans (h.holds _ _ _ ho).1

theorem only_taker (htake : (L.claim th).taking = some (i, b)) (ho : own j = .taker th' b') :
    j = i := by
  obtain ⟨htake', hlock⟩ := h.holds _ _ _ ho
  obtain rfl : th' = th := some.inj (hlock.symm.trans (h.taking htake).2)
  exact congrArg Prod.fst (some.inj (htake'.symm.trans htake))

/-- A slot whose flag is clear has not been given back in its present generation, and nobody has
won it. -/
theorem clear (hr : (L.life i).reclaimed = false) :
    (i, (L.life i).gen) ∉ L.freed ∧ ∀ th, own i ≠ .winner th := by
  refine ⟨fun hm => ?_, fun th ho => ?_⟩
  · cases hr.symm.trans ((h.logged i _ hm).2 rfl).1
  · cases hr.symm.trans (h.fits_of ho).2

end

variable [DecidableEq θ]

theorem quiet (h : L.Exclusive own) (hold : (L.claim th).Idle) (hc : c.Idle)
    (hp : ∀ i g, (i, g) ∈ c.pending → (L.life i).gen = g ∧ 1 ≤ g)
    (htable : table = L.table ∨ L.table = none ∨ L.table = some th) :
    (L.set th c table).Exclusive own where
  fits := h.fits
  holds i th' b ho := by
    obtain ⟨htake, hlock⟩ := h.holds i th' b ho
    have hne := h.taker_ne hold.2 ho
    refine ⟨(congrArg Claim.taking (update_of_ne hne ..)).trans htake, ?_⟩
    rcases htable with rfl | hnone | hown
    · exact hlock
    · cases hnone.symm.trans hlock
    · exact absurd (some.inj (hlock.symm.trans hown)) hne
  backed := by
    refine (forall_update_iff L.claim fun th c => L.Backed own th c).2
      ⟨⟨hp, ?_, ?_⟩, fun th _ => h.backed th⟩
    · rw [hc.1]
      nofun
    · rw [hc.2]
      nofun
  nodup := h.nodup
  logged := h.logged

variable [DecidableEq ι]

/-- The life of slot `i` and the claim of `th` change, and the slot goes to `o`. It was in nobody
else's hands, and the other slots are not in the hands of `th`. -/
theorem change (h : L.Exclusive own)
    (hkeep : ∀ {j th' b}, j ≠ i → own j = .taker th' b → th' ≠ th ∧ table = L.table)
    (hfree : ∀ {th'}, th' ≠ th → own i ≠ .winner th' ∧ ∀ b, own i ≠ .taker th' b)
    (hpend : ∀ {th' g}, (i, g) ∈ (L.claim th').pending → l.gen = g)
    (hfit : Fits l o)
    (hheld : ∀ {th' b}, o = .taker th' b → th' = th ∧ c.taking = some (i, b) ∧ table = some th)
    (hp : c.pending ⊆ (L.claim th).pending)
    (hw : ∀ {j g}, c.winner = some (j, g) → j = i ∧ o = .winner th ∧ l.gen = g)
    (ht : ∀ {j b}, c.taking = some (j, b) → j = i ∧ o = .taker th b)
    (hgen : (L.life i).gen ≤ l.gen)
    (hfs : fs = L.freed ∨ fs = (i, (L.life i).gen) :: L.freed ∧ (i, (L.life i).gen) ∉ L.freed)
    (hlog : (i, l.gen) ∈ fs → l.reclaimed = true ∧ ∀ th, o ≠ .winner th) :
    Exclusive ⟨update L.life i l, update L.claim th c, table, fs⟩ (update own i o) := by
  have hself : update L.life i l i = l := update_self ..
  have hother : ∀ {j}, j ≠ i → update L.life i l j = L.life j := fun hj => update_of_ne hj ..
  have hpending : ∀ {th' j g}, (j, g) ∈ (L.claim th').pending →
      (update L.life i l j).gen = g ∧ 1 ≤ g := by
    intro th' j g hm
    refine ⟨?_, (h.pending hm).2⟩
    by_cases hj : j = i
    · subst hj
      rw [hself]
      exact hpend hm
    · rw [hother hj]
      exact (h.pending hm).1
  refine ⟨fun j => ?_, fun j th' b ho => ?_, ?_, ?_, fun j g hm => ?_⟩
  · by_cases hj : j = i
    · simp only [hj, update_self]
      exact hfit
    · simp only [update_of_ne hj]
      exact h.fits j
  · obtain ⟨rfl, rfl⟩ | ⟨hj, ho⟩ := update_eq_cases ho
    · obtain ⟨rfl, htake, hlock⟩ := hheld rfl
      simp only [update_self]
      exact ⟨htake, hlock⟩
    · obtain ⟨htake, hlock⟩ := h.holds j th' b ho
      obtain ⟨hne, htable⟩ := hkeep hj ho
      exact ⟨(congrArg Claim.taking (update_of_ne hne ..)).trans htake, htable.trans hlock⟩
  · refine (forall_update_iff L.claim fun th c => Backed _ _ th c).2
      ⟨⟨fun j g hm => hpending (hp hm), fun j g hc => ?_, fun j b hc => ?_⟩,
        fun th' hne => ⟨fun j g hm => hpending hm, fun j g hc => ?_, fun j b hc => ?_⟩⟩
    · obtain ⟨rfl, rfl, hg⟩ := hw hc
      exact ⟨update_self .., (congrArg Life.gen hself).trans hg⟩
    · obtain ⟨rfl, rfl⟩ := ht hc
      exact update_self ..
    · obtain ⟨ho, hg⟩ := h.winner hc
      have hj : j ≠ i := fun hj => (hfree hne).1 (hj ▸ ho)
      exact ⟨(update_of_ne hj ..).trans ho, (congrArg Life.gen (hother hj)).trans hg⟩
    · obtain ⟨ho, -⟩ := h.taking hc
      have hj : j ≠ i := fun hj => (hfree hne).2 b (hj ▸ ho)
      exact (update_of_ne hj ..).trans ho
  · rcases hfs with rfl | ⟨rfl, hnew⟩
    · exact h.nodup
    · exact nodup_cons.2 ⟨hnew, h.nodup⟩
  · by_cases hj : j = i
    · subst hj
      have hle : g ≤ (L.life j).gen := by
        rcases hfs with rfl | ⟨rfl, -⟩
        · exact (h.logged j g hm).1
        · rcases mem_cons.1 hm with heq | hm
          · exact (congrArg Prod.snd heq).le
          · exact (h.logged j g hm).1
      simp only [hself, update_self]
      refine ⟨hle.trans hgen, ?_⟩
      rintro rfl
      exact hlog hm
    · simp only [hother hj, update_of_ne hj]
      refine h.logged j g ?_
      rcases hfs with rfl | ⟨rfl, -⟩
      · exact hm
      · exact (mem_cons.1 hm).resolve_left fun heq => hj (congrArg Prod.fst heq)

theorem step {L' : Ledger ι θ} (h : L.Exclusive own) (hs : L.Step L') :
    ∃ own', L'.Exclusive own' := by
  have hlogged : ∀ {i}, (i, (L.life i).gen) ∈ L.freed → (L.life i).reclaimed = true :=
    fun hm => ((h.logged _ _ hm).2 rfl).1
  cases hs with
  | quiet hold hc hp htable => exact ⟨own, h.quiet hold hc hp htable⟩
  | @take th i hold htable hfree =>
      have hlock : ∀ {j th' b}, own j ≠ .taker th' b := fun ho => by
        cases htable.symm.trans (h.holds _ _ _ ho).2
      have hnone : own i = .nobody := by
        cases ho : own i with
        | nobody => rfl
        | users => cases hfree.symm.trans (h.fits_of ho)
        | winner => cases hfree.symm.trans (h.fits_of ho).1
        | taker => exact absurd ho hlock
      have hsame : L.setLife i (L.life i) = L := by rw [setLife, update_eq_self]
      rw [← hsame]
      refine ⟨_, h.change (o := .taker th false) (fun _ ho => absurd ho hlock)
        (fun _ => by simp [hnone]) (fun hm => (h.pending hm).1) ⟨h.fits_of hnone, nofun⟩ ?_
        (nil_subset _) nofun ?_ le_rfl (.inl rfl) fun hm => ⟨hlogged hm, nofun⟩⟩
      · rintro th' b ⟨⟩
        exact ⟨rfl, rfl, rfl⟩
      · rintro j b ⟨⟩
        exact ⟨rfl, rfl⟩
  | @reap th i hold htable hr =>
      have hlock : ∀ {j th' b}, own j ≠ .taker th' b := fun ho =>
        h.taker_ne hold.2 ho (some.inj ((h.holds _ _ _ ho).2.symm.trans htable))
      obtain ⟨hnew, hwin⟩ := h.clear hr
      refine ⟨_, h.change (o := .taker th false) (fun _ ho => absurd ho hlock)
        (fun _ => ⟨hwin _, fun _ => hlock⟩) (fun hm => (h.pending hm).1) ⟨fun _ => rfl, nofun⟩ ?_
        (nil_subset _) nofun ?_ le_rfl (.inr ⟨rfl, hnew⟩) fun _ => ⟨rfl, nofun⟩⟩
      · rintro th' b ⟨⟩
        exact ⟨rfl, rfl, rfl⟩
      · rintro j b ⟨⟩
        exact ⟨rfl, rfl⟩
  | @mark th i opened htake =>
      obtain ⟨ho, htable⟩ := h.taking htake
      refine ⟨_, h.change (o := .taker th true) (fun hj ho' => absurd (h.only_taker htake ho') hj)
        (fun hne => ⟨by simp [ho], fun b hb => hne ?_⟩) (fun hm => (h.pending hm).1)
        ⟨(h.fits_of ho).1, fun _ => rfl⟩ ?_ (nil_subset _) nofun ?_ le_rfl (.inl rfl)
        fun hm => ⟨hlogged hm, nofun⟩⟩
      · cases ho.symm.trans hb
        rfl
      · rintro th' b ⟨⟩
        exact ⟨rfl, rfl, htable⟩
      · rintro j b ⟨⟩
        exact ⟨rfl, rfl⟩
  | @finish th i htake hp =>
      obtain ⟨ho, -⟩ := h.taking htake
      refine ⟨_, h.change (o := .users) (fun hj ho' => absurd (h.only_taker htake ho') hj)
        (fun hne => ⟨by simp [ho], fun b hb => hne ?_⟩) (fun {th' g} hm => absurd hm (hp th' g))
        ((h.fits_of ho).2 rfl) nofun (nil_subset _) nofun nofun (Nat.le_succ _) (.inl rfl)
        fun hm => absurd (h.logged i _ hm).1 (Nat.not_succ_le_self _)⟩
      cases ho.symm.trans hb
      rfl
  | @win th i g ps hold hp hr hps =>
      obtain ⟨hgen, hpos⟩ := h.pending hp
      have husers : own i = .users := by
        cases ho : own i with
        | users => rfl
        | nobody => cases hr.symm.trans (h.fits_of ho (hgen ▸ hpos))
        | winner => cases hr.symm.trans (h.fits_of ho).2
        | taker => cases hr.symm.trans ((h.fits_of ho).1 (hgen ▸ hpos))
      refine ⟨_, h.change (o := .winner th) (fun _ ho => ⟨h.taker_ne hold.2 ho, rfl⟩)
        (fun _ => by simp [husers]) (fun hm => (h.pending hm).1) ⟨h.fits_of husers, rfl⟩ nofun hps
        ?_ nofun le_rfl (.inl rfl) fun hm => absurd hm (h.clear hr).1⟩
      rintro j g' ⟨⟩
      exact ⟨rfl, rfl, hgen⟩
  | @free th i g ps hclaim =>
      obtain ⟨ho, -⟩ := h.winner (congrArg Claim.winner hclaim)
      have hr := (h.fits_of ho).2
      refine ⟨_, h.change (o := .nobody)
        (fun _ ho' => ⟨h.taker_ne (congrArg Claim.taking hclaim) ho', rfl⟩)
        (fun hne => ⟨fun ho' => hne ?_, by simp [ho]⟩) (fun hm => (h.pending hm).1) (fun _ => hr)
        nofun (congrArg Claim.pending hclaim ▸ List.Subset.refl _) nofun nofun le_rfl
        (.inr ⟨rfl, fun hm => ((h.logged i _ hm).2 rfl).2 th ho⟩) fun _ => ⟨hr, nofun⟩⟩
      cases ho.symm.trans ho'
      rfl

end Exclusive

end Ledger

end NeoKernel.Lib
