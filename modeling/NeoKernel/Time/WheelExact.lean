import Mathlib.Tactic.FinCases
import NeoKernel.Time.Wheel

/-!
# The timer wheel is exact

A timer in a bucket has a slot: the next multiple of the level's granularity with the bucket's
index. It lies at or after the clock, and before the latest time at which the timer may fire.
-/
namespace NeoKernel.Wheel
open Lib Function List

theorem gran_pos (l : Fin 4) : 0 < gran l := Nat.pow_pos (by decide)

theorem gran_le (l : Fin 4) : gran l ≤ 512 := by
  fin_cases l <;> decide

theorem levelFor_mono {d d' : Nat} (h : d ≤ d') : gran (levelFor d) ≤ gran (levelFor d') := by
  unfold levelFor
  split_ifs <;> first | decide | omega

/-- The expiry is so late that its slot time wraps round. -/
def Far (expires : Nat) : Prop := uint64Max < expires + 511

/-- Slot `slot` of level `l` lies within one turn from `clk`. -/
structure InTurn (clk : Nat) (l : Fin 4) (slot : Nat) : Prop where
  dvd : gran l ∣ slot
  le : clk ≤ slot
  lt : slot < clk + lvlSize * gran l

theorem later_eq_max (clk expires : Nat) :
    (if expires < clk then clk else expires) = max expires clk := by
  split
  · next h => rw [max_eq_right h.le]
  · next h => rw [max_eq_left (Nat.le_of_not_lt h)]

variable {clk expires slot : Nat} {l : Fin 4}

theorem slotFor_level (hs : slotFor clk expires = (l, slot)) :
    l = levelFor (max expires clk - clk) := by
  rw [← later_eq_max]
  exact (congrArg Prod.fst hs).symm

theorem slotFor_slot (hclk : clk ≤ maxJiffies + 1) (hfar : ¬ Far expires)
    (hs : slotFor clk expires = (l, slot)) :
    slot = roundUp (gran l) (max expires clk) ∧
        roundUp (gran l) (max expires clk) ≤ clk + 63 * gran l ∨
      slot = (clk + 63 * gran l) / gran l * gran l ∧
        clk + 63 * gran l < roundUp (gran l) (max expires clk) := by
  have hwrap : max expires clk + gran l - 1 < 2 ^ 64 := by
    have : maxJiffies + 1 + 512 < 2 ^ 64 := by decide
    have hle := gran_le l
    simp only [Far, uint64Max] at hfar
    rcases max_choice expires clk with h | h <;> omega
  unfold slotFor at hs
  rw [later_eq_max] at hs
  obtain ⟨rfl, hslot⟩ := Prod.mk.inj hs
  rw [Nat.mod_eq_of_lt hwrap] at hslot
  subst hslot
  split
  · next h => exact .inr ⟨rfl, h⟩
  · next h => exact .inl ⟨rfl, Nat.le_of_not_lt h⟩

theorem slotFor_spec (hclk : clk ≤ maxJiffies + 1) (hfar : ¬ Far expires)
    (hs : slotFor clk expires = (l, slot)) :
    InTurn clk l slot ∧ slot < max expires clk + gran l ∧ (clk < expires → clk < slot) := by
  have hpos := gran_pos l
  have hmax := le_max_left expires clk
  have hmax' := le_max_right expires clk
  have hup := le_roundUp hpos (max expires clk)
  have hlt := roundUp_lt hpos (max expires clk)
  rcases slotFor_slot hclk hfar hs with ⟨rfl, hin⟩ | ⟨rfl, hout⟩
  · exact ⟨⟨dvd_roundUp .., by omega, by unfold lvlSize; omega⟩, hlt, fun h => by omega⟩
  · have hfloor := Nat.div_mul_le_self (clk + 63 * gran l) (gran l)
    have hfloor' := Nat.lt_div_mul_add (a := clk + 63 * gran l) hpos
    exact ⟨⟨Nat.dvd_mul_left .., by omega, by unfold lvlSize; omega⟩, by omega, fun _ => by omega⟩

theorem InTurn.unique {slot' : Nat} (h : InTurn clk l slot) (h' : InTurn clk l slot')
    (hi : indexOf l slot = indexOf l slot') : slot = slot' := by
  have hindex : slot / gran l % lvlSize = slot' / gran l % lvlSize := congrArg Fin.val hi
  have hlt := h.lt
  have hlt' := h'.lt
  have hle := h.le
  have hle' := h'.le
  rcases Nat.le_total slot slot' with hle | hle
  · exact (slot_unique h'.dvd h.dvd hle (by omega) hindex.symm).symm
  · exact slot_unique h.dvd h'.dvd hle (by omega) hindex

variable {τ : Type*} [DecidableEq τ] {b : WheelBase τ}

omit [DecidableEq τ] in
theorem slotTime_inTurn (b : WheelBase τ) (l : Fin 4) (i : Fin 64) :
    InTurn b.clk l (b.slotTime l i) ∧ indexOf l (b.slotTime l i) = i := by
  have hpos := gran_pos l
  have hle := le_roundUp hpos b.clk
  have hlt := roundUp_lt hpos b.clk
  obtain ⟨k, hk⟩ := dvd_roundUp (gran l) b.clk
  have hi := (i - indexOf l (roundUp (gran l) b.clk)).isLt
  have hturn : (i - indexOf l (roundUp (gran l) b.clk)).val * gran l ≤ 63 * gran l :=
    Nat.mul_le_mul_right _ (by omega)
  refine ⟨⟨?_, ?_, ?_⟩, ?_⟩
  · exact Nat.dvd_add (dvd_roundUp ..) (Nat.dvd_mul_left ..)
  · exact Nat.le_trans hle (Nat.le_add_right ..)
  · unfold WheelBase.slotTime lvlSize
    dsimp only
    omega
  · unfold WheelBase.slotTime
    dsimp only
    rw [hk]
    have hdiv : ∀ j, indexOf l (gran l * k + j * gran l) = Fin.ofNat 64 (k + j) := by
      intro j
      rw [indexOf, Nat.mul_comm j, ← Nat.mul_add, Nat.mul_div_cancel_left _ hpos]
    have hbase : indexOf l (gran l * k) = Fin.ofNat 64 k := by
      rw [indexOf, Nat.mul_div_cancel_left _ hpos]
    rw [hdiv, hbase]
    apply Fin.ext
    simp only [Fin.ofNat, Fin.sub_def]
    omega

/-- A timer fires before this time if the wheel is run when it asks to be. -/
def Arming.dueBy (a : Arming) : Nat := max a.expires a.clk + a.granularity

/-- The slot of a timer in a bucket, not before `low` and `floor`. -/
def Waiting (clk low floor : Nat) (a : Arming) (l : Fin 4) (i : Fin 64) : Prop :=
  ∃ slot, InTurn clk l slot ∧ indexOf l slot = i ∧ low ≤ slot ∧ floor ≤ slot ∧ slot < a.dueBy

/-- Where a timer may stand while level `l` has been emptied up to `low l`: those that are due
expire before `high`. -/
def Place (clk : Nat) (low : Fin 4 → Nat) (high floor expires : Nat) (a : Arming) : Head → Prop
  | .due => expires < high ∧ floor < a.dueBy
  | .bucket l i => Far expires ∨ Waiting clk (low l) floor a l i

def Armed (b : WheelBase τ) (t : τ) (a : Arming) : Prop :=
  b.expires t = a.expires ∧ a.clk ≤ b.clk

structure Filed (b : WheelBase τ) (arming : τ → Arming) (low : Fin 4 → Nat) (high floor : Nat) :
    Prop where
  apart : Apart b.list
  placed : ∀ head, ∀ t ∈ b.list head,
    Armed b t (arming t) ∧ Place b.clk low high floor (b.expires t) (arming t) head

def Settled (b : WheelBase τ) (arming : τ → Arming) (floor : Nat) : Prop :=
  Filed b arming (fun _ => b.clk) b.clk floor

variable {arming : τ → Arming} {low : Fin 4 → Nat} {high floor : Nat} {t : τ}
  {ok : Arming → Nat → Prop}

theorem pending_iff : b.pending t = true ↔ ∃ head, t ∈ b.list head := by
  unfold WheelBase.pending
  rw [Bool.or_eq_true, decide_eq_true_iff, decide_eq_true_iff]
  constructor
  · rintro (ht | ⟨p, ht⟩)
    · exact ⟨_, ht⟩
    · exact ⟨_, ht⟩
  · rintro ⟨head, ht⟩
    cases head with
    | due => exact .inl ht
    | bucket l i => exact .inr ⟨(l, i), ht⟩

theorem notMem_of_off (h : b.pending t = false) (head : Head) : t ∉ b.list head := fun ht =>
  nomatch h.symm.trans (pending_iff.2 ⟨head, ht⟩)

theorem link_pending {q : Head} {u : τ} :
    (b.link q t).pending u = (decide (u = t) || b.pending u) := by
  rw [Bool.eq_iff_iff, Bool.or_eq_true, pending_iff, pending_iff, decide_eq_true_iff]
  constructor
  · rintro ⟨head, hu⟩
    exact (Apart.mem_push.1 hu).imp And.left fun hu => ⟨head, hu⟩
  · rintro (rfl | ⟨head, hu⟩)
    · exact ⟨q, Apart.mem_push.2 (.inl ⟨rfl, rfl⟩)⟩
    · exact ⟨head, Apart.mem_push.2 (.inr hu)⟩

theorem Filed.link (h : Filed b arming low high floor) (ht : b.pending t = false) {q : Head}
    (harmed : Armed b t (arming t)) (hq : Place b.clk low high floor (b.expires t) (arming t) q) :
    Filed (b.link q t) arming low high floor := by
  refine ⟨h.apart.push (notMem_of_off ht) q, fun head u hu => ?_⟩
  rcases Apart.mem_push.1 hu with ⟨rfl, rfl⟩ | hu
  · exact ⟨harmed, hq⟩
  · exact h.placed head u hu

theorem Filed.enqueue (h : Filed b arming low high floor) (ht : b.pending t = false)
    (harmed : Armed b t (arming t))
    (hslot : ∀ l slot, slotFor b.clk (b.expires t) = (l, slot) → ¬ Far (b.expires t) →
      low l ≤ slot ∧ floor ≤ slot ∧ slot < (arming t).dueBy)
    (hclk : b.clk ≤ maxJiffies + 1) : Filed (b.enqueue t) arming low high floor := by
  refine h.link ht harmed ?_
  by_cases hfar : Far (b.expires t)
  · exact .inl hfar
  · exact .inr ⟨_, (slotFor_spec hclk hfar rfl).1, rfl, hslot _ _ rfl hfar⟩

omit [DecidableEq τ] in
theorem collectOne_eq (b : WheelBase τ) (t : τ) : ∃ q, b.collectOne t = b.link q t := by
  unfold WheelBase.collectOne
  split
  · exact ⟨_, rfl⟩
  · exact ⟨_, rfl⟩

theorem not_far_of_le (h : expires ≤ clk) (hclk : clk ≤ maxJiffies + 1) : ¬ Far expires := by
  have : maxJiffies + 1 + 511 < uint64Max := by decide
  unfold Far
  omega

theorem Filed.collectOne (h : Filed b arming low (b.clk + 1) floor) (ht : b.pending t = false)
    (harmed : Armed b t (arming t))
    (hnow : Far (b.expires t) ∨ floor ≤ b.clk ∧ b.clk < (arming t).dueBy)
    (hlow : ∀ l, low l ≤ b.clk + 1) (hclk : b.clk ≤ maxJiffies + 1) :
    Filed (b.collectOne t) arming low (b.clk + 1) floor := by
  unfold WheelBase.collectOne
  split
  · next hle =>
      obtain ⟨hfloor, hdue⟩ := hnow.resolve_left (not_far_of_le hle hclk)
      exact h.link ht harmed ⟨by omega, by omega⟩
  · next hle =>
      refine h.enqueue ht harmed (fun l slot hs hfar => ?_) hclk
      obtain ⟨hfloor, hdue⟩ := hnow.resolve_left hfar
      obtain ⟨-, hslot, hlater⟩ := slotFor_spec hclk hfar hs
      have hlater := hlater (by omega)
      have hlow := hlow l
      refine ⟨by omega, by omega, ?_⟩
      -- the level is not above the one it was first queued on
      have hmono : gran l ≤ (arming t).granularity := by
        rw [slotFor_level hs]
        refine levelFor_mono ?_
        rw [max_eq_left (by omega), ← harmed.1]
        have := le_max_left (b.expires t) (arming t).clk
        have := harmed.2
        omega
      rw [max_eq_left (by omega)] at hslot
      have := le_max_left (arming t).expires (arming t).clk
      unfold Arming.dueBy
      rw [harmed.1] at hslot
      omega

theorem Filed.collectAll {l : List τ} (hnd : l.Nodup) (h : Filed b arming low (b.clk + 1) floor)
    (hl : ∀ t ∈ l, b.pending t = false ∧ Armed b t (arming t) ∧
      (Far (b.expires t) ∨ floor ≤ b.clk ∧ b.clk < (arming t).dueBy))
    (hlow : ∀ l, low l ≤ b.clk + 1) (hclk : b.clk ≤ maxJiffies + 1) :
    ∃ list, l.foldl WheelBase.collectOne b = { b with list } ∧
      Filed { b with list } arming low (b.clk + 1) floor ∧
      ∀ u, { b with list }.pending u = (decide (u ∈ l) || b.pending u) := by
  induction l generalizing b with
  | nil => exact ⟨b.list, rfl, h, fun u => rfl⟩
  | cons t l ih =>
      obtain ⟨htl, hnd⟩ := nodup_cons.1 hnd
      obtain ⟨ht, harmed, hnow⟩ := hl t mem_cons_self
      have h' := h.collectOne ht harmed hnow hlow hclk
      obtain ⟨q, hq⟩ := collectOne_eq b t
      rw [hq] at h'
      obtain ⟨list, hlist, hfiled, hpending⟩ := ih hnd h' (fun u hu => by
        obtain ⟨hoff, hu'⟩ := hl u (mem_cons_of_mem t hu)
        refine ⟨?_, hu'⟩
        rw [link_pending, hoff, decide_eq_false (ne_of_mem_of_not_mem hu htl)]
        rfl) hlow hclk
      refine ⟨list, ?_, hfiled, fun u => (hpending u).trans ?_⟩
      · rw [foldl_cons, hq, hlist]
        rfl
      · rw [link_pending, ← Bool.or_assoc, Bool.or_comm (decide (u ∈ l))]
        simp only [mem_cons, Bool.decide_or]

theorem Filed.collectLevel {c : Nat} (hc : b.clk = c) (h : Filed b arming low (c + 1) floor)
    (hlow : ∀ l, low l ≤ c + 1) (hclk : c ≤ maxJiffies + 1) (l : Fin 4) :
    (b.collectLevel l).clk = c ∧
      Filed (b.collectLevel l) arming (update low l (c + 1)) (c + 1) floor ∧
      (∀ k, update low l (c + 1) k ≤ c + 1) ∧ (b.collectLevel l).pending = b.pending := by
  subst hc
  have hlow' : ∀ k, update low l (b.clk + 1) k ≤ b.clk + 1 :=
    (forall_update_iff low fun _ x => x ≤ b.clk + 1).2 ⟨le_rfl, fun k _ => hlow k⟩
  -- a slot that is not now lies later
  have hlater : ∀ head, ∀ t ∈ b.list head, (head = .bucket l (indexOf l b.clk) → ¬ gran l ∣ b.clk) →
      Place b.clk (update low l (b.clk + 1)) (b.clk + 1) floor (b.expires t) (arming t) head := by
    intro head t ht hne
    have hplace := (h.placed head t ht).2
    cases head with
    | due => exact hplace
    | bucket k i =>
        refine hplace.imp_right fun ⟨slot, hturn, hi, hslot, hrest⟩ => ⟨slot, hturn, hi, ?_, hrest⟩
        by_cases hk : k = l
        · subst hk
          rw [update_self]
          have hle := hturn.le
          have hnow : slot ≠ b.clk := by
            rintro rfl
            exact hne (hi ▸ rfl) hturn.dvd
          omega
        · rwa [update_of_ne hk]
  unfold WheelBase.collectLevel
  split
  · next hmod =>
      refine ⟨rfl, ⟨h.apart, fun head t ht => ⟨(h.placed head t ht).1, ?_⟩⟩, hlow', rfl⟩
      exact hlater head t ht fun _ hdvd => hmod (Nat.mod_eq_zero_of_dvd hdvd)
  · next hmod =>
      have hdvd : gran l ∣ b.clk := Nat.dvd_of_mod_eq_zero (by simpa using hmod)
      have hcleared : Filed { b with list := update b.list (.bucket l (indexOf l b.clk)) [] }
          arming (update low l (b.clk + 1)) (b.clk + 1) floor := by
        refine ⟨h.apart.clear _, fun head t ht => ?_⟩
        obtain ⟨hne, ht⟩ := Apart.mem_clear.1 ht
        exact ⟨(h.placed head t ht).1, hlater head t ht fun heq => absurd heq hne⟩
      have hthis : InTurn b.clk l b.clk := by
        refine ⟨hdvd, le_rfl, ?_⟩
        have := gran_pos l
        unfold lvlSize
        omega
      obtain ⟨list, hlist, hfiled, hpending⟩ :=
        hcleared.collectAll (h.apart.nodup (.bucket l (indexOf l b.clk))) (fun t ht => by
          refine ⟨Bool.eq_false_iff.2 fun hp => ?_, (h.placed _ t ht).1, ?_⟩
          · obtain ⟨head, hhead⟩ := pending_iff.1 hp
            obtain ⟨hne, hhead⟩ := Apart.mem_clear.1 hhead
            exact hne (h.apart.unique _ _ t hhead ht)
          · refine (h.placed _ t ht).2.imp_right fun ⟨slot, hturn, hi, _, hfloor, hdue⟩ => ?_
            obtain rfl := hturn.unique hthis hi
            exact ⟨hfloor, hdue⟩) hlow' hclk
      dsimp only
      rw [hlist]
      refine ⟨rfl, hfiled, hlow', funext fun u => (hpending u).trans ?_⟩
      rw [Bool.eq_iff_iff, Bool.or_eq_true, pending_iff, pending_iff, decide_eq_true_iff]
      constructor
      · rintro (hu | ⟨head, hu⟩)
        · exact ⟨_, hu⟩
        · exact ⟨head, (Apart.mem_clear.1 hu).2⟩
      · rintro ⟨head, hu⟩
        by_cases hhead : head = .bucket l (indexOf l b.clk)
        · exact .inl (hhead ▸ hu)
        · exact .inr ⟨head, Apart.mem_clear.2 ⟨hhead, hu⟩⟩

theorem Settled.collectJiffy (h : Settled b arming floor) (hclk : b.clk ≤ maxJiffies + 1) :
    Settled b.collectJiffy arming floor ∧ b.collectJiffy.clk = b.clk + 1 ∧
      b.collectJiffy.pending = b.pending := by
  have h₀ : Filed b arming (fun _ => b.clk) (b.clk + 1) floor := by
    refine ⟨h.apart, fun head t ht => ?_⟩
    obtain ⟨harmed, hplace⟩ := h.placed head t ht
    cases head with
    | due => exact ⟨harmed, Nat.lt_succ_of_lt hplace.1, hplace.2⟩
    | bucket l i => exact ⟨harmed, hplace⟩
  -- level after level, from the coarsest down
  obtain ⟨hclk₃, h₃, hlow₃, hkeep₃⟩ := h₀.collectLevel rfl (fun _ => Nat.le_succ b.clk) hclk 3
  obtain ⟨hclk₂, h₂, hlow₂, hkeep₂⟩ := h₃.collectLevel hclk₃ hlow₃ hclk 2
  obtain ⟨hclk₁, h₁, hlow₁, hkeep₁⟩ := h₂.collectLevel hclk₂ hlow₂ hclk 1
  obtain ⟨hclk₀, h₀, -, hkeep₀⟩ := h₁.collectLevel hclk₁ hlow₁ hclk 0
  have hlow : ∀ l : Fin 4, update (update (update (update
      (fun _ => b.clk) 3 (b.clk + 1)) 2 (b.clk + 1)) 1 (b.clk + 1)) 0
        (b.clk + 1) l = b.clk + 1 := by
    intro l
    fin_cases l <;> rfl
  have hnext : b.collectJiffy.clk = b.clk + 1 := congrArg (· + 1) hclk₀
  refine ⟨?_, hnext, hkeep₀.trans (hkeep₁.trans (hkeep₂.trans hkeep₃))⟩
  unfold Settled
  rw [hnext]
  refine ⟨h₀.apart, fun head t ht => ?_⟩
  obtain ⟨⟨hexpires, hle⟩, hplace⟩ := h₀.placed head t ht
  rw [hnext]
  refine ⟨⟨hexpires, by omega⟩, ?_⟩
  cases head with
  | due => exact hplace
  | bucket l i =>
      refine hplace.imp_right fun ⟨slot, hturn, hi, hslot, hrest⟩ => ?_
      rw [hlow] at hslot
      refine ⟨slot, ⟨hturn.dvd, hslot, ?_⟩, hi, hslot, hrest⟩
      have := hturn.lt
      omega

theorem Settled.iterate {n : Nat} (h : Settled b arming floor) (hclk : b.clk + n ≤ maxJiffies + 1) :
    Settled (WheelBase.collectJiffy^[n] b) arming floor ∧
      (WheelBase.collectJiffy^[n] b).clk = b.clk + n ∧
      (WheelBase.collectJiffy^[n] b).pending = b.pending := by
  induction n generalizing b with
  | zero => exact ⟨h, rfl, rfl⟩
  | succ n ih =>
      obtain ⟨h', hclk', hkeep⟩ := h.collectJiffy (by omega)
      obtain ⟨h'', hclk'', hkeep'⟩ := ih h' (by omega)
      rw [iterate_succ_apply]
      exact ⟨h'', by omega, hkeep'.trans hkeep⟩

theorem Settled.collectExpired (h : Settled b arming floor) {now : Nat} (hnow : now ≤ maxJiffies)
    (hclk : b.clk ≤ now + 1) : Settled (b.collectExpired now) arming floor ∧
      (b.collectExpired now).clk = now + 1 ∧ (b.collectExpired now).pending = b.pending := by
  unfold WheelBase.collectExpired
  obtain ⟨h', hclk', hkeep⟩ := h.iterate (n := now + 1 - b.clk) (by omega)
  exact ⟨h', by omega, hkeep⟩

omit [DecidableEq τ] in
theorem nextExpiry_le {i : Fin 64} (hdue : b.list .due = []) (hbucket : b.list (.bucket l i) ≠ []) :
    b.nextExpiry ≤ b.slotTime l i := by
  have hinner : ∀ (k : Fin 4) best (j : Fin 64), (if b.list (.bucket k j) = [] then best
      else if b.slotTime k j < best then b.slotTime k j else best) ≤ best := by
    intro k best j
    split_ifs <;> omega
  unfold WheelBase.nextExpiry
  rw [if_neg (by simpa using hdue)]
  refine foldl_le_of_mem (fun best k => foldl_le (hinner k) _ best) (mem_finRange l)
    (fun best => ?_) _
  refine foldl_le_of_mem (hinner l) (mem_finRange i) (fun best => ?_) best
  rw [if_neg hbucket]
  split_ifs <;> omega

omit [DecidableEq τ] in
theorem nextExpiry_lt (hclk : b.clk ≤ maxJiffies + 1) {head : Head} (hhead : b.list head ≠ []) :
    b.nextExpiry < uint64Max := by
  have hmax : maxJiffies + 1 + 64 * 512 < uint64Max := by decide
  by_cases hdue : b.list .due = []
  · cases head with
    | due => exact absurd hdue hhead
    | bucket l i =>
        have hle := nextExpiry_le hdue hhead
        have hlt := (slotTime_inTurn b l i).1.lt
        have hgran := gran_le l
        unfold lvlSize at hlt
        omega
  · unfold WheelBase.nextExpiry
    rw [if_pos hdue]
    omega

section

variable (h : Settled b arming floor)
include h

theorem Settled.forward {now : Nat} (hnow : now ≤ maxJiffies) (hclk : b.clk ≤ now + 1) :
    Settled (b.forward now) arming floor ∧
      now ≤ (b.forward now).clk ∧ (b.forward now).clk ≤ now + 1 ∧
      (b.forward now).pending = b.pending := by
  unfold WheelBase.forward
  split
  · next hlt => exact ⟨h, hlt.le, hclk, rfl⟩
  · split
    · next hmax =>
        have hempty : ∀ head, b.list head = [] := by
          intro head
          by_contra hhead
          have := nextExpiry_lt (by omega) hhead
          omega
        refine ⟨⟨h.apart, fun head t ht => ?_⟩, le_rfl, Nat.le_succ now, rfl⟩
        dsimp only at ht
        rw [hempty] at ht
        cases ht
    · obtain ⟨h', hclk', hkeep⟩ := h.collectExpired hnow hclk
      exact ⟨h', by omega, by omega, hkeep⟩

theorem Settled.detach (t : τ) : Settled (b.detach t) arming floor where
  apart := h.apart.erase t
  placed head u hu := h.placed head u (mem_of_mem_erase hu)

theorem Settled.detach_pending (t u : τ) :
    (b.detach t).pending u = (b.pending u && decide (u ≠ t)) := by
  rw [Bool.eq_iff_iff, Bool.and_eq_true, pending_iff, pending_iff, decide_eq_true_iff]
  constructor
  · rintro ⟨head, hu⟩
    obtain ⟨hne, hu⟩ := h.apart.mem_erase.1 hu
    exact ⟨⟨head, hu⟩, hne⟩
  · rintro ⟨⟨head, hu⟩, hne⟩
    exact ⟨head, h.apart.mem_erase.2 ⟨hne, hu⟩⟩

theorem Settled.congr {arming' : τ → Arming}
    (heq : ∀ u, b.pending u = true → arming' u = arming u) :
    Settled b arming' floor where
  apart := h.apart
  placed head u hu := by
    rw [heq u (pending_iff.2 ⟨head, hu⟩)]
    exact h.placed head u hu

theorem Settled.file (ht : b.pending t = false) (expires : Nat)
    (harming : arming t = ⟨expires, b.clk⟩) (hfloor : floor ≤ b.clk)
    (hclk : b.clk ≤ maxJiffies + 1) :
    Settled (b.file t expires) arming floor := by
  have hset : Filed { b with expires := update b.expires t expires } arming (fun _ => b.clk)
      b.clk floor := by
    refine ⟨h.apart, fun head u hu => ?_⟩
    dsimp only [Armed] at hu ⊢
    rw [update_of_ne (ne_of_mem_of_not_mem hu (notMem_of_off ht head))]
    exact h.placed head u hu
  refine Filed.enqueue hset ht ⟨?_, harming ▸ le_rfl⟩ (fun l slot hs hfar => ?_) hclk
  · dsimp only
    rw [update_self, harming]
  · dsimp only at hs hfar
    rw [update_self] at hs hfar
    obtain ⟨hturn, hslot, -⟩ := slotFor_spec hclk hfar hs
    have hle := hturn.le
    refine ⟨hle, by omega, ?_⟩
    rw [slotFor_level hs] at hslot
    rw [harming]
    exact hslot

end

theorem file_pending (b : WheelBase τ) (t : τ) (expires : Nat) (u : τ) :
    (b.file t expires).pending u = (decide (u = t) || b.pending u) :=
  link_pending

/-- The history of a timer, latest event first: each arming is followed by one event that ends
it, a cancellation or a fire that meets `ok`, or it is the last event and the timer is pending. -/
def Regular (ok : Arming → Nat → Prop) : List Event → Bool → Prop
  | [], pending => pending = false
  | .armed _ :: h, pending => pending = true ∧ Regular ok h false
  | .cancelled :: .armed _ :: h, pending => pending = false ∧ Regular ok h false
  | .fired now :: .armed a :: h, pending => pending = false ∧ ok a now ∧ Regular ok h false
  | _, _ => False

theorem Regular.armed {h : List Event} (hr : Regular ok h true) :
    ∃ a h', h = .armed a :: h' ∧ Regular ok h' false := by
  match h, hr with
  | .armed a :: h', hr => exact ⟨a, h', rfl, hr.2⟩
  | .cancelled :: .armed _ :: _, hr => cases hr.1
  | .fired _ :: .armed _ :: _, hr => cases hr.1

def latest : List Event → Arming
  | .armed a :: _ => a
  | _ => ⟨0, 0⟩

variable {s s' : Timers τ} {prompt : Bool}

/-- A fire is never early and, if the wheel is always run when it asks to be, not late. -/
def Timely (prompt : Bool) (a : Arming) (now : Nat) : Prop :=
  a.expires ≤ now ∧ (prompt = true → now < a.dueBy)

structure Exact (prompt : Bool) (s : Timers τ) : Prop where
  settled : Settled s.base (fun t => latest (s.history t)) (if prompt then s.now else 0)
  clk : s.base.clk ≤ s.now + 1
  now : s.now ≤ maxJiffies
  regular : ∀ t, Regular (Timely prompt) (s.history t) (s.base.pending t)

/-- The wheel is run when it asks to be: time passes only when no timer is due, and not beyond
the reported next expiry. -/
def Prompt (s : Timers τ) : TimerAct τ → Prop
  | .advance d => s.base.list .due = [] ∧ s.now + d ≤ s.base.nextExpiry
  | _ => True

section

variable (h : Exact prompt s)
include h

theorem Exact.detach (hp : s.base.pending t = true) {e : Event}
    (he : ∀ a hist, s.history t = .armed a :: hist → Regular (Timely prompt) hist false →
      Regular (Timely prompt) (e :: .armed a :: hist) false) :
    Exact prompt ({ s with base := s.base.detach t }.log t e) := by
  obtain ⟨a, hist, hh, hr⟩ := (hp ▸ h.regular t).armed
  have hother : ∀ u, u ≠ t → update s.history t (e :: s.history t) u = s.history u :=
    fun u hut => update_of_ne hut ..
  refine ⟨?_, h.clk, h.now, fun u => ?_⟩
  · refine (h.settled.detach t).congr fun u hu => ?_
    rw [h.settled.detach_pending, Bool.and_eq_true, decide_eq_true_iff] at hu
    exact congrArg latest (hother u hu.2)
  · change Regular _ (update s.history t (e :: s.history t) u) ((s.base.detach t).pending u)
    rw [h.settled.detach_pending]
    by_cases hut : u = t
    · rw [hut, update_self, hh]
      simpa using he a hist hh hr
    · rw [hother u hut]
      simpa [hut] using h.regular u

theorem Exact.cancel (t : τ) :
    Exact prompt (s.cancel t) ∧ (s.cancel t).base.pending t = false ∧
      (s.cancel t).now = s.now := by
  unfold Timers.cancel
  split
  · next hp =>
      refine ⟨h.detach hp fun a hist _ hr => ⟨rfl, hr⟩, ?_, rfl⟩
      change (s.base.detach t).pending t = false
      rw [h.settled.detach_pending]
      simp
  · next hp => exact ⟨h, by simpa using hp, rfl⟩

theorem Exact.arm (t : τ) (expires : Nat) : Exact prompt (s.arm t expires) := by
  obtain ⟨hc, hoff, hnow⟩ := h.cancel t
  unfold Timers.arm
  dsimp only
  generalize s.cancel t = s₁ at hc hoff hnow ⊢
  obtain ⟨hset, hle, hclk, hkeep⟩ := hc.settled.forward hc.now hc.clk
  have hoff' : (s₁.base.forward s₁.now).pending t = false := (congrFun hkeep t).trans hoff
  have hnowle := hc.now
  have hself : update s₁.history t (.armed ⟨expires, (s₁.base.forward s₁.now).clk⟩ ::
      s₁.history t) t = .armed ⟨expires, (s₁.base.forward s₁.now).clk⟩ :: s₁.history t :=
    update_self ..
  have hother : ∀ u, u ≠ t → update s₁.history t (.armed ⟨expires,
      (s₁.base.forward s₁.now).clk⟩ :: s₁.history t) u = s₁.history u :=
    fun u hut => update_of_ne hut ..
  refine ⟨?_, hclk, hnowle, fun u => ?_⟩
  · refine Settled.file (hset.congr fun u hu => ?_) hoff' expires ?_ ?_ (by omega)
    · refine congrArg latest (hother u ?_)
      rintro rfl
      rw [hoff'] at hu
      cases hu
    · exact congrArg latest hself
    · split <;> omega
  · change Regular _ (update s₁.history t _ u)
      (((s₁.base.forward s₁.now).file t expires).pending u)
    rw [file_pending, hkeep]
    by_cases hut : u = t
    · rw [hut, hself]
      have := hc.regular t
      rw [hoff] at this
      exact ⟨by simp, this⟩
    · rw [hother u hut]
      simpa [hut] using hc.regular u

theorem Exact.fire {l : List τ} (hdue : s.base.list .due = t :: l) :
    Exact prompt ({ s with base := s.base.detach t }.log t (.fired s.now)) := by
  have hmem : t ∈ s.base.list .due := by rw [hdue]; exact mem_cons_self
  obtain ⟨⟨harmed, -⟩, hearly, hlate⟩ := h.settled.placed .due t hmem
  have hclk := h.clk
  refine h.detach (pending_iff.2 ⟨_, hmem⟩) fun a hist hh hr => ?_
  rw [hh] at harmed hlate
  change s.base.expires t = a.expires at harmed
  refine ⟨rfl, ⟨by omega, fun hprompt => ?_⟩, hr⟩
  rw [if_pos hprompt] at hlate
  exact hlate

theorem Exact.collect : Exact prompt { s with base := s.base.collectExpired s.now } := by
  obtain ⟨hset, hclk, hkeep⟩ := h.settled.collectExpired h.now h.clk
  refine ⟨hset, hclk.le, h.now, fun t => ?_⟩
  dsimp only
  rw [hkeep]
  exact h.regular t

theorem Exact.advance {d : Nat} (hd : s.now + d ≤ maxJiffies)
    (hok : prompt = true → Prompt s (.advance d)) : Exact prompt { s with now := s.now + d } := by
  have hclk := h.clk
  refine ⟨?_, by dsimp only; omega, hd, h.regular⟩
  cases prompt with
  | false => exact h.settled
  | true =>
      obtain ⟨hdue, hnext⟩ := hok rfl
      refine ⟨h.settled.apart, fun head t ht => ?_⟩
      obtain ⟨harmed, hplace⟩ := h.settled.placed head t ht
      refine ⟨harmed, ?_⟩
      cases head with
      | due =>
          dsimp only at ht
          rw [hdue] at ht
          cases ht
      | bucket l i =>
          refine hplace.imp_right fun ⟨slot, hturn, hi, hslot, _, hby⟩ => ?_
          obtain ⟨hturn', hi'⟩ := slotTime_inTurn s.base l i
          obtain rfl := hturn.unique hturn' (hi.trans hi'.symm)
          have := nextExpiry_le hdue (ne_nil_of_mem ht)
          exact ⟨_, hturn, hi, hslot, by dsimp only; rw [if_pos rfl]; omega, hby⟩

theorem timerStep_exact {a : TimerAct τ} (hok : prompt = true → Prompt s a)
    (hs : timerStep s a = some s') : Exact prompt s' := by
  revert hs
  fun_cases timerStep s a <;> intro hs <;> cases hs
  · exact h.arm _ _
  · exact h
  · exact h.arm _ _
  · exact (h.cancel _).1
  · next hd => exact h.advance hd hok
  · exact h.collect
  · next hdue => exact h.fire hdue

end

theorem Exact.of_init (h : timerSystem.init s) : Exact prompt s := by
  obtain ⟨hlist, hclk, hnow, hhistory⟩ := h
  have hempty : ∀ head t, t ∉ s.base.list head := by
    intro head t ht
    rw [hlist head] at ht
    cases ht
  refine ⟨⟨⟨fun head => ?_, fun head _ t ht => absurd ht (hempty head t)⟩,
    fun head t ht => absurd ht (hempty head t)⟩, by omega, hnow, fun t => ?_⟩
  · rw [hlist head]
    exact nodup_nil
  · rw [hhistory t]
    refine Bool.eq_false_iff.2 fun hp => ?_
    obtain ⟨head, ht⟩ := pending_iff.1 hp
    exact hempty head t ht

/-- The first pass at or after the last jiffy before `dueBy` finds the timer due. -/
theorem Exact.due_of_collect (h : Exact prompt s) {a : Arming} {hist : List Event}
    (ht : s.history t = .armed a :: hist) (hby : a.dueBy ≤ s.now + 1) :
    t ∈ (s.base.collectExpired s.now).list .due := by
  obtain ⟨hset, hclk, hkeep⟩ := h.settled.collectExpired h.now h.clk
  have hp : s.base.pending t = true := by
    have := h.regular t
    rw [ht] at this
    exact this.1
  obtain ⟨head, hhead⟩ := pending_iff.1 ((congrFun hkeep t).trans hp)
  cases head with
  | due => exact hhead
  | bucket l i =>
      obtain ⟨⟨harmed, -⟩, hbucket⟩ := hset.placed _ t hhead
      rw [ht] at harmed hbucket
      change _ = a.expires at harmed
      have hnow := h.now
      rcases hbucket with hfar | ⟨slot, hturn, -, -, -, hslot⟩
      · have hle := le_max_left a.expires a.clk
        have hpos : 0 < a.granularity := gran_pos _
        unfold Arming.dueBy at hby
        have hpast : (s.base.collectExpired s.now).expires t ≤ s.now := by omega
        exact absurd hfar (not_far_of_le hpast (by omega))
      · have hle := hturn.le
        change slot < a.dueBy at hslot
        omega

theorem exists_fires {l : List τ} (hl : s.base.list .due = l) (ht : t ∈ l) :
    ∃ n s', fires n s = some s' ∧ s'.history t = .fired s.now :: s.history t := by
  induction l generalizing s with
  | nil => cases ht
  | cons u l ih =>
      have hstep : timerStep s .fire =
          some ({ s with base := s.base.detach u }.log u (.fired s.now)) := by
        simp only [timerStep, hl]
      by_cases htu : t = u
      · subst htu
        refine ⟨1, _, by rw [fires, hstep]; rfl, ?_⟩
        exact update_self ..
      · have hrest := (mem_cons.1 ht).resolve_left htu
        obtain ⟨n, s', hn, hs'⟩ := ih
          (s := { s with base := s.base.detach u }.log u (.fired s.now)) (by
          change (s.base.list .due).erase u = l
          rw [hl, erase_cons_head]) hrest
        refine ⟨n + 1, s', by rw [fires, hstep]; exact hn, hs'.trans ?_⟩
        change .fired s.now :: update s.history u _ t = _
        rw [update_of_ne htu]

theorem Regular.mono {ok' : Arming → Nat → Prop} (himp : ∀ a now, ok a now → ok' a now) :
    ∀ {h : List Event} {pending : Bool}, Regular ok h pending → Regular ok' h pending
  | [], _, hr => hr
  | .armed _ :: _, _, hr => ⟨hr.1, hr.2.mono himp⟩
  | .cancelled :: .armed _ :: _, _, hr => ⟨hr.1, hr.2.mono himp⟩
  | .fired _ :: .armed _ :: _, _, hr => ⟨hr.1, himp _ _ hr.2.1, hr.2.2.mono himp⟩

theorem exact_of_reach {ok : Timers τ → TimerAct τ → Prop} (hr : timerSystem.Reach ok s)
    (hok : ∀ s a, ok s a → prompt = true → Prompt s a) : Exact prompt s :=
  hr.invariant (Exact prompt) (fun _ h => .of_init h) fun _ _ _ h hstep hs =>
    timerStep_exact h (hok _ _ hstep) hs

/-- In every run, each time a timer is queued it either is cancelled (deleted or queued anew) or
fires, once and not before its expiry, or it is still pending; and a pass of the wheel at any
time from `dueBy - 1` on makes a pending timer fire. In every run in which the wheel is run
when it asks to be, a timer fires later than its expiry, or than the wheel's clock when it was
queued if that is later, by less than the granularity of the level it was first queued on. -/
theorem wheel_exact :
    (∀ s : Timers τ, timerSystem.Reach (fun _ _ => True) s → ∀ t,
      Regular (fun a now => a.expires ≤ now) (s.history t) (s.base.pending t) ∧
      ∀ a hist, s.history t = .armed a :: hist → max a.expires a.clk + a.granularity ≤ s.now + 1 →
        ∃ n s', fires n { s with base := s.base.collectExpired s.now } = some s' ∧
          s'.history t = .fired s.now :: s.history t) ∧
    ∀ s : Timers τ, timerSystem.Reach Prompt s → ∀ t,
      Regular (fun a now => a.expires ≤ now ∧ now < max a.expires a.clk + a.granularity)
        (s.history t) (s.base.pending t) := by
  constructor
  · intro s hr t
    have h : Exact false s := exact_of_reach hr nofun
    refine ⟨(h.regular t).mono fun _ _ hok => hok.1, fun a hist ht hby => ?_⟩
    exact exists_fires rfl (h.due_of_collect ht hby)
  · intro s hr t
    have h : Exact true s := exact_of_reach hr fun _ _ hok _ => hok
    exact (h.regular t).mono fun _ _ hok => ⟨hok.1, hok.2 rfl⟩

instance (s : Timers τ) (a : TimerAct τ) : Decidable (Prompt s a) := by
  cases a <;> unfold Prompt <;> infer_instance

def boot (τ : Type*) : Timers τ := ⟨⟨fun _ => [], 0, fun _ => 0⟩, 0, fun _ => []⟩

theorem boot_init : timerSystem.init (boot τ) :=
  ⟨fun _ => rfl, rfl, Nat.zero_le _, fun _ => rfl⟩

/-- A timer on the second level, which is run at the slot it was rounded up to. -/
theorem wheel_exact_rounded : ∃ s : Timers (Fin 1), timerSystem.Reach Prompt s ∧
    s.history 0 = [.fired 72, .armed ⟨70, 0⟩] ∧
      Regular (fun a now => a.expires ≤ now ∧ now < max a.expires a.clk + a.granularity)
        (s.history 0) (s.base.pending 0) :=
  System.Reach.exists_of_run_and [.modTimer 0 70, .advance 72, .collect, .fire] boot_init
    (by decide +kernel) fun s hr _ => wheel_exact.2 s hr 0

/-- Queued at the jiffy of its expiry, after that jiffy has been processed: the timer fires one
jiffy late, a full granule of its level. -/
theorem queued_at_expiry_late : ∃ s : Timers (Fin 2), timerSystem.Reach Prompt s ∧
    ∃ a now, s.history 1 = [.fired now, .armed a] ∧ ¬ now < a.expires + a.granularity := by
  exact System.Reach.exists_of_run_imp [.modTimer 0 0, .collect, .fire, .modTimer 1 0, .advance 1,
    .collect, .fire] boot_init (by decide +kernel)
    fun s _ (hs : s.history 1 = [.fired 1, .armed ⟨0, 1⟩]) => ⟨_, _, hs, by decide⟩

end NeoKernel.Wheel
