import NeoKernel.Lib.Trans
import NeoKernel.Lib.Update

/-!
# Graphics mode of virtual terminals (kernel/tty/vt.c)

A program claims a terminal with `KDSETMODE`, through a descriptor of `/dev/tty1` to `/dev/tty6`
or of `/dev/tty0`, which is the terminal that is active at each call. The last close takes the
claim back. What the terminals show is left out.
-/
namespace NeoKernel.Tty
open Option

open Lib Function

abbrev VtIndex := Fin 6

inductive KdMode where
  | text
  | graphics
  deriving DecidableEq

/-- `index` is `none` for `/dev/tty0`. Copies made by dup and fork share the record. -/
structure VtFd where
  index : Option VtIndex
  claimed : Bool := false
  refs : Nat := 1
  /-- not in the program: the terminals it put into graphics mode and did not take out again -/
  holds : VtIndex → Bool := fun _ => false

structure Vts where
  kdMode : VtIndex → KdMode := fun _ => .text
  kdOwnerPid : VtIndex → Nat := fun _ => 0
  active : VtIndex := 0
  fds : Nat → Option VtFd := fun _ => none

inductive VtAct where
  | switch (n : VtIndex)
  | openTty (d : Nat) (index : Option VtIndex)
  | dup (d : Nat)
  | close (d : Nat)
  | setMode (d : Nat) (mode : KdMode) (pid : Nat)

namespace Vts

def setFd (s : Vts) (d : Nat) (v : Option VtFd) : Vts := { s with fds := update s.fds d v }

def setMode (s : Vts) (n : VtIndex) (mode : KdMode) (pid : Nat) : Vts :=
  { s with kdMode := update s.kdMode n mode, kdOwnerPid := update s.kdOwnerPid n pid }

/-- `KDSETMODE` through `vt_fop_ioctl`, by the process `pid`. -/
def kdSetMode (s : Vts) (d : Nat) (v : VtFd) (mode : KdMode) (pid : Nat) : Vts :=
  let n := v.index.getD s.active
  let claimed : Bool := mode = .graphics
  (s.setMode n mode (if claimed then pid else 0)).setFd d
    (some { v with claimed, holds := update v.holds n claimed })

def fopClose (s : Vts) (d : Nat) (v : VtFd) : Vts :=
  if v.refs - 1 ≠ 0 then s.setFd d (some { v with refs := v.refs - 1 })
  else (if v.claimed then s.setMode (v.index.getD s.active) .text 0 else s).setFd d none

def step (s : Vts) : VtAct → Option Vts
  | .switch n => some { s with active := n }
  | .openTty d index => if s.fds d = none then some (s.setFd d (some { index })) else none
  | .dup d => (s.fds d).map fun v => s.setFd d (some { v with refs := v.refs + 1 })
  | .close d => (s.fds d).map fun v => s.fopClose d v
  | .setMode d mode pid => (s.fds d).map fun v => s.kdSetMode d v mode pid

end Vts

def bootVts : Vts := {}

def vtSystem : System Vts VtAct where
  init s := s = bootVts
  step := Vts.step

variable {s s' : Vts} {a : VtAct} {d : Nat} {v : VtFd} {n : VtIndex}

/-- A descriptor holds the terminal it is named after, if it made a claim. -/
structure VtFd.Sound (v : VtFd) : Prop where
  holds : ∀ n, v.holds n = true ↔ v.claimed = true ∧ v.index = some n
  named : v.claimed = true → v.index ≠ none

theorem VtFd.Sound.getD_index (h : v.Sound) (hn : v.holds n = true) (m : VtIndex) :
    v.index.getD m = n :=
  congrArg (Option.getD · m) ((h.holds n).1 hn).2

namespace Vts

structure Claims (s : Vts) : Prop where
  held : ∀ n, s.kdMode n = .graphics → ∃ d v, s.fds d = some v ∧ v.holds n = true
  sound : ∀ d v, s.fds d = some v → v.Sound

/-- One descriptor is replaced. What is in graphics mode afterwards is held by the new one, or
was so before and not held by the old one. -/
theorem Claims.setFd {v? : Option VtFd} (h : s.Claims) (hfds : s'.fds = s.fds)
    (hnew : ∀ v, v? = some v → v.Sound)
    (hmode : ∀ n, s'.kdMode n = .graphics → (∃ v, v? = some v ∧ v.holds n = true) ∨
      s.kdMode n = .graphics ∧ ∀ v, s.fds d = some v → v.holds n = false) :
    (s'.setFd d v?).Claims := by
  refine ⟨fun n hn => ?_, fun d' v' hd' => ?_⟩
  · obtain ⟨v, hv, hmem⟩ | ⟨hg, hnot⟩ := hmode n hn
    · exact ⟨d, v, (update_self ..).trans hv, hmem⟩
    · obtain ⟨d', v, hv, hmem⟩ := h.held n hg
      have hne : d' ≠ d := by
        rintro rfl
        cases (hnot v hv).symm.trans hmem
      exact ⟨d', v, (update_of_ne hne ..).trans (hfds ▸ hv), hmem⟩
  · obtain ⟨-, hv⟩ | ⟨-, hv⟩ := update_eq_cases hd'
    · exact hnew v' hv
    · exact h.sound d' v' (hfds ▸ hv)

theorem Claims.setRefs (h : s.Claims) (hd : s.fds d = some v) (refs : Nat) :
    (s.setFd d (some { v with refs := refs })).Claims := by
  have hv := h.sound d v hd
  refine h.setFd rfl ?_ fun n hn => ?_
  · rintro _ ⟨⟩
    exact ⟨hv.holds, hv.named⟩
  · rw [hd]
    cases hmem : v.holds n with
    | true => exact .inl ⟨_, rfl, hmem⟩
    | false => exact .inr ⟨hn, by rintro _ ⟨⟩; exact hmem⟩

/-- Graphics mode is asked for through a terminal's own device. -/
def ClaimsByName (s : Vts) : VtAct → Prop
  | .setMode d .graphics _ => ∀ v ∈ s.fds d, v.index ≠ none
  | _ => True

instance (s : Vts) : (a : VtAct) → Decidable (s.ClaimsByName a)
  | .setMode _ .graphics _ => inferInstanceAs (Decidable (∀ v ∈ _, _))
  | .setMode _ .text _ | .switch _ | .openTty .. | .dup _ | .close _ => .isTrue trivial

theorem Claims.kdSetMode {mode : KdMode} (h : s.Claims) (hd : s.fds d = some v)
    (hname : mode = .graphics → v.index ≠ none) (pid : Nat) :
    (s.kdSetMode d v mode pid).Claims := by
  have hv := h.sound d v hd
  -- the call is about the only terminal the descriptor may hold
  have hother : ∀ n, n ≠ v.index.getD s.active → v.holds n = false := by
    intro n hn
    exact eq_false_of_ne_true fun hh => hn (hv.getD_index hh _).symm
  refine h.setFd rfl ?_ fun n hn => ?_
  · rintro _ ⟨⟩
    refine ⟨fun n => ?_, fun hc => hname (of_decide_eq_true hc)⟩
    dsimp only
    by_cases hn : n = v.index.getD s.active
    · subst hn
      rw [update_self]
      refine ⟨fun hc => ⟨hc, ?_⟩, And.left⟩
      obtain ⟨k, hk⟩ := ne_none_iff_exists'.1 (hname (of_decide_eq_true hc))
      rw [hk, getD_some]
    · rw [update_of_ne hn, hother n hn]
      refine iff_of_false Bool.false_ne_true fun hc => hn ?_
      rw [hc.2, getD_some]
  · change update s.kdMode (v.index.getD s.active) mode n = .graphics at hn
    by_cases hne : n = v.index.getD s.active
    · subst hne
      rw [update_self] at hn
      exact .inl ⟨_, rfl, (update_self ..).trans (decide_eq_true hn)⟩
    · rw [update_of_ne hne] at hn
      refine .inr ⟨hn, ?_⟩
      rw [hd]
      rintro _ ⟨⟩
      exact hother n hne

theorem kdMode_closed (hv : v.Sound) (n : VtIndex) :
    (if v.claimed then s.setMode (v.index.getD s.active) .text 0 else s).kdMode n =
      if v.holds n then .text else s.kdMode n := by
  split
  · next hc =>
      obtain ⟨k, hk⟩ := ne_none_iff_exists'.1 (hv.named hc)
      have hiff : v.holds n = true ↔ n = k := by
        rw [hv.holds, hk, Option.some.injEq]
        exact ⟨fun h => h.2.symm, fun h => ⟨hc, h.symm⟩⟩
      simp only [setMode, hk, getD_some, update_apply, hiff]
  · next hc => rw [if_neg fun hh => hc ((hv.holds n).1 hh).1]

theorem Claims.fopClose (h : s.Claims) (hd : s.fds d = some v) : (s.fopClose d v).Claims := by
  unfold Vts.fopClose
  split
  · exact h.setRefs hd _
  · refine h.setFd (by split <;> rfl) nofun fun n hn => .inr ?_
    rw [kdMode_closed (h.sound d v hd)] at hn
    rw [hd]
    split at hn
    · cases hn
    · next hh => exact ⟨hn, by rintro _ ⟨⟩; exact eq_false_of_ne_true hh⟩

theorem Claims.step (h : s.Claims) (hok : s.ClaimsByName a) (hs : s.step a = some s') :
    s'.Claims := by
  cases a with
  | switch n =>
      cases hs
      exact ⟨h.held, h.sound⟩
  | openTty d index =>
      obtain ⟨hd, ⟨⟩⟩ := ite_none_right_eq_some.1 hs
      refine h.setFd rfl ?_ fun n hn => .inr ⟨hn, ?_⟩
      · rintro _ ⟨⟩
        exact ⟨fun n => ⟨nofun, nofun⟩, nofun⟩
      · rw [hd]
        exact nofun
  | dup d =>
      obtain ⟨v, hd, rfl⟩ := map_eq_some_iff.1 hs
      exact h.setRefs hd _
  | close d =>
      obtain ⟨v, hd, rfl⟩ := map_eq_some_iff.1 hs
      exact h.fopClose hd
  | setMode d mode pid =>
      obtain ⟨v, hd, rfl⟩ := map_eq_some_iff.1 hs
      refine h.kdSetMode hd ?_ pid
      rintro rfl
      exact hok v hd

/-- A terminal in graphics mode is held by an open descriptor, and a close leaves the mode of
each terminal that its descriptor does not hold. -/
theorem graphics_held (hr : vtSystem.Reach ClaimsByName s) :
    (∀ n, s.kdMode n = .graphics → ∃ d v, s.fds d = some v ∧ v.holds n = true) ∧
    ∀ d v s' n, s.fds d = some v → s.step (.close d) = some s' → v.holds n = false →
      s'.kdMode n = s.kdMode n := by
  have h : s.Claims := by
    refine hr.invariant Claims ?_ fun s a s' h hok hs => h.step hok hs
    rintro s rfl
    exact ⟨nofun, nofun⟩
  refine ⟨h.held, fun d v s' n hd hs hn => ?_⟩
  obtain ⟨_, hd', rfl⟩ := map_eq_some_iff.1 hs
  cases hd.symm.trans hd'
  unfold Vts.fopClose
  split
  · rfl
  · exact (kdMode_closed (h.sound d v hd) n).trans (if_neg (ne_true_of_eq_false hn))

theorem graphics_held_claimed : ∃ s, vtSystem.Reach ClaimsByName s ∧ s.kdMode 1 = .graphics ∧
    ∃ d v, s.fds d = some v ∧ v.holds 1 = true :=
  System.Reach.exists_of_run_and (s := bootVts)
    [.openTty 0 (some 1), .setMode 0 .graphics 9, .dup 0, .switch 1, .close 0] rfl
    (by decide +kernel) fun _ hr hg => (graphics_held hr).1 1 hg

/-- Descriptor 0 claims the first terminal through `/dev/tty0`, descriptor 1 the second under its
name. The user switches to the second, and the close of descriptor 0 ends the other's claim while
the first terminal stays in graphics mode. -/
theorem close_ends_other_claim : ∃ s, vtSystem.Reach (fun _ _ => True) s ∧
    (s.fds 0).any (fun v => v.holds 1 = false) ∧ s.kdMode 1 = .graphics ∧
    (s.step (.close 0)).any fun s' =>
      s'.kdMode 1 = .text ∧ s'.kdMode 0 = .graphics ∧ (s'.fds 0).isNone ∧
        (s'.fds 1).any (fun v => v.holds 0 = false) :=
  System.Reach.exists_of_run (s := bootVts)
    [.openTty 0 none, .setMode 0 .graphics 9, .openTty 1 (some 1), .setMode 1 .graphics 8,
      .switch 1] rfl (by decide +kernel)

end Vts

end NeoKernel.Tty
