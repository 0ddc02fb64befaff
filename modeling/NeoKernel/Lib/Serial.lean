import Mathlib.Tactic

/-!
# Ring order on machine words

Comparing two words by the sign of their difference is an order only on a half
of the ring. `Half base a` says that `a` lies in the half that starts at `base`;
there `offset base` turns the comparison into that of natural numbers.
-/
namespace NeoKernel.Lib

variable {w : Nat} {base a b c : BitVec w}

def offset (base a : BitVec w) : Nat := (a - base).toNat

def Half (base a : BitVec w) : Prop := offset base a < 2 ^ (w - 1)

instance (base a : BitVec w) : Decidable (Half base a) := Nat.decLt _ _

/-- `a` comes before `b`: their difference is negative as a signed word. -/
def serialBefore (a b : BitVec w) : Bool := (a - b).toInt < 0

theorem offset_injective (base : BitVec w) (h : offset base a = offset base b) : a = b := by
  have he : a - base = b - base := BitVec.eq_of_toNat_eq h
  grind

theorem serialBefore_irrefl (a : BitVec w) : serialBefore a a = false := by
  simp [serialBefore]

theorem serialBefore_iff (ha : Half base a) (hb : Half base b) :
    serialBefore a b = true ↔ offset base a < offset base b := by
  cases w with
  | zero =>
      obtain rfl : a = b := Subsingleton.elim a b
      simp [serialBefore_irrefl]
  | succ n =>
      have hab : a - b = (a - base) - (b - base) := by grind
      have hpow : 2 ^ (n + 1) = 2 * 2 ^ n := by rw [pow_succ, Nat.mul_comm]
      simp only [Half, offset, Nat.add_sub_cancel] at ha hb ⊢
      rw [serialBefore, decide_eq_true_iff, BitVec.toInt_neg_iff, hab, BitVec.toNat_sub]
      generalize (a - base).toNat = x at ha ⊢
      generalize (b - base).toNat = y at hb ⊢
      rw [hpow]
      generalize 2 ^ n = N at ha hb ⊢
      by_cases hle : y ≤ x
      · have hmod : (2 * N - y + x) % (2 * N) = x - y := by
          rw [show 2 * N - y + x = x - y + 2 * N by omega, Nat.add_mod_right,
            Nat.mod_eq_of_lt (by omega)]
        rw [hmod]
        omega
      · rw [Nat.mod_eq_of_lt (by omega)]
        omega

theorem serialBefore_eq_false_iff (ha : Half base a) (hb : Half base b) :
    serialBefore a b = false ↔ offset base b ≤ offset base a := by
  rw [← Bool.not_eq_true, serialBefore_iff ha hb, Nat.not_lt]

/-- Two words at distances `x` and `y` from one base compare as `x` and `y` do, as
long as these are less than half of the ring apart. -/
theorem toInt_sub_of_near {n x y : Nat} (base : BitVec (n + 1)) (hxy : x < y + 2 ^ n)
    (hyx : y ≤ x + 2 ^ n) :
    ((base + BitVec.ofNat (n + 1) x) - (base + BitVec.ofNat (n + 1) y)).toInt = (x : Int) - y := by
  have hx : BitVec.ofNat (n + 1) x =
      BitVec.ofInt (n + 1) ((x : Int) - y) + BitVec.ofNat (n + 1) y := by
    rw [← BitVec.ofInt_natCast, ← BitVec.ofInt_natCast, ← BitVec.ofInt_add, Int.sub_add_cancel]
  have hsub : (base + BitVec.ofNat (n + 1) x) - (base + BitVec.ofNat (n + 1) y) =
      BitVec.ofInt (n + 1) ((x : Int) - y) := by
    rw [hx]
    grind
  have hpow : (2 : Int) ^ n = ((2 ^ n : Nat) : Int) := by norm_cast
  rw [hsub, BitVec.toInt_ofInt]
  apply Int.bmod_eq_of_le
  · rw [pow_succ]
    push_cast
    omega
  · rw [pow_succ]
    push_cast
    omega

end NeoKernel.Lib
