import Mathlib.Algebra.Ring.Nat
import Mathlib.Data.Nat.Size

/-!
# Filling the bits below the highest one

An or with the bits shifted to the right, by one, two, four and so on, sets all bits below
the highest one.
-/

namespace HighestBit

set_option autoImplicit false

variable {w : ℕ}

def fill (x : BitVec w) (n : ℕ) : BitVec w := x ||| x >>> n

/-- A bit is set in `y` if one of the `n` bits from it on is set in `x`. -/
def Filled (n : ℕ) (x y : BitVec w) : Prop :=
  ∀ i, y.getLsbD i = true ↔ ∃ j < n, x.getLsbD (i + j) = true

theorem filled_one (x : BitVec w) : Filled 1 x x := by
  intro i
  simp

theorem Filled.fill {n : ℕ} {x y : BitVec w} (h : Filled n x y) :
    Filled (n + n) x (HighestBit.fill y n) := by
  intro i
  rw [HighestBit.fill, BitVec.getLsbD_or, BitVec.getLsbD_ushiftRight, Bool.or_eq_true, h, h]
  constructor
  · rintro (⟨j, hj, hx⟩ | ⟨j, hj, hx⟩)
    · exact ⟨j, by omega, hx⟩
    · refine ⟨n + j, by omega, ?_⟩
      rwa [← Nat.add_assoc, Nat.add_comm i n]
  · rintro ⟨j, hj, hx⟩
    by_cases hlt : j < n
    · exact .inl ⟨j, hlt, hx⟩
    · refine .inr ⟨j - n, by omega, ?_⟩
      have heq : n + i + (j - n) = i + j := by omega
      rwa [heq]

/-- Once every bit has been looked at, all bits up to the highest one are set. -/
theorem Filled.toNat_eq {x y : BitVec w} (h : Filled w x y) :
    y.toNat = 2 ^ x.toNat.size - 1 := by
  apply Nat.eq_of_testBit_eq
  intro i
  rw [Nat.testBit_two_pow_sub_one, Bool.eq_iff_iff, decide_eq_true_iff, ← BitVec.getLsbD, h]
  constructor
  · rintro ⟨j, -, hx⟩
    have hge : 2 ^ (i + j) ≤ x.toNat := Nat.ge_two_pow_of_testBit hx
    have hlt : i + j < x.toNat.size := Nat.lt_size.mpr hge
    omega
  · intro hi
    have hpos : 0 < x.toNat.size := by omega
    have hne : x.toNat ≠ 0 := by
      intro hzero
      rw [hzero, Nat.size_zero] at hpos
      exact absurd hpos (Nat.lt_irrefl 0)
    have hw : x.toNat.size ≤ w := Nat.size_le.mpr x.isLt
    refine ⟨x.toNat.size - 1 - i, by omega, ?_⟩
    have heq : i + (x.toNat.size - 1 - i) = x.toNat.size - 1 := by omega
    rw [heq]
    -- the highest bit
    have hge : 2 ^ (x.toNat.size - 1) ≤ x.toNat := Nat.lt_size.mp (by omega)
    have hlt : x.toNat < 2 ^ (x.toNat.size - 1 + 1) := by
      have hself := Nat.lt_size_self x.toNat
      rwa [Nat.sub_add_cancel hpos]
    exact Nat.testBit_of_two_pow_le_and_two_pow_add_one_gt hge hlt

end HighestBit
