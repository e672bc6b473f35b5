import Mathlib.Algebra.Order.BigOperators.Group.List
import Mathlib.Algebra.Order.Ring.Int

/-!
# Sums of 64-bit integers

The sum of a list of 64-bit integers is the sum of their values, taken modulo `2 ^ 64`. A
sum that is not negative is exact when it is less than `2 ^ 63`, and only then.
-/

set_option autoImplicit false

namespace Int64Sums

instance addCommMonoidInt64 : AddCommMonoid Int64 where
  add_assoc := Int64.add_assoc
  zero_add := Int64.zero_add
  add_zero := Int64.add_zero
  add_comm := Int64.add_comm
  nsmul := nsmulRec

instance oneInt64 : One Int64 := ⟨1⟩

theorem toInt_sum (l : List Int64) : l.sum.toInt = (l.map Int64.toInt).sum.bmod (2 ^ 64) := by
  induction l with
  | nil => rfl
  | cons x l ih =>
    rw [List.sum_cons, Int64.toInt_add, ih, Int.add_bmod_bmod, List.map_cons, List.sum_cons]

theorem bmod_eq_self_iff {n : ℤ} (h : 0 ≤ n) : n.bmod (2 ^ 64) = n ↔ n < 2 ^ 63 := by
  unfold Int.bmod
  dsimp only
  split <;> omega

/-- A sum without an overflow. -/
theorem toInt_sum_eq_iff {l : List Int64} (h : ∀ x ∈ l, 0 ≤ x.toInt) :
    l.sum.toInt = (l.map Int64.toInt).sum ↔ (l.map Int64.toInt).sum < 2 ^ 63 := by
  have hsum : 0 ≤ (l.map Int64.toInt).sum := List.sum_nonneg (by simpa using h)
  rw [toInt_sum, bmod_eq_self_iff hsum]

theorem toInt_sum_one_eq_iff {A : Type} (l : List A) :
    ((l.map fun _ => (1 : Int64)).sum).toInt = l.length ↔ (l.length : ℤ) < 2 ^ 63 := by
  have hones : ((l.map fun _ => (1 : Int64)).map Int64.toInt).sum = l.length := by
    induction l with
    | nil => rfl
    | cons x l ih =>
      rw [List.map_cons, List.map_cons, List.sum_cons, ih, List.length_cons, Int64.toInt_one]
      omega
  rw [← hones]
  apply toInt_sum_eq_iff
  intro x hx
  obtain ⟨_, _, rfl⟩ := List.mem_map.mp hx
  decide

end Int64Sums
