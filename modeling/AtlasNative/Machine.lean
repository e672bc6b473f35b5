import Mathlib.Algebra.Ring.Int.Defs
import Mathlib.Algebra.Ring.Nat

/-!
# Faults and integers of a fixed width

What a call does instead of returning, and what the machine makes of a result that its
type cannot hold.
-/

namespace AtlasNative

set_option autoImplicit false

/-- The ways in which a call does not return. -/
inductive Fault where
  | exception
  | assertion
  | undefined
  | unfinished
  deriving DecidableEq

/-- `std::array::at`, `std::vector::at` -/
def at_ {α : Type} (elements : List α) (i : ℕ) : Except Fault α :=
  match elements[i]? with
  | some x => .ok x
  | none => .error .exception

theorem at_eq_ok_iff {α : Type} {elements : List α} {i : ℕ} {x : α} :
    at_ elements i = .ok x ↔ elements[i]? = some x := by
  unfold at_
  cases elements[i]? with
  | none => exact iff_of_false (fun h => by cases h) (fun h => by cases h)
  | some y => rw [Except.ok.injEq, Option.some.injEq]

/-- Division of integers, which truncates. -/
def quotient (a b : ℤ) : Except Fault ℤ := if b = 0 then .error .undefined else .ok (a.tdiv b)

/-- An instant before the epoch is divided as if it was the epoch. -/
theorem tdiv_sub_cases {t s d : ℤ} (ht : 0 ≤ t) (hs : s < d) :
    (s ≤ t ∧ (t - s).tdiv d = (t - s) / d) ∨ (t < s ∧ (t - s).tdiv d = 0) := by
  rcases Int.lt_or_le t s with hlt | hle
  · have hneg : t - s = -(s - t) := by omega
    refine Or.inr ⟨hlt, ?_⟩
    rw [hneg, Int.neg_tdiv, Int.tdiv_eq_zero_of_lt (by omega) (by omega), Int.neg_zero]
  · exact Or.inl ⟨hle, Int.tdiv_eq_ediv_of_nonneg (by omega)⟩

/-- Two's complement in `bits` bits. -/
def wrap (bits : ℕ) (n : ℤ) : ℤ := n.bmod (2 ^ bits)

theorem wrap_eq_self {n : ℤ} (h : -2 ^ 31 ≤ n) (h' : n < 2 ^ 31) : wrap 32 n = n :=
  Int.bmod_eq_of_le (by omega) (by omega)

theorem wrap_of_overflow {n : ℤ} (h : 2 ^ 31 ≤ n) (h' : n < 2 ^ 32) : wrap 32 n = n - 2 ^ 32 := by
  unfold wrap Int.bmod
  dsimp only
  split <;> omega

theorem wrap_range {n : ℤ} (h : 0 ≤ n) :
    -2 ^ 31 ≤ wrap 32 n ∧ wrap 32 n < 2 ^ 31 ∧ wrap 32 n ≤ n := by
  unfold wrap Int.bmod
  dsimp only
  split <;> omega

def IsInt64 (n : ℤ) : Prop := -2 ^ 63 ≤ n ∧ n < 2 ^ 63

instance (n : ℤ) : Decidable (IsInt64 n) := inferInstanceAs (Decidable (_ ∧ _))

def int64_max : ℤ := 2 ^ 63 - 1

end AtlasNative
