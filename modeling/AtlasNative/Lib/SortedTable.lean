import Mathlib.Data.List.Count
import Mathlib.Order.Lattice
import Mathlib.Order.Nat

/-!
# Ranks in a sorted table

The rank of a value is the number of entries of a table that are not above it. In a table
that ascends, the entries in front of that position are exactly these.
-/

namespace SortedTable

set_option autoImplicit false

variable {α : Type*} [LinearOrder α]

def rank (table : List α) (v : α) : ℕ := table.countP (· ≤ v)

theorem rank_eq_zero {table : List α} {v : α} (h : ∀ x ∈ table, v < x) : rank table v = 0 := by
  unfold rank
  rw [List.countP_eq_zero]
  intro x hx
  simpa using h x hx

theorem le_iff_lt_rank {table : List α} (h : table.Pairwise (· < ·)) {i : ℕ} {x v : α}
    (hx : table[i]? = some x) : x ≤ v ↔ i < rank table v := by
  induction table generalizing i with
  | nil => cases hx
  | cons a table ih =>
    obtain ⟨ha, htable⟩ := List.pairwise_cons.mp h
    have hrank : rank (a :: table) v = if a ≤ v then rank table v + 1 else 0 := by
      unfold rank
      rw [List.countP_cons]
      by_cases hav : a ≤ v
      · simp [hav]
      · have hzero := rank_eq_zero fun x hx => (not_le.mp hav).trans (ha x hx)
        unfold rank at hzero
        rw [hzero]
        simp [hav]
    rw [hrank]
    cases i with
    | zero =>
      obtain rfl : a = x := Option.some.inj hx
      by_cases hav : a ≤ v
      · rw [if_pos hav]
        exact iff_of_true hav (Nat.succ_pos _)
      · rw [if_neg hav]
        exact iff_of_false hav (lt_irrefl 0)
    | succ i =>
      have hx' : table[i]? = some x := hx
      by_cases hav : a ≤ v
      · rw [if_pos hav, ih htable hx']
        exact Nat.succ_lt_succ_iff.symm
      · rw [if_neg hav]
        have hlt := ha x (List.mem_of_getElem? hx')
        exact iff_of_false (fun hxv => hav (hlt.le.trans hxv)) (Nat.not_lt_zero _)

/-- A value between two neighbours has the rank of the upper one. -/
theorem rank_eq_succ {table : List α} (h : table.Pairwise (· < ·)) {i : ℕ} {x y v : α}
    (hx : table[i]? = some x) (hy : table[i + 1]? = some y) (hxv : x ≤ v) (hvy : v < y) :
    rank table v = i + 1 := by
  have hlower := (le_iff_lt_rank h hx).mp hxv
  have hupper := mt (le_iff_lt_rank h hy).mpr (not_le.mpr hvy)
  omega

theorem getElem?_mono {table : List α} (h : table.Pairwise (· < ·)) {i j : ℕ} {x y : α}
    (hx : table[i]? = some x) (hy : table[j]? = some y) (hij : i ≤ j) : x ≤ y := by
  have hself := (le_iff_lt_rank h hy).mp le_rfl
  exact (le_iff_lt_rank h hx).mpr (hij.trans_lt hself)

end SortedTable
