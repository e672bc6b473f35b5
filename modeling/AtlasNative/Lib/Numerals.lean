import Mathlib.Data.Char
import Mathlib.Data.Nat.Digits.Lemmas

/-!
# Numerals with leading zeros

A number is written in a base with as many leading zeros as a width asks for. A numeral
determines its number whatever the width, and numerals of one length are in the order of
their numbers. `digit` gives the characters of the digits, which ascend.
-/

namespace Numerals

set_option autoImplicit false

/-- The digits from the highest one on, with leading zeros; zero has one digit. -/
def padded (base width n : ℕ) : List ℕ := (Nat.digitsAppend base (max width 1) n).reverse

def numeral (digit : ℕ → Char) (base width n : ℕ) : List Char := (padded base width n).map digit

variable {digit : ℕ → Char} {base : ℕ}

/-- The number of a list of digits from the highest one on. -/
def value (base : ℕ) (ds : List ℕ) : ℕ := Nat.ofDigits base ds.reverse

theorem value_padded (base width n : ℕ) : value base (padded base width n) = n := by
  unfold value padded Nat.digitsAppend
  rw [List.reverse_reverse, Nat.ofDigits_append_replicate_zero, Nat.ofDigits_digits]

theorem padded_lt (hbase : 1 < base) {width n d : ℕ} (hd : d ∈ padded base width n) :
    d < base :=
  Nat.lt_of_mem_digitsAppend hbase _ d (List.mem_reverse.mp hd)

theorem length_padded {width n : ℕ} (hbase : 1 < base) (hwidth : 0 < width)
    (hn : n < base ^ width) : (padded base width n).length = width := by
  unfold padded
  rw [List.length_reverse, max_eq_left hwidth, Nat.length_digitsAppend hbase _ hn]

theorem padded_ne_nil (base width n : ℕ) : padded base width n ≠ [] := by
  unfold padded Nat.digitsAppend
  rw [← List.length_pos_iff, List.length_reverse, List.length_append, List.length_replicate]
  omega

theorem value_cons (d : ℕ) (ds : List ℕ) :
    value base (d :: ds) = value base ds + base ^ ds.length * d := by
  unfold value
  exact Nat.ofDigits_reverse_cons ds d

theorem value_lt_pow (hbase : 1 < base) {ds : List ℕ} (hds : ∀ d ∈ ds, d < base) :
    value base ds < base ^ ds.length := by
  have h := @Nat.ofDigits_lt_base_pow_length base ds.reverse hbase fun d hd =>
    hds d (List.mem_reverse.mp hd)
  rwa [List.length_reverse] at h

/-- The first digit in which two lists of one length differ decides about both orders. -/
theorem map_lt_map_of_value_lt (hbase : 1 < base) (hdigit : StrictMonoOn digit (Set.Iio base))
    {ds es : List ℕ} (hlength : ds.length = es.length) (hds : ∀ d ∈ ds, d < base)
    (hes : ∀ e ∈ es, e < base) (h : value base ds < value base es) :
    ds.map digit < es.map digit := by
  induction ds generalizing es with
  | nil =>
    obtain rfl := List.length_eq_zero_iff.mp hlength.symm
    exact absurd h (Nat.lt_irrefl _)
  | cons d ds ih =>
    cases es with
    | nil => cases hlength
    | cons e es =>
      obtain ⟨hd, hds⟩ := List.forall_mem_cons.mp hds
      obtain ⟨he, hes'⟩ := List.forall_mem_cons.mp hes
      have hlength' : ds.length = es.length := Nat.succ.inj hlength
      rw [value_cons, value_cons, hlength'] at h
      rw [List.map_cons, List.map_cons, List.cons_lt_cons_iff]
      rcases Nat.lt_trichotomy d e with hlt | rfl | hgt
      · exact Or.inl (hdigit hd he hlt)
      · exact Or.inr ⟨rfl, ih hlength' hds hes' (Nat.lt_of_add_lt_add_right h)⟩
      · have hsmall := value_lt_pow hbase hes'
        have hmul : base ^ es.length * (e + 1) ≤ base ^ es.length * d :=
          Nat.mul_le_mul_left _ hgt
        rw [Nat.mul_succ] at hmul
        omega

theorem numeral_lt_of_length_eq (hbase : 1 < base) (hdigit : StrictMonoOn digit (Set.Iio base))
    {width width' n m : ℕ}
    (hlength : (numeral digit base width n).length = (numeral digit base width' m).length)
    (h : n < m) : numeral digit base width n < numeral digit base width' m := by
  unfold numeral at hlength
  rw [List.length_map, List.length_map] at hlength
  refine map_lt_map_of_value_lt hbase hdigit hlength (fun d => padded_lt hbase)
    (fun d => padded_lt hbase) ?_
  rw [value_padded, value_padded]
  exact h

theorem length_numeral (hbase : 1 < base) {width n : ℕ} (hwidth : 0 < width)
    (hn : n < base ^ width) : (numeral digit base width n).length = width := by
  unfold numeral
  rw [List.length_map, length_padded hbase hwidth hn]

theorem numeral_injective (hbase : 1 < base) (hdigit : StrictMonoOn digit (Set.Iio base))
    {width width' n m : ℕ} (h : numeral digit base width n = numeral digit base width' m) :
    n = m := by
  rcases Nat.lt_trichotomy n m with hlt | heq | hgt
  · have hless := numeral_lt_of_length_eq hbase hdigit (congrArg List.length h) hlt
    exact absurd (h ▸ hless) (List.lt_irrefl _)
  · exact heq
  · have hless := numeral_lt_of_length_eq hbase hdigit (congrArg List.length h.symm) hgt
    exact absurd (h ▸ hless) (List.lt_irrefl _)

theorem numeral_ne_nil (digit : ℕ → Char) (base width n : ℕ) :
    numeral digit base width n ≠ [] := by
  unfold numeral
  rw [ne_eq, List.map_eq_nil_iff]
  exact padded_ne_nil base width n

theorem mem_numeral (hbase : 1 < base) {width n : ℕ} {c : Char}
    (hc : c ∈ numeral digit base width n) : ∃ d < base, digit d = c := by
  obtain ⟨d, hd, hdc⟩ := List.mem_map.mp hc
  exact ⟨d, padded_lt hbase hd, hdc⟩

/-- What follows on two lists of one length does not change their order. -/
theorem append_lt_append {xs ys : List Char} (hlength : xs.length = ys.length) (h : xs < ys)
    (zs zs' : List Char) : xs ++ zs < ys ++ zs' := by
  induction xs generalizing ys with
  | nil =>
    obtain rfl := List.length_eq_zero_iff.mp hlength.symm
    exact absurd h (List.lt_irrefl _)
  | cons x xs ih =>
    cases ys with
    | nil => cases hlength
    | cons y ys =>
      rw [List.cons_append, List.cons_append, List.cons_lt_cons_iff]
      exact (List.cons_lt_cons_iff.mp h).imp_right fun h =>
        ⟨h.1, ih (Nat.succ.inj hlength) h.2⟩

end Numerals
