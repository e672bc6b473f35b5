import AtlasNative.Lib.Extremes
import Mathlib.Algebra.BigOperators.Group.List.Basic
import Mathlib.Algebra.Order.Field.Basic
import Mathlib.Algebra.Order.Ring.Rat
import Mathlib.Tactic.Linarith

/-!
# Doubles with exact arithmetic

The values of an IEEE double (finite, two infinities, NaN) with the rounding
removed: finite values are rationals and their sums and quotients are exact.
NaN absorbs addition, opposite infinities add up to NaN, and every comparison
that involves NaN is false.

Addition stays commutative and associative, so that list sums do not depend
on the order of the summands.
-/

namespace ExactDouble

open Extremes
set_option autoImplicit false

inductive Double where
  | nan
  | negInf
  | fin (q : ℚ)
  | posInf
  deriving DecidableEq, Repr

namespace Double

instance : Zero Double := ⟨.fin 0⟩

def isnan : Double → Bool
  | .nan => true
  | _ => false

def add : Double → Double → Double
  | .nan, _ => .nan
  | _, .nan => .nan
  | .posInf, .negInf => .nan
  | .negInf, .posInf => .nan
  | .posInf, _ => .posInf
  | _, .posInf => .posInf
  | .negInf, _ => .negInf
  | _, .negInf => .negInf
  | .fin p, .fin q => .fin (p + q)

instance : Add Double := ⟨add⟩

/-- The strict comparison `a < b` of the machine; false as soon as one side is NaN. -/
def blt : Double → Double → Bool
  | .negInf, .fin _ => true
  | .negInf, .posInf => true
  | .fin _, .posInf => true
  | .fin p, .fin q => decide (p < q)
  | _, _ => false

instance : LT Double := ⟨fun a b => blt a b = true⟩

instance (a b : Double) : Decidable (a < b) := inferInstanceAs (Decidable (blt a b = true))

/-- Division by a positive finite number. -/
def divBy (d : ℚ) : Double → Double
  | .fin q => .fin (q / d)
  | x => x

/-- Multiplication by a positive finite number. -/
def mulBy (d : ℚ) : Double → Double
  | .fin q => .fin (q * d)
  | x => x

/-- Multiplication; an infinity times zero is NaN. -/
def mul : Double → Double → Double
  | .nan, _ => .nan
  | _, .nan => .nan
  | .fin p, .fin q => .fin (p * q)
  | a, b =>
    if a = .fin 0 ∨ b = .fin 0 then .nan
    else if (blt (.fin 0) a = blt (.fin 0) b) then .posInf
    else .negInf

instance : Mul Double := ⟨mul⟩

def neg : Double → Double
  | .nan => .nan
  | .negInf => .posInf
  | .fin q => .fin (-q)
  | .posInf => .negInf

instance : Sub Double := ⟨fun a b => a + neg b⟩

/-- Division; zero by zero and infinity by infinity are NaN. A zero has no sign here. -/
def div : Double → Double → Double
  | .nan, _ => .nan
  | _, .nan => .nan
  | .fin p, .fin q =>
    if q = 0 then
      if p = 0 then .nan
      else if 0 < p then .posInf
      else .negInf
    else .fin (p / q)
  | .fin _, _ => 0
  | a, .fin q => if q < 0 then neg a else a
  | _, _ => .nan

instance : Div Double := ⟨div⟩

/-- The comparison `a <= b` of the machine; false as soon as one side is NaN. -/
def ble (a b : Double) : Bool := !a.isnan && !b.isnan && !blt b a

instance : LE Double := ⟨fun a b => ble a b = true⟩

instance (a b : Double) : Decidable (a ≤ b) := inferInstanceAs (Decidable (ble a b = true))

/-- `std::min(a, b)`: `b` only when it is strictly smaller. -/
def stdMin (a b : Double) : Double := if b < a then b else a

/-- `std::max(a, b)`: `b` only when it is strictly larger. -/
def stdMax (a b : Double) : Double := if a < b then b else a

def maxFinite : Double := .fin ((2 ^ 53 - 1) * 2 ^ 971)

def lowest : Double := .fin (-((2 ^ 53 - 1) * 2 ^ 971))

theorem lt_def (a b : Double) : a < b ↔ blt a b = true := Iff.rfl

theorem zero_def : (0 : Double) = .fin 0 := rfl

theorem add_def (a b : Double) : a + b = add a b := rfl

@[simp] theorem fin_add_fin (p q : ℚ) : (Double.fin p + Double.fin q) = .fin (p + q) := rfl

@[simp] theorem fin_lt_fin (p q : ℚ) : Double.fin p < Double.fin q ↔ p < q := by
  simp [lt_def, blt]

@[simp] theorem fin_sub_fin (p q : ℚ) : (Double.fin p - Double.fin q) = .fin (p - q) :=
  congrArg Double.fin (sub_eq_add_neg p q).symm

@[simp] theorem fin_mul_fin (p q : ℚ) : (Double.fin p * Double.fin q) = .fin (p * q) := rfl

@[simp] theorem fin_div_fin (p : ℚ) {q : ℚ} (hq : q ≠ 0) :
    (Double.fin p / Double.fin q) = .fin (p / q) := if_neg hq

@[simp] theorem fin_le_fin (p q : ℚ) : Double.fin p ≤ Double.fin q ↔ p ≤ q := by
  rw [← not_lt, ← fin_lt_fin, lt_def, Bool.not_eq_true]
  exact (Bool.not_eq_true' _).to_iff

@[simp] theorem zero_lt_fin (q : ℚ) : 0 < Double.fin q ↔ 0 < q := fin_lt_fin 0 q

@[simp] theorem divBy_fin (d q : ℚ) : divBy d (.fin q) = .fin (q / d) := rfl

@[simp] theorem divBy_zero (d : ℚ) : divBy d 0 = 0 := by
  simp [zero_def]

@[simp] theorem isnan_fin (q : ℚ) : isnan (.fin q) = false := rfl

theorem lt_irrefl (a : Double) : ¬ a < a := by
  cases a <;> simp [lt_def, blt]

theorem lt_trans {a b c : Double} (hab : a < b) (hbc : b < c) : a < c := by
  cases a <;> cases b <;> simp only [lt_def, blt, Bool.false_eq_true] at hab <;>
    cases c <;> simp_all [lt_def, blt]
  linarith

theorem lt_total {a b : Double} (ha : a.isnan = false) (hb : b.isnan = false) :
    a < b ∨ a = b ∨ b < a := by
  cases a with
  | fin p =>
    cases b with
    | fin q => simpa using lt_trichotomy p q
    | _ => simp_all [lt_def, blt, isnan]
  | _ => cases b <;> simp_all [lt_def, blt, isnan]

theorem lt_of_lt_of_not_lt {a b c : Double} (hc : c.isnan = false) (hb : b.isnan = false)
    (hab : a < b) (hcb : ¬ c < b) : a < c := by
  rcases lt_total hc hb with h | h | h
  · exact False.elim (hcb h)
  · exact h ▸ hab
  · exact lt_trans hab h

/-- NaN stands outside of the order. -/
theorem strictOrderOn : StrictOrderOn (fun a b : Double => a < b) fun v => v.isnan = false where
  irrefl := lt_irrefl
  trans := lt_trans
  total := lt_total

theorem stdMax_eq_pick : stdMax = pick fun a b : Double => b < a := rfl

theorem foldl_stdMax_spec (vs : List Double) (acc : Double) (hacc : acc.isnan = false)
    (hvs : ∀ v ∈ vs, v.isnan = false) :
    (vs.foldl stdMax acc = acc ∨ vs.foldl stdMax acc ∈ vs) ∧
      ¬ vs.foldl stdMax acc < acc ∧ ∀ v ∈ vs, ¬ vs.foldl stdMax acc < v := by
  rw [stdMax_eq_pick]
  exact foldl_pick_spec strictOrderOn.flip vs acc hacc hvs

theorem add_comm' (a b : Double) : a + b = b + a := by
  cases a <;> cases b <;> simp [add_def, add, add_comm]

theorem add_assoc' (a b c : Double) : a + b + c = a + (b + c) := by
  cases a <;> cases b <;> cases c <;> simp [add_def, add, add_assoc]

theorem zero_add' (a : Double) : 0 + a = a := by
  cases a <;> simp [add_def, zero_def, add]

instance : AddCommMonoid Double where
  add_assoc := add_assoc'
  zero_add := zero_add'
  add_zero a := by rw [add_comm', zero_add']
  add_comm := add_comm'
  nsmul := nsmulRec

theorem posInf_add_ne_fin (x : Double) (q : ℚ) : .posInf + x ≠ .fin q := by
  cases x <;> simp [add_def, add]

theorem eq_fin_of_add_eq_fin {p q : ℚ} {x : Double} (h : .fin p + x = .fin q) :
    x = .fin (q - p) := by
  cases x with
  | fin r =>
    rw [fin_add_fin, fin.injEq] at h
    rw [← h, add_sub_cancel_left]
  | _ => simp [add_def, add] at h

theorem div_fin_eq_divBy {d : ℚ} (hd : 0 < d) (a : Double) : a / .fin d = divBy d a := by
  cases a with
  | fin q => exact fin_div_fin q hd.ne'
  | nan => rfl
  | _ => exact if_neg (not_lt.mpr hd.le)

theorem divBy_add (d : ℚ) (a b : Double) : divBy d (a + b) = divBy d a + divBy d b := by
  cases a <;> cases b <;> simp [add_def, add, divBy, add_div]

theorem zero_lt_divBy_iff {d : ℚ} (hd : 0 < d) (a : Double) : 0 < divBy d a ↔ 0 < a := by
  cases a with
  | fin q => simpa using div_pos_iff_of_pos_right hd
  | _ => simp [divBy]

theorem sum_map_mulBy (d : ℚ) (vs : List Double) :
    (vs.map (mulBy d)).sum = mulBy d vs.sum := by
  induction vs with
  | nil => simp [mulBy, zero_def]
  | cons v vs ih =>
    rw [List.map_cons, List.sum_cons, List.sum_cons, ih]
    cases v <;> cases vs.sum <;> simp [add_def, add, mulBy, add_mul]

theorem mulBy_eq_fin_iff {d : ℚ} (hd : d ≠ 0) (x : Double) (q : ℚ) :
    mulBy d x = .fin q ↔ x = .fin (q / d) := by
  cases x <;> simp [mulBy, eq_div_iff hd]

end Double

end ExactDouble
