import Mathlib.Data.Int.Order.Basic
import Mathlib.Data.List.Basic

/-!
# Walking over a list in batches

A loop takes the next `batch_size` elements, or what is left of the list, until it has
reached the end. Positions and sizes are integers, as in the loops that this models; with a
positive size the batches are the consecutive pieces that `Splits` describes.
-/

namespace Batches

set_option autoImplicit false

universe u v
variable {A : Type u} {S : Type v}

/-- The elements from position `first` on that are before position `last`. There are none when
`last` comes first, which a loop from `first` on would miss if it tested for `≠`. -/
def range (l : List A) (first last : ℤ) : List A := (l.take last.toNat).drop first.toNat

/-- The loop from position `pos` on; `none` when the fuel is used up before it has ended. -/
def loop (body : S → List A → S) (batch_size : ℤ) (l : List A) : ℕ → ℤ → S → Option S
  | 0, _, _ => none
  | fuel + 1, pos, s =>
    if pos = l.length then some s
    else
      let to_end := l.length - pos
      let to_advance := min batch_size to_end
      let next := pos + to_advance
      loop body batch_size l fuel next (body s (range l pos next))

/-- Consecutive pieces of `n` elements, the last of which may be shorter. -/
inductive Splits (n : ℕ) : List A → List (List A) → Prop where
  | nil : Splits n [] []
  | cons {l : List A} {bs : List (List A)} :
      l ≠ [] → Splits n (l.drop n) bs → Splits n l (l.take n :: bs)

namespace Splits
variable {n : ℕ} {l : List A} {bs : List (List A)}

theorem flatten (h : Splits n l bs) : bs.flatten = l := by
  induction h with
  | nil => rfl
  | @cons l bs _ _ ih => rw [List.flatten_cons, ih, List.take_append_drop]

theorem unique (h : Splits n l bs) {bs' : List (List A)} (h' : Splits n l bs') : bs = bs' := by
  induction h generalizing bs' with
  | nil =>
    cases h' with
    | nil => rfl
    | cons hne _ => exact absurd rfl hne
  | cons hne _ ih =>
    cases h' with
    | nil => exact absurd rfl hne
    | cons _ hrest => rw [ih hrest]

theorem ne_nil (hn : 0 < n) (h : Splits n l bs) : ∀ b ∈ bs, b ≠ [] := by
  induction h with
  | nil => simp
  | @cons l bs hne _ ih =>
    refine List.forall_mem_cons.mpr ⟨?_, ih⟩
    rw [ne_eq, List.take_eq_nil_iff, not_or]
    exact ⟨Nat.pos_iff_ne_zero.mp hn, hne⟩

theorem length_le (h : Splits n l bs) : ∀ b ∈ bs, b.length ≤ n := by
  induction h with
  | nil => simp
  | @cons l bs _ _ ih =>
    exact List.forall_mem_cons.mpr ⟨List.length_take_le n l, ih⟩

end Splits

/-- In order, a partition of the list into pieces that are not empty and not too long. -/
structure Pieces (batch_size : ℤ) (l : List A) (bs : List (List A)) : Prop where
  flatten : bs.flatten = l
  ne_nil : ∀ b ∈ bs, b ≠ []
  length_le : ∀ b ∈ bs, (b.length : ℤ) ≤ batch_size

theorem Pieces.nil (batch_size : ℤ) : Pieces batch_size ([] : List A) [] :=
  ⟨rfl, by simp, by simp⟩

theorem Splits.pieces {batch_size : ℤ} {l : List A} {bs : List (List A)} (hsize : 0 < batch_size)
    (h : Splits batch_size.toNat l bs) : Pieces batch_size l bs where
  flatten := h.flatten
  ne_nil := h.ne_nil (by omega)
  length_le b hb := by
    have hle := h.length_le b hb
    omega

/-- The body is run on the pieces in order, and the loop ends. -/
theorem loop_drop {body : S → List A → S} {batch_size : ℤ} (hsize : 0 < batch_size) (l : List A)
    (fuel k : ℕ) (hk : k ≤ l.length) (hfuel : l.length - k < fuel) (s : S) :
    ∃ bs, Splits batch_size.toNat (l.drop k) bs ∧
      loop body batch_size l fuel k s = some (bs.foldl body s) := by
  induction fuel generalizing k s with
  | zero => exact absurd hfuel (Nat.not_lt_zero _)
  | succ fuel ih =>
    rw [loop]
    by_cases hend : k = l.length
    · rw [if_pos (by omega), hend, List.drop_length]
      exact ⟨[], .nil, rfl⟩
    · rw [if_neg (by omega)]
      obtain ⟨n, rfl⟩ : ∃ n : ℕ, batch_size = n := ⟨batch_size.toNat, by omega⟩
      have hnext : (k : ℤ) + min (n : ℤ) (l.length - k) = (min (k + n) l.length : ℕ) := by omega
      have hpiece : range l k (min (k + n) l.length : ℕ) = (l.drop k).take n := by
        rw [range, Int.toNat_natCast, Int.toNat_natCast, List.drop_take]
        apply List.take_eq_take_iff.mpr
        rw [List.length_drop]
        omega
      have hrest : l.drop (min (k + n) l.length) = (l.drop k).drop n := by
        rw [List.drop_drop]
        rcases Nat.le_total (k + n) l.length with hle | hle
        · rw [Nat.min_eq_left hle]
        · rw [Nat.min_eq_right hle, List.drop_length, List.drop_eq_nil_of_le hle]
      obtain ⟨bs, hsplits, hloop⟩ := ih (min (k + n) l.length) (by omega) (by omega)
        (body s ((l.drop k).take n))
      dsimp only
      rw [hnext, hpiece, hloop]
      rw [hrest] at hsplits
      refine ⟨(l.drop k).take n :: bs, Splits.cons ?_ hsplits, rfl⟩
      rw [ne_eq, List.drop_eq_nil_iff]
      omega

theorem loop_eq (body : S → List A → S) {batch_size : ℤ} (hsize : 0 < batch_size) (l : List A)
    {fuel : ℕ} (hfuel : l.length < fuel) (s : S) :
    ∃ bs, Splits batch_size.toNat l bs ∧
      loop body batch_size l fuel 0 s = some (bs.foldl body s) :=
  loop_drop hsize l fuel 0 (Nat.zero_le _) hfuel s

theorem loop_end (body : S → List A → S) (batch_size : ℤ) (l : List A) (fuel : ℕ) (s : S) :
    loop body batch_size l (fuel + 1) l.length s = some s := by
  rw [loop, if_pos rfl]

/-- Without a positive size the loop does not move forward, and never ends. -/
theorem loop_eq_none {body : S → List A → S} {batch_size : ℤ} (hsize : batch_size ≤ 0)
    {l : List A} {pos : ℤ} (hpos : pos < l.length) (fuel : ℕ) (s : S) :
    loop body batch_size l fuel pos s = none := by
  induction fuel generalizing pos s with
  | zero => rfl
  | succ fuel ih =>
    rw [loop, if_neg (by omega)]
    dsimp only
    apply ih
    omega

end Batches
