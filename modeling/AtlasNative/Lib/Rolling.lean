import AtlasNative.Lib.Grouping
import Mathlib.Data.Int.Order.Basic

/-!
# Accumulators rolled lazily from step to step

Time is cut into steps numbered by integers. A `Roller` keeps the amounts
accumulated in the current step and those of the step before it, and moves to a
later step only when somebody looks. `Tracks` says that the two slots hold what
the full log of recorded amounts says they should, whatever gaps of untouched
steps lie between the operations.
-/

namespace Rolling

set_option autoImplicit false

universe u v
variable {S : Type u} {A : Type v}

structure Roller (S : Type u) where
  previous : S
  current : S
  pos : ℤ

/-- The value of step `k`: the initial value combined with the amounts the log
records for `k`, in the order they were recorded. -/
def valueAt (f : S → A → S) (init : S) (log : List (ℤ × A)) (k : ℤ) : S :=
  (Grouping.bucket k log).foldl f init

section ValueAt
variable (f : S → A → S) (init : S)

theorem valueAt_concat (log : List (ℤ × A)) (k p : ℤ) (a : A) :
    valueAt f init (log ++ [(p, a)]) k =
      if p = k then f (valueAt f init log k) a else valueAt f init log k := by
  by_cases h : p = k <;>
    simp [valueAt, Grouping.bucket_append, Grouping.bucket_singleton, h]

theorem valueAt_of_bucket_eq_nil {log : List (ℤ × A)} {k : ℤ}
    (h : Grouping.bucket k log = []) : valueAt f init log k = init := by
  simp [valueAt, h]

theorem bucket_eq_nil_of_lt {log : List (ℤ × A)} {n k : ℤ} (hlog : ∀ e ∈ log, e.1 ≤ n)
    (hk : n < k) : Grouping.bucket k log = [] := by
  apply List.eq_nil_iff_forall_not_mem.mpr
  intro a ha
  have hle := hlog _ ((Grouping.mem_bucket k a log).mp ha)
  exact absurd hk (not_lt.mpr hle)

theorem valueAt_of_lt {log : List (ℤ × A)} {n k : ℤ} (hlog : ∀ e ∈ log, e.1 ≤ n)
    (hk : n < k) : valueAt f init log k = init :=
  valueAt_of_bucket_eq_nil f init (bucket_eq_nil_of_lt hlog hk)

end ValueAt

namespace Roller

def start (init : S) (pos : ℤ) : Roller S := ⟨init, init, pos⟩

/-- Move to step `p`. The current value becomes the previous one only when `p`
is the very next step; after a longer gap the previous step saw nothing. -/
def roll (init : S) (p : ℤ) (r : Roller S) : Roller S :=
  if r.pos < p then ⟨if r.pos = p - 1 then r.current else init, init, p⟩ else r

def record (f : S → A → S) (a : A) (r : Roller S) : Roller S :=
  { r with current := f r.current a }

@[simp] theorem roll_pos (init : S) (p : ℤ) (r : Roller S) : (r.roll init p).pos = max r.pos p := by
  unfold roll
  split
  · rename_i h
    exact (max_eq_right (le_of_lt h)).symm
  · rename_i h
    exact (max_eq_left (not_lt.mp h)).symm

@[simp] theorem record_pos (f : S → A → S) (a : A) (r : Roller S) : (r.record f a).pos = r.pos :=
  rfl

end Roller

/-- The roller holds exactly what the log says. -/
structure Tracks (f : S → A → S) (init : S) (r : Roller S) (log : List (ℤ × A)) : Prop where
  current : r.current = valueAt f init log r.pos
  previous : r.previous = valueAt f init log (r.pos - 1)
  bound : ∀ e ∈ log, e.1 ≤ r.pos

namespace Tracks
variable {f : S → A → S} {init : S} {r : Roller S} {log : List (ℤ × A)}

theorem start (f : S → A → S) (init : S) (pos : ℤ) :
    Tracks f init (Roller.start init pos) ([] : List (ℤ × A)) :=
  ⟨rfl, rfl, by simp⟩

theorem roll (h : Tracks f init r log) (p : ℤ) : Tracks f init (r.roll init p) log := by
  unfold Roller.roll
  split
  · rename_i hlt
    refine ⟨?_, ?_, fun e he => le_trans (h.bound e he) (le_of_lt hlt)⟩
    · exact (valueAt_of_lt f init h.bound hlt).symm
    · split
      · rename_i heq
        exact h.current.trans (by rw [heq])
      · rename_i hne
        have hgap : r.pos < p - 1 := by omega
        exact (valueAt_of_lt f init h.bound hgap).symm
  · exact h

theorem record (h : Tracks f init r log) (a : A) :
    Tracks f init (r.record f a) (log ++ [(r.pos, a)]) := by
  refine ⟨?_, ?_, ?_⟩
  · simp [Roller.record, valueAt_concat, h.current]
  · have hne : r.pos ≠ r.pos - 1 := by omega
    simp [Roller.record, valueAt_concat, h.previous, hne]
  · intro e he
    rcases List.mem_append.mp he with he | he
    · exact h.bound e he
    · rw [List.mem_singleton.mp he]
      exact le_rfl

/-- Rolling to `p` and recording puts the amount in step `p`, or in the step the
roller has already reached when `p` lies in the past. -/
theorem roll_record (h : Tracks f init r log) (p : ℤ) (a : A) :
    Tracks f init ((r.roll init p).record f a) (log ++ [(max r.pos p, a)]) := by
  have hr := (h.roll p).record a
  rwa [Roller.roll_pos] at hr

theorem previous_roll (h : Tracks f init r log) {p : ℤ} (hp : r.pos ≤ p) :
    (r.roll init p).previous = valueAt f init log (p - 1) := by
  have hr := (h.roll p).previous
  rwa [Roller.roll_pos, max_eq_right hp] at hr

end Tracks

end Rolling
