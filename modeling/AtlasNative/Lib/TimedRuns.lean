import Mathlib.Data.Int.Order.Basic
import Mathlib.Data.List.Induction

/-!
# Runs of a state under a clock

Operations with their times are applied to a state one after the other. `Ordered` says
that the times never go back, from the start of the run to the time at which it is looked
at, and an invariant that every operation carries forward holds then of the whole run.
-/

namespace TimedRuns

set_option autoImplicit false

universe u v
variable {S : Type u} {A : Type v}

def run (apply : S → ℤ → A → S) (init : S) (events : List (ℤ × A)) : S :=
  events.foldl (fun s e => apply s e.1 e.2) init

/-- The times of the events, between `start` and `now`, do not decrease. -/
def Ordered (start : ℤ) (events : List (ℤ × A)) (now : ℤ) : Prop :=
  (start :: (events.map Prod.fst ++ [now])).Pairwise (· ≤ ·)

instance (start : ℤ) (events : List (ℤ × A)) (now : ℤ) : Decidable (Ordered start events now) :=
  inferInstanceAs (Decidable (List.Pairwise _ _))

theorem Ordered.start_le {start now : ℤ} {events : List (ℤ × A)}
    (h : Ordered start events now) : start ≤ now :=
  (List.pairwise_cons.mp h).1 now (by simp)

theorem Ordered.le_now {start now : ℤ} {events : List (ℤ × A)} (h : Ordered start events now)
    {t : ℤ} (ht : t ∈ start :: (events.map Prod.fst ++ [now])) : t ≤ now := by
  rw [← List.cons_append, List.mem_append, List.mem_singleton] at ht
  rcases ht with hbefore | rfl
  · have hpairs := List.pairwise_append.mp (show (start :: events.map Prod.fst ++ [now]).Pairwise
      (· ≤ ·) from h)
    exact hpairs.2.2 t hbefore now (List.mem_singleton_self now)
  · exact le_rfl

theorem Ordered.mono {start now later : ℤ} {events : List (ℤ × A)}
    (h : Ordered start events now) (hle : now ≤ later) : Ordered start events later := by
  have hpairs := List.pairwise_append.mp (show (start :: events.map Prod.fst ++ [now]).Pairwise
    (· ≤ ·) from h)
  refine List.pairwise_append.mpr ⟨hpairs.1, List.pairwise_singleton _ _, ?_⟩
  intro t ht t' ht'
  rw [List.mem_singleton.mp ht']
  exact le_trans (hpairs.2.2 t ht now (List.mem_singleton_self now)) hle

theorem Ordered.of_concat {start now : ℤ} {events : List (ℤ × A)} {e : ℤ × A}
    (h : Ordered start (events ++ [e]) now) : Ordered start events e.1 ∧ e.1 ≤ now := by
  obtain ⟨hstart, hrest⟩ := List.pairwise_cons.mp h
  rw [List.map_append, List.map_singleton] at hstart hrest
  obtain ⟨htimes, _, hlast⟩ := List.pairwise_append.mp hrest
  refine ⟨List.pairwise_cons.mpr ⟨fun x hx => ?_, htimes⟩, hlast _ (by simp) _ (by simp)⟩
  exact hstart x (List.mem_append_left _ hx)

theorem Ordered.concat {start now later : ℤ} {events : List (ℤ × A)}
    (h : Ordered start events now) (hle : now ≤ later) (a : A) :
    Ordered start (events ++ [(now, a)]) later := by
  have htimes : (start :: ((events ++ [(now, a)]).map Prod.fst ++ [later])) =
      (start :: (events.map Prod.fst ++ [now])) ++ [later] := by simp
  rw [Ordered, htimes, List.pairwise_append]
  refine ⟨h, List.pairwise_singleton _ _, ?_⟩
  intro t ht t' ht'
  rw [List.mem_singleton.mp ht']
  exact le_trans (h.le_now ht) hle

/-- A fact about a state, a time and the events so far that time passing and every
operation carry forward. -/
theorem run_invariant {apply : S → ℤ → A → S} {init : S} {start : ℤ}
    (Inv : S → ℤ → List (ℤ × A) → Prop) (hinit : Inv init start [])
    (hmono : ∀ s now t log, Inv s now log → now ≤ t → Inv s t log)
    (hstep : ∀ s t log a, Inv s t log → start ≤ t → Inv (apply s t a) t (log ++ [(t, a)]))
    {events : List (ℤ × A)} {now : ℤ} (hordered : Ordered start events now) :
    Inv (run apply init events) now events := by
  induction events using List.reverseRecOn generalizing now with
  | nil => exact hmono _ _ _ _ hinit hordered.start_le
  | append_singleton events e ih =>
    obtain ⟨hbefore, hle⟩ := hordered.of_concat
    have hstepped := hstep _ e.1 _ e.2 (ih hbefore) hbefore.start_le
    rw [run, List.foldl_append]
    exact hmono _ _ _ _ hstepped hle

end TimedRuns
