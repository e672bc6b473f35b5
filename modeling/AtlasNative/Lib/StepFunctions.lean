import Mathlib.Order.Lattice

/-!
# Step functions

Steps are bounds with values, and an argument has the value of the first step whose bound it
does not exceed. If the bounds ascend and different bounds have different values, then two
arguments have one value exactly when no bound is between them.
-/

namespace StepFunction

set_option autoImplicit false

variable {K ν : Type*} [LinearOrder K]

def valueAt (fallback : ν) : List (K × ν) → K → ν
  | [], _ => fallback
  | step :: steps, a => if a ≤ step.1 then step.2 else valueAt fallback steps a

theorem valueAt_congr {fallback : ν} {steps : List (K × ν)} {a b : K}
    (h : ∀ s ∈ steps, a ≤ s.1 ↔ b ≤ s.1) : valueAt fallback steps a = valueAt fallback steps b := by
  induction steps with
  | nil => rfl
  | cons s steps ih =>
    obtain ⟨hs, hsteps⟩ := List.forall_mem_cons.mp h
    unfold valueAt
    simp only [hs, ih hsteps]

/-- The step that gives the value has the least of the bounds that are not exceeded. -/
theorem valueAt_spec {fallback : ν} {steps : List (K × ν)}
    (hsteps : steps.Pairwise fun s t => s.1 ≤ t.1) (a : K) :
    (∃ s ∈ steps, a ≤ s.1 ∧ (∀ t ∈ steps, a ≤ t.1 → s.1 ≤ t.1) ∧
      valueAt fallback steps a = s.2) ∨
    ((∀ s ∈ steps, s.1 < a) ∧ valueAt fallback steps a = fallback) := by
  induction steps with
  | nil => exact Or.inr ⟨fun s hs => absurd hs List.not_mem_nil, rfl⟩
  | cons s steps ih =>
    obtain ⟨hs, hsteps⟩ := List.pairwise_cons.mp hsteps
    unfold valueAt
    by_cases ha : a ≤ s.1
    · left
      refine ⟨s, List.mem_cons_self, ha, ?_, if_pos ha⟩
      intro t ht _
      rcases List.mem_cons.mp ht with rfl | ht
      · exact le_rfl
      · exact hs t ht
    · rw [if_neg ha]
      rcases ih hsteps with ⟨t, ht, hat, hleast, hvalue⟩ | ⟨hall, hvalue⟩
      · left
        refine ⟨t, List.mem_cons_of_mem s ht, hat, ?_, hvalue⟩
        intro u hu hau
        rcases List.mem_cons.mp hu with rfl | hu
        · exact absurd hau ha
        · exact hleast u hu hau
      · exact Or.inr ⟨List.forall_mem_cons.mpr ⟨not_le.mp ha, hall⟩, hvalue⟩

theorem valueAt_eq_iff {fallback : ν} {steps : List (K × ν)}
    (hsteps : steps.Pairwise fun s t => s.1 ≤ t.1)
    (hvalues : ∀ s ∈ steps, ∀ t ∈ steps, s.1 < t.1 → s.2 ≠ t.2)
    (hfallback : ∀ s ∈ steps, s.2 ≠ fallback) {a b : K} (hab : a < b) :
    valueAt fallback steps a = valueAt fallback steps b ↔
      ¬ ∃ s ∈ steps, a ≤ s.1 ∧ s.1 < b := by
  constructor
  · rintro heq ⟨s, hs, has, hsb⟩
    rcases @valueAt_spec _ _ _ fallback _ hsteps a with ⟨t, ht, -, hleast, hvalue⟩ | ⟨hall, -⟩
    · have hts := hleast s hs has
      rcases @valueAt_spec _ _ _ fallback _ hsteps b with ⟨u, hu, hbu, -, hvalue'⟩ | ⟨-, hvalue'⟩
      · refine hvalues t ht u hu ((hts.trans_lt hsb).trans_le hbu) ?_
        rw [← hvalue, heq, hvalue']
      · refine hfallback t ht ?_
        rw [← hvalue, heq, hvalue']
    · exact absurd (hall s hs) (not_lt.mpr has)
  · intro hnone
    apply valueAt_congr
    intro s hs
    constructor
    · intro has
      exact not_lt.mp fun hsb => hnone ⟨s, hs, has, hsb⟩
    · exact hab.le.trans

end StepFunction
