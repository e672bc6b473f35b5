import AtlasNative.Expression
import AtlasNative.Lib.Totals
import Mathlib.Data.List.Forall2
import Mathlib.Data.Nat.SuccPred

/-!
# The aggregation functions

What each aggregate is meant to be, over the values that match, and when the folds of
`aggregation.cc` compute it. They mark "nothing seen yet" with values of the type itself:
NaN for totals, the largest finite number for the minimum and the lowest one for the
maximum. A genuine value that equals a marker, or lies beyond it, is taken for no data.
-/

namespace AtlasNative

open ExactDouble Double Extremes
set_option autoImplicit false

section
variable (rt : Runtime) (filter : Query)

/-- The values that an aggregate is over, in the order of the list. -/
def matchingValues (tagsValuePairs : TagsValuePairs) : List Double :=
  (tagsValuePairs.filter fun m => !m.value.isnan && filter.MatchesPair rt.regex m).map
    TagsValuePair.value

variable {rt filter} {tagsValuePairs : TagsValuePairs}

theorem isnan_of_mem_matchingValues :
    ∀ v ∈ matchingValues rt filter tagsValuePairs, v.isnan = false := by
  intro v hv
  obtain ⟨m, hm, rfl⟩ := List.mem_map.mp hv
  have hm := (List.mem_filter.mp hm).2
  rw [Bool.and_eq_true, Bool.not_eq_true'] at hm
  exact hm.1

theorem fold_af_eq {β : Type} (f : β → Double → β) (init : β) :
    fold_af rt filter tagsValuePairs f init =
      (matchingValues rt filter tagsValuePairs).foldl f init := by
  rw [matchingValues, List.foldl_map, List.foldl_filter, fold_af]

theorem matchingValues_perm {l l' : TagsValuePairs} (h : l'.Perm l) :
    (matchingValues rt filter l').Perm (matchingValues rt filter l) :=
  (h.filter _).map _

theorem exists_perm_matchingValues {us : List Double}
    (h : us.Perm (matchingValues rt filter tagsValuePairs)) :
    ∃ l', l'.Perm tagsValuePairs ∧ matchingValues rt filter l' = us := by
  let p := fun m : TagsValuePair => !m.value.isnan && filter.MatchesPair rt.regex m
  have hlift : Relation.Comp (fun us ms => us = List.map TagsValuePair.value ms) List.Perm us
      (tagsValuePairs.filter p) := by
    rw [List.eq_map_comp_perm]
    exact h
  obtain ⟨ms, rfl, hms⟩ := hlift
  refine ⟨ms ++ tagsValuePairs.filter fun m => !p m, ?_, ?_⟩
  · exact (hms.append_right _).trans (List.filter_append_perm p tagsValuePairs)
  · have hms_all : ms.filter p = ms := by
      apply List.filter_eq_self.mpr
      intro m hm
      exact (List.mem_filter.mp (hms.mem_iff.mp hm)).2
    have hrest : (tagsValuePairs.filter fun m => !p m).filter p = [] := by
      apply List.filter_eq_nil_iff.mpr
      intro m hm hp
      have hm := (List.mem_filter.mp hm).2
      rw [hp] at hm
      cases hm
    rw [matchingValues, List.filter_append, hms_all, hrest, List.append_nil]

end

/-! What the aggregates are meant to be. -/

/-- `v` is the aggregate of the values `vs`, which are not empty. A sum and a mean are
asked for only where the sum exists. -/
def IsAggregate (vs : List Double) (v : Double) : Aggregate → Prop
  | .COUNT => v = .fin vs.length
  | .SUM => ¬ OppositeInfinities vs → v = vs.sum
  | .AVG => ¬ OppositeInfinities vs → v = vs.sum.divBy vs.length
  | .MIN => IsFirst (fun a b => a < b) vs v
  | .MAX => IsFirst (fun a b => b < a) vs v

/-- Only sums, and the means made from them, can fail to exist. -/
def HasAggregate (vs : List Double) : Aggregate → Prop
  | .SUM | .AVG => ¬ OppositeInfinities vs
  | .COUNT | .MIN | .MAX => True

/-- The value of `AggregateExpression::Apply` is the aggregate, is NaN when there is nothing
to aggregate and only then, and depends on no order. -/
structure AggregateMeets (rt : Runtime) (a : Aggregate) (filter : Query)
    (tagsValuePairs : TagsValuePairs) : Prop where
  value : matchingValues rt filter tagsValuePairs ≠ [] →
    IsAggregate (matchingValues rt filter tagsValuePairs)
      ((ValueExpression.aggregate a filter).Apply rt tagsValuePairs).value a
  isnan : HasAggregate (matchingValues rt filter tagsValuePairs) a →
    (((ValueExpression.aggregate a filter).Apply rt tagsValuePairs).value = .nan ↔
      matchingValues rt filter tagsValuePairs = [])
  order : ∀ l', l'.Perm tagsValuePairs →
    ((ValueExpression.aggregate a filter).Apply rt l').value =
      ((ValueExpression.aggregate a filter).Apply rt tagsValuePairs).value

/-- No value is mistaken for a marker: a total never passes through NaN before its last
summand, and some value lies on the inner side of an extreme marker. -/
def Unmistaken (vs : List Double) : Aggregate → Prop
  | .COUNT => True
  | .SUM | .AVG => ¬ OppositeInfinities vs ∨ vs.length = 2
  | .MIN => vs = [] ∨ ∃ v ∈ vs, v < maxFinite
  | .MAX => vs = [] ∨ ∃ v ∈ vs, lowest < v

/-! The aggregation functions as functions of the matching values. -/

section Values

/-- A fold towards an extreme, which answers NaN when its marker is left. -/
def extreme (r : Double → Double → Prop) [DecidableRel r] (marker : Double)
    (vs : List Double) : Double :=
  if vs.foldl (pick r) marker = marker then .nan else vs.foldl (pick r) marker

def aggregateValues (vs : List Double) : Aggregate → Double
  | .COUNT => if vs = [] then .nan else .fin vs.length
  | .SUM => vs.foldl addSeen .nan
  | .AVG => (vs.foldl addSeen .nan).divBy vs.length
  | .MIN => extreme (fun a b => a < b) maxFinite vs
  | .MAX => extreme (fun a b => b < a) lowest vs

theorem foldl_total_count (vs : List Double) (acc : Double × ℕ) :
    vs.foldl (fun (acc : Double × ℕ) v => (if acc.1.isnan then v else acc.1 + v, acc.2 + 1)) acc =
      (vs.foldl addSeen acc.1, acc.2 + vs.length) := by
  induction vs generalizing acc with
  | nil => rfl
  | cons v vs ih =>
    rw [List.foldl_cons, ih, List.foldl_cons, List.length_cons, Nat.add_right_comm, Nat.add_assoc]
    rfl

variable {rt : Runtime} {filter : Query} {tagsValuePairs : TagsValuePairs}

theorem aggregate_af_eq (a : Aggregate) :
    aggregate_af rt filter tagsValuePairs a =
      aggregateValues (matchingValues rt filter tagsValuePairs) a := by
  cases a with
  | COUNT =>
    rw [aggregate_af, count_af, fold_af_eq, List.foldl_const, Nat.succ_iterate, Nat.zero_add,
      aggregateValues]
    cases matchingValues rt filter tagsValuePairs <;> simp
  | SUM => rw [aggregate_af, sum_af, fold_af_eq]; rfl
  | AVG =>
    rw [aggregate_af, avg_af, fold_af_eq, foldl_total_count, Nat.zero_add, aggregateValues]
    cases matchingValues rt filter tagsValuePairs with
    | nil => rfl
    | cons v vs => simp
  | MIN => rw [aggregate_af, min_af, fold_af_eq]; rfl
  | MAX => rw [aggregate_af, max_af, fold_af_eq]; rfl

theorem Apply_value_eq (a : Aggregate) :
    ((ValueExpression.aggregate a filter).Apply rt tagsValuePairs).value =
      aggregateValues (matchingValues rt filter tagsValuePairs) a :=
  aggregate_af_eq a

/-- What is asked of an aggregate, over the matching values alone. -/
structure ValuesMeet (vs : List Double) (a : Aggregate) : Prop where
  value : vs ≠ [] → IsAggregate vs (aggregateValues vs a) a
  isnan : HasAggregate vs a → (aggregateValues vs a = .nan ↔ vs = [])
  order : ∀ us : List Double, us.Perm vs → aggregateValues us a = aggregateValues vs a

theorem aggregateMeets_iff (a : Aggregate) :
    AggregateMeets rt a filter tagsValuePairs ↔
      ValuesMeet (matchingValues rt filter tagsValuePairs) a := by
  constructor
  · intro h
    refine ⟨?_, ?_, ?_⟩
    · rw [← Apply_value_eq]
      exact h.value
    · rw [← Apply_value_eq]
      exact h.isnan
    · intro us hus
      obtain ⟨l', hl', rfl⟩ := exists_perm_matchingValues hus
      rw [← Apply_value_eq, ← Apply_value_eq]
      exact h.order l' hl'
  · intro h
    refine ⟨?_, ?_, ?_⟩
    · rw [Apply_value_eq]
      exact h.value
    · rw [Apply_value_eq]
      exact h.isnan
    · intro l' hl'
      rw [Apply_value_eq, Apply_value_eq]
      exact h.order _ (matchingValues_perm hl')

end Values

/-! One lemma per kind of fold. -/

section Kinds
variable {vs : List Double}

theorem valuesMeet_count (vs : List Double) : ValuesMeet vs .COUNT := by
  refine ⟨?_, ?_, ?_⟩
  · intro hne
    exact if_neg hne
  · intro _
    by_cases hnil : vs = [] <;> simp [aggregateValues, hnil]
  · intro us hus
    have hnil : us = [] ↔ vs = [] := by
      rw [← List.length_eq_zero_iff, hus.length_eq, List.length_eq_zero_iff]
    rw [aggregateValues, aggregateValues, hus.length_eq]
    simp only [hnil]

theorem valuesMeet_sum_iff (hvs : ∀ v ∈ vs, v.isnan = false) :
    ValuesMeet vs .SUM ↔ ¬ OppositeInfinities vs ∨ vs.length = 2 := by
  constructor
  · intro h
    apply not_opposite_of_total_perm hvs
    intro us hus
    exact congrArg isnan (h.order us hus)
  · intro h
    refine ⟨?_, ?_, fun us hus => total_perm hvs h hus⟩
    · intro hne hopp
      exact (foldl_addSeen_eq_sum hne hvs hopp).1
    · intro hopp
      rw [eq_nan_iff]
      exact total_isnan_iff hvs hopp

theorem valuesMeet_avg_iff (hvs : ∀ v ∈ vs, v.isnan = false) :
    ValuesMeet vs .AVG ↔ ¬ OppositeInfinities vs ∨ vs.length = 2 := by
  constructor
  · intro h
    apply not_opposite_of_total_perm hvs
    intro us hus
    have heq := congrArg isnan (h.order us hus)
    rw [aggregateValues, aggregateValues, isnan_divBy, isnan_divBy] at heq
    exact heq
  · intro h
    refine ⟨?_, ?_, ?_⟩
    · intro hne hopp
      rw [aggregateValues, (foldl_addSeen_eq_sum hne hvs hopp).1]
    · intro hopp
      rw [eq_nan_iff, aggregateValues, isnan_divBy]
      exact total_isnan_iff hvs hopp
    · intro us hus
      rw [aggregateValues, aggregateValues, total_perm hvs h hus, hus.length_eq]

/-- A minimum or a maximum is right exactly when the list is empty or some value comes
before the marker. -/
theorem valuesMeet_extreme_iff {a : Aggregate} {r : Double → Double → Prop} [DecidableRel r]
    {marker : Double} (hr : StrictOrderOn r fun v => v.isnan = false)
    (hmarker : marker.isnan = false)
    (hvalue : ∀ us : List Double, aggregateValues us a = extreme r marker us)
    (his : ∀ us v, IsAggregate us v a ↔ IsFirst r us v) (hhas : ∀ us, HasAggregate us a)
    (hvs : ∀ v ∈ vs, v.isnan = false) :
    ValuesMeet vs a ↔ vs = [] ∨ ∃ v ∈ vs, r v marker := by
  have hmarked := foldl_pick_eq_marker_iff hr vs marker hmarker hvs
  constructor
  · intro h
    by_cases hbefore : ∃ v ∈ vs, r v marker
    · exact Or.inr hbefore
    · apply Or.inl
      rw [← h.isnan (hhas vs), hvalue, extreme, if_pos (hmarked.mpr hbefore)]
  · intro hcases
    rcases hcases with rfl | hbefore
    · refine ⟨fun hne => False.elim (hne rfl), ?_, ?_⟩
      · intro _
        rw [hvalue]
        simp [extreme]
      · intro us hus
        rw [hus.eq_nil]
    · have hvalue_of : ∀ us : List Double, us.Perm vs →
          IsFirst r us (aggregateValues us a) := by
        intro us hus
        have husnum : ∀ v ∈ us, v.isnan = false := fun v hv => hvs v (hus.mem_iff.mp hv)
        obtain ⟨v, hv, hlt⟩ := hbefore
        have husbefore : ∃ v ∈ us, r v marker := ⟨v, hus.mem_iff.mpr hv, hlt⟩
        rw [hvalue, extreme, if_neg]
        · exact foldl_pick_isFirst hr us marker hmarker husnum husbefore
        · rw [foldl_pick_eq_marker_iff hr us marker hmarker husnum, not_not]
          exact husbefore
      have hself := hvalue_of vs (List.Perm.refl vs)
      refine ⟨fun _ => (his vs _).mpr hself, ?_, ?_⟩
      · intro _
        have hnum : (aggregateValues vs a).isnan = false := hvs _ hself.1
        constructor
        · intro hnan
          rw [hnan] at hnum
          cases hnum
        · rintro rfl
          cases hself.1
      · intro us hus
        exact (hr.isFirst_unique hvs hus.symm hself (hvalue_of us hus)).symm

theorem valuesMeet_iff (a : Aggregate) (hvs : ∀ v ∈ vs, v.isnan = false) :
    ValuesMeet vs a ↔ Unmistaken vs a := by
  cases a with
  | COUNT => exact iff_of_true (valuesMeet_count vs) trivial
  | SUM => exact valuesMeet_sum_iff hvs
  | AVG => exact valuesMeet_avg_iff hvs
  | MIN =>
    exact valuesMeet_extreme_iff strictOrderOn rfl (fun _ => rfl) (fun _ _ => Iff.rfl)
      (fun _ => trivial) hvs
  | MAX =>
    exact valuesMeet_extreme_iff strictOrderOn.flip rfl (fun _ => rfl) (fun _ _ => Iff.rfl)
      (fun _ => trivial) hvs

end Kinds

end AtlasNative
