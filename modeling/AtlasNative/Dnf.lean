import AtlasNative.Query

/-!
# Disjunctive normal form

`dnf_list` turns a query into a list of queries to be ORed together. It pushes
negations inwards through `not_q` and `and_q`, so an argument of a recursive call
need not be a part of the query; `weight` counts what is left to push.
-/

namespace AtlasNative

open Query
set_option autoImplicit false

universe u v
variable {α : Type u} {β : Type v}

def vector_cross_product (v1 v2 : List α) (factory : α → α → β) : List β :=
  v1.flatMap fun i1 => v2.map fun i2 => factory i1 i2

theorem any_vector_cross_product (v1 v2 : List α) (factory : α → α → β) (p : α → Bool)
    (q : β → Bool) (h : ∀ a b, q (factory a b) = (p a && p b)) :
    (vector_cross_product v1 v2 factory).any q = (v1.any p && v2.any p) := by
  induction v1 with
  | nil => rfl
  | cons a v1 ih =>
    have hrow : ∀ v : List α, (v.map fun i2 => factory a i2).any q = (p a && v.any p) := by
      intro v
      induction v with
      | nil => simp
      | cons b v ihv => simp [h, ihv, Bool.and_or_distrib_left]
    simp only [vector_cross_product, List.flatMap_cons, List.any_append, hrow] at ih ⊢
    rw [ih, List.any_cons, Bool.and_or_distrib_right]

namespace Query

/-- The work left under a negation. -/
def negWeight : Query → ℕ
  | .and_ q1 q2 => q1.negWeight + q2.negWeight + 1
  | .or_ q1 q2 => q1.negWeight + q2.negWeight + 2
  | _ => 1

def weight : Query → ℕ
  | .and_ q1 q2 => q1.weight + q2.weight + 1
  | .or_ q1 q2 => q1.weight + q2.weight + 1
  | .not_ q => q.negWeight
  | _ => 1

theorem weight_not_q_le (q : Query) : (query.not_q q).weight ≤ q.negWeight := by
  unfold query.not_q
  split
  · rename_i h
    rw [query.eq_false_of_IsFalse h]
    exact le_rfl
  · split
    · rename_i h
      rw [query.eq_true_of_IsTrue h]
      exact le_rfl
    · exact le_rfl

theorem weight_and_q_le (q1 q2 : Query) :
    (query.and_q q1 q2).weight ≤ q1.weight + q2.weight + 1 := by
  have h1 : (Query.and_ q1 q2).weight = q1.weight + q2.weight + 1 := rfl
  have h2 : (Query.and_ q2 q1).weight = q2.weight + q1.weight + 1 := rfl
  unfold query.and_q
  split_ifs <;> omega

end Query

namespace query

def dnf_list (query : Query) : List Query :=
  match query with
  | .and_ q1 q2 => vector_cross_product (dnf_list q1) (dnf_list q2) and_q
  | .or_ q1 q2 => dnf_list q1 ++ dnf_list q2
  | .not_ (.and_ q1 q2) => dnf_list (not_q q1) ++ dnf_list (not_q q2)
  | .not_ (.or_ q1 q2) => dnf_list (and_q (not_q q1) (not_q q2))
  | .not_ (.not_ q) => [q]
  | q => [q]
termination_by query.weight
decreasing_by
  all_goals simp only [weight, negWeight]
  · omega
  · omega
  · omega
  · omega
  · have h := weight_not_q_le q1
    omega
  · have h := weight_not_q_le q2
    omega
  · have h1 := weight_not_q_le q1
    have h2 := weight_not_q_le q2
    have h := weight_and_q_le (not_q q1) (not_q q2)
    omega

/-- A query matches when one of the elements of its normal form does. -/
theorem any_dnf_list (regex : RegexOracle) (get_value : StrRef → Option StrRef) (q : Query) :
    (dnf_list q).any (·.MatchesWith regex get_value) = q.MatchesWith regex get_value := by
  induction q using dnf_list.induct with
  | case1 q1 q2 ih1 ih2 =>
    rw [dnf_list, any_vector_cross_product _ _ _ (·.MatchesWith regex get_value) _
      (MatchesWith_and_q regex get_value), ih1, ih2, MatchesWith]
  | case2 q1 q2 ih1 ih2 => rw [dnf_list, List.any_append, ih1, ih2, MatchesWith]
  | case3 q1 q2 ih1 ih2 =>
    rw [dnf_list, List.any_append, ih1, ih2]
    simp only [MatchesWith, MatchesWith_not_q, Bool.not_and]
  | case4 q1 q2 ih =>
    rw [dnf_list, ih]
    simp only [MatchesWith, MatchesWith_and_q, MatchesWith_not_q, Bool.not_or]
  | case5 q => simp [dnf_list, MatchesWith]
  | case6 q h1 h2 h3 h4 h5 =>
    rw [dnf_list.eq_6 q h1 h2 h3 h4 h5]
    simp

/-- The list of a query, which is always finite, matches what the query matches. -/
theorem Matches_iff_exists_mem_dnf_list (regex : RegexOracle) (q : Query) :
    ∀ tags, q.Matches regex tags = true ↔ ∃ p ∈ dnf_list q, p.Matches regex tags = true := by
  intro tags
  rw [Matches, ← any_dnf_list, List.any_eq_true]
  rfl

end query

end AtlasNative
