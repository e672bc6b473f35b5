import AtlasNative.BooleanPrograms
import AtlasNative.Dnf
import AtlasNative.QueryEquality

/-!
# Literals in the normal form

The elements of `dnf_list` should be conjunctions of literals. A negation that is pushed
down onto another negation surfaces the operand of that one, which `dnf_list` returns as
it is; so the elements are conjunctions of literals exactly when all that surfaces is.
-/

namespace AtlasNative

open Query
set_option autoImplicit false

namespace Query

def IsAtom : Query → Bool
  | .hasKey _ => true
  | .relop _ => true
  | .regex _ _ _ => true
  | .in_ _ _ => true
  | _ => false

/-- An atom, a constant or the negation of an atom. -/
def IsLiteral : Query → Bool
  | .true_ => true
  | .false_ => true
  | .not_ q => q.IsAtom
  | q => q.IsAtom

def IsConjunction : Query → Bool
  | .and_ q1 q2 => q1.IsConjunction && q2.IsConjunction
  | q => q.IsLiteral

/-- What the words `:not`, `:and` and `:or` build from the queries of the other words. -/
inductive Built : Query → Prop where
  | atom {q : Query} (h : q.IsAtom = true) : Built q
  | true_ : Built .true_
  | false_ : Built .false_
  | not_q {q : Query} (h : Built q) : Built (query.not_q q)
  | and_q {q1 q2 : Query} (h1 : Built q1) (h2 : Built q2) : Built (query.and_q q1 q2)
  | or_q {q1 q2 : Query} (h1 : Built q1) (h2 : Built q2) : Built (query.or_q q1 q2)

theorem built_compile (t : BoolTree) : Built t.compile := by
  induction t with
  | has k => exact .atom rfl
  | rel op k v => exact .atom rfl
  | re ignore_case k v => exact .atom rfl
  | in_ k items => exact .atom rfl
  | true_ => exact .true_
  | false_ => exact .false_
  | not_ t ih => exact .not_q ih
  | and_ t1 t2 ih1 ih2 => exact .and_q ih1 ih2
  | or_ t1 t2 ih1 ih2 => exact .or_q ih1 ih2

/-- Every negation that lies under a negation, with conjunctions and disjunctions between
the two and no third negation, is that of a conjunction of literals. -/
def SurfacesConjunctions (negated : Bool) : Query → Bool
  | .not_ q => if negated then q.IsConjunction else q.SurfacesConjunctions true
  | .and_ q1 q2 => q1.SurfacesConjunctions negated && q2.SurfacesConjunctions negated
  | .or_ q1 q2 => q1.SurfacesConjunctions negated && q2.SurfacesConjunctions negated
  | _ => true

def ConstantFree : Query → Bool
  | .true_ => false
  | .false_ => false
  | .not_ q => q.ConstantFree
  | .and_ q1 q2 => q1.ConstantFree && q2.ConstantFree
  | .or_ q1 q2 => q1.ConstantFree && q2.ConstantFree
  | _ => true

theorem literals_congr {q p : Query} (h : q.Equals p = true) :
    q.IsAtom = p.IsAtom ∧ q.IsConjunction = p.IsConjunction ∧
      ∀ negated, q.SurfacesConjunctions negated = p.SurfacesConjunctions negated := by
  refine Equals_rec
    (motive := fun q p => q.IsAtom = p.IsAtom ∧ q.IsConjunction = p.IsConjunction ∧
      ∀ negated, q.SurfacesConjunctions negated = p.SurfacesConjunctions negated)
    (fun _ => ⟨rfl, rfl, fun _ => rfl⟩) ?_ ?_ ?_ ?_ ?_ h
  · intro q p ⟨hatom, hconj, hsurface⟩
    refine ⟨rfl, hatom, fun negated => ?_⟩
    rw [SurfacesConjunctions, SurfacesConjunctions, hconj, hsurface]
  · intro q1 q2 p1 p2 ih1 ih2
    refine ⟨rfl, rfl, fun negated => ?_⟩
    rw [SurfacesConjunctions, SurfacesConjunctions, ih1.2.2, ih2.2.2]
  · intro q1 q2 p1 p2 ih1 ih2
    refine ⟨rfl, rfl, fun negated => ?_⟩
    rw [SurfacesConjunctions, SurfacesConjunctions, ih1.2.2, ih2.2.2, Bool.and_comm]
  · intro q1 q2 p1 p2 ih1 ih2
    refine ⟨rfl, ?_, fun negated => ?_⟩
    · rw [IsConjunction, IsConjunction, ih1.2.1, ih2.2.1]
    · rw [SurfacesConjunctions, SurfacesConjunctions, ih1.2.2, ih2.2.2]
  · intro q1 q2 p1 p2 ih1 ih2
    refine ⟨rfl, ?_, fun negated => ?_⟩
    · rw [IsConjunction, IsConjunction, ih1.2.1, ih2.2.1, Bool.and_comm]
    · rw [SurfacesConjunctions, SurfacesConjunctions, ih1.2.2, ih2.2.2, Bool.and_comm]

theorem not_q_of_constantFree {q : Query} (h : q.ConstantFree = true) :
    query.not_q q = .not_ q := by
  cases q <;> first | rfl | exact absurd h Bool.false_ne_true

theorem isConstant_of_constantFree {q : Query} (h : q.ConstantFree = true) :
    q.IsFalse = false ∧ q.IsTrue = false := by
  cases q <;> first | exact ⟨rfl, rfl⟩ | exact absurd h Bool.false_ne_true

/-- Without constants, the helpers that build queries drop equal operands only. -/
theorem and_q_of_constantFree {q1 q2 : Query} (h1 : q1.ConstantFree = true)
    (h2 : q2.ConstantFree = true) :
    (q1.Equals q2 = true ∧ query.and_q q1 q2 = q1) ∨ query.and_q q1 q2 = .and_ q2 q1 ∨
      query.and_q q1 q2 = .and_ q1 q2 := by
  obtain ⟨hf1, ht1⟩ := isConstant_of_constantFree h1
  obtain ⟨hf2, ht2⟩ := isConstant_of_constantFree h2
  simp only [query.and_q, hf1, hf2, ht1, ht2, Bool.false_eq_true, if_false]
  split_ifs with heq hcost
  · exact Or.inl ⟨heq, rfl⟩
  · exact Or.inr (Or.inl rfl)
  · exact Or.inr (Or.inr rfl)

theorem constantFree_and_q {q1 q2 : Query} (h1 : q1.ConstantFree = true)
    (h2 : q2.ConstantFree = true) : (query.and_q q1 q2).ConstantFree = true := by
  rcases and_q_of_constantFree h1 h2 with ⟨_, h⟩ | h | h <;> simp [h, ConstantFree, h1, h2]

theorem constantFree_not_q {q : Query} (h : q.ConstantFree = true) :
    (query.not_q q).ConstantFree = true := by
  rw [not_q_of_constantFree h]
  exact h

theorem isConjunction_and_q {q1 q2 : Query} (h1 : q1.ConstantFree = true)
    (h2 : q2.ConstantFree = true) :
    (query.and_q q1 q2).IsConjunction = (q1.IsConjunction && q2.IsConjunction) := by
  rcases and_q_of_constantFree h1 h2 with ⟨heq, h⟩ | h | h
  · rw [h, ← (literals_congr heq).2.1, Bool.and_self]
  · rw [h, IsConjunction, Bool.and_comm]
  · rw [h, IsConjunction]

theorem surfacesConjunctions_and_q {q1 q2 : Query} (h1 : q1.ConstantFree = true)
    (h2 : q2.ConstantFree = true) (negated : Bool) :
    (query.and_q q1 q2).SurfacesConjunctions negated =
      (q1.SurfacesConjunctions negated && q2.SurfacesConjunctions negated) := by
  rcases and_q_of_constantFree h1 h2 with ⟨heq, h⟩ | h | h
  · rw [h, ← (literals_congr heq).2.2 negated, Bool.and_self]
  · rw [h, SurfacesConjunctions, Bool.and_comm]
  · rw [h, SurfacesConjunctions]

/-- Unless they give back an operand, the helpers combine operands that are no constants. -/
theorem and_q_or_q_cases (q1 q2 : Query) (f : Query → Query → Query)
    (hf : f = query.and_q ∨ f = query.or_q) :
    f q1 q2 = q1 ∨ f q1 q2 = q2 ∨
      ((f q1 q2).ConstantFree = (q1.ConstantFree && q2.ConstantFree) ∧
        (q1.IsTrue = false ∧ q1.IsFalse = false) ∧ q2.IsTrue = false ∧ q2.IsFalse = false) := by
  rcases hf with rfl | rfl
  · unfold query.and_q
    split_ifs <;> simp_all [ConstantFree, Bool.and_comm]
  · unfold query.or_q
    split_ifs <;> simp_all [ConstantFree, Bool.and_comm]

theorem constantFree_or_constant {q : Query} (h : q = .true_ ∨ q = .false_ ∨ q.ConstantFree = true)
    (htrue : q.IsTrue = false) (hfalse : q.IsFalse = false) : q.ConstantFree = true := by
  rcases h with rfl | rfl | h
  · exact absurd htrue (by decide)
  · exact absurd hfalse (by decide)
  · exact h

/-- The words keep constants out of the queries that are not constants themselves. -/
theorem Built.constantFree {q : Query} (h : Built q) :
    q = .true_ ∨ q = .false_ ∨ q.ConstantFree = true := by
  induction h with
  | @atom q h =>
    refine Or.inr (Or.inr ?_)
    cases q <;> first | rfl | exact absurd h Bool.false_ne_true
  | true_ => exact Or.inl rfl
  | false_ => exact Or.inr (Or.inl rfl)
  | not_q _ ih =>
    rcases ih with rfl | rfl | h
    · exact Or.inr (Or.inl rfl)
    · exact Or.inl rfl
    · exact Or.inr (Or.inr (constantFree_not_q h))
  | @and_q q1 q2 _ _ ih1 ih2 =>
    rcases and_q_or_q_cases q1 q2 query.and_q (Or.inl rfl) with h | h | ⟨h, h1, h2⟩
    · rw [h]
      exact ih1
    · rw [h]
      exact ih2
    · rw [h, constantFree_or_constant ih1 h1.1 h1.2, constantFree_or_constant ih2 h2.1 h2.2]
      exact Or.inr (Or.inr rfl)
  | @or_q q1 q2 _ _ ih1 ih2 =>
    rcases and_q_or_q_cases q1 q2 query.or_q (Or.inr rfl) with h | h | ⟨h, h1, h2⟩
    · rw [h]
      exact ih1
    · rw [h]
      exact ih2
    · rw [h, constantFree_or_constant ih1 h1.1 h1.2, constantFree_or_constant ih2 h2.1 h2.2]
      exact Or.inr (Or.inr rfl)

end Query

namespace query

theorem dnf_list_ne_nil (q : Query) : dnf_list q ≠ [] := by
  induction q using dnf_list.induct with
  | case1 q1 q2 ih1 ih2 =>
    obtain ⟨a, as, ha⟩ := List.exists_cons_of_ne_nil ih1
    obtain ⟨b, bs, hb⟩ := List.exists_cons_of_ne_nil ih2
    simp [dnf_list, vector_cross_product, ha, hb]
  | case2 q1 q2 ih1 ih2 => simp [dnf_list, ih1]
  | case3 q1 q2 ih1 ih2 => simp [dnf_list, ih1]
  | case4 q1 q2 ih => simpa [dnf_list] using ih
  | case5 q => simp [dnf_list]
  | case6 q h1 h2 h3 h4 h5 => simp [dnf_list.eq_6 q h1 h2 h3 h4 h5]

theorem constantFree_dnf_list {q : Query} (h : q.ConstantFree = true) :
    ∀ p ∈ dnf_list q, p.ConstantFree = true := by
  induction q using dnf_list.induct with
  | case1 q1 q2 ih1 ih2 =>
    obtain ⟨h1, h2⟩ := Bool.and_eq_true_iff.mp h
    intro p hp
    rw [dnf_list, vector_cross_product] at hp
    obtain ⟨a, ha, hp⟩ := List.mem_flatMap.mp hp
    obtain ⟨b, hb, rfl⟩ := List.mem_map.mp hp
    exact constantFree_and_q (ih1 h1 a ha) (ih2 h2 b hb)
  | case2 q1 q2 ih1 ih2 =>
    obtain ⟨h1, h2⟩ := Bool.and_eq_true_iff.mp h
    intro p hp
    rw [dnf_list] at hp
    exact (List.mem_append.mp hp).elim (ih1 h1 p) (ih2 h2 p)
  | case3 q1 q2 ih1 ih2 =>
    obtain ⟨h1, h2⟩ := Bool.and_eq_true_iff.mp h
    intro p hp
    rw [dnf_list] at hp
    exact (List.mem_append.mp hp).elim (ih1 (constantFree_not_q h1) p)
      (ih2 (constantFree_not_q h2) p)
  | case4 q1 q2 ih =>
    obtain ⟨h1, h2⟩ := Bool.and_eq_true_iff.mp h
    rw [dnf_list]
    exact ih (constantFree_and_q (constantFree_not_q h1) (constantFree_not_q h2))
  | case5 q =>
    intro p hp
    rw [dnf_list] at hp
    rw [List.mem_singleton.mp hp]
    exact h
  | case6 q h1 h2 h3 h4 h5 =>
    intro p hp
    rw [dnf_list.eq_6 q h1 h2 h3 h4 h5] at hp
    rw [List.mem_singleton.mp hp]
    exact h

theorem all_vector_cross_product {v1 v2 : List Query} (h1 : v1 ≠ []) (h2 : v2 ≠ [])
    {factory : Query → Query → Query} {p : Query → Bool}
    (h : ∀ a ∈ v1, ∀ b ∈ v2, p (factory a b) = (p a && p b)) :
    (vector_cross_product v1 v2 factory).all p = (v1.all p && v2.all p) := by
  rw [Bool.eq_iff_iff, Bool.and_eq_true]
  simp only [vector_cross_product, List.all_eq_true, List.mem_flatMap, List.mem_map]
  constructor
  · intro hall
    have hpair : ∀ a ∈ v1, ∀ b ∈ v2, p a = true ∧ p b = true := by
      intro a ha b hb
      have hab := hall _ ⟨a, ha, b, hb, rfl⟩
      rwa [h a ha b hb, Bool.and_eq_true] at hab
    obtain ⟨a₀, as, ha₀⟩ := List.exists_cons_of_ne_nil h1
    obtain ⟨b₀, bs, hb₀⟩ := List.exists_cons_of_ne_nil h2
    exact ⟨fun a ha => (hpair a ha b₀ (hb₀ ▸ List.mem_cons_self)).1,
      fun b hb => (hpair a₀ (ha₀ ▸ List.mem_cons_self) b hb).2⟩
  · rintro ⟨hall1, hall2⟩ _ ⟨a, ha, b, hb, rfl⟩
    rw [h a ha b hb, hall1 a ha, hall2 b hb]
    rfl

theorem all_isConjunction_dnf_list {q : Query} (h : q.ConstantFree = true) :
    (dnf_list q).all IsConjunction = q.SurfacesConjunctions false := by
  induction q using dnf_list.induct with
  | case1 q1 q2 ih1 ih2 =>
    obtain ⟨h1, h2⟩ := Bool.and_eq_true_iff.mp h
    rw [dnf_list, all_vector_cross_product (dnf_list_ne_nil q1) (dnf_list_ne_nil q2)
      fun a ha b hb => isConjunction_and_q (constantFree_dnf_list h1 a ha)
        (constantFree_dnf_list h2 b hb), ih1 h1, ih2 h2]
    rfl
  | case2 q1 q2 ih1 ih2 =>
    obtain ⟨h1, h2⟩ := Bool.and_eq_true_iff.mp h
    rw [dnf_list, List.all_append, ih1 h1, ih2 h2]
    rfl
  | case3 q1 q2 ih1 ih2 =>
    obtain ⟨h1, h2⟩ := Bool.and_eq_true_iff.mp h
    rw [dnf_list, List.all_append, ih1 (constantFree_not_q h1), ih2 (constantFree_not_q h2),
      not_q_of_constantFree h1, not_q_of_constantFree h2]
    rfl
  | case4 q1 q2 ih =>
    obtain ⟨h1, h2⟩ := Bool.and_eq_true_iff.mp h
    have h1' := constantFree_not_q h1
    have h2' := constantFree_not_q h2
    rw [dnf_list, ih (constantFree_and_q h1' h2'), surfacesConjunctions_and_q h1' h2',
      not_q_of_constantFree h1, not_q_of_constantFree h2]
    rfl
  | case5 q =>
    simp [dnf_list, SurfacesConjunctions]
  | case6 q h1 h2 h3 h4 h5 =>
    rw [dnf_list.eq_6 q h1 h2 h3 h4 h5]
    cases q with
    | not_ q =>
      cases q with
      | and_ q1 q2 => exact False.elim (h3 q1 q2 rfl)
      | or_ q1 q2 => exact False.elim (h4 q1 q2 rfl)
      | not_ q => exact False.elim (h5 q rfl)
      | true_ => exact absurd h Bool.false_ne_true
      | false_ => exact absurd h Bool.false_ne_true
      | _ => rfl
    | and_ q1 q2 => exact False.elim (h1 q1 q2 rfl)
    | or_ q1 q2 => exact False.elim (h2 q1 q2 rfl)
    | _ => rfl

/-- The elements of the normal form are conjunctions of literals exactly when every negation
that surfaces below another one is that of a conjunction of literals. -/
theorem isConjunction_dnf_list_iff {q : Query} (h : Built q) :
    (∀ p ∈ dnf_list q, p.IsConjunction = true) ↔ q.SurfacesConjunctions false = true := by
  rw [← List.all_eq_true]
  rcases h.constantFree with rfl | rfl | h
  · simp [dnf_list, SurfacesConjunctions, IsConjunction, IsLiteral]
  · simp [dnf_list, SurfacesConjunctions, IsConjunction, IsLiteral]
  · rw [all_isConjunction_dnf_list h]

theorem isConjunction_dnf_list_not_and :
    let q := not_q (and_q (.hasKey (intern_str "a")) (not_q (.hasKey (intern_str "b"))))
    (∀ p ∈ dnf_list q, p.IsConjunction = true) ↔ q.SurfacesConjunctions false = true :=
  isConjunction_dnf_list_iff (.not_q (.and_q (.atom rfl) (.not_q (.atom rfl))))

/-- The normal form of `a,:has,b,:has,:or,:not,:not` is that disjunction. -/
theorem double_negation_surfaces_or :
    let q := or_q (.hasKey (intern_str "a")) (.hasKey (intern_str "b"))
    Built (not_q (not_q q)) ∧ dnf_list (not_q (not_q q)) = [q] ∧
      ¬ ∀ p ∈ dnf_list (not_q (not_q q)), p.IsConjunction = true := by
  have hq : or_q (.hasKey (intern_str "a")) (.hasKey (intern_str "b")) =
      .or_ (.hasKey (intern_str "a")) (.hasKey (intern_str "b")) := by
    have hne : intern_str "a" ≠ intern_str "b" := by decide
    simp [or_q, IsTrue, IsFalse, GetQueryType, Equals, isExpensive, hne]
  have hdnf : dnf_list (not_q (not_q (.or_ (.hasKey (intern_str "a"))
      (.hasKey (intern_str "b"))))) =
        [.or_ (.hasKey (intern_str "a")) (.hasKey (intern_str "b"))] := by
    rw [not_q_of_constantFree rfl, not_q_of_constantFree rfl, dnf_list]
  refine ⟨.not_q (.not_q (.or_q (.atom rfl) (.atom rfl))), ?_, ?_⟩
  · rw [hq, hdnf]
  · rw [hq, hdnf]
    decide

end query

end AtlasNative
