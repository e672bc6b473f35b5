import AtlasNative.Interpreter

/-!
# The rollup of the main metrics

Every measurement goes to the first publish rule whose query matches it, and every
rule is evaluated over the measurements it got. That is the evaluation of the rules
one after the other, each over what the rules before it have not matched.
-/

namespace AtlasNative

open Grouping
set_option autoImplicit false

/-- A rule that leaves one expression with a query, which is an exact pre-filter. -/
inductive IsRollup : Expression → Prop where
  | all (q : Query) : IsRollup (.results (.all q))
  | aggregate (a : Aggregate) (q : Query) : IsRollup (.value (.aggregate a q))
  | groupBy (keys : StringRefs) (a : Aggregate) (q : Query) :
    IsRollup (.results (.groupBy keys (.aggregate a q)))
  | keepOrDropTags (keys : StringRefs) (a : Aggregate) (q : Query) (keep : Bool) :
    IsRollup (.results (.keepOrDropTags keys (.aggregate a q) keep))

/-- The gauges that are set, and the measurements to be sent. -/
structure MainMeasurements where
  gauges : List (Id × ExactDouble.Double)
  result : TagsValuePairs

section Code
variable (rt : Runtime)

/-- The loop over the rules that breaks at the first one whose query matches. -/
def firstRule (tagsValue : TagsValuePair) : List String → Except Fault (Option ℕ)
  | [] => .ok none
  | rule :: rules => do
    let query ← Evaluator.get_query rt rule
    if query.MatchesPair rt.regex tagsValue then return some 0
    else return (← firstRule tagsValue rules).map (· + 1)

/-- The metrics that match each rule. -/
def measurementsForRule (rules : List String) (tagsValues : TagsValuePairs) :
    Except Fault (List TagsValuePairs) :=
  tagsValues.foldlM (fun measurements_for_rule tagsValue => do
    match ← firstRule rt tagsValue rules with
    | some i => return measurements_for_rule.modify i (· ++ [tagsValue])
    | none => return measurements_for_rule) (List.replicate rules.length [])

def applyRules : List String → List TagsValuePairs → Except Fault TagsValuePairs
  | rule :: rules, measurements :: rest => do
    let rule_result ← Evaluator.eval rt rule measurements
    return rule_result ++ (← applyRules rules rest)
  | _, _ => .ok []

def mainGauge (name : String) (value : ℕ) : Id × ExactDouble.Double :=
  (⟨intern_str name, Tags.of [("id", secs_for_millis kMainFrequencyMillis)]⟩, .fin value)

def get_main_measurements (rules : List String) (common_tags : Tags)
    (all_measurements : Measurements) : Except Fault MainMeasurements := do
  let raw := mainGauge "atlas.client.rawMeasurements" all_measurements.length
  let tagsValues := all_measurements.map fun m => TagsValuePair.from m common_tags
  if all_measurements.isEmpty then return ⟨[raw], []⟩
  else if rules.isEmpty then return ⟨[raw], tagsValues⟩
  else
    let measurements_for_rule ← measurementsForRule rt rules tagsValues
    let result ← applyRules rt rules measurements_for_rule
    return ⟨[raw, mainGauge "atlas.client.mainMeasurements" result.length], result⟩

end Code

section Prefilter
variable {rt : Runtime} {a : Aggregate} {q : Query}

theorem Apply_filter (measurements : TagsValuePairs) :
    (ValueExpression.aggregate a q).Apply rt (measurements.filter (q.MatchesPair rt.regex)) =
      (ValueExpression.aggregate a q).Apply rt measurements := by
  simp only [ValueExpression.Apply, aggregate_af_filter]

theorem Apply_nil_value : ((ValueExpression.aggregate a q).Apply rt []).value = .nan := by
  simp only [ValueExpression.Apply, aggregate_af_nil, TagsValuePair.value_of]

/-- Groups that lose some members keep their value, and groups that lose all of them
disappear. -/
theorem groupResults_filter (vals : TagsValuePair → Option Tags)
    (result_tags : Tags → TagsValuePair → Tags) (measurements : TagsValuePairs) :
    (groupResults rt (.aggregate a q) result_tags
        (grouped rt vals (measurements.filter (q.MatchesPair rt.regex)))).Perm
      (groupResults rt (.aggregate a q) result_tags (grouped rt vals measurements)) := by
  have hgroups := ofPairs_perm_filter_map (List.filter (q.MatchesPair rt.regex))
    (measurements.filterMap fun tv => (vals tv).map fun tags => (tags, tv))
    ((measurements.filter (q.MatchesPair rt.regex)).filterMap fun tv =>
      (vals tv).map fun tags => (tags, tv)) rfl fun tags => by
        rw [bucket_grouped, bucket_grouped, List.filter_comm]
  refine ((rt.iterate_perm _).trans hgroups).filterMap _ |>.trans ?_
  refine List.Perm.trans ?_ ((rt.iterate_perm _).symm.filterMap _)
  rw [List.filterMap_filter, List.filterMap_map]
  apply List.Perm.of_eq
  apply List.filterMap_congr
  rintro ⟨tags, pairs⟩ _
  simp only [Function.comp_apply, Apply_filter]
  by_cases hnil : pairs.filter (q.MatchesPair rt.regex) = []
  · have hvalue : ((ValueExpression.aggregate a q).Apply rt pairs).value = .nan := by
      rw [← Apply_filter, hnil, Apply_nil_value]
    simp [hnil, hvalue, ExactDouble.Double.isnan]
  · simp [hnil]

theorem groupResults_grouped_nil (vals : TagsValuePair → Option Tags)
    (result_tags : Tags → TagsValuePair → Tags) :
    groupResults rt (.aggregate a q) result_tags (grouped rt vals []) = [] := by
  have hnil : rt.iterate ([] : List (Tags × TagsValuePairs)) = [] := (rt.iterate_perm []).eq_nil
  simp [groupResults, grouped, ofPairs, hnil]

/-- Handing a rule only the measurements that its query matches changes nothing. -/
theorem evalStack_filter {e : Expression} (he : IsRollup e) (measurements : TagsValuePairs) :
    (Evaluator.evalStack rt (measurements.filter
        ((Interpreter.stackQuery [e]).MatchesPair rt.regex)) [e]).Perm
      (Evaluator.evalStack rt measurements [e]) := by
  cases he with
  | all q =>
    rw [Evaluator.evalStack_results, Evaluator.evalStack_results]
    simp only [MultipleResults.Apply, All.Apply, Interpreter.stackQuery, MultipleResults.GetQuery]
    split
    · rename_i htrue
      rw [query.eq_true_of_IsTrue (decide_eq_true htrue)]
      simp [Query.MatchesPair, Query.MatchesWith]
    · simp [List.filter_filter]
  | aggregate a q =>
    rw [Evaluator.evalStack_value, Evaluator.evalStack_value]
    simp only [SingletonValueExpr.Apply, Interpreter.stackQuery, ValueExpression.GetQuery,
      Apply_filter]
    exact List.Perm.refl _
  | groupBy keys a q =>
    rw [Evaluator.evalStack_results, Evaluator.evalStack_results]
    exact groupResults_filter (group_by_vals keys)
      (fun tags expr_results => tags.add_all expr_results.all_tags) measurements
  | keepOrDropTags keys a q keep =>
    rw [Evaluator.evalStack_results, Evaluator.evalStack_results]
    exact groupResults_filter
      (fun tv => group_by_vals (if keep then keys else drop_keys rt tv.all_tags keys) tv)
      (fun tags _ => tags) measurements

/-- A rule has no results without measurements, so that `eval` may return early. -/
theorem evalStack_nil {e : Expression} (he : IsRollup e) :
    Evaluator.evalStack rt [] [e] = [] := by
  cases he with
  | all q =>
    rw [Evaluator.evalStack_results]
    simp [MultipleResults.Apply, All.Apply]
  | aggregate a q =>
    rw [Evaluator.evalStack_value]
    simp [SingletonValueExpr.Apply, Apply_nil_value, ExactDouble.Double.isnan]
  | groupBy keys a q =>
    rw [Evaluator.evalStack_results]
    exact groupResults_grouped_nil (group_by_vals keys)
      fun tags expr_results => tags.add_all expr_results.all_tags
  | keepOrDropTags keys a q keep =>
    rw [Evaluator.evalStack_results]
    exact groupResults_grouped_nil
      (fun tv => group_by_vals (if keep then keys else drop_keys rt tv.all_tags keys) tv)
      fun tags _ => tags

end Prefilter

/-- The rule runs to its end and leaves one expression of these forms. -/
def LeavesRollup (rt : Runtime) (rule : String) : Prop :=
  ∃ e, Interpreter.execStack rt rule = .ok [e] ∧ IsRollup e

section Rules
variable {rt : Runtime}

theorem get_query_of_execStack {rule : String} {context : Context}
    (h : Interpreter.execStack rt rule = .ok context) :
    Evaluator.get_query rt rule = .ok (Interpreter.stackQuery context) := by
  rw [Evaluator.get_query, Interpreter.GetQuery, h]
  rfl

theorem eval_of_execStack {rule : String} {e : Expression} (he : IsRollup e)
    (h : Interpreter.execStack rt rule = .ok [e]) (measurements : TagsValuePairs) :
    Evaluator.eval rt rule measurements = .ok (Evaluator.evalStack rt measurements [e]) := by
  unfold Evaluator.eval
  cases measurements with
  | nil => rw [evalStack_nil he]; rfl
  | cons m measurements => rw [h]; rfl

variable (rt)

/-- The rules one after the other, each over what no rule before it has matched. -/
def sequentialEval : List String → TagsValuePairs → Except Fault TagsValuePairs
  | [], _ => .ok []
  | rule :: rules, measurements => do
    let query ← Evaluator.get_query rt rule
    let rule_result ← Evaluator.eval rt rule measurements
    return rule_result ++ (← sequentialEval rules
      (measurements.filter fun m => !query.MatchesPair rt.regex m))

/-- What every rule gets, given the queries of the rules. -/
def shares : List Query → TagsValuePairs → List TagsValuePairs
  | [], _ => []
  | query :: queries, measurements =>
    measurements.filter (query.MatchesPair rt.regex) ::
      shares queries (measurements.filter fun m => !query.MatchesPair rt.regex m)

theorem shares_nil (queries : List Query) :
    shares rt queries [] = List.replicate queries.length [] := by
  induction queries with
  | nil => rfl
  | cons query queries ih => simp [shares, ih, List.replicate_succ]

def firstMatch (tagsValue : TagsValuePair) (queries : List Query) : Option ℕ :=
  queries.findIdx? (·.MatchesPair rt.regex tagsValue)

theorem shares_concat (queries : List Query) (measurements : TagsValuePairs)
    (tagsValue : TagsValuePair) :
    shares rt queries (measurements ++ [tagsValue]) =
      match firstMatch rt tagsValue queries with
      | some i => (shares rt queries measurements).modify i (· ++ [tagsValue])
      | none => shares rt queries measurements := by
  induction queries generalizing measurements with
  | nil => rfl
  | cons query queries ih =>
    cases hm : query.MatchesPair rt.regex tagsValue with
    | true => simp [shares, firstMatch, List.findIdx?_cons, hm]
    | false =>
      simp only [shares, List.filter_append, List.filter_cons, List.filter_nil, hm, firstMatch,
        List.findIdx?_cons, Bool.not_false, if_true, Bool.false_eq_true, if_false,
        List.append_nil]
      have ih := ih (measurements.filter fun m => !query.MatchesPair rt.regex m)
      rw [firstMatch] at ih
      rw [ih]
      cases queries.findIdx? (·.MatchesPair rt.regex tagsValue) <;> rfl

theorem shares_flatten_subperm (queries : List Query) (measurements : TagsValuePairs) :
    (shares rt queries measurements).flatten.Subperm measurements := by
  induction queries generalizing measurements with
  | nil => exact List.nil_subperm
  | cons query queries ih =>
    have hrest := ih (measurements.filter fun m => !query.MatchesPair rt.regex m)
    rw [shares, List.flatten_cons]
    exact ((List.subperm_append_left _).mpr hrest).trans
      (List.filter_append_perm _ measurements).subperm

def ruleQuery (rule : String) : Query :=
  match Interpreter.execStack rt rule with
  | .ok context => Interpreter.stackQuery context
  | .error _ => .false_

variable {rt}

theorem LeavesRollup.get_query {rule : String} (h : LeavesRollup rt rule) :
    Evaluator.get_query rt rule = .ok (ruleQuery rt rule) := by
  obtain ⟨e, hstack, _⟩ := h
  rw [get_query_of_execStack hstack, ruleQuery, hstack]

theorem LeavesRollup.eval {rule : String} (h : LeavesRollup rt rule)
    (measurements : TagsValuePairs) :
    ∃ filtered results,
      Evaluator.eval rt rule (measurements.filter ((ruleQuery rt rule).MatchesPair rt.regex)) =
        .ok filtered ∧
      Evaluator.eval rt rule measurements = .ok results ∧ filtered.Perm results := by
  obtain ⟨e, hstack, he⟩ := h
  refine ⟨_, _, eval_of_execStack he hstack _, eval_of_execStack he hstack _, ?_⟩
  rw [ruleQuery, hstack]
  exact evalStack_filter he measurements

variable {rules : List String} (hrules : ∀ rule ∈ rules, LeavesRollup rt rule)
include hrules

theorem firstRule_eq (tagsValue : TagsValuePair) :
    firstRule rt tagsValue rules = .ok (firstMatch rt tagsValue (rules.map (ruleQuery rt))) := by
  induction rules with
  | nil => rfl
  | cons rule rules ih =>
    obtain ⟨hrule, hrest⟩ := List.forall_mem_cons.mp hrules
    rw [firstRule, hrule.get_query, List.map_cons, firstMatch, List.findIdx?_cons, ih hrest]
    show (if _ then _ else _) = _
    split <;> rfl

theorem measurementsForRule_eq (tagsValues : TagsValuePairs) :
    measurementsForRule rt rules tagsValues =
      .ok (shares rt (rules.map (ruleQuery rt)) tagsValues) := by
  induction tagsValues using List.reverseRecOn with
  | nil =>
    rw [shares_nil, List.length_map]
    rfl
  | append_singleton tagsValues tagsValue ih =>
    rw [measurementsForRule] at ih
    rw [measurementsForRule, List.foldlM_append, ih, shares_concat]
    show (firstRule rt tagsValue rules >>= fun _ => _) >>= pure = _
    rw [firstRule_eq hrules]
    cases firstMatch rt tagsValue (rules.map (ruleQuery rt)) <;> rfl

theorem applyRules_shares (measurements : TagsValuePairs) :
    ∃ results expected,
      applyRules rt rules (shares rt (rules.map (ruleQuery rt)) measurements) = .ok results ∧
      sequentialEval rt rules measurements = .ok expected ∧ results.Perm expected := by
  induction rules generalizing measurements with
  | nil => exact ⟨[], [], rfl, rfl, List.Perm.refl _⟩
  | cons rule rules ih =>
    obtain ⟨hrule, hrest⟩ := List.forall_mem_cons.mp hrules
    obtain ⟨filtered, results, hfiltered, hresults, hperm⟩ := hrule.eval measurements
    obtain ⟨results', expected', happly, hseq, hperm'⟩ :=
      ih hrest (measurements.filter fun m => !(ruleQuery rt rule).MatchesPair rt.regex m)
    refine ⟨filtered ++ results', results ++ expected', ?_, ?_, hperm.append hperm'⟩
    · rw [List.map_cons, shares, applyRules, hfiltered, happly]
      rfl
    · rw [sequentialEval, hrule.get_query, hresults]
      show (do return results ++ (← sequentialEval rt rules _)) = _
      rw [hseq]
      rfl

theorem sequentialEval_nil : sequentialEval rt rules [] = .ok [] := by
  induction rules with
  | nil => rfl
  | cons rule rules ih =>
    obtain ⟨hrule, hrest⟩ := List.forall_mem_cons.mp hrules
    rw [sequentialEval, hrule.get_query]
    show (do return [] ++ (← sequentialEval rt rules [])) = _
    rw [ih hrest]
    rfl

/-- The main measurements are those of the rules one after the other, up to order. No
measurement goes to two rules, and no rule needs those that its query does not match. -/
theorem get_main_measurements_eq_sequential (hne : rules ≠ []) (common_tags : Tags)
    (all_measurements : Measurements) :
    let tagsValues := all_measurements.map fun m => TagsValuePair.from m common_tags
    (∃ main expected,
      get_main_measurements rt rules common_tags all_measurements = .ok main ∧
      sequentialEval rt rules tagsValues = .ok expected ∧ main.result.Perm expected) ∧
    (∃ measurements_for_rule, measurementsForRule rt rules tagsValues = .ok measurements_for_rule ∧
      measurements_for_rule.flatten.Subperm tagsValues) ∧
    ∀ rule ∈ rules, ∀ measurements, ∃ query filtered results,
      Evaluator.get_query rt rule = .ok query ∧
      Evaluator.eval rt rule (measurements.filter (query.MatchesPair rt.regex)) = .ok filtered ∧
      Evaluator.eval rt rule measurements = .ok results ∧ filtered.Perm results := by
  intro tagsValues
  refine ⟨?_, ⟨_, measurementsForRule_eq hrules tagsValues,
    shares_flatten_subperm rt _ tagsValues⟩, ?_⟩
  · cases all_measurements with
    | nil => exact ⟨_, [], rfl, sequentialEval_nil hrules, List.Perm.refl _⟩
    | cons m all_measurements =>
      obtain ⟨results, expected, happly, hseq, hperm⟩ := applyRules_shares hrules tagsValues
      refine ⟨⟨[mainGauge "atlas.client.rawMeasurements" (m :: all_measurements).length,
        mainGauge "atlas.client.mainMeasurements" results.length], results⟩, expected, ?_, hseq,
        hperm⟩
      have hrulesNe : rules.isEmpty = false := List.isEmpty_eq_false_iff.mpr hne
      simp only [get_main_measurements, List.isEmpty_cons, hrulesNe, Bool.false_eq_true, if_false]
      rw [measurementsForRule_eq hrules]
      show (applyRules rt rules (shares rt (rules.map (ruleQuery rt)) tagsValues) >>= _) = _
      rw [happly]
      rfl
  · intro rule hrule measurements
    obtain ⟨filtered, results, hfiltered, hresults, hperm⟩ :=
      (hrules rule hrule).eval measurements
    exact ⟨_, filtered, results, (hrules rule hrule).get_query, hfiltered, hresults, hperm⟩

end Rules

theorem get_main_measurements_two_rules :
    ∃ main expected,
      get_main_measurements plainRuntime ["name,a,:eq,:sum", ":true,:all"] ∅
        [⟨⟨intern_str "a", ∅⟩, 0, .fin 1⟩, ⟨⟨intern_str "b", ∅⟩, 0, .nan⟩] = .ok main ∧
      sequentialEval plainRuntime ["name,a,:eq,:sum", ":true,:all"]
        [.withId ⟨intern_str "a", ∅⟩ ∅ (.fin 1), .withId ⟨intern_str "b", ∅⟩ ∅ .nan] =
          .ok expected ∧
      main.result.Perm expected := by
  refine (get_main_measurements_eq_sequential ?_ (by decide) ∅ _).1
  intro rule hrule
  unfold LeavesRollup Interpreter.execStack Interpreter.Execute
  rcases List.mem_pair.mp hrule with rfl | rfl
  · rw [interpreter.split_eq (by decide)]
    exact ⟨_, rfl, IsRollup.aggregate .SUM (.relop ⟨intern_str "name", intern_str "a", .EQ⟩)⟩
  · rw [interpreter.split_eq (by decide)]
    exact ⟨_, rfl, IsRollup.all .true_⟩

end AtlasNative
