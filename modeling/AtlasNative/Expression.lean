import AtlasNative.Query
import AtlasNative.Lib.Grouping

/-!
# Expressions

What a program can leave on the stack, and the evaluation of the value expressions
and of the expressions with several results over a list of measurements.
-/

namespace AtlasNative

open ExactDouble Grouping
set_option autoImplicit false

/-- What the interpreter is given: regular expressions, `std::stod` (`none` when it
throws), and the order in which it walks over hash tables. -/
structure Runtime where
  regex : RegexOracle
  stod : StrRef → Option Double
  walk : Tags → List (StrRef × StrRef)
  walk_enumerates : ∀ tags, Enumerates (walk tags) tags
  iterate : {α : Type} → List α → List α
  iterate_perm : ∀ {α : Type} (l : List α), (iterate l).Perm l

def plainRuntime : Runtime where
  regex _ _ _ := false
  stod _ := none
  walk := sortedWalk
  walk_enumerates := sortedWalk_enumerates
  iterate l := l
  iterate_perm l := List.Perm.refl l

abbrev StringRefs := List StrRef

abbrev TagsValuePairs := List TagsValuePair

inductive Aggregate where
  | COUNT | SUM | MAX | MIN | AVG
  deriving DecidableEq

inductive ValueExpression where
  | constant (value_ : Double)
  | aggregate (aggregate_ : Aggregate) (filter_ : Query)
  deriving DecidableEq

inductive MultipleResults where
  | all (query_ : Query)
  | groupBy (keys_ : StringRefs) (expr_ : ValueExpression)
  | keepOrDropTags (keys_ : StringRefs) (expr_ : ValueExpression) (keep_ : Bool)
  | singleton (expr_ : ValueExpression)
  deriving DecidableEq

/-- A list only ever holds literals. -/
inductive Expression where
  | literal (s_ref : StrRef)
  | list (list_ : List StrRef)
  | query (q : Query)
  | value (e : ValueExpression)
  | results (e : MultipleResults)
  deriving DecidableEq

section Aggregation
variable (rt : Runtime) (filter : Query) (tagsValuePairs : TagsValuePairs)

/-- The loop of the aggregation functions, over the values that are not NaN and match. -/
def fold_af {β : Type} (f : β → Double → β) (init : β) : β :=
  tagsValuePairs.foldl
    (fun acc m =>
      if !m.value.isnan && filter.MatchesPair rt.regex m then f acc m.value else acc) init

def sum_af : Double :=
  fold_af rt filter tagsValuePairs (fun total v => if total.isnan then v else total + v) .nan

def avg_af : Double :=
  let acc := fold_af rt filter tagsValuePairs
    (fun (acc : Double × ℕ) v =>
      (if acc.1.isnan then v else acc.1 + v, acc.2 + 1)) (.nan, 0)
  if acc.2 > 0 then acc.1.divBy acc.2 else .nan

def count_af : Double :=
  let count := fold_af rt filter tagsValuePairs (fun (count : ℕ) _ => count + 1) 0
  if count > 0 then .fin count else .nan

def min_af : Double :=
  let mn := fold_af rt filter tagsValuePairs Double.stdMin Double.maxFinite
  if mn = Double.maxFinite then .nan else mn

def max_af : Double :=
  let mx := fold_af rt filter tagsValuePairs Double.stdMax Double.lowest
  if mx = Double.lowest then .nan else mx

def aggregate_af : Aggregate → Double
  | .SUM => sum_af rt filter tagsValuePairs
  | .COUNT => count_af rt filter tagsValuePairs
  | .AVG => avg_af rt filter tagsValuePairs
  | .MIN => min_af rt filter tagsValuePairs
  | .MAX => max_af rt filter tagsValuePairs

variable {rt filter tagsValuePairs}

/-- The aggregation functions look at the measurements that match only. -/
theorem fold_af_filter {β : Type} (f : β → Double → β) (init : β) :
    fold_af rt filter (tagsValuePairs.filter (filter.MatchesPair rt.regex)) f init =
      fold_af rt filter tagsValuePairs f init := by
  rw [fold_af, List.foldl_filter, fold_af]
  congr 1
  funext acc m
  cases filter.MatchesPair rt.regex m <;> simp

theorem aggregate_af_filter (a : Aggregate) :
    aggregate_af rt filter (tagsValuePairs.filter (filter.MatchesPair rt.regex)) a =
      aggregate_af rt filter tagsValuePairs a := by
  cases a <;>
    simp only [aggregate_af, sum_af, count_af, avg_af, min_af, max_af, fold_af_filter]

theorem aggregate_af_nil (a : Aggregate) : aggregate_af rt filter [] a = .nan := by
  cases a <;>
    simp [aggregate_af, sum_af, count_af, avg_af, min_af, max_af, fold_af]

end Aggregation

namespace ValueExpression

def Apply (rt : Runtime) (measurements : TagsValuePairs) : ValueExpression → TagsValuePair
  | constant value => .of ∅ value
  | aggregate a filter => .of filter.exactTags (aggregate_af rt filter measurements a)

def GetQuery : ValueExpression → Query
  | constant _ => .false_
  | aggregate _ filter => filter

end ValueExpression

section Grouped
variable (rt : Runtime)

/-- The values of the keys, unless one of them is missing. -/
def group_by_vals (keys : StringRefs) (tagsValuePair : TagsValuePair) : Option Tags :=
  keys.foldlM (fun tags key => (tagsValuePair.get_value key).map (tags.add key)) ∅

/-- All tag keys that are not in the set of keys to be dropped, and the name. -/
def drop_keys (tags : Tags) (keys : StringRefs) : StringRefs :=
  name_ref :: ((rt.walk tags).map Prod.fst).filter fun key =>
    key ≠ name_ref && !decide (key ∈ keys)

/-- The `grouped` map of `Apply`, for the tags that a measurement is grouped under. -/
def grouped (vals : TagsValuePair → Option Tags) (measurements : TagsValuePairs) :
    List (Tags × TagsValuePairs) :=
  rt.iterate (ofPairs (measurements.filterMap fun tv => (vals tv).map fun tags => (tags, tv)))

/-- The loop over `grouped` that drops the groups whose value is NaN. -/
def groupResults (expr : ValueExpression) (result_tags : Tags → TagsValuePair → Tags)
    (groups : List (Tags × TagsValuePairs)) : TagsValuePairs :=
  groups.filterMap fun entry =>
    let expr_results := expr.Apply rt entry.2
    if expr_results.value.isnan then none
    else some (.of (result_tags entry.1 expr_results) expr_results.value)

def GroupBy.Apply (keys : StringRefs) (expr : ValueExpression) (measurements : TagsValuePairs) :
    TagsValuePairs :=
  groupResults rt expr (fun tags expr_results => tags.add_all expr_results.all_tags)
    (grouped rt (group_by_vals keys) measurements)

def KeepOrDropTags.Apply (keys : StringRefs) (expr : ValueExpression) (keep : Bool)
    (measurements : TagsValuePairs) : TagsValuePairs :=
  groupResults rt expr (fun tags _ => tags)
    (grouped rt
      (fun tv => group_by_vals (if keep then keys else drop_keys rt tv.all_tags keys) tv)
      measurements)

def All.Apply (q : Query) (measurements : TagsValuePairs) : TagsValuePairs :=
  if q.GetQueryType = .True then measurements
  else measurements.filter fun m => !m.value.isnan && q.MatchesPair rt.regex m

def SingletonValueExpr.Apply (expr : ValueExpression) (measurements : TagsValuePairs) :
    TagsValuePairs :=
  let expr_result := expr.Apply rt measurements
  if expr_result.value.isnan then [] else [.of expr_result.all_tags expr_result.value]

omit rt in
theorem bucket_grouped (vals : TagsValuePair → Option Tags) (measurements : TagsValuePairs)
    (tags : Tags) :
    bucket tags (measurements.filterMap fun tv => (vals tv).map fun tags => (tags, tv)) =
      measurements.filter fun tv => vals tv = some tags := by
  induction measurements with
  | nil => rfl
  | cons tv measurements ih =>
    cases hv : vals tv with
    | none => simpa [hv] using ih
    | some tags' =>
      rw [List.filterMap_cons_some (by rw [hv]; rfl), ← List.singleton_append, bucket_append, ih,
        bucket_singleton]
      by_cases htags : tags' = tags <;> simp [hv, htags]

end Grouped

/-- The constructor of `KeepOrDropTags`, which keeps the name with the other keys. -/
def KeepOrDropTags (keys : StringRefs) (expr : ValueExpression) (keep : Bool) :
    MultipleResults :=
  if keep && !decide (name_ref ∈ keys) then .keepOrDropTags (keys ++ [name_ref]) expr keep
  else .keepOrDropTags keys expr keep

namespace MultipleResults

def Apply (rt : Runtime) (measurements : TagsValuePairs) : MultipleResults → TagsValuePairs
  | all q => All.Apply rt q measurements
  | groupBy keys expr => GroupBy.Apply rt keys expr measurements
  | keepOrDropTags keys expr keep => KeepOrDropTags.Apply rt keys expr keep measurements
  | singleton expr => SingletonValueExpr.Apply rt expr measurements

def GetQuery : MultipleResults → Query
  | all q => q
  | groupBy _ expr => expr.GetQuery
  | keepOrDropTags _ expr _ => expr.GetQuery
  | singleton expr => expr.GetQuery

end MultipleResults

/-- `nullptr` for anything that is no expression with results. -/
def GetMultipleResultsExpr : Expression → Option MultipleResults
  | .results e => some e
  | .value e => some (.singleton e)
  | _ => none

end AtlasNative
