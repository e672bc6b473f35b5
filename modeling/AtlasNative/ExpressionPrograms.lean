import AtlasNative.BooleanPrograms
import AtlasNative.KeepDropTags

/-!
# Postfix programs of data expressions

What the evaluator answers for a program that writes data expressions one after the other
is said without the stack: the measurements that the boolean expressions hold on, the
assignments of values to keys that they realise, and the aggregates over each of them.
-/

namespace AtlasNative

open Context ExactDouble Evaluator Grouping
set_option autoImplicit false

/-- The operand of `:by`, `:keep-tags` and `:drop-tags`. -/
inductive ValueTree where
  | constant (n : PlainToken)
  | query (q : BoolTree)
  | aggregate (a : Aggregate) (q : BoolTree)

/-- An expression of a program; a query or a literal that no word follows has no results. -/
inductive DataTree where
  | value (a : Aggregate) (q : BoolTree)
  | groupBy (e : ValueTree) (keys : Items)
  | keepOrDropTags (keep : Bool) (e : ValueTree) (keys : Items)
  | all (q : BoolTree)
  | query (q : BoolTree)
  | literal (t : PlainToken)

def Word.ofAggregate : Aggregate → Word
  | .COUNT => CountWord
  | .SUM => SumWord
  | .MAX => MaxWord
  | .MIN => MinWord
  | .AVG => AvgWord

/-- A list in parentheses. -/
def Items.listTokens (items : Items) : List StrRef := lparen :: (items.tokens ++ [rparen])

namespace ValueTree

def tokens : ValueTree → List StrRef
  | constant n => [n.ref]
  | query q => q.tokens
  | aggregate a q => q.tokens ++ [(Word.ofAggregate a).token]

/-- What a value tree leaves on the stack. -/
def operand : ValueTree → Expression
  | constant n => .literal n.ref
  | query q => .query q.compile
  | aggregate a q => .value (.aggregate a q.compile)

/-- What `value_expr_from` makes of it, where the constant reads as a number. -/
def compile (rt : Runtime) : ValueTree → Option ValueExpression
  | constant n => (rt.stod n.ref).map .constant
  | query q => some (.aggregate .SUM q.compile)
  | aggregate a q => some (.aggregate a q.compile)

def Reads (rt : Runtime) : ValueTree → Prop
  | constant n => (rt.stod n.ref).isSome
  | _ => True

theorem isSome_compile_iff (rt : Runtime) (e : ValueTree) :
    (e.compile rt).isSome ↔ e.Reads rt := by
  cases e <;> simp [compile, Reads]

end ValueTree

namespace DataTree

def tokens : DataTree → List StrRef
  | value a q => q.tokens ++ [(Word.ofAggregate a).token]
  | groupBy e keys => e.tokens ++ keys.listTokens ++ [Word.GroupByWord.token]
  | keepOrDropTags keep e keys =>
    e.tokens ++ keys.listTokens ++ [(Word.DropKeepTagsWord keep).token]
  | all q => q.tokens ++ [Word.AllWord.token]
  | query q => q.tokens
  | literal t => [t.ref]

def compile (rt : Runtime) : DataTree → Option Expression
  | value a q => some (.value (.aggregate a q.compile))
  | groupBy e keys => (e.compile rt).map fun expr => .results (.groupBy keys.tokens expr)
  | keepOrDropTags keep e keys =>
    (e.compile rt).map fun expr => .results (KeepOrDropTags keys.tokens expr keep)
  | all q => some (.results (.all q.compile))
  | query q => some (.query q.compile)
  | literal t => some (.literal t.ref)

/-- No operand is a constant that `std::stod` throws for. -/
def Reads (rt : Runtime) : DataTree → Prop
  | groupBy e _ => e.Reads rt
  | keepOrDropTags _ e _ => e.Reads rt
  | _ => True

theorem isSome_compile_iff (rt : Runtime) (e : DataTree) :
    (e.compile rt).isSome ↔ e.Reads rt := by
  cases e <;> simp [compile, Reads, ValueTree.isSome_compile_iff]

end DataTree

/-! ### Running the tokens -/

section Run
variable (rt : Runtime) (tokens : List StrRef) (context : Context)

theorem run_lparen :
    (run_tokens rt 0 (lparen :: tokens)).run context =
      (run_tokens rt 1 tokens).run (.list [] :: context) := by
  simp only [run_tokens, if_true]
  rfl

theorem run_rparen :
    (run_tokens rt 1 (rparen :: tokens)).run context = (run_tokens rt 0 tokens).run context := by
  have hne : rparen ≠ lparen := by decide
  simp only [run_tokens, if_neg hne, if_true]

theorem run_list (items : Items) :
    (run_tokens rt 0 (items.listTokens ++ tokens)).run context =
      (run_tokens rt 0 tokens).run (.list items.tokens :: context) := by
  simp only [Items.listTokens, List.cons_append, List.append_assoc, List.nil_append]
  rw [run_lparen, run_items, run_rparen, List.nil_append]

theorem run_aggregate (a : Aggregate) (q : BoolTree) :
    (run_tokens rt 0 (q.tokens ++ (Word.ofAggregate a).token :: tokens)).run context =
      (run_tokens rt 0 tokens).run (.value (.aggregate a q.compile) :: context) := by
  rw [run_tree, run_word]
  cases a <;> rfl

theorem run_valueTree (e : ValueTree) :
    (run_tokens rt 0 (e.tokens ++ tokens)).run context =
      (run_tokens rt 0 tokens).run (e.operand :: context) := by
  cases e with
  | constant n => exact run_literal rt tokens context n
  | query q => exact run_tree rt tokens context q
  | aggregate a q =>
    rw [ValueTree.tokens, List.append_assoc]
    exact run_aggregate rt tokens context a q

theorem run_value_expr_from (e : ValueTree) :
    (value_expr_from rt e.operand).run context =
      match e.compile rt with
      | some expr => .ok (some expr) context
      | none => .error (.logic_error "stod") context := by
  cases e with
  | constant n =>
    rw [ValueTree.operand, ValueTree.compile, value_expr_from]
    cases rt.stod n.ref <;> rfl
  | query q => rfl
  | aggregate a q => rfl

/-- A word that takes a list and a value expression. -/
theorem run_keys_of_operand (e : ValueTree) (f : StringRefs → ValueExpression → MultipleResults)
    (msg : String) (keys : List StrRef) :
    (do_keys rt f msg).run (.list keys :: e.operand :: context) =
      match e.compile rt with
      | some expr => .ok none (.results (f keys expr) :: context)
      | none => .error (.logic_error "stod") context := by
  have hpop : (do_keys rt f msg).run (.list keys :: e.operand :: context) =
      (value_expr_from rt e.operand >>= push_keys f msg (.list keys)).run context := rfl
  rw [hpop, EStateM.run_bind, run_value_expr_from]
  cases e.compile rt <;> rfl

variable {rt} in
theorem run_data {e : DataTree} {x : Expression} (h : e.compile rt = some x) :
    (run_tokens rt 0 (e.tokens ++ tokens)).run context =
      (run_tokens rt 0 tokens).run (x :: context) := by
  cases e with
  | value a q =>
    cases h
    rw [DataTree.tokens, List.append_assoc]
    exact run_aggregate rt tokens context a q
  | groupBy e keys =>
    obtain ⟨expr, hexpr, rfl⟩ := Option.map_eq_some_iff.mp h
    simp only [DataTree.tokens, List.append_assoc]
    rw [run_valueTree, run_list, List.singleton_append, run_word]
    simp only [Word.Execute, run_keys_of_operand, hexpr]
  | keepOrDropTags keep e keys =>
    obtain ⟨expr, hexpr, rfl⟩ := Option.map_eq_some_iff.mp h
    simp only [DataTree.tokens, List.append_assoc]
    rw [run_valueTree, run_list, List.singleton_append, run_word]
    simp only [Word.Execute, run_keys_of_operand, hexpr]
  | all q =>
    cases h
    rw [DataTree.tokens, List.append_assoc, run_tree, List.singleton_append, run_word]
    rfl
  | query q =>
    cases h
    exact run_tree rt tokens context q
  | literal t =>
    cases h
    exact run_literal rt tokens context t

variable {rt} in
theorem run_data_error {e : DataTree} (h : e.compile rt = none) :
    ∃ context', (run_tokens rt 0 (e.tokens ++ tokens)).run context =
      .error (.logic_error "stod") context' := by
  cases e with
  | groupBy e keys =>
    have hexpr := Option.map_eq_none_iff.mp h
    simp only [DataTree.tokens, List.append_assoc]
    rw [run_valueTree, run_list, List.singleton_append, run_word]
    simp only [Word.Execute, run_keys_of_operand, hexpr]
    exact ⟨context, rfl⟩
  | keepOrDropTags keep e keys =>
    have hexpr := Option.map_eq_none_iff.mp h
    simp only [DataTree.tokens, List.append_assoc]
    rw [run_valueTree, run_list, List.singleton_append, run_word]
    simp only [Word.Execute, run_keys_of_operand, hexpr]
    exact ⟨context, rfl⟩
  | _ => cases h

variable {rt} in
/-- A program leaves its expressions on the stack, the last one on top. -/
theorem run_datas {es : List DataTree} {xs : List Expression}
    (h : es.mapM (DataTree.compile rt) = some xs) :
    (run_tokens rt 0 (es.flatMap DataTree.tokens)).run context = .ok none (xs.reverse ++ context) := by
  induction es generalizing xs context with
  | nil =>
    cases h
    rfl
  | cons e es ih =>
    rw [List.mapM_cons, Option.bind_eq_bind, Option.bind_eq_some_iff] at h
    obtain ⟨x, hx, h⟩ := h
    obtain ⟨xs', hxs, hcons⟩ := Option.bind_eq_some_iff.mp h
    cases hcons
    rw [List.flatMap_cons, run_data _ _ hx, ih _ hxs, List.reverse_cons, List.append_assoc,
      List.singleton_append]

variable {rt} in
/-- A constant that does not read as a number ends the run where it is converted. -/
theorem run_datas_error {es : List DataTree} (h : ∃ e ∈ es, ¬ e.Reads rt) :
    ∃ context', (run_tokens rt 0 (es.flatMap DataTree.tokens)).run context =
      .error (.logic_error "stod") context' := by
  induction es generalizing context with
  | nil =>
    obtain ⟨e, he, _⟩ := h
    cases he
  | cons e es ih =>
    rw [List.flatMap_cons]
    cases hx : e.compile rt with
    | none => exact run_data_error _ _ hx
    | some x =>
      rw [run_data _ _ hx]
      apply ih
      obtain ⟨e', he', hreads⟩ := h
      rcases List.mem_cons.mp he' with rfl | he'
      · rw [← DataTree.isSome_compile_iff, hx] at hreads
        exact absurd rfl hreads
      · exact ⟨e', he', hreads⟩

end Run

theorem Items.isToken_of_mem_listTokens (items : Items) :
    ∀ t ∈ items.listTokens, isToken t = true := by
  have hparens : isToken lparen = true ∧ isToken rparen = true := by decide
  intro t ht
  simp only [listTokens, List.mem_cons, List.mem_append, List.not_mem_nil, or_false] at ht
  rcases ht with rfl | ht | rfl
  · exact hparens.1
  · exact items.isToken_of_mem t ht
  · exact hparens.2

theorem isToken_append_token {l : List StrRef} (h : ∀ t ∈ l, isToken t = true) (w : Word) :
    ∀ t ∈ l ++ [w.token], isToken t = true := by
  intro t ht
  rcases List.mem_append.mp ht with ht | ht
  · exact h t ht
  · rw [List.mem_singleton.mp ht]
    exact w.isToken_token

theorem ValueTree.isToken_of_mem (e : ValueTree) : ∀ t ∈ e.tokens, isToken t = true := by
  cases e with
  | constant n =>
    intro t ht
    rw [List.mem_singleton.mp ht]
    exact n.token
  | query q => exact q.isToken_of_mem
  | aggregate a q => exact isToken_append_token q.isToken_of_mem _

theorem DataTree.isToken_of_mem (e : DataTree) : ∀ t ∈ e.tokens, isToken t = true := by
  have hkeys : ∀ (e : ValueTree) (keys : Items),
      ∀ t ∈ e.tokens ++ keys.listTokens, isToken t = true := by
    intro e keys t ht
    rcases List.mem_append.mp ht with ht | ht
    · exact e.isToken_of_mem t ht
    · exact keys.isToken_of_mem_listTokens t ht
  cases e with
  | value a q => exact isToken_append_token q.isToken_of_mem _
  | groupBy e keys => exact isToken_append_token (hkeys e keys) _
  | keepOrDropTags keep e keys => exact isToken_append_token (hkeys e keys) _
  | all q => exact isToken_append_token q.isToken_of_mem _
  | query q => exact q.isToken_of_mem
  | literal t =>
    intro t' ht
    rw [List.mem_singleton.mp ht]
    exact t.token

/-! ### Constants and equalities -/

section Constructors
open Query query

theorem not_q_eq_true_iff (q : Query) : not_q q = .true_ ↔ q = .false_ := by
  cases q <;> simp [not_q, IsFalse, IsTrue, GetQueryType]

theorem not_q_eq_false_iff (q : Query) : not_q q = .false_ ↔ q = .true_ := by
  cases q <;> simp [not_q, IsFalse, IsTrue, GetQueryType]

theorem IsTrue_iff (q : Query) : q.IsTrue = true ↔ q = .true_ := by
  cases q <;> simp [IsTrue, GetQueryType]

theorem IsFalse_iff (q : Query) : q.IsFalse = true ↔ q = .false_ := by
  cases q <;> simp [IsFalse, GetQueryType]

theorem and_q_eq_true_iff (q1 q2 : Query) : and_q q1 q2 = .true_ ↔ q1 = .true_ ∧ q2 = .true_ := by
  unfold and_q
  simp only [IsTrue_iff, IsFalse_iff]
  split_ifs <;> simp_all

theorem and_q_eq_false_iff (q1 q2 : Query) :
    and_q q1 q2 = .false_ ↔ q1 = .false_ ∨ q2 = .false_ := by
  unfold and_q
  simp only [IsTrue_iff, IsFalse_iff]
  split_ifs <;> simp_all

theorem or_q_eq_true_iff (q1 q2 : Query) : or_q q1 q2 = .true_ ↔ q1 = .true_ ∨ q2 = .true_ := by
  unfold or_q
  simp only [IsTrue_iff, IsFalse_iff]
  split_ifs <;> simp_all

theorem or_q_eq_false_iff (q1 q2 : Query) :
    or_q q1 q2 = .false_ ↔ q1 = .false_ ∧ q2 = .false_ := by
  unfold or_q
  simp only [IsTrue_iff, IsFalse_iff]
  split_ifs <;> simp_all

theorem false_or_q (q : Query) : or_q .false_ q = q := by
  cases q <;> simp [or_q, IsFalse, IsTrue, GetQueryType]

theorem or_q_false (q : Query) : or_q q .false_ = q := by
  cases q <;> simp [or_q, IsFalse, IsTrue, GetQueryType]

theorem isSome_exactTags_and (q1 q2 : Query) (key : StrRef) :
    ((Query.and_ q1 q2).exactTags.at_ key).isSome =
      ((q1.exactTags.at_ key).isSome || (q2.exactTags.at_ key).isSome) := by
  rw [exactTags, Tags.at_add_all, Option.isSome_or, Bool.or_comm]

/-- Equal queries pin the same keys. -/
theorem isSome_exactTags_congr {q p : Query} (h : q.Equals p = true) (key : StrRef) :
    (q.exactTags.at_ key).isSome = (p.exactTags.at_ key).isSome := by
  induction q, p using Equals.induct with
  | case2 q q' =>
    rw [Equals, decide_eq_true_iff] at h
    rw [h]
  | case9 q1 q2 p1 p2 ih1 ih2 ih3 ih4 =>
    simp only [Equals, Bool.or_eq_true, Bool.and_eq_true] at h
    rw [isSome_exactTags_and, isSome_exactTags_and]
    rcases h with ⟨h1, h2⟩ | ⟨h1, h2⟩
    · rw [ih1 h1, ih2 h2]
    · rw [ih3 h1, ih4 h2, Bool.or_comm]
  | case10 q p h1 h2 h3 h4 h5 h6 h7 h8 h9 =>
    rw [Equals.eq_10 q p h1 h2 h3 h4 h5 h6 h7 h8 h9] at h
    contradiction
  | _ => rfl

theorem isSome_exactTags_and_q {q1 q2 : Query} (h1 : q1 ≠ .false_) (h2 : q2 ≠ .false_)
    (key : StrRef) :
    ((and_q q1 q2).exactTags.at_ key).isSome =
      ((q1.exactTags.at_ key).isSome || (q2.exactTags.at_ key).isSome) := by
  unfold and_q
  rw [if_neg (by rwa [IsFalse_iff]), if_neg (by rwa [IsFalse_iff])]
  split_ifs with ht1 ht2 heq hexp
  · rw [(IsTrue_iff q1).mp ht1]
    simp [exactTags, Tags.at_empty]
  · rw [(IsTrue_iff q2).mp ht2]
    simp [exactTags, Tags.at_empty]
  · rw [← isSome_exactTags_congr heq, Bool.or_self]
  · rw [isSome_exactTags_and, Bool.or_comm]
  · exact isSome_exactTags_and q1 q2 key

end Constructors

namespace BoolTree

/-- `and_` of two truth values that may be open is absorbed by `false`, `or_` by `true`. -/
def absorb (b : Bool) (c1 c2 : Option Bool) : Option Bool :=
  if c1 = some b ∨ c2 = some b then some b else if c1 = some (!b) then c2 else none

/-- The truth value of an expression that the constants in it settle. -/
def constant : BoolTree → Option Bool
  | true_ => some true
  | false_ => some false
  | not_ t => t.constant.map not
  | and_ t1 t2 => absorb false t1.constant t2.constant
  | or_ t1 t2 => absorb true t1.constant t2.constant
  | _ => none

/-- An equality that stands as a conjunct, or in a disjunct next to a constant `false`. -/
def Asks (key value : StrRef) : BoolTree → Prop
  | rel .EQ k v => k.ref = key ∧ v.ref = value
  | and_ t1 t2 => t1.Asks key value ∨ t2.Asks key value
  | or_ t1 t2 =>
    (t1.constant = some false ∧ t2.Asks key value) ∨
      (t2.constant = some false ∧ t1.Asks key value)
  | _ => False

/-- The smart constructors settle what `constant` says, and nothing else. -/
theorem compile_of_constant (q : BoolTree) :
    (q.compile = .true_ ↔ q.constant = some true) ∧
      (q.compile = .false_ ↔ q.constant = some false) := by
  induction q with
  | not_ t ih =>
    rw [compile, constant, not_q_eq_true_iff, not_q_eq_false_iff, ih.1, ih.2]
    cases t.constant <;> simp
  | and_ t1 t2 ih1 ih2 =>
    rw [compile, constant, and_q_eq_true_iff, and_q_eq_false_iff, ih1.1, ih1.2, ih2.1, ih2.2]
    rcases t1.constant with _ | _ | _ <;> rcases t2.constant with _ | _ | _ <;> decide
  | or_ t1 t2 ih1 ih2 =>
    rw [compile, constant, or_q_eq_true_iff, or_q_eq_false_iff, ih1.1, ih1.2, ih2.1, ih2.2]
    rcases t1.constant with _ | _ | _ <;> rcases t2.constant with _ | _ | _ <;> decide
  | _ => simp [compile, constant]

theorem holds_of_constant (regex : RegexOracle) (tags : Tags) {q : BoolTree} {b : Bool}
    (h : q.constant = some b) : q.Holds regex tags ↔ b = true := by
  rw [← Matches_compile]
  cases b with
  | true =>
    rw [q.compile_of_constant.1.mpr h]
    exact iff_of_true rfl rfl
  | false =>
    rw [q.compile_of_constant.2.mpr h]
    exact iff_of_false Bool.false_ne_true Bool.false_ne_true

/-- What an expression asks for is pinned by its query, unless that is `false`. -/
theorem isSome_exactTags_of_asks {q : BoolTree} {key value : StrRef} (h : q.Asks key value)
    (hfalse : q.constant ≠ some false) : (q.compile.exactTags.at_ key).isSome = true := by
  induction q with
  | rel op k v =>
    cases op with
    | EQ =>
      obtain ⟨rfl, rfl⟩ := h
      simp [compile, Query.exactTags, Tags.at_add]
    | _ => exact h.elim
  | and_ t1 t2 ih1 ih2 =>
    have hne1 : t1.constant ≠ some false := by
      intro h1
      exact hfalse (by rw [constant, h1]; rfl)
    have hne2 : t2.constant ≠ some false := by
      intro h2
      exact hfalse (by rw [constant, absorb, if_pos (Or.inr h2)])
    rw [compile, isSome_exactTags_and_q (mt t1.compile_of_constant.2.mp hne1)
      (mt t2.compile_of_constant.2.mp hne2), Bool.or_eq_true]
    exact h.imp (fun h => ih1 h hne1) (fun h => ih2 h hne2)
  | or_ t1 t2 ih1 ih2 =>
    rcases h with ⟨hconst, h⟩ | ⟨hconst, h⟩
    · have hne : t2.constant ≠ some false := by
        intro h2
        exact hfalse (by rw [constant, hconst, h2]; rfl)
      rw [compile, t1.compile_of_constant.2.mpr hconst, false_or_q]
      exact ih2 h hne
    · have hne : t1.constant ≠ some false := by
        intro h1
        exact hfalse (by rw [constant, hconst, h1]; rfl)
      rw [compile, t2.compile_of_constant.2.mpr hconst, or_q_false]
      exact ih1 h hne
  | _ => exact h.elim

theorem at_of_asks {regex : RegexOracle} {tags : Tags} {q : BoolTree} {key value : StrRef}
    (h : q.Asks key value) (hholds : q.Holds regex tags) : tags.at_ key = some value := by
  induction q with
  | rel op k v =>
    cases op with
    | EQ =>
      obtain ⟨rfl, rfl⟩ := h
      exact hholds
    | _ => exact h.elim
  | and_ t1 t2 ih1 ih2 => exact h.elim (fun h => ih1 h hholds.1) (fun h => ih2 h hholds.2)
  | or_ t1 t2 ih1 ih2 =>
    rcases h with ⟨hconst, h⟩ | ⟨hconst, h⟩
    · refine ih2 h (hholds.resolve_left fun hfalse => ?_)
      cases (holds_of_constant regex tags hconst).mp hfalse
    · refine ih1 h (hholds.resolve_right fun hfalse => ?_)
      cases (holds_of_constant regex tags hconst).mp hfalse
  | _ => exact h.elim

end BoolTree

/-! ### What the expressions mean -/

instance BoolTree.decidableHolds (regex : RegexOracle) (tags : Tags) (q : BoolTree) :
    Decidable (q.Holds regex tags) :=
  decidable_of_iff _ (q.Matches_compile regex tags)

section Meaning
variable (rt : Runtime)

/-- The values of the measurements that `q` holds on. -/
def readings (q : BoolTree) (measurements : TagsValuePairs) : List Double :=
  (measurements.filter fun m => m.value.isnan = false ∧ q.Holds rt.regex m.all_tags).map
    TagsValuePair.value

/-- The tags that the results of `q` carry: those that its equalities ask for, and none
that a tag map it holds on does not have. -/
structure BoolTree.Pins (q : BoolTree) (tags : Tags) : Prop where
  asked : ∀ tags', q.Holds rt.regex tags' → ∀ key value, q.Asks key value →
    tags.at_ key = some value
  shared : ∀ tags', q.Holds rt.regex tags' → ∀ key value, tags.at_ key = some value →
    tags'.at_ key = some value

namespace ValueTree

def Pins : ValueTree → Tags → Prop
  | constant _, tags => tags = ∅
  | query q, tags => q.Pins rt tags
  | aggregate _ q, tags => q.Pins rt tags

/-- The value over some measurements, NaN where there is none. -/
def valueOver : ValueTree → TagsValuePairs → Double
  | constant n, _ => (rt.stod n.ref).getD .nan
  | query q, measurements => aggregateValues (readings rt q measurements) .SUM
  | aggregate a q, measurements => aggregateValues (readings rt q measurements) a

end ValueTree

open Classical in
/-- One result for each group that some measurement is in and that has a value. -/
def GroupedResults (isGroup : TagsValuePair → Tags → Prop) (value : TagsValuePairs → Double)
    (result_tags : Tags → Tags) (measurements results : TagsValuePairs) : Prop :=
  ∃ gs : List Tags, gs.Nodup ∧
    (∀ g, g ∈ gs ↔ (∃ m ∈ measurements, isGroup m g) ∧
      value (measurements.filter (isGroup · g)) ≠ .nan) ∧
    results = gs.map fun g => .of (result_tags g) (value (measurements.filter (isGroup · g)))

/-- What an expression answers over a list of measurements. -/
def DataTree.Means (measurements : TagsValuePairs) : DataTree → TagsValuePairs → Prop
  | value a q, results =>
    ∃ tags, q.Pins rt tags ∧
      results = if aggregateValues (readings rt q measurements) a = .nan then []
        else [.of tags (aggregateValues (readings rt q measurements) a)]
  | groupBy e keys, results =>
    ∃ tags, e.Pins rt tags ∧
      GroupedResults (Realises keys.tokens) (e.valueOver rt) (fun g => g.add_all tags)
        measurements results
  | keepOrDropTags keep e keys, results =>
    GroupedResults (fun m g => Counted keys.tokens keep m ∧ IsGroupOf keys.tokens keep m g)
      (e.valueOver rt) id measurements results
  | all q, results =>
    results = measurements.filter fun m =>
      (q.constant = some true ∨ m.value.isnan = false) ∧ q.Holds rt.regex m.all_tags
  | query _, results => results = []
  | literal _, results => results = []

variable {rt} {measurements : TagsValuePairs}

theorem MatchesPair_compile (q : BoolTree) (m : TagsValuePair) :
    q.compile.MatchesPair rt.regex m = true ↔ q.Holds rt.regex m.all_tags := by
  have hlookup : m.get_value = m.all_tags.at_ := funext m.get_value_eq
  rw [← q.Matches_compile, Query.MatchesPair, hlookup]
  rfl

theorem matchingValues_compile (q : BoolTree) :
    matchingValues rt q.compile measurements = readings rt q measurements := by
  rw [matchingValues, readings]
  congr 1
  apply List.filter_congr
  intro m _
  rw [Bool.eq_iff_iff, Bool.and_eq_true, MatchesPair_compile, Bool.not_eq_true', decide_eq_true_iff]

theorem BoolTree.pins_exactTags (q : BoolTree) : q.Pins rt q.compile.exactTags := by
  have hshared : ∀ tags', q.Holds rt.regex tags' → ∀ key value,
      q.compile.exactTags.at_ key = some value → tags'.at_ key = some value := by
    intro tags' hholds key value hkey
    have hmatch : q.compile.MatchesPair rt.regex (.of tags' .nan) = true := by
      rw [MatchesPair_compile]
      exact hholds
    have hvalue := Query.exactTags_of_MatchesPair hmatch hkey
    rwa [TagsValuePair.get_value_eq] at hvalue
  refine ⟨?_, hshared⟩
  intro tags' hholds key value hasks
  have hfalse : q.constant ≠ some false := fun hconst =>
    absurd ((q.holds_of_constant rt.regex tags' hconst).mp hholds) (by decide)
  obtain ⟨value', hvalue⟩ :=
    Option.isSome_iff_exists.mp (q.isSome_exactTags_of_asks hasks hfalse)
  have hsame := (hshared tags' hholds key value' hvalue).symm.trans (q.at_of_asks hasks hholds)
  rw [hvalue, hsame]

/-- What the code evaluates is the value over the measurements, with the pinned tags. -/
theorem ValueTree.apply_compile {e : ValueTree} {expr : ValueExpression}
    (h : e.compile rt = some expr) :
    ∃ tags, e.Pins rt tags ∧ ∀ measurements,
      expr.Apply rt measurements = .of tags (e.valueOver rt measurements) := by
  cases e with
  | constant n =>
    obtain ⟨x, hx, rfl⟩ := Option.map_eq_some_iff.mp h
    refine ⟨∅, rfl, fun measurements => ?_⟩
    rw [valueOver, hx]
    rfl
  | query q =>
    cases h
    refine ⟨_, q.pins_exactTags, fun measurements => ?_⟩
    rw [valueOver, ← matchingValues_compile, ← aggregate_af_eq]
    rfl
  | aggregate a q =>
    cases h
    refine ⟨_, q.pins_exactTags, fun measurements => ?_⟩
    rw [valueOver, ← matchingValues_compile, ← aggregate_af_eq]
    rfl

/-- The loop over the groups of a hash table answers one result for each of them. -/
theorem groupedResults_groupResults {expr : ValueExpression} {tags : Tags}
    {value : TagsValuePairs → Double} (h : ∀ l, expr.Apply rt l = .of tags (value l))
    {vals : TagsValuePair → Option Tags} {isGroup : TagsValuePair → Tags → Prop}
    (hvals : ∀ m g, vals m = some g ↔ isGroup m g) {result_tags : Tags → TagsValuePair → Tags}
    {label : Tags → Tags} (hlabel : ∀ g v, result_tags g (.of tags v) = label g) :
    GroupedResults isGroup value label measurements
      (groupResults rt expr result_tags (grouped rt vals measurements)) := by
  classical
  have hmembers : ∀ g, members vals measurements g = measurements.filter (isGroup · g) := by
    intro g
    apply List.filter_congr
    intro m _
    rw [Bool.eq_iff_iff, decide_eq_true_iff, decide_eq_true_iff]
    exact hvals m g
  refine ⟨liveGroups rt expr vals measurements, nodup_liveGroups, fun g => ?_, ?_⟩
  · rw [mem_liveGroups, h, TagsValuePair.value_of, hmembers, Double.isnan_eq_false_iff]
    simp only [hvals]
  · rw [groupResults_eq_map]
    apply List.map_congr_left
    intro g _
    rw [h, TagsValuePair.value_of, hlabel, hmembers]

/-- What is evaluated for an expression on the stack is what the expression means. -/
theorem DataTree.means_evalStack {e : DataTree} {x : Expression} (h : e.compile rt = some x) :
    e.Means rt measurements (evalStack rt measurements [x]) := by
  cases e with
  | value a q =>
    cases h
    have hexpr : (ValueTree.aggregate a q).compile rt = some _ := rfl
    obtain ⟨tags, hpins, happly⟩ := ValueTree.apply_compile hexpr
    refine ⟨tags, hpins, ?_⟩
    rw [evalStack_value, SingletonValueExpr.Apply, happly, ValueTree.valueOver]
    simp only [TagsValuePair.value_of, TagsValuePair.all_tags_of, ← Double.eq_nan_iff]
  | groupBy e keys =>
    obtain ⟨expr, hexpr, rfl⟩ := Option.map_eq_some_iff.mp h
    obtain ⟨tags, hpins, happly⟩ := ValueTree.apply_compile hexpr
    refine ⟨tags, hpins, ?_⟩
    rw [evalStack_results, MultipleResults.Apply, GroupBy.Apply]
    exact groupedResults_groupResults happly (fun _ _ => group_by_vals_eq_some_iff)
      fun _ _ => rfl
  | keepOrDropTags keep e keys =>
    obtain ⟨expr, hexpr, rfl⟩ := Option.map_eq_some_iff.mp h
    obtain ⟨tags, _, happly⟩ := ValueTree.apply_compile hexpr
    rw [evalStack_results, KeepOrDropTags_Apply_eq]
    exact groupedResults_groupResults happly (fun _ _ => groupVals_eq_some_iff) fun _ _ => rfl
  | all q =>
    cases h
    rw [evalStack_results, MultipleResults.Apply, All.Apply, Means]
    have hkind : q.compile.GetQueryType = .True ↔ q.constant = some true := by
      rw [← q.compile_of_constant.1]
      cases q.compile <;> simp [Query.GetQueryType]
    by_cases htrue : q.constant = some true
    · have hholds : ∀ m : TagsValuePair, q.Holds rt.regex m.all_tags := fun m =>
        (q.holds_of_constant rt.regex m.all_tags htrue).mpr rfl
      rw [if_pos (hkind.mpr htrue), eq_comm, List.filter_eq_self]
      intro m _
      exact decide_eq_true ⟨.inl htrue, hholds m⟩
    · rw [if_neg fun h => htrue (hkind.mp h)]
      apply List.filter_congr
      intro m _
      rw [Bool.eq_iff_iff, Bool.and_eq_true, Bool.not_eq_true', MatchesPair_compile,
        decide_eq_true_iff, or_iff_right htrue]
  | query q =>
    cases h
    rfl
  | literal t =>
    cases h
    rfl

theorem GroupedResults.eq_nil {isGroup : TagsValuePair → Tags → Prop}
    {value : TagsValuePairs → Double} {label : Tags → Tags} {results : TagsValuePairs}
    (h : GroupedResults isGroup value label [] results) : results = [] := by
  obtain ⟨gs, _, hgs, rfl⟩ := h
  have hnone : gs = [] := by
    apply List.eq_nil_iff_forall_not_mem.mpr
    intro g hg
    obtain ⟨⟨m, hm, _⟩, _⟩ := (hgs g).mp hg
    cases hm
  rw [hnone, List.map_nil]

/-- Over no measurements there is nothing to answer. -/
theorem DataTree.Means.eq_nil {e : DataTree} {results : TagsValuePairs}
    (h : e.Means rt [] results) : results = [] := by
  cases e with
  | value a q =>
    obtain ⟨tags, _, rfl⟩ := h
    have hnan : aggregateValues (readings rt q []) a = .nan := by
      rw [← matchingValues_compile, ← aggregate_af_eq, aggregate_af_nil]
    rw [if_pos hnan]
  | groupBy e keys =>
    obtain ⟨tags, _, hgrouped⟩ := h
    exact hgrouped.eq_nil
  | keepOrDropTags keep e keys => exact GroupedResults.eq_nil h
  | all q => exact h
  | query q => exact h
  | literal t => exact h

theorem evalStack_empty {es : List DataTree} {xs : List Expression}
    (h : List.Forall₂ (fun e x => DataTree.compile rt e = some x) es xs) :
    evalStack rt [] xs = [] := by
  induction h with
  | nil => rfl
  | @cons e x es xs hx _ ih =>
    have hsplit : evalStack rt [] (x :: xs) = evalStack rt [] [x] ++ evalStack rt [] xs := by
      rw [evalStack, evalStack, evalStack, List.flatMap_cons, List.flatMap_singleton]
    rw [hsplit, (e.means_evalStack hx).eq_nil, ih, List.append_nil]

theorem DataTree.mapM_compile {es : List DataTree} (h : ∀ e ∈ es, e.Reads rt) :
    ∃ xs, es.mapM (DataTree.compile rt) = some xs ∧
      List.Forall₂ (fun e x => DataTree.compile rt e = some x) es xs := by
  induction es with
  | nil => exact ⟨[], rfl, .nil⟩
  | cons e es ih =>
    obtain ⟨hreads, hrest⟩ := List.forall_mem_cons.mp h
    obtain ⟨x, hx⟩ := Option.isSome_iff_exists.mp ((e.isSome_compile_iff rt).mpr hreads)
    obtain ⟨xs, hxs, hall⟩ := ih hrest
    refine ⟨x :: xs, ?_, .cons hx hall⟩
    rw [List.mapM_cons, hx, hxs]
    rfl

theorem execStack_render (es : List DataTree) (spacing : ℕ → Spacing) (tail : List Blanks)
    (hlength : (render spacing tail (es.flatMap DataTree.tokens)).toList.length < 2 ^ 31) :
    Interpreter.execStack rt (render spacing tail (es.flatMap DataTree.tokens)) =
      match (run_tokens rt 0 (es.flatMap DataTree.tokens)).run [] with
      | .ok _ context => .ok context
      | .error _ _ => .error .exception := by
  have htokens : ∀ t ∈ es.flatMap DataTree.tokens, isToken t = true := by
    intro t ht
    obtain ⟨e, _, he⟩ := List.mem_flatMap.mp ht
    exact e.isToken_of_mem t he
  unfold Interpreter.execStack Interpreter.Execute
  rw [split_render spacing tail _ htokens hlength, ← do_program_zero]
  rfl

def plain (s : String) (h : isToken (intern_str s) = true ∧ intern_str s ≠ lparen ∧
    intern_str s ≠ rparen ∧ Literal.IsWord (intern_str s) = false) : PlainToken where
  ref := intern_str s
  token := h.1
  ne_lparen := h.2.1
  ne_rparen := h.2.2.1
  not_word := h.2.2.2

/-- `name,cpu,:eq,:max` and `1,(,name,),:by`, which counts nothing but the groups. -/
def maxAndOnes : List DataTree :=
  [.value .MAX (.rel .EQ (plain "name" (by decide)) (plain "cpu" (by decide))),
    .groupBy (.constant (plain "1" (by decide))) (.token (plain "name" (by decide)).toItemToken .nil)]

end Meaning

end AtlasNative
