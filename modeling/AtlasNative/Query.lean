import AtlasNative.Tags

/-!
# Queries

The query classes with `Matches`, `Equals` and `Tags`, and the helper functions
that build queries while dropping constants and equal operands. A regular
expression is whatever `pcre_exec` says about a pattern, its case flag and a value.
-/

namespace AtlasNative

set_option autoImplicit false

/-- Whether a value matches a pattern, given the pattern's text and `ignore_case`. -/
abbrev RegexOracle := String → Bool → StrRef → Bool

inductive QueryType where
  | HasKey | RelOp | Regex | In | True | False | Not | Or | And
  deriving DecidableEq

inductive RelOp where
  | GT | LT | GE | LE | EQ
  deriving DecidableEq

structure RelopQuery where
  key_ref_ : StrRef
  value_ref_ : StrRef
  op_ : RelOp
  deriving DecidableEq

inductive Query where
  | hasKey (key_ref_ : StrRef)
  | relop (q : RelopQuery)
  | regex (key_ref_ : StrRef) (str_pattern : String) (ignore_case_ : Bool)
  | in_ (key_ref_ : StrRef) (vs_ : List StrRef)
  | true_
  | false_
  | not_ (query_ : Query)
  | or_ (q1_ q2_ : Query)
  | and_ (q1_ q2_ : Query)
  deriving DecidableEq

/-- `RelopQuery::do_query` on a value that may be missing -/
def do_query (cur_value : Option StrRef) (v : StrRef) (op : RelOp) : Bool :=
  match cur_value with
  | none => false
  | some cur =>
    match op with
    | .EQ => decide (cur = v)
    | .LE => decide (cur ≤ v)
    | .LT => decide (cur < v)
    | .GE => decide (v ≤ cur)
    | .GT => decide (v < cur)

namespace Query

def GetQueryType : Query → QueryType
  | .hasKey _ => .HasKey
  | .relop _ => .RelOp
  | .regex _ _ _ => .Regex
  | .in_ _ _ => .In
  | .true_ => .True
  | .false_ => .False
  | .not_ _ => .Not
  | .or_ _ _ => .Or
  | .and_ _ _ => .And

def IsFalse (q : Query) : Bool := q.GetQueryType = .False

def IsTrue (q : Query) : Bool := q.GetQueryType = .True

/-- The two `Matches` overloads, which differ only in where values are looked up. -/
def MatchesWith (regex : RegexOracle) (get_value : StrRef → Option StrRef) : Query → Bool
  | .hasKey k => (get_value k).isSome
  | .relop q => do_query (get_value q.key_ref_) q.value_ref_ q.op_
  | .regex k pattern ignore_case => (get_value k).any (regex pattern ignore_case)
  | .in_ k vs => (get_value k).any fun value => vs.any fun s => decide (value = s)
  | .true_ => true
  | .false_ => false
  | .not_ q => !q.MatchesWith regex get_value
  | .or_ q1 q2 => q1.MatchesWith regex get_value || q2.MatchesWith regex get_value
  | .and_ q1 q2 => q1.MatchesWith regex get_value && q2.MatchesWith regex get_value

/-- `Query::Matches(const meter::Tags&)` -/
def Matches (regex : RegexOracle) (tags : Tags) (q : Query) : Bool :=
  q.MatchesWith regex tags.at_

/-- `Query::Matches(const TagsValuePair&)` -/
def MatchesPair (regex : RegexOracle) (tv : TagsValuePair) (q : Query) : Bool :=
  q.MatchesWith regex fun k => tv.get_value k

/-- `Query::Tags`: the tags an `:eq` pins down, through conjunctions. -/
def exactTags : Query → Tags
  | .relop q => if q.op_ = .EQ then Tags.add ∅ q.key_ref_ q.value_ref_ else ∅
  | .and_ q1 q2 => q1.exactTags.add_all q2.exactTags
  | _ => ∅

/-- `this->Equals(query)`; conjunctions and disjunctions compare up to swapping. -/
def Equals : Query → Query → Bool
  | .hasKey k, .hasKey k' => decide (k = k')
  | .relop q, .relop q' => decide (q = q')
  | .regex k p i, .regex k' p' i' => decide (k = k') && decide (i = i') && decide (p = p')
  | .in_ k vs, .in_ k' vs' => decide (k = k') && decide (vs = vs')
  | .true_, .true_ => true
  | .false_, .false_ => true
  | .not_ q, .not_ q' => q.Equals q'
  | .or_ q1 q2, .or_ p1 p2 =>
    (p1.Equals q1 && p2.Equals q2) || (p2.Equals q1 && p1.Equals q2)
  | .and_ q1 q2, .and_ p1 p2 =>
    (p1.Equals q1 && p2.Equals q2) || (p1.Equals q2 && p2.Equals q1)
  | _, _ => false
termination_by q p => sizeOf q + sizeOf p

theorem MatchesWith_congr (regex : RegexOracle) (get_value : StrRef → Option StrRef)
    {q p : Query} (h : q.Equals p = true) :
    q.MatchesWith regex get_value = p.MatchesWith regex get_value := by
  induction q, p using Equals.induct with
  | case1 | case2 => simp_all [Equals]
  | case3 k p i k' p' i' =>
    simp only [Equals, Bool.and_eq_true, decide_eq_true_eq] at h
    obtain ⟨⟨rfl, rfl⟩, rfl⟩ := h
    rfl
  | case4 k vs k' vs' =>
    simp only [Equals, Bool.and_eq_true, decide_eq_true_eq] at h
    obtain ⟨rfl, rfl⟩ := h
    rfl
  | case5 | case6 => rfl
  | case7 q q' ih =>
    simp only [Equals] at h
    simp only [MatchesWith, ih h]
  | case8 q1 q2 p1 p2 ih1 ih2 ih3 ih4 =>
    simp only [Equals, Bool.or_eq_true, Bool.and_eq_true] at h
    simp only [MatchesWith]
    rcases h with ⟨h1, h2⟩ | ⟨h1, h2⟩
    · rw [ih1 h1, ih2 h2]
    · rw [ih3 h1, ih4 h2, Bool.or_comm]
  | case9 q1 q2 p1 p2 ih1 ih2 ih3 ih4 =>
    simp only [Equals, Bool.or_eq_true, Bool.and_eq_true] at h
    simp only [MatchesWith]
    rcases h with ⟨h1, h2⟩ | ⟨h1, h2⟩
    · rw [ih1 h1, ih2 h2]
    · rw [ih3 h1, ih4 h2, Bool.and_comm]
  | case10 q p h1 h2 h3 h4 h5 h6 h7 h8 h9 =>
    rw [Equals.eq_10 q p h1 h2 h3 h4 h5 h6 h7 h8 h9] at h
    contradiction

/-- `Regex`, `And` and `Or` are tried last. -/
def isExpensive (q : Query) : Bool :=
  q.GetQueryType = .Regex || q.GetQueryType = .And || q.GetQueryType = .Or

end Query

namespace query

open Query

def not_q (q : Query) : Query :=
  if q.IsFalse then .true_
  else if q.IsTrue then .false_
  else .not_ q

def or_q (q1 q2 : Query) : Query :=
  if q1.IsTrue then q1
  else if q2.IsTrue then q2
  else if q1.IsFalse then q2
  else if q2.IsFalse then q1
  else if q1.Equals q2 then q1
  else if q1.isExpensive then .or_ q2 q1
  else .or_ q1 q2

def and_q (q1 q2 : Query) : Query :=
  if q1.IsFalse then q1
  else if q2.IsFalse then q2
  else if q1.IsTrue then q2
  else if q2.IsTrue then q1
  else if q1.Equals q2 then q1
  else if q1.isExpensive then .and_ q2 q1
  else .and_ q1 q2

def and_queries (queries : List Query) : Query := queries.foldl and_q .true_

section Matches
variable (regex : RegexOracle) (get_value : StrRef → Option StrRef)

theorem eq_false_of_IsFalse {q : Query} (h : q.IsFalse = true) : q = .false_ := by
  cases q <;> simp_all [IsFalse, GetQueryType]

theorem eq_true_of_IsTrue {q : Query} (h : q.IsTrue = true) : q = .true_ := by
  cases q <;> simp_all [IsTrue, GetQueryType]

@[simp] theorem MatchesWith_not_q (q : Query) :
    (not_q q).MatchesWith regex get_value = !q.MatchesWith regex get_value := by
  unfold not_q
  split
  · rename_i h
    rw [eq_false_of_IsFalse h]
    rfl
  · split
    · rename_i h
      rw [eq_true_of_IsTrue h]
      rfl
    · rfl

@[simp] theorem MatchesWith_or_q (q1 q2 : Query) :
    (or_q q1 q2).MatchesWith regex get_value =
      (q1.MatchesWith regex get_value || q2.MatchesWith regex get_value) := by
  unfold or_q
  split_ifs with h1 h2 h3 h4 h5 h6
  · rw [eq_true_of_IsTrue h1]
    rfl
  · rw [eq_true_of_IsTrue h2]
    simp [MatchesWith]
  · rw [eq_false_of_IsFalse h3]
    simp [MatchesWith]
  · rw [eq_false_of_IsFalse h4]
    simp [MatchesWith]
  · rw [← MatchesWith_congr regex get_value h5, Bool.or_self]
  · exact Bool.or_comm _ _
  · rfl

@[simp] theorem MatchesWith_and_q (q1 q2 : Query) :
    (and_q q1 q2).MatchesWith regex get_value =
      (q1.MatchesWith regex get_value && q2.MatchesWith regex get_value) := by
  unfold and_q
  split_ifs with h1 h2 h3 h4 h5 h6
  · rw [eq_false_of_IsFalse h1]
    rfl
  · rw [eq_false_of_IsFalse h2]
    simp [MatchesWith]
  · rw [eq_true_of_IsTrue h3]
    simp [MatchesWith]
  · rw [eq_true_of_IsTrue h4]
    simp [MatchesWith]
  · rw [← MatchesWith_congr regex get_value h5, Bool.and_self]
  · exact Bool.and_comm _ _
  · rfl

theorem MatchesWith_foldl_and_q (queries : List Query) (q : Query) :
    (queries.foldl and_q q).MatchesWith regex get_value =
      (q.MatchesWith regex get_value && queries.all (·.MatchesWith regex get_value)) := by
  induction queries generalizing q with
  | nil => simp
  | cons p queries ih => simp [ih, Bool.and_assoc]

@[simp] theorem MatchesWith_and_queries (queries : List Query) :
    (and_queries queries).MatchesWith regex get_value =
      queries.all (·.MatchesWith regex get_value) := by
  rw [and_queries, MatchesWith_foldl_and_q]
  simp [MatchesWith]

end Matches

end query

end AtlasNative
