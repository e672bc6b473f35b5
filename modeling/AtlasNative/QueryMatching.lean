import AtlasNative.Query

/-!
# The two ways of matching

A query is matched against a tag map, or against a tag/value pair that looks its keys up
one by one: the name first, then the tags of the id, then the common tags. The map that a
pair builds of all its tags overwrites in the opposite order, and both ways agree.
-/

namespace AtlasNative

set_option autoImplicit false

namespace TagsValuePair

theorem get_value_eq (tv : TagsValuePair) (key : StrRef) :
    tv.get_value key = tv.all_tags.at_ key := by
  cases tv with
  | simple tags v => rfl
  | withId id common_tags v => rw [get_value, all_tags, Tags.at_add, Tags.at_add_all]

end TagsValuePair

namespace Query

/-- `AbstractKeyQuery::getvalue`, which interns the C string of the value again. -/
def getvalue (tags : Tags) (key : StrRef) : Option StrRef :=
  (tags.at_ key).map fun v => intern_str v.str

theorem getvalue_eq (tags : Tags) (key : StrRef) : getvalue tags key = tags.at_ key := by
  simp [getvalue]

/-- `InQuery::matches_value` -/
def matches_value (vs : List StrRef) (value : Option StrRef) : Bool :=
  match value with
  | none => false
  | some value => vs.any fun s => decide (intern_str value.str = s)

/-- A pattern that does not compile and an error of `pcre_exec` count as no match. -/
def MatchesRegex (regex : RegexOracle) (str_pattern : String) (ignore_case : Bool)
    (value : Option StrRef) : Bool :=
  match value with
  | none => false
  | some value => regex str_pattern ignore_case value

section Overloads
variable (regex : RegexOracle)

def MatchesTags (tags : Tags) : Query → Bool
  | .hasKey k => tags.has k
  | .relop q => do_query (getvalue tags q.key_ref_) q.value_ref_ q.op_
  | .regex k pattern ignore_case => MatchesRegex regex pattern ignore_case (getvalue tags k)
  | .in_ k vs => matches_value vs (getvalue tags k)
  | .true_ => true
  | .false_ => false
  | .not_ q => !q.MatchesTags tags
  | .or_ q1 q2 => q1.MatchesTags tags || q2.MatchesTags tags
  | .and_ q1 q2 => q1.MatchesTags tags && q2.MatchesTags tags

def MatchesTagsValuePair (tv : TagsValuePair) : Query → Bool
  | .hasKey k => (tv.get_value k).isSome
  | .relop q => do_query (tv.get_value q.key_ref_) q.value_ref_ q.op_
  | .regex k pattern ignore_case => MatchesRegex regex pattern ignore_case (tv.get_value k)
  | .in_ k vs => matches_value vs (tv.get_value k)
  | .true_ => true
  | .false_ => false
  | .not_ q => !q.MatchesTagsValuePair tv
  | .or_ q1 q2 => q1.MatchesTagsValuePair tv || q2.MatchesTagsValuePair tv
  | .and_ q1 q2 => q1.MatchesTagsValuePair tv && q2.MatchesTagsValuePair tv

theorem matches_value_eq (vs : List StrRef) (value : Option StrRef) :
    matches_value vs value = value.any fun value => vs.any fun s => decide (value = s) := by
  cases value with
  | none => rfl
  | some value => rw [matches_value, intern_str_str, Option.any_some]

theorem MatchesRegex_eq (pattern : String) (ignore_case : Bool) (value : Option StrRef) :
    MatchesRegex regex pattern ignore_case value = value.any (regex pattern ignore_case) := by
  cases value <;> rfl

theorem MatchesTags_eq (tags : Tags) (q : Query) :
    q.MatchesTags regex tags = q.Matches regex tags := by
  induction q with
  | hasKey k => rfl
  | relop q => rw [MatchesTags, getvalue_eq]; rfl
  | regex k pattern ignore_case => rw [MatchesTags, getvalue_eq, MatchesRegex_eq]; rfl
  | in_ k vs => rw [MatchesTags, getvalue_eq, matches_value_eq]; rfl
  | true_ => rfl
  | false_ => rfl
  | not_ q ih => rw [MatchesTags, ih]; rfl
  | or_ q1 q2 ih1 ih2 => rw [MatchesTags, ih1, ih2]; rfl
  | and_ q1 q2 ih1 ih2 => rw [MatchesTags, ih1, ih2]; rfl

theorem MatchesTagsValuePair_eq (tv : TagsValuePair) (q : Query) :
    q.MatchesTagsValuePair regex tv = q.MatchesPair regex tv := by
  induction q with
  | hasKey k => rfl
  | relop q => rfl
  | regex k pattern ignore_case => rw [MatchesTagsValuePair, MatchesRegex_eq]; rfl
  | in_ k vs => rw [MatchesTagsValuePair, matches_value_eq]; rfl
  | true_ => rfl
  | false_ => rfl
  | not_ q ih => rw [MatchesTagsValuePair, ih]; rfl
  | or_ q1 q2 ih1 ih2 => rw [MatchesTagsValuePair, ih1, ih2]; rfl
  | and_ q1 q2 ih1 ih2 => rw [MatchesTagsValuePair, ih1, ih2]; rfl

/-- A pair matches as the map of all its tags does, and looks up the values of that map. -/
theorem MatchesTagsValuePair_all_tags (tv : TagsValuePair) :
    (∀ q : Query, q.MatchesTagsValuePair regex tv = q.MatchesTags regex tv.all_tags) ∧
      ∀ key, ((tv.get_value key).isSome = tv.all_tags.has key) ∧
        ∀ value, tv.get_value key = some value → tv.all_tags.at_ key = some value := by
  refine ⟨fun q => ?_, fun key => ⟨?_, fun value h => ?_⟩⟩
  · rw [MatchesTagsValuePair_eq, MatchesTags_eq, MatchesPair, Matches]
    congr 1
    funext key
    exact tv.get_value_eq key
  · rw [tv.get_value_eq]
    rfl
  · rw [← tv.get_value_eq, h]

end Overloads

end Query

end AtlasNative
