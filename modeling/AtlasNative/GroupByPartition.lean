import AtlasNative.Aggregation
import AtlasNative.QueryMatching

/-!
# Grouping is a partition

A measurement that has all the keys realises one assignment of values to them, and is a
member of one group. The results of a grouping are one for each realised assignment whose
aggregate is not NaN; `GroupBy` writes the exact tags of the query over the assignment,
which changes none of its keys, as the query matches some member of the group.
-/

namespace AtlasNative

open ExactDouble Grouping
set_option autoImplicit false

namespace Tags

theorem ext {tags tags' : Tags} (h : ∀ key, tags.at_ key = tags'.at_ key) : tags = tags' :=
  Finmap.ext_lookup h

theorem at_empty (key : StrRef) : (∅ : Tags).at_ key = none := Finmap.lookup_empty key

end Tags

/-! Groups, whatever the tags that a measurement is grouped under. -/

section Groups
variable {rt : Runtime}

/-- The measurements of one group, in the order of the list. -/
def members (vals : TagsValuePair → Option Tags) (measurements : TagsValuePairs) (g : Tags) :
    TagsValuePairs :=
  measurements.filter fun tv => vals tv = some g

theorem mem_members {vals : TagsValuePair → Option Tags} {measurements : TagsValuePairs}
    {g : Tags} {tv : TagsValuePair} :
    tv ∈ members vals measurements g ↔ tv ∈ measurements ∧ vals tv = some g := by
  simp [members]

theorem members_ne_nil_iff {vals : TagsValuePair → Option Tags} {measurements : TagsValuePairs}
    {g : Tags} :
    members vals measurements g ≠ [] ↔ ∃ tv ∈ measurements, vals tv = some g := by
  constructor
  · intro hne
    obtain ⟨tv, htv⟩ := List.exists_mem_of_ne_nil _ hne
    exact ⟨tv, mem_members.mp htv⟩
  · intro h
    rcases h with ⟨tv, htv⟩
    exact List.ne_nil_of_mem (mem_members.mpr htv)

theorem mem_grouped {vals : TagsValuePair → Option Tags} {measurements : TagsValuePairs}
    {g : Tags} {pairs : TagsValuePairs} :
    (g, pairs) ∈ grouped rt vals measurements ↔
      pairs = members vals measurements g ∧ pairs ≠ [] := by
  rw [grouped, (rt.iterate_perm _).mem_iff, mem_ofPairs, bucket_grouped, members]

theorem nodup_keys_grouped (vals : TagsValuePair → Option Tags) (measurements : TagsValuePairs) :
    ((grouped rt vals measurements).map Prod.fst).Nodup := by
  apply List.Perm.nodup ((rt.iterate_perm _).symm.map Prod.fst)
  exact nodup_keys_ofPairs _

variable (rt) in
/-- The groups whose aggregate is not NaN, in the order of the hash table. -/
def liveGroups (expr : ValueExpression) (vals : TagsValuePair → Option Tags)
    (measurements : TagsValuePairs) : List Tags :=
  ((grouped rt vals measurements).filter fun entry => !(expr.Apply rt entry.2).value.isnan).map
    Prod.fst

variable {expr : ValueExpression} {vals : TagsValuePair → Option Tags}
  {measurements : TagsValuePairs}

theorem nodup_liveGroups : (liveGroups rt expr vals measurements).Nodup :=
  (nodup_keys_grouped vals measurements).sublist (List.filter_sublist.map Prod.fst)

theorem mem_liveGroups {g : Tags} :
    g ∈ liveGroups rt expr vals measurements ↔
      (∃ tv ∈ measurements, vals tv = some g) ∧
        (expr.Apply rt (members vals measurements g)).value.isnan = false := by
  simp only [liveGroups, List.mem_map, List.mem_filter, Bool.not_eq_true']
  constructor
  · intro h
    rcases h with ⟨⟨g', pairs⟩, ⟨hmem, hnum⟩, rfl⟩
    obtain ⟨rfl, hne⟩ := mem_grouped.mp hmem
    exact ⟨members_ne_nil_iff.mp hne, hnum⟩
  · intro h
    rcases h with ⟨hsome, hnum⟩
    exact ⟨(g, _), ⟨mem_grouped.mpr ⟨rfl, members_ne_nil_iff.mpr hsome⟩, hnum⟩, rfl⟩

/-- One result for each group whose aggregate is not NaN. -/
theorem groupResults_eq_map (result_tags : Tags → TagsValuePair → Tags) :
    groupResults rt expr result_tags (grouped rt vals measurements) =
      (liveGroups rt expr vals measurements).map fun g =>
        .of (result_tags g (expr.Apply rt (members vals measurements g)))
          (expr.Apply rt (members vals measurements g)).value := by
  rw [liveGroups, List.map_map, ← List.filterMap_eq_map, List.filterMap_filter]
  apply List.filterMap_congr
  rintro ⟨g, pairs⟩ hmem
  obtain ⟨rfl, _⟩ := mem_grouped.mp hmem
  cases hnan : (expr.Apply rt (members vals measurements g)).value.isnan <;> simp [hnan]

end Groups

/-! The assignments of values to a list of keys. -/

section Assignments
variable (keys : StringRefs) (tv : TagsValuePair)

/-- `g` has the keys and no others, with the values that the measurement has for them. -/
def Realises (g : Tags) : Prop :=
  ∀ key, if key ∈ keys then (∃ value, g.at_ key = some value ∧ tv.get_value key = some value)
    else g.at_ key = none

variable {keys tv}

theorem foldlM_group_by_vals {tags g : Tags} :
    keys.foldlM (fun tags key => (tv.get_value key).map (tags.add key)) tags = some g ↔
      ∀ key, if key ∈ keys then
          (∃ value, g.at_ key = some value ∧ tv.get_value key = some value)
        else g.at_ key = tags.at_ key := by
  induction keys generalizing tags with
  | nil =>
    simp only [List.foldlM_nil, List.not_mem_nil, if_false]
    constructor
    · intro h key
      cases h
      rfl
    · intro h
      exact congrArg some (Tags.ext fun key => (h key).symm)
  | cons k keys ih =>
    rw [List.foldlM_cons]
    cases hv : tv.get_value k with
    | none =>
      constructor
      · intro h
        cases h
      · intro h
        have hk := h k
        rw [if_pos List.mem_cons_self] at hk
        obtain ⟨value, _, hvalue⟩ := hk
        rw [hv] at hvalue
        cases hvalue
    | some value =>
      refine ih.trans ?_
      apply forall_congr'
      intro key
      by_cases hmem : key ∈ keys
      · simp [hmem]
      · by_cases hkey : key = k
        · subst hkey
          simp [hmem, hv, Tags.at_add]
        · simp [hmem, hkey, Tags.at_add]

theorem group_by_vals_eq_some_iff {g : Tags} :
    group_by_vals keys tv = some g ↔ Realises keys tv g := by
  rw [group_by_vals, foldlM_group_by_vals, Realises]
  simp only [Tags.at_empty]

theorem isSome_foldlM_group_by_vals (tags : Tags) :
    (keys.foldlM (fun tags key => (tv.get_value key).map (tags.add key)) tags).isSome ↔
      ∀ key ∈ keys, (tv.get_value key).isSome := by
  induction keys generalizing tags with
  | nil => simp
  | cons k keys ih =>
    rw [List.foldlM_cons, List.forall_mem_cons]
    cases hv : tv.get_value k with
    | none => simp
    | some value => exact (ih (tags.add k value)).trans (by simp)

theorem isSome_group_by_vals :
    (group_by_vals keys tv).isSome ↔ ∀ key ∈ keys, (tv.get_value key).isSome :=
  isSome_foldlM_group_by_vals ∅

theorem Realises.at_eq {g : Tags} (h : Realises keys tv g) {key : StrRef} (hkey : key ∈ keys) :
    tv.get_value key = g.at_ key := by
  have hk := h key
  rw [if_pos hkey] at hk
  obtain ⟨value, hg, hvalue⟩ := hk
  rw [hg, hvalue]

theorem Realises.at_eq_none {g : Tags} (h : Realises keys tv g) {key : StrRef}
    (hkey : key ∉ keys) : g.at_ key = none := by
  have hk := h key
  rwa [if_neg hkey] at hk

/-- The members of a realised assignment are the measurements with its values. -/
theorem realises_iff_of_realises {g : Tags} (h : Realises keys tv g) (tv' : TagsValuePair) :
    Realises keys tv' g ↔ ∀ key ∈ keys, tv'.get_value key = g.at_ key := by
  constructor
  · intro h' key hkey
    exact h'.at_eq hkey
  · intro h' key
    by_cases hkey : key ∈ keys
    · have hk := h key
      rw [if_pos hkey] at hk ⊢
      obtain ⟨value, hg, _⟩ := hk
      exact ⟨value, hg, (h' key hkey).trans hg⟩
    · rw [if_neg hkey]
      exact h.at_eq_none hkey

end Assignments

/-- Whatever an `:eq` pins down holds of every pair that the query matches. -/
theorem Query.exactTags_of_MatchesPair {regex : RegexOracle} {tv : TagsValuePair} {q : Query}
    (h : q.MatchesPair regex tv = true) {key value : StrRef}
    (hkey : q.exactTags.at_ key = some value) : tv.get_value key = some value := by
  induction q with
  | relop q =>
    rw [exactTags] at hkey
    split at hkey
    · rename_i hop
      rw [Tags.at_add] at hkey
      split at hkey
      · rename_i hkey'
        subst hkey'
        cases hkey
        simp only [MatchesPair, MatchesWith, do_query, hop] at h
        cases hv : tv.get_value q.key_ref_ with
        | none => simp [hv] at h
        | some cur => simpa [hv] using h
      · rw [Tags.at_empty] at hkey
        cases hkey
    · rw [Tags.at_empty] at hkey
      cases hkey
  | and_ q1 q2 ih1 ih2 =>
    simp only [MatchesPair, MatchesWith, Bool.and_eq_true] at h
    rw [exactTags, Tags.at_add_all, Option.or_eq_some_iff] at hkey
    rcases hkey with hkey | ⟨_, hkey⟩
    · exact ih2 h.2 hkey
    · exact ih1 h.1 hkey
  | _ =>
    have hempty : (∅ : Tags).at_ key = some value := hkey
    rw [Tags.at_empty] at hempty
    cases hempty

section GroupBy
variable {rt : Runtime} {keys : StringRefs} {a : Aggregate} {q : Query}
  {measurements : TagsValuePairs}

/-- Every aggregate of measurements none of which matches is NaN. -/
theorem exists_match_of_not_nan
    (h : (aggregate_af rt q measurements a).isnan = false) :
    ∃ tv ∈ measurements, q.MatchesPair rt.regex tv = true := by
  by_contra hnone
  have hnil : measurements.filter (q.MatchesPair rt.regex) = [] := by
    apply List.filter_eq_nil_iff.mpr
    intro tv htv hmatch
    exact hnone ⟨tv, htv, hmatch⟩
  rw [← aggregate_af_filter, hnil, aggregate_af_nil] at h
  cases h

/-- The exact tags of the query do not contradict a group whose aggregate is a number. -/
theorem at_add_all_exactTags {g : Tags}
    (h : (aggregate_af rt q (members (group_by_vals keys) measurements g) a).isnan = false)
    {key : StrRef} (hkey : key ∈ keys) : (g.add_all q.exactTags).at_ key = g.at_ key := by
  obtain ⟨tv, htv, hmatch⟩ := exists_match_of_not_nan h
  have hreal : Realises keys tv g := group_by_vals_eq_some_iff.mp (mem_members.mp htv).2
  rw [Tags.at_add_all]
  cases hexact : q.exactTags.at_ key with
  | none => rfl
  | some value =>
    rw [Option.some_or, ← hreal.at_eq hkey]
    exact (Query.exactTags_of_MatchesPair hmatch hexact).symm

variable (rt keys a q measurements) in
/-- The aggregate over exactly the measurements with the assignment. -/
def groupAggregate (g : Tags) : Double :=
  aggregate_af rt q
    (measurements.filter fun tv => keys.all fun key => tv.get_value key = g.at_ key) a

theorem members_eq_filter {g : Tags} {tv : TagsValuePair} (h : Realises keys tv g) :
    members (group_by_vals keys) measurements g =
      measurements.filter fun tv => keys.all fun key => tv.get_value key = g.at_ key := by
  apply List.filter_congr
  intro tv' _
  rw [Bool.eq_iff_iff, decide_eq_true_eq, group_by_vals_eq_some_iff, realises_iff_of_realises h,
    List.all_eq_true]
  simp only [decide_eq_true_eq]

/-- The results of a grouping are one for each assignment that a measurement realises and
whose aggregate is not NaN, with pairwise different tags that keep the assignment. -/
theorem GroupBy_Apply_partition (rt : Runtime) (keys : StringRefs) (a : Aggregate) (q : Query)
    (measurements : TagsValuePairs) :
    ∃ gs : List Tags, gs.Nodup ∧
      (∀ g, g ∈ gs ↔ (∃ tv ∈ measurements, Realises keys tv g) ∧
        groupAggregate rt keys a q measurements g ≠ .nan) ∧
      ((MultipleResults.groupBy keys (.aggregate a q)).Apply rt measurements).Perm
        (gs.map fun g =>
          .of (g.add_all q.exactTags) (groupAggregate rt keys a q measurements g)) ∧
      (∀ g ∈ gs, ∀ key ∈ keys, (g.add_all q.exactTags).at_ key = g.at_ key) ∧
      (((MultipleResults.groupBy keys (.aggregate a q)).Apply rt measurements).map
        TagsValuePair.all_tags).Nodup := by
  let gs := liveGroups rt (.aggregate a q) (group_by_vals keys) measurements
  have hvalue : ∀ g tv, Realises keys tv g →
      ((ValueExpression.aggregate a q).Apply rt
          (members (group_by_vals keys) measurements g)).value =
        groupAggregate rt keys a q measurements g := by
    intro g tv htv
    rw [members_eq_filter htv]
    rfl
  have hmem : ∀ g, g ∈ gs ↔ (∃ tv ∈ measurements, Realises keys tv g) ∧
      groupAggregate rt keys a q measurements g ≠ .nan := by
    intro g
    simp only [gs, mem_liveGroups, group_by_vals_eq_some_iff]
    apply and_congr_right
    intro h
    rcases h with ⟨tv, _, htv⟩
    rw [hvalue g tv htv, Double.isnan_eq_false_iff]
  have hkeep : ∀ g ∈ gs, ∀ key ∈ keys, (g.add_all q.exactTags).at_ key = g.at_ key :=
    fun g hg key hkey => at_add_all_exactTags (mem_liveGroups.mp hg).2 hkey
  have hresults : (MultipleResults.groupBy keys (.aggregate a q)).Apply rt measurements =
      gs.map fun g =>
        .of (g.add_all q.exactTags) (groupAggregate rt keys a q measurements g) := by
    rw [MultipleResults.Apply, GroupBy.Apply, groupResults_eq_map]
    apply List.map_congr_left
    intro g hg
    obtain ⟨tv, _, htv⟩ := ((hmem g).mp hg).1
    rw [hvalue g tv htv]
    rfl
  refine ⟨gs, nodup_liveGroups, hmem, List.Perm.of_eq hresults, hkeep, ?_⟩
  rw [hresults, List.map_map]
  apply List.Nodup.map_on _ nodup_liveGroups
  -- two groups with the same tags have the same values for the keys, and nothing else
  intro g hg g' hg' heq
  obtain ⟨tv, _, htv⟩ := ((hmem g).mp hg).1
  obtain ⟨tv', _, htv'⟩ := ((hmem g').mp hg').1
  apply Tags.ext
  intro key
  by_cases hkey : key ∈ keys
  · have hat := congrArg (fun tags : Tags => tags.at_ key) heq
    rw [← hkeep g hg key hkey, ← hkeep g' hg' key hkey]
    exact hat
  · rw [htv.at_eq_none hkey, htv'.at_eq_none hkey]

end GroupBy

end AtlasNative
