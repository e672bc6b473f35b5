import AtlasNative.GroupByPartition

/-!
# Keeping and dropping tags

`:keep-tags` groups by the listed keys and the name, and leaves out the measurements that
lack one of them. `:drop-tags` groups every measurement by its own keys, those listed taken
away and the name always kept. The groups share no measurement in both modes, and the sums
of the groups add up to the sum of the measurements that are in one.
-/

namespace AtlasNative

open ExactDouble Double Grouping
set_option autoImplicit false

section Totals
variable {rt : Runtime} {q : Query} {vals : TagsValuePair → Option Tags}
  {measurements : TagsValuePairs}

theorem flatMap_grouped_perm (vals : TagsValuePair → Option Tags)
    (measurements : TagsValuePairs) :
    ((grouped rt vals measurements).flatMap Prod.snd).Perm
      (measurements.filter fun tv => (vals tv).isSome) := by
  have hpairs : (measurements.filterMap fun tv => (vals tv).map fun tags => (tags, tv)).map
      Prod.snd = measurements.filter fun tv => (vals tv).isSome := by
    rw [List.map_filterMap, ← List.filterMap_eq_filter]
    apply List.filterMap_congr
    intro tv _
    cases hv : vals tv <;> simp [hv, Option.guard]
  rw [← hpairs]
  exact ((rt.iterate_perm _).flatMap_right Prod.snd).trans (flatMap_ofPairs_perm _)

theorem matchingValues_append (l r : TagsValuePairs) :
    matchingValues rt q (l ++ r) = matchingValues rt q l ++ matchingValues rt q r := by
  rw [matchingValues, List.filter_append, List.map_append]
  rfl

theorem matchingValues_sublist {l r : TagsValuePairs} (h : l.Sublist r) :
    (matchingValues rt q l).Sublist (matchingValues rt q r) :=
  (h.filter _).map _

/-- The sum of a list without opposite infinities, NaN when nothing in it matches. -/
theorem sum_af_eq (h : ¬ OppositeInfinities (matchingValues rt q measurements)) :
    sum_af rt q measurements =
      if matchingValues rt q measurements = [] then .nan
      else (matchingValues rt q measurements).sum := by
  have haf : sum_af rt q measurements = (matchingValues rt q measurements).foldl addSeen .nan :=
    aggregate_af_eq .SUM
  rw [haf]
  split
  · rename_i hnil
    rw [hnil]
    rfl
  · rename_i hne
    exact (foldl_addSeen_eq_sum hne isnan_of_mem_matchingValues h).1

theorem sum_af_of_not_nan (h : ¬ OppositeInfinities (matchingValues rt q measurements))
    (hnum : (sum_af rt q measurements).isnan = false) :
    matchingValues rt q measurements ≠ [] ∧
      sum_af rt q measurements = (matchingValues rt q measurements).sum := by
  rw [sum_af_eq h] at hnum ⊢
  split at hnum
  · cases hnum
  · rename_i hne
    exact ⟨hne, if_neg hne⟩

theorem not_opposite_members (h : ¬ OppositeInfinities (matchingValues rt q measurements))
    (g : Tags) : ¬ OppositeInfinities (matchingValues rt q (members vals measurements g)) := by
  have hsub : (matchingValues rt q (members vals measurements g)).Sublist
      (matchingValues rt q measurements) := matchingValues_sublist List.filter_sublist
  intro hgiven
  rcases hgiven with ⟨hpos, hneg⟩
  exact h ⟨hsub.subset hpos, hsub.subset hneg⟩

/-- Groups left out for having nothing to add do not change the total. -/
theorem sum_groupResults (result_tags : Tags → TagsValuePair → Tags)
    (groups : List (Tags × TagsValuePairs))
    (h : ∀ entry ∈ groups, ¬ OppositeInfinities (matchingValues rt q entry.2)) :
    ((groupResults rt (.aggregate .SUM q) result_tags groups).map TagsValuePair.value).sum =
      (matchingValues rt q (groups.flatMap Prod.snd)).sum := by
  induction groups with
  | nil => rfl
  | cons entry groups ih =>
    obtain ⟨hentry, hrest⟩ := List.forall_mem_cons.mp h
    have hvalue : ((ValueExpression.aggregate .SUM q).Apply rt entry.2).value = _ :=
      sum_af_eq hentry
    rw [List.flatMap_cons, matchingValues_append, List.sum_append, ← ih hrest]
    by_cases hnil : matchingValues rt q entry.2 = []
    · rw [if_pos hnil] at hvalue
      rw [groupResults, List.filterMap_cons_none (by simp [hvalue, isnan]), hnil, List.sum_nil,
        zero_add]
      rfl
    · have hnum := (foldl_addSeen_eq_sum hnil isnan_of_mem_matchingValues hentry)
      rw [if_neg hnil] at hvalue
      rw [hnum.1, ← hvalue] at hnum
      rw [groupResults, List.filterMap_cons_some (by simp only [hnum.2]; rfl), List.map_cons,
        List.sum_cons, TagsValuePair.value_of, hvalue]
      rfl

/-- The results of a grouping add up to the sum of the measurements that are in a group. -/
theorem sum_groupResults_grouped (result_tags : Tags → TagsValuePair → Tags)
    (h : ¬ OppositeInfinities (matchingValues rt q measurements)) :
    ((groupResults rt (.aggregate .SUM q) result_tags (grouped rt vals measurements)).map
        TagsValuePair.value).sum =
      (matchingValues rt q (measurements.filter fun tv => (vals tv).isSome)).sum := by
  rw [sum_groupResults]
  · exact (matchingValues_perm (flatMap_grouped_perm vals measurements)).sum_eq
  · rintro ⟨g, pairs⟩ hmem
    obtain ⟨rfl, _⟩ := mem_grouped.mp hmem
    exact not_opposite_members h g

end Totals

/-! What a measurement is grouped under. -/

section Kept
variable {rt : Runtime} {keys : StringRefs} {keep : Bool} {tv : TagsValuePair}

/-- The keys of the results: the name and the listed keys, or the name and all others. -/
def Kept (keys : StringRefs) (keep : Bool) (key : StrRef) : Prop :=
  key = name_ref ∨ if keep then key ∈ keys else key ∉ keys

instance (keys : StringRefs) (keep : Bool) (key : StrRef) : Decidable (Kept keys keep key) :=
  inferInstanceAs (Decidable (_ ∨ _))

/-- The measurements that are in a group: those with a name that, to keep tags, have all
the listed keys. -/
def Counted (keys : StringRefs) (keep : Bool) (tv : TagsValuePair) : Prop :=
  (tv.get_value name_ref).isSome ∧
    (keep = true → ∀ key ∈ keys, (tv.get_value key).isSome)

instance (keys : StringRefs) (keep : Bool) (tv : TagsValuePair) :
    Decidable (Counted keys keep tv) :=
  inferInstanceAs (Decidable (_ ∧ _))

/-- `g` is made of the kept tags of the measurement. -/
def IsGroupOf (keys : StringRefs) (keep : Bool) (tv : TagsValuePair) (g : Tags) : Prop :=
  ∀ key, g.at_ key = if Kept keys keep key then tv.all_tags.at_ key else none

variable (rt keys keep) in
/-- The keys of the loop of `Apply`, with the keys that the constructor stores. -/
def groupKeys (tv : TagsValuePair) : StringRefs :=
  if keep then (if keep && !decide (name_ref ∈ keys) then keys ++ [name_ref] else keys)
  else drop_keys rt tv.all_tags keys

variable (rt keys keep) in
def groupVals (tv : TagsValuePair) : Option Tags := group_by_vals (groupKeys rt keys keep tv) tv

theorem KeepOrDropTags_Apply_eq (expr : ValueExpression) (measurements : TagsValuePairs) :
    (KeepOrDropTags keys expr keep).Apply rt measurements =
      groupResults rt expr (fun tags _ => tags)
        (grouped rt (groupVals rt keys keep) measurements) := by
  unfold KeepOrDropTags groupVals groupKeys
  cases keep with
  | true => split <;> rfl
  | false => rfl

theorem mem_drop_keys {tags : Tags} {key : StrRef} :
    key ∈ drop_keys rt tags keys ↔
      key = name_ref ∨ (key ∉ keys ∧ (tags.at_ key).isSome) := by
  have hwalk := (rt.walk_enumerates tags).mem_map_fst key
  simp only [drop_keys, List.mem_cons, List.mem_filter, hwalk, Bool.and_eq_true,
    decide_eq_true_eq, Bool.not_eq_true', decide_eq_false_iff_not]
  by_cases hname : key = name_ref <;> simp [hname, and_comm]

/-- The keys without which a measurement is in no group. -/
def Needed (keys : StringRefs) (keep : Bool) (key : StrRef) : Prop :=
  key = name_ref ∨ (keep = true ∧ key ∈ keys)

theorem Needed.kept {key : StrRef} (h : Needed keys keep key) : Kept keys keep key := by
  rcases h with hname | ⟨rfl, hkey⟩
  · exact Or.inl hname
  · exact Or.inr hkey

theorem counted_iff : Counted keys keep tv ↔
    ∀ key, Needed keys keep key → (tv.get_value key).isSome := by
  constructor
  · rintro ⟨hname, hlisted⟩ key (rfl | ⟨hkeep, hkey⟩)
    · exact hname
    · exact hlisted hkeep key hkey
  · intro h
    exact ⟨h name_ref (Or.inl rfl), fun hkeep key hkey => h key (Or.inr ⟨hkeep, hkey⟩)⟩

/-- A measurement is looked up under the kept keys that it needs or has. -/
theorem mem_groupKeys {key : StrRef} :
    key ∈ groupKeys rt keys keep tv ↔
      Kept keys keep key ∧ (Needed keys keep key ∨ (tv.get_value key).isSome) := by
  unfold groupKeys
  cases keep with
  | true =>
    simp only [if_true, Bool.true_and, Bool.not_eq_true', decide_eq_false_iff_not, Kept, Needed,
      true_and]
    have hmem : key ∈ (if name_ref ∉ keys then keys ++ [name_ref] else keys) ↔
        key = name_ref ∨ key ∈ keys := by
      split
      · rw [List.mem_append, List.mem_singleton, or_comm]
      · rename_i hname
        rw [not_not] at hname
        constructor
        · exact Or.inr
        · intro hcases
          rcases hcases with rfl | hkey
          · exact hname
          · exact hkey
    rw [hmem]
    exact ⟨fun h => ⟨h, Or.inl h⟩, fun h => h.1⟩
  | false =>
    simp only [Bool.false_eq_true, if_false, mem_drop_keys, Kept, Needed, false_and, or_false,
      TagsValuePair.get_value_eq]
    constructor
    · intro hcases
      rcases hcases with hname | ⟨hkey, hsome⟩
      · exact ⟨Or.inl hname, Or.inl hname⟩
      · exact ⟨Or.inr hkey, Or.inr hsome⟩
    · intro hgiven
      rcases hgiven with ⟨hname | hkey, hname' | hsome⟩
      · exact Or.inl hname
      · exact Or.inl hname
      · exact Or.inl hname'
      · exact Or.inr ⟨hkey, hsome⟩

theorem groupVals_eq_some_iff {g : Tags} :
    groupVals rt keys keep tv = some g ↔ Counted keys keep tv ∧ IsGroupOf keys keep tv g := by
  rw [groupVals, group_by_vals_eq_some_iff, counted_iff, IsGroupOf, ← forall_and]
  apply forall_congr'
  intro key
  rw [← TagsValuePair.get_value_eq]
  split
  · rename_i hmem
    obtain ⟨hkept, hlook⟩ := mem_groupKeys.mp hmem
    rw [if_pos hkept]
    cases hv : tv.get_value key with
    | none =>
      have hneeded : Needed keys keep key := by simpa [hv] using hlook
      simp [hneeded]
    | some value => simp
  · rename_i hmem
    rw [mem_groupKeys, not_and, not_or, Bool.not_eq_true, Option.isSome_eq_false_iff,
      Option.isNone_iff_eq_none] at hmem
    by_cases hkept : Kept keys keep key
    · obtain ⟨hneeded, hnone⟩ := hmem hkept
      simp [hneeded, hnone]
    · have hneeded : ¬ Needed keys keep key := fun h => hkept h.kept
      simp [hkept, hneeded]

theorem isSome_groupVals : (groupVals rt keys keep tv).isSome ↔ Counted keys keep tv := by
  rw [groupVals, isSome_group_by_vals, counted_iff]
  simp only [mem_groupKeys]
  constructor
  · intro h key hneeded
    exact h key ⟨hneeded.kept, Or.inl hneeded⟩
  · rintro h key ⟨_, hneeded | hsome⟩
    · exact h key hneeded
    · exact hsome

end Kept

section Conservation
variable {rt : Runtime} {keys : StringRefs} {keep : Bool} {q : Query}
  {measurements : TagsValuePairs}

/-- The tags that are kept when listed are the listed keys and the name. -/
theorem isSome_at_of_keep {tv : TagsValuePair} {g : Tags} (hcounted : Counted keys true tv)
    (hg : IsGroupOf keys true tv g) (key : StrRef) :
    (g.at_ key).isSome ↔ key = name_ref ∨ key ∈ keys := by
  rw [hg key, ← TagsValuePair.get_value_eq]
  have hkept : Kept keys true key ↔ key = name_ref ∨ key ∈ keys := Iff.rfl
  rw [← hkept]
  split
  · rename_i h
    apply iff_of_true _ h
    rcases hkept.mp h with rfl | hkey
    · exact hcounted.1
    · exact hcounted.2 rfl key hkey
  · rename_i h
    exact iff_of_false (by simp) h

theorem disjoint_members {vals : TagsValuePair → Option Tags} {g g' : Tags} (hne : g ≠ g') :
    (members vals measurements g).Disjoint (members vals measurements g') := by
  intro tv hg hg'
  have heq := (mem_members.mp hg).2.symm.trans (mem_members.mp hg').2
  exact hne (Option.some.inj heq)

/-- Keeping and dropping tags conserves the total: each result is the sum of its group, no
measurement is in two groups, and the results add up to the sum of all counted ones. -/
theorem KeepOrDropTags_Apply_conserves (rt : Runtime) (keys : StringRefs) (keep : Bool)
    (q : Query) (measurements : TagsValuePairs)
    (h : ¬ OppositeInfinities (matchingValues rt q measurements)) :
    ∃ group_of : TagsValuePair → Option Tags,
      (∀ tv g, group_of tv = some g ↔ Counted keys keep tv ∧ IsGroupOf keys keep tv g) ∧
      (((KeepOrDropTags keys (.aggregate .SUM q) keep).Apply rt measurements).map
        TagsValuePair.all_tags).Nodup ∧
      (∀ r ∈ (KeepOrDropTags keys (.aggregate .SUM q) keep).Apply rt measurements,
        matchingValues rt q (members group_of measurements r.all_tags) ≠ [] ∧
        r.value = (matchingValues rt q (members group_of measurements r.all_tags)).sum ∧
        (keep = true → ∀ key, (r.all_tags.at_ key).isSome ↔ key = name_ref ∨ key ∈ keys)) ∧
      (((KeepOrDropTags keys (.aggregate .SUM q) keep).Apply rt measurements).Pairwise
        fun r r' => (members group_of measurements r.all_tags).Disjoint
          (members group_of measurements r'.all_tags)) ∧
      (((KeepOrDropTags keys (.aggregate .SUM q) keep).Apply rt measurements).map
          TagsValuePair.value).sum =
        (matchingValues rt q (measurements.filter fun tv => Counted keys keep tv)).sum := by
  let vals := groupVals rt keys keep
  let gs := liveGroups rt (.aggregate .SUM q) vals measurements
  have hresults : (KeepOrDropTags keys (.aggregate .SUM q) keep).Apply rt measurements =
      gs.map fun g => .of g (sum_af rt q (members vals measurements g)) := by
    rw [KeepOrDropTags_Apply_eq, groupResults_eq_map]
    rfl
  have htags : ((KeepOrDropTags keys (.aggregate .SUM q) keep).Apply rt measurements).map
      TagsValuePair.all_tags = gs := by
    rw [hresults, List.map_map]
    exact List.map_id gs
  have hnodup : (((KeepOrDropTags keys (.aggregate .SUM q) keep).Apply rt measurements).map
      TagsValuePair.all_tags).Nodup := by
    rw [htags]
    exact nodup_liveGroups
  refine ⟨vals, fun _ _ => groupVals_eq_some_iff, hnodup, ?_, ?_, ?_⟩
  · intro r hr
    rw [hresults] at hr
    obtain ⟨g, hg, rfl⟩ := List.mem_map.mp hr
    obtain ⟨⟨tv, _, htv⟩, hnum⟩ := mem_liveGroups.mp hg
    obtain ⟨hne, hsum⟩ := sum_af_of_not_nan (not_opposite_members h g) hnum
    refine ⟨hne, hsum, ?_⟩
    rintro rfl key
    obtain ⟨hcounted, hgroup⟩ := groupVals_eq_some_iff.mp htv
    exact isSome_at_of_keep hcounted hgroup key
  · exact (List.pairwise_map.mp hnodup).imp disjoint_members
  · rw [KeepOrDropTags_Apply_eq, sum_groupResults_grouped _ h]
    congr 2
    apply List.filter_congr
    intro tv _
    rw [Bool.eq_iff_iff, isSome_groupVals, decide_eq_true_eq]

/-- A measurement without a name is not part of the total. -/
theorem KeepOrDropTags_Apply_conserves_two :
    (((KeepOrDropTags [intern_str "a"] (.aggregate .SUM .true_) false).Apply plainRuntime
        [.of (Tags.of [("name", "m"), ("a", "1")]) (.fin 1), .of ∅ (.fin 2)]).map
      TagsValuePair.value).sum = .fin 1 := by
  have hvalues : matchingValues plainRuntime .true_
      [.of (Tags.of [("name", "m"), ("a", "1")]) (.fin 1), .of ∅ (.fin 2)] = [.fin 1, .fin 2] := rfl
  have h : ¬ OppositeInfinities (matchingValues plainRuntime .true_
      [.of (Tags.of [("name", "m"), ("a", "1")]) (.fin 1), .of ∅ (.fin 2)]) := by
    rw [hvalues]
    decide
  obtain ⟨_, _, _, _, _, htotal⟩ := KeepOrDropTags_Apply_conserves plainRuntime
    [intern_str "a"] false .true_ _ h
  have hcounted : matchingValues plainRuntime .true_
      ([.of (Tags.of [("name", "m"), ("a", "1")]) (.fin 1), .of ∅ (.fin 2)].filter
        fun tv => Counted [intern_str "a"] false tv) = [.fin 1] := by decide
  rw [htotal, hcounted, List.sum_singleton]

end Conservation

end AtlasNative
