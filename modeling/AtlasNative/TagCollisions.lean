import AtlasNative.PublishAccounts
import AtlasNative.TagEncoding

/-!
# Keys that are published under one name

The tags of a metric are written one by one, each under its encoded key, and nothing asks
whether the object has a member of that name already. Two keys meet when they differ only
where both have characters that are written as underscores.
-/

namespace AtlasNative

open Replacement
set_option autoImplicit false

def AsUnderscore (ch : Char) : Prop := ch = '_' ∨ ¬ InAlphabet ch

/-- Two keys of one length that differ in nothing but characters written as underscores. -/
def Confusable (k k' : StrRef) : Prop :=
  k ≠ k' ∧ List.Forall₂ (fun ch ch' => ch = ch' ∨ (AsUnderscore ch ∧ AsUnderscore ch'))
    k.str.toList k'.str.toList

theorem ToValidCharset_eq_ToValidCharset_iff (k k' : StrRef) :
    ToValidCharset k = ToValidCharset k' ↔
      List.Forall₂ (fun ch ch' => ch = ch' ∨ (AsUnderscore ch ∧ AsUnderscore ch'))
        k.str.toList k'.str.toList := by
  have hblanked : ∀ ch, Blanked (inTable kCharsAllowed) '_' ch ↔ AsUnderscore ch := by
    intro ch
    unfold Blanked AsUnderscore
    rw [← inTable_kCharsAllowed, Bool.not_eq_true]
  rw [StrRef.eq_iff_toList, ToValidCharset, ToValidCharset, ToValidTable_toList, ToValidTable_toList,
    replaceAll_eq_replaceAll_iff]
  unfold Alike
  simp only [hblanked]

theorem noCollision_iff (tags : Tags) :
    NoCollision tags ↔ ∀ k ∈ tags.keys, ∀ k' ∈ tags.keys, ¬ Confusable k k' := by
  unfold NoCollision Confusable
  simp only [ToValidCharset_eq_ToValidCharset_iff, not_and', ne_eq, not_not]

section Payload
variable (walk : Tags → List (StrRef × StrRef)) (now_millis : ℤ)

/-- The names in the tags object of a metric are pairwise different, and as many as the
measurement has tags. -/
def HasUniqueTags (measure : TagsValuePair) (metric : JsonValue) : Prop :=
  ∃ members tags, metric = .object members ∧ members.lookup "tags" = some (.object tags) ∧
    (tags.map Prod.fst).Nodup ∧ tags.length = measure.all_tags.keys.card

/-- That holds of the metrics of a payload, one for every measurement that passes. -/
def UniqueTagNames (measurements : TagsValuePairs) (payload : JsonValue) : Prop :=
  ∃ members metrics, payload = .object members ∧
    members.lookup "metrics" = some (.array metrics) ∧
    List.Forall₂ HasUniqueTags (measurements.filter (passes walk true)) metrics

theorem foldl_encodeOne_metrics (validate : Bool) (measurements : TagsValuePairs)
    (s : EncodeState) :
    (measurements.foldl (encodeOne walk now_millis validate) s).json_metrics =
      s.json_metrics ++
        (measurements.filter (passes walk validate)).map (metricToJson walk now_millis) := by
  induction measurements generalizing s with
  | nil => exact (List.append_nil _).symm
  | cons measure measurements ih =>
    have hstep : (encodeOne walk now_millis validate s measure).json_metrics =
        s.json_metrics ++
          if passes walk validate measure then [metricToJson walk now_millis measure] else [] := by
      unfold encodeOne passes
      cases measure.value.isnan <;> cases validate <;>
        cases AreTagsValid (walk measure.all_tags) <;> simp
    rw [List.foldl_cons, ih, hstep, List.append_assoc, List.filter_cons]
    by_cases hpasses : passes walk validate measure = true
    · rw [if_pos hpasses, if_pos hpasses]
      rfl
    · rw [if_neg hpasses, if_neg hpasses]
      rfl

variable {walk}

theorem hasUniqueTags_iff (hwalk : ∀ tags, Enumerates (walk tags) tags)
    (measure : TagsValuePair) :
    HasUniqueTags measure (metricToJson walk now_millis measure) ↔
      NoCollision measure.all_tags := by
  have hwalk' := hwalk measure.all_tags
  have hnames : (((walk measure.all_tags).map fun tag =>
      ((ToValidCharset tag.1).str, JsonValue.string (EncodeValueForKey tag.2 tag.1).str)).map
        Prod.fst) = (((walk measure.all_tags).map encodeTag).map Prod.fst).map StrRef.str := by
    rw [List.map_map, List.map_map, List.map_map]
    rfl
  have hinjective : Function.Injective StrRef.str := fun _ _ h => StrRef.ext h
  have hcard : (walk measure.all_tags).length = measure.all_tags.keys.card := by
    have hkeys : measure.all_tags.keys = ((walk measure.all_tags).map Prod.fst).toFinset := by
      apply Finset.ext
      intro k
      rw [hwalk'.mem_keys, List.mem_toFinset]
    rw [hkeys, List.toFinset_card_of_nodup hwalk'.1, List.length_map]
  rw [← nodup_encoded_iff hwalk', ← List.nodup_map_iff hinjective, ← hnames]
  constructor
  · intro hgiven
    rcases hgiven with ⟨members, tags, hmetric, htags, hnodup, _⟩
    cases hmetric
    cases htags
    exact hnodup
  · intro hnodup
    exact ⟨_, _, rfl, rfl, hnodup, (List.length_map _).trans hcard⟩

theorem uniqueTagNames_iff (hwalk : ∀ tags, Enumerates (walk tags) tags)
    (measurements : TagsValuePairs) :
    UniqueTagNames walk measurements
        (MeasurementsToJson walk now_millis measurements true).payload ↔
      ∀ measure ∈ measurements.filter (passes walk true), NoCollision measure.all_tags := by
  have hmetrics := foldl_encodeOne_metrics walk now_millis true measurements ⟨[], 0, 0⟩
  have hforall : List.Forall₂ HasUniqueTags (measurements.filter (passes walk true))
      ((measurements.filter (passes walk true)).map (metricToJson walk now_millis)) ↔
      ∀ measure ∈ measurements.filter (passes walk true), NoCollision measure.all_tags := by
    rw [List.forall₂_map_right_iff, List.forall₂_same]
    simp only [hasUniqueTags_iff now_millis hwalk]
  rw [List.nil_append] at hmetrics
  rw [← hforall, ← hmetrics]
  constructor
  · intro h
    rcases h with ⟨members, metrics, hpayload, hlookup, hunique⟩
    cases hpayload
    cases hlookup
    exact hunique
  · intro hunique
    exact ⟨_, _, rfl, rfl, hunique⟩

/-- The published names are unique exactly if no measurement that is sent has two keys that
are easily confused. -/
theorem MeasurementsToJson_unique_iff (hwalk : ∀ tags, Enumerates (walk tags) tags)
    (measurements : TagsValuePairs) :
    UniqueTagNames walk measurements
        (MeasurementsToJson walk now_millis measurements true).payload ↔
      ∀ measure ∈ measurements, measure.value.isnan = false →
        AreTagsValid (walk measure.all_tags) = true →
        ∀ k ∈ measure.all_tags.keys, ∀ k' ∈ measure.all_tags.keys, ¬ Confusable k k' := by
  rw [uniqueTagNames_iff now_millis hwalk]
  have hpasses : ∀ measure, passes walk true measure = true ↔
      measure.value.isnan = false ∧ AreTagsValid (walk measure.all_tags) = true := by
    intro measure
    unfold passes
    rw [Bool.and_eq_true, Bool.not_true, Bool.false_or, Bool.not_eq_true']
  simp only [List.mem_filter, hpasses, noCollision_iff, and_imp]

def requestsWith (k k' : String) : TagsValuePair :=
  .of (ofWalk [(name_ref, intern_str "requests"), (intern_str k, intern_str "1"),
    (intern_str k', intern_str "2")]) (.fin 1)

theorem MeasurementsToJson_unique_two :
    UniqueTagNames sortedWalk [requestsWith "a.b" "a_b"]
      (MeasurementsToJson sortedWalk 0 [requestsWith "a.b" "a_b"] true).payload := by
  apply (MeasurementsToJson_unique_iff 0 sortedWalk_enumerates _).mpr
  intro measure hmeasure _ _
  rw [List.mem_singleton.mp hmeasure]
  have hkeys : ([(name_ref, intern_str "requests"), (intern_str "a.b", intern_str "1"),
      (intern_str "a_b", intern_str "2")].map Prod.fst).Nodup := by decide
  have henumerates := enumerates_ofWalk hkeys
  exact (noCollision_iff _).mp ((nodup_encoded_iff henumerates).mp (by decide +kernel))

/-- Two tags, `a b` and `a_b`, of one measurement are both published as `a_b`. -/
theorem colliding_keys_are_published :
    ¬ UniqueTagNames sortedWalk [requestsWith "a b" "a_b"]
      (MeasurementsToJson sortedWalk 0 [requestsWith "a b" "a_b"] true).payload := by
  have hkeys : ([(name_ref, intern_str "requests"), (intern_str "a b", intern_str "1"),
      (intern_str "a_b", intern_str "2")].map Prod.fst).Nodup := by decide
  have henumerates := enumerates_ofWalk hkeys
  have hpasses : passes sortedWalk true (requestsWith "a b" "a_b") = true := by
    rw [passes, requestsWith, TagsValuePair.all_tags_of,
      AreTagsValid_perm ((sortedWalk_enumerates _).perm henumerates)]
    decide +kernel
  intro hunique
  have hnone := (uniqueTagNames_iff 0 sortedWalk_enumerates _).mp hunique _
    (List.mem_filter.mpr ⟨List.mem_singleton_self _, hpasses⟩)
  rw [requestsWith, TagsValuePair.all_tags_of, ← nodup_encoded_iff henumerates] at hnone
  exact absurd hnone (by decide +kernel)

end Payload

end AtlasNative
