import AtlasNative.Lib.ExactDouble
import AtlasNative.Strings
import Mathlib.Data.Finmap
import Mathlib.Data.Finset.Sort

/-!
# Tags, ids, measurements and tag/value pairs

A tag map is a finite map, so that two maps with the same entries are equal
whatever order their hash tables iterate in. Where the code walks over the
entries, the order of the walk is passed to the model explicitly.
-/

namespace AtlasNative

open ExactDouble
set_option autoImplicit false

abbrev Tags := Finmap (fun _ : StrRef => StrRef)

namespace Tags

/-- `Tags::at`; the null reference when the key is missing. -/
def at_ (tags : Tags) (key : StrRef) : Option StrRef := tags.lookup key

def has (tags : Tags) (key : StrRef) : Bool := (tags.lookup key).isSome

def add (tags : Tags) (k v : StrRef) : Tags := tags.insert k v

/-- The entries of `source` overwrite those of `tags`. -/
def add_all (tags source : Tags) : Tags := source ∪ tags

/-- `Tags{{k1, v1}, {k2, v2}, ...}` from C strings -/
def of (vs : List (String × String)) : Tags :=
  vs.foldl (fun tags p => tags.add (intern_str p.1) (intern_str p.2)) ∅

theorem at_add (tags : Tags) (k v key : StrRef) :
    (tags.add k v).at_ key = if key = k then some v else tags.at_ key := by
  by_cases h : key = k
  · subst h
    simp [add, at_]
  · simp [add, at_, h, Finmap.lookup_insert_of_ne]

theorem at_add_all (tags source : Tags) (key : StrRef) :
    (tags.add_all source).at_ key = (source.at_ key).or (tags.at_ key) := by
  unfold add_all at_
  by_cases h : key ∈ source
  · rw [Finmap.lookup_union_left h]
    obtain ⟨v, hv⟩ := Finmap.mem_iff.mp h
    rw [hv, Option.some_or]
  · rw [Finmap.lookup_union_right h, Finmap.lookup_eq_none.mpr h, Option.none_or]

end Tags

structure Id where
  name_ : StrRef
  tags_ : Tags
  deriving DecidableEq

namespace Id

def WithTag (id : Id) (key value : StrRef) : Id := { id with tags_ := id.tags_.add key value }

end Id

/-- The id itself when it already has the key, else a copy with the default tag. -/
def WithDefaultTagForId (id : Id) (key value : StrRef) : Id :=
  if id.tags_.has key then id else id.WithTag key value

def statistic : StrRef := intern_str "statistic"

/-- The tag `statistic=gauge`, then `atlas.dstype=gauge`. -/
def WithDefaultGaugeTags (id : Id) : Id :=
  WithDefaultTagForId (WithDefaultTagForId id statistic (intern_str "gauge"))
    (intern_str "atlas.dstype") (intern_str "gauge")

structure Measurement where
  id : Id
  timestamp : ℤ
  value : Double
  deriving DecidableEq

abbrev Measurements := List Measurement

def name_ref : StrRef := intern_str "name"

/-- `SimpleTagsValuePair`, or `IdTagsValuePair` with the tags of an id and the
common tags behind them. -/
inductive TagsValuePair where
  | simple (tags_ : Tags) (value_ : Double)
  | withId (id_ : Id) (common_tags_ : Tags) (value_ : Double)
  deriving DecidableEq

namespace TagsValuePair

def value : TagsValuePair → Double
  | .simple _ v => v
  | .withId _ _ v => v

def get_value (key : StrRef) : TagsValuePair → Option StrRef
  | .simple tags _ => tags.at_ key
  | .withId id common_tags _ =>
    if key = name_ref then some id.name_
    else (id.tags_.at_ key).or (common_tags.at_ key)

def all_tags : TagsValuePair → Tags
  | .simple tags _ => tags
  | .withId id common_tags _ => (common_tags.add_all id.tags_).add name_ref id.name_

def «from» (measurement : Measurement) (common_tags : Tags) : TagsValuePair :=
  .withId measurement.id common_tags measurement.value

def of (tags : Tags) (value : Double) : TagsValuePair := .simple tags value

@[simp] theorem value_of (tags : Tags) (v : Double) : (of tags v).value = v := rfl

@[simp] theorem all_tags_of (tags : Tags) (v : Double) : (of tags v).all_tags = tags := rfl

end TagsValuePair

/-- One walk over the entries of a tag map, in the order of its hash table. -/
def Enumerates (walk : List (StrRef × StrRef)) (tags : Tags) : Prop :=
  (walk.map Prod.fst).Nodup ∧ ∀ k v, (k, v) ∈ walk ↔ tags.at_ k = some v

theorem Enumerates.perm {tags : Tags} {walk walk' : List (StrRef × StrRef)}
    (h : Enumerates walk tags) (h' : Enumerates walk' tags) : walk.Perm walk' := by
  apply (List.perm_ext_iff_of_nodup h.1.of_map h'.1.of_map).mpr
  intro hgiven
  rcases hgiven with ⟨k, v⟩
  rw [h.2, h'.2]

theorem Enumerates.unique {walk : List (StrRef × StrRef)} {tags tags' : Tags}
    (h : Enumerates walk tags) (h' : Enumerates walk tags') : tags = tags' := by
  apply Finmap.ext_lookup
  intro k
  apply Option.ext
  intro v
  exact (h.2 k v).symm.trans (h'.2 k v)

theorem Enumerates.mem_map_fst {walk : List (StrRef × StrRef)} {tags : Tags}
    (h : Enumerates walk tags) (k : StrRef) :
    k ∈ walk.map Prod.fst ↔ (tags.at_ k).isSome = true := by
  rw [Option.isSome_iff_exists, List.mem_map]
  constructor
  · intro hgiven
    rcases hgiven with ⟨⟨k, v⟩, hkv, rfl⟩
    exact ⟨v, (h.2 k v).mp hkv⟩
  · intro hgiven
    rcases hgiven with ⟨v, hv⟩
    exact ⟨(k, v), (h.2 k v).mpr hv, rfl⟩

theorem Enumerates.mem_keys {walk : List (StrRef × StrRef)} {tags : Tags}
    (h : Enumerates walk tags) (k : StrRef) : k ∈ tags.keys ↔ k ∈ walk.map Prod.fst := by
  rw [h.mem_map_fst, Finmap.mem_keys, Finmap.mem_iff, Option.isSome_iff_exists]
  rfl

/-- The map of the entries of a walk; of entries with one key the last stays. -/
def ofWalk (walk : List (StrRef × StrRef)) : Tags :=
  walk.foldl (fun tags kv => tags.add kv.1 kv.2) ∅

theorem mem_of_at_ofWalk {walk : List (StrRef × StrRef)} {k v : StrRef}
    (h : (ofWalk walk).at_ k = some v) : (k, v) ∈ walk := by
  unfold ofWalk at h
  induction walk using List.reverseRecOn with
  | nil => cases h
  | append_singleton walk kv ih =>
    rw [List.foldl_append, List.foldl_cons, List.foldl_nil, Tags.at_add] at h
    rw [List.mem_append, List.mem_singleton]
    by_cases hk : k = kv.1
    · rw [if_pos hk] at h
      exact .inr (Prod.ext hk (Option.some.inj h).symm)
    · rw [if_neg hk] at h
      exact .inl (ih h)

theorem enumerates_ofWalk {walk : List (StrRef × StrRef)} (h : (walk.map Prod.fst).Nodup) :
    Enumerates walk (ofWalk walk) := by
  refine ⟨h, fun k v => ⟨?_, mem_of_at_ofWalk⟩⟩
  unfold ofWalk
  induction walk using List.reverseRecOn with
  | nil => exact fun hmem => absurd hmem List.not_mem_nil
  | append_singleton walk kv ih =>
    intro hmem
    rw [List.map_append, List.nodup_append] at h
    obtain ⟨hnodup, _, hdisjoint⟩ := h
    rw [List.foldl_append, List.foldl_cons, List.foldl_nil, Tags.at_add]
    rcases List.mem_append.mp hmem with hmem | hmem
    · have hne : k ≠ kv.1 :=
        hdisjoint k (List.mem_map_of_mem hmem) kv.1 (List.mem_singleton_self _)
      rw [if_neg hne]
      exact ih hnodup hmem
    · have heq := List.mem_singleton.mp hmem
      rw [← heq, if_pos rfl]

def sortedWalk (tags : Tags) : List (StrRef × StrRef) :=
  ((tags.keys.image StrRef.str).sort).filterMap fun s =>
    (tags.at_ (intern_str s)).map fun v => (intern_str s, v)

theorem mem_keys_image {tags : Tags} {s : String} :
    s ∈ (tags.keys.image StrRef.str).sort ↔ ∃ k v, tags.at_ k = some v ∧ k.str = s := by
  simp [Finmap.mem_keys, Finmap.mem_iff, Tags.at_]

theorem sortedWalk_enumerates (tags : Tags) : Enumerates (sortedWalk tags) tags := by
  constructor
  · have hkeys : (sortedWalk tags).map Prod.fst =
        ((tags.keys.image StrRef.str).sort).map intern_str := by
      rw [sortedWalk, List.map_filterMap, ← List.filterMap_eq_map]
      apply List.filterMap_congr
      intro s hs
      obtain ⟨k, v, hv, rfl⟩ := mem_keys_image.mp hs
      simp [hv]
    rw [hkeys]
    apply List.Nodup.map_on _ (Finset.sort_nodup _ _)
    intro s hs s' hs' heq
    obtain ⟨k, v, hv, rfl⟩ := mem_keys_image.mp hs
    obtain ⟨k', v', hv', rfl⟩ := mem_keys_image.mp hs'
    rw [intern_str_str, intern_str_str] at heq
    rw [heq]
  · intro k v
    simp only [sortedWalk, List.mem_filterMap, Option.map_eq_some_iff, Prod.mk.injEq]
    constructor
    · intro h
      rcases h with ⟨s, _, _, hat, rfl, rfl⟩
      exact hat
    · intro hat
      refine ⟨k.str, mem_keys_image.mpr ⟨k, v, hat, rfl⟩, v, ?_, intern_str_str k, rfl⟩
      rw [intern_str_str, hat]

end AtlasNative
