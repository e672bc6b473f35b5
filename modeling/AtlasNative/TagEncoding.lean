import AtlasNative.Lib.Replacement
import AtlasNative.Validation

/-!
# What the encoding of tags keeps

Encoding replaces single characters by underscores. The rules for valid tags look at
lengths, at the prefixes of restricted keys and at a few fixed keys, and none of those
prefixes and keys has an underscore; so a tag breaks a rule before the encoding exactly if
it does behind it.
-/

namespace AtlasNative

open Replacement
set_option autoImplicit false

/-- What a table with 128 entries says about any character. -/
def inTable (table : Char → Bool) (ch : Char) : Bool :=
  if ch.toNat ≥ 128 then false else table ch

theorem ToValidTable_toList (table : Char → Bool) (r : StrRef) :
    (ToValidTable table r).str.toList = replaceAll (inTable table) '_' r.str.toList := by
  have hnul : nul ∉ (String.ofList (replaceAll (inTable table) '_' r.str.toList)).toList := by
    rw [String.toList_ofList]
    intro hmem
    obtain ⟨ch, hch, heq⟩ := List.mem_map.mp hmem
    unfold replace at heq
    by_cases hvalid : inTable table ch = true
    · rw [if_pos hvalid] at heq
      exact r.nul_free (heq ▸ hch)
    · rw [if_neg hvalid] at heq
      exact absurd heq (by decide)
  have hkept := c_str_eq_self hnul
  rw [← String.toList_ofList (l := replaceAll (inTable table) '_' r.str.toList), ← hkept]
  rfl

theorem ToValidTable_length (table : Char → Bool) (r : StrRef) :
    (ToValidTable table r).length = r.length := by
  unfold StrRef.length
  rw [← String.length_toList, ← String.length_toList, ToValidTable_toList, replaceAll_length]

theorem ToValidTable_ToValidTable (table : Char → Bool) (r : StrRef) :
    ToValidTable table (ToValidTable table r) = ToValidTable table r := by
  apply StrRef.eq_iff_toList.mpr
  rw [ToValidTable_toList, ToValidTable_toList, replaceAll_replaceAll]

theorem ToValidCharset_ToValidCharset (r : StrRef) :
    ToValidCharset (ToValidCharset r) = ToValidCharset r := ToValidTable_ToValidTable _ r

/-! The alphabets. -/

/-- Letters, digits, dots, hyphens and underscores. -/
def InAlphabet (ch : Char) : Prop :=
  ch.isAlphanum = true ∨ ch = '.' ∨ ch = '-' ∨ ch = '_'

def IsGroup (key : StrRef) : Prop := key = intern_str "nf.asg" ∨ key = intern_str "nf.cluster"

/-- Values of the two group keys may have tildes and carets, too. -/
def InValueAlphabet (key : StrRef) (ch : Char) : Prop :=
  InAlphabet ch ∨ (IsGroup key ∧ (ch = '~' ∨ ch = '^'))

theorem kCharsAllowed_iff (ch : Char) : kCharsAllowed ch = true ↔ InAlphabet ch := by
  unfold kCharsAllowed InAlphabet Char.isAlphanum Char.isAlpha Char.isUpper Char.isLower
    Char.isDigit
  simp only [Bool.or_eq_true, Bool.and_eq_true, decide_eq_true_iff, Char.le_def, ge_iff_le]
  have hdot : 'a'.val = 97 ∧ 'z'.val = 122 ∧ 'A'.val = 65 ∧ 'Z'.val = 90 ∧ '0'.val = 48 ∧
      '9'.val = 57 := by decide
  obtain ⟨ha, hz, hA, hZ, h0, h9⟩ := hdot
  rw [ha, hz, hA, hZ, h0, h9]
  tauto

/-- No character of the alphabets is outside the tables. -/
theorem InAlphabet.lt {ch : Char} (h : InAlphabet ch) : ch.toNat < 128 := by
  rcases h with h | h | h | h
  · unfold Char.isAlphanum Char.isAlpha Char.isUpper Char.isLower Char.isDigit at h
    simp only [Bool.or_eq_true, Bool.and_eq_true, decide_eq_true_iff, ge_iff_le,
      UInt32.le_iff_toNat_le] at h
    change ((65 ≤ ch.toNat ∧ ch.toNat ≤ 90) ∨ (97 ≤ ch.toNat ∧ ch.toNat ≤ 122)) ∨
      (48 ≤ ch.toNat ∧ ch.toNat ≤ 57) at h
    omega
  · subst h
    decide
  · subst h
    decide
  · subst h
    decide

theorem inTable_iff (table : Char → Bool) (ch : Char) :
    inTable table ch = true ↔ ch.toNat < 128 ∧ table ch = true := by
  unfold inTable
  by_cases hch : ch.toNat ≥ 128
  · rw [if_pos hch]
    exact iff_of_false Bool.false_ne_true fun h => absurd h.1 (not_lt.mpr hch)
  · rw [if_neg hch]
    exact (and_iff_right (not_le.mp hch)).symm

theorem inTable_kCharsAllowed (ch : Char) :
    inTable kCharsAllowed ch = true ↔ InAlphabet ch := by
  rw [inTable_iff, kCharsAllowed_iff]
  exact and_iff_right_of_imp InAlphabet.lt

theorem inTable_kGroupCharsAllowed (ch : Char) :
    inTable kGroupCharsAllowed ch = true ↔ InAlphabet ch ∨ ch = '~' ∨ ch = '^' := by
  rw [inTable_iff]
  unfold kGroupCharsAllowed
  rw [Bool.or_eq_true, Bool.or_eq_true, decide_eq_true_iff, decide_eq_true_iff,
    kCharsAllowed_iff, or_assoc]
  apply and_iff_right_of_imp
  intro h
  rcases h with h | h | h
  · exact h.lt
  · subst h
    decide
  · subst h
    decide

theorem mem_ToValidCharset {k : StrRef} {ch : Char} (h : ch ∈ (ToValidCharset k).str.toList) :
    InAlphabet ch := by
  rw [ToValidCharset, ToValidTable_toList] at h
  rcases allowed_of_mem_replaceAll _ _ h with hallowed | hblank
  · exact (inTable_kCharsAllowed ch).mp hallowed
  · exact .inr (.inr (.inr hblank))

theorem EncodeValueForKey_of_group (value : StrRef) {key : StrRef} (h : IsGroup key) :
    EncodeValueForKey value key = ToValidTable kGroupCharsAllowed value := by
  unfold EncodeValueForKey
  rcases h with h | h
  · simp [h]
  · simp [h]

theorem EncodeValueForKey_of_not_group (value : StrRef) {key : StrRef} (h : ¬ IsGroup key) :
    EncodeValueForKey value key = ToValidCharset value := by
  obtain ⟨hasg, hcluster⟩ := not_or.mp h
  unfold EncodeValueForKey ToValidCharset
  simp [Ne.symm hasg, Ne.symm hcluster]

theorem EncodeValueForKey_length (value key : StrRef) :
    (EncodeValueForKey value key).length = value.length := ToValidTable_length _ value

theorem mem_EncodeValueForKey {value key : StrRef} {ch : Char}
    (h : ch ∈ (EncodeValueForKey value key).str.toList) : InValueAlphabet key ch := by
  by_cases hgroup : IsGroup key
  · rw [EncodeValueForKey_of_group value hgroup, ToValidTable_toList] at h
    rcases allowed_of_mem_replaceAll _ _ h with hallowed | hblank
    · rcases (inTable_kGroupCharsAllowed ch).mp hallowed with hplain | hextra
      · exact .inl hplain
      · exact .inr ⟨hgroup, hextra⟩
    · exact .inl (.inr (.inr (.inr hblank)))
  · rw [EncodeValueForKey_of_not_group value hgroup] at h
    exact .inl (mem_ToValidCharset h)

/-! Words without an underscore, which nothing else is encoded as. -/

def Plain (s : String) : Prop := ∀ ch ∈ s.toList, Clean (inTable kCharsAllowed) '_' ch

instance (ch : Char) : Decidable (Clean (inTable kCharsAllowed) '_' ch) :=
  inferInstanceAs (Decidable (inTable kCharsAllowed ch = true ∧ ch ≠ '_'))

instance (s : String) : Decidable (Plain s) := List.decidableBAll _ s.toList

theorem ToValidCharset_eq_iff (k : StrRef) {key : StrRef} (hplain : Plain key.str) :
    ToValidCharset k = key ↔ k = key := by
  rw [StrRef.eq_iff_toList, StrRef.eq_iff_toList, ToValidCharset, ToValidTable_toList,
    replaceAll_eq_iff hplain]

theorem StartsWith_ToValidCharset (k : StrRef) {start : String} (hplain : Plain start) :
    StartsWith (ToValidCharset k) start = StartsWith k start := by
  unfold StartsWith
  rw [ToValidCharset, ToValidTable_toList, isPrefixOf_replaceAll _ hplain]

theorem plain_nf : Plain "nf." := by decide +kernel

theorem plain_atlas : Plain "atlas." := by decide +kernel

theorem plain_name : Plain name_ref.str := by decide +kernel

theorem plain_dstype : Plain (intern_str "atlas.dstype").str := by decide +kernel

theorem plain_legacy : Plain (intern_str "atlas.legacy").str := by decide +kernel

theorem plain_valid_nf_tags : ∀ key ∈ valid_nf_tags, Plain key.str := by decide +kernel

theorem isGroup_ToValidCharset (k : StrRef) : IsGroup (ToValidCharset k) ↔ IsGroup k := by
  have hasg : Plain (intern_str "nf.asg").str := plain_valid_nf_tags _ (by decide)
  have hcluster : Plain (intern_str "nf.cluster").str := plain_valid_nf_tags _ (by decide)
  unfold IsGroup
  rw [ToValidCharset_eq_iff k hasg, ToValidCharset_eq_iff k hcluster]

theorem is_key_restricted_ToValidCharset (k : StrRef) :
    is_key_restricted (ToValidCharset k) = is_key_restricted k := by
  unfold is_key_restricted
  rw [StartsWith_ToValidCharset k plain_nf, StartsWith_ToValidCharset k plain_atlas]

theorem valid_nf_tags_contains_ToValidCharset (k : StrRef) :
    valid_nf_tags.contains (ToValidCharset k) = valid_nf_tags.contains k := by
  apply Bool.eq_iff_iff.mpr
  rw [List.contains_iff_mem, List.contains_iff_mem]
  constructor
  · intro h
    have heq := (ToValidCharset_eq_iff k (plain_valid_nf_tags _ h)).mp rfl
    exact heq ▸ h
  · intro h
    have heq := (ToValidCharset_eq_iff k (plain_valid_nf_tags _ h)).mpr rfl
    exact heq.symm ▸ h

theorem is_user_key_invalid_ToValidCharset (k : StrRef) :
    is_user_key_invalid (ToValidCharset k) = is_user_key_invalid k := by
  unfold is_user_key_invalid
  rw [StartsWith_ToValidCharset k plain_nf, StartsWith_ToValidCharset k plain_atlas,
    valid_nf_tags_contains_ToValidCharset]
  simp only [ne_eq, ToValidCharset_eq_iff k plain_dstype, ToValidCharset_eq_iff k plain_legacy]

/-! One tag. -/

/-- A key and a value as they are sent. -/
def encodeTag (kv : StrRef × StrRef) : StrRef × StrRef :=
  (ToValidCharset kv.1, EncodeValueForKey kv.2 kv.1)

/-- The lengths stay, and the characters are those of the alphabets. -/
def EncodedFrom (kv encoded : StrRef × StrRef) : Prop :=
  encoded.1.length = kv.1.length ∧ encoded.2.length = kv.2.length ∧
    (∀ ch ∈ encoded.1.str.toList, InAlphabet ch) ∧
    ∀ ch ∈ encoded.2.str.toList, InValueAlphabet kv.1 ch

theorem encodeTag_encodedFrom (kv : StrRef × StrRef) : EncodedFrom kv (encodeTag kv) :=
  ⟨ToValidTable_length _ kv.1, EncodeValueForKey_length kv.2 kv.1, fun _ => mem_ToValidCharset,
    fun _ => mem_EncodeValueForKey⟩

theorem encodeTag_encodeTag (kv : StrRef × StrRef) :
    encodeTag (encodeTag kv) = encodeTag kv := by
  unfold encodeTag
  dsimp only
  rw [ToValidCharset_ToValidCharset]
  by_cases hgroup : IsGroup kv.1
  · rw [EncodeValueForKey_of_group kv.2 hgroup,
      EncodeValueForKey_of_group _ ((isGroup_ToValidCharset kv.1).mpr hgroup),
      ToValidTable_ToValidTable]
  · rw [EncodeValueForKey_of_not_group kv.2 hgroup,
      EncodeValueForKey_of_not_group _ (mt (isGroup_ToValidCharset kv.1).mp hgroup),
      ToValidCharset_ToValidCharset]

theorem tagOk_encodeTag (kv : StrRef × StrRef) : TagOk (encodeTag kv) ↔ TagOk kv := by
  obtain ⟨hkey, hvalue, _, _⟩ := encodeTag_encodedFrom kv
  have hname : (encodeTag kv).1 = name_ref ↔ kv.1 = name_ref :=
    ToValidCharset_eq_iff kv.1 plain_name
  have hreserved : is_user_key_invalid (encodeTag kv).1 = is_user_key_invalid kv.1 :=
    is_user_key_invalid_ToValidCharset kv.1
  unfold TagOk empty_or_null
  rw [hkey, hvalue, hreserved]
  simp only [hname]

theorem isUserTag_encodeTag (kv : StrRef × StrRef) : isUserTag (encodeTag kv) = isUserTag kv := by
  have hname : (encodeTag kv).1 = name_ref ↔ kv.1 = name_ref :=
    ToValidCharset_eq_iff kv.1 plain_name
  have hrestricted : is_key_restricted (encodeTag kv).1 = is_key_restricted kv.1 :=
    is_key_restricted_ToValidCharset kv.1
  unfold isUserTag
  rw [hrestricted]
  simp only [hname]

/-! A tag map. -/

/-- The map with every tag encoded. -/
def encodeTags (walk : List (StrRef × StrRef)) : Tags := ofWalk (walk.map encodeTag)

theorem encodeTags_encodeTags {walk walk' : List (StrRef × StrRef)}
    (h : Enumerates walk' (encodeTags walk)) : encodeTags walk' = encodeTags walk := by
  have hfixed : walk'.map encodeTag = walk' := by
    have hid : ∀ encoded ∈ walk', encodeTag encoded = id encoded := by
      intro encoded hencoded
      have hat := (h.2 encoded.1 encoded.2).mp hencoded
      obtain ⟨kv, _, hkv⟩ := List.mem_map.mp (mem_of_at_ofWalk hat)
      have heq : encodeTag kv = encoded := hkv
      rw [← heq]
      exact encodeTag_encodeTag kv
    rw [List.map_congr_left hid, List.map_id]
  rw [encodeTags, hfixed]
  exact (enumerates_ofWalk h.1).unique h

/-- The checks find in the encoded walk what they have found before. -/
theorem checkTags_encodeTag {walk : List (StrRef × StrRef)} {s : TagScan}
    (h : checkTags walk = .ok s) : checkTags (walk.map encodeTag) = .ok s := by
  obtain ⟨⟨hall, hcount, kv, hkv, hname⟩, rfl⟩ := (checkTags_eq_ok_iff walk s).mp h
  have hcount' : (walk.map encodeTag).countP isUserTag = walk.countP isUserTag := by
    rw [List.countP_map]
    apply List.countP_congr
    intro kv _
    rw [Function.comp_apply, isUserTag_encodeTag]
  apply (checkTags_eq_ok_iff _ _).mpr
  rw [hcount']
  refine ⟨⟨?_, hcount, ?_⟩, rfl⟩
  · intro encoded hencoded
    obtain ⟨kv, hkv, rfl⟩ := List.mem_map.mp hencoded
    exact (tagOk_encodeTag kv).mpr (hall kv hkv)
  · exact ⟨encodeTag kv, List.mem_map_of_mem hkv,
      (ToValidCharset_eq_iff kv.1 plain_name).mpr hname⟩

/-- No two keys of the map are encoded alike. -/
def NoCollision (tags : Tags) : Prop :=
  ∀ k ∈ tags.keys, ∀ k' ∈ tags.keys, ToValidCharset k = ToValidCharset k' → k = k'

/-- The names of encoded tags differ pairwise exactly if no two keys collide. -/
theorem nodup_encoded_iff {walk : List (StrRef × StrRef)} {tags : Tags}
    (h : Enumerates walk tags) :
    ((walk.map encodeTag).map Prod.fst).Nodup ↔ NoCollision tags := by
  have hnames : (walk.map encodeTag).map Prod.fst = (walk.map Prod.fst).map ToValidCharset := by
    rw [List.map_map, List.map_map]
    rfl
  rw [hnames, List.nodup_map_iff_inj_on h.1]
  unfold NoCollision
  simp only [h.mem_keys]

/-- Encoding keeps the lengths, ends in the alphabets and is idempotent; without collisions
it keeps a valid map valid, with as many user tags. -/
theorem encodeTags_keeps_valid (tags : Tags) (walk : List (StrRef × StrRef))
    (h : Enumerates walk tags) :
    (∀ kv ∈ walk, EncodedFrom kv (encodeTag kv) ∧ encodeTag (encodeTag kv) = encodeTag kv) ∧
      ∀ walk', Enumerates walk' (encodeTags walk) →
        encodeTags walk' = encodeTags walk ∧
        (AreTagsValid walk = true → NoCollision tags →
          AreTagsValid walk' = true ∧ ∃ s s', checkTags walk = .ok s ∧
            checkTags walk' = .ok s' ∧ s'.user_tags = s.user_tags) := by
  refine ⟨fun kv _ => ⟨encodeTag_encodedFrom kv, encodeTag_encodeTag kv⟩, fun walk' h' => ?_⟩
  refine ⟨encodeTags_encodeTags h', fun hvalid hcollide => ?_⟩
  have henumerates : Enumerates (walk.map encodeTag) (encodeTags walk) :=
    enumerates_ofWalk ((nodup_encoded_iff h).mpr hcollide)
  obtain ⟨s, hs⟩ := AreTagsValid_eq_true.mp hvalid
  have hs' : checkTags walk' = .ok s :=
    (checkTags_perm (henumerates.perm h')).mp (checkTags_encodeTag hs)
  exact ⟨AreTagsValid_eq_true.mpr ⟨s, hs'⟩, s, s, hs, hs', rfl⟩

theorem encodeTags_keeps_valid_two :
    AreTagsValid [(name_ref, intern_str "requests"), (intern_str "a_b", intern_str "x_y")] = true ∧
      ∃ s s',
        checkTags [(name_ref, intern_str "requests"), (intern_str "a b", intern_str "x/y")] =
          .ok s ∧
        checkTags [(name_ref, intern_str "requests"), (intern_str "a_b", intern_str "x_y")] =
          .ok s' ∧ s'.user_tags = s.user_tags := by
  have hkeys : ([(name_ref, intern_str "requests"), (intern_str "a b", intern_str "x/y")].map
      Prod.fst).Nodup := by decide
  have hencoded : [(name_ref, intern_str "requests"), (intern_str "a b", intern_str "x/y")].map
      encodeTag = [(name_ref, intern_str "requests"), (intern_str "a_b", intern_str "x_y")] := by
    decide
  have hnames : ([(name_ref, intern_str "requests"), (intern_str "a_b", intern_str "x_y")].map
      Prod.fst).Nodup := by decide
  have henumerates := enumerates_ofWalk hkeys
  have hencoded_names := enumerates_ofWalk hnames
  rw [← hencoded] at hnames hencoded_names
  have hkept := (encodeTags_keeps_valid _ _ henumerates).2 _ hencoded_names
  rw [hencoded] at hkept
  exact hkept.2 (by decide) ((nodup_encoded_iff henumerates).mp hnames)

end AtlasNative
