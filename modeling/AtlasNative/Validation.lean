import AtlasNative.Lib.ExceptRuns
import AtlasNative.Tags

/-!
# The validation and the encoding of tags

`AreTagsValid` is one walk over the tags, which it leaves at the first tag that breaks a
rule, and two checks of what the walk has counted. Characters outside the alphabet of the
backends are not against the rules: they are replaced before tags are sent.
-/

namespace AtlasNative

set_option autoImplicit false

def MAX_KEY_LENGTH : ℕ := 60

def MAX_VAL_LENGTH : ℕ := 120

def MAX_USER_TAGS : ℕ := 20

def MAX_NAME_LENGTH : ℕ := 255

def is_key_restricted (k : StrRef) : Bool := StartsWith k "nf." || StartsWith k "atlas."

def valid_nf_tags : List StrRef :=
  ["nf.node", "nf.cluster", "nf.app", "nf.asg", "nf.stack", "nf.ami", "nf.vmtype", "nf.zone",
    "nf.region", "nf.account", "nf.country", "nf.task", "nf.country.rollup"].map intern_str

def is_user_key_invalid (k : StrRef) : Bool :=
  if StartsWith k "atlas." then
    k ≠ intern_str "atlas.dstype" && k ≠ intern_str "atlas.legacy"
  else if StartsWith k "nf." then !valid_nf_tags.contains k
  else false

/-- The references of a tag map are never null. -/
def empty_or_null (r : StrRef) : Bool := r.length = 0

/-- What the walk over the tags has counted. -/
structure TagScan where
  user_tags : ℕ
  name_seen : Bool
  deriving DecidableEq

/-- The body of the loop in `AreTagsValid`, or the message with which it is left. -/
def scanTag (s : TagScan) (kv : StrRef × StrRef) : Except String TagScan :=
  let k_ref := kv.1
  let v_ref := kv.2
  if empty_or_null k_ref || empty_or_null v_ref then
    .error "Tag keys or values cannot be empty"
  else if k_ref = name_ref then
    if v_ref.length > MAX_NAME_LENGTH then
      .error ("value for name exceeds length limit (" ++ toString v_ref.length ++ " > " ++
        toString MAX_NAME_LENGTH ++ ")")
    else .ok ⟨s.user_tags + 1, true⟩
  else if k_ref.length > MAX_KEY_LENGTH || v_ref.length > MAX_VAL_LENGTH then
    .error ("Tag " ++ k_ref.str ++ "=" ++ v_ref.str ++ " exceeds length limits (" ++
      toString k_ref.length ++ "-" ++ toString MAX_KEY_LENGTH ++ ", " ++
      toString v_ref.length ++ "-" ++ toString MAX_VAL_LENGTH ++ ")")
  else
    let user_tags := if is_key_restricted k_ref then s.user_tags else s.user_tags + 1
    if is_user_key_invalid k_ref then .error (k_ref.str ++ " is using a reserved namespace")
    else .ok ⟨user_tags, s.name_seen⟩

/-- The tags in the order of the walk; an error is the message that is logged. -/
def checkTags (walk : List (StrRef × StrRef)) : Except String TagScan := do
  let s ← walk.foldlM scanTag ⟨0, false⟩
  if s.user_tags > MAX_USER_TAGS then
    throw ("Too many user tags. There is a " ++ toString MAX_USER_TAGS ++
      " user tags limit. Detected user tags = " ++ toString s.user_tags ++ ")")
  if !s.name_seen then throw "name is a required tag"
  return s

def AreTagsValid (walk : List (StrRef × StrRef)) : Bool := (checkTags walk).isOk

/-- A tag that breaks no rule. -/
def TagOk (kv : StrRef × StrRef) : Prop :=
  empty_or_null kv.1 = false ∧ empty_or_null kv.2 = false ∧
    if kv.1 = name_ref then kv.2.length ≤ MAX_NAME_LENGTH
    else kv.1.length ≤ MAX_KEY_LENGTH ∧ kv.2.length ≤ MAX_VAL_LENGTH ∧
      is_user_key_invalid kv.1 = false

/-- A tag that counts against the limit; `name` does, too. -/
def isUserTag (kv : StrRef × StrRef) : Bool := kv.1 = name_ref || !is_key_restricted kv.1

theorem TagOk_name_iff {kv : StrRef × StrRef} (hk : empty_or_null kv.1 = false)
    (hv : empty_or_null kv.2 = false) (hname : kv.1 = name_ref) :
    TagOk kv ↔ kv.2.length ≤ MAX_NAME_LENGTH := by
  rw [TagOk, if_pos hname]
  exact ⟨fun h => h.2.2, fun h => ⟨hk, hv, h⟩⟩

theorem TagOk_other_iff {kv : StrRef × StrRef} (hk : empty_or_null kv.1 = false)
    (hv : empty_or_null kv.2 = false) (hname : kv.1 ≠ name_ref) :
    TagOk kv ↔ kv.1.length ≤ MAX_KEY_LENGTH ∧ kv.2.length ≤ MAX_VAL_LENGTH ∧
      is_user_key_invalid kv.1 = false := by
  rw [TagOk, if_neg hname]
  exact ⟨fun h => h.2.2, fun h => ⟨hk, hv, h⟩⟩

/-- The loop goes on after exactly the tags that break no rule. -/
theorem scanTag_eq_ok_iff (s s' : TagScan) (kv : StrRef × StrRef) :
    scanTag s kv = .ok s' ↔
      TagOk kv ∧ s' = ⟨s.user_tags + if isUserTag kv then 1 else 0,
        s.name_seen || decide (kv.1 = name_ref)⟩ := by
  obtain ⟨k, v⟩ := kv
  unfold scanTag isUserTag
  dsimp only
  by_cases hempty : (empty_or_null k || empty_or_null v) = true
  · rw [if_pos hempty]
    refine ⟨fun h => (by cases h), ?_⟩
    intro hgiven
    rcases hgiven with ⟨⟨hk, hv, _⟩, _⟩
    rw [hk, hv] at hempty
    cases hempty
  · rw [if_neg hempty]
    obtain ⟨hk, hv⟩ := Bool.or_eq_false_iff.mp (Bool.eq_false_iff.mpr hempty)
    by_cases hname : k = name_ref
    · rw [if_pos hname, TagOk_name_iff hk hv hname]
      by_cases hlength : v.length > MAX_NAME_LENGTH
      · rw [if_pos hlength]
        exact ⟨fun h => (by cases h), fun h => absurd h.1 (not_le.mpr hlength)⟩
      · rw [if_neg hlength, decide_eq_true hname, Bool.true_or, Bool.or_true, if_pos rfl,
          Except.ok.injEq, eq_comm, and_iff_right (not_lt.mp hlength)]
    · rw [if_neg hname, TagOk_other_iff hk hv hname]
      by_cases hlength : (k.length > MAX_KEY_LENGTH || v.length > MAX_VAL_LENGTH) = true
      · rw [if_pos hlength]
        refine ⟨fun h => (by cases h), ?_⟩
        intro hgiven
        rw [Bool.or_eq_true, decide_eq_true_iff, decide_eq_true_iff] at hlength
        rcases hlength with hkey | hval
        · exact absurd hgiven.1.1 (not_le.mpr hkey)
        · exact absurd hgiven.1.2.1 (not_le.mpr hval)
      · rw [if_neg hlength]
        rw [Bool.or_eq_true, decide_eq_true_iff, decide_eq_true_iff, not_or] at hlength
        have hlengths : k.length ≤ MAX_KEY_LENGTH ∧ v.length ≤ MAX_VAL_LENGTH :=
          ⟨not_lt.mp hlength.1, not_lt.mp hlength.2⟩
        by_cases hreserved : is_user_key_invalid k = true
        · rw [if_pos hreserved]
          refine ⟨fun h => (by cases h), ?_⟩
          intro hgiven
          rw [hgiven.1.2.2] at hreserved
          cases hreserved
        · rw [if_neg hreserved, decide_eq_false hname, Bool.false_or, Bool.or_false,
            Except.ok.injEq, eq_comm]
          have hcount : (if is_key_restricted k = true then s.user_tags else s.user_tags + 1) =
              s.user_tags + if (!is_key_restricted k) = true then 1 else 0 := by
            cases is_key_restricted k <;> rfl
          rw [hcount, and_iff_right ⟨hlengths.1, hlengths.2, Bool.eq_false_iff.mpr hreserved⟩]

theorem foldlM_scanTag_eq_ok_iff (walk : List (StrRef × StrRef)) (s s' : TagScan) :
    walk.foldlM scanTag s = .ok s' ↔
      (∀ kv ∈ walk, TagOk kv) ∧ s' = ⟨s.user_tags + walk.countP isUserTag,
        s.name_seen || walk.any fun kv => kv.1 = name_ref⟩ := by
  induction walk generalizing s with
  | nil =>
    rw [List.foldlM_nil]
    simp [pure, Except.pure, eq_comm]
  | cons kv walk ih =>
    rw [List.foldlM_cons, ExceptRuns.bind_eq_ok, List.forall_mem_cons, List.countP_cons,
      List.any_cons]
    constructor
    · intro h
      rcases h with ⟨t, ht, hrest⟩
      obtain ⟨hok, rfl⟩ := (scanTag_eq_ok_iff s t kv).mp ht
      obtain ⟨hall, rfl⟩ := (ih _).mp hrest
      refine ⟨⟨hok, hall⟩, ?_⟩
      dsimp only
      rw [TagScan.mk.injEq, Bool.or_assoc]
      exact ⟨by omega, rfl⟩
    · intro h
      rcases h with ⟨⟨hok, hall⟩, rfl⟩
      refine ⟨_, (scanTag_eq_ok_iff s _ kv).mpr ⟨hok, rfl⟩, (ih _).mpr ⟨hall, ?_⟩⟩
      dsimp only
      rw [TagScan.mk.injEq, Bool.or_assoc]
      exact ⟨by omega, rfl⟩

/-- The two checks behind the walk. -/
theorem checkTags_eq_ok_iff (walk : List (StrRef × StrRef)) (s : TagScan) :
    checkTags walk = .ok s ↔
      ((∀ kv ∈ walk, TagOk kv) ∧ walk.countP isUserTag ≤ MAX_USER_TAGS ∧
        ∃ kv ∈ walk, kv.1 = name_ref) ∧ s = ⟨walk.countP isUserTag, true⟩ := by
  have hnamed : (walk.any fun kv => decide (kv.1 = name_ref)) = true ↔
      ∃ kv ∈ walk, kv.1 = name_ref := by
    rw [List.any_eq_true]
    simp only [decide_eq_true_iff]
  rw [checkTags, ExceptRuns.bind_eq_ok]
  constructor
  · intro h
    rcases h with ⟨t, hfold, hchecks⟩
    obtain ⟨hall, rfl⟩ := (foldlM_scanTag_eq_ok_iff walk _ t).mp hfold
    dsimp only at hchecks
    rw [Nat.zero_add, Bool.false_or] at hchecks
    by_cases hmany : walk.countP isUserTag > MAX_USER_TAGS
    · simp [hmany, throw, throwThe, MonadExceptOf.throw, bind, Except.bind] at hchecks
    · cases hname : walk.any fun kv => decide (kv.1 = name_ref) with
      | false =>
        simp [hmany, hname, throw, throwThe, MonadExceptOf.throw, bind, Except.bind] at hchecks
      | true =>
        simp [hmany, hname, pure, Except.pure] at hchecks
        exact ⟨⟨hall, not_lt.mp hmany, hnamed.mp hname⟩, hchecks.symm⟩
  · intro h
    rcases h with ⟨⟨hall, hmany, hname⟩, rfl⟩
    refine ⟨_, (foldlM_scanTag_eq_ok_iff walk _ _).mpr ⟨hall, rfl⟩, ?_⟩
    rw [hnamed.mpr hname]
    simp [not_lt.mpr hmany, pure, Except.pure]

theorem AreTagsValid_eq_true {walk : List (StrRef × StrRef)} :
    AreTagsValid walk = true ↔ ∃ s, checkTags walk = .ok s := by
  unfold AreTagsValid
  cases checkTags walk with
  | error message => exact iff_of_false Bool.false_ne_true fun ⟨_, h⟩ => by cases h
  | ok s => exact iff_of_true rfl ⟨s, rfl⟩

theorem AreTagsValid_iff (walk : List (StrRef × StrRef)) :
    AreTagsValid walk = true ↔
      (∀ kv ∈ walk, TagOk kv) ∧ walk.countP isUserTag ≤ MAX_USER_TAGS ∧
        ∃ kv ∈ walk, kv.1 = name_ref := by
  rw [AreTagsValid_eq_true]
  simp only [checkTags_eq_ok_iff]
  exact ⟨fun ⟨_, h, _⟩ => h, fun h => ⟨_, h, rfl⟩⟩

/-- The order of the walk does not matter, neither to the counts nor to the verdict. -/
theorem checkTags_perm {walk walk' : List (StrRef × StrRef)} (h : walk.Perm walk')
    {s : TagScan} : checkTags walk = .ok s ↔ checkTags walk' = .ok s := by
  rw [checkTags_eq_ok_iff, checkTags_eq_ok_iff, h.countP_eq]
  simp only [h.mem_iff]

theorem AreTagsValid_perm {walk walk' : List (StrRef × StrRef)} (h : walk.Perm walk') :
    AreTagsValid walk = AreTagsValid walk' := by
  apply Bool.eq_iff_iff.mpr
  rw [AreTagsValid_eq_true, AreTagsValid_eq_true]
  exact exists_congr fun _ => checkTags_perm h

/-- `kCharsAllowed`, below 128 -/
def kCharsAllowed (ch : Char) : Bool :=
  ch = '.' || ch = '-' || ch = '_' || ('0' ≤ ch && ch ≤ '9') || ('a' ≤ ch && ch ≤ 'z') ||
    ('A' ≤ ch && ch ≤ 'Z')

/-- `kGroupCharsAllowed`, below 128 -/
def kGroupCharsAllowed (ch : Char) : Bool := kCharsAllowed ch || ch = '~' || ch = '^'

/-- The tables have 128 entries; no character beyond them is valid. -/
def ToValidTable (table : Char → Bool) (atlas_str_ref : StrRef) : StrRef :=
  intern_str (String.ofList (atlas_str_ref.str.toList.map fun ch =>
    let valid := if ch.toNat ≥ 128 then false else table ch
    if valid then ch else '_'))

def ToValidCharset (atlas_str_ref : StrRef) : StrRef := ToValidTable kCharsAllowed atlas_str_ref

def EncodeValueForKey (value key : StrRef) : StrRef :=
  let isGroup := intern_str "nf.asg" = key || intern_str "nf.cluster" = key
  ToValidTable (if isGroup then kGroupCharsAllowed else kCharsAllowed) value

end AtlasNative
