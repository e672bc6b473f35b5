import AtlasNative.Validation

/-!
# The analysis of tags

`AnalyzeTags` knows the rules of `AreTagsValid` a second time. It never leaves its walk:
every tag adds the issues it has, characters that will be replaced among them, to a set
that is ordered by level and text. The two agree when errors are counted and warnings are
not.
-/

namespace AtlasNative

set_option autoImplicit false

inductive Level where
  | WARN
  | ERROR
  deriving DecidableEq

structure ValidationIssue where
  level : Level
  description : String
  deriving DecidableEq

namespace ValidationIssue

def Err (message : String) : ValidationIssue := ⟨.ERROR, message⟩

def Warn (message : String) : ValidationIssue := ⟨.WARN, message⟩

/-- `operator<`, by the level and then by the text -/
instance : LT ValidationIssue where
  lt a b := (a.level = .WARN ∧ b.level = .ERROR) ∨
    (a.level = b.level ∧ a.description < b.description)

theorem not_lt_self (a : ValidationIssue) : ¬ a < a := by
  intro h
  rcases h with ⟨hwarn, herror⟩ | ⟨_, htext⟩
  · rw [hwarn] at herror
    cases herror
  · exact lt_irrefl _ htext

/-- A `std::set` keeps one of two issues when neither is before the other. They are equal
then, so that the set is a finite set. -/
theorem eq_iff_not_lt (a b : ValidationIssue) : a = b ↔ ¬ a < b ∧ ¬ b < a := by
  constructor
  · intro h
    subst h
    exact ⟨not_lt_self a, not_lt_self a⟩
  · intro h
    obtain ⟨hab, hba⟩ := h
    obtain ⟨hlevels, htext⟩ := not_or.mp hab
    obtain ⟨hlevels', htext'⟩ := not_or.mp hba
    have hlevel : a.level = b.level := by
      cases ha : a.level <;> cases hb : b.level
      · rfl
      · exact absurd ⟨ha, hb⟩ hlevels
      · exact absurd ⟨hb, ha⟩ hlevels'
      · rfl
    have hdescription : a.description = b.description :=
      le_antisymm (not_lt.mp fun h => htext' ⟨hlevel.symm, h⟩)
        (not_lt.mp fun h => htext ⟨hlevel, h⟩)
    cases a
    cases b
    cases hlevel
    cases hdescription
    rfl

end ValidationIssue

abbrev ValidationIssues := Finset ValidationIssue

/-! What the body of the loop adds for one tag, in its order. -/

def charsetIssues (k_ref v_ref : StrRef) : List ValidationIssue :=
  let validated_key := ToValidCharset k_ref
  let validated_val := EncodeValueForKey v_ref k_ref
  (if validated_key ≠ k_ref then
    [.Warn ("Key: '" ++ k_ref.str ++ "' will be encoded as '" ++ validated_key.str ++ "'")]
  else []) ++
  if validated_val ≠ v_ref then
    [.Warn ("Value: '" ++ v_ref.str ++ "' for key '" ++ k_ref.str ++ "' will be encoded as '" ++
      validated_val.str ++ "'")]
  else []

def emptyIssues (k_ref v_ref : StrRef) : List ValidationIssue :=
  if empty_or_null k_ref && empty_or_null v_ref then
    [.Err "Tags cannot be empty. Found empty key and value."]
  else if empty_or_null k_ref then
    [.Err ("Empty key found with value '" ++ v_ref.str ++ "'")]
  else if empty_or_null v_ref then
    [.Err ("Tag value for key '" ++ k_ref.str ++ "' cannot be empty")]
  else []

def nameIssues (v_ref : StrRef) : List ValidationIssue :=
  if v_ref.length > MAX_NAME_LENGTH then
    [.Err ("value for name exceeds length limit (" ++ toString v_ref.length ++ " > " ++
      toString MAX_NAME_LENGTH ++ ")")]
  else []

def userIssues (k_ref v_ref : StrRef) : List ValidationIssue :=
  (if k_ref.length > MAX_KEY_LENGTH then
    [.Err ("Tag key '" ++ k_ref.str ++ "' exceeds length limits (" ++ toString k_ref.length ++
      "-" ++ toString MAX_KEY_LENGTH ++ ")")]
  else []) ++
  (if v_ref.length > MAX_VAL_LENGTH then
    [.Err ("Tag value '" ++ v_ref.str ++ "' for key '" ++ k_ref.str ++
      "' exceeds length limits (" ++ toString v_ref.length ++ "-" ++ toString MAX_VAL_LENGTH ++
      ")")]
  else []) ++
  if is_user_key_invalid k_ref then
    [.Err ("Tag key '" ++ k_ref.str ++ "' is using a reserved namespace")]
  else []

def tagIssues (kv : StrRef × StrRef) : List ValidationIssue :=
  charsetIssues kv.1 kv.2 ++ emptyIssues kv.1 kv.2 ++
    if kv.1 = name_ref then nameIssues kv.2 else userIssues kv.1 kv.2

/-- The issues so far, and what has been counted beside them. -/
structure Analysis where
  result : ValidationIssues
  user_tags : ℕ
  name_seen : Bool

/-- The body of the loop in `AnalyzeTags`. -/
def analyzeTag (s : Analysis) (kv : StrRef × StrRef) : Analysis where
  result := s.result ∪ (tagIssues kv).toFinset
  user_tags :=
    if kv.1 = name_ref then s.user_tags + 1
    else if !is_key_restricted kv.1 then s.user_tags + 1
    else s.user_tags
  name_seen := if kv.1 = name_ref then true else s.name_seen

/-- What is added behind the loop. -/
def countIssues (user_tags : ℕ) (name_seen : Bool) : List ValidationIssue :=
  (if user_tags > MAX_USER_TAGS then
    [.Err ("Too many user tags. There is a limit of " ++ toString MAX_USER_TAGS ++
      " user tags. Detected user tags = " ++ toString user_tags)]
  else []) ++
  if !name_seen then [.Err "name is a required tag"] else []

def AnalyzeTags (walk : List (StrRef × StrRef)) : ValidationIssues :=
  let s := walk.foldl analyzeTag ⟨∅, 0, false⟩
  s.result ∪ (countIssues s.user_tags s.name_seen).toFinset

/-- There is an issue of level `ERROR`. -/
def HasError (issues : ValidationIssues) : Prop := ∃ issue ∈ issues, issue.level = .ERROR

instance (issues : ValidationIssues) : Decidable (HasError issues) :=
  inferInstanceAs (Decidable (∃ issue ∈ issues, issue.level = .ERROR))

@[simp] theorem hasError_empty : ¬ HasError ∅ := by simp [HasError]

@[simp] theorem hasError_union (issues issues' : ValidationIssues) :
    HasError (issues ∪ issues') ↔ HasError issues ∨ HasError issues' := by
  simp only [HasError, Finset.mem_union, or_and_right, exists_or]

@[simp] theorem hasError_append (issues issues' : List ValidationIssue) :
    HasError (issues ++ issues').toFinset ↔
      HasError issues.toFinset ∨ HasError issues'.toFinset := by
  rw [List.toFinset_append, hasError_union]

/-- An error that is added under a condition. -/
@[simp] theorem hasError_ite_err (p : Prop) [Decidable p] (message : String) :
    HasError (if p then [ValidationIssue.Err message] else []).toFinset ↔ p := by
  by_cases h : p <;> simp [HasError, ValidationIssue.Err, h]

@[simp] theorem hasError_ite_warn (p : Prop) [Decidable p] (message : String) :
    ¬ HasError (if p then [ValidationIssue.Warn message] else []).toFinset := by
  by_cases h : p <;> simp [HasError, ValidationIssue.Warn, h]

theorem charsetIssues_no_error (k_ref v_ref : StrRef) :
    ¬ HasError (charsetIssues k_ref v_ref).toFinset := by
  unfold charsetIssues
  rw [hasError_append, not_or]
  exact ⟨hasError_ite_warn _ _, hasError_ite_warn _ _⟩

theorem emptyIssues_error_iff (k_ref v_ref : StrRef) :
    HasError (emptyIssues k_ref v_ref).toFinset ↔
      empty_or_null k_ref = true ∨ empty_or_null v_ref = true := by
  unfold emptyIssues HasError ValidationIssue.Err
  cases empty_or_null k_ref <;> cases empty_or_null v_ref <;> simp

theorem nameIssues_error_iff (v_ref : StrRef) :
    HasError (nameIssues v_ref).toFinset ↔ v_ref.length > MAX_NAME_LENGTH := by
  unfold nameIssues
  exact hasError_ite_err _ _

theorem userIssues_error_iff (k_ref v_ref : StrRef) :
    HasError (userIssues k_ref v_ref).toFinset ↔
      (k_ref.length > MAX_KEY_LENGTH ∨ v_ref.length > MAX_VAL_LENGTH) ∨
        is_user_key_invalid k_ref = true := by
  unfold userIssues
  rw [hasError_append, hasError_append, hasError_ite_err, hasError_ite_err, hasError_ite_err]

/-- A tag adds an error if and only if it breaks a rule. -/
theorem tagIssues_error_iff (kv : StrRef × StrRef) :
    HasError (tagIssues kv).toFinset ↔ ¬ TagOk kv := by
  unfold tagIssues TagOk
  rw [hasError_append, hasError_append, emptyIssues_error_iff]
  have hno := charsetIssues_no_error kv.1 kv.2
  by_cases hname : kv.1 = name_ref
  · rw [if_pos hname, if_pos hname, nameIssues_error_iff]
    cases empty_or_null kv.1 <;> cases empty_or_null kv.2 <;> simp [hno]
  · rw [if_neg hname, if_neg hname, userIssues_error_iff]
    cases empty_or_null kv.1 <;> cases empty_or_null kv.2 <;>
      cases is_user_key_invalid kv.1 <;> simp [hno]
    omega

theorem countIssues_error_iff (user_tags : ℕ) (name_seen : Bool) :
    HasError (countIssues user_tags name_seen).toFinset ↔
      user_tags > MAX_USER_TAGS ∨ name_seen = false := by
  unfold countIssues
  rw [hasError_append, hasError_ite_err, hasError_ite_err, Bool.not_eq_true']

/-- What a walk leaves behind: the errors of its tags, and the counts of `AreTagsValid`. -/
theorem foldl_analyzeTag (walk : List (StrRef × StrRef)) (s : Analysis) :
    (walk.foldl analyzeTag s).user_tags = s.user_tags + walk.countP isUserTag ∧
      (walk.foldl analyzeTag s).name_seen =
        (s.name_seen || walk.any fun kv => kv.1 = name_ref) ∧
      (HasError (walk.foldl analyzeTag s).result ↔
        HasError s.result ∨ ∃ kv ∈ walk, ¬ TagOk kv) := by
  induction walk generalizing s with
  | nil => simp
  | cons kv walk ih =>
    obtain ⟨hcount, hname, herror⟩ := ih (analyzeTag s kv)
    rw [List.foldl_cons, hcount, hname, herror, List.countP_cons, List.any_cons]
    have hcounted : (analyzeTag s kv).user_tags =
        s.user_tags + if isUserTag kv = true then 1 else 0 := by
      unfold analyzeTag isUserTag
      by_cases hkey : kv.1 = name_ref <;> cases is_key_restricted kv.1 <;> simp [hkey]
    have hseen : (analyzeTag s kv).name_seen = (s.name_seen || decide (kv.1 = name_ref)) := by
      unfold analyzeTag
      by_cases hkey : kv.1 = name_ref <;> simp [hkey]
    have hissues : HasError (analyzeTag s kv).result ↔ HasError s.result ∨ ¬ TagOk kv := by
      rw [analyzeTag, hasError_union, tagIssues_error_iff]
    refine ⟨?_, ?_, ?_⟩
    · rw [hcounted]
      omega
    · rw [hseen, Bool.or_assoc]
    · rw [hissues, or_assoc, List.exists_mem_cons_iff]

theorem AnalyzeTags_error_iff (walk : List (StrRef × StrRef)) :
    HasError (AnalyzeTags walk) ↔
      (∃ kv ∈ walk, ¬ TagOk kv) ∨ MAX_USER_TAGS < walk.countP isUserTag ∨
        ∀ kv ∈ walk, kv.1 ≠ name_ref := by
  obtain ⟨hcount, hname, herror⟩ := foldl_analyzeTag walk ⟨∅, 0, false⟩
  have hseen : (walk.any fun kv => decide (kv.1 = name_ref)) = false ↔
      ∀ kv ∈ walk, kv.1 ≠ name_ref := by
    rw [List.any_eq_false]
    simp only [decide_eq_true_iff, ne_eq]
  rw [AnalyzeTags, hasError_union, countIssues_error_iff, hcount, hname, herror, Nat.zero_add,
    Bool.false_or, hseen]
  simp only [hasError_empty, false_or, gt_iff_lt]

theorem mem_foldl_analyzeTag (walk : List (StrRef × StrRef)) (s : Analysis)
    (issue : ValidationIssue) :
    issue ∈ (walk.foldl analyzeTag s).result ↔
      issue ∈ s.result ∨ ∃ kv ∈ walk, issue ∈ tagIssues kv := by
  induction walk generalizing s with
  | nil => simp
  | cons kv walk ih =>
    rw [List.foldl_cons, ih, analyzeTag, Finset.mem_union, List.mem_toFinset, or_assoc,
      List.exists_mem_cons_iff]

/-- The set of issues does not depend on the order of the walk. -/
theorem AnalyzeTags_perm {walk walk' : List (StrRef × StrRef)} (h : walk.Perm walk') :
    AnalyzeTags walk = AnalyzeTags walk' := by
  have hcounts : (walk.foldl analyzeTag ⟨∅, 0, false⟩).user_tags =
      (walk'.foldl analyzeTag ⟨∅, 0, false⟩).user_tags := by
    rw [(foldl_analyzeTag walk _).1, (foldl_analyzeTag walk' _).1, h.countP_eq]
  have hnames : (walk.foldl analyzeTag ⟨∅, 0, false⟩).name_seen =
      (walk'.foldl analyzeTag ⟨∅, 0, false⟩).name_seen := by
    rw [(foldl_analyzeTag walk _).2.1, (foldl_analyzeTag walk' _).2.1, h.any_eq]
  apply Finset.ext
  intro issue
  rw [AnalyzeTags, AnalyzeTags, Finset.mem_union, Finset.mem_union, hcounts, hnames,
    mem_foldl_analyzeTag, mem_foldl_analyzeTag]
  simp only [h.mem_iff]

/-- The two validators agree, whatever orders they walk the map in. -/
theorem AreTagsValid_iff_no_error (tags : Tags) (walk walk' : List (StrRef × StrRef))
    (h : Enumerates walk tags) (h' : Enumerates walk' tags) :
    AreTagsValid walk = true ↔ ¬ HasError (AnalyzeTags walk') := by
  rw [AnalyzeTags_perm (h'.perm h), AreTagsValid_iff, AnalyzeTags_error_iff, not_or, not_or]
  apply and_congr
  · simp only [not_exists, not_and, not_not]
  · apply and_congr not_lt.symm
    simp only [not_forall, not_not, exists_prop]

theorem AreTagsValid_iff_no_error_name :
    AreTagsValid [(name_ref, intern_str "requests")] = true ↔
      ¬ HasError (AnalyzeTags [(name_ref, intern_str "requests")]) := by
  have hkeys : ([(name_ref, intern_str "requests")].map Prod.fst).Nodup :=
    List.nodup_singleton _
  exact AreTagsValid_iff_no_error _ _ _ (enumerates_ofWalk hkeys) (enumerates_ofWalk hkeys)

end AtlasNative
