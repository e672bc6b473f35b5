import AtlasNative.HttpReplies
import AtlasNative.SubscriptionManager

/-!
# The payload of a refresh

`ParseSubscriptions` reads a JSON document through the accessors of rapidjson, which
assert that a value has the kind that is asked for. A text that is no object has no
subscriptions, and no such text makes it throw.
-/

namespace AtlasNative

open ExceptRuns
set_option autoImplicit false

inductive JsonValue where
  | null
  | bool (b : Bool)
  | integer (n : ℤ)
  | double (x : ExactDouble.Double)
  | string (s : String)
  | array (elements : List JsonValue)
  | object (members : List (String × JsonValue))

/-- The reader of rapidjson: the root value, or none after a syntax error, which an
empty text is. -/
structure JsonReader where
  Parse : String → Option JsonValue
  Parse_empty : Parse "" = none

/-- After a syntax error the document is still null. -/
def ParseInsitu (reader : JsonReader) (str : String) : JsonValue :=
  (reader.Parse (c_str str)).getD .null

section Accessors
variable (ndebug : Bool)

/-- A failed `RAPIDJSON_ASSERT`, and what the code behind it does with `NDEBUG`. -/
def assertFailed {α : Type} (behind : Except Fault α) : Except Fault α :=
  if ndebug then behind else .error .assertion

namespace JsonValue

/-- `object[name]` is the first member of that name. -/
def member (members : List (String × JsonValue)) (name : String) : Except Fault JsonValue :=
  match members.lookup name with
  | some value => .ok value
  | none => assertFailed ndebug (.ok .null)

/-- The bytes of a null or a boolean read as an array of size 0. -/
def GetArray : JsonValue → Except Fault (List JsonValue)
  | array elements => .ok elements
  | null => assertFailed ndebug (.ok [])
  | bool _ => assertFailed ndebug (.ok [])
  | _ => assertFailed ndebug (.error .undefined)

def GetInt64 : JsonValue → Except Fault ℤ
  | integer n =>
    if -2 ^ 63 ≤ n ∧ n < 2 ^ 63 then .ok n else assertFailed ndebug (.error .undefined)
  | null => assertFailed ndebug (.ok 0)
  | bool _ => assertFailed ndebug (.ok 0)
  | _ => assertFailed ndebug (.error .undefined)

def GetString : JsonValue → Except Fault (Option String)
  | string s => .ok (some (c_str s))
  | null => assertFailed ndebug (.ok none)
  | bool _ => assertFailed ndebug (.ok none)
  | _ => assertFailed ndebug (.error .undefined)

theorem member_cases (members : List (String × JsonValue)) (name : String) :
    (∃ value, members.lookup name = some value ∧ member ndebug members name = .ok value) ∨
      member ndebug members name = .ok .null ∨
      member ndebug members name = .error .assertion := by
  unfold member assertFailed
  cases members.lookup name with
  | some value => exact Or.inl ⟨value, rfl, rfl⟩
  | none => cases ndebug <;> simp

theorem GetArray_of_not_array {value : JsonValue} (h : ∀ elements, value ≠ array elements) :
    value.GetArray ndebug = .ok [] ∨ value.GetArray ndebug = .error .assertion ∨
      value.GetArray ndebug = .error .undefined := by
  cases value with
  | array elements => exact absurd rfl (h elements)
  | _ => cases ndebug <;> simp [GetArray, assertFailed]

end JsonValue

end Accessors

/-- `std::string(const char*)` throws for the null pointer. -/
def std_string : Option String → Except Fault String
  | some s => .ok s
  | none => .error .exception

section Parse
variable (reader : JsonReader) (ndebug : Bool)

/-- An element of `expressions`. What is wrong with the arguments of the warning about an
ignored one does not get out of the logger. -/
def addExpression (subs : ParsedSubscriptions) : JsonValue → Except Fault ParsedSubscriptions
  | .object expr => do
    let frequency ← JsonValue.member ndebug expr "frequency"
    let freq ← frequency.GetInt64 ndebug
    let multiple := freq.tdiv kFastestFrequencyMillis
    let id ← (← JsonValue.member ndebug expr "id").GetString ndebug
    if 1 ≤ multiple ∧ multiple ≤ kMainMultiple then
      let id ← std_string id
      let expression ← std_string (← (← JsonValue.member ndebug expr "expression").GetString ndebug)
      let i := SubscriptionManager.sub_idx freq
      return Function.update subs i (subs i ++ [⟨id, freq, expression⟩])
    else
      let _ ← (← JsonValue.member ndebug expr "expression").GetString ndebug
      return subs
  | _ => return subs

def ParseSubscriptions (subs_buffer : String) : Except Fault ParsedSubscriptions :=
  match ParseInsitu reader subs_buffer with
  | .object members => do
    let expressions ← (← JsonValue.member ndebug members "expressions").GetArray ndebug
    expressions.foldlM (addExpression ndebug) fun _ => []
  | _ => return fun _ => []

def WellFormedPayload (text : String) : Prop :=
  ∃ members elements, ParseInsitu reader text = .object members ∧
    members.lookup "expressions" = some (.array elements)

theorem ParseSubscriptions_empty :
    ParseSubscriptions reader ndebug "" = .ok fun _ => [] := by
  have hnull : ParseInsitu reader "" = .null := congrArg (·.getD .null) reader.Parse_empty
  rw [ParseSubscriptions, hnull]
  rfl

/-- Any other text has no subscriptions, or the process ends at an assertion. Behind the
assertion the behaviour is undefined, unless the value reads as an empty array. -/
theorem ParseSubscriptions_of_not_wellFormed {text : String}
    (h : ¬ WellFormedPayload reader text) :
    ParseSubscriptions reader ndebug text = .ok (fun _ => []) ∨
      ParseSubscriptions reader ndebug text = .error .assertion ∨
      ParseSubscriptions reader ndebug text = .error .undefined := by
  unfold ParseSubscriptions
  split
  · rename_i members hobject
    have hexpressions : ∀ elements, members.lookup "expressions" ≠ some (.array elements) :=
      fun elements hlookup => h ⟨members, elements, hobject, hlookup⟩
    have hmember : (∃ value, (∀ elements, value ≠ .array elements) ∧
        JsonValue.member ndebug members "expressions" = .ok value) ∨
        JsonValue.member ndebug members "expressions" = .error .assertion := by
      rcases JsonValue.member_cases ndebug members "expressions" with
        ⟨value, hlookup, hmember⟩ | hmember | hmember
      · exact Or.inl ⟨value, fun elements he => hexpressions elements (he ▸ hlookup), hmember⟩
      · exact Or.inl ⟨.null, by simp, hmember⟩
      · exact Or.inr hmember
    rcases hmember with ⟨value, hvalue, hmember⟩ | hmember
    · rw [hmember]
      rcases value.GetArray_of_not_array ndebug hvalue with harray | harray | harray
      · exact Or.inl (by simp only [bind, Except.bind, harray]; rfl)
      · exact Or.inr (Or.inl (by simp only [bind, Except.bind, harray]))
      · exact Or.inr (Or.inr (by simp only [bind, Except.bind, harray]))
    · exact Or.inr (Or.inl (by rw [hmember]; rfl))
  · exact Or.inl rfl

/-- The subscriptions of an interval have a frequency of that many steps of 5 s. -/
def StoredByInterval (subs : ParsedSubscriptions) : Prop :=
  ∀ i, ∀ s ∈ subs i, s.frequency.tdiv kFastestFrequencyMillis = ((i : ℕ) : ℤ) + 1

theorem sub_idx_val {freq : ℤ} (h : 1 ≤ freq.tdiv kFastestFrequencyMillis ∧
    freq.tdiv kFastestFrequencyMillis ≤ kMainMultiple) :
    ((SubscriptionManager.sub_idx freq : ℕ) : ℤ) + 1 = freq.tdiv kFastestFrequencyMillis := by
  have hle : freq.tdiv kFastestFrequencyMillis ≤ 12 := h.2
  have hval : (SubscriptionManager.sub_idx freq : ℕ) =
      (freq.tdiv kFastestFrequencyMillis - 1).toNat :=
    Nat.mod_eq_of_lt (by omega)
  rw [hval]
  omega

theorem StoredByInterval.addExpression {subs subs' : ParsedSubscriptions} {e : JsonValue}
    (h : StoredByInterval subs) (hadd : addExpression ndebug subs e = .ok subs') :
    StoredByInterval subs' := by
  unfold AtlasNative.addExpression at hadd
  split at hadd
  · simp only [bind_eq_ok] at hadd
    obtain ⟨_, _, freq, _, _, _, id, _, hadd⟩ := hadd
    split at hadd
    · rename_i hmultiple
      simp only [bind_eq_ok] at hadd
      obtain ⟨id, _, _, _, _, _, expression, _, hadd⟩ := hadd
      rw [← Except.ok.inj hadd]
      intro i s hs
      by_cases hi : i = SubscriptionManager.sub_idx freq
      · rw [hi, Function.update_self] at hs
        rw [hi, sub_idx_val hmultiple]
        rcases List.mem_append.mp hs with hs | hs
        · exact (h _ s hs).trans (sub_idx_val hmultiple)
        · exact List.mem_singleton.mp hs ▸ rfl
      · rw [Function.update_of_ne hi] at hs
        exact h i s hs
    · simp only [bind_eq_ok] at hadd
      obtain ⟨_, _, _, _, hadd⟩ := hadd
      exact Except.ok.inj hadd ▸ h
  · exact Except.ok.inj hadd ▸ h

theorem ParseSubscriptions_storedByInterval {text : String} {subs : ParsedSubscriptions}
    (h : ParseSubscriptions reader ndebug text = .ok subs) : StoredByInterval subs := by
  have hempty : StoredByInterval fun _ => [] := fun _ _ hs => absurd hs List.not_mem_nil
  unfold ParseSubscriptions at h
  split at h
  · simp only [bind_eq_ok] at h
    obtain ⟨_, _, expressions, _, hfold⟩ := h
    exact foldlM_invariant hempty (fun e _ t t' ht hadd => ht.addExpression ndebug hadd) hfold
  · exact Except.ok.inj h ▸ hempty

end Parse

end AtlasNative
