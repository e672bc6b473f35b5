import AtlasNative.Interpreter

/-!
# The text of a program

Tokens are written with arbitrary blanks on both sides, with any number of blank
fields before each of them and at the end; `split` reads the tokens back.
-/

namespace AtlasNative

set_option autoImplicit false

/-- A non-empty string without commas or surrounding white space. -/
def isToken (t : StrRef) : Bool :=
  !decide (',' ∈ t.str.toList) && t.str.toList.head?.any (!isspace ·) &&
    t.str.toList.getLast?.any (!isspace ·)

structure Blanks where
  chars : List Char
  blank : ∀ c ∈ chars, isspace c = true

/-- The blank fields before a token, and the blanks on its left and right. -/
structure Spacing where
  before : List Blanks
  left : Blanks
  right : Blanks

/-- The fields between the commas; `i` is the number of the first token. -/
def fields (spacing : ℕ → Spacing) (tail : List Blanks) : ℕ → List StrRef → List (List Char)
  | _, [] => tail.map (·.chars)
  | i, t :: tokens =>
    (spacing i).before.map (·.chars) ++
      ((spacing i).left.chars ++ t.str.toList ++ (spacing i).right.chars) ::
        fields spacing tail (i + 1) tokens

def render (spacing : ℕ → Spacing) (tail : List Blanks) (tokens : List StrRef) : String :=
  String.ofList ([','].intercalate (fields spacing tail 0 tokens))

theorem dropWhile_blanks_append (ws : Blanks) (l : List Char) :
    (ws.chars ++ l).dropWhile isspace = l.dropWhile isspace :=
  List.dropWhile_append_of_pos ws.blank

theorem comma_notMem_blanks (ws : Blanks) : ',' ∉ ws.chars := by
  intro h
  exact absurd (ws.blank _ h) (by decide)

theorem fieldToken_blanks (ws : Blanks) : fieldToken ws.chars = none := by
  have hdrop : ws.chars.dropWhile isspace = [] := List.dropWhile_eq_nil_iff.mpr ws.blank
  simp [fieldToken, hdrop]

theorem dropWhile_eq_self_of_head {l : List Char} (h : l.head?.any (!isspace ·) = true) :
    l.dropWhile isspace = l := by
  cases l with
  | nil => rfl
  | cons c l =>
    have hc : isspace c = false := by simpa using h
    rw [List.dropWhile_cons_of_neg (by simp [hc])]

theorem fieldToken_token {t : StrRef} (ht : isToken t = true) (left right : Blanks) :
    fieldToken (left.chars ++ t.str.toList ++ right.chars) = some t := by
  simp only [isToken, Bool.and_eq_true] at ht
  obtain ⟨⟨_, hhead⟩, hlast⟩ := ht
  have hne : t.str.toList ≠ [] := by
    intro hnil
    rw [hnil] at hhead
    contradiction
  have hleft : (left.chars ++ t.str.toList ++ right.chars).dropWhile isspace =
      t.str.toList ++ right.chars := by
    rw [List.append_assoc, dropWhile_blanks_append]
    apply dropWhile_eq_self_of_head
    rwa [List.head?_append_of_ne_nil _ hne]
  have hright : (t.str.toList ++ right.chars).rdropWhile isspace = t.str.toList := by
    have hblank : ∀ c ∈ right.chars.reverse, isspace c = true := by
      intro c hc
      exact right.blank c (List.mem_reverse.mp hc)
    rw [List.rdropWhile, List.reverse_append, List.dropWhile_append_of_pos hblank,
      dropWhile_eq_self_of_head, List.reverse_reverse]
    rwa [List.head?_reverse]
  have hliteral : Literal t.str.toList = t := by
    rw [Literal, String.ofList_toList, intern_str_str]
  simp only [fieldToken, hleft, hright, hliteral, List.isEmpty_iff, hne, if_false]

theorem filterMap_fieldToken_blanks (l : List Blanks) :
    (l.map (·.chars)).filterMap fieldToken = [] := by
  induction l with
  | nil => rfl
  | cons ws l ih => simp [fieldToken_blanks, ih]

theorem filterMap_fieldToken_fields (spacing : ℕ → Spacing) (tail : List Blanks)
    (tokens : List StrRef) (htokens : ∀ t ∈ tokens, isToken t = true) (i : ℕ) :
    (fields spacing tail i tokens).filterMap fieldToken = tokens := by
  induction tokens generalizing i with
  | nil => exact filterMap_fieldToken_blanks tail
  | cons t tokens ih =>
    obtain ⟨ht, hrest⟩ := List.forall_mem_cons.mp htokens
    rw [fields, List.filterMap_append, filterMap_fieldToken_blanks, List.nil_append,
      List.filterMap_cons_some (fieldToken_token ht _ _), ih hrest]

theorem comma_notMem_fields (spacing : ℕ → Spacing) (tail : List Blanks)
    (tokens : List StrRef) (htokens : ∀ t ∈ tokens, isToken t = true) (i : ℕ) :
    ∀ field ∈ fields spacing tail i tokens, ',' ∉ field := by
  have hblank : ∀ (l : List Blanks), ∀ field ∈ l.map (·.chars), ',' ∉ field := by
    intro l field hfield
    obtain ⟨ws, _, rfl⟩ := List.mem_map.mp hfield
    exact comma_notMem_blanks ws
  induction tokens generalizing i with
  | nil => exact hblank tail
  | cons t tokens ih =>
    obtain ⟨ht, hrest⟩ := List.forall_mem_cons.mp htokens
    intro field hfield
    rw [fields, List.mem_append, List.mem_cons] at hfield
    rcases hfield with hfield | rfl | hfield
    · exact hblank _ field hfield
    · have hcomma : ',' ∉ t.str.toList := by
        simp only [isToken, Bool.and_eq_true] at ht
        simpa using ht.1.1
      simp [comma_notMem_blanks, hcomma]
    · exact ih hrest (i + 1) field hfield

/-- Splitting the text of a list of tokens gives the tokens. -/
theorem split_render (spacing : ℕ → Spacing) (tail : List Blanks) (tokens : List StrRef)
    (htokens : ∀ t ∈ tokens, isToken t = true)
    (hlength : (render spacing tail tokens).toList.length < 2 ^ 31) :
    interpreter.split (render spacing tail tokens) [] = .ok tokens := by
  have hfields := filterMap_fieldToken_fields spacing tail tokens htokens 0
  rw [interpreter.split_eq hlength, List.nil_append, render, String.toList_ofList]
  congr 1
  by_cases hne : fields spacing tail 0 tokens = []
  · rw [hne] at hfields ⊢
    rw [← hfields]
    rfl
  · rw [List.splitOn_intercalate _ (comma_notMem_fields spacing tail tokens htokens 0) hne]
    exact hfields

end AtlasNative
