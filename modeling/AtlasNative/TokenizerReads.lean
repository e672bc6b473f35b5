import AtlasNative.Tokenizer

/-!
# What the tokenizer appends

For a string without a NUL, whose length is an `int`, the texts of the tokens that
`split` appends are the trimmed fields of the string.
-/

namespace AtlasNative

set_option autoImplicit false

namespace interpreter

/-- A field without the white space at its ends. -/
def trimmed (field : List Char) : List Char := (field.dropWhile isspace).rdropWhile isspace

theorem mem_of_mem_trimmed {field : List Char} {c : Char} (h : c ∈ trimmed field) : c ∈ field :=
  (List.dropWhile_suffix _).subset ((List.rdropWhile_prefix _ _).subset h)

theorem mem_of_mem_splitOn {l field : List Char} {c : Char} (hfield : field ∈ l.splitOn ',')
    (hc : c ∈ field) : c ∈ l := by
  induction l generalizing field with
  | nil =>
    rw [List.splitOn_nil, List.mem_singleton] at hfield
    exact hfield ▸ hc
  | cons x l ih =>
    rw [List.splitOn_cons_eq_if_modifyHead] at hfield
    split at hfield
    · rcases List.mem_cons.mp hfield with hnil | hrest
      · rw [hnil] at hc
        cases hc
      · exact List.mem_cons_of_mem _ (ih hrest hc)
    · cases hfields : l.splitOn ',' with
      | nil => exact absurd hfields (List.splitOn_ne_nil _ _)
      | cons first rest =>
        rw [hfields] at hfield ih
        rcases List.mem_cons.mp hfield with hfirst | hrest
        · rw [hfirst] at hc
          rcases List.mem_cons.mp hc with hx | hc
          · exact hx ▸ List.mem_cons_self
          · exact List.mem_cons_of_mem _ (ih List.mem_cons_self hc)
        · exact List.mem_cons_of_mem _ (ih (List.mem_cons_of_mem _ hrest) hc)

theorem Literal_str_toList {token : List Char} (h : nul ∉ token) :
    (Literal token).str.toList = token := by
  change (c_str (String.ofList token)).toList = token
  rw [c_str_eq_self (String.toList_ofList ▸ h), String.toList_ofList]

/-- The tokens carry the text of the fields, as no field holds a NUL. -/
theorem str_filterMap_fieldToken {fields : List (List Char)} (h : ∀ field ∈ fields, nul ∉ field) :
    (fields.filterMap fieldToken).map (fun token => token.str.toList) =
      (fields.map trimmed).filter (· ≠ []) := by
  induction fields with
  | nil => rfl
  | cons field fields ih =>
    have hfields := ih fun field hfield => h field (List.mem_cons_of_mem _ hfield)
    have hnul : nul ∉ trimmed field := fun hmem =>
      h field List.mem_cons_self (mem_of_mem_trimmed hmem)
    have htoken : fieldToken field =
        if (trimmed field).isEmpty then none else some (Literal (trimmed field)) := rfl
    rw [List.filterMap_cons, List.map_cons, htoken]
    by_cases hempty : trimmed field = []
    · rw [if_pos (List.isEmpty_iff.mpr hempty), List.filter_cons_of_neg (by simp [hempty])]
      exact hfields
    · rw [if_neg (fun he => hempty (List.isEmpty_iff.mp he)),
        List.filter_cons_of_pos (by simp [hempty])]
      dsimp only
      rw [List.map_cons, Literal_str_toList hnul, hfields]

/-- For a string without a NUL, whose length is an `int`, no read leaves the string, and
what is appended are its fields, trimmed and in order, without the empty ones. -/
theorem split_appends_fields (s : String) (result : List StrRef) (hnul : nul ∉ s.toList)
    (hlength : s.toList.length < 2 ^ 31) :
    ∃ tokens, split s result = .ok (result ++ tokens) ∧
      tokens.map (fun token => token.str.toList) =
        ((s.toList.splitOn ',').map trimmed).filter (· ≠ []) := by
  have hfields : ∀ field ∈ s.toList.splitOn ',', nul ∉ field := fun field hfield hmem =>
    hnul (mem_of_mem_splitOn hfield hmem)
  exact ⟨(s.toList.splitOn ',').filterMap fieldToken, split_eq hlength result,
    str_filterMap_fieldToken hfields⟩

theorem split_appends_fields_blanks :
    ∃ tokens, split " name ,, sps , ,   ,,:eq " [] = .ok ([] ++ tokens) ∧
      tokens.map (fun token => token.str.toList) =
        ((" name ,, sps , ,   ,,:eq ".toList.splitOn ',').map trimmed).filter (· ≠ []) :=
  split_appends_fields " name ,, sps , ,   ,,:eq " [] (by decide) (by decide)

end interpreter

end AtlasNative
