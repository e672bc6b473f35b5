import AtlasNative.BooleanPrograms

/-!
# How long a program may be

`add_nonempty` converts the ends of a field to `int`. Of every length from `2 ^ 31` on
there is a program that is nothing but `:true` between blanks and loses its token.
-/

namespace AtlasNative

open interpreter
set_option autoImplicit false

def blanks (n : ℕ) : Blanks where
  chars := List.replicate n ' '
  blank := by
    intro c hc
    rw [List.eq_of_mem_replicate hc]
    decide

/-- `:true` between blanks. -/
def paddedTrue (left right : ℕ) : String :=
  render (fun _ => ⟨[], blanks left, blanks right⟩) [] BoolTree.true_.tokens

def trueWord : List Char := [':', 't', 'r', 'u', 'e']

theorem toList_paddedTrue (left right : ℕ) :
    (paddedTrue left right).toList =
      (blanks left).chars ++ (trueWord ++ (blanks right).chars) := by
  have hword : Word.TrueWord.token.str.toList = trueWord := by decide
  simp only [paddedTrue, render, BoolTree.tokens, fields, List.map_nil, List.nil_append, hword,
    String.toList_ofList, List.append_assoc, List.intercalate_singleton]

theorem length_paddedTrue (left right : ℕ) :
    (paddedTrue left right).toList.length = left + (5 + right) := by
  rw [toList_paddedTrue, List.length_append, List.length_append]
  simp only [blanks, List.length_replicate]
  rfl

section Split
variable {left right : ℕ}

theorem split_paddedTrue :
    split (paddedTrue left right) [] =
      add_nonempty left (left + (5 + right)) (paddedTrue left right).toList [] := by
  have hleft : ((paddedTrue left right).toList.takeWhile isspace).length = left := by
    have hword : (trueWord ++ (blanks right).chars).takeWhile isspace = [] :=
      List.takeWhile_cons_of_neg (by decide)
    rw [toList_paddedTrue, List.takeWhile_append_of_pos (blanks left).blank, hword,
      List.append_nil]
    exact List.length_replicate
  have htrim := trim_left_eq (Nat.zero_le (paddedTrue left right).toList.length)
  rw [List.drop_zero, hleft, Nat.zero_add] at htrim
  have hcomma : find_comma (paddedTrue left right).toList left = none := by
    have hword : ',' ∉ trueWord := by decide
    apply Option.map_eq_none_iff.mpr
    apply List.findIdx?_eq_none_iff.mpr
    intro c hc
    have hmem := List.mem_of_mem_drop hc
    rw [toList_paddedTrue, List.mem_append, List.mem_append] at hmem
    apply decide_eq_false
    rintro rfl
    exact hmem.elim (comma_notMem_blanks _)
      (fun hmem => hmem.elim hword (comma_notMem_blanks _))
  rw [split, split_loop_of_trim htrim, hcomma, length_paddedTrue]

/-- Behind an end that converts to a negative `int` nothing is added. -/
theorem split_of_wrap_neg (hneg : wrap 32 ((5 + right : ℕ) : ℤ) < 0)
    (hmin : wrap 32 ((5 + right : ℕ) : ℤ) ≠ -2 ^ 31) :
    split (paddedTrue 0 right) [] = .ok [] := by
  have hzero : wrap 32 ((0 : ℕ) : ℤ) = 0 := rfl
  have htrim : trim_right (paddedTrue 0 right).toList (wrap 32 ((5 + right : ℕ) : ℤ) - 1) =
      .ok (wrap 32 ((5 + right : ℕ) : ℤ) - 1) := by
    rw [trim_right, if_neg (by omega)]
  rw [split_paddedTrue, Nat.zero_add, add_nonempty_of_trim hmin htrim, if_neg (by omega)]

theorem trim_right_blanks {k : ℕ} (hk : k ≤ left) :
    trim_right (paddedTrue left right).toList ((k : ℤ) - 1) = .ok (-1) := by
  have hlength := length_paddedTrue left right
  have htake : (paddedTrue left right).toList.take k = (blanks k).chars := by
    rw [toList_paddedTrue, blanks, List.take_append_of_le_length (by simpa using hk),
      List.take_replicate, min_eq_left hk]
    rfl
  have hdrop : (blanks k).chars.rdropWhile isspace = [] :=
    List.rdropWhile_eq_nil_iff.mpr (blanks k).blank
  rw [trim_right_eq (by omega), htake, hdrop]
  rfl

/-- An end that wraps around to a blank in front of the token. -/
theorem split_of_wrap_blank (hle : 5 ≤ wrap 32 ((left + 5 : ℕ) : ℤ))
    (hlt : wrap 32 ((left + 5 : ℕ) : ℤ) < left) :
    split (paddedTrue left 0) [] = .ok [] := by
  have hstart : wrap 32 (left : ℤ) = wrap 32 ((left + 5 : ℕ) : ℤ) - 5 := by
    unfold wrap Int.bmod at *
    dsimp only at *
    split <;> split <;> omega
  obtain ⟨k, hk⟩ := Int.eq_ofNat_of_zero_le (show 0 ≤ wrap 32 ((left + 5 : ℕ) : ℤ) by omega)
  have htrim : trim_right (paddedTrue left 0).toList ((k : ℤ) - 1) = .ok (-1) :=
    trim_right_blanks (by omega)
  rw [← hk] at htrim
  rw [split_paddedTrue, add_nonempty_of_trim (k := 0) (by omega) htrim, if_neg (by omega)]

theorem split_of_wrap_token {k : ℕ} (hk : wrap 32 ((5 + right : ℕ) : ℤ) = k) (hlt : k < 5) :
    split (paddedTrue 0 right) [] =
      .ok (if 0 < k then [Literal (trueWord.take k)] else []) := by
  have hlength := length_paddedTrue 0 right
  have hzero : wrap 32 ((0 : ℕ) : ℤ) = 0 := rfl
  have htext : (paddedTrue 0 right).toList = trueWord ++ (blanks right).chars :=
    toList_paddedTrue 0 right
  have htake : (paddedTrue 0 right).toList.take k = trueWord.take k := by
    rw [htext]
    exact List.take_append_of_le_length hlt.le
  have htrim : ∀ k < 5, ((trueWord.take k).rdropWhile isspace).length = k := by decide
  have hend := trim_right_eq (s := (paddedTrue 0 right).toList) (j := k) (by omega)
  rw [htake, htrim k hlt, ← hk] at hend
  rw [split_paddedTrue, Nat.zero_add, add_nonempty_of_trim (by omega) hend, hk]
  by_cases hpos : 0 < k
  · have hcount : (((k : ℤ) - ((0 : ℕ) : ℤ)) % 2 ^ 64).toNat = k := by omega
    rw [if_pos (by omega), if_pos hpos, substr, if_pos (Nat.zero_le _), hcount, List.drop_zero,
      htake]
    rfl
  · rw [if_neg (by omega), if_neg hpos]

end Split

theorem not_compiles_of_empty {rt : Runtime} {program : String} {tokens : List StrRef}
    {r : OptionalString} (hsplit : split program [] = .ok tokens)
    (hrun : (run_tokens rt 0 tokens).run [] = .ok r []) : ¬ Compiles rt .true_ program := by
  intro h
  obtain ⟨q, hq, hmeans⟩ := h
  rw [Interpreter.GetQuery, Interpreter.execStack_eq_ok hsplit hrun] at hq
  cases hq
  exact absurd ((hmeans ∅).mpr trivial) Bool.false_ne_true

theorem exists_not_compiles (rt : Runtime) {n : ℕ} (hn : 2 ^ 31 ≤ n) :
    ∃ left right, left + (5 + right) = n ∧ ¬ Compiles rt .true_ (paddedTrue left right) := by
  have hrange := wrap_range (n := n) (by omega)
  by_cases hneg : wrap 32 (n : ℤ) < 0
  · obtain ⟨right, rfl⟩ : ∃ right, n = 5 + right := ⟨n - 5, by omega⟩
    refine ⟨0, right, Nat.zero_add _, ?_⟩
    by_cases hmin : wrap 32 ((5 + right : ℕ) : ℤ) = -2 ^ 31
    · have hsplit : split (paddedTrue 0 right) [] = .error .undefined := by
        rw [split_paddedTrue, Nat.zero_add, add_nonempty, if_pos hmin]
      intro h
      obtain ⟨q, hq, _⟩ := h
      rw [Interpreter.GetQuery, Interpreter.execStack, Interpreter.Execute, hsplit] at hq
      cases hq
    · exact not_compiles_of_empty (r := none) (split_of_wrap_neg hneg hmin) rfl
  · obtain ⟨k, hk⟩ := Int.eq_ofNat_of_zero_le (not_lt.mp hneg)
    by_cases hlt : k < 5
    · obtain ⟨right, rfl⟩ : ∃ right, n = 5 + right := ⟨n - 5, by omega⟩
      refine ⟨0, right, Nat.zero_add _, ?_⟩
      have hsplit := split_of_wrap_token hk hlt
      rcases k with _ | _ | _ | _ | _ | k
      · exact not_compiles_of_empty (r := none) hsplit rfl
      · exact not_compiles_of_empty (r := none) hsplit rfl
      · exact not_compiles_of_empty (r := none) hsplit rfl
      · exact not_compiles_of_empty (r := none) hsplit rfl
      · exact not_compiles_of_empty (r := none) hsplit rfl
      · omega
    · obtain ⟨left, rfl⟩ : ∃ left, n = left + 5 := ⟨n - 5, by omega⟩
      refine ⟨left, 0, rfl, ?_⟩
      have hlt' : wrap 32 ((left + 5 : ℕ) : ℤ) < left := by
        unfold wrap Int.bmod at *
        dsimp only at *
        split <;> omega
      exact not_compiles_of_empty (r := none) (split_of_wrap_blank (by omega) hlt') rfl

/-- The programs of a length compile, whatever they express and however they are spaced,
exactly when the length is an `int`. -/
theorem boolean_programs_compile_iff (rt : Runtime) (n : ℕ) :
    (∀ (tree : BoolTree) (spacing : ℕ → Spacing) (tail : List Blanks),
      (render spacing tail tree.tokens).toList.length = n →
        Compiles rt tree (render spacing tail tree.tokens)) ↔ n < 2 ^ 31 := by
  constructor
  · intro h
    by_contra hn
    obtain ⟨left, right, hlength, hnot⟩ := exists_not_compiles rt (not_lt.mp hn)
    apply hnot
    exact h .true_ _ [] ((length_paddedTrue left right).trans hlength)
  · intro hn tree spacing tail hlength
    exact compiles_render rt tree spacing tail (hlength ▸ hn)

/-- `:true` in front of `2 ^ 31 - 4` blanks is the query `false`. -/
theorem not_compiles_true_blanks :
    ¬ Compiles plainRuntime .true_
      (render (fun _ => ⟨[], blanks 0, blanks (2 ^ 31 - 4)⟩) [] BoolTree.true_.tokens) := by
  have hwrap : wrap 32 ((5 + (2 ^ 31 - 4) : ℕ) : ℤ) = -2 ^ 31 + 1 := by decide
  exact not_compiles_of_empty (r := none)
    (split_of_wrap_neg (by rw [hwrap]; decide) (by rw [hwrap]; decide)) rfl

end AtlasNative
