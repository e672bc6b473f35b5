import Mathlib.Data.List.Forall2

/-!
# Replacing what is outside an alphabet

Every letter that is not allowed becomes one fixed letter, the blank. Lengths stay as they
are, a second replacement changes nothing, and a word without the blank cannot be the image
of any word but itself.
-/

namespace Replacement

set_option autoImplicit false

variable {α : Type*} (allowed : α → Bool) (blank : α)

def replace (a : α) : α := if allowed a then a else blank

def replaceAll (word : List α) : List α := word.map (replace allowed blank)

@[simp] theorem replaceAll_length (word : List α) :
    (replaceAll allowed blank word).length = word.length := List.length_map _

theorem replace_replace (a : α) :
    replace allowed blank (replace allowed blank a) = replace allowed blank a := by
  unfold replace
  by_cases ha : allowed a = true
  · rw [if_pos ha, if_pos ha]
  · rw [if_neg ha]
    exact ite_self _

theorem replaceAll_replaceAll (word : List α) :
    replaceAll allowed blank (replaceAll allowed blank word) = replaceAll allowed blank word := by
  unfold replaceAll
  rw [List.map_map]
  apply List.map_congr_left
  intro a _
  exact replace_replace allowed blank a

theorem replace_of_ne_blank {a : α} (h : replace allowed blank a ≠ blank) :
    replace allowed blank a = a := by
  unfold replace at h ⊢
  by_cases ha : allowed a = true
  · rw [if_pos ha]
  · rw [if_neg ha] at h
    exact absurd rfl h

/-- A letter of the image is allowed, or it is the blank. -/
theorem allowed_of_mem_replaceAll {word : List α} {a : α}
    (h : a ∈ replaceAll allowed blank word) : allowed a = true ∨ a = blank := by
  obtain ⟨b, _, rfl⟩ := List.mem_map.mp h
  unfold replace
  by_cases hb : allowed b = true
  · rw [if_pos hb]
    exact .inl hb
  · rw [if_neg hb]
    exact .inr rfl

/-- A letter that nothing but itself is replaced by. -/
def Clean (a : α) : Prop := allowed a = true ∧ a ≠ blank

variable {allowed blank}

theorem replace_eq_iff {a c : α} (hc : Clean allowed blank c) :
    replace allowed blank a = c ↔ a = c := by
  unfold replace
  by_cases ha : allowed a = true
  · rw [if_pos ha]
  · rw [if_neg ha]
    constructor
    · intro h
      exact absurd h.symm hc.2
    · intro h
      exact absurd (h ▸ hc.1) ha

theorem replaceAll_eq_iff {word clean : List α} (hclean : ∀ c ∈ clean, Clean allowed blank c) :
    replaceAll allowed blank word = clean ↔ word = clean := by
  induction word generalizing clean with
  | nil => rfl
  | cons a word ih =>
    cases clean with
    | nil =>
      rw [replaceAll, List.map_cons]
      exact iff_of_false (List.cons_ne_nil _ _) (List.cons_ne_nil _ _)
    | cons c clean =>
      rw [replaceAll, List.map_cons, List.cons.injEq, List.cons.injEq,
        replace_eq_iff (hclean c (List.mem_cons_self ..))]
      exact and_congr_right fun _ => ih fun d hd => hclean d (List.mem_cons_of_mem _ hd)

/-- A word starts with a clean word exactly if its image does. -/
theorem isPrefixOf_replaceAll [DecidableEq α] {clean : List α} (word : List α)
    (hclean : ∀ c ∈ clean, Clean allowed blank c) :
    clean.isPrefixOf (replaceAll allowed blank word) = clean.isPrefixOf word := by
  induction clean generalizing word with
  | nil => rw [List.isPrefixOf_nil_left, List.isPrefixOf_nil_left]
  | cons c clean ih =>
    cases word with
    | nil => rfl
    | cons a word =>
      have hrest := ih word fun d hd => hclean d (List.mem_cons_of_mem _ hd)
      have hfirst : (c == replace allowed blank a) = (c == a) := by
        apply Bool.eq_iff_iff.mpr
        rw [beq_iff_eq, beq_iff_eq, eq_comm, replace_eq_iff (hclean c (List.mem_cons_self ..)),
          eq_comm]
      rw [replaceAll, List.map_cons, List.isPrefixOf_cons_cons, List.isPrefixOf_cons_cons, hfirst]
      exact congrArg _ hrest

variable (allowed blank)

/-- A letter that becomes the blank, or is it. -/
def Blanked (a : α) : Prop := a = blank ∨ allowed a = false

/-- Two letters that cannot be told apart behind the replacement. -/
def Alike (a b : α) : Prop := a = b ∨ (Blanked allowed blank a ∧ Blanked allowed blank b)

theorem replace_eq_blank_iff (a : α) :
    replace allowed blank a = blank ↔ Blanked allowed blank a := by
  unfold replace Blanked
  cases allowed a <;> simp

theorem replace_eq_replace_iff (a b : α) :
    replace allowed blank a = replace allowed blank b ↔ Alike allowed blank a b := by
  constructor
  · intro h
    by_cases hblank : replace allowed blank a = blank
    · exact .inr ⟨(replace_eq_blank_iff allowed blank a).mp hblank,
        (replace_eq_blank_iff allowed blank b).mp (h ▸ hblank)⟩
    · -- both letters are kept
      have hkept := replace_of_ne_blank allowed blank hblank
      have hkept' := replace_of_ne_blank allowed blank (h ▸ hblank)
      rw [hkept, hkept'] at h
      exact .inl h
  · intro h
    rcases h with h | ⟨ha, hb⟩
    · rw [h]
    · rw [(replace_eq_blank_iff allowed blank a).mpr ha,
        (replace_eq_blank_iff allowed blank b).mpr hb]

/-- Two words collide exactly if they are as long and agree up to blanked letters. -/
theorem replaceAll_eq_replaceAll_iff (word word' : List α) :
    replaceAll allowed blank word = replaceAll allowed blank word' ↔
      List.Forall₂ (Alike allowed blank) word word' := by
  unfold replaceAll
  rw [← List.forall₂_eq_eq_eq, List.forall₂_map_left_iff, List.forall₂_map_right_iff]
  simp only [replace_eq_replace_iff]

end Replacement
