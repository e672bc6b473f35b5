import Mathlib.Data.List.Infix

/-!
# Leftmost substitution

A pattern finds a match at the start of a word. Substitution goes through a word from the
left, puts a replacement in the place of every match that it comes to, and does not look at
the replacement again. The word falls apart into segments, the matches and what is between
them, and a buffer takes as many whole pieces of the result as it has room for.
-/

namespace Substitution

set_option autoImplicit false

universe u v

structure Pattern (α : Type u) (ρ : Type v) where
  /-- The match at the start of a word. -/
  find : List α → Option ρ
  text : ρ → List α
  text_ne_nil : ∀ r, text r ≠ []
  starts_with : ∀ {s r}, find s = some r → text r <+: s

/-- The matches of a word, each with what is before it, and what is behind the last one. -/
inductive Segments (α : Type u) (ρ : Type v) where
  | last (rest : List α)
  | reference (before : List α) (r : ρ) (rest : Segments α ρ)

variable {α : Type u} {ρ : Type v}

namespace Segments

def pieces (f : ρ → List α) : Segments α ρ → List (List α)
  | last rest => [rest]
  | reference before r rest => before :: f r :: rest.pieces f

end Segments

namespace Pattern

variable (P : Pattern α ρ)

theorem text_length_pos (r : ρ) : 0 < (P.text r).length :=
  List.length_pos_of_ne_nil (P.text_ne_nil r)

/-- The word with every match replaced. -/
def substitute (f : ρ → List α) : List α → List α
  | [] => []
  | a :: s =>
    match P.find (a :: s) with
    | some r => f r ++ substitute f ((a :: s).drop (P.text r).length)
    | none => a :: substitute f s
termination_by s => s.length
decreasing_by
  · have := P.text_length_pos r
    simp only [List.length_drop, List.length_cons]
    omega
  · exact Nat.lt_succ_self _

/-- The first match is at `i`. -/
def LeftmostAt (s : List α) (i : ℕ) (r : ρ) : Prop :=
  P.find (s.drop i) = some r ∧ ∀ k < i, P.find (s.drop k) = none

/-- The first match, with what is before it and what is behind it. -/
def search : List α → Option (List α × ρ × List α)
  | [] => none
  | a :: s =>
    match P.find (a :: s) with
    | some r => some ([], r, (a :: s).drop (P.text r).length)
    | none => (search s).map fun found => (a :: found.1, found.2)

variable {P}

theorem find_nil : P.find [] = none := by
  cases h : P.find [] with
  | none => rfl
  | some r => exact absurd (List.prefix_nil.mp (P.starts_with h)) (P.text_ne_nil r)

theorem search_cons_of_find {a : α} {s : List α} {r : ρ} (h : P.find (a :: s) = some r) :
    P.search (a :: s) = some ([], r, (a :: s).drop (P.text r).length) := by
  rw [search, h]

theorem search_cons_of_none {a : α} {s : List α} (h : P.find (a :: s) = none) :
    P.search (a :: s) = (P.search s).map fun found => (a :: found.1, found.2) := by
  rw [search, h]

theorem find_drop_of_search_eq_none {s : List α} (h : P.search s = none) (k : ℕ) :
    P.find (s.drop k) = none := by
  induction s generalizing k with
  | nil => rw [List.drop_nil, find_nil]
  | cons a s ih =>
    cases hfind : P.find (a :: s) with
    | some r => simp [search_cons_of_find hfind] at h
    | none =>
      rw [search_cons_of_none hfind, Option.map_eq_none_iff] at h
      cases k with
      | zero => exact hfind
      | succ k => exact ih h k

theorem leftmostAt_of_search {s before after : List α} {r : ρ}
    (h : P.search s = some (before, r, after)) :
    P.LeftmostAt s before.length r ∧ s = before ++ P.text r ++ after := by
  induction s generalizing before with
  | nil => cases h
  | cons a s ih =>
    cases hfind : P.find (a :: s) with
    | some found =>
      rw [search_cons_of_find hfind] at h
      obtain ⟨rfl, rfl, rfl⟩ := by simpa using h
      refine ⟨⟨hfind, fun k hk => absurd hk (Nat.not_lt_zero k)⟩, ?_⟩
      exact (List.prefix_iff_eq_append.mp (P.starts_with hfind)).symm
    | none =>
      rw [search_cons_of_none hfind] at h
      obtain ⟨⟨front, found, rest⟩, hfound, heq⟩ := Option.map_eq_some_iff.mp h
      obtain ⟨rfl, rfl, rfl⟩ := by simpa using heq
      obtain ⟨⟨hat, hbefore⟩, hsplit⟩ := ih hfound
      refine ⟨⟨hat, fun k hk => ?_⟩, ?_⟩
      · cases k with
        | zero => exact hfind
        | succ k => exact hbefore k (Nat.lt_of_succ_lt_succ hk)
      · conv_lhs => rw [hsplit]
        rfl

theorem LeftmostAt.unique {s : List α} {i j : ℕ} {r r' : ρ} (h : P.LeftmostAt s i r)
    (h' : P.LeftmostAt s j r') : i = j ∧ r = r' := by
  rcases Nat.lt_trichotomy i j with hij | rfl | hji
  · cases (h'.2 i hij).symm.trans h.1
  · exact ⟨rfl, Option.some.inj (h.1.symm.trans h'.1)⟩
  · cases (h.2 j hji).symm.trans h'.1

theorem search_of_leftmostAt {s : List α} {i : ℕ} {r : ρ} (h : P.LeftmostAt s i r) :
    ∃ before after, P.search s = some (before, r, after) ∧ before.length = i := by
  cases hsearch : P.search s with
  | none => cases (find_drop_of_search_eq_none hsearch i).symm.trans h.1
  | some found =>
    obtain ⟨before, r', after⟩ := found
    obtain ⟨hi, rfl⟩ := (leftmostAt_of_search hsearch).1.unique h
    exact ⟨before, after, rfl, hi⟩

theorem length_lt_of_search {s before after : List α} {r : ρ}
    (h : P.search s = some (before, r, after)) : after.length < s.length := by
  have hpos := P.text_length_pos r
  have hlength := congrArg List.length (leftmostAt_of_search h).2
  simp only [List.length_append] at hlength
  omega

variable (P) in
def parse (s : List α) : Segments α ρ :=
  match h : P.search s with
  | none => .last s
  | some (before, r, after) =>
    have := length_lt_of_search h
    .reference before r (parse after)
termination_by s.length

theorem parse_of_none {s : List α} (h : P.search s = none) : P.parse s = .last s := by
  rw [parse]
  split
  · rfl
  · simp_all

theorem parse_of_some {s before after : List α} {r : ρ}
    (h : P.search s = some (before, r, after)) :
    P.parse s = .reference before r (P.parse after) := by
  rw [parse]
  split
  · simp_all
  · simp_all

theorem substitute_of_none {s : List α} (f : ρ → List α) (h : P.search s = none) :
    P.substitute f s = s := by
  induction s with
  | nil => rw [substitute]
  | cons a s ih =>
    have hfind : P.find (a :: s) = none := find_drop_of_search_eq_none h 0
    rw [search_cons_of_none hfind, Option.map_eq_none_iff] at h
    rw [substitute, hfind]
    exact congrArg (a :: ·) (ih h)

theorem substitute_of_some {s before after : List α} {r : ρ} (f : ρ → List α)
    (h : P.search s = some (before, r, after)) :
    P.substitute f s = before ++ f r ++ P.substitute f after := by
  induction s generalizing before with
  | nil => cases h
  | cons a s ih =>
    rw [substitute]
    cases hfind : P.find (a :: s) with
    | some found =>
      rw [search_cons_of_find hfind] at h
      obtain ⟨rfl, rfl, rfl⟩ := by simpa using h
      rfl
    | none =>
      rw [search_cons_of_none hfind] at h
      obtain ⟨⟨front, found, rest⟩, hfound, heq⟩ := Option.map_eq_some_iff.mp h
      obtain ⟨rfl, rfl, rfl⟩ := by simpa using heq
      exact congrArg (a :: ·) (ih hfound)

theorem flatten_pieces_parse (f : ρ → List α) (s : List α) :
    ((P.parse s).pieces f).flatten = P.substitute f s := by
  induction s using parse.induct (P := P) with
  | case1 s h =>
    rw [parse_of_none h, substitute_of_none f h]
    exact List.append_nil s
  | case2 s before r after h _ ih =>
    rw [parse_of_some h, substitute_of_some f h, ← ih, List.append_assoc]
    rfl

end Pattern

section Fitting

/-- The pieces that come before the first one with which there are `limit` letters. -/
def takeFitting : ℕ → List (List α) → List α
  | _, [] => []
  | limit, piece :: pieces =>
    if piece.length < limit then piece ++ takeFitting (limit - piece.length) pieces else []

theorem takeFitting_isPrefix (limit : ℕ) (pieces : List (List α)) :
    takeFitting limit pieces <+: pieces.flatten := by
  induction pieces generalizing limit with
  | nil => exact List.prefix_rfl
  | cons piece pieces ih =>
    unfold takeFitting
    split
    · exact (List.prefix_append_right_inj piece).mpr (ih _)
    · exact List.nil_prefix

theorem length_takeFitting_lt {limit : ℕ} (hlimit : 0 < limit) (pieces : List (List α)) :
    (takeFitting limit pieces).length < limit := by
  induction pieces generalizing limit with
  | nil => exact hlimit
  | cons piece pieces ih =>
    unfold takeFitting
    split
    · have hroom : 0 < limit - piece.length := by omega
      have hrest := ih hroom
      rw [List.length_append]
      omega
    · exact hlimit

theorem takeFitting_of_length_lt {limit : ℕ} {pieces : List (List α)}
    (h : pieces.flatten.length < limit) : takeFitting limit pieces = pieces.flatten := by
  induction pieces generalizing limit with
  | nil => rfl
  | cons piece pieces ih =>
    rw [List.flatten_cons, List.length_append] at h
    rw [takeFitting, if_pos (by omega), ih (by omega), List.flatten_cons]

end Fitting

end Substitution
