import Mathlib.Algebra.Order.Group.Int
import Mathlib.Data.List.Basic
import Mathlib.Data.List.Perm.Basic

/-!
# Rows of slots for Robin Hood hashing

An element is kept at its home or some slots to the right of it, and its slot knows how
far. No element is more than one slot further from home than its left neighbour, so a search
may stop where it has come further than what it meets. Rows do not wrap around: behind the
last slot follows one that stops every search.
-/

namespace RobinHood

set_option autoImplicit false

universe u
variable {α : Type u}

structure Slot (α : Type u) where
  /-- how far the element is from home; negative in an empty slot -/
  distance : ℤ
  value : Option α
  deriving DecidableEq

namespace Slot

def empty : Slot α := ⟨-1, none⟩

def stop : Slot α := ⟨0, none⟩

def has_value (s : Slot α) : Bool := 0 ≤ s.distance

end Slot

def contents (row : List (Slot α)) : List α := row.filterMap Slot.value

@[simp] theorem contents_nil : contents ([] : List (Slot α)) = [] := rfl

@[simp] theorem contents_append (row row' : List (Slot α)) :
    contents (row ++ row') = contents row ++ contents row' := List.filterMap_append

@[simp] theorem contents_empty_cons (row : List (Slot α)) :
    contents (.empty :: row) = contents row := rfl

@[simp] theorem contents_stop_cons (row : List (Slot α)) :
    contents (.stop :: row) = contents row := rfl

@[simp] theorem contents_some_cons (d : ℤ) (a : α) (row : List (Slot α)) :
    contents (⟨d, some a⟩ :: row) = a :: contents row := rfl

theorem contents_replicate_empty (n : ℕ) :
    contents (List.replicate n (Slot.empty : Slot α)) = [] := by
  induction n with
  | zero => rfl
  | succ n ih => rw [List.replicate_succ, contents_empty_cons, ih]

/-- The number of slots that a search passes, and whether it has met what it is after. -/
def search (same : α → Bool) : ℤ → List (Slot α) → Option (ℕ × Bool)
  | _, [] => none
  | d, s :: row =>
    if s.distance < d then some (0, false)
    else
      s.value.bind fun a =>
        if same a then some (0, true)
        else (search same (d + 1) row).map fun r => (r.1 + 1, r.2)

/-- An element takes the place of one that is nearer to its home, which moves on. What is left
over if an element has come `reach` slots far comes second. -/
def displace (reach : ℕ) : ℤ → α → List (Slot α) → Option (List (Slot α) × Option α)
  | _, _, [] => none
  | d, a, s :: row =>
    if s.distance < 0 then some (⟨d, some a⟩ :: row, none)
    else if s.distance < d then
      s.value.bind fun b =>
        (displace reach (s.distance + 1) b row).map fun r => (⟨d, some a⟩ :: r.1, r.2)
    else if d + 1 = reach then some (s :: row, some a)
    else (displace reach (d + 1) a row).map fun r => (s :: r.1, r.2)

/-- The first slot is given up, and elements that are not at home move to the left. -/
def closeGap : List (Slot α) → Option (List (Slot α))
  | [] => none
  | [_] => none
  | _ :: next :: row =>
    if next.distance ≤ 0 then some (.empty :: next :: row)
    else (closeGap (next :: row)).map (⟨next.distance - 1, next.value⟩ :: ·)

/-- The number of slots to the left of the first one that is not empty. -/
def skip : List (Slot α) → Option ℕ
  | [] => none
  | s :: row => if s.has_value then some 0 else (skip row).map (· + 1)

/-- The rest of a row from the slot `pos` on; `bound` is one more than the distance in the
slot to the left. -/
inductive Line (home : α → ℕ) (slots reach : ℕ) : ℕ → ℤ → List (Slot α) → Prop
  | stop {pos : ℕ} {bound : ℤ} (hpos : pos + 1 = slots + reach) :
      Line home slots reach pos bound [.stop]
  | empty {pos : ℕ} {bound : ℤ} {row : List (Slot α)} (hrow : Line home slots reach (pos + 1) 0 row) :
      Line home slots reach pos bound (.empty :: row)
  | full {pos : ℕ} {bound d : ℤ} {a : α} {row : List (Slot α)} (hd : 0 ≤ d) (hbound : d ≤ bound)
      (hreach : d < reach) (hhome : home a + d = pos) (hslots : home a < slots)
      (hrow : Line home slots reach (pos + 1) (d + 1) row) :
      Line home slots reach pos bound (⟨d, some a⟩ :: row)

def emptyRow (α : Type u) (slots reach : ℕ) : List (Slot α) :=
  List.replicate (slots + reach - 1) .empty ++ [.stop]

section Lines
variable {home : α → ℕ} {slots reach pos : ℕ} {bound : ℤ} {row : List (Slot α)}

namespace Line

theorem of_le {bound' : ℤ} (h : Line home slots reach pos bound row) (hle : bound ≤ bound') :
    Line home slots reach pos bound' row := by
  cases h with
  | stop hpos => exact .stop hpos
  | empty hrow => exact .empty hrow
  | full hd hbound hreach hhome hslots hrow =>
    exact .full hd (hbound.trans hle) hreach hhome hslots hrow

theorem replicate_empty (n : ℕ) (hpos : pos + n + 1 = slots + reach) :
    Line home slots reach pos bound (List.replicate n .empty ++ [.stop]) := by
  induction n generalizing pos bound with
  | zero => exact .stop hpos
  | succ n ih =>
    rw [List.replicate_succ]
    exact .empty (ih (by omega))

theorem emptyRow (h : 0 < slots + reach) :
    Line home slots reach 0 0 (RobinHood.emptyRow α slots reach) :=
  replicate_empty _ (by omega)

theorem length_eq (h : Line home slots reach pos bound row) :
    pos + row.length = slots + reach := by
  induction h with
  | stop hpos => exact hpos
  | empty _ ih => rw [List.length_cons]; omega
  | full _ _ _ _ _ _ ih => rw [List.length_cons]; omega

theorem ne_nil (h : Line home slots reach pos bound row) : row ≠ [] := by
  cases h <;> simp

theorem last (h : Line home slots reach pos bound row) {n : ℕ} (hn : n + 1 = row.length) :
    row[n]? = some .stop := by
  induction h generalizing n with
  | stop hpos =>
    cases Nat.succ.inj hn
    rfl
  | empty hrow ih =>
    cases n with
    | zero => exact absurd (List.length_eq_zero_iff.mp (Nat.succ.inj hn).symm) hrow.ne_nil
    | succ n => exact ih (Nat.succ.inj hn)
  | full hd hbound hreach hhome hslots hrow ih =>
    cases n with
    | zero => exact absurd (List.length_eq_zero_iff.mp (Nat.succ.inj hn).symm) hrow.ne_nil
    | succ n => exact ih (Nat.succ.inj hn)

theorem contents_dropLast (h : Line home slots reach pos bound row) :
    contents row.dropLast = contents row := by
  induction h with
  | stop hpos => rfl
  | empty hrow ih =>
    rw [List.dropLast_cons_of_ne_nil hrow.ne_nil, contents_empty_cons, contents_empty_cons, ih]
  | full _ _ _ _ _ hrow ih =>
    rw [List.dropLast_cons_of_ne_nil hrow.ne_nil, contents_some_cons, contents_some_cons, ih]

/-- Elements are not to the left of their homes. -/
theorem home_lt (h : Line home slots reach pos bound row) {n : ℕ} {a : α}
    (ha : a ∈ contents (row.take n)) : home a < pos + n := by
  induction h generalizing n with
  | stop hpos =>
    cases n with
    | zero => cases ha
    | succ n => cases n <;> cases ha
  | empty hrow ih =>
    cases n with
    | zero => cases ha
    | succ n =>
      have hlt := ih (n := n) ha
      omega
  | @full pos bound d b row hd hbound hreach hhome hslots hrow ih =>
    cases n with
    | zero => cases ha
    | succ n =>
      rw [List.take_succ_cons, contents_some_cons] at ha
      rcases List.mem_cons.mp ha with rfl | ha
      · omega
      · have hlt := ih ha
        omega

/-- From some slot on a row may be replaced, with the bound that holds there. -/
theorem split (h : Line home slots reach pos bound row) (hbound : 0 ≤ bound) {n : ℕ}
    (hn : n < row.length) :
    ∃ bound', 0 ≤ bound' ∧ bound' ≤ bound + (contents (row.take n)).length ∧
      Line home slots reach (pos + n) bound' (row.drop n) ∧
      ∀ row', Line home slots reach (pos + n) bound' row' →
        Line home slots reach pos bound (row.take n ++ row') := by
  induction n generalizing pos bound row with
  | zero => exact ⟨bound, hbound, by simp, h, fun row' h' => h'⟩
  | succ n ih =>
    have hpos : pos + (n + 1) = pos + 1 + n := by omega
    rw [hpos]
    cases h with
    | stop hpos => simp at hn
    | @empty _ _ row hrow =>
      obtain ⟨bound', h0, hle, hline, hreplace⟩ := ih hrow le_rfl (by simpa using hn)
      refine ⟨bound', h0, ?_, hline, fun row' h' => .empty (hreplace row' h')⟩
      rw [List.take_succ_cons, contents_empty_cons]
      omega
    | @full _ _ d a row hd hle hreach hhome hslots hrow =>
      obtain ⟨bound', h0, hle', hline, hreplace⟩ := ih hrow (by omega) (by simpa using hn)
      refine ⟨bound', h0, ?_, hline,
        fun row' h' => .full hd hle hreach hhome hslots (hreplace row' h')⟩
      rw [List.take_succ_cons, contents_some_cons, List.length_cons]
      omega

end Line

/-! ### Search -/

/-- A search from the home of what it is after ends with it, or where it would have to be. -/
structure Found (same : α → Bool) (c : ℤ) (row : List (Slot α)) (n : ℕ) (met : Bool) : Prop where
  passed : (contents (row.take n)).length = n
  others : ∀ a ∈ contents (row.take n), same a = false
  here : if met then ∃ a, row[n]?.bind Slot.value = some a ∧ same a = true
    else (∀ a ∈ contents row, same a = false) ∧ ∃ s, row[n]? = some s ∧ s.distance < c + n

/-- To the right of a slot whose element is nearer to its home than the search is to its
beginning there is nothing to be found. -/
theorem Line.not_same_of_lt (h : Line home slots reach pos bound row) {same : α → Bool}
    {target : ℕ} {c : ℤ} (hsame : ∀ a, same a = true → home a = target) (hpos : target + c = pos)
    (hc : 0 ≤ c) (hlt : bound < c) : ∀ a ∈ contents row, same a = false := by
  induction h generalizing c with
  | stop hpos =>
    intro a ha
    cases ha
  | empty hrow ih => exact ih (c := c + 1) (by omega) (by omega) (by omega)
  | @full pos bound d b row hd hbound hreach hhome hslots hrow ih =>
    intro a ha
    rcases List.mem_cons.mp ha with rfl | ha
    · apply Bool.eq_false_iff.mpr
      intro htrue
      have heq := hsame a htrue
      omega
    · exact ih (c := c + 1) (by omega) (by omega) (by omega) a ha

theorem Line.search (h : Line home slots reach pos bound row) {same : α → Bool} {target : ℕ}
    {c : ℤ} (hsame : ∀ a, same a = true → home a = target) (htarget : target < slots)
    (hreach : 0 < reach) (hpos : target + c = pos) (hc : 0 ≤ c) (hcb : c ≤ bound)
    (hcr : c ≤ reach) :
    ∃ n met bound', RobinHood.search same c row = some (n, met) ∧ Found same c row n met ∧
      c + n ≤ reach ∧ c + n ≤ bound' ∧ Line home slots reach (pos + n) bound' (row.drop n) ∧
      ∀ row', Line home slots reach (pos + n) bound' row' →
        Line home slots reach pos bound (row.take n ++ row') := by
  induction h generalizing c with
  | @stop pos bound hend =>
    refine ⟨0, false, bound, ?_, ?_, by omega, by omega, .stop hend, fun row' h' => h'⟩
    · have hlt : (Slot.stop : Slot α).distance < c := show (0 : ℤ) < c by omega
      rw [RobinHood.search, if_pos hlt]
    · refine ⟨rfl, by simp, ?_⟩
      rw [if_neg (by simp)]
      refine ⟨by simp, .stop, rfl, ?_⟩
      show (0 : ℤ) < c + (0 : ℕ)
      omega
  | @empty pos bound row hrow ih =>
    refine ⟨0, false, bound, ?_, ?_, by omega, by omega, .empty hrow, fun row' h' => h'⟩
    · have hlt : (Slot.empty : Slot α).distance < c := show (-1 : ℤ) < c by omega
      rw [RobinHood.search, if_pos hlt]
    · refine ⟨rfl, by simp, ?_⟩
      rw [if_neg (by simp)]
      refine ⟨?_, .empty, rfl, ?_⟩
      · exact hrow.not_same_of_lt (c := c + 1) hsame (by omega) (by omega) (by omega)
      · show (-1 : ℤ) < c + (0 : ℕ)
        omega
  | @full pos bound d a row hd hbound hfar hhome hslots hrow ih =>
    have hline : Line home slots reach pos bound (⟨d, some a⟩ :: row) :=
      .full hd hbound hfar hhome hslots hrow
    by_cases hlt : d < c
    · refine ⟨0, false, bound, ?_, ?_, by omega, by omega, hline, fun row' h' => h'⟩
      · rw [RobinHood.search, if_pos hlt]
      · refine ⟨rfl, by simp, ?_⟩
        rw [if_neg (by simp)]
        refine ⟨?_, ⟨d, some a⟩, rfl, ?_⟩
        · intro b hb
          rcases List.mem_cons.mp hb with rfl | hb
          · apply Bool.eq_false_iff.mpr
            intro htrue
            have heq := hsame b htrue
            omega
          · exact hrow.not_same_of_lt (c := c + 1) hsame (by omega) (by omega) (by omega) b hb
        · show d < c + (0 : ℕ)
          omega
    · by_cases ha : same a = true
      · refine ⟨0, true, bound, ?_, ?_, by omega, by omega, hline, fun row' h' => h'⟩
        · rw [RobinHood.search, if_neg hlt, Option.bind_some, if_pos ha]
        · refine ⟨rfl, by simp, ?_⟩
          rw [if_pos rfl]
          exact ⟨a, rfl, ha⟩
      · obtain ⟨n, met, bound', hsearch, hfound, hnear, hle, hdrop, hreplace⟩ :=
          ih (c := c + 1) (by omega) (by omega) (by omega) (by omega)
        have hshift : pos + (n + 1) = pos + 1 + n := by omega
        refine ⟨n + 1, met, bound', ?_, ?_, by omega, by omega, hshift ▸ hdrop, ?_⟩
        · rw [RobinHood.search, if_neg hlt, Option.bind_some, if_neg ha, hsearch]
          rfl
        · have hnot := Bool.eq_false_iff.mpr ha
          refine ⟨?_, ?_, ?_⟩
          · rw [List.take_succ_cons, contents_some_cons, List.length_cons, hfound.passed]
          · rw [List.take_succ_cons, contents_some_cons]
            exact List.forall_mem_cons.mpr ⟨hnot, hfound.others⟩
          · have hhere := hfound.here
            cases met with
            | true => exact hhere
            | false =>
              obtain ⟨hnone, s, hs, hlt⟩ := hhere
              exact ⟨List.forall_mem_cons.mpr ⟨hnot, hnone⟩, s, hs, by omega⟩
        · intro row' h'
          exact .full hd hbound hfar hhome hslots (hreplace row' (hshift ▸ h'))

/-! ### Insertion -/

/-- An element that belongs somewhere from here on finds its place, and moves others on. Where
fewer elements are there than slots that an element may come, none is left over. -/
theorem Line.displace (h : Line home slots reach pos bound row) {d : ℤ} {a : α} (hd : 0 ≤ d)
    (hbound : d ≤ bound) (hreach : d < reach) (hhome : home a + d = pos) (hslots : home a < slots) :
    ∃ row' left, RobinHood.displace reach d a row = some (row', left) ∧
      Line home slots reach pos bound row' ∧
      (contents row' ++ left.toList).Perm (a :: contents row) ∧
      ∀ seen : ℕ, bound ≤ seen → seen + (contents row).length < reach → left = none := by
  induction h generalizing d a with
  | @stop pos bound hend => omega
  | @empty pos bound row hrow =>
    refine ⟨⟨d, some a⟩ :: row, none, rfl, ?_, ?_, fun _ _ _ => rfl⟩
    · exact .full hd hbound hreach hhome hslots (hrow.of_le (by omega))
    · simp
  | @full pos bound e b row he hbound' hreach' hhome' hslots' hrow ih =>
    by_cases hlt : e < d
    · obtain ⟨row', left, hdisplace, hline, hperm, hnone⟩ :=
        ih (d := e + 1) (a := b) (by omega) le_rfl (by omega) (by omega) hslots'
      refine ⟨⟨d, some a⟩ :: row', left, ?_, ?_, ?_, ?_⟩
      · rw [RobinHood.displace, if_neg (by simpa using he), if_pos hlt, Option.bind_some,
          hdisplace]
        rfl
      · exact .full hd hbound hreach hhome hslots (hline.of_le (by omega))
      · exact hperm.cons a
      · intro seen hseen hfew
        rw [contents_some_cons, List.length_cons] at hfew
        exact hnone (seen + 1) (by omega) (by omega)
    · by_cases hend : d + 1 = reach
      · refine ⟨⟨e, some b⟩ :: row, some a, ?_, .full he hbound' hreach' hhome' hslots' hrow, ?_, ?_⟩
        · rw [RobinHood.displace, if_neg (by simpa using he), if_neg hlt, if_pos hend]
        · exact List.perm_append_singleton a _
        · intro seen hseen hfew
          rw [contents_some_cons, List.length_cons] at hfew
          omega
      · obtain ⟨row', left, hdisplace, hline, hperm, hnone⟩ :=
          ih (d := d + 1) (a := a) (by omega) (by omega) (by omega) (by omega) hslots
        refine ⟨⟨e, some b⟩ :: row', left, ?_, .full he hbound' hreach' hhome' hslots' hline, ?_, ?_⟩
        · rw [RobinHood.displace, if_neg (by simpa using he), if_neg hlt, if_neg hend, hdisplace]
          rfl
        · exact (hperm.cons b).trans (List.Perm.swap a b _)
        · intro seen hseen hfew
          rw [contents_some_cons, List.length_cons] at hfew
          exact hnone (seen + 1) (by omega) (by omega)

/-! ### Removal -/

/-- The elements to the right of a gap move one slot to the left, up to the next that is at
home. -/
theorem Line.closeGap {bound' : ℤ} (h : Line home slots reach (pos + 1) bound' row)
    (hbound : 0 ≤ bound) (hle : bound' ≤ bound + 1) (s : Slot α) :
    ∃ row', RobinHood.closeGap (s :: row) = some row' ∧ Line home slots reach pos bound row' ∧
      contents row' = contents row := by
  induction row generalizing pos bound bound' s with
  | nil => cases h
  | cons next row ih =>
    by_cases hhere : next.distance ≤ 0
    · refine ⟨.empty :: next :: row, ?_, .empty ?_, rfl⟩
      · rw [RobinHood.closeGap, if_pos hhere]
      · cases h with
        | stop hpos => exact .stop hpos
        | empty hrow => exact .empty hrow
        | full hd hbound hreach hhome hslots hrow =>
          exact .full hd hhere hreach hhome hslots hrow
    · cases h with
      | stop hpos => exact absurd le_rfl hhere
      | empty hrow => exact absurd (show (-1 : ℤ) ≤ 0 by decide) hhere
      | @full _ _ d a _ hd hbound' hreach hhome hslots hrow =>
        have hpositive : 0 < d := Int.not_le.mp hhere
        obtain ⟨row', hclose, hline, hcontents⟩ :=
          ih hrow hd le_rfl ⟨d, some a⟩
        refine ⟨⟨d - 1, some a⟩ :: row', ?_, ?_, ?_⟩
        · rw [RobinHood.closeGap, if_neg hhere, hclose]
          rfl
        · refine .full (by omega) (by omega) (by omega) (by omega) hslots ?_
          rwa [Int.sub_add_cancel]
        · rw [contents_some_cons, contents_some_cons, hcontents]

/-! ### Iteration -/

theorem Line.skip (h : Line home slots reach pos bound row) :
    ∃ n, RobinHood.skip row = some n ∧ contents (row.take n) = [] ∧ n < row.length ∧
      ((row.drop n = [.stop] ∧ contents row = []) ∨
        ∃ d a rest, row.drop n = ⟨d, some a⟩ :: rest ∧ contents row = a :: contents rest) := by
  induction h with
  | stop hpos => exact ⟨0, rfl, rfl, by simp, .inl ⟨rfl, rfl⟩⟩
  | empty hrow ih =>
    obtain ⟨n, hskip, hnone, hlt, hend⟩ := ih
    refine ⟨n + 1, ?_, hnone, by simpa using hlt, hend⟩
    rw [RobinHood.skip, if_neg (by simp [Slot.has_value, Slot.empty]), hskip]
    rfl
  | @full pos bound d a row hd hbound hreach hhome hslots hrow ih =>
    refine ⟨0, ?_, rfl, by simp, .inr ⟨d, a, row, rfl, rfl⟩⟩
    rw [RobinHood.skip, if_pos (by simpa [Slot.has_value] using hd)]

end Lines

end RobinHood
