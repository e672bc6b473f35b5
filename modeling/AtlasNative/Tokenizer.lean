import AtlasNative.Machine
import AtlasNative.Strings
import Mathlib.Data.List.DropRight
import Mathlib.Data.List.GetD

/-!
# Splitting a program into tokens

The loops of `split` and `add_nonempty` with every character that they look at. A read in
front of a string or behind its NUL is undefined, and `add_nonempty` converts the ends of
a field to `int`. In a string whose length is an `int`, a field starts behind a comma and
is trimmed on both sides, and what is added are the trimmed fields that are not empty.
-/

namespace AtlasNative

set_option autoImplicit false

def Literal (str : List Char) : StrRef := intern_str (String.ofList str)

namespace Literal

def IsWord (s : StrRef) : Bool := s.str.toList.head? = some ':'

def GetWord (s : StrRef) : String := String.ofList s.str.toList.tail

end Literal

/-- `s[i]`, which is a NUL at the end of the string. -/
def charAt (s : List Char) (i : ℕ) : Char := s.getD i nul

namespace interpreter

/-- `s[i]` -/
def subscript (s : List Char) (i : ℤ) : Except Fault Char :=
  if 0 ≤ i ∧ i ≤ s.length then .ok (charAt s i.toNat) else .error .undefined

/-- `s.substr(pos, n)`, where `n` is a `size_t`. -/
def substr (s : List Char) (pos : ℕ) (n : ℤ) : Except Fault (List Char) :=
  if pos ≤ s.length then .ok ((s.drop pos).take (n % 2 ^ 64).toNat) else .error .exception

theorem le_of_subscript {s : List Char} {i : ℕ} {c : Char} (h : subscript s i = .ok c) :
    i ≤ s.length := by
  unfold subscript at h
  split at h
  · omega
  · cases h

theorem subscript_eq_ok {s : List Char} {i : ℕ} (h : i ≤ s.length) :
    subscript s i = .ok (charAt s i) := by
  rw [subscript, if_pos (by omega), Int.toNat_natCast]

/-- `while (isspace(s[i])) ++i` -/
def trim_left (s : List Char) (i : ℕ) : Except Fault ℕ :=
  match h : subscript s i with
  | .error fault => .error fault
  | .ok c => if isspace c then trim_left s (i + 1) else .ok i
termination_by s.length + 1 - i
decreasing_by
  have := le_of_subscript h
  omega

/-- `while (k >= 0 && isspace(s[k])) --k` -/
def trim_right (s : List Char) (k : ℤ) : Except Fault ℤ :=
  if 0 ≤ k then
    match subscript s k with
    | .error fault => .error fault
    | .ok c => if isspace c then trim_right s (k - 1) else .ok k
  else .ok k
termination_by (k + 1).toNat

/-- `s.find(',', i)` -/
def find_comma (s : List Char) (i : ℕ) : Option ℕ :=
  ((s.drop i).findIdx? (· = ',')).map (i + ·)

def add_nonempty (i j : ℕ) (s : List Char) (result : List StrRef) :
    Except Fault (List StrRef) := do
  -- `static_cast<int>(j) - 1` overflows on the smallest `int`
  if wrap 32 j = -2 ^ 31 then .error .undefined
  else
    let k ← trim_right s (wrap 32 j - 1)
    let k := k + 1
    if k > wrap 32 i then
      let token ← substr s i (k - i)
      .ok (result ++ [Literal token])
    else .ok result

theorem trim_left_of_le {s : List Char} {i : ℕ} (hi : i ≤ s.length) :
    trim_left s i = if isspace (charAt s i) then trim_left s (i + 1) else .ok i := by
  rw [trim_left]
  split
  · next hread =>
    rw [subscript_eq_ok hi] at hread
    cases hread
  · next hread =>
    rw [subscript_eq_ok hi, Except.ok.injEq] at hread
    rw [hread]

/-- The NUL is no white space, so that trimming stops there. -/
theorem charAt_length (s : List Char) : isspace (charAt s s.length) = false := by
  rw [charAt, List.getD_eq_default _ _ le_rfl]
  decide

theorem trim_left_eq {s : List Char} {i : ℕ} (hi : i ≤ s.length) :
    trim_left s i = .ok (i + ((s.drop i).takeWhile isspace).length) := by
  induction hn : s.length - i generalizing i with
  | zero =>
    obtain rfl : i = s.length := by omega
    rw [trim_left_of_le hi, charAt_length, if_neg (by decide), List.drop_length]
    rfl
  | succ n ih =>
    have hlt : i < s.length := by omega
    have hc : charAt s i = s[i] := List.getD_eq_getElem _ _ hlt
    rw [trim_left_of_le hi, hc, List.drop_eq_getElem_cons hlt]
    by_cases hspace : isspace s[i] = true
    · rw [if_pos hspace, ih hlt (by omega), List.takeWhile_cons_of_pos hspace, List.length_cons,
        Nat.succ_add_eq_add_succ]
    · rw [if_neg hspace, List.takeWhile_cons_of_neg hspace]
      rfl

theorem le_of_trim_left {s : List Char} {i i' : ℕ} (h : trim_left s i = .ok i') : i ≤ i' := by
  have hi : i ≤ s.length := by
    by_contra hgt
    rw [trim_left] at h
    split at h
    · cases h
    · next hread => exact hgt (le_of_subscript hread)
  rw [trim_left_eq hi, Except.ok.injEq] at h
  omega

theorem le_of_find_comma {s : List Char} {i j : ℕ} (h : find_comma s i = some j) :
    i ≤ j ∧ j < s.length := by
  obtain ⟨n, hn, rfl⟩ := Option.map_eq_some_iff.mp h
  obtain ⟨hlt, _⟩ := List.findIdx?_eq_some_iff_getElem.mp hn
  rw [List.length_drop] at hlt
  omega

def split_loop (s : List Char) (i : ℕ) (result : List StrRef) : Except Fault (List StrRef) :=
  match hleft : trim_left s i with
  | .error fault => .error fault
  | .ok i' =>
    have := le_of_trim_left hleft
    match hcomma : find_comma s i' with
    | none => add_nonempty i' s.length s result
    | some j => (add_nonempty i' j s result).bind fun result => split_loop s (j + 1) result
termination_by s.length - i
decreasing_by
  have hj := le_of_find_comma hcomma
  omega

/-- Split on `,` and trim the elements. Does not add empty elements to the result. -/
def split (s : String) (result : List StrRef) : Except Fault (List StrRef) :=
  split_loop s.toList 0 result

theorem split_loop_of_trim {s : List Char} {i i' : ℕ} (hleft : trim_left s i = .ok i')
    (result : List StrRef) :
    split_loop s i result =
      match find_comma s i' with
      | none => add_nonempty i' s.length s result
      | some j =>
        (add_nonempty i' j s result).bind fun result => split_loop s (j + 1) result := by
  rw [split_loop]
  split
  · next hleft' =>
    rw [hleft] at hleft'
    cases hleft'
  · next hleft' =>
    cases hleft.symm.trans hleft'
    split
    · next hcomma => rw [hcomma]
    · next hcomma => rw [hcomma]

end interpreter

def fieldToken (field : List Char) : Option StrRef :=
  let token := (field.dropWhile isspace).rdropWhile isspace
  if token.isEmpty then none else some (Literal token)

theorem rdropWhile_append (a b : List Char) :
    (a ++ b).rdropWhile isspace =
      if (b.rdropWhile isspace).isEmpty then a.rdropWhile isspace
      else a ++ b.rdropWhile isspace := by
  simp only [List.rdropWhile, List.reverse_append, List.dropWhile_append, List.isEmpty_reverse]
  split <;> simp

theorem dropWhile_isspace_take {l : List Char} (n : ℕ) (h : l.dropWhile isspace = l) :
    (l.take n).dropWhile isspace = l.take n := by
  cases n with
  | zero => rfl
  | succ n =>
    cases l with
    | nil => rfl
    | cons c l =>
      have hc : ¬ isspace c = true := by
        intro hc
        have hlen := congrArg List.length h
        rw [List.dropWhile_cons_of_pos hc, List.length_cons] at hlen
        have hle := (List.dropWhile_suffix (l := l) isspace).length_le
        omega
      rw [List.take_succ_cons, List.dropWhile_cons_of_neg hc]

/-- The first field of what is left, and what is left behind its comma. -/
theorem splitOn_blanks_append {l : List Char} {field rest : List Char}
    (hl : l.dropWhile isspace = field ++ ',' :: rest) (hfield : ',' ∉ field) :
    l.splitOn ',' = (l.takeWhile isspace ++ field) :: rest.splitOn ',' := by
  have hblank : ',' ∉ l.takeWhile isspace := by
    intro h
    exact absurd (List.mem_takeWhile_imp h) (by decide)
  have hsplit : l = (l.takeWhile isspace ++ field) ++ ',' :: rest := by
    rw [List.append_assoc, ← hl, List.takeWhile_append_dropWhile]
  conv_lhs => rw [hsplit]
  exact List.splitOn_append_cons_self_of_not_mem (by simp [hblank, hfield]) rest

theorem fieldToken_blanks_append (blanks field : List Char)
    (hblanks : ∀ c ∈ blanks, isspace c = true) :
    fieldToken (blanks ++ field) = fieldToken field := by
  unfold fieldToken
  rw [List.dropWhile_append_of_pos hblanks]

theorem isspace_of_mem_takeWhile {l : List Char} : ∀ c ∈ l.takeWhile isspace, isspace c = true :=
  fun _ hc => List.mem_takeWhile_imp hc

namespace interpreter

theorem drop_trim_left (s : List Char) (i : ℕ) :
    s.drop (i + ((s.drop i).takeWhile isspace).length) = (s.drop i).dropWhile isspace := by
  rw [← List.drop_drop]
  have hsplit := List.takeWhile_append_dropWhile (p := isspace) (l := s.drop i)
  generalize (s.drop i).takeWhile isspace = blanks at hsplit ⊢
  generalize (s.drop i).dropWhile isspace = rest at hsplit ⊢
  rw [← hsplit, List.drop_left]

theorem trim_right_eq {s : List Char} {j : ℕ} (hj : j ≤ s.length) :
    trim_right s ((j : ℤ) - 1) = .ok (((s.take j).rdropWhile isspace).length - 1) := by
  induction j with
  | zero =>
    rw [trim_right, if_neg (by omega)]
    rfl
  | succ k ih =>
    have hk : k < s.length := hj
    have hpred : ((k + 1 : ℕ) : ℤ) - 1 = k := by omega
    have hc : charAt s k = s[k] := List.getD_eq_getElem _ _ hk
    have htake : s.take (k + 1) = s.take k ++ [s[k]] := (List.take_append_getElem hk).symm
    rw [hpred, trim_right, if_pos (by omega), subscript_eq_ok hk.le, hc, htake]
    dsimp only
    by_cases hspace : isspace s[k] = true
    · rw [if_pos hspace, ih hk.le, List.rdropWhile_concat_pos _ _ _ hspace]
    · rw [if_neg hspace, List.rdropWhile_concat_neg _ _ _ hspace, ← htake,
        List.length_take_of_le hj, hpred]

theorem add_nonempty_of_trim {s : List Char} {i j : ℕ} {k : ℤ} (hmin : wrap 32 j ≠ -2 ^ 31)
    (htrim : trim_right s (wrap 32 j - 1) = .ok (k - 1)) (result : List StrRef) :
    add_nonempty i j s result =
      if k > wrap 32 i then (substr s i (k - i)).map fun token => result ++ [Literal token]
      else .ok result := by
  have hk : k - 1 + 1 = k := by omega
  rw [add_nonempty, if_neg hmin, htrim]
  simp only [bind, Except.bind, hk]
  rfl

/-- Trimming on the right stops within a field that does not start with a blank. -/
theorem add_nonempty_eq {s : List Char} {i j : ℕ} (hij : i ≤ j) (hj : j ≤ s.length)
    (hlength : s.length < 2 ^ 31) (result : List StrRef)
    (hleft : ((s.drop i).take (j - i)).dropWhile isspace = (s.drop i).take (j - i)) :
    add_nonempty i j s result =
      .ok (result ++ (fieldToken ((s.drop i).take (j - i))).toList) := by
  have htake : s.take j = s.take i ++ (s.drop i).take (j - i) := by
    rw [← List.take_add, Nat.add_sub_cancel' hij]
  have htrim := trim_right_eq hj
  rw [← wrap_eq_self (n := j) (by omega) (by omega)] at htrim
  rw [add_nonempty_of_trim (by rw [wrap_eq_self (by omega) (by omega)]; omega) htrim,
    wrap_eq_self (by omega) (by omega), htake, rdropWhile_append, fieldToken, hleft]
  have hfield : (s.drop i).take (j - i) <+: s.drop i := List.take_prefix _ _
  generalize (s.drop i).take (j - i) = field at hleft hfield ⊢
  by_cases hnil : field.rdropWhile isspace = []
  · have hlen : ((s.take i).rdropWhile isspace).length ≤ i :=
      ((List.rdropWhile_prefix _ _).length_le).trans (List.length_take_le _ _)
    simp [hnil, hlen]
  · have hprefix : field.rdropWhile isspace <+: s.drop i :=
      (List.rdropWhile_prefix _ _).trans hfield
    have hpos := List.length_pos_of_ne_nil hnil
    have hi : i ≤ s.length := hij.trans hj
    have hlen : (s.take i ++ field.rdropWhile isspace).length =
        i + (field.rdropWhile isspace).length := by
      simp [hi]
    have hempty : (field.rdropWhile isspace).isEmpty = false := List.isEmpty_eq_false_iff.mpr hnil
    have hcount : (((i + (field.rdropWhile isspace).length : ℕ) - (i : ℤ)) % 2 ^ 64).toNat =
        (field.rdropWhile isspace).length := by
      have hle : i + (field.rdropWhile isspace).length ≤ s.length := by
        have := hprefix.length_le
        rw [List.length_drop] at this
        omega
      omega
    simp only [hempty, Bool.false_eq_true, if_false, hlen]
    rw [if_pos (by omega), substr, if_pos hi, hcount, ← List.prefix_iff_eq_take.mp hprefix]
    rfl

/-- The comma that is found ends a field without commas. -/
theorem find_comma_eq_some {s : List Char} {i j : ℕ} (h : find_comma s i = some j) :
    ',' ∉ (s.drop i).take (j - i) ∧
      s.drop i = (s.drop i).take (j - i) ++ ',' :: s.drop (j + 1) := by
  obtain ⟨n, hn, rfl⟩ := Option.map_eq_some_iff.mp h
  obtain ⟨hlt, hcomma, hbefore⟩ := List.findIdx?_eq_some_iff_getElem.mp hn
  rw [Nat.add_sub_cancel_left]
  constructor
  · intro hmem
    obtain ⟨k, hk, hget⟩ := List.getElem_of_mem hmem
    have hkn : k < n := (List.length_take ▸ hk).trans_le (min_le_left _ _)
    rw [List.getElem_take] at hget
    exact hbefore k hkn (by simpa using hget)
  · have hget : (s.drop i)[n] = ',' := by simpa using hcomma
    have hrest : s.drop (i + n + 1) = (s.drop i).drop (n + 1) := by
      rw [List.drop_drop, add_assoc]
    rw [hrest, ← hget, ← List.drop_eq_getElem_cons hlt, List.take_append_drop]

theorem find_comma_eq_none {s : List Char} {i : ℕ} (h : find_comma s i = none) :
    ',' ∉ s.drop i := by
  intro hmem
  have hall := List.findIdx?_eq_none_iff.mp (Option.map_eq_none_iff.mp h)
  exact absurd (hall _ hmem) (by simp)

/-- The loop stays within the string, and adds the tokens of the fields that are left. -/
theorem split_loop_eq {s : List Char} {i : ℕ} (hi : i ≤ s.length) (hlength : s.length < 2 ^ 31)
    (result : List StrRef) :
    split_loop s i result = .ok (result ++ ((s.drop i).splitOn ',').filterMap fieldToken) := by
  induction hn : s.length - i using Nat.strong_induction_on generalizing i result with
  | _ n ih =>
    have hleft := trim_left_eq hi
    have hdrop := drop_trim_left s i
    have hle := (List.takeWhile_prefix (l := s.drop i) isspace).length_le
    rw [List.length_drop] at hle
    rw [split_loop_of_trim hleft]
    generalize hstart : i + ((s.drop i).takeWhile isspace).length = start at hdrop ⊢
    have hidem : (s.drop start).dropWhile isspace = s.drop start := by
      rw [hdrop, List.dropWhile_idempotent]
    cases hfind : find_comma s start with
    | some j =>
      obtain ⟨hij, hj⟩ := le_of_find_comma hfind
      obtain ⟨hfield, hdecomp⟩ := find_comma_eq_some hfind
      dsimp only
      rw [add_nonempty_eq hij hj.le hlength result (dropWhile_isspace_take _ hidem)]
      change split_loop s (j + 1) _ = _
      rw [ih _ (by omega) hj _ rfl, splitOn_blanks_append (hdrop.symm.trans hdecomp) hfield,
        List.filterMap_cons, fieldToken_blanks_append _ _ isspace_of_mem_takeWhile]
      cases fieldToken ((s.drop start).take (j - start)) <;> simp
    | none =>
      have hnone := find_comma_eq_none hfind
      rw [hdrop] at hnone
      have hblank : ',' ∉ (s.drop i).takeWhile isspace := fun hmem =>
        absurd (isspace_of_mem_takeWhile _ hmem) (by decide)
      have hcomma : ',' ∉ s.drop i := by
        rw [← List.takeWhile_append_dropWhile (p := isspace) (l := s.drop i), List.mem_append]
        exact not_or.mpr ⟨hblank, hnone⟩
      have hall : (s.drop start).take (s.length - start) = s.drop start :=
        List.take_of_length_le (by simp)
      have htoken : fieldToken (s.drop start) = fieldToken (s.drop i) := by
        conv_rhs => rw [← List.takeWhile_append_dropWhile (p := isspace) (l := s.drop i)]
        rw [hdrop, fieldToken_blanks_append _ _ isspace_of_mem_takeWhile]
      dsimp only
      rw [add_nonempty_eq (by omega) le_rfl hlength result (by rw [hall, hidem]), hall, htoken,
        List.splitOn_eq_singleton hcomma]
      cases h : fieldToken (s.drop i) <;> simp [h]

/-- The tokens of a program are its fields, trimmed, without the empty ones. -/
theorem split_eq {s : String} (hlength : s.toList.length < 2 ^ 31) (result : List StrRef) :
    split s result = .ok (result ++ (s.toList.splitOn ',').filterMap fieldToken) :=
  split_loop_eq (Nat.zero_le _) hlength result

end interpreter

end AtlasNative
