import AtlasNative.Lib.Substitution
import AtlasNative.Machine
import Mathlib.Data.List.TakeWhile

/-!
# Variables in templates

`ExpandVars` copies a template into a buffer of 65536 bytes, where every `$word` and every
`${name}` is replaced by what a function makes of the name. Lengths and indices are kept in
an `int`. The matcher is a parameter, of which it is assumed that it finds the first match.
-/

namespace AtlasNative

open Substitution
set_option autoImplicit false

/-- `\w` -/
def isword (c : Char) : Bool := c.isAlphanum || c = '_'

/-- What the two branches of the pattern match: `$word` and `${name}`. -/
inductive VarReference where
  | word (name : List Char)
  | braced (name : List Char)
  deriving DecidableEq

namespace VarReference

def name : VarReference → List Char
  | word name => name
  | braced name => name

def text : VarReference → List Char
  | word name => '$' :: name
  | braced name => '$' :: '{' :: (name ++ ['}'])

end VarReference

/-- `\$(\w+)|\$\{([^\}]+)\}` at the start of a subject -/
def matchVar : List Char → Option VarReference
  | '$' :: '{' :: subject =>
    let name := subject.takeWhile (· ≠ '}')
    if name ≠ [] ∧ '}' ∈ subject then some (.braced name) else none
  | '$' :: subject =>
    let name := subject.takeWhile isword
    if name ≠ [] then some (.word name) else none
  | _ => none

theorem takeWhile_ne_append_isPrefix {c : Char} {s : List Char} (h : c ∈ s) :
    s.takeWhile (· ≠ c) ++ [c] <+: s := by
  induction s with
  | nil => cases h
  | cons a s ih =>
    by_cases ha : a = c
    · simp [ha]
    · have hs : c ∈ s := (List.mem_cons.mp h).resolve_left (Ne.symm ha)
      rw [List.takeWhile_cons_of_pos (by simpa using ha), List.cons_append]
      exact (List.prefix_cons_inj a).mpr (ih hs)

theorem text_of_matchVar {subject : List Char} {r : VarReference} (h : matchVar subject = some r) :
    r.text <+: subject := by
  unfold matchVar at h
  split at h
  · dsimp only at h
    split at h
    · next hname =>
      cases h
      exact (List.prefix_cons_inj _).mpr ((List.prefix_cons_inj _).mpr
        (takeWhile_ne_append_isPrefix hname.2))
    · cases h
  · dsimp only at h
    split at h
    · cases h
      exact (List.prefix_cons_inj _).mpr (List.takeWhile_prefix _)
    · cases h
  · cases h

def var_pattern : Pattern Char VarReference where
  find := matchVar
  text := VarReference.text
  text_ne_nil r := by cases r <;> exact List.cons_ne_nil _ _
  starts_with := text_of_matchVar

/-- What `pcre_exec` returns: `rc`, and the offsets that it fills in. -/
structure PcreMatch where
  rc : ℤ
  offsets : ℕ → ℤ

/-- The match of `r` at `i`. The group of the branch that did not match is unset. -/
structure PcreMatch.Describes (found : PcreMatch) (i : ℕ) (r : VarReference) : Prop where
  rc : 0 < found.rc
  start : found.offsets 0 = i
  stop : found.offsets 1 = i + r.text.length
  groups :
    match r with
    | .word name => found.offsets 2 = i + 1 ∧ found.offsets 3 = i + 1 + name.length
    | .braced name =>
      found.offsets 2 = -1 ∧ found.offsets 4 = i + 2 ∧ found.offsets 5 = i + 2 + name.length

/-- A matcher, which is given a subject and how many bytes of it to look at, finds the
leftmost match of `var_pattern`. It does not take a negative length. -/
structure FindsLeftmost (pcre_exec : List Char → ℤ → PcreMatch) : Prop where
  badlength : ∀ subject length, length < 0 → (pcre_exec subject length).rc < 0
  no_match : ∀ subject (length : ℕ), length ≤ subject.length →
    (∀ k, var_pattern.find ((subject.take length).drop k) = none) →
    (pcre_exec subject length).rc < 0
  found : ∀ subject (length : ℕ) i r, length ≤ subject.length →
    var_pattern.LeftmostAt (subject.take length) i r → (pcre_exec subject length).Describes i r

/-- `memcpy` to the buffer, of which `buffer` is what was written. The count is a `size_t`. -/
def memcpy (buffer : List Char) (dest_index : ℤ) (src : List Char) (n : ℤ) :
    Except Fault (List Char) :=
  let count := n % 2 ^ 64
  if dest_index + count ≤ 65536 ∧ count ≤ src.length then
    .ok (buffer.take dest_index.toNat ++ src.take count.toNat)
  else .error .undefined

section Loop
variable (pcre_exec : List Char → ℤ → PcreMatch) (expander : List Char → List Char)

/-- `std::string{buffer, dest_index}` after the loop -/
def expanded (buffer : List Char) (dest_index : ℤ) : List Char := buffer.take dest_index.toNat

/-- The loop, with what is written of `buffer`. -/
def expandLoop (p : List Char) (pLen dest_index source_index : ℤ) (buffer : List Char) :
    ℕ → Except Fault (List Char)
  | 0 => .error .unfinished
  | fuel + 1 =>
    let pLen := wrap 32 (pLen - source_index)
    if pLen = 0 then .ok (expanded buffer dest_index)
    else
      let p := p.drop source_index.toNat
      let found := pcre_exec p pLen
      let offsets := found.offsets
      if found.rc < 0 then
        -- the rest of the string
        if wrap 32 (dest_index + pLen) < 65536 then do
          let buffer ← memcpy buffer dest_index p pLen
          .ok (expanded buffer (wrap 32 (dest_index + pLen)))
        else .ok (expanded buffer dest_index)
      else if 65536 ≤ wrap 32 (dest_index + offsets 0) then .ok (expanded buffer dest_index)
      else do
        let buffer ← memcpy buffer dest_index p (offsets 0)
        let dest_index := wrap 32 (dest_index + offsets 0)
        let start_offset := if 0 < offsets 2 then 2 else 4
        let to_replace := (p.drop (offsets start_offset).toNat).take
          (offsets (start_offset + 1) - offsets start_offset).toNat
        let replaced := expander to_replace
        if 65536 ≤ dest_index + replaced.length then .ok (expanded buffer dest_index)
        else
          let buffer ← memcpy buffer dest_index replaced replaced.length
          expandLoop p pLen (dest_index + replaced.length) (offsets 1) buffer fuel

def ExpandVars (raw : List Char) (fuel : ℕ) : Except Fault (List Char) :=
  expandLoop pcre_exec expander raw (wrap 32 raw.length) 0 0 [] fuel

end Loop

/-! What the template says. -/

def replacement (expander : List Char → List Char) (r : VarReference) : List Char :=
  expander r.name

/-- The template with every reference replaced. -/
def expansion (expander : List Char → List Char) (template : List Char) : List Char :=
  var_pattern.substitute (replacement expander) template

def fitting (expander : List Char → List Char) (template : List Char) : List Char :=
  takeFitting 65536 ((var_pattern.parse template).pieces (replacement expander))

/-- Up to the end of the buffer, every text between two references ends at an index that is
an `int`. -/
def LiteralsFit (expander : List Char → List Char) : ℕ → Segments Char VarReference → Prop
  | dest_index, .last rest => dest_index + rest.length < 2 ^ 31
  | dest_index, .reference before r rest =>
    let start := dest_index + before.length
    let stop := start + (replacement expander r).length
    start < 2 ^ 31 ∧ (stop < 65536 → LiteralsFit expander stop rest)

instance (expander : List Char → List Char) :
    ∀ dest_index segments, Decidable (LiteralsFit expander dest_index segments)
  | dest_index, .last rest => inferInstanceAs (Decidable (dest_index + rest.length < 2 ^ 31))
  | dest_index, .reference before r rest =>
    have := instDecidableLiteralsFit expander
      (dest_index + before.length + (replacement expander r).length) rest
    inferInstanceAs (Decidable (_ ∧ (_ → _)))

/-- The result is the expansion, or what comes before the end of the buffer. -/
def IsExpansion (expander : List Char → List Char) (template result : List Char) : Prop :=
  ((expansion expander template).length < 65536 → result = expansion expander template) ∧
    (65536 ≤ (expansion expander template).length →
      result <+: expansion expander template ∧ result.length < 65536)

theorem isExpansion_fitting (expander : List Char → List Char) (template : List Char) :
    IsExpansion expander template (fitting expander template) := by
  unfold IsExpansion fitting expansion
  rw [← Pattern.flatten_pieces_parse]
  refine ⟨takeFitting_of_length_lt, fun _ => ⟨takeFitting_isPrefix _ _, ?_⟩⟩
  exact length_takeFitting_lt (by omega) _

/-! The machine's operations. -/

theorem memcpy_eq_ok {buffer src : List Char} {n : ℕ} (hroom : buffer.length + n ≤ 65536)
    (hsrc : n ≤ src.length) :
    memcpy buffer buffer.length src n = .ok (buffer ++ src.take n) := by
  have hcount : (n : ℤ) % 2 ^ 64 = n := by omega
  unfold memcpy
  dsimp only
  rw [hcount, if_pos (by omega), Int.toNat_natCast, Int.toNat_natCast, List.take_length]

theorem memcpy_eq_undefined {buffer src : List Char} {dest_index n : ℤ} (hdest : 0 ≤ dest_index)
    (hn : -2 ^ 31 ≤ n) (h : n < 0 ∨ 65536 < dest_index + n ∧ n < 2 ^ 31) :
    memcpy buffer dest_index src n = .error .undefined := by
  unfold memcpy
  dsimp only
  rw [if_neg (by omega)]

theorem expanded_length (buffer : List Char) : expanded buffer buffer.length = buffer := by
  rw [expanded, Int.toNat_natCast, List.take_length]

theorem wrap_left {n : ℕ} (h : n < 2 ^ 31) : wrap 32 ((n : ℤ) - 0) = n := by
  rw [Int.sub_zero]
  exact wrap_eq_self (by omega) (by omega)

section Rounds
variable {pcre_exec : List Char → ℤ → PcreMatch} (hpcre : FindsLeftmost pcre_exec)
  (expander : List Char → List Char)

def outcome (buffer : List Char) (segments : Segments Char VarReference) :
    Except Fault (List Char) :=
  if LiteralsFit expander buffer.length segments then
    .ok (buffer ++ takeFitting (65536 - buffer.length) (segments.pieces (replacement expander)))
  else .error .undefined

theorem expandLoop_shift (pcre_exec : List Char → ℤ → PcreMatch) {p : List Char} {n j : ℕ}
    (hj : j ≤ n) (hint : n < 2 ^ 31) (dest_index : ℤ) (buffer : List Char) (fuel : ℕ) :
    expandLoop pcre_exec expander p n dest_index j buffer (fuel + 1) =
      expandLoop pcre_exec expander (p.drop j) (n - j : ℕ) dest_index 0 buffer (fuel + 1) := by
  have hleft : wrap 32 ((n : ℤ) - j) = (n - j : ℕ) := by
    rw [wrap_eq_self (by omega) (by omega)]
    omega
  have hleft' : wrap 32 (((n - j : ℕ) : ℤ) - 0) = (n - j : ℕ) := wrap_left (by omega)
  simp only [expandLoop, hleft, hleft', Int.toNat_natCast, Int.toNat_zero, List.drop_zero]

include hpcre in
theorem expandLoop_last {p : List Char} {n : ℕ} {buffer : List Char} (hn : n ≤ p.length)
    (hint : n < 2 ^ 31) (hbuffer : buffer.length < 65536)
    (hsearch : var_pattern.search (p.take n) = none) (fuel : ℕ) :
    expandLoop pcre_exec expander p n buffer.length 0 buffer (fuel + 1) =
      outcome expander buffer (.last (p.take n)) := by
  have hleft := wrap_left hint
  have hrc : (pcre_exec p n).rc < 0 :=
    hpcre.no_match p n hn fun k => Pattern.find_drop_of_search_eq_none hsearch k
  have hlength : (p.take n).length = n := by
    rw [List.length_take]
    omega
  simp only [expandLoop, hleft, Int.toNat_zero, List.drop_zero, if_pos hrc, outcome, LiteralsFit,
    Segments.pieces, takeFitting, hlength, List.append_nil]
  by_cases hzero : n = 0
  · subst hzero
    simp [expanded_length]
    omega
  rw [if_neg (by omega)]
  by_cases hoverflow : buffer.length + n < 2 ^ 31
  · rw [if_pos hoverflow, wrap_eq_self (by omega) (by omega)]
    by_cases hroom : buffer.length + n < 65536
    · rw [if_pos (by omega), if_pos (by omega), memcpy_eq_ok (by omega) hn]
      have hwritten := expanded_length (buffer ++ p.take n)
      rw [List.length_append, hlength, Int.natCast_add] at hwritten
      exact congrArg Except.ok hwritten
    · rw [if_neg (by omega), if_neg (by omega), expanded_length, List.append_nil]
  · rw [if_neg hoverflow, wrap_of_overflow (by omega) (by omega), if_pos (by omega),
      memcpy_eq_undefined (by omega) (by omega) (by omega)]
    rfl

theorem take_length_of_take_eq {p before rest : List Char} {n : ℕ}
    (h : p.take n = before ++ rest) : p.take before.length = before := by
  have hbefore : before <+: p :=
    (List.prefix_append before rest).trans (h ▸ List.take_prefix n p)
  exact (List.prefix_iff_eq_take.mp hbefore).symm

theorem to_replace_eq {found : PcreMatch} {before after p : List Char} {r : VarReference} {n : ℕ}
    (hfound : found.Describes before.length r) (hsplit : p.take n = before ++ r.text ++ after) :
    let start_offset := if 0 < found.offsets 2 then 2 else 4
    (p.drop (found.offsets start_offset).toNat).take
      (found.offsets (start_offset + 1) - found.offsets start_offset).toNat = r.name := by
  -- both groups start behind an opening and are followed by something
  have hgroup : ∀ (opening rest : List Char) (start stop : ℤ),
      p = before ++ opening ++ (r.name ++ rest) → start = (before ++ opening).length →
      stop = start + r.name.length → (p.drop start.toNat).take (stop - start).toNat = r.name := by
    intro opening rest start stop hp hstart hstop
    have hcount : stop - start = r.name.length := by omega
    rw [hcount, hstart, Int.toNat_natCast, Int.toNat_natCast, hp, List.drop_left, List.take_left]
  have hp : p = before ++ (r.text ++ (after ++ p.drop n)) := by
    conv_lhs => rw [← List.take_append_drop n p, hsplit]
    simp only [List.append_assoc]
  have hgroups := hfound.groups
  cases r with
  | word name =>
    obtain ⟨hstart, hstop⟩ := hgroups
    dsimp only
    rw [if_pos (by omega)]
    refine hgroup ['$'] (after ++ p.drop n) _ _ ?_ ?_ ?_
    · rw [List.append_assoc]
      exact hp
    · simp [hstart]
    · rw [hstart, hstop]
      rfl
  | braced name =>
    obtain ⟨hunset, hstart, hstop⟩ := hgroups
    dsimp only
    rw [if_neg (by omega)]
    refine hgroup ['$', '{'] ('}' :: (after ++ p.drop n)) _ _ ?_ ?_ ?_
    · conv_lhs => rw [hp]
      simp [VarReference.text, VarReference.name]
    · simp [hstart]
    · rw [hstart, hstop]
      rfl

include hpcre in
/-- A match is replaced if there is room. -/
theorem expandLoop_reference {p before after : List Char} {r : VarReference} {n : ℕ}
    {buffer : List Char} (hn : n ≤ p.length) (hint : n < 2 ^ 31) (hbuffer : buffer.length < 65536)
    (hsearch : var_pattern.search (p.take n) = some (before, r, after)) (fuel : ℕ) :
    expandLoop pcre_exec expander p n buffer.length 0 buffer (fuel + 1) =
      let written := buffer ++ before ++ replacement expander r
      if 2 ^ 31 ≤ buffer.length + before.length then .error .undefined
      else if 65536 ≤ buffer.length + before.length then .ok buffer
      else if 65536 ≤ written.length then .ok (buffer ++ before)
      else expandLoop pcre_exec expander p n written.length (before.length + r.text.length : ℕ)
        written fuel := by
  obtain ⟨hleftmost, hsplit⟩ := Pattern.leftmostAt_of_search hsearch
  have hfound := hpcre.found p n before.length r hn hleftmost
  have hbefore : p.take before.length = before :=
    take_length_of_take_eq (hsplit.trans (List.append_assoc _ _ _))
  have hleft := wrap_left hint
  have hpos : 0 < r.text.length := var_pattern.text_length_pos r
  have hlength : min n p.length = before.length + r.text.length + after.length := by
    rw [← List.length_take, hsplit, List.length_append, List.length_append]
    rfl
  have hfilled : n ≠ 0 := by omega
  have hreplace := to_replace_eq hfound hsplit
  have hrc : ¬ (pcre_exec p n).rc < 0 := by
    have := hfound.rc
    omega
  have hexpand : expander r.name = replacement expander r := rfl
  dsimp only at hreplace
  simp only [expandLoop, hleft, Int.toNat_zero, List.drop_zero, Int.natCast_eq_zero, hfilled,
    if_false, hrc, hfound.start, hfound.stop, hreplace, hexpand]
  change _ = if 2 ^ 31 ≤ _ then _ else _
  by_cases hoverflow : 2 ^ 31 ≤ buffer.length + before.length
  · rw [if_pos hoverflow, wrap_of_overflow (by omega) (by omega), if_neg (by omega),
      memcpy_eq_undefined (by omega) (by omega) (by omega)]
    rfl
  rw [if_neg hoverflow, wrap_eq_self (by omega) (by omega)]
  by_cases hroom : 65536 ≤ buffer.length + before.length
  · rw [if_pos hroom, if_pos (by omega), expanded_length]
  rw [if_neg hroom, if_neg (by omega), memcpy_eq_ok (by omega) (by omega), hbefore]
  have hstart : (buffer.length : ℤ) + before.length = (buffer ++ before).length := by
    rw [List.length_append, Int.natCast_add]
  have hstop : ((buffer ++ before).length : ℤ) + (replacement expander r).length =
      (buffer ++ before ++ replacement expander r).length := by
    rw [@List.length_append _ (buffer ++ before), Int.natCast_add]
  change (if 65536 ≤ _ + ((replacement expander r).length : ℤ) then _ else _) = _
  rw [hstart, hstop]
  by_cases hfits : 65536 ≤ (buffer ++ before ++ replacement expander r).length
  · rw [if_pos hfits, if_pos (by omega), expanded_length]
  · have hroom' : (buffer ++ before).length + (replacement expander r).length ≤ 65536 := by
      rw [← List.length_append]
      omega
    rw [if_neg hfits, if_neg (by omega), memcpy_eq_ok hroom' le_rfl, List.take_length,
      Int.natCast_add]
    rfl

/-- A segment with its replacement is written, or the loop ends in front of it. -/
theorem outcome_reference {before : List Char} {r : VarReference}
    {rest : Segments Char VarReference} {buffer : List Char} (hbuffer : buffer.length < 65536) :
    outcome expander buffer (.reference before r rest) =
      let written := buffer ++ before ++ replacement expander r
      if 2 ^ 31 ≤ buffer.length + before.length then .error .undefined
      else if 65536 ≤ buffer.length + before.length then .ok buffer
      else if 65536 ≤ written.length then .ok (buffer ++ before)
      else outcome expander written rest := by
  have hwritten : (buffer ++ before ++ replacement expander r).length =
      buffer.length + before.length + (replacement expander r).length := by
    rw [List.length_append, List.length_append]
  simp only [outcome, LiteralsFit, Segments.pieces, takeFitting, hwritten]
  by_cases hoverflow : 2 ^ 31 ≤ buffer.length + before.length
  · rw [if_pos hoverflow, if_neg fun h => absurd h.1 (by omega)]
  rw [if_neg hoverflow]
  by_cases hroom : 65536 ≤ buffer.length + before.length
  · have hfit : ¬ before.length < 65536 - buffer.length := by omega
    rw [if_pos hroom, if_pos ⟨by omega, fun h => by omega⟩, if_neg hfit, List.append_nil]
  rw [if_neg hroom]
  have hfit : before.length < 65536 - buffer.length := by omega
  rw [if_pos hfit]
  by_cases hfits : 65536 ≤ buffer.length + before.length + (replacement expander r).length
  · have hfit' : ¬ (replacement expander r).length < 65536 - buffer.length - before.length := by
      omega
    rw [if_pos hfits, if_pos ⟨by omega, fun h => by omega⟩, if_neg hfit', List.append_nil]
  · have hfit' : (replacement expander r).length < 65536 - buffer.length - before.length := by
      omega
    have hrest : (buffer.length + before.length < 2 ^ 31 ∧
        (buffer.length + before.length + (replacement expander r).length < 65536 →
          LiteralsFit expander (buffer.length + before.length + (replacement expander r).length)
            rest)) ↔
        LiteralsFit expander (buffer.length + before.length + (replacement expander r).length)
          rest :=
      ⟨fun h => h.2 (by omega), fun h => ⟨by omega, fun _ => h⟩⟩
    simp only [if_neg hfits, hrest, if_pos hfit']
    simp only [Nat.sub_sub, List.append_assoc]

include hpcre in
theorem expandLoop_eq {p : List Char} {n j : ℕ} {buffer : List Char} {fuel : ℕ} (hj : j ≤ n)
    (hn : n ≤ p.length) (hint : n < 2 ^ 31) (hbuffer : buffer.length < 65536)
    (hfuel : n - j < fuel) :
    expandLoop pcre_exec expander p n buffer.length j buffer fuel =
      outcome expander buffer (var_pattern.parse ((p.take n).drop j)) := by
  induction fuel generalizing p n j buffer with
  | zero => omega
  | succ fuel ih =>
    have hlength : n - j ≤ (p.drop j).length := by
      rw [List.length_drop]
      omega
    rw [expandLoop_shift expander pcre_exec hj hint, List.drop_take]
    cases hsearch : var_pattern.search ((p.drop j).take (n - j)) with
    | none =>
      rw [Pattern.parse_of_none hsearch]
      exact expandLoop_last hpcre expander hlength (by omega) hbuffer hsearch fuel
    | some found =>
      obtain ⟨before, r, after⟩ := found
      have hsplit := (Pattern.leftmostAt_of_search hsearch).2
      have hpos : 0 < r.text.length := var_pattern.text_length_pos r
      have htotal : n - j = before.length + r.text.length + after.length := by
        have := congrArg List.length hsplit
        rwa [List.length_take, min_eq_left hlength, List.length_append, List.length_append] at this
      have hafter : ((p.drop j).take (n - j)).drop (before.length + r.text.length) = after := by
        rw [hsplit, ← List.length_append]
        exact List.drop_left
      rw [Pattern.parse_of_some hsearch, outcome_reference expander hbuffer,
        expandLoop_reference hpcre expander hlength (by omega) hbuffer hsearch fuel]
      dsimp only
      split_ifs with hoverflow hroom hfits
      · rfl
      · rfl
      · rfl
      · rw [ih (by omega) hlength (by omega) (by omega) (by omega), hafter]

include hpcre in
/-- A negative length is not matched; the number of bytes left to copy is then huge. -/
theorem expandLoop_of_negative {p : List Char} {pLen : ℤ} (hnegative : pLen < 0)
    (hint : -2 ^ 31 ≤ pLen) (fuel : ℕ) :
    expandLoop pcre_exec expander p pLen 0 0 [] (fuel + 1) = .error .undefined := by
  have hleft : wrap 32 (pLen - 0) = pLen := by
    rw [Int.sub_zero]
    exact wrap_eq_self hint (by omega)
  have hsum : wrap 32 (0 + pLen) = pLen := by
    rw [Int.zero_add]
    exact wrap_eq_self hint (by omega)
  have hrc : (pcre_exec p pLen).rc < 0 := hpcre.badlength p pLen hnegative
  simp only [expandLoop, hleft, Int.toNat_zero, List.drop_zero, hrc, if_true, hsum]
  rw [if_neg (by omega), if_pos (by omega), memcpy_eq_undefined (Int.le_refl 0) hint
    (.inl hnegative)]
  rfl

/-- The first bytes of the template, as many as its length is when it is made an `int`. -/
def counted (template : List Char) : List Char := template.take (wrap 32 template.length).toNat

theorem counted_eq_self {template : List Char} (h : template.length < 2 ^ 31) :
    counted template = template := by
  rw [counted, wrap_eq_self (by omega) (by omega), Int.toNat_natCast, List.take_length]

include hpcre in
theorem ExpandVars_eq (raw : List Char) {fuel : ℕ} (hfuel : raw.length < fuel) :
    ExpandVars pcre_exec expander raw fuel =
      if 0 ≤ wrap 32 raw.length ∧ LiteralsFit expander 0 (var_pattern.parse (counted raw)) then
        .ok (fitting expander (counted raw))
      else .error .undefined := by
  obtain ⟨hlow, hhigh, hle⟩ := @wrap_range raw.length (by omega)
  unfold ExpandVars
  by_cases hnegative : wrap 32 raw.length < 0
  · obtain ⟨fuel, rfl⟩ := Nat.exists_eq_add_of_lt hfuel
    rw [if_neg fun h => absurd h.1 (by omega)]
    exact expandLoop_of_negative hpcre expander hnegative hlow _
  · obtain ⟨n, hn⟩ := Int.eq_ofNat_of_zero_le (Int.not_lt.mp hnegative)
    have hread : counted raw = raw.take n := by rw [counted, hn, Int.toNat_natCast]
    have hloop := @expandLoop_eq _ hpcre expander raw n 0 [] fuel (Nat.zero_le n) (by omega)
      (by omega) (by decide) (by omega)
    rw [List.drop_zero] at hloop
    rw [hn, hread]
    refine hloop.trans (if_congr ?_ rfl rfl)
    exact (and_iff_right (Int.natCast_nonneg n)).symm

end Rounds

section Contract
variable (expander : List Char → List Char) (template : List Char)

/-- The length of the template is an `int`, and so are the indices at which its literals end.
Of a template that is too long for that the first bytes are read, which may by chance expand
in the same way. -/
def LengthsAreInts : Prop :=
  0 ≤ wrap 32 template.length ∧ LiteralsFit expander 0 (var_pattern.parse (counted template)) ∧
    (2 ^ 31 ≤ template.length →
      IsExpansion expander template (fitting expander (counted template)))

/-- `ExpandVars` ends, and its result is the expansion as far as it fits. -/
def Expands (pcre_exec : List Char → ℤ → PcreMatch) : Prop :=
  ∃ result, (∀ fuel, template.length < fuel →
      ExpandVars pcre_exec expander template fuel = .ok result) ∧
    IsExpansion expander template result

variable {expander template}

theorem expands_iff {pcre_exec : List Char → ℤ → PcreMatch} (hpcre : FindsLeftmost pcre_exec) :
    Expands expander template pcre_exec ↔ LengthsAreInts expander template := by
  unfold Expands LengthsAreInts
  constructor
  · intro h
    rcases h with ⟨result, hresult, hexpansion⟩
    have hone := hresult (template.length + 1) (Nat.lt_succ_self _)
    rw [ExpandVars_eq hpcre expander template (Nat.lt_succ_self _)] at hone
    split at hone
    · next hread =>
      cases hone
      exact ⟨hread.1, hread.2, fun _ => hexpansion⟩
    · cases hone
  · intro h
    rcases h with ⟨hcounted, hliterals, hlong⟩
    refine ⟨fitting expander (counted template), fun fuel hfuel => ?_, ?_⟩
    · rw [ExpandVars_eq hpcre expander template hfuel, if_pos ⟨hcounted, hliterals⟩]
    · by_cases hshort : template.length < 2 ^ 31
      · rw [counted_eq_self hshort]
        exact isExpansion_fitting expander template
      · exact hlong (by omega)

end Contract

/-! Templates of up to 2147418112 bytes. -/

theorem literalsFit_of_short (expander : List Char → List Char) {template : List Char}
    (hshort : template.length + 65536 ≤ 2 ^ 31) {dest_index : ℕ} (hdest : dest_index < 65536) :
    LiteralsFit expander dest_index (var_pattern.parse template) := by
  induction template using Pattern.parse.induct (P := var_pattern) generalizing dest_index with
  | case1 template h =>
    rw [Pattern.parse_of_none h]
    unfold LiteralsFit
    omega
  | case2 template before r after h hafter ih =>
    have hbefore : before.length ≤ template.length := by
      rw [(Pattern.leftmostAt_of_search h).2, List.append_assoc, List.length_append]
      omega
    rw [Pattern.parse_of_some h]
    exact ⟨by omega, fun hstop => ih (by omega) hstop⟩

theorem lengthsAreInts_of_short (expander : List Char → List Char) {template : List Char}
    (hshort : template.length + 65536 ≤ 2 ^ 31) : LengthsAreInts expander template := by
  have hint : template.length < 2 ^ 31 := by omega
  refine ⟨?_, ?_, fun h => absurd hint (by omega)⟩
  · rw [wrap_eq_self (by omega) (by omega)]
    omega
  · rw [counted_eq_self hint]
    exact literalsFit_of_short expander hshort (by omega)

/-- A matcher that searches from the left. -/
def leftmost_exec (subject : List Char) (length : ℤ) : PcreMatch :=
  if length < 0 then ⟨-32, fun _ => -1⟩
  else
    match var_pattern.search (subject.take length.toNat) with
    | none => ⟨-1, fun _ => -1⟩
    | some (before, .word name, _) =>
      let i : ℤ := before.length
      ⟨2, fun k => [i, i + 1 + name.length, i + 1, i + 1 + name.length].getD k (-1)⟩
    | some (before, .braced name, _) =>
      let i : ℤ := before.length
      ⟨3, fun k => [i, i + 3 + name.length, -1, -1, i + 2, i + 2 + name.length].getD k (-1)⟩

theorem leftmost_exec_describes {subject before after : List Char} {r : VarReference} {length : ℕ}
    (h : var_pattern.search (subject.take length) = some (before, r, after)) :
    (leftmost_exec subject length).Describes before.length r := by
  have hlength : ¬ (length : ℤ) < 0 := by omega
  unfold leftmost_exec
  rw [if_neg hlength, Int.toNat_natCast, h]
  cases r with
  | word name => constructor <;> simp [VarReference.text]; omega
  | braced name => constructor <;> simp [VarReference.text]; omega

theorem leftmost_exec_finds : FindsLeftmost leftmost_exec where
  badlength subject length h := by
    rw [leftmost_exec, if_pos h]
    decide
  no_match subject length _ h := by
    have hlength : ¬ (length : ℤ) < 0 := by omega
    rw [leftmost_exec, if_neg hlength, Int.toNat_natCast]
    cases hsearch : var_pattern.search (subject.take length) with
    | none => decide
    | some found =>
      have hfind := (Pattern.leftmostAt_of_search hsearch).1.1
      rw [h] at hfind
      cases hfind
  found subject length i r _ h := by
    obtain ⟨before, after, hsearch, rfl⟩ := Pattern.search_of_leftmostAt h
    exact leftmost_exec_describes hsearch

theorem expands_inPlace :
    Expands (fun name => if name = "bar".toList then "BAR".toList else "XBAZ".toList)
      "foo $bar ${baz}".toList leftmost_exec :=
  (expands_iff leftmost_exec_finds).mpr (lengthsAreInts_of_short _ (by decide))

/-- The length of a template of 2 GiB is negative as an `int`. -/
theorem template_too_long :
    ¬ Expands (fun _ => ['x']) (List.replicate (2 ^ 31) 'a') leftmost_exec := by
  intro hgiven
  rcases hgiven with ⟨result, hresult, _⟩
  have hone := hresult _ (Nat.lt_succ_self _)
  have hnegative : ¬ 0 ≤ wrap 32 (2 ^ 31 : ℕ) := by decide
  rw [ExpandVars_eq leftmost_exec_finds _ _ (Nat.lt_succ_self _), List.length_replicate,
    if_neg fun h => hnegative h.1] at hone
  cases hone

end AtlasNative
