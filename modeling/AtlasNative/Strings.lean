import Mathlib.Data.List.TakeWhile
import Mathlib.Data.String.Basic

/-!
# C strings and interned references

A byte of a C string is a character, so that every `std::string` is a `String`
and comparing unsigned bytes is comparing characters. A `StrRef` points to an
interned, NUL-terminated copy: two references are equal exactly when the strings
are, and the string holds no NUL. A null reference is `none` of `Option StrRef`.
-/

namespace AtlasNative

set_option autoImplicit false

def nul : Char := '\x00'

/-- The white space of the C locale. -/
def isspace (c : Char) : Bool :=
  c = ' ' || c = '\t' || c = '\n' || c = '\x0b' || c = '\x0c' || c = '\r'

/-- What a reader of `s.c_str()` sees: everything before the first NUL. -/
def c_str (s : String) : String := String.ofList (s.toList.takeWhile (· ≠ nul))

structure StrRef where
  str : String
  nul_free : nul ∉ str.toList
  deriving DecidableEq

namespace StrRef

theorem ext {a b : StrRef} (h : a.str = b.str) : a = b := by
  cases a
  cases b
  simp_all

theorem eq_iff_toList {a b : StrRef} : a = b ↔ a.str.toList = b.str.toList :=
  ⟨fun h => h ▸ rfl, fun h => ext (String.toList_inj.mp h)⟩

/-- `strcmp(a, b) < 0` -/
instance : LT StrRef := ⟨fun a b => a.str < b.str⟩

instance (a b : StrRef) : Decidable (a < b) := inferInstanceAs (Decidable (a.str < b.str))

/-- `strcmp(a, b) <= 0` -/
instance : LE StrRef := ⟨fun a b => ¬ b < a⟩

instance (a b : StrRef) : Decidable (a ≤ b) := inferInstanceAs (Decidable (¬ b < a))

end StrRef

theorem nul_notMem_c_str (s : String) : nul ∉ (c_str s).toList := by
  intro h
  have hm := List.mem_takeWhile_imp (String.toList_ofList ▸ h)
  simp at hm

def intern_str (s : String) : StrRef := ⟨c_str s, nul_notMem_c_str s⟩

theorem c_str_eq_self {s : String} (h : nul ∉ s.toList) : c_str s = s := by
  have hall : s.toList.takeWhile (· ≠ nul) = s.toList := by
    apply List.takeWhile_eq_self_iff.mpr
    intro c hc
    have hne : c ≠ nul := fun he => h (he ▸ hc)
    simp [hne]
  rw [c_str, hall, String.ofList_toList]

@[simp] theorem intern_str_str (r : StrRef) : intern_str r.str = r :=
  StrRef.ext (c_str_eq_self r.nul_free)

def StrRef.length (r : StrRef) : ℕ := r.str.length

/-- `strncmp` over the length of the second string -/
def StartsWith (r : StrRef) (start : String) : Bool := start.toList.isPrefixOf r.str.toList

def kFastestFrequencyMillis : ℤ := 5000

def kMainFrequencyMillis : ℤ := 60000

/-- How many rounds of the fastest frequency go by before metrics are sent to main. -/
def kMainMultiple : ℤ := kMainFrequencyMillis.tdiv kFastestFrequencyMillis

/-- Whole seconds with two digits at least. -/
def secs_for_millis (millis : ℤ) : String :=
  let secs := toString (millis.tdiv 1000)
  (if secs.length < 2 then "0" ++ secs else secs) ++ "s"

end AtlasNative
