import AtlasNative.Lib.Numerals
import AtlasNative.Lib.StepFunctions
import AtlasNative.Machine

/-!
# Bucket functions

A bucket function maps an amount to the label of the first of a few buckets that it fits
into. The bounds are fractions of a maximum, and a formatter that is chosen by the maximum
makes the labels: a number of units with leading zeros, and the unit.
-/

namespace AtlasNative

open Numerals
set_option autoImplicit false

namespace bucket_functions

structure Bucket where
  name_ : String
  upper_boundary_ : ℤ
  deriving DecidableEq

structure BucketsFunction where
  buckets_ : List Bucket
  fallback_ : String
  deriving DecidableEq

/-- `operator()` -/
def BucketsFunction.call (f : BucketsFunction) (amount : ℤ) : String :=
  match f.buckets_.find? fun b => amount ≤ b.upper_boundary_ with
  | some b => b.name_
  | none => f.fallback_

structure ValueFormatter where
  max_ : ℤ
  width_ : ℕ
  suffix_ : String
  factor_ : ℤ
  /-- Whether the shifts and products that made it stayed in their types; the source does
  not know. -/
  inRange : Bool
  deriving DecidableEq

abbrev ValueFormatters := List ValueFormatter

/-- `"{:<0{}}"`; the zero asks for leading zeros behind the sign. -/
def zeroFilled (width : ℕ) (unit : ℤ) : List Char :=
  if unit < 0 then '-' :: numeral Nat.digitChar 10 (width - 1) unit.natAbs
  else numeral Nat.digitChar 10 width unit.natAbs

namespace ValueFormatter

def GetLabel (vf : ValueFormatter) (v : ℤ) : Except Fault String := do
  let unit ← quotient v vf.factor_
  .ok (String.ofList (zeroFilled vf.width_ unit) ++ vf.suffix_)

def NewBucket (vf : ValueFormatter) (v : ℤ) : Except Fault Bucket := do
  let label ← vf.GetLabel v
  .ok ⟨label, v⟩

end ValueFormatter

/-! Formatters for times. -/

def NANOS : ℤ := 1
def MICROS : ℤ := 1000
def MILLIS : ℤ := 1000 * MICROS
def SECS : ℤ := 1000 * MILLIS
def MINS : ℤ := 60 * SECS
def HOURS : ℤ := 60 * MINS

/-- `fmt(duration, width, suffix, nanos_factor)` for a count of a unit of time. -/
def fmt (count unit : ℤ) (width : ℕ) (suffix : String) (nanos_factor : ℤ) : ValueFormatter where
  max_ := wrap 64 (count * unit)
  width_ := width
  suffix_ := suffix
  factor_ := nanos_factor
  inRange := IsInt64 (count * unit)

/-- The maximum of the last one is more nanoseconds than fit; it comes out negative. -/
def GetTimeFormatters : ValueFormatters :=
  [fmt 10 NANOS 1 "ns" NANOS,
    fmt 100 NANOS 2 "ns" NANOS,
    fmt 1 MICROS 3 "ns" NANOS,
    fmt 8 MICROS 4 "ns" NANOS,
    fmt 10 MICROS 1 "us" MICROS,
    fmt 100 MICROS 2 "us" MICROS,
    fmt 1 MILLIS 3 "us" MICROS,
    fmt 8 MILLIS 4 "us" MICROS,
    fmt 10 MILLIS 1 "ms" MILLIS,
    fmt 100 MILLIS 2 "ms" MILLIS,
    fmt 1 SECS 3 "ms" MILLIS,
    fmt 8 SECS 4 "ms" MILLIS,
    fmt 10 SECS 1 "s" SECS,
    fmt 100 SECS 2 "s" SECS,
    fmt 8 MINS 3 "s" SECS,
    fmt 10 MINS 1 "min" MINS,
    fmt 100 MINS 2 "min" MINS,
    fmt 8 HOURS 3 "min" MINS,
    fmt 10 HOURS 1 "h" HOURS,
    fmt 100 HOURS 2 "h" HOURS,
    fmt (24 * 8) HOURS 3 "h" HOURS,
    fmt int64_max HOURS 6 "h" HOURS]

/-! Formatters for sizes. -/

section Binary
/-! `undefined` is what a shift of an `int` out of its 31 bits gives on the machine at hand. -/
variable (undefined : ℕ → ℤ)

/-- `1 << shift` in an `int` -/
def shiftOne (shift : ℕ) : ℤ := if shift < 31 then 2 ^ shift else undefined shift

/-- The shift of the maximum is one of an `int64_t`, that of the factor one of an `int`. -/
def bin (max : ℤ) (pow width : ℕ) (suffix : String) : ValueFormatter :=
  let shift := pow * 10
  let maxBytes := if shift = 0 then max else wrap 64 (max <<< shift)
  { max_ := maxBytes
    width_ := width
    suffix_ := suffix
    factor_ := shiftOne undefined shift
    inRange := IsInt64 (max * 2 ^ shift) ∧ shift < 31 }

def binaryUnits : List String := ["_B", "_KiB", "_MiB", "_GiB", "_TiB", "_PiB"]

def initBinaryFormatters : ValueFormatters :=
  (binaryUnits.zipIdx.flatMap fun (unit, i) =>
    [bin undefined 10 i 1 unit, bin undefined 100 i 2 unit, bin undefined 1000 i 3 unit,
      bin undefined 10000 i 4 unit]) ++
    [⟨int64_max, 4, "_PiB", 2 ^ 50, true⟩]

end Binary

def pow10 (a : ℤ) (b : ℕ) : ℤ := (List.range b).foldl (fun res _ => wrap 64 (res * 10)) a

def dec (max : ℤ) (pow width : ℕ) (suffix : String) : ValueFormatter :=
  let factor := pow10 1 pow
  { max_ := wrap 64 (max * factor)
    width_ := width
    suffix_ := suffix
    factor_ := factor
    inRange := IsInt64 (max * 10 ^ pow) }

def decimalUnits : List String := ["", "_k", "_M", "_G", "_T", "_P"]

def initDecimalFormatters : ValueFormatters :=
  (decimalUnits.zipIdx.flatMap fun (unit, i) =>
    let pow := i * 3
    [dec 10 pow 1 unit, dec 100 pow 2 unit, dec 1000 pow 3 unit]) ++
    [⟨int64_max, 1, "_E", pow10 1 18, true⟩]

/-! The functions. -/

/-- The first formatter for more than the maximum, else the last one. -/
def GetFormatter (vfs : ValueFormatters) (max : ℤ) : Except Fault ValueFormatter :=
  match vfs.find? fun vf => max < vf.max_ with
  | some vf => .ok vf
  | none =>
    match vfs.getLast? with
    | some vf => .ok vf
    | none => .error .undefined

/-- The buckets of the bounds, behind the one for what is below zero. -/
def bias (ltZero gtMax : String) (bounds : List ℤ) (vf : ValueFormatter) :
    Except Fault BucketsFunction := do
  let buckets ← bounds.mapM vf.NewBucket
  .ok ⟨⟨ltZero, -1⟩ :: buckets, gtMax⟩

def zeroBounds (max : ℤ) : List ℤ := [max.tdiv 8, max.tdiv 4, max.tdiv 2, max]

def maxBounds (max : ℤ) : List ℤ :=
  [max - max.tdiv 2, max - max.tdiv 4, max - max.tdiv 8, max]

def BiasZero (ltZero gtMax : String) (max : ℤ) (vf : ValueFormatter) :
    Except Fault BucketsFunction :=
  bias ltZero gtMax (zeroBounds max) vf

def BiasMax (ltZero gtMax : String) (max : ℤ) (vf : ValueFormatter) :
    Except Fault BucketsFunction :=
  bias ltZero gtMax (maxBounds max) vf

def TimeBiasZero (ltZero gtMax : String) (nanos : ℤ) : Except Fault BucketsFunction := do
  let f ← GetFormatter GetTimeFormatters nanos
  BiasZero ltZero gtMax nanos f

def TimeBiasMax (ltZero gtMax : String) (nanos : ℤ) : Except Fault BucketsFunction := do
  let f ← GetFormatter GetTimeFormatters nanos
  BiasMax ltZero gtMax nanos f

def Age : ℤ → Except Fault BucketsFunction := TimeBiasZero "future" "old"

def AgeBiasOld : ℤ → Except Fault BucketsFunction := TimeBiasMax "future" "old"

def Latency : ℤ → Except Fault BucketsFunction := TimeBiasZero "negative_latency" "slow"

def LatencyBiasSlow : ℤ → Except Fault BucketsFunction := TimeBiasMax "negative_latency" "slow"

def Bytes (undefined : ℕ → ℤ) (max : ℤ) : Except Fault BucketsFunction := do
  let f ← GetFormatter (initBinaryFormatters undefined) max
  BiasZero "negative" "large" max f

def Decimal (max : ℤ) : Except Fault BucketsFunction := do
  let f ← GetFormatter initDecimalFormatters max
  BiasZero "negative" "large" max f

/-! Labels. -/

theorem digitChar_ascends : StrictMonoOn Nat.digitChar (Set.Iio 10) := by
  have htable : ∀ d < 10, ∀ e < 10, d < e → Nat.digitChar d < Nat.digitChar e := by decide
  exact fun d hd e he => htable d hd e he

namespace ValueFormatter

def label (vf : ValueFormatter) (v : ℤ) : String :=
  String.ofList (zeroFilled vf.width_ (v.tdiv vf.factor_)) ++ vf.suffix_

theorem GetLabel_eq {vf : ValueFormatter} (h : vf.factor_ ≠ 0) (v : ℤ) :
    vf.GetLabel v = .ok (vf.label v) := by
  unfold GetLabel quotient
  rw [if_neg h]
  rfl

theorem mapM_NewBucket {vf : ValueFormatter} (h : vf.factor_ ≠ 0) (bounds : List ℤ) :
    bounds.mapM vf.NewBucket = .ok (bounds.map fun c => ⟨vf.label c, c⟩) := by
  induction bounds with
  | nil => rfl
  | cons c bounds ih =>
    rw [List.mapM_cons, ih, NewBucket, GetLabel_eq h]
    rfl

variable {vf : ValueFormatter} {v w : ℤ}

theorem label_eq (hfactor : 0 < vf.factor_) (hv : 0 ≤ v) :
    vf.label v = String.ofList (numeral Nat.digitChar 10 vf.width_ (v / vf.factor_).natAbs) ++
      vf.suffix_ := by
  have hunit : 0 ≤ v / vf.factor_ := Int.ediv_nonneg hv hfactor.le
  unfold label zeroFilled
  rw [Int.tdiv_eq_ediv_of_nonneg hv, if_neg (not_lt.mpr hunit)]

theorem toList_label (hfactor : 0 < vf.factor_) (hv : 0 ≤ v) :
    (vf.label v).toList =
      numeral Nat.digitChar 10 vf.width_ (v / vf.factor_).natAbs ++ vf.suffix_.toList := by
  rw [label_eq hfactor hv, String.toList_append, String.toList_ofList]

/-- Labels of one formatter are equal only for equal numbers of units. -/
theorem ediv_eq_of_label_eq (hfactor : 0 < vf.factor_) (hv : 0 ≤ v) (hw : 0 ≤ w)
    (h : vf.label v = vf.label w) : v / vf.factor_ = w / vf.factor_ := by
  have hchars := congrArg String.toList h
  rw [toList_label hfactor hv, toList_label hfactor hw] at hchars
  have hunits := numeral_injective (by omega) digitChar_ascends (List.append_cancel_right hchars)
  have hv' := Int.ediv_nonneg hv hfactor.le
  have hw' := Int.ediv_nonneg hw hfactor.le
  omega

/-- Labels are in the order of the numbers of units if these fit into the width. -/
theorem label_lt_label (hfactor : 0 < vf.factor_) (hwidth : 0 < vf.width_) (hv : 0 ≤ v)
    (h : v / vf.factor_ < w / vf.factor_) (hw : w / vf.factor_ < 10 ^ vf.width_) :
    vf.label v < vf.label w := by
  have hv' := Int.ediv_nonneg hv hfactor.le
  have hfit : (w / vf.factor_).natAbs < 10 ^ vf.width_ := by
    zify
    rwa [abs_of_nonneg (by omega)]
  have hw' : 0 ≤ w := by
    by_contra hneg
    have := Int.ediv_neg_of_neg_of_pos (not_le.mp hneg) hfactor
    omega
  rw [String.lt_iff, toList_label hfactor hv, toList_label hfactor hw']
  have hlength : ∀ n < 10 ^ vf.width_,
      (numeral Nat.digitChar 10 vf.width_ n).length = vf.width_ := fun n =>
    length_numeral (by omega) hwidth
  have hlengths : (numeral Nat.digitChar 10 vf.width_ (v / vf.factor_).natAbs).length =
      (numeral Nat.digitChar 10 vf.width_ (w / vf.factor_).natAbs).length := by
    rw [hlength _ (by omega), hlength _ hfit]
  exact append_lt_append hlengths
    (numeral_lt_of_length_eq (by omega) digitChar_ascends hlengths (by omega)) _ _

theorem label_ne (hfactor : 0 < vf.factor_) (hv : 0 ≤ v) {name : String} {c : Char}
    (hname : name.toList.head? = some c) (hc : c.isDigit = false) : vf.label v ≠ name := by
  intro h
  rw [← h, toList_label hfactor hv, List.head?_append_of_ne_nil _ (numeral_ne_nil _ _ _ _)] at hname
  obtain ⟨d, hd, rfl⟩ := mem_numeral (by omega) (List.mem_of_mem_head? hname)
  have htable : ∀ d < 10, (Nat.digitChar d).isDigit = true := by decide
  rw [htable d hd] at hc
  cases hc

end ValueFormatter

/-- What `bias` returns. -/
def labelled (ltZero gtMax : String) (bounds : List ℤ) (vf : ValueFormatter) : BucketsFunction :=
  ⟨⟨ltZero, -1⟩ :: bounds.map fun c => ⟨vf.label c, c⟩, gtMax⟩

theorem bias_eq {vf : ValueFormatter} (h : vf.factor_ ≠ 0) (ltZero gtMax : String)
    (bounds : List ℤ) :
    bias ltZero gtMax bounds vf = .ok (labelled ltZero gtMax bounds vf) := by
  unfold bias
  rw [ValueFormatter.mapM_NewBucket h]
  rfl

/-! Bounds. -/

/-- Bounds that are not negative and that ascend, in steps of at least `step`. -/
structure Spaced (step : ℤ) (bounds : List ℤ) : Prop where
  nonneg : ∀ c ∈ bounds, 0 ≤ c
  steps : bounds.Pairwise fun c d => c = d ∨ c + step ≤ d

theorem Spaced.add_le {step : ℤ} {bounds : List ℤ} (h : Spaced step bounds)
    {c d : ℤ} (hc : c ∈ bounds) (hd : d ∈ bounds) (hcd : c < d) : c + step ≤ d := by
  have hahead : bounds.Pairwise fun c d => c < d → c + step ≤ d := by
    apply h.steps.imp
    omega
  have hbehind : bounds.Pairwise (flip fun c d => c < d → c + step ≤ d) := by
    apply h.steps.imp
    unfold flip
    omega
  exact List.Pairwise.forall_of_forall_of_flip (fun c _ => by omega) hahead hbehind hc hd hcd

/-- Eighths of the maximum are at least `step` apart, or single units are. -/
def FarApart (step max : ℤ) : Prop := step = 1 ∨ (0 < step ∧ 8 * step ≤ max)

theorem FarApart.pos {step max : ℤ} (h : FarApart step max) : 0 < step := by
  rcases h with h | h
  · omega
  · exact h.1

theorem spaced_four {step a b c d : ℤ} (hstep : 0 < step) (ha : 0 ≤ a)
    (hab : a = b ∨ a + step ≤ b) (hbc : b = c ∨ b + step ≤ c) (hcd : c = d ∨ c + step ≤ d) :
    Spaced step [a, b, c, d] := by
  constructor
  · simp only [List.forall_mem_cons, List.not_mem_nil, false_implies, implies_true, and_true]
    omega
  · simp only [List.pairwise_cons, List.forall_mem_cons, List.not_mem_nil, false_implies,
      implies_true, and_true, List.Pairwise.nil]
    omega

theorem spaced_zeroBounds {step max : ℤ} (hmax : 0 ≤ max) (h : FarApart step max) :
    Spaced step (zeroBounds max) := by
  have hpos := h.pos
  unfold FarApart at h
  unfold zeroBounds
  simp only [Int.tdiv_eq_ediv_of_nonneg hmax]
  apply spaced_four hpos <;> omega

theorem spaced_maxBounds {step max : ℤ} (hmax : 0 ≤ max) (h : FarApart step max) :
    Spaced step (maxBounds max) := by
  have hpos := h.pos
  unfold FarApart at h
  unfold maxBounds
  simp only [Int.tdiv_eq_ediv_of_nonneg hmax]
  apply spaced_four hpos <;> omega

/-- Bounds that are one step apart are in different units. -/
theorem ediv_lt_ediv_of_add_le {c d factor : ℤ} (hfactor : 0 < factor) (h : c + factor ≤ d) :
    c / factor < d / factor := by
  have hstep := Int.ediv_le_ediv hfactor h
  rw [Int.add_ediv_of_dvd_right (dvd_refl factor), Int.ediv_self hfactor.ne'] at hstep
  omega

theorem GetFormatter_spec {vfs : ValueFormatters} {max : ℤ} {vf : ValueFormatter}
    (h : GetFormatter vfs max = .ok vf) :
    ∃ i : ℕ, vfs[i]? = some vf ∧ (∀ (j : ℕ) (w : ValueFormatter), j < i → vfs[j]? = some w →
      w.max_ ≤ max) ∧ (max < vf.max_ ∨ i + 1 = vfs.length) := by
  unfold GetFormatter at h
  split at h
  case h_1 w hfind =>
    obtain rfl := Except.ok.inj h
    obtain ⟨hmax, i, hi, hw, hbefore⟩ := List.find?_eq_some_iff_getElem.mp hfind
    refine ⟨i, List.getElem?_eq_some_iff.mpr ⟨hi, hw⟩, ?_, Or.inl (of_decide_eq_true hmax)⟩
    intro j u hj hu
    obtain ⟨hjlt, rfl⟩ := List.getElem?_eq_some_iff.mp hu
    simpa using hbefore j hj
  case h_2 hfind =>
    split at h
    case h_1 w hlast =>
      obtain rfl := Except.ok.inj h
      rw [List.getLast?_eq_getElem?] at hlast
      have hlt := (List.getElem?_eq_some_iff.mp hlast).1
      refine ⟨vfs.length - 1, hlast, ?_, Or.inr (by omega)⟩
      intro j u _ hu
      simpa using List.find?_eq_none.mp hfind u (List.mem_of_getElem? hu)
    case h_2 => cases h

theorem exists_GetFormatter {vfs : ValueFormatters} (h : vfs ≠ []) (max : ℤ) :
    ∃ vf, GetFormatter vfs max = .ok vf := by
  unfold GetFormatter
  split
  · exact ⟨_, rfl⟩
  · rw [List.getLast?_eq_some_getLast h]
    exact ⟨_, rfl⟩

theorem call_eq_valueAt (f : BucketsFunction) (amount : ℤ) :
    f.call amount = StepFunction.valueAt f.fallback_
      (f.buckets_.map fun b => (b.upper_boundary_, b.name_)) amount := by
  obtain ⟨buckets, fallback⟩ := f
  induction buckets with
  | nil => rfl
  | cons b buckets ih =>
    unfold BucketsFunction.call at ih ⊢
    rw [List.map_cons, StepFunction.valueAt]
    by_cases h : amount ≤ b.upper_boundary_
    · simp only [List.find?_cons, h, decide_true, if_true]
    · simp only [List.find?_cons, h, decide_false, if_false]
      exact ih

/-! The function of the buckets of some bounds. -/

/-- The names of the first bucket and behind the last one are different, and do not begin
with a digit. -/
structure OuterNames (ltZero gtMax : String) : Prop where
  ne : ltZero ≠ gtMax
  ltZero : ∃ c, ltZero.toList.head? = some c ∧ c.isDigit = false
  gtMax : ∃ c, gtMax.toList.head? = some c ∧ c.isDigit = false

section Labelled
variable {ltZero gtMax : String} {bounds : List ℤ} {vf : ValueFormatter}

/-- The steps of a bucket function. -/
def steps (ltZero : String) (bounds : List ℤ) (vf : ValueFormatter) : List (ℤ × String) :=
  (-1, ltZero) :: bounds.map fun c => (c, vf.label c)

theorem steps_eq_map : steps ltZero bounds vf =
    (labelled ltZero gtMax bounds vf).buckets_.map fun b => (b.upper_boundary_, b.name_) := by
  rw [labelled, steps, List.map_cons, List.map_map]
  rfl

theorem call_labelled (amount : ℤ) :
    (labelled ltZero gtMax bounds vf).call amount =
      StepFunction.valueAt gtMax (steps ltZero bounds vf) amount := by
  rw [call_eq_valueAt, ← steps_eq_map]
  rfl

theorem steps_ascend (hfactor : 0 < vf.factor_) (hbounds : Spaced vf.factor_ bounds) :
    (steps ltZero bounds vf).Pairwise fun s t => s.1 ≤ t.1 := by
  unfold steps
  rw [List.pairwise_cons, List.pairwise_map]
  constructor
  · intro step hstep
    obtain ⟨c, hc, rfl⟩ := List.mem_map.mp hstep
    have hnonneg := hbounds.nonneg c hc
    show -1 ≤ c
    omega
  · apply hbounds.steps.imp
    intro c d h
    show c ≤ d
    omega

theorem label_ne_label (hfactor : 0 < vf.factor_) (hbounds : Spaced vf.factor_ bounds) {c d : ℤ}
    (hc : c ∈ bounds) (hd : d ∈ bounds) (hcd : c < d) : vf.label c ≠ vf.label d := by
  intro heq
  have hunits := ValueFormatter.ediv_eq_of_label_eq hfactor (hbounds.nonneg c hc)
    (hbounds.nonneg d hd) heq
  have hlt := ediv_lt_ediv_of_add_le hfactor (hbounds.add_le hc hd hcd)
  omega

theorem call_labelled_eq_iff (hnames : OuterNames ltZero gtMax) (hfactor : 0 < vf.factor_)
    (hbounds : Spaced vf.factor_ bounds) {a b : ℤ} (hab : a < b) :
    (labelled ltZero gtMax bounds vf).call a = (labelled ltZero gtMax bounds vf).call b ↔
      ¬ ∃ c ∈ -1 :: bounds, a ≤ c ∧ c < b := by
  rw [call_labelled, call_labelled,
    StepFunction.valueAt_eq_iff (steps_ascend hfactor hbounds) ?_ ?_ hab]
  · unfold steps
    simp
  · intro s hs t ht hst
    rcases List.mem_cons.mp hs with rfl | hs
    · rcases List.mem_cons.mp ht with rfl | ht
      · exact absurd hst (lt_irrefl _)
      · obtain ⟨d, hd, rfl⟩ := List.mem_map.mp ht
        obtain ⟨first, hfirst, hdigit⟩ := hnames.ltZero
        exact (ValueFormatter.label_ne hfactor (hbounds.nonneg d hd) hfirst hdigit).symm
    · obtain ⟨c, hc, rfl⟩ := List.mem_map.mp hs
      rcases List.mem_cons.mp ht with rfl | ht
      · have hnonneg := hbounds.nonneg c hc
        exact absurd hst (not_lt.mpr (show -1 ≤ c by omega))
      · obtain ⟨d, hd, rfl⟩ := List.mem_map.mp ht
        exact label_ne_label hfactor hbounds hc hd hst
  · intro step hstep
    rcases List.mem_cons.mp hstep with rfl | hstep
    · exact hnames.ne
    · obtain ⟨c, hc, rfl⟩ := List.mem_map.mp hstep
      obtain ⟨first, hfirst, hdigit⟩ := hnames.gtMax
      exact ValueFormatter.label_ne hfactor (hbounds.nonneg c hc) hfirst hdigit

/-- An amount that is not above all bounds has the label of the first bound from it on. -/
theorem call_labelled_of_le (hfactor : 0 < vf.factor_) (hbounds : Spaced vf.factor_ bounds)
    {amount d : ℤ} (hamount : 0 ≤ amount) (hd : d ∈ bounds) (hle : amount ≤ d) :
    ∃ c ∈ bounds, amount ≤ c ∧ (∀ d ∈ bounds, amount ≤ d → c ≤ d) ∧
      (labelled ltZero gtMax bounds vf).call amount = vf.label c := by
  have hmem : ∀ c ∈ bounds, (c, vf.label c) ∈ steps ltZero bounds vf := fun c hc =>
    List.mem_cons_of_mem _ (List.mem_map_of_mem hc)
  rw [call_labelled]
  rcases @StepFunction.valueAt_spec _ _ _ gtMax _ (@steps_ascend ltZero _ _ hfactor hbounds) amount
    with ⟨s, hs, has, hleast, hvalue⟩ | ⟨hall, -⟩
  · rcases List.mem_cons.mp hs with rfl | hs
    · have hneg : amount ≤ -1 := has
      omega
    · obtain ⟨c, hc, rfl⟩ := List.mem_map.mp hs
      exact ⟨c, hc, has, fun d hd => hleast _ (hmem d hd), hvalue⟩
  · exact absurd (hall _ (hmem d hd)) (not_lt.mpr hle)

end Labelled

end bucket_functions

end AtlasNative
