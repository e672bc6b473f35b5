import AtlasNative.BucketFunctions
import Mathlib.Tactic.IntervalCases

/-!
# Size buckets

The labels of sizes sort like their bounds if four units fit into the maximum. The factors
of the two largest binary units are shifts of an `int`, which has too few bits for them, and
the decimal units begin where only one unit fits.
-/

namespace AtlasNative

open Numerals
set_option autoImplicit false

namespace bucket_functions

/-! The order of labels. -/

/-- The bounds of the smaller buckets have fractions of the units of the maximum. -/
theorem tdiv_ediv_comm {max : ℤ} (hmax : 0 ≤ max) (n : ℤ) {factor : ℤ} (hfactor : 0 ≤ factor)
    (hn : 0 ≤ n) : max.tdiv n / factor = max / factor / n := by
  rw [Int.tdiv_eq_ediv_of_nonneg hmax, Int.ediv_ediv_of_nonneg hn, Int.ediv_ediv_of_nonneg hfactor,
    mul_comm]

/-- Two labels are in the order of their units, and equal when these are. -/
theorem label_lt_iff {vf : ValueFormatter} (hfactor : 0 < vf.factor_) (hwidth : 0 < vf.width_)
    {c d : ℤ} (hc : 0 ≤ c) (hd : 0 ≤ d) (hfit : d / vf.factor_ < 10 ^ vf.width_)
    (hle : c / vf.factor_ ≤ d / vf.factor_) :
    vf.label c < vf.label d ↔ c / vf.factor_ < d / vf.factor_ := by
  constructor
  · intro hlt
    by_contra hnot
    have heq : c / vf.factor_ = d / vf.factor_ := by omega
    have hlabel : vf.label c = vf.label d := by
      rw [ValueFormatter.label_eq hfactor hc, ValueFormatter.label_eq hfactor hd, heq]
    exact absurd (hlabel ▸ hlt) (String.lt_irrefl _)
  · exact fun hlt => ValueFormatter.label_lt_label hfactor hwidth hc hlt hfit

theorem labels_ascend_iff {vf : ValueFormatter} {max : ℤ} (hmax : 0 ≤ max)
    (hfactor : 0 < vf.factor_) (hwidth : 0 < vf.width_) (hfit : max < 10 ^ vf.width_ * vf.factor_) :
    ((zeroBounds max).map vf.label).Pairwise (· < ·) ↔ 4 * vf.factor_ ≤ max := by
  have hunits : 4 * vf.factor_ ≤ max ↔ 4 ≤ max / vf.factor_ :=
    (Int.le_ediv_iff_mul_le hfactor).symm
  have hfit' : max / vf.factor_ < 10 ^ vf.width_ := (Int.ediv_lt_iff_lt_mul hfactor).mpr hfit
  have hunit := fun n => tdiv_ediv_comm hmax n hfactor.le
  have hnonneg : 0 ≤ max / vf.factor_ := Int.ediv_nonneg hmax hfactor.le
  have h8 := hunit 8 (by omega)
  have h4 := hunit 4 (by omega)
  have h2 := hunit 2 (by omega)
  have hbounds : 0 ≤ max.tdiv 8 ∧ 0 ≤ max.tdiv 4 ∧ 0 ≤ max.tdiv 2 := by
    simp only [Int.tdiv_eq_ediv_of_nonneg hmax]
    omega
  have hpair : ∀ c d : ℤ, 0 ≤ c → 0 ≤ d → d / vf.factor_ < 10 ^ vf.width_ →
      c / vf.factor_ ≤ d / vf.factor_ →
      (vf.label c < vf.label d ↔ c / vf.factor_ < d / vf.factor_) :=
    fun c d => label_lt_iff hfactor hwidth
  unfold zeroBounds
  simp only [List.map_cons, List.map_nil, List.pairwise_cons, List.forall_mem_cons,
    List.not_mem_nil, false_implies, implies_true, and_true, List.Pairwise.nil]
  rw [hunits, hpair _ _ hbounds.1 hbounds.2.1 (by omega) (by omega),
    hpair _ _ hbounds.1 hbounds.2.2 (by omega) (by omega),
    hpair _ _ hbounds.1 hmax (by omega) (by omega),
    hpair _ _ hbounds.2.1 hbounds.2.2 (by omega) (by omega),
    hpair _ _ hbounds.2.1 hmax (by omega) (by omega),
    hpair _ _ hbounds.2.2 hmax (by omega) (by omega)]
  omega

/-- The four numeric labels ascend. -/
def SortsLikeBounds (result : Except Fault BucketsFunction) : Prop :=
  ∃ f, result = .ok f ∧ (f.buckets_.tail.map Bucket.name_).Pairwise (· < ·)

theorem sortsLikeBounds_iff {vf : ValueFormatter} {max : ℤ} (hmax : 0 ≤ max)
    (hfactor : 0 < vf.factor_) (hwidth : 0 < vf.width_) (hfit : max < 10 ^ vf.width_ * vf.factor_)
    {vfs : ValueFormatters} (hvf : GetFormatter vfs max = .ok vf) :
    SortsLikeBounds (GetFormatter vfs max >>= BiasZero "negative" "large" max) ↔
      4 * vf.factor_ ≤ max := by
  rw [← labels_ascend_iff hmax hfactor hwidth hfit, hvf]
  have hresult : ((.ok vf : Except Fault ValueFormatter) >>= BiasZero "negative" "large" max) =
      .ok (labelled "negative" "large" (zeroBounds max) vf) := bias_eq hfactor.ne' _ _ _
  have hnames : (labelled "negative" "large" (zeroBounds max) vf).buckets_.tail.map Bucket.name_ =
      (zeroBounds max).map vf.label := List.map_map
  unfold SortsLikeBounds
  rw [hresult, ← hnames]
  constructor
  · intro h
    rcases h with ⟨f, hf, hlabels⟩
    rw [Except.ok.injEq] at hf
    exact hf ▸ hlabels
  · exact fun hlabels => ⟨_, rfl, hlabels⟩

/-! The formatters for bytes. -/

section Binary
variable (undefined : ℕ → ℤ)

def binaryFormatter (pow width : ℕ) : ValueFormatter :=
  bin undefined (10 ^ width) pow width (binaryUnits.getD pow "")

def lastBinaryFormatter : ValueFormatter := ⟨int64_max, 4, "_PiB", 2 ^ 50, true⟩

theorem initBinaryFormatters_getElem? {i : ℕ} (hi : i < 24) :
    (initBinaryFormatters undefined)[i]? =
      some (binaryFormatter undefined (i / 4) (i % 4 + 1)) := by
  interval_cases i <;> rfl

theorem initBinaryFormatters_last :
    (initBinaryFormatters undefined)[24]? = some lastBinaryFormatter := rfl

theorem length_initBinaryFormatters : (initBinaryFormatters undefined).length = 25 := rfl

/-- The maximum of a formatter; the last one of the last unit is too large and wraps around. -/
theorem max_binaryFormatter {i : ℕ} (hi : i < 23) :
    (binaryFormatter undefined (i / 4) (i % 4 + 1)).max_ = 10 ^ (i % 4 + 1) * 1024 ^ (i / 4) := by
  have htable : ∀ i < 23, (binaryFormatter (fun _ => 0) (i / 4) (i % 4 + 1)).max_ =
      10 ^ (i % 4 + 1) * 1024 ^ (i / 4) := by decide +kernel
  exact htable i hi

theorem factor_binaryFormatter {pow : ℕ} (hpow : pow < 4) (width : ℕ) :
    (binaryFormatter undefined pow width).factor_ = 1024 ^ pow := by
  interval_cases pow <;> rfl

/-- Which formatter is chosen: one whose unit is in the range of an `int`, one whose unit is
not, or the last one. -/
inductive ChosenForBytes (max : ℤ) : ValueFormatter → Prop where
  | inRange {pow width : ℕ} (hpow : pow < 4) (hwidth : 0 < width) (hwidth' : width ≤ 4)
      (hsmall : max < 10000 * 2 ^ 30) (hfit : max < 10 ^ width * 1024 ^ pow)
      (hfar : FarApart (1024 ^ pow) max) : ChosenForBytes max (binaryFormatter undefined pow width)
  | outOfRange {pow width : ℕ} (hpow : pow = 4 ∨ pow = 5) (hlarge : 10000 * 2 ^ 30 ≤ max)
      (hsmall : max < 1000 * 2 ^ 50) : ChosenForBytes max (binaryFormatter undefined pow width)
  | last (hlarge : 1000 * 2 ^ 50 ≤ max) : ChosenForBytes max lastBinaryFormatter

theorem chosenForBytes {max : ℤ} (hmax : 0 ≤ max) {vf : ValueFormatter}
    (h : GetFormatter (initBinaryFormatters undefined) max = .ok vf) :
    ChosenForBytes undefined max vf := by
  obtain ⟨i, hi, hbefore, hchosen⟩ := GetFormatter_spec h
  have hlt : i < 25 := (List.getElem?_eq_some_iff.mp hi).1
  have hpassed : ∀ j < 23, j < i → 10 ^ (j % 4 + 1) * 1024 ^ (j / 4) ≤ max := by
    intro j hj hji
    rw [← max_binaryFormatter undefined hj]
    exact hbefore j _ hji (initBinaryFormatters_getElem? undefined (by omega))
  by_cases hlast : i = 24
  · subst hlast
    obtain rfl := Option.some.inj ((initBinaryFormatters_last undefined).symm.trans hi)
    exact .last (hpassed 22 (by omega) (by omega))
  · rw [initBinaryFormatters_getElem? undefined (show i < 24 by omega), Option.some.injEq] at hi
    subst hi
    rw [length_initBinaryFormatters] at hchosen
    have hless := hchosen.resolve_right (by omega)
    have hi23 : i < 23 := by
      by_contra hnot
      obtain rfl : i = 23 := by omega
      have hnegative : (binaryFormatter undefined (23 / 4) (23 % 4 + 1)).max_ < 0 := by
        show (binaryFormatter (fun _ => 0) (23 / 4) (23 % 4 + 1)).max_ < 0
        decide +kernel
      omega
    rw [max_binaryFormatter undefined hi23] at hless
    have htable : ∀ i < 23, (10 : ℤ) ^ (i % 4 + 1) * 1024 ^ (i / 4) ≤ 1000 * 2 ^ 50 := by
      decide +kernel
    by_cases hi16 : i < 16
    · have hsmall : ∀ i < 16, (10 : ℤ) ^ (i % 4 + 1) * 1024 ^ (i / 4) ≤ 10000 * 2 ^ 30 := by
        decide +kernel
      have hfar : ∀ i < 16, (1024 : ℤ) ^ (i / 4) = 1 ∨ (0 < (1024 : ℤ) ^ (i / 4) ∧
          ∃ j < i, (8 * 1024 ^ (i / 4) : ℤ) ≤ 10 ^ (j % 4 + 1) * 1024 ^ (j / 4)) := by
        decide +kernel
      refine .inRange (by omega) (by omega) (by omega) (hless.trans_le (hsmall i hi16)) hless ?_
      rcases hfar i hi16 with hone | ⟨hpos, j, hj, hle⟩
      · exact Or.inl hone
      · exact Or.inr ⟨hpos, hle.trans (hpassed j (by omega) hj)⟩
    · exact .outOfRange (by omega) (hpassed 15 (by omega) (by omega))
        (hless.trans_le (htable i hi23))

theorem initBinaryFormatters_ne_nil : initBinaryFormatters undefined ≠ [] := List.cons_ne_nil _ _

/-- With a factor of zero there are no buckets. -/
theorem bias_of_factor_zero {vf : ValueFormatter} (h : vf.factor_ = 0) (ltZero gtMax : String)
    (max : ℤ) : BiasZero ltZero gtMax max vf = .error .undefined := by
  unfold BiasZero bias zeroBounds
  rw [List.mapM_cons, ValueFormatter.NewBucket, ValueFormatter.GetLabel, quotient, if_pos h]
  rfl

theorem bytes_sort_iff {max : ℤ} (hmax : 8 ≤ max) (hint : IsInt64 max) :
    (∀ undefined, SortsLikeBounds (Bytes undefined max)) ↔
      max < 10000 * 2 ^ 30 ∨ 1000 * 2 ^ 50 ≤ max := by
  have hlt := hint.2
  constructor
  · intro h
    by_contra hbetween
    obtain ⟨vf, hvf⟩ := exists_GetFormatter (initBinaryFormatters_ne_nil fun _ => 0) max
    cases chosenForBytes (fun _ => 0) (by omega) hvf with
    | inRange _ _ _ hsmall => exact hbetween (Or.inl hsmall)
    | last hlarge => exact hbetween (Or.inr hlarge)
    | @outOfRange pow width hpow =>
      have hfactor : (binaryFormatter (fun _ => 0) pow width).factor_ = 0 := by
        rcases hpow with rfl | rfl <;> rfl
      obtain ⟨f, hf, -⟩ := h fun _ => 0
      unfold Bytes at hf
      rw [hvf] at hf
      cases (bias_of_factor_zero hfactor _ _ _).symm.trans hf
  · intro h undefined
    obtain ⟨vf, hvf⟩ := exists_GetFormatter (initBinaryFormatters_ne_nil undefined) max
    cases chosenForBytes undefined (by omega) hvf with
    | @inRange pow width hpow hwidth _ _ hfit hfar =>
      have hfactor := factor_binaryFormatter undefined hpow width
      have hpos := hfar.pos
      refine (sortsLikeBounds_iff (by omega) (hfactor ▸ hpos) hwidth (hfactor ▸ hfit) hvf).mpr ?_
      rw [hfactor]
      unfold FarApart at hfar
      omega
    | outOfRange _ hlarge hsmall => omega
    | last hlarge =>
      refine (sortsLikeBounds_iff (by omega) ?_ ?_ ?_ hvf).mpr ?_
      · decide
      · decide
      · exact hlt.trans_le (by decide)
      · exact le_trans (by decide) hlarge

end Binary

/-! The formatters for decimal sizes. -/

theorem initDecimalFormatters_values : ∀ i < 19, ∀ vf ∈ initDecimalFormatters[i]?,
    vf.factor_ = 1000 ^ (i / 3) ∧ vf.width_ = i % 3 + 1 ∧
      vf.max_ = (if i = 18 then int64_max else 10 ^ (i % 3 + 1) * 1000 ^ (i / 3)) := by
  decide +kernel

/-- A decimal unit is chosen as soon as one of it fits into the maximum. -/
theorem chosenForDecimal {max : ℤ} (hint : IsInt64 max) {vf : ValueFormatter}
    (h : GetFormatter initDecimalFormatters max = .ok vf) :
    ∃ pow, pow ≤ 6 ∧ vf.factor_ = 1000 ^ pow ∧ 0 < vf.width_ ∧
      max < 10 ^ vf.width_ * vf.factor_ ∧ max < 1000 * 1000 ^ pow ∧
      (pow = 0 ∨ 1000 ^ pow ≤ max) := by
  obtain ⟨i, hi, hbefore, hchosen⟩ := GetFormatter_spec h
  have hlength : initDecimalFormatters.length = 19 := rfl
  have hlt : i < 19 := (List.getElem?_eq_some_iff.mp hi).1
  obtain ⟨hfactor, hwidth, hmax_⟩ := initDecimalFormatters_values i hlt vf hi
  have hfit : max < 10 ^ (i % 3 + 1) * 1000 ^ (i / 3) := by
    by_cases hlast : i = 18
    · subst hlast
      exact hint.2.trans_le (by decide)
    · rw [if_neg hlast] at hmax_
      rw [hlength] at hchosen
      exact hmax_ ▸ hchosen.resolve_right (by omega)
  have hwidths : ∀ i < 19, (10 : ℤ) ^ (i % 3 + 1) * 1000 ^ (i / 3) ≤ 1000 * 1000 ^ (i / 3) := by
    decide +kernel
  refine ⟨i / 3, by omega, hfactor, by omega, hwidth ▸ hfactor ▸ hfit,
    hfit.trans_le (hwidths i hlt), ?_⟩
  by_cases hpow : i / 3 = 0
  · exact Or.inl hpow
  · right
    obtain ⟨w, hw⟩ : ∃ w, initDecimalFormatters[3 * (i / 3) - 1]? = some w :=
      ⟨_, List.getElem?_eq_getElem (by omega)⟩
    obtain ⟨-, -, hwmax⟩ := initDecimalFormatters_values _ (by omega) w hw
    have hpassed := hbefore _ w (by omega) hw
    have hstarts : ∀ i < 19, i / 3 ≠ 0 →
        (10 : ℤ) ^ ((3 * (i / 3) - 1) % 3 + 1) * 1000 ^ ((3 * (i / 3) - 1) / 3) =
          1000 ^ (i / 3) := by decide +kernel
    rw [hwmax, if_neg (by omega), hstarts i hlt hpow] at hpassed
    exact hpassed

theorem decimal_sorts_iff {max : ℤ} (hmax : 8 ≤ max) (hint : IsInt64 max) :
    SortsLikeBounds (Decimal max) ↔
      ¬ ∃ pow, 1 ≤ pow ∧ pow ≤ 6 ∧ 1000 ^ pow ≤ max ∧ max < 4 * 1000 ^ pow := by
  obtain ⟨vf, hvf⟩ := exists_GetFormatter (show initDecimalFormatters ≠ [] from
    List.cons_ne_nil _ _) max
  obtain ⟨pow, hpow, hfactor, hwidth, hfit, hless, hstart⟩ := chosenForDecimal hint hvf
  have hpos : (0 : ℤ) < 1000 ^ pow := by positivity
  unfold Decimal
  rw [sortsLikeBounds_iff (by omega) (hfactor ▸ hpos) hwidth hfit hvf, hfactor]
  constructor
  · rintro hle ⟨pow', -, -, hstart', hless'⟩
    have hup : pow' < pow + 1 := by
      apply (pow_lt_pow_iff_right₀ (show (1 : ℤ) < 1000 by omega)).mp
      rw [pow_succ]
      omega
    have hdown : pow < pow' := by
      apply (pow_lt_pow_iff_right₀ (show (1 : ℤ) < 1000 by omega)).mp
      omega
    omega
  · intro hnone
    by_contra hlt
    rcases hstart with rfl | hstart
    · rw [pow_zero] at hlt
      omega
    · have hzero : pow ≠ 0 := by
        rintro rfl
        rw [pow_zero] at hlt
        omega
      exact hnone ⟨pow, by omega, hpow, hstart, not_le.mp hlt⟩

/-- Labels of sizes sort except where the unit is a shift out of an `int`, or where the
maximum is a few of the decimal unit. -/
theorem size_labels_sort_iff {max : ℤ} (hmax : 8 ≤ max) (hint : IsInt64 max) :
    ((∀ undefined, SortsLikeBounds (Bytes undefined max)) ↔
      max < 10000 * 2 ^ 30 ∨ 1000 * 2 ^ 50 ≤ max) ∧
    (SortsLikeBounds (Decimal max) ↔
      ¬ ∃ pow, 1 ≤ pow ∧ pow ≤ 6 ∧ 1000 ^ pow ≤ max ∧ max < 4 * 1000 ^ pow) :=
  ⟨bytes_sort_iff hmax hint, decimal_sorts_iff hmax hint⟩

theorem size_labels_sort_kilo :
    ((∀ undefined, SortsLikeBounds (Bytes undefined 20000)) ↔
      (20000 : ℤ) < 10000 * 2 ^ 30 ∨ (1000 * 2 ^ 50 : ℤ) ≤ 20000) ∧
    (SortsLikeBounds (Decimal 20000) ↔
      ¬ ∃ pow, 1 ≤ pow ∧ pow ≤ 6 ∧ (1000 : ℤ) ^ pow ≤ 20000 ∧ 20000 < (4 : ℤ) * 1000 ^ pow) :=
  @size_labels_sort_iff 20000 (by omega) (by decide)

def maskedShift (shift : ℕ) : ℤ := 2 ^ (shift % 32)

/-- The labels of 1000 are 0_k, 0_k, 0_k and 1_k. Those of a maximum that is in TiB count
units of 256 bytes, with ten and eleven digits. -/
theorem thousand_has_equal_labels :
    ¬ SortsLikeBounds (Decimal 1000) ∧ ¬ SortsLikeBounds (Bytes maskedShift (10000 * 2 ^ 30)) := by
  constructor
  · intro h
    rcases h with ⟨f, hf, hlabels⟩
    have hresult : Decimal 1000 = .ok ⟨[⟨"negative", -1⟩, ⟨"0_k", 125⟩, ⟨"0_k", 250⟩, ⟨"0_k", 500⟩,
        ⟨"1_k", 1000⟩], "large"⟩ := by decide +kernel
    obtain rfl := Except.ok.inj (hresult.symm.trans hf)
    revert hlabels
    decide +kernel
  · intro h
    rcases h with ⟨f, hf, hlabels⟩
    have hresult : Bytes maskedShift (10000 * 2 ^ 30) = .ok ⟨[⟨"negative", -1⟩,
        ⟨"5242880000_TiB", 1342177280000⟩, ⟨"10485760000_TiB", 2684354560000⟩,
        ⟨"20971520000_TiB", 5368709120000⟩, ⟨"41943040000_TiB", 10737418240000⟩], "large"⟩ := by
      decide +kernel
    obtain rfl := Except.ok.inj (hresult.symm.trans hf)
    revert hlabels
    decide +kernel

/-! The magnitude of byte labels. -/

/-- The label of an amount is the bound of its bucket in whole units, and the formatter was
made without a shift or product out of its type. -/
def StatesMagnitude (undefined : ℕ → ℤ) (max : ℤ) : Prop :=
  ∃ vf f, GetFormatter (initBinaryFormatters undefined) max = .ok vf ∧ vf.inRange = true ∧
    Bytes undefined max = .ok f ∧ ∀ amount, 0 ≤ amount → amount ≤ max →
      ∃ c ∈ zeroBounds max, (amount ≤ c ∧ ∀ d ∈ zeroBounds max, amount ≤ d → c ≤ d) ∧
        ∃ pow unit width, binaryUnits[pow]? = some unit ∧ f.call amount =
          String.ofList (numeral Nat.digitChar 10 width (c / 1024 ^ pow).toNat) ++ unit

theorem statesMagnitude_of_factor {undefined : ℕ → ℤ} {max : ℤ} (hmax : 0 ≤ max)
    {vf : ValueFormatter} (hvf : GetFormatter (initBinaryFormatters undefined) max = .ok vf)
    (hrange : vf.inRange = true) {pow : ℕ} (hfactor : vf.factor_ = 1024 ^ pow)
    (hsuffix : binaryUnits[pow]? = some vf.suffix_) (hfar : FarApart vf.factor_ max) :
    StatesMagnitude undefined max := by
  have hpos := hfar.pos
  have hspaced := spaced_zeroBounds hmax hfar
  refine ⟨vf, labelled "negative" "large" (zeroBounds max) vf, hvf, hrange, ?_, ?_⟩
  · unfold Bytes
    rw [hvf]
    exact bias_eq hpos.ne' _ _ _
  · intro amount hnonneg hle
    have hmem : max ∈ zeroBounds max := by simp [zeroBounds]
    obtain ⟨c, hc, hac, hleast, hcall⟩ :=
      @call_labelled_of_le "negative" "large" _ _ hpos hspaced _ _ hnonneg hmem hle
    refine ⟨c, hc, ⟨hac, hleast⟩, pow, vf.suffix_, vf.width_, hsuffix, ?_⟩
    have hcnonneg := hspaced.nonneg c hc
    have hunits : 0 ≤ c / 1024 ^ pow := Int.ediv_nonneg hcnonneg (hfactor ▸ hpos.le)
    have hnat : (c / 1024 ^ pow).toNat = (c / 1024 ^ pow).natAbs := by omega
    rw [hcall, ValueFormatter.label_eq hpos hcnonneg, hfactor, hnat]

theorem inRange_binaryFormatter (undefined : ℕ → ℤ) {pow width : ℕ} (hpow : pow < 4)
    (hwidth : width ≤ 4) : (binaryFormatter undefined pow width).inRange = true := by
  have htable : ∀ width ≤ 4, ∀ pow < 4, (binaryFormatter (fun _ => 0) pow width).inRange = true := by
    decide +kernel
  exact htable width hwidth pow hpow

/-- Labels of bytes state the magnitude exactly for the maxima whose unit is not a shift out
of an `int`. -/
theorem statesMagnitude_iff (undefined : ℕ → ℤ) {max : ℤ} (hmax : 0 ≤ max) :
    StatesMagnitude undefined max ↔ max < 10000 * 2 ^ 30 ∨ 1000 * 2 ^ 50 ≤ max := by
  obtain ⟨vf, hvf⟩ := exists_GetFormatter (initBinaryFormatters_ne_nil undefined) max
  constructor
  · intro hgiven
    rcases hgiven with ⟨vf', f, hvf', hrange, -⟩
    obtain rfl := Except.ok.inj (hvf.symm.trans hvf')
    cases chosenForBytes undefined hmax hvf with
    | inRange _ _ _ hsmall => exact Or.inl hsmall
    | last hlarge => exact Or.inr hlarge
    | outOfRange hpow =>
      unfold binaryFormatter bin at hrange
      rcases hpow with rfl | rfl <;> simp at hrange
  · intro h
    cases chosenForBytes undefined hmax hvf with
    | @inRange pow width hpow hwidth hwidth' _ _ hfar =>
      have hfactor := factor_binaryFormatter undefined hpow width
      refine statesMagnitude_of_factor hmax hvf (inRange_binaryFormatter undefined hpow hwidth')
        hfactor ?_ (hfactor ▸ hfar)
      interval_cases pow <;> rfl
    | outOfRange _ hlarge hsmall => omega
    | last hlarge =>
      have hfar : FarApart lastBinaryFormatter.factor_ max :=
        Or.inr ⟨by decide, le_trans (by decide) hlarge⟩
      exact statesMagnitude_of_factor hmax hvf rfl (show (2 : ℤ) ^ 50 = 1024 ^ 5 by norm_num) rfl hfar

theorem statesMagnitude_twentyThousand :
    StatesMagnitude maskedShift 20000 ↔
      (20000 : ℤ) < 10000 * 2 ^ 30 ∨ (1000 * 2 ^ 50 : ℤ) ≤ 20000 :=
  @statesMagnitude_iff maskedShift 20000 (by omega)

theorem tebibytes_not_stated :
    ¬ ∀ (undefined : ℕ → ℤ) (max : ℤ), 0 ≤ max → IsInt64 max → StatesMagnitude undefined max := by
  intro h
  obtain ⟨vf, f, hvf, hrange, -⟩ := h maskedShift (10000 * 2 ^ 30) (by omega) (by decide)
  have hchosen : GetFormatter (initBinaryFormatters maskedShift) (10000 * 2 ^ 30) =
      .ok ⟨10 * 2 ^ 40, 1, "_TiB", 256, false⟩ := by decide +kernel
  obtain rfl := Except.ok.inj (hvf.symm.trans hchosen)
  cases hrange

end bucket_functions

end AtlasNative
