import AtlasNative.Lib.ExactDouble
import AtlasNative.Lib.Polyline
import AtlasNative.PercentileBuckets
import Mathlib.Algebra.Order.BigOperators.Group.List

/-!
# Percentiles of bucket counts

One cursor runs over the buckets and one over the percentages, which ascend. A percentage
is answered at the first bucket that reaches it, by interpolation from the bucket before.
Quotients are exact. The sums of the counts are taken twice: as exact integers, and as the
`int64_t` of the source, whose overflow is undefined.
-/

namespace AtlasNative

open ExactDouble Polyline
set_option autoImplicit false

namespace percentile_buckets

/-- `std::array<int64_t, Length()>` -/
def Counts : Type := { counts : List ℤ // counts.length = Length }

/-- The variables of `Percentiles`. `results` ends at `pctIdx`. -/
structure Cursors where
  /-- The percentages from `pctIdx` on. -/
  pending : List Double
  prev : ℤ
  prevP : Double
  prevB : ℤ
  results : List Double
  /-- What was divided by so far; the source does not keep it. -/
  divisors : List Double

def Cursors.fill (s : Cursors) (nextP : Double) (nextB : ℤ) (pct : Double)
    (pending : List Double) : Cursors :=
  let f := (pct - s.prevP) / (nextP - s.prevP)
  { s with
    pending := pending
    results := s.results ++ [f * .fin (nextB - s.prevB : ℤ) + .fin s.prevB]
    divisors := s.divisors ++ [nextP - s.prevP] }

/-- `while (pctIdx < pcts.size() && ...)` -/
def fillWhile (reached : Double → Bool) (nextP : Double) (nextB : ℤ) :
    List Double → Cursors → Cursors
  | [], s => s
  | pct :: pending, s =>
    if reached pct then fillWhile reached nextP nextB pending (s.fill nextP nextB pct pending)
    else s

/-- The loop over the buckets, with the addition of the counts as a parameter. -/
def fillBuckets {m : Type → Type} [Monad m] (plus : ℤ → ℤ → m ℤ) (total : ℤ) :
    List (ℤ × ℤ) → Cursors → m Cursors
  | [], s => pure s
  | (count, nextB) :: buckets, s => do
    let next ← plus s.prev count
    let nextP := .fin (100 * next) / .fin total
    let s := fillWhile (fun pct => decide (pct ≤ nextP)) nextP nextB s.pending s
    if s.pending = [] then pure s
    else fillBuckets plus total buckets { s with prev := next, prevP := nextP, prevB := nextB }

def fillFirst {m : Type → Type} [Monad m] (plus : ℤ → ℤ → m ℤ) (counts : Counts)
    (pcts : List Double) : m Cursors := do
  let total ← counts.val.foldlM plus 0
  fillBuckets plus total (counts.val.zip kBucketValues) ⟨pcts, 0, .fin 0, 0, [], []⟩

def exactBuckets (total : ℤ) (buckets : List (ℤ × ℤ)) (s : Cursors) : Cursors :=
  Id.run (fillBuckets (fun a b => pure (a + b)) total buckets s)

def firstLoop (counts : Counts) (pcts : List Double) : Cursors :=
  Id.run (fillFirst (fun a b => pure (a + b)) counts pcts)

/-- The loop for what the buckets did not reach. -/
def trailingLoop (s : Cursors) : Cursors :=
  fillWhile (fun _ => true) (.fin 100) int64_max s.pending s

def Percentiles (counts : Counts) (pcts : List Double) : List Double :=
  (trailingLoop (firstLoop counts pcts)).results

def Percentile (counts : Counts) (p : Double) : Double := (Percentiles counts [p]).headD 0

/-- `a + b` in `int64_t` -/
def plus_int64 (a b : ℤ) : Except Fault ℤ :=
  if IsInt64 (a + b) then .ok (a + b) else .error .undefined

/-- Both loops with the sums of the source. -/
def int64_run (counts : Counts) (pcts : List Double) : Except Fault Cursors := do
  let s ← fillFirst plus_int64 counts pcts
  .ok (trailingLoop s)

/-- One bucket, when its count can be added. -/
theorem fillBuckets_cons {m : Type → Type} [Monad m] [LawfulMonad m] {plus : ℤ → ℤ → m ℤ}
    {total count nextB next : ℤ} {buckets : List (ℤ × ℤ)} {s : Cursors}
    (hplus : plus s.prev count = pure next) :
    fillBuckets plus total ((count, nextB) :: buckets) s =
      let nextP := .fin (100 * next) / .fin total
      let t := fillWhile (fun pct => decide (pct ≤ nextP)) nextP nextB s.pending s
      if t.pending = [] then pure t
      else fillBuckets plus total buckets { t with prev := next, prevP := nextP, prevB := nextB } := by
  rw [fillBuckets, hplus, pure_bind]

theorem firstLoop_eq (counts : Counts) (pcts : List Double) :
    firstLoop counts pcts =
      exactBuckets counts.val.sum (counts.val.zip kBucketValues) ⟨pcts, 0, .fin 0, 0, [], []⟩ := by
  have htotal : Id.run (counts.val.foldlM (fun a b => pure (a + b)) 0) = counts.val.sum := by
    rw [List.idRun_foldlM, List.sum_eq_foldl]
    rfl
  rw [← htotal]
  rfl

/-! The loops read the percentages off the polyline of the cumulative percentages. -/

def points (total : ℤ) : ℤ → List (ℤ × ℤ) → List (Point ℚ)
  | _, [] => []
  | prev, (count, bound) :: buckets =>
    ⟨100 * (prev + count : ℤ) / total, bound⟩ :: points total (prev + count) buckets

def Cursors.point (total : ℤ) (s : Cursors) : Point ℚ := ⟨100 * s.prev / total, s.prevB⟩

def reading (p : ℚ) (a b : Point ℚ) : Double :=
  (.fin p - .fin a.level) / (.fin b.level - .fin a.level) * .fin (b.value - a.value) +
    .fin a.value

def divisor (_ : ℚ) (a b : Point ℚ) : Double := .fin b.level - .fin a.level

theorem reading_eq {p : ℚ} {a b : Point ℚ} (h : a.level < b.level) :
    reading p a b = .fin (interpolate p a b) := by
  have hne : b.level - a.level ≠ 0 := (sub_pos.mpr h).ne'
  unfold reading interpolate
  simp [hne]

/-- What the inner loop makes of the percentages up to the point `b`. -/
def Cursors.take (s : Cursors) (ps : List ℚ) (a b : Point ℚ) : Cursors :=
  { s with
    pending := (ps.dropWhile (· ≤ b.level)).map .fin
    results := s.results ++ (ps.takeWhile (· ≤ b.level)).map (reading · a b)
    divisors := s.divisors ++ (ps.takeWhile (· ≤ b.level)).map (divisor · a b) }

theorem fillWhile_eq {a b : Point ℚ} {bound : ℤ} {ps : List ℚ} {s : Cursors}
    (hpending : s.pending = ps.map .fin) (hlevel : s.prevP = .fin a.level)
    (hvalue : (s.prevB : ℚ) = a.value) (hbound : (bound : ℚ) = b.value) :
    fillWhile (fun pct => decide (pct ≤ .fin b.level)) (.fin b.level) bound (ps.map .fin) s =
      s.take ps a b := by
  induction ps generalizing s with
  | nil =>
    rw [List.map_nil, fillWhile, Cursors.take, List.dropWhile_nil, ← hpending]
    simp
  | cons p ps ih =>
    rw [List.map_cons, fillWhile]
    by_cases hp : p ≤ b.level
    · have hfill := @ih (s.fill (.fin b.level) bound (.fin p) (ps.map .fin)) rfl hlevel hvalue
      rw [if_pos (by simpa using hp), hfill]
      simp [Cursors.take, Cursors.fill, hp, reading, divisor, hlevel, hvalue, hbound]
    · rw [if_neg (by simpa using hp)]
      simp only [Cursors.take, List.dropWhile_cons, List.takeWhile_cons, hp, decide_false,
        Bool.false_eq_true, if_false, ← hpending, List.map_nil, List.append_nil]

def Cursors.next (total : ℤ) (s : Cursors) (count bound : ℤ) : Point ℚ :=
  ⟨100 * (s.prev + count : ℤ) / total, bound⟩

def Cursors.advance (total : ℤ) (s : Cursors) (ps : List ℚ) (count bound : ℤ) : Cursors :=
  { s.take ps (s.point total) (s.next total count bound) with
    prev := s.prev + count
    prevP := .fin (s.next total count bound).level
    prevB := bound }

theorem exactBuckets_cons {total : ℤ} (htotal : 0 < total) (buckets : List (ℤ × ℤ)) {ps : List ℚ}
    {s : Cursors} (hpending : s.pending = ps.map .fin)
    (hlevel : s.prevP = .fin (s.point total).level) (count bound : ℤ) :
    exactBuckets total ((count, bound) :: buckets) s =
      if (s.advance total ps count bound).pending = [] then
        s.take ps (s.point total) (s.next total count bound)
      else exactBuckets total buckets (s.advance total ps count bound) := by
  have hnextP : (.fin (100 * (s.prev + count : ℤ)) / .fin total : Double) =
      .fin (s.next total count bound).level := by
    apply Double.fin_div_fin
    exact_mod_cast htotal.ne'
  have hfill := @fillWhile_eq (s.point total) (s.next total count bound) bound ps s hpending hlevel
    rfl rfl
  rw [exactBuckets, fillBuckets_cons (m := Id) rfl]
  simp only [hnextP, hpending, hfill, apply_ite Id.run, Id.run_pure]
  rfl

/-- Every percentage gets what the polyline of the cumulative percentages has for it. -/
theorem exactBuckets_spec {total : ℤ} (htotal : 0 < total) {buckets : List (ℤ × ℤ)} {ps : List ℚ}
    {s : Cursors} (hps : ps.Pairwise (· ≤ ·)) (hpending : s.pending = ps.map .fin)
    (hlevel : s.prevP = .fin (s.point total).level)
    (hreach : ∀ p ∈ ps, ∃ c ∈ points total s.prev buckets, p ≤ c.level) :
    (exactBuckets total buckets s).pending = [] ∧
      (exactBuckets total buckets s).results = s.results ++
        ps.map (along reading 0 (s.point total) (points total s.prev buckets)) ∧
      (exactBuckets total buckets s).divisors = s.divisors ++
        ps.map (along divisor 0 (s.point total) (points total s.prev buckets)) := by
  induction buckets generalizing ps s with
  | nil =>
    obtain rfl : ps = [] := by
      rw [List.eq_nil_iff_forall_not_mem]
      intro p hp
      obtain ⟨c, hc, -⟩ := hreach p hp
      cases hc
    simp [exactBuckets, fillBuckets, hpending]
  | cons bucket buckets ih =>
    obtain ⟨count, bound⟩ := bucket
    have hpoints : points total s.prev ((count, bound) :: buckets) =
      s.next total count bound :: points total (s.prev + count) buckets := rfl
    rw [hpoints, map_along_cons _ _ _ _ _ hps, map_along_cons _ _ _ _ _ hps,
      exactBuckets_cons htotal buckets hpending hlevel]
    by_cases hdone : (s.advance total ps count bound).pending = []
    · rw [if_pos hdone, List.map_eq_nil_iff.mp hdone, List.map_nil, List.map_nil, List.append_nil,
        List.append_nil]
      exact ⟨hdone, rfl, rfl⟩
    · rw [if_neg hdone]
      have hrest := hps.sublist (List.dropWhile_sublist (· ≤ (s.next total count bound).level))
      have hreach' : ∀ p ∈ ps.dropWhile (· ≤ (s.next total count bound).level),
          ∃ c ∈ points total (s.prev + count) buckets, p ≤ c.level := by
        intro p hp
        obtain ⟨c, hc, hle⟩ := hreach p ((List.dropWhile_sublist _).mem hp)
        rw [hpoints] at hc
        cases hc with
        | head => exact absurd hle (not_le.mpr (lt_of_mem_dropWhile hps hp))
        | tail _ hc => exact ⟨c, hc, hle⟩
      obtain ⟨hpending', hresults, hdivisors⟩ :=
        @ih _ (s.advance total ps count bound) hrest rfl rfl hreach'
      exact ⟨hpending', hresults.trans (List.append_assoc _ _ _),
        hdivisors.trans (List.append_assoc _ _ _)⟩

/-! The polyline of an array of counts. -/

def cumulativePercentage (counts : Counts) (i : ℕ) : ℚ :=
  100 * ((counts.val.take (i + 1)).sum : ℤ) / (counts.val.sum : ℤ)

def origin : Point ℚ := ⟨0, 0⟩

def curve (counts : Counts) : List (Point ℚ) :=
  points counts.val.sum 0 (counts.val.zip kBucketValues)

theorem points_getElem? (total prev : ℤ) {counts bounds : List ℤ}
    (hlength : counts.length = bounds.length) (i : ℕ) :
    (points total prev (counts.zip bounds))[i]? =
      bounds[i]?.map fun bound => ⟨100 * (prev + (counts.take (i + 1)).sum : ℤ) / total, bound⟩ := by
  induction counts generalizing prev bounds i with
  | nil =>
    rw [List.length_eq_zero_iff.mp hlength.symm]
    rfl
  | cons count counts ih =>
    cases bounds with
    | nil => cases hlength
    | cons bound bounds =>
      cases i with
      | zero => simp [points]
      | succ i =>
        rw [List.zip_cons_cons, points, List.getElem?_cons_succ, List.getElem?_cons_succ,
          ih _ (Nat.succ.inj hlength), List.take_succ_cons, List.sum_cons, add_assoc]

theorem curve_getElem? (counts : Counts) (i : ℕ) :
    (curve counts)[i]? =
      kBucketValues[i]?.map fun bound => ⟨cumulativePercentage counts i, bound⟩ := by
  unfold curve cumulativePercentage
  rw [points_getElem? _ _ (counts.2.trans length_kBucketValues.symm)]
  simp only [zero_add]

theorem curve_eq_some {counts : Counts} {i : ℕ} {c : Point ℚ} :
    (curve counts)[i]? = some c ↔
      ∃ bound : ℤ, Get i = .ok bound ∧ ⟨cumulativePercentage counts i, bound⟩ = c := by
  rw [curve_getElem?, Option.map_eq_some_iff]
  exact exists_congr fun bound => and_congr_left' at_eq_ok_iff.symm

theorem kBucketValues_pos : ∀ bound ∈ kBucketValues, 0 < bound := by
  rw [kBucketValues_eq]
  decide +kernel

theorem curve_values_ascend (counts : Counts) :
    (origin :: curve counts).Pairwise fun b c => b.value < c.value := by
  have hvalues : (curve counts).map Point.value = kBucketValues.map fun bound : ℤ => (bound : ℚ) := by
    apply List.ext_getElem?
    intro i
    rw [List.getElem?_map, List.getElem?_map, curve_getElem?, Option.map_map]
    rfl
  have hpairwise : ((origin :: curve counts).map Point.value).Pairwise (· < ·) := by
    rw [List.map_cons, hvalues, List.pairwise_cons, List.pairwise_map]
    constructor
    · intro value hvalue
      obtain ⟨bound, hbound, rfl⟩ := List.mem_map.mp hvalue
      exact Int.cast_pos.mpr (kBucketValues_pos bound hbound)
    · exact kBucketValues_ascending.imp Int.cast_lt.mpr
  exact List.pairwise_map.mp hpairwise

theorem exists_curve_hundred {counts : Counts} (htotal : 0 < counts.val.sum) :
    ∃ c ∈ curve counts, c.level = 100 := by
  have hlast : kBucketValues[275]? = some int64_max := by
    rw [kBucketValues_eq]
    decide +kernel
  have hcurve := curve_getElem? counts 275
  rw [hlast] at hcurve
  refine ⟨_, List.mem_of_getElem? hcurve, ?_⟩
  have hne : ((counts.val.sum : ℤ) : ℚ) ≠ 0 := by exact_mod_cast htotal.ne'
  unfold cumulativePercentage
  rw [List.take_of_length_le (show counts.val.length ≤ 275 + 1 from counts.2.le)]
  exact mul_div_cancel_right₀ 100 hne

/-- With percentages up to 100 the trailing loop has nothing to do. -/
theorem run_spec {counts : Counts} (htotal : 0 < counts.val.sum) {pcts : List ℚ}
    (hpcts : pcts.Pairwise (· ≤ ·)) (hle : ∀ p ∈ pcts, p ≤ 100) :
    (firstLoop counts (pcts.map .fin)).pending = [] ∧
      Percentiles counts (pcts.map .fin) = pcts.map (along reading 0 origin (curve counts)) ∧
      (trailingLoop (firstLoop counts (pcts.map .fin))).divisors =
        pcts.map (along divisor 0 origin (curve counts)) := by
  have horigin : Cursors.point counts.val.sum ⟨pcts.map .fin, 0, .fin 0, 0, [], []⟩ = origin := by
    simp [Cursors.point, origin]
  have hreach : ∀ p ∈ pcts, ∃ c ∈ curve counts, p ≤ c.level := by
    intro p hp
    obtain ⟨c, hc, hlevel⟩ := exists_curve_hundred htotal
    exact ⟨c, hc, (hle p hp).trans hlevel.ge⟩
  obtain ⟨hpending, hresults, hdivisors⟩ := @exactBuckets_spec _ htotal
    (counts.val.zip kBucketValues) _ ⟨pcts.map .fin, 0, .fin 0, 0, [], []⟩ hpcts rfl
    (by rw [horigin]; rfl) hreach
  rw [← firstLoop_eq] at hpending hresults hdivisors
  rw [horigin] at hresults hdivisors
  have htrailing : trailingLoop (firstLoop counts (pcts.map .fin)) =
      firstLoop counts (pcts.map .fin) := by
    rw [trailingLoop, hpending, fillWhile]
  rw [Percentiles, htrailing]
  exact ⟨hpending, hresults, hdivisors⟩

theorem segment_isSome_of_le {counts : Counts} (htotal : 0 < counts.val.sum) {p : ℚ}
    (hp : p ≤ 100) : ∃ s t, segment p origin (curve counts) = some (s, t) := by
  obtain ⟨c, hc, hlevel⟩ := exists_curve_hundred htotal
  exact segment_isSome hc (hp.trans hlevel.ge)

/-- The first bucket whose cumulative percentage reaches the percentage. -/
def FirstReaching (counts : Counts) (p : ℚ) (i : ℕ) : Prop :=
  p ≤ cumulativePercentage counts i ∧ ∀ k < i, cumulativePercentage counts k < p

/-- Where the bucket `i` begins. -/
def lowerBound : ℕ → Except Fault ℤ
  | 0 => .ok 0
  | i + 1 => Get i

structure InFirstReaching (counts : Counts) (p r : ℚ) (i : ℕ) (lo hi : ℤ) : Prop where
  reaching : FirstReaching counts p i
  lower : lowerBound i = .ok lo
  upper : Get i = .ok hi
  lt : lo < r
  le : r ≤ hi

theorem interpolate_inFirstReaching {counts : Counts} {p : ℚ} (hp : 0 < p) {s t : Point ℚ}
    (h : segment p origin (curve counts) = some (s, t)) :
    ∃ i lo hi, InFirstReaching counts p (interpolate p s t) i lo hi := by
  have hlevel := level_lt_of_segment h hp
  have hvalue := value_lt_of_segment (curve_values_ascend counts) h
  obtain ⟨i, hs, ht, hpt, hbefore⟩ := segment_spec h
  have hlt := lt_interpolate hlevel hpt hvalue
  have hle := interpolate_le hlevel hpt hvalue.le
  obtain ⟨hi, hupper, rfl⟩ := curve_eq_some.mp ht
  have hreaching : FirstReaching counts p i := by
    refine ⟨hpt, fun k hk => ?_⟩
    obtain ⟨hlength, -⟩ := List.getElem?_eq_some_iff.mp (at_eq_ok_iff.mp hupper)
    exact hbefore k ⟨cumulativePercentage counts k, _⟩ hk (curve_eq_some.mpr
      ⟨_, at_eq_ok_iff.mpr (List.getElem?_eq_getElem (hk.trans hlength)), rfl⟩)
  cases i with
  | zero =>
    obtain rfl : origin = s := Option.some.inj hs
    refine ⟨0, 0, hi, hreaching, rfl, hupper, ?_, hle⟩
    rw [Int.cast_zero]
    exact hlt
  | succ i =>
    obtain ⟨lo, hlower, rfl⟩ := curve_eq_some.mp hs
    exact ⟨i + 1, lo, hi, hreaching, hlower, hupper, hlt, hle⟩

/-- Every percentage is answered by the first loop, in the first bucket that reaches it, and
the answers are in the order of the percentages. -/
theorem Percentiles_interpolates {counts : Counts} (htotal : 0 < counts.val.sum)
    {pcts : List ℚ} (hpcts : pcts.Pairwise (· ≤ ·)) (hrange : ∀ p ∈ pcts, 0 < p ∧ p ≤ 100) :
    (firstLoop counts (pcts.map .fin)).pending = [] ∧
      ∃ results : List ℚ, Percentiles counts (pcts.map .fin) = results.map .fin ∧
        List.Forall₂ (fun p r => ∃ i lo hi, InFirstReaching counts p r i lo hi) pcts results ∧
        results.Pairwise (· ≤ ·) := by
  obtain ⟨hpending, hresults, -⟩ := run_spec htotal hpcts fun p hp => (hrange p hp).2
  refine ⟨hpending, pcts.map (along interpolate 0 origin (curve counts)), ?_, ?_, ?_⟩
  · rw [hresults, List.map_map]
    apply List.map_congr_left
    intro p hp
    obtain ⟨s, t, hst⟩ := segment_isSome_of_le htotal (hrange p hp).2
    have hlevel := level_lt_of_segment hst (hrange p hp).1
    obtain ⟨-, -, -, hpt, -⟩ := segment_spec hst
    rw [Function.comp_apply, along_eq hst, along_eq hst]
    exact reading_eq (hlevel.trans_le hpt)
  · rw [List.forall₂_map_right_iff, List.forall₂_same]
    intro p hp
    obtain ⟨s, t, hst⟩ := segment_isSome_of_le htotal (hrange p hp).2
    rw [along_eq hst]
    exact interpolate_inFirstReaching (hrange p hp).1 hst
  · rw [List.pairwise_map]
    apply hpcts.imp_of_mem
    intro p q hp hq hpq
    obtain ⟨s, t, hst⟩ := segment_isSome_of_le htotal (hrange p hp).2
    obtain ⟨s', t', hst'⟩ := segment_isSome_of_le htotal (hrange q hq).2
    rw [along_eq hst, along_eq hst']
    exact interpolate_segment_mono (curve_values_ascend counts) (hrange p hp).1 hpq hst hst'

def fourSamples : Counts :=
  ⟨[1, 0, 3] ++ List.replicate 273 0, by rw [List.length_append, List.length_replicate]; rfl⟩

theorem fourSamples_sum : fourSamples.val.sum = 4 := by
  unfold fourSamples
  rw [List.sum_append, List.sum_replicate]
  rfl

theorem Percentiles_interpolates_fourSamples :
    (firstLoop fourSamples ([25, 50].map .fin)).pending = [] ∧
      ∃ results : List ℚ, Percentiles fourSamples ([25, 50].map .fin) = results.map .fin ∧
        List.Forall₂ (fun p r => ∃ i lo hi, InFirstReaching fourSamples p r i lo hi) [25, 50]
          results ∧
        results.Pairwise (· ≤ ·) := by
  apply Percentiles_interpolates
  · rw [fourSamples_sum]
    omega
  · simp
    norm_num
  · simp
    norm_num

/-! The sums of the source. -/

theorem foldlM_plus_int64 {counts : List ℤ} (hcounts : ∀ count ∈ counts, 0 ≤ count) {total : ℤ}
    (h0 : 0 ≤ total) (hlt : total < 2 ^ 63) :
    counts.foldlM plus_int64 total =
      if total + counts.sum < 2 ^ 63 then .ok (total + counts.sum) else .error .undefined := by
  induction counts generalizing total with
  | nil =>
    rw [List.sum_nil, add_zero, if_pos hlt]
    rfl
  | cons count counts ih =>
    obtain ⟨hcount, hrest⟩ := List.forall_mem_cons.mp hcounts
    have hsum : 0 ≤ counts.sum := List.sum_nonneg hrest
    rw [List.foldlM_cons, List.sum_cons, ← add_assoc]
    by_cases hint : total + count < 2 ^ 63
    · have hplus : plus_int64 total count = .ok (total + count) := if_pos ⟨by omega, hint⟩
      rw [hplus]
      exact ih hrest (by omega) hint
    · have hplus : plus_int64 total count = .error .undefined := if_neg fun h => hint h.2
      rw [hplus, if_neg (by omega)]
      rfl

/-- Without an overflow the sums are exact. -/
theorem fillBuckets_plus_int64 (total : ℤ) {buckets : List (ℤ × ℤ)}
    (hcounts : ∀ bucket ∈ buckets, 0 ≤ bucket.1) {s : Cursors} (h0 : 0 ≤ s.prev)
    (hlt : s.prev + (buckets.map Prod.fst).sum < 2 ^ 63) :
    fillBuckets plus_int64 total buckets s = .ok (exactBuckets total buckets s) := by
  induction buckets generalizing s with
  | nil => rfl
  | cons bucket buckets ih =>
    obtain ⟨count, nextB⟩ := bucket
    obtain ⟨hcount, hrest⟩ := List.forall_mem_cons.mp hcounts
    have hsum : 0 ≤ (buckets.map Prod.fst).sum := List.sum_nonneg (by simpa using hrest)
    rw [List.map_cons, List.sum_cons] at hlt
    have hplus : plus_int64 s.prev count = .ok (s.prev + count) := if_pos ⟨by omega, by omega⟩
    rw [exactBuckets, fillBuckets_cons hplus, fillBuckets_cons (m := Id) rfl]
    dsimp only
    split
    · rfl
    · exact ih hrest (add_nonneg h0 hcount) (by dsimp only; omega)

/-- On counts that are not negative the source sums up exactly, or overflows. -/
theorem fillFirst_plus_int64 {counts : Counts} (hcounts : ∀ count ∈ counts.val, 0 ≤ count)
    (pcts : List Double) :
    fillFirst plus_int64 counts pcts =
      if counts.val.sum < 2 ^ 63 then .ok (firstLoop counts pcts) else .error .undefined := by
  rw [fillFirst, foldlM_plus_int64 hcounts le_rfl (by omega), zero_add]
  split
  · rename_i hlt
    have hfst : (counts.val.zip kBucketValues).map Prod.fst = counts.val :=
      List.map_fst_zip (counts.2.trans length_kBucketValues.symm).le
    rw [firstLoop_eq]
    apply fillBuckets_plus_int64
    · intro bucket hbucket
      exact hcounts _ (List.of_mem_zip hbucket).1
    · exact le_rfl
    · rw [hfst, zero_add]
      exact hlt
  · rfl

theorem int64_run_eq {counts : Counts} (hcounts : ∀ count ∈ counts.val, 0 ≤ count)
    (pcts : List Double) :
    int64_run counts pcts =
      if counts.val.sum < 2 ^ 63 then .ok (trailingLoop (firstLoop counts pcts))
      else .error .undefined := by
  rw [int64_run, fillFirst_plus_int64 hcounts]
  split <;> rfl

/-! Divisions. -/

/-- After both loops. -/
structure Cursors.NeverZero (s : Cursors) : Prop where
  divisors : ∀ d ∈ s.divisors, d ≠ 0
  results : ∀ r ∈ s.results, r.isnan = false

/-- Without an overflow, and without a division by zero. -/
def NeverDividesByZero (counts : Counts) (pcts : List Double) : Prop :=
  ∃ s, int64_run counts pcts = .ok s ∧ s.NeverZero

/-- The first bucket is not empty, or the first percentage is above 0. -/
def StartsAboveZero (counts : Counts) (pcts : List ℚ) : Prop :=
  ∀ count p, counts.val.head? = some count → pcts.head? = some p → 0 < count ∨ 0 < p

theorem StartsAboveZero.of_mem {counts : Counts} {pcts : List ℚ} (h : StartsAboveZero counts pcts)
    {count : ℤ} (hcount : counts.val.head? = some count) (hpcts : pcts.Pairwise (· ≤ ·)) {p : ℚ}
    (hp : p ∈ pcts) : 0 < count ∨ 0 < p := by
  cases pcts with
  | nil => cases hp
  | cons first pcts =>
    have hle : first ≤ p := by
      cases hp with
      | head => exact le_rfl
      | tail _ hp => exact (List.pairwise_cons.mp hpcts).1 p hp
    exact (h count first hcount rfl).imp_right fun hfirst => hfirst.trans_le hle

theorem curve_eq_cons (counts : Counts) :
    ∃ count rest, counts.val.head? = some count ∧
      curve counts = ⟨100 * count / counts.val.sum, 1⟩ :: rest := by
  have hfirst : kBucketValues[0]? = some 1 := by
    rw [kBucketValues_eq]
    decide +kernel
  have hcurve := curve_getElem? counts 0
  rw [hfirst, Option.map_some] at hcurve
  obtain ⟨count, hcount⟩ : ∃ count, counts.val.head? = some count := by
    apply Option.isSome_iff_exists.mp
    rw [List.isSome_head?, ← List.length_pos_iff, counts.2]
    decide
  obtain ⟨others, hothers⟩ := List.head?_eq_some_iff.mp hcount
  have hlevel : cumulativePercentage counts 0 = 100 * count / counts.val.sum := by
    unfold cumulativePercentage
    rw [hothers]
    simp
  rw [hlevel, ← List.head?_eq_getElem?] at hcurve
  obtain ⟨rest, hrest⟩ := List.head?_eq_some_iff.mp hcurve
  exact ⟨count, rest, hcount, by simpa using hrest⟩

/-- The segment of a percentage above 0 goes up, and so does the first one unless the first
bucket is empty. -/
theorem segment_levels {counts : Counts} {count : ℤ} (hcount : counts.val.head? = some count)
    (hpos : 0 ≤ count) (htotal : 0 < counts.val.sum) {p : ℚ} {s t : Point ℚ}
    (h : segment p origin (curve counts) = some (s, t)) :
    if 0 < count ∨ 0 < p then s.level < t.level else s.level = t.level := by
  by_cases hlt : 0 < p
  · obtain ⟨-, -, -, hpt, -⟩ := segment_spec h
    rw [if_pos (Or.inr hlt)]
    exact (level_lt_of_segment h hlt).trans_le hpt
  · obtain ⟨count', rest, hcount', hcurve⟩ := curve_eq_cons counts
    obtain rfl : count = count' := Option.some.inj (hcount.symm.trans hcount')
    have htotal' : (0 : ℚ) < counts.val.sum := Int.cast_pos.mpr htotal
    have hlevel : p ≤ 100 * count / counts.val.sum := by
      have hcast : (0 : ℚ) ≤ count := Int.cast_nonneg hpos
      exact (not_lt.mp hlt).trans (by positivity)
    rw [hcurve, Polyline.segment, if_pos hlevel, Option.some.injEq, Prod.mk.injEq] at h
    obtain ⟨rfl, rfl⟩ := h
    split_ifs with hcases
    · have hcast : (0 : ℚ) < count := Int.cast_pos.mpr (hcases.resolve_right hlt)
      show (0 : ℚ) < 100 * count / counts.val.sum
      positivity
    · obtain rfl : 0 = count := le_antisymm hpos (not_lt.mp fun h => hcases (Or.inl h))
      simp [origin]

theorem neverZero_iff {counts : Counts} (hcounts : ∀ count ∈ counts.val, 0 ≤ count)
    (htotal : 0 < counts.val.sum) {pcts : List ℚ} (hpcts : pcts.Pairwise (· ≤ ·))
    (hrange : ∀ p ∈ pcts, 0 ≤ p ∧ p ≤ 100) :
    (trailingLoop (firstLoop counts (pcts.map .fin))).NeverZero ↔ StartsAboveZero counts pcts := by
  obtain ⟨-, hresults, hdivisors⟩ := run_spec htotal hpcts fun p hp => (hrange p hp).2
  constructor
  · intro h count p hcount hp
    have hmem := List.mem_of_mem_head? hp
    obtain ⟨s, t, hst⟩ := segment_isSome_of_le htotal (hrange p hmem).2
    have hlevels := segment_levels hcount (hcounts count (List.mem_of_mem_head? hcount)) htotal
      hst
    by_contra hzero
    rw [if_neg hzero] at hlevels
    refine h.divisors (divisor p s t) ?_ ?_
    · rw [hdivisors]
      exact List.mem_map.mpr ⟨p, hmem, along_eq hst⟩
    · unfold divisor
      rw [hlevels, Double.fin_sub_fin, sub_self]
      rfl
  · intro h
    obtain ⟨count, -, hcount, -⟩ := curve_eq_cons counts
    have hlevels : ∀ p ∈ pcts, ∃ s t, segment p origin (curve counts) = some (s, t) ∧
        s.level < t.level := by
      intro p hp
      obtain ⟨s, t, hst⟩ := segment_isSome_of_le htotal (hrange p hp).2
      refine ⟨s, t, hst, ?_⟩
      have hlevels := segment_levels hcount (hcounts count (List.mem_of_mem_head? hcount)) htotal
        hst
      rwa [if_pos (h.of_mem hcount hpcts hp)] at hlevels
    constructor
    · rw [hdivisors]
      intro d hd
      obtain ⟨p, hp, rfl⟩ := List.mem_map.mp hd
      obtain ⟨s, t, hst, hlt⟩ := hlevels p hp
      rw [along_eq hst, divisor, Double.fin_sub_fin, Double.zero_def, ne_eq, Double.fin.injEq]
      exact (sub_pos.mpr hlt).ne'
    · intro r hr
      rw [← Percentiles, hresults] at hr
      obtain ⟨p, hp, rfl⟩ := List.mem_map.mp hr
      obtain ⟨s, t, hst, hlt⟩ := hlevels p hp
      rw [along_eq hst, reading_eq hlt]
      rfl

/-- The percentages are answered without a division by zero exactly when the sum of the counts
is an `int64_t` and the first percentage is above 0 or the first bucket not empty. -/
theorem neverDividesByZero_iff {counts : Counts} (hcounts : ∀ count ∈ counts.val, 0 ≤ count)
    (htotal : 0 < counts.val.sum) {pcts : List ℚ} (hpcts : pcts.Pairwise (· ≤ ·))
    (hrange : ∀ p ∈ pcts, 0 ≤ p ∧ p ≤ 100) :
    NeverDividesByZero counts (pcts.map .fin) ↔
      counts.val.sum < 2 ^ 63 ∧ StartsAboveZero counts pcts := by
  rw [NeverDividesByZero, int64_run_eq hcounts, ← neverZero_iff hcounts htotal hpcts hrange]
  constructor
  · intro h
    obtain ⟨s, hrun, hsafe⟩ := h
    split_ifs at hrun with hlt
    obtain rfl := Except.ok.inj hrun
    exact ⟨hlt, hsafe⟩
  · intro hgiven
    rcases hgiven with ⟨hlt, hsafe⟩
    exact ⟨_, if_pos hlt, hsafe⟩

theorem neverDividesByZero_fourSamples :
    NeverDividesByZero fourSamples ([0, 50].map .fin) ↔
      fourSamples.val.sum < 2 ^ 63 ∧ StartsAboveZero fourSamples [0, 50] := by
  apply neverDividesByZero_iff
  · intro count hcount
    unfold fourSamples at hcount
    rcases List.mem_append.mp hcount with h | h
    · have hsmall : ∀ count ∈ [1, 0, 3], (0 : ℤ) ≤ count := by decide
      exact hsmall count h
    · exact (List.eq_of_mem_replicate h).ge
  · rw [fourSamples_sum]
    omega
  · simp
  · simp
    norm_num

def oneSample : Counts :=
  ⟨[0, 1] ++ List.replicate 274 0, by rw [List.length_append, List.length_replicate]; rfl⟩

/-- The lowest percentile of a sample of 1 is NaN. -/
theorem Percentiles_of_empty_first_bucket :
    ((∀ count ∈ oneSample.val, 0 ≤ count) ∧ 0 < oneSample.val.sum) ∧
      (int64_run oneSample [.fin 0]).map Cursors.results = .ok [.nan] ∧
      ¬ NeverDividesByZero oneSample [.fin 0] := by
  have hnan : (int64_run oneSample [.fin 0]).map Cursors.results = .ok [.nan] := by
    decide +kernel
  refine ⟨⟨by decide +kernel, by decide +kernel⟩, hnan, ?_⟩
  intro h
  obtain ⟨s, hrun, hsafe⟩ := h
  rw [hrun] at hnan
  have hresults : s.results = [.nan] := Except.ok.inj hnan
  have hresult := hsafe.results .nan (by rw [hresults]; exact List.mem_singleton_self _)
  cases hresult

end percentile_buckets

end AtlasNative
