import AtlasNative.Lib.AssocMap
import AtlasNative.Machine
import AtlasNative.StepNumber
import AtlasNative.Tags

/-!
# The consolidation registry

Values arrive every update step and are reported every reporting step. They are
written under a clock moved back by one update step and read under the real one,
into step numbers that are created on first use and erased after two empty reports.
The offset of the clock and the number of updates per report are values of type `int`.
-/

namespace AtlasNative

open ExactDouble Rolling
set_option autoImplicit false

inductive AggrOp where
  | Add | Max
  deriving DecidableEq

/-- The statistics of counters; the null reference is none of them. -/
def counters : List StrRef :=
  ["count", "totalAmount", "totalTime", "totalOfSquares", "percentile"].map intern_str

def op_for_statistic (stat : Option StrRef) : AggrOp :=
  if stat.any fun s => decide (s ∈ counters) then .Add else .Max

def aggregate_op (id : Id) : AggrOp := op_for_statistic (id.tags_.at_ statistic)

structure ConsolidatedValue where
  is_gauge_ : Bool
  update_multiple_ : ℤ
  v : StepNumber Double
  marked_ : Bool
  deriving DecidableEq

namespace ConsolidatedValue

def kMinValue : Double := Double.lowest

def create (is_gauge : Bool) (update_multiple step_ms now : ℤ) : ConsolidatedValue :=
  ⟨is_gauge, update_multiple, .create (if is_gauge then kMinValue else 0) step_ms now, false⟩

def has_value (c : ConsolidatedValue) (now : ℤ) : Bool :=
  if c.is_gauge_ then decide (kMinValue < c.v.Poll now) else decide (0 < c.v.Poll now)

def value (c : ConsolidatedValue) (now : ℤ) : Double := c.v.Poll now

def update (c : ConsolidatedValue) (now : ℤ) (value : Double) : ConsolidatedValue :=
  if c.is_gauge_ then { c with v := c.v.UpdateCurrentMax now value }
  else { c with v := c.v.Add now (value / .fin c.update_multiple_) }

/-- One entry of a report: polled, then unmarked, or marked when it is empty, or erased
when it was marked before. -/
def report (c : ConsolidatedValue) (now : ℤ) : Option ConsolidatedValue :=
  let polled := { c with v := c.v.RollCount now }
  if c.has_value now then some { polled with marked_ := false }
  else if c.marked_ then none
  else some { polled with marked_ := true }

def record (is_gauge : Bool) (update_multiple step_ms now : ℤ)
    (entry : Option ConsolidatedValue) (value : Double) : Option ConsolidatedValue :=
  some ((entry.getD (.create is_gauge update_multiple step_ms now)).update now value)

end ConsolidatedValue

/-- An entry that an empty report has marked. -/
def marked (entry : Option ConsolidatedValue) : Bool := entry.any fun c => c.marked_

theorem marked_foldl_record (is_gauge : Bool) (m R now : ℤ) (vs : List Double)
    (entry : Option ConsolidatedValue) :
    marked (vs.foldl (ConsolidatedValue.record is_gauge m R now) entry) = marked entry := by
  induction vs generalizing entry with
  | nil => rfl
  | cons v vs ih =>
    rw [List.foldl_cons, ih]
    have hupdate : ∀ c : ConsolidatedValue, (c.update now v).marked_ = c.marked_ := fun c => by
      unfold ConsolidatedValue.update
      split <;> rfl
    cases entry <;> simp [marked, ConsolidatedValue.record, hupdate, ConsolidatedValue.create]

theorem marked_iff (entry : Option ConsolidatedValue) :
    marked entry = true ↔ ∃ c, entry = some c ∧ c.marked_ = true := by
  cases entry <;> simp [marked]

theorem ConsolidatedValue.report_eq_none_iff (c : ConsolidatedValue) (wall : ℤ) :
    c.report wall = none ↔ c.has_value wall = false ∧ c.marked_ = true := by
  by_cases hvalue : c.has_value wall = true <;> by_cases hmarked : c.marked_ = true <;>
    simp [report, hvalue, hmarked]

abbrev ValuesMap := AList fun _ : Id => ConsolidatedValue

structure ConsolidationRegistry where
  update_frequency_ : ℤ
  reporting_frequency_ : ℤ
  my_values : ValuesMap

namespace ConsolidationRegistry

/-- The constructor asserts that the first frequency is a number of seconds and divides the
second one. -/
def create (update_frequency reporting_frequency : ℤ) : ConsolidationRegistry :=
  ⟨update_frequency, reporting_frequency, ∅⟩

/-- What `SetOffset` makes of `-update_frequency_`. -/
def offset (update_frequency : ℤ) : ℤ := wrap 32 (-update_frequency)

/-- What the constructor of an entry makes of the quotient of the frequencies. -/
def multiple (update_frequency reporting_frequency : ℤ) : ℤ :=
  wrap 32 (reporting_frequency.tdiv update_frequency)

/-- The body of the loop in `update_from`, under the clock `now` that was moved back. -/
def update_one (now : ℤ) (reg : ConsolidationRegistry) (m : Measurement) :
    ConsolidationRegistry :=
  if m.value.isnan then reg
  else
    let is_gauge := decide (aggregate_op m.id = AggrOp.Max)
    let update_multiple := multiple reg.update_frequency_ reg.reporting_frequency_
    let my_value :=
      match reg.my_values.lookup m.id with
      | some my_value => my_value
      | none => .create is_gauge update_multiple reg.reporting_frequency_ now
    { reg with my_values := reg.my_values.insert m.id (my_value.update now m.value) }

def update_from (reg : ConsolidationRegistry) (wall : ℤ) (measurements : Measurements) :
    ConsolidationRegistry :=
  measurements.foldl (update_one (wall + offset reg.update_frequency_)) reg

def measurements (reg : ConsolidationRegistry) (wall timestamp : ℤ) : Measurements :=
  reg.my_values.entries.filterMap fun m =>
    if m.2.has_value wall then some ⟨m.1, timestamp, m.2.value wall⟩ else none

/-- The registry that `measurements` leaves behind. -/
def afterMeasurements (reg : ConsolidationRegistry) (wall : ℤ) : ConsolidationRegistry :=
  { reg with my_values := AssocMap.updateAll (fun _ my_value => my_value.report wall) reg.my_values }

theorem filter_measurements (reg : ConsolidationRegistry) (id : Id) (wall timestamp : ℤ) :
    (reg.measurements wall timestamp).filter (·.id = id) =
      match reg.my_values.lookup id with
      | some c => if c.has_value wall then [⟨id, timestamp, c.value wall⟩] else []
      | none => [] := by
  have hentries : reg.measurements wall timestamp = reg.my_values.entries.flatMap fun e =>
      if e.2.has_value wall then [⟨e.1, timestamp, e.2.value wall⟩] else [] := by
    rw [measurements, List.filterMap_eq_flatMap_toList]
    congr 1
    funext e
    split <;> rfl
  have hfilter := AssocMap.filter_flatMap_entries reg.my_values
    (fun id c => if c.has_value wall then [⟨id, timestamp, c.value wall⟩] else [])
    (fun x : Measurement => x.id)
    (fun k c x hx => by
      split at hx
      · rw [List.mem_singleton.mp hx]
      · exact absurd hx List.not_mem_nil) id
  rw [hentries, hfilter]
  cases reg.my_values.lookup id <;> rfl

theorem nodup_measurements (reg : ConsolidationRegistry) (wall timestamp : ℤ) :
    ((reg.measurements wall timestamp).map (·.id)).Nodup := by
  have hkeys := List.nodupKeys_iff_pairwise.mp reg.my_values.nodupKeys
  rw [List.Nodup, List.pairwise_map, measurements]
  apply List.Pairwise.filterMap _ _ hkeys
  intro e e' hne x hx x' hx'
  obtain ⟨_, hx⟩ := Option.ite_none_right_eq_some.mp hx
  obtain ⟨_, hx'⟩ := Option.ite_none_right_eq_some.mp hx'
  rwa [← Option.some.inj hx, ← Option.some.inj hx']

theorem update_one_frequencies (now : ℤ) (reg : ConsolidationRegistry) (m : Measurement) :
    (update_one now reg m).update_frequency_ = reg.update_frequency_ ∧
      (update_one now reg m).reporting_frequency_ = reg.reporting_frequency_ := by
  unfold update_one
  split <;> exact ⟨rfl, rfl⟩

theorem foldl_update_one_frequencies (now : ℤ) (reg : ConsolidationRegistry)
    (measurements : Measurements) :
    (measurements.foldl (update_one now) reg).update_frequency_ = reg.update_frequency_ ∧
      (measurements.foldl (update_one now) reg).reporting_frequency_ =
        reg.reporting_frequency_ := by
  induction measurements generalizing reg with
  | nil => exact ⟨rfl, rfl⟩
  | cons m measurements ih =>
    have hone := update_one_frequencies now reg m
    have hrest := ih (update_one now reg m)
    exact ⟨hrest.1.trans hone.1, hrest.2.trans hone.2⟩

theorem update_from_frequencies (reg : ConsolidationRegistry) (wall : ℤ)
    (measurements : Measurements) :
    (reg.update_from wall measurements).update_frequency_ = reg.update_frequency_ ∧
      (reg.update_from wall measurements).reporting_frequency_ = reg.reporting_frequency_ :=
  foldl_update_one_frequencies _ reg measurements

/-- The values that an update passes for an id, NaN left out. -/
def valuesFor (id : Id) (measurements : Measurements) : List Double :=
  (measurements.filter fun m => m.id = id && !m.value.isnan).map (·.value)

theorem valuesFor_eq (id : Id) (measurements : Measurements) :
    valuesFor id measurements =
      ((measurements.filter (·.id = id)).filter (!·.value.isnan)).map (·.value) := by
  rw [valuesFor, List.filter_filter]
  congr 2
  funext m
  exact Bool.and_comm _ _

theorem valuesFor_cons (id : Id) (m : Measurement) (measurements : Measurements) :
    valuesFor id (m :: measurements) =
      if m.id = id ∧ m.value.isnan = false then m.value :: valuesFor id measurements
      else valuesFor id measurements := by
  by_cases hid : m.id = id <;> by_cases hnan : m.value.isnan = false <;>
    simp [valuesFor, hid, hnan]

theorem isnan_of_mem_valuesFor {id : Id} {measurements : Measurements} {v : Double}
    (hv : v ∈ valuesFor id measurements) : v.isnan = false := by
  obtain ⟨m, hm, rfl⟩ := List.mem_map.mp hv
  have hm := (List.mem_filter.mp hm).2
  simp only [Bool.and_eq_true, Bool.not_eq_true'] at hm
  exact hm.2

theorem lookup_foldl_update_one (now : ℤ) (reg : ConsolidationRegistry) (id : Id)
    (measurements : Measurements) :
    (measurements.foldl (update_one now) reg).my_values.lookup id =
      (valuesFor id measurements).foldl
        (ConsolidatedValue.record (decide (aggregate_op id = AggrOp.Max))
          (multiple reg.update_frequency_ reg.reporting_frequency_) reg.reporting_frequency_ now)
        (reg.my_values.lookup id) := by
  induction measurements generalizing reg with
  | nil => rfl
  | cons m measurements ih =>
    have hkeep := update_one_frequencies now reg m
    rw [List.foldl_cons, ih, hkeep.1, hkeep.2, valuesFor_cons]
    unfold update_one
    by_cases hnan : m.value.isnan = true
    · simp [hnan]
    · by_cases hid : m.id = id
      · subst hid
        rw [if_neg hnan, if_pos ⟨rfl, Bool.eq_false_iff.mpr hnan⟩, List.foldl_cons,
          AList.lookup_insert]
        cases reg.my_values.lookup m.id <;> rfl
      · rw [if_neg hnan, if_neg (fun h => hid h.1), AList.lookup_insert_ne (Ne.symm hid)]

theorem offset_eq {u : ℤ} (hu : 0 < u) (hoffset : u ≤ 2 ^ 31) : offset u = -u :=
  wrap_eq_self (by omega) (by omega)

theorem multiple_eq {u m : ℤ} (hu : 0 < u) (hm : 0 < m) (hmultiple : m < 2 ^ 31) :
    multiple u (m * u) = m := by
  rw [multiple, Int.mul_tdiv_cancel _ hu.ne', wrap_eq_self (by omega) hmultiple]

/-- With frequencies that fit, values go back by one update step. -/
theorem lookup_update_from {u m : ℤ} (hu : 0 < u) (hoffset : u ≤ 2 ^ 31) (hm : 0 < m)
    (hmultiple : m < 2 ^ 31) {reg : ConsolidationRegistry}
    (hfreq : reg.update_frequency_ = u) (hreporting : reg.reporting_frequency_ = m * u) (id : Id)
    (wall : ℤ) (measurements : Measurements) :
    (reg.update_from wall measurements).my_values.lookup id =
      (valuesFor id measurements).foldl
        (ConsolidatedValue.record (decide (aggregate_op id = AggrOp.Max)) m (m * u) (wall - u))
        (reg.my_values.lookup id) := by
  rw [update_from, lookup_foldl_update_one, hfreq, hreporting, multiple_eq hu hm hmultiple,
    offset_eq hu hoffset, Int.sub_eq_add_neg]

theorem lookup_afterMeasurements (reg : ConsolidationRegistry) (wall : ℤ) (id : Id) :
    (reg.afterMeasurements wall).my_values.lookup id =
      (reg.my_values.lookup id).bind (·.report wall) :=
  AssocMap.lookup_updateAll _ _ _

end ConsolidationRegistry

inductive ConsEvent where
  | update (s : ℤ) (values : Measurements)
  | measure (t : ℤ)

namespace ConsEvent

def time : ConsEvent → ℤ
  | update s _ => s
  | measure t => t

def apply (reg : ConsolidationRegistry) : ConsEvent → ConsolidationRegistry
  | update s values => reg.update_from s values
  | measure t => reg.afterMeasurements t

end ConsEvent

def runCons (reg : ConsolidationRegistry) (events : List ConsEvent) : ConsolidationRegistry :=
  events.foldl ConsEvent.apply reg

theorem runCons_concat (reg : ConsolidationRegistry) (events : List ConsEvent) (e : ConsEvent) :
    runCons reg (events ++ [e]) = e.apply (runCons reg events) := by
  simp [runCons]

theorem runCons_append (reg : ConsolidationRegistry) (events later : List ConsEvent) :
    runCons reg (events ++ later) = runCons (runCons reg events) later :=
  List.foldl_append

theorem runCons_frequencies (reg : ConsolidationRegistry) (events : List ConsEvent) :
    (runCons reg events).update_frequency_ = reg.update_frequency_ ∧
      (runCons reg events).reporting_frequency_ = reg.reporting_frequency_ := by
  induction events using List.reverseRecOn with
  | nil => exact ⟨rfl, rfl⟩
  | append_singleton events e ih =>
    rw [runCons_concat]
    cases e with
    | update s values =>
      have hfold := (runCons reg events).update_from_frequencies s values
      exact ⟨hfold.1.trans ih.1, hfold.2.trans ih.2⟩
    | measure t => exact ih

end AtlasNative
