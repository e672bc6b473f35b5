import AtlasNative.ConsolidationReference

/-!
# Runs of the consolidation registry

The schedule of the main registry: updates and reports at non-decreasing times, a
report in the first update step of a reporting step, and no update within one update
step after it. On such runs every report is the reference.
-/

namespace AtlasNative

open ExactDouble Rolling Grouping ConsolidationRegistry
set_option autoImplicit false

structure Schedule (u R : ℤ) (events : List ConsEvent) : Prop where
  start : ∀ e ∈ events, u ≤ e.time
  ordered : events.Pairwise fun e e' => e.time ≤ e'.time
  aligned : ∀ t, ConsEvent.measure t ∈ events → t % R < u
  spaced : events.Pairwise fun e e' =>
    ∀ t s values, e = .measure t → e' = .update s values → t + u ≤ s

namespace ConsEvent

/-- The reporting step that an event is about: updates belong to the update step before. -/
def step (u R : ℤ) : ConsEvent → ℤ
  | update s _ => (s - u) / R
  | measure t => t / R

/-- The values that an event passes for an id, with their reporting step. -/
def logged (u R : ℤ) (id : Id) : ConsEvent → List (ℤ × Double)
  | update s values => (valuesFor id values).map (Prod.mk ((s - u) / R))
  | measure _ => []

end ConsEvent

def valuesLog (u R : ℤ) (id : Id) (events : List ConsEvent) : List (ℤ × Double) :=
  events.flatMap (ConsEvent.logged u R id)

theorem valuesLog_concat (u R : ℤ) (id : Id) (events : List ConsEvent) (e : ConsEvent) :
    valuesLog u R id (events ++ [e]) = valuesLog u R id events ++ e.logged u R id := by
  simp [valuesLog]

theorem not_nan_of_mem_valuesLog {u R : ℤ} {id : Id} {events : List ConsEvent} {x : ℤ × Double}
    (hx : x ∈ valuesLog u R id events) : x.2.isnan = false := by
  obtain ⟨e, _, hx⟩ := List.mem_flatMap.mp hx
  cases e with
  | update s values =>
    obtain ⟨v, hv, rfl⟩ := List.mem_map.mp hx
    exact isnan_of_mem_valuesFor hv
  | measure t => simp [ConsEvent.logged] at hx

namespace Schedule
variable {u R : ℤ} {events : List ConsEvent} {e : ConsEvent}

theorem of_concat (h : Schedule u R (events ++ [e])) : Schedule u R events where
  start e' he' := h.start e' (List.mem_append_left _ he')
  ordered := (List.pairwise_append.mp h.ordered).1
  aligned t ht := h.aligned t (List.mem_append_left _ ht)
  spaced := (List.pairwise_append.mp h.spaced).1

theorem nil (u R : ℤ) : Schedule u R [] := ⟨by simp, .nil, by simp, .nil⟩

theorem concat_update (hu : 0 < u) (h : Schedule u R events) {s : ℤ} (hs : u ≤ s)
    (hlast : ∀ e ∈ events, e.time + u ≤ s) (values : Measurements) :
    Schedule u R (events ++ [.update s values]) where
  start e he := by
    rcases List.mem_append.mp he with he | he
    · exact h.start e he
    · rw [List.mem_singleton.mp he]
      exact hs
  ordered := by
    refine List.pairwise_append.mpr ⟨h.ordered, List.pairwise_singleton _ _, ?_⟩
    intro e he e' he'
    rw [List.mem_singleton.mp he']
    exact le_trans (le_add_of_nonneg_right hu.le) (hlast e he)
  aligned t ht := h.aligned t (by simpa using ht)
  spaced := by
    refine List.pairwise_append.mpr ⟨h.spaced, List.pairwise_singleton _ _, ?_⟩
    intro e he e' he' t s' values' hmeasure hupdate
    obtain ⟨rfl, rfl⟩ := ConsEvent.update.inj (hupdate.symm.trans (List.mem_singleton.mp he'))
    subst hmeasure
    exact hlast _ he

theorem concat_measure (h : Schedule u R events) {t : ℤ} (ht : u ≤ t)
    (hlast : ∀ e ∈ events, e.time ≤ t) (haligned : t % R < u) :
    Schedule u R (events ++ [.measure t]) where
  start e he := by
    rcases List.mem_append.mp he with he | he
    · exact h.start e he
    · rw [List.mem_singleton.mp he]
      exact ht
  ordered := by
    refine List.pairwise_append.mpr ⟨h.ordered, List.pairwise_singleton _ _, ?_⟩
    intro e he e' he'
    rw [List.mem_singleton.mp he']
    exact hlast e he
  aligned t' ht' := by
    rcases List.mem_append.mp ht' with ht' | ht'
    · exact h.aligned t' ht'
    · rw [ConsEvent.measure.inj (List.mem_singleton.mp ht')]
      exact haligned
  spaced := by
    refine List.pairwise_append.mpr ⟨h.spaced, List.pairwise_singleton _ _, ?_⟩
    intro e he e' he' t' s' values' _ hupdate
    exact absurd (hupdate.symm.trans (List.mem_singleton.mp he')) (by simp)

theorem time_le (h : Schedule u R (events ++ [e])) : ∀ e' ∈ events, e'.time ≤ e.time :=
  fun e' he' => (List.pairwise_append.mp h.ordered).2.2 e' he' e (List.mem_singleton_self e)

theorem step_le_update {s : ℤ} {values : Measurements} (hR : 0 < R)
    (h : Schedule u R (events ++ [.update s values])) :
    ∀ e ∈ events, e.step u R ≤ (s - u) / R := by
  intro e he
  cases e with
  | update s' values' =>
    have hle : s' ≤ s := h.time_le _ he
    exact Int.ediv_le_ediv hR (by omega)
  | measure t =>
    have hspaced := (List.pairwise_append.mp h.spaced).2.2 _ he _ (List.mem_singleton_self _)
    have hle : t + u ≤ s := hspaced t s values rfl rfl
    exact Int.ediv_le_ediv hR (by omega)

theorem update_lt_measure {t s : ℤ} {values : Measurements} (hR : 0 < R)
    (h : Schedule u R (events ++ [.measure t])) (hs : .update s values ∈ events) :
    (s - u) / R < t / R := by
  have hle : s ≤ t := h.time_le _ hs
  have haligned : t % R < u := h.aligned t (by simp)
  have hdiv := Int.emod_add_mul_ediv t R
  apply Int.ediv_lt_of_lt_mul hR
  have hcomm : t / R * R = R * (t / R) := mul_comm _ _
  omega

theorem step_le_measure {t : ℤ} (hR : 0 < R) (h : Schedule u R (events ++ [.measure t])) :
    ∀ e ∈ events, e.step u R ≤ t / R := by
  intro e he
  cases e with
  | update s values => exact (h.update_lt_measure hR he).le
  | measure t' =>
    have hle : t' ≤ t := h.time_le _ he
    exact Int.ediv_le_ediv hR hle

theorem bucket_eq_nil {t k : ℤ} (hR : 0 < R) (h : Schedule u R (events ++ [.measure t]))
    (hk : t / R ≤ k) (id : Id) : bucket k (valuesLog u R id events) = [] := by
  apply bucket_eq_nil_of_lt (n := t / R - 1) _ (by omega)
  intro x hx
  obtain ⟨e, he, hx⟩ := List.mem_flatMap.mp hx
  cases e with
  | update s values =>
    obtain ⟨v, _, rfl⟩ := List.mem_map.mp hx
    have hlt := h.update_lt_measure hR he
    exact Int.le_sub_one_of_lt hlt
  | measure t' => simp [ConsEvent.logged] at hx

end Schedule

/-- What the entry of an id knows about the run so far. The log of the entry lacks what
came before the entry was created: nothing that belongs to a reporting step still to be
reported, and nothing that a report of the latest step would show. -/
structure EntryInv (u m : ℤ) (id : Id) (events : List ConsEvent)
    (entry : Option ConsolidatedValue) (log : List (ℤ × Double)) : Prop where
  holds : ∀ b, 0 ≤ b → (∀ e ∈ events, e.step u (m * u) ≤ b) →
    EntryHolds (aggregate_op id) m (m * u) entry log b
  logged : ∀ x ∈ log, x ∈ valuesLog u (m * u) id events
  open_steps : ∀ k, (∀ t, .measure t ∈ events → t / (m * u) ≤ k) →
    bucket k log = bucket k (valuesLog u (m * u) id events)
  latest_report : ∀ k, (∀ t, .measure t ∈ events → t / (m * u) ≤ k + 1) →
    (aggregate_op id).reference m (bucket k log) =
      (aggregate_op id).reference m (bucket k (valuesLog u (m * u) id events))

namespace EntryInv
variable {u m : ℤ} {id : Id} {events : List ConsEvent} {entry : Option ConsolidatedValue}
  {log : List (ℤ × Double)}

theorem start (h : EntryHolds (aggregate_op id) m (m * u) entry [] 0) :
    EntryInv u m id [] entry [] where
  holds _ hb _ := h.mono hb
  logged := by simp
  open_steps _ _ := rfl
  latest_report _ _ := rfl

theorem not_nan (h : EntryInv u m id events entry log) : ∀ x ∈ log, x.2.isnan = false :=
  fun x hx => not_nan_of_mem_valuesLog (h.logged x hx)

/-- The values of an update go to a step that is still open, as every report was about an
earlier one. -/
theorem update (h : EntryInv u m id events entry log) {s : ℤ} {values : Measurements}
    (hs : (s - u).tdiv (m * u) = (s - u) / (m * u)) (hj0 : 0 ≤ (s - u) / (m * u))
    (hsteps : ∀ e ∈ events, e.step u (m * u) ≤ (s - u) / (m * u)) :
    EntryInv u m id (events ++ [.update s values])
      ((valuesFor id values).foldl
        (ConsolidatedValue.record (decide (aggregate_op id = AggrOp.Max)) m (m * u) (s - u)) entry)
      (log ++ (valuesFor id values).map (Prod.mk ((s - u) / (m * u)))) := by
  have hrecord := (h.holds _ hj0 hsteps).record hs le_rfl (valuesFor id values)
  have hlog : valuesLog u (m * u) id (events ++ [.update s values]) =
      valuesLog u (m * u) id events ++
        (valuesFor id values).map (Prod.mk ((s - u) / (m * u))) := valuesLog_concat _ _ _ _ _
  have hmeasure : ∀ t, ConsEvent.measure t ∈ events ++ [.update s values] ↔
      ConsEvent.measure t ∈ events := by simp
  refine ⟨?_, ?_, ?_, ?_⟩
  · intro b _ hb
    exact hrecord.mono (hb (.update s values) (by simp))
  · intro x hx
    rw [hlog]
    rcases List.mem_append.mp hx with hx | hx
    · exact List.mem_append_left _ (h.logged x hx)
    · exact List.mem_append_right _ hx
  · intro k hk
    rw [hlog, bucket_append, bucket_append, h.open_steps k fun t ht => hk t ((hmeasure t).mpr ht)]
  · intro k hk
    rw [hlog, bucket_append, bucket_append]
    by_cases hjk : (s - u) / (m * u) = k
    · have hopen : ∀ t, .measure t ∈ events → t / (m * u) ≤ k := fun t ht =>
        hjk ▸ hsteps (.measure t) ht
      rw [h.open_steps k hopen]
    · rw [bucket_map_mk, if_neg hjk, List.append_nil, List.append_nil]
      exact h.latest_report k fun t ht => hk t ((hmeasure t).mpr ht)

theorem measure (h : EntryInv u m id events entry log) (hm : 0 < m) {t : ℤ}
    (ht : t.tdiv (m * u) = t / (m * u)) (ht0 : 0 ≤ t / (m * u))
    (hsteps : ∀ e ∈ events, e.step u (m * u) ≤ t / (m * u))
    (hclosed : ∀ k, t / (m * u) ≤ k → bucket k (valuesLog u (m * u) id events) = []) :
    ∃ log', EntryInv u m id (events ++ [.measure t]) (entry.bind (·.report t)) log' := by
  have hholds := h.holds _ ht0 hsteps
  have hlog : valuesLog u (m * u) id (events ++ [.measure t]) = valuesLog u (m * u) id events := by
    rw [valuesLog_concat]
    exact List.append_nil _
  have hold : ∀ k, (∀ t', ConsEvent.measure t' ∈ events ++ [.measure t] → t' / (m * u) ≤ k) →
      (∀ t', ConsEvent.measure t' ∈ events → t' / (m * u) ≤ k) ∧ t / (m * u) ≤ k :=
    fun k hk => ⟨fun t' ht' => hk t' (List.mem_append_left _ ht'), hk t (by simp)⟩
  by_cases herased : EntryHolds.Erased (aggregate_op id) m entry (bucket (t / (m * u) - 1) log)
  · refine ⟨[], ?_, by simp, ?_, ?_⟩
    · intro b _ _
      rw [(hholds.report_eq hm ht le_rfl h.not_nan).mpr (Or.inr herased)]
      exact EntryHolds.none _ _ _ _
    · intro k hk
      rw [hlog, hclosed k (hold k hk).2]
      rfl
    · intro k hk
      obtain ⟨hmeasures, hk⟩ := hold (k + 1) hk
      rw [hlog]
      by_cases hlast : t / (m * u) ≤ k
      · rw [hclosed k hlast]
        rfl
      · -- the step that was reported: the entry had nothing to report for it
        obtain rfl : k = t / (m * u) - 1 := by omega
        rw [← h.latest_report _ hmeasures, herased.2]
        exact AggrOp.reference_nil m _
  · refine ⟨log, ?_, fun x hx => hlog ▸ h.logged x hx, ?_, ?_⟩
    · intro b _ hb
      exact (hholds.report hm ht le_rfl h.not_nan herased).mono (hb (.measure t) (by simp))
    · intro k hk
      rw [hlog]
      exact h.open_steps k (hold k hk).1
    · intro k hk
      rw [hlog]
      exact h.latest_report k (hold (k + 1) hk).1

end EntryInv

section Runs
variable {u m : ℤ} (hu : 0 < u) (hoffset : u ≤ 2 ^ 31) (id : Id) (hm : 0 < m)
  (hmultiple : m < 2 ^ 31)
include hu hoffset hm hmultiple

/-- The invariant holds after every run that keeps to the schedule. -/
theorem entryInv_run {reg : ConsolidationRegistry} (hfreq : reg.update_frequency_ = u)
    (hreporting : reg.reporting_frequency_ = m * u)
    (hstart : EntryHolds (aggregate_op id) m (m * u) (reg.my_values.lookup id) [] 0)
    {events : List ConsEvent} (h : Schedule u (m * u) events) :
    ∃ log, EntryInv u m id events ((runCons reg events).my_values.lookup id) log := by
  have hR : 0 < m * u := Int.mul_pos hm hu
  induction events using List.reverseRecOn with
  | nil => exact ⟨[], EntryInv.start hstart⟩
  | append_singleton events e ih =>
    obtain ⟨log, hinv⟩ := ih h.of_concat
    have hkeep := runCons_frequencies reg events
    have htime : u ≤ e.time := h.start e (by simp)
    rw [runCons_concat]
    cases e with
    | update s values =>
      have hs : 0 ≤ s - u := sub_nonneg.mpr htime
      rw [ConsEvent.apply, lookup_update_from hu hoffset hm hmultiple (hkeep.1.trans hfreq)
        (hkeep.2.trans hreporting)]
      exact ⟨_, hinv.update (Int.tdiv_eq_ediv_of_nonneg hs) (Int.ediv_nonneg hs hR.le)
        (h.step_le_update hR)⟩
    | measure t =>
      have ht0 : 0 ≤ t := le_trans hu.le htime
      rw [ConsEvent.apply, lookup_afterMeasurements]
      exact hinv.measure hm (Int.tdiv_eq_ediv_of_nonneg ht0) (Int.ediv_nonneg ht0 hR.le)
        (h.step_le_measure hR) fun k hk => h.bucket_eq_nil hR hk id

/-- The values that the updates of the reporting step before `t` pass for an id. -/
def reportedValues (u R : ℤ) (id : Id) (events : List ConsEvent) (t : ℤ) : List Double :=
  bucket (t / R - 1) (valuesLog u R id events)

theorem filter_measurements_run {reg : ConsolidationRegistry} (hfreq : reg.update_frequency_ = u)
    (hreporting : reg.reporting_frequency_ = m * u)
    (hstart : EntryHolds (aggregate_op id) m (m * u) (reg.my_values.lookup id) [] 0)
    {events : List ConsEvent} {t : ℤ} (h : Schedule u (m * u) (events ++ [.measure t]))
    (timestamp : ℤ) :
    ((runCons reg events).measurements t timestamp).filter (·.id = id) =
      (((aggregate_op id).reference m (reportedValues u (m * u) id events t)).map
        (Measurement.mk id timestamp)).toList := by
  have hR : 0 < m * u := Int.mul_pos hm hu
  obtain ⟨log, hinv⟩ := entryInv_run hu hoffset id hm hmultiple hfreq hreporting hstart h.of_concat
  have ht0 : 0 ≤ t := le_trans hu.le (h.start (.measure t) (by simp))
  have ht : t.tdiv (m * u) = t / (m * u) := Int.tdiv_eq_ediv_of_nonneg ht0
  have hmeasures : ∀ t', ConsEvent.measure t' ∈ events →
      t' / (m * u) ≤ t / (m * u) - 1 + 1 := by
    intro t' ht'
    have hle := h.step_le_measure hR (.measure t') ht'
    rw [ConsEvent.step] at hle
    omega
  have hholds := hinv.holds _ (Int.ediv_nonneg ht0 hR.le) (h.step_le_measure hR)
  rw [hholds.filter_measurements hm rfl ht le_rfl hinv.not_nan, reportedValues,
    ← hinv.latest_report (t / (m * u) - 1) hmeasures]

/-- What a report holds for an id is the reference, and no id is in it twice. -/
def ReportsReference (u m : ℤ) (events : List ConsEvent) (t timestamp : ℤ) (id : Id) : Prop :=
  let vs := reportedValues u (m * u) id events t
  let result := (runCons (.create u (m * u)) events).measurements t timestamp
  ((∃ x ∈ result, x.id = id) ↔
    match aggregate_op id with
    | .Add => 0 < vs.sum
    | .Max => ∃ v ∈ vs, Double.lowest < v) ∧
  (∀ x ∈ result, x.id = id → x.timestamp = timestamp ∧
    match aggregate_op id with
    | .Add => x.value = vs.sum.divBy m
    | .Max => x.value ∈ vs ∧ ∀ v ∈ vs, ¬ x.value < v) ∧
  (result.map (·.id)).Nodup

/-- Every report of a run that keeps to the schedule is the reference, for every id. -/
theorem reportsReference_run {events : List ConsEvent} {t : ℤ}
    (h : Schedule u (m * u) (events ++ [.measure t])) (timestamp : ℤ) :
    ReportsReference u m events t timestamp id := by
  unfold ReportsReference
  intro vs result
  have hvs : ∀ v ∈ vs, v.isnan = false := fun v hv =>
    not_nan_of_mem_valuesLog ((mem_bucket _ v _).mp hv)
  have hfilter : result.filter (·.id = id) =
      (((aggregate_op id).reference m vs).map (Measurement.mk id timestamp)).toList :=
    filter_measurements_run hu hoffset id hm hmultiple rfl rfl (EntryHolds.none _ _ _ _) h
      timestamp
  have hmem : ∀ x, x ∈ result ∧ x.id = id ↔
      ∃ v, (aggregate_op id).reference m vs = some v ∧ x = ⟨id, timestamp, v⟩ := by
    intro x
    have hx : x ∈ result ∧ x.id = id ↔ x ∈ result.filter (·.id = id) := by simp
    rw [hx, hfilter]
    simp [eq_comm]
  have hexists : (∃ x ∈ result, x.id = id) ↔
      ∃ v, (aggregate_op id).reference m vs = some v := by
    simp only [hmem]
    constructor
    · intro hgiven
      rcases hgiven with ⟨_, v, hv, _⟩
      exact ⟨v, hv⟩
    · intro hgiven
      rcases hgiven with ⟨v, hv⟩
      exact ⟨_, v, hv, rfl⟩
  refine ⟨hexists.trans ?_, ?_, nodup_measurements _ _ _⟩
  · cases aggregate_op id <;> simp [AggrOp.reference]
  · intro x hx hid
    obtain ⟨v, hv, rfl⟩ := (hmem x).mp ⟨hx, hid⟩
    refine ⟨rfl, ?_⟩
    cases hop : aggregate_op id with
    | Add =>
      rw [hop, AggrOp.reference, Option.ite_none_right_eq_some] at hv
      exact (Option.some.inj hv.2).symm
    | Max =>
      rw [hop, AggrOp.reference, Option.ite_none_right_eq_some] at hv
      obtain rfl := Option.some.inj hv.2
      exact AggrOp.maximum_spec hvs hv.1

end Runs

end AtlasNative
