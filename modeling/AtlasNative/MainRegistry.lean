import AtlasNative.ConsolidationRuns
import AtlasNative.HeldCounter
import AtlasNative.Machine
import Mathlib.Algebra.Order.BigOperators.Group.List

/-!
# The main metrics: from the fast registry to the reports

Every 5 s the fast registry is measured and fed to the registry of the main metrics,
which is reported in the first 5 s of every minute. For the id of a counter, the main registry
has been given the amounts of all 5 s steps that were polled.
-/

namespace AtlasNative

open ExactDouble Rolling Grouping ConsolidationRegistry
set_option autoImplicit false

/-- The two registries of the main metrics, and what has been reported so far. -/
structure Registries where
  registry_ : AtlasRegistry
  main_registry_ : ConsolidationRegistry
  published : Measurements

namespace Registries

def create (now : ℤ) : Registries :=
  ⟨.create kFastestFrequencyMillis now,
    .create kFastestFrequencyMillis kMainFrequencyMillis, []⟩

def update (r : Registries) (now : ℤ) : Registries :=
  { r with
    registry_ := r.registry_.afterMeasurements now
    main_registry_ := r.main_registry_.update_from now (r.registry_.measurements now) }

/-- A report, with a timestamp at the start of the step. -/
def report (r : Registries) (now : ℤ) : Measurements :=
  r.main_registry_.measurements now (now.tdiv kMainFrequencyMillis * kMainFrequencyMillis)

def send (r : Registries) (now : ℤ) : Registries :=
  { r with
    main_registry_ := r.main_registry_.afterMeasurements now
    published := r.published ++ r.report now }

/-- One iteration: the report is sent at the beginning of each new minute. -/
def tick (r : Registries) (now : ℤ) : Registries :=
  if now.tmod 60000 < kFastestFrequencyMillis then (r.update now).send now else r.update now

end Registries

inductive RegistryEvent where
  | op (t : ℤ) (o : MeterOp)
  | tick (t : ℤ)

namespace RegistryEvent

def apply (r : Registries) : RegistryEvent → Registries
  | op t o => { r with registry_ := o.apply r.registry_ t }
  | tick t => r.tick t

/-- The amount that an event adds to a counter, with its 5 s step. -/
def added (id : Id) : RegistryEvent → Option (ℤ × ℤ)
  | op t o => (o.added id).map (Prod.mk (t / 5000))
  | tick _ => none

end RegistryEvent

def runRegistries (r : Registries) (events : List RegistryEvent) : Registries :=
  events.foldl RegistryEvent.apply r

/-- The clock does not go back, and the iterations are at all times `5000 * j + b`. The
events lead from the time `now` before iteration `j` to the time `now'` before
iteration `j'`. -/
def Scheduled (b : ℤ) : ℤ → ℤ → List RegistryEvent → ℤ → ℤ → Prop
  | j, now, [], j', now' => j' = j ∧ now' = now
  | j, now, .op t _ :: events, j', now' =>
    now ≤ t ∧ t ≤ 5000 * j + b ∧ Scheduled b j t events j' now'
  | j, now, .tick t :: events, j', now' =>
    now ≤ t ∧ t = 5000 * j + b ∧ Scheduled b (j + 1) t events j' now'

theorem scheduled_append {b j now j' now' : ℤ} {events rest : List RegistryEvent}
    (h : Scheduled b j now (events ++ rest) j' now') :
    ∃ j₁ now₁, Scheduled b j now events j₁ now₁ ∧ Scheduled b j₁ now₁ rest j' now' := by
  induction events generalizing j now with
  | nil => exact ⟨j, now, ⟨rfl, rfl⟩, h⟩
  | cons e events ih =>
    cases e with
    | op t o =>
      obtain ⟨hnow, ht, h⟩ := h
      obtain ⟨j₁, now₁, hfirst, hrest⟩ := ih h
      exact ⟨j₁, now₁, ⟨hnow, ht, hfirst⟩, hrest⟩
    | tick t =>
      obtain ⟨hnow, ht, h⟩ := h
      obtain ⟨j₁, now₁, hfirst, hrest⟩ := ih h
      exact ⟨j₁, now₁, ⟨hnow, ht, hfirst⟩, hrest⟩

theorem Scheduled.now_le {b j now j' now' : ℤ} {events : List RegistryEvent}
    (h : Scheduled b j now events j' now') : now ≤ now' := by
  induction events generalizing j now with
  | nil => exact h.2.ge
  | cons e events ih =>
    cases e with
    | op t o => exact le_trans h.1 (ih h.2.2)
    | tick t => exact le_trans h.1 (ih h.2.2)

/-- The amounts of the 5 s steps that satisfy `p`. -/
def sumWhere (p : ℤ → Prop) [DecidablePred p] (log : List (ℤ × ℤ)) : ℤ :=
  ((log.filter fun e => p e.1).map Prod.snd).sum

section SumWhere
variable {p q : ℤ → Prop} [DecidablePred p] [DecidablePred q]

@[simp] theorem sumWhere_nil : sumWhere p [] = 0 := rfl

theorem sumWhere_append (log log' : List (ℤ × ℤ)) :
    sumWhere p (log ++ log') = sumWhere p log + sumWhere p log' := by
  simp [sumWhere]

theorem sumWhere_eq_zero {log : List (ℤ × ℤ)} (h : ∀ e ∈ log, ¬ p e.1) : sumWhere p log = 0 := by
  have hnil : log.filter (fun e => p e.1) = [] := by simpa using h
  rw [sumWhere, hnil]
  rfl

theorem sumWhere_congr {log : List (ℤ × ℤ)} (h : ∀ e ∈ log, (p e.1 ↔ q e.1)) :
    sumWhere p log = sumWhere q log := by
  have hfilter : log.filter (fun e => p e.1) = log.filter fun e => q e.1 :=
    List.filter_congr fun e he => by simp [h e he]
  rw [sumWhere, hfilter]
  rfl

theorem sumWhere_or (hdisjoint : ∀ k, ¬ (p k ∧ q k)) (log : List (ℤ × ℤ)) :
    sumWhere (fun k => p k ∨ q k) log = sumWhere p log + sumWhere q log := by
  induction log with
  | nil => rfl
  | cons e log ih =>
    rw [← List.singleton_append, sumWhere_append, sumWhere_append, sumWhere_append, ih]
    have hone : sumWhere (fun k => p k ∨ q k) [e] = sumWhere p [e] + sumWhere q [e] := by
      by_cases hp : p e.1 <;> by_cases hq : q e.1 <;> simp [sumWhere, hp, hq]
      exact absurd ⟨hp, hq⟩ (hdisjoint e.1)
    omega

theorem sumWhere_split {r : ℤ → Prop} [DecidablePred r] {log : List (ℤ × ℤ)}
    (h : ∀ e ∈ log, (p e.1 ↔ q e.1 ∨ r e.1)) (hdisjoint : ∀ k, ¬ (q k ∧ r k)) :
    sumWhere p log = sumWhere q log + sumWhere r log :=
  (sumWhere_congr h).trans (sumWhere_or hdisjoint log)

theorem sumWhere_nonneg {log : List (ℤ × ℤ)} (h : ∀ e ∈ log, 0 ≤ e.2) : 0 ≤ sumWhere p log := by
  apply List.sum_nonneg
  intro a ha
  obtain ⟨e, he, rfl⟩ := List.mem_map.mp ha
  exact h e (List.mem_of_mem_filter he)

theorem sum_bucket (k : ℤ) (log : List (ℤ × ℤ)) :
    (bucket k log).sum = sumWhere (· = k) log := rfl

end SumWhere

/-- Values that add up to nothing in every step leave the entry of a counter as if nothing
had been recorded. -/
theorem EntryHolds.of_sum_eq_zero {m R b : ℤ} (hm : 0 < m) {entry : Option ConsolidatedValue}
    {log : List (ℤ × Double)} (h : EntryHolds .Add m R entry log b)
    (hzero : ∀ k, (bucket k log).sum = 0) : EntryHolds .Add m R entry [] b := by
  have hvalue : ∀ k, valueAt (AggrOp.combine m .Add) (AggrOp.init .Add) log k =
      AggrOp.init .Add := by
    intro k
    rw [valueAt, AggrOp.foldl_combine_add hm, hzero, Double.divBy_zero, add_zero]
  refine ⟨fun _ => rfl, fun c hc => ?_, h.position⟩
  have hc := h.present c hc
  exact { hc with
    tracks := ⟨hc.tracks.current.trans (hvalue _), hc.tracks.previous.trans (hvalue _), by simp⟩ }

/-- What the reference reports for the amount `S` of a minute, given the rates of its 5 s
steps. -/
theorem toList_reference {vs : List Double} {S : ℤ} (hsum : vs.sum = .fin (S / 5)) (id : Id)
    (timestamp : ℤ) :
    ((AggrOp.Add.reference 12 vs).map (Measurement.mk id timestamp)).toList =
      if 0 < S then [⟨id, timestamp, .fin (S / 60)⟩] else [] := by
  have hpositive : (0 : Double) < .fin (S / 5) ↔ 0 < S := by
    rw [Double.zero_lt_fin, div_pos_iff_of_pos_right (by norm_num), Int.cast_pos]
  rw [AggrOp.reference, hsum]
  by_cases hS : 0 < S
  · rw [if_pos (hpositive.mpr hS), if_pos hS, Double.divBy_fin, div_div]
    norm_num
  · rw [if_neg (fun h => hS (hpositive.mp h)), if_neg hS]
    rfl

/-- The main registry has been fed, for the id, the amounts of the 5 s steps before
`j - 1`, each under the reporting step of its minute. -/
structure MainInv (b : ℤ) (id : Id) (start : ConsolidationRegistry) (events : List ConsEvent)
    (main : ConsolidationRegistry) (j : ℤ) (log : List (ℤ × ℤ)) : Prop where
  run : main = runCons start events
  update_frequency : start.update_frequency_ = 5000
  reporting_frequency : start.reporting_frequency_ = 12 * 5000
  unrecorded : EntryHolds .Add 12 (12 * 5000) (start.my_values.lookup id) [] 0
  schedule : Schedule 5000 (12 * 5000) events
  ticks : ∀ e ∈ events, e.time ≤ 5000 * (j - 1) + b
  logged : ∀ k, (bucket k (valuesLog 5000 (12 * 5000) id events)).sum =
    .fin (sumWhere (fun i => i / 12 = k ∧ i < j - 1) log / 5)
  finite : ∀ x ∈ valuesLog 5000 (12 * 5000) id events, ∃ q : ℚ, 0 ≤ q ∧ x.2 = .fin q

theorem Registries.tick_registry (r : Registries) (now : ℤ) :
    (r.tick now).registry_ = r.registry_.afterMeasurements now := by
  unfold Registries.tick
  split <;> rfl

namespace MainInv
variable {b j : ℤ} {id : Id} {start main : ConsolidationRegistry} {events : List ConsEvent}
  {log : List (ℤ × ℤ)} {values : Measurements}

theorem add (h : MainInv b id start events main j log) {log' : List (ℤ × ℤ)}
    (hlog' : ∀ e ∈ log', j - 1 ≤ e.1) : MainInv b id start events main j (log ++ log') :=
  { h with
    logged := fun k => by
      have hzero : sumWhere (fun i => i / 12 = k ∧ i < j - 1) log' = 0 :=
        sumWhere_eq_zero fun e he hp => absurd hp.2 (not_lt.mpr (hlog' e he))
      rw [h.logged, sumWhere_append, hzero, add_zero] }

theorem sumWhere_succ (k j : ℤ) (log : List (ℤ × ℤ)) :
    sumWhere (fun i => i / 12 = k ∧ i < j + 1 - 1) log =
      sumWhere (fun i => i / 12 = k ∧ i < j - 1) log +
        if (j - 1) / 12 = k then (bucket (j - 1) log).sum else 0 := by
  have hlast : sumWhere (fun i => (j - 1) / 12 = k ∧ i = j - 1) log =
      if (j - 1) / 12 = k then (bucket (j - 1) log).sum else 0 := by
    split
    · rename_i hk
      rw [sum_bucket]
      exact sumWhere_congr fun e _ => and_iff_right hk
    · rename_i hk
      exact sumWhere_eq_zero fun e _ hp => hk hp.1
  rw [← hlast, ← sumWhere_or (fun i h => absurd h.1.2 (by omega))]
  exact sumWhere_congr fun e _ => by omega

theorem events_eq_nil (h : MainInv b id start events main j log) (hb : b < 5000) (hj : j ≤ 1) :
    events = [] := by
  apply List.eq_nil_iff_forall_not_mem.mpr
  intro e he
  have hstart := h.schedule.start e he
  have htick := h.ticks e he
  omega

theorem main_frequencies (h : MainInv b id start events main j log) :
    main.update_frequency_ = 5000 ∧ main.reporting_frequency_ = 12 * 5000 := by
  obtain ⟨hupdate, hreporting⟩ := runCons_frequencies start events
  rw [h.run]
  exact ⟨hupdate.trans h.update_frequency, hreporting.trans h.reporting_frequency⟩

variable (hop : aggregate_op id = .Add) (hb0 : 0 ≤ b) (hb : b < 5000)
include hop hb0 hb

/-- Before the second step the clock cannot be moved back, but there is nothing to feed. -/
theorem update_first (h : MainInv b id start events main 0 log) (hsteps : ∀ e ∈ log, 0 ≤ e.1)
    (hvalues : Rates (valuesFor id values) ((bucket (0 - 1) log).sum / 5)) :
    MainInv b id (main.update_from (5000 * 0 + b) values) []
      (main.update_from (5000 * 0 + b) values) (0 + 1) log := by
  obtain ⟨hfreq, hreporting⟩ := h.main_frequencies
  have hrun : main = start := by
    rw [h.run, h.events_eq_nil hb (by omega)]
    rfl
  have hbucket : bucket (0 - 1) log = [] := by
    apply List.eq_nil_iff_forall_not_mem.mpr
    intro a ha
    have hstep := hsteps _ ((mem_bucket _ _ _).mp ha)
    omega
  have hkeep := main.update_from_frequencies (5000 * 0 + b) values
  refine ⟨rfl, ?_, ?_, ?_, Schedule.nil _ _, by simp, ?_, by simp [valuesLog]⟩
  · rw [hkeep.1, hfreq]
  · rw [hkeep.2, hreporting]
  · have hstep : (5000 * 0 + b - 5000).tdiv (12 * 5000) = 0 := by
      have hcases := tdiv_sub_cases (t := 5000 * 0 + b) (s := 5000) (d := 12 * 5000)
        (by omega) (by omega)
      omega
    have hrecord := h.unrecorded.record hstep le_rfl (valuesFor id values)
    rw [lookup_update_from (by omega) (by omega) (by omega) (by omega) hfreq hreporting, hrun, hop]
    refine hrecord.of_sum_eq_zero (by omega) fun k => ?_
    rw [List.nil_append, bucket_map_mk]
    split
    · rw [hvalues.sum, hbucket]
      simp [Double.zero_def]
    · rfl
  · intro k
    have hzero : sumWhere (fun i => i / 12 = k ∧ i < 0 + 1 - 1) log = 0 :=
      sumWhere_eq_zero fun e he hp => absurd hp.2 (not_lt.mpr (hsteps e he))
    rw [hzero]
    simp [valuesLog, bucket, Double.zero_def]

omit hop in
theorem update_later (h : MainInv b id start events main j log) (hj : 0 < j)
    (hvalues : Rates (valuesFor id values) ((bucket (j - 1) log).sum / 5)) :
    MainInv b id start (events ++ [.update (5000 * j + b) values])
      (main.update_from (5000 * j + b) values) (j + 1) log := by
  have htick : ∀ e ∈ events, e.time + 5000 ≤ 5000 * j + b := by
    intro e he
    have hle := h.ticks e he
    omega
  refine ⟨?_, h.update_frequency, h.reporting_frequency, h.unrecorded,
    h.schedule.concat_update (by omega) (by omega) htick values, ?_, ?_, ?_⟩
  · rw [runCons_concat, ← h.run]
    rfl
  · intro e he
    rcases List.mem_append.mp he with he | he
    · exact le_trans (h.ticks e he) (by omega)
    · rw [List.mem_singleton.mp he]
      exact (by omega : 5000 * j + b ≤ 5000 * (j + 1 - 1) + b)
  · intro k
    have hminute : (5000 * j + b - 5000) / (12 * 5000) = (j - 1) / 12 := by omega
    rw [valuesLog_concat, bucket_append, List.sum_append, h.logged, ConsEvent.logged,
      bucket_map_mk, hminute, sumWhere_succ]
    split
    · rw [hvalues.sum, Double.fin_add_fin]
      push_cast
      rw [add_div]
    · simp
  · intro x hx
    rw [valuesLog_concat] at hx
    rcases List.mem_append.mp hx with hx | hx
    · exact h.finite x hx
    · obtain ⟨v, hv, rfl⟩ := List.mem_map.mp hx
      exact hvalues.finite v hv

theorem update (h : MainInv b id start events main j log) (hj : 0 ≤ j)
    (hsteps : ∀ e ∈ log, 0 ≤ e.1)
    (hvalues : Rates (valuesFor id values) ((bucket (j - 1) log).sum / 5)) :
    ∃ start' events',
      MainInv b id start' events' (main.update_from (5000 * j + b) values) (j + 1) log := by
  rcases Int.le_iff_eq_or_lt.mp hj with rfl | hj
  · exact ⟨_, _, h.update_first hop hb0 hb hsteps hvalues⟩
  · exact ⟨_, _, h.update_later hb0 hb hj hvalues⟩

omit hop in
/-- A report in the first step is about no minute. -/
theorem send_first (h : MainInv b id start events main (0 + 1) log) (hsteps : ∀ e ∈ log, 0 ≤ e.1)
    (timestamp : ℤ) :
    MainInv b id (main.afterMeasurements (5000 * 0 + b)) []
      (main.afterMeasurements (5000 * 0 + b)) (0 + 1) log ∧
    (main.measurements (5000 * 0 + b) timestamp).filter (·.id = id) =
      if 0 < sumWhere (· / 12 = 0 / 12 - 1) log then
        [⟨id, timestamp, .fin (sumWhere (· / 12 = 0 / 12 - 1) log / 60)⟩]
      else [] := by
  obtain ⟨hfreq, hreporting⟩ := h.main_frequencies
  have hwall : (5000 * 0 + b).tdiv (12 * 5000) = 0 := by
    rw [Int.tdiv_eq_ediv_of_nonneg (by omega)]
    omega
  have hnil := h.events_eq_nil hb (by omega)
  have hholds : EntryHolds .Add 12 (12 * 5000) (main.my_values.lookup id) [] 0 := by
    rw [h.run, hnil]
    exact h.unrecorded
  constructor
  · refine ⟨rfl, ?_, ?_, ?_, Schedule.nil _ _, by simp, fun k => hnil ▸ h.logged k,
      by simp [valuesLog]⟩
    · rw [afterMeasurements, hfreq]
    · rw [afterMeasurements, hreporting]
    · rw [lookup_afterMeasurements]
      by_cases herased : EntryHolds.Erased .Add 12 (main.my_values.lookup id) (bucket (0 - 1) [])
      · rw [(hholds.report_eq (by omega) hwall le_rfl (by simp)).mpr (Or.inr herased)]
        exact EntryHolds.none _ _ _ _
      · exact hholds.report (by omega) hwall le_rfl (by simp) herased
  · have hzero : sumWhere (· / 12 = 0 / 12 - 1) log = 0 :=
      sumWhere_eq_zero fun e he hp => by
        have hstep := hsteps e he
        omega
    rw [hholds.filter_measurements (by omega) rfl hwall le_rfl (by simp), hzero]
    simp [bucket, AggrOp.reference_nil]

/-- A report at the beginning of a minute is about the minute before. -/
theorem send_later (h : MainInv b id start events main (j + 1) log) (hj : 0 < j)
    (hminute : j % 12 = 0) (timestamp : ℤ) :
    MainInv b id start (events ++ [.measure (5000 * j + b)])
      (main.afterMeasurements (5000 * j + b)) (j + 1) log ∧
    (main.measurements (5000 * j + b) timestamp).filter (·.id = id) =
      if 0 < sumWhere (· / 12 = j / 12 - 1) log then
        [⟨id, timestamp, .fin (sumWhere (· / 12 = j / 12 - 1) log / 60)⟩]
      else [] := by
  have haligned : (5000 * j + b) % (12 * 5000) < 5000 := by omega
  have hschedule := h.schedule.concat_measure (by omega)
    (fun e he => le_trans (h.ticks e he) (by omega)) haligned
  constructor
  · refine ⟨?_, h.update_frequency, h.reporting_frequency, h.unrecorded, hschedule, ?_, ?_, ?_⟩
    · rw [runCons_concat, ← h.run]
      rfl
    · intro e he
      rcases List.mem_append.mp he with he | he
      · exact h.ticks e he
      · rw [List.mem_singleton.mp he]
        exact (by omega : 5000 * j + b ≤ 5000 * (j + 1 - 1) + b)
    · intro k
      rw [valuesLog_concat]
      exact (List.append_nil _).symm ▸ h.logged k
    · rw [valuesLog_concat]
      exact (List.append_nil _).symm ▸ h.finite
  · have hfilter := filter_measurements_run (by omega) (by omega) id (by omega) (by omega)
      h.update_frequency h.reporting_frequency (hop.symm ▸ h.unrecorded) hschedule timestamp
    have hstep : (5000 * j + b) / (12 * 5000) = j / 12 := by omega
    have hpolled : sumWhere (fun i => i / 12 = j / 12 - 1 ∧ i < j + 1 - 1) log =
        sumWhere (· / 12 = j / 12 - 1) log := sumWhere_congr fun e _ => by omega
    have hsum := h.logged (j / 12 - 1)
    rw [hpolled] at hsum
    rw [h.run, hfilter, hop, reportedValues, hstep]
    exact toList_reference hsum id timestamp

theorem send (h : MainInv b id start events main (j + 1) log) (hj : 0 ≤ j)
    (hsteps : ∀ e ∈ log, 0 ≤ e.1) (hminute : j % 12 = 0) (timestamp : ℤ) :
    (∃ start' events',
      MainInv b id start' events' (main.afterMeasurements (5000 * j + b)) (j + 1) log) ∧
    (main.measurements (5000 * j + b) timestamp).filter (·.id = id) =
      if 0 < sumWhere (· / 12 = j / 12 - 1) log then
        [⟨id, timestamp, .fin (sumWhere (· / 12 = j / 12 - 1) log / 60)⟩]
      else [] := by
  rcases Int.le_iff_eq_or_lt.mp hj with rfl | hj
  · have hfirst := h.send_first hb0 hb hsteps timestamp
    exact ⟨⟨_, _, hfirst.1⟩, hfirst.2⟩
  · have hlater := h.send_later hop hb0 hb hj hminute timestamp
    exact ⟨⟨_, _, hlater.1⟩, hlater.2⟩

end MainInv

end AtlasNative
