import AtlasNative.SummaryTotals

/-!
# What a distribution summary reports

A record goes to two totals and to four meters with step numbers of their own. They all
follow one log of the recorded amounts. The totals are 64-bit integers: they wrap around,
and the amounts of a summary of `double` are truncated before they are added.
-/

namespace AtlasNative

open ExactDouble Rolling Grouping TimedRuns MeterNumber TotalOf Int64Sums
set_option autoImplicit false

variable {T : Type} [AddCommMonoid T] [LT T] [DecidableLT T] [DecidableEq T] [MeterNumber T]
  [TotalOf Int64 T]

omit [LT T] [DecidableLT T] [DecidableEq T] [TotalOf Int64 T] in
theorem StepNumber.Follows.measure {A : Type} {f : T → A → T} {step t : ℤ}
    {c : DefaultCounterNumber T} {log : List (ℤ × A)} (hstep : 0 < step)
    (h : c.step_number_.Follows f 0 step t log) (h0 : 0 ≤ t) :
    c.Measure t = ⟨c.id_, start_step t step,
      (toDouble ((bucket (t / step - 1) log).foldl f 0)).divBy (step / 1000)⟩ := by
  rw [DefaultCounterNumber.Measure, DefaultCounterNumber.rate, h.Poll hstep h0 le_rfl,
    h.step_millis]
  rfl

inductive DistributionOp (T : Type) where
  | Record (amount : T)
  | Measure
  deriving DecidableEq

def DistributionOp.apply (d : DefaultDistributionSummaryNum T Int64) (now : ℤ) :
    DistributionOp T → DefaultDistributionSummaryNum T Int64
  | Record amount => d.Record now amount
  | Measure => d.polled now

/-- The amounts `a >= 0` that were recorded, with their times. -/
def recorded (events : List (ℤ × DistributionOp T)) : List (ℤ × T) :=
  events.filterMap fun e =>
    match e.2 with
    | .Record amount => if notNegative amount then some (e.1, amount) else none
    | .Measure => none

/-- The amounts recorded at the times of step `k`. -/
def recordedIn (step k : ℤ) (events : List (ℤ × DistributionOp T)) : List T :=
  ((recorded events).filter fun e => e.1 / step = k).map Prod.snd

namespace DefaultDistributionSummaryNum

def run (id : Id) (step start : ℤ) (events : List (ℤ × DistributionOp T)) :
    DefaultDistributionSummaryNum T Int64 :=
  TimedRuns.run (fun d now op => op.apply d now) (.create id step start) events

def square (a : T) : Double := toDouble a * toDouble a

/-- The summary has been given the amounts of `log`: every part follows the same log. -/
structure Records (id : Id) (step : ℤ) (d : DefaultDistributionSummaryNum T Int64) (now : ℤ)
    (log : List (ℤ × T)) : Prop where
  count : d.sub_count_.step_number_.Follows (fun acc _ => acc + 1) 0 step now log
  total : d.sub_total_amount_.step_number_.Follows (· + ·) 0 step now log
  total_sq : d.sub_total_sq_.step_number_.Follows (fun acc a => acc + square a) 0 step now log
  max : d.sub_max_.step_number_.Follows stdMax lowest step now log
  count_ : d.count_ = (log.map fun _ => (1 : Int64)).sum
  total_amount_ : d.total_amount_ = (log.map fun e => (toInt64 e.2 : Int64)).sum
  not_negative : ∀ e ∈ log, notNegative e.2 = true
  ids : d.sub_count_.id_ = id.WithStatistic "count" ∧
    d.sub_total_amount_.id_ = id.WithStatistic "totalAmount" ∧
    d.sub_total_sq_.id_ = id.WithStatistic "totalOfSquares" ∧
    d.sub_max_.id_ = WithDefaultGaugeTagsOf (id.WithStatistic "max") "max"

theorem WithDefaultTagForId_WithStatistic (id : Id) (stat : String) (v : StrRef) :
    WithDefaultTagForId (id.WithStatistic stat) statistic v = id.WithStatistic stat := by
  have hhas : (id.WithStatistic stat).tags_.has statistic = true := by
    simp [Id.WithStatistic, Id.WithTag, Tags.add, Tags.has]
  rw [WithDefaultTagForId, if_pos hhas]

namespace Records
variable {id : Id} {step now t : ℤ} {d : DefaultDistributionSummaryNum T Int64} {log : List (ℤ × T)}

theorem create (id : Id) (step : ℤ) (h0 : 0 ≤ now) :
    (DefaultDistributionSummaryNum.create id step now :
      DefaultDistributionSummaryNum T Int64).Records id step now [] where
  count := .create _ 0 step h0
  total := .create _ 0 step h0
  total_sq := .create _ 0 step h0
  max := .create _ lowest step h0
  count_ := rfl
  total_amount_ := rfl
  not_negative := by simp
  ids := ⟨WithDefaultTagForId_WithStatistic id _ _, WithDefaultTagForId_WithStatistic id _ _,
    WithDefaultTagForId_WithStatistic id _ _, rfl⟩

theorem mono (hstep : 0 < step) (h : d.Records id step now log) (ht : now ≤ t) :
    d.Records id step t log :=
  { h with
    count := h.count.mono hstep ht
    total := h.total.mono hstep ht
    total_sq := h.total_sq.mono hstep ht
    max := h.max.mono hstep ht }

theorem polled (hstep : 0 < step) (h : d.Records id step now log) (h0 : 0 ≤ t) (ht : now ≤ t) :
    (d.polled t).Records id step t log :=
  { h with
    count := h.count.RollCount hstep h0 ht
    total := h.total.RollCount hstep h0 ht
    total_sq := h.total_sq.RollCount hstep h0 ht
    max := h.max.RollCount hstep h0 ht }

theorem Record (hstep : 0 < step) (h : d.Records id step now log) (h0 : 0 ≤ t) (ht : now ≤ t)
    (amount : T) :
    (d.Record t amount).Records id step t
      (log ++ if notNegative amount then [(t / step, amount)] else []) := by
  rw [DefaultDistributionSummaryNum.Record]
  by_cases ha : notNegative amount = true
  · rw [if_pos ha, if_pos ha]
    refine ⟨h.count.Add hstep h0 ht fun _ => rfl, h.total.Add hstep h0 ht fun _ => rfl,
      h.total_sq.Add hstep h0 ht fun _ => rfl, h.max.UpdateCurrentMax hstep h0 ht fun _ => rfl,
      ?_, ?_, ?_, h.ids⟩
    · simp [h.count_]
    · simp [h.total_amount_]
    · intro e he
      rcases List.mem_append.mp he with he | he
      · exact h.not_negative e he
      · rw [List.mem_singleton.mp he]
        exact ha
  · rw [if_neg ha, if_neg ha, List.append_nil]
    exact { h.mono hstep ht with }

end Records

def stepLog (step : ℤ) (events : List (ℤ × DistributionOp T)) : List (ℤ × T) :=
  (recorded events).map fun e => (e.1 / step, e.2)

omit [MeterNumber T] [TotalOf Int64 T] in
theorem bucket_stepLog (step k : ℤ) (events : List (ℤ × DistributionOp T)) :
    bucket k (stepLog step events) = recordedIn step k events := by
  rw [bucket, stepLog, List.filter_map, List.map_map]
  rfl

theorem records_run {step start now : ℤ} (hstep : 0 < step) (h0 : 0 ≤ start) (id : Id)
    {events : List (ℤ × DistributionOp T)} (hordered : Ordered start events now) :
    (run id step start events).Records id step now (stepLog step events) := by
  apply run_invariant (fun (d : DefaultDistributionSummaryNum T Int64) now
      (events : List (ℤ × DistributionOp T)) => d.Records id step now (stepLog step events))
    (Records.create id step h0) (fun d now t log h ht => h.mono hstep ht) ?_ hordered
  intro d t log op h ht
  have h0t := le_trans h0 ht
  cases op with
  | Record amount =>
    have hrecord := h.Record hstep h0t le_rfl amount
    by_cases ha : notNegative amount = true <;>
      simpa [stepLog, recorded, ha, DistributionOp.apply] using hrecord
  | Measure =>
    have hpolled := h.polled hstep h0t le_rfl
    simpa [stepLog, recorded, DistributionOp.apply] using hpolled

/-- The four measurements, over the amounts `vs` of the last completed step. -/
structure Reports (id : Id) (step t : ℤ) (measurements : Measurements) (vs : List T) : Prop where
  measurements : ∃ max, measurements =
    [⟨id.WithStatistic "count", start_step t step,
        (Double.fin vs.length).divBy (step / 1000)⟩,
      ⟨id.WithStatistic "totalAmount", start_step t step,
        (vs.map toDouble).sum.divBy (step / 1000)⟩,
      ⟨id.WithStatistic "totalOfSquares", start_step t step,
        (vs.map square).sum.divBy (step / 1000)⟩,
      ⟨WithDefaultGaugeTagsOf (id.WithStatistic "max") "max", start_step t step, max⟩] ∧
    (max = .nan ↔ vs = []) ∧ (vs ≠ [] → ∃ a ∈ vs, max = toDouble a ∧ ∀ b ∈ vs, ¬ a < b)

/-- The measurements are right when the count and the sum of the step do not overflow. -/
theorem Records.reports [LawfulMeterNumber T] {id : Id} {step t : ℤ}
    {d : DefaultDistributionSummaryNum T Int64} {log : List (ℤ × T)} (hstep : 0 < step)
    (h : d.Records id step t log) (h0 : 0 ≤ t)
    (hlength : ((bucket (t / step - 1) log).length : ℤ) < 2 ^ 63)
    (hsum : toDouble (bucket (t / step - 1) log).sum =
      ((bucket (t / step - 1) log).map toDouble).sum) :
    Reports id step t (d.Measure t) (bucket (t / step - 1) log) := by
  obtain ⟨hcount, htotal, hsq, hmax⟩ := h.ids
  have hvs : ∀ v ∈ bucket (t / step - 1) log, notNegative v = true := fun v hv =>
    h.not_negative _ ((mem_bucket _ v log).mp hv)
  have hpoll : d.sub_max_.step_number_.Poll t =
      (bucket (t / step - 1) log).foldl stdMax lowest := h.max.Poll hstep h0 le_rfl
  have hcounted : toDouble ((bucket (t / step - 1) log).foldl (fun acc _ => acc + 1)
      (0 : Int64)) = .fin (bucket (t / step - 1) log).length := by
    rw [← List.foldl_map (f := fun _ => (1 : Int64)) (g := (· + ·)), ← List.sum_eq_foldl]
    exact congrArg (fun n : ℤ => Double.fin n) ((toInt_sum_one_eq_iff _).mpr hlength)
  have hsquares : (bucket (t / step - 1) log).foldl (fun acc a => acc + square a) 0 =
      ((bucket (t / step - 1) log).map square).sum := by
    rw [List.sum_eq_foldl, List.foldl_map]
  refine ⟨d.sub_max_.max t, ?_, ?_⟩
  · rw [Measure, h.count.measure hstep h0, h.total.measure hstep h0, h.total_sq.measure hstep h0,
      hcount, htotal, hsq, hcounted, hsquares, ← List.sum_eq_foldl, hsum, DefaultMaxGauge.Measure,
      hmax, h.max.step_millis]
    rfl
  · rw [DefaultMaxGauge.max, hpoll]
    by_cases hnil : bucket (t / step - 1) log = []
    · simp [hnil]
    · obtain ⟨hne, a, ha, heq, hall⟩ := foldl_stdMax_lowest hvs hnil
      rw [if_pos hne, heq]
      have hnan := LawfulMeterNumber.not_nan a (hvs a ha)
      refine ⟨⟨fun h => ?_, fun h => absurd h hnil⟩, fun _ => ⟨a, ha, rfl, hall⟩⟩
      rw [h] at hnan
      exact absurd hnan (by decide)

/-- What `Count`, `TotalAmount` and, at time `t`, `Measure` should give after the events. -/
structure ReportsRecorded (id : Id) (step t : ℤ) (events : List (ℤ × DistributionOp T))
    (d : DefaultDistributionSummaryNum T Int64) : Prop where
  count : d.Count.toInt = (recorded events).length
  total_amount : toDouble d.TotalAmount = (((recorded events).map Prod.snd).map toDouble).sum
  measure : Reports id step t (d.Measure t) (recordedIn step (t / step - 1) events)

theorem Count_run {step start t : ℤ} (hstep : 0 < step) (h0 : 0 ≤ start) (id : Id)
    {events : List (ℤ × DistributionOp T)} (hordered : Ordered start events t) :
    (run id step start events).Count.toInt = (recorded events).length ↔
      ((recorded events).length : ℤ) < 2 ^ 63 := by
  rw [Count, (records_run hstep h0 id hordered).count_, stepLog, List.map_map]
  exact toInt_sum_one_eq_iff _

theorem TotalAmount_run {step start t : ℤ} (hstep : 0 < step) (h0 : 0 ≤ start) (id : Id)
    {events : List (ℤ × DistributionOp T)} (hordered : Ordered start events t) :
    (run id step start events).TotalAmount =
      ofInt64 (((recorded events).map Prod.snd).map toInt64 : List Int64).sum := by
  rw [TotalAmount, (records_run hstep h0 id hordered).total_amount_, stepLog, List.map_map,
    List.map_map]
  rfl

omit [MeterNumber T] [TotalOf Int64 T] in
theorem recordedIn_sublist (step k : ℤ) (events : List (ℤ × DistributionOp T)) :
    (recordedIn step k events).Sublist ((recorded events).map Prod.snd) :=
  List.filter_sublist.map Prod.snd

theorem not_negative_recorded {step start t : ℤ} (hstep : 0 < step) (h0 : 0 ≤ start)
    {events : List (ℤ × DistributionOp T)} (hordered : Ordered start events t) :
    ∀ v ∈ (recorded events).map Prod.snd, notNegative v = true := by
  have hnot := (records_run hstep h0 ⟨intern_str "", ∅⟩ hordered).not_negative
  intro v hv
  obtain ⟨e, he, rfl⟩ := List.mem_map.mp hv
  exact hnot (e.1 / step, e.2) (List.mem_map.mpr ⟨e, he, rfl⟩)

/-- With totals that do not overflow, all is right when the total amount and the sum over a
step are. -/
theorem reportsRecorded_of_sums [LawfulMeterNumber T] {step start t : ℤ} (hstep : 0 < step)
    (h0 : 0 ≤ start) (id : Id) {events : List (ℤ × DistributionOp T)}
    (hordered : Ordered start events t) (hlength : ((recorded events).length : ℤ) < 2 ^ 63)
    (htotal : toDouble (run id step start events).TotalAmount =
      (((recorded events).map Prod.snd).map toDouble).sum)
    (hsum : toDouble (recordedIn step (t / step - 1) events).sum =
      ((recordedIn step (t / step - 1) events).map toDouble).sum) :
    ReportsRecorded id step t events (run id step start events) := by
  have h0t := le_trans h0 hordered.start_le
  have hrecords := records_run hstep h0 id hordered
  have hbucket := bucket_stepLog step (t / step - 1) events
  have hshorter : ((recordedIn step (t / step - 1) events).length : ℤ) < 2 ^ 63 := by
    have := (recordedIn_sublist step (t / step - 1) events).length_le
    rw [List.length_map] at this
    omega
  refine ⟨(Count_run hstep h0 id hordered).mpr hlength, htotal, ?_⟩
  rw [← hbucket] at hshorter hsum ⊢
  exact hrecords.reports hstep h0t hshorter hsum

/-- The doubles of 64-bit amounts have their exact sum. -/
theorem sum_toDouble (vs : List Int64) :
    (vs.map toDouble).sum = .fin ((vs.map Int64.toInt).sum : ℤ) := by
  induction vs with
  | nil => rfl
  | cons v vs ih =>
    rw [List.map_cons, List.sum_cons, ih, List.map_cons, List.sum_cons, Int.cast_add]
    exact Double.fin_add_fin _ _

theorem toDouble_sum_iff {vs : List Int64} (hvs : ∀ v ∈ vs, notNegative v = true) :
    toDouble vs.sum = (vs.map toDouble).sum ↔ (vs.map Int64.toInt).sum < 2 ^ 63 := by
  rw [← toInt_sum_eq_iff fun v hv => (Int64.notNegative_iff v).mp (hvs v hv), sum_toDouble]
  exact Double.fin.injEq _ _ ▸ Int.cast_inj

/-- The summary is right as long as no total overflows and, for doubles, nothing is truncated. -/
theorem reportsRecorded_run {step start t : ℤ} (hstep : 0 < step) (h0 : 0 ≤ start) (id : Id) :
    (∀ events : List (ℤ × DistributionOp Int64), Ordered start events t →
      (ReportsRecorded id step t events (run id step start events) ↔
        ((recorded events).length : ℤ) < 2 ^ 63 ∧
          (((recorded events).map Prod.snd).map Int64.toInt).sum < 2 ^ 63)) ∧
    ∀ events : List (ℤ × DistributionOp Double), Ordered start events t →
      (ReportsRecorded id step t events (run id step start events) ↔
        ((recorded events).length : ℤ) < 2 ^ 63 ∧
          (∀ a ∈ (recorded events).map Prod.snd, ∃ n : ℤ, a = .fin n) ∧
          ((recorded events).map Prod.snd).sum < .fin (2 ^ 63)) := by
  constructor
  · intro events hordered
    have hvs := not_negative_recorded hstep h0 hordered
    have htotal := TotalAmount_run hstep h0 id hordered
    have hall : (((recorded events).map Prod.snd).map (toInt64 : Int64 → Int64)) =
        (recorded events).map Prod.snd := List.map_id _
    rw [hall] at htotal
    constructor
    · intro h
      have hamount := h.total_amount
      rw [htotal] at hamount
      exact ⟨(Count_run hstep h0 id hordered).mp h.count, (toDouble_sum_iff hvs).mp hamount⟩
    · intro hgiven
      rcases hgiven with ⟨hlength, hsum⟩
      refine reportsRecorded_of_sums hstep h0 id hordered hlength ?_ ?_
      · rw [htotal]
        exact (toDouble_sum_iff hvs).mpr hsum
      · have hsub := recordedIn_sublist step (t / step - 1) events
        refine (toDouble_sum_iff fun v hv => hvs v (hsub.subset hv)).mpr ?_
        refine lt_of_le_of_lt ((hsub.map Int64.toInt).sum_le_sum ?_) hsum
        intro n hn
        obtain ⟨v, hv, rfl⟩ := List.mem_map.mp hn
        exact (Int64.notNegative_iff v).mp (hvs v hv)
  · intro events hordered
    have hvs := not_negative_recorded hstep h0 hordered
    have htotal := TotalAmount_run hstep h0 id hordered
    have hiff := ofInt64_sum_toInt64_iff hvs
    have hall (vs : List Double) : vs.map (toDouble : Double → Double) = vs := List.map_id _
    constructor
    · intro h
      have hamount := h.total_amount
      rw [htotal, hall] at hamount
      exact ⟨(Count_run hstep h0 id hordered).mp h.count, hiff.mp hamount⟩
    · intro hgiven
      rcases hgiven with ⟨hlength, hexact⟩
      refine reportsRecorded_of_sums hstep h0 id hordered hlength ?_ ?_
      · rw [htotal, hall]
        exact hiff.mpr hexact
      · rw [hall]
        rfl

theorem reportsRecorded_run_minute :
    ReportsRecorded ⟨intern_str "foo", ∅⟩ 60000 120000
        [(0, .Record 42), (60000, .Record 40), (60000, .Record (-1)), (60000, .Record 44)]
        (run ⟨intern_str "foo", ∅⟩ 60000 0 [(0, .Record 42), (60000, .Record 40),
          (60000, .Record (-1)), (60000, .Record (44 : Int64))]) ∧
      ReportsRecorded ⟨intern_str "foo", ∅⟩ 60000 120000 [(60000, .Record (Double.fin 40))]
        (run ⟨intern_str "foo", ∅⟩ 60000 0 [(60000, .Record (Double.fin 40))]) := by
  have hstep : (0 : ℤ) < 60000 := by omega
  refine ⟨((reportsRecorded_run hstep le_rfl _).1 _ (by decide)).mpr (by decide +kernel),
    ((reportsRecorded_run hstep le_rfl _).2 _ (by decide)).mpr ⟨by decide +kernel, ?_,
      by decide +kernel⟩⟩
  have hamounts : (recorded [((60000 : ℤ), DistributionOp.Record (Double.fin 40))]).map Prod.snd =
      [Double.fin 40] := by decide +kernel
  rw [hamounts]
  intro a ha
  exact ⟨40, List.mem_singleton.mp ha⟩

/-- Half a unit is lost by the total amount of a summary of doubles. -/
theorem total_amount_of_half :
    let events := [((0 : ℤ), DistributionOp.Record (Double.fin (1 / 2)))]
    (run ⟨intern_str "foo", ∅⟩ 60000 0 events).TotalAmount = .fin 0 ∧
      ¬ ReportsRecorded ⟨intern_str "foo", ∅⟩ 60000 0 events
        (run ⟨intern_str "foo", ∅⟩ 60000 0 events) := by
  refine ⟨by decide +kernel, fun h => ?_⟩
  exact absurd h.total_amount (by decide +kernel)

end DefaultDistributionSummaryNum

end AtlasNative
