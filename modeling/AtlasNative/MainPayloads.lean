import AtlasNative.BooleanPrograms
import AtlasNative.MinuteReports
import AtlasNative.PublishAccounts
import AtlasNative.Rollup

/-!
# What the payloads of the main metrics say

The payloads that are posted hold, one behind the other, the metrics of the measurements
that have a value and pass the validation, whatever the batches and the way of posting are.
With the default rules these are the measurements of the main registry, so that the amounts
of a minute can be followed from a counter into the payloads.
-/

namespace AtlasNative

open ExactDouble Batches
set_option autoImplicit false

/-- The metrics that a reader finds in a payload. -/
def metricsOf : JsonValue → List JsonValue
  | .object [("tags", _), ("metrics", .array json_metrics)] => json_metrics
  | _ => []

section Posted
variable (walk : Tags → List (StrRef × StrRef)) (codes : ℕ → ℤ) (config : PublishConfig)
  (now_millis : ℤ)

def publishedMetrics (measurements : TagsValuePairs) : List JsonValue :=
  (measurements.filter (passes walk config.ShouldValidateMetrics)).map
    (metricToJson walk now_millis)

theorem publishedMetrics_append (l r : TagsValuePairs) :
    publishedMetrics walk config now_millis (l ++ r) =
      publishedMetrics walk config now_millis l ++ publishedMetrics walk config now_millis r := by
  rw [publishedMetrics, List.filter_append, List.map_append]
  rfl

theorem json_metrics_encodeOne (measure : TagsValuePair) (s : EncodeState) :
    (encodeOne walk now_millis config.ShouldValidateMetrics s measure).json_metrics =
      s.json_metrics ++ publishedMetrics walk config now_millis [measure] := by
  rw [publishedMetrics, List.filter_singleton]
  unfold encodeOne passes
  cases measure.value.isnan <;> cases config.ShouldValidateMetrics <;>
    cases AreTagsValid (walk measure.all_tags) <;> simp

theorem json_metrics_foldl_encodeOne (measurements : TagsValuePairs) (s : EncodeState) :
    (measurements.foldl (encodeOne walk now_millis config.ShouldValidateMetrics) s).json_metrics =
      s.json_metrics ++ publishedMetrics walk config now_millis measurements := by
  induction measurements generalizing s with
  | nil => exact (List.append_nil _).symm
  | cons measure measurements ih =>
    rw [List.foldl_cons, ih, json_metrics_encodeOne, ← List.singleton_append (l := measurements),
      publishedMetrics_append, List.append_assoc]

theorem metricsOf_payload (measurements : TagsValuePairs) :
    metricsOf (MeasurementsToJson walk now_millis measurements
        config.ShouldValidateMetrics).payload =
      publishedMetrics walk config now_millis measurements := by
  have hmetrics := json_metrics_foldl_encodeOne walk config now_millis measurements ⟨[], 0, 0⟩
  rw [List.nil_append] at hmetrics
  exact hmetrics

theorem posted_account (s : Pushed) (http_code num_measurements : ℤ) :
    (s.account http_code num_measurements).posted = s.posted := by
  unfold Pushed.account
  split <;> rfl

/-- A batch of which nothing is posted has nothing to publish. -/
theorem posted_SendBatch (s : Pushed) (batch : TagsValuePairs) :
    (SendBatch walk codes config now_millis s batch).posted.flatMap metricsOf =
      s.posted.flatMap metricsOf ++ publishedMetrics walk config now_millis batch := by
  obtain ⟨hadded, _⟩ :=
    MeasurementsToJson_counts walk now_millis config.ShouldValidateMetrics batch
  unfold SendBatch
  dsimp only
  split
  · rename_i hnone
    rw [hadded, Int.natCast_eq_zero, List.countP_eq_zero] at hnone
    have hempty : publishedMetrics walk config now_millis batch = [] := by
      rw [publishedMetrics, List.filter_eq_nil_iff.mpr hnone, List.map_nil]
    rw [hempty, List.append_nil]
    rfl
  · rw [posted_account]
    dsimp only
    rw [List.flatMap_append, List.flatMap_singleton, metricsOf_payload]
    rfl

theorem posted_foldl_SendBatch (bs : List TagsValuePairs) (s : Pushed) :
    (bs.foldl (SendBatch walk codes config now_millis) s).posted.flatMap metricsOf =
      s.posted.flatMap metricsOf ++ publishedMetrics walk config now_millis bs.flatten := by
  induction bs generalizing s with
  | nil => exact (List.append_nil _).symm
  | cons b bs ih =>
    rw [List.foldl_cons, ih, posted_SendBatch, List.flatten_cons, publishedMetrics_append,
      List.append_assoc]

theorem batches_foldl_collectBatch (bs : List TagsValuePairs) (s : Collected) :
    (bs.foldl (collectBatch walk config now_millis) s).batches.flatMap metricsOf =
      s.batches.flatMap metricsOf ++ publishedMetrics walk config now_millis bs.flatten := by
  induction bs generalizing s with
  | nil => exact (List.append_nil _).symm
  | cons b bs ih =>
    rw [List.foldl_cons, ih, collectBatch, List.flatMap_append, List.flatMap_singleton,
      metricsOf_payload, List.flatten_cons, publishedMetrics_append, List.append_assoc]

theorem posted_foldl_account (rs : List (ℤ × ℤ)) (s : Pushed) :
    (rs.foldl (fun s r => s.account r.1 r.2) s).posted = s.posted := by
  induction rs generalizing s with
  | nil => rfl
  | cons r rs ih => rw [List.foldl_cons, ih, posted_account]

/-- Both ways of posting publish what there is to publish, in its order. -/
theorem PushMeasurements_publishes (hsize : 0 < config.batch_size)
    (measurements : TagsValuePairs) {fuel : ℕ} (hfuel : measurements.length < fuel) :
    ∃ s, PushMeasurements walk codes config now_millis measurements fuel = some s ∧
      s.posted.flatMap metricsOf = publishedMetrics walk config now_millis measurements := by
  unfold PushMeasurements
  cases config.send_in_parallel with
  | true =>
    obtain ⟨bs, hsplits, hloop⟩ := loop_eq (collectBatch walk config now_millis) hsize
      measurements hfuel ⟨[], [], [], 0⟩
    have hbatches := batches_foldl_collectBatch walk config now_millis bs ⟨[], [], [], 0⟩
    rw [hsplits.flatten] at hbatches
    refine ⟨_, by rw [if_pos rfl, PushInParallel, hloop]; rfl, ?_⟩
    rw [posted_foldl_account]
    exact hbatches
  | false =>
    obtain ⟨bs, hsplits, hloop⟩ := loop_eq (SendBatch walk codes config now_millis) hsize
      measurements hfuel ⟨[], [], []⟩
    refine ⟨_, hloop, ?_⟩
    rw [posted_foldl_SendBatch, hsplits.flatten]
    rfl

end Posted

/-! ### The default rules -/

/-- No rules at all are taken for the rule that is the default. -/
def PublishesAll (rules : List String) : Prop := rules = [] ∨ rules = [":true,:all"]

theorem execStack_all (rt : Runtime) :
    Interpreter.execStack rt ":true,:all" = .ok [.results (.all .true_)] := by
  have hsplit : interpreter.split ":true,:all" [] =
      .ok [Word.TrueWord.token, Word.AllWord.token] := by
    rw [interpreter.split_eq (by decide)]
    decide +kernel
  refine Interpreter.execStack_eq_ok (r := none) hsplit ?_
  rw [run_word]
  rfl

theorem get_main_measurements_all (rt : Runtime) {rules : List String} (h : PublishesAll rules)
    (common_tags : Tags) (all_measurements : Measurements) :
    ∃ main, get_main_measurements rt rules common_tags all_measurements = .ok main ∧
      main.result = all_measurements.map fun m => TagsValuePair.from m common_tags := by
  cases all_measurements with
  | nil => exact ⟨_, rfl, rfl⟩
  | cons m all_measurements =>
    rcases h with rfl | rfl
    · exact ⟨_, rfl, rfl⟩
    · have hrules : ∀ rule ∈ [":true,:all"], LeavesRollup rt rule := by
        intro rule hrule
        rw [List.mem_singleton.mp hrule]
        exact ⟨_, execStack_all rt, .all .true_⟩
      have hquery : ruleQuery rt ":true,:all" = .true_ := by
        rw [ruleQuery, execStack_all]
        rfl
      have heval : ∀ l, Evaluator.eval rt ":true,:all" l = .ok l := by
        intro l
        rw [eval_of_execStack (.all .true_) (execStack_all rt), Evaluator.evalStack_results]
        rfl
      have hshares : ∀ l, shares rt ([":true,:all"].map (ruleQuery rt)) l = [l] := by
        intro l
        rw [List.map_singleton, hquery, shares, shares]
        exact congrArg (fun l => [l]) (List.filter_eq_self.mpr fun _ _ => rfl)
      simp only [get_main_measurements, List.isEmpty_cons, Bool.false_eq_true, if_false]
      rw [measurementsForRule_eq hrules, hshares]
      show ∃ main, (applyRules rt _ _ >>= _) = _ ∧ _
      rw [applyRules, heval]
      refine ⟨_, rfl, ?_⟩
      exact List.append_nil _

/-! ### From a counter into the payloads -/

/-- A report about an amount has nothing else of its id. -/
theorem ReportsAmount.split {id : Id} {report : Measurements} {timestamp S : ℤ}
    (h : ReportsAmount id report timestamp S) :
    ∃ earlier later, (∀ m ∈ earlier ++ later, m.id ≠ id) ∧
      report = earlier ++ (if 0 < S then [⟨id, timestamp, .fin (S / 60)⟩] else []) ++ later := by
  rw [ReportsAmount] at h
  by_cases hS : 0 < S
  · rw [if_pos hS] at h
    obtain ⟨earlier, later, rfl, hearlier, -, hlater⟩ := List.filter_eq_cons_iff.mp h
    refine ⟨earlier, later, ?_, by rw [if_pos hS, List.append_assoc, List.singleton_append]⟩
    intro m hm hid
    rcases List.mem_append.mp hm with hm | hm
    · exact hearlier m hm (decide_eq_true hid)
    · exact List.filter_eq_nil_iff.mp hlater m hm (decide_eq_true hid)
  · rw [if_neg hS] at h
    refine ⟨report, [], ?_, by rw [if_neg hS, List.append_nil, List.append_nil]⟩
    intro m hm hid
    rw [List.append_nil] at hm
    exact List.filter_eq_nil_iff.mp h m hm (decide_eq_true hid)

/-- The report at the beginning of a minute is about what was added in the minute before. -/
theorem CounterRun.reportsAmount {b c₀ j c j' now t : ℤ} {id : Id}
    {before after : List RegistryEvent} (h : CounterRun b c₀ j c id before after j' now)
    (hop : aggregate_op (MeterOp.counter id).meterId = .Add)
    (hnow : now ≤ t) (ht : t = 5000 * j' + b) (hminute : t % 60000 < 5000) :
    ReportsAmount (MeterOp.counter id).meterId
      (((CounterRun.result c₀ c id before after).update t).report t) (60000 * (t / 60000))
      (addedBetween (MeterOp.counter id).meterId (60000 * (t / 60000) - 60000)
        (60000 * (t / 60000)) after).sum := by
  obtain ⟨hb0, hb⟩ := h.offset
  obtain ⟨hinv, hrecords⟩ := h.runInv hop
  subst ht
  have hM : (5000 * j' + b) / 60000 = j' / 12 := by omega
  have hsum := sumWhere_added (p := (· / 12 = j' / 12 - 1)) (60000 * (j' / 12) - 60000)
    (60000 * (j' / 12)) (fun t => by omega) (MeterOp.counter id).meterId after
  rw [hM, ← hsum]
  exact hinv.reportsAmount hop hb0 hb hnow (hinv.rates hb0 hb hrecords hnow) (by omega)

section Counter
variable (rt : Runtime) (walk : Tags → List (StrRef × StrRef)) (codes : ℕ → ℤ)
  (config : PublishConfig) (common_tags : Tags)

/-- The metrics of a report, under its timestamp. -/
def reportMetrics (now_millis : ℤ) (report : Measurements) : List JsonValue :=
  publishedMetrics walk config now_millis
    (report.map fun m => TagsValuePair.from m common_tags)

theorem reportMetrics_append (now_millis : ℤ) (l r : Measurements) :
    reportMetrics walk config common_tags now_millis (l ++ r) =
      reportMetrics walk config common_tags now_millis l ++
        reportMetrics walk config common_tags now_millis r := by
  rw [reportMetrics, List.map_append, publishedMetrics_append]
  rfl

/-- What is added to a counter in a minute is posted once, at the beginning of the next minute:
its metrics stand between those of other ids, and there are none if nothing was added. -/
theorem posted_minute {b c₀ j c j' now t : ℤ} {id : Id} {before after : List RegistryEvent}
    (h : CounterRun b c₀ j c id before after j' now)
    (hop : aggregate_op (MeterOp.counter id).meterId = .Add)
    (hnow : now ≤ t) (ht : t = 5000 * j' + b) (hminute : t % 60000 < 5000)
    {rules : List String} (hrules : PublishesAll rules) (hsize : 0 < config.batch_size) :
    let counterId := (MeterOp.counter id).meterId
    let timestamp := 60000 * (t / 60000)
    let S := (addedBetween counterId (timestamp - 60000) timestamp after).sum
    ∃ main fuel s earlier later,
      get_main_measurements rt rules common_tags
        (((CounterRun.result c₀ c id before after).update t).report t) = .ok main ∧
      PushMeasurements walk codes config timestamp main.result fuel = some s ∧
      (∀ m ∈ earlier ++ later, m.id ≠ counterId) ∧
      s.posted.flatMap metricsOf =
        reportMetrics walk config common_tags timestamp earlier ++
          reportMetrics walk config common_tags timestamp
            (if 0 < S then [⟨counterId, timestamp, .fin (S / 60)⟩] else []) ++
          reportMetrics walk config common_tags timestamp later := by
  intro counterId timestamp S
  obtain ⟨earlier, later, hothers, heq⟩ := (h.reportsAmount hop hnow ht hminute).split
  obtain ⟨main, hmain, hresult⟩ := get_main_measurements_all rt hrules common_tags
    (((CounterRun.result c₀ c id before after).update t).report t)
  obtain ⟨s, hpush, hposted⟩ := PushMeasurements_publishes walk codes config timestamp hsize
    main.result (Nat.lt_succ_self _)
  rw [hresult] at hposted
  refine ⟨main, _, s, earlier, later, hmain, hpush, hothers, ?_⟩
  rw [hposted, ← reportMetrics_append, ← reportMetrics_append, ← heq]
  rfl

theorem posted_minute_single :
    let counterId := (MeterOp.counter ⟨intern_str "a", ∅⟩).meterId
    let after := [RegistryEvent.op 111000 (.add counterId 60), .tick 115000]
    let S := (addedBetween counterId 60000 120000 after).sum
    S = 60 ∧ ∃ main fuel s earlier later,
      get_main_measurements plainRuntime [":true,:all"] ∅
        (((CounterRun.result 110000 110000 ⟨intern_str "a", ∅⟩ [] after).update 120000).report
          120000) = .ok main ∧
      PushMeasurements sortedWalk (fun _ => 200) ⟨2, true, true⟩ 120000 main.result fuel = some s ∧
      (∀ m ∈ earlier ++ later, m.id ≠ counterId) ∧
      s.posted.flatMap metricsOf =
        reportMetrics sortedWalk ⟨2, true, true⟩ ∅ 120000 earlier ++
          reportMetrics sortedWalk ⟨2, true, true⟩ ∅ 120000
            (if 0 < S then [⟨counterId, 120000, .fin (S / 60)⟩] else []) ++
          reportMetrics sortedWalk ⟨2, true, true⟩ ∅ 120000 later := by
  intro counterId after S
  have hrun := counterRun_increment_before_minute ⟨intern_str "a", ∅⟩ (by decide)
  exact ⟨by decide +kernel, posted_minute plainRuntime sortedWalk (fun _ => 200) ⟨2, true, true⟩ ∅
    hrun (by decide) (show (115000 : ℤ) ≤ 120000 by decide) (by decide) (by decide) (.inr rfl)
    (by decide)⟩

end Counter

end AtlasNative
