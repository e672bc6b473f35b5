import AtlasNative.Publisher
import Mathlib.Algebra.BigOperators.Ring.Finset
import Mathlib.Data.List.Zip

/-!
# Both ways of publishing keep the same accounts

A batch accounts for its measurements as sent, dropped by the answer, dropped by the
validation or not a number. The two loops put these amounts down at different times, and
the totals of every counter are the same sums over the same batches.
-/

namespace AtlasNative

open ExactDouble Batches
set_option autoImplicit false

/-- What has been added to the counters that `p` selects. -/
def addedWhere (p : Id → Prop) [DecidablePred p] (adds : List (Id × ℤ)) : ℤ :=
  (adds.map fun a => if p a.1 then a.2 else 0).sum

abbrev addedTo (id : Id) (adds : List (Id × ℤ)) : ℤ := addedWhere (· = id) adds

/-- A counter of metrics that some HTTP status has dropped. -/
def IsHttpDrop (id : Id) : Prop :=
  id.name_ = intern_str "numMetricsDropped" ∧
    id.tags_.at_ (intern_str "error") = some (intern_str "httpError")

instance : DecidablePred IsHttpDrop := fun _ => inferInstanceAs (Decidable (_ ∧ _))

section Added
variable (p : Id → Prop) [DecidablePred p]

theorem addedWhere_append (adds adds' : List (Id × ℤ)) :
    addedWhere p (adds ++ adds') = addedWhere p adds + addedWhere p adds' := by
  rw [addedWhere, List.map_append, List.sum_append]
  rfl

theorem addedWhere_counterAdd (s : Pushed) (id : Id) (delta : ℤ) :
    addedWhere p (s.counterAdd id delta).adds =
      addedWhere p s.adds + if p id then delta else 0 := by
  rw [Pushed.counterAdd, addedWhere_append]
  simp [addedWhere]

/-- The counter that an answer names. -/
def answerId (http_code : ℤ) : Id :=
  if http_code ≠ 200 then droppedByHttp http_code else numMetricsSent

theorem account_eq (s : Pushed) (http_code n : ℤ) :
    s.account http_code n = s.counterAdd (answerId http_code) n := by
  unfold Pushed.account answerId
  split <;> rfl

end Added

section Encode
variable (walk : Tags → List (StrRef × StrRef)) (now_millis : ℤ) (validate : Bool)

/-- The measurement is sent unless the validation is on and does not let it pass. -/
def passes (measure : TagsValuePair) : Bool :=
  !measure.value.isnan && (!validate || AreTagsValid (walk measure.all_tags))

def fails (measure : TagsValuePair) : Bool :=
  !measure.value.isnan && (validate && !AreTagsValid (walk measure.all_tags))

theorem foldl_encodeOne (measurements : TagsValuePairs) (s : EncodeState) :
    (measurements.foldl (encodeOne walk now_millis validate) s).added =
        s.added + measurements.countP (passes walk validate) ∧
      (measurements.foldl (encodeOne walk now_millis validate) s).errors =
        s.errors + measurements.countP (fails walk validate) := by
  induction measurements generalizing s with
  | nil => simp
  | cons measure measurements ih =>
    obtain ⟨hadded, herrors⟩ := ih (encodeOne walk now_millis validate s measure)
    rw [List.foldl_cons, hadded, herrors, List.countP_cons, List.countP_cons]
    unfold encodeOne passes fails
    cases measure.value.isnan <;> cases validate <;>
      cases AreTagsValid (walk measure.all_tags) <;> simp <;> omega

theorem MeasurementsToJson_counts (measurements : TagsValuePairs) :
    (MeasurementsToJson walk now_millis measurements validate).metrics_added =
        measurements.countP (passes walk validate) ∧
      (MeasurementsToJson walk now_millis measurements validate).validation_errors =
        measurements.countP (fails walk validate) := by
  obtain ⟨hadded, herrors⟩ := foldl_encodeOne walk now_millis validate measurements ⟨[], 0, 0⟩
  exact ⟨hadded.trans (zero_add _), herrors.trans (zero_add _)⟩

/-- A measurement is sent, or it fails the validation, or it has no value. -/
theorem length_eq_counts (measurements : TagsValuePairs) :
    measurements.length = measurements.countP (passes walk validate) +
      measurements.countP (fails walk validate) +
      measurements.countP fun measure => measure.value.isnan := by
  induction measurements with
  | nil => rfl
  | cons measure measurements ih =>
    rw [List.length_cons, List.countP_cons, List.countP_cons, List.countP_cons, ih]
    unfold passes fails
    cases measure.value.isnan <;> cases validate <;>
      cases AreTagsValid (walk measure.all_tags) <;> simp <;> omega

end Encode

/-! The ids of the four accounts. -/

theorem droppedByHttp_error (code : ℤ) :
    (droppedByHttp code).tags_.at_ (intern_str "error") = some (intern_str "httpError") := by
  have hkey : intern_str "error" ≠ intern_str "statusCode" := by decide +kernel
  simp only [droppedByHttp, numMetricsDropped, List.foldl_cons, List.foldl_nil, Tags.at_add,
    if_neg hkey, if_true]

theorem droppedByValidation_error :
    droppedByValidation.tags_.at_ (intern_str "error") = some (intern_str "validationFailed") := by
  simp only [droppedByValidation, numMetricsDropped, List.foldl_cons, List.foldl_nil, Tags.at_add,
    if_true]

theorem isHttpDrop_droppedByHttp (code : ℤ) : IsHttpDrop (droppedByHttp code) :=
  ⟨rfl, droppedByHttp_error code⟩

theorem not_isHttpDrop_droppedByValidation : ¬ IsHttpDrop droppedByValidation := by
  intro h
  rw [IsHttpDrop, droppedByValidation_error] at h
  exact absurd h.2 (by decide +kernel)

theorem droppedByHttp_ne_droppedByValidation (code : ℤ) :
    droppedByHttp code ≠ droppedByValidation := by
  intro h
  exact not_isHttpDrop_droppedByValidation (h ▸ isHttpDrop_droppedByHttp code)

theorem ne_of_name_ne {id id' : Id} (h : id.name_ ≠ id'.name_) : id ≠ id' := by
  rintro rfl
  exact h rfl

theorem dropped_ne_numMetricsTotal (reason : List (String × String)) :
    numMetricsDropped reason ≠ numMetricsTotal :=
  ne_of_name_ne (show intern_str "numMetricsDropped" ≠ intern_str "numMetricsTotal" by
    decide +kernel)

theorem dropped_ne_numMetricsSent (reason : List (String × String)) :
    numMetricsDropped reason ≠ numMetricsSent :=
  ne_of_name_ne (show intern_str "numMetricsDropped" ≠ intern_str "numMetricsSent" by
    decide +kernel)

theorem numMetricsSent_ne_numMetricsTotal : numMetricsSent ≠ numMetricsTotal :=
  ne_of_name_ne (show intern_str "numMetricsSent" ≠ intern_str "numMetricsTotal" by
    decide +kernel)

section Batch
variable (walk : Tags → List (StrRef × StrRef)) (validate : Bool)

/-- What a batch that was answered with a status code adds to the counters `p` selects. -/
def batchAmount (p : Id → Prop) [DecidablePred p] (code : ℤ) (batch : TagsValuePairs) : ℤ :=
  (if p droppedByValidation then (batch.countP (fails walk validate) : ℤ) else 0) +
    (if p numMetricsTotal then (batch.length : ℤ) else 0) +
    if p (answerId code) then (batch.countP (passes walk validate) : ℤ) else 0

theorem batchAmount_balance (code : ℤ) (batch : TagsValuePairs) :
    batchAmount walk validate (· = numMetricsTotal) code batch =
      batchAmount walk validate (· = numMetricsSent) code batch +
        batchAmount walk validate IsHttpDrop code batch +
        batchAmount walk validate (· = droppedByValidation) code batch +
        (batch.countP fun measure => measure.value.isnan : ℕ) := by
  have hlength := length_eq_counts walk validate batch
  have hsent : ¬ IsHttpDrop numMetricsSent := fun h => absurd h.1 (by decide +kernel)
  have htotal : ¬ IsHttpDrop numMetricsTotal := fun h => absurd h.1 (by decide +kernel)
  have hv1 : droppedByValidation ≠ numMetricsTotal := dropped_ne_numMetricsTotal _
  have hv2 : droppedByValidation ≠ numMetricsSent := dropped_ne_numMetricsSent _
  unfold batchAmount answerId
  by_cases hcode : code = 200
  · rw [if_neg (not_not.mpr hcode)]
    simp only [hv1, hv2, hsent, htotal, not_isHttpDrop_droppedByValidation,
      numMetricsSent_ne_numMetricsTotal, numMetricsSent_ne_numMetricsTotal.symm, hv1.symm,
      hv2.symm, if_true, if_false]
    omega
  · rw [if_pos hcode]
    have hh1 : droppedByHttp code ≠ numMetricsTotal := dropped_ne_numMetricsTotal _
    have hh2 : droppedByHttp code ≠ numMetricsSent := dropped_ne_numMetricsSent _
    simp only [hv1, hv2, hh1, hh2, htotal, not_isHttpDrop_droppedByValidation,
      isHttpDrop_droppedByHttp, droppedByHttp_ne_droppedByValidation,
      numMetricsSent_ne_numMetricsTotal.symm, hv1.symm, if_true, if_false]
    omega

end Batch

section Runs
variable (walk : Tags → List (StrRef × StrRef)) (codes : ℕ → ℤ) (config : PublishConfig)
  (now_millis : ℤ) (p : Id → Prop) [DecidablePred p]

/-- The amounts of consecutive batches, the first of which has the number `k`. -/
def batchAmounts (k : ℕ) (bs : List TagsValuePairs) : ℤ :=
  ((bs.zipIdx k).map fun b =>
    batchAmount walk config.ShouldValidateMetrics p (codes b.2) b.1).sum

theorem SendBatch_spec (s : Pushed) (batch : TagsValuePairs) :
    (SendBatch walk codes config now_millis s batch).ranges = s.ranges ++ [batch] ∧
      addedWhere p (SendBatch walk codes config now_millis s batch).adds =
        addedWhere p s.adds +
          batchAmount walk config.ShouldValidateMetrics p (codes s.ranges.length) batch := by
  obtain ⟨hadded, herrors⟩ :=
    MeasurementsToJson_counts walk now_millis config.ShouldValidateMetrics batch
  unfold SendBatch batchAmount
  dsimp only
  rw [hadded, herrors]
  by_cases hnone : (batch.countP (passes walk config.ShouldValidateMetrics) : ℤ) = 0
  · rw [if_pos hnone, hnone]
    refine ⟨rfl, ?_⟩
    rw [Pushed.UpdateTotalSentStat, Pushed.UpdateValidationErrorStats, addedWhere_counterAdd,
      addedWhere_counterAdd]
    simp only [ite_self]
    omega
  · rw [if_neg hnone, account_eq]
    refine ⟨rfl, ?_⟩
    rw [addedWhere_counterAdd]
    dsimp only
    rw [Pushed.UpdateTotalSentStat, Pushed.UpdateValidationErrorStats, addedWhere_counterAdd,
      addedWhere_counterAdd]
    dsimp only
    omega

theorem foldl_SendBatch (bs : List TagsValuePairs) (s : Pushed) :
    (bs.foldl (SendBatch walk codes config now_millis) s).ranges = s.ranges ++ bs ∧
      addedWhere p (bs.foldl (SendBatch walk codes config now_millis) s).adds =
        addedWhere p s.adds + batchAmounts walk codes config p s.ranges.length bs := by
  induction bs generalizing s with
  | nil => simp [batchAmounts]
  | cons b bs ih =>
    obtain ⟨hranges, hadds⟩ := SendBatch_spec walk codes config now_millis p s b
    obtain ⟨hranges', hadds'⟩ := ih (SendBatch walk codes config now_millis s b)
    rw [List.foldl_cons, hranges', hadds', hranges, hadds]
    constructor
    · rw [List.append_assoc, List.singleton_append]
    · rw [List.length_append, List.length_singleton, batchAmounts, batchAmounts,
        List.zipIdx_cons, List.map_cons, List.sum_cons, add_assoc]

theorem foldl_collectBatch (bs : List TagsValuePairs) (s : Collected) :
    (bs.foldl (collectBatch walk config now_millis) s).ranges = s.ranges ++ bs ∧
      (bs.foldl (collectBatch walk config now_millis) s).batches.length =
        s.batches.length + bs.length ∧
      (bs.foldl (collectBatch walk config now_millis) s).batch_sizes = s.batch_sizes ++
        bs.map (fun b => (b.countP (passes walk config.ShouldValidateMetrics) : ℤ)) ∧
      (bs.foldl (collectBatch walk config now_millis) s).validation_errors =
        s.validation_errors +
          (bs.map fun b => (b.countP (fails walk config.ShouldValidateMetrics) : ℤ)).sum := by
  induction bs generalizing s with
  | nil => simp
  | cons b bs ih =>
    obtain ⟨hadded, herrors⟩ :=
      MeasurementsToJson_counts walk now_millis config.ShouldValidateMetrics b
    obtain ⟨hranges, hbatches, hsizes, hvalidation⟩ :=
      ih (collectBatch walk config now_millis s b)
    rw [List.foldl_cons, hranges, hbatches, hsizes, hvalidation]
    simp only [collectBatch, hadded, herrors, List.append_assoc, List.singleton_append,
      List.length_append, List.length_cons, List.length_nil, List.map_cons, List.sum_cons]
    refine ⟨trivial, by omega, trivial, by omega⟩

theorem foldl_account (rs : List (ℤ × ℤ)) (s : Pushed) :
    (rs.foldl (fun s r => s.account r.1 r.2) s).ranges = s.ranges ∧
      addedWhere p (rs.foldl (fun s r => s.account r.1 r.2) s).adds =
        addedWhere p s.adds + (rs.map fun r => if p (answerId r.1) then r.2 else 0).sum := by
  induction rs generalizing s with
  | nil => simp
  | cons r rs ih =>
    obtain ⟨hranges, hadds⟩ := ih (s.account r.1 r.2)
    rw [List.foldl_cons, hranges, hadds, account_eq, addedWhere_counterAdd, List.map_cons,
      List.sum_cons, add_assoc]
    exact ⟨rfl, rfl⟩

/-- The codes meet the sizes of the batches in the order of the batches. -/
theorem zip_post_batches (batches : List JsonValue) (bs : List TagsValuePairs)
    (size : TagsValuePairs → ℤ) (hlength : batches.length = bs.length) :
    (post_batches codes batches).zip (bs.map size) =
      bs.zipIdx.map fun b => (codes b.2, size b.1) := by
  rw [post_batches, hlength, List.zipIdx_eq_zip_range', ← List.range_eq_range', List.zip_map,
    ← List.zip_swap, List.map_map]
  rfl

theorem batchAmounts_eq (bs : List TagsValuePairs) :
    batchAmounts walk codes config p 0 bs =
      (if p droppedByValidation then
        (bs.map fun b => (b.countP (fails walk config.ShouldValidateMetrics) : ℤ)).sum else 0) +
      (if p numMetricsTotal then (bs.map fun b => (b.length : ℤ)).sum else 0) +
      (bs.zipIdx.map fun b => if p (answerId (codes b.2)) then
        (b.1.countP (passes walk config.ShouldValidateMetrics) : ℤ) else 0).sum := by
  -- the first two amounts of a batch do not depend on its number
  have hplain : ∀ f : TagsValuePairs → ℤ, (bs.zipIdx.map fun b => f b.1) = bs.map f := by
    intro f
    conv_rhs => rw [← List.zipIdx_map_fst 0 bs, List.map_map]
    rfl
  unfold batchAmounts batchAmount
  rw [List.sum_map_add, List.sum_map_add]
  congr 2
  · split
    · rw [← hplain]
    · simp
  · split
    · rw [← hplain]
    · simp

end Runs

/-- What two ways of publishing a list of measurements have in common. -/
structure SameAccounts (config : PublishConfig) (measurements : TagsValuePairs) (s s' : Pushed) :
    Prop where
  /-- Both cut the list into the same pieces of the size of a batch. -/
  ranges : Splits config.batch_size.toNat measurements s.ranges ∧ s'.ranges = s.ranges
  /-- Both have added as much to every counter. -/
  totals : ∀ id, addedTo id s'.adds = addedTo id s.adds
  /-- Every measurement is sent, dropped by an answer or by the validation, or has no value. -/
  balance : ∀ r ∈ [s, s'], addedTo numMetricsTotal r.adds =
    addedTo numMetricsSent r.adds + addedWhere IsHttpDrop r.adds +
      addedTo droppedByValidation r.adds +
      (measurements.countP fun measure => measure.value.isnan : ℕ)

section Publish
variable (walk : Tags → List (StrRef × StrRef)) (codes : ℕ → ℤ) (config : PublishConfig)
  (now_millis : ℤ)

theorem PushSerially_spec (hsize : 0 < config.batch_size) (measurements : TagsValuePairs)
    {fuel : ℕ} (hfuel : measurements.length < fuel) :
    ∃ s, PushSerially walk codes config now_millis measurements fuel = some s ∧
      Splits config.batch_size.toNat measurements s.ranges ∧
      ∀ (p : Id → Prop) [DecidablePred p],
        addedWhere p s.adds = batchAmounts walk codes config p 0 s.ranges := by
  obtain ⟨bs, hsplits, hloop⟩ := loop_eq (SendBatch walk codes config now_millis) hsize
    measurements hfuel ⟨[], [], []⟩
  refine ⟨_, hloop, ?_, ?_⟩
  · rw [(foldl_SendBatch walk codes config now_millis (fun _ => True) bs _).1]
    exact hsplits
  · intro p _
    obtain ⟨hranges, hadds⟩ := foldl_SendBatch walk codes config now_millis p bs ⟨[], [], []⟩
    rw [hranges, hadds]
    exact zero_add _

theorem PushInParallel_spec (hsize : 0 < config.batch_size) (measurements : TagsValuePairs)
    {fuel : ℕ} (hfuel : measurements.length < fuel) :
    ∃ s, PushInParallel walk codes config now_millis measurements fuel = some s ∧
      Splits config.batch_size.toNat measurements s.ranges ∧
      ∀ (p : Id → Prop) [DecidablePred p],
        addedWhere p s.adds = batchAmounts walk codes config p 0 s.ranges := by
  obtain ⟨bs, hsplits, hloop⟩ := loop_eq (collectBatch walk config now_millis) hsize
    measurements hfuel ⟨[], [], [], 0⟩
  obtain ⟨hranges, hbatches, hsizes, hvalidation⟩ :=
    foldl_collectBatch walk config now_millis bs ⟨[], [], [], 0⟩
  rw [List.nil_append] at hranges hsizes
  rw [List.length_nil, zero_add] at hbatches
  rw [zero_add] at hvalidation
  generalize bs.foldl (collectBatch walk config now_millis) ⟨[], [], [], 0⟩ = collected at *
  refine ⟨_, by rw [PushInParallel, hloop]; rfl, ?_, ?_⟩
  · rw [(foldl_account (fun _ => True) _ _).1]
    exact hranges ▸ hsplits
  · intro p _
    obtain ⟨hsame, hadds⟩ := foldl_account p
      ((post_batches codes collected.batches).zip collected.batch_sizes) _
    rw [hsame, hadds, Pushed.UpdateTotalSentStat, Pushed.UpdateValidationErrorStats]
    rw [addedWhere_counterAdd, addedWhere_counterAdd, hsizes, hvalidation,
      zip_post_batches codes collected.batches bs _ hbatches, List.map_map]
    have htotal : (measurements.length : ℤ) = (bs.map fun b => (b.length : ℤ)).sum := by
      rw [← hsplits.flatten, List.length_flatten, Nat.cast_list_sum, List.map_map]
      rfl
    rw [htotal]
    show _ = batchAmounts walk codes config p 0 collected.ranges
    rw [hranges, batchAmounts_eq]
    simp [addedWhere, Function.comp_def]

theorem batchAmounts_balance (bs : List TagsValuePairs) :
    batchAmounts walk codes config (· = numMetricsTotal) 0 bs =
      batchAmounts walk codes config (· = numMetricsSent) 0 bs +
        batchAmounts walk codes config IsHttpDrop 0 bs +
        batchAmounts walk codes config (· = droppedByValidation) 0 bs +
        (bs.flatten.countP fun measure => measure.value.isnan : ℕ) := by
  have hnan : ((bs.flatten.countP fun measure => measure.value.isnan : ℕ) : ℤ) =
      (bs.zipIdx.map fun b => ((b.1.countP fun measure => measure.value.isnan : ℕ) : ℤ)).sum := by
    rw [List.countP_flatten, Nat.cast_list_sum, List.map_map]
    conv_lhs => rw [← List.zipIdx_map_fst 0 bs, List.map_map]
    rfl
  rw [hnan]
  unfold batchAmounts
  rw [← List.sum_map_add, ← List.sum_map_add, ← List.sum_map_add]
  congr 1
  apply List.map_congr_left
  intro b _
  exact batchAmount_balance walk config.ShouldValidateMetrics (codes b.2) b.1

/-- With a positive batch size both loops end, and keep the same accounts. -/
theorem push_sameAccounts (hsize : 0 < config.batch_size) (measurements : TagsValuePairs)
    {fuel : ℕ} (hfuel : measurements.length < fuel) :
    ∃ s s', PushSerially walk codes config now_millis measurements fuel = some s ∧
      PushInParallel walk codes config now_millis measurements fuel = some s' ∧
      SameAccounts config measurements s s' := by
  obtain ⟨s, hserial, hsplits, hadds⟩ :=
    PushSerially_spec walk codes config now_millis hsize measurements hfuel
  obtain ⟨s', hparallel, hsplits', hadds'⟩ :=
    PushInParallel_spec walk codes config now_millis hsize measurements hfuel
  have hranges : s'.ranges = s.ranges := hsplits'.unique hsplits
  have hsame : ∀ (p : Id → Prop) [DecidablePred p], addedWhere p s'.adds = addedWhere p s.adds := by
    intro p _
    rw [hadds', hadds, hranges]
  have hbalance : addedTo numMetricsTotal s.adds =
      addedTo numMetricsSent s.adds + addedWhere IsHttpDrop s.adds +
        addedTo droppedByValidation s.adds +
        (measurements.countP fun measure => measure.value.isnan : ℕ) := by
    have hbatches := batchAmounts_balance walk codes config s.ranges
    rw [hsplits.flatten] at hbatches
    rw [addedTo, addedTo, addedTo, hadds, hadds, hadds, hadds, hbatches]
  refine ⟨s, s', hserial, hparallel, ⟨hsplits, hranges⟩, fun id => hsame _, ?_⟩
  intro r hr
  rcases List.mem_cons.mp hr with rfl | hr
  · exact hbalance
  · rw [List.mem_singleton.mp hr, addedTo, addedTo, addedTo, hsame, hsame, hsame, hsame]
    exact hbalance

end Publish

/-- Three measurements in batches of two: one is sent, one is not valid, one has no value. -/
theorem push_sameAccounts_three :
    let config : PublishConfig := ⟨2, false, true⟩
    let measurements : TagsValuePairs :=
      [.of (.of [("name", "requests")]) (.fin 1), .of (.of [("id", "no-name")]) (.fin 1),
        .of (.of [("name", "latency")]) .nan]
    ∃ s s', PushSerially sortedWalk (fun _ => 200) config 0 measurements 4 = some s ∧
      PushInParallel sortedWalk (fun _ => 200) config 0 measurements 4 = some s' ∧
      SameAccounts config measurements s s' :=
  push_sameAccounts sortedWalk (fun _ => 200) ⟨2, false, true⟩ 0 (by decide) _ (by decide)

end AtlasNative
