import AtlasNative.Lib.Batches
import AtlasNative.SubscriptionPayload
import AtlasNative.Validation

/-!
# The publisher

Measurements are cut into batches, encoded and posted. The serial path posts and accounts
batch by batch and has nothing to post for a batch without metrics; the parallel path
encodes all batches first, posts all of them and accounts once. What is added to counters is
a log of ids and amounts. Timers and dumps of the payloads are left out.
-/

namespace AtlasNative

open ExactDouble Batches
set_option autoImplicit false

/-- What the publisher reads of the configuration. -/
structure PublishConfig where
  batch_size : ℤ
  send_in_parallel : Bool
  ShouldValidateMetrics : Bool

def atlas_client_tags : Tags := .of [("class", "NetflixAtlasObserver"), ("id", "main-vip")]

def numMetricsSent : Id := ⟨intern_str "numMetricsSent", atlas_client_tags⟩

def numMetricsTotal : Id := ⟨intern_str "numMetricsTotal", atlas_client_tags⟩

/-- `numMetricsDropped`, with the reason that metrics were dropped for. -/
def numMetricsDropped (reason : List (String × String)) : Id :=
  ⟨intern_str "numMetricsDropped", reason.foldl
    (fun tags kv => tags.add (intern_str kv.1) (intern_str kv.2)) atlas_client_tags⟩

def droppedByHttp (status_code : ℤ) : Id :=
  numMetricsDropped [("error", "httpError"), ("statusCode", toString status_code)]

def droppedByValidation : Id := numMetricsDropped [("error", "validationFailed")]

/-- What a push leaves behind: the ranges it has cut, in order, the payloads it has posted,
and what it has added to counters. -/
structure Pushed where
  ranges : List TagsValuePairs
  posted : List JsonValue
  adds : List (Id × ℤ)

namespace Pushed

def counterAdd (s : Pushed) (id : Id) (delta : ℤ) : Pushed :=
  { s with adds := s.adds ++ [(id, delta)] }

def UpdateSentStat (s : Pushed) (delta : ℤ) : Pushed := s.counterAdd numMetricsSent delta

def UpdateHttpErrorsStat (s : Pushed) (status_code errors : ℤ) : Pushed :=
  s.counterAdd (droppedByHttp status_code) errors

def UpdateTotalSentStat (s : Pushed) (total_sent : ℤ) : Pushed :=
  s.counterAdd numMetricsTotal total_sent

def UpdateValidationErrorStats (s : Pushed) (errors : ℤ) : Pushed :=
  s.counterAdd droppedByValidation errors

/-- The answer to a batch says which counter its metrics go to. -/
def account (s : Pushed) (http_code num_measurements : ℤ) : Pushed :=
  if http_code ≠ 200 then s.UpdateHttpErrorsStat http_code num_measurements
  else s.UpdateSentStat num_measurements

end Pushed

section Push
/-! `walk` is the order of the hash tables of tags, and `codes` the HTTP status of each
batch, by its number. -/
variable (walk : Tags → List (StrRef × StrRef)) (codes : ℕ → ℤ)

def metricToJson (now_millis : ℤ) (measure : TagsValuePair) : JsonValue :=
  .object
    [("tags", .object ((walk measure.all_tags).map fun tag =>
      ((ToValidCharset tag.1).str, .string (EncodeValueForKey tag.2 tag.1).str))),
    ("start", .integer now_millis), ("value", .double measure.value)]

/-- The payload, with the two counts that are passed back. -/
structure EncodedBatch where
  payload : JsonValue
  metrics_added : ℤ
  validation_errors : ℤ

/-- The metrics of a payload so far, with the two counts. -/
structure EncodeState where
  json_metrics : List JsonValue
  added : ℤ
  errors : ℤ

/-- The body of the loop in `MeasurementsToJson`. -/
def encodeOne (now_millis : ℤ) (validate : Bool) (s : EncodeState) (measure : TagsValuePair) :
    EncodeState :=
  if measure.value.isnan then s
  else if validate && !AreTagsValid (walk measure.all_tags) then
    { s with errors := s.errors + 1 }
  else
    { s with
      json_metrics := s.json_metrics ++ [metricToJson walk now_millis measure]
      added := s.added + 1 }

def MeasurementsToJson (now_millis : ℤ) (measurements : TagsValuePairs) (validate : Bool) :
    EncodedBatch :=
  let s := measurements.foldl (encodeOne walk now_millis validate) ⟨[], 0, 0⟩
  ⟨.object [("tags", .object []), ("metrics", .array s.json_metrics)], s.added, s.errors⟩

variable (config : PublishConfig) (now_millis : ℤ)

def SendBatch (s : Pushed) (batch : TagsValuePairs) : Pushed :=
  let num_metrics := (batch.length : ℤ)
  let encoded := MeasurementsToJson walk now_millis batch config.ShouldValidateMetrics
  let http_res := codes s.ranges.length
  let cut := { s with ranges := s.ranges ++ [batch] }
  let counted := (cut.UpdateValidationErrorStats encoded.validation_errors).UpdateTotalSentStat
    num_metrics
  if encoded.metrics_added = 0 then counted
  else
    { counted with posted := counted.posted ++ [encoded.payload] }.account http_res
      encoded.metrics_added

def PushSerially (measurements : TagsValuePairs) (fuel : ℕ) : Option Pushed :=
  loop (SendBatch walk codes config now_millis) config.batch_size measurements fuel 0 ⟨[], [], []⟩

/-- What `PushInParallel` has collected before it posts. -/
structure Collected where
  ranges : List TagsValuePairs
  batches : List JsonValue
  batch_sizes : List ℤ
  validation_errors : ℤ

/-- The body of the loop in `PushInParallel`. -/
def collectBatch (s : Collected) (batch : TagsValuePairs) : Collected :=
  let encoded := MeasurementsToJson walk now_millis batch config.ShouldValidateMetrics
  { ranges := s.ranges ++ [batch]
    batches := s.batches ++ [encoded.payload]
    batch_sizes := s.batch_sizes ++ [encoded.metrics_added]
    validation_errors := s.validation_errors + encoded.validation_errors }

/-- `post_batches` gives one status code for each batch. -/
def post_batches (batches : List JsonValue) : List ℤ := (List.range batches.length).map codes

def PushInParallel (measurements : TagsValuePairs) (fuel : ℕ) : Option Pushed :=
  (loop (collectBatch walk config now_millis) config.batch_size measurements fuel 0
    ⟨[], [], [], 0⟩).map fun collected =>
      let http_codes := post_batches codes collected.batches
      let posted : Pushed := ⟨collected.ranges, collected.batches, []⟩
      let counted := (posted.UpdateValidationErrorStats
        collected.validation_errors).UpdateTotalSentStat measurements.length
      (http_codes.zip collected.batch_sizes).foldl (fun s r => s.account r.1 r.2) counted

def PushMeasurements (measurements : TagsValuePairs) (fuel : ℕ) : Option Pushed :=
  if config.send_in_parallel then PushInParallel walk codes config now_millis measurements fuel
  else PushSerially walk codes config now_millis measurements fuel

end Push

end AtlasNative
