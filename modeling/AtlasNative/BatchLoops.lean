import AtlasNative.HttpConfig
import AtlasNative.PublishAccounts

/-!
# The batching loops

`SendSubscriptions` cuts the results of the subscriptions into batches as the two ways of
pushing measurements do. All three loops advance by the smaller of the configured size and
what is left of the list, so that they end only when that size is positive. With a negative
size the positions move backward: a batch of measurements is empty then, while
`SubResultsToJson` reads outside of its list, so that no loop of either kind returns.
-/

namespace AtlasNative

open ExactDouble Batches
set_option autoImplicit false

def with_freq (freq_millis : ℤ) : Tags :=
  .of [("id", secs_for_millis freq_millis)]

def sendLwcErrors (freq_millis : ℤ) : Id :=
  ⟨intern_str "atlas.client.sendLwcErrors", with_freq freq_millis⟩

section Subscriptions
/-! `now` is the time and `codes` the HTTP status of each batch, by its number. -/
variable (walk : Tags → List (StrRef × StrRef)) (codes now : ℕ → ℤ)

def subResultToJson (result : SubscriptionMetric) : JsonValue :=
  .object
    [("id", .string result.id),
    ("tags", .object ((walk result.tags).map fun kv => (kv.1.str, .string kv.2.str))),
    ("value", .double result.value)]

def SubResultsToJson (now_millis : ℤ) (sub_results : SubscriptionResults) : JsonValue :=
  .object [("timestamp", .integer now_millis),
    ("metrics", .array (sub_results.map (subResultToJson walk)))]

/-- What sending results leaves behind: the ranges that were cut, in order, the payloads,
and what was added to counters. -/
structure SentResults where
  ranges : List SubscriptionResults
  posted : List JsonValue
  adds : List (Id × ℤ)

/-- The timer and the dumps of the payloads are left out. -/
def batch_to_lwc (freq_millis : ℤ) (s : SentResults) (batch : SubscriptionResults) :
    SentResults :=
  let number := s.ranges.length
  { ranges := s.ranges ++ [batch]
    posted := s.posted ++ [SubResultsToJson walk (now number) batch]
    adds := if codes number ≠ 200 then s.adds ++ [(sendLwcErrors freq_millis, 1)] else s.adds }

def SendSubscriptions (config : HttpConfig) (freq_millis : ℤ) (sub_results : SubscriptionResults)
    (fuel : ℕ) : Option SentResults :=
  loop (batch_to_lwc walk codes now freq_millis) config.batch_size sub_results fuel 0 ⟨[], [], []⟩

theorem ranges_batch_to_lwc (freq_millis : ℤ) (bs : List SubscriptionResults) (s : SentResults) :
    (bs.foldl (batch_to_lwc walk codes now freq_millis) s).ranges = s.ranges ++ bs := by
  induction bs generalizing s with
  | nil => exact (List.append_nil _).symm
  | cons b bs ih =>
    rw [List.foldl_cons, ih, batch_to_lwc, List.append_assoc, List.singleton_append]

theorem SendSubscriptions_spec {config : HttpConfig} (hsize : 0 < config.batch_size)
    (freq_millis : ℤ) (sub_results : SubscriptionResults) :
    ∃ fuel s, SendSubscriptions walk codes now config freq_millis sub_results fuel = some s ∧
      Pieces config.batch_size sub_results s.ranges := by
  obtain ⟨bs, hsplits, hloop⟩ := loop_eq (batch_to_lwc walk codes now freq_millis) hsize
    sub_results (Nat.lt_succ_self _) ⟨[], [], []⟩
  refine ⟨_, _, hloop, ?_⟩
  rw [ranges_batch_to_lwc]
  exact hsplits.pieces hsize

end Subscriptions

/-- What the publisher reads of a configuration with this HTTP part. -/
def publishConfig (http : HttpConfig) (ShouldValidateMetrics : Bool) : PublishConfig :=
  ⟨http.batch_size, http.send_in_parallel, ShouldValidateMetrics⟩

theorem length_pos_of_ne_nil {A : Type} {l : List A} (h : l ≠ []) : (0 : ℤ) < l.length := by
  have hpos := List.length_pos_iff.mpr h
  omega

section Loops
variable (walk : Tags → List (StrRef × StrRef)) (codes now : ℕ → ℤ) (http : HttpConfig)
  (ShouldValidateMetrics : Bool) (now_millis freq_millis : ℤ)
  (measurements : TagsValuePairs) (sub_results : SubscriptionResults)

/-- All three loops end, and cut their list into pieces of at most the size of a batch. -/
structure LoopsEnd : Prop where
  serial : ∃ fuel s, PushSerially walk codes (publishConfig http ShouldValidateMetrics)
    now_millis measurements fuel = some s ∧ Pieces http.batch_size measurements s.ranges
  parallel : ∃ fuel s, PushInParallel walk codes (publishConfig http ShouldValidateMetrics)
    now_millis measurements fuel = some s ∧ Pieces http.batch_size measurements s.ranges
  subscriptions : ∃ fuel s, SendSubscriptions walk codes now http freq_millis sub_results fuel =
    some s ∧ Pieces http.batch_size sub_results s.ranges

theorem loopsEnd_nil :
    LoopsEnd walk codes now http ShouldValidateMetrics now_millis freq_millis [] [] where
  serial := ⟨1, _, loop_end _ _ [] 0 _, .nil _⟩
  parallel := by
    have hloop := loop_end (collectBatch walk (publishConfig http ShouldValidateMetrics) now_millis)
      http.batch_size [] 0 ⟨[], [], [], 0⟩
    exact ⟨1, _, congrArg (Option.map _) hloop, .nil _⟩
  subscriptions := ⟨1, _, loop_end _ _ [] 0 _, .nil _⟩

/-- The loops end exactly when the size of a batch is positive or there is nothing to cut. -/
theorem batching_loops_end_iff :
    LoopsEnd walk codes now http ShouldValidateMetrics now_millis freq_millis measurements
        sub_results ↔
      0 < http.batch_size ∨ (measurements = [] ∧ sub_results = []) := by
  constructor
  · intro h
    by_contra hcon
    rw [not_or, not_lt, not_and_or] at hcon
    obtain ⟨hsize, hne | hne⟩ := hcon
    · obtain ⟨fuel, s, hs, _⟩ := h.serial
      have hnone : PushSerially walk codes (publishConfig http ShouldValidateMetrics) now_millis
          measurements fuel = none := loop_eq_none hsize (length_pos_of_ne_nil hne) fuel _
      rw [hnone] at hs
      cases hs
    · obtain ⟨fuel, s, hs, _⟩ := h.subscriptions
      have hnone : SendSubscriptions walk codes now http freq_millis sub_results fuel = none :=
        loop_eq_none hsize (length_pos_of_ne_nil hne) fuel _
      rw [hnone] at hs
      cases hs
  · intro hcases
    rcases hcases with hsize | ⟨rfl, rfl⟩
    · obtain ⟨s, hserial, hsplits, _⟩ := PushSerially_spec walk codes
        (publishConfig http ShouldValidateMetrics) now_millis hsize measurements
        (Nat.lt_succ_self _)
      obtain ⟨s', hparallel, hsplits', _⟩ := PushInParallel_spec walk codes
        (publishConfig http ShouldValidateMetrics) now_millis hsize measurements
        (Nat.lt_succ_self _)
      exact ⟨⟨_, s, hserial, hsplits.pieces hsize⟩, ⟨_, s', hparallel, hsplits'.pieces hsize⟩,
        SendSubscriptions_spec walk codes now hsize freq_millis sub_results⟩
    · exact loopsEnd_nil walk codes now http ShouldValidateMetrics now_millis freq_millis

/-- `{"batchSize": 0}` is accepted, and no loop over one measurement ends. -/
theorem batch_size_zero_never_ends :
    ∃ http, HttpConfig.FromJson false (.object [("batchSize", .integer 0)]) .initial = .ok http ∧
      ¬ LoopsEnd sortedWalk (fun _ => 200) (fun _ => 0) http true 0 5000 [.of ∅ 0] [] := by
  refine ⟨⟨6, 20, 0, false⟩, rfl, ?_⟩
  intro h
  obtain ⟨fuel, s, hs, _⟩ := h.serial
  have hnone : PushSerially sortedWalk (fun _ => 200) (publishConfig ⟨6, 20, 0, false⟩ true) 0
      [.of ∅ 0] fuel = none := loop_eq_none (by decide) (by decide) fuel _
  rw [hnone] at hs
  cases hs

end Loops

end AtlasNative
