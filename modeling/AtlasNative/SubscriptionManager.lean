import AtlasNative.MainRegistry
import AtlasNative.Rollup

/-!
# The subscription manager

The manager owns the registries and the subscriptions of every interval. Its sender feeds
the registries every 5 s and sends what is due; `Stop` flushes what is left. What the
manager records about itself in its own registry, such as sizes and durations, is among
the operations of the clients of that registry.
-/

namespace AtlasNative

open ExactDouble
set_option autoImplicit false

structure Subscription where
  id : String
  frequency : ℤ
  expression : String
  deriving DecidableEq

abbrev Subscriptions := List Subscription

/-- The subscriptions to the intervals of `(i + 1) * 5` seconds, `i < kMainMultiple`. -/
abbrev ParsedSubscriptions := Fin 12 → Subscriptions

structure SubscriptionMetric where
  id : String
  tags : Tags
  value : Double

abbrev SubscriptionResults := List SubscriptionMetric

/-- The part of the configuration that the manager reads. -/
structure Config where
  IsMainEnabled : Bool
  AreSubsEnabled : Bool
  CommonTags : Tags
  PublishConfig : List String

/-- The clock of the manager is the underlying one, moved by `offset_`. -/
structure SubscriptionManager extends Registries where
  offset_ : ℤ
  current_etag : String
  subscriptions_ : ParsedSubscriptions
  sub_registries_ : Fin 12 → ConsolidationRegistry

/-- What is handed to the publisher: the main metrics, and the results of the subscriptions
to each interval that is served. -/
structure Sent where
  main : Option (Except Fault MainMeasurements)
  subs : List (ℤ × Except Fault SubscriptionResults)

def generate_sub_results (rt : Runtime) (subs : Subscriptions) (pairs : TagsValuePairs) :
    Except Fault SubscriptionResults := do
  let results ← subs.mapM fun s => do
    let expr_result ← Evaluator.eval rt s.expression pairs
    return (expr_result.filter fun pair => !pair.value.isnan).map fun pair =>
      (⟨s.id, pair.all_tags, pair.value⟩ : SubscriptionMetric)
  return results.flatten

namespace SubscriptionManager

def create (now : ℤ) : SubscriptionManager :=
  { Registries.create now with
    offset_ := 0
    current_etag := ""
    subscriptions_ := fun _ => []
    sub_registries_ := fun i =>
      .create kFastestFrequencyMillis (kFastestFrequencyMillis * (i + 1)) }

def WallTime (m : SubscriptionManager) (underlying : ℤ) : ℤ := underlying + m.offset_

def update_registries (config : Config) (now : ℤ) (m : SubscriptionManager) :
    SubscriptionManager :=
  let measurements := m.registry_.measurements now
  { m with
    registry_ := m.registry_.afterMeasurements now
    main_registry_ :=
      if config.IsMainEnabled then m.main_registry_.update_from now measurements
      else m.main_registry_
    sub_registries_ := fun i =>
      if config.AreSubsEnabled && !(m.subscriptions_ i).isEmpty then
        (m.sub_registries_ i).update_from now measurements
      else m.sub_registries_ i }

section Send
variable (rt : Runtime) (config : Config) (now : ℤ)

def send_to_main (m : SubscriptionManager) :
    SubscriptionManager × Except Fault MainMeasurements :=
  ({ m with toRegistries := m.toRegistries.send now },
    get_main_measurements rt config.PublishConfig config.CommonTags (m.toRegistries.report now))

def sub_idx (millis : ℤ) : Fin 12 :=
  Fin.ofNat 12 (millis.tdiv kFastestFrequencyMillis - 1).toNat

/-- The measurements of the registry of an interval, through all its subscriptions. -/
def get_lwc_metrics (m : SubscriptionManager) (i : Fin 12) :
    Except Fault SubscriptionResults :=
  generate_sub_results rt (m.subscriptions_ i)
    (((m.sub_registries_ i).measurements now now).map fun x =>
      TagsValuePair.from x config.CommonTags)

def send_subscriptions (m : SubscriptionManager) (millis : ℤ) :
    SubscriptionManager × Except Fault SubscriptionResults :=
  ({ m with
      sub_registries_ := fun i =>
        if i = sub_idx millis then (m.sub_registries_ i).afterMeasurements now
        else m.sub_registries_ i },
    m.get_lwc_metrics rt config now (sub_idx millis))

def sendMain (due : Bool) (m : SubscriptionManager) :
    SubscriptionManager × Option (Except Fault MainMeasurements) :=
  if due && config.IsMainEnabled then
    ((m.send_to_main rt config now).1, some (m.send_to_main rt config now).2)
  else (m, none)

def sendSubs (p : SubscriptionManager × List (ℤ × Except Fault SubscriptionResults))
    (i : Fin 12) : SubscriptionManager × List (ℤ × Except Fault SubscriptionResults) :=
  if config.AreSubsEnabled && !(p.1.subscriptions_ i).isEmpty then
    let millis := (i + 1) * kFastestFrequencyMillis
    ((p.1.send_subscriptions rt config now millis).1,
      p.2 ++ [(millis, (p.1.send_subscriptions rt config now millis).2)])
  else p

end Send

/-- The body of the loop in `main_sender`. -/
def main_sender_round (rt : Runtime) (config : Config) (run : ℕ) (underlying : ℤ)
    (m : SubscriptionManager) : SubscriptionManager × Sent :=
  let now := m.WallTime underlying
  let idx := Fin.ofNat 12 run
  let main := (m.update_registries config now).sendMain rt config now
    (decide (now.tmod 60000 < kFastestFrequencyMillis))
  let subs := sendSubs rt config now (main.1, []) idx
  (subs.1, ⟨main.2, subs.2⟩)

def flush_metrics (rt : Runtime) (config : Config) (underlying : ℤ) (m : SubscriptionManager) :
    SubscriptionManager × Sent :=
  let now := m.WallTime underlying
  let main := (m.update_registries config now).sendMain rt config now true
  let subs := (List.finRange 12).foldl (sendSubs rt config now) (main.1, [])
  (subs.1, ⟨main.2, subs.2⟩)

/-- Both flushes of `Stop`, once the threads have ended. In between the clock is moved to
the start of the next step. -/
def Stop (rt : Runtime) (config : Config) (underlying : ℤ) (m : SubscriptionManager) :
    SubscriptionManager × List Sent :=
  let prev_step := (m.WallTime underlying).tdiv kMainFrequencyMillis * kMainFrequencyMillis
  let first := m.flush_metrics rt config underlying
  let now_offset := first.1.WallTime underlying - prev_step
  let second := { first.1 with offset_ := kMainFrequencyMillis - now_offset }.flush_metrics rt
    config underlying
  (second.1, [first.2, second.2])

end SubscriptionManager

end AtlasNative
