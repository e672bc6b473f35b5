import AtlasNative.Lib.Int64Sums
import AtlasNative.Machine
import AtlasNative.StepNumberRuns
import AtlasNative.Tags
import Mathlib.Algebra.Order.Floor.Ring
import Mathlib.Data.Rat.Floor

/-!
# Meters over two number types

The class templates of counters, max gauges and distribution summaries, which the code
uses with `int64_t` and with `double`, and the meters that are built from them. A `double`
is exact; `Int64` wraps around, and `ℤ` stands for `int64_t` where no amount comes near
its ends. Every operation is given the time of the clock.
-/

namespace AtlasNative

open ExactDouble Int64Sums
set_option autoImplicit false

/-- What the templates ask of a number type besides its addition and its order. -/
class MeterNumber (T : Type) where
  /-- `std::numeric_limits<T>::lowest()` -/
  lowest : T
  /-- `static_cast<double>` -/
  toDouble : T → Double

instance : MeterNumber ℤ where
  lowest := -2 ^ 63
  toDouble n := .fin n

instance : MeterNumber Int64 where
  lowest := Int64.minValue
  toDouble n := .fin n.toInt

instance : MeterNumber Double where
  lowest := Double.lowest
  toDouble x := x

/-- The conversions between amounts and a total of the type that stands for `int64_t`. -/
class TotalOf (I T : Type) where
  /-- What `+=` on an `std::atomic<int64_t>` makes of its operand. -/
  toInt64 : T → I
  ofInt64 : I → T

instance (T : Type) : TotalOf T T := ⟨id, id⟩

def truncate (q : ℚ) : ℤ := q.num.tdiv q.den

/-- A conversion to an integer truncates. What it makes of NaN, of an infinity or of a
number out of range is undefined, and one value here; such an amount is no `int64_t`. -/
instance : TotalOf Int64 Double where
  toInt64
    | .fin q => if IsInt64 (truncate q) then Int64.ofInt (truncate q) else Int64.minValue
    | _ => Int64.minValue
  ofInt64 n := .fin n.toInt

open MeterNumber TotalOf

/-- `amount >= 0`, false for NaN -/
def notNegative {T : Type} [Zero T] [LT T] [DecidableLT T] [DecidableEq T] (amount : T) : Bool :=
  decide (0 < amount) || decide (amount = 0)

/-- `id->WithTag(statistic::...)` -/
def Id.WithStatistic (id : Id) (stat : String) : Id := id.WithTag statistic (intern_str stat)

/-- `WithDefaultGaugeTags(id, stat)`: the tag `statistic`, then `atlas.dstype=gauge`. -/
def WithDefaultGaugeTagsOf (id : Id) (stat : String) : Id :=
  WithDefaultTagForId (WithDefaultTagForId id statistic (intern_str stat))
    (intern_str "atlas.dstype") (intern_str "gauge")

/-- The beginning of the step that a clock is in. -/
def start_step (now step_millis : ℤ) : ℤ := now - now.tmod step_millis

section Numbers
variable (T : Type)

structure DefaultCounterNumber where
  id_ : Id
  last_updated_ : ℤ
  step_number_ : StepNumber T
  value_ : T
  deriving DecidableEq

structure DefaultMaxGauge where
  id_ : Id
  last_updated_ : ℤ
  value_ : T
  step_number_ : StepNumber T
  deriving DecidableEq

/-- Both totals are atomic 64-bit integers, of the type `I`, whatever the number type is. -/
structure DefaultDistributionSummaryNum (I : Type) where
  id_ : Id
  last_updated_ : ℤ
  count_ : I
  total_amount_ : I
  sub_count_ : DefaultCounterNumber I
  sub_total_amount_ : DefaultCounterNumber T
  sub_total_sq_ : DefaultCounterNumber Double
  sub_max_ : DefaultMaxGauge T
  deriving DecidableEq

end Numbers

variable {T : Type} [AddCommMonoid T] [LT T] [DecidableLT T] [DecidableEq T] [MeterNumber T]

namespace DefaultCounterNumber

def create (id : Id) (freq_millis now : ℤ) : DefaultCounterNumber T :=
  ⟨WithDefaultTagForId id statistic (intern_str "count"), now, .create 0 freq_millis now, 0⟩

def Add (c : DefaultCounterNumber T) (now : ℤ) (amount : T) : DefaultCounterNumber T :=
  { c with
    step_number_ := c.step_number_.Add now amount
    value_ := c.value_ + amount
    last_updated_ := now }

def Count (c : DefaultCounterNumber T) : T := c.value_

def rate (c : DefaultCounterNumber T) (now : ℤ) : Double :=
  (toDouble (c.step_number_.Poll now)).divBy (c.step_number_.step_millis_ / 1000)

def Measure (c : DefaultCounterNumber T) (now : ℤ) : Measurement :=
  ⟨c.id_, start_step now c.step_number_.step_millis_, c.rate now⟩

/-- Polling for `Measure` rolls the step number. -/
def polled (c : DefaultCounterNumber T) (now : ℤ) : DefaultCounterNumber T :=
  { c with step_number_ := c.step_number_.RollCount now }

end DefaultCounterNumber

namespace DefaultMaxGauge

def create (id : Id) (freq_millis now : ℤ) : DefaultMaxGauge T :=
  ⟨WithDefaultGaugeTagsOf id "max", now, 0, .create lowest freq_millis now⟩

def Update (g : DefaultMaxGauge T) (now : ℤ) (v : T) : DefaultMaxGauge T :=
  { g with
    step_number_ := g.step_number_.UpdateCurrentMax now v
    value_ := stdMax g.value_ v
    last_updated_ := now }

def Value (g : DefaultMaxGauge T) : Double := toDouble g.value_

def max (g : DefaultMaxGauge T) (now : ℤ) : Double :=
  let maybe_max := g.step_number_.Poll now
  if maybe_max ≠ lowest then toDouble maybe_max else .nan

def Measure (g : DefaultMaxGauge T) (now : ℤ) : Measurement :=
  ⟨g.id_, start_step now g.step_number_.step_millis_, g.max now⟩

def polled (g : DefaultMaxGauge T) (now : ℤ) : DefaultMaxGauge T :=
  { g with step_number_ := g.step_number_.RollCount now }

end DefaultMaxGauge

namespace DefaultDistributionSummaryNum
variable {I : Type} [AddCommMonoid I] [One I] [TotalOf I T]

def create (id : Id) (freq_millis now : ℤ) : DefaultDistributionSummaryNum T I where
  id_ := id
  last_updated_ := now
  count_ := 0
  total_amount_ := 0
  sub_count_ := .create (id.WithStatistic "count") freq_millis now
  sub_total_amount_ := .create (id.WithStatistic "totalAmount") freq_millis now
  sub_total_sq_ := .create (id.WithStatistic "totalOfSquares") freq_millis now
  sub_max_ := .create (id.WithStatistic "max") freq_millis now

def Record (d : DefaultDistributionSummaryNum T I) (now : ℤ) (amount : T) :
    DefaultDistributionSummaryNum T I :=
  if notNegative amount then
    { d with
      sub_count_ := d.sub_count_.Add now 1
      count_ := d.count_ + 1
      total_amount_ := d.total_amount_ + (toInt64 amount : I)
      sub_total_amount_ := d.sub_total_amount_.Add now amount
      sub_total_sq_ := d.sub_total_sq_.Add now (toDouble amount * toDouble amount)
      sub_max_ := d.sub_max_.Update now amount
      last_updated_ := now }
  else { d with last_updated_ := now }

def Count (d : DefaultDistributionSummaryNum T I) : I := d.count_

def TotalAmount (d : DefaultDistributionSummaryNum T I) : T := ofInt64 d.total_amount_

def Measure [MeterNumber I] (d : DefaultDistributionSummaryNum T I) (now : ℤ) : Measurements :=
  [d.sub_count_.Measure now, d.sub_total_amount_.Measure now, d.sub_total_sq_.Measure now,
    d.sub_max_.Measure now]

def polled (d : DefaultDistributionSummaryNum T I) (now : ℤ) :
    DefaultDistributionSummaryNum T I :=
  { d with
    sub_count_ := d.sub_count_.polled now
    sub_total_amount_ := d.sub_total_amount_.polled now
    sub_total_sq_ := d.sub_total_sq_.polled now
    sub_max_ := d.sub_max_.polled now }

end DefaultDistributionSummaryNum

structure DefaultTimer where
  id_ : Id
  last_updated_ : ℤ
  count_ : ℤ
  total_time_ : ℤ
  sub_count_ : DefaultCounterNumber ℤ
  sub_total_sq_ : DefaultCounterNumber Double
  sub_total_time_ : DefaultCounterNumber ℤ
  sub_max_ : DefaultMaxGauge ℤ
  deriving DecidableEq

/-- The factor that converts nanoseconds to seconds. -/
def kCnvSeconds : ℚ := 1 / 10 ^ 9

def kCnvSquares : ℚ := kCnvSeconds * kCnvSeconds

def factor_measurement (measurement : Measurement) (conv_factor : ℚ) : Measurement :=
  { measurement with value := measurement.value.mulBy conv_factor }

namespace DefaultTimer

def create (id : Id) (freq_millis now : ℤ) : DefaultTimer where
  id_ := id
  last_updated_ := now
  count_ := 0
  total_time_ := 0
  sub_count_ := .create (id.WithStatistic "count") freq_millis now
  sub_total_sq_ := .create (id.WithStatistic "totalOfSquares") freq_millis now
  sub_total_time_ := .create (id.WithStatistic "totalTime") freq_millis now
  sub_max_ := .create (id.WithStatistic "max") freq_millis now

def Record (t : DefaultTimer) (now nanos : ℤ) : DefaultTimer :=
  if notNegative nanos then
    { t with
      sub_count_ := t.sub_count_.Add now 1
      count_ := t.count_ + 1
      total_time_ := t.total_time_ + nanos
      sub_total_time_ := t.sub_total_time_.Add now nanos
      sub_total_sq_ := t.sub_total_sq_.Add now (toDouble nanos * toDouble nanos)
      sub_max_ := t.sub_max_.Update now nanos
      last_updated_ := now }
  else { t with last_updated_ := now }

def Count (t : DefaultTimer) : ℤ := t.count_

def TotalTime (t : DefaultTimer) : ℤ := t.total_time_

def Measure (t : DefaultTimer) (now : ℤ) : Measurements :=
  [t.sub_count_.Measure now,
    factor_measurement (t.sub_total_time_.Measure now) kCnvSeconds,
    factor_measurement (t.sub_total_sq_.Measure now) kCnvSquares,
    factor_measurement (t.sub_max_.Measure now) kCnvSeconds]

def polled (t : DefaultTimer) (now : ℤ) : DefaultTimer :=
  { t with
    sub_count_ := t.sub_count_.polled now
    sub_total_time_ := t.sub_total_time_.polled now
    sub_total_sq_ := t.sub_total_sq_.polled now
    sub_max_ := t.sub_max_.polled now }

end DefaultTimer

/-- The tasks with the monotonic times at which they started. -/
structure DefaultLongTaskTimer where
  id_ : Id
  last_updated_ : ℤ
  next_ : ℤ
  tasks_ : AList fun _ : ℤ => ℤ

namespace DefaultLongTaskTimer

def create (id : Id) : DefaultLongTaskTimer := ⟨id, 0, 0, ∅⟩

/-- Starts a task; the timer is not marked as updated. -/
def Start (t : DefaultLongTaskTimer) (monotonic : ℤ) : DefaultLongTaskTimer × ℤ :=
  ({ t with next_ := t.next_ + 1, tasks_ := t.tasks_.insert t.next_ monotonic }, t.next_)

def DurationOf (t : DefaultLongTaskTimer) (monotonic task : ℤ) : ℤ :=
  match t.tasks_.lookup task with
  | some start_time => monotonic - start_time
  | none => -1

def Stop (t : DefaultLongTaskTimer) (monotonic task : ℤ) : DefaultLongTaskTimer × ℤ :=
  let d := t.DurationOf monotonic task
  if 0 ≤ d then ({ t with tasks_ := t.tasks_.erase task }, d) else (t, d)

def Duration (t : DefaultLongTaskTimer) (monotonic : ℤ) : ℤ :=
  (t.tasks_.entries.map fun value => monotonic - value.2).sum

def ActiveTasks (t : DefaultLongTaskTimer) : ℤ := t.tasks_.entries.length

def Measure (t : DefaultLongTaskTimer) (now monotonic : ℤ) : Measurements :=
  [⟨t.id_.WithStatistic "activeTasks", now, .fin t.ActiveTasks⟩,
    ⟨t.id_.WithStatistic "duration", now, .fin (t.Duration monotonic / 10 ^ 9)⟩]

end DefaultLongTaskTimer

end AtlasNative
