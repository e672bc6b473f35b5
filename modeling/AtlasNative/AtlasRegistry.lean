import AtlasNative.Lib.AssocMap
import AtlasNative.StepNumber
import AtlasNative.Tags
import Mathlib.Data.Int.Cast.Lemmas

/-!
# Meters and their registry

Counters and gauges, and the registry that measures them and drops the idle ones that
nobody holds. A meter is stored under its own id, together with the number of
references that callers hold. Amounts are exact integers.
-/

namespace AtlasNative

open ExactDouble
set_option autoImplicit false

def MAX_IDLE_TIME : ℤ := 15 * 60 * 1000

structure DefaultCounter where
  id_ : Id
  last_updated_ : ℤ
  step_number_ : StepNumber ℤ
  value_ : ℤ
  deriving DecidableEq

namespace DefaultCounter

/-- The constructor, which counts as an update. -/
def create (id : Id) (freq_millis now : ℤ) : DefaultCounter :=
  ⟨WithDefaultTagForId id statistic (intern_str "count"), now, .create 0 freq_millis now, 0⟩

def Add (c : DefaultCounter) (now amount : ℤ) : DefaultCounter :=
  { c with
    step_number_ := c.step_number_.Add now amount
    value_ := c.value_ + amount
    last_updated_ := now }

/-- The rate per second of the last completed step. -/
def rate (c : DefaultCounter) (now : ℤ) : Double :=
  .fin (c.step_number_.Poll now / (c.step_number_.step_millis_ / 1000))

def Measure (c : DefaultCounter) (now : ℤ) : Measurements :=
  [⟨c.id_, now - now.tmod c.step_number_.step_millis_, c.rate now⟩]

/-- Polling for `Measure` rolls the step number. -/
def polled (c : DefaultCounter) (now : ℤ) : DefaultCounter :=
  { c with step_number_ := c.step_number_.RollCount now }

end DefaultCounter

structure DefaultGauge where
  id_ : Id
  last_updated_ : ℤ
  value_ : Double
  deriving DecidableEq

namespace DefaultGauge

def create (id : Id) : DefaultGauge := ⟨WithDefaultGaugeTags id, 0, .nan⟩

def Update (g : DefaultGauge) (now : ℤ) (d : Double) : DefaultGauge :=
  { g with value_ := d, last_updated_ := now }

def Measure (g : DefaultGauge) (now : ℤ) : Measurements := [⟨g.id_, now, g.value_⟩]

end DefaultGauge

inductive Meter where
  | counter (c : DefaultCounter)
  | gauge (g : DefaultGauge)
  deriving DecidableEq

namespace Meter

def GetId : Meter → Id
  | counter c => c.id_
  | gauge g => g.id_

def GetClass : Meter → String
  | counter _ => "DefaultCounter"
  | gauge _ => "DefaultGauge"

def last_updated : Meter → ℤ
  | counter c => c.last_updated_
  | gauge g => g.last_updated_

def HasExpired (m : Meter) (now : ℤ) : Bool := decide (now - m.last_updated > MAX_IDLE_TIME)

def Measure (now : ℤ) : Meter → Measurements
  | counter c => c.Measure now
  | gauge g => g.Measure now

def polled (now : ℤ) : Meter → Meter
  | counter c => .counter (c.polled now)
  | gauge g => .gauge g

def Add (now amount : ℤ) : Meter → Meter
  | counter c => .counter (c.Add now amount)
  | gauge g => .gauge g

def Update (now : ℤ) (d : Double) : Meter → Meter
  | counter c => .counter c
  | gauge g => .gauge (g.Update now d)

@[simp] theorem GetId_polled (now : ℤ) (m : Meter) : (m.polled now).GetId = m.GetId := by
  cases m <;> rfl

@[simp] theorem GetId_Add (now amount : ℤ) (m : Meter) : (m.Add now amount).GetId = m.GetId := by
  cases m <;> rfl

@[simp] theorem GetId_Update (now : ℤ) (d : Double) (m : Meter) :
    (m.Update now d).GetId = m.GetId := by
  cases m <;> rfl

theorem id_of_mem_Measure {now : ℤ} {m : Meter} : ∀ x ∈ m.Measure now, x.id = m.GetId := by
  intro x hx
  cases m <;> rw [List.mem_singleton.mp hx] <;> rfl

end Meter

/-- A registered meter, with the references to it that are held outside the registry. -/
structure Registered (id : Id) where
  meter : Meter
  meter_id : meter.GetId = id
  held : ℕ

namespace Registered
variable {id : Id}

def mapMeter (p : Registered id) (f : Meter → Meter) (hf : ∀ m, (f m).GetId = m.GetId) :
    Registered id :=
  { p with meter := f p.meter, meter_id := (hf p.meter).trans p.meter_id }

@[simp] theorem meter_mapMeter (p : Registered id) (f : Meter → Meter)
    (hf : ∀ m, (f m).GetId = m.GetId) : (p.mapMeter f hf).meter = f p.meter := rfl

end Registered

structure AtlasRegistry where
  freq_millis_ : ℤ
  /-- the ids of the registry's own gauge and counter -/
  meters_size : Id
  expired_meters : Id
  meters_ : AList Registered

namespace AtlasRegistry

/-- Emplaces a new meter unless its id is taken. The caller gets a reference to the
registered meter if it is of the same class, else to one that is not registered. -/
def create_and_register_as_needed (reg : AtlasRegistry) (new_meter : Meter) :
    AtlasRegistry × Option Id :=
  match reg.meters_.lookup new_meter.GetId with
  | none =>
    ({ reg with meters_ := reg.meters_.insert new_meter.GetId ⟨new_meter, rfl, 1⟩ },
      some new_meter.GetId)
  | some p =>
    if p.meter.GetClass = new_meter.GetClass then
      ({ reg with
          meters_ := reg.meters_.insert new_meter.GetId { p with held := p.held + 1 } },
        some new_meter.GetId)
    else (reg, none)

def counter (reg : AtlasRegistry) (now : ℤ) (id : Id) : AtlasRegistry × Option Id :=
  reg.create_and_register_as_needed (.counter (.create id reg.freq_millis_ now))

def gauge (reg : AtlasRegistry) (id : Id) : AtlasRegistry × Option Id :=
  reg.create_and_register_as_needed (.gauge (.create id))

def modify (reg : AtlasRegistry) (id : Id) (f : Meter → Meter)
    (hf : ∀ m, (f m).GetId = m.GetId) : AtlasRegistry :=
  match reg.meters_.lookup id with
  | none => reg
  | some p => { reg with meters_ := reg.meters_.insert id (p.mapMeter f hf) }

def Add (reg : AtlasRegistry) (id : Id) (now amount : ℤ) : AtlasRegistry :=
  reg.modify id (Meter.Add now amount) (Meter.GetId_Add now amount)

def Update (reg : AtlasRegistry) (id : Id) (now : ℤ) (d : Double) : AtlasRegistry :=
  reg.modify id (Meter.Update now d) (Meter.GetId_Update now d)

def release (reg : AtlasRegistry) (id : Id) : AtlasRegistry :=
  match reg.meters_.lookup id with
  | none => reg
  | some p => { reg with meters_ := reg.meters_.insert id { p with held := p.held - 1 } }

/-- `use_count() == 1`: no caller has a reference, and the registry no second one. -/
def unused (reg : AtlasRegistry) (id : Id) (p : Registered id) : Bool :=
  p.held = 0 && id ≠ reg.meters_size && id ≠ reg.expired_meters

def expires (reg : AtlasRegistry) (now : ℤ) (id : Id) (p : Registered id) : Bool :=
  p.meter.HasExpired now && reg.unused id p

def expire_meters (reg : AtlasRegistry) (now : ℤ) : AtlasRegistry :=
  let expired := (reg.meters_.entries.filter fun m => reg.expires now m.1 m.2).length
  let kept := { reg with
    meters_ := AssocMap.updateAll
      (fun id p => if reg.expires now id p then none else some p) reg.meters_ }
  kept.Add reg.expired_meters now expired

/-- `meters()` records how many there are. -/
def countMeters (reg : AtlasRegistry) (now : ℤ) : AtlasRegistry :=
  reg.Update reg.meters_size now (.fin reg.meters_.entries.length)

def measured (now : ℤ) (id : Id) (p : Registered id) : Registered id :=
  if p.meter.HasExpired now then p else p.mapMeter (Meter.polled now) (Meter.GetId_polled now)

def measurements (reg : AtlasRegistry) (now : ℤ) : Measurements :=
  (reg.countMeters now).meters_.entries.flatMap fun m =>
    if m.2.meter.HasExpired now then [] else m.2.meter.Measure now

/-- The registry that `measurements` leaves behind. -/
def afterMeasurements (reg : AtlasRegistry) (now : ℤ) : AtlasRegistry :=
  let counted := reg.countMeters now
  let polled := { counted with
    meters_ := AssocMap.updateAll (fun id p => some (measured now id p)) counted.meters_ }
  polled.expire_meters now

/-- The registry creates its own meters, under `freq_tags`. -/
def create (freq_millis now : ℤ) : AtlasRegistry :=
  let freq_tags := Tags.of [("id", secs_for_millis freq_millis)]
  let size := Meter.gauge (.create ⟨intern_str "atlas.numMeters", freq_tags⟩)
  let expired := Meter.counter (.create ⟨intern_str "atlas.expiredMeters", freq_tags⟩
    freq_millis now)
  { freq_millis_ := freq_millis
    meters_size := size.GetId
    expired_meters := expired.GetId
    meters_ := ((∅ : AList Registered).insert size.GetId ⟨size, rfl, 0⟩).insert expired.GetId
      ⟨expired, rfl, 0⟩ }

end AtlasRegistry

end AtlasNative
