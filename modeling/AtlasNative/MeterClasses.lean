import AtlasNative.AtlasRegistry
import AtlasNative.Meters

/-!
# The meter classes of the registry

One class for each lookup method of the registry, two of them instances of one template
in two cases. A class has a name, which an instance of a template shares with the other
one, and its objects change only through the operations of the class.
-/

namespace AtlasNative

open ExactDouble
set_option autoImplicit false

/-- The lookup methods of the registry; each creates objects of its own class. -/
inductive MeterKind where
  | counter | dcounter | timer | gauge | max_gauge | long_task_timer
  | distribution_summary | ddistribution_summary
  deriving DecidableEq

namespace MeterKind

def GetClass : MeterKind → String
  | counter => "DefaultCounter"
  | dcounter => "DefaultCounter"
  | timer => "DefaultTimer"
  | gauge => "DefaultGauge"
  | max_gauge => "DefaultMaxGauge"
  | long_task_timer => "DefaultLongTaskTimer"
  | distribution_summary => "DefaultDistributionSummary"
  | ddistribution_summary => "DefaultDistributionSummary"

/-- The id under which a meter of this kind is registered, with the default tags. -/
def taggedId (id : Id) : MeterKind → Id
  | counter => WithDefaultTagForId id statistic (intern_str "count")
  | dcounter => WithDefaultTagForId id statistic (intern_str "count")
  | gauge => WithDefaultGaugeTags id
  | max_gauge => WithDefaultGaugeTagsOf id "max"
  | _ => id

/-- The other instance of the same template. -/
def Twin (k k' : MeterKind) : Prop :=
  (k = counter ∧ k' = dcounter) ∨ (k = dcounter ∧ k' = counter) ∨
    (k = distribution_summary ∧ k' = ddistribution_summary) ∨
    (k = ddistribution_summary ∧ k' = distribution_summary)

theorem twin_iff (k k' : MeterKind) : k.Twin k' ↔ k ≠ k' ∧ k.GetClass = k'.GetClass := by
  cases k <;> cases k' <;> simp [Twin, GetClass]

end MeterKind

/-- An object that the registry can hold. -/
inductive AnyMeter where
  | counter (m : DefaultCounterNumber ℤ)
  | dcounter (m : DefaultCounterNumber Double)
  | timer (m : DefaultTimer)
  | gauge (m : DefaultGauge)
  | max_gauge (m : DefaultMaxGauge Double)
  | long_task_timer (m : DefaultLongTaskTimer)
  | distribution_summary (m : DefaultDistributionSummaryNum ℤ ℤ)
  | ddistribution_summary (m : DefaultDistributionSummaryNum Double Int64)

/-- The operations of the classes; those with a `D` take a `double`. -/
inductive MeterMethod where
  | Add (amount : ℤ)
  | DAdd (amount : Double)
  | Record (amount : ℤ)
  | DRecord (amount : Double)
  | Update (value : Double)
  | Start
  | Stop (task : ℤ)

namespace AnyMeter

def kind : AnyMeter → MeterKind
  | counter _ => .counter
  | dcounter _ => .dcounter
  | timer _ => .timer
  | gauge _ => .gauge
  | max_gauge _ => .max_gauge
  | long_task_timer _ => .long_task_timer
  | distribution_summary _ => .distribution_summary
  | ddistribution_summary _ => .ddistribution_summary

def GetId : AnyMeter → Id
  | counter m => m.id_
  | dcounter m => m.id_
  | timer m => m.id_
  | gauge m => m.id_
  | max_gauge m => m.id_
  | long_task_timer m => m.id_
  | distribution_summary m => m.id_
  | ddistribution_summary m => m.id_

def GetClass (m : AnyMeter) : String := m.kind.GetClass

def last_updated : AnyMeter → ℤ
  | counter m => m.last_updated_
  | dcounter m => m.last_updated_
  | timer m => m.last_updated_
  | gauge m => m.last_updated_
  | max_gauge m => m.last_updated_
  | long_task_timer m => m.last_updated_
  | distribution_summary m => m.last_updated_
  | ddistribution_summary m => m.last_updated_

/-- Long task timers do not expire. -/
def HasExpired (now : ℤ) : AnyMeter → Bool
  | long_task_timer _ => false
  | m => decide (now - m.last_updated > MAX_IDLE_TIME)

def Measure (now monotonic : ℤ) : AnyMeter → Measurements
  | counter m => [m.Measure now]
  | dcounter m => [m.Measure now]
  | timer m => m.Measure now
  | gauge m => m.Measure now
  | max_gauge m => [m.Measure now]
  | long_task_timer m => m.Measure now monotonic
  | distribution_summary m => m.Measure now
  | ddistribution_summary m => m.Measure now

/-- What `Measure` leaves behind: the step numbers have rolled. -/
def polled (now : ℤ) : AnyMeter → AnyMeter
  | counter m => .counter (m.polled now)
  | dcounter m => .dcounter (m.polled now)
  | timer m => .timer (m.polled now)
  | gauge m => .gauge m
  | max_gauge m => .max_gauge (m.polled now)
  | long_task_timer m => .long_task_timer m
  | distribution_summary m => .distribution_summary (m.polled now)
  | ddistribution_summary m => .ddistribution_summary (m.polled now)

/-- An operation of the class of the object; there is no other one. -/
def apply (now monotonic : ℤ) : AnyMeter → MeterMethod → Option AnyMeter
  | counter m, .Add amount => some (.counter (m.Add now amount))
  | dcounter m, .DAdd amount => some (.dcounter (m.Add now amount))
  | timer m, .Record nanos => some (.timer (m.Record now nanos))
  | gauge m, .Update value => some (.gauge (m.Update now value))
  | max_gauge m, .Update value => some (.max_gauge (m.Update now value))
  | long_task_timer m, .Start => some (.long_task_timer (m.Start monotonic).1)
  | long_task_timer m, .Stop task => some (.long_task_timer (m.Stop monotonic task).1)
  | distribution_summary m, .Record amount => some (.distribution_summary (m.Record now amount))
  | ddistribution_summary m, .DRecord amount => some (.ddistribution_summary (m.Record now amount))
  | _, _ => none

/-- What a lookup constructs. -/
def create (id : Id) (freq_millis now : ℤ) : MeterKind → AnyMeter
  | .counter => .counter (.create id freq_millis now)
  | .dcounter => .dcounter (.create id freq_millis now)
  | .timer => .timer (.create id freq_millis now)
  | .gauge => .gauge (.create id)
  | .max_gauge => .max_gauge (.create id freq_millis now)
  | .long_task_timer => .long_task_timer (.create id)
  | .distribution_summary => .distribution_summary (.create id freq_millis now)
  | .ddistribution_summary => .ddistribution_summary (.create id freq_millis now)

@[simp] theorem kind_create (id : Id) (freq_millis now : ℤ) (kind : MeterKind) :
    (create id freq_millis now kind).kind = kind := by
  cases kind <;> rfl

@[simp] theorem GetId_create (id : Id) (freq_millis now : ℤ) (kind : MeterKind) :
    (create id freq_millis now kind).GetId = kind.taggedId id := by
  cases kind <;> rfl

/-- What an object becomes in one operation at the time `now`: it keeps its class and its id,
and is marked as updated at that time if at all. -/
structure Becomes (now : ℤ) (m m' : AnyMeter) : Prop where
  kind : m'.kind = m.kind
  id : m'.GetId = m.GetId
  updated : m'.last_updated = m.last_updated ∨ m'.last_updated = now

namespace Becomes
variable {now : ℤ} {m m' m'' : AnyMeter}

theorem refl (now : ℤ) (m : AnyMeter) : Becomes now m m := ⟨rfl, rfl, .inl rfl⟩

theorem trans (h : Becomes now m m') (h' : Becomes now m' m'') : Becomes now m m'' where
  kind := h'.kind.trans h.kind
  id := h'.id.trans h.id
  updated := by
    rcases h'.updated with heq | hnow
    · rw [heq]
      exact h.updated
    · exact .inr hnow

theorem polled (now : ℤ) (m : AnyMeter) : Becomes now m (m.polled now) := by
  cases m <;> exact ⟨rfl, rfl, .inl rfl⟩

end Becomes

theorem timer_Record (t : DefaultTimer) (now nanos : ℤ) :
    (t.Record now nanos).id_ = t.id_ ∧ (t.Record now nanos).last_updated_ = now := by
  unfold DefaultTimer.Record
  split <;> exact ⟨rfl, rfl⟩

theorem summary_Record {T I : Type} [AddCommMonoid T] [LT T] [DecidableLT T] [DecidableEq T]
    [MeterNumber T] [AddCommMonoid I] [One I] [TotalOf I T]
    (d : DefaultDistributionSummaryNum T I) (now : ℤ) (amount : T) :
    (d.Record now amount).id_ = d.id_ ∧ (d.Record now amount).last_updated_ = now := by
  unfold DefaultDistributionSummaryNum.Record
  split <;> exact ⟨rfl, rfl⟩

theorem long_task_timer_Stop (t : DefaultLongTaskTimer) (monotonic task : ℤ) :
    (t.Stop monotonic task).1.id_ = t.id_ ∧
      (t.Stop monotonic task).1.last_updated_ = t.last_updated_ := by
  dsimp only [DefaultLongTaskTimer.Stop]
  split <;> exact ⟨rfl, rfl⟩

/-- Every operation but those of a long task timer counts as an update. -/
theorem becomes_apply {now monotonic : ℤ} {m m' : AnyMeter} {op : MeterMethod}
    (h : m.apply now monotonic op = some m') :
    Becomes now m m' ∧ (m.kind ≠ .long_task_timer → m'.last_updated = now) := by
  unfold apply at h
  split at h
  case h_10 => cases h
  all_goals obtain rfl := Option.some.inj h
  case h_1 | h_2 | h_4 | h_5 => exact ⟨⟨rfl, rfl, .inr rfl⟩, fun _ => rfl⟩
  case h_3 t nanos =>
    obtain ⟨hid, hupdated⟩ := timer_Record t now nanos
    exact ⟨⟨rfl, hid, .inr hupdated⟩, fun _ => hupdated⟩
  case h_6 => exact ⟨⟨rfl, rfl, .inl rfl⟩, fun hkind => absurd rfl hkind⟩
  case h_7 t task =>
    obtain ⟨hid, hupdated⟩ := long_task_timer_Stop t monotonic task
    exact ⟨⟨rfl, hid, .inl hupdated⟩, fun hkind => absurd rfl hkind⟩
  case h_8 d amount | h_9 d amount =>
    obtain ⟨hid, hupdated⟩ := summary_Record d now amount
    exact ⟨⟨rfl, hid, .inr hupdated⟩, fun _ => hupdated⟩

theorem HasExpired_iff (now : ℤ) (m : AnyMeter) :
    m.HasExpired now = true ↔
      m.kind ≠ .long_task_timer ∧ MAX_IDLE_TIME < now - m.last_updated := by
  cases m <;> simp [HasExpired, kind]

/-- An object that was updated a short time ago has not expired. -/
theorem not_expired_of_recent {now t : ℤ} {m : AnyMeter}
    (hrecent : m.kind = .long_task_timer ∨ t ≤ m.last_updated) (ht : now - t ≤ MAX_IDLE_TIME) :
    m.HasExpired now = false := by
  apply Bool.eq_false_iff.mpr
  intro hexpired
  obtain ⟨hkind, hidle⟩ := (HasExpired_iff now m).mp hexpired
  rcases hrecent with htimer | hrecent
  · exact hkind htimer
  · omega

theorem Becomes.expired {now : ℤ} {m m' : AnyMeter} (h : Becomes now m m')
    (hexpired : m'.HasExpired now = true) : m.HasExpired now = true := by
  obtain ⟨hkind, hidle⟩ := (HasExpired_iff now m').mp hexpired
  rw [h.kind] at hkind
  apply (HasExpired_iff now m).mpr
  rcases h.updated with hsame | hnow
  · rw [hsame] at hidle
    exact ⟨hkind, hidle⟩
  · rw [hnow, sub_self] at hidle
    exact absurd hidle (by decide)

end AnyMeter

end AtlasNative
