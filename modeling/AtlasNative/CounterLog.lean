import AtlasNative.AtlasRegistry
import Mathlib.Algebra.Order.BigOperators.Group.List

/-!
# What a counter has recorded

The step number of a counter tracks the amounts added to it. A measurement gives the
rate of the last step; a counter that is not measured because it is idle had nothing to
measure.
-/

namespace AtlasNative

open ExactDouble Rolling Grouping
set_option autoImplicit false

/-- The counter has been given the amounts of `log`, each under the step of its time. -/
structure DefaultCounter.Records (u : ℤ) (c : DefaultCounter) (now : ℤ) (log : List (ℤ × ℤ)) :
    Prop where
  step : c.step_number_.step_millis_ = u
  init : c.step_number_.init_ = 0
  tracks : Tracks (· + ·) 0 c.step_number_.toRoller log
  position : c.step_number_.last_init_pos_ ≤ now / u
  updated : c.last_updated_ ≤ now
  recent : ∀ e ∈ log, e.1 ≤ c.last_updated_ / u

def DefaultCounter.measured (c : DefaultCounter) (now : ℤ) : DefaultCounter :=
  if (Meter.counter c).HasExpired now then c else c.polled now

def DefaultCounter.measurement (c : DefaultCounter) (now : ℤ) : Measurements :=
  if (Meter.counter c).HasExpired now then [] else c.Measure now

/-- Finite values that are not negative and add up to `q`. -/
structure Rates (vs : List Double) (q : ℚ) : Prop where
  finite : ∀ v ∈ vs, ∃ x : ℚ, 0 ≤ x ∧ v = .fin x
  sum : vs.sum = .fin q

theorem Rates.nil : Rates [] 0 := ⟨by simp, rfl⟩

namespace DefaultCounter.Records
variable {u now t : ℤ} {c : DefaultCounter} {log : List (ℤ × ℤ)}

theorem create (id : Id) (u : ℤ) (h0 : 0 ≤ now) :
    (DefaultCounter.create id u now).Records u now [] where
  step := rfl
  init := rfl
  tracks := Tracks.start _ _ _
  position := (Int.tdiv_eq_ediv_of_nonneg h0).le
  updated := le_rfl
  recent := by simp

theorem mono (hu : 0 < u) (h : c.Records u now log) (ht : now ≤ t) : c.Records u t log :=
  { h with
    position := le_trans h.position (Int.ediv_le_ediv hu ht)
    updated := le_trans h.updated ht }

theorem Add (hu : 0 < u) (h : c.Records u now log) (h0 : 0 ≤ t) (ht : now ≤ t) (amount : ℤ) :
    (c.Add t amount).Records u t (log ++ [(t / u, amount)]) := by
  have hstep : t.tdiv u = t / u := Int.tdiv_eq_ediv_of_nonneg h0
  have hpos : c.step_number_.toRoller.pos ≤ t / u := (h.mono hu ht).position
  have htracks := h.tracks.roll_record (t / u) amount
  rw [max_eq_right hpos] at htracks
  have hroller : (c.Add t amount).step_number_.toRoller =
      (c.step_number_.toRoller.roll 0 (t / u)).record (· + ·) amount := by
    rw [← hstep, ← h.init, ← h.step]
    exact StepNumber.toRoller_Add _ _ _
  refine ⟨(StepNumber.RollCount_step_millis _ _).trans h.step,
    (StepNumber.RollCount_init _ _).trans h.init, hroller ▸ htracks, ?_, le_rfl, ?_⟩
  · rw [← StepNumber.toRoller_pos, hroller, Roller.record_pos, Roller.roll_pos, max_eq_right hpos]
  · intro e he
    rcases List.mem_append.mp he with he | he
    · exact le_trans (h.recent e he) (Int.ediv_le_ediv hu (le_trans h.updated ht))
    · rw [List.mem_singleton.mp he]
      exact le_rfl

theorem polled (hu : 0 < u) (h : c.Records u now log) (h0 : 0 ≤ t) (ht : now ≤ t) :
    (c.polled t).Records u t log := by
  have hstep : t.tdiv u = t / u := Int.tdiv_eq_ediv_of_nonneg h0
  have hpos : c.step_number_.toRoller.pos ≤ t / u := (h.mono hu ht).position
  have hroller : (c.polled t).step_number_.toRoller = c.step_number_.toRoller.roll 0 (t / u) := by
    rw [← hstep, ← h.init, ← h.step]
    exact StepNumber.toRoller_RollCount _ _
  refine ⟨(StepNumber.RollCount_step_millis _ _).trans h.step,
    (StepNumber.RollCount_init _ _).trans h.init, hroller ▸ h.tracks.roll (t / u), ?_,
    le_trans h.updated ht, h.recent⟩
  rw [← StepNumber.toRoller_pos, hroller, Roller.roll_pos, max_eq_right hpos]

theorem measured (hu : 0 < u) (h : c.Records u now log) (h0 : 0 ≤ t) (ht : now ≤ t) :
    (c.measured t).Records u t log := by
  unfold DefaultCounter.measured
  split
  · exact h.mono hu ht
  · exact h.polled hu h0 ht

theorem rate (hu : 0 < u) (h : c.Records u now log) (h0 : 0 ≤ t) (ht : now ≤ t) :
    c.rate t = .fin ((bucket (t / u - 1) log).sum / (u / 1000)) := by
  have hpos : c.step_number_.toRoller.pos ≤ t / u := (h.mono hu ht).position
  have hpoll := c.step_number_.Poll_eq t
  rw [h.init, h.step, Int.tdiv_eq_ediv_of_nonneg h0, h.tracks.previous_roll hpos, valueAt,
    ← List.sum_eq_foldl] at hpoll
  rw [DefaultCounter.rate, hpoll, h.step]

theorem idle (hu : 0 < u) (hidle : 2 * u ≤ MAX_IDLE_TIME) (h : c.Records u now log)
    (hexpired : (Meter.counter c).HasExpired t = true) : bucket (t / u - 1) log = [] := by
  have hlast : t - c.last_updated_ > MAX_IDLE_TIME := of_decide_eq_true hexpired
  apply bucket_eq_nil_of_lt h.recent
  have hle : c.last_updated_ / u ≤ (t - 2 * u) / u := Int.ediv_le_ediv hu (by omega)
  have hdiv : (t - 2 * u) / u = t / u - 2 := by
    rw [Int.sub_ediv_of_dvd _ (Dvd.intro_left 2 rfl), Int.mul_ediv_cancel _ hu.ne']
  omega

/-- The measured values add up to the amounts of the last step, by its seconds. -/
theorem rates (hu : 0 < u) (hidle : 2 * u ≤ MAX_IDLE_TIME) (h : c.Records u now log)
    (hlog : ∀ e ∈ log, 0 ≤ e.2) (h0 : 0 ≤ t) (ht : now ≤ t) :
    Rates (((c.measurement t).filter (!·.value.isnan)).map (·.value))
      ((bucket (t / u - 1) log).sum / (u / 1000)) := by
  have hsum : 0 ≤ (bucket (t / u - 1) log).sum :=
    List.sum_nonneg fun a ha => hlog _ ((mem_bucket _ a log).mp ha)
  have hu' : (0 : ℚ) < u := Int.cast_pos.mpr hu
  unfold DefaultCounter.measurement
  split
  · rename_i hexpired
    rw [h.idle hu hidle hexpired]
    simpa using Rates.nil
  · have hvalues : (((c.Measure t).filter (!·.value.isnan)).map (·.value)) =
        [.fin ((bucket (t / u - 1) log).sum / (u / 1000))] := by
      simp [Measure, h.rate hu h0 ht]
    rw [hvalues]
    refine ⟨fun v hv => ⟨_, ?_, List.mem_singleton.mp hv⟩, List.sum_singleton⟩
    have hsum' : (0 : ℚ) ≤ (bucket (t / u - 1) log).sum := Int.cast_nonneg hsum
    positivity

end DefaultCounter.Records

end AtlasNative
