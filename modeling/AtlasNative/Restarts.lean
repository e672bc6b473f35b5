import AtlasNative.StopConservation

/-!
# Restarts

A stop moves the clock to the start of the next minute for its second flush. The offset
stays when the client is started again, and the next stop replaces it by one that it takes
from the moved clock; the clock then ends up inside the minute of the stop.
-/

namespace AtlasNative

open ExactDouble
set_option autoImplicit false

/-- What happens to the manager of a client that is stopped and started again. -/
inductive SessionEvent where
  | event (e : RegistryEvent)
  | restart (t : ℤ)

def SessionEvent.time : SessionEvent → ℤ
  | .event (.op t _) | .event (.tick t) | .restart t => t

namespace SubscriptionManager
variable (rt : Runtime) (config : Config)

/-- The sender of a new start counts its iterations from 0. -/
def applySession (p : SubscriptionManager × ℕ) : SessionEvent → SubscriptionManager × ℕ
  | .event e => apply rt config p e
  | .restart t => ((p.1.Stop rt config t).1, 0)

def runSession (m : SubscriptionManager) (events : List SessionEvent) : SubscriptionManager :=
  (events.foldl (applySession rt config) (m, 0)).1

/-- The clock after a stop at the underlying time `t`. -/
def stoppedOffset (m : SubscriptionManager) (t : ℤ) : ℤ :=
  kMainFrequencyMillis - (m.WallTime t -
    (m.WallTime t).tdiv kMainFrequencyMillis * kMainFrequencyMillis)

/-- The manager between the two flushes of a stop. -/
def betweenFlushes (m : SubscriptionManager) (t : ℤ) : SubscriptionManager :=
  { (m.flush_metrics rt config t).1 with offset_ := m.stoppedOffset t }

/-- What a flush reports of the main registry. -/
def flushReport (m : SubscriptionManager) (t : ℤ) : Measurements :=
  (m.toRegistries.update (m.WallTime t)).report (m.WallTime t)

theorem flush_offset (m : SubscriptionManager) (t : ℤ) :
    (m.flush_metrics rt config t).1.offset_ = m.offset_ := by
  have hfold : ∀ (is : List (Fin 12))
      (p : SubscriptionManager × List (ℤ × Except Fault SubscriptionResults)),
      (is.foldl (sendSubs rt config (m.WallTime t)) p).1.offset_ = p.1.offset_ := by
    intro is
    induction is with
    | nil => exact fun p => rfl
    | cons i is ih =>
      intro p
      exact (ih _).trans (sendSubs_keeps rt (m.WallTime t) p i).2
  rw [flush_metrics, hfold, sendMain_offset]
  rfl

theorem Stop_eq (m : SubscriptionManager) (t : ℤ) :
    (m.Stop rt config t).1 = ((m.betweenFlushes rt config t).flush_metrics rt config t).1 := by
  rw [Stop, betweenFlushes, stoppedOffset]
  have hwall : (m.flush_metrics rt config t).1.WallTime t = m.WallTime t := by
    rw [WallTime, flush_offset, WallTime]
  rw [hwall]

theorem Stop_offset (m : SubscriptionManager) (t : ℤ) :
    (m.Stop rt config t).1.offset_ = m.stoppedOffset t := by
  rw [Stop_eq, flush_offset]
  rfl

/-- The clock ends up before the next minute by what it was ahead. -/
theorem WallTime_Stop (m : SubscriptionManager) {t : ℤ} (ht : 0 ≤ m.WallTime t) :
    (m.Stop rt config t).1.WallTime t = (m.WallTime t / 60000 + 1) * 60000 - m.offset_ := by
  rw [WallTime, Stop_offset, stoppedOffset, kMainFrequencyMillis, Int.tdiv_eq_ediv_of_nonneg ht]
  rw [WallTime]
  omega

end SubscriptionManager

/-! ### Entries of the minute that a stop falls into -/

/-- An entry whose step number has reached the step `k`, and what a poll in it gives. -/
structure ConsolidatedValue.At (k : ℤ) (previous : Double) (gauge : Bool)
    (c : ConsolidatedValue) : Prop where
  step_millis : c.v.step_millis_ = 60000
  reached : k ≤ c.v.last_init_pos_
  previous_eq : c.v.previous_ = previous
  gauge_eq : c.is_gauge_ = gauge

namespace ConsolidatedValue.At
variable {k t : ℤ} {previous : Double} {gauge : Bool} {c : ConsolidatedValue}

theorem RollCount_eq (h : c.At k previous gauge) (ht : t.tdiv 60000 ≤ k) :
    c.v.RollCount t = c.v := by
  have hle := h.reached
  rw [StepNumber.RollCount, h.step_millis]
  exact if_neg (by omega)

theorem update (h : c.At k previous gauge) (ht : t.tdiv 60000 ≤ k) (v : Double) :
    (c.update t v).At k previous gauge := by
  unfold ConsolidatedValue.update
  split
  · unfold StepNumber.UpdateCurrentMax
    rw [h.RollCount_eq ht]
    split <;> exact ⟨h.step_millis, h.reached, h.previous_eq, h.gauge_eq⟩
  · unfold StepNumber.Add
    rw [h.RollCount_eq ht]
    exact ⟨h.step_millis, h.reached, h.previous_eq, h.gauge_eq⟩

theorem foldl_record (h : c.At k previous gauge) (ht : t.tdiv 60000 ≤ k) (is_gauge : Bool)
    (m R : ℤ) (vs : List Double) :
    ∃ c', vs.foldl (ConsolidatedValue.record is_gauge m R t) (some c) = some c' ∧
      c'.At k previous gauge := by
  induction vs generalizing c with
  | nil => exact ⟨c, rfl, h⟩
  | cons v vs ih => exact ih (h.update ht v)

theorem Poll_eq (h : c.At k previous gauge) (ht : t.tdiv 60000 ≤ k) : c.v.Poll t = previous := by
  rw [StepNumber.Poll, h.RollCount_eq ht, h.previous_eq]

end ConsolidatedValue.At

/-- A report in the minute `k` leaves an entry that has reached it, with the value that was
polled. -/
theorem ConsolidatedValue.report_at {c c' : ConsolidatedValue} {t : ℤ}
    (hstep : c.v.step_millis_ = 60000) (h : c.report t = some c') :
    c'.At (t.tdiv 60000) (c.v.Poll t) c.is_gauge_ := by
  have hrolled : ∀ marked, (⟨c.is_gauge_, c.update_multiple_, c.v.RollCount t, marked⟩ :
      ConsolidatedValue).At (t.tdiv 60000) (c.v.Poll t) c.is_gauge_ := by
    intro marked
    refine ⟨(StepNumber.RollCount_step_millis c.v t).trans hstep, ?_, rfl, rfl⟩
    have hpos : (c.v.RollCount t).toRoller.pos = max c.v.last_init_pos_ (t.tdiv 60000) := by
      rw [StepNumber.toRoller_RollCount, Rolling.Roller.roll_pos, hstep]
      rfl
    exact (le_max_right _ _).trans hpos.ge
  rw [ConsolidatedValue.report] at h
  split at h
  · cases h
    exact hrolled false
  · split at h
    · cases h
    · cases h
      exact hrolled true

/-- The registry of the main metrics, whose entries all count minutes. -/
structure ConsolidationRegistry.Minutes (reg : ConsolidationRegistry) : Prop where
  update_frequency : reg.update_frequency_ = 5000
  reporting_frequency : reg.reporting_frequency_ = 12 * 5000
  entries : ∀ id c, reg.my_values.lookup id = some c → c.v.step_millis_ = 60000

namespace ConsolidationRegistry.Minutes
variable {reg : ConsolidationRegistry}

theorem foldl_record_step_millis {is_gauge : Bool} {m t : ℤ} (vs : List Double)
    {entry : Option ConsolidatedValue} (hentry : ∀ c ∈ entry, c.v.step_millis_ = 60000) :
    ∀ c ∈ vs.foldl (ConsolidatedValue.record is_gauge m (12 * 5000) t) entry,
      c.v.step_millis_ = 60000 := by
  induction vs generalizing entry with
  | nil => exact hentry
  | cons v vs ih =>
    apply ih
    intro c hc
    have hupdate : ∀ c : ConsolidatedValue, c.v.step_millis_ = 60000 →
        (c.update t v).v.step_millis_ = 60000 := by
      intro c hc
      unfold ConsolidatedValue.update
      split
      · unfold StepNumber.UpdateCurrentMax
        split <;> exact (StepNumber.RollCount_step_millis c.v t).trans hc
      · exact (StepNumber.RollCount_step_millis c.v t).trans hc
    cases Option.some.inj hc
    cases entry with
    | none => exact hupdate _ rfl
    | some c => exact hupdate c (hentry c rfl)

theorem update_from (h : reg.Minutes) (wall : ℤ) (measurements : Measurements) :
    (reg.update_from wall measurements).Minutes := by
  obtain ⟨hupdate, hreporting⟩ := reg.update_from_frequencies wall measurements
  refine ⟨hupdate.trans h.update_frequency, hreporting.trans h.reporting_frequency, ?_⟩
  intro id c hc
  rw [lookup_update_from (by omega) (by omega) (by omega) (by omega) h.update_frequency
    h.reporting_frequency] at hc
  exact foldl_record_step_millis _ (fun c hc => h.entries id c hc) c hc

theorem afterMeasurements (h : reg.Minutes) (wall : ℤ) : (reg.afterMeasurements wall).Minutes := by
  refine ⟨h.update_frequency, h.reporting_frequency, ?_⟩
  intro id c hc
  rw [lookup_afterMeasurements] at hc
  obtain ⟨c₀, hc₀, hreport⟩ := Option.bind_eq_some_iff.mp hc
  exact (ConsolidatedValue.report_at (h.entries id c₀ hc₀) hreport).step_millis

/-- What was reported in a minute is what is reported for the same ids in it again. -/
theorem measurements_again (h : reg.Minutes) {w w' t t' : ℤ} (hw : w'.tdiv 60000 = w.tdiv 60000)
    (hw' : (w' - 5000).tdiv 60000 ≤ w.tdiv 60000) (ms : Measurements) {id : Id}
    (hid : (reg.afterMeasurements w).my_values.lookup id ≠ none) (ht : t' = t) :
    (((reg.afterMeasurements w).update_from w' ms).measurements w' t').filter (·.id = id) =
      (reg.measurements w t).filter (·.id = id) := by
  have hafter := h.afterMeasurements w
  obtain ⟨c₁, hc₁⟩ := Option.ne_none_iff_exists'.mp hid
  have hc := hc₁
  rw [lookup_afterMeasurements] at hc
  obtain ⟨c, hlookup, hreport⟩ := Option.bind_eq_some_iff.mp hc
  have hat := ConsolidatedValue.report_at (h.entries id c hlookup) hreport
  obtain ⟨c₂, hc₂, hat₂⟩ := hat.foldl_record hw' (decide (aggregate_op id = AggrOp.Max)) 12
    (12 * 5000) (valuesFor id ms)
  rw [filter_measurements, filter_measurements,
    lookup_update_from (by omega) (by omega) (by omega) (by omega) hafter.update_frequency
      hafter.reporting_frequency, hc₁, hc₂, hlookup]
  have hpoll : c₂.v.Poll w' = c.v.Poll w := hat₂.Poll_eq hw.le
  have hvalue : c₂.has_value w' = c.has_value w := by
    rw [ConsolidatedValue.has_value, ConsolidatedValue.has_value, hpoll, hat₂.gauge_eq]
  dsimp only
  rw [hvalue, ConsolidatedValue.value, ConsolidatedValue.value, hpoll, ht]

end ConsolidationRegistry.Minutes

/-- The second of two flushes in one minute reports what the first one did. -/
theorem report_again {r : Registries} (h : r.main_registry_.Minutes) {w w' : ℤ} (hw : 0 ≤ w)
    (hw' : 0 ≤ w') (hminute : w' / 60000 = w / 60000) {id : Id}
    (hid : ((r.update w).send w).main_registry_.my_values.lookup id ≠ none) :
    ((((r.update w).send w).update w').report w').filter (·.id = id) =
      ((r.update w).report w).filter (·.id = id) := by
  have hsame : w'.tdiv 60000 = w.tdiv 60000 := by
    rw [Int.tdiv_eq_ediv_of_nonneg hw', Int.tdiv_eq_ediv_of_nonneg hw, hminute]
  have hbehind : (w' - 5000).tdiv 60000 ≤ w.tdiv 60000 := by
    have hcases := tdiv_sub_cases hw' (show (5000 : ℤ) < 60000 by omega)
    rw [Int.tdiv_eq_ediv_of_nonneg hw]
    omega
  exact (h.update_from w (r.registry_.measurements w)).measurements_again hsame hbehind _ hid
    (congrArg (· * kMainFrequencyMillis) hsame)

namespace SubscriptionManager
variable {rt : Runtime} {config : Config}

theorem round_offset (m : SubscriptionManager) (run : ℕ) (t : ℤ) :
    (m.main_sender_round rt config run t).1.offset_ = m.offset_ := by
  rw [main_sender_round, (sendSubs_keeps _ _ _ _).2, sendMain_offset]
  rfl

/-- After a restart the clock is ahead by at most a minute. -/
theorem stoppedOffset_bounds (m : SubscriptionManager) {t : ℤ} (ht : 0 ≤ m.WallTime t) :
    0 < m.stoppedOffset t ∧ m.stoppedOffset t ≤ 60000 := by
  rw [stoppedOffset, kMainFrequencyMillis, Int.tdiv_eq_ediv_of_nonneg ht]
  omega

variable (hmain : config.IsMainEnabled = true)
include hmain

theorem minutes_update_send {m : SubscriptionManager} (h : m.main_registry_.Minutes) (w : ℤ)
    (due : Bool) :
    ((m.update_registries config w).sendMain rt config w due).1.toRegistries.main_registry_.Minutes := by
  rw [toRegistries_sendMain rt hmain, toRegistries_update_registries hmain]
  cases due
  · exact h.update_from w _
  · exact (h.update_from w _).afterMeasurements w

theorem minutes_flush {m : SubscriptionManager} (h : m.main_registry_.Minutes) (t : ℤ) :
    (m.flush_metrics rt config t).1.main_registry_.Minutes := by
  have hregistries := (toRegistries_flush_metrics rt hmain m t).1
  rw [show (m.flush_metrics rt config t).1.main_registry_ =
    (m.flush_metrics rt config t).1.toRegistries.main_registry_ from rfl, hregistries]
  exact (h.update_from (m.WallTime t) _).afterMeasurements (m.WallTime t)

/-- What any run of a restarted client keeps. -/
structure Session (m : SubscriptionManager) (events : List SessionEvent) : Prop where
  minutes : m.main_registry_.Minutes
  fresh : (∀ t, .restart t ∉ events) → m.offset_ = 0
  nonneg : 0 ≤ m.offset_
  restarted : (∃ t, .restart t ∈ events) → 0 < m.offset_ ∧ m.offset_ ≤ 60000

theorem session_event {m : SubscriptionManager} {events : List SessionEvent} {run : ℕ}
    (h : m.Session events) (e : RegistryEvent) :
    (apply rt config (m, run) e).1.Session (events ++ [.event e]) := by
  have hmem : ∀ t, .restart t ∈ events ++ [SessionEvent.event e] ↔ .restart t ∈ events := by
    intro t
    simp
  have hkeep : ∀ m' : SubscriptionManager, m'.main_registry_.Minutes → m'.offset_ = m.offset_ →
      m'.Session (events ++ [.event e]) := by
    intro m' hminutes hoffset
    refine ⟨hminutes, ?_, hoffset ▸ h.nonneg, ?_⟩
    · intro hnone
      exact hoffset.trans (h.fresh fun t ht => hnone t ((hmem t).mpr ht))
    · intro hsome
      obtain ⟨t, ht⟩ := hsome
      exact hoffset ▸ h.restarted ⟨t, (hmem t).mp ht⟩
  cases e with
  | op t o => exact hkeep _ h.minutes rfl
  | tick t =>
    apply hkeep _ ?_ (round_offset m run t)
    have hround : (m.main_sender_round rt config run t).1.toRegistries =
        ((m.update_registries config (m.WallTime t)).sendMain rt config (m.WallTime t)
          (decide ((m.WallTime t).tmod 60000 < kFastestFrequencyMillis))).1.toRegistries :=
      (sendSubs_keeps _ _ _ _).1
    exact hround.symm ▸ minutes_update_send hmain h.minutes (m.WallTime t) _

theorem session_restart {m : SubscriptionManager} {events : List SessionEvent}
    (h : m.Session events) {t : ℤ} (ht : 0 ≤ t) :
    (m.Stop rt config t).1.Session (events ++ [.restart t]) := by
  have hwall : 0 ≤ m.WallTime t := add_nonneg ht h.nonneg
  have hbounds := m.stoppedOffset_bounds hwall
  rw [← Stop_offset rt config m t] at hbounds
  refine ⟨?_, ?_, hbounds.1.le, fun _ => hbounds⟩
  · rw [Stop_eq]
    have hfirst : (m.betweenFlushes rt config t).main_registry_.Minutes :=
      minutes_flush hmain h.minutes t
    exact minutes_flush hmain hfirst t
  · intro hnone
    exact absurd (List.mem_append_right _ (List.mem_singleton_self _)) (hnone t)

theorem session_run (start : ℤ) {events : List SessionEvent}
    (htimes : ∀ e ∈ events, 0 ≤ e.time) :
    (runSession rt config (create start) events).Session events := by
  induction events using List.reverseRecOn with
  | nil =>
    refine ⟨⟨rfl, rfl, fun id c hc => ?_⟩, fun _ => rfl, le_rfl, ?_⟩
    · cases hc
    · intro hsome
      obtain ⟨t, ht⟩ := hsome
      cases ht
  | append_singleton events e ih =>
    have hbefore := ih fun e he => htimes e (List.mem_append_left _ he)
    have hnow := htimes e (List.mem_append_right _ (List.mem_singleton_self e))
    rw [runSession, List.foldl_append]
    cases e with
    | event e => exact session_event hmain hbefore e
    | restart t => exact session_restart hmain hbefore hnow

theorem published_Stop (m : SubscriptionManager) (t : ℤ) :
    (m.Stop rt config t).1.published =
      m.published ++ m.flushReport t ++ (m.betweenFlushes rt config t).flushReport t := by
  have hflush : ∀ m : SubscriptionManager, (m.flush_metrics rt config t).1.published =
      m.published ++ m.flushReport t := fun m =>
    congrArg Registries.published (toRegistries_flush_metrics rt hmain m t).1
  rw [Stop_eq, hflush]
  exact congrArg (· ++ _) (hflush m)

/-- Only the first stop of a client moves the clock to the next minute. In any run with the
main metrics enabled, a stop after a restart flushes twice in the minute it falls into: its
second flush reports what the first one did, for every id that the main registry has kept,
and nothing that was counted in that minute. -/
theorem Stop_after_restart (start : ℤ) {events : List SessionEvent}
    (htimes : ∀ e ∈ events, 0 ≤ e.time) {t : ℤ} (ht : 0 ≤ t) :
    let m := runSession rt config (create start) events
    let minute := m.WallTime t / 60000
    ((∀ u, .restart u ∉ events) → (m.Stop rt config t).1.WallTime t = (minute + 1) * 60000) ∧
      ((∃ u, .restart u ∈ events) →
        (m.Stop rt config t).1.WallTime t / 60000 = minute ∧
          ∀ id, (m.betweenFlushes rt config t).main_registry_.my_values.lookup id ≠ none →
            ((m.betweenFlushes rt config t).flushReport t).filter (·.id = id) =
              (m.flushReport t).filter (·.id = id)) := by
  intro m minute
  have hsession : m.Session events := session_run hmain start htimes
  have hwall : 0 ≤ m.WallTime t := add_nonneg ht hsession.nonneg
  have hstop := WallTime_Stop rt config m hwall
  constructor
  · intro hfresh
    rw [hstop, hsession.fresh hfresh, sub_zero]
  · intro hrestarted
    obtain ⟨hpos, hle⟩ := hsession.restarted hrestarted
    have hminute : (m.Stop rt config t).1.WallTime t / 60000 = minute := by
      have hoffset : m.offset_ = (runSession rt config (create start) events).offset_ := rfl
      dsimp only [minute]
      omega
    refine ⟨hminute, fun id hid => ?_⟩
    have hfirst : (m.betweenFlushes rt config t).toRegistries =
        (m.toRegistries.update (m.WallTime t)).send (m.WallTime t) :=
      (toRegistries_flush_metrics rt hmain m t).1
    have hsecond : (m.betweenFlushes rt config t).WallTime t =
        (m.Stop rt config t).1.WallTime t := by
      rw [WallTime, WallTime, Stop_offset]
      rfl
    have hnonneg : 0 ≤ (m.Stop rt config t).1.WallTime t := by
      rw [hstop]
      omega
    rw [show (m.betweenFlushes rt config t).main_registry_ =
      (m.betweenFlushes rt config t).toRegistries.main_registry_ from rfl, hfirst] at hid
    rw [flushReport, flushReport, hsecond, hfirst]
    exact report_again hsession.minutes hwall hnonneg hminute hid

omit hmain in
/-- A counter that is added to between two stops, 2 s and 8 s into their minute. -/
theorem Stop_after_restart_twice :
    let m := runSession plainRuntime mainOnly (create 60000) [.event (.tick 60000),
      .restart 62000, .event (.op 63000 (.counter ⟨intern_str "a", ∅⟩)),
      .event (.op 64000 (.add (MeterOp.counter ⟨intern_str "a", ∅⟩).meterId 7))]
    (m.Stop plainRuntime mainOnly 68000).1.WallTime 68000 / 60000 = m.WallTime 68000 / 60000 ∧
      ∀ id, (m.betweenFlushes plainRuntime mainOnly 68000).main_registry_.my_values.lookup id ≠
          none →
        ((m.betweenFlushes plainRuntime mainOnly 68000).flushReport 68000).filter (·.id = id) =
          (m.flushReport 68000).filter (·.id = id) :=
  (Stop_after_restart rfl 60000 (by simp [SessionEvent.time]) (by omega)).2 ⟨62000, by simp⟩

end SubscriptionManager

end AtlasNative
