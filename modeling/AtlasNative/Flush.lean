import AtlasNative.MinuteReports
import AtlasNative.SubscriptionManager

/-!
# What the flushes of a stop report

`Stop` feeds and reports the main registry twice out of schedule: at the time of the stop
and at the start of the next minute, to which the clock is moved. The first update may be
written behind the step that an entry has reached, and the first report may erase an entry
that holds amounts of the current minute.
-/

namespace AtlasNative

open ExactDouble Rolling Grouping ConsolidationRegistry
set_option autoImplicit false

theorem exists_sum_fin {vs : List Double} (h : ∀ v ∈ vs, ∃ q : ℚ, 0 ≤ q ∧ v = .fin q) :
    ∃ q : ℚ, 0 ≤ q ∧ vs.sum = .fin q := by
  induction vs with
  | nil => exact ⟨0, le_rfl, rfl⟩
  | cons v vs ih =>
    obtain ⟨hv, hrest⟩ := List.forall_mem_cons.mp h
    obtain ⟨p, hp, rfl⟩ := hv
    obtain ⟨q, hq, hsum⟩ := ih hrest
    exact ⟨p + q, add_nonneg hp hq, by rw [List.sum_cons, hsum, Double.fin_add_fin]⟩

theorem sum_eq_of_reference_eq {m : ℤ} (hm : 0 < m) {vs ws : List Double} {q : ℚ} (hq : 0 ≤ q)
    (hws : ws.sum = .fin q) (hvs : ∀ v ∈ vs, ∃ q : ℚ, 0 ≤ q ∧ v = .fin q)
    (h : AggrOp.Add.reference m vs = AggrOp.Add.reference m ws) : vs.sum = .fin q := by
  obtain ⟨p, hp, hsum⟩ := exists_sum_fin hvs
  have hm' : (m : ℚ) ≠ 0 := Int.cast_ne_zero.mpr hm.ne'
  simp only [AggrOp.reference, hsum, hws, Double.zero_lt_fin, Double.divBy_fin] at h
  rw [hsum]
  by_cases hp0 : 0 < p <;> by_cases hq0 : 0 < q
  · rw [if_pos hp0, if_pos hq0, Option.some.injEq, Double.fin.injEq] at h
    rw [(div_left_inj' hm').mp h]
  · simp [hp0, hq0] at h
  · simp [hp0, hq0] at h
  · rw [le_antisymm (not_lt.mp hp0) hp, le_antisymm (not_lt.mp hq0) hq]

/-- The entry of a counter holds the amounts that were polled, of the steps from `k₀` on. -/
structure EntrySums (entry : Option ConsolidatedValue) (log : List (ℤ × Double)) (b k₀ : ℤ)
    (S : ℤ → ℤ) : Prop where
  holds : EntryHolds .Add 12 (12 * 5000) entry log b
  finite : ∀ x ∈ log, ∃ q : ℚ, 0 ≤ q ∧ x.2 = .fin q
  sums : ∀ k, k₀ ≤ k → (bucket k log).sum = .fin (S k / 5)

theorem MainInv.entrySums {b j : ℤ} {id : Id} {start main : ConsolidationRegistry}
    {events : List ConsEvent} {log : List (ℤ × ℤ)} (hop : aggregate_op id = .Add)
    (hb0 : 0 ≤ b) (hb : b < 5000) (hlog : ∀ e ∈ log, 0 ≤ e.2)
    (h : MainInv b id start events main j log) :
    ∃ log', EntrySums (main.my_values.lookup id) log' (max 0 ((j - 1) / 12)) ((j - 1) / 12 - 1)
      fun k => sumWhere (fun i => i / 12 = k ∧ i < j - 1) log := by
  obtain ⟨log', hinv⟩ := entryInv_run (by omega) (by omega) id (by omega) (by omega)
    h.update_frequency h.reporting_frequency (hop.symm ▸ h.unrecorded) h.schedule
  rw [← h.run] at hinv
  have hsteps : ∀ e ∈ events, e.step 5000 (12 * 5000) ≤ (j - 1) / 12 := by
    intro e he
    have htick := h.ticks e he
    cases e with
    | update s values =>
      have htick : s ≤ 5000 * (j - 1) + b := htick
      show (s - 5000) / (12 * 5000) ≤ _
      omega
    | measure t =>
      have htick : t ≤ 5000 * (j - 1) + b := htick
      show t / (12 * 5000) ≤ _
      omega
  have hmeasures : ∀ t, ConsEvent.measure t ∈ events → t / (12 * 5000) ≤ (j - 1) / 12 :=
    fun t ht => hsteps _ ht
  have hfinite : ∀ x ∈ log', ∃ q : ℚ, 0 ≤ q ∧ x.2 = .fin q := fun x hx =>
    h.finite x (hinv.logged x hx)
  refine ⟨log', ?_, hfinite, ?_⟩
  · have hholds := hinv.holds (max 0 ((j - 1) / 12)) (le_max_left _ _) fun e he =>
      le_trans (hsteps e he) (le_max_right _ _)
    rwa [hop] at hholds
  · intro k hk
    have hreference := hinv.latest_report k fun t ht => by
      have hle := hmeasures t ht
      omega
    rw [hop] at hreference
    have hsum : 0 ≤ sumWhere (fun i => i / 12 = k ∧ i < j - 1) log := sumWhere_nonneg hlog
    have hsum' : (0 : ℚ) ≤ (sumWhere (fun i => i / 12 = k ∧ i < j - 1) log : ℚ) / 5 :=
      div_nonneg (Int.cast_nonneg hsum) (by norm_num)
    exact sum_eq_of_reference_eq (by omega) hsum' (h.logged k)
      (fun v hv => hfinite _ ((mem_bucket k v log').mp hv)) hreference

namespace EntrySums
variable {entry : Option ConsolidatedValue} {log : List (ℤ × Double)} {b k₀ : ℤ} {S : ℤ → ℤ}

theorem not_nan (h : EntrySums entry log b k₀ S) : ∀ x ∈ log, x.2.isnan = false := by
  intro x hx
  obtain ⟨q, _, hq⟩ := h.finite x hx
  rw [hq]
  rfl

theorem record (h : EntrySums entry log b k₀ S) (now : ℤ) {vs : List Double} {E : ℤ}
    (hvs : Rates vs (E / 5)) :
    ∃ q log', now.tdiv (12 * 5000) ≤ q ∧ q ≤ max b (now.tdiv (12 * 5000)) ∧
      EntrySums (vs.foldl (ConsolidatedValue.record false 12 (12 * 5000) now) entry) log'
        (max b (now.tdiv (12 * 5000))) k₀ fun k => S k + if q = k then E else 0 := by
  obtain ⟨q, hq, hq', hholds⟩ := h.holds.record_late now vs
  refine ⟨q, _, hq, hq', hholds, ?_, ?_⟩
  · intro x hx
    rcases List.mem_append.mp hx with hx | hx
    · exact h.finite x hx
    · obtain ⟨v, hv, rfl⟩ := List.mem_map.mp hx
      exact hvs.finite v hv
  · intro k hk
    rw [bucket_append, List.sum_append, h.sums k hk, bucket_map_mk]
    split
    · rw [hvs.sum, Double.fin_add_fin]
      push_cast
      rw [add_div]
    · simp

theorem report (h : EntrySums entry log b k₀ S) {reg : ConsolidationRegistry} {id : Id}
    (hentry : reg.my_values.lookup id = entry) {wall k : ℤ}
    (hwall : wall.tdiv (12 * 5000) = k + 1) (hb : b ≤ k + 1) (hk : k₀ ≤ k) (timestamp : ℤ) :
    (reg.measurements wall timestamp).filter (·.id = id) =
        (if 0 < S k then [⟨id, timestamp, .fin (S k / 60)⟩] else []) ∧
      ∃ log', EntrySums ((reg.afterMeasurements wall).my_values.lookup id) log' (k + 1) k₀
        fun i => if marked entry = true ∧ S k ≤ 0 then 0 else S i := by
  have hfilter := h.holds.filter_measurements (by omega) hentry hwall hb h.not_nan timestamp
  have hsum := h.sums k hk
  rw [add_sub_cancel_right, toList_reference hsum] at hfilter
  refine ⟨hfilter, ?_⟩
  have hnone : AggrOp.Add.reference 12 (bucket k log) = none ↔ S k ≤ 0 := by
    have hempty := congrArg List.isEmpty (toList_reference hsum id timestamp)
    by_cases hS : 0 < S k <;>
      cases hreference : AggrOp.Add.reference 12 (bucket k log) <;>
      simp_all
  have herased : EntryHolds.Erased .Add 12 entry (bucket (k + 1 - 1) log) ↔
      marked entry = true ∧ S k ≤ 0 := by
    rw [EntryHolds.Erased, add_sub_cancel_right, hnone, marked, Option.any_eq_true]
  rw [lookup_afterMeasurements, hentry]
  by_cases hkeep : marked entry = true ∧ S k ≤ 0
  · refine ⟨[], ?_, by simp, fun i _ => ?_⟩
    · rw [(h.holds.report_eq (by omega) hwall hb h.not_nan).mpr (Or.inr (herased.mpr hkeep))]
      exact EntryHolds.none _ _ _ _
    · rw [if_pos hkeep]
      simp [bucket, Double.zero_def]
  · refine ⟨log, h.holds.report (by omega) hwall hb h.not_nan (fun he => hkeep (herased.mp he)),
      h.finite, fun i hi => ?_⟩
    rw [if_neg hkeep]
    exact h.sums i hi

end EntrySums

end AtlasNative
