import AtlasNative.ConsolidationExpiry
import AtlasNative.ConsolidationRuns

/-!
# Frequencies beyond the range of `int`

The offset of the clock is `-update_frequency_` as an `int`, and values are divided by the
quotient of the frequencies as an `int`. When either of them is another number, one update
and one report on schedule are enough to see it.
-/

namespace AtlasNative

open ExactDouble Rolling Grouping ConsolidationRegistry
set_option autoImplicit false

def probeId : Id := ⟨intern_str "probe", .of [("statistic", "count")]⟩

def probe (s : ℤ) : ConsEvent := .update s [⟨probeId, s, .fin 1⟩]

theorem probe_op : aggregate_op probeId = .Add := by decide

theorem valuesFor_probe (s : ℤ) : valuesFor probeId [⟨probeId, s, .fin 1⟩] = [.fin 1] := by
  rw [valuesFor_cons, if_pos ⟨rfl, rfl⟩]
  rfl

theorem Holds.first (m R now : ℤ) (v : Double) :
    Holds .Add m R ((ConsolidatedValue.create false m R now).update now v) [(now.tdiv R, v)] ∧
      ((ConsolidatedValue.create false m R now).update now v).v.last_init_pos_ = now.tdiv R := by
  have h := (Holds.create .Add m R now).update now v
  have hstart : max (ConsolidatedValue.create (decide (AggrOp.Add = AggrOp.Max)) m R
      now).v.last_init_pos_ (now.tdiv R) = now.tdiv R := max_self _
  rw [hstart] at h
  exact h

section Probe
variable {u m s t : ℤ}

theorem schedule_probe (hs : u ≤ s) (hst : s ≤ t) (halign : t % (m * u) < u) :
    Schedule u (m * u) ([probe s] ++ [.measure t]) := by
  refine ⟨?_, ?_, ?_, ?_⟩
  · intro e he
    rcases List.mem_pair.mp he with rfl | rfl
    · exact hs
    · exact hs.trans hst
  · exact List.pairwise_pair.mpr hst
  · intro t' ht'
    rcases List.mem_pair.mp ht' with h | h
    · cases h
    · cases h
      exact halign
  · apply List.pairwise_pair.mpr
    intro t' s' values h
    cases h

theorem reportedValues_probe (hstep : (s - u) / (m * u) = t / (m * u) - 1) :
    reportedValues u (m * u) probeId [probe s] t = [.fin 1] := by
  rw [reportedValues, valuesLog, List.flatMap_singleton, probe, ConsEvent.logged, valuesFor_probe,
    bucket_map_mk, if_pos hstep]

def probeValue (u m s t : ℤ) : Double :=
  if (s + offset u).tdiv (m * u) = max ((s + offset u).tdiv (m * u)) (t.tdiv (m * u)) - 1 then
    0 + .fin 1 / .fin (multiple u (m * u))
  else 0

theorem measurements_probe (timestamp : ℤ) :
    ((runCons (.create u (m * u)) [probe s]).measurements t timestamp).filter (·.id = probeId) =
      if 0 < probeValue u m s t then [⟨probeId, timestamp, probeValue u m s t⟩] else [] := by
  have hlookup : (runCons (.create u (m * u)) [probe s]).my_values.lookup probeId =
      some ((ConsolidatedValue.create false (multiple u (m * u)) (m * u) (s + offset u)).update
        (s + offset u) (.fin 1)) := by
    have hfold := @lookup_update u (m * u) (.create u (m * u)) rfl rfl probeId s
      [⟨probeId, s, .fin 1⟩]
    rw [valuesFor_probe, probe_op] at hfold
    exact hfold
  obtain ⟨hholds, hpos⟩ := Holds.first (multiple u (m * u)) (m * u) (s + offset u) (.fin 1)
  have hpoll := (hholds.tracks.roll (t.tdiv (m * u))).previous
  rw [Roller.roll_pos, StepNumber.toRoller_pos, hpos, ← List.nil_append [_], valueAt_concat]
    at hpoll
  have hfound : StepNumber.Poll _ t = probeValue u m s t := (StepNumber.Poll_eq _ t).trans
    ((congrArg Roller.previous (by rw [hholds.init, hholds.step])).trans hpoll)
  have hvalue := hholds.has_value_iff t
  rw [hfound] at hvalue
  rw [filter_measurements, hlookup]
  dsimp only
  rw [ConsolidatedValue.value, hfound]
  exact if_congr hvalue rfl rfl

/-- The reference asks for one report of the value. -/
theorem exists_of_reports (hstep : (s - u) / (m * u) = t / (m * u) - 1)
    {timestamp : ℤ} (h : ReportsReference u m [probe s] t timestamp probeId) :
    ∃ x ∈ ((runCons (.create u (m * u)) [probe s]).measurements t timestamp).filter
      (·.id = probeId), x.value = .fin (1 / m) := by
  unfold ReportsReference at h
  rw [reportedValues_probe hstep, probe_op] at h
  simp only [List.sum_singleton, Double.divBy_fin, Double.zero_lt_fin] at h
  obtain ⟨x, hx, hid⟩ := h.1.mpr one_pos
  exact ⟨x, List.mem_filter.mpr ⟨hx, decide_eq_true hid⟩, (h.2.1 x hx hid).2⟩

/-- An offset that is not `-u` takes the value past the step that it belongs to. -/
theorem not_reports_of_offset (hu : 0 < u) (hm : 0 < m) (hoffset : -u < offset u)
    (timestamp : ℤ) :
    ¬ ReportsReference u m [probe (m * u + u - 1)] (m * u + u - 1) timestamp probeId := by
  intro h
  have hle : u ≤ m * u := le_mul_of_one_le_left hu.le hm
  have hR : 0 < m * u := hu.trans_le hle
  have hfirst : (m * u + u - 1 - u) / (m * u) = 0 := Int.ediv_eq_zero_of_lt (by omega) (by omega)
  have hpolled : (m * u + u - 1) / (m * u) = 1 := by
    apply le_antisymm
    · exact Int.lt_add_one_iff.mp (Int.ediv_lt_of_lt_mul hR (by omega))
    · exact Int.le_ediv_of_mul_le hR (by omega)
  have hwritten : 1 ≤ (m * u + u - 1 + offset u).tdiv (m * u) := by
    rw [Int.tdiv_eq_ediv_of_nonneg (by omega)]
    exact Int.le_ediv_of_mul_le hR (by omega)
  have hwall : (m * u + u - 1).tdiv (m * u) = 1 := by
    rw [Int.tdiv_eq_ediv_of_nonneg (by omega), hpolled]
  obtain ⟨x, hx, _⟩ := exists_of_reports (by rw [hfirst, hpolled, sub_self]) h
  have hnothing : probeValue u m (m * u + u - 1) (m * u + u - 1) = 0 := by
    rw [probeValue, hwall, max_eq_left hwritten, if_neg (by omega)]
  rw [measurements_probe, hnothing, if_neg (Double.lt_irrefl 0)] at hx
  cases hx

/-- A multiple that is not `m` makes another rate of the value. -/
theorem not_reports_of_multiple (hu : 0 < u) (hoffset : u ≤ 2 ^ 31) (hm : 0 < m)
    (hmultiple : multiple u (m * u) ≠ m) (timestamp : ℤ) :
    ¬ ReportsReference u m [probe u] (m * u) timestamp probeId := by
  intro h
  have hR : 0 < m * u := mul_pos hm hu
  have hwritten : (u + offset u).tdiv (m * u) = 0 := by
    rw [offset_eq hu hoffset, add_neg_cancel, Int.zero_tdiv]
  obtain ⟨x, hx, hvalue⟩ :=
    exists_of_reports (by rw [sub_self, Int.zero_ediv, Int.ediv_self hR.ne', sub_self]) h
  have hrate : probeValue u m u (m * u) = .fin 1 / .fin (multiple u (m * u)) := by
    rw [probeValue, hwritten, Int.tdiv_self hR.ne', if_pos (by omega), zero_add]
  rw [measurements_probe, hrate] at hx
  split at hx
  · rw [List.mem_singleton.mp hx] at hvalue
    by_cases hzero : ((multiple u (m * u) : ℤ) : ℚ) = 0
    · rw [hzero] at hvalue
      cases hvalue
    · rw [Double.fin_div_fin _ hzero, Double.fin.injEq, one_div, one_div, inv_inj,
        Int.cast_inj] at hvalue
      exact hmultiple hvalue
  · cases hx

end Probe

/-- Reports are the reference in every run that keeps to the schedule exactly when the two
values of type `int` are the offset and the multiple. -/
theorem measurements_eq_reference_iff {u m : ℤ} (hu : 0 < u) (hm : 0 < m) :
    (∀ events t, Schedule u (m * u) (events ++ [.measure t]) →
      ∀ timestamp id, ReportsReference u m events t timestamp id) ↔
        u ≤ 2 ^ 31 ∧ m < 2 ^ 31 := by
  have hle : u ≤ m * u := le_mul_of_one_le_left hu.le hm
  constructor
  · intro h
    have hoffset : u ≤ 2 ^ 31 := by
      by_contra hlarge
      have hwrap : -u < offset u := by
        unfold offset wrap Int.bmod
        dsimp only
        split <;> omega
      have halign : (m * u + u - 1) % (m * u) < u := by
        have hrest : m * u + u - 1 = (u - 1) + m * u := by omega
        rw [hrest, Int.add_emod_right, Int.emod_eq_of_lt (by omega) (by omega)]
        omega
      exact not_reports_of_offset hu hm hwrap 0
        (h _ _ (schedule_probe (by omega) le_rfl halign) 0 probeId)
    refine ⟨hoffset, ?_⟩
    by_contra hlarge
    have hwrap : multiple u (m * u) ≠ m := by
      rw [multiple, Int.mul_tdiv_cancel _ hu.ne']
      have hrange := (wrap_range hm.le).2.1
      omega
    exact not_reports_of_multiple hu hoffset hm hwrap 0
      (h _ _ (schedule_probe le_rfl hle (by rwa [Int.emod_self])) 0 probeId)
  · intro h events t hschedule timestamp id
    exact reportsReference_run hu h.1 id hm h.2 hschedule timestamp

/-- Two updates on the two sides of the first minute, the later one written back to it. -/
theorem measurements_eq_reference_iff_minute :
    ReportsReference 5000 12 [.update 10000 [⟨probeId, 10000, .fin 3⟩],
      .update 60000 [⟨probeId, 60000, .fin 4⟩]] 60000 60000 probeId := by
  refine (measurements_eq_reference_iff (by omega) (by omega)).mpr ⟨by omega, by omega⟩ _ _ ?_ _ _
  refine ⟨by simp [ConsEvent.time], by simp [ConsEvent.time], ?_, by simp⟩
  intro t ht
  simp only [List.cons_append, List.nil_append, List.mem_cons, reduceCtorEq,
    ConsEvent.measure.injEq, List.not_mem_nil, or_false, false_or] at ht
  omega

/-- With an update frequency of 2147484000 ms the value is never reported. -/
theorem long_update_is_not_reported :
    Schedule 2147484000 (1 * 2147484000) ([probe 4294967999] ++ [.measure 4294967999]) ∧
      ¬ ReportsReference 2147484000 1 [probe 4294967999] 4294967999 4294967999 probeId :=
  ⟨schedule_probe (by omega) le_rfl (by decide),
    not_reports_of_offset (by omega) (by omega) (by decide) 4294967999⟩

end AtlasNative
