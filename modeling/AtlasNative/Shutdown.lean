import AtlasNative.Flush

/-!
# What a stop reports of a counter

The sum of the last values that are reported for a counter, when the manager is stopped.
The 5 s step before the stop may be fed a second time, the step in progress is left out
unless it is the last of its minute, and an entry that was marked may be erased.
-/

namespace AtlasNative

open ExactDouble Rolling Grouping ConsolidationRegistry
set_option autoImplicit false

/-- The two flushes of `Stop`, the second one at the start of the next minute. -/
def Registries.stop (r : Registries) (s : ℤ) : Registries :=
  let next := (s / 60000 + 1) * 60000
  (((r.update s).send s).update next).send next

theorem AtlasRegistry.Records.step_le {u now : ℤ} {reg : AtlasRegistry} {id : Id}
    {log : List (ℤ × ℤ)} (hu : 0 < u) (h : reg.Records u id now log) :
    ∀ e ∈ log, e.1 ≤ now / u := by
  intro e he
  obtain ⟨c, _, hc⟩ := h.counter
  exact le_trans (hc.recent e he) (Int.ediv_le_ediv hu hc.updated)

/-- The state around a flush: the counter has recorded `log`, and the main registry holds
the amounts `S` of the minutes from `k₀` on. -/
structure FlushInv (id : Id) (r : Registries) (now : ℤ) (log : List (ℤ × ℤ)) (b k₀ : ℤ)
    (S : ℤ → ℤ) : Prop where
  records : r.registry_.Records 5000 id now log
  amounts : ∀ e ∈ log, 0 ≤ e.2
  update_frequency : r.main_registry_.update_frequency_ = 5000
  reporting_frequency : r.main_registry_.reporting_frequency_ = 12 * 5000
  entry : ∃ log', EntrySums (r.main_registry_.my_values.lookup id) log' b k₀ S

theorem minute_before {t : ℤ} (ht : 0 ≤ t) :
    (t - 5000).tdiv (12 * 5000) = (t / 5000 - 1) / 12 ∨
      t / 5000 = 0 ∧ (t - 5000).tdiv (12 * 5000) = 0 := by
  have hcases := tdiv_sub_cases ht (show (5000 : ℤ) < 12 * 5000 by omega)
  omega

theorem FlushInv.flush {id : Id} {r : Registries} {now t b k₀ : ℤ} {log : List (ℤ × ℤ)}
    {S : ℤ → ℤ} (hop : aggregate_op id = .Add) (h : FlushInv id r now log b k₀ S) (h0 : 0 ≤ t)
    (ht : now ≤ t) (hb : b ≤ t / 60000) (hk₀ : k₀ ≤ t / 60000 - 1) :
    ∃ q S', (t - 5000).tdiv (12 * 5000) ≤ q ∧ q ≤ max b ((t - 5000).tdiv (12 * 5000)) ∧
      (S' = fun k => S k + if q = k then (bucket (t / 5000 - 1) log).sum else 0) ∧
      ReportsAmount id ((r.update t).report t) (60000 * (t / 60000)) (S' (t / 60000 - 1)) ∧
      FlushInv id ((r.update t).send t) t log (t / 60000) k₀ fun k =>
        if marked (r.main_registry_.my_values.lookup id) = true ∧ S' (t / 60000 - 1) ≤ 0 then 0
        else S' k := by
  obtain ⟨log', hentry⟩ := h.entry
  have hrates := h.records.rates_five h.amounts h0 ht
  obtain ⟨q, log₁, hq, hq', hrecord⟩ := hentry.record (t - 5000) hrates
  have hclock : (t - 5000).tdiv (12 * 5000) ≤ t / 60000 := by
    rcases minute_before h0 with hstep | ⟨_, hstep⟩ <;> omega
  have hlookup : (r.update t).main_registry_.my_values.lookup id =
      (valuesFor id (r.registry_.measurements t)).foldl
        (ConsolidatedValue.record false 12 (12 * 5000) (t - 5000))
        (r.main_registry_.my_values.lookup id) := by
    have hupdate := lookup_update_from (by omega) (by omega) (by omega) (by omega)
      h.update_frequency h.reporting_frequency id t (r.registry_.measurements t)
    rw [hop] at hupdate
    exact hupdate
  have hwall : t.tdiv (12 * 5000) = t / 60000 - 1 + 1 := by
    rw [Int.tdiv_eq_ediv_of_nonneg h0]
    omega
  obtain ⟨hfilter, log₂, hafter⟩ := hrecord.report hlookup hwall
    (by rw [sub_add_cancel]; exact max_le hb hclock) hk₀ (60000 * (t / 60000))
  rw [marked_foldl_record, sub_add_cancel] at hafter
  have htimestamp : t.tdiv kMainFrequencyMillis * kMainFrequencyMillis = 60000 * (t / 60000) := by
    rw [kMainFrequencyMillis, Int.tdiv_eq_ediv_of_nonneg h0]
    omega
  have hkeep := r.main_registry_.update_from_frequencies t (r.registry_.measurements t)
  refine ⟨q, _, hq, hq', rfl, ?_, ?_, h.amounts, ?_, ?_, log₂, ?_⟩
  · rw [ReportsAmount, Registries.report, htimestamp]
    exact hfilter
  · exact h.records.afterMeasurements (by omega) h0 ht
  · exact hkeep.1.trans h.update_frequency
  · exact hkeep.2.trans h.reporting_frequency
  · exact hafter

theorem FlushInv.flush_minute_end {id : Id} {r : Registries} {now M k₀ : ℤ} {log : List (ℤ × ℤ)}
    {S : ℤ → ℤ} (hop : aggregate_op id = .Add) (h : FlushInv id r now log M k₀ S) (hM : 0 ≤ M)
    (hnow : now ≤ (M + 1) * 60000) (hk₀ : k₀ ≤ M) :
    ReportsAmount id ((r.update ((M + 1) * 60000)).report ((M + 1) * 60000)) (60000 * (M + 1))
      (S M + sumWhere (· = 12 * M + 11) log) := by
  have hminute : (M + 1) * 60000 / 60000 = M + 1 := by omega
  have hstep : (M + 1) * 60000 / 5000 - 1 = 12 * M + 11 := by omega
  have hclock : ((M + 1) * 60000 - 5000).tdiv (12 * 5000) = M := by
    have hbefore := minute_before (t := (M + 1) * 60000) (by omega)
    omega
  obtain ⟨q, S', hq, hq', hS', hreport, _⟩ := h.flush hop (t := (M + 1) * 60000) (by omega) hnow
    (by omega) (by omega)
  rw [hclock] at hq hq'
  obtain rfl : q = M := le_antisymm (hq'.trans_eq (max_self _)) hq
  rw [hminute, add_sub_cancel_right, hS', hstep] at hreport
  dsimp only at hreport
  rw [if_pos rfl] at hreport
  exact hreport

/-- The amounts of the 5 s steps around a stop at step `σ` of minute `M`, after
iteration `n`. -/
structure StopSums (log : List (ℤ × ℤ)) (σ n M : ℤ) : Prop where
  total : sumWhere (fun _ => True) log =
    sumWhere (fun i => i / 12 < M ∧ i < n) log + sumWhere (fun i => i / 12 = M ∧ i < n) log +
      if σ = n then sumWhere (· = σ) log
      else sumWhere (· = σ - 1) log + sumWhere (· = σ) log
  before : sumWhere (· / 12 = M - 1) log = sumWhere (fun i => i / 12 = M - 1 ∧ i < n) log +
    if n = σ - 1 ∧ (σ - 1) / 12 = M - 1 then sumWhere (· = σ - 1) log else 0
  current : sumWhere (fun i => i / 12 = M ∧ i < σ) log =
    sumWhere (fun i => i / 12 = M ∧ i < n) log +
      if n = σ - 1 ∧ (σ - 1) / 12 = M then sumWhere (· = σ - 1) log else 0
  last : sumWhere (· = 12 * M + 11) log = if σ % 12 = 11 then sumWhere (· = σ) log else 0
  repeated : σ = n → sumWhere (· = σ - 1) log ≤
    if (σ - 1) / 12 = M then sumWhere (fun i => i / 12 = M ∧ i < n) log
    else sumWhere (fun i => i / 12 = M - 1 ∧ i < n) log
  first : σ = 0 → sumWhere (· = σ - 1) log = 0

theorem StopSums.of_log {log : List (ℤ × ℤ)} {σ n M : ℤ} (hsteps : ∀ e ∈ log, 0 ≤ e.1)
    (hlast : ∀ e ∈ log, e.1 ≤ σ) (hn : σ = n ∨ σ = n + 1) (hM : σ / 12 = M)
    (hamounts : ∀ e ∈ log, 0 ≤ e.2) : StopSums log σ n M := by
  have hpolled : sumWhere (· < n) log = sumWhere (fun i => i / 12 < M ∧ i < n) log +
      sumWhere (fun i => i / 12 = M ∧ i < n) log :=
    sumWhere_split (fun e _ => by omega) fun k => by omega
  have hall : sumWhere (fun _ => True) log = sumWhere (· < n) log + sumWhere (n ≤ ·) log :=
    sumWhere_split (fun e _ => ⟨fun _ => lt_or_ge e.1 n, fun _ => trivial⟩) fun k => by omega
  refine ⟨?_, ?_, ?_, ?_, ?_, ?_⟩
  · rw [hall, hpolled]
    congr 1
    split
    · exact sumWhere_congr fun e he => by
        have hle := hlast e he
        omega
    · exact sumWhere_split (fun e he => by
        have hle := hlast e he
        omega) fun k => by omega
  · split
    · exact sumWhere_split (fun e _ => by omega) fun k => by omega
    · rw [add_zero]
      exact sumWhere_congr fun e _ => by omega
  · split
    · exact sumWhere_split (fun e _ => by omega) fun k => by omega
    · rw [add_zero]
      exact sumWhere_congr fun e _ => by omega
  · split
    · exact sumWhere_congr fun e _ => by omega
    · exact sumWhere_eq_zero fun e he hp => by
        have hle := hlast e he
        omega
  · intro hσ
    split
    · rw [sumWhere_split (p := fun i => i / 12 = M ∧ i < n) (q := (· = σ - 1))
        (r := fun i => i / 12 = M ∧ i < σ - 1) (fun e _ => by omega) fun k => by omega]
      exact le_add_of_nonneg_right (sumWhere_nonneg hamounts)
    · rw [sumWhere_split (p := fun i => i / 12 = M - 1 ∧ i < n) (q := (· = σ - 1))
        (r := fun i => i / 12 = M - 1 ∧ i < σ - 1) (fun e _ => by omega) fun k => by omega]
      exact le_add_of_nonneg_right (sumWhere_nonneg hamounts)
  · intro hσ
    exact sumWhere_eq_zero fun e he hp => by
      have hstep := hsteps e he
      omega

/-- The arithmetic of a stop at step `σ` after iteration `n`: `q` is the minute to which the
step before the stop is added, `w` and `w'` are what was polled of the current minute and of
the one before, `B` and `B'` the amounts of the step in progress and of the one before. -/
theorem stop_arith {marked : Prop} [Decidable marked] {σ n q t polled w w' B B' : ℤ}
    (hn : σ = n ∨ σ = n + 1) (hσ : 0 ≤ σ) (hw : 0 ≤ w) (hw' : 0 ≤ w') (hB : 0 ≤ B)
    (hB' : 0 ≤ B') (hzero : σ = 0 → B' = 0) (ht : t = (σ - 1) / 12 ∨ σ = 0 ∧ t = 0)
    (hq : t ≤ q) (hq' : q ≤ max (max 0 (n / 12)) t)
    (hrepeated : σ = n → B' ≤ if (σ - 1) / 12 = σ / 12 then w else w') :
    polled + (if q = σ / 12 - 1 then B' else 0) +
          ((if marked ∧ w' + (if q = σ / 12 - 1 then B' else 0) ≤ 0 then 0
            else w + if q = σ / 12 then B' else 0) + if σ % 12 = 11 then B else 0) =
        polled + w + (if σ = n then B else B' + B) ↔
      (if σ = n then B' else 0) = (if σ % 12 = 11 then 0 else B) ∧
        (marked → w' + (if n = σ - 1 ∧ (σ - 1) / 12 = σ / 12 - 1 then B' else 0) = 0 →
          w + (if n = σ - 1 ∧ (σ - 1) / 12 = σ / 12 then B' else 0) = 0) := by
  have hcases : q = σ / 12 - 1 ∨ q = σ / 12 := by omega
  have hempty : w' + (if q = σ / 12 - 1 then B' else 0) ≤ 0 ↔
      w' + (if n = σ - 1 ∧ (σ - 1) / 12 = σ / 12 - 1 then B' else 0) = 0 := by
    rcases hn with rfl | rfl
    · rcases hcases with rfl | rfl <;> split_ifs at * <;> omega
    · rcases hcases with rfl | rfl <;> split_ifs at * <;> omega
  by_cases herased : marked ∧ w' + (if q = σ / 12 - 1 then B' else 0) ≤ 0
  · -- nothing was added in the minute before, so nothing is fed again
    rw [if_pos herased]
    have hnone := hempty.mp herased.2
    simp only [herased.1, hnone, forall_const]
    rcases hn with rfl | rfl
    · split_ifs at * <;> omega
    · split_ifs at * <;> omega
  · have hvacuous : ¬ (marked ∧
        w' + (if n = σ - 1 ∧ (σ - 1) / 12 = σ / 12 - 1 then B' else 0) = 0) := fun h =>
      herased ⟨h.1, hempty.mpr h.2⟩
    have hfed : (if q = σ / 12 - 1 then B' else 0) + (if q = σ / 12 then B' else 0) = B' := by
      rcases hcases with rfl | rfl <;> split_ifs <;> omega
    rw [if_neg herased, and_iff_left fun hm h0 => absurd ⟨hm, h0⟩ hvacuous]
    split_ifs at * <;> omega

section Stop
variable {b c j now s : ℤ} {id : Id} {r : Registries} {log : List (ℤ × ℤ)}
  (hop : aggregate_op id = .Add) (hb0 : 0 ≤ b) (hb : b < 5000)
  (h : RunInv b c id r j now log) (hreg : r.registry_.Records 5000 id now log)
include hop hb0 hb h hreg

theorem flushInv : FlushInv id r now log (max 0 ((j - 1) / 12)) ((j - 1) / 12 - 1) fun k =>
    sumWhere (fun i => i / 12 = k ∧ i < j - 1) log := by
  obtain ⟨start, events, hmain⟩ := h.main
  obtain ⟨hfreq, hreporting⟩ := hmain.main_frequencies
  exact ⟨hreg, h.amounts, hfreq, hreporting, hmain.entrySums hop hb0 hb h.amounts⟩

omit hop hreg in
theorem total_first (hc : c ≤ now) (hnow : now ≤ s) (hnext : s ≤ 5000 * j + b)
    {report : Measurements} {E : ℤ} (hE : 0 ≤ E)
    (hreport : ReportsAmount id report (60000 * (s / 60000))
      (sumWhere (fun i => i / 12 = s / 60000 - 1 ∧ i < j - 1) log + E)) :
    AssocMap.total (lastValues id (r.published ++ report)) =
        .fin ((sumWhere (fun i => i / 12 < s / 60000 ∧ i < j - 1) log + E : ℤ) / 60) ∧
      ∀ t ∈ lastValues id (r.published ++ report), t ≤ 60000 * (s / 60000) := by
  have hwindow := h.window s hnow (le_trans hc hnow)
  have h0 := h.nonneg
  have hminute : (j - 1) / 12 = s / 60000 ∨ (j - 1) / 12 = s / 60000 - 1 := by omega
  have hpolled : 0 ≤ sumWhere (fun i => i / 12 = s / 60000 - 1 ∧ i < j - 1) log :=
    sumWhere_nonneg h.amounts
  constructor
  · rcases hminute with hminute | hminute
    · have hlatest := h.latest
      have htotal := h.total
      rw [hminute] at hlatest htotal
      have hbefore : sumWhere (fun i => i / 12 = s / 60000 - 1 ∧ i < j - 1) log =
          sumWhere (· / 12 = s / 60000 - 1) log := sumWhere_congr fun e _ => by omega
      have hsum : sumWhere (fun i => i / 12 < s / 60000 ∧ i < j - 1) log =
          sumWhere (· / 12 < s / 60000) log := sumWhere_congr fun e _ => by omega
      rw [hreport.total_again (hbefore ▸ hpolled) (hbefore ▸ le_add_of_nonneg_right hE) hlatest
        htotal, hbefore, hsum]
      congr 3
      omega
    · have hfresh : 60000 * (s / 60000) ∉ lastValues id r.published := by
        intro hmem
        have hle := h.timestamps _ hmem
        omega
      have hsum : sumWhere (fun i => i / 12 < s / 60000 ∧ i < j - 1) log =
          sumWhere (· / 12 < (j - 1) / 12) log +
            sumWhere (fun i => i / 12 = s / 60000 - 1 ∧ i < j - 1) log :=
        sumWhere_split (fun e _ => by omega) fun k => by omega
      rw [hreport.total (add_nonneg hpolled hE) hfresh h.total, hsum, add_assoc]
  · intro t ht
    rcases hreport.mem ht with rfl | ht
    · exact le_rfl
    · have hle := h.timestamps t ht
      omega

/-- What a stop at `s` reports in total: the steps that were polled, the one that was not or
a second time the one before, and the last one of the minute; but not what an erased entry
held. -/
theorem stop_total (hc : c ≤ now) (hnow : now ≤ s) (hnext : s ≤ 5000 * j + b) :
    ∃ q, (s - 5000).tdiv (12 * 5000) ≤ q ∧
      q ≤ max (max 0 ((j - 1) / 12)) ((s - 5000).tdiv (12 * 5000)) ∧
      AssocMap.total (lastValues id (r.stop s).published) = .fin
        ((sumWhere (fun i => i / 12 < s / 60000 ∧ i < j - 1) log +
          (if q = s / 60000 - 1 then sumWhere (· = s / 5000 - 1) log else 0) +
          ((if marked (r.main_registry_.my_values.lookup id) = true ∧
              sumWhere (fun i => i / 12 = s / 60000 - 1 ∧ i < j - 1) log +
                (if q = s / 60000 - 1 then sumWhere (· = s / 5000 - 1) log else 0) ≤ 0 then 0
            else sumWhere (fun i => i / 12 = s / 60000 ∧ i < j - 1) log +
              (if q = s / 60000 then sumWhere (· = s / 5000 - 1) log else 0)) +
          sumWhere (· = 12 * (s / 60000) + 11) log) : ℤ) / 60) := by
  have hwindow := h.window s hnow (le_trans hc hnow)
  have h0 := h.nonneg
  have hs0 : 0 ≤ s := le_trans h0 hnow
  obtain ⟨q, S, hq, hq', hS, hfirst, hinv⟩ := (flushInv hop hb0 hb h hreg).flush hop hs0 hnow
    (by omega) (by omega)
  refine ⟨q, hq, hq', ?_⟩
  have hE : 0 ≤ if q = s / 60000 - 1 then sumWhere (· = s / 5000 - 1) log else 0 := by
    split
    · exact sumWhere_nonneg h.amounts
    · exact le_rfl
  have hS' : ∀ k, S k = sumWhere (fun i => i / 12 = k ∧ i < j - 1) log +
      if q = k then sumWhere (· = s / 5000 - 1) log else 0 := fun k => by
    rw [hS]
    rfl
  rw [hS'] at hfirst
  obtain ⟨htotal, htimestamps⟩ := total_first hb0 hb h hc hnow hnext hE hfirst
  have hsecond := hinv.flush_minute_end hop (by omega) (by omega) (by omega)
  rw [hS', hS'] at hsecond
  have hfresh : 60000 * (s / 60000 + 1) ∉
      lastValues id (r.published ++ (r.update s).report s) := by
    intro hmem
    have hle := htimestamps _ hmem
    omega
  refine hsecond.total (add_nonneg ?_ (sumWhere_nonneg h.amounts)) hfresh htotal
  have hpolled : 0 ≤ sumWhere (fun i => i / 12 = s / 60000 ∧ i < j - 1) log :=
    sumWhere_nonneg h.amounts
  have hstep : 0 ≤ sumWhere (· = s / 5000 - 1) log := sumWhere_nonneg h.amounts
  split_ifs <;> omega

/-- Everything is reported once exactly if what is fed again is what is left out, and
nothing of the current minute is erased. -/
theorem stop_total_eq_iff (hc : c ≤ now) (hnow : now ≤ s) (hnext : s ≤ 5000 * j + b) :
    AssocMap.total (lastValues id (r.stop s).published) =
        .fin (sumWhere (fun _ => True) log / 60) ↔
      (if s / 5000 = j - 1 then sumWhere (· = s / 5000 - 1) log else 0) =
          (if s / 5000 % 12 = 11 then 0 else sumWhere (· = s / 5000) log) ∧
        (marked (r.main_registry_.my_values.lookup id) = true →
          sumWhere (· / 12 = s / 60000 - 1) log = 0 →
          sumWhere (fun i => i / 12 = s / 60000 ∧ i < s / 5000) log = 0) := by
  have hwindow := h.window s hnow (le_trans hc hnow)
  have h0 := h.nonneg
  have hlast : ∀ e ∈ log, e.1 ≤ s / 5000 := fun e he =>
    le_trans (hreg.step_le (by omega) e he) (Int.ediv_le_ediv (by omega) hnow)
  have hsums := StopSums.of_log (σ := s / 5000) (n := j - 1) (M := s / 60000) h.steps hlast
    (by omega) (by omega) h.amounts
  obtain ⟨q, hq, hq', htotal⟩ := stop_total hop hb0 hb h hreg hc hnow hnext
  rw [htotal, Double.fin.injEq, div_left_inj' (by norm_num), Int.cast_inj]
  have hclock := minute_before (le_trans h0 hnow)
  have hM : s / 60000 = s / 5000 / 12 := by omega
  rw [hM] at hsums ⊢
  rw [hsums.total, hsums.before, hsums.current, hsums.last]
  exact stop_arith (by omega) (by omega) (sumWhere_nonneg h.amounts) (sumWhere_nonneg h.amounts)
    (sumWhere_nonneg h.amounts) (sumWhere_nonneg h.amounts) hsums.first hclock hq hq'
    hsums.repeated

end Stop

end AtlasNative
