import AtlasNative.StopConservation
import AtlasNative.SubscriptionSchedule

/-!
# What subscriptions are sent

The registry of an interval is fed every 5 s and polled once a minute, at any point of its
reporting step. What it reports of a counter is the rate of the last complete step; but an
interval of more than 30 s may reach back to before the poll of a minute ago, and if that poll
and the one before it found nothing the entry has been erased then, with what it already held.
-/

namespace AtlasNative

open ExactDouble Rolling Grouping ConsolidationRegistry
set_option autoImplicit false

/-! ### The registry of an interval -/

/-- Before iteration `j`, the entry of a counter holds the amounts of the 5 s steps from `n` on that
were fed, each under its reporting step of `m` times 5 s. -/
structure FedFrom (id : Id) (m : ℤ) (cons : ConsolidationRegistry) (j n : ℤ) (log : List (ℤ × ℤ))
    (fed : List (ℤ × Double)) : Prop where
  update_frequency : cons.update_frequency_ = 5000
  reporting_frequency : cons.reporting_frequency_ = m * 5000
  holds : EntryHolds .Add m (m * 5000) (cons.my_values.lookup id) fed (max 0 ((j - 1) / m))
  finite : ∀ x ∈ fed, ∃ q : ℚ, 0 ≤ q ∧ x.2 = .fin q
  sums : ∀ k, (bucket k fed).sum =
    .fin (sumWhere (fun i => i / m = k ∧ n ≤ i ∧ i < j - 1) log / 5)
  cut : n ≤ max 0 (j - 1)

theorem sumWhere_fed_succ (m k n j : ℤ) (log : List (ℤ × ℤ)) :
    sumWhere (fun i => i / m = k ∧ n ≤ i ∧ i < j + 1 - 1) log =
      sumWhere (fun i => i / m = k ∧ n ≤ i ∧ i < j - 1) log +
        if (j - 1) / m = k ∧ n ≤ j - 1 then (bucket (j - 1) log).sum else 0 := by
  have hlast : sumWhere (fun i => ((j - 1) / m = k ∧ n ≤ j - 1) ∧ i = j - 1) log =
      if (j - 1) / m = k ∧ n ≤ j - 1 then (bucket (j - 1) log).sum else 0 := by
    split
    · rename_i hk
      rw [sum_bucket]
      exact sumWhere_congr fun e _ => and_iff_right hk
    · rename_i hk
      exact sumWhere_eq_zero fun e _ hp => hk hp.1
  rw [← hlast, ← sumWhere_or]
  · apply sumWhere_congr
    intro e _
    by_cases he : e.1 = j - 1
    · rw [he]
      constructor
      · intro h
        exact .inr ⟨⟨h.1, h.2.1⟩, rfl⟩
      · rintro (h | h)
        · omega
        · exact ⟨h.1.1, h.1.2, by omega⟩
    · constructor
      · intro h
        exact .inl ⟨h.1, h.2.1, by omega⟩
      · rintro (h | h)
        · exact ⟨h.1, h.2.1, by omega⟩
        · exact absurd h.2 he
  · rintro i ⟨h, h'⟩
    omega

namespace FedFrom
variable {b j m n : ℤ} {id : Id} {cons : ConsolidationRegistry} {log : List (ℤ × ℤ)}
  {fed : List (ℤ × Double)} {values : Measurements}

theorem create (id : Id) (m j : ℤ) :
    FedFrom id m (.create 5000 (5000 * m)) j 0 [] [] where
  update_frequency := rfl
  reporting_frequency := mul_comm _ _
  holds := .none _ _ _ _
  finite := by simp
  sums := fun k => by simp [bucket, Double.zero_def]
  cut := le_max_left _ _

theorem not_nan (h : FedFrom id m cons j n log fed) : ∀ x ∈ fed, x.2.isnan = false := by
  intro x hx
  obtain ⟨q, _, hq⟩ := h.finite x hx
  rw [hq]
  rfl

/-- Amounts that have not been fed. -/
theorem add (h : FedFrom id m cons j n log fed) {log' : List (ℤ × ℤ)}
    (hlog' : ∀ e ∈ log', j - 1 ≤ e.1) : FedFrom id m cons j n (log ++ log') fed :=
  { h with
    sums := fun k => by
      have hzero : sumWhere (fun i => i / m = k ∧ n ≤ i ∧ i < j - 1) log' = 0 :=
        sumWhere_eq_zero fun e he hp => absurd hp.2.2 (not_lt.mpr (hlog' e he))
      rw [h.sums, sumWhere_append, hzero, add_zero] }

variable (hop : aggregate_op id = .Add) (hb0 : 0 ≤ b) (hb : b < 5000) (hm : 0 < m) (hj : 0 ≤ j)
include hop hb0 hb hm hj

omit hop in
/-- The reporting step of what an iteration feeds; before the second one there is nothing. -/
theorem fed_step : (5000 * j + b - 5000).tdiv (m * 5000) = (j - 1) / m ∨
    (j = 0 ∧ (5000 * j + b - 5000).tdiv (m * 5000) ≤ 0) := by
  rcases Int.le_iff_eq_or_lt.mp hj with rfl | hj
  · right
    have hneg : 5000 * 0 + b - 5000 = -(5000 - b) := by omega
    rw [hneg, Int.neg_tdiv]
    have hnonneg : 0 ≤ (5000 - b).tdiv (m * 5000) := Int.tdiv_nonneg (by omega) (by omega)
    omega
  · left
    have hfive : (5000 * j + b - 5000) / 5000 = j - 1 := by omega
    rw [Int.tdiv_eq_ediv_of_nonneg (by omega), mul_comm m, ← Int.ediv_ediv_of_nonneg (by omega),
      hfive]

theorem update (hmultiple : m < 2 ^ 31) (h : FedFrom id m cons j n log fed)
    (hsteps : ∀ e ∈ log, 0 ≤ e.1)
    (hvalues : Rates (valuesFor id values) ((bucket (j - 1) log).sum / 5)) :
    ∃ fed', FedFrom id m (cons.update_from (5000 * j + b) values) (j + 1) n log fed' := by
  have hstep := fed_step hb0 hb hm hj
  have hcut := h.cut
  obtain ⟨q, hq, hq', hrecord⟩ := h.holds.record_late (5000 * j + b - 5000) (valuesFor id values)
  have hkeep := cons.update_from_frequencies (5000 * j + b) values
  refine ⟨fed ++ (valuesFor id values).map (Prod.mk q), ?_, ?_, ?_, ?_, ?_, by omega⟩
  · rw [hkeep.1, h.update_frequency]
  · rw [hkeep.2, h.reporting_frequency]
  · have hnext : (j - 1) / m ≤ (j + 1 - 1) / m := Int.ediv_le_ediv hm (by omega)
    rw [lookup_update_from (by omega) (by omega) hm hmultiple h.update_frequency
      h.reporting_frequency, hop]
    apply hrecord.mono
    omega
  · intro x hx
    rcases List.mem_append.mp hx with hx | hx
    · exact h.finite x hx
    · obtain ⟨v, hv, rfl⟩ := List.mem_map.mp hx
      exact hvalues.finite v hv
  · intro k
    rw [bucket_append, List.sum_append, h.sums, bucket_map_mk, sumWhere_fed_succ]
    by_cases hopen : 0 < j ∧ n ≤ j - 1
    · have hnonneg : 0 ≤ (j - 1) / m := Int.ediv_nonneg (by omega) hm.le
      have hlate : q = (j - 1) / m := by omega
      rw [hlate]
      by_cases hk : (j - 1) / m = k
      · rw [if_pos hk, if_pos ⟨hk, hopen.2⟩, hvalues.sum, Double.fin_add_fin]
        push_cast
        rw [add_div]
      · rw [if_neg hk, if_neg fun h => hk h.1]
        simp
    · have hnone : bucket (j - 1) log = [] := by
        apply List.eq_nil_iff_forall_not_mem.mpr
        intro a ha
        have hfirst := hsteps _ ((mem_bucket _ _ _).mp ha)
        omega
      have hsum : (if q = k then valuesFor id values else []).sum = 0 := by
        have hvs := hvalues.sum
        rw [hnone, List.sum_nil, Int.cast_zero, zero_div, ← Double.zero_def] at hvs
        split
        · exact hvs
        · rfl
      rw [hsum, hnone, List.sum_nil, ite_self, add_zero, add_zero]

omit hop in
theorem polled_step : (5000 * j + b).tdiv (m * 5000) = j / m ∧ max 0 ((j + 1 - 1) / m) = j / m := by
  have hfive : (5000 * j + b) / 5000 = j := by omega
  have hnonneg : 0 ≤ j / m := Int.ediv_nonneg hj hm.le
  constructor
  · rw [Int.tdiv_eq_ediv_of_nonneg (by omega), mul_comm m, ← Int.ediv_ediv_of_nonneg (by omega),
      hfive]
  · rw [add_sub_cancel_right, max_eq_right hnonneg]

omit hop in
theorem filter_measurements (h : FedFrom id m cons (j + 1) n log fed) (timestamp : ℤ) :
    (cons.measurements (5000 * j + b) timestamp).filter (·.id = id) =
      ((AggrOp.Add.reference m (bucket (j / m - 1) fed)).map
        (Measurement.mk id timestamp)).toList := by
  obtain ⟨hwall, hbound⟩ := polled_step hb0 hb hm hj
  exact h.holds.filter_measurements hm rfl hwall hbound.le h.not_nan timestamp

omit hop in
/-- What is reported is the rate of the amounts of the last complete step that the entry holds. -/
theorem reports (h : FedFrom id m cons (j + 1) n log fed) (timestamp : ℤ) :
    let S := sumWhere (fun i => i / m = j / m - 1 ∧ n ≤ i) log
    (cons.measurements (5000 * j + b) timestamp).filter (·.id = id) =
      if 0 < S then [⟨id, timestamp, .fin (S / (5 * m))⟩] else [] := by
  intro S
  have hcomplete : ∀ i, i / m = j / m - 1 → i < j := by
    intro i hi
    by_contra hlate
    have hle : j / m ≤ i / m := Int.ediv_le_ediv hm (not_lt.mp hlate)
    omega
  have hsum : (bucket (j / m - 1) fed).sum = .fin (S / 5) := by
    have hsame : sumWhere (fun i => i / m = j / m - 1 ∧ n ≤ i ∧ i < j + 1 - 1) log = S := by
      apply sumWhere_congr
      intro e _
      have hlt := hcomplete e.1
      constructor
      · intro hi
        exact ⟨hi.1, hi.2.1⟩
      · intro hi
        exact ⟨hi.1, hi.2, by rw [add_sub_cancel_right]; exact hlt hi.1⟩
    rw [h.sums, hsame]
  have hpositive : (0 : Double) < .fin (S / 5) ↔ 0 < S := by
    rw [Double.zero_lt_fin, div_pos_iff_of_pos_right (by norm_num), Int.cast_pos]
  rw [h.filter_measurements hb0 hb hm hj, AggrOp.reference, hsum]
  by_cases hS : 0 < S
  · rw [if_pos (hpositive.mpr hS), if_pos hS, Double.divBy_fin, div_div]
    rfl
  · rw [if_neg fun h => hS (hpositive.mp h), if_neg hS]
    rfl

omit hop in
/-- An entry is erased, with what it holds, if it was marked and nothing is reported; it is marked
only if nothing is reported. -/
theorem measure (h : FedFrom id m cons (j + 1) n log fed) (timestamp : ℤ) :
    ∃ n' fed', FedFrom id m (cons.afterMeasurements (5000 * j + b)) (j + 1) n' log fed' ∧
      (n' = n ∨ (n' = j ∧ marked (cons.my_values.lookup id) = true ∧
        (cons.measurements (5000 * j + b) timestamp).filter (·.id = id) = [])) ∧
      (marked ((cons.afterMeasurements (5000 * j + b)).my_values.lookup id) = true →
        (cons.measurements (5000 * j + b) timestamp).filter (·.id = id) = []) := by
  obtain ⟨hwall, hbound⟩ := polled_step hb0 hb hm hj
  have hmarked : marked ((cons.afterMeasurements (5000 * j + b)).my_values.lookup id) = true →
      (cons.measurements (5000 * j + b) timestamp).filter (·.id = id) = [] := by
    intro hmarked
    obtain ⟨c', hc', hmark⟩ := (marked_iff _).mp hmarked
    rw [lookup_afterMeasurements] at hc'
    obtain ⟨c, hc, hreport⟩ := Option.bind_eq_some_iff.mp hc'
    have hvalue : c.has_value (5000 * j + b) = false := by
      by_contra hvalue
      rw [ConsolidatedValue.report, if_pos (Bool.eq_true_of_not_eq_false hvalue)] at hreport
      cases hreport
      cases hmark
    rw [ConsolidationRegistry.filter_measurements, hc]
    exact if_neg (Bool.eq_false_iff.mp hvalue)
  by_cases herased : EntryHolds.Erased .Add m (cons.my_values.lookup id) (bucket (j / m - 1) fed)
  · have hnone : (cons.afterMeasurements (5000 * j + b)).my_values.lookup id = none := by
      rw [lookup_afterMeasurements]
      exact (h.holds.report_eq hm hwall hbound.le h.not_nan).mpr (.inr herased)
    refine ⟨j, [], ⟨h.update_frequency, h.reporting_frequency, ?_, by simp, ?_, by omega⟩, ?_,
      hmarked⟩
    · rw [hnone]
      exact .none _ _ _ _
    · intro k
      have hempty : sumWhere (fun i => i / m = k ∧ j ≤ i ∧ i < j + 1 - 1) log = 0 :=
        sumWhere_eq_zero fun e _ hp => by omega
      rw [hempty]
      simp [bucket, Double.zero_def]
    · refine .inr ⟨rfl, (marked_iff _).mpr herased.1, ?_⟩
      rw [h.filter_measurements hb0 hb hm hj, herased.2]
      rfl
  · refine ⟨n, fed, ⟨h.update_frequency, h.reporting_frequency, ?_, h.finite, h.sums, h.cut⟩,
      .inl rfl, hmarked⟩
    rw [lookup_afterMeasurements, hbound]
    exact h.holds.report hm hwall hbound.le h.not_nan herased

end FedFrom

/-! ### The iterations -/

namespace SubscriptionManager
variable (rt : Runtime) (config : Config)

/-- The managers with which the iterations of a run begin, and their times. -/
def rounds (p : SubscriptionManager × ℕ) : List RegistryEvent → List (SubscriptionManager × ℤ)
  | [] => []
  | .op t o :: events => rounds (apply rt config p (.op t o)) events
  | .tick t :: events => (p.1, t) :: rounds (apply rt config p (.tick t)) events

/-- What the registry of an interval reports in an iteration that polls it. -/
def intervalReport (i : Fin 12) (m : SubscriptionManager) (t : ℤ) : Measurements :=
  ((m.update_registries config (m.WallTime t)).sub_registries_ i).measurements (m.WallTime t)
    (m.WallTime t)

theorem sub_idx_interval (i : Fin 12) :
    sub_idx (((i : ℕ) + 1) * kFastestFrequencyMillis) = i := by
  have hmultiple : ((((i : ℕ) : ℤ) + 1) * kFastestFrequencyMillis).tdiv kFastestFrequencyMillis =
      (i : ℕ) + 1 := Int.mul_tdiv_cancel _ (by decide)
  apply Fin.ext
  rw [sub_idx, hmultiple, add_sub_cancel_right, Int.toNat_natCast]
  exact Nat.mod_eq_of_lt i.isLt

theorem sendSubs_subscriptions (now : ℤ)
    (p : SubscriptionManager × List (ℤ × Except Fault SubscriptionResults)) (k : Fin 12) :
    (sendSubs rt config now p k).1.subscriptions_ = p.1.subscriptions_ := by
  unfold sendSubs
  split <;> rfl

theorem sendSubs_other (now : ℤ)
    (p : SubscriptionManager × List (ℤ × Except Fault SubscriptionResults)) {i k : Fin 12}
    (hik : i ≠ k) :
    (sendSubs rt config now p k).1.sub_registries_ i = p.1.sub_registries_ i := by
  unfold sendSubs
  split
  · dsimp only [send_subscriptions]
    rw [sub_idx_interval, if_neg hik]
  · rfl

theorem sendMain_sub_registries (m : SubscriptionManager) (now : ℤ) (due : Bool) :
    (m.sendMain rt config now due).1.sub_registries_ = m.sub_registries_ ∧
      (m.sendMain rt config now due).1.registry_ = m.registry_ := by
  unfold sendMain
  split <;> exact ⟨rfl, rfl⟩

section Interval
variable {config} {i : Fin 12} {m : SubscriptionManager} (hsubs : config.AreSubsEnabled = true)
include hsubs

theorem sendSubs_eq (now : ℤ)
    (p : SubscriptionManager × List (ℤ × Except Fault SubscriptionResults))
    (hi : p.1.subscriptions_ i ≠ []) :
    (sendSubs rt config now p i).1.sub_registries_ i =
        (p.1.sub_registries_ i).afterMeasurements now ∧
      (sendSubs rt config now p i).2 = p.2 ++ [((((i : ℕ) : ℤ) + 1) * kFastestFrequencyMillis,
        p.1.get_lwc_metrics rt config now i)] := by
  have hne : (p.1.subscriptions_ i).isEmpty = false := List.isEmpty_eq_false_iff.mpr hi
  rw [sendSubs, hsubs, hne]
  simp [send_subscriptions, sub_idx_interval]

variable (hsubscribed : m.subscriptions_ i ≠ []) (hoffset : m.offset_ = 0)
include hsubscribed hoffset

theorem update_registries_interval (t : ℤ) :
    (m.update_registries config (m.WallTime t)).sub_registries_ i =
      (m.sub_registries_ i).update_from t (m.registry_.measurements t) := by
  have hnow : m.WallTime t = t := by rw [WallTime, hoffset, add_zero]
  have hne : (m.subscriptions_ i).isEmpty = false := List.isEmpty_eq_false_iff.mpr hsubscribed
  rw [hnow, update_registries]
  simp [hsubs, hne]

theorem intervalReport_eq (t : ℤ) :
    intervalReport config i m t =
      ((m.sub_registries_ i).update_from t (m.registry_.measurements t)).measurements t t := by
  rw [intervalReport, update_registries_interval hsubs hsubscribed hoffset, WallTime, hoffset,
    add_zero]

/-- What an iteration does to the registry of an interval, and what it sends when it polls it. -/
theorem main_sender_round_interval (r : ℕ) (t : ℤ) :
    (m.main_sender_round rt config r t).1.sub_registries_ i =
        (if r % 12 = i then
          ((m.sub_registries_ i).update_from t (m.registry_.measurements t)).afterMeasurements t
        else (m.sub_registries_ i).update_from t (m.registry_.measurements t)) ∧
      (r % 12 = i → (m.main_sender_round rt config r t).2.subs =
        [((((i : ℕ) : ℤ) + 1) * kFastestFrequencyMillis,
          generate_sub_results rt (m.subscriptions_ i) ((intervalReport config i m t).map fun x =>
            TagsValuePair.from x config.CommonTags))]) := by
  have hnow : m.WallTime t = t := by rw [WallTime, hoffset, add_zero]
  have hfed := update_registries_interval hsubs hsubscribed hoffset t
  have hkeep := sendMain_sub_registries rt config (m.update_registries config (m.WallTime t))
    (m.WallTime t) (decide ((m.WallTime t).tmod 60000 < kFastestFrequencyMillis))
  have hsame := sendMain_subscriptions rt config (m.update_registries config (m.WallTime t))
    (m.WallTime t) (decide ((m.WallTime t).tmod 60000 < kFastestFrequencyMillis))
  rw [main_sender_round]
  dsimp only
  by_cases hr : r % 12 = i
  · have hidx : Fin.ofNat 12 r = i := Fin.ext hr
    have hi : ((m.update_registries config (m.WallTime t)).sendMain rt config (m.WallTime t)
        (decide ((m.WallTime t).tmod 60000 < kFastestFrequencyMillis))).1.subscriptions_ i ≠ [] :=
      hsame ▸ hsubscribed
    obtain ⟨hafter, hsent⟩ := sendSubs_eq rt hsubs (m.WallTime t) (_, []) hi
    rw [hidx]
    constructor
    · rw [hafter, hkeep.1, hfed, hnow, if_pos hr]
    · intro _
      rw [hsent, List.nil_append, get_lwc_metrics, hsame, hkeep.1]
      rfl
  · have hidx : i ≠ Fin.ofNat 12 r := fun heq => hr (congrArg Fin.val heq).symm
    constructor
    · rw [sendSubs_other rt config _ _ hidx, hkeep.1, hfed, if_neg hr]
    · intro h
      exact absurd h hr

variable (config) in
omit hsubs hsubscribed in
theorem main_sender_round_clients (r : ℕ) (t : ℤ) :
    (m.main_sender_round rt config r t).1.registry_ = m.registry_.afterMeasurements t ∧
      (m.main_sender_round rt config r t).1.subscriptions_ = m.subscriptions_ ∧
      (m.main_sender_round rt config r t).1.offset_ = 0 := by
  have hnow : m.WallTime t = t := by rw [WallTime, hoffset, add_zero]
  rw [main_sender_round]
  dsimp only
  refine ⟨?_, ?_, ?_⟩
  · rw [(sendSubs_keeps rt _ _ _).1, (sendMain_sub_registries rt config _ _ _).2, hnow]
    rfl
  · rw [sendSubs_subscriptions, sendMain_subscriptions]
    rfl
  · rw [(sendSubs_keeps rt _ _ _).2, sendMain_offset]
    exact hoffset

end Interval

/-! ### Runs -/

section Polls
variable (i : Fin 12) (id : Id)

/-- An iteration in which the interval reports nothing of the id. -/
def Lacked (rs : List (SubscriptionManager × ℤ)) (r : ℕ) : Prop :=
  ∃ m t, rs[r]? = some (m, t) ∧ (intervalReport config i m t).filter (·.id = id) = []

/-- The last iteration before `r` that polls the interval. -/
def LastPoll (r' r : ℕ) : Prop := r' < r ∧ r ≤ r' + 12 ∧ r' % 12 = i

/-- What the entry has lost is from before the last but one poll, or the last two found nothing. -/
def Cut (j₀ n : ℤ) (rs : List (SubscriptionManager × ℤ)) (r : ℕ) : Prop :=
  n ≤ 0 ∨ ∃ r', LastPoll i r' r ∧ (n + 12 ≤ j₀ + r' ∨
    (n = j₀ + r' ∧ Lacked config i id rs r' ∧ ∃ r'', r'' + 12 = r' ∧ Lacked config i id rs r''))

/-- A run that started before iteration `j₀`, in which `log` has been added to the counter. -/
structure IntervalRun (subs : ParsedSubscriptions) (b c j₀ : ℤ) (p : SubscriptionManager × ℕ)
    (rs : List (SubscriptionManager × ℤ)) (j now : ℤ) (log : List (ℤ × ℤ)) : Prop where
  nonneg : 0 ≤ now
  window : ∀ t, now ≤ t → c ≤ t → 5000 * (j - 1) + b ≤ t
  steps : ∀ e ∈ log, 0 ≤ e.1
  amounts : ∀ e ∈ log, 0 ≤ e.2
  subscriptions : p.1.subscriptions_ = subs
  offset : p.1.offset_ = 0
  count : rs.length = p.2
  iteration : j = j₀ + p.2
  marks : marked ((p.1.sub_registries_ i).my_values.lookup id) = true →
    ∃ r', LastPoll i r' p.2 ∧ Lacked config i id rs r'
  entry : ∃ n fed, FedFrom id (i + 1) (p.1.sub_registries_ i) j n log fed ∧
    Cut config i id j₀ n rs p.2

end Polls

theorem Lacked.append {i : Fin 12} {id : Id} {rs : List (SubscriptionManager × ℤ)} {r : ℕ}
    (h : Lacked config i id rs r) (later : List (SubscriptionManager × ℤ)) :
    Lacked config i id (rs ++ later) r := by
  obtain ⟨m, t, hr, hnone⟩ := h
  refine ⟨m, t, ?_, hnone⟩
  rw [List.getElem?_append_left (List.getElem?_eq_some_iff.mp hr).1, hr]

theorem Cut.append {i : Fin 12} {id : Id} {rs : List (SubscriptionManager × ℤ)} {r : ℕ} {j₀ n : ℤ}
    (h : Cut config i id j₀ n rs r) (hr : r % 12 ≠ i) (later : List (SubscriptionManager × ℤ)) :
    Cut config i id j₀ n (rs ++ later) (r + 1) := by
  rcases h with hn | ⟨r', hlast, hr'⟩
  · exact .inl hn
  · refine .inr ⟨r', ?_, ?_⟩
    · unfold LastPoll at hlast ⊢
      omega
    · rcases hr' with hold | ⟨hn, hlack, r'', heq, hlack'⟩
      · exact .inl hold
      · exact .inr ⟨hn, hlack.append config later, r'', heq, hlack'.append config later⟩

theorem marked_update_from (cons : ConsolidationRegistry) (t : ℤ) (values : Measurements)
    (id : Id) :
    marked ((cons.update_from t values).my_values.lookup id) =
      marked (cons.my_values.lookup id) := by
  rw [ConsolidationRegistry.update_from, lookup_foldl_update_one, marked_foldl_record]

namespace IntervalRun
variable {rt config} {i : Fin 12} {id : Id} {subs : ParsedSubscriptions} {b c j₀ j now t : ℤ}
  {p : SubscriptionManager × ℕ} {rs : List (SubscriptionManager × ℤ)} {log : List (ℤ × ℤ)}

theorem start (config : Config) (i : Fin 12) (id : Id) (subs : ParsedSubscriptions) (h0 : 0 ≤ now)
    (hc : 5000 * (j - 1) + b ≤ c) :
    IntervalRun config i id subs b c j ({ create now with subscriptions_ := subs }, 0) [] j now []
    where
  nonneg := h0
  window t _ ht := le_trans hc ht
  steps := by simp
  amounts := by simp
  subscriptions := rfl
  offset := rfl
  count := rfl
  iteration := (add_zero j).symm
  marks h := by cases h
  entry := ⟨0, [], .create id (i + 1) j, .inl le_rfl⟩

theorem op (h : IntervalRun config i id subs b c j₀ p rs j now log) (hb0 : 0 ≤ b) (ht : now ≤ t)
    (reg : AtlasRegistry) (log' : List (ℤ × ℤ))
    (hlog' : ∀ e ∈ log', c ≤ t ∧ e.1 = t / 5000 ∧ 0 ≤ e.2) :
    IntervalRun config i id subs b c j₀ ({ p.1 with registry_ := reg }, p.2) rs j t
      (log ++ log') := by
  have h0 : 0 ≤ t := le_trans h.nonneg ht
  have hrecent : ∀ e ∈ log', 0 ≤ e.1 ∧ j - 1 ≤ e.1 := by
    intro e he
    obtain ⟨hc, hstep, _⟩ := hlog' e he
    have hwindow := h.window t ht hc
    omega
  obtain ⟨n, fed, hfed, hcut⟩ := h.entry
  refine ⟨h0, fun s hs => h.window s (le_trans ht hs), ?_, ?_, h.subscriptions, h.offset, h.count,
    h.iteration, h.marks, n, fed, hfed.add fun e he => (hrecent e he).2, hcut⟩
  · intro e he
    rcases List.mem_append.mp he with he | he
    · exact h.steps e he
    · exact (hrecent e he).1
  · intro e he
    rcases List.mem_append.mp he with he | he
    · exact h.amounts e he
    · exact (hlog' e he).2.2

variable (hop : aggregate_op id = .Add) (hb0 : 0 ≤ b) (hb : b < 5000)
  (hsubs : config.AreSubsEnabled = true) (hsubscribed : subs i ≠ [])
include hop hb0 hb hsubs hsubscribed

theorem tick (rt : Runtime) (h : IntervalRun config i id subs b c j₀ p rs j now log)
    (ht : now ≤ 5000 * j + b)
    (hvalues : Rates (valuesFor id (p.1.registry_.measurements (5000 * j + b)))
      ((bucket (j - 1) log).sum / 5)) :
    IntervalRun config i id subs b c j₀ (apply rt config p (.tick (5000 * j + b)))
      (rs ++ [(p.1, 5000 * j + b)]) (j + 1) (5000 * j + b) log := by
  have h0 := h.nonneg
  have hj : 0 ≤ j := by omega
  have hm : (0 : ℤ) < (i : ℕ) + 1 := by omega
  have hi : p.1.subscriptions_ i ≠ [] := by rwa [h.subscriptions]
  obtain ⟨n, fed, hfed, hcut⟩ := h.entry
  obtain ⟨fed', hfed'⟩ := hfed.update hop hb0 hb hm hj (by omega) h.steps hvalues
  have hmarked := marked_update_from (p.1.sub_registries_ i) (5000 * j + b)
    (p.1.registry_.measurements (5000 * j + b)) id
  obtain ⟨hregistry, hround⟩ := main_sender_round_interval rt hsubs hi h.offset p.2 (5000 * j + b)
  obtain ⟨-, hkeep, hoffset⟩ := main_sender_round_clients rt config h.offset p.2 (5000 * j + b)
  have hreport := intervalReport_eq hsubs hi h.offset (5000 * j + b)
  have hcount : (rs ++ [(p.1, 5000 * j + b)]).length = p.2 + 1 := by
    rw [List.length_append, List.length_singleton, h.count]
  have hiteration : j + 1 = j₀ + ((p.2 + 1 : ℕ) : ℤ) := by
    rw [h.iteration, Nat.cast_succ, add_assoc]
  have hwindow : ∀ t, 5000 * j + b ≤ t → c ≤ t → 5000 * (j + 1 - 1) + b ≤ t := by
    intro t ht _
    omega
  have hhere : (rs ++ [(p.1, 5000 * j + b)])[p.2]? = some (p.1, 5000 * j + b) := by
    rw [← h.count, List.getElem?_concat_length]
  have hnext : (apply rt config p (.tick (5000 * j + b))).1.sub_registries_ i =
      (main_sender_round rt config p.2 (5000 * j + b) p.1).1.sub_registries_ i := rfl
  suffices hrest : (marked ((main_sender_round rt config p.2 (5000 * j + b) p.1).1.sub_registries_ i
      |>.my_values.lookup id) = true → ∃ r', LastPoll i r' (p.2 + 1) ∧
        Lacked config i id (rs ++ [(p.1, 5000 * j + b)]) r') ∧
      ∃ n fed, FedFrom id (i + 1)
          ((main_sender_round rt config p.2 (5000 * j + b) p.1).1.sub_registries_ i) (j + 1) n log
          fed ∧
        Cut config i id j₀ n (rs ++ [(p.1, 5000 * j + b)]) (p.2 + 1) from
    ⟨by omega, hwindow, h.steps, h.amounts, hkeep.trans h.subscriptions, hoffset, hcount,
      hiteration, hrest.1, hrest.2⟩
  rw [hregistry]
  by_cases hr : p.2 % 12 = i
  · obtain ⟨n', fed'', hfed'', hcut', hmark⟩ := hfed'.measure hb0 hb hm hj (5000 * j + b)
    rw [if_pos hr]
    rw [← hreport] at hcut' hmark
    have hlast : LastPoll i p.2 (p.2 + 1) := ⟨Nat.lt_succ_self _, by omega, hr⟩
    refine ⟨fun hmarked => ⟨p.2, hlast, p.1, _, hhere, hmark hmarked⟩, n', fed'', hfed'', ?_⟩
    rcases hcut' with rfl | ⟨rfl, hbefore, hnone⟩
    · rcases hcut with hn | ⟨r', hlast', hr'⟩
      · exact .inl hn
      · refine .inr ⟨p.2, hlast, .inl ?_⟩
        unfold LastPoll at hlast'
        omega
    · -- the entry was marked by the poll before
      rw [hmarked] at hbefore
      obtain ⟨r', hlast', hlack⟩ := h.marks hbefore
      refine .inr ⟨p.2, hlast, .inr ⟨h.iteration, ⟨p.1, _, hhere, hnone⟩, r', ?_, hlack.append _ _⟩⟩
      unfold LastPoll at hlast'
      omega
  · rw [if_neg hr, hmarked]
    refine ⟨?_, n, fed', hfed', hcut.append config hr _⟩
    intro hbefore
    obtain ⟨r', hlast, hlack⟩ := h.marks hbefore
    refine ⟨r', ?_, hlack.append config _⟩
    unfold LastPoll at hlast ⊢
    omega

omit hop hsubs hsubscribed in
theorem rates (h : IntervalRun config i id subs b c j₀ p rs j now log)
    (hreg : p.1.registry_.Records 5000 id now log) (ht : now ≤ 5000 * j + b) :
    Rates (valuesFor id (p.1.registry_.measurements (5000 * j + b)))
      ((bucket (j - 1) log).sum / 5) := by
  have hstep : (5000 * j + b) / 5000 - 1 = j - 1 := by omega
  have hrates := hreg.rates_five h.amounts (le_trans h.nonneg ht) ht
  rwa [hstep] at hrates

theorem run_before (rt : Runtime) {events : List RegistryEvent} {j' now' : ℤ}
    (h : IntervalRun config i id subs b c j₀ p rs j now []) (hreg : p.1.registry_.Lacks 5000 id)
    (hscheduled : Scheduled b j now events j' now')
    (hother : ∀ t o, .op t o ∈ events → o.meterId ≠ id) :
    IntervalRun config i id subs b c j₀ (events.foldl (apply rt config) p)
        (rs ++ rounds rt config p events) j' now' [] ∧
      (events.foldl (apply rt config) p).1.registry_.Lacks 5000 id := by
  induction events generalizing p rs j now with
  | nil =>
    obtain ⟨rfl, rfl⟩ := hscheduled
    rw [rounds, List.append_nil]
    exact ⟨h, hreg⟩
  | cons e events ih =>
    have hrest : ∀ t o, .op t o ∈ events → o.meterId ≠ id := fun t o ho =>
      hother t o (List.mem_cons_of_mem _ ho)
    cases e with
    | op t o =>
      obtain ⟨ht, _, hscheduled⟩ := hscheduled
      exact ih (h.op hb0 ht _ [] (by simp)) (hreg.apply _ (hother t o List.mem_cons_self))
        hscheduled hrest
    | tick t =>
      obtain ⟨ht, rfl, hscheduled⟩ := hscheduled
      have hvalues : Rates (valuesFor id (p.1.registry_.measurements (5000 * j + b)))
          ((bucket (j - 1) ([] : List (ℤ × ℤ))).sum / 5) := by
        rw [hreg.measured]
        simpa [bucket] using Rates.nil
      have hlacks : (apply rt config p (.tick (5000 * j + b))).1.registry_.Lacks 5000 id := by
        rw [apply, (main_sender_round_clients rt config h.offset p.2 (5000 * j + b)).1]
        exact hreg.afterMeasurements (5000 * j + b)
      have hnext := ih (h.tick hop hb0 hb hsubs hsubscribed rt ht hvalues) hlacks hscheduled hrest
      rwa [List.append_assoc] at hnext

theorem run_after (rt : Runtime) {events : List RegistryEvent} {j' now' : ℤ}
    (h : IntervalRun config i id subs b c j₀ p rs j now log)
    (hreg : p.1.registry_.Records 5000 id now log) (hc : c ≤ now)
    (hscheduled : Scheduled b j now events j' now')
    (hheld : ∀ t o, .op t o ∈ events → o.Keeps id ∧ ∀ a, o.added id = some a → 0 ≤ a) :
    IntervalRun config i id subs b c j₀ (events.foldl (apply rt config) p)
        (rs ++ rounds rt config p events) j' now'
        (log ++ events.filterMap (RegistryEvent.added id)) ∧
      (events.foldl (apply rt config) p).1.registry_.Records 5000 id now'
        (log ++ events.filterMap (RegistryEvent.added id)) := by
  induction events generalizing p rs j now log with
  | nil =>
    obtain ⟨rfl, rfl⟩ := hscheduled
    rw [List.filterMap_nil, List.append_nil, rounds, List.append_nil]
    exact ⟨h, hreg⟩
  | cons e events ih =>
    have hrest : ∀ t o, .op t o ∈ events → o.Keeps id ∧ ∀ a, o.added id = some a → 0 ≤ a :=
      fun t o ho => hheld t o (List.mem_cons_of_mem _ ho)
    have hcons : log ++ (e :: events).filterMap (RegistryEvent.added id) =
        log ++ (e.added id).toList ++ events.filterMap (RegistryEvent.added id) := by
      cases hadded : e.added id <;> simp [hadded]
    have h0 := h.nonneg
    rw [hcons]
    cases e with
    | op t o =>
      obtain ⟨ht, _, hscheduled⟩ := hscheduled
      obtain ⟨hkeeps, hamount⟩ := hheld t o List.mem_cons_self
      have hlog : ∀ e ∈ ((RegistryEvent.op t o).added id).toList,
          c ≤ t ∧ e.1 = t / 5000 ∧ 0 ≤ e.2 := by
        intro e he
        obtain ⟨a, ha, rfl⟩ := Option.map_eq_some_iff.mp (Option.mem_toList.mp he)
        exact ⟨le_trans hc ht, rfl, hamount a ha⟩
      have hnow : p.1.WallTime t = t := by rw [WallTime, h.offset, add_zero]
      have happly : apply rt config p (.op t o) =
          ({ p.1 with registry_ := o.apply p.1.registry_ t }, p.2) := by
        rw [apply, hnow]
      have hrecords := hreg.apply (by omega) (le_trans h0 ht) ht hkeeps
      have hnext := ih (h.op hb0 ht (o.apply p.1.registry_ t) _ hlog) hrecords (le_trans hc ht)
        hscheduled hrest
      rw [List.foldl_cons, rounds, happly]
      exact hnext
    | tick t =>
      obtain ⟨ht, rfl, hscheduled⟩ := hscheduled
      have hrecords : (apply rt config p (.tick (5000 * j + b))).1.registry_.Records 5000 id
          (5000 * j + b) log := by
        rw [apply, (main_sender_round_clients rt config h.offset p.2 (5000 * j + b)).1]
        exact hreg.afterMeasurements (by omega) (le_trans h0 ht) ht
      have hnone : ((RegistryEvent.tick (5000 * j + b)).added id).toList = [] := rfl
      have hnext := ih (h.tick hop hb0 hb hsubs hsubscribed rt ht (h.rates hb0 hb hreg ht)) hrecords
        (le_trans hc ht) hscheduled hrest
      rw [hnone, List.append_nil]
      rwa [List.append_assoc] at hnext

/-- What is reported in the next iteration, if it polls the interval, of what the entry has not
lost. -/
theorem reports (h : IntervalRun config i id subs b c j₀ p rs j now log)
    (hreg : p.1.registry_.Records 5000 id now log) (ht : now ≤ 5000 * j + b) :
    ∃ n, Cut config i id j₀ n rs p.2 ∧
      let S := sumWhere (fun k => k / (i + 1) = j / (i + 1) - 1 ∧ n ≤ k) log
      (intervalReport config i p.1 (5000 * j + b)).filter (·.id = id) =
        if 0 < S then [⟨id, 5000 * j + b, .fin (S / (5 * (i + 1)))⟩] else [] := by
  have h0 := h.nonneg
  have hm : (0 : ℤ) < (i : ℕ) + 1 := by omega
  have hi : p.1.subscriptions_ i ≠ [] := by rwa [h.subscriptions]
  obtain ⟨n, fed, hfed, hcut⟩ := h.entry
  obtain ⟨fed', hfed'⟩ := hfed.update hop hb0 hb hm (by omega) (by omega) h.steps
    (h.rates hb0 hb hreg ht)
  refine ⟨n, hcut, ?_⟩
  rw [intervalReport_eq hsubs hi h.offset]
  have hreports := hfed'.reports hb0 hb hm (by omega) (5000 * j + b)
  push_cast at hreports
  exact hreports

end IntervalRun

/-- Where the amounts of the polled step that `n` cuts off may be missing. -/
theorem sumWhere_cut {i : Fin 12} {id : Id} {j₀ j n : ℤ} {rs : List (SubscriptionManager × ℤ)}
    {r : ℕ} (hj : j = j₀ + r) (hr : r % 12 = i) (hcut : Cut config i id j₀ n rs r)
    {log : List (ℤ × ℤ)} (hsteps : ∀ e ∈ log, 0 ≤ e.1) :
    sumWhere (fun k => k / (i + 1) = j / (i + 1) - 1 ∧ n ≤ k) log =
        sumWhere (fun k => k / (i + 1) = j / (i + 1) - 1) log ∨
      (6 < (i : ℕ) + 1 ∧ (∃ r', r' + 12 = r ∧ Lacked config i id rs r') ∧
        (∃ r', r' + 24 = r ∧ Lacked config i id rs r') ∧
        n = j - 12) := by
  have hi := i.isLt
  have hstep : ∀ k : ℤ, k / ((i : ℕ) + 1) = j / ((i : ℕ) + 1) - 1 → j - 2 * ((i : ℕ) + 1) < k := by
    intro k hk
    have hk' := Int.emod_add_mul_ediv k ((i : ℕ) + 1)
    have hj' := Int.emod_add_mul_ediv j ((i : ℕ) + 1)
    have hkpos := Int.emod_nonneg k (by omega : (((i : ℕ) : ℤ) + 1) ≠ 0)
    have hjlt := Int.emod_lt_of_pos j (by omega : (0 : ℤ) < (i : ℕ) + 1)
    rw [hk, mul_sub, mul_one] at hk'
    omega
  have hkeep : (∀ e ∈ log, j - 2 * ((i : ℕ) + 1) < e.1 → n ≤ e.1) →
      sumWhere (fun k => k / (i + 1) = j / (i + 1) - 1 ∧ n ≤ k) log =
        sumWhere (fun k => k / (i + 1) = j / (i + 1) - 1) log := fun hlate =>
    sumWhere_congr fun e he => and_iff_left_of_imp fun hk => hlate e he (hstep e.1 hk)
  rcases hcut with hn | ⟨r', ⟨hlt, hle, hphase⟩, hr'⟩
  · exact .inl (hkeep fun e he _ => le_trans hn (hsteps e he))
  · have hprevious : r' + 12 = r := by omega
    rcases hr' with hold | ⟨hn, hlack, r'', heq, hlack'⟩
    · refine .inl (hkeep fun e _ hlate => ?_)
      omega
    · by_cases hlong : 6 < (i : ℕ) + 1
      · exact .inr ⟨hlong, ⟨r', hprevious, hlack⟩, ⟨r'', by omega, hlack'⟩, by omega⟩
      · refine .inl (hkeep fun e _ hlate => ?_)
        omega

/-! ### What is sent -/

section Sends
variable {config} {i : Fin 12} {id : Id} {subs : ParsedSubscriptions} {b c₀ j c j' now t : ℤ}
  {before after : List RegistryEvent}

theorem rounds_append (p : SubscriptionManager × ℕ) (events later : List RegistryEvent) :
    rounds rt config p (events ++ later) =
      rounds rt config p events ++ rounds rt config (events.foldl (apply rt config) p) later := by
  induction events generalizing p with
  | nil => rfl
  | cons e events ih =>
    cases e with
    | op t o => exact ih _
    | tick t => exact congrArg (List.cons (p.1, t)) (ih _)

theorem intervalRun (h : CounterRun b c₀ j c id before after j' now)
    (hop : aggregate_op (MeterOp.counter id).meterId = .Add)
    (hsubs : config.AreSubsEnabled = true) (hsubscribed : subs i ≠ []) :
    let counterId := (MeterOp.counter id).meterId
    let events := before ++ .op c (.counter id) :: after
    let start : SubscriptionManager × ℕ := ({ create c₀ with subscriptions_ := subs }, 0)
    let p := events.foldl (apply rt config) start
    IntervalRun config i counterId subs b c j p (rounds rt config start events) j' now
        (after.filterMap (RegistryEvent.added counterId)) ∧
      p.1.registry_.Records 5000 counterId now
        (after.filterMap (RegistryEvent.added counterId)) := by
  intro counterId events start p
  obtain ⟨hb0, hb⟩ := h.offset
  obtain ⟨j₁, now₁, hbefore, hc, -, hafter⟩ := scheduled_append h.scheduled
  have hstart := IntervalRun.start config i counterId subs h.clock h.first
  obtain ⟨hinv, hlacks⟩ :=
    hstart.run_before hop hb0 hb hsubs hsubscribed rt h.lacks hbefore h.unused
  have hcreated := hlacks.counter (le_trans hinv.nonneg hc) rfl
  have hnow : (before.foldl (apply rt config) start).1.WallTime c = c := by
    rw [WallTime, hinv.offset, add_zero]
  rw [show p = after.foldl (apply rt config)
      (apply rt config (before.foldl (apply rt config) start) (.op c (.counter id))) by
    simp [p, events], rounds_append, rounds, apply, hnow]
  exact (hinv.op hb0 hc _ [] (by simp)).run_after hop hb0 hb hsubs hsubscribed rt hcreated le_rfl
    hafter h.held

/-- The times whose amounts belong to the last step that is complete in iteration `j`. -/
theorem in_step_iff {m : ℤ} (hm : 0 < m) (j s : ℤ) :
    s / 5000 / m = j / m - 1 ↔
      5000 * (j / m * m) - 5000 * m ≤ s ∧ s < 5000 * (j / m * m) := by
  have hlow := Int.le_ediv_iff_mul_le (a := j / m - 1) (b := s / 5000) hm
  have hhigh := Int.ediv_lt_iff_lt_mul (a := s / 5000) (b := j / m) hm
  rw [sub_mul, one_mul] at hlow
  omega

/-- What a round that serves an interval sends are the results of its subscriptions over the report
of the interval. That has the rate of a held counter over the last complete step; of an interval of
more than 30 s it may have only what was added since the poll before, if that poll and the one
before it reported nothing of the counter. -/
theorem interval_reports (rt : Runtime) (h : CounterRun b c₀ j c id before after j' now)
    (hop : aggregate_op (MeterOp.counter id).meterId = .Add)
    (hsubs : config.AreSubsEnabled = true) (hsubscribed : subs i ≠ [])
    (hnow : now ≤ t) (ht : t = 5000 * j' + b) :
    let counterId := (MeterOp.counter id).meterId
    let events := before ++ .op c (.counter id) :: after
    let start : SubscriptionManager × ℕ := ({ create c₀ with subscriptions_ := subs }, 0)
    let p := events.foldl (apply rt config) start
    let rs := rounds rt config start events
    let R : ℤ := 5000 * (i + 1)
    let report := intervalReport config i p.1 t
    p.2 % 12 = i →
      (p.1.main_sender_round rt config p.2 t).2.subs = [(R, generate_sub_results rt (subs i)
        (report.map fun x => TagsValuePair.from x config.CommonTags))] ∧
      ∃ lo, (lo = t / R * R - R ∨
          30000 < R ∧ lo = max (t / R * R - R) ((t - 60000) / 5000 * 5000) ∧
            (∃ r, r + 12 = p.2 ∧ Lacked config i counterId rs r) ∧
            ∃ r, r + 24 = p.2 ∧ Lacked config i counterId rs r) ∧
        let S := (addedBetween counterId lo (t / R * R) after).sum
        report.filter (·.id = counterId) =
          if 0 < S then [⟨counterId, t, .fin (S / (5 * (i + 1)))⟩] else [] := by
  intro counterId events start p rs R report hserved
  obtain ⟨hb0, hb⟩ := h.offset
  obtain ⟨hinv, hrecords⟩ := intervalRun rt h hop hsubs hsubscribed
  have hm : (0 : ℤ) < (i : ℕ) + 1 := by omega
  have hi : p.1.subscriptions_ i ≠ [] := by
    rw [hinv.subscriptions]
    exact hsubscribed
  have hsent := (main_sender_round_interval rt hsubs hi hinv.offset p.2 t).2 hserved
  rw [hinv.subscriptions] at hsent
  have hR : (((i : ℕ) : ℤ) + 1) * kFastestFrequencyMillis = R := mul_comm _ _
  rw [hR] at hsent
  refine ⟨hsent, ?_⟩
  subst ht
  have hpolled : (5000 * j' + b) / R = j' / (i + 1) := by
    have hfive : (5000 * j' + b) / 5000 = j' := by omega
    rw [← Int.ediv_ediv_of_nonneg (by omega), hfive]
  have hend : (5000 * j' + b) / R * R = 5000 * (j' / (i + 1) * (i + 1)) := by
    rw [hpolled, mul_left_comm]
  have hsince : (5000 * j' + b - 60000) / 5000 * 5000 = 5000 * (j' - 12) := by omega
  rw [hend, hsince]
  obtain ⟨n, hcut, hreport⟩ := hinv.reports hop hb0 hb hsubs hsubscribed hrecords hnow
  dsimp only at hreport
  rcases sumWhere_cut config hinv.iteration hserved hcut hinv.steps with
    hwhole | ⟨hlong, hlack, hlack', hn⟩
  · refine ⟨_, .inl rfl, ?_⟩
    rw [hwhole, sumWhere_added _ _ (in_step_iff hm j')] at hreport
    exact hreport
  · refine ⟨_, .inr ⟨by omega, rfl, hlack, hlack'⟩, ?_⟩
    subst hn
    have hpart : ∀ s : ℤ, s / 5000 / (i + 1) = j' / (i + 1) - 1 ∧ j' - 12 ≤ s / 5000 ↔
        max (5000 * (j' / (i + 1) * (i + 1)) - R) (5000 * (j' - 12)) ≤ s ∧
          s < 5000 * (j' / (i + 1) * (i + 1)) := by
      intro s
      rw [in_step_iff hm j' s, max_le_iff]
      omega
    rw [sumWhere_added _ _ hpart] at hreport
    exact hreport

/-- What was added in 10 s is reported at their end. -/
theorem interval_reports_tenSeconds :
    let counterId := (MeterOp.counter ⟨intern_str "a", ∅⟩).meterId
    let config : Config := ⟨true, true, ∅, []⟩
    let subs : ParsedSubscriptions := fun _ => [⟨"sub", 10000, ":true,:all"⟩]
    let events := [RegistryEvent.op 110000 (.counter ⟨intern_str "a", ∅⟩),
      .op 111000 (.add counterId 60), .tick 115000]
    let p := events.foldl (apply plainRuntime config)
      ({ create 110000 with subscriptions_ := subs }, 0)
    (intervalReport config 1 p.1 120000).filter (·.id = counterId) =
      [⟨counterId, 120000, .fin 6⟩] := by
  intro counterId config subs events p
  have hrun := counterRun_increment_before_minute ⟨intern_str "a", ∅⟩ (by decide)
  have hsubs : config.AreSubsEnabled = true := rfl
  have hsubscribed : subs 1 ≠ [] := List.cons_ne_nil _ _
  obtain ⟨-, lo, hlo, hreport⟩ := interval_reports plainRuntime hrun (by decide) hsubs hsubscribed
    (show (115000 : ℤ) ≤ 120000 by decide) (by decide) rfl
  obtain rfl : lo = 110000 := by
    rcases hlo with rfl | ⟨hlong, -⟩
    · decide
    · exact absurd hlong (by decide)
  have hend : (120000 : ℤ) / (5000 * (((1 : Fin 12) : ℕ) + 1)) *
      (5000 * (((1 : Fin 12) : ℕ) + 1)) = 120000 := by
    decide
  have hsum : (addedBetween (MeterOp.counter ⟨intern_str "a", ∅⟩).meterId 110000 120000
      [.op 111000 (.add (MeterOp.counter ⟨intern_str "a", ∅⟩).meterId 60), .tick 115000]).sum =
        60 := by
    decide
  have hrate : ((60 : ℤ) : ℚ) / (5 * (((1 : Fin 12) : ℕ) + 1)) = 6 := by norm_num
  refine hreport.trans ?_
  rw [hend, hsum, if_pos (by decide), hrate]

/-- Two amounts, the second of them at the beginning of a minute, before it is polled. -/
def beforePoll : List RegistryEvent :=
  let counterId := (MeterOp.counter ⟨intern_str "a", ∅⟩).meterId
  [.op 30000 (.counter ⟨intern_str "a", ∅⟩), .op 31000 (.add counterId 60)] ++
    (List.range 30).map (fun k => .tick (35000 + 5000 * k)) ++
    .op 181000 (.add counterId 60) ::
      (List.range 17).map (fun k => .tick (185000 + 5000 * k))

/-- The interval of a minute never reports it: the poll at 210 s erases the entry. -/
example :
    let counterId := (MeterOp.counter ⟨intern_str "a", ∅⟩).meterId
    let config : Config := ⟨false, true, ∅, []⟩
    let p := beforePoll.foldl (apply plainRuntime config)
      ({ create 30000 with subscriptions_ := subscribedManager.subscriptions_ }, 0)
    p.2 = 47 ∧ (addedBetween counterId 180000 240000 beforePoll).sum = 60 ∧
      ∀ x ∈ intervalReport config 11 p.1 270000, x.id ≠ counterId := by
  decide +kernel

end Sends

end SubscriptionManager

end AtlasNative
