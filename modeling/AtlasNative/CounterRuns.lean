import AtlasNative.MainRegistry

/-!
# Runs with a held counter

A counter is created under an id that is not in use, and held from then on. Whatever
happens to the other meters, what is published for its id adds up to the amounts of the
minutes that have been reported.
-/

namespace AtlasNative

open ExactDouble Rolling Grouping ConsolidationRegistry
set_option autoImplicit false

/-- The last value that was reported for an id under each timestamp. -/
def lastValues (id : Id) (published : Measurements) : AList fun _ : ℤ => Double :=
  (published.filter (·.id = id)).foldl (fun values x => values.insert x.timestamp x.value) ∅

theorem lastValues_append (id : Id) (published report : Measurements) :
    lastValues id (published ++ report) =
      (report.filter (·.id = id)).foldl (fun values x => values.insert x.timestamp x.value)
        (lastValues id published) := by
  simp [lastValues]

section Reports
variable {id : Id} {published report : Measurements} {timestamp S : ℤ}

/-- A report about an amount `S`, which has the id only if `S` is positive. -/
def ReportsAmount (id : Id) (report : Measurements) (timestamp S : ℤ) : Prop :=
  report.filter (·.id = id) = if 0 < S then [⟨id, timestamp, .fin (S / 60)⟩] else []

theorem ReportsAmount.lastValues (h : ReportsAmount id report timestamp S)
    (published : Measurements) :
    lastValues id (published ++ report) =
      if 0 < S then (lastValues id published).insert timestamp (.fin (S / 60))
      else lastValues id published := by
  rw [lastValues_append, h]
  split <;> rfl

theorem ReportsAmount.mem (h : ReportsAmount id report timestamp S) {s : ℤ}
    (hs : s ∈ AtlasNative.lastValues id (published ++ report)) :
    s = timestamp ∨ s ∈ AtlasNative.lastValues id published := by
  rw [h.lastValues] at hs
  split at hs
  · exact (AList.mem_insert _).mp hs
  · exact Or.inr hs

theorem ReportsAmount.total (h : ReportsAmount id report timestamp S) (hS : 0 ≤ S)
    (hfresh : timestamp ∉ AtlasNative.lastValues id published) {T : ℤ}
    (hT : AssocMap.total (AtlasNative.lastValues id published) = .fin (T / 60)) :
    AssocMap.total (AtlasNative.lastValues id (published ++ report)) = .fin ((T + S : ℤ) / 60) := by
  rw [h.lastValues]
  split
  · rw [AssocMap.total_insert_of_notMem hfresh, hT, Double.fin_add_fin]
    push_cast
    rw [← add_div, add_comm]
  · rename_i hnot
    rw [hT, le_antisymm (not_lt.mp hnot) hS, add_zero]

theorem ReportsAmount.total_again (h : ReportsAmount id report timestamp S) {S' T : ℤ}
    (hS' : 0 ≤ S') (hS : S' ≤ S)
    (hlatest : (AtlasNative.lastValues id published).lookup timestamp =
      if 0 < S' then some (.fin (S' / 60)) else none)
    (hT : AssocMap.total (AtlasNative.lastValues id published) = .fin (T / 60)) :
    AssocMap.total (AtlasNative.lastValues id (published ++ report)) =
      .fin ((T - S' + S : ℤ) / 60) := by
  by_cases hpositive : 0 < S'
  · rw [if_pos hpositive] at hlatest
    obtain ⟨rest, hold, hnew⟩ := AssocMap.total_insert_of_lookup hlatest (.fin (S / 60))
    rw [h.lastValues, if_pos (lt_of_lt_of_le hpositive hS), hnew,
      Double.eq_fin_of_add_eq_fin (hold.symm.trans hT), Double.fin_add_fin]
    push_cast
    congr 1
    linarith
  · rw [if_neg hpositive] at hlatest
    rw [h.total (le_trans hS' hS) (AList.lookup_eq_none.mp hlatest) hT,
      le_antisymm (not_lt.mp hpositive) hS', sub_zero]

end Reports

/-- What a run on a schedule knows about an id, once `log` has been added to its counter,
before iteration `j`. If the counter is created at `c` or later, no iteration is missed
from then on. -/
structure RunInv (b c : ℤ) (id : Id) (r : Registries) (j now : ℤ) (log : List (ℤ × ℤ)) :
    Prop where
  nonneg : 0 ≤ now
  window : ∀ t, now ≤ t → c ≤ t → 5000 * (j - 1) + b ≤ t
  steps : ∀ e ∈ log, 0 ≤ e.1
  amounts : ∀ e ∈ log, 0 ≤ e.2
  main : ∃ start events, MainInv b id start events r.main_registry_ j log
  total : AssocMap.total (lastValues id r.published) =
    .fin (sumWhere (· / 12 < (j - 1) / 12) log / 60)
  timestamps : ∀ s ∈ lastValues id r.published, s ≤ 60000 * ((j - 1) / 12)
  latest : (lastValues id r.published).lookup (60000 * ((j - 1) / 12)) =
    if 0 < sumWhere (· / 12 = (j - 1) / 12 - 1) log then
      some (.fin (sumWhere (· / 12 = (j - 1) / 12 - 1) log / 60))
    else none

namespace RunInv
variable {b c j now t : ℤ} {id : Id} {r : Registries} {log : List (ℤ × ℤ)}

theorem start (id : Id) (h0 : 0 ≤ now) (hc : 5000 * (j - 1) + b ≤ c) :
    RunInv b c id (.create now) j now [] where
  nonneg := h0
  window t _ ht := le_trans hc ht
  steps := by simp
  amounts := by simp
  main := ⟨_, [], rfl, rfl, rfl, EntryHolds.none _ _ _ _, Schedule.nil _ _, by simp, fun k => by
    simp [valuesLog, bucket, Double.zero_def], by simp [valuesLog]⟩
  total := by simp [lastValues, Registries.create, AssocMap.total, Double.zero_def]
  timestamps := by simp [lastValues, Registries.create]
  latest := by simp [lastValues, Registries.create]

theorem op (h : RunInv b c id r j now log) (hb0 : 0 ≤ b) (ht : now ≤ t) (reg : AtlasRegistry)
    (log' : List (ℤ × ℤ)) (hlog' : ∀ e ∈ log', c ≤ t ∧ e.1 = t / 5000 ∧ 0 ≤ e.2) :
    RunInv b c id { r with registry_ := reg } j t (log ++ log') := by
  have h0 : 0 ≤ t := le_trans h.nonneg ht
  have hrecent : ∀ e ∈ log', 0 ≤ e.1 ∧ j - 1 ≤ e.1 := by
    intro e he
    obtain ⟨hc, hstep, _⟩ := hlog' e he
    have hwindow := h.window t ht hc
    omega
  obtain ⟨start, events, hmain⟩ := h.main
  have hbefore : sumWhere (· / 12 < (j - 1) / 12) log' = 0 :=
    sumWhere_eq_zero fun e he hp => by
      have hstep := hrecent e he
      omega
  have hlatest : sumWhere (· / 12 = (j - 1) / 12 - 1) log' = 0 :=
    sumWhere_eq_zero fun e he hp => by
      have hstep := hrecent e he
      omega
  refine ⟨h0, fun s hs => h.window s (le_trans ht hs), ?_, ?_,
    ⟨start, events, hmain.add fun e he => (hrecent e he).2⟩, ?_, h.timestamps, ?_⟩
  · intro e he
    rcases List.mem_append.mp he with he | he
    · exact h.steps e he
    · exact (hrecent e he).1
  · intro e he
    rcases List.mem_append.mp he with he | he
    · exact h.amounts e he
    · exact (hlog' e he).2.2
  · rw [sumWhere_append, hbefore, add_zero]
    exact h.total
  · rw [sumWhere_append, hlatest, add_zero]
    exact h.latest

variable (hop : aggregate_op id = .Add) (hb0 : 0 ≤ b) (hb : b < 5000)
include hop hb0 hb

theorem update_main (h : RunInv b c id r j now log) (ht : now ≤ 5000 * j + b)
    (hvalues : Rates (valuesFor id (r.registry_.measurements (5000 * j + b)))
      ((bucket (j - 1) log).sum / 5)) :
    ∃ start events,
      MainInv b id start events (r.update (5000 * j + b)).main_registry_ (j + 1) log := by
  obtain ⟨start, events, hmain⟩ := h.main
  have h0 := h.nonneg
  exact hmain.update hop hb0 hb (by omega) h.steps hvalues

theorem reportsAmount (h : RunInv b c id r j now log) (ht : now ≤ 5000 * j + b)
    (hvalues : Rates (valuesFor id (r.registry_.measurements (5000 * j + b)))
      ((bucket (j - 1) log).sum / 5)) (hminute : j % 12 = 0) :
    ReportsAmount id ((r.update (5000 * j + b)).report (5000 * j + b)) (60000 * (j / 12))
      (sumWhere (· / 12 = j / 12 - 1) log) := by
  obtain ⟨start, events, hmain⟩ := h.update_main hop hb0 hb ht hvalues
  have h0 := h.nonneg
  have htimestamp : (5000 * j + b).tdiv kMainFrequencyMillis * kMainFrequencyMillis =
      60000 * (j / 12) := by
    rw [kMainFrequencyMillis, Int.tdiv_eq_ediv_of_nonneg (by omega)]
    omega
  rw [ReportsAmount, Registries.report, htimestamp]
  exact (hmain.send hop hb0 hb (by omega) h.steps hminute _).2

theorem tick (h : RunInv b c id r j now log) (ht : now ≤ 5000 * j + b)
    (hvalues : Rates (valuesFor id (r.registry_.measurements (5000 * j + b)))
      ((bucket (j - 1) log).sum / 5)) :
    RunInv b c id (r.tick (5000 * j + b)) (j + 1) (5000 * j + b) log := by
  have h0 := h.nonneg
  have hwindow : ∀ t, 5000 * j + b ≤ t → c ≤ t → 5000 * (j + 1 - 1) + b ≤ t := by
    intro t ht _
    omega
  have hminute : (5000 * j + b).tmod 60000 < kFastestFrequencyMillis ↔ j % 12 = 0 := by
    rw [kFastestFrequencyMillis, Int.tmod_eq_emod_of_nonneg (by omega)]
    omega
  obtain ⟨start, events, hmain⟩ := h.update_main hop hb0 hb ht hvalues
  unfold Registries.tick
  by_cases hj : j % 12 = 0
  · rw [if_pos (hminute.mpr hj)]
    have hnext : (j + 1 - 1) / 12 = (j - 1) / 12 + 1 := by omega
    have hstep : j / 12 = (j - 1) / 12 + 1 := by omega
    have hreport := h.reportsAmount hop hb0 hb ht hvalues hj
    have hsend := (hmain.send hop hb0 hb (by omega) h.steps hj 0).1
    have hfresh : 60000 * (j / 12) ∉ lastValues id r.published := by
      intro hmem
      have hle := h.timestamps _ hmem
      omega
    have hsum : sumWhere (· / 12 < (j + 1 - 1) / 12) log =
        sumWhere (· / 12 < (j - 1) / 12) log + sumWhere (· / 12 = j / 12 - 1) log := by
      rw [← sumWhere_or fun k => by omega]
      exact sumWhere_congr fun e _ => by omega
    refine ⟨by omega, hwindow, h.steps, h.amounts, hsend, ?_, ?_, ?_⟩
    · rw [hsum]
      exact hreport.total (sumWhere_nonneg h.amounts) hfresh h.total
    · intro s hs
      rcases hreport.mem hs with rfl | hs
      · omega
      · have hle := h.timestamps s hs
        omega
    · rw [add_sub_cancel_right]
      refine (congrArg (AList.lookup _) (hreport.lastValues r.published)).trans ?_
      split
      · exact AList.lookup_insert _
      · exact AList.lookup_eq_none.mpr hfresh
  · rw [if_neg (fun h => hj (hminute.mp h))]
    have hsame : (j + 1 - 1) / 12 = (j - 1) / 12 := by omega
    refine ⟨by omega, hwindow, h.steps, h.amounts, ⟨start, events, hmain⟩, ?_, ?_, ?_⟩
    · rw [hsame]
      exact h.total
    · rw [hsame]
      exact h.timestamps
    · rw [hsame]
      exact h.latest

theorem run_before {events : List RegistryEvent} {j' now' : ℤ} (h : RunInv b c id r j now [])
    (hreg : r.registry_.Lacks 5000 id) (hscheduled : Scheduled b j now events j' now')
    (hother : ∀ t o, .op t o ∈ events → o.meterId ≠ id) :
    RunInv b c id (runRegistries r events) j' now' [] ∧
      (runRegistries r events).registry_.Lacks 5000 id := by
  induction events generalizing r j now with
  | nil =>
    obtain ⟨rfl, rfl⟩ := hscheduled
    exact ⟨h, hreg⟩
  | cons e events ih =>
    have hrest : ∀ t o, .op t o ∈ events → o.meterId ≠ id := fun t o ho =>
      hother t o (List.mem_cons_of_mem _ ho)
    cases e with
    | op t o =>
      obtain ⟨ht, _, hscheduled⟩ := hscheduled
      exact ih (h.op hb0 ht (o.apply r.registry_ t) [] (by simp))
        (hreg.apply t (hother t o List.mem_cons_self)) hscheduled hrest
    | tick t =>
      obtain ⟨ht, rfl, hscheduled⟩ := hscheduled
      have hvalues : Rates (valuesFor id (r.registry_.measurements (5000 * j + b)))
          ((bucket (j - 1) ([] : List (ℤ × ℤ))).sum / 5) := by
        rw [hreg.measured]
        simpa [bucket] using Rates.nil
      have hlacks := hreg.afterMeasurements (5000 * j + b)
      rw [← r.tick_registry] at hlacks
      exact ih (h.tick hop hb0 hb ht hvalues) hlacks hscheduled hrest

omit hop in
theorem rates (h : RunInv b c id r j now log)
    (hreg : r.registry_.Records 5000 id now log) (ht : now ≤ 5000 * j + b) :
    Rates (valuesFor id (r.registry_.measurements (5000 * j + b)))
      ((bucket (j - 1) log).sum / 5) := by
  have hstep : (5000 * j + b) / 5000 - 1 = j - 1 := by omega
  have hrates := hreg.rates_five h.amounts (le_trans h.nonneg ht) ht
  rwa [hstep] at hrates

theorem run_after {events : List RegistryEvent} {j' now' : ℤ} (h : RunInv b c id r j now log)
    (hreg : r.registry_.Records 5000 id now log) (hc : c ≤ now)
    (hscheduled : Scheduled b j now events j' now')
    (hheld : ∀ t o, .op t o ∈ events → o.Keeps id ∧ ∀ a, o.added id = some a → 0 ≤ a) :
    RunInv b c id (runRegistries r events) j' now'
        (log ++ events.filterMap (RegistryEvent.added id)) ∧
      (runRegistries r events).registry_.Records 5000 id now'
        (log ++ events.filterMap (RegistryEvent.added id)) := by
  induction events generalizing r j now log with
  | nil =>
    obtain ⟨rfl, rfl⟩ := hscheduled
    rw [List.filterMap_nil, List.append_nil]
    exact ⟨h, hreg⟩
  | cons e events ih =>
    have hrest : ∀ t o, .op t o ∈ events → o.Keeps id ∧ ∀ a, o.added id = some a → 0 ≤ a :=
      fun t o ho => hheld t o (List.mem_cons_of_mem _ ho)
    have hcons : log ++ (e :: events).filterMap (RegistryEvent.added id) =
        log ++ (e.added id).toList ++ events.filterMap (RegistryEvent.added id) := by
      cases hadded : e.added id <;> simp [hadded]
    have h0 := h.nonneg
    rw [hcons]
    cases e with
    | op t o =>
      obtain ⟨ht, _, hscheduled⟩ := hscheduled
      obtain ⟨hkeeps, hamount⟩ := hheld t o List.mem_cons_self
      have hlog : ∀ e ∈ ((RegistryEvent.op t o).added id).toList,
          c ≤ t ∧ e.1 = t / 5000 ∧ 0 ≤ e.2 := by
        intro e he
        obtain ⟨a, ha, rfl⟩ := Option.map_eq_some_iff.mp (Option.mem_toList.mp he)
        exact ⟨le_trans hc ht, rfl, hamount a ha⟩
      exact ih (h.op hb0 ht (o.apply r.registry_ t) _ hlog)
        (hreg.apply (by omega) (le_trans h0 ht) ht hkeeps) (le_trans hc ht) hscheduled hrest
    | tick t =>
      obtain ⟨ht, rfl, hscheduled⟩ := hscheduled
      have hrecords := hreg.afterMeasurements (by omega) (le_trans h0 ht) ht
      rw [← r.tick_registry] at hrecords
      have hnone : ((RegistryEvent.tick (5000 * j + b)).added id).toList = [] := rfl
      rw [hnone, List.append_nil]
      exact ih (h.tick hop hb0 hb ht (h.rates hb0 hb hreg ht)) hrecords
        (le_trans hc ht) hscheduled hrest

end RunInv

/-- A run in which a counter is created at `c`, under an id that nobody uses, and held from
then on, while iterations are not missed. The run starts at `c₀`, before iteration `j`. -/
structure CounterRun (b c₀ j c : ℤ) (id : Id) (before after : List RegistryEvent)
    (j' now : ℤ) : Prop where
  offset : 0 ≤ b ∧ b < 5000
  clock : 0 ≤ c₀
  free : (Registries.create c₀).registry_.meters_.lookup (MeterOp.counter id).meterId = none
  unused : ∀ t o, .op t o ∈ before → o.meterId ≠ (MeterOp.counter id).meterId
  first : 5000 * (j - 1) + b ≤ c
  held : ∀ t o, .op t o ∈ after → o.Keeps (MeterOp.counter id).meterId ∧
    ∀ a, o.added (MeterOp.counter id).meterId = some a → 0 ≤ a
  scheduled : Scheduled b j c₀ (before ++ .op c (.counter id) :: after) j' now

namespace CounterRun
variable {b c₀ j c j' now : ℤ} {id : Id} {before after : List RegistryEvent}

def result (c₀ c : ℤ) (id : Id) (before after : List RegistryEvent) : Registries :=
  runRegistries (.create c₀) (before ++ .op c (.counter id) :: after)

theorem lacks (h : CounterRun b c₀ j c id before after j' now) :
    (Registries.create c₀).registry_.Lacks 5000 (MeterOp.counter id).meterId where
  freq := rfl
  own heq := by
    have hown : (Registries.create c₀).registry_.meters_.lookup
        (Registries.create c₀).registry_.expired_meters ≠ none := by
      simp [Registries.create, AtlasRegistry.create]
    exact hown (heq ▸ h.free)
  free := h.free

theorem created_le (h : CounterRun b c₀ j c id before after j' now) : c ≤ now := by
  obtain ⟨_, _, _, hrest⟩ := scheduled_append h.scheduled
  exact hrest.2.2.now_le

theorem runInv (h : CounterRun b c₀ j c id before after j' now)
    (hop : aggregate_op (MeterOp.counter id).meterId = .Add) :
    RunInv b c (MeterOp.counter id).meterId (result c₀ c id before after) j' now
        (after.filterMap (RegistryEvent.added (MeterOp.counter id).meterId)) ∧
      (result c₀ c id before after).registry_.Records 5000 (MeterOp.counter id).meterId now
        (after.filterMap (RegistryEvent.added (MeterOp.counter id).meterId)) := by
  obtain ⟨hb0, hb⟩ := h.offset
  obtain ⟨j₁, now₁, hbefore, hrest⟩ := scheduled_append h.scheduled
  obtain ⟨hc, _, hafter⟩ := hrest
  obtain ⟨hinv, hlacks⟩ := (RunInv.start _ h.clock h.first).run_before hop hb0 hb h.lacks hbefore
    h.unused
  have hcreated := hlacks.counter (le_trans hinv.nonneg hc) rfl
  have hresult : result c₀ c id before after =
      runRegistries ((RegistryEvent.op c (.counter id)).apply
        (runRegistries (.create c₀) before)) after := by
    simp [result, runRegistries]
  rw [hresult]
  exact (hinv.op hb0 hc _ [] (by simp)).run_after hop hb0 hb hcreated le_rfl hafter h.held

end CounterRun

end AtlasNative
