import AtlasNative.Shutdown

/-!
# Conservation at shutdown

When the manager is stopped, the last values reported for a counter account for all that
was added to it only if the stop falls well: the amounts of the 5 s step in progress are
left out unless that step is the last of its minute, those of the step before are fed a
second time if the last iteration has fed them, and those of the current minute are lost
with an entry that is erased.
-/

namespace AtlasNative

open ExactDouble
set_option autoImplicit false

namespace SubscriptionManager
variable (rt : Runtime) (config : Config)

/-- The clients of the registry and the iterations of the sender, which are counted. -/
def apply (p : SubscriptionManager × ℕ) : RegistryEvent → SubscriptionManager × ℕ
  | .op t o => ({ p.1 with registry_ := o.apply p.1.registry_ (p.1.WallTime t) }, p.2)
  | .tick t => ((p.1.main_sender_round rt config p.2 t).1, p.2 + 1)

def run (m : SubscriptionManager) (events : List RegistryEvent) : SubscriptionManager :=
  (events.foldl (apply rt config) (m, 0)).1

section Registries
variable {config} (hmain : config.IsMainEnabled = true)
include hmain

theorem toRegistries_update_registries (m : SubscriptionManager) (now : ℤ) :
    (m.update_registries config now).toRegistries = m.toRegistries.update now := by
  simp [update_registries, Registries.update, hmain]

theorem toRegistries_sendMain (m : SubscriptionManager) (now : ℤ) (due : Bool) :
    (m.sendMain rt config now due).1.toRegistries =
      if due then m.toRegistries.send now else m.toRegistries := by
  cases due <;> simp [sendMain, hmain, send_to_main]

omit hmain in
theorem sendSubs_keeps (now : ℤ)
    (p : SubscriptionManager × List (ℤ × Except Fault SubscriptionResults)) (i : Fin 12) :
    (sendSubs rt config now p i).1.toRegistries = p.1.toRegistries ∧
      (sendSubs rt config now p i).1.offset_ = p.1.offset_ := by
  unfold sendSubs
  split <;> exact ⟨rfl, rfl⟩

omit hmain in
theorem sendMain_offset (m : SubscriptionManager) (now : ℤ) (due : Bool) :
    (m.sendMain rt config now due).1.offset_ = m.offset_ := by
  unfold sendMain
  split <;> rfl

theorem toRegistries_main_sender_round (m : SubscriptionManager) (hoffset : m.offset_ = 0)
    (run : ℕ) (t : ℤ) :
    (m.main_sender_round rt config run t).1.toRegistries = m.toRegistries.tick t ∧
      (m.main_sender_round rt config run t).1.offset_ = 0 := by
  have hnow : m.WallTime t = t := by rw [WallTime, hoffset, add_zero]
  constructor
  · rw [main_sender_round, (sendSubs_keeps _ _ _ _).1, toRegistries_sendMain rt hmain,
      toRegistries_update_registries hmain, hnow, Registries.tick]
    simp
  · rw [main_sender_round, (sendSubs_keeps _ _ _ _).2, sendMain_offset]
    exact hoffset

theorem toRegistries_run (m : SubscriptionManager) (hoffset : m.offset_ = 0)
    (events : List RegistryEvent) :
    (m.run rt config events).toRegistries = runRegistries m.toRegistries events ∧
      (m.run rt config events).offset_ = 0 := by
  unfold run
  generalize 0 = iteration
  induction events generalizing m iteration with
  | nil => exact ⟨rfl, hoffset⟩
  | cons e events ih =>
    cases e with
    | op t o =>
      have hnow : m.WallTime t = t := by rw [WallTime, hoffset, add_zero]
      have hstep := ih { m with registry_ := o.apply m.registry_ t } hoffset iteration
      rw [List.foldl_cons, apply, hnow]
      exact hstep
    | tick t =>
      obtain ⟨hround, hkeep⟩ := toRegistries_main_sender_round rt hmain m hoffset iteration t
      have hstep := ih (m.main_sender_round rt config iteration t).1 hkeep (iteration + 1)
      rw [hround] at hstep
      exact hstep

theorem toRegistries_flush_metrics (m : SubscriptionManager) (t : ℤ) :
    (m.flush_metrics rt config t).1.toRegistries =
        (m.toRegistries.update (m.WallTime t)).send (m.WallTime t) ∧
      (m.flush_metrics rt config t).1.offset_ = m.offset_ := by
  have hfold : ∀ (is : List (Fin 12))
      (p : SubscriptionManager × List (ℤ × Except Fault SubscriptionResults)),
      (is.foldl (sendSubs rt config (m.WallTime t)) p).1.toRegistries = p.1.toRegistries ∧
        (is.foldl (sendSubs rt config (m.WallTime t)) p).1.offset_ = p.1.offset_ := by
    intro is
    induction is with
    | nil => exact fun p => ⟨rfl, rfl⟩
    | cons i is ih =>
      intro p
      obtain ⟨hregistries, hoffset⟩ :
          (sendSubs rt config (m.WallTime t) p i).1.toRegistries = p.1.toRegistries ∧
            (sendSubs rt config (m.WallTime t) p i).1.offset_ = p.1.offset_ :=
        sendSubs_keeps rt (m.WallTime t) p i
      have hrest := ih (sendSubs rt config (m.WallTime t) p i)
      exact ⟨hrest.1.trans hregistries, hrest.2.trans hoffset⟩
  constructor
  · rw [flush_metrics, (hfold _ _).1, toRegistries_sendMain rt hmain,
      toRegistries_update_registries hmain]
    rfl
  · rw [flush_metrics, (hfold _ _).2, sendMain_offset]
    rfl

theorem toRegistries_Stop (m : SubscriptionManager) (hoffset : m.offset_ = 0) {s : ℤ}
    (hs : 0 ≤ s) : (m.Stop rt config s).1.toRegistries = m.toRegistries.stop s := by
  have hnow : m.WallTime s = s := by rw [WallTime, hoffset, add_zero]
  obtain ⟨hfirst, hkeep⟩ := toRegistries_flush_metrics rt hmain m s
  rw [hnow] at hfirst
  have hwall : (m.flush_metrics rt config s).1.WallTime s = s := by
    rw [WallTime, hkeep, hoffset, add_zero]
  have hclock : s + (kMainFrequencyMillis - (s - s.tdiv kMainFrequencyMillis *
      kMainFrequencyMillis)) = (s / 60000 + 1) * 60000 := by
    rw [kMainFrequencyMillis, Int.tdiv_eq_ediv_of_nonneg hs]
    omega
  rw [Stop, (toRegistries_flush_metrics rt hmain _ s).1, hnow, hwall]
  unfold WallTime
  dsimp only
  rw [hclock, hfirst]
  rfl

end Registries

end SubscriptionManager

/-- The sum over all timestamps of `value * 60`, the last value of each counting. -/
def reportedTotal (id : Id) (published : Measurements) : Double :=
  ((lastValues id published).entries.map fun e => e.2.mulBy 60).sum

theorem reportedTotal_eq_iff (id : Id) (published : Measurements) (T : ℚ) :
    reportedTotal id published = .fin T ↔
      AssocMap.total (lastValues id published) = .fin (T / 60) := by
  have hmap : reportedTotal id published =
      Double.mulBy 60 (AssocMap.total (lastValues id published)) := by
    rw [reportedTotal, AssocMap.total, ← Double.sum_map_mulBy, List.map_map]
    rfl
  rw [hmap, Double.mulBy_eq_fin_iff (by norm_num)]

def amountsAdded (id : Id) (events : List RegistryEvent) : List ℤ :=
  (events.filterMap (RegistryEvent.added id)).map Prod.snd

/-- Every increment reaches exactly one report. -/
def Conserves (id : Id) (published : Measurements) (events : List RegistryEvent) : Prop :=
  reportedTotal id published = .fin (amountsAdded id events).sum

/-- A stop at `s`, after iteration `n`, falls well: what is fed again (the 5 s step before
the current one, unless a new step has begun since the iteration) is as much as what is
left out (the current step, unless it is the last of its minute), and the entry of the
counter is not erased (marked, and nothing in the minute before) with amounts of the
current minute in it. -/
def StopsWell (id : Id) (n s : ℤ) (entry : Option ConsolidatedValue)
    (events : List RegistryEvent) : Prop :=
  let B := fun i => (addedBetween id (5000 * i) (5000 * (i + 1)) events).sum
  let M := s / 60000
  (if s / 5000 = n then B (s / 5000 - 1) else 0) = (if s / 5000 % 12 = 11 then 0 else B (s / 5000)) ∧
    (marked entry = true → (addedBetween id (60000 * (M - 1)) (60000 * M) events).sum = 0 →
      (addedBetween id (60000 * M) (5000 * (s / 5000)) events).sum = 0)

/-- A stop loses nothing and counts nothing twice exactly if it falls well. -/
theorem stop_conserves_iff {b c₀ j c j' now s : ℤ} {id : Id} {before after : List RegistryEvent}
    {rt : Runtime} {config : Config} {m : SubscriptionManager}
    (hmain : config.IsMainEnabled = true) (hm : m.toRegistries = .create c₀)
    (hoffset : m.offset_ = 0) (h : CounterRun b c₀ j c id before after j' now)
    (hop : aggregate_op (MeterOp.counter id).meterId = .Add)
    (hnow : now ≤ s) (hnext : s ≤ 5000 * j' + b) :
    let stopped := m.run rt config (before ++ .op c (.counter id) :: after)
    Conserves (MeterOp.counter id).meterId (stopped.Stop rt config s).1.published after ↔
      StopsWell (MeterOp.counter id).meterId (j' - 1) s
        (stopped.main_registry_.my_values.lookup (MeterOp.counter id).meterId) after := by
  intro stopped
  obtain ⟨hb0, hb⟩ := h.offset
  obtain ⟨hinv, hrecords⟩ := h.runInv hop
  obtain ⟨hrun, hkeep⟩ := SubscriptionManager.toRegistries_run rt hmain m hoffset
    (before ++ .op c (.counter id) :: after)
  rw [hm] at hrun
  have hs : 0 ≤ s := le_trans hinv.nonneg hnow
  have hstop := SubscriptionManager.toRegistries_Stop rt hmain stopped hkeep hs
  have htotal := stop_total_eq_iff hop hb0 hb hinv hrecords h.created_le hnow hnext
  have hstopped : stopped.toRegistries = CounterRun.result c₀ c id before after := hrun
  rw [← hstopped] at htotal
  have hall : sumWhere (fun _ => True)
      (after.filterMap (RegistryEvent.added (MeterOp.counter id).meterId)) =
        (amountsAdded (MeterOp.counter id).meterId after).sum := by
    simp [sumWhere, amountsAdded]
  have hstep : ∀ i, sumWhere (· = i)
      (after.filterMap (RegistryEvent.added (MeterOp.counter id).meterId)) = _ := fun i =>
    sumWhere_added (5000 * i) (5000 * (i + 1)) (fun t => by omega) _ after
  have hminute : sumWhere (· / 12 = s / 60000 - 1)
      (after.filterMap (RegistryEvent.added (MeterOp.counter id).meterId)) = _ :=
    sumWhere_added (60000 * (s / 60000 - 1)) (60000 * (s / 60000))
      (fun t => by omega) _ after
  have hcurrent : sumWhere (fun i => i / 12 = s / 60000 ∧ i < s / 5000)
      (after.filterMap (RegistryEvent.added (MeterOp.counter id).meterId)) = _ :=
    sumWhere_added (60000 * (s / 60000)) (5000 * (s / 5000))
      (fun t => by omega) _ after
  rw [hall, hstep, hstep, hminute, hcurrent] at htotal
  rw [Conserves, reportedTotal_eq_iff, hstop]
  exact htotal

def mainOnly : Config := ⟨true, false, ∅, []⟩

/-- An increment at 62 s, between the iterations at 60 s and at 65 s. -/
theorem counterRun_increment :
    CounterRun 0 60000 12 61000 ⟨intern_str "a", ∅⟩ [.tick 60000]
      [.op 62000 (.add (MeterOp.counter ⟨intern_str "a", ∅⟩).meterId 7)] 13 62000 where
  offset := by omega
  clock := by omega
  free := by decide
  unused := by simp
  first := by omega
  held := by simp [MeterOp.Keeps, MeterOp.added]
  scheduled := by simp [Scheduled]

theorem stop_conserves_after_step :
    Conserves (MeterOp.counter ⟨intern_str "a", ∅⟩).meterId
      (((SubscriptionManager.create 60000).run plainRuntime mainOnly
        ([.tick 60000] ++ .op 61000 (.counter ⟨intern_str "a", ∅⟩) ::
          [.op 62000 (.add (MeterOp.counter ⟨intern_str "a", ∅⟩).meterId 7)])).Stop
        plainRuntime mainOnly 65000).1.published
      [.op 62000 (.add (MeterOp.counter ⟨intern_str "a", ∅⟩).meterId 7)] := by
  refine (stop_conserves_iff (c := 61000) rfl rfl rfl counterRun_increment (by decide) (by decide)
    (by omega)).mpr ⟨by decide +kernel, fun hmarked => absurd hmarked (by decide +kernel)⟩

theorem stop_loses_increment : ¬ ∀ (b c₀ j c j' now s : ℤ) (id : Id)
    (before after : List RegistryEvent), CounterRun b c₀ j c id before after j' now →
    now ≤ s → s ≤ 5000 * j' + b →
    Conserves (MeterOp.counter id).meterId
      (((SubscriptionManager.create c₀).run plainRuntime mainOnly
        (before ++ .op c (.counter id) :: after)).Stop plainRuntime mainOnly s).1.published
      after := by
  intro h
  have hconserves := h _ _ _ _ _ _ 62000 _ _ _ counterRun_increment (by omega) (by omega)
  unfold Conserves at hconserves
  exact absurd hconserves (by decide +kernel)

end AtlasNative
