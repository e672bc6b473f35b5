import AtlasNative.CounterRuns

/-!
# Increments are reported in the minute they happened

The report at the beginning of a minute has, for a counter that is consolidated by
addition, the rate of the amounts added in the minute before. A counter whose own
statistic tag is not one of a counter is consolidated by the maximum instead.
-/

namespace AtlasNative

open ExactDouble
set_option autoImplicit false

def addedBetween (id : Id) (lo hi : ℤ) (events : List RegistryEvent) : List ℤ :=
  events.filterMap fun
    | .op t o => if lo ≤ t ∧ t < hi then o.added id else none
    | .tick _ => none

theorem addedBetween_op (id : Id) (lo hi t : ℤ) (o : MeterOp) (events : List RegistryEvent) :
    addedBetween id lo hi (.op t o :: events) =
      (if lo ≤ t ∧ t < hi then (o.added id).toList else []) ++ addedBetween id lo hi events := by
  rw [addedBetween, List.filterMap_cons]
  dsimp only
  by_cases ht : lo ≤ t ∧ t < hi
  · rw [if_pos ht, if_pos ht]
    cases o.added id <;> rfl
  · rw [if_neg ht, if_neg ht]
    rfl

theorem sumWhere_added {p : ℤ → Prop} [DecidablePred p] (lo hi : ℤ)
    (hp : ∀ t, p (t / 5000) ↔ lo ≤ t ∧ t < hi) (id : Id) (events : List RegistryEvent) :
    sumWhere p (events.filterMap (RegistryEvent.added id)) =
      (addedBetween id lo hi events).sum := by
  induction events with
  | nil => rfl
  | cons e events ih =>
    cases e with
    | tick t => exact ih
    | op t o =>
      have hcons : (RegistryEvent.op t o :: events).filterMap (RegistryEvent.added id) =
          ((o.added id).map (Prod.mk (t / 5000))).toList ++
            events.filterMap (RegistryEvent.added id) := by
        cases hadded : o.added id <;> simp [RegistryEvent.added, hadded]
      rw [hcons, sumWhere_append, ih, addedBetween_op, List.sum_append,
        if_congr (hp t).symm rfl rfl]
      congr 1
      by_cases ht : p (t / 5000) <;> cases o.added id <;> simp [sumWhere, ht]

/-- The report of minute `M` has the rate of the amounts added in the minute before, if
there is any. -/
def ReportsMinute (id : Id) (report : Measurements) (M : ℤ) (events : List RegistryEvent) :
    Prop :=
  let S := (addedBetween id (60000 * (M - 1)) (60000 * M) events).sum
  ((∃ x ∈ report, x.id = id) ↔ 0 < S) ∧ ∀ x ∈ report, x.id = id → x.value = .fin (S / 60)

/-- Every increment is reported in the minute it happened, through both registries. -/
theorem reports_minute {b c₀ j c j' now t : ℤ} {id : Id} {before after : List RegistryEvent}
    (h : CounterRun b c₀ j c id before after j' now)
    (hop : aggregate_op (MeterOp.counter id).meterId = .Add)
    (hnow : now ≤ t) (ht : t = 5000 * j' + b) (hminute : t % 60000 < 5000) :
    ReportsMinute (MeterOp.counter id).meterId
      (((CounterRun.result c₀ c id before after).update t).report t) (t / 60000) after := by
  obtain ⟨hb0, hb⟩ := h.offset
  obtain ⟨hinv, hrecords⟩ := h.runInv hop
  subst ht
  have hfilter := hinv.reportsAmount hop hb0 hb hnow (hinv.rates hb0 hb hrecords hnow)
    (by omega)
  have hM : (5000 * j' + b) / 60000 = j' / 12 := by omega
  have hsum : sumWhere (· / 12 = j' / 12 - 1) _ = _ :=
    sumWhere_added (60000 * (j' / 12 - 1)) (60000 * (j' / 12)) (fun t => by omega)
      (MeterOp.counter id).meterId after
  rw [ReportsAmount, hsum] at hfilter
  unfold ReportsMinute
  rw [hM]
  have hmem : ∀ x, x ∈ ((CounterRun.result c₀ c id before after).update (5000 * j' + b)).report
      (5000 * j' + b) ∧ x.id = (MeterOp.counter id).meterId ↔ x ∈
        (((CounterRun.result c₀ c id before after).update (5000 * j' + b)).report
          (5000 * j' + b)).filter (·.id = (MeterOp.counter id).meterId) := by simp
  simp only [hmem, hfilter]
  constructor
  · split <;> simp_all
  · intro x hx hid
    have hx := (hmem x).mp ⟨hx, hid⟩
    rw [hfilter] at hx
    split at hx
    · rw [List.mem_singleton.mp hx]
    · exact absurd hx List.not_mem_nil

theorem counterRun_increment_before_minute (id : Id)
    (hfree : (Registries.create 110000).registry_.meters_.lookup (MeterOp.counter id).meterId =
      none) :
    CounterRun 0 110000 23 110000 id []
      [.op 111000 (.add (MeterOp.counter id).meterId 60), .tick 115000] 24 115000 where
  offset := by omega
  clock := by omega
  free := hfree
  unused := by simp
  first := by omega
  held := by simp [MeterOp.Keeps, MeterOp.added]
  scheduled := by simp [Scheduled]

theorem reports_minute_single :
    ReportsMinute (MeterOp.counter ⟨intern_str "a", ∅⟩).meterId
      (((CounterRun.result 110000 110000 ⟨intern_str "a", ∅⟩ []
        [.op 111000 (.add (MeterOp.counter ⟨intern_str "a", ∅⟩).meterId 60),
          .tick 115000]).update 120000).report 120000) 2
      [.op 111000 (.add (MeterOp.counter ⟨intern_str "a", ∅⟩).meterId 60), .tick 115000] := by
  have hrun := counterRun_increment_before_minute ⟨intern_str "a", ∅⟩ (by decide)
  exact reports_minute hrun (by decide) (by decide) (by decide) (by decide)

/-- A counter with the statistic `max` reports its greatest rate of 5 s. -/
theorem max_counter_not_reported : ¬ ∀ (b c₀ j c j' now t : ℤ) (id : Id)
    (before after : List RegistryEvent), CounterRun b c₀ j c id before after j' now →
    now ≤ t → t = 5000 * j' + b → t % 60000 < 5000 →
    ReportsMinute (MeterOp.counter id).meterId
      (((CounterRun.result c₀ c id before after).update t).report t) (t / 60000) after := by
  intro h
  let id : Id := ⟨intern_str "a", Tags.of [("statistic", "max")]⟩
  have hrun := counterRun_increment_before_minute id (by decide)
  have hreport := (h _ _ _ _ _ _ 120000 _ _ _ hrun (by omega) (by omega) (by omega)).2
    ⟨(MeterOp.counter id).meterId, 120000, .fin 12⟩ (by decide +kernel) rfl
  exact absurd hreport (by decide +kernel)

end AtlasNative
