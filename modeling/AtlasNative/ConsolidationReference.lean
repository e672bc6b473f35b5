import AtlasNative.Consolidation

/-!
# The consolidation registry equals its reference

What is reported for an id in a reporting step is a function of the values passed for
it in the updates of the step before. The invariant relates the entry of an id to
the log of its values: entries may have been erased and created again in between.
-/

namespace AtlasNative

open ExactDouble Rolling Grouping
set_option autoImplicit false

namespace AggrOp

def init : AggrOp → Double
  | Add => 0
  | Max => Double.lowest

/-- How one value enters a step, `m` updates being made per reporting step. -/
def combine (m : ℤ) : AggrOp → Double → Double → Double
  | Add => fun acc v => acc + v / .fin m
  | Max => Double.stdMax

def maximum (vs : List Double) : Double := vs.foldl Double.stdMax Double.lowest

/-- What is reported for the values of a step: a counter's sum by `m` when the sum is
positive, else the greatest value when there is one above the lowest double. -/
def reference (m : ℤ) (vs : List Double) : AggrOp → Option Double
  | Add => if 0 < vs.sum then some (vs.sum.divBy m) else none
  | Max => if ∃ v ∈ vs, Double.lowest < v then some (maximum vs) else none

theorem reference_nil (m : ℤ) (op : AggrOp) : op.reference m [] = none := by
  cases op <;> simp [reference, Double.lt_irrefl]

theorem foldl_combine_add {m : ℤ} (hm : 0 < m) (vs : List Double) (acc : Double) :
    vs.foldl (combine m Add) acc = acc + vs.sum.divBy m := by
  induction vs generalizing acc with
  | nil => simp
  | cons v vs ih =>
    have hstep : combine m Add acc v = acc + v.divBy m :=
      congrArg (acc + ·) (Double.div_fin_eq_divBy (Int.cast_pos.mpr hm) v)
    rw [List.foldl_cons, ih, hstep, List.sum_cons, Double.divBy_add, add_assoc]

theorem maximum_spec {vs : List Double} (hvs : ∀ v ∈ vs, v.isnan = false)
    (h : ∃ v ∈ vs, Double.lowest < v) :
    maximum vs ∈ vs ∧ ∀ v ∈ vs, ¬ maximum vs < v := by
  obtain ⟨hmem, _, hall⟩ := Double.foldl_stdMax_spec vs Double.lowest rfl hvs
  refine ⟨hmem.resolve_left ?_, hall⟩
  intro heq
  obtain ⟨v, hv, hlt⟩ := h
  exact hall v hv (heq.symm ▸ hlt)

theorem lowest_lt_maximum_iff {vs : List Double} (hvs : ∀ v ∈ vs, v.isnan = false) :
    Double.lowest < maximum vs ↔ ∃ v ∈ vs, Double.lowest < v := by
  constructor
  · intro h
    obtain ⟨hmem, _, _⟩ := Double.foldl_stdMax_spec vs Double.lowest rfl hvs
    rcases hmem with heq | hmem
    · exact absurd (heq ▸ h : Double.lowest < Double.lowest) (Double.lt_irrefl _)
    · exact ⟨_, hmem, h⟩
  · intro h
    obtain ⟨hmem, hall⟩ := maximum_spec hvs h
    obtain ⟨v, hv, hlt⟩ := h
    exact Double.lt_of_lt_of_not_lt (hvs _ hmem) (hvs v hv) hlt (hall v hv)

end AggrOp

/-- An entry for an id with operation `op` holds the values of `log`, per step. -/
structure Holds (op : AggrOp) (m R : ℤ) (c : ConsolidatedValue) (log : List (ℤ × Double)) :
    Prop where
  is_gauge : c.is_gauge_ = decide (op = AggrOp.Max)
  multiple : c.update_multiple_ = m
  step : c.v.step_millis_ = R
  init : c.v.init_ = op.init
  tracks : Tracks (op.combine m) op.init c.v.toRoller log

namespace Holds
variable {op : AggrOp} {m R : ℤ} {c : ConsolidatedValue} {log : List (ℤ × Double)}

theorem create (op : AggrOp) (m R now : ℤ) :
    Holds op m R (.create (decide (op = AggrOp.Max)) m R now) [] := by
  cases op <;> exact ⟨rfl, rfl, rfl, rfl, Tracks.start _ _ _⟩

/-- A value goes to the step of the clock, or to the step the entry has reached when the
clock was moved back behind it. -/
theorem update (h : Holds op m R c log) (now : ℤ) (v : Double) :
    Holds op m R (c.update now v) (log ++ [(max c.v.last_init_pos_ (now.tdiv R), v)]) ∧
      (c.update now v).v.last_init_pos_ = max c.v.last_init_pos_ (now.tdiv R) := by
  have htracks := h.tracks.roll_record (now.tdiv R) v
  have hroller : (c.update now v).v.toRoller =
      (c.v.toRoller.roll op.init (now.tdiv R)).record (op.combine m) v := by
    rw [← h.init, ← h.step]
    cases op with
    | Add =>
      have hgauge : c.is_gauge_ = false := h.is_gauge
      rw [ConsolidatedValue.update, hgauge, ← h.multiple]
      exact StepNumber.toRoller_Add c.v now _
    | Max =>
      have hgauge : c.is_gauge_ = true := h.is_gauge
      rw [ConsolidatedValue.update, hgauge]
      exact StepNumber.toRoller_UpdateCurrentMax c.v now v
  have hkeep : (c.update now v).is_gauge_ = c.is_gauge_ ∧
      (c.update now v).update_multiple_ = c.update_multiple_ ∧
      (c.update now v).v.step_millis_ = c.v.step_millis_ ∧
      (c.update now v).v.init_ = c.v.init_ := by
    unfold ConsolidatedValue.update StepNumber.UpdateCurrentMax StepNumber.Add
    split_ifs <;> simp
  obtain ⟨hgauge, hmultiple, hstep, hinit⟩ := hkeep
  refine ⟨⟨hgauge.trans h.is_gauge, hmultiple.trans h.multiple, hstep.trans h.step,
    hinit.trans h.init, hroller ▸ htracks⟩, ?_⟩
  have hposition := congrArg Roller.pos hroller
  rw [Roller.record_pos, Roller.roll_pos] at hposition
  exact hposition

theorem reports (h : Holds op m R c log) (hm : 0 < m) (wall : ℤ)
    (hpos : c.v.last_init_pos_ ≤ wall.tdiv R) (hlog : ∀ e ∈ log, e.2.isnan = false) :
    (if c.has_value wall then some (c.value wall) else none) =
      op.reference m (bucket (wall.tdiv R - 1) log) := by
  have hpoll : c.v.Poll wall =
      (bucket (wall.tdiv R - 1) log).foldl (op.combine m) op.init := by
    rw [StepNumber.Poll_eq, h.init, h.step, h.tracks.previous_roll hpos, valueAt]
  have hvs : ∀ v ∈ bucket (wall.tdiv R - 1) log, v.isnan = false := by
    intro v hv
    exact hlog _ ((mem_bucket _ v log).mp hv)
  cases op with
  | Add =>
    have hgauge : c.is_gauge_ = false := h.is_gauge
    rw [AggrOp.foldl_combine_add hm, AggrOp.init, zero_add] at hpoll
    have hpositive := Double.zero_lt_divBy_iff (Int.cast_pos.mpr hm : (0 : ℚ) < m)
      (bucket (wall.tdiv R - 1) log).sum
    simp [ConsolidatedValue.has_value, ConsolidatedValue.value, hgauge, hpoll, hpositive,
      AggrOp.reference]
  | Max =>
    have hgauge : c.is_gauge_ = true := h.is_gauge
    have habove := AggrOp.lowest_lt_maximum_iff hvs
    have hpoll : c.v.Poll wall = AggrOp.maximum (bucket (wall.tdiv R - 1) log) := hpoll
    simp [ConsolidatedValue.has_value, ConsolidatedValue.value, hgauge, hpoll, AggrOp.reference,
      ConsolidatedValue.kMinValue, habove]

theorem report (h : Holds op m R c log) (wall : ℤ) {c' : ConsolidatedValue}
    (hc' : c.report wall = some c') :
    Holds op m R c' log ∧ c'.v.last_init_pos_ = max c.v.last_init_pos_ (wall.tdiv R) := by
  have hv : c'.v = c.v.RollCount wall ∧ c'.is_gauge_ = c.is_gauge_ ∧
      c'.update_multiple_ = c.update_multiple_ := by
    unfold ConsolidatedValue.report at hc'
    split_ifs at hc'
    · obtain rfl := Option.some.inj hc'
      exact ⟨rfl, rfl, rfl⟩
    · obtain rfl := Option.some.inj hc'
      exact ⟨rfl, rfl, rfl⟩
  obtain ⟨hv, hgauge, hmultiple⟩ := hv
  have hroller : c'.v.toRoller = c.v.toRoller.roll op.init (wall.tdiv R) := by
    rw [hv, StepNumber.toRoller_RollCount, h.init, h.step]
  constructor
  · refine ⟨hgauge.trans h.is_gauge, hmultiple.trans h.multiple, ?_, ?_,
      hroller ▸ h.tracks.roll (wall.tdiv R)⟩
    · rw [hv, StepNumber.RollCount_step_millis, h.step]
    · rw [hv, StepNumber.RollCount_init, h.init]
  · exact (congrArg Roller.pos hroller).trans (Roller.roll_pos _ _ _)

end Holds

/-- What the entry of an id, if there is one, holds; it has not passed step `b`. -/
structure EntryHolds (op : AggrOp) (m R : ℤ) (entry : Option ConsolidatedValue)
    (log : List (ℤ × Double)) (b : ℤ) : Prop where
  absent : entry = none → log = []
  present : ∀ c, entry = some c → Holds op m R c log
  position : ∀ c, entry = some c → c.v.last_init_pos_ ≤ b

namespace EntryHolds
variable {op : AggrOp} {m R b : ℤ} {entry : Option ConsolidatedValue} {log : List (ℤ × Double)}

theorem none (op : AggrOp) (m R b : ℤ) : EntryHolds op m R .none [] b :=
  ⟨fun _ => rfl, by simp, by simp⟩

theorem mono (h : EntryHolds op m R entry log b) {b' : ℤ} (hb : b ≤ b') :
    EntryHolds op m R entry log b' :=
  { h with position := fun c hc => le_trans (h.position c hc) hb }

/-- Once the first value is there, the entry stays in its step. -/
theorem record_present {c : ConsolidatedValue} (hholds : Holds op m R c log) {now : ℤ}
    (hpos : now.tdiv R ≤ c.v.last_init_pos_) (vs : List Double) :
    EntryHolds op m R
      (vs.foldl (ConsolidatedValue.record (decide (op = AggrOp.Max)) m R now) (some c))
      (log ++ vs.map (Prod.mk c.v.last_init_pos_)) c.v.last_init_pos_ := by
  induction vs generalizing c log with
  | nil =>
    rw [List.map_nil, List.append_nil]
    refine ⟨by simp, ?_, ?_⟩
    · intro c' hc'
      obtain rfl := Option.some.inj hc'
      exact hholds
    · intro c' hc'
      obtain rfl := Option.some.inj hc'
      exact le_rfl
  | cons v vs ih =>
    obtain ⟨hupdate, hpos'⟩ := hholds.update now v
    rw [max_eq_left hpos] at hupdate hpos'
    have hih := ih hupdate (hpos'.symm ▸ hpos)
    rw [hpos'] at hih
    rw [List.foldl_cons, List.map_cons, List.append_cons]
    exact hih

/-- Values are added to the entry, which is created when there is none. They go to the
step of the clock unless the entry has passed it. -/
theorem record_late (h : EntryHolds op m R entry log b) (now : ℤ) (vs : List Double) :
    ∃ q, now.tdiv R ≤ q ∧ q ≤ max b (now.tdiv R) ∧
      EntryHolds op m R
        (vs.foldl (ConsolidatedValue.record (decide (op = AggrOp.Max)) m R now) entry)
        (log ++ vs.map (Prod.mk q)) (max b (now.tdiv R)) := by
  cases vs with
  | nil =>
    refine ⟨now.tdiv R, le_rfl, le_max_right _ _, ?_⟩
    rw [List.map_nil, List.append_nil]
    exact h.mono (le_max_left _ _)
  | cons v vs =>
    have hcurrent : Holds op m R (entry.getD (.create (decide (op = AggrOp.Max)) m R now)) log ∧
        (entry.getD (.create (decide (op = AggrOp.Max)) m R now)).v.last_init_pos_ ≤
          max b (now.tdiv R) := by
      cases hentry : entry with
      | none =>
        rw [h.absent hentry]
        exact ⟨Holds.create op m R now, le_max_right _ _⟩
      | some c => exact ⟨h.present c hentry, le_trans (h.position c hentry) (le_max_left _ _)⟩
    obtain ⟨hholds, hpos⟩ := hcurrent
    obtain ⟨hupdate, hpos'⟩ := hholds.update now v
    have hle := max_le hpos (le_max_right b (now.tdiv R))
    refine ⟨_, le_max_right _ _, hle, ?_⟩
    have hfirst := record_present hupdate (hpos'.symm ▸ le_max_right _ _) vs
    rw [hpos'] at hfirst
    rw [List.foldl_cons, List.map_cons, List.append_cons]
    exact hfirst.mono hle

theorem record (h : EntryHolds op m R entry log b) {now j : ℤ} (hj : now.tdiv R = j)
    (hb : b ≤ j) (vs : List Double) :
    EntryHolds op m R
      (vs.foldl (ConsolidatedValue.record (decide (op = AggrOp.Max)) m R now) entry)
      (log ++ vs.map (Prod.mk j)) j := by
  obtain ⟨q, hq, hq', hrecord⟩ := h.record_late now vs
  rw [hj, max_eq_right hb] at hq' hrecord
  obtain rfl : q = j := le_antisymm hq' (hj ▸ hq)
  exact hrecord

theorem filter_measurements (h : EntryHolds op m R entry log b) (hm : 0 < m)
    {reg : ConsolidationRegistry} {id : Id} (hentry : reg.my_values.lookup id = entry)
    {wall j : ℤ} (hj : wall.tdiv R = j) (hb : b ≤ j) (hlog : ∀ e ∈ log, e.2.isnan = false)
    (timestamp : ℤ) :
    (reg.measurements wall timestamp).filter (·.id = id) =
      ((op.reference m (bucket (j - 1) log)).map (Measurement.mk id timestamp)).toList := by
  rw [ConsolidationRegistry.filter_measurements, hentry]
  cases hc : entry with
  | none =>
    rw [h.absent hc]
    simp [bucket, AggrOp.reference_nil]
  | some c =>
    have hposition : c.v.last_init_pos_ ≤ wall.tdiv R :=
      hj.symm ▸ le_trans (h.position c hc) hb
    have hreports := (h.present c hc).reports hm wall hposition hlog
    rw [hj] at hreports
    rw [← hreports]
    dsimp only
    by_cases hvalue : c.has_value wall = true
    · rw [if_pos hvalue, if_pos hvalue]
      rfl
    · rw [if_neg hvalue, if_neg hvalue]
      rfl

def Erased (op : AggrOp) (m : ℤ) (entry : Option ConsolidatedValue) (vs : List Double) : Prop :=
  (∃ c, entry = some c ∧ c.marked_ = true) ∧ op.reference m vs = .none

theorem report_eq (h : EntryHolds op m R entry log b) (hm : 0 < m) {wall j : ℤ}
    (hj : wall.tdiv R = j) (hb : b ≤ j) (hlog : ∀ e ∈ log, e.2.isnan = false) :
    entry.bind (·.report wall) = .none ↔
      entry = .none ∨ Erased op m entry (bucket (j - 1) log) := by
  cases hentry : entry with
  | none => simp
  | some c =>
    have hposition : c.v.last_init_pos_ ≤ j := le_trans (h.position c hentry) hb
    have hreports := (h.present c hentry).reports hm wall (hj.symm ▸ hposition) hlog
    rw [hj] at hreports
    rw [Erased, ← hreports]
    by_cases hvalue : c.has_value wall = true <;> by_cases hmarked : c.marked_ = true <;>
      simp [ConsolidatedValue.report, hvalue, hmarked]

theorem report (h : EntryHolds op m R entry log b) (hm : 0 < m) {wall j : ℤ}
    (hj : wall.tdiv R = j) (hb : b ≤ j) (hlog : ∀ e ∈ log, e.2.isnan = false)
    (hkeep : ¬ Erased op m entry (bucket (j - 1) log)) :
    EntryHolds op m R (entry.bind (·.report wall)) log j := by
  refine ⟨?_, ?_, ?_⟩
  · intro hnone
    exact h.absent (((h.report_eq hm hj hb hlog).mp hnone).resolve_right hkeep)
  · intro c' hc'
    obtain ⟨c, hc, hreport⟩ := Option.bind_eq_some_iff.mp hc'
    exact ((h.present c hc).report wall hreport).1
  · intro c' hc'
    obtain ⟨c, hc, hreport⟩ := Option.bind_eq_some_iff.mp hc'
    rw [((h.present c hc).report wall hreport).2, hj]
    exact max_le (le_trans (h.position c hc) hb) le_rfl

end EntryHolds

end AtlasNative
