import AtlasNative.Lib.TimedRuns
import AtlasNative.StepNumber

/-!
# Step numbers equal their reference

A step number is rolled by whichever operation comes first. After any run of operations
at non-decreasing times, its two slots hold the amounts recorded in the step of the
clock and in the step before, however many steps nobody touched it in.
-/

namespace AtlasNative

open Rolling TimedRuns
set_option autoImplicit false

universe u v
variable {T : Type u} {A : Type v}

/-- The step number has the amounts of `log`, each under its step; `f` combines them. -/
structure StepNumber.Follows (f : T → A → T) (init : T) (step : ℤ) (s : StepNumber T) (now : ℤ)
    (log : List (ℤ × A)) : Prop where
  step_millis : s.step_millis_ = step
  initial : s.init_ = init
  tracks : Tracks f init s.toRoller log
  position : s.last_init_pos_ ≤ now / step

namespace StepNumber.Follows
variable {f : T → A → T} {init : T} {step now t : ℤ} {s : StepNumber T} {log : List (ℤ × A)}

theorem create (f : T → A → T) (init : T) (step : ℤ) (h0 : 0 ≤ now) :
    (StepNumber.create init step now).Follows f init step now [] where
  step_millis := rfl
  initial := rfl
  tracks := Tracks.start _ _ _
  position := (Int.tdiv_eq_ediv_of_nonneg h0).le

theorem mono (hstep : 0 < step) (h : s.Follows f init step now log) (ht : now ≤ t) :
    s.Follows f init step t log :=
  { h with position := le_trans h.position (Int.ediv_le_ediv hstep ht) }

theorem RollCount (hstep : 0 < step) (h : s.Follows f init step now log) (h0 : 0 ≤ t)
    (ht : now ≤ t) : (s.RollCount t).Follows f init step t log := by
  have hpos : s.toRoller.pos ≤ t / step := (h.mono hstep ht).position
  have hroller : (s.RollCount t).toRoller = s.toRoller.roll init (t / step) := by
    rw [toRoller_RollCount, h.initial, h.step_millis, Int.tdiv_eq_ediv_of_nonneg h0]
  refine ⟨(RollCount_step_millis s t).trans h.step_millis, (RollCount_init s t).trans h.initial,
    hroller ▸ h.tracks.roll (t / step), ?_⟩
  rw [← toRoller_pos, hroller, Roller.roll_pos, max_eq_right hpos]

/-- An operation that rolls to the time `t` and combines one more amount. -/
theorem record (hstep : 0 < step) (h : s.Follows f init step now log) (h0 : 0 ≤ t) (ht : now ≤ t)
    {a : A} {s' : StepNumber T} (hkeep : s'.step_millis_ = s.step_millis_ ∧ s'.init_ = s.init_)
    (hs' : s'.toRoller = (s.toRoller.roll s.init_ (t.tdiv s.step_millis_)).record f a) :
    s'.Follows f init step t (log ++ [(t / step, a)]) := by
  have hpos : s.toRoller.pos ≤ t / step := (h.mono hstep ht).position
  rw [h.initial, h.step_millis, Int.tdiv_eq_ediv_of_nonneg h0] at hs'
  have htracks := h.tracks.roll_record (t / step) a
  rw [max_eq_right hpos] at htracks
  refine ⟨hkeep.1.trans h.step_millis, hkeep.2.trans h.initial, hs' ▸ htracks, ?_⟩
  rw [← toRoller_pos, hs', Roller.record_pos, Roller.roll_pos, max_eq_right hpos]

theorem Add [HAdd T T T] (hstep : 0 < step) (h : s.Follows f init step now log) (h0 : 0 ≤ t)
    (ht : now ≤ t) {a : A} {amount : T} (hf : ∀ x, f x a = x + amount) :
    (s.Add t amount).Follows f init step t (log ++ [(t / step, a)]) := by
  have hkeep : (s.Add t amount).step_millis_ = s.step_millis_ ∧
      (s.Add t amount).init_ = s.init_ := ⟨RollCount_step_millis s t, RollCount_init s t⟩
  apply h.record hstep h0 ht hkeep
  rw [toRoller_Add, Roller.record, Roller.record, hf]

theorem UpdateCurrentMax [LT T] [DecidableLT T] (hstep : 0 < step)
    (h : s.Follows f init step now log) (h0 : 0 ≤ t) (ht : now ≤ t) {a : A} {value : T}
    (hf : ∀ x, f x a = stdMax x value) :
    (s.UpdateCurrentMax t value).Follows f init step t (log ++ [(t / step, a)]) := by
  apply h.record hstep h0 ht
  · unfold StepNumber.UpdateCurrentMax
    split <;> exact ⟨RollCount_step_millis s t, RollCount_init s t⟩
  · rw [toRoller_UpdateCurrentMax_stdMax, Roller.record, Roller.record, hf]

theorem Poll (hstep : 0 < step) (h : s.Follows f init step now log) (h0 : 0 ≤ t) (ht : now ≤ t) :
    s.Poll t = valueAt f init log (t / step - 1) := by
  rw [Poll_eq, h.initial, h.step_millis, Int.tdiv_eq_ediv_of_nonneg h0,
    h.tracks.previous_roll (h.mono hstep ht).position]

theorem Current (hstep : 0 < step) (h : s.Follows f init step now log) (h0 : 0 ≤ t)
    (ht : now ≤ t) : s.Current t = valueAt f init log (t / step) := by
  have hpos : s.toRoller.pos ≤ t / step := (h.mono hstep ht).position
  have hroller : (s.RollCount t).toRoller = s.toRoller.roll init (t / step) := by
    rw [toRoller_RollCount, h.initial, h.step_millis, Int.tdiv_eq_ediv_of_nonneg h0]
  have hcurrent := (h.tracks.roll (t / step)).current
  rw [Roller.roll_pos, max_eq_right hpos, ← hroller] at hcurrent
  exact hcurrent

end StepNumber.Follows

inductive StepOp (T : Type u) where
  | Add (amount : T)
  | UpdateCurrentMax (value : T)
  | Poll
  | Current
  deriving DecidableEq

namespace StepOp
variable [HAdd T T T] [LT T] [DecidableLT T]

def apply (s : StepNumber T) (now : ℤ) : StepOp T → StepNumber T
  | Add amount => s.Add now amount
  | UpdateCurrentMax value => s.UpdateCurrentMax now value
  | Poll => s.RollCount now
  | Current => s.RollCount now

/-- What an operation makes of the value of its step. -/
def combine (acc : T) : StepOp T → T
  | Add amount => acc + amount
  | UpdateCurrentMax value => stdMax acc value
  | Poll => acc
  | Current => acc

end StepOp

namespace StepNumber

section Run
variable [HAdd T T T] [LT T] [DecidableLT T]

/-- The operations, each at its time, on a step number created at time `start`. -/
def run (init : T) (step start : ℤ) (events : List (ℤ × StepOp T)) : StepNumber T :=
  TimedRuns.run (fun s now op => op.apply s now) (.create init step start) events

/-- The initial value combined with the amounts recorded at the times of step `k`. -/
def reference (init : T) (step : ℤ) (events : List (ℤ × StepOp T)) (k : ℤ) : T :=
  (events.filter fun e => e.1 / step = k).foldl (fun acc e => e.2.combine acc) init

def stepLog (step : ℤ) (events : List (ℤ × StepOp T)) : List (ℤ × StepOp T) :=
  events.map fun e => (e.1 / step, e.2)

theorem valueAt_stepLog (init : T) (step : ℤ) (events : List (ℤ × StepOp T)) (k : ℤ) :
    valueAt StepOp.combine init (stepLog step events) k = reference init step events k := by
  rw [valueAt, Grouping.bucket, stepLog, List.filter_map, List.map_map, List.foldl_map]
  rfl

theorem Follows.apply {init : T} {step now t : ℤ} {s : StepNumber T} {log : List (ℤ × StepOp T)}
    (hstep : 0 < step) (h : s.Follows StepOp.combine init step now log) (h0 : 0 ≤ t)
    (ht : now ≤ t) (op : StepOp T) :
    (op.apply s t).Follows StepOp.combine init step t (log ++ [(t / step, op)]) := by
  -- an operation that records nothing leaves the value that it rolled to
  have hroll : ∀ op : StepOp T, (∀ x, op.combine x = x) →
      (s.RollCount t).Follows StepOp.combine init step t (log ++ [(t / step, op)]) := by
    intro op hop
    apply h.record hstep h0 ht ⟨RollCount_step_millis s t, RollCount_init s t⟩
    rw [toRoller_RollCount, Roller.record, hop]
  cases op with
  | Add amount => exact h.Add hstep h0 ht fun _ => rfl
  | UpdateCurrentMax value => exact h.UpdateCurrentMax hstep h0 ht fun _ => rfl
  | Poll => exact hroll .Poll fun _ => rfl
  | Current => exact hroll .Current fun _ => rfl

theorem follows_run {step start now : ℤ} (hstep : 0 < step) (h0 : 0 ≤ start) (init : T)
    {events : List (ℤ × StepOp T)} (hordered : Ordered start events now) :
    (run init step start events).Follows StepOp.combine init step now (stepLog step events) := by
  apply run_invariant (fun (s : StepNumber T) now (events : List (ℤ × StepOp T)) =>
      s.Follows StepOp.combine init step now (stepLog step events))
    (Follows.create _ init step h0) (fun s now t log h ht => h.mono hstep ht) ?_ hordered
  intro s t log op h ht
  rw [stepLog, List.map_append]
  exact h.apply hstep (le_trans h0 ht) le_rfl op

/-- A poll at time `t` gives what was recorded in the step before that of `t`, and the
current value what was recorded in the step of `t`. -/
theorem Poll_Current_run {step start t : ℤ} (hstep : 1 ≤ step) (h0 : 0 ≤ start) (init : T)
    (events : List (ℤ × StepOp T)) (hordered : Ordered start events t) :
    (run init step start events).Poll t = reference init step events (t / step - 1) ∧
      (run init step start events).Current t = reference init step events (t / step) := by
  have hpos : 0 < step := hstep
  have ht : 0 ≤ t := le_trans h0 hordered.start_le
  have hfollows := follows_run hpos h0 init hordered
  rw [hfollows.Poll hpos ht le_rfl, hfollows.Current hpos ht le_rfl, valueAt_stepLog,
    valueAt_stepLog]
  exact ⟨rfl, rfl⟩

end Run

theorem Poll_Current_run_gap :
    (run 0 10 5 [(5, .Add (3 : ℤ)), (19, .UpdateCurrentMax 7), (19, .Add 1)]).Poll 20 = 8 ∧
      (run 0 10 5 [(5, .Add (3 : ℤ)), (19, .UpdateCurrentMax 7), (19, .Add 1)]).Current 20 = 0 :=
  Poll_Current_run (by decide) (by decide) 0 _ (by decide)

end StepNumber

end AtlasNative
