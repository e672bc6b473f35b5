import AtlasNative.Machine
import AtlasNative.Meters
import Mathlib.Algebra.Order.BigOperators.Group.List

/-!
# Long tasks under a wrapped clock

A wrapped clock shows the times of another clock, both moved forward by an offset. The
offset is in milliseconds, and what it adds to the monotonic time is computed in an `int`:
the two times move together as long as that product carries over the same number of times.
-/

namespace AtlasNative

set_option autoImplicit false

/-- What a clock shows: milliseconds, and nanoseconds. -/
structure Clock where
  WallTime : ℤ
  MonotonicTime : ℤ

/-- A clock whose times go on. -/
def Clock.advance (c : Clock) (millis nanos : ℕ) : Clock :=
  ⟨c.WallTime + millis, c.MonotonicTime + nanos⟩

structure WrappedClock where
  underlying_ : Clock
  offset_ : ℤ

namespace WrappedClock

def create (clock : Clock) : WrappedClock := ⟨clock, 0⟩

def SetOffset (c : WrappedClock) (offset : ℤ) : WrappedClock := { c with offset_ := offset }

def WallTime (c : WrappedClock) : ℤ := c.underlying_.WallTime + c.offset_

/-- The product is an `int`, as both factors are. -/
def MonotonicTime (c : WrappedClock) : ℤ :=
  c.underlying_.MonotonicTime + wrap 32 (c.offset_ * 1000000)

/-- How often the nanoseconds of an offset go around in 32 bits. -/
def carry (offset : ℤ) : ℤ := (1000000 * offset + 2 ^ 31) / 2 ^ 32

theorem wrap_offset (offset : ℤ) :
    wrap 32 (offset * 1000000) = 1000000 * offset - 2 ^ 32 * carry offset := by
  simp only [wrap, carry, Int.bmod, Nat.cast_pow, Nat.cast_ofNat]
  split <;> omega

theorem MonotonicTime_eq (c : WrappedClock) :
    c.MonotonicTime =
      c.underlying_.MonotonicTime + 1000000 * c.offset_ - 2 ^ 32 * carry c.offset_ := by
  rw [MonotonicTime, wrap_offset]
  omega

/-- The two views agree on how far the clock was moved exactly when the carry is the same. -/
theorem views_agree_iff (c c' : WrappedClock) :
    c'.MonotonicTime - c'.underlying_.MonotonicTime -
        (c.MonotonicTime - c.underlying_.MonotonicTime) =
      1000000 * (c'.WallTime - c'.underlying_.WallTime - (c.WallTime - c.underlying_.WallTime)) ↔
    carry c'.offset_ = carry c.offset_ := by
  rw [MonotonicTime_eq, MonotonicTime_eq]
  unfold WallTime
  omega

end WrappedClock

namespace DefaultLongTaskTimer

/-- The ids of the tasks were all handed out before. -/
def Numbered (t : DefaultLongTaskTimer) : Prop := ∀ task ∈ t.tasks_, task < t.next_

theorem create_Numbered (id : Id) : (create id).Numbered :=
  fun _ h => absurd h (AList.notMem_empty _)

theorem Numbered.next_notMem {t : DefaultLongTaskTimer} (h : t.Numbered) : t.next_ ∉ t.tasks_ :=
  fun hmem => lt_irrefl _ (h _ hmem)

theorem Numbered.Start {t : DefaultLongTaskTimer} (h : t.Numbered) (monotonic : ℤ) :
    (t.Start monotonic).1.Numbered := by
  intro task hmem
  change task < t.next_ + 1
  rcases (AList.mem_insert _).mp hmem with rfl | hold
  · omega
  · have := h task hold
    omega

theorem Numbered.Stop {t : DefaultLongTaskTimer} (h : t.Numbered) (monotonic task : ℤ) :
    (t.Stop monotonic task).1.Numbered := by
  unfold DefaultLongTaskTimer.Stop
  dsimp only
  split
  · exact fun other hmem => h other (AList.mem_erase.mp hmem).2
  · exact h

theorem exists_start_time {t : DefaultLongTaskTimer} {task : ℤ} (h : task ∈ t.tasks_) :
    ∃ start_time, t.tasks_.lookup task = some start_time :=
  Option.isSome_iff_exists.mp (AList.lookup_isSome.mpr h)

theorem DurationOf_of_mem {t : DefaultLongTaskTimer} {task : ℤ} (h : task ∈ t.tasks_)
    (now later : ℤ) : t.DurationOf later task = t.DurationOf now task + (later - now) := by
  obtain ⟨start_time, hlookup⟩ := exists_start_time h
  simp only [DurationOf, hlookup]
  omega

theorem Duration_le {t : DefaultLongTaskTimer} {now later : ℤ} (h : now ≤ later) :
    t.Duration now ≤ t.Duration later := by
  unfold Duration
  refine List.sum_le_sum fun value _ => ?_
  omega

theorem DurationOf_Start_of_mem {t : DefaultLongTaskTimer} (h : t.Numbered) {task : ℤ}
    (hmem : task ∈ t.tasks_) (now : ℤ) :
    (t.Start now).1.DurationOf now task = t.DurationOf now task := by
  have hne : task ≠ t.next_ := ne_of_lt (h task hmem)
  unfold DurationOf Start
  dsimp only
  rw [AList.lookup_insert_ne hne]

theorem Duration_Start {t : DefaultLongTaskTimer} (h : t.Numbered) (now : ℤ) :
    (t.Start now).1.Duration now = t.Duration now := by
  unfold Duration Start
  dsimp only
  rw [AList.entries_insert_of_notMem h.next_notMem, List.map_cons, List.sum_cons, sub_self,
    zero_add]

def running (t : DefaultLongTaskTimer) : Bool := !t.tasks_.entries.isEmpty

theorem exists_of_running {t : DefaultLongTaskTimer} (h : t.running) : ∃ task, task ∈ t.tasks_ := by
  unfold running at h
  cases hentries : t.tasks_.entries with
  | nil => simp [hentries] at h
  | cons value entries =>
    refine ⟨value.1, AList.mem_keys.mpr ?_⟩
    rw [AList.keys, hentries]
    exact List.mem_cons_self

theorem running_Start (t : DefaultLongTaskTimer) (monotonic : ℤ) :
    (t.Start monotonic).1.running := by
  simp [running, Start, AList.entries_insert]

end DefaultLongTaskTimer

/-- A timer and the clock that it reads. -/
structure LongTasks where
  clock_ : WrappedClock
  timer : DefaultLongTaskTimer

/-- What may happen while no task is stopped. -/
inductive LongTasksEvent where
  | Start
  | advance (millis nanos : ℕ)
  | SetOffset (offset : ℤ)

namespace LongTasks

open WrappedClock (carry MonotonicTime_eq)
open LongTasksEvent

def Duration (s : LongTasks) : ℤ := s.timer.Duration s.clock_.MonotonicTime

def DurationOf (s : LongTasks) (task : ℤ) : ℤ :=
  s.timer.DurationOf s.clock_.MonotonicTime task

def step (s : LongTasks) : LongTasksEvent → LongTasks
  | Start => { s with timer := (s.timer.Start s.clock_.MonotonicTime).1 }
  | advance millis nanos =>
    { s with clock_.underlying_ := s.clock_.underlying_.advance millis nanos }
  | SetOffset offset => { s with clock_ := s.clock_.SetOffset offset }

def run (s : LongTasks) (events : List LongTasksEvent) : LongTasks := events.foldl step s

/-- The offsets that are set do not decrease. -/
def OffsetsAscend : ℤ → List LongTasksEvent → Prop
  | _, [] => True
  | current, SetOffset offset :: events => current ≤ offset ∧ OffsetsAscend offset events
  | current, _ :: events => OffsetsAscend current events

/-- Once a task is running, all offsets have the carry of the one before. -/
def OneCarry : Bool → ℤ → List LongTasksEvent → Prop
  | _, _, [] => True
  | _, current, Start :: events => OneCarry true current events
  | running, current, advance _ _ :: events => OneCarry running current events
  | running, current, SetOffset offset :: events =>
    (running → carry offset = carry current) ∧ OneCarry running offset events

/-- Every task of `s` has grown in `s'` by the time that passed and by the offset, and all
tasks together are not shorter. -/
structure GrowsExactly (s s' : LongTasks) : Prop where
  tasks : ∀ task ∈ s.timer.tasks_, task ∈ s'.timer.tasks_ ∧
    s'.DurationOf task = s.DurationOf task +
      (s'.clock_.underlying_.MonotonicTime - s.clock_.underlying_.MonotonicTime) +
      1000000 * (s'.clock_.offset_ - s.clock_.offset_)
  total : s.Duration ≤ s'.Duration

/-- The growth between any two states of a run. -/
def NeverShrinks (s : LongTasks) (events : List LongTasksEvent) : Prop :=
  ∀ before between after, events = before ++ between ++ after →
    GrowsExactly (s.run before) (s.run (before ++ between))

theorem GrowsExactly.refl (s : LongTasks) : GrowsExactly s s where
  tasks task hmem := ⟨hmem, by omega⟩
  total := le_rfl

theorem GrowsExactly.trans {s s' s'' : LongTasks} (h : GrowsExactly s s')
    (h' : GrowsExactly s' s'') : GrowsExactly s s'' where
  tasks task hmem := by
    obtain ⟨hmem', hgrown⟩ := h.tasks task hmem
    obtain ⟨hmem'', hgrown'⟩ := h'.tasks task hmem'
    exact ⟨hmem'', by omega⟩
  total := h.total.trans h'.total

/-! What one step does. -/

theorem GrowsExactly.of_Start {s : LongTasks} (h : s.timer.Numbered) :
    GrowsExactly s (s.step Start) where
  tasks task hmem := by
    refine ⟨(AList.mem_insert _).mpr (Or.inr hmem), ?_⟩
    have hsame := DefaultLongTaskTimer.DurationOf_Start_of_mem h hmem s.clock_.MonotonicTime
    change (s.timer.Start s.clock_.MonotonicTime).1.DurationOf s.clock_.MonotonicTime task = _
    rw [hsame]
    change s.DurationOf task = s.DurationOf task + _ + _
    simp only [step]
    omega
  total := le_of_eq (DefaultLongTaskTimer.Duration_Start h s.clock_.MonotonicTime).symm

theorem GrowsExactly.of_clock {s : LongTasks} {clock : WrappedClock}
    (hmoved : clock.MonotonicTime = s.clock_.MonotonicTime +
      (clock.underlying_.MonotonicTime - s.clock_.underlying_.MonotonicTime) +
      1000000 * (clock.offset_ - s.clock_.offset_))
    (hle : s.clock_.MonotonicTime ≤ clock.MonotonicTime) :
    GrowsExactly s { s with clock_ := clock } where
  tasks task hmem := by
    refine ⟨hmem, ?_⟩
    have hgrown := DefaultLongTaskTimer.DurationOf_of_mem hmem s.clock_.MonotonicTime
      clock.MonotonicTime
    change s.timer.DurationOf clock.MonotonicTime task =
      s.timer.DurationOf s.clock_.MonotonicTime task +
        (clock.underlying_.MonotonicTime - s.clock_.underlying_.MonotonicTime) +
        1000000 * (clock.offset_ - s.clock_.offset_)
    omega
  total := DefaultLongTaskTimer.Duration_le hle

theorem GrowsExactly.of_advance (s : LongTasks) (millis nanos : ℕ) :
    GrowsExactly s (s.step (advance millis nanos)) := by
  apply GrowsExactly.of_clock <;> rw [MonotonicTime_eq, MonotonicTime_eq] <;>
    simp only [Clock.advance] <;> omega

theorem GrowsExactly.of_SetOffset {s : LongTasks} {offset : ℤ} (hle : s.clock_.offset_ ≤ offset)
    (hcarry : carry offset = carry s.clock_.offset_) :
    GrowsExactly s (s.step (SetOffset offset)) := by
  apply GrowsExactly.of_clock <;> rw [MonotonicTime_eq, MonotonicTime_eq] <;>
    simp only [WrappedClock.SetOffset, hcarry] <;> omega

theorem GrowsExactly.of_not_running {s : LongTasks} (h : ¬ s.timer.running) (offset : ℤ) :
    GrowsExactly s (s.step (SetOffset offset)) := by
  have hnil : s.timer.tasks_.entries = [] := by simpa [DefaultLongTaskTimer.running] using h
  constructor
  · intro task hmem
    rw [AList.mem_keys, AList.keys, hnil] at hmem
    exact absurd hmem List.not_mem_nil
  · simp [Duration, DefaultLongTaskTimer.Duration, step, hnil]

/-- The growth of a running task shows the carry. -/
theorem carry_eq_of_GrowsExactly {s : LongTasks} {offset : ℤ} (hrunning : s.timer.running)
    (h : GrowsExactly s (s.step (SetOffset offset))) : carry offset = carry s.clock_.offset_ := by
  obtain ⟨task, hmem⟩ := DefaultLongTaskTimer.exists_of_running hrunning
  have hexact := (h.tasks task hmem).2
  have hgrown := DefaultLongTaskTimer.DurationOf_of_mem hmem s.clock_.MonotonicTime
    (s.clock_.SetOffset offset).MonotonicTime
  rw [MonotonicTime_eq, MonotonicTime_eq] at hgrown
  simp only [DurationOf, step, MonotonicTime_eq] at hexact hgrown
  simp only [WrappedClock.SetOffset] at hexact hgrown
  omega

/-! Whole runs. -/

theorem step_Numbered {s : LongTasks} (h : s.timer.Numbered) (event : LongTasksEvent) :
    (s.step event).timer.Numbered := by
  cases event with
  | Start => exact h.Start s.clock_.MonotonicTime
  | advance millis nanos => exact h
  | SetOffset offset => exact h

theorem NeverShrinks.tail {s : LongTasks} {event : LongTasksEvent} {events : List LongTasksEvent}
    (h : s.NeverShrinks (event :: events)) : (s.step event).NeverShrinks events :=
  fun before between after heq => h (event :: before) between after (by rw [heq]; rfl)

theorem NeverShrinks.head {s : LongTasks} {event : LongTasksEvent} {events : List LongTasksEvent}
    (h : s.NeverShrinks (event :: events)) : GrowsExactly s (s.step event) :=
  h [] [event] events rfl

theorem NeverShrinks.nil (s : LongTasks) : s.NeverShrinks [] := by
  intro before between after heq
  have hnil := List.append_eq_nil_iff.mp heq.symm
  obtain ⟨rfl, rfl⟩ := List.append_eq_nil_iff.mp hnil.1
  exact GrowsExactly.refl s

theorem NeverShrinks.cons {s : LongTasks} {event : LongTasksEvent} {events : List LongTasksEvent}
    (hstep : GrowsExactly s (s.step event)) (h : (s.step event).NeverShrinks events) :
    s.NeverShrinks (event :: events) := by
  intro before between after heq
  cases before with
  | cons first before =>
    obtain ⟨rfl, hrest⟩ := List.cons.inj heq
    exact h before between after hrest
  | nil =>
    cases between with
    | nil => exact GrowsExactly.refl s
    | cons first between =>
      obtain ⟨rfl, hrest⟩ := List.cons.inj heq
      exact hstep.trans (h [] between after hrest)

theorem NeverShrinks_cons_iff {s : LongTasks} {event : LongTasksEvent}
    {events : List LongTasksEvent} :
    s.NeverShrinks (event :: events) ↔
      GrowsExactly s (s.step event) ∧ (s.step event).NeverShrinks events :=
  ⟨fun h => ⟨h.head, h.tail⟩, fun h => .cons h.1 h.2⟩

/-- A clock at the time 0 and a timer without tasks. -/
def start : LongTasks :=
  ⟨.create ⟨0, 0⟩, .create ⟨intern_str "loop", ∅⟩⟩

end LongTasks

end AtlasNative
