import AtlasNative.Lib.ExactDouble
import AtlasNative.Lib.Rolling

/-!
# Step numbers

`StepNumber` keeps the value of the step that a clock is in and that of the step
before. Every operation rolls to the current step first; it is given the wall time of
the clock at that moment. The model refines the rollers of the library.
-/

namespace AtlasNative

open ExactDouble Rolling
set_option autoImplicit false

universe u

/-- `std::max(a, b)`: `b` only when it is strictly larger. -/
def stdMax {T : Type u} [LT T] [DecidableLT T] (a b : T) : T := if a < b then b else a

/-- `last_init_pos_` is an `std::atomic<T>` in the source, which holds the number of a step exactly
if `T` is `int64_t`, and below `2 ^ 53` if it is `double`. -/
structure StepNumber (T : Type u) where
  init_ : T
  step_millis_ : ℤ
  previous_ : T
  current_ : T
  last_init_pos_ : ℤ
  deriving DecidableEq

namespace StepNumber
variable {T : Type u}

/-- The constructor; `now` is the wall time of the clock. -/
def create (init : T) (step_millis now : ℤ) : StepNumber T :=
  ⟨init, step_millis, init, init, now.tdiv step_millis⟩

def RollCount (s : StepNumber T) (now : ℤ) : StepNumber T :=
  let step_time := now.tdiv s.step_millis_
  if s.last_init_pos_ < step_time then
    { s with
      current_ := s.init_
      previous_ := if s.last_init_pos_ = step_time - 1 then s.current_ else s.init_
      last_init_pos_ := step_time }
  else s

/-- The value for the last completed interval, once `RollCount` has run. -/
def Poll (s : StepNumber T) (now : ℤ) : T := (s.RollCount now).previous_

/-- The value for the current interval, once `RollCount` has run. -/
def Current (s : StepNumber T) (now : ℤ) : T := (s.RollCount now).current_

def Add [HAdd T T T] (s : StepNumber T) (now : ℤ) (amount : T) : StepNumber T :=
  { s.RollCount now with current_ := s.Current now + amount }

/-- The current bucket becomes `max(current, value)`. -/
def UpdateCurrentMax [LT T] [DecidableLT T] (s : StepNumber T) (now : ℤ) (value : T) :
    StepNumber T :=
  if s.Current now < value then { s.RollCount now with current_ := value }
  else s.RollCount now

def toRoller (s : StepNumber T) : Roller T := ⟨s.previous_, s.current_, s.last_init_pos_⟩

@[simp] theorem toRoller_pos (s : StepNumber T) : s.toRoller.pos = s.last_init_pos_ := rfl

@[simp] theorem RollCount_init (s : StepNumber T) (now : ℤ) :
    (s.RollCount now).init_ = s.init_ := by
  dsimp only [RollCount]
  split <;> rfl

@[simp] theorem RollCount_step_millis (s : StepNumber T) (now : ℤ) :
    (s.RollCount now).step_millis_ = s.step_millis_ := by
  dsimp only [RollCount]
  split <;> rfl

theorem toRoller_RollCount (s : StepNumber T) (now : ℤ) :
    (s.RollCount now).toRoller = s.toRoller.roll s.init_ (now.tdiv s.step_millis_) := by
  dsimp only [RollCount, Roller.roll, toRoller]
  split <;> rfl

theorem toRoller_Add [HAdd T T T] (s : StepNumber T) (now : ℤ) (amount : T) :
    (s.Add now amount).toRoller =
      (s.toRoller.roll s.init_ (now.tdiv s.step_millis_)).record (· + ·) amount := by
  rw [← toRoller_RollCount]
  rfl

theorem toRoller_UpdateCurrentMax_stdMax [LT T] [DecidableLT T] (s : StepNumber T) (now : ℤ)
    (value : T) :
    (s.UpdateCurrentMax now value).toRoller =
      (s.toRoller.roll s.init_ (now.tdiv s.step_millis_)).record stdMax value := by
  rw [← toRoller_RollCount]
  by_cases h : s.Current now < value
  · rw [UpdateCurrentMax, if_pos h, Roller.record, stdMax]
    rw [if_pos (show (s.RollCount now).toRoller.current < value from h)]
    rfl
  · rw [UpdateCurrentMax, if_neg h, Roller.record, stdMax]
    rw [if_neg (show ¬ (s.RollCount now).toRoller.current < value from h)]

theorem toRoller_UpdateCurrentMax (s : StepNumber Double) (now : ℤ) (value : Double) :
    (s.UpdateCurrentMax now value).toRoller =
      (s.toRoller.roll s.init_ (now.tdiv s.step_millis_)).record Double.stdMax value :=
  toRoller_UpdateCurrentMax_stdMax s now value

theorem Poll_eq (s : StepNumber T) (now : ℤ) :
    s.Poll now = (s.toRoller.roll s.init_ (now.tdiv s.step_millis_)).previous := by
  rw [← toRoller_RollCount]
  rfl

end StepNumber

end AtlasNative
