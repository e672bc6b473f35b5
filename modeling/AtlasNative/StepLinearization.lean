import AtlasNative.StepThreads
import Mathlib.Data.Fintype.Basic

/-!
# Undisturbed rolls

A roll is two exchanges and a store. When nothing that shows happens to a step number
between them, every operation works as if it ran alone at the moment it lands or reads: what
is read for a step is what landed in that step.
-/

namespace AtlasNative

open Interleavings Rolling
set_option autoImplicit false

variable {T : Type}

namespace StepNumber

inductive Turn (T : Type) where
  | call (op : StepOp T)
  | act (now : ℤ) (spurious : Bool)
  deriving DecidableEq

def advance [HAdd T T T] [LT T] [DecidableLT T] [DecidableEq T] (cas_loop : Bool) :
    Advance (StepNumber T) (Option (StepPc T)) (Turn T) (StepEvent T)
  | s, none, .call op => some (s, some (.WallTime op), [])
  | s, some pc, .act now spurious =>
    let r := s.act cas_loop now spurious pc
    some (r.1, r.2.1.pc, r.2.2)
  | _, _, _ => none

end StepNumber

/-- The thread is between the two exchanges of a roll, or before its store. -/
def isRolling (l : Option (StepPc T)) : Bool := l.any StepPc.rolling

variable {ι : Type} [DecidableEq ι]

/-- A turn that shows is not taken while another thread rolls. -/
def undisturbed [HAdd T T T] [LT T] [DecidableLT T] [DecidableEq T] [Fintype ι] (cas_loop : Bool)
    (s : State ι (StepNumber T) (Option (StepPc T))) (t : ι × StepNumber.Turn T) : Bool :=
  (turn (StepNumber.advance cas_loop) s t).all fun r =>
    r.2.isEmpty || decide (∀ j, j ≠ t.1 → isRolling (s.thread j) = false)

def landings (events : List (StepEvent T)) : List (ℤ × StepOp T) :=
  events.filterMap fun e => match e with
    | .landed pos op => some (pos, op)
    | _ => none

theorem landings_append (es fs : List (StepEvent T)) :
    landings (es ++ fs) = landings es ++ landings fs :=
  List.filterMap_append

theorem isRolling_update {s : State ι (StepNumber T) (Option (StepPc T))} {i : ι} {l : Option (StepPc T)}
    (hothers : ∀ j, j ≠ i → isRolling (s.thread j) = false) (j : ι) :
    isRolling (Function.update s.thread i l j) = true → j = i ∧ isRolling l = true := by
  intro hj
  by_cases hji : j = i
  · subst hji
    rw [Function.update_self] at hj
    exact ⟨rfl, hj⟩
  · rw [Function.update_of_ne hji, hothers j hji] at hj
    cases hj

section Linear
variable [HAdd T T T] [LT T] [DecidableLT T]

/-- What an operation reads in step `pos` after the landings of `log`. -/
def answer (init : T) (log : List (ℤ × StepOp T)) (pos : ℤ) : StepOp T → T
  | .Poll => valueAt StepOp.combine init log (pos - 1)
  | _ => valueAt StepOp.combine init log pos

/-- Every value that was loaded answers for what had landed before. -/
def Answered (init : T) : List (ℤ × StepOp T) → List (StepEvent T) → Prop
  | _, [] => True
  | log, .loaded pos op v :: events => v = answer init log pos op ∧ Answered init log events
  | log, .landed pos op :: events => Answered init (log ++ [(pos, op)]) events
  | log, _ :: events => Answered init log events

/-- The step number as it will be when the roll of this thread is through. -/
def settled (s : StepNumber T) : StepPc T → Roller T
  | .exchange _ now last_init =>
    ⟨if last_init = now.tdiv s.step_millis_ - 1 then s.current_ else s.init_, s.init_,
      s.last_init_pos_⟩
  | .store _ previous => ⟨previous, s.current_, s.last_init_pos_⟩
  | _ => s.toRoller

/-- At most one thread rolls, and the step number with that roll done holds what landed. -/
structure Linear (init : T) (s : State ι (StepNumber T) (Option (StepPc T)))
    (events : List (StepEvent T)) : Prop where
  initial : s.memory.init_ = init
  sound : ∀ i, ∀ pc ∈ s.thread i, pc.Sound s.memory.step_millis_
  one : ∀ i j, isRolling (s.thread i) = true → isRolling (s.thread j) = true → i = j
  still : (∀ i, isRolling (s.thread i) = false) →
    Tracks StepOp.combine init s.memory.toRoller (landings events)
  rolling : ∀ i, ∀ pc ∈ s.thread i, pc.rolling = true →
    Tracks StepOp.combine init (settled s.memory pc) (landings events)
  answered : Answered init [] events

theorem answered_append (init : T) (log : List (ℤ × StepOp T)) (es fs : List (StepEvent T)) :
    Answered init log (es ++ fs) ↔
      Answered init log es ∧ Answered init (log ++ landings es) fs := by
  induction es generalizing log with
  | nil => simp [Answered, landings]
  | cons e es ih =>
    cases e with
    | loaded pos op v => simp [Answered, landings, ih, and_assoc]
    | landed pos op => simp [Answered, landings, ih]
    | won last_init step_time => simp [Answered, landings, ih]
    | took last_init step_time v => simp [Answered, landings, ih]

namespace Linear
variable {init : T} {s : State ι (StepNumber T) (Option (StepPc T))} {m : StepNumber T} {i : ι}
  {before es : List (StepEvent T)} {events : List (StepEvent T)}

theorem sound_update {l : Option (StepPc T)} {step_millis : ℤ}
    (h : ∀ k, ∀ pc ∈ s.thread k, pc.Sound step_millis) (hl : ∀ pc ∈ l, pc.Sound step_millis)
    (k : ι) : ∀ pc ∈ Function.update s.thread i l k, pc.Sound step_millis := by
  by_cases hk : k = i
  · subst hk
    rw [Function.update_self]
    exact hl
  · rw [Function.update_of_ne hk]
    exact h k

theorem of_still {l : Option (StepPc T)} (hinit : m.init_ = init)
    (hsound : ∀ k, ∀ pc ∈ Function.update s.thread i l k, pc.Sound m.step_millis_)
    (hothers : ∀ j, j ≠ i → isRolling (s.thread j) = false) (hl : isRolling l = false)
    (htracks : Tracks StepOp.combine init m.toRoller (landings events))
    (hanswered : Answered init [] events) :
    Linear init ⟨m, Function.update s.thread i l⟩ events where
  initial := hinit
  sound := hsound
  one j k hj _ := by
    rw [(isRolling_update hothers j hj).2] at hl
    cases hl
  still _ := htracks
  rolling j pc hpc hroll := by
    have hj : isRolling (Function.update s.thread i l j) = true := by
      have hthread : Function.update s.thread i l j = some pc := hpc
      rw [hthread]
      exact hroll
    rw [(isRolling_update hothers j hj).2] at hl
    cases hl
  answered := hanswered

theorem of_rolling {pc : StepPc T} (hinit : m.init_ = init)
    (hsound : ∀ k, ∀ pc' ∈ Function.update s.thread i (some pc) k, pc'.Sound m.step_millis_)
    (hothers : ∀ j, j ≠ i → isRolling (s.thread j) = false) (hpc : pc.rolling = true)
    (htracks : Tracks StepOp.combine init (settled m pc) (landings events))
    (hanswered : Answered init [] events) :
    Linear init ⟨m, Function.update s.thread i (some pc)⟩ events where
  initial := hinit
  sound := hsound
  one j k hj hk := by
    rw [(isRolling_update hothers j hj).1, (isRolling_update hothers k hk).1]
  still hnone := by
    have hi := hnone i
    dsimp only at hi
    rw [Function.update_self, isRolling, Option.any_some, hpc] at hi
    cases hi
  rolling j pc' hpc' hroll := by
    have hj : isRolling (Function.update s.thread i (some pc) j) = true := by
      have hthread : Function.update s.thread i (some pc) j = some pc' := hpc'
      rw [hthread]
      exact hroll
    have hthread : Function.update s.thread i (some pc) j = some pc' := hpc'
    rw [(isRolling_update hothers j hj).1, Function.update_self] at hthread
    rw [← Option.some.inj hthread]
    exact htracks
  answered := hanswered

theorem of_quiet (h : Linear init s before) {l : Option (StepPc T)}
    (hi : isRolling (s.thread i) = false) (hl : isRolling l = false)
    (hsound : ∀ pc ∈ l, pc.Sound s.memory.step_millis_) :
    Linear init ⟨s.memory, Function.update s.thread i l⟩ before where
  initial := h.initial
  sound := sound_update h.sound hsound
  one j k hj hk := by
    have hsame : ∀ j, isRolling (Function.update s.thread i l j) = isRolling (s.thread j) := by
      intro j
      by_cases hji : j = i
      · subst hji
        rw [Function.update_self, hl, hi]
      · rw [Function.update_of_ne hji]
    dsimp only at hj hk
    rw [hsame] at hj hk
    exact h.one j k hj hk
  still hnone := by
    apply h.still
    intro j
    by_cases hji : j = i
    · exact hji ▸ hi
    · have hj := hnone j
      dsimp only at hj
      rwa [Function.update_of_ne hji] at hj
  rolling j pc hpc hroll := by
    by_cases hji : j = i
    · subst hji
      dsimp only at hpc
      rw [Function.update_self] at hpc
      rw [Option.mem_def.mp hpc, isRolling, Option.any_some, hroll] at hl
      cases hl
    · dsimp only at hpc
      rw [Function.update_of_ne hji] at hpc
      exact h.rolling j pc hpc hroll
  answered := h.answered

/-- An action that shows is one that no other thread's roll is in the way of. -/
theorem act (h : Linear init s before) {pc : StepPc T} (hpc : s.thread i = some pc)
    {op : StepOp T} {next : StepNext T} (hacts : s.memory.Acts op pc m next es)
    (hnext : next.Sound s.memory.step_millis_)
    (hshow : es ≠ [] → ∀ j, j ≠ i → isRolling (s.thread j) = false) :
    Linear init ⟨m, Function.update s.thread i next.pc⟩ (before ++ es) := by
  have hrolls : isRolling (s.thread i) = pc.rolling := by rw [hpc, isRolling, Option.any_some]
  have hsound : ∀ k, ∀ pc' ∈ Function.update s.thread i next.pc k, pc'.Sound m.step_millis_ := by
    rw [hacts.consts.2]
    exact sound_update h.sound hnext.pc
  have hinit : m.init_ = init := hacts.consts.1.trans h.initial
  -- nobody rolls when this thread does not and the action shows
  have hstill : es ≠ [] → pc.rolling = false →
      Tracks StepOp.combine init s.memory.toRoller (landings before) := by
    intro hes hroll
    apply h.still
    intro j
    by_cases hj : j = i
    · rw [hj, hrolls, hroll]
    · exact hshow hes j hj
  cases hacts with
  | quiet hold hnew _ =>
    rw [List.append_nil]
    exact h.of_quiet (hrolls.trans hold) hnew hnext.pc
  | @won now last_init hlast hlt =>
    have hahead : s.memory.toRoller.pos < now.tdiv s.memory.step_millis_ := by
      rw [StepNumber.toRoller_pos, hlast]
      exact hlt
    have htracks := (hstill (List.cons_ne_nil _ _) rfl).roll (now.tdiv s.memory.step_millis_)
    rw [Roller.roll, if_pos hahead] at htracks
    refine of_rolling hinit hsound (hshow (List.cons_ne_nil _ _)) rfl ?_ ?_
    · rw [landings_append, show landings [StepEvent.won last_init _] = [] from rfl,
        List.append_nil, settled, ← hlast]
      dsimp only
      rw [h.initial]
      exact htracks
    · simpa [answered_append, Answered] using h.answered
  | @took now last_init hlt =>
    have htracks := h.rolling i _ hpc rfl
    refine of_rolling hinit hsound (hshow (List.cons_ne_nil _ _)) rfl ?_ ?_
    · rw [landings_append]
      simpa [landings, settled] using htracks
    · simpa [answered_append, Answered] using h.answered
  | @stored v =>
    have htracks := h.rolling i _ hpc rfl
    have hothers : ∀ j, j ≠ i → isRolling (s.thread j) = false := by
      intro j hj
      by_contra hroll
      exact hj (h.one j i (Bool.not_eq_false _ ▸ hroll) hrolls)
    rw [List.append_nil]
    exact of_still hinit hsound hothers rfl htracks h.answered
  | landed hroll =>
    have htracks := (hstill (List.cons_ne_nil _ _) hroll).record op
    refine of_still hinit hsound (hshow (List.cons_ne_nil _ _)) rfl ?_ ?_
    · rw [landings_append]
      exact htracks
    · simpa [answered_append, Answered] using h.answered
  | polled hop =>
    have htracks := hstill (List.cons_ne_nil _ _) rfl
    refine of_still hinit hsound (hshow (List.cons_ne_nil _ _)) rfl ?_ ?_
    · rw [landings_append]
      simpa [landings] using htracks
    · rw [answered_append]
      exact ⟨h.answered, htracks.previous, trivial⟩
  | read hop =>
    have htracks := hstill (List.cons_ne_nil _ _) rfl
    refine of_still hinit hsound (hshow (List.cons_ne_nil _ _)) rfl ?_ ?_
    · rw [landings_append]
      simpa [landings] using htracks
    · rw [answered_append]
      exact ⟨h.answered, htracks.current, trivial⟩

end Linear

theorem advance_cases [DecidableEq T] {cas_loop : Bool} {m m' : StepNumber T}
    {l l' : Option (StepPc T)} {t : StepNumber.Turn T} {es : List (StepEvent T)}
    (h : StepNumber.advance cas_loop m l t = some (m', l', es)) :
    (∃ op, t = .call op ∧ l = none ∧ m' = m ∧ l' = some (.WallTime op) ∧ es = []) ∨
      ∃ now spurious pc next, t = .act now spurious ∧ l = some pc ∧ l' = next.pc ∧
        m.act cas_loop now spurious pc = (m', next, es) := by
  cases l with
  | none =>
    cases t with
    | call op =>
      cases h
      exact .inl ⟨op, rfl, rfl, rfl, rfl, rfl⟩
    | act now spurious => cases h
  | some pc =>
    cases t with
    | call op => cases h
    | act now spurious =>
      cases h
      exact .inr ⟨now, spurious, pc, _, rfl, rfl, rfl, rfl⟩

variable [DecidableEq T] [Fintype ι] {cas_loop : Bool} {step_millis now : ℤ} {init : T}
  {s : State ι (StepNumber T) (Option (StepPc T))} {schedule : List (ι × StepNumber.Turn T)}
  {events : List (StepEvent T)}

theorem runBy_linear
    (hrun : runBy (guarded (undisturbed cas_loop) (turn (StepNumber.advance cas_loop)))
      ⟨.create init step_millis now, fun _ => none⟩ schedule = some (s, events)) :
    Linear init s events := by
  refine runBy_induction (P := fun _ s events => Linear init s events) ?_ ?_ hrun
  · exact {
      initial := rfl
      sound := fun _ _ h => nomatch h
      one := fun _ _ h => absurd h Bool.false_ne_true
      still := fun _ => Tracks.start _ _ _
      rolling := fun _ _ h => nomatch h
      answered := trivial }
  · intro done t s₁ before s₂ es _ h hstep
    obtain ⟨hok, hturn⟩ := guarded_eq_some.mp hstep
    rw [undisturbed, hturn, Option.all_some, Bool.or_eq_true, List.isEmpty_iff,
      decide_eq_true_iff] at hok
    have hshow : es ≠ [] → ∀ j, j ≠ t.1 → isRolling (s₁.thread j) = false := hok.resolve_left
    obtain ⟨m, l, hadv, rfl⟩ := turn_eq_some.mp hturn
    rcases advance_cases hadv with
      ⟨op, -, hidle, rfl, rfl, rfl⟩ | ⟨now, spurious, pc, next, -, hpc, rfl, hact⟩
    · rw [List.append_nil]
      exact h.of_quiet (by rw [hidle]; rfl) rfl fun pc hpc => Option.some.inj hpc ▸ trivial
    · obtain ⟨hacts, hnext⟩ := StepNumber.act_acts (h.sound t.1 pc hpc) hact
      exact h.act hpc hacts hnext hshow

/-- In every run whose rolls are undisturbed, what was read in some step was what had
landed in it, or in the step before for a poll; and the step number holds that whenever no
thread is in a roll. -/
theorem answered_of_undisturbed
    (hrun : runBy (guarded (undisturbed cas_loop) (turn (StepNumber.advance cas_loop)))
      ⟨.create init step_millis now, fun _ => none⟩ schedule = some (s, events)) :
    Answered init [] events ∧
      ((∀ i, isRolling (s.thread i) = false) →
        s.memory.current_ =
            valueAt StepOp.combine init (landings events) s.memory.last_init_pos_ ∧
          s.memory.previous_ =
            valueAt StepOp.combine init (landings events) (s.memory.last_init_pos_ - 1)) := by
  have hlinear := runBy_linear hrun
  refine ⟨hlinear.answered, fun hnone => ?_⟩
  have htracks := hlinear.still hnone
  exact ⟨htracks.current, htracks.previous⟩

end Linear

/-- A thread calls `Add` and reads the clock while another one rolls for its poll; the amount
lands behind that roll. -/
def besideRoll : List (Fin 2 × StepNumber.Turn ℤ) :=
  (0, .call (.Add 3)) :: List.replicate 3 (0, .act 5 false) ++
    (1, .call .Poll) :: List.replicate 3 (1, .act 12 false) ++
    (0, .call (.Add 4)) :: List.replicate 2 (0, .act 13 false) ++
    List.replicate 3 (1, .act 14 false) ++ [(0, .act 15 false)]

theorem answered_of_undisturbed_besideRoll :
    ∃ s events, runBy (guarded (undisturbed false) (turn (StepNumber.advance false)))
        ⟨.create 0 10 5, fun _ => none⟩ besideRoll = some (s, events) ∧
      Answered 0 [] events ∧ s.memory.current_ = 4 ∧ s.memory.previous_ = 3 := by
  refine ⟨_, _, rfl, ?_⟩
  have hrun : runBy (guarded (undisturbed false) (turn (StepNumber.advance false)))
      ⟨.create 0 10 5, fun _ => none⟩ besideRoll = some (_, _) := rfl
  have h := answered_of_undisturbed hrun
  exact ⟨h.1, h.2 (by decide +kernel)⟩

end AtlasNative
