import Mathlib.Algebra.BigOperators.Group.Finset.Piecewise
import Mathlib.Algebra.Order.Group.Multiset
import Mathlib.Data.Fintype.Defs
import Mathlib.Data.List.Induction
import Mathlib.Tactic.Abel

/-!
# Threads that take turns over a shared memory

Each thread is inside a piece of code, its local state. A turn lets one thread do its
next indivisible action; which thread that is, is left to the schedule. An invariant of
the memory and an assertion about each thread hold over every schedule once one action
keeps the invariant, leaves its own thread with the assertion and disturbs no other.
-/

namespace Interleavings

set_option autoImplicit false

universe u v w x y
variable {E : Type y}

section Runs
variable {S : Type v} {A : Type w}

/-- Steps that may be impossible, one after the other, with the events of all of them. -/
def runBy (step : S → A → Option (S × List E)) (s : S) (schedule : List A) : Option (S × List E) :=
  schedule.foldlM (fun r a => (step r.1 a).map fun q => (q.1, r.2 ++ q.2)) (s, [])

/-- Only the steps that a discipline allows. -/
def guarded (ok : S → A → Bool) (step : S → A → Option (S × List E)) (s : S) (a : A) :
    Option (S × List E) :=
  if ok s a then step s a else none

variable {step : S → A → Option (S × List E)} {s s' : S} {schedule : List A} {events : List E}

theorem runBy_nil : runBy step s [] = some (s', events) ↔ s' = s ∧ events = [] := by
  rw [runBy, List.foldlM_nil, Option.pure_def, Option.some.injEq, Prod.mk.injEq, eq_comm,
    eq_comm (a := [])]

theorem runBy_concat {a : A} :
    runBy step s (schedule ++ [a]) = some (s', events) ↔
      ∃ s₁ before es, runBy step s schedule = some (s₁, before) ∧ step s₁ a = some (s', es) ∧
        events = before ++ es := by
  rw [runBy, List.foldlM_append, Option.bind_eq_bind, Option.bind_eq_some_iff]
  simp only [List.foldlM_cons, List.foldlM_nil, Option.bind_eq_bind, Option.pure_def,
    Option.bind_fun_some, Option.map_eq_some_iff]
  constructor
  · intro hrun
    rcases hrun with ⟨r, hbefore, q, hstep, hq⟩
    cases hq
    exact ⟨r.1, r.2, q.2, hbefore, hstep, rfl⟩
  · intro hrun
    rcases hrun with ⟨s₁, before, es, hbefore, hstep, rfl⟩
    exact ⟨(s₁, before), hbefore, (s', es), hstep, rfl⟩

/-- What every step of a run keeps, with the schedule and the events so far at hand. -/
theorem runBy_induction {P : List A → S → List E → Prop} (hstart : P [] s [])
    (hstep : ∀ done a s₁ before s₂ es, runBy step s done = some (s₁, before) →
      P done s₁ before → step s₁ a = some (s₂, es) → P (done ++ [a]) s₂ (before ++ es))
    (hrun : runBy step s schedule = some (s', events)) : P schedule s' events := by
  induction schedule using List.reverseRecOn generalizing s' events with
  | nil =>
    obtain ⟨rfl, rfl⟩ := runBy_nil.mp hrun
    exact hstart
  | append_singleton done a ih =>
    obtain ⟨s₁, before, es, hbefore, hlast, rfl⟩ := runBy_concat.mp hrun
    exact hstep done a s₁ before s' es hbefore (ih hbefore) hlast

/-- The same steps; of their events only whether they bear a mark. -/
def marking (mark : S → A → Bool) (step : S → A → Option (S × List E)) (s : S) (a : A) :
    Option (S × List Unit) :=
  (step s a).map fun r => (r.1, if mark s a then [()] else [])

/-- A measure that every allowed step keeps or lowers, and every marked one lowers, bounds
the number of marked steps. -/
theorem length_marks_le {mark : S → A → Bool} {ok : A → Prop} {I : ℕ → S → Prop} {n : ℕ}
    {marks : List Unit} (hs : I n s) (hok : ∀ a ∈ schedule, ok a)
    (hstep : ∀ n s a s' es, I n s → ok a → step s a = some (s', es) →
      ∃ n', I n' s' ∧ n' + (if mark s a then 1 else 0) ≤ n)
    (hrun : runBy (marking mark step) s schedule = some (s', marks)) : marks.length ≤ n := by
  have hbound : (∀ a ∈ schedule, ok a) → ∃ n', I n' s' ∧ n' + marks.length ≤ n := by
    refine runBy_induction (P := fun schedule s' marks => (∀ a ∈ schedule, ok a) →
      ∃ n', I n' s' ∧ n' + marks.length ≤ n) (fun _ => ⟨n, hs, le_rfl⟩) ?_ hrun
    intro done a s₁ before s₂ es _ ih hmark hok
    obtain ⟨n₁, hs₁, hle⟩ := ih fun a ha => hok a (List.mem_append_left _ ha)
    obtain ⟨r, hr, heq⟩ := Option.map_eq_some_iff.mp hmark
    cases heq
    obtain ⟨n₂, hs₂, hle₂⟩ := hstep n₁ s₁ a r.1 r.2 hs₁
      (hok a (List.mem_append_right _ (List.mem_singleton_self a))) hr
    refine ⟨n₂, hs₂, ?_⟩
    rw [List.length_append]
    split at hle₂
    · rename_i hm
      rw [if_pos hm, List.length_singleton]
      omega
    · rename_i hm
      rw [if_neg hm, List.length_nil]
      omega
  obtain ⟨n', _, hle⟩ := hbound hok
  omega

theorem guarded_eq_some {ok : S → A → Bool} {a : A} {es : List E} :
    guarded ok step s a = some (s', es) ↔ ok s a ∧ step s a = some (s', es) := by
  rw [guarded, Option.ite_none_right_eq_some]

theorem runBy_of_guarded {ok : S → A → Bool}
    (hrun : runBy (guarded ok step) s schedule = some (s', events)) :
    runBy step s schedule = some (s', events) := by
  refine runBy_induction (P := fun schedule s' events => runBy step s schedule = some (s', events))
    rfl ?_ hrun
  intro done a s₁ before s₂ es _ hbefore hstep
  exact runBy_concat.mpr ⟨s₁, before, es, hbefore, (guarded_eq_some.mp hstep).2, rfl⟩

end Runs

variable {ι : Type u} [DecidableEq ι] {M : Type v} {L : Type w} {C : Type x}

structure State (ι : Type u) (M : Type v) (L : Type w) where
  memory : M
  thread : ι → L

/-- What one action of a thread does to the memory and to its own local state, and the
events that it is seen by; `none` when the thread cannot act like that. -/
abbrev Advance (M : Type v) (L : Type w) (C : Type x) (E : Type y) :=
  M → L → C → Option (M × L × List E)

variable (advance : Advance M L C E)

def turn (s : State ι M L) (t : ι × C) : Option (State ι M L × List E) :=
  (advance s.memory (s.thread t.1) t.2).map fun r =>
    (⟨r.1, Function.update s.thread t.1 r.2.1⟩, r.2.2)

abbrev run (s : State ι M L) (schedule : List (ι × C)) : Option (State ι M L × List E) :=
  runBy (turn advance) s schedule

variable {advance}

theorem turn_eq_some {s s' : State ι M L} {t : ι × C} {es : List E} :
    turn advance s t = some (s', es) ↔
      ∃ m l, advance s.memory (s.thread t.1) t.2 = some (m, l, es) ∧
        s' = ⟨m, Function.update s.thread t.1 l⟩ := by
  rw [turn, Option.map_eq_some_iff]
  constructor
  · intro hturn
    rcases hturn with ⟨r, hadvance, hr⟩
    cases hr
    exact ⟨r.1, r.2.1, hadvance, rfl⟩
  · intro hturn
    rcases hturn with ⟨m, l, hadvance, rfl⟩
    exact ⟨(m, l, es), hadvance, rfl⟩

/-- The rule for invariants: `I` is about the memory, `J` about one thread. -/
theorem run_invariant {I : M → List E → Prop} {J : M → List E → L → Prop}
    {s s' : State ι M L} {schedule : List (ι × C)} {events : List E}
    (hI : I s.memory []) (hJ : ∀ i, J s.memory [] (s.thread i))
    (hown : ∀ m before l c m' l' es, I m before → J m before l →
      advance m l c = some (m', l', es) → I m' (before ++ es) ∧ J m' (before ++ es) l')
    (hother : ∀ m before l c m' l' es k, I m before → J m before l → J m before k →
      advance m l c = some (m', l', es) → J m' (before ++ es) k)
    (hrun : run advance s schedule = some (s', events)) :
    I s'.memory events ∧ ∀ i, J s'.memory events (s'.thread i) := by
  refine runBy_induction (P := fun _ s events => I s.memory events ∧
    ∀ i, J s.memory events (s.thread i)) ⟨hI, hJ⟩ ?_ hrun
  intro done t s₁ before s₂ es _ hinv hturn
  obtain ⟨m, l, hadvance, rfl⟩ := turn_eq_some.mp hturn
  obtain ⟨hI', hJ'⟩ := hown _ _ _ _ _ _ _ hinv.1 (hinv.2 t.1) hadvance
  refine ⟨hI', fun i => ?_⟩
  dsimp only
  by_cases hi : i = t.1
  · rw [hi, Function.update_self]
    exact hJ'
  · rw [Function.update_of_ne hi]
    exact hother _ _ _ _ _ _ _ _ hinv.1 (hinv.2 t.1) (hinv.2 i) hadvance

/-- The rule for accounts: what calls and events bring in is owed by a thread until an
event takes it out. `J` is what holds of a thread in all runs. -/
theorem run_ledger [Fintype ι] {G : Type*} [AddCommMonoid G] (J : M → List E → L → Prop)
    (owed : L → G) (given : C → G) (inn out : E → G) {s s' : State ι M L}
    {schedule : List (ι × C)} {events : List E}
    (hJ : ∀ done s₁ before, run advance s done = some (s₁, before) →
      ∀ i, J s₁.memory before (s₁.thread i))
    (hadvance : ∀ m before l c m' l' es, J m before l → advance m l c = some (m', l', es) →
      owed l' + (es.map out).sum = owed l + (es.map inn).sum + given c)
    (hrun : run advance s schedule = some (s', events)) :
    ∑ i, owed (s'.thread i) + (events.map out).sum =
      ∑ i, owed (s.thread i) + (events.map inn).sum + (schedule.map fun t => given t.2).sum := by
  refine runBy_induction (P := fun schedule s₁ events =>
    ∑ i, owed (s₁.thread i) + (events.map out).sum =
      ∑ i, owed (s.thread i) + (events.map inn).sum + (schedule.map fun t => given t.2).sum)
    (by simp) ?_ hrun
  intro done t s₁ before s₂ es hbefore ih hturn
  obtain ⟨m, l, hadv, rfl⟩ := turn_eq_some.mp hturn
  -- only the account of the thread whose turn it is moves
  have hothers : ∑ i, owed (Function.update s₁.thread t.1 l i) =
      owed l + ∑ i ∈ Finset.univ \ {t.1}, owed (s₁.thread i) := by
    rw [← Finset.sum_update_of_mem (Finset.mem_univ t.1)]
    refine Finset.sum_congr rfl fun i _ => ?_
    by_cases hi : i = t.1
    · subst hi
      rw [Function.update_self, Function.update_self]
    · rw [Function.update_of_ne hi, Function.update_of_ne hi]
  have hall : ∑ i, owed (s₁.thread i) =
      owed (s₁.thread t.1) + ∑ i ∈ Finset.univ \ {t.1}, owed (s₁.thread i) := by
    rw [← Finset.sum_update_of_mem (Finset.mem_univ t.1), Function.update_eq_self]
  have hown := hadvance _ _ _ _ _ _ _ (hJ done s₁ before hbefore t.1) hadv
  rw [List.map_append, List.sum_append, List.map_append, List.sum_append, List.map_append,
    List.sum_append, List.map_singleton, List.sum_singleton, hothers]
  calc owed l + ∑ i ∈ Finset.univ \ {t.1}, owed (s₁.thread i) +
        ((before.map out).sum + (es.map out).sum)
      = owed l + (es.map out).sum + (∑ i ∈ Finset.univ \ {t.1}, owed (s₁.thread i) +
        (before.map out).sum) := by abel
    _ = ∑ i, owed (s₁.thread i) + (before.map out).sum + ((es.map inn).sum + given t.2) := by
        rw [hown, hall]
        abel
    _ = ∑ i, owed (s.thread i) + ((before.map inn).sum + (es.map inn).sum) +
        ((done.map fun t => given t.2).sum + given t.2) := by
        rw [ih]
        abel

section Tally
variable {A : Type w}

def tally (g : E → Option A) (e : E) : Multiset A := (g e).elim 0 fun a => {a}

theorem sum_tally (g : E → Option A) (events : List E) :
    (events.map (tally g)).sum = (events.filterMap g : Multiset A) := by
  induction events with
  | nil => rfl
  | cons e events ih =>
    rw [List.map_cons, List.sum_cons, ih]
    cases h : g e with
    | none => rw [List.filterMap_cons_none h, tally, h, Option.elim_none, zero_add]
    | some a =>
      rw [List.filterMap_cons_some h, tally, h, Option.elim_some, Multiset.singleton_add,
        Multiset.cons_coe]

end Tally

end Interleavings
