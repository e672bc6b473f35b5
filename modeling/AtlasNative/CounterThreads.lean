import AtlasNative.Meters
import AtlasNative.StepThreads
import Mathlib.Data.Fintype.Basic

/-!
# Counters shared by threads

`DefaultCounterNumber` adds to its step number, then to its total, then notes the time,
while other threads add, measure or count. No amount is lost or counted twice on the
way, whatever the schedule is.
-/

namespace AtlasNative

open ExactDouble MeterNumber Interleavings StepEvent
set_option autoImplicit false

inductive CounterCall (T : Type) where
  | Add (amount : T)
  | Measure
  | Count
  deriving DecidableEq

/-- The action that a thread inside a call does next. -/
inductive CounterPc (T : Type) where
  | Add (amount : T) (pc : StepPc T)
  | value (amount : T)
  | compare_exchange_weak (amount expected desired : T)
  | Updated
  | last_updated (now : ℤ)
  | Poll (pc : StepPc T)
  | WallTime (rate : Double)
  | Count
  deriving DecidableEq

inductive CounterEvent (T : Type) where
  | step_number (e : StepEvent T)
  /-- An amount was added to the total. -/
  | valued (amount : T)
  | counted (v : T)
  | measured (m : Measurement)
  deriving DecidableEq

inductive CounterTurn (T : Type) where
  | call (c : CounterCall T)
  | act (now : ℤ) (spurious : Bool)
  deriving DecidableEq

variable {T : Type}

def CounterCall.enter : CounterCall T → CounterPc T
  | Add amount => .Add amount (.WallTime (.Add amount))
  | Measure => .Poll (.WallTime .Poll)
  | Count => .Count

/-- The amount of a call of `Add`. -/
def CounterTurn.given [Zero T] : CounterTurn T → T
  | call (.Add amount) => amount
  | _ => 0

namespace DefaultCounterNumber
variable [AddCommMonoid T] [LT T] [DecidableLT T] [DecidableEq T] [MeterNumber T]

def act (cas_loop : Bool) (c : DefaultCounterNumber T) (now : ℤ) (spurious : Bool) :
    CounterPc T → DefaultCounterNumber T × Option (CounterPc T) × List (CounterEvent T)
  | .Add amount pc =>
    let r := c.step_number_.act cas_loop now spurious pc
    ({ c with step_number_ := r.1 },
      match r.2.1 with
      | .goto pc' => some (.Add amount pc')
      | .done _ => some (.value amount),
      r.2.2.map .step_number)
  | .value amount =>
    if cas_loop then (c, some (.compare_exchange_weak amount c.value_ (c.value_ + amount)), [])
    else ({ c with value_ := c.value_ + amount }, some .Updated, [.valued amount])
  | .compare_exchange_weak amount expected desired =>
    if c.value_ = expected ∧ spurious = false then
      ({ c with value_ := desired }, some .Updated, [.valued amount])
    else (c, some (.value amount), [])
  | .Updated => (c, some (.last_updated now), [])
  | .last_updated t => ({ c with last_updated_ := t }, none, [])
  | .Poll pc =>
    let r := c.step_number_.act cas_loop now spurious pc
    ({ c with step_number_ := r.1 },
      match r.2.1 with
      | .goto pc' => some (.Poll pc')
      | .done v => v.map fun v => .WallTime ((toDouble v).divBy (c.step_number_.step_millis_ / 1000)),
      r.2.2.map .step_number)
  | .WallTime rate =>
    (c, none, [.measured ⟨c.id_, start_step now c.step_number_.step_millis_, rate⟩])
  | .Count => (c, none, [.counted c.value_])

def advance (cas_loop : Bool) :
    Advance (DefaultCounterNumber T) (Option (CounterPc T)) (CounterTurn T) (CounterEvent T)
  | c, none, .call m => some (c, some m.enter, [])
  | c, some pc, .act now spurious => some (c.act cas_loop now spurious pc)
  | _, _, _ => none

end DefaultCounterNumber

namespace CounterEvent

def number : CounterEvent T → Option (StepEvent T)
  | step_number e => some e
  | _ => none

def amount : CounterEvent T → Option T
  | valued amount => some amount
  | _ => none

theorem filterMap_number (es : List (StepEvent T)) :
    (es.map step_number).filterMap number = es := by
  rw [List.filterMap_map]
  exact List.filterMap_some

theorem filterMap_amount (es : List (StepEvent T)) :
    (es.map step_number).filterMap amount = [] := by
  rw [List.filterMap_map]
  exact List.filterMap_eq_nil_iff.mpr fun _ _ => rfl

end CounterEvent

open CounterEvent

/-! ### What a thread still owes -/

section Amounts
variable [AddCommMonoid T]

/-- The amount that an operation of a step number brings in. -/
def StepOp.amount : StepOp T → T
  | Add amount => amount
  | _ => 0

theorem foldl_add (vs : List T) (x : T) : vs.foldl (· + ·) x = x + vs.sum := by
  induction vs generalizing x with
  | nil => exact (add_zero x).symm
  | cons v vs ih => rw [List.foldl_cons, ih, List.sum_cons, add_assoc]

namespace CounterPc

/-- The amount that is still to land in the step number. -/
def toLand : CounterPc T → T
  | Add amount _ => amount
  | _ => 0

/-- The amount that is still to be added to the total. -/
def toValue : CounterPc T → T
  | Add amount _ | value amount | compare_exchange_weak amount _ _ => amount
  | _ => 0

/-- The roll that has won and not taken its value yet. -/
def toTake (step_millis : ℤ) : CounterPc T → Multiset (ℤ × ℤ)
  | Add _ pc | Poll pc => pc.pending step_millis
  | _ => 0

end CounterPc

def StepEvent.landedAmount (e : StepEvent T) : T := (landing e).elim 0 StepOp.amount

def CounterEvent.landedAmount (e : CounterEvent T) : T := (number e).elim 0 StepEvent.landedAmount

def CounterEvent.valuedAmount (e : CounterEvent T) : T := (amount e).elim 0 id

theorem sum_landedAmount (events : List (CounterEvent T)) :
    (events.map CounterEvent.landedAmount).sum =
      (((events.filterMap number).filterMap landing).map StepOp.amount).sum := by
  induction events with
  | nil => rfl
  | cons e events ih =>
    rw [List.map_cons, List.sum_cons, ih]
    cases e with
    | step_number e => cases e <;> simp [List.filterMap_cons, number, landing,
        CounterEvent.landedAmount, StepEvent.landedAmount]
    | _ => simp [List.filterMap_cons, number, CounterEvent.landedAmount]

theorem sum_valuedAmount (events : List (CounterEvent T)) :
    (events.map CounterEvent.valuedAmount).sum = (events.filterMap amount).sum := by
  induction events with
  | nil => rfl
  | cons e events ih =>
    rw [List.map_cons, List.sum_cons, ih]
    cases e <;> simp [List.filterMap_cons, amount, CounterEvent.valuedAmount]

/-- What has landed when an operation of the step number returns. -/
def StepNext.returned (op : StepOp T) : StepNext T → T
  | goto _ => 0
  | done _ => op.amount

theorem sum_landedAmount_step_number (es : List (StepEvent T)) :
    ((es.map step_number).map CounterEvent.landedAmount).sum =
      (es.map StepEvent.landedAmount).sum := by
  rw [List.map_map]
  rfl

omit [AddCommMonoid T] in
theorem tally_step_number {A : Type} (g : StepEvent T → Option A) (es : List (StepEvent T)) :
    ((es.map step_number).map (tally fun e => (number e).bind g)).sum = (es.map (tally g)).sum := by
  rw [List.map_map]
  rfl

theorem sum_valuedAmount_step_number (es : List (StepEvent T)) :
    ((es.map step_number).map CounterEvent.valuedAmount).sum = 0 := by
  rw [sum_valuedAmount, filterMap_amount, List.sum_nil]

end Amounts

/-! ### What one action keeps -/

section Books
variable [AddCommMonoid T] [LT T] [DecidableLT T]

/-- Inside the operation `op` of the step number. -/
structure StepPc.Inside (op : StepOp T) (step_millis : ℤ) (events : List (CounterEvent T))
    (pc : StepPc T) : Prop where
  op_eq : pc.op = op
  sound : pc.Sound step_millis
  reports : pc.Reports 0 (events.filterMap number)

def CounterPc.Holds (c : DefaultCounterNumber T) (events : List (CounterEvent T)) :
    CounterPc T → Prop
  | Add amount pc => pc.Inside (.Add amount) c.step_number_.step_millis_ events
  | Poll pc => pc.Inside .Poll c.step_number_.step_millis_ events
  | compare_exchange_weak amount expected desired => desired = expected + amount
  | _ => True

def CounterPc.HoldsAt (c : DefaultCounterNumber T) (events : List (CounterEvent T))
    (l : Option (CounterPc T)) : Prop :=
  ∀ pc ∈ l, pc.Holds c events

namespace DefaultCounterNumber

/-- The counter's own account: its step number's, and its total. -/
structure Books (p : ℤ) (c : DefaultCounterNumber T) (events : List (CounterEvent T)) : Prop where
  initial : c.step_number_.init_ = 0
  number : c.step_number_.Accounts (· + ·) p (events.filterMap CounterEvent.number)
  landings : ∀ op ∈ (events.filterMap CounterEvent.number).filterMap landing,
    op = .Poll ∨ ∃ a, op = .Add a
  value : c.value_ = (events.filterMap amount).sum

variable {p : ℤ} {c c' : DefaultCounterNumber T} {before es : List (CounterEvent T)}

theorem combine_add_right {op : StepOp T} (hop : op = .Poll ∨ ∃ a, op = .Add a) (x y : T) :
    op.combine (x + y) = op.combine x + y := by
  rcases hop with rfl | ⟨a, rfl⟩
  · rfl
  · exact add_right_comm x y a

/-- An action inside an operation of the step number. -/
theorem Books.number_act [DecidableEq T] (h : c.Books p before) {op : StepOp T}
    (hop : op = .Poll ∨ ∃ a, op = .Add a) {pc : StepPc T}
    (hpc : pc.Inside op c.step_number_.step_millis_ before) {cas_loop : Bool} {now : ℤ}
    {spurious : Bool} {s' : StepNumber T} {next : StepNext T} {es : List (StepEvent T)}
    (hact : c.step_number_.act cas_loop now spurious pc = (s', next, es)) :
    { c with step_number_ := s' }.Books p (before ++ es.map CounterEvent.step_number) ∧
      s'.step_millis_ = c.step_number_.step_millis_ ∧
      ∀ pc', next = .goto pc' → pc'.Inside op c.step_number_.step_millis_
        (before ++ es.map CounterEvent.step_number) := by
  obtain ⟨hacts, hnext⟩ := StepNumber.act_acts hpc.sound hact
  rw [hpc.op_eq] at hacts
  obtain ⟨hinit, hstep⟩ := hacts.consts
  obtain ⟨haccounts, hreports⟩ := h.number.act (combine_add_right hop)
    (h.initial ▸ hpc.reports) hacts
  have hnumbers : (before ++ es.map CounterEvent.step_number).filterMap CounterEvent.number =
      before.filterMap CounterEvent.number ++ es := by
    rw [List.filterMap_append, filterMap_number]
  refine ⟨⟨hinit.trans h.initial, hnumbers ▸ haccounts, ?_, ?_⟩, hstep, ?_⟩
  · rw [hnumbers, List.filterMap_append]
    intro o ho
    rcases List.mem_append.mp ho with hbefore | hnow
    · exact h.landings o hbefore
    · exact hacts.landing_eq o hnow ▸ hop
  · rw [List.filterMap_append, filterMap_amount, List.append_nil]
    exact h.value
  · intro pc' hgoto
    subst hgoto
    refine ⟨hacts.op_eq, hnext, ?_⟩
    rw [hnumbers, ← h.initial, ← hinit]
    exact hreports

theorem holdsAt_none : CounterPc.HoldsAt c before none :=
  fun _ h => nomatch h

theorem holdsAt_some {pc : CounterPc T} (h : pc.Holds c before) :
    CounterPc.HoldsAt c before (some pc) :=
  fun _ hpc => Option.some.inj hpc ▸ h

theorem enter_holds (m : CounterCall T) : m.enter.Holds c before := by
  cases m with
  | Add amount => exact ⟨rfl, trivial, trivial⟩
  | Measure => exact ⟨rfl, trivial, trivial⟩
  | Count => trivial

/-- One action keeps the books, and leaves its thread with what it has to know. -/
theorem Books.act [DecidableEq T] [MeterNumber T] (h : c.Books p before) {cas_loop : Bool} {now : ℤ}
    {spurious : Bool}
    {pc : CounterPc T} (hpc : pc.Holds c before) {l' : Option (CounterPc T)}
    (hact : c.act cas_loop now spurious pc = (c', l', es)) :
    c'.Books p (before ++ es) ∧ CounterPc.HoldsAt c' (before ++ es) l' := by
  cases pc with
  | Add amount pc =>
    rw [DefaultCounterNumber.act] at hact
    rcases hnumber : c.step_number_.act cas_loop now spurious pc with ⟨s', next, es'⟩
    obtain ⟨hbooks, hstep, hinside⟩ := h.number_act (.inr ⟨amount, rfl⟩) hpc hnumber
    rw [hnumber] at hact
    cases hact
    refine ⟨hbooks, ?_⟩
    cases next with
    | goto pc' =>
      apply holdsAt_some
      dsimp only [CounterPc.Holds]
      rw [hstep]
      exact hinside pc' rfl
    | done v => exact holdsAt_some trivial
  | value amount =>
    rw [DefaultCounterNumber.act] at hact
    split at hact
    · cases hact
      rw [List.append_nil]
      exact ⟨h, holdsAt_some rfl⟩
    · cases hact
      refine ⟨⟨h.initial, ?_, ?_, ?_⟩, holdsAt_some trivial⟩
      · simpa [List.filterMap_cons, CounterEvent.number] using h.number
      · simpa [List.filterMap_cons, CounterEvent.number] using h.landings
      · simp [CounterEvent.amount, h.value]
  | compare_exchange_weak amount expected desired =>
    rw [DefaultCounterNumber.act] at hact
    split at hact
    · rename_i hseen
      cases hact
      refine ⟨⟨h.initial, ?_, ?_, ?_⟩, holdsAt_some trivial⟩
      · simpa [List.filterMap_cons, CounterEvent.number] using h.number
      · simpa [List.filterMap_cons, CounterEvent.number] using h.landings
      · have hdesired : desired = c.value_ + amount := hseen.1 ▸ hpc
        simp [CounterEvent.amount, hdesired, h.value]
    · cases hact
      rw [List.append_nil]
      exact ⟨h, holdsAt_some trivial⟩
  | Updated =>
    cases hact
    rw [List.append_nil]
    exact ⟨h, holdsAt_some trivial⟩
  | last_updated t =>
    cases hact
    rw [List.append_nil]
    exact ⟨⟨h.initial, h.number, h.landings, h.value⟩, holdsAt_none⟩
  | Poll pc =>
    rw [DefaultCounterNumber.act] at hact
    rcases hnumber : c.step_number_.act cas_loop now spurious pc with ⟨s', next, es'⟩
    obtain ⟨hbooks, hstep, hinside⟩ := h.number_act (.inl rfl) hpc hnumber
    rw [hnumber] at hact
    cases hact
    refine ⟨hbooks, ?_⟩
    cases next with
    | goto pc' =>
      apply holdsAt_some
      dsimp only [CounterPc.Holds]
      rw [hstep]
      exact hinside pc' rfl
    | done v =>
      cases v with
      | none => exact holdsAt_none
      | some v => exact holdsAt_some trivial
  | WallTime rate =>
    cases hact
    refine ⟨⟨h.initial, ?_, ?_, ?_⟩, holdsAt_none⟩
    · simpa [List.filterMap_cons, CounterEvent.number] using h.number
    · simpa [List.filterMap_cons, CounterEvent.number] using h.landings
    · simpa [List.filterMap_cons, CounterEvent.amount] using h.value
  | Count =>
    cases hact
    refine ⟨⟨h.initial, ?_, ?_, ?_⟩, holdsAt_none⟩
    · simpa [List.filterMap_cons, CounterEvent.number] using h.number
    · simpa [List.filterMap_cons, CounterEvent.number] using h.landings
    · simpa [List.filterMap_cons, CounterEvent.amount] using h.value

theorem act_step_millis [DecidableEq T] [MeterNumber T] {cas_loop : Bool} {now : ℤ}
    {spurious : Bool} {pc : CounterPc T} {l' : Option (CounterPc T)} (hpc : pc.Holds c before)
    (hact : c.act cas_loop now spurious pc = (c', l', es)) :
    c'.step_number_.step_millis_ = c.step_number_.step_millis_ := by
  have hnumber : ∀ op (pc : StepPc T), pc.Inside op c.step_number_.step_millis_ before →
      (c.step_number_.act cas_loop now spurious pc).1.step_millis_ = c.step_number_.step_millis_ :=
    fun op pc h => (StepNumber.act_acts h.sound rfl).1.consts.2
  cases pc with
  | Add amount pc =>
    cases hact
    exact hnumber _ _ hpc
  | Poll pc =>
    cases hact
    exact hnumber _ _ hpc
  | value amount =>
    rw [DefaultCounterNumber.act] at hact
    split at hact <;> cases hact <;> rfl
  | compare_exchange_weak amount expected desired =>
    rw [DefaultCounterNumber.act] at hact
    split at hact <;> cases hact <;> rfl
  | Updated | last_updated t | WallTime rate | Count =>
    cases hact
    rfl

/-- What a thread knows is not disturbed by the action of another one. -/
theorem holds_act {pc : CounterPc T} (hpc : pc.Holds c before)
    (hstep : c'.step_number_.step_millis_ = c.step_number_.step_millis_) :
    pc.Holds c' (before ++ es) := by
  have hinside : ∀ op (pc : StepPc T), pc.Inside op c.step_number_.step_millis_ before →
      pc.Inside op c'.step_number_.step_millis_ (before ++ es) := by
    intro op pc h
    refine ⟨h.op_eq, hstep ▸ h.sound, ?_⟩
    rw [List.filterMap_append]
    exact h.reports.append _
  cases pc with
  | Add amount pc => exact hinside _ _ hpc
  | Poll pc => exact hinside _ _ hpc
  | compare_exchange_weak amount expected desired => exact hpc
  | value amount | Updated | last_updated t | WallTime rate | Count => trivial

end DefaultCounterNumber

theorem StepOp.combine_eq_add {op : StepOp T} (hop : op = .Poll ∨ ∃ a, op = .Add a) (x : T) :
    op.combine x = x + op.amount := by
  rcases hop with rfl | ⟨a, rfl⟩
  · exact (add_zero x).symm
  · rfl

theorem foldl_combine_eq_add {ops : List (StepOp T)}
    (hops : ∀ op ∈ ops, op = .Poll ∨ ∃ a, op = .Add a) (x : T) :
    ops.foldl StepOp.combine x = x + (ops.map StepOp.amount).sum := by
  induction ops generalizing x with
  | nil => exact (add_zero x).symm
  | cons op ops ih =>
    have htail : ∀ o ∈ ops, o = .Poll ∨ ∃ a, o = .Add a :=
      fun o ho => hops o (List.mem_cons_of_mem op ho)
    rw [List.foldl_cons, ih htail, StepOp.combine_eq_add (hops op List.mem_cons_self),
      List.map_cons, List.sum_cons, add_assoc]

theorem StepNumber.Acts.landedAmount {s s' : StepNumber T} {op : StepOp T} {pc : StepPc T}
    {next : StepNext T} {es : List (StepEvent T)} (h : s.Acts op pc s' next es) :
    (es.map StepEvent.landedAmount).sum = next.returned op := by
  cases h with
  | quiet | stored => rfl
  | won | took | landed => exact add_zero _
  | polled hop | read hop =>
    rw [hop]
    exact add_zero _

namespace DefaultCounterNumber
variable [DecidableEq T] [MeterNumber T] {c c' : DefaultCounterNumber T}
  {before es : List (CounterEvent T)} {cas_loop : Bool} {now : ℤ} {spurious : Bool}
  {l l' : Option (CounterPc T)} {t : CounterTurn T} {pc : StepPc T}

/-- An action of `Add` inside its operation of the step number. -/
theorem act_Add {amount : T} (hpc : pc.Inside (.Add amount) c.step_number_.step_millis_ before)
    (hact : c.act cas_loop now spurious (.Add amount pc) = (c', l', es)) :
    ∃ next es', c.step_number_.Acts (.Add amount) pc c'.step_number_ next es' ∧
      es = es'.map CounterEvent.step_number ∧
      ((∃ pc', next = .goto pc' ∧ l' = some (.Add amount pc')) ∨
        (∃ v, next = .done v) ∧ l' = some (.value amount)) := by
  rw [DefaultCounterNumber.act] at hact
  rcases hnumber : c.step_number_.act cas_loop now spurious pc with ⟨s', next, es'⟩
  have hacts := (StepNumber.act_acts hpc.sound hnumber).1
  rw [hpc.op_eq] at hacts
  rw [hnumber] at hact
  cases hact
  refine ⟨next, es', hacts, rfl, ?_⟩
  cases next with
  | goto pc' => exact .inl ⟨pc', rfl, rfl⟩
  | done v => exact .inr ⟨⟨v, rfl⟩, rfl⟩

/-- An action of `Measure` inside its poll. -/
theorem act_Poll (hpc : pc.Inside .Poll c.step_number_.step_millis_ before)
    (hact : c.act cas_loop now spurious (.Poll pc) = (c', l', es)) :
    ∃ next es', c.step_number_.Acts .Poll pc c'.step_number_ next es' ∧
      es = es'.map CounterEvent.step_number ∧
      ((∃ pc', next = .goto pc' ∧ l' = some (.Poll pc')) ∨
        (∃ v, next = .done v) ∧ (l' = none ∨ ∃ rate, l' = some (.WallTime rate))) := by
  rw [DefaultCounterNumber.act] at hact
  rcases hnumber : c.step_number_.act cas_loop now spurious pc with ⟨s', next, es'⟩
  have hacts := (StepNumber.act_acts hpc.sound hnumber).1
  rw [hpc.op_eq] at hacts
  rw [hnumber] at hact
  cases hact
  refine ⟨next, es', hacts, rfl, ?_⟩
  cases next with
  | goto pc' => exact .inl ⟨pc', rfl, rfl⟩
  | done v =>
    refine .inr ⟨⟨v, rfl⟩, ?_⟩
    cases v with
    | none => exact .inl rfl
    | some v => exact .inr ⟨_, rfl⟩

theorem act_toLand {pc : CounterPc T} (hpc : pc.Holds c before)
    (hact : c.act cas_loop now spurious pc = (c', l', es)) :
    l'.elim 0 CounterPc.toLand + (es.map CounterEvent.landedAmount).sum = pc.toLand := by
  cases pc with
  | Add amount pc =>
    obtain ⟨next, es', hacts, rfl, hnext⟩ := act_Add hpc hact
    rw [sum_landedAmount_step_number, hacts.landedAmount]
    rcases hnext with ⟨pc', rfl, rfl⟩ | ⟨⟨v, rfl⟩, rfl⟩
    · exact add_zero _
    · exact zero_add _
  | Poll pc =>
    obtain ⟨next, es', hacts, rfl, hnext⟩ := act_Poll hpc hact
    rw [sum_landedAmount_step_number, hacts.landedAmount]
    rcases hnext with ⟨pc', rfl, rfl⟩ | ⟨⟨v, rfl⟩, rfl | ⟨rate, rfl⟩⟩ <;> exact add_zero _
  | value amount | compare_exchange_weak amount expected desired =>
    rw [DefaultCounterNumber.act] at hact
    split at hact <;> cases hact <;> simp [CounterPc.toLand, CounterEvent.landedAmount, number]
  | Updated | last_updated t | WallTime rate | Count =>
    cases hact
    simp [CounterPc.toLand, CounterEvent.landedAmount, number]

theorem act_toValue {pc : CounterPc T} (hpc : pc.Holds c before)
    (hact : c.act cas_loop now spurious pc = (c', l', es)) :
    l'.elim 0 CounterPc.toValue + (es.map CounterEvent.valuedAmount).sum = pc.toValue := by
  cases pc with
  | Add amount pc =>
    obtain ⟨next, es', hacts, rfl, hnext⟩ := act_Add hpc hact
    rw [sum_valuedAmount_step_number]
    rcases hnext with ⟨pc', rfl, rfl⟩ | ⟨⟨v, rfl⟩, rfl⟩ <;> exact add_zero _
  | Poll pc =>
    obtain ⟨next, es', hacts, rfl, hnext⟩ := act_Poll hpc hact
    rw [sum_valuedAmount_step_number]
    rcases hnext with ⟨pc', rfl, rfl⟩ | ⟨⟨v, rfl⟩, rfl | ⟨rate, rfl⟩⟩ <;> exact add_zero _
  | value amount | compare_exchange_weak amount expected desired =>
    rw [DefaultCounterNumber.act] at hact
    split at hact <;> cases hact <;> simp [CounterPc.toValue, CounterEvent.valuedAmount,
      CounterEvent.amount]
  | Updated | last_updated t | WallTime rate | Count =>
    cases hact
    simp [CounterPc.toValue, CounterEvent.valuedAmount, amount]

/-- The step at which a roll took the current value, and the one from which it came. -/
def tookSteps (e : CounterEvent T) : Option (ℤ × ℤ) := (number e).bind tookAt

def movedSteps (e : CounterEvent T) : Option (ℤ × ℤ) := (number e).bind moved

theorem act_toTake {pc : CounterPc T} (hpc : pc.Holds c before)
    (hact : c.act cas_loop now spurious pc = (c', l', es)) :
    l'.elim 0 (CounterPc.toTake c.step_number_.step_millis_) + (es.map (tally tookSteps)).sum =
      pc.toTake c.step_number_.step_millis_ + (es.map (tally movedSteps)).sum := by
  cases pc with
  | Add amount pc =>
    obtain ⟨next, es', hacts, rfl, hnext⟩ := act_Add hpc hact
    have hpending := hacts.pending
    rw [hacts.consts.2] at hpending
    unfold tookSteps movedSteps
    rw [tally_step_number, tally_step_number]
    rcases hnext with ⟨pc', rfl, rfl⟩ | ⟨⟨v, rfl⟩, rfl⟩ <;> exact hpending
  | Poll pc =>
    obtain ⟨next, es', hacts, rfl, hnext⟩ := act_Poll hpc hact
    have hpending := hacts.pending
    rw [hacts.consts.2] at hpending
    unfold tookSteps movedSteps
    rw [tally_step_number, tally_step_number]
    rcases hnext with ⟨pc', rfl, rfl⟩ | ⟨⟨v, rfl⟩, rfl | ⟨rate, rfl⟩⟩ <;> exact hpending
  | value amount | compare_exchange_weak amount expected desired =>
    rw [DefaultCounterNumber.act] at hact
    split at hact <;> cases hact <;> simp [CounterPc.toTake, tookSteps, movedSteps, number, tally]
  | Updated | last_updated t | WallTime rate | Count =>
    cases hact
    simp [CounterPc.toTake, tookSteps, movedSteps, number, tally]

/-- What holds of every thread, with the length of a step. -/
def Assertion (step_millis : ℤ) (c : DefaultCounterNumber T) (events : List (CounterEvent T))
    (l : Option (CounterPc T)) : Prop :=
  c.step_number_.step_millis_ = step_millis ∧ CounterPc.HoldsAt c events l

/-- A turn is a call of a thread that was idle, or an action of one that is in a call. -/
theorem advance_cases (h : advance cas_loop c l t = some (c', l', es)) :
    (∃ m, t = .call m ∧ l = none ∧ c' = c ∧ l' = some m.enter ∧ es = []) ∨
      ∃ now spurious pc, t = .act now spurious ∧ l = some pc ∧
        c.act cas_loop now spurious pc = (c', l', es) := by
  cases l with
  | none =>
    cases t with
    | call m =>
      cases h
      exact .inl ⟨m, rfl, rfl, rfl, rfl, rfl⟩
    | act now spurious => cases h
  | some pc =>
    cases t with
    | call m => cases h
    | act now spurious => exact .inr ⟨now, spurious, pc, rfl, rfl, Option.some.inj h⟩

section Runs
variable {ι : Type} [DecidableEq ι] {start freq_millis : ℤ} {id : Id}
  {schedule : List (ι × CounterTurn T)} {s : State ι (DefaultCounterNumber T) (Option (CounterPc T))}
  {events : List (CounterEvent T)}

/-- A counter before any thread has called it. -/
def fresh (ι : Type) (id : Id) (freq_millis start : ℤ) :
    State ι (DefaultCounterNumber T) (Option (CounterPc T)) :=
  ⟨create id freq_millis start, fun _ => none⟩

theorem run_books
    (hrun : run (advance cas_loop) (fresh ι id freq_millis start) schedule = some (s, events)) :
    s.memory.Books (start.tdiv freq_millis) events ∧
      ∀ i, Assertion freq_millis s.memory events (s.thread i) := by
  refine run_invariant (I := fun c events => c.Books (start.tdiv freq_millis) events)
    (J := Assertion freq_millis) ?_ (fun i => ⟨rfl, holdsAt_none⟩) ?_ ?_ hrun
  · refine ⟨rfl, ⟨add_zero _, add_zero _, rfl, rfl, .inl rfl, ?_⟩, ?_, rfl⟩
    · intro pos v hv
      cases hv
    · intro op hop
      cases hop
  · intro c before l t c' l' es hbooks hJ hadv
    rcases advance_cases hadv with ⟨m, rfl, rfl, rfl, rfl, rfl⟩ | ⟨now, spurious, pc, rfl, rfl, hact⟩
    · rw [List.append_nil]
      exact ⟨hbooks, hJ.1, holdsAt_some (enter_holds m)⟩
    · have hpc := hJ.2 pc rfl
      obtain ⟨hbooks', hnext⟩ := hbooks.act hpc hact
      exact ⟨hbooks', (act_step_millis hpc hact).trans hJ.1, hnext⟩
  · intro c before l t c' l' es k _ hl hk hadv
    rcases advance_cases hadv with ⟨m, rfl, rfl, rfl, rfl, rfl⟩ | ⟨now, spurious, pc, rfl, rfl, hact⟩
    · rwa [List.append_nil]
    · have hstep := act_step_millis (hl.2 pc rfl) hact
      exact ⟨hstep.trans hk.1, fun pc' hpc' => holds_act (hk.2 pc' hpc') hstep⟩

/-- What the calls and the events brought in has gone out once no thread is in a call. -/
theorem run_settles [Fintype ι] {G : Type} [AddCommMonoid G] (owed : CounterPc T → G)
    (given : CounterTurn T → G) (inn out : CounterEvent T → G)
    (hact : ∀ (c c' : DefaultCounterNumber T) before now spurious pc l' es,
      c.step_number_.step_millis_ = freq_millis → pc.Holds c before →
      c.act cas_loop now spurious pc = (c', l', es) →
      l'.elim 0 owed + (es.map out).sum = owed pc + (es.map inn).sum)
    (hcall : ∀ m, owed (CounterCall.enter m) = given (.call m))
    (hother : ∀ now spurious, given (.act now spurious) = 0)
    (hrun : run (advance cas_loop) (fresh ι id freq_millis start) schedule = some (s, events))
    (hidle : ∀ i, s.thread i = none) :
    (events.map out).sum = (events.map inn).sum + (schedule.map fun t => given t.2).sum := by
  have hledger := run_ledger (Assertion freq_millis) (fun l => l.elim 0 owed) given inn out
    (fun _ _ _ h => (run_books h).2) ?_ hrun
  · simpa [fresh, hidle] using hledger
  · intro c before l t c' l' es hJ hadv
    rcases advance_cases hadv with ⟨m, rfl, rfl, rfl, rfl, rfl⟩ | ⟨now, spurious, pc, rfl, rfl, hact'⟩
    · simp [hcall]
    · rw [hother, add_zero]
      exact hact c c' before now spurious pc l' es hJ.1 (hJ.2 pc rfl) hact'

/-- In every interleaving of calls of `Add`, `Measure` and `Count`, once all of them have
returned: the total is the sum of the amounts; so is what the current slot holds together
with what rolls took out of it; the rolls lead from the first step to the current one,
each of them ahead and each with one value; and a poll reports what a roll from the step
right before took, or 0. -/
theorem run_conserves [Fintype ι]
    (hrun : run (advance cas_loop) (fresh ι id freq_millis start) schedule = some (s, events))
    (hidle : ∀ i, s.thread i = none) :
    let given := (schedule.map fun t => t.2.given).sum
    let numbers := events.filterMap number
    s.memory.Count = given ∧
      s.memory.step_number_.current_ + (numbers.filterMap taken).sum = given ∧
      StepsFrom (start.tdiv freq_millis) (numbers.filterMap moved)
        s.memory.step_number_.last_init_pos_ ∧
      (numbers.filterMap tookAt).Perm (numbers.filterMap moved) ∧
      ∀ pos v, .loaded pos .Poll v ∈ numbers → Reportable 0 numbers v := by
  intro given numbers
  obtain ⟨hbooks, -⟩ := run_books hrun
  have hvalue : (events.map CounterEvent.valuedAmount).sum = given := by
    have h := run_settles CounterPc.toValue CounterTurn.given (fun _ => 0)
      CounterEvent.valuedAmount (fun c c' before now spurious pc l' es _ hpc hact => by
        rw [act_toValue hpc hact]; simp) (fun m => by cases m <;> rfl) (fun _ _ => rfl) hrun hidle
    rw [h]
    simp [given]
  have hland : (events.map CounterEvent.landedAmount).sum = given := by
    have h := run_settles CounterPc.toLand CounterTurn.given (fun _ => 0)
      CounterEvent.landedAmount (fun c c' before now spurious pc l' es _ hpc hact => by
        rw [act_toLand hpc hact]; simp) (fun m => by cases m <;> rfl) (fun _ _ => rfl) hrun hidle
    rw [h]
    simp [given]
  have htook : (events.map (tally tookSteps)).sum = (events.map (tally movedSteps)).sum := by
    have h := run_settles (CounterPc.toTake freq_millis) (fun _ => 0) (tally movedSteps)
      (tally tookSteps) (fun c c' before now spurious pc l' es hstep hpc hact => by
        rw [← hstep]; exact act_toTake hpc hact) (fun m => by cases m <;> rfl) (fun _ _ => rfl)
      hrun hidle
    rw [h]
    simp
  rw [sum_valuedAmount] at hvalue
  rw [sum_landedAmount] at hland
  refine ⟨hbooks.value.trans hvalue, ?_, hbooks.number.steps, ?_, ?_⟩
  · have htotal := hbooks.number.total
    rw [foldl_combine_eq_add hbooks.landings, foldl_add, hbooks.initial, zero_add] at htotal
    exact htotal.trans hland
  · rw [sum_tally, sum_tally, Multiset.coe_eq_coe] at htook
    rw [List.filterMap_filterMap, List.filterMap_filterMap]
    exact htook
  · intro pos v hv
    have hpoll := hbooks.number.polls pos v hv
    rwa [hbooks.initial] at hpoll

end Runs

end DefaultCounterNumber

end Books

namespace DefaultCounterNumber

/-- One thread adds 4 between the two exchanges of a roll that the other one won. -/
def overtaken : List (Bool × CounterTurn ℤ) :=
  (false, .call (.Add 3)) :: List.replicate 6 (false, .act 5 false) ++
  (true, .call .Measure) :: List.replicate 3 (true, .act 12 false) ++
  (false, .call (.Add 4)) :: List.replicate 3 (false, .act 13 false) ++
  List.replicate 4 (true, .act 14 false) ++ List.replicate 3 (false, .act 15 false)

theorem run_conserves_overtaken :
    ∃ s events, run (advance false) (fresh Bool ⟨intern_str "c", ∅⟩ 10 5) overtaken =
        some (s, events) ∧
      s.memory.Count = 7 ∧
        s.memory.step_number_.current_ + ((events.filterMap number).filterMap taken).sum = 7 := by
  refine ⟨_, _, rfl, ?_⟩
  have hrun : run (advance false) (fresh Bool ⟨intern_str "c", ∅⟩ 10 5) overtaken =
      some (_, _) := rfl
  have h := run_conserves hrun (by decide +kernel)
  exact ⟨h.1, h.2.1⟩

/-- What was added in the second step is reported for the first one then. -/
example : (run (advance false) (fresh Bool ⟨intern_str "c", ∅⟩ 10 5) overtaken).map
    (fun r => r.1.memory.step_number_.previous_) = some 7 := by
  decide +kernel

end DefaultCounterNumber

end AtlasNative
