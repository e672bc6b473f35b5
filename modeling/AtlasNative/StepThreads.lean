import AtlasNative.Lib.Interleavings
import AtlasNative.StepNumberRuns

/-!
# Step numbers shared by threads

The fields of a `StepNumber` are atomics and any number of threads run its operations.
One action here is one operation on one atomic, and the actions of different threads
come in any order. The atomics are taken to be sequentially consistent.
-/

namespace AtlasNative

set_option autoImplicit false

universe u
variable {T : Type u}

/-- The action that a thread inside an operation does next. `now` is the wall time it
read, `last_init` what it loaded from `last_init_pos_`. -/
inductive StepPc (T : Type u) where
  | WallTime (op : StepOp T)
  | load (op : StepOp T) (now : ℤ)
  | compare_exchange_strong (op : StepOp T) (now last_init : ℤ)
  | exchange (op : StepOp T) (now last_init : ℤ)
  | store (op : StepOp T) (previous : T)
  /-- `RollCountNow` has returned. -/
  | rolled (op : StepOp T)
  | compare_exchange_weak (op : StepOp T) (expected desired : T)
  deriving DecidableEq

/-- Where a thread goes after an action: on to another, or back with what the operation
returns. -/
inductive StepNext (T : Type u) where
  | goto (pc : StepPc T)
  | done (v : Option T)
  deriving DecidableEq

/-- What is seen of an action. `pos` is `last_init_pos_` at that moment. -/
inductive StepEvent (T : Type u) where
  /-- A thread moved the position from `last_init` to `step_time`. -/
  | won (last_init step_time : ℤ)
  /-- It took the value `v` out of the current slot. -/
  | took (last_init step_time : ℤ) (v : T)
  | landed (pos : ℤ) (op : StepOp T)
  | loaded (pos : ℤ) (op : StepOp T) (v : T)
  deriving DecidableEq

namespace StepPc

def op : StepPc T → StepOp T
  | WallTime op | load op _ | compare_exchange_strong op _ _ | exchange op _ _ | store op _
  | rolled op | compare_exchange_weak op _ _ => op

/-- Between the exchange of the position that a thread won and its store of the previous
value. -/
def rolling : StepPc T → Bool
  | exchange _ _ _ | store _ _ => true
  | _ => false

/-- The steps of a roll that has won and has not taken the current value yet. -/
def pending (step_millis : ℤ) : StepPc T → Multiset (ℤ × ℤ)
  | exchange _ now last_init => {(last_init, now.tdiv step_millis)}
  | _ => 0

/-- What a thread knows from the actions that it has done. -/
def Sound [HAdd T T T] [LT T] [DecidableLT T] (step_millis : ℤ) : StepPc T → Prop
  | compare_exchange_strong _ now last_init | exchange _ now last_init =>
    last_init < now.tdiv step_millis
  | compare_exchange_weak op expected desired => desired = op.combine expected
  | _ => True

end StepPc

def StepNext.Sound [HAdd T T T] [LT T] [DecidableLT T] (step_millis : ℤ) : StepNext T → Prop
  | .goto pc => pc.Sound step_millis
  | .done _ => True

def StepNext.pc : StepNext T → Option (StepPc T)
  | goto pc => some pc
  | done _ => none

theorem StepNext.Sound.pc [HAdd T T T] [LT T] [DecidableLT T] {next : StepNext T}
    {step_millis : ℤ} (h : next.Sound step_millis) : ∀ pc ∈ next.pc, pc.Sound step_millis := by
  intro pc hpc
  cases next with
  | goto pc' => exact Option.some.inj hpc ▸ h
  | done v => cases hpc

namespace StepNumber
variable [HAdd T T T] [LT T] [DecidableLT T]

/-- One action of a thread. `cas_loop` is the overload of `AddAmount` for `double`, `now`
the wall time of this moment and `spurious` a weak exchange that fails for no reason. -/
def act [DecidableEq T] (cas_loop : Bool) (s : StepNumber T) (now : ℤ) (spurious : Bool) :
    StepPc T → StepNumber T × StepNext T × List (StepEvent T)
  | .WallTime op => (s, .goto (.load op now), [])
  | .load op t =>
    if s.last_init_pos_ < t.tdiv s.step_millis_ then
      (s, .goto (.compare_exchange_strong op t s.last_init_pos_), [])
    else (s, .goto (.rolled op), [])
  | .compare_exchange_strong op t last_init =>
    let step_time := t.tdiv s.step_millis_
    if s.last_init_pos_ = last_init then
      ({ s with last_init_pos_ := step_time }, .goto (.exchange op t last_init),
        [.won last_init step_time])
    else (s, .goto (.rolled op), [])
  | .exchange op t last_init =>
    let step_time := t.tdiv s.step_millis_
    let v := s.current_
    ({ s with current_ := s.init_ },
      .goto (.store op (if last_init = step_time - 1 then v else s.init_)),
      [.took last_init step_time v])
  | .store op previous => ({ s with previous_ := previous }, .goto (.rolled op), [])
  | .rolled .Poll => (s, .done (some s.previous_), [.loaded s.last_init_pos_ .Poll s.previous_])
  | .rolled .Current =>
    (s, .done (some s.current_), [.loaded s.last_init_pos_ .Current s.current_])
  | .rolled (.Add amount) =>
    if cas_loop then
      (s, .goto (.compare_exchange_weak (.Add amount) s.current_ (s.current_ + amount)), [])
    else
      ({ s with current_ := s.current_ + amount }, .done none,
        [.landed s.last_init_pos_ (.Add amount)])
  | .rolled (.UpdateCurrentMax value) =>
    if s.current_ < value then
      (s, .goto (.compare_exchange_weak (.UpdateCurrentMax value) s.current_ value), [])
    else (s, .done none, [.landed s.last_init_pos_ (.UpdateCurrentMax value)])
  | .compare_exchange_weak op expected desired =>
    if s.current_ = expected ∧ spurious = false then
      ({ s with current_ := desired }, .done none, [.landed s.last_init_pos_ op])
    else (s, .goto (.rolled op), [])

inductive Acts (s : StepNumber T) (op : StepOp T) :
    StepPc T → StepNumber T → StepNext T → List (StepEvent T) → Prop where
  | quiet {pc pc' : StepPc T} : pc.rolling = false → pc'.rolling = false → pc'.op = op →
      Acts s op pc s (.goto pc') []
  | won {now last_init : ℤ} : s.last_init_pos_ = last_init →
      last_init < now.tdiv s.step_millis_ →
      Acts s op (.compare_exchange_strong op now last_init)
        { s with last_init_pos_ := now.tdiv s.step_millis_ } (.goto (.exchange op now last_init))
        [.won last_init (now.tdiv s.step_millis_)]
  | took {now last_init : ℤ} : last_init < now.tdiv s.step_millis_ →
      Acts s op (.exchange op now last_init) { s with current_ := s.init_ }
        (.goto (.store op
          (if last_init = now.tdiv s.step_millis_ - 1 then s.current_ else s.init_)))
        [.took last_init (now.tdiv s.step_millis_) s.current_]
  | stored {v : T} : Acts s op (.store op v) { s with previous_ := v } (.goto (.rolled op)) []
  | landed {pc : StepPc T} : pc.rolling = false →
      Acts s op pc { s with current_ := op.combine s.current_ } (.done none)
        [.landed s.last_init_pos_ op]
  | polled : op = .Poll → Acts s op (.rolled op) s (.done (some s.previous_))
      [.loaded s.last_init_pos_ .Poll s.previous_]
  | read : op = .Current → Acts s op (.rolled op) s (.done (some s.current_))
      [.loaded s.last_init_pos_ .Current s.current_]

theorem act_acts [DecidableEq T] {cas_loop : Bool} {s s' : StepNumber T} {now : ℤ} {spurious : Bool}
    {pc : StepPc T} {next : StepNext T} {es : List (StepEvent T)}
    (hpc : pc.Sound s.step_millis_) (h : s.act cas_loop now spurious pc = (s', next, es)) :
    s.Acts pc.op pc s' next es ∧ next.Sound s.step_millis_ := by
  cases pc with
  | WallTime op =>
    cases h
    exact ⟨.quiet rfl rfl rfl, trivial⟩
  | load op t =>
    rw [act] at h
    split at h
    · rename_i hlt
      cases h
      exact ⟨.quiet rfl rfl rfl, hlt⟩
    · cases h
      exact ⟨.quiet rfl rfl rfl, trivial⟩
  | compare_exchange_strong op t last_init =>
    rw [act] at h
    split at h
    · rename_i heq
      cases h
      exact ⟨.won heq hpc, hpc⟩
    · cases h
      exact ⟨.quiet rfl rfl rfl, trivial⟩
  | exchange op t last_init =>
    cases h
    exact ⟨.took hpc, trivial⟩
  | store op previous =>
    cases h
    exact ⟨.stored, trivial⟩
  | rolled op =>
    cases op with
    | Poll =>
      cases h
      exact ⟨.polled rfl, trivial⟩
    | Current =>
      cases h
      exact ⟨.read rfl, trivial⟩
    | Add amount =>
      rw [act] at h
      split at h
      · cases h
        exact ⟨.quiet rfl rfl rfl, rfl⟩
      · cases h
        exact ⟨.landed rfl, trivial⟩
    | UpdateCurrentMax value =>
      rw [act] at h
      split at h
      · rename_i hlt
        cases h
        exact ⟨.quiet rfl rfl rfl, (if_pos hlt).symm⟩
      · rename_i hle
        cases h
        have hkeep : { s with current_ := (StepOp.UpdateCurrentMax value).combine s.current_ } = s :=
          congrArg (fun x => { s with current_ := x }) (if_neg hle)
        have hacts : s.Acts (.UpdateCurrentMax value) (.rolled (.UpdateCurrentMax value)) _ _ _ :=
          .landed rfl
        rw [hkeep] at hacts
        exact ⟨hacts, trivial⟩
  | compare_exchange_weak op expected desired =>
    rw [act] at h
    split at h
    · rename_i hseen
      cases h
      refine ⟨?_, trivial⟩
      rw [show desired = op.combine s.current_ from hseen.1 ▸ hpc]
      exact .landed rfl
    · cases h
      exact ⟨.quiet rfl rfl rfl, trivial⟩

namespace Acts
variable {s s' : StepNumber T} {op : StepOp T} {pc : StepPc T} {next : StepNext T}
  {es : List (StepEvent T)}

theorem consts (h : s.Acts op pc s' next es) :
    s'.init_ = s.init_ ∧ s'.step_millis_ = s.step_millis_ := by
  cases h <;> exact ⟨rfl, rfl⟩

theorem op_eq {pc' : StepPc T} (h : s.Acts op pc s' (.goto pc') es) : pc'.op = op := by
  cases h with
  | quiet _ _ hop => exact hop
  | won => rfl
  | took => rfl
  | stored => rfl

end Acts

end StepNumber

/-! ### What the events add up to -/

namespace StepEvent

def moved : StepEvent T → Option (ℤ × ℤ)
  | won last_init step_time => some (last_init, step_time)
  | _ => none

def tookAt : StepEvent T → Option (ℤ × ℤ)
  | took last_init step_time _ => some (last_init, step_time)
  | _ => none

def taken : StepEvent T → Option T
  | took _ _ v => some v
  | _ => none

def landing : StepEvent T → Option (StepOp T)
  | landed _ op => some op
  | _ => none

end StepEvent

open StepEvent

/-- The position went from `p` to `q` by these moves, each of them ahead. -/
def StepsFrom (p : ℤ) : List (ℤ × ℤ) → ℤ → Prop
  | [], q => p = q
  | e :: moves, q => e.1 = p ∧ p < e.2 ∧ StepsFrom e.2 moves q

theorem StepsFrom.concat {p q r : ℤ} {moves : List (ℤ × ℤ)} (h : StepsFrom p moves q)
    (hlt : q < r) : StepsFrom p (moves ++ [(q, r)]) r := by
  induction moves generalizing p with
  | nil => exact ⟨h.symm, h ▸ hlt, rfl⟩
  | cons e moves ih => exact ⟨h.1, h.2.1, ih h.2.2⟩

/-- A value that a roll from the step right before took, or the initial one. -/
def Reportable (init : T) (events : List (StepEvent T)) (v : T) : Prop :=
  v = init ∨ ∃ p, .took (p - 1) p v ∈ events

theorem Reportable.append {init v : T} {events : List (StepEvent T)}
    (h : Reportable init events v) (es : List (StepEvent T)) :
    Reportable init (events ++ es) v := by
  rcases h with hinit | htook
  · exact .inl hinit
  · rcases htook with ⟨p, hp⟩
    exact .inr ⟨p, List.mem_append_left es hp⟩

def StepPc.Reports (init : T) (events : List (StepEvent T)) : StepPc T → Prop
  | .store _ previous => Reportable init events previous
  | _ => True

theorem StepPc.Reports.append {init : T} {events : List (StepEvent T)} {pc : StepPc T}
    (h : pc.Reports init events) (es : List (StepEvent T)) : pc.Reports init (events ++ es) := by
  cases pc with
  | store op previous => exact Reportable.append h es
  | _ => trivial

def StepNext.Reports (init : T) (events : List (StepEvent T)) : StepNext T → Prop
  | .goto pc => pc.Reports init events
  | .done _ => True

def StepNext.pending (step_millis : ℤ) : StepNext T → Multiset (ℤ × ℤ)
  | .goto pc => pc.pending step_millis
  | .done _ => 0

theorem StepPc.pending_of_not_rolling {pc : StepPc T} (h : pc.rolling = false)
    (step_millis : ℤ) : pc.pending step_millis = 0 := by
  cases pc with
  | exchange op now last_init => cases h
  | _ => rfl

theorem foldl_right_comm {f : T → T → T} [Std.Commutative f] [Std.Associative f] (vs : List T) (x v : T) :
    vs.foldl f (f x v) = f (vs.foldl f x) v := by
  induction vs generalizing x with
  | nil => rfl
  | cons w vs ih =>
    have hassoc : ∀ a b c : T, f (f a b) c = f a (f b c) := Std.Associative.assoc
    have hcomm : f v w = f w v := Std.Commutative.comm v w
    rw [List.foldl_cons, List.foldl_cons, hassoc, hcomm, ← hassoc, ih]

section Accounts
variable [HAdd T T T] [LT T] [DecidableLT T]

/-- A step number that `f` accumulates in, created in step `p`, accounts for its events:
what was taken out and what is there is what landed. -/
structure StepNumber.Accounts (f : T → T → T) (p : ℤ) (s : StepNumber T)
    (events : List (StepEvent T)) : Prop where
  unit : f s.init_ s.init_ = s.init_
  absorbs : f s.init_ s.current_ = s.current_
  total : (events.filterMap taken).foldl f s.current_ =
    (events.filterMap landing).foldl StepOp.combine s.init_
  steps : StepsFrom p (events.filterMap moved) s.last_init_pos_
  previous : Reportable s.init_ events s.previous_
  polls : ∀ pos v, .loaded pos .Poll v ∈ events → Reportable s.init_ events v

namespace StepNumber
variable {f : T → T → T} {p : ℤ} {s s' : StepNumber T} {op : StepOp T} {pc : StepPc T}
  {next : StepNext T} {before es : List (StepEvent T)}

/-- What a roll that has won has not taken yet stays with its thread. -/
theorem Acts.pending (h : s.Acts op pc s' next es) :
    next.pending s'.step_millis_ + (es.map (Interleavings.tally tookAt)).sum =
      pc.pending s.step_millis_ + (es.map (Interleavings.tally moved)).sum := by
  cases h with
  | quiet hpc hpc' _ =>
    rw [StepNext.pending, StepPc.pending_of_not_rolling hpc, StepPc.pending_of_not_rolling hpc']
    rfl
  | won => exact add_comm _ _
  | took => exact add_comm _ _
  | stored => rfl
  | landed hpc =>
    rw [StepPc.pending_of_not_rolling hpc]
    rfl
  | polled => rfl
  | read => rfl

theorem Acts.landing_eq (h : s.Acts op pc s' next es) : ∀ o ∈ es.filterMap landing, o = op := by
  intro o ho
  obtain ⟨e, he, hland⟩ := List.mem_filterMap.mp ho
  cases h with
  | quiet | stored => cases he
  | landed =>
    cases List.mem_singleton.mp he
    exact (Option.some.inj hland).symm
  | won | took | polled | read =>
    cases List.mem_singleton.mp he
    cases hland

/-- Folding the values that were taken commutes with an operation that lands. -/
theorem foldl_combine (hop : ∀ x y, op.combine (f x y) = f (op.combine x) y) (vs : List T) (x : T) :
    vs.foldl f (op.combine x) = op.combine (vs.foldl f x) := by
  induction vs generalizing x with
  | nil => rfl
  | cons v vs ih => rw [List.foldl_cons, List.foldl_cons, ← hop, ih]

theorem Accounts.act [Std.Commutative f] [Std.Associative f] (h : s.Accounts f p before)
    (hop : ∀ x y, op.combine (f x y) = f (op.combine x) y) (hpc : pc.Reports s.init_ before)
    (hacts : s.Acts op pc s' next es) :
    s'.Accounts f p (before ++ es) ∧ next.Reports s'.init_ (before ++ es) := by
  cases hacts with
  | @quiet _ pc' _ hpc' _ =>
    rw [List.append_nil]
    refine ⟨h, ?_⟩
    cases pc' with
    | store op v => cases hpc'
    | _ => trivial
  | won hlast hlt =>
    refine ⟨{ h with total := ?_, steps := ?_, previous := h.previous.append _, polls := ?_ },
      trivial⟩
    · rw [List.filterMap_append, List.filterMap_append]
      simpa [List.filterMap_cons, taken, landing] using h.total
    · rw [List.filterMap_append]
      have hmove := h.steps.concat (hlast ▸ hlt)
      rwa [hlast] at hmove
    · intro pos v hv
      exact (h.polls pos v (by simpa using hv)).append _
  | @took now last_init hlt =>
    refine ⟨{ h with
      absorbs := h.unit, total := ?_, steps := ?_, previous := h.previous.append _, polls := ?_ }, ?_⟩
    · rw [List.filterMap_append, List.filterMap_append, List.foldl_append]
      have hout : f ((before.filterMap taken).foldl f s.init_) s.current_ =
          (before.filterMap taken).foldl f s.current_ := by
        rw [← foldl_right_comm (f := f), h.absorbs]
      simpa [List.filterMap_cons, taken, landing, hout] using h.total
    · rw [List.filterMap_append]
      simpa [List.filterMap_cons, moved] using h.steps
    · intro pos v hv
      exact (h.polls pos v (by simpa using hv)).append _
    · dsimp only [StepNext.Reports, StepPc.Reports]
      by_cases hlast : last_init = now.tdiv s.step_millis_ - 1
      · rw [if_pos hlast]
        exact .inr ⟨_, List.mem_append_right _ (by rw [hlast]; exact List.mem_singleton_self _)⟩
      · rw [if_neg hlast]
        exact .inl rfl
  | @stored v =>
    rw [List.append_nil]
    exact ⟨{ h with previous := hpc }, trivial⟩
  | landed =>
    refine ⟨{ h with
      absorbs := ?_, total := ?_, steps := ?_, previous := h.previous.append _, polls := ?_ },
      trivial⟩
    · have hcomm : ∀ a b : T, f a b = f b a := Std.Commutative.comm
      dsimp only
      rw [hcomm, ← hop, hcomm s.current_, h.absorbs]
    · rw [List.filterMap_append, List.filterMap_append, List.foldl_append]
      have hland := foldl_combine hop (before.filterMap taken) s.current_
      simpa [List.filterMap_cons, taken, landing, h.total] using hland
    · rw [List.filterMap_append]
      simpa [List.filterMap_cons, moved] using h.steps
    · intro pos v hv
      exact (h.polls pos v (by simpa using hv)).append _
  | polled =>
    refine ⟨{ h with total := ?_, steps := ?_, previous := h.previous.append _, polls := ?_ },
      trivial⟩
    · rw [List.filterMap_append, List.filterMap_append]
      simpa [List.filterMap_cons, taken, landing] using h.total
    · rw [List.filterMap_append]
      simpa [List.filterMap_cons, moved] using h.steps
    · intro pos v hv
      rcases List.mem_append.mp hv with hbefore | hlast
      · exact (h.polls pos v hbefore).append _
      · cases List.mem_singleton.mp hlast
        exact h.previous.append _
  | read =>
    refine ⟨{ h with total := ?_, steps := ?_, previous := h.previous.append _, polls := ?_ },
      trivial⟩
    · rw [List.filterMap_append, List.filterMap_append]
      simpa [List.filterMap_cons, taken, landing] using h.total
    · rw [List.filterMap_append]
      simpa [List.filterMap_cons, moved] using h.steps
    · intro pos v hv
      exact (h.polls pos v (by simpa using hv)).append _

end StepNumber

end Accounts

end AtlasNative
