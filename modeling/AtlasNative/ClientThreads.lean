import AtlasNative.Lib.Interleavings
import Mathlib.Logic.Function.Basic

/-!
# The threads of a client

`Client::impl` starts and stops a `ConfigManager` with one thread and a
`SubscriptionManager` with two. Its caller runs one call at a time; the three threads run
their loops beside it. The caller's code is a list of instructions, of which a turn
executes the first one; a turn of a thread takes it through its loop. A round, a refresh or
a flush may take any number of turns, or never end.
-/

namespace AtlasNative

open Interleavings
set_option autoImplicit false

/-- `sender_thread`, `sub_refresher_thread` and `refresher_thread` -/
inductive Worker where
  | sender
  | sub_refresher
  | refresher
  deriving DecidableEq

/-- A `std::thread` with the place where its loop is; one that is `absent` is not
joinable. -/
inductive Thread where
  | absent
  | test
  | round
  | wait
  | finished
  deriving DecidableEq

def Thread.joinable (t : Thread) : Bool := t ≠ .absent

inductive Flag where
  | started
  | sub_should_run
  | config_should_run
  deriving DecidableEq

inductive Instr where
  | Client_Start (sane : Bool)
  | Client_Stop
  | Client_dtor
  | ConfigManager_Start
  | ConfigManager_Stop
  | ConfigManager_dtor
  | SubscriptionManager_Start
  | SubscriptionManager_Stop
  | SubscriptionManager_dtor
  | set (f : Flag) (b : Bool)
  | global_init
  | global_shutdown
  | refresh_configs
  | notify_all
  | spawn (w : Worker)
  | join (w : Worker)
  | thread_dtor (w : Worker)
  | flush_metrics
  | SetOffset
  deriving DecidableEq

/-- The code of a function, by the flags that it tests on entry; `none` for what is done in
one turn. `sane` is whether `Start` finds a production environment or is forced to start.
Members are destroyed last to first. -/
def Instr.body (flag : Flag → Bool) : Instr → Option (List Instr)
  | Client_Start sane =>
    some (if flag .started then [] else
      global_init :: if sane then
        [set .started true, ConfigManager_Start, SubscriptionManager_Start] else [])
  | Client_Stop =>
    some (if flag .started then
      [SubscriptionManager_Stop, ConfigManager_Stop, set .started false, global_shutdown] else [])
  | Client_dtor =>
    some ((if flag .started then [Client_Stop] else []) ++
      [SubscriptionManager_dtor, ConfigManager_dtor])
  | ConfigManager_Start => some [set .config_should_run true, refresh_configs, spawn .refresher]
  | ConfigManager_Stop =>
    some (if flag .config_should_run then
      [set .config_should_run false, notify_all, join .refresher] else [])
  | ConfigManager_dtor => some [ConfigManager_Stop, thread_dtor .refresher]
  | SubscriptionManager_Start =>
    some [set .sub_should_run true, spawn .sub_refresher, spawn .sender]
  | SubscriptionManager_Stop =>
    some (if flag .sub_should_run then
      [set .sub_should_run false, notify_all, join .sender, join .sub_refresher, flush_metrics,
        SetOffset, flush_metrics] else [])
  | SubscriptionManager_dtor =>
    some ((if flag .sub_should_run then [SubscriptionManager_Stop] else []) ++
      [thread_dtor .sub_refresher, thread_dtor .sender])
  | _ => none

structure Client where
  flag : Flag → Bool
  thread : Worker → Thread
  code : List Instr
  /-- The turns taken so far within a round, or within a refresh or a flush of the caller. -/
  spent : Option Worker → ℕ
  gone : Bool
  terminated : Bool

inductive ClientEvent where
  | round (w : Worker)
  | refresh_configs
  | flush_metrics
  | SetOffset
  | terminate
  deriving DecidableEq

inductive ClientCall where
  | Start (sane : Bool)
  | Stop
  | dtor
  deriving DecidableEq

inductive ClientTurn where
  | call (c : ClientCall)
  | caller
  /-- `throws` is whether a round of `sub_refresher` ends with an exception. -/
  | worker (w : Worker) (throws : Bool)
  /-- A turn of a thread, or of the caller, which does not end what it is doing. -/
  | busy (w : Option Worker)
  deriving DecidableEq

def ClientCall.instr : ClientCall → Instr
  | .Start sane => .Client_Start sane
  | .Stop => .Client_Stop
  | .dtor => .Client_dtor

namespace Client

def create : Client := ⟨fun _ => false, fun _ => .absent, [], fun _ => 0, false, false⟩

def should_run (c : Client) : Worker → Bool
  | .sender | .sub_refresher => c.flag .sub_should_run
  | .refresher => c.flag .config_should_run

def setThread (c : Client) (w : Worker) (t : Thread) : Client :=
  { c with
    thread := Function.update c.thread w t
    spent := Function.update c.spent (some w) 0 }

@[simp] theorem setThread_self (c : Client) (w : Worker) (t : Thread) :
    (c.setThread w t).thread w = t := by
  simp [setThread]

@[simp] theorem setThread_of_ne {w w' : Worker} (h : w' ≠ w) (c : Client) (t : Thread) :
    (c.setThread w t).thread w' = c.thread w' := by
  simp [setThread, h]

/-- An instruction that is done in one turn; `none` when it has to wait. A thread object
that still has a thread must not be overwritten or destroyed, and one that has none cannot
be joined. -/
def execute (c : Client) : Instr → Option (Client × List ClientEvent)
  | .set f b => some ({ c with flag := Function.update c.flag f b }, [])
  | .spawn w =>
    if (c.thread w).joinable then some ({ c with terminated := true }, [.terminate])
    else some (c.setThread w .test, [])
  | .join w =>
    match c.thread w with
    | .absent => some ({ c with terminated := true }, [.terminate])
    | .finished => some (c.setThread w .absent, [])
    | _ => none
  | .thread_dtor w =>
    if (c.thread w).joinable then some ({ c with terminated := true }, [.terminate])
    else some (c, [])
  | .refresh_configs => some (c, [.refresh_configs])
  | .flush_metrics => some (c, [.flush_metrics])
  | .SetOffset => some (c, [.SetOffset])
  | _ => some (c, [])

/-- A thread goes on to the next place of its loop: a round ends. The loop of `sub_refresher`
catches an exception behind its wait. -/
def work (c : Client) (w : Worker) (throws : Bool) : Option (Client × List ClientEvent) :=
  match c.thread w with
  | .absent => none
  | .test =>
    if c.should_run w then some (c.setThread w .round, [.round w])
    else some (c.setThread w .finished, [])
  | .round =>
    if throws = true ∧ w = .sub_refresher then some (c.setThread w .test, [])
    else some (c.setThread w .wait, [])
  | .wait => some (c.setThread w .test, [])
  | .finished => none

/-- Whether it is in the middle of something that may take long. -/
def inside (c : Client) : Option Worker → Bool
  | none => c.code.head? = some .refresh_configs ∨ c.code.head? = some .flush_metrics
  | some w => c.thread w = .round

def setCode (c : Client) (code : List Instr) : Client :=
  { c with
    code := code
    spent := Function.update c.spent none 0 }

def step (c : Client) : ClientTurn → Option (Client × List ClientEvent)
  | .call m =>
    if c.terminated = false ∧ c.gone = false ∧ c.code = [] then
      some ({ c with code := [m.instr], gone := m = .dtor }, [])
    else none
  | .caller =>
    match c.code with
    | [] => none
    | i :: rest =>
      if c.terminated then none else
      match i.body c.flag with
      | some body => some (c.setCode (body ++ rest), [])
      | none => (c.setCode rest).execute i
  | .worker w throws => if c.terminated then none else c.work w throws
  | .busy w =>
    if c.terminated = false ∧ c.inside w = true then
      some ({ c with spent := Function.update c.spent w (c.spent w + 1) }, [])
    else none

/-- Nothing takes more than `bound` turns and the one that ends it. -/
def stepWithin (bound : ℕ) : Client → ClientTurn → Option (Client × List ClientEvent) :=
  guarded (fun c t => match t with
    | .busy w => c.spent w < bound
    | _ => true) step

end Client

/-! ### What the caller's code does to what only the caller changes -/

/-- The order of what shows: a stop flushes, moves the clock and flushes again, and
neither the sender nor the refresher of subscriptions begins a round meanwhile. -/
def flushPhase : ℕ → ClientEvent → Option ℕ
  | 0, .flush_metrics => some 1
  | 1, .SetOffset => some 2
  | 2, .flush_metrics => some 0
  | p, .round .refresher => some p
  | 0, .round _ | 0, .refresh_configs => some 0
  | _, _ => none

/-- The flags, which thread objects have a thread, and the phase of a stop. -/
structure Owned where
  flag : Flag → Bool
  joinable : Worker → Bool
  phase : ℕ

namespace Owned

/-- The threads that share state with `flush_metrics` are gone. -/
def quiet (o : Owned) : Bool := !o.joinable .sender && !o.joinable .sub_refresher

def should_run (o : Owned) : Worker → Bool
  | .sender | .sub_refresher => o.flag .sub_should_run
  | .refresher => o.flag .config_should_run

/-- What an instruction makes of it; `none` when the instruction is out of place. -/
def act (o : Owned) : Instr → Option Owned
  | .set f b => some { o with flag := Function.update o.flag f b }
  | .spawn w =>
    if o.joinable w = false ∧ o.phase = 0 then
      some { o with joinable := Function.update o.joinable w true }
    else none
  | .join w =>
    if o.joinable w = true ∧ o.should_run w = false then
      some { o with joinable := Function.update o.joinable w false }
    else none
  | .thread_dtor w => if o.joinable w then none else some o
  | .refresh_configs => if o.phase = 0 then some o else none
  | .flush_metrics =>
    if o.quiet then (flushPhase o.phase .flush_metrics).map fun p => { o with phase := p } else none
  | .SetOffset =>
    if o.quiet then (flushPhase o.phase .SetOffset).map fun p => { o with phase := p } else none
  | _ => some o

/-- What `n` turns of the caller make of it, when they are enough to finish the code. -/
def exec : ℕ → Owned → List Instr → Option Owned
  | _, o, [] => some o
  | 0, _, _ :: _ => none
  | n + 1, o, i :: rest =>
    match i.body o.flag with
    | some body => exec n o (body ++ rest)
    | none => (o.act i).bind fun o' => exec n o' rest

/-- Between two calls a client is started with all its threads, or it has none. -/
structure Stable (o : Owned) (b : Bool) : Prop where
  flags : ∀ f, o.flag f = b
  threads : ∀ w, o.joinable w = b
  phase : o.phase = 0

end Owned

/-- What a call leaves of a stable client. -/
def ClientCall.leaves (b : Bool) : ClientCall → Bool
  | Start sane => b || sane
  | Stop | dtor => false

theorem Owned.exec_call {o : Owned} {b : Bool} (h : o.Stable b) (m : ClientCall) :
    ∃ o', o.exec 30 [m.instr] = some o' ∧ o'.Stable (m.leaves b) := by
  have ho : o = ⟨fun _ => b, fun _ => b, 0⟩ := by
    cases o
    rw [Owned.mk.injEq]
    exact ⟨funext h.flags, funext h.threads, h.phase⟩
  subst ho
  cases m with
  | Start sane =>
    cases b <;> cases sane <;>
      refine ⟨_, rfl, ?_, ?_, rfl⟩ <;> intro x <;> cases x <;> rfl
  | Stop | dtor =>
    cases b <;>
      refine ⟨_, rfl, ?_, ?_, rfl⟩ <;> intro x <;> cases x <;> rfl

theorem flushPhase_refresher (p : ℕ) : flushPhase p (.round .refresher) = some p := by
  match p with
  | 0 | 1 | 2 | _ + 3 => rfl

theorem Owned.act_quiet {o o' : Owned} {i : Instr} (hact : o.act i = some o')
    (h : o.phase ≠ 0 → o.quiet = true) : o'.phase ≠ 0 → o'.quiet = true := by
  cases i with
  | spawn w =>
    obtain ⟨hplace, ho⟩ := Option.ite_none_right_eq_some.mp hact
    cases ho
    exact fun hp => absurd hplace.2 hp
  | join w =>
    obtain ⟨_, ho⟩ := Option.ite_none_right_eq_some.mp hact
    cases ho
    intro hp
    have hquiet := h hp
    rw [quiet, Bool.and_eq_true, Bool.not_eq_true', Bool.not_eq_true'] at hquiet
    cases w <;> simp [quiet, Function.update, hquiet.1, hquiet.2]
  | flush_metrics | SetOffset =>
    obtain ⟨hquiet, hphase⟩ := Option.ite_none_right_eq_some.mp hact
    obtain ⟨p, _, rfl⟩ := Option.map_eq_some_iff.mp hphase
    exact fun _ => hquiet
  | thread_dtor w =>
    obtain ⟨_, ho⟩ := Option.ite_none_left_eq_some.mp hact
    cases ho
    exact h
  | refresh_configs =>
    obtain ⟨_, ho⟩ := Option.ite_none_right_eq_some.mp hact
    cases ho
    exact h
  | set f b | global_init | global_shutdown | notify_all | Client_Start | Client_Stop | Client_dtor
  | ConfigManager_Start | ConfigManager_Stop | ConfigManager_dtor | SubscriptionManager_Start
  | SubscriptionManager_Stop | SubscriptionManager_dtor =>
    cases hact
    exact h

namespace Client

def owned (c : Client) (p : ℕ) : Owned := ⟨c.flag, fun w => (c.thread w).joinable, p⟩

@[simp] theorem owned_setThread (c : Client) (w : Worker) (t : Thread) (p : ℕ) :
    (c.setThread w t).owned p =
      { c.owned p with joinable := Function.update (c.owned p).joinable w t.joinable } := by
  rw [owned, owned, Owned.mk.injEq]
  refine ⟨rfl, funext fun w' => ?_, rfl⟩
  by_cases hw : w' = w
  · subst hw
    simp
  · simp [hw]

/-- What the turns of a client keep: `n` more turns of its caller make it stable. -/
structure Planned (n : ℕ) (p : ℕ) (c : Client) : Prop where
  terminated : c.terminated = false
  quiet : p ≠ 0 → (c.owned p).quiet = true
  plan : ∃ o' b, (c.owned p).exec n c.code = some o' ∧ o'.Stable b ∧ (c.gone = true → b = false)

theorem work_cases {c c' : Client} {w : Worker} {throws : Bool} {es : List ClientEvent}
    (h : c.work w throws = some (c', es)) :
    ∃ t, c' = c.setThread w t ∧ t.joinable = true ∧ (c.thread w).joinable = true ∧
      (es = [] ∨ es = [.round w]) := by
  rw [work] at h
  cases hthread : c.thread w with
  | absent | finished =>
    rw [hthread] at h
    cases h
  | test =>
    rw [hthread] at h
    dsimp only at h
    split at h <;> cases h
    · exact ⟨_, rfl, rfl, rfl, .inr rfl⟩
    · exact ⟨_, rfl, rfl, rfl, .inl rfl⟩
  | round =>
    rw [hthread] at h
    dsimp only at h
    split at h <;> cases h <;> exact ⟨_, rfl, rfl, rfl, .inl rfl⟩
  | wait =>
    rw [hthread] at h
    cases h
    exact ⟨_, rfl, rfl, rfl, .inl rfl⟩

/-- An instruction in its place does what it makes of the caller's. -/
theorem execute_cases {c c' : Client} {i : Instr} {es : List ClientEvent} {p : ℕ} {o : Owned}
    (hact : (c.owned p).act i = some o) (h : c.execute i = some (c', es)) :
    c'.code = c.code ∧ c'.gone = c.gone ∧ c'.terminated = c.terminated ∧
      es.foldlM flushPhase p = some o.phase ∧ c'.owned o.phase = o := by
  cases i with
  | set f b =>
    cases hact
    cases h
    exact ⟨rfl, rfl, rfl, rfl, rfl⟩
  | spawn w =>
    obtain ⟨hplace, ho⟩ := Option.ite_none_right_eq_some.mp hact
    cases ho
    rw [execute, if_neg (by rw [show (c.thread w).joinable = false from hplace.1]; decide)] at h
    cases h
    exact ⟨rfl, rfl, rfl, rfl, owned_setThread c w .test p⟩
  | join w =>
    obtain ⟨hplace, ho⟩ := Option.ite_none_right_eq_some.mp hact
    cases ho
    rw [execute] at h
    have hjoinable : (c.thread w).joinable = true := hplace.1
    cases hthread : c.thread w with
    | absent =>
      rw [hthread] at hjoinable
      cases hjoinable
    | finished =>
      rw [hthread] at h
      cases h
      exact ⟨rfl, rfl, rfl, rfl, owned_setThread c w .absent p⟩
    | test | round | wait =>
      rw [hthread] at h
      cases h
  | thread_dtor w =>
    obtain ⟨hplace, ho⟩ := Option.ite_none_left_eq_some.mp hact
    cases ho
    rw [execute, if_neg (show ¬ (c.thread w).joinable = true from hplace)] at h
    cases h
    exact ⟨rfl, rfl, rfl, rfl, rfl⟩
  | refresh_configs =>
    obtain ⟨hplace, ho⟩ := Option.ite_none_right_eq_some.mp hact
    cases ho
    cases h
    have hp : p = 0 := hplace
    subst hp
    exact ⟨rfl, rfl, rfl, rfl, rfl⟩
  | flush_metrics | SetOffset =>
    obtain ⟨_, hphase⟩ := Option.ite_none_right_eq_some.mp hact
    obtain ⟨p', hp', rfl⟩ := Option.map_eq_some_iff.mp hphase
    cases h
    refine ⟨rfl, rfl, rfl, ?_, rfl⟩
    rw [List.foldlM_cons]
    exact (congrArg (· >>= _) hp').trans rfl
  | global_init | global_shutdown | notify_all | Client_Start | Client_Stop | Client_dtor
  | ConfigManager_Start | ConfigManager_Stop | ConfigManager_dtor | SubscriptionManager_Start
  | SubscriptionManager_Stop | SubscriptionManager_dtor =>
    cases hact
    cases h
    exact ⟨rfl, rfl, rfl, rfl, rfl⟩

/-- A turn of the caller uses up one turn of the plan. -/
theorem Planned.caller {n p : ℕ} {c c' : Client} {es : List ClientEvent} (h : Planned n p c)
    (hstep : c.step .caller = some (c', es)) :
    ∃ n' p', n = n' + 1 ∧ es.foldlM flushPhase p = some p' ∧ Planned n' p' c' := by
  obtain ⟨o', b, hexec, hstable, hgone⟩ := h.plan
  rw [step] at hstep
  cases hcode : c.code with
  | nil =>
    rw [hcode] at hstep
    cases hstep
  | cons i rest =>
    rw [hcode] at hstep hexec
    cases n with
    | zero => cases hexec
    | succ n =>
      have hrunning : ¬ c.terminated = true := by rw [h.terminated]; exact Bool.false_ne_true
      dsimp only at hstep
      rw [if_neg hrunning] at hstep
      rw [Owned.exec] at hexec
      have hflag : (c.owned p).flag = c.flag := rfl
      rw [hflag] at hexec
      cases hbody : i.body c.flag with
      | some body =>
        rw [hbody] at hstep hexec
        cases hstep
        exact ⟨n, p, rfl, rfl, h.terminated, h.quiet, o', b, hexec, hstable, hgone⟩
      | none =>
        rw [hbody] at hstep hexec
        obtain ⟨o, hact, hrest⟩ := Option.bind_eq_some_iff.mp hexec
        obtain ⟨hcode', hgone', hterminated', hevents, howned⟩ :=
          execute_cases (c := c.setCode rest) hact hstep
        refine ⟨n, o.phase, rfl, hevents, hterminated'.trans h.terminated, ?_, o', b, ?_, hstable,
          hgone' ▸ hgone⟩
        · rw [howned]
          exact Owned.act_quiet hact h.quiet
        · rw [howned, hcode']
          exact hrest

theorem Planned.worker {n p : ℕ} {c c' : Client} {w : Worker} {throws : Bool}
    {es : List ClientEvent} (h : Planned n p c) (hstep : c.step (.worker w throws) = some (c', es)) :
    es.foldlM flushPhase p = some p ∧ Planned n p c' ∧ c'.code = c.code := by
  rw [step, h.terminated, if_neg Bool.false_ne_true] at hstep
  obtain ⟨t, rfl, ht, hw, hes⟩ := work_cases hstep
  have howned : (c.setThread w t).owned p = c.owned p := by
    rw [owned_setThread, ht, ← hw]
    exact congrArg (fun j => { c.owned p with joinable := j })
      (Function.update_eq_self w (c.owned p).joinable)
  refine ⟨?_, ⟨h.terminated, howned ▸ h.quiet, howned ▸ h.plan⟩, rfl⟩
  rcases hes with rfl | rfl
  · rfl
  · have hphase : flushPhase p (.round w) = some p := by
      by_cases hp : p = 0
      · subst hp
        cases w <;> rfl
      · have hquiet := h.quiet hp
        rw [Owned.quiet, Bool.and_eq_true, Bool.not_eq_true', Bool.not_eq_true'] at hquiet
        cases w with
        | refresher => exact flushPhase_refresher p
        | sender => exact absurd (hquiet.1.symm.trans hw) Bool.false_ne_true
        | sub_refresher => exact absurd (hquiet.2.symm.trans hw) Bool.false_ne_true
    rw [List.foldlM_cons, hphase]
    rfl

theorem busy_cases {c c' : Client} {w : Option Worker} {es : List ClientEvent}
    (h : c.step (.busy w) = some (c', es)) :
    c.inside w = true ∧ c' = { c with spent := Function.update c.spent w (c.spent w + 1) } ∧
      es = [] := by
  rw [step] at h
  obtain ⟨hinside, hc'⟩ := Option.ite_none_right_eq_some.mp h
  cases hc'
  exact ⟨hinside.2, rfl, rfl⟩

theorem Planned.call {n p : ℕ} {c c' : Client} {m : ClientCall} {es : List ClientEvent}
    (h : Planned n p c) (hstep : c.step (.call m) = some (c', es)) :
    p = 0 ∧ es = [] ∧ Planned 30 0 c' := by
  obtain ⟨o', b, hexec, hstable, hgone⟩ := h.plan
  rw [step] at hstep
  obtain ⟨hready, hc'⟩ := Option.ite_none_right_eq_some.mp hstep
  cases hc'
  rw [hready.2.2, Owned.exec] at hexec
  cases hexec
  obtain ⟨o', ho', hstable'⟩ := Owned.exec_call hstable m
  have hp : p = 0 := hstable.phase
  subst hp
  refine ⟨rfl, rfl, h.terminated, h.quiet, o', _, ho', hstable', ?_⟩
  intro hdtor
  rw [decide_eq_true_iff] at hdtor
  rw [hdtor]
  rfl

theorem runBy_planned {c : Client} {schedule : List ClientTurn} {events : List ClientEvent}
    (hrun : runBy step create schedule = some (c, events)) :
    ∃ n p, n ≤ 30 ∧ events.foldlM flushPhase 0 = some p ∧ Planned n p c := by
  refine runBy_induction (P := fun _ c events =>
    ∃ n p, n ≤ 30 ∧ events.foldlM flushPhase 0 = some p ∧ Planned n p c) ?_ ?_ hrun
  · refine ⟨0, 0, Nat.zero_le 30, rfl, rfl, fun h => absurd rfl h, _, false, rfl, ?_, fun _ => rfl⟩
    exact ⟨fun _ => rfl, fun _ => rfl, rfl⟩
  · intro done t c before c' es _ hplanned hstep
    obtain ⟨n, p, hn, hevents, hplan⟩ := hplanned
    have hfold : ∀ q, es.foldlM flushPhase p = some q →
        (before ++ es).foldlM flushPhase 0 = some q := by
      intro q hq
      rw [List.foldlM_append, hevents]
      exact hq
    cases t with
    | call m =>
      obtain ⟨rfl, rfl, hplan'⟩ := hplan.call hstep
      exact ⟨30, 0, le_rfl, hfold 0 rfl, hplan'⟩
    | caller =>
      obtain ⟨n', p', rfl, hes, hplan'⟩ := hplan.caller hstep
      exact ⟨n', p', by omega, hfold p' hes, hplan'⟩
    | worker w throws =>
      obtain ⟨hes, hplan', _⟩ := hplan.worker hstep
      exact ⟨n, p, hn, hfold p hes, hplan'⟩
    | busy w =>
      obtain ⟨_, rfl, rfl⟩ := busy_cases hstep
      exact ⟨n, p, hn, hfold p rfl, hplan.terminated, hplan.quiet, hplan.plan⟩

theorem Planned.quiet_of_head {n p : ℕ} {c : Client} (h : Planned n p c) {i : Instr}
    {rest : List Instr} (hcode : c.code = i :: rest) (hi : i = .flush_metrics ∨ i = .SetOffset) :
    (c.owned p).quiet = true := by
  obtain ⟨o', b, hexec, -⟩ := h.plan
  rw [hcode] at hexec
  cases n with
  | zero => cases hexec
  | succ n =>
    rcases hi with rfl | rfl <;>
    · obtain ⟨o, hact, _⟩ := Option.bind_eq_some_iff.mp hexec
      exact (Option.ite_none_right_eq_some.mp hact).1

/-- In every interleaving of the calls of a client with its three threads: no thread object
is overwritten, joined or destroyed at a wrong time; a stop flushes, moves the clock and
flushes again, while the sender and the refresher of subscriptions are gone; and between two
calls the three threads are there if the client is started, and none is otherwise. -/
theorem run_safe {c : Client} {schedule : List ClientTurn} {events : List ClientEvent}
    (hrun : runBy step create schedule = some (c, events)) :
    c.terminated = false ∧
      (∀ i rest, c.code = i :: rest → i = .flush_metrics ∨ i = .SetOffset →
        c.thread .sender = .absent ∧ c.thread .sub_refresher = .absent) ∧
      ∃ p, events.foldlM flushPhase 0 = some p ∧
        (c.code = [] → p = 0 ∧ ∃ b, (∀ f, c.flag f = b) ∧
          (∀ w, (c.thread w).joinable = b) ∧ (c.gone = true → b = false)) := by
  obtain ⟨n, p, -, hevents, hplan⟩ := runBy_planned hrun
  refine ⟨hplan.terminated, ?_, p, hevents, ?_⟩
  · intro i rest hcode hi
    have hquiet := hplan.quiet_of_head hcode hi
    rw [Owned.quiet, Bool.and_eq_true, Bool.not_eq_true', Bool.not_eq_true'] at hquiet
    exact ⟨by simpa [owned, Thread.joinable] using hquiet.1,
      by simpa [owned, Thread.joinable] using hquiet.2⟩
  · intro hcode
    obtain ⟨o', b, hexec, hstable, hgone⟩ := hplan.plan
    rw [hcode, Owned.exec] at hexec
    cases hexec
    exact ⟨hstable.phase, b, hstable.flags, hstable.threads, hgone⟩

def startStop : List ClientTurn :=
  .call (.Start true) :: List.replicate 11 .caller ++
    [.worker .sender false, .worker .sub_refresher false, .worker .sub_refresher true,
      .call .Stop] ++ List.replicate 4 .caller ++ List.replicate 3 (.worker .sender false) ++
    [.caller, .worker .sub_refresher false] ++ List.replicate 7 .caller ++
    [.worker .refresher false] ++ List.replicate 3 .caller

theorem run_safe_startStop :
    ∃ c events, runBy step create startStop = some (c, events) ∧ c.terminated = false ∧
      events = [.refresh_configs, .round .sender, .round .sub_refresher, .flush_metrics,
        .SetOffset, .flush_metrics] ∧
      ∃ p, events.foldlM flushPhase 0 = some p ∧ (c.code = [] → p = 0) := by
  have hevents : (runBy step create startStop).map Prod.snd = some [.refresh_configs,
      .round .sender, .round .sub_refresher, .flush_metrics, .SetOffset, .flush_metrics] := by
    decide +kernel
  obtain ⟨r, hrun, hr⟩ := Option.map_eq_some_iff.mp hevents
  obtain ⟨hterminated, -, p, hp, hidle⟩ := run_safe hrun
  exact ⟨r.1, r.2, hrun, hterminated, hr, p, hp, fun h => (hidle h).1⟩

/-! ### Calls return -/

/-- The caller waits for this thread. -/
def awaits (c : Client) (w : Worker) : Bool := c.code.head? = some (.join w)

/-- A turn of the caller, or of a thread that the caller waits for, which ends something. -/
def progress (c : Client) : ClientTurn → Bool
  | .caller => true
  | .worker w _ => c.awaits w
  | .busy _ | .call _ => false

/-- Any turn of the caller, or of a thread that the caller waits for. -/
def concerns (c : Client) : ClientTurn → Bool
  | .busy none => true
  | .busy (some w) => c.awaits w
  | t => c.progress t

end Client

def Thread.ahead : Thread → ℕ
  | absent | finished => 0
  | test => 1
  | wait => 2
  | round => 3

namespace Client

def waiting (c : Client) : ℕ :=
  match c.code with
  | .join w :: _ => (c.thread w).ahead
  | _ => 0

theorem waiting_le (c : Client) : c.waiting ≤ 3 := by
  rw [waiting]
  split
  · rename_i w rest _
    cases c.thread w <;> decide
  · omega

/-- A thread is joined only after it was told to stop. -/
theorem Planned.should_run_of_join {n p : ℕ} {c : Client} (h : Planned n p c) {w : Worker}
    {rest : List Instr} (hcode : c.code = .join w :: rest) :
    (c.thread w).joinable = true ∧ c.should_run w = false := by
  obtain ⟨o', b, hexec, -⟩ := h.plan
  rw [hcode] at hexec
  cases n with
  | zero => cases hexec
  | succ n =>
    obtain ⟨o, hact, _⟩ := Option.bind_eq_some_iff.mp hexec
    obtain ⟨hjoinable, hstop⟩ := (Option.ite_none_right_eq_some.mp hact).1
    refine ⟨hjoinable, ?_⟩
    cases w <;> exact hstop

/-- A thread that was told to stop comes nearer to its end with every turn. -/
theorem work_ahead {c c' : Client} {w : Worker} {throws : Bool} {es : List ClientEvent}
    (hstop : c.should_run w = false) (h : c.work w throws = some (c', es)) :
    (c'.thread w).ahead < (c.thread w).ahead := by
  rw [work] at h
  cases hthread : c.thread w with
  | absent | finished =>
    rw [hthread] at h
    cases h
  | test =>
    rw [hthread] at h
    dsimp only at h
    rw [hstop, if_neg Bool.false_ne_true] at h
    cases h
    rw [setThread_self]
    decide
  | round =>
    rw [hthread] at h
    dsimp only at h
    split at h <;> cases h <;> rw [setThread_self] <;> decide
  | wait =>
    rw [hthread] at h
    cases h
    rw [setThread_self]
    decide

theorem waiting_worker {c c' : Client} {w : Worker} {throws : Bool} {es : List ClientEvent}
    {n p : ℕ} (hplan : Planned n p c) (hcode : c'.code = c.code)
    (h : c.work w throws = some (c', es)) :
    c'.waiting + (if c.awaits w then 1 else 0) ≤ c.waiting := by
  rw [awaits, waiting, waiting, hcode]
  by_cases hw : c.code.head? = some (.join w)
  · obtain ⟨rest, hrest⟩ := List.head?_eq_some_iff.mp hw
    have hlt := work_ahead (hplan.should_run_of_join hrest).2 h
    rw [hrest]
    simp only [List.head?_cons, decide_true, if_true]
    omega
  · rw [decide_eq_false hw, if_neg Bool.false_ne_true, add_zero]
    obtain ⟨t, rfl, -⟩ := work_cases h
    split
    · rename_i w' rest hrest
      have hne : w' ≠ w := by
        intro heq
        rw [hrest, heq] at hw
        exact hw rfl
      rw [setThread_of_ne hne]
    · exact le_rfl

theorem work_isSome {c : Client} {w : Worker} (hjoinable : (c.thread w).joinable = true)
    (hfinished : c.thread w ≠ .finished) (throws : Bool) : (c.work w throws).isSome := by
  rw [work]
  cases hthread : c.thread w with
  | absent =>
    rw [hthread] at hjoinable
    cases hjoinable
  | finished => exact absurd hthread hfinished
  | test | round =>
    dsimp only
    split <;> rfl
  | wait => rfl

theorem execute_isSome {c : Client} {i : Instr}
    (h : ∀ w, i = .join w → c.thread w = .finished) : (c.execute i).isSome := by
  cases i with
  | join w =>
    rw [execute, h w rfl]
    rfl
  | spawn w | thread_dtor w =>
    rw [execute]
    split <;> rfl
  | set f b | refresh_configs | flush_metrics | SetOffset | global_init | global_shutdown
  | notify_all | Client_Start | Client_Stop | Client_dtor | ConfigManager_Start
  | ConfigManager_Stop | ConfigManager_dtor | SubscriptionManager_Start
  | SubscriptionManager_Stop | SubscriptionManager_dtor => rfl

/-- Once a call has begun, the caller or else the thread that it waits for can take a
turn. -/
theorem Planned.progress {n p : ℕ} {c : Client} (h : Planned n p c) (hcode : c.code ≠ []) :
    ∃ t, c.progress t = true ∧ (c.step t).isSome := by
  have hrunning : ¬ c.terminated = true := by rw [h.terminated]; exact Bool.false_ne_true
  cases hi : c.code with
  | nil => exact absurd hi hcode
  | cons i rest =>
    by_cases hjoin : ∃ w, i = .join w ∧ c.thread w ≠ .finished
    · obtain ⟨w, rfl, hfinished⟩ := hjoin
      refine ⟨.worker w false, ?_, ?_⟩
      · rw [Client.progress, awaits, hi]
        exact decide_eq_true rfl
      · rw [step, if_neg hrunning]
        exact work_isSome (h.should_run_of_join hi).1 hfinished false
    · refine ⟨.caller, rfl, ?_⟩
      rw [step, hi]
      dsimp only
      rw [if_neg hrunning]
      split
      · rfl
      · apply execute_isSome
        intro w hw
        by_contra hfinished
        exact hjoin ⟨w, hw, hfinished⟩

theorem update_zero_le (spent : Option Worker → ℕ) (w w' : Option Worker) :
    Function.update spent w 0 w' ≤ spent w' := by
  by_cases hw : w' = w
  · subst hw
    rw [Function.update_self]
    exact Nat.zero_le _
  · rw [Function.update_of_ne hw]

theorem execute_spent_le {c c' : Client} {i : Instr} {es : List ClientEvent}
    (h : c.execute i = some (c', es)) (w : Option Worker) : c'.spent w ≤ c.spent w := by
  cases i with
  | join w' =>
    rw [execute] at h
    cases hthread : c.thread w' <;> rw [hthread] at h <;> cases h
    · exact le_rfl
    · exact update_zero_le _ _ w
  | spawn w' =>
    rw [execute] at h
    split at h <;> cases h
    · exact le_rfl
    · exact update_zero_le _ _ w
  | thread_dtor w' =>
    rw [execute] at h
    split at h <;> cases h <;> exact le_rfl
  | set f b | refresh_configs | flush_metrics | SetOffset | global_init | global_shutdown
  | notify_all | Client_Start | Client_Stop | Client_dtor | ConfigManager_Start
  | ConfigManager_Stop | ConfigManager_dtor | SubscriptionManager_Start
  | SubscriptionManager_Stop | SubscriptionManager_dtor =>
    cases h
    exact le_rfl

theorem spent_le_of_step {c c' : Client} {bound : ℕ} {t : ClientTurn} {es : List ClientEvent}
    (hle : ∀ w, c.spent w ≤ bound) (hstep : stepWithin bound c t = some (c', es)) :
    ∀ w, c'.spent w ≤ bound := by
  obtain ⟨hok, hstep⟩ := guarded_eq_some.mp hstep
  intro w
  cases t with
  | call m =>
    obtain ⟨_, hc'⟩ := Option.ite_none_right_eq_some.mp hstep
    cases hc'
    exact hle w
  | caller =>
    rw [step] at hstep
    split at hstep
    · cases hstep
    · obtain ⟨_, hstep⟩ := Option.ite_none_left_eq_some.mp hstep
      split at hstep
      · cases hstep
        exact (update_zero_le _ _ w).trans (hle w)
      · exact (execute_spent_le hstep w).trans ((update_zero_le _ _ w).trans (hle w))
  | worker w' throws =>
    obtain ⟨_, hwork⟩ := Option.ite_none_left_eq_some.mp hstep
    obtain ⟨t, rfl, -⟩ := work_cases hwork
    exact (update_zero_le _ _ w).trans (hle w)
  | busy w' =>
    obtain ⟨_, rfl, -⟩ := busy_cases hstep
    dsimp only
    by_cases hw : w = w'
    · subst hw
      rw [Function.update_self]
      exact of_decide_eq_true hok
    · rw [Function.update_of_ne hw]
      exact hle w

theorem spent_le_of_runBy {c : Client} {bound : ℕ} {schedule : List ClientTurn}
    {events : List ClientEvent} (hrun : runBy (stepWithin bound) create schedule = some (c, events)) :
    ∀ w, c.spent w ≤ bound := by
  refine runBy_induction (P := fun _ c _ => ∀ w, c.spent w ≤ bound) (fun _ => Nat.zero_le _) ?_ hrun
  intro _ t c _ c' es _ hle hstep
  exact spent_le_of_step hle hstep

/-- The turns spent in what the caller does, or waits for. -/
def used (c : Client) : ℕ :=
  match c.code with
  | .join w :: _ => c.spent (some w)
  | _ => c.spent none

/-- `k` more turns that concern the caller are enough, with those that were used. -/
structure Budget (bound k : ℕ) (c : Client) : Prop where
  spent : ∀ w, c.spent w ≤ bound
  plan : ∃ n p, Planned n p c ∧ (4 * n + c.waiting) * (bound + 1) ≤ k + c.used

theorem used_le {c : Client} {bound : ℕ} (h : ∀ w, c.spent w ≤ bound) : c.used ≤ bound := by
  rw [used]
  split <;> exact h _

theorem Budget.of_lt {bound k m : ℕ} {c : Client} (m' : ℕ) (c' : Client)
    (hc : ∀ w, c.spent w ≤ bound)
    (hm : m * (bound + 1) ≤ k + c.used) (hlt : m' < m) :
    ∃ k', m' * (bound + 1) ≤ k' + c'.used ∧ k' + 1 ≤ k := by
  refine ⟨m' * (bound + 1), Nat.le_add_right _ _, ?_⟩
  have hused := used_le hc
  have hmul : (m' + 1) * (bound + 1) ≤ m * (bound + 1) := Nat.mul_le_mul_right _ hlt
  rw [Nat.add_mul, Nat.one_mul] at hmul
  omega

theorem used_setThread {c : Client} {w : Worker} (hw : ¬ c.awaits w = true) (t : Thread) :
    (c.setThread w t).used = c.used := by
  have hcode : (c.setThread w t).code = c.code := rfl
  rw [used, used, hcode]
  split
  · rename_i w' rest hrest
    have hne : w' ≠ w := by
      rintro rfl
      exact hw (by rw [awaits, hrest]; exact decide_eq_true rfl)
    exact Function.update_of_ne (fun h => hne (Option.some.inj h)) 0 c.spent
  · exact Function.update_of_ne (Option.some_ne_none w).symm 0 c.spent

theorem used_busy {c : Client} {w : Option Worker} (hinside : c.inside w = true) :
    Client.used { c with spent := Function.update c.spent w (c.spent w + 1) } =
      c.used + if c.concerns (.busy w) then 1 else 0 := by
  cases w with
  | none =>
    have hconcerns : c.concerns (.busy none) = true := rfl
    rw [if_pos hconcerns, used, used]
    split
    · rename_i w' rest hrest
      change c.code = _ at hrest
      simp [inside, hrest] at hinside
    · exact Function.update_self none _ c.spent
  | some w =>
    have hconcerns : c.concerns (.busy (some w)) = c.awaits w := rfl
    rw [hconcerns, awaits, used, used]
    split
    · rename_i w' rest hrest
      change c.code = _ at hrest
      by_cases hw : w' = w
      · subst hw
        simp [hrest]
      · have hne : some w' ≠ some w := fun h => hw (Option.some.inj h)
        simp [hrest, hw]
    · rename_i hother
      have hne : ¬ c.code.head? = some (.join w) := by
        intro hhead
        obtain ⟨rest, hrest⟩ := List.head?_eq_some_iff.mp hhead
        exact hother w rest hrest
      simp [hne]

theorem Planned.pos {n p : ℕ} {c : Client} (h : Planned n p c) (hcode : c.code ≠ []) : 0 < n := by
  obtain ⟨o', b, hexec, -⟩ := h.plan
  apply Nat.pos_of_ne_zero
  rintro rfl
  cases hi : c.code with
  | nil => exact hcode hi
  | cons i rest =>
    rw [hi] at hexec
    cases hexec

theorem code_ne_nil {c : Client} {w : Option Worker} (hinside : c.inside w = true)
    (hconcerns : c.concerns (.busy w) = true) : c.code ≠ [] := by
  intro hcode
  cases w with
  | none => simp [inside, hcode] at hinside
  | some w => simp [concerns, awaits, hcode] at hconcerns

theorem Budget.step {bound k : ℕ} {c c' : Client} {t : ClientTurn} {es : List ClientEvent}
    (h : Budget bound k c) (ht : ∀ m, t ≠ .call m) (hstep : stepWithin bound c t = some (c', es)) :
    ∃ k', Budget bound k' c' ∧ k' + (if c.concerns t then 1 else 0) ≤ k := by
  obtain ⟨hspent, n, p, hplan, hle⟩ := h
  have hspent' := spent_le_of_step hspent hstep
  obtain ⟨-, hstep⟩ := guarded_eq_some.mp hstep
  cases t with
  | call m => exact absurd rfl (ht m)
  | caller =>
    obtain ⟨n', p', rfl, _, hplan'⟩ := hplan.caller hstep
    have hwaiting := c'.waiting_le
    obtain ⟨k', hle', hk⟩ := Budget.of_lt (4 * n' + c'.waiting) c' hspent hle
      (by omega)
    exact ⟨k', ⟨hspent', n', p', hplan', hle'⟩, hk⟩
  | worker w throws =>
    obtain ⟨_, hplan', hcode⟩ := hplan.worker hstep
    have hrunning : ¬ c.terminated = true := by rw [hplan.terminated]; exact Bool.false_ne_true
    rw [Client.step, if_neg hrunning] at hstep
    have hwaiting := waiting_worker hplan hcode hstep
    have hconcerns : c.concerns (.worker w throws) = c.awaits w := rfl
    rw [hconcerns]
    split_ifs at hwaiting ⊢ with hw
    · obtain ⟨k', hle', hk⟩ := Budget.of_lt (4 * n + c'.waiting) c' hspent hle
        (by omega)
      exact ⟨k', ⟨hspent', n, p, hplan', hle'⟩, hk⟩
    · obtain ⟨t, rfl, -⟩ := work_cases hstep
      refine ⟨k, ⟨hspent', n, p, hplan', ?_⟩, le_rfl⟩
      rw [used_setThread hw]
      exact (Nat.mul_le_mul_right _ (by omega)).trans hle
  | busy w =>
    obtain ⟨hinside, rfl, -⟩ := busy_cases hstep
    have hused := used_busy hinside
    have hplan' : Planned n p { c with spent := Function.update c.spent w (c.spent w + 1) } :=
      ⟨hplan.terminated, hplan.quiet, hplan.plan⟩
    have hused' := used_le hspent'
    split_ifs at hused ⊢ with hw
    · have hpos := hplan.pos (code_ne_nil hinside hw)
      have hone : 1 * (bound + 1) ≤ (4 * n + c.waiting) * (bound + 1) :=
        Nat.mul_le_mul_right _ (by omega)
      refine ⟨k - 1, ⟨hspent', n, p, hplan', ?_⟩, by omega⟩
      rw [hused]
      change (4 * n + c.waiting) * (bound + 1) ≤ _
      omega
    · refine ⟨k, ⟨hspent', n, p, hplan', ?_⟩, le_rfl⟩
      rw [hused]
      exact hle

/-- A call that was begun returns, if no round, refresh or flush goes on for ever: some turn of
the caller or of the thread that it waits for ends something, and where none of them takes
more than `bound` turns before that, no run in which nothing new is called has more than
`123 * (bound + 1)` turns of these two. -/
theorem call_returns {c : Client} {bound : ℕ} {schedule : List ClientTurn}
    {events : List ClientEvent} (hrun : runBy (stepWithin bound) create schedule = some (c, events)) :
    (c.code ≠ [] → ∃ t, c.progress t = true ∧ (c.step t).isSome) ∧
      ∀ later c' marks, (∀ t ∈ later, ∀ m, t ≠ .call m) →
        runBy (marking Client.concerns (stepWithin bound)) c later = some (c', marks) →
          marks.length ≤ 123 * (bound + 1) := by
  obtain ⟨n, p, hn, -, hplan⟩ := runBy_planned (runBy_of_guarded hrun)
  refine ⟨hplan.progress, fun later c' marks hlater hmarks => ?_⟩
  have hle := c.waiting_le
  have hstart : Budget bound (123 * (bound + 1)) c := by
    refine ⟨spent_le_of_runBy hrun, n, p, hplan, ?_⟩
    exact (Nat.mul_le_mul_right _ (by omega)).trans (Nat.le_add_right _ _)
  refine length_marks_le (I := Budget bound) hstart hlater ?_ hmarks
  intro k c t c' es hbudget ht hstep
  exact hbudget.step ht hstep

theorem call_returns_startStop :
    ∃ c events, runBy (stepWithin 2) create (startStop.take 19) = some (c, events) ∧
      (c.code ≠ [] → ∃ t, c.progress t = true ∧ (c.step t).isSome) ∧
      ∀ c' marks, runBy (marking Client.concerns (stepWithin 2)) c
        [.busy (some .sender), .busy (some .sender), .worker .sender false,
          .worker .refresher false, .worker .sender false] = some (c', marks) →
        marks.length ≤ 123 * (2 + 1) := by
  have hsome : (runBy (stepWithin 2) create (startStop.take 19)).isSome = true := by
    decide +kernel
  obtain ⟨r, hrun⟩ := Option.isSome_iff_exists.mp hsome
  obtain ⟨hprogress, hbound⟩ := call_returns hrun
  exact ⟨r.1, r.2, hrun, hprogress, fun c' marks => hbound _ c' marks (by simp)⟩

end Client

end AtlasNative
