import AtlasNative.HeldMeters
import AtlasNative.Lib.Interleavings
import Mathlib.Logic.Function.Basic

/-!
# The registry shared by threads

Threads look meters up, share and drop the pointers that they get, update meters and measure
the registry, one action at a time. The mutex of the registry guards its map while a meter is
inserted and while meters expire. The copy that a measurement begins with walks over the map
without the mutex: where the map changes meanwhile the code has no defined behaviour, and what
is said of runs is said of those where it does not.
-/

namespace AtlasNative

open ExactDouble Interleavings
set_option autoImplicit false

/-- A handle is what a lookup has returned, and may be handed to other threads. -/
inductive PointerUse where
  | handle
  | variable_
  | copy
  deriving DecidableEq

structure ThreadPointer (ι : Type) where
  thread : ι
  use : PointerUse
  address : ℕ
  deriving DecidableEq

/-- Where a thread is in `create_and_register_as_needed` or in `measurements`. -/
inductive RegistryPc where
  | locking (new_meter_ptr : ℕ)
  | emplacing (new_meter_ptr : ℕ)
  | unlocking (new_meter_ptr meter_ptr : ℕ)
  | comparing (new_meter_ptr meter_ptr : ℕ)
  | reserving
  /-- in the loop of `meters`, which does not lock -/
  | copying (meters left : List ℕ)
  | resizing (all_meters : List ℕ)
  | measuring (all_meters left : List ℕ)
  | destructing (all_meters : List ℕ)
  | lockingToExpire
  | expiring (left : List (Sigma fun _ : Id => ℕ)) (expired : ℤ)
  | unlockingExpired

inductive RegistryTurn (ι : Type) where
  | lookup (kind : MeterKind) (id : Id)
  | update (a : ℕ) (op : MeterMethod)
  | drop (a : ℕ)
  | share (j : ι) (a : ℕ)
  | measurements
  | act
  | tick (wall monotonic : ℕ)

inductive ThreadEvent where
  /-- a meter of another class has the id -/
  | isolated (a : ℕ)
  | measured (a : ℕ) (measurements : Measurements)
  | erased (a : ℕ)
  deriving DecidableEq

/-- The fields of `reg` that are about pointers of callers are not used. -/
structure RegistryThreads (ι : Type) where
  reg : SharedRegistry
  meters_mutex : Option ι
  pointers : List (ThreadPointer ι)
  pc : ι → Option RegistryPc

namespace RegistryThreads
variable {ι : Type} [DecidableEq ι]

section Code
variable (s : RegistryThreads ι) (i : ι)

def goto (pc : Option RegistryPc) : RegistryThreads ι :=
  { s with pc := Function.update s.pc i pc }

/-- The registry with all pointers that threads hold. -/
def held : SharedRegistry :=
  { s.reg with handles := s.pointers.map ThreadPointer.address, all_meters := [] }

def Classes (a b : ℕ) : Prop :=
  s.reg.objects[a]?.map AnyMeter.GetClass = s.reg.objects[b]?.map AnyMeter.GetClass

instance (a b : ℕ) : Decidable (s.Classes a b) := inferInstanceAs (Decidable (_ = _))

def act : RegistryPc → Option (RegistryThreads ι × List ThreadEvent)
  | .locking p =>
    if s.meters_mutex = none then
      some ({ s with meters_mutex := some i }.goto i (some (.emplacing p)), [])
    else none
  | .emplacing p =>
    s.reg.objects[p]?.map fun meter =>
      let inserted := s.reg.insert_if_needed meter.GetId p
      ({ s with
          reg := inserted.1
          pointers := ⟨i, .variable_, inserted.2⟩ :: s.pointers }.goto i
        (some (.unlocking p inserted.2)), [])
  | .unlocking p q => some ({ s with meters_mutex := none }.goto i (some (.comparing p q)), [])
  | .comparing p q =>
    let rest := (s.pointers.erase ⟨i, .variable_, q⟩).erase ⟨i, .variable_, p⟩
    if s.Classes q p then some ({ s with pointers := ⟨i, .handle, q⟩ :: rest }.goto i none, [])
    else some ({ s with pointers := ⟨i, .handle, p⟩ :: rest }.goto i none, [.isolated p])
  | .reserving => some (s.goto i (some (.copying [] s.reg.registered)), [])
  | .copying meters [] => some (s.goto i (some (.resizing meters)), [])
  | .copying meters (a :: left) =>
    some ({ s with pointers := ⟨i, .copy, a⟩ :: s.pointers }.goto i
      (some (.copying (meters ++ [a]) left)), [])
  | .resizing all_meters =>
    some ({ s with
        reg := s.reg.call s.reg.meters_size (.Update (.fin all_meters.length)) }.goto i
      (some (.measuring all_meters all_meters)), [])
  | .measuring all_meters [] => some (s.goto i (some (.destructing all_meters)), [])
  | .measuring all_meters (a :: left) =>
    let measured := SharedRegistry.measureOne (s.reg, []) a
    some ({ s with reg := measured.1 }.goto i (some (.measuring all_meters left)),
      [.measured a measured.2])
  | .destructing [] => some (s.goto i (some .lockingToExpire), [])
  | .destructing (a :: all_meters) =>
    some ({ s with pointers := s.pointers.erase ⟨i, .copy, a⟩ }.goto i
      (some (.destructing all_meters)), [])
  | .lockingToExpire =>
    if s.meters_mutex = none then
      some ({ s with meters_mutex := some i }.goto i
        (some (.expiring s.reg.meters_.entries 0)), [])
    else none
  | .expiring [] expired =>
    some ({ s with reg := s.reg.call s.reg.expired_meters (.Add expired) }.goto i
      (some .unlockingExpired), [])
  | .expiring (it :: left) expired =>
    if s.held.expires it.2 then
      some ({ s with reg := { s.reg with meters_ := s.reg.meters_.erase it.1 } }.goto i
        (some (.expiring left (expired + 1))), [.erased it.2])
    else some (s.goto i (some (.expiring left expired)), [])
  | .unlockingExpired => some ({ s with meters_mutex := none }.goto i none, [])

def step (t : ι × RegistryTurn ι) : Option (RegistryThreads ι × List ThreadEvent) :=
  match t.2, s.pc t.1 with
  | .tick wall monotonic, _ =>
    some ({ s with reg :=
      { s.reg with wall := s.reg.wall + wall, monotonic := s.reg.monotonic + monotonic } }, [])
  | .act, some pc => s.act t.1 pc
  | .lookup kind id, none =>
    let new_meter_ptr := s.reg.objects.length
    let meter := AnyMeter.create id s.reg.freq_millis_ s.reg.wall kind
    some ({ s with
        reg := { s.reg with objects := s.reg.objects ++ [meter] }
        pointers := ⟨t.1, .variable_, new_meter_ptr⟩ :: s.pointers }.goto t.1
      (some (.locking new_meter_ptr)), [])
  | .update a op, none =>
    if ⟨t.1, .handle, a⟩ ∈ s.pointers then some ({ s with reg := s.reg.call a op }, []) else none
  | .drop a, none =>
    if ⟨t.1, .handle, a⟩ ∈ s.pointers then
      some ({ s with pointers := s.pointers.erase ⟨t.1, .handle, a⟩ }, [])
    else none
  | .share j a, none =>
    if ⟨t.1, .handle, a⟩ ∈ s.pointers then
      some ({ s with pointers := ⟨j, .handle, a⟩ :: s.pointers }, [])
    else none
  | .measurements, none => some (s.goto t.1 (some .reserving), [])
  | _, _ => none

/-- The turn puts a meter into the map or removes one. -/
def changes (t : ι × RegistryTurn ι) : Bool :=
  match t.2, s.pc t.1 with
  | .act, some (.emplacing p) =>
    s.reg.objects[p]?.any fun meter => (s.reg.meters_.lookup meter.GetId).isNone
  | .act, some (.expiring (it :: _) _) => s.held.expires it.2
  | _, _ => false

end Code

def isCopying : Option RegistryPc → Bool
  | some (.copying _ _) => true
  | _ => false

/-- The map does not change while it is copied. -/
def undisturbed [Fintype ι] (s : RegistryThreads ι) (t : ι × RegistryTurn ι) : Bool :=
  !s.changes t || decide (∀ j, isCopying (s.pc j) = false)

/-- Nobody is in a call, and the registry has made its own two meters. -/
def create (ι : Type) (freq_millis wall monotonic : ℤ) : RegistryThreads ι :=
  ⟨.create freq_millis wall monotonic, none, [], fun _ => none⟩

/-! ### Where a thread is -/

/-- The object that the thread has constructed, while it is not registered. -/
def newPtr : Option RegistryPc → Option ℕ
  | some (.locking p) => some p
  | some (.emplacing p) => some p
  | some (.unlocking p q) => if q = p then none else some p
  | some (.comparing p q) => if q = p then none else some p
  | _ => none

/-- The object that was found registered, or has been registered. -/
def found : Option RegistryPc → Option ℕ
  | some (.unlocking _ q) => some q
  | some (.comparing _ q) => some q
  | _ => none

/-- What a copy has not come to yet. -/
def uncopied : Option RegistryPc → List ℕ
  | some (.copying _ left) => left
  | _ => []

def critical : Option RegistryPc → Bool
  | some (.emplacing _) => true
  | some (.unlocking _ _) => true
  | some (.expiring _ _) => true
  | some .unlockingExpired => true
  | _ => false

variable {s s' : RegistryThreads ι} {i : ι} {events es : List ThreadEvent}

@[simp] theorem goto_reg (pc : Option RegistryPc) : (s.goto i pc).reg = s.reg := rfl

@[simp] theorem goto_pointers (pc : Option RegistryPc) : (s.goto i pc).pointers = s.pointers := rfl

@[simp] theorem goto_mutex (pc : Option RegistryPc) :
    (s.goto i pc).meters_mutex = s.meters_mutex := rfl

@[simp] theorem goto_pc_self (pc : Option RegistryPc) : (s.goto i pc).pc i = pc :=
  Function.update_self ..

theorem goto_pc_of_ne {j : ι} (h : j ≠ i) (pc : Option RegistryPc) :
    (s.goto i pc).pc j = s.pc j := Function.update_of_ne h ..

/-- What is read of the place of a thread stays, if it stays for the one that moves. -/
theorem goto_reads {A : Type} (f : Option RegistryPc → A) {pc : Option RegistryPc}
    (h : f pc = f (s.pc i)) (j : ι) : f ((s.goto i pc).pc j) = f (s.pc j) := by
  by_cases hj : j = i
  · rw [hj, goto_pc_self, h]
  · rw [goto_pc_of_ne hj]

theorem measureOne_meters (acc : SharedRegistry × Measurements) (a : ℕ) :
    (SharedRegistry.measureOne acc a).1.meters_ = acc.1.meters_ := by
  unfold SharedRegistry.measureOne
  cases acc.1.objects[a]? with
  | none => rfl
  | some m =>
    dsimp only
    split <;> rfl

/-- What a turn is, and what it does. -/
theorem step_cases {t : RegistryTurn ι} (hstep : s.step (i, t) = some (s', es)) :
    (∃ wall monotonic, es = [] ∧
      s' = { s with reg := { s.reg with wall := wall, monotonic := monotonic } }) ∨
    (∃ pc, t = .act ∧ s.pc i = some pc ∧ s.act i pc = some (s', es)) ∨
    (s.pc i = none ∧ es = [] ∧
      ((∃ m, s' = { s with
          reg := { s.reg with objects := s.reg.objects ++ [m] }
          pointers := ⟨i, .variable_, s.reg.objects.length⟩ :: s.pointers }.goto i
            (some (.locking s.reg.objects.length))) ∨
        (∃ a op, s' = { s with reg := s.reg.call a op }) ∨
        (∃ a, s' = { s with pointers := s.pointers.erase ⟨i, .handle, a⟩ }) ∨
        (∃ j a, ⟨i, .handle, a⟩ ∈ s.pointers ∧
          s' = { s with pointers := ⟨j, .handle, a⟩ :: s.pointers }) ∨
        s' = s.goto i (some .reserving))) := by
  unfold RegistryThreads.step at hstep
  cases hpc : s.pc i with
  | none =>
    cases t with
    | lookup kind id =>
      simp only [hpc] at hstep
      cases hstep
      exact .inr (.inr ⟨rfl, rfl, .inl ⟨_, rfl⟩⟩)
    | update a op =>
      simp only [hpc] at hstep
      obtain ⟨-, hstep⟩ := Option.ite_none_right_eq_some.mp hstep
      cases hstep
      exact .inr (.inr ⟨rfl, rfl, .inr (.inl ⟨a, op, rfl⟩)⟩)
    | drop a =>
      simp only [hpc] at hstep
      obtain ⟨-, hstep⟩ := Option.ite_none_right_eq_some.mp hstep
      cases hstep
      exact .inr (.inr ⟨rfl, rfl, .inr (.inr (.inl ⟨a, rfl⟩))⟩)
    | share j a =>
      simp only [hpc] at hstep
      obtain ⟨ha, hstep⟩ := Option.ite_none_right_eq_some.mp hstep
      cases hstep
      exact .inr (.inr ⟨rfl, rfl, .inr (.inr (.inr (.inl ⟨j, a, ha, rfl⟩)))⟩)
    | measurements =>
      simp only [hpc] at hstep
      cases hstep
      exact .inr (.inr ⟨rfl, rfl, .inr (.inr (.inr (.inr rfl)))⟩)
    | act =>
      simp only [hpc] at hstep
      cases hstep
    | tick wall monotonic =>
      cases hstep
      exact .inl ⟨_, _, rfl, rfl⟩
  | some pc =>
    cases t with
    | act =>
      simp only [hpc] at hstep
      exact .inr (.inl ⟨pc, rfl, rfl, hstep⟩)
    | tick wall monotonic =>
      cases hstep
      exact .inl ⟨_, _, rfl, rfl⟩
    | _ =>
      simp only [hpc] at hstep
      cases hstep

/-! ### The mutex -/

/-- Whoever is in a critical section has the mutex, and what is left to be looked at when
meters expire is still in the map. -/
structure Guarded (s : RegistryThreads ι) : Prop where
  mutex : ∀ i, critical (s.pc i) = true → s.meters_mutex = some i
  left : ∀ i l n, s.pc i = some (.expiring l n) →
    l.NodupKeys ∧ ∀ e ∈ l, s.reg.meters_.lookup e.1 = some e.2

namespace Guarded

omit [DecidableEq ι] in
theorem create (freq_millis wall monotonic : ℤ) :
    (RegistryThreads.create ι freq_millis wall monotonic).Guarded :=
  ⟨fun _ h => (by cases h), fun _ _ _ h => (by cases h)⟩

omit [DecidableEq ι] in
theorem alone (h : s.Guarded) (hi : critical (s.pc i) = true) {j : ι}
    (hj : critical (s.pc j) = true) : j = i :=
  Option.some.inj ((h.mutex j hj).symm.trans (h.mutex i hi))

omit [DecidableEq ι] in
theorem congr (h : s.Guarded) (hpc : s'.pc = s.pc) (hmutex : s'.meters_mutex = s.meters_mutex)
    (hmeters : s'.reg.meters_ = s.reg.meters_) : s'.Guarded := by
  refine ⟨fun j hj => ?_, fun j l n hj => ?_⟩
  · rw [hmutex]
    exact h.mutex j (hpc ▸ hj)
  · rw [hmeters]
    exact h.left j l n (hpc ▸ hj)

/-- What the others rely on when the thread `i` moves. -/
theorem goto (h : s.Guarded) (hpcs : s'.pc = s.pc) {pc : Option RegistryPc}
    (hothers : ∀ j, j ≠ i → critical (s.pc j) = true →
      s'.meters_mutex = some j ∧ s'.reg.meters_ = s.reg.meters_)
    (hself : critical pc = true → s'.meters_mutex = some i)
    (hleft : ∀ l n, pc = some (.expiring l n) →
      l.NodupKeys ∧ ∀ e ∈ l, s'.reg.meters_.lookup e.1 = some e.2) :
    (s'.goto i pc).Guarded := by
  refine ⟨fun j hj => ?_, fun j l n hj => ?_⟩
  · by_cases hji : j = i
    · subst hji
      rw [goto_pc_self] at hj
      exact hself hj
    · rw [goto_pc_of_ne hji, hpcs] at hj
      exact (hothers j hji hj).1
  · by_cases hji : j = i
    · subst hji
      rw [goto_pc_self] at hj
      exact hleft l n hj
    · rw [goto_pc_of_ne hji, hpcs] at hj
      obtain ⟨hnodup, hlookup⟩ := h.left j l n hj
      have hcritical : critical (s.pc j) = true := by
        rw [hj]
        rfl
      rw [goto_reg, (hothers j hji hcritical).2]
      exact ⟨hnodup, hlookup⟩

/-- A thread moves outside of the critical sections. -/
theorem stay (h : s.Guarded) {pc : Option RegistryPc} (hpcs : s'.pc = s.pc)
    (hmutex : s'.meters_mutex = s.meters_mutex) (hmeters : s'.reg.meters_ = s.reg.meters_)
    (hpc : critical pc = false) : (s'.goto i pc).Guarded := by
  apply h.goto hpcs
  · intro j _ hj
    exact ⟨hmutex.trans (h.mutex j hj), hmeters⟩
  · intro htrue
    rw [hpc] at htrue
    cases htrue
  · rintro l n rfl
    cases hpc

theorem lock (h : s.Guarded) (hfree : s.meters_mutex = none) (hpcs : s'.pc = s.pc)
    (hmutex : s'.meters_mutex = some i) {pc : Option RegistryPc}
    (hleft : ∀ l n, pc = some (.expiring l n) →
      l.NodupKeys ∧ ∀ e ∈ l, s'.reg.meters_.lookup e.1 = some e.2) :
    (s'.goto i pc).Guarded := by
  apply h.goto hpcs
  · intro j _ hj
    have hheld := h.mutex j hj
    rw [hfree] at hheld
    cases hheld
  · intro _
    exact hmutex
  · exact hleft

/-- Inside a critical section the map may change. -/
theorem inside (h : s.Guarded) (hi : critical (s.pc i) = true) (hpcs : s'.pc = s.pc)
    {pc : Option RegistryPc} (hself : critical pc = true → s'.meters_mutex = some i)
    (hleft : ∀ l n, pc = some (.expiring l n) →
      l.NodupKeys ∧ ∀ e ∈ l, s'.reg.meters_.lookup e.1 = some e.2) :
    (s'.goto i pc).Guarded := by
  apply h.goto hpcs
  · intro j hji hj
    exact absurd (h.alone hi hj) hji
  · exact hself
  · exact hleft

theorem leave (h : s.Guarded) {pc : RegistryPc} {pc' : Option RegistryPc}
    (hi : s.pc i = some pc) (hpc : critical (some pc) = true) (hpcs : s'.pc = s.pc)
    (hpc' : critical pc' = false) : (s'.goto i pc').Guarded := by
  apply h.inside (hi ▸ hpc) hpcs
  · intro htrue
    rw [hpc'] at htrue
    cases htrue
  · rintro l n rfl
    cases hpc'

/-- The mutex is taken for the insertion. -/
theorem locking (h : s.Guarded) {p : ℕ} (hact : s.act i (.locking p) = some (s', es)) :
    s'.Guarded := by
  obtain ⟨hfree, hact⟩ := Option.ite_none_right_eq_some.mp hact
  cases hact
  apply h.lock hfree
  · rfl
  · rfl
  · intro l n hpc'
    cases hpc'

theorem emplacing (h : s.Guarded) {p : ℕ} (hpc : s.pc i = some (.emplacing p))
    (hact : s.act i (.emplacing p) = some (s', es)) : s'.Guarded := by
  obtain ⟨meter, -, hact⟩ := Option.map_eq_some_iff.mp hact
  cases hact
  have hi : critical (s.pc i) = true := by rw [hpc]; rfl
  apply h.inside hi
  · rfl
  · exact fun _ => h.mutex i hi
  · intro l n hpc'
    cases hpc'

/-- Everything that is in the map is left to be looked at. -/
theorem lockingToExpire (h : s.Guarded) (hact : s.act i .lockingToExpire = some (s', es)) :
    s'.Guarded := by
  obtain ⟨hfree, hact⟩ := Option.ite_none_right_eq_some.mp hact
  cases hact
  apply h.lock hfree
  · rfl
  · rfl
  · intro l n hpc'
    cases hpc'
    exact ⟨s.reg.meters_.nodupKeys,
      fun e he => AList.mem_lookup_iff.mpr he⟩

/-- One step of the loop: what it looks at goes, or stays, and nothing else changes. -/
theorem expiring (h : s.Guarded) {it : Sigma fun _ : Id => ℕ} {left : List (Sigma fun _ : Id => ℕ)}
    {expired : ℤ} (hpc : s.pc i = some (.expiring (it :: left) expired))
    (hact : s.act i (.expiring (it :: left) expired) = some (s', es)) : s'.Guarded := by
  have hi : critical (s.pc i) = true := by rw [hpc]; rfl
  have hmutex := h.mutex i hi
  obtain ⟨hnodup, hlookup⟩ := h.left i _ _ hpc
  obtain ⟨hfresh, hrest⟩ := List.nodupKeys_cons.mp hnodup
  obtain ⟨-, hkept⟩ := List.forall_mem_cons.mp hlookup
  rw [RegistryThreads.act] at hact
  split at hact
  · cases hact
    apply h.inside hi
    · rfl
    · exact fun _ => hmutex
    · intro l n hpc'
      cases hpc'
      refine ⟨hrest, fun e he => ?_⟩
      have hne : e.1 ≠ it.1 := by
        intro heq
        exact hfresh (heq ▸ List.mem_keys.mpr ⟨e.2, he⟩)
      exact (AList.lookup_erase_ne hne).trans (hkept e he)
  · cases hact
    apply h.inside hi
    · rfl
    · exact fun _ => hmutex
    · intro l n hpc'
      cases hpc'
      exact ⟨hrest, hkept⟩

theorem expired (h : s.Guarded) {n : ℤ} (hpc : s.pc i = some (.expiring [] n))
    (hact : s.act i (.expiring [] n) = some (s', es)) : s'.Guarded := by
  cases hact
  have hi : critical (s.pc i) = true := by rw [hpc]; rfl
  apply h.inside hi
  · rfl
  · exact fun _ => h.mutex i hi
  · intro l n hpc'
    cases hpc'

theorem measuring (h : s.Guarded) {all_meters left : List ℕ}
    (hact : s.act i (.measuring all_meters left) = some (s', es)) : s'.Guarded := by
  cases left with
  | nil =>
    cases hact
    apply h.stay <;> rfl
  | cons a left =>
    cases hact
    apply h.stay
    · rfl
    · rfl
    · exact measureOne_meters (s.reg, []) a
    · rfl

theorem act (h : s.Guarded) {pc : RegistryPc} (hpc : s.pc i = some pc)
    (hact : s.act i pc = some (s', es)) : s'.Guarded := by
  cases pc with
  | locking p => exact h.locking hact
  | emplacing p => exact h.emplacing hpc hact
  | unlocking | unlockingExpired =>
    cases hact
    apply h.leave hpc <;> rfl
  | comparing p q =>
    rw [RegistryThreads.act] at hact
    split at hact <;> cases hact <;> apply h.stay <;> rfl
  | reserving | resizing =>
    cases hact
    apply h.stay <;> rfl
  | copying meters left =>
    cases left <;> cases hact <;> apply h.stay <;> rfl
  | measuring all_meters left => exact h.measuring hact
  | destructing all_meters =>
    cases all_meters <;> cases hact <;> apply h.stay <;> rfl
  | lockingToExpire => exact h.lockingToExpire hact
  | expiring left n =>
    cases left with
    | nil => exact h.expired hpc hact
    | cons it left => exact h.expiring hpc hact

theorem step (h : s.Guarded) {t : ι × RegistryTurn ι} (hstep : s.step t = some (s', es)) :
    s'.Guarded := by
  rcases step_cases hstep with ⟨_, _, -, rfl⟩ | ⟨pc, -, hpc, hact⟩ | ⟨-, -, hidle⟩
  · apply h.congr <;> rfl
  · exact h.act hpc hact
  · rcases hidle with ⟨m, rfl⟩ | ⟨a, op, rfl⟩ | ⟨a, rfl⟩ | ⟨j, a, -, rfl⟩ | rfl
    · apply h.stay <;> rfl
    · apply h.congr <;> rfl
    · apply h.congr <;> rfl
    · apply h.congr <;> rfl
    · apply h.stay <;> rfl

end Guarded

/-! ### The copies -/

/-- The object is the meter of some id. -/
def Registered (s : RegistryThreads ι) (a : ℕ) : Prop :=
  ∃ id, s.reg.meters_.lookup id = some a

/-- What a copy has not come to yet is still registered. -/
def Copies (s : RegistryThreads ι) : Prop := ∀ i, ∀ a ∈ uncopied (s.pc i), s.Registered a

omit [DecidableEq ι] in
theorem uncopied_eq_nil {pc : Option RegistryPc} (h : isCopying pc = false) : uncopied pc = [] := by
  unfold uncopied
  split
  · cases h
  · rfl

namespace Copies

omit [DecidableEq ι] in
theorem create (freq_millis wall monotonic : ℤ) :
    (RegistryThreads.create ι freq_millis wall monotonic).Copies :=
  fun _ _ h => absurd h List.not_mem_nil

omit [DecidableEq ι] in
theorem congr (h : s.Copies) (hpc : s'.pc = s.pc) (hmeters : s'.reg.meters_ = s.reg.meters_) :
    s'.Copies := by
  intro j a ha
  rw [hpc] at ha
  rw [Registered, hmeters]
  exact h j a ha

theorem goto (h : s.Copies) {pc : Option RegistryPc} (hpcs : s'.pc = s.pc)
    (hregistered : ∀ a, s.Registered a → s'.Registered a)
    (hown : ∀ a ∈ uncopied pc, s'.Registered a) : (s'.goto i pc).Copies := by
  intro j a ha
  by_cases hj : j = i
  · subst hj
    rw [goto_pc_self] at ha
    exact hown a ha
  · rw [goto_pc_of_ne hj, hpcs] at ha
    exact hregistered a (h j a ha)

/-- A thread moves while the map stays. -/
theorem stay (h : s.Copies) {pc : Option RegistryPc} (hpcs : s'.pc = s.pc)
    (hmeters : s'.reg.meters_ = s.reg.meters_)
    (hown : ∀ a ∈ uncopied pc, s.Registered a) : (s'.goto i pc).Copies := by
  have hsame : ∀ a, s.Registered a → s'.Registered a := by
    intro a ha
    rw [Registered, hmeters]
    exact ha
  exact h.goto hpcs hsame fun a ha => hsame a (hown a ha)

/-- A meter that is registered stays registered when another one is put into the map. -/
theorem emplacing (h : s.Copies) {p : ℕ} (hact : s.act i (.emplacing p) = some (s', es)) :
    s'.Copies := by
  obtain ⟨m, -, hact⟩ := Option.map_eq_some_iff.mp hact
  cases hact
  apply h.goto
  · rfl
  · intro a ha
    cases hnew : s.reg.meters_.lookup m.GetId with
    | some q =>
      simp only [SharedRegistry.insert_if_needed, hnew]
      exact ha
    | none =>
      simp only [SharedRegistry.insert_if_needed, hnew]
      exact (AssocMap.exists_lookup_insert_iff hnew p a).mpr (.inr ha)
  · exact fun a ha => absurd ha List.not_mem_nil

theorem expiring [Fintype ι] (h : s.Copies) {it : Sigma fun _ : Id => ℕ}
    {left : List (Sigma fun _ : Id => ℕ)} {expired : ℤ}
    (hpc : s.pc i = some (.expiring (it :: left) expired)) (hok : s.undisturbed (i, .act) = true)
    (hact : s.act i (.expiring (it :: left) expired) = some (s', es)) : s'.Copies := by
  rw [RegistryThreads.act] at hact
  split at hact
  · rename_i hexpires
    cases hact
    have hchanges : s.changes (i, .act) = true := by
      rw [changes, hpc]
      exact hexpires
    rw [undisturbed, hchanges, Bool.not_true, Bool.false_or, decide_eq_true_iff] at hok
    intro j a ha
    by_cases hj : j = i
    · subst hj
      rw [goto_pc_self] at ha
      cases ha
    · rw [goto_pc_of_ne hj] at ha
      rw [uncopied_eq_nil (hok j)] at ha
      cases ha
  · cases hact
    apply h.stay
    · rfl
    · rfl
    · exact fun a ha => absurd ha List.not_mem_nil

theorem act [Fintype ι] (h : s.Copies) {pc : RegistryPc} (hpc : s.pc i = some pc)
    (hok : s.undisturbed (i, .act) = true) (hact : s.act i pc = some (s', es)) : s'.Copies := by
  have hnone : ∀ a ∈ ([] : List ℕ), s.Registered a := fun a ha => absurd ha List.not_mem_nil
  cases pc with
  | locking | lockingToExpire =>
    obtain ⟨-, hact⟩ := Option.ite_none_right_eq_some.mp hact
    cases hact
    exact h.stay rfl rfl hnone
  | emplacing p => exact h.emplacing hact
  | unlocking | unlockingExpired | resizing =>
    cases hact
    exact h.stay rfl rfl hnone
  | comparing p q =>
    rw [RegistryThreads.act] at hact
    split at hact <;> cases hact <;> exact h.stay rfl rfl hnone
  | reserving =>
    cases hact
    exact h.stay rfl rfl fun a ha => (SharedRegistry.mem_registered_iff s.reg a).mp ha
  | copying meters left =>
    have hleft : ∀ a ∈ left, s.Registered a := fun a ha => h i a (by rw [hpc]; exact ha)
    cases left with
    | nil =>
      cases hact
      exact h.stay rfl rfl hnone
    | cons a left =>
      cases hact
      exact h.stay rfl rfl fun b hb => hleft b (List.mem_cons_of_mem _ hb)
  | measuring all_meters left =>
    cases left with
    | nil =>
      cases hact
      exact h.stay rfl rfl hnone
    | cons a left =>
      cases hact
      exact h.stay rfl (measureOne_meters (s.reg, []) a) hnone
  | destructing all_meters =>
    cases all_meters <;> cases hact <;> exact h.stay rfl rfl hnone
  | expiring left n =>
    cases left with
    | nil =>
      cases hact
      exact h.stay rfl rfl hnone
    | cons it left => exact h.expiring hpc hok hact

theorem step [Fintype ι] (h : s.Copies) {t : ι × RegistryTurn ι} (hok : s.undisturbed t = true)
    (hstep : s.step t = some (s', es)) : s'.Copies := by
  have hnone : ∀ a ∈ ([] : List ℕ), s.Registered a := fun a ha => absurd ha List.not_mem_nil
  obtain ⟨i, t⟩ := t
  rcases step_cases hstep with ⟨_, _, -, rfl⟩ | ⟨pc, rfl, hpc, hact⟩ | ⟨-, -, hidle⟩
  · exact h.congr rfl rfl
  · exact h.act hpc hok hact
  · rcases hidle with ⟨m, rfl⟩ | ⟨a, op, rfl⟩ | ⟨a, rfl⟩ | ⟨j, a, -, rfl⟩ | rfl
    · exact h.stay rfl rfl hnone
    · exact h.congr rfl rfl
    · exact h.congr rfl rfl
    · exact h.congr rfl rfl
    · exact h.stay rfl rfl hnone

end Copies

end RegistryThreads

end AtlasNative
