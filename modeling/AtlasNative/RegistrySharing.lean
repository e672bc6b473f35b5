import AtlasNative.RegistryPointers

/-!
# Threads share the meters of a registry

What every action does to the pointers, and from it what holds of every run in which the map
does not change while it is copied.
-/

namespace AtlasNative

open Interleavings
set_option autoImplicit false

namespace RegistryThreads
variable {ι : Type} [DecidableEq ι] {s s' : RegistryThreads ι} {i : ι}
  {events es : List ThreadEvent}

namespace Sound

omit [DecidableEq ι] in
theorem create (freq_millis wall monotonic : ℤ) :
    (RegistryThreads.create ι freq_millis wall monotonic).Sound [] := by
  refine ⟨(SharedRegistry.create_registers _ _ _).1, ?_, ?_, ?_, ?_, ?_⟩
  · intro i p hp
    cases hp
  · intro i q hq
    cases hq
  · intro r hr
    cases hr
  · intro a ha
    exact absurd ha (not_gone_nil a)
  · intro a ha
    cases ha

/-- The object that a lookup has constructed is put into the map, or another one is found. -/
theorem emplacing (h : s.Sound events) {p : ℕ} (hpc : s.pc i = some (.emplacing p))
    (hact : s.act i (.emplacing p) = some (s', es)) : s'.Sound (events ++ es) := by
  obtain ⟨m, hm, hact⟩ := Option.map_eq_some_iff.mp hact
  cases hact
  cases hid : s.reg.meters_.lookup m.GetId with
  | none =>
    simp only [SharedRegistry.insert_if_needed, hid]
    exact h.register hpc hm hid
  | some q =>
    simp only [SharedRegistry.insert_if_needed, hid]
    exact h.find hpc ⟨m.GetId, hid⟩

/-- A lookup returns what was found, or else the object that it has constructed. -/
theorem comparing (h : s.Sound events) {p q : ℕ} (hpc : s.pc i = some (.comparing p q))
    (hact : s.act i (.comparing p q) = some (s', es)) : s'.Sound (events ++ es) := by
  have hq := (h.found i q (hpc ▸ rfl)).2
  rw [RegistryThreads.act] at hact
  split at hact
  · cases hact
    exact h.return_ hpc (fun a ha => absurd ha (not_gone_nil a)) (.inl hq)
  · rename_i hclasses
    cases hact
    have hne : q ≠ p := by
      rintro rfl
      exact hclasses rfl
    have hnew : newPtr (s.pc i) = some p := by
      rw [hpc, newPtr, if_neg hne]
    apply h.return_ hpc _ (.inr ⟨List.mem_singleton_self _, hnew⟩)
    intro a ha
    rcases ha with ha | ha
    · cases List.mem_singleton.mp ha
      exact ⟨hnew, rfl, by simp⟩
    · cases List.mem_singleton.mp ha

theorem copying (h : s.Sound events) (hcopies : s.Copies) {meters left : List ℕ}
    (hpc : s.pc i = some (.copying meters left))
    (hact : s.act i (.copying meters left) = some (s', es)) : s'.Sound (events ++ es) := by
  cases left with
  | nil =>
    cases hact
    apply h.pass hpc <;> rfl
  | cons a left =>
    cases hact
    have ha : s.Registered a := hcopies i a (by rw [hpc]; exact List.mem_cons_self)
    have hpcs := h.pass hpc
      (show newPtr (some (.copying (meters ++ [a]) left)) = _ from rfl) rfl s.meters_mutex
    rw [List.append_nil] at hpcs
    apply hpcs.add [⟨i, .copy, a⟩]
    · intro r hr
      cases List.mem_singleton.mp hr
      exact .inl ha
    · exact fun _ => rfl
    · exact fun _ _ hq => .inl hq
    · rfl
    · rfl

theorem measuring (h : s.Sound events) {all_meters left : List ℕ}
    (hpc : s.pc i = some (.measuring all_meters left))
    (hact : s.act i (.measuring all_meters left) = some (s', es)) : s'.Sound (events ++ es) := by
  cases left with
  | nil =>
    cases hact
    apply h.pass hpc <;> rfl
  | cons a left =>
    cases hact
    apply h.move hpc
    · rfl
    · rfl
    · exact measureOne_meters (s.reg, []) a
    · rw [SharedRegistry.measureOne_eq]
      exact SharedRegistry.afterMeasuring_evolves s.reg [a]
    · rfl
    · rfl
    · rintro b (hb | hb) <;> cases List.mem_singleton.mp hb

theorem destructing (h : s.Sound events) {all_meters : List ℕ}
    (hpc : s.pc i = some (.destructing all_meters))
    (hact : s.act i (.destructing all_meters) = some (s', es)) : s'.Sound (events ++ es) := by
  cases all_meters with
  | nil =>
    cases hact
    apply h.pass hpc <;> rfl
  | cons a all_meters =>
    cases hact
    have hpcs := h.pass hpc
      (show newPtr (some (.destructing all_meters)) = _ from rfl) rfl s.meters_mutex
    rw [List.append_nil] at hpcs
    apply hpcs.release (r := ⟨i, .copy, a⟩)
    · intro huse
      cases huse
    · exact fun _ => rfl
    · exact fun _ => rfl
    · rfl
    · rfl

theorem called (h : s.Sound events) {pc : RegistryPc} {pc' : Option RegistryPc}
    (hpc : s.pc i = some pc) (a : ℕ) (op : MeterMethod) (hnew : newPtr pc' = newPtr (some pc))
    (hfound : RegistryThreads.found pc' = RegistryThreads.found (some pc)) :
    ({ s with reg := s.reg.call a op }.goto i pc').Sound (events ++ []) := by
  apply h.move hpc
  · rfl
  · rfl
  · rfl
  · exact SharedRegistry.call_evolves _ _ _
  · exact hnew
  · exact hfound
  · exact not_gone_nil

/-- What is erased is still in the map, and nobody points to it. -/
theorem expiring (h : s.Sound events) (hguarded : s.Guarded) {it : Sigma fun _ : Id => ℕ}
    {left : List (Sigma fun _ : Id => ℕ)} {expired : ℤ}
    (hpc : s.pc i = some (.expiring (it :: left) expired))
    (hact : s.act i (.expiring (it :: left) expired) = some (s', es)) :
    s'.Sound (events ++ es) := by
  have hit := (hguarded.left i _ _ hpc).2 it List.mem_cons_self
  rw [RegistryThreads.act] at hact
  split at hact
  · rename_i hexpires
    cases hact
    apply h.expire _ _ hit hexpires
    · rw [hpc]
      rfl
    · rw [hpc]
      rfl
  · cases hact
    apply h.pass hpc <;> rfl

theorem act (h : s.Sound events) (hguarded : s.Guarded) (hcopies : s.Copies) {pc : RegistryPc}
    (hpc : s.pc i = some pc) (hact : s.act i pc = some (s', es)) : s'.Sound (events ++ es) := by
  cases pc with
  | locking | lockingToExpire =>
    obtain ⟨-, hact⟩ := Option.ite_none_right_eq_some.mp hact
    cases hact
    apply h.pass hpc <;> rfl
  | emplacing p => exact h.emplacing hpc hact
  | unlocking | unlockingExpired | reserving =>
    cases hact
    apply h.pass hpc <;> rfl
  | comparing p q => exact h.comparing hpc hact
  | copying meters left => exact h.copying hcopies hpc hact
  | resizing all_meters =>
    cases hact
    apply h.called hpc <;> rfl
  | measuring all_meters left => exact h.measuring hpc hact
  | destructing all_meters => exact h.destructing hpc hact
  | expiring left n =>
    cases left with
    | nil =>
      cases hact
      apply h.called hpc <;> rfl
    | cons it left => exact h.expiring hguarded hpc hact

theorem step (h : s.Sound events) (hguarded : s.Guarded) (hcopies : s.Copies)
    {t : ι × RegistryTurn ι} (hstep : s.step t = some (s', es)) : s'.Sound (events ++ es) := by
  obtain ⟨i, t⟩ := t
  rcases step_cases hstep with ⟨_, _, rfl, rfl⟩ | ⟨pc, -, hpc, hact⟩ | ⟨hpc, rfl, hidle⟩
  · apply h.inPlace
    · rfl
    · rfl
    · exact .refl s.reg.wall _
    · exact fun _ => rfl
    · exact fun _ => rfl
    · exact not_gone_nil
  · exact h.act hguarded hcopies hpc hact
  · rcases hidle with ⟨m, rfl⟩ | ⟨a, op, rfl⟩ | ⟨a, rfl⟩ | ⟨j, a, ha, rfl⟩ | rfl
    · exact h.construct hpc m
    · apply h.inPlace
      · rfl
      · rfl
      · exact SharedRegistry.call_evolves _ _ _
      · exact fun _ => rfl
      · exact fun _ => rfl
      · exact not_gone_nil
    · apply h.release (r := ⟨i, .handle, a⟩)
      · intro huse
        cases huse
      · exact fun _ => rfl
      · exact fun _ => rfl
      · rfl
      · rfl
    · apply h.add [⟨j, .handle, a⟩]
      · intro r hr
        cases List.mem_singleton.mp hr
        rcases h.shown ha (by simp) with hregistered | hisolated
        · exact .inl hregistered
        · exact .inr ⟨hisolated, _, ha, rfl⟩
      · exact fun _ => rfl
      · exact fun _ _ hq => .inl hq
      · rfl
      · rfl
    · apply h.inPlace
      · rfl
      · rfl
      · exact .refl s.reg.wall _
      · apply goto_reads
        rw [hpc]
        rfl
      · apply goto_reads
        rw [hpc]
        rfl
      · exact not_gone_nil

end Sound

/-! ### Runs -/

section Runs
variable [Fintype ι] {freq_millis wall monotonic : ℤ} {schedule : List (ι × RegistryTurn ι)}

theorem run_sound
    (hrun : runBy (guarded undisturbed step) (create ι freq_millis wall monotonic) schedule =
      some (s, events)) : s.Guarded ∧ s.Copies ∧ s.Sound events := by
  refine runBy_induction (P := fun _ s events => s.Guarded ∧ s.Copies ∧ s.Sound events)
    ⟨.create _ _ _, .create _ _ _, .create _ _ _⟩ ?_ hrun
  intro done t s₁ before s₂ es _ hinv hturn
  obtain ⟨hguarded, hcopies, hsound⟩ := hinv
  obtain ⟨hok, hstep⟩ := guarded_eq_some.mp hturn
  exact ⟨hguarded.step hstep, hcopies.step hok hstep, hsound.step hguarded hcopies hstep⟩

/-- However the threads take turns, as long as the map does not change while it is copied, at most
one of them is where the map is changed. A handle is to the meter that lookups of its id find,
unless it was given out as an isolated one. Isolated objects are not registered, and nobody has a
pointer to an erased one. -/
theorem run_shares
    (hrun : runBy (guarded undisturbed step) (create ι freq_millis wall monotonic) schedule =
      some (s, events)) :
    (∀ i j, critical (s.pc i) = true → critical (s.pc j) = true → i = j) ∧
      (∀ i a, ⟨i, .handle, a⟩ ∈ s.pointers → .isolated a ∉ events →
        ∃ m, s.reg.objects[a]? = some m ∧ s.reg.meters_.lookup m.GetId = some a) ∧
      (∀ a, .isolated a ∈ events → ∀ id, s.reg.meters_.lookup id ≠ some a) ∧
      ∀ a, .erased a ∈ events →
        (∀ id, s.reg.meters_.lookup id ≠ some a) ∧ ∀ r ∈ s.pointers, r.address ≠ a := by
  obtain ⟨hguarded, -, hsound⟩ := run_sound hrun
  refine ⟨?_, ?_, ?_, ?_⟩
  · intro i j hi hj
    exact hguarded.alone hj hi
  · intro i a ha hnot
    obtain ⟨id, hid⟩ := (hsound.shown ha (by simp)).resolve_right hnot
    obtain ⟨m, hm, rfl⟩ := hsound.registers id a hid
    exact ⟨m, hm, hid⟩
  · intro a ha id hid
    exact (hsound.gone a (.inl ha)).2 ⟨id, hid⟩
  · intro a ha
    exact ⟨fun id hid => (hsound.gone a (.inr ha)).2 ⟨id, hid⟩, hsound.erased a ha⟩

end Runs

/-- Two threads look a timer up at the same time, and one of them a long task timer of the same
id; later both have dropped the timer and one measures. -/
def contended : List (Bool × RegistryTurn Bool) :=
  let id : Id := ⟨intern_str "t", ∅⟩
  [(false, .lookup .timer id), (true, .lookup .timer id)] ++ List.replicate 2 (true, .act) ++
    [(false, .tick 1 1), (true, .act)] ++ List.replicate 4 (false, .act) ++ [(true, .act)] ++
    (true, .lookup .long_task_timer id) :: List.replicate 4 (true, .act) ++
    [(false, .drop 3), (true, .drop 3), (false, .tick 900001 1), (false, .measurements)] ++
    List.replicate 20 (false, .act)

theorem run_shares_contended :
    ∃ s events, runBy (guarded undisturbed step) (create Bool 60000 0 0) contended = some (s, events) ∧
      ThreadEvent.isolated 4 ∈ events ∧ ThreadEvent.erased 3 ∈ events ∧
      (∀ id, s.reg.meters_.lookup id ≠ some 4) ∧ ∀ r ∈ s.pointers, r.address ≠ 3 := by
  have hevents : (runBy (guarded undisturbed step) (create Bool 60000 0 0) contended).map (fun r =>
      decide (ThreadEvent.isolated 4 ∈ r.2 ∧ ThreadEvent.erased 3 ∈ r.2)) = some true := by
    decide +kernel
  obtain ⟨r, hrun, hr⟩ := Option.map_eq_some_iff.mp hevents
  obtain ⟨hisolated, herased⟩ := of_decide_eq_true hr
  obtain ⟨-, -, hnot, hgone⟩ := run_shares hrun
  exact ⟨r.1, r.2, hrun, hisolated, herased, hnot 4 hisolated, (hgone 3 herased).2⟩

end RegistryThreads

end AtlasNative
