import AtlasNative.RegistryThreads

/-!
# What threads point to

Every pointer of a thread is to a registered meter, to an object that was given out as an
isolated one, or to the object that a lookup of the thread itself has just constructed; and
nobody points to a meter that was erased. This is what one change of the registry, of the
pointers or of the place of a thread does to that.
-/

namespace AtlasNative

open Interleavings
set_option autoImplicit false

namespace RegistryThreads
variable {ι : Type} {s s' : RegistryThreads ι} {i : ι} {events es : List ThreadEvent}

/-- The object will not be registered again. -/
def Gone (events : List ThreadEvent) (a : ℕ) : Prop := .isolated a ∈ events ∨ .erased a ∈ events

/-- What the pointers that threads hold point to: registered meters, objects that were given
out as isolated ones, and the objects that the lookups under way have constructed, each of which
nothing else points to. -/
structure Sound (s : RegistryThreads ι) (events : List ThreadEvent) : Prop where
  registers : s.reg.Registers
  fresh : ∀ i p, newPtr (s.pc i) = some p →
    s.pointers.filter (·.address = p) = [⟨i, .variable_, p⟩] ∧ p < s.reg.objects.length ∧
      ¬ s.Registered p ∧ ¬ Gone events p
  found : ∀ i q, found (s.pc i) = some q → ⟨i, .variable_, q⟩ ∈ s.pointers ∧ s.Registered q
  pointers : ∀ r ∈ s.pointers, s.Registered r.address ∨ .isolated r.address ∈ events ∨
    newPtr (s.pc r.thread) = some r.address
  gone : ∀ a, Gone events a → a < s.reg.objects.length ∧ ¬ s.Registered a
  erased : ∀ a, .erased a ∈ events → ∀ r ∈ s.pointers, r.address ≠ a

theorem gone_append {a : ℕ} (hes : ∀ a, ¬ Gone es a) : Gone (events ++ es) a ↔ Gone events a := by
  constructor
  · intro hgone
    rcases hgone with hgone | hgone
    · exact .inl ((List.mem_append.mp hgone).resolve_right fun he => hes a (.inl he))
    · exact .inr ((List.mem_append.mp hgone).resolve_right fun he => hes a (.inr he))
  · intro hgone
    exact hgone.imp (List.mem_append_left es) (List.mem_append_left es)

theorem not_gone_nil (a : ℕ) : ¬ Gone [] a := by
  rintro (hgone | hgone) <;> cases hgone

namespace Sound

theorem lt_of_registered (h : s.Sound events) {a : ℕ} (ha : s.Registered a) :
    a < s.reg.objects.length := by
  obtain ⟨id, hid⟩ := ha
  obtain ⟨m, hm, _⟩ := h.registers id a hid
  exact (List.getElem?_eq_some_iff.mp hm).1

theorem lt_of_pointer (h : s.Sound events) {r : ThreadPointer ι} (hr : r ∈ s.pointers) :
    r.address < s.reg.objects.length := by
  rcases h.pointers r hr with hregistered | hisolated | hnew
  · exact h.lt_of_registered hregistered
  · exact (h.gone _ (.inl hisolated)).1
  · exact (h.fresh _ _ hnew).2.1

theorem eq_of_fresh (h : s.Sound events) {p : ℕ} (hp : newPtr (s.pc i) = some p)
    {r : ThreadPointer ι} (hr : r ∈ s.pointers) (hrp : r.address = p) : r = ⟨i, .variable_, p⟩ := by
  have hmem : r ∈ s.pointers.filter (·.address = p) := List.mem_filter.mpr ⟨hr, decide_eq_true hrp⟩
  rw [(h.fresh i p hp).1] at hmem
  exact List.mem_singleton.mp hmem

theorem thread_of_fresh (h : s.Sound events) {j : ι} {p : ℕ} (hi : newPtr (s.pc i) = some p)
    (hj : newPtr (s.pc j) = some p) : j = i := by
  cases (h.fresh j p hj).1.symm.trans (h.fresh i p hi).1
  rfl

theorem shown (h : s.Sound events) {r : ThreadPointer ι} (hr : r ∈ s.pointers)
    (huse : r.use ≠ .variable_) : s.Registered r.address ∨ .isolated r.address ∈ events := by
  rcases h.pointers r hr with hregistered | hisolated | hnew
  · exact .inl hregistered
  · exact .inr hisolated
  · rw [h.eq_of_fresh hnew hr rfl] at huse
    exact absurd rfl huse

theorem exists_lookup_erase_iff (h : s.Sound events) {id : Id} {a : ℕ}
    (ha : s.reg.meters_.lookup id = some a) (b : ℕ) :
    (∃ id', (s.reg.meters_.erase id).lookup id' = some b) ↔ s.Registered b ∧ b ≠ a := by
  constructor
  · rintro ⟨id', hid'⟩
    obtain ⟨hne, hid'⟩ := (SharedRegistry.lookup_erase _ _ _ _).mp hid'
    refine ⟨⟨id', hid'⟩, ?_⟩
    rintro rfl
    exact hne (h.registers.id_unique hid' ha)
  · rintro ⟨⟨id', hid'⟩, hb⟩
    refine ⟨id', (SharedRegistry.lookup_erase _ _ _ _).mpr ⟨?_, hid'⟩⟩
    rintro rfl
    exact hb (Option.some.inj (hid'.symm.trans ha))

/-- Objects change in place, the map stays, and pointers come and go. -/
theorem follow (h : s.Sound events) {now : ℤ} (hmeters : s'.reg.meters_ = s.reg.meters_)
    (hobjects : SharedRegistry.Evolves now s.reg.objects s'.reg.objects)
    (hnew : ∀ j, newPtr (s'.pc j) = newPtr (s.pc j))
    (hfound : ∀ j q, RegistryThreads.found (s'.pc j) = some q →
      RegistryThreads.found (s.pc j) = some q ∨ ⟨j, .variable_, q⟩ ∈ s'.pointers ∧ s.Registered q)
    (hadded : ∀ r ∈ s'.pointers, r ∈ s.pointers ∨ s.Registered r.address ∨
      .isolated r.address ∈ events ∧ ∃ q ∈ s.pointers, q.address = r.address)
    (hprivate : ∀ j p, newPtr (s.pc j) = some p →
      s'.pointers.filter (·.address = p) = s.pointers.filter (·.address = p))
    (hkept : ∀ r ∈ s.pointers, r.use = .variable_ → r ∈ s'.pointers)
    (hes : ∀ a, ¬ Gone es a) : s'.Sound (events ++ es) := by
  have hregistered : ∀ a, s'.Registered a ↔ s.Registered a := by
    intro a
    rw [Registered, Registered, hmeters]
  have hlength : ∀ a, a < s.reg.objects.length → a < s'.reg.objects.length := by
    intro a ha
    obtain ⟨m', hm', _⟩ := hobjects a _ (List.getElem?_eq_getElem ha)
    exact (List.getElem?_eq_some_iff.mp hm').1
  refine ⟨?_, ?_, ?_, ?_, ?_, ?_⟩
  · exact h.registers.of_subset hobjects fun id a ha => hmeters ▸ ha
  · intro j p hp
    rw [hnew] at hp
    obtain ⟨hfilter, hlt, hnot, hgone⟩ := h.fresh j p hp
    rw [hprivate j p hp, hregistered, gone_append hes]
    exact ⟨hfilter, hlength p hlt, hnot, hgone⟩
  · intro j q hq
    rcases hfound j q hq with hq | hq
    · obtain ⟨hmem, hq⟩ := h.found j q hq
      exact ⟨hkept _ hmem rfl, (hregistered q).mpr hq⟩
    · exact ⟨hq.1, (hregistered q).mpr hq.2⟩
  · intro r hr
    rw [hregistered, hnew]
    rcases hadded r hr with hr | hr | hr
    · exact (h.pointers r hr).imp_right (Or.imp_left (List.mem_append_left es))
    · exact .inl hr
    · exact .inr (.inl (List.mem_append_left es hr.1))
  · intro a ha
    rw [gone_append hes] at ha
    rw [hregistered]
    exact ⟨hlength a (h.gone a ha).1, (h.gone a ha).2⟩
  · intro a ha r hr
    have hgone : .erased a ∈ events :=
      (List.mem_append.mp ha).resolve_right fun he => hes a (.inr he)
    rcases hadded r hr with hr | hr | hr
    · exact h.erased a hgone r hr
    · rintro rfl
      exact (h.gone _ (.inr hgone)).2 hr
    · obtain ⟨-, q, hq, hqr⟩ := hr
      rw [← hqr]
      exact h.erased a hgone q hq

theorem inPlace (h : s.Sound events) {now : ℤ} (hpointers : s'.pointers = s.pointers)
    (hmeters : s'.reg.meters_ = s.reg.meters_)
    (hobjects : SharedRegistry.Evolves now s.reg.objects s'.reg.objects)
    (hnew : ∀ j, newPtr (s'.pc j) = newPtr (s.pc j))
    (hfound : ∀ j, RegistryThreads.found (s'.pc j) = RegistryThreads.found (s.pc j))
    (hes : ∀ a, ¬ Gone es a) : s'.Sound (events ++ es) := by
  apply h.follow hmeters hobjects hnew (fun j q hq => .inl (hfound j ▸ hq)) _ _ _ hes
  · intro r hr
    exact .inl (hpointers ▸ hr)
  · intro j p _
    rw [hpointers]
  · intro r hr _
    rwa [hpointers]

theorem move [DecidableEq ι] (h : s.Sound events) {s₁ : RegistryThreads ι} {now : ℤ}
    {pc : RegistryPc} {pc' : Option RegistryPc} (hpc : s.pc i = some pc) (hpcs : s₁.pc = s.pc)
    (hpointers : s₁.pointers = s.pointers) (hmeters : s₁.reg.meters_ = s.reg.meters_)
    (hobjects : SharedRegistry.Evolves now s.reg.objects s₁.reg.objects)
    (hnew : newPtr pc' = newPtr (some pc))
    (hfound : RegistryThreads.found pc' = RegistryThreads.found (some pc))
    (hes : ∀ a, ¬ Gone es a) : (s₁.goto i pc').Sound (events ++ es) := by
  have hreads : ∀ f : Option RegistryPc → Option ℕ, f pc' = f (some pc) →
      ∀ j, f ((s₁.goto i pc').pc j) = f (s.pc j) := by
    intro f hf j
    rw [← hpcs]
    apply goto_reads
    rw [hpcs, hpc, hf]
  apply h.inPlace
  · exact hpointers
  · exact hmeters
  · exact hobjects
  · exact hreads newPtr hnew
  · exact hreads RegistryThreads.found hfound
  · exact hes

/-- A thread moves on, and may lock or unlock the mutex. -/
theorem pass [DecidableEq ι] (h : s.Sound events) {pc : RegistryPc} {pc' : Option RegistryPc}
    (hpc : s.pc i = some pc) (hnew : newPtr pc' = newPtr (some pc))
    (hfound : RegistryThreads.found pc' = RegistryThreads.found (some pc)) (mutex : Option ι) :
    ({ s with meters_mutex := mutex }.goto i pc').Sound (events ++ []) := by
  apply h.move hpc
  · rfl
  · rfl
  · rfl
  · exact .refl s.reg.wall _
  · exact hnew
  · exact hfound
  · exact not_gone_nil

theorem release [DecidableEq ι] (h : s.Sound events) {r : ThreadPointer ι} (hr : r.use ≠ .variable_)
    (hnew : ∀ j, newPtr (s'.pc j) = newPtr (s.pc j))
    (hfound : ∀ j, RegistryThreads.found (s'.pc j) = RegistryThreads.found (s.pc j))
    (hreg : s'.reg = s.reg) (hpointers : s'.pointers = s.pointers.erase r) :
    s'.Sound (events ++ []) := by
  have hobjects : SharedRegistry.Evolves s.reg.wall s.reg.objects s'.reg.objects := by
    rw [hreg]
    exact .refl _ _
  apply h.follow (congrArg SharedRegistry.meters_ hreg) hobjects hnew
    (fun j q hq => .inl (hfound j ▸ hq)) _ _ _ not_gone_nil
  · intro q hq
    rw [hpointers] at hq
    exact .inl (List.mem_of_mem_erase hq)
  · intro j p hp
    rw [hpointers, ← List.erase_filter, (h.fresh j p hp).1]
    apply List.erase_of_not_mem
    intro hmem
    rw [List.mem_singleton.mp hmem] at hr
    exact hr rfl
  · intro q hq huse
    rw [hpointers]
    apply (List.mem_erase_of_ne _).mpr hq
    rintro rfl
    exact hr huse

theorem add (h : s.Sound events) (added : List (ThreadPointer ι))
    (hadded : ∀ r ∈ added, s.Registered r.address ∨
      .isolated r.address ∈ events ∧ ∃ q ∈ s.pointers, q.address = r.address)
    (hnew : ∀ j, newPtr (s'.pc j) = newPtr (s.pc j))
    (hfound : ∀ j q, RegistryThreads.found (s'.pc j) = some q →
      RegistryThreads.found (s.pc j) = some q ∨ ⟨j, .variable_, q⟩ ∈ added ∧ s.Registered q)
    (hreg : s'.reg = s.reg) (hpointers : s'.pointers = added ++ s.pointers) :
    s'.Sound (events ++ []) := by
  have hobjects : SharedRegistry.Evolves s.reg.wall s.reg.objects s'.reg.objects := by
    rw [hreg]
    exact .refl _ _
  apply h.follow (congrArg SharedRegistry.meters_ hreg) hobjects hnew _ _ _ _ not_gone_nil
  · intro j q hq
    rw [hpointers]
    exact (hfound j q hq).imp_right (And.imp_left (List.mem_append_left s.pointers))
  · intro r hr
    rw [hpointers] at hr
    rcases List.mem_append.mp hr with hr | hr
    · exact .inr (hadded r hr)
    · exact .inl hr
  · intro j p hp
    obtain ⟨-, -, hnot, hgone⟩ := h.fresh j p hp
    rw [hpointers, List.filter_append, List.append_left_eq_self, List.filter_eq_nil_iff]
    intro r hr hrp
    have heq : r.address = p := of_decide_eq_true hrp
    rcases hadded r hr with hregistered | hisolated
    · exact hnot (heq ▸ hregistered)
    · exact hgone (.inl (heq ▸ hisolated.1))
  · intro r hr _
    rw [hpointers]
    exact List.mem_append_right _ hr

variable [DecidableEq ι]

theorem construct (h : s.Sound events) (hpc : s.pc i = none) (m : AnyMeter) :
    ({ s with
        reg := { s.reg with objects := s.reg.objects ++ [m] }
        pointers := ⟨i, .variable_, s.reg.objects.length⟩ :: s.pointers }.goto i
      (some (.locking s.reg.objects.length))).Sound (events ++ []) := by
  rw [List.append_nil]
  have hnone : newPtr (s.pc i) = none := by rw [hpc]; rfl
  refine ⟨?_, ?_, ?_, ?_, ?_, ?_⟩
  · exact h.registers.of_subset (.append s.reg.wall s.reg.objects [m]) fun id a ha => ha
  · intro j p hp
    by_cases hj : j = i
    · subst hj
      rw [goto_pc_self] at hp
      cases hp
      refine ⟨?_, ?_, fun hr => (h.lt_of_registered hr).false, fun hg => (h.gone _ hg).1.false⟩
      · have hothers : s.pointers.filter (·.address = s.reg.objects.length) = [] := by
          rw [List.filter_eq_nil_iff]
          intro r hr heq
          have hlt := h.lt_of_pointer hr
          rw [of_decide_eq_true heq] at hlt
          exact hlt.false
        simp [hothers]
      · simp
    · rw [goto_pc_of_ne hj] at hp
      obtain ⟨hfilter, hlt, hnot, hgone⟩ := h.fresh j p hp
      refine ⟨?_, ?_, hnot, hgone⟩
      · have hne := hlt.ne'
        simp [hne, hfilter]
      · simpa using hlt.trans (Nat.lt_succ_self _)
  · intro j q hq
    by_cases hj : j = i
    · subst hj
      rw [goto_pc_self] at hq
      cases hq
    · rw [goto_pc_of_ne hj] at hq
      exact ⟨List.mem_cons_of_mem _ (h.found j q hq).1, (h.found j q hq).2⟩
  · intro r hr
    rcases List.mem_cons.mp hr with rfl | hr
    · exact .inr (.inr (by rw [goto_pc_self]; rfl))
    · rcases h.pointers r hr with hregistered | hisolated | hnew
      · exact .inl hregistered
      · exact .inr (.inl hisolated)
      · have hne : r.thread ≠ i := by
          rintro hr
          rw [hr, hnone] at hnew
          cases hnew
        exact .inr (.inr (by rwa [goto_pc_of_ne hne]))
  · intro a ha
    refine ⟨?_, (h.gone a ha).2⟩
    simpa using (h.gone a ha).1.trans (Nat.lt_succ_self _)
  · intro a ha r hr
    rcases List.mem_cons.mp hr with rfl | hr
    · exact (h.gone a (.inr ha)).1.ne'
    · exact h.erased a ha r hr

theorem register (h : s.Sound events) {p : ℕ} (hpc : s.pc i = some (.emplacing p)) {m : AnyMeter}
    (hm : s.reg.objects[p]? = some m) (hnone : s.reg.meters_.lookup m.GetId = none) :
    ({ s with
        reg := { s.reg with meters_ := s.reg.meters_.insert m.GetId p }
        pointers := ⟨i, .variable_, p⟩ :: s.pointers }.goto i
      (some (.unlocking p p))).Sound (events ++ []) := by
  rw [List.append_nil]
  have hnew : newPtr (s.pc i) = some p := by rw [hpc]; rfl
  obtain ⟨-, -, -, hgone⟩ := h.fresh i p hnew
  have hregistered := AssocMap.exists_lookup_insert_iff hnone p
  refine ⟨?_, ?_, ?_, ?_, ?_, ?_⟩
  · intro id a ha
    change (s.reg.meters_.insert m.GetId p).lookup id = some a at ha
    by_cases hid : id = m.GetId
    · rw [hid, AList.lookup_insert] at ha
      cases ha
      exact ⟨m, hm, hid.symm⟩
    · rw [AList.lookup_insert_ne hid] at ha
      exact h.registers id a ha
  · intro j p' hp'
    by_cases hj : j = i
    · subst hj
      rw [goto_pc_self, newPtr, if_pos rfl] at hp'
      cases hp'
    · rw [goto_pc_of_ne hj] at hp'
      obtain ⟨hfilter, hlt, hnot, hnotgone⟩ := h.fresh j p' hp'
      have hne : p ≠ p' := by
        rintro rfl
        exact hj (h.thread_of_fresh hnew hp')
      refine ⟨?_, hlt, ?_, hnotgone⟩
      · simp [hne, hfilter]
      · rintro hr
        exact ((hregistered p').mp hr).elim (fun heq => hne heq.symm) hnot
  · intro j q hq
    by_cases hj : j = i
    · subst hj
      rw [goto_pc_self] at hq
      cases hq
      exact ⟨List.mem_cons_self, (hregistered p).mpr (.inl rfl)⟩
    · rw [goto_pc_of_ne hj] at hq
      obtain ⟨hmem, hq⟩ := h.found j q hq
      exact ⟨List.mem_cons_of_mem _ hmem, (hregistered q).mpr (.inr hq)⟩
  · intro r hr
    rcases List.mem_cons.mp hr with rfl | hr
    · exact .inl ((hregistered p).mpr (.inl rfl))
    · rcases h.pointers r hr with hold | hisolated | hfresh
      · exact .inl ((hregistered _).mpr (.inr hold))
      · exact .inr (.inl hisolated)
      · by_cases hthread : r.thread = i
        · rw [hthread, hnew] at hfresh
          exact .inl ((hregistered _).mpr (.inl (Option.some.inj hfresh).symm))
        · exact .inr (.inr (by rwa [goto_pc_of_ne hthread]))
  · intro a ha
    refine ⟨(h.gone a ha).1, fun hr => ?_⟩
    rcases (hregistered a).mp hr with rfl | hold
    · exact hgone ha
    · exact (h.gone a ha).2 hold
  · intro a ha r hr
    rcases List.mem_cons.mp hr with rfl | hr
    · rintro rfl
      exact hgone (.inr ha)
    · exact h.erased a ha r hr

/-- The only pointer to what a lookup has constructed is one of its variables. -/
theorem ne_of_mem_rest (h : s.Sound events) {p q : ℕ} (hnew : newPtr (s.pc i) = some p)
    {r : ThreadPointer ι}
    (hr : r ∈ (s.pointers.erase ⟨i, .variable_, q⟩).erase ⟨i, .variable_, p⟩) :
    r.address ≠ p := by
  have hnone : ((s.pointers.erase ⟨i, .variable_, q⟩).erase ⟨i, .variable_, p⟩).filter
      (·.address = p) = [] := by
    rw [← List.erase_filter, ← List.erase_filter, (h.fresh i p hnew).1]
    by_cases hpq : p = q
    · simp [hpq]
    · simp [hpq]
  intro heq
  exact absurd (decide_eq_true heq) (List.filter_eq_nil_iff.mp hnone r hr)

theorem filter_rest (h : s.Sound events) {j : ι} {p' : ℕ} (hj : j ≠ i)
    (hp' : newPtr (s.pc j) = some p') (p q : ℕ) :
    ((s.pointers.erase ⟨i, .variable_, q⟩).erase ⟨i, .variable_, p⟩).filter (·.address = p') =
      [⟨j, .variable_, p'⟩] := by
  rw [← List.erase_filter, ← List.erase_filter, (h.fresh j p' hp').1]
  simp [hj]

/-- A lookup returns `g`, and lets its two variables go. -/
theorem return_ (h : s.Sound events) {p q g : ℕ} (hpc : s.pc i = some (.comparing p q))
    (hes : ∀ a, Gone es a → newPtr (s.pc i) = some a ∧ a = g ∧ .erased a ∉ es)
    (hg : s.Registered g ∨ .isolated g ∈ es ∧ newPtr (s.pc i) = some g) :
    ({ s with
        pointers := ⟨i, .handle, g⟩ ::
          (s.pointers.erase ⟨i, .variable_, q⟩).erase ⟨i, .variable_, p⟩ }.goto i
      none).Sound (events ++ es) := by
  have hrest : ∀ r, r ∈ (s.pointers.erase ⟨i, .variable_, q⟩).erase ⟨i, .variable_, p⟩ →
      r ∈ s.pointers := fun r hr => List.mem_of_mem_erase (List.mem_of_mem_erase hr)
  have hmine : ∀ a, newPtr (s.pc i) = some a → a = p := by
    intro a ha
    rw [hpc, newPtr] at ha
    split at ha
    · cases ha
    · exact (Option.some.inj ha).symm
  have hgone : ∀ a, Gone (events ++ es) a → Gone events a ∨ Gone es a := by
    intro a ha
    rcases ha with ha | ha
    · exact (List.mem_append.mp ha).imp .inl .inl
    · exact (List.mem_append.mp ha).imp .inr .inr
  refine ⟨h.registers, ?_, ?_, ?_, ?_, ?_⟩
  · intro j p' hp'
    by_cases hj : j = i
    · subst hj
      rw [goto_pc_self] at hp'
      cases hp'
    · rw [goto_pc_of_ne hj] at hp'
      obtain ⟨-, hlt, hnot, hnotgone⟩ := h.fresh j p' hp'
      have hne : g ≠ p' := by
        rintro rfl
        rcases hg with hg | hg
        · exact hnot hg
        · exact hj (h.thread_of_fresh hg.2 hp')
      refine ⟨?_, hlt, hnot, ?_⟩
      · simp [hne, h.filter_rest hj hp']
      · intro ha
        rcases hgone p' ha with ha | ha
        · exact hnotgone ha
        · exact hj (h.thread_of_fresh (hes p' ha).1 hp')
  · intro j q' hq'
    by_cases hj : j = i
    · subst hj
      rw [goto_pc_self] at hq'
      cases hq'
    · rw [goto_pc_of_ne hj] at hq'
      obtain ⟨hmem, hregistered⟩ := h.found j q' hq'
      refine ⟨List.mem_cons_of_mem _ ?_, hregistered⟩
      rw [List.mem_erase_of_ne (by simp [hj]), List.mem_erase_of_ne (by simp [hj])]
      exact hmem
  · intro r hr
    rcases List.mem_cons.mp hr with rfl | hr
    · rcases hg with hg | hg
      · exact .inl hg
      · exact .inr (.inl (List.mem_append_right _ hg.1))
    · rcases h.pointers r (hrest r hr) with hregistered | hisolated | hnew
      · exact .inl hregistered
      · exact .inr (.inl (List.mem_append_left _ hisolated))
      · by_cases hthread : r.thread = i
        · rw [hthread] at hnew
          have haddress := hmine _ hnew
          rw [haddress] at hnew
          exact absurd haddress (h.ne_of_mem_rest hnew hr)
        · exact .inr (.inr (by rwa [goto_pc_of_ne hthread]))
  · intro a ha
    rcases hgone a ha with ha | ha
    · exact h.gone a ha
    · exact (h.fresh i a (hes a ha).1).2.imp_right And.left
  · intro a ha r hr
    have hbefore : .erased a ∈ events := by
      rcases List.mem_append.mp ha with ha | ha
      · exact ha
      · exact absurd ha (hes a (.inr ha)).2.2
    rcases List.mem_cons.mp hr with rfl | hr
    · rintro rfl
      rcases hg with hg | hg
      · exact (h.gone _ (.inr hbefore)).2 hg
      · exact (h.fresh i _ hg.2).2.2.2 (.inr hbefore)
    · exact h.erased a hbefore r (hrest r hr)

theorem expire (h : s.Sound events) {left : List (Sigma fun _ : Id => ℕ)} {n : ℤ} {id : Id} {a : ℕ}
    (hpc : newPtr (s.pc i) = none) (hfound : RegistryThreads.found (s.pc i) = none)
    (ha : s.reg.meters_.lookup id = some a) (hexpires : s.held.expires a = true) :
    ({ s with reg := { s.reg with meters_ := s.reg.meters_.erase id } }.goto i
      (some (.expiring left n))).Sound (events ++ [ThreadEvent.erased a]) := by
  have hheld : s.held.Registers := h.registers
  have halone := ((SharedRegistry.expires_iff hheld ha).mp hexpires).2
  have hnobody : ∀ r ∈ s.pointers, r.address ≠ a := by
    rintro r hr rfl
    exact halone.handles (List.mem_map_of_mem hr)
  have hregistered := h.exists_lookup_erase_iff ha
  have hgone : ∀ b, Gone (events ++ [.erased a]) b → Gone events b ∨ b = a := by
    intro b hb
    rcases hb with hb | hb
    · rcases List.mem_append.mp hb with hb | hb
      · exact .inl (.inl hb)
      · cases List.mem_singleton.mp hb
    · rcases List.mem_append.mp hb with hb | hb
      · exact .inl (.inr hb)
      · cases List.mem_singleton.mp hb
        exact .inr rfl
  have hnew : ∀ j, newPtr ((s.goto i (some (.expiring left n))).pc j) = newPtr (s.pc j) :=
    goto_reads newPtr (hpc ▸ rfl)
  have hfound' : ∀ j, RegistryThreads.found ((s.goto i (some (.expiring left n))).pc j) =
      RegistryThreads.found (s.pc j) := goto_reads RegistryThreads.found (hfound ▸ rfl)
  refine ⟨h.registers.erase id, ?_, ?_, ?_, ?_, ?_⟩
  · intro j p hp
    obtain ⟨hfilter, hlt, hnot, hnotgone⟩ := h.fresh j p ((hnew j).symm.trans hp)
    refine ⟨hfilter, hlt, fun hr => hnot ((hregistered p).mp hr).1, fun hg => ?_⟩
    rcases hgone p hg with hg | rfl
    · exact hnotgone hg
    · exact hnot ⟨id, ha⟩
  · intro j q hq
    obtain ⟨hmem, hq⟩ := h.found j q ((hfound' j).symm.trans hq)
    exact ⟨hmem, (hregistered q).mpr ⟨hq, hnobody _ hmem⟩⟩
  · intro r hr
    rcases h.pointers r hr with hr' | hr' | hr'
    · exact .inl ((hregistered _).mpr ⟨hr', hnobody r hr⟩)
    · exact .inr (.inl (List.mem_append_left _ hr'))
    · exact .inr (.inr ((hnew _).trans hr'))
  · intro b hb
    rcases hgone b hb with hb | rfl
    · exact ⟨(h.gone b hb).1, fun hr => (h.gone b hb).2 ((hregistered b).mp hr).1⟩
    · exact ⟨h.lt_of_registered ⟨id, ha⟩, fun hr => ((hregistered b).mp hr).2 rfl⟩
  · intro b hb r hr
    rcases List.mem_append.mp hb with hb | hb
    · exact h.erased b hb r hr
    · cases List.mem_singleton.mp hb
      exact hnobody r hr

/-- The id of what a lookup has constructed is taken. -/
theorem find (h : s.Sound events) {p q : ℕ} (hpc : s.pc i = some (.emplacing p))
    (hq : s.Registered q) :
    ({ s with pointers := ⟨i, .variable_, q⟩ :: s.pointers }.goto i
      (some (.unlocking p q))).Sound (events ++ []) := by
  have hnew : newPtr (s.pc i) = some p := by rw [hpc]; rfl
  have hne : q ≠ p := by
    rintro rfl
    exact (h.fresh i q hnew).2.2.1 hq
  apply h.add [⟨i, .variable_, q⟩]
  · intro r hr
    cases List.mem_singleton.mp hr
    exact .inl hq
  · apply goto_reads
    rw [newPtr, if_neg hne]
    exact hnew.symm
  · intro j q' hq'
    by_cases hj : j = i
    · subst hj
      rw [goto_pc_self] at hq'
      cases hq'
      exact .inr ⟨List.mem_singleton_self _, hq⟩
    · rw [goto_pc_of_ne hj] at hq'
      exact .inl hq'
  · rfl
  · rfl

end Sound

end RegistryThreads

end AtlasNative
