import AtlasNative.Lib.TimedRuns
import AtlasNative.RegistryRefinement

/-!
# Runs on the objects are runs by ids

The constructors agree, and every call is one operation by ids, or none. A run by callers
who only look up counters and gauges is therefore a run by ids, with the same measurements.
-/

namespace AtlasNative

open ExactDouble
set_option autoImplicit false

namespace SharedRegistry

theorem name_WithDefaultTagForId (id : Id) (key value : StrRef) :
    (WithDefaultTagForId id key value).name_ = id.name_ := by
  unfold WithDefaultTagForId
  split <;> rfl

theorem name_WithDefaultGaugeTags (id : Id) : (WithDefaultGaugeTags id).name_ = id.name_ := by
  rw [WithDefaultGaugeTags, name_WithDefaultTagForId, name_WithDefaultTagForId]

theorem own_ids_ne (freq_millis : ℤ) :
    MeterKind.taggedId (ownId freq_millis "atlas.numMeters") .gauge ≠
      MeterKind.taggedId (ownId freq_millis "atlas.expiredMeters") .counter := by
  intro heq
  have hname : intern_str "atlas.numMeters" = intern_str "atlas.expiredMeters" := by
    have hnames := congrArg Id.name_ heq
    rw [MeterKind.taggedId, MeterKind.taggedId, name_WithDefaultGaugeTags,
      name_WithDefaultTagForId] at hnames
    exact hnames
  exact absurd hname (by decide)

theorem lookup_of_free (reg : SharedRegistry) (id : Id) (kind : MeterKind)
    (h : reg.meters_.lookup (kind.taggedId id) = none) :
    reg.lookup id kind =
      ({ reg with
          objects := reg.objects ++ [.create id reg.freq_millis_ reg.wall kind]
          meters_ := reg.meters_.insert (kind.taggedId id) reg.objects.length },
        reg.objects.length) := by
  rw [← AnyMeter.GetId_create id reg.freq_millis_ reg.wall kind] at h ⊢
  rw [lookup_eq, create_and_register_of_none h]

theorem create_eq (freq_millis wall monotonic : ℤ) :
    create freq_millis wall monotonic =
      ⟨freq_millis, wall, monotonic,
        [.create (ownId freq_millis "atlas.numMeters") freq_millis wall .gauge,
          .create (ownId freq_millis "atlas.expiredMeters") freq_millis wall .counter], 0, 1,
        ((∅ : AList fun _ : Id => ℕ).insert
          (MeterKind.taggedId (ownId freq_millis "atlas.numMeters") .gauge) 0).insert
          (MeterKind.taggedId (ownId freq_millis "atlas.expiredMeters") .counter) 1, [], []⟩ := by
  have hne := own_ids_ne freq_millis
  unfold create
  generalize ownId freq_millis "atlas.numMeters" = size at hne ⊢
  generalize ownId freq_millis "atlas.expiredMeters" = expired at hne ⊢
  have hsize : (empty freq_millis wall monotonic).gauge size =
      (⟨freq_millis, wall, monotonic, [.create size freq_millis wall .gauge], 0, 0,
        (∅ : AList fun _ : Id => ℕ).insert (MeterKind.taggedId size .gauge) 0, [], []⟩, 0) :=
    lookup_of_free _ size .gauge (AList.lookup_empty _)
  have hfree : ((∅ : AList fun _ : Id => ℕ).insert (MeterKind.taggedId size .gauge) 0).lookup
      (MeterKind.taggedId expired .counter) = none := by
    rw [AList.lookup_insert_ne hne.symm, AList.lookup_empty]
  have hexpired : SharedRegistry.counter
      ⟨freq_millis, wall, monotonic, [.create size freq_millis wall .gauge], 0, 0,
        (∅ : AList fun _ : Id => ℕ).insert (MeterKind.taggedId size .gauge) 0, [], []⟩ expired =
      (⟨freq_millis, wall, monotonic,
        [.create size freq_millis wall .gauge, .create expired freq_millis wall .counter], 0, 0,
        ((∅ : AList fun _ : Id => ℕ).insert (MeterKind.taggedId size .gauge) 0).insert
          (MeterKind.taggedId expired .counter) 1, [], []⟩, 1) :=
    lookup_of_free _ expired .counter hfree
  rw [hsize]
  dsimp only
  rw [hexpired]

/-- The meters that the registry by ids begins with. -/
def ownMeters (freq_millis now : ℤ) (size expired : Id) : AList Registered :=
  ((∅ : AList Registered).insert (MeterKind.taggedId size .gauge)
      ⟨.gauge (.create size), rfl, 0⟩).insert (MeterKind.taggedId expired .counter)
    ⟨.counter (.create expired freq_millis now), rfl, 0⟩

theorem ids_create_eq (freq_millis now : ℤ) :
    AtlasRegistry.create freq_millis now =
      ⟨freq_millis, MeterKind.taggedId (ownId freq_millis "atlas.numMeters") .gauge,
        MeterKind.taggedId (ownId freq_millis "atlas.expiredMeters") .counter,
        ownMeters freq_millis now (ownId freq_millis "atlas.numMeters")
          (ownId freq_millis "atlas.expiredMeters")⟩ := by
  simp only [AtlasRegistry.create, ownMeters, ownId]
  rfl

theorem create_refines (freq_millis wall monotonic : ℤ) :
    Refines (create freq_millis wall monotonic) (AtlasRegistry.create freq_millis wall) := by
  obtain ⟨hregisters, hcopy⟩ := create_registers freq_millis wall monotonic
  have hne := own_ids_ne freq_millis
  rw [create_eq] at hregisters hcopy ⊢
  rw [ids_create_eq]
  generalize ownId freq_millis "atlas.numMeters" = size at *
  generalize ownId freq_millis "atlas.expiredMeters" = expired at *
  refine ⟨hregisters, hcopy, by simp, rfl, ?_, ?_, fun id => ?_⟩
  · exact (AList.lookup_insert_ne hne).trans (AList.lookup_insert _)
  · exact AList.lookup_insert _
  · dsimp only [ownMeters]
    by_cases hexpired : id = MeterKind.taggedId expired .counter
    · subst hexpired
      rw [AList.lookup_insert, AList.lookup_insert]
      exact .some ⟨⟨_, rfl, rfl⟩, rfl⟩
    · rw [AList.lookup_insert_ne hexpired, AList.lookup_insert_ne hexpired]
      by_cases hsize : id = MeterKind.taggedId size .gauge
      · subst hsize
        rw [AList.lookup_insert, AList.lookup_insert]
        exact .some ⟨⟨_, rfl, rfl⟩, rfl⟩
      · rw [AList.lookup_insert_ne hsize, AList.lookup_insert_ne hsize]
        exact .none

end SharedRegistry

inductive AtlasOp where
  | op (o : MeterOp)
  | measurements
  | expire_meters

namespace AtlasOp

def apply (ids : AtlasRegistry) (now : ℤ) : AtlasOp → AtlasRegistry
  | op o => o.apply ids now
  | measurements => ids.afterMeasurements now
  | expire_meters => ids.expire_meters now

end AtlasOp

/-- The callers look up counters and gauges only. -/
def RegistryCall.ById : RegistryCall → Prop
  | .lookup kind _ => kind = .counter ∨ kind = .gauge
  | _ => True

namespace SharedRegistry

/-- One call on the objects is one operation by ids, or none. -/
theorem step_refines {reg : SharedRegistry} {ids : AtlasRegistry} (h : Refines reg ids)
    {c : RegistryCall} (hc : c.ById) :
    Refines (reg.step c) ids ∨ ∃ o, Refines (reg.step c) (AtlasOp.apply ids reg.wall o) := by
  cases c with
  | lookup kind id =>
    right
    rcases hc with rfl | rfl
    · exact ⟨.op (.counter id), h.lookup (by rw [h.freq]; rfl)⟩
    · exact ⟨.op (.gauge id), h.lookup rfl⟩
  | drop i =>
    by_cases hi : ∃ a id, reg.handles[i]? = some a ∧ reg.meters_.lookup id = some a
    · obtain ⟨a, id, ha, hid⟩ := hi
      exact .inr ⟨.op (.release id), h.release hid ha⟩
    · refine .inl (h.release_isolated fun a id ha hid => hi ⟨a, id, ha, hid⟩)
  | update i op =>
    rw [step]
    cases ha : reg.handles[i]? with
    | none => exact .inl h
    | some a =>
      by_cases hid : ∃ id, reg.meters_.lookup id = some a
      · obtain ⟨id, hid⟩ := hid
        cases op with
        | Add amount => exact .inr ⟨.op (.add id amount), h.call hid (.Add amount)⟩
        | Update value => exact .inr ⟨.op (.update id value), h.call hid (.Update value)⟩
        | _ => exact .inl (h.call_same fun _ _ _ => rfl)
      · exact .inl (h.call_same fun id ha => absurd ⟨id, ha⟩ hid)
  | advance wall monotonic =>
    left
    exact ⟨h.registers, h.copy, h.handles, h.freq, h.meters_size, h.expired_meters,
      fun id => h.meters_imp id fun _ _ _ hstands => hstands.frame rfl rfl⟩
  | measurements => exact .inr ⟨.measurements, h.measurements⟩
  | expire_meters => exact .inr ⟨.expire_meters, h.expire_meters⟩

/-- Every run on the objects is a run by ids, at the same times. -/
theorem run_refines (freq_millis wall monotonic : ℤ) {calls : List RegistryCall}
    (hcalls : ∀ c ∈ calls, c.ById) :
    ∃ events, TimedRuns.Ordered wall events
        ((create freq_millis wall monotonic).run calls).wall ∧
      Refines ((create freq_millis wall monotonic).run calls)
        (TimedRuns.run AtlasOp.apply (AtlasRegistry.create freq_millis wall) events) := by
  induction calls using List.reverseRecOn with
  | nil =>
    refine ⟨[], ?_, create_refines freq_millis wall monotonic⟩
    rw [create_eq]
    simp [TimedRuns.Ordered, run]
  | append_singleton calls c ih =>
    obtain ⟨events, hordered, hrefines⟩ := ih fun c hc => hcalls c (List.mem_append_left _ hc)
    have hclock := (step_follows hrefines.registers hrefines.copy c).clock
    rw [run_append]
    rcases step_refines hrefines (hcalls c (by simp)) with hsame | ⟨o, hstep⟩
    · exact ⟨events, hordered.mono hclock, hsame⟩
    · refine ⟨events ++ [(_, o)], hordered.concat hclock o, ?_⟩
      rw [TimedRuns.run, List.foldl_append]
      exact hstep

/-- What is measured in a run on the objects is measured in a run by ids. -/
theorem run_measurements (freq_millis wall monotonic : ℤ) {calls : List RegistryCall}
    (hcalls : ∀ c ∈ calls, c.ById) :
    let reg := (create freq_millis wall monotonic).run calls
    ∃ events, TimedRuns.Ordered wall events reg.wall ∧
      reg.measurements.2.Perm
        ((TimedRuns.run AtlasOp.apply (AtlasRegistry.create freq_millis wall) events).measurements
          reg.wall) := by
  obtain ⟨events, hordered, hrefines⟩ := run_refines freq_millis wall monotonic hcalls
  exact ⟨events, hordered, hrefines.measurements_perm⟩

end SharedRegistry

end AtlasNative
