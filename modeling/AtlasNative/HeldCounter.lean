import AtlasNative.Consolidation
import AtlasNative.CounterLog

/-!
# A counter that its caller holds

Whatever else happens to the registry, a counter that somebody holds stays
registered, and only what is added to it changes it.
-/

namespace AtlasNative

open ExactDouble Rolling Grouping ConsolidationRegistry
set_option autoImplicit false

/-- What a client can do with the registry. -/
inductive MeterOp where
  | counter (id : Id)
  | gauge (id : Id)
  | add (id : Id) (amount : ℤ)
  | update (id : Id) (d : Double)
  | release (id : Id)

namespace MeterOp

def apply (reg : AtlasRegistry) (now : ℤ) : MeterOp → AtlasRegistry
  | counter id => (reg.counter now id).1
  | gauge id => (reg.gauge id).1
  | add id amount => reg.Add id now amount
  | update id d => reg.Update id now d
  | release id => reg.release id

def meterId : MeterOp → Id
  | counter id => WithDefaultTagForId id statistic (intern_str "count")
  | gauge id => WithDefaultGaugeTags id
  | add id _ => id
  | update id _ => id
  | release id => id

def added (id : Id) : MeterOp → Option ℤ
  | add id' amount => if id' = id then some amount else none
  | _ => none

/-- The holder of a counter keeps its reference. -/
def Keeps (id : Id) : MeterOp → Prop
  | release id' => id' ≠ id
  | _ => True

end MeterOp

namespace AtlasRegistry
variable {reg : AtlasRegistry} {id : Id}

/-- The counter `c` is registered and held under `id`. -/
def Holds (reg : AtlasRegistry) (id : Id) (c : DefaultCounter) : Prop :=
  ∃ p, reg.meters_.lookup id = some p ∧ p.meter = .counter c ∧ 0 < p.held

theorem lookup_modify (reg : AtlasRegistry) (id id' : Id) (f : Meter → Meter)
    (hf : ∀ m, (f m).GetId = m.GetId) :
    (reg.modify id f hf).meters_.lookup id' =
      if id' = id then (reg.meters_.lookup id').map fun p => p.mapMeter f hf
      else reg.meters_.lookup id' := by
  unfold modify
  by_cases h : id' = id
  · subst h
    cases hlookup : reg.meters_.lookup id' <;> simp [hlookup]
  · cases hlookup : reg.meters_.lookup id <;> simp [h, AList.lookup_insert_ne]

theorem lookup_modify_eq_none (id' : Id) (f : Meter → Meter) (hf : ∀ m, (f m).GetId = m.GetId)
    (h : reg.meters_.lookup id = none) : (reg.modify id' f hf).meters_.lookup id = none := by
  rw [lookup_modify]
  split <;> simp [h]

theorem modify_own (reg : AtlasRegistry) (id : Id) (f : Meter → Meter)
    (hf : ∀ m, (f m).GetId = m.GetId) :
    (reg.modify id f hf).freq_millis_ = reg.freq_millis_ ∧
      (reg.modify id f hf).expired_meters = reg.expired_meters := by
  unfold modify
  split <;> exact ⟨rfl, rfl⟩

theorem create_and_register_as_needed_own (reg : AtlasRegistry) (new_meter : Meter) :
    (reg.create_and_register_as_needed new_meter).1.freq_millis_ = reg.freq_millis_ ∧
      (reg.create_and_register_as_needed new_meter).1.expired_meters = reg.expired_meters := by
  unfold create_and_register_as_needed
  split
  · exact ⟨rfl, rfl⟩
  · split <;> exact ⟨rfl, rfl⟩

theorem release_own (reg : AtlasRegistry) (id : Id) :
    (reg.release id).freq_millis_ = reg.freq_millis_ ∧
      (reg.release id).expired_meters = reg.expired_meters := by
  unfold release
  split <;> exact ⟨rfl, rfl⟩

theorem apply_own (o : MeterOp) (reg : AtlasRegistry) (now : ℤ) :
    (o.apply reg now).freq_millis_ = reg.freq_millis_ ∧
      (o.apply reg now).expired_meters = reg.expired_meters := by
  cases o with
  | counter id => exact create_and_register_as_needed_own _ _
  | gauge id => exact create_and_register_as_needed_own _ _
  | add id amount => exact modify_own _ _ _ _
  | update id d => exact modify_own _ _ _ _
  | release id => exact release_own _ _

theorem afterMeasurements_own (reg : AtlasRegistry) (now : ℤ) :
    (reg.afterMeasurements now).freq_millis_ = reg.freq_millis_ ∧
      (reg.afterMeasurements now).expired_meters = reg.expired_meters := by
  have hcount : (reg.countMeters now).freq_millis_ = reg.freq_millis_ ∧
      (reg.countMeters now).expired_meters = reg.expired_meters := modify_own _ _ _ _
  exact ⟨(modify_own _ _ _ _).1.trans hcount.1, (modify_own _ _ _ _).2.trans hcount.2⟩

theorem Holds.Add {c : DefaultCounter} (h : reg.Holds id c) (now amount : ℤ) :
    (reg.Add id now amount).Holds id (c.Add now amount) := by
  obtain ⟨p, hlookup, hmeter, hheld⟩ := h
  refine ⟨p.mapMeter _ (Meter.GetId_Add now amount), ?_, ?_, hheld⟩
  · rw [AtlasRegistry.Add, lookup_modify, if_pos rfl, hlookup]
    rfl
  · rw [Registered.meter_mapMeter, hmeter]
    rfl

theorem Holds.Add_ne {c : DefaultCounter} (h : reg.Holds id c) {id' : Id} (hid : id ≠ id')
    (now amount : ℤ) : (reg.Add id' now amount).Holds id c := by
  obtain ⟨p, hlookup, hrest⟩ := h
  refine ⟨p, ?_, hrest⟩
  rw [AtlasRegistry.Add, lookup_modify, if_neg hid, hlookup]

theorem Holds.Update {c : DefaultCounter} (h : reg.Holds id c) (id' : Id) (now : ℤ)
    (d : Double) : (reg.Update id' now d).Holds id c := by
  obtain ⟨p, hlookup, hmeter, hheld⟩ := h
  by_cases hid : id = id'
  · refine ⟨p.mapMeter _ (Meter.GetId_Update now d), ?_, ?_, hheld⟩
    · rw [AtlasRegistry.Update, lookup_modify, if_pos hid, hlookup]
      rfl
    · rw [Registered.meter_mapMeter, hmeter]
      rfl
  · refine ⟨p, ?_, hmeter, hheld⟩
    rw [AtlasRegistry.Update, lookup_modify, if_neg hid, hlookup]

theorem Holds.create_and_register_as_needed {c : DefaultCounter} (h : reg.Holds id c)
    (new_meter : Meter) : (reg.create_and_register_as_needed new_meter).1.Holds id c := by
  obtain ⟨p, hlookup, hmeter, hheld⟩ := h
  unfold AtlasRegistry.create_and_register_as_needed
  by_cases hid : id = new_meter.GetId
  · subst hid
    rw [hlookup]
    dsimp only
    split
    · exact ⟨{ p with held := p.held + 1 }, AList.lookup_insert _, hmeter, Nat.succ_pos _⟩
    · exact ⟨p, hlookup, hmeter, hheld⟩
  · have hkeep : ∀ q : Registered new_meter.GetId,
        (reg.meters_.insert new_meter.GetId q).lookup id = some p := fun q => by
      rw [AList.lookup_insert_ne hid, hlookup]
    split
    · exact ⟨p, hkeep _, hmeter, hheld⟩
    · split
      · exact ⟨p, hkeep _, hmeter, hheld⟩
      · exact ⟨p, hlookup, hmeter, hheld⟩

theorem Holds.release {c : DefaultCounter} (h : reg.Holds id c) {id' : Id} (hid : id' ≠ id) :
    (reg.release id').Holds id c := by
  obtain ⟨p, hlookup, hrest⟩ := h
  refine ⟨p, ?_, hrest⟩
  unfold AtlasRegistry.release
  split
  · exact hlookup
  · rw [AList.lookup_insert_ne hid.symm, hlookup]

/-- No operation but `Add` changes a counter that its holder keeps. -/
theorem Holds.apply {c : DefaultCounter} (h : reg.Holds id c) (now : ℤ) {o : MeterOp}
    (hkeeps : o.Keeps id) :
    (o.apply reg now).Holds id
      (match o.added id with
        | some amount => c.Add now amount
        | none => c) := by
  cases o with
  | counter id' => exact h.create_and_register_as_needed _
  | gauge id' => exact h.create_and_register_as_needed _
  | add id' amount =>
    by_cases hid : id' = id
    · subst hid
      rw [MeterOp.added, if_pos rfl]
      exact h.Add now amount
    · rw [MeterOp.added, if_neg hid]
      exact h.Add_ne (Ne.symm hid) now amount
  | update id' d => exact h.Update id' now d
  | release id' => exact h.release hkeeps

theorem Holds.expire_meters {c : DefaultCounter} (h : reg.Holds id c)
    (hown : id ≠ reg.expired_meters) (now : ℤ) : (reg.expire_meters now).Holds id c := by
  apply Holds.Add_ne _ hown
  obtain ⟨p, hlookup, hmeter, hheld⟩ := h
  refine ⟨p, ?_, hmeter, hheld⟩
  have hexpires : reg.expires now id p = false := by
    simp [expires, unused, hheld.ne']
  simp [AssocMap.lookup_updateAll, hlookup, hexpires]

theorem Holds.afterMeasurements {c : DefaultCounter} (h : reg.Holds id c)
    (hown : id ≠ reg.expired_meters) (now : ℤ) :
    (reg.afterMeasurements now).Holds id (c.measured now) := by
  have hcount : (reg.countMeters now).Holds id c := h.Update _ _ _
  have hexpired : (reg.countMeters now).expired_meters = reg.expired_meters :=
    (modify_own _ _ _ _).2
  apply Holds.expire_meters _ (by rw [hexpired]; exact hown)
  obtain ⟨p, hlookup, hmeter, hheld⟩ := hcount
  refine ⟨measured now id p, by simp [hlookup], ?_, ?_⟩
  · unfold measured DefaultCounter.measured
    rw [hmeter]
    split
    · exact hmeter
    · rw [Registered.meter_mapMeter, hmeter]
      rfl
  · unfold measured
    split <;> exact hheld

theorem filter_measurements (reg : AtlasRegistry) (id : Id) (now : ℤ) :
    (reg.measurements now).filter (·.id = id) =
      match (reg.countMeters now).meters_.lookup id with
      | some p => if p.meter.HasExpired now then [] else p.meter.Measure now
      | none => [] := by
  have hfilter := AssocMap.filter_flatMap_entries (reg.countMeters now).meters_
    (fun _ p => if p.meter.HasExpired now then [] else p.meter.Measure now)
    (fun x : Measurement => x.id)
    (fun k p x hx => by
      split at hx
      · exact absurd hx List.not_mem_nil
      · exact (Meter.id_of_mem_Measure x hx).trans p.meter_id) id
  rw [AtlasRegistry.measurements, hfilter]
  cases (reg.countMeters now).meters_.lookup id <;> rfl

theorem Holds.measurements {c : DefaultCounter} (h : reg.Holds id c) (now : ℤ) :
    (reg.measurements now).filter (·.id = id) = c.measurement now := by
  have hcount : (reg.countMeters now).Holds id c := h.Update _ _ _
  obtain ⟨p, hlookup, hmeter, hheld⟩ := hcount
  rw [filter_measurements, hlookup]
  dsimp only
  rw [hmeter]
  rfl

theorem lookup_apply_eq_none (h : reg.meters_.lookup id = none) (now : ℤ) {o : MeterOp}
    (hid : o.meterId ≠ id) : (o.apply reg now).meters_.lookup id = none := by
  have hcreate : ∀ new_meter : Meter, new_meter.GetId ≠ id →
      (reg.create_and_register_as_needed new_meter).1.meters_.lookup id = none := by
    intro new_meter hne
    unfold AtlasRegistry.create_and_register_as_needed
    split
    · simp [AList.lookup_insert_ne (Ne.symm hne), h]
    · split
      · simp [AList.lookup_insert_ne (Ne.symm hne), h]
      · exact h
  cases o with
  | counter id' => exact hcreate _ hid
  | gauge id' => exact hcreate _ hid
  | add id' amount => exact lookup_modify_eq_none _ _ _ h
  | update id' d => exact lookup_modify_eq_none _ _ _ h
  | release id' =>
    show (reg.release id').meters_.lookup id = none
    unfold AtlasRegistry.release
    split
    · exact h
    · exact (AList.lookup_insert_ne (Ne.symm hid)).trans h

theorem lookup_afterMeasurements_eq_none (h : reg.meters_.lookup id = none) (now : ℤ) :
    (reg.afterMeasurements now).meters_.lookup id = none := by
  have hcount : (reg.countMeters now).meters_.lookup id = none := lookup_modify_eq_none _ _ _ h
  apply lookup_modify_eq_none
  simp [AssocMap.lookup_updateAll, hcount]

theorem filter_measurements_eq_nil (h : reg.meters_.lookup id = none) (now : ℤ) :
    (reg.measurements now).filter (·.id = id) = [] := by
  have hcount : (reg.countMeters now).meters_.lookup id = none := lookup_modify_eq_none _ _ _ h
  rw [filter_measurements, hcount]

/-- The registry, which is not the owner of the id, holds a counter that has been given
the amounts of `log`. -/
structure Records (u : ℤ) (reg : AtlasRegistry) (id : Id) (now : ℤ) (log : List (ℤ × ℤ)) :
    Prop where
  own : id ≠ reg.expired_meters
  counter : ∃ c, reg.Holds id c ∧ c.Records u now log

structure Lacks (u : ℤ) (reg : AtlasRegistry) (id : Id) : Prop where
  freq : reg.freq_millis_ = u
  own : id ≠ reg.expired_meters
  free : reg.meters_.lookup id = none

section Steps
variable {u now t : ℤ} {log : List (ℤ × ℤ)} {o : MeterOp}

theorem Lacks.apply (h : Lacks u reg id) (now : ℤ) (hid : o.meterId ≠ id) :
    Lacks u (o.apply reg now) id where
  freq := (apply_own o reg now).1.trans h.freq
  own := (apply_own o reg now).2.symm ▸ h.own
  free := lookup_apply_eq_none h.free now hid

theorem Lacks.afterMeasurements (h : Lacks u reg id) (now : ℤ) :
    Lacks u (reg.afterMeasurements now) id where
  freq := (afterMeasurements_own reg now).1.trans h.freq
  own := (afterMeasurements_own reg now).2.symm ▸ h.own
  free := lookup_afterMeasurements_eq_none h.free now

theorem Lacks.counter (h : Lacks u reg id) (h0 : 0 ≤ now) {id' : Id}
    (hid : (MeterOp.counter id').meterId = id) :
    Records u ((MeterOp.counter id').apply reg now) id now [] := by
  subst hid
  refine ⟨(apply_own _ reg now).2.symm ▸ h.own, .create id' u now, ?_,
    DefaultCounter.Records.create id' u h0⟩
  have hlookup : reg.meters_.lookup (Meter.counter (.create id' reg.freq_millis_ now)).GetId =
      none := h.free
  refine ⟨⟨.counter (.create id' reg.freq_millis_ now), rfl, 1⟩, ?_, ?_, one_pos⟩
  · show (reg.create_and_register_as_needed _).1.meters_.lookup _ = _
    unfold AtlasRegistry.create_and_register_as_needed
    rw [hlookup]
    exact AList.lookup_insert _
  · rw [← h.freq]

theorem Records.apply (hu : 0 < u) (h : Records u reg id now log) (h0 : 0 ≤ t) (ht : now ≤ t)
    (hkeeps : o.Keeps id) :
    Records u (o.apply reg t) id t (log ++ ((o.added id).map (Prod.mk (t / u))).toList) := by
  obtain ⟨c, hholds, hc⟩ := h.counter
  refine ⟨(apply_own o reg t).2.symm ▸ h.own, _, hholds.apply t hkeeps, ?_⟩
  cases o.added id with
  | none =>
    rw [Option.map_none, Option.toList_none, List.append_nil]
    exact hc.mono hu ht
  | some amount => exact hc.Add hu h0 ht amount

theorem Records.afterMeasurements (hu : 0 < u) (h : Records u reg id now log) (h0 : 0 ≤ t)
    (ht : now ≤ t) : Records u (reg.afterMeasurements t) id t log := by
  obtain ⟨c, hholds, hc⟩ := h.counter
  exact ⟨(afterMeasurements_own reg t).2.symm ▸ h.own, c.measured t,
    hholds.afterMeasurements h.own t, hc.measured hu h0 ht⟩

theorem Records.rates (hu : 0 < u) (hidle : 2 * u ≤ MAX_IDLE_TIME)
    (h : Records u reg id now log) (hlog : ∀ e ∈ log, 0 ≤ e.2) (h0 : 0 ≤ t) (ht : now ≤ t) :
    Rates (valuesFor id (reg.measurements t)) ((bucket (t / u - 1) log).sum / (u / 1000)) := by
  obtain ⟨c, hholds, hc⟩ := h.counter
  rw [valuesFor_eq, hholds.measurements]
  exact hc.rates hu hidle hlog h0 ht

theorem Records.rates_five (h : Records 5000 reg id now log) (hlog : ∀ e ∈ log, 0 ≤ e.2)
    (h0 : 0 ≤ t) (ht : now ≤ t) :
    Rates (valuesFor id (reg.measurements t)) ((bucket (t / 5000 - 1) log).sum / 5) := by
  have hrates := h.rates (by decide) (by decide) hlog h0 ht
  have hseconds : ((5000 : ℤ) : ℚ) / 1000 = 5 := by norm_num
  rwa [hseconds] at hrates

theorem Lacks.measured (h : Lacks u reg id) (now : ℤ) :
    valuesFor id (reg.measurements now) = [] := by
  rw [valuesFor_eq, filter_measurements_eq_nil h.free]
  rfl

end Steps

end AtlasRegistry

end AtlasNative
