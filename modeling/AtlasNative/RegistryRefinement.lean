import AtlasNative.HeldCounter
import AtlasNative.HeldMeters

/-!
# The registry over objects refines the registry by ids

The registry by ids knows counters and gauges, and for each registered one the number of
pointers that callers hold. Every operation on the objects does to the registered ones what
its counterpart does to the meters by id; an isolated object has none.
-/

namespace AtlasNative

open ExactDouble
set_option autoImplicit false

namespace AnyMeter

/-- The meter of the registry by ids, for the two classes that it has. -/
def toMeter : AnyMeter → Option Meter
  | counter m => some (.counter ⟨m.id_, m.last_updated_, m.step_number_, m.value_⟩)
  | gauge m => some (.gauge m)
  | _ => none

variable {m : AnyMeter} {m' : Meter}

theorem toMeter_cases (h : m.toMeter = some m') :
    (∃ c : DefaultCounterNumber ℤ, m = .counter c ∧
      m' = .counter ⟨c.id_, c.last_updated_, c.step_number_, c.value_⟩) ∨
    ∃ g, m = .gauge g ∧ m' = .gauge g := by
  cases m with
  | counter c => exact .inl ⟨c, rfl, (Option.some.inj h).symm⟩
  | gauge g => exact .inr ⟨g, rfl, (Option.some.inj h).symm⟩
  | _ => cases h

theorem toMeter_GetId (h : m.toMeter = some m') : m'.GetId = m.GetId := by
  rcases toMeter_cases h with ⟨c, rfl, rfl⟩ | ⟨g, rfl, rfl⟩ <;> rfl

theorem toMeter_GetClass (h : m.toMeter = some m') : m'.GetClass = m.GetClass := by
  rcases toMeter_cases h with ⟨c, rfl, rfl⟩ | ⟨g, rfl, rfl⟩ <;> rfl

theorem toMeter_HasExpired (h : m.toMeter = some m') (now : ℤ) :
    m'.HasExpired now = m.HasExpired now := by
  rcases toMeter_cases h with ⟨c, rfl, rfl⟩ | ⟨g, rfl, rfl⟩ <;> rfl

theorem toMeter_Measure (h : m.toMeter = some m') (now monotonic : ℤ) :
    m'.Measure now = m.Measure now monotonic := by
  rcases toMeter_cases h with ⟨c, rfl, rfl⟩ | ⟨g, rfl, rfl⟩ <;> rfl

theorem toMeter_polled (h : m.toMeter = some m') (now : ℤ) :
    (m.polled now).toMeter = some (m'.polled now) := by
  rcases toMeter_cases h with ⟨c, rfl, rfl⟩ | ⟨g, rfl, rfl⟩ <;> rfl

end AnyMeter

/-- What an operation of a class does to a meter by id; most are of other classes. -/
def Meter.applyMethod (now : ℤ) (op : MeterMethod) (m : Meter) : Meter :=
  match op with
  | .Add amount => m.Add now amount
  | .Update value => m.Update now value
  | _ => m

@[simp] theorem Meter.GetId_applyMethod (now : ℤ) (op : MeterMethod) (m : Meter) :
    (m.applyMethod now op).GetId = m.GetId := by
  cases op <;> simp [applyMethod]

theorem AnyMeter.toMeter_apply {m : AnyMeter} {m' : Meter} (h : m.toMeter = some m')
    (now monotonic : ℤ) (op : MeterMethod) :
    ((m.apply now monotonic op).getD m).toMeter = some (m'.applyMethod now op) := by
  rcases toMeter_cases h with ⟨c, rfl, rfl⟩ | ⟨g, rfl, rfl⟩ <;> cases op <;> rfl

theorem AtlasRegistry.modify_eq (ids : AtlasRegistry) (id : Id) (f : Meter → Meter)
    (hf : ∀ m, (f m).GetId = m.GetId) :
    ids.modify id f hf = { ids with meters_ := (ids.modify id f hf).meters_ } := by
  unfold AtlasRegistry.modify
  split <;> rfl

namespace SharedRegistry

/-- The object at an address is the meter that is registered by id, and callers hold as
many pointers to it. -/
structure Stands (reg : SharedRegistry) (id : Id) (a : ℕ) (p : Registered id) : Prop where
  meter : ∃ m, reg.objects[a]? = some m ∧ m.toMeter = some p.meter
  held : p.held = reg.handles.count a

theorem Stands.frame {reg reg' : SharedRegistry} {id : Id} {a : ℕ} {p : Registered id}
    (h : reg.Stands id a p) (hobject : reg'.objects[a]? = reg.objects[a]?)
    (hheld : reg'.handles.count a = reg.handles.count a) : reg'.Stands id a p :=
  ⟨hobject ▸ h.meter, hheld ▸ h.held⟩

structure Refines (reg : SharedRegistry) (ids : AtlasRegistry) : Prop where
  registers : Registers reg
  copy : reg.all_meters = []
  handles : ∀ a ∈ reg.handles, a < reg.objects.length
  freq : ids.freq_millis_ = reg.freq_millis_
  meters_size : reg.meters_.lookup ids.meters_size = some reg.meters_size
  expired_meters : reg.meters_.lookup ids.expired_meters = some reg.expired_meters
  meters : ∀ id, Option.Rel (reg.Stands id) (reg.meters_.lookup id) (ids.meters_.lookup id)

namespace Refines
variable {reg : SharedRegistry} {ids : AtlasRegistry} {id : Id} {a : ℕ}

theorem lookup_some (h : Refines reg ids) (ha : reg.meters_.lookup id = some a) :
    ∃ p, ids.meters_.lookup id = some p ∧ reg.Stands id a p := by
  have hid := h.meters id
  rw [ha] at hid
  generalize ids.meters_.lookup id = p at hid
  cases hid with
  | some hstands => exact ⟨_, rfl, hstands⟩

theorem lookup_none (h : Refines reg ids) (ha : reg.meters_.lookup id = none) :
    ids.meters_.lookup id = none := by
  have hid := h.meters id
  rw [ha] at hid
  generalize ids.meters_.lookup id = p at hid
  cases hid
  rfl

theorem lt_length (h : Refines reg ids) (ha : reg.meters_.lookup id = some a) :
    a < reg.objects.length := by
  obtain ⟨m, hm, _⟩ := h.registers id a ha
  exact (List.getElem?_eq_some_iff.mp hm).1

theorem meters_imp (h : Refines reg ids) {reg' : SharedRegistry} (id : Id)
    (himp : ∀ a p, reg.meters_.lookup id = some a → reg.Stands id a p → reg'.Stands id a p) :
    Option.Rel (reg'.Stands id) (reg.meters_.lookup id) (ids.meters_.lookup id) := by
  cases ha : reg.meters_.lookup id with
  | none =>
    rw [h.lookup_none ha]
    exact .none
  | some a =>
    obtain ⟨p, hp, hstands⟩ := h.lookup_some ha
    rw [hp]
    exact .some (himp a p ha hstands)

theorem mapMeters (h : Refines reg ids) {objects : List AnyMeter} {meters : AList Registered}
    (f : Id → Meter → Meter) (hf : ∀ id m, (f id m).GetId = m.GetId)
    (hlength : reg.objects.length ≤ objects.length)
    (hobjects : ∀ id a m m', reg.meters_.lookup id = some a → reg.objects[a]? = some m →
      m.toMeter = some m' → ∃ n, objects[a]? = some n ∧ n.toMeter = some (f id m'))
    (hmeters : ∀ id, meters.lookup id =
      (ids.meters_.lookup id).map fun p => p.mapMeter (f id) (hf id)) :
    Refines { reg with objects := objects } { ids with meters_ := meters } where
  registers := by
    intro id a ha
    obtain ⟨p, _, ⟨m, hm, hmeter⟩, _⟩ := h.lookup_some ha
    obtain ⟨n, hn, hafter⟩ := hobjects id a m p.meter ha hm hmeter
    refine ⟨n, hn, ?_⟩
    rw [← AnyMeter.toMeter_GetId hafter, hf, p.meter_id]
  copy := h.copy
  handles a ha := lt_of_lt_of_le (h.handles a ha) hlength
  freq := h.freq
  meters_size := h.meters_size
  expired_meters := h.expired_meters
  meters := by
    intro id
    show Option.Rel _ (reg.meters_.lookup id) (meters.lookup id)
    rw [hmeters]
    cases ha : reg.meters_.lookup id with
    | none =>
      rw [h.lookup_none ha]
      exact .none
    | some a =>
      obtain ⟨p, hp, ⟨m, hm, hmeter⟩, hheld⟩ := h.lookup_some ha
      rw [hp]
      exact .some ⟨hobjects id a m p.meter ha hm hmeter, hheld⟩

theorem call (h : Refines reg ids) (ha : reg.meters_.lookup id = some a) (op : MeterMethod) :
    Refines (reg.call a op)
      (ids.modify id (Meter.applyMethod reg.wall op) (Meter.GetId_applyMethod reg.wall op)) := by
  rw [AtlasRegistry.modify_eq]
  refine h.mapMeters (fun id' m => if id' = id then m.applyMethod reg.wall op else m)
    (fun id' m => ?_) (by simp) ?_ ?_
  · split
    · exact Meter.GetId_applyMethod reg.wall op m
    · rfl
  · intro id' b m m' hb hm hmeter
    by_cases hid : id' = id
    · subst hid
      obtain rfl := Option.some.inj (hb.symm.trans ha)
      rw [List.getElem?_modify_eq, hm]
      exact ⟨_, rfl, by rw [if_pos rfl]; exact AnyMeter.toMeter_apply hmeter _ _ op⟩
    · have hne : a ≠ b := fun heq => hid (h.registers.id_unique hb (heq ▸ ha))
      rw [List.getElem?_modify_ne _ _ hne]
      exact ⟨m, hm, by rw [if_neg hid, hmeter]⟩
  · intro id'
    rw [AtlasRegistry.lookup_modify]
    by_cases hid : id' = id
    · simp [hid]
    · cases ids.meters_.lookup id' with
      | none => simp [hid]
      | some p => simp [hid, Registered.mapMeter]

/-- The registry by ids knows nothing of an isolated object, or of a method that does not
change the object. -/
theorem call_same (h : Refines reg ids) {op : MeterMethod}
    (hsame : ∀ id, reg.meters_.lookup id = some a → ∀ m, Meter.applyMethod reg.wall op m = m) :
    Refines (reg.call a op) ids := by
  refine h.mapMeters (fun _ m => m) (fun _ _ => rfl) (by simp) ?_ ?_
  · intro id b m m' hb hm hmeter
    by_cases hab : a = b
    · subst hab
      rw [List.getElem?_modify_eq, hm]
      refine ⟨_, rfl, ?_⟩
      rw [AnyMeter.toMeter_apply hmeter, hsame id hb]
    · rw [List.getElem?_modify_ne _ _ hab]
      exact ⟨m, hm, hmeter⟩
  · intro id
    cases ids.meters_.lookup id <;> rfl

theorem stands_concat {p : Registered id} (hp : reg.Stands id a p) (ha : a < reg.objects.length)
    (m : AnyMeter) {b : ℕ} (hb : b ≠ a) :
    Stands { reg with objects := reg.objects ++ [m], handles := reg.handles ++ [b] } id a p := by
  apply hp.frame
  · exact List.getElem?_append_left ha
  · simp [hb]

theorem handles_concat (h : Refines reg ids) (m : AnyMeter) {b : ℕ} (hb : b ≤ reg.objects.length) :
    ∀ a ∈ reg.handles ++ [b], a < (reg.objects ++ [m]).length := by
  intro a ha
  rw [List.length_append, List.length_singleton, Nat.lt_succ_iff]
  rcases List.mem_append.mp ha with hold | hnew
  · exact (h.handles a hold).le
  · exact (List.mem_singleton.mp hnew).le.trans hb

theorem register (h : Refines reg ids) {m : AnyMeter} {m' : Meter} (hm : m.toMeter = some m')
    (hfree : reg.meters_.lookup m'.GetId = none) :
    Refines
      { reg with
        objects := reg.objects ++ [m]
        meters_ := reg.meters_.insert m'.GetId reg.objects.length
        handles := reg.handles ++ [reg.objects.length] }
      { ids with meters_ := ids.meters_.insert m'.GetId ⟨m', rfl, 1⟩ } where
  registers := by
    intro id a ha
    by_cases hid : id = m'.GetId
    · subst hid
      obtain rfl := Option.some.inj ((AList.lookup_insert _).symm.trans ha)
      exact ⟨m, by simp, (AnyMeter.toMeter_GetId hm).symm⟩
    · rw [AList.lookup_insert_ne hid] at ha
      obtain ⟨n, hn, hgetid⟩ := h.registers id a ha
      exact ⟨n, by rw [List.getElem?_append_left (h.lt_length ha), hn], hgetid⟩
  copy := h.copy
  handles := h.handles_concat m le_rfl
  freq := h.freq
  meters_size := by
    have hne : ids.meters_size ≠ m'.GetId := fun heq => by
      rw [← heq, h.meters_size] at hfree
      cases hfree
    exact (AList.lookup_insert_ne hne).trans h.meters_size
  expired_meters := by
    have hne : ids.expired_meters ≠ m'.GetId := fun heq => by
      rw [← heq, h.expired_meters] at hfree
      cases hfree
    exact (AList.lookup_insert_ne hne).trans h.expired_meters
  meters := by
    intro id
    by_cases hid : id = m'.GetId
    · subst hid
      have hnot : reg.objects.length ∉ reg.handles := fun hmem =>
        lt_irrefl _ (h.handles _ hmem)
      dsimp only
      rw [AList.lookup_insert, AList.lookup_insert]
      refine .some ⟨⟨m, by simp, hm⟩, ?_⟩
      simp [List.count_eq_zero.mpr hnot]
    · dsimp only
      rw [AList.lookup_insert_ne hid, AList.lookup_insert_ne hid]
      exact h.meters_imp id fun _ _ ha hstands =>
        (stands_concat hstands (h.lt_length ha) m (h.lt_length ha).ne').frame rfl rfl

/-- A new object stays isolated; the caller may get a pointer to it. -/
theorem isolated (h : Refines reg ids) (m : AnyMeter) :
    Refines
      { reg with
        objects := reg.objects ++ [m]
        handles := reg.handles ++ [reg.objects.length] } ids where
  registers := h.registers.of_subset (Evolves.append 0 reg.objects [m]) fun _ _ ha => ha
  copy := h.copy
  handles := h.handles_concat m le_rfl
  freq := h.freq
  meters_size := h.meters_size
  expired_meters := h.expired_meters
  meters id := h.meters_imp id fun _ _ ha hstands =>
    stands_concat hstands (h.lt_length ha) m (h.lt_length ha).ne'

/-- The caller gets another pointer to the registered object, and the new one is isolated. -/
theorem share (h : Refines reg ids) (m : AnyMeter) {p : Registered id}
    (ha : reg.meters_.lookup id = some a) (hp : ids.meters_.lookup id = some p) :
    Refines
      { reg with
        objects := reg.objects ++ [m]
        handles := reg.handles ++ [a] }
      { ids with meters_ := ids.meters_.insert id { p with held := p.held + 1 } } where
  registers := h.registers.of_subset (Evolves.append 0 reg.objects [m]) fun _ _ ha => ha
  copy := h.copy
  handles := h.handles_concat m (h.lt_length ha).le
  freq := h.freq
  meters_size := h.meters_size
  expired_meters := h.expired_meters
  meters := by
    intro id'
    dsimp only
    by_cases hid : id' = id
    · subst hid
      obtain ⟨q, hq, ⟨n, hn, hmeter⟩, hheld⟩ := h.lookup_some ha
      obtain rfl := Option.some.inj (hp.symm.trans hq)
      rw [ha, AList.lookup_insert]
      refine .some ⟨⟨n, ?_, hmeter⟩, ?_⟩
      · exact (List.getElem?_append_left (h.lt_length ha)).trans hn
      · simp [hheld]
    · rw [AList.lookup_insert_ne hid]
      refine h.meters_imp id' fun b q hb hstands => ?_
      have hne : a ≠ b := fun heq => hid (h.registers.id_unique hb (heq ▸ ha))
      exact stands_concat hstands (h.lt_length hb) m hne

theorem lookup (h : Refines reg ids) {m : AnyMeter} {m' : Meter} (hm : m.toMeter = some m') :
    Refines
      { (reg.create_and_register_as_needed m).1 with
        handles := (reg.create_and_register_as_needed m).1.handles ++
          [(reg.create_and_register_as_needed m).2] }
      (ids.create_and_register_as_needed m').1 := by
  have hgetid := AnyMeter.toMeter_GetId hm
  unfold AtlasRegistry.create_and_register_as_needed
  cases ha : reg.meters_.lookup m'.GetId with
  | none =>
    rw [h.lookup_none ha, create_and_register_of_none (hgetid ▸ ha), ← hgetid]
    exact h.register hm ha
  | some a =>
    obtain ⟨p, hp, ⟨n, hn, hmeter⟩, _⟩ := h.lookup_some ha
    rw [hp, create_and_register_of_some (hgetid ▸ ha) hn]
    dsimp only
    rw [AnyMeter.toMeter_GetClass hmeter, AnyMeter.toMeter_GetClass hm]
    by_cases hclass : n.GetClass = m.GetClass
    · rw [if_pos hclass, if_pos hclass]
      exact h.share m ha hp
    · rw [if_neg hclass, if_neg hclass]
      exact h.isolated m

theorem count_eraseIdx {l : List ℕ} {i b : ℕ} (hi : l[i]? = some b) (c : ℕ) :
    (l.eraseIdx i).count c = l.count c - if b = c then 1 else 0 := by
  obtain ⟨hlt, rfl⟩ := List.getElem?_eq_some_iff.mp hi
  rw [← (List.getElem_cons_eraseIdx_perm hlt).count_eq c, List.count_cons]
  simp

theorem release (h : Refines reg ids) (ha : reg.meters_.lookup id = some a) {i : ℕ}
    (hi : reg.handles[i]? = some a) :
    Refines { reg with handles := reg.handles.eraseIdx i } (ids.release id) := by
  obtain ⟨p, hp, ⟨n, hn, hmeter⟩, hheld⟩ := h.lookup_some ha
  rw [AtlasRegistry.release, hp]
  refine ⟨h.registers, h.copy, fun b hb => h.handles b (List.mem_of_mem_eraseIdx hb), h.freq,
    h.meters_size, h.expired_meters, fun id' => ?_⟩
  dsimp only
  by_cases hid : id' = id
  · subst hid
    rw [ha, AList.lookup_insert]
    refine .some ⟨⟨n, hn, hmeter⟩, ?_⟩
    dsimp only
    rw [count_eraseIdx hi, if_pos rfl, hheld]
  · rw [AList.lookup_insert_ne hid]
    refine h.meters_imp id' fun b q hb hstands => hstands.frame rfl ?_
    have hne : a ≠ b := fun heq => hid (h.registers.id_unique hb (heq ▸ ha))
    dsimp only
    rw [count_eraseIdx hi, if_neg hne, Nat.sub_zero]

/-- A caller drops its pointer to an isolated object, or has none. -/
theorem release_isolated (h : Refines reg ids) {i : ℕ}
    (hi : ∀ a id, reg.handles[i]? = some a → reg.meters_.lookup id ≠ some a) :
    Refines { reg with handles := reg.handles.eraseIdx i } ids := by
  refine ⟨h.registers, h.copy, fun b hb => h.handles b (List.mem_of_mem_eraseIdx hb), h.freq,
    h.meters_size, h.expired_meters, fun id => ?_⟩
  refine h.meters_imp id fun b q hb hstands => hstands.frame rfl ?_
  dsimp only
  cases ha : reg.handles[i]? with
  | none => rw [List.eraseIdx_of_length_le (List.getElem?_eq_none_iff.mp ha)]
  | some a =>
    have hne : a ≠ b := fun heq => hi a id ha (heq ▸ hb)
    rw [count_eraseIdx ha, if_neg hne, Nat.sub_zero]

theorem alone_iff (h : Refines reg ids) {p : Registered id} (ha : reg.meters_.lookup id = some a)
    (hstands : reg.Stands id a p) : reg.Alone a ↔ ids.unused id p = true := by
  have hsize : a = reg.meters_size ↔ id = ids.meters_size :=
    ⟨fun heq => h.registers.id_unique ha (heq ▸ h.meters_size),
      fun heq => Option.some.inj (ha.symm.trans (heq ▸ h.meters_size))⟩
  have hexpired : a = reg.expired_meters ↔ id = ids.expired_meters :=
    ⟨fun heq => h.registers.id_unique ha (heq ▸ h.expired_meters),
      fun heq => Option.some.inj (ha.symm.trans (heq ▸ h.expired_meters))⟩
  have hhandles : p.held = 0 ↔ a ∉ reg.handles := by
    rw [hstands.held, List.count_eq_zero]
  simp only [AtlasRegistry.unused, Bool.and_eq_true, decide_eq_true_iff, ne_eq, hhandles,
    ← hsize, ← hexpired]
  constructor
  · intro halone
    exact ⟨⟨halone.handles, halone.meters_size⟩, halone.expired_meters⟩
  · intro hgiven
    rcases hgiven with ⟨⟨hnot, hne⟩, hne'⟩
    exact ⟨hne, hne', by simp [h.copy], hnot⟩

theorem expires_eq (h : Refines reg ids) {p : Registered id} (ha : reg.meters_.lookup id = some a)
    (hstands : reg.Stands id a p) : reg.expires a = ids.expires reg.wall id p := by
  obtain ⟨m, hm, hmeter⟩ := hstands.meter
  have hexpired : reg.HasExpired a = p.meter.HasExpired reg.wall := by
    simp [HasExpired, hm, AnyMeter.toMeter_HasExpired hmeter]
  rw [Bool.eq_iff_iff, expires_iff h.registers ha, h.alone_iff ha hstands, hexpired,
    AtlasRegistry.expires, Bool.and_eq_true]

theorem expiring_eq (h : Refines reg ids) :
    reg.expiring = (ids.meters_.entries.filter fun m => ids.expires reg.wall m.1 m.2).length := by
  have hperm := AssocMap.perm_map_entries h.meters (f := fun _ a => reg.expires a)
    (g := ids.expires reg.wall) fun id a p ha _ hstands => h.expires_eq ha hstands
  have hcount := hperm.countP_eq id
  rw [List.countP_map, List.countP_map] at hcount
  rw [← List.countP_eq_length_filter]
  exact hcount

theorem keep (h : Refines reg ids) {meters : AList fun _ : Id => ℕ}
    (hmeters : ∀ id a, meters.lookup id = some a ↔
      reg.meters_.lookup id = some a ∧ reg.expires a = false) :
    Refines { reg with meters_ := meters }
      { ids with
        meters_ := AssocMap.updateAll
          (fun id p => if ids.expires reg.wall id p then none else some p) ids.meters_ } := by
  have hown : ∀ id a, reg.meters_.lookup id = some a → ¬ reg.Alone a → meters.lookup id = some a :=
    fun id a ha hshared => by
      refine (hmeters id a).mpr ⟨ha, Bool.eq_false_iff.mpr fun hexpires => hshared ?_⟩
      exact ((expires_iff h.registers ha).mp hexpires).2
  refine ⟨h.registers.of_subset (.refl 0 _) fun id a ha => ((hmeters id a).mp ha).1, h.copy,
    h.handles, h.freq, hown _ _ h.meters_size fun halone => halone.meters_size rfl,
    hown _ _ h.expired_meters fun halone => halone.expired_meters rfl, fun id => ?_⟩
  dsimp only
  rw [AssocMap.lookup_updateAll]
  cases ha : reg.meters_.lookup id with
  | none =>
    have hnone : meters.lookup id = none := Option.eq_none_iff_forall_ne_some.mpr fun a ha' => by
      rw [((hmeters id a).mp ha').1] at ha
      cases ha
    rw [h.lookup_none ha, hnone]
    exact .none
  | some a =>
    obtain ⟨p, hp, hstands⟩ := h.lookup_some ha
    rw [hp, Option.bind_some, ← h.expires_eq ha hstands]
    by_cases hexpires : reg.expires a = true
    · have hnone : meters.lookup id = none := Option.eq_none_iff_forall_ne_some.mpr fun b hb => by
        obtain ⟨hold, hkept⟩ := (hmeters id b).mp hb
        rw [Option.some.inj (ha.symm.trans hold), hkept] at hexpires
        cases hexpires
      rw [hnone, if_pos hexpires]
      exact .none
    · rw [(hmeters id a).mpr ⟨ha, Bool.eq_false_iff.mpr hexpires⟩, if_neg hexpires]
      exact .some (hstands.frame rfl rfl)

theorem expire_meters (h : Refines reg ids) :
    Refines reg.expire_meters (ids.expire_meters reg.wall) := by
  obtain ⟨meters, heq, hmeters⟩ := expire_meters_eq h.registers
  have hkept := h.keep hmeters
  rw [heq, h.expiring_eq]
  exact hkept.call hkept.expired_meters _

theorem registered_length (h : Refines reg ids) :
    reg.registered.length = ids.meters_.entries.length := by
  have hperm := AssocMap.perm_map_entries h.meters (f := fun _ _ => ()) (g := fun _ _ => ())
    fun _ _ _ _ _ _ => rfl
  simpa [registered] using hperm.length_eq

theorem measuring (h : Refines reg ids) :
    Refines { reg with objects := reg.afterMeasuring reg.registered }
      { ids with
        meters_ := AssocMap.updateAll
          (fun id p => some (AtlasRegistry.measured reg.wall id p)) ids.meters_ } := by
  refine h.mapMeters
    (fun _ m => if m.HasExpired reg.wall then m else m.polled reg.wall) (fun _ m => ?_) ?_ ?_ ?_
  · split <;> simp
  · simp [afterMeasuring]
  · intro id a m m' ha hm hmeter
    have hmem : a ∈ reg.registered := (mem_registered_iff reg a).mpr ⟨id, ha⟩
    rw [getElem?_afterMeasuring, hm]
    refine ⟨_, rfl, ?_⟩
    dsimp only
    rw [if_pos hmem, afterMeasure, AnyMeter.toMeter_HasExpired hmeter]
    split
    · exact hmeter
    · exact AnyMeter.toMeter_polled hmeter reg.wall
  · intro id
    rw [AssocMap.lookup_updateAll]
    cases ids.meters_.lookup id with
    | none => rfl
    | some p =>
      rw [Option.bind_some, Option.map_some]
      unfold AtlasRegistry.measured Registered.mapMeter
      split <;> simp_all

/-- The same measurements, in the order of another map. -/
theorem flatMap_measured (h : Refines reg ids) :
    (reg.registered.flatMap reg.measured).Perm
      (ids.meters_.entries.flatMap fun m =>
        if m.2.meter.HasExpired reg.wall then [] else m.2.meter.Measure reg.wall) := by
  have hperm := AssocMap.perm_map_entries h.meters (f := fun _ a => reg.measured a)
    (g := fun _ p => if p.meter.HasExpired reg.wall then [] else p.meter.Measure reg.wall)
    fun id a p ha _ hstands => by
      obtain ⟨m, hm, hmeter⟩ := hstands.meter
      rw [AnyMeter.toMeter_HasExpired hmeter, AnyMeter.toMeter_Measure hmeter _ reg.monotonic]
      cases hexpired : m.HasExpired reg.wall <;> simp [measured, hm, hexpired]
  rw [registered, List.flatMap_map, List.flatMap_def, List.flatMap_def]
  exact hperm.flatten

/-- `meters()` tells the registry's own gauge how many there are. -/
theorem countMeters (h : Refines reg ids) :
    Refines (reg.call reg.meters_size (.Update (.fin reg.registered.length)))
      (ids.countMeters reg.wall) := by
  rw [h.registered_length]
  exact h.call h.meters_size _

theorem measurements_perm (h : Refines reg ids) :
    reg.measurements.2.Perm (ids.measurements reg.wall) := by
  rw [measurements_eq h.registers h.copy]
  exact h.countMeters.flatMap_measured

theorem measurements (h : Refines reg ids) :
    Refines reg.measurements.1 (ids.afterMeasurements reg.wall) := by
  rw [measurements_eq h.registers h.copy]
  exact h.countMeters.measuring.expire_meters

end Refines

end SharedRegistry

end AtlasNative
