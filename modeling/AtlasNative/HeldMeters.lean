import AtlasNative.SharedRegistry

/-!
# A held pointer stays the registered meter

Every call changes objects in place, registers at most the object it has constructed, and
erases only objects that have expired and that nobody else points to. What a caller holds
from then on is therefore what lookups and measurements find.
-/

namespace AtlasNative

open ExactDouble
set_option autoImplicit false

namespace SharedRegistry

/-- Objects change in place, at the time `now`. -/
def Evolves (now : ℤ) (objects objects' : List AnyMeter) : Prop :=
  ∀ (a : ℕ) (m : AnyMeter), objects[a]? = some m →
    ∃ m', objects'[a]? = some m' ∧ AnyMeter.Becomes now m m'

namespace Evolves
variable {now : ℤ} {objects objects' objects'' : List AnyMeter}

theorem refl (now : ℤ) (objects : List AnyMeter) : Evolves now objects objects :=
  fun _ m hm => ⟨m, hm, .refl now m⟩

theorem trans (h : Evolves now objects objects') (h' : Evolves now objects' objects'') :
    Evolves now objects objects'' := by
  intro a m hm
  obtain ⟨m', hm', hbecomes⟩ := h a m hm
  obtain ⟨m'', hm'', hbecomes'⟩ := h' a m' hm'
  exact ⟨m'', hm'', hbecomes.trans hbecomes'⟩

theorem append (now : ℤ) (objects new : List AnyMeter) : Evolves now objects (objects ++ new) := by
  intro a m hm
  have ha : a < objects.length := (List.getElem?_eq_some_iff.mp hm).1
  exact ⟨m, by rw [List.getElem?_append_left ha, hm], .refl now m⟩

theorem modify (objects : List AnyMeter) (a : ℕ) {f : AnyMeter → AnyMeter}
    (hf : ∀ m, AnyMeter.Becomes now m (f m)) : Evolves now objects (objects.modify a f) := by
  intro b m hm
  rw [List.getElem?_modify, hm]
  by_cases hab : a = b
  · exact ⟨f m, by simp [hab], hf m⟩
  · exact ⟨m, by simp [hab], .refl now m⟩

end Evolves

theorem getD_apply_becomes (now monotonic : ℤ) (m : AnyMeter) (op : MeterMethod) :
    AnyMeter.Becomes now m ((m.apply now monotonic op).getD m) := by
  cases happly : m.apply now monotonic op with
  | none => exact .refl now m
  | some m' => exact (AnyMeter.becomes_apply happly).1

theorem call_evolves (reg : SharedRegistry) (a : ℕ) (op : MeterMethod) :
    Evolves reg.wall reg.objects (reg.call a op).objects :=
  Evolves.modify reg.objects a fun m => getD_apply_becomes _ _ m op

/-- Every registered address is that of an object with the id it is registered under. -/
def Registers (reg : SharedRegistry) : Prop :=
  ∀ id a, reg.meters_.lookup id = some a → ∃ m, reg.objects[a]? = some m ∧ m.GetId = id

namespace Registers
variable {reg reg' : SharedRegistry} {id id' : Id} {a : ℕ}

theorem id_unique (h : Registers reg) (ha : reg.meters_.lookup id = some a)
    (ha' : reg.meters_.lookup id' = some a) : id = id' := by
  obtain ⟨m, hm, hid⟩ := h id a ha
  obtain ⟨m', hm', hid'⟩ := h id' a ha'
  rw [← hid, ← hid', Option.some.inj (hm.symm.trans hm')]

theorem of_subset (h : Registers reg) {now : ℤ} (hobjects : Evolves now reg.objects reg'.objects)
    (hsub : ∀ id a, reg'.meters_.lookup id = some a → reg.meters_.lookup id = some a) :
    Registers reg' := by
  intro id a ha
  obtain ⟨m, hm, hid⟩ := h id a (hsub id a ha)
  obtain ⟨m', hm', hbecomes⟩ := hobjects a m hm
  exact ⟨m', hm', hbecomes.id.trans hid⟩

theorem nodup_registered (h : Registers reg) : reg.registered.Nodup := by
  have hkeys := List.nodupKeys_iff_pairwise.mp reg.meters_.nodupKeys
  rw [registered, List.Nodup, List.pairwise_map]
  apply hkeys.imp_of_mem
  intro e e' he he' hne heq
  apply hne
  have hlookup := AList.mem_lookup_iff.mpr he
  have hlookup' := AList.mem_lookup_iff.mpr he'
  exact h.id_unique hlookup (heq ▸ hlookup')

end Registers

theorem mem_registered_iff (reg : SharedRegistry) (a : ℕ) :
    a ∈ reg.registered ↔ ∃ id, reg.meters_.lookup id = some a := by
  rw [registered, List.mem_map]
  constructor
  · intro h
    rcases h with ⟨e, he, rfl⟩
    exact ⟨e.1, AList.mem_lookup_iff.mpr he⟩
  · intro h
    rcases h with ⟨id, ha⟩
    exact ⟨⟨id, a⟩, AList.mem_lookup_iff.mp ha, rfl⟩

/-- Nothing but the map points to the object. -/
structure Alone (reg : SharedRegistry) (a : ℕ) : Prop where
  meters_size : a ≠ reg.meters_size
  expired_meters : a ≠ reg.expired_meters
  all_meters : a ∉ reg.all_meters
  handles : a ∉ reg.handles

theorem use_count_eq_one_iff {reg : SharedRegistry} (h : Registers reg) {id : Id} {a : ℕ}
    (ha : reg.meters_.lookup id = some a) : reg.use_count a = 1 ↔ reg.Alone a := by
  have hmap : reg.registered.count a = 1 := by
    apply List.count_eq_one_of_mem h.nodup_registered
    exact (mem_registered_iff reg a).mpr ⟨id, ha⟩
  have hcount : reg.use_count a = 1 + [reg.meters_size, reg.expired_meters].count a +
      reg.all_meters.count a + reg.handles.count a := by
    rw [use_count, List.count_append, List.count_append, List.count_append, hmap]
  constructor
  · intro hone
    have hown : [reg.meters_size, reg.expired_meters].count a = 0 := by omega
    have hcopy : reg.all_meters.count a = 0 := by omega
    have hhandles : reg.handles.count a = 0 := by omega
    rw [List.count_eq_zero] at hown hcopy hhandles
    simp only [List.mem_cons, List.not_mem_nil, or_false, not_or] at hown
    exact ⟨hown.1, hown.2, hcopy, hhandles⟩
  · intro halone
    have hown : a ∉ [reg.meters_size, reg.expired_meters] := by
      simp [halone.meters_size, halone.expired_meters]
    rw [hcount, List.count_eq_zero.mpr hown, List.count_eq_zero.mpr halone.all_meters,
      List.count_eq_zero.mpr halone.handles]

theorem expires_iff {reg : SharedRegistry} (h : Registers reg) {id : Id} {a : ℕ}
    (ha : reg.meters_.lookup id = some a) :
    reg.expires a = true ↔ reg.HasExpired a = true ∧ reg.Alone a := by
  rw [expires, Bool.and_eq_true, decide_eq_true_iff, use_count_eq_one_iff h ha]

/-! The two loops. -/

/-- What is measured of the object at an address; an expired one is passed over. -/
def measured (reg : SharedRegistry) (a : ℕ) : Measurements :=
  (reg.objects[a]?.toList.filter fun m => !m.HasExpired reg.wall).flatMap
    (AnyMeter.Measure reg.wall reg.monotonic)

/-- What that does to the object. -/
def afterMeasure (now : ℤ) (m : AnyMeter) : AnyMeter := if m.HasExpired now then m else m.polled now

theorem afterMeasure_becomes (now : ℤ) (m : AnyMeter) :
    AnyMeter.Becomes now m (afterMeasure now m) := by
  unfold afterMeasure
  split
  · exact .refl now m
  · exact .polled now m

/-- The objects once those at the addresses of `l` have been measured. -/
def afterMeasuring (reg : SharedRegistry) (l : List ℕ) : List AnyMeter :=
  reg.objects.mapIdx fun a m => if a ∈ l then afterMeasure reg.wall m else m

theorem getElem?_afterMeasuring (reg : SharedRegistry) (l : List ℕ) (a : ℕ) :
    (reg.afterMeasuring l)[a]? =
      reg.objects[a]?.map fun m => if a ∈ l then afterMeasure reg.wall m else m :=
  List.getElem?_mapIdx

theorem afterMeasuring_nil (reg : SharedRegistry) : reg.afterMeasuring [] = reg.objects := by
  apply List.ext_getElem?
  intro a
  simp [getElem?_afterMeasuring]

theorem afterMeasuring_evolves (reg : SharedRegistry) (l : List ℕ) :
    Evolves reg.wall reg.objects (reg.afterMeasuring l) := by
  intro a m hm
  rw [getElem?_afterMeasuring, hm]
  refine ⟨_, rfl, ?_⟩
  split
  · exact afterMeasure_becomes reg.wall m
  · exact .refl reg.wall m

theorem measureOne_eq (acc : SharedRegistry × Measurements) (a : ℕ) :
    measureOne acc a =
      ({ acc.1 with objects := acc.1.afterMeasuring [a] }, acc.2 ++ acc.1.measured a) := by
  have hsame : (∀ m, acc.1.objects[a]? = some m → m.HasExpired acc.1.wall = true) →
      acc.1.afterMeasuring [a] = acc.1.objects := fun hexpired => by
    apply List.ext_getElem?
    intro b
    rw [getElem?_afterMeasuring]
    by_cases hb : b = a
    · subst hb
      cases hm : acc.1.objects[b]? with
      | none => rfl
      | some m => simp [afterMeasure, hexpired m hm]
    · simp [hb]
  unfold measureOne measured
  cases hm : acc.1.objects[a]? with
  | none => simp [hsame (by simp [hm])]
  | some m =>
    dsimp only
    by_cases hexpired : m.HasExpired acc.1.wall = true
    · rw [if_pos hexpired, hsame (by simp [hm, hexpired])]
      simp [hexpired]
    · have hpolled : acc.1.objects.modify a (AnyMeter.polled acc.1.wall) =
          acc.1.afterMeasuring [a] := by
        apply List.ext_getElem?
        intro b
        rw [getElem?_afterMeasuring, List.getElem?_modify]
        by_cases hb : b = a
        · subst hb
          simp [hm, afterMeasure, hexpired]
        · simp [hb, Ne.symm hb]
      rw [if_neg hexpired, hpolled]
      simp [hexpired]

theorem foldl_measureOne {l : List ℕ} (hl : l.Nodup) (acc : SharedRegistry × Measurements) :
    l.foldl measureOne acc =
      ({ acc.1 with objects := acc.1.afterMeasuring l }, acc.2 ++ l.flatMap acc.1.measured) := by
  induction l generalizing acc with
  | nil => simp [afterMeasuring_nil]
  | cons a l ih =>
    obtain ⟨hnot, hl⟩ := List.nodup_cons.mp hl
    have hobjects : ∀ b, (acc.1.afterMeasuring [a])[b]? =
        acc.1.objects[b]?.map fun m => if b = a then afterMeasure acc.1.wall m else m := fun b => by
      simp [getElem?_afterMeasuring]
    have hmeasured : l.flatMap (measured { acc.1 with objects := acc.1.afterMeasuring [a] }) =
        l.flatMap acc.1.measured := by
      apply List.flatMap_congr
      intro b hb
      have hne : b ≠ a := fun heq => hnot (heq ▸ hb)
      simp [measured, hobjects, hne]
    have hafter : afterMeasuring { acc.1 with objects := acc.1.afterMeasuring [a] } l =
        acc.1.afterMeasuring (a :: l) := by
      apply List.ext_getElem?
      intro b
      rw [getElem?_afterMeasuring, hobjects, getElem?_afterMeasuring acc.1 (a :: l),
        Option.map_map]
      congr 1
      funext m
      by_cases hb : b = a
      · subst hb
        simp [hnot]
      · simp [hb]
    rw [List.foldl_cons, measureOne_eq, ih hl, hmeasured, hafter, List.append_assoc,
      List.flatMap_cons]

theorem measured_of_live {reg : SharedRegistry} {a : ℕ} {m : AnyMeter}
    (hm : reg.objects[a]? = some m) (hlive : m.HasExpired reg.wall = false) :
    reg.measured a = m.Measure reg.wall reg.monotonic := by
  simp [measured, hm, hlive]

theorem infix_foldl_measureOne (acc : SharedRegistry × Measurements) {l : List ℕ}
    (hl : l.Nodup) {a : ℕ} (ha : a ∈ l) {m : AnyMeter} (hm : acc.1.objects[a]? = some m)
    (hlive : m.HasExpired acc.1.wall = false) :
    m.Measure acc.1.wall acc.1.monotonic <:+: (l.foldl measureOne acc).2 := by
  obtain ⟨l₁, l₂, rfl⟩ := List.append_of_mem ha
  rw [foldl_measureOne hl, ← measured_of_live hm hlive, List.flatMap_append, List.flatMap_cons]
  refine ⟨acc.2 ++ l₁.flatMap acc.1.measured, l₂.flatMap acc.1.measured, ?_⟩
  simp

theorem lookup_erase (s : AList fun _ : Id => ℕ) (id id' : Id) (a : ℕ) :
    (s.erase id).lookup id' = some a ↔ id' ≠ id ∧ s.lookup id' = some a := by
  by_cases h : id' = id
  · subst h
    simp
  · simp [AList.lookup_erase_ne h, h]

theorem Registers.erase {reg : SharedRegistry} (h : Registers reg) (id : Id) :
    Registers { reg with meters_ := reg.meters_.erase id } :=
  h.of_subset (.refl 0 _) fun _ _ ha => ((lookup_erase _ _ _ _).mp ha).2

/-- What becomes of one object does not depend on the other ones in the map. -/
theorem expires_erase {reg : SharedRegistry} (h : Registers reg) {id id' : Id} {a : ℕ}
    (hid : id' ≠ id) (ha : reg.meters_.lookup id' = some a) :
    expires { reg with meters_ := reg.meters_.erase id } a = reg.expires a := by
  rw [Bool.eq_iff_iff, expires_iff h ha, expires_iff (h.erase id) ((lookup_erase _ _ _ _).mpr ⟨hid, ha⟩)]
  exact ⟨fun hx => ⟨hx.1, hx.2.1, hx.2.2, hx.2.3, hx.2.4⟩,
    fun hx => ⟨hx.1, hx.2.1, hx.2.2, hx.2.3, hx.2.4⟩⟩

/-- The loop looks at one entry, which it erases and counts if its object expires. -/
theorem expireOne_spec {acc : SharedRegistry × ℤ} {e : Sigma fun _ : Id => ℕ}
    (h : Registers acc.1) (he : acc.1.meters_.lookup e.1 = some e.2) :
    ∃ meters, expireOne acc e =
        ({ acc.1 with meters_ := meters }, acc.2 + if acc.1.expires e.2 then 1 else 0) ∧
      (∀ id a, meters.lookup id = some a ↔
        acc.1.meters_.lookup id = some a ∧ ¬ (id = e.1 ∧ acc.1.expires a = true)) ∧
      ∀ id a, id ≠ e.1 → acc.1.meters_.lookup id = some a →
        expires { acc.1 with meters_ := meters } a = acc.1.expires a := by
  have hsame : ∀ {a : ℕ}, acc.1.meters_.lookup e.1 = some a →
      acc.1.expires a = acc.1.expires e.2 := fun ha => by
    rw [Option.some.inj (ha.symm.trans he)]
  by_cases hexpires : acc.1.expires e.2 = true
  · have hone : expireOne acc e =
        ({ acc.1 with meters_ := acc.1.meters_.erase e.1 }, acc.2 + 1) := if_pos hexpires
    refine ⟨acc.1.meters_.erase e.1, by rw [hone, if_pos hexpires], ?_, ?_⟩
    · intro id a
      rw [lookup_erase]
      constructor
      · intro hkept
        exact ⟨hkept.2, fun hgone => hkept.1 hgone.1⟩
      · intro hkept
        refine ⟨?_, hkept.1⟩
        rintro rfl
        exact hkept.2 ⟨rfl, (hsame hkept.1).trans hexpires⟩
    · intro id a hid ha
      exact expires_erase h hid ha
  · have hone : expireOne acc e = acc := if_neg hexpires
    refine ⟨acc.1.meters_, by rw [hone, if_neg hexpires, add_zero], ?_, fun _ _ _ _ => rfl⟩
    intro id a
    refine (and_iff_left_of_imp ?_).symm
    rintro ha ⟨rfl, hgone⟩
    exact hexpires ((hsame ha).symm.trans hgone)

/-- The loop erases and counts the entries it is given whose objects expire. -/
theorem foldl_expireOne (l : List (Sigma fun _ : Id => ℕ)) (acc : SharedRegistry × ℤ)
    (h : Registers acc.1) (hl : l.NodupKeys)
    (hmem : ∀ e ∈ l, acc.1.meters_.lookup e.1 = some e.2) :
    ∃ meters, l.foldl expireOne acc =
        ({ acc.1 with meters_ := meters }, acc.2 + l.countP fun e => acc.1.expires e.2) ∧
      ∀ id a, meters.lookup id = some a ↔
        acc.1.meters_.lookup id = some a ∧ ¬ (id ∈ l.keys ∧ acc.1.expires a = true) := by
  induction l generalizing acc with
  | nil => exact ⟨acc.1.meters_, by simp, by simp⟩
  | cons e l ih =>
    obtain ⟨hfresh, hl⟩ := List.nodupKeys_cons.mp hl
    have hrest : ∀ e' ∈ l, e'.1 ≠ e.1 := by
      intro e' he' heq
      exact hfresh (heq ▸ List.mem_keys_of_mem he')
    have hmem' := fun e' he' => hmem e' (List.mem_cons_of_mem _ he')
    obtain ⟨meters, hone, hlookup, hsame⟩ := expireOne_spec h (hmem e List.mem_cons_self)
    have hregisters : Registers { acc.1 with meters_ := meters } :=
      h.of_subset (.refl 0 _) fun id a ha => ((hlookup id a).mp ha).1
    have hcount : (l.countP fun e' => expires { acc.1 with meters_ := meters } e'.2) =
        l.countP fun e' => acc.1.expires e'.2 := by
      apply List.countP_congr
      intro e' he'
      rw [hsame e'.1 e'.2 (hrest e' he') (hmem' e' he')]
    obtain ⟨meters', hfold, hlookup'⟩ := ih
      ({ acc.1 with meters_ := meters }, acc.2 + if acc.1.expires e.2 then 1 else 0) hregisters hl
      fun e' he' => (hlookup _ _).mpr ⟨hmem' e' he', fun hgone => hrest e' he' hgone.1⟩
    refine ⟨meters', ?_, ?_⟩
    · rw [List.foldl_cons, hone, hfold, hcount, List.countP_cons, Nat.cast_add, add_assoc,
        add_comm (Nat.cast _)]
      split <;> rfl
    · intro id a
      rw [hlookup', hlookup, List.keys_cons, List.mem_cons]
      by_cases hid : id = e.1
      · have hnot : id ∉ l.keys := hid ▸ hfresh
        simp only [hid, hid ▸ hnot, true_and, false_and, not_false_eq_true, and_true, or_false]
      · simp only [hid, false_and, not_false_eq_true, and_true, false_or]
        exact and_congr_right fun ha => by rw [hsame id a hid ha]

/-! What one call does. -/

/-- What every call keeps and may change: only expired objects that nothing but the map points
to lose their place in it. -/
structure Follows (reg reg' : SharedRegistry) : Prop where
  clock : reg.wall ≤ reg'.wall
  objects : Evolves reg.wall reg.objects reg'.objects
  registers : Registers reg'
  copy : reg'.all_meters = []
  removed : ∀ id a, reg.meters_.lookup id = some a →
    reg'.meters_.lookup id = some a ∨ (reg.HasExpired a = true ∧ reg.use_count a = 1)

variable {reg : SharedRegistry}

theorem expires_of_evolves (h : Registers reg) {objects : List AnyMeter}
    (hobjects : Evolves reg.wall reg.objects objects) {id : Id} {a : ℕ}
    (ha : reg.meters_.lookup id = some a)
    (hexpires : expires { reg with objects := objects } a = true) : reg.expires a = true := by
  rw [expires, Bool.and_eq_true] at hexpires ⊢
  refine ⟨?_, hexpires.2⟩
  obtain ⟨m, hm, _⟩ := h id a ha
  obtain ⟨m', hm', hbecomes⟩ := hobjects a m hm
  have hexpired : m'.HasExpired reg.wall = true := by
    simpa [HasExpired, hm'] using hexpires.1
  simpa [HasExpired, hm] using hbecomes.expired hexpired

/-- The number of registered objects that expire. -/
def expiring (reg : SharedRegistry) : ℕ := reg.meters_.entries.countP fun e => reg.expires e.2

theorem expire_meters_eq (h : Registers reg) :
    ∃ meters, reg.expire_meters =
        { reg with meters_ := meters }.call reg.expired_meters (.Add reg.expiring) ∧
      ∀ id a, meters.lookup id = some a ↔
        reg.meters_.lookup id = some a ∧ reg.expires a = false := by
  obtain ⟨meters, hfold, hlookup⟩ := foldl_expireOne reg.meters_.entries (reg, 0) h
    reg.meters_.nodupKeys fun e he => AList.mem_lookup_iff.mpr he
  refine ⟨meters, ?_, ?_⟩
  · simp only [expire_meters, expiring, hfold, zero_add]
  · intro id a
    rw [hlookup]
    apply and_congr_right
    intro ha
    have hkey : id ∈ reg.meters_.entries.keys :=
      List.mem_keys.mpr ⟨a, AList.mem_lookup_iff.mp ha⟩
    simp [hkey]

theorem expire_meters_follows (h : Registers reg) (hcopy : reg.all_meters = []) :
    Follows reg reg.expire_meters := by
  obtain ⟨meters, heq, hlookup⟩ := expire_meters_eq h
  have hobjects := call_evolves { reg with meters_ := meters } reg.expired_meters
    (.Add reg.expiring)
  rw [heq]
  refine ⟨le_rfl, hobjects, ?_, hcopy, ?_⟩
  · exact h.of_subset hobjects fun id a ha => ((hlookup id a).mp ha).1
  · intro id a ha
    by_cases hexpires : reg.expires a = true
    · right
      rwa [expires, Bool.and_eq_true, decide_eq_true_iff] at hexpires
    · left
      exact (hlookup id a).mpr ⟨ha, Bool.eq_false_iff.mpr hexpires⟩

/-- The state in which `expire_meters` runs in the course of `measurements`. -/
def polled (reg : SharedRegistry) : SharedRegistry :=
  { reg with objects := reg.meters.afterMeasuring reg.registered }

theorem measurements_eq (h : Registers reg) (hcopy : reg.all_meters = []) :
    reg.measurements = (reg.polled.expire_meters, reg.registered.flatMap reg.meters.measured) := by
  have hfold := foldl_measureOne h.nodup_registered (reg.meters, [])
  have hmeters : reg.meters.all_meters = reg.registered := rfl
  simp only [measurements, hmeters, hfold, List.nil_append]
  congr 2
  unfold polled
  rw [← hcopy]
  rfl

theorem polled_evolves (reg : SharedRegistry) :
    Evolves reg.wall reg.objects reg.polled.objects :=
  (call_evolves _ _ _).trans (afterMeasuring_evolves reg.meters reg.registered)

theorem measurements_follows (h : Registers reg) (hcopy : reg.all_meters = []) :
    Follows reg reg.measurements.1 := by
  have hobjects := polled_evolves reg
  have hmeasured : Registers reg.polled := h.of_subset hobjects fun id a ha => ha
  have hexpire := expire_meters_follows hmeasured hcopy
  rw [measurements_eq h hcopy]
  refine ⟨hexpire.clock, hobjects.trans hexpire.objects, hexpire.registers, hexpire.copy, ?_⟩
  intro id a ha
  rcases hexpire.removed id a ha with hkept | ⟨hexpired, hcount⟩
  · exact .inl hkept
  · right
    have hexpires := expires_of_evolves h hobjects ha (by
      rw [expires, Bool.and_eq_true, decide_eq_true_iff]
      exact ⟨hexpired, hcount⟩)
    rwa [expires, Bool.and_eq_true, decide_eq_true_iff] at hexpires

theorem create_and_register_follows (h : Registers reg) (hcopy : reg.all_meters = [])
    (m : AnyMeter) : Follows reg (reg.create_and_register_as_needed m).1 := by
  have hobjects := Evolves.append reg.wall reg.objects [m]
  cases hid : reg.meters_.lookup m.GetId with
  | none =>
    rw [create_and_register_of_none hid]
    refine ⟨le_rfl, hobjects, ?_, hcopy, ?_⟩
    · intro id a ha
      by_cases heq : id = m.GetId
      · subst heq
        rw [AList.lookup_insert, Option.some.injEq] at ha
        subst ha
        exact ⟨m, by simp, rfl⟩
      · rw [AList.lookup_insert_ne heq] at ha
        obtain ⟨m', hm', hid'⟩ := h id a ha
        obtain ⟨m'', hm'', hbecomes⟩ := hobjects a m' hm'
        exact ⟨m'', hm'', hbecomes.id.trans hid'⟩
    · intro id a ha
      have hne : id ≠ m.GetId := fun heq => by
        rw [heq, hid] at ha
        cases ha
      left
      rwa [AList.lookup_insert_ne hne]
  | some a =>
    obtain ⟨m', hm', _⟩ := h _ a hid
    rw [create_and_register_of_some hid hm']
    exact ⟨le_rfl, hobjects, h.of_subset hobjects fun id a ha => ha, hcopy,
      fun id a ha => .inl ha⟩

theorem lookup_follows (h : Registers reg) (hcopy : reg.all_meters = []) (id : Id)
    (kind : MeterKind) : Follows reg (reg.lookup id kind).1 := by
  rw [lookup_eq]
  exact create_and_register_follows h hcopy _

theorem step_follows (h : Registers reg) (hcopy : reg.all_meters = []) (c : RegistryCall) :
    Follows reg (reg.step c) := by
  cases c with
  | lookup kind id =>
    obtain ⟨hclock, hobjects, hregisters, hcopy', hremoved⟩ := lookup_follows h hcopy id kind
    exact ⟨hclock, hobjects, hregisters, hcopy', hremoved⟩
  | drop i => exact ⟨le_rfl, .refl _ _, h, hcopy, fun id a ha => .inl ha⟩
  | update i op =>
    rw [step]
    cases reg.handles[i]? with
    | none => exact ⟨le_rfl, .refl _ _, h, hcopy, fun id a ha => .inl ha⟩
    | some b =>
      have hobjects := call_evolves reg b op
      exact ⟨le_rfl, hobjects, h.of_subset hobjects fun id a ha => ha, hcopy,
        fun id a ha => .inl ha⟩
  | advance wall monotonic =>
    refine ⟨?_, .refl _ _, h, hcopy, fun id a ha => .inl ha⟩
    exact le_add_of_nonneg_right (Int.natCast_nonneg wall)
  | measurements => exact measurements_follows h hcopy
  | expire_meters => exact expire_meters_follows h hcopy

theorem create_registers (freq_millis wall monotonic : ℤ) :
    Registers (create freq_millis wall monotonic) ∧
      (create freq_millis wall monotonic).all_meters = [] := by
  have hempty : Registers (empty freq_millis wall monotonic) := fun id a ha => by
    simp [empty] at ha
  have hsize := lookup_follows hempty rfl (ownId freq_millis "atlas.numMeters") .gauge
  have hexpired := lookup_follows hsize.registers hsize.copy
    (ownId freq_millis "atlas.expiredMeters") .counter
  unfold create
  dsimp only [lookup] at hsize hexpired ⊢
  generalize (empty freq_millis wall monotonic).gauge _ = size at *
  generalize size.1.counter _ = expired at *
  exact ⟨hexpired.registers, hexpired.copy⟩

theorem run_registers (freq_millis wall monotonic : ℤ) (calls : List RegistryCall) :
    Registers ((create freq_millis wall monotonic).run calls) ∧
      ((create freq_millis wall monotonic).run calls).all_meters = [] := by
  induction calls using List.reverseRecOn with
  | nil => exact create_registers freq_millis wall monotonic
  | append_singleton calls c ih =>
    rw [run_append]
    have hstep := step_follows ih.1 ih.2 c
    exact ⟨hstep.registers, hstep.copy⟩

/-- The object was updated at `t`, or later. -/
structure Recent (reg : SharedRegistry) (a : ℕ) (t : ℤ) : Prop where
  past : t ≤ reg.wall
  object : ∃ m, reg.objects[a]? = some m ∧ (m.kind = .long_task_timer ∨ t ≤ m.last_updated)

theorem Recent.of_evolves {reg' : SharedRegistry} {a : ℕ} {t : ℤ} (h : Recent reg a t)
    (hclock : reg.wall ≤ reg'.wall) (hobjects : Evolves reg.wall reg.objects reg'.objects) :
    Recent reg' a t := by
  obtain ⟨m, hm, hrecent⟩ := h.object
  obtain ⟨m', hm', hbecomes⟩ := hobjects a m hm
  refine ⟨le_trans h.past hclock, m', hm', ?_⟩
  rw [hbecomes.kind]
  rcases hrecent with htimer | hrecent
  · exact .inl htimer
  · right
    rcases hbecomes.updated with hsame | hnow
    · rwa [hsame]
    · rw [hnow]
      exact h.past

/-- A call that updates an object: one of its methods, or its construction, which counts as
an update for all classes but the gauges. -/
def Updates (reg : SharedRegistry) (a : ℕ) : RegistryCall → Prop
  | .update i op => reg.handles[i]? = some a ∧
      ∃ m m', reg.objects[a]? = some m ∧ m.apply reg.wall reg.monotonic op = some m'
  | .lookup kind _ => kind ≠ .gauge ∧ a = reg.objects.length
  | _ => False

theorem create_and_register_objects (h : Registers reg) (m : AnyMeter) :
    (reg.create_and_register_as_needed m).1.objects = reg.objects ++ [m] ∧
      (reg.create_and_register_as_needed m).1.wall = reg.wall := by
  cases hid : reg.meters_.lookup m.GetId with
  | none => rw [create_and_register_of_none hid]; exact ⟨rfl, rfl⟩
  | some a =>
    obtain ⟨m', hm', _⟩ := h _ a hid
    rw [create_and_register_of_some hid hm']
    exact ⟨rfl, rfl⟩

theorem recent_step (h : Registers reg) {a : ℕ} {c : RegistryCall} (hupdates : reg.Updates a c) :
    Recent (reg.step c) a reg.wall := by
  cases c with
  | update i op =>
    obtain ⟨hi, m, m', hm, happly⟩ := hupdates
    obtain ⟨hbecomes, hupdated⟩ := AnyMeter.becomes_apply happly
    have hstep : reg.step (.update i op) = reg.call a op := by
      rw [step, hi]
    rw [hstep]
    refine ⟨le_rfl, m', ?_, ?_⟩
    · rw [call, List.getElem?_modify, hm]
      simp [happly]
    · rw [hbecomes.kind]
      by_cases htimer : m.kind = .long_task_timer
      · exact .inl htimer
      · exact .inr (hupdated htimer).ge
  | lookup kind id =>
    obtain ⟨hgauge, rfl⟩ := hupdates
    obtain ⟨hobjects, hwall⟩ :=
      create_and_register_objects h (.create id reg.freq_millis_ reg.wall kind)
    rw [step, lookup_eq]
    refine ⟨hwall.ge, .create id reg.freq_millis_ reg.wall kind, ?_, ?_⟩
    · dsimp only
      rw [hobjects, List.getElem?_concat_length]
    · cases kind with
      | gauge => exact absurd rfl hgauge
      | long_task_timer => exact .inl rfl
      | _ => exact .inr le_rfl
  | _ => exact hupdates.elim

/-- A caller holds the object from some state on, in every state of the rest of the run. -/
def HeldThrough (reg : SharedRegistry) (later : List RegistryCall) (a : ℕ) : Prop :=
  ∀ calls, calls <+: later → a ∈ (reg.run calls).handles

theorem lookup_of_held {reg : SharedRegistry} (h : Registers reg) (hcopy : reg.all_meters = [])
    {id : Id} {a : ℕ} (ha : reg.meters_.lookup id = some a) (later : List RegistryCall)
    (hheld : HeldThrough reg later a) :
    (reg.run later).meters_.lookup id = some a ∧ Registers (reg.run later) ∧
      (reg.run later).all_meters = [] := by
  induction later using List.reverseRecOn with
  | nil => exact ⟨ha, h, hcopy⟩
  | append_singleton later c ih =>
    obtain ⟨hlater, hregisters, hcopy'⟩ := ih fun calls hcalls =>
      hheld calls (hcalls.trans (List.prefix_append _ _))
    have hstep := step_follows hregisters hcopy' c
    rw [run_append]
    refine ⟨?_, hstep.registers, hstep.copy⟩
    rcases hstep.removed id a hlater with hkept | ⟨_, hcount⟩
    · exact hkept
    · have halone := (use_count_eq_one_iff hregisters hlater).mp hcount
      exact absurd (hheld later (List.prefix_append _ _)) halone.handles

/-- What holds of a run of calls on a registry. -/
structure KeepsHeld (reg : SharedRegistry) (calls : List RegistryCall) : Prop where
  /-- No two registered meters have the same id, which is the one they are registered under. -/
  one_per_id : ∀ id id' a a', (reg.run calls).meters_.lookup id = some a →
    (reg.run calls).meters_.lookup id' = some a' →
    ∃ m m', (reg.run calls).objects[a]? = some m ∧ (reg.run calls).objects[a']? = some m' ∧
      m.GetId = id ∧ (m.GetId = m'.GetId → a = a')
  /-- Lookups of its class find the meter as long as it is held. -/
  found : ∀ earlier later id a m, calls = earlier ++ later →
    (reg.run earlier).meters_.lookup id = some a → HeldThrough (reg.run earlier) later a →
    (reg.run calls).objects[a]? = some m →
    ∀ kind id', kind.taggedId id' = id → kind.GetClass = m.GetClass →
      ((reg.run calls).lookup id' kind).2 = a
  /-- So do measurements, if it has been updated in the time that meters may be idle. -/
  measured : ∀ earlier later id a, calls = earlier ++ later →
    (reg.run earlier).meters_.lookup id = some a → HeldThrough (reg.run earlier) later a →
    ∀ before c after, calls = before ++ c :: after → (reg.run before).Updates a c →
      (reg.run calls).wall - (reg.run before).wall ≤ MAX_IDLE_TIME →
      ∃ m, (reg.run calls).meters.objects[a]? = some m ∧
        m.Measure (reg.run calls).wall (reg.run calls).monotonic <:+:
          (reg.run calls).measurements.2
  /-- The map loses a meter only when it has expired and nothing else points to it. -/
  removed : ∀ earlier c later id a, calls = earlier ++ c :: later →
    (reg.run earlier).meters_.lookup id = some a →
    (reg.run (earlier ++ [c])).meters_.lookup id ≠ some a →
    (reg.run earlier).HasExpired a = true ∧ (reg.run earlier).use_count a = 1

theorem recent_run (h : Registers reg) (hcopy : reg.all_meters = []) {a : ℕ} {t : ℤ}
    (hrecent : Recent reg a t) (calls : List RegistryCall) : Recent (reg.run calls) a t := by
  induction calls generalizing reg with
  | nil => exact hrecent
  | cons c calls ih =>
    have hstep := step_follows h hcopy c
    exact ih hstep.registers hstep.copy (hrecent.of_evolves hstep.clock hstep.objects)

/-- A registered object that was updated a short time ago is measured. -/
theorem measured_of_recent (h : Registers reg) {id : Id} {a : ℕ} {t : ℤ}
    (ha : reg.meters_.lookup id = some a) (hrecent : Recent reg a t)
    (ht : reg.wall - t ≤ MAX_IDLE_TIME) :
    ∃ m, reg.meters.objects[a]? = some m ∧
      m.Measure reg.wall reg.monotonic <:+: reg.measurements.2 := by
  have hcounted : Recent reg.meters a t := hrecent.of_evolves le_rfl (call_evolves _ _ _)
  obtain ⟨m, hm, hlast⟩ := hcounted.object
  have hlive : m.HasExpired reg.wall = false := AnyMeter.not_expired_of_recent hlast ht
  have hmem : a ∈ reg.registered := (mem_registered_iff reg a).mpr ⟨id, ha⟩
  exact ⟨m, hm, infix_foldl_measureOne (reg.meters, []) h.nodup_registered hmem hm hlive⟩

theorem keepsHeld_run (freq_millis wall monotonic : ℤ) (calls : List RegistryCall) :
    KeepsHeld (create freq_millis wall monotonic) calls := by
  have hreach := run_registers freq_millis wall monotonic
  refine ⟨?_, ?_, ?_, ?_⟩
  · intro id id' a a' ha ha'
    obtain ⟨m, hm, hid⟩ := (hreach calls).1 id a ha
    obtain ⟨m', hm', hid'⟩ := (hreach calls).1 id' a' ha'
    refine ⟨m, m', hm, hm', hid, fun heq => ?_⟩
    rw [← hid, heq, hid', ha'] at ha
    exact (Option.some.inj ha).symm
  · rintro earlier later id a m rfl ha hheld hm kind id' rfl hclass
    obtain ⟨hregisters, hcopy⟩ := hreach earlier
    obtain ⟨hfinal, _, _⟩ := lookup_of_held hregisters hcopy ha later hheld
    rw [← run_append] at hfinal
    rw [lookup_eq, create_and_register_of_some (by rw [AnyMeter.GetId_create]; exact hfinal) hm]
    apply if_pos
    rw [← hclass, AnyMeter.GetClass, AnyMeter.kind_create]
  · rintro earlier later id a rfl ha hheld before c after hcalls hupdates hidle
    obtain ⟨hregisters, hcopy⟩ := hreach earlier
    obtain ⟨hfinal, hregisters', _⟩ := lookup_of_held hregisters hcopy ha later hheld
    rw [← run_append] at hfinal hregisters'
    obtain ⟨hbefore, hbefore'⟩ := hreach before
    have hstep := step_follows hbefore hbefore' c
    have hrecent := recent_run hstep.registers hstep.copy (recent_step hbefore hupdates) after
    apply measured_of_recent hregisters' hfinal _ hidle
    rw [hcalls, run_append]
    exact hrecent
  · rintro earlier c later id a rfl ha hgone
    obtain ⟨hregisters, hcopy⟩ := hreach earlier
    rw [run_append] at hgone
    exact ((step_follows hregisters hcopy c).removed id a ha).resolve_left hgone

end SharedRegistry

end AtlasNative
