import AtlasNative.HeldMeters

/-!
# The kind of the meter that a lookup returns

The registry compares class names before it casts. Both instances of a template have the
same name, so that an id that was first looked up as the one is given out as the other.
For all other pairs of kinds the caller gets an isolated meter.
-/

namespace AtlasNative

set_option autoImplicit false

namespace SharedRegistry

/-- What the caller of a lookup may rely on. -/
structure RightLookup (reg : SharedRegistry) (kind : MeterKind) (id : Id) : Prop where
  /-- The meter that is returned can be cast to the class asked for. -/
  is_kind : ∃ m, (reg.lookup id kind).1.objects[(reg.lookup id kind).2]? = some m ∧ m.kind = kind
  /-- Where another kind is registered, the meter is new, and the map does not change. -/
  isolated : ∀ a m, reg.meters_.lookup (kind.taggedId id) = some a → reg.objects[a]? = some m →
    m.kind ≠ kind →
    (reg.lookup id kind).2 = reg.objects.length ∧
      (reg.lookup id kind).1.objects[reg.objects.length]? =
        some (.create id reg.freq_millis_ reg.wall kind) ∧
      (∀ id', (reg.lookup id kind).1.meters_.lookup id' ≠ some reg.objects.length) ∧
      (reg.lookup id kind).1.meters_ = reg.meters_ ∧
      (reg.lookup id kind).1.objects[a]? = some m

variable {reg : SharedRegistry} {kind : MeterKind} {id : Id}

theorem lookup_of_registered {a : ℕ} {m : AnyMeter}
    (ha : reg.meters_.lookup (kind.taggedId id) = some a) (hm : reg.objects[a]? = some m) :
    reg.lookup id kind =
      ({ reg with objects := reg.objects ++ [.create id reg.freq_millis_ reg.wall kind] },
        if m.kind.GetClass = kind.GetClass then a else reg.objects.length) := by
  have htagged : reg.meters_.lookup
      (AnyMeter.create id reg.freq_millis_ reg.wall kind).GetId = some a := by
    rwa [AnyMeter.GetId_create]
  rw [lookup_eq, create_and_register_of_some htagged hm, AnyMeter.GetClass, AnyMeter.GetClass,
    AnyMeter.kind_create]

theorem lookup_of_unregistered (h : reg.meters_.lookup (kind.taggedId id) = none) :
    reg.lookup id kind =
      ({ reg with
          objects := reg.objects ++ [.create id reg.freq_millis_ reg.wall kind]
          meters_ := reg.meters_.insert (kind.taggedId id) reg.objects.length },
        reg.objects.length) := by
  have htagged : reg.meters_.lookup
      (AnyMeter.create id reg.freq_millis_ reg.wall kind).GetId = none := by
    rwa [AnyMeter.GetId_create]
  rw [lookup_eq, create_and_register_of_none htagged, AnyMeter.GetId_create]

/-- The kind of the meter that is registered for an id. -/
def registeredKind (reg : SharedRegistry) (id : Id) : Option MeterKind :=
  (reg.meters_.lookup id).bind fun a => reg.objects[a]?.map AnyMeter.kind

theorem registeredKind_eq_some (h : Registers reg) {a : ℕ}
    (ha : reg.meters_.lookup id = some a) :
    ∃ m, reg.objects[a]? = some m ∧ reg.registeredKind id = some m.kind := by
  obtain ⟨m, hm, _⟩ := h id a ha
  exact ⟨m, hm, by simp [registeredKind, ha, hm]⟩

theorem rightLookup_of_unregistered (ha : reg.meters_.lookup (kind.taggedId id) = none) :
    reg.RightLookup kind id := by
  refine ⟨?_, fun a m hsome => by rw [ha] at hsome; cases hsome⟩
  rw [lookup_of_unregistered ha]
  exact ⟨_, List.getElem?_concat_length, AnyMeter.kind_create _ _ _ _⟩

theorem rightLookup_of_kind {a : ℕ} {m : AnyMeter}
    (ha : reg.meters_.lookup (kind.taggedId id) = some a)
    (hm : reg.objects[a]? = some m) (hkind : m.kind = kind) : reg.RightLookup kind id := by
  have hlt : a < reg.objects.length := (List.getElem?_eq_some_iff.mp hm).1
  constructor
  · rw [lookup_of_registered ha hm, if_pos (by rw [hkind])]
    exact ⟨m, by rw [List.getElem?_append_left hlt, hm], hkind⟩
  · intro a' m' ha' hm' hne
    rw [Option.some.inj (ha'.symm.trans ha), hm] at hm'
    rw [← Option.some.inj hm'] at hne
    exact absurd hkind hne

theorem rightLookup_of_class (h : Registers reg) {a : ℕ} {m : AnyMeter}
    (ha : reg.meters_.lookup (kind.taggedId id) = some a) (hm : reg.objects[a]? = some m)
    (hclass : ¬ m.kind.GetClass = kind.GetClass) : reg.RightLookup kind id := by
  have hlt : a < reg.objects.length := (List.getElem?_eq_some_iff.mp hm).1
  have hfresh : ∀ id', reg.meters_.lookup id' ≠ some reg.objects.length := by
    intro id' hid'
    obtain ⟨m', hm', _⟩ := h id' _ hid'
    simp at hm'
  constructor
  · rw [lookup_of_registered ha hm, if_neg hclass]
    exact ⟨_, List.getElem?_concat_length, AnyMeter.kind_create _ _ _ _⟩
  · intro a' m' ha' hm' _
    obtain rfl := Option.some.inj (ha'.symm.trans ha)
    rw [lookup_of_registered ha hm, if_neg hclass]
    exact ⟨rfl, List.getElem?_concat_length, hfresh, rfl,
      by rw [List.getElem?_append_left hlt, hm']⟩

theorem rightLookup_iff (h : Registers reg) (kind : MeterKind) (id : Id) :
    reg.RightLookup kind id ↔
      ∀ first, reg.registeredKind (kind.taggedId id) = some first → ¬ first.Twin kind := by
  constructor
  · intro hright first hfirst htwin
    obtain ⟨hne, hclass⟩ := (MeterKind.twin_iff _ _).mp htwin
    obtain ⟨a, ha, hkind⟩ := Option.bind_eq_some_iff.mp hfirst
    obtain ⟨m, hm, rfl⟩ := Option.map_eq_some_iff.mp hkind
    obtain ⟨m', hm', hkind⟩ := hright.is_kind
    have hlt : a < reg.objects.length := (List.getElem?_eq_some_iff.mp hm).1
    rw [lookup_of_registered ha hm, if_pos hclass, List.getElem?_append_left hlt, hm] at hm'
    obtain rfl := Option.some.inj hm'
    exact hne hkind
  · intro htwin
    cases ha : reg.meters_.lookup (kind.taggedId id) with
    | none => exact rightLookup_of_unregistered ha
    | some a =>
      obtain ⟨m, hm, hregistered⟩ := registeredKind_eq_some h ha
      by_cases hkind : m.kind = kind
      · exact rightLookup_of_kind ha hm hkind
      · apply rightLookup_of_class h ha hm
        intro hclass
        exact htwin m.kind hregistered ((MeterKind.twin_iff _ _).mpr ⟨hkind, hclass⟩)

theorem registeredKind_append (h : Registers reg) (m : AnyMeter) (id : Id) :
    registeredKind { reg with objects := reg.objects ++ [m] } id = reg.registeredKind id := by
  unfold registeredKind
  cases ha : reg.meters_.lookup id with
  | none => rfl
  | some a =>
    obtain ⟨m', hm', _⟩ := h id a ha
    have hlt : a < reg.objects.length := (List.getElem?_eq_some_iff.mp hm').1
    simp only [Option.bind_some, List.getElem?_append_left hlt]

theorem registeredKind_lookup (h : Registers reg) (kind : MeterKind) (id id' : Id) :
    (reg.lookup id kind).1.registeredKind id' =
      (reg.registeredKind id').or (if kind.taggedId id = id' then some kind else none) := by
  cases ha : reg.meters_.lookup (kind.taggedId id) with
  | none =>
    rw [lookup_of_unregistered ha]
    by_cases hid : kind.taggedId id = id'
    · subst hid
      simp [registeredKind, ha, AnyMeter.kind_create]
    · have happend := registeredKind_append h (.create id reg.freq_millis_ reg.wall kind) id'
      rw [if_neg hid, Option.or_none, ← happend, registeredKind, registeredKind,
        AList.lookup_insert_ne (Ne.symm hid)]
  | some a =>
    obtain ⟨m, hm, hregistered⟩ := registeredKind_eq_some h ha
    rw [lookup_of_registered ha hm]
    rw [registeredKind_append h]
    by_cases hid : kind.taggedId id = id'
    · subst hid
      rw [hregistered, Option.some_or]
    · rw [if_neg hid, Option.or_none]

/-! Runs of lookups. -/

/-- The meters that the constructor looks up. -/
def ownLookups (freq_millis : ℤ) : List (MeterKind × Id) :=
  [(.gauge, ownId freq_millis "atlas.numMeters"),
    (.counter, ownId freq_millis "atlas.expiredMeters")]

/-- The kind for which an id, after default tagging, was looked up first. -/
def firstKind (freq_millis : ℤ) (lookups : List (MeterKind × Id)) (id : Id) : Option MeterKind :=
  ((ownLookups freq_millis ++ lookups).find? fun l => l.1.taggedId l.2 = id).map Prod.fst

def runLookups (freq_millis wall monotonic : ℤ) (lookups : List (MeterKind × Id)) :
    SharedRegistry :=
  (create freq_millis wall monotonic).run (lookups.map fun l => .lookup l.1 l.2)

/-- Every lookup of the sequence returns what its caller may rely on. -/
def LookupsRight (freq_millis wall monotonic : ℤ) (lookups : List (MeterKind × Id)) : Prop :=
  ∀ earlier kind id later, lookups = earlier ++ (kind, id) :: later →
    (runLookups freq_millis wall monotonic earlier).RightLookup kind id

/-- No id is looked up as one instance of a template after it was first looked up as the other. -/
def NoTwinFirst (freq_millis : ℤ) (lookups : List (MeterKind × Id)) : Prop :=
  ∀ earlier kind id later, lookups = earlier ++ (kind, id) :: later →
    ∀ first, firstKind freq_millis earlier (kind.taggedId id) = some first → ¬ first.Twin kind

theorem runLookups_registers (freq_millis wall monotonic : ℤ) (lookups : List (MeterKind × Id)) :
    Registers (runLookups freq_millis wall monotonic lookups) :=
  (run_registers freq_millis wall monotonic _).1

theorem registeredKind_create (freq_millis wall monotonic : ℤ) (id : Id) :
    (create freq_millis wall monotonic).registeredKind id = firstKind freq_millis [] id := by
  have hempty : Registers (empty freq_millis wall monotonic) := fun id a ha => by
    simp [empty] at ha
  have hnone : (empty freq_millis wall monotonic).registeredKind id = none := by
    simp [registeredKind, empty]
  have hsize := lookup_follows hempty rfl (ownId freq_millis "atlas.numMeters") .gauge
  have hfirst := registeredKind_lookup hempty .gauge (ownId freq_millis "atlas.numMeters") id
  have hsecond := registeredKind_lookup hsize.registers .counter
    (ownId freq_millis "atlas.expiredMeters") id
  rw [hfirst, hnone, Option.none_or] at hsecond
  have hown : (create freq_millis wall monotonic).registeredKind id =
      (((empty freq_millis wall monotonic).lookup (ownId freq_millis "atlas.numMeters")
        .gauge).1.lookup (ownId freq_millis "atlas.expiredMeters") .counter).1.registeredKind id := by
    unfold create
    dsimp only [lookup]
    generalize (empty freq_millis wall monotonic).gauge _ = size
    generalize size.1.counter _ = expired
    rfl
  rw [hown, hsecond, firstKind, ownLookups, List.append_nil]
  by_cases h : MeterKind.gauge.taggedId (ownId freq_millis "atlas.numMeters") = id
  · simp [h]
  · by_cases h' : MeterKind.counter.taggedId (ownId freq_millis "atlas.expiredMeters") = id <;>
      simp [h, h']

theorem registeredKind_runLookups (freq_millis wall monotonic : ℤ)
    (lookups : List (MeterKind × Id)) (id : Id) :
    (runLookups freq_millis wall monotonic lookups).registeredKind id =
      firstKind freq_millis lookups id := by
  induction lookups using List.reverseRecOn with
  | nil => exact registeredKind_create freq_millis wall monotonic id
  | append_singleton lookups l ih =>
    have hone := registeredKind_lookup (runLookups_registers freq_millis wall monotonic lookups)
      l.1 l.2 id
    rw [ih, firstKind] at hone
    rw [runLookups, List.map_append, run_append, firstKind, ← List.append_assoc, List.find?_append]
    refine hone.trans ?_
    cases (ownLookups freq_millis ++ lookups).find? fun l => l.1.taggedId l.2 = id with
    | some first => rfl
    | none => by_cases hid : l.1.taggedId l.2 = id <;> simp [hid]

/-- In every sequence of lookups all are right exactly when no id is first looked up as the
other instance of its template. -/
theorem lookupsRight_iff (freq_millis wall monotonic : ℤ) (lookups : List (MeterKind × Id)) :
    LookupsRight freq_millis wall monotonic lookups ↔ NoTwinFirst freq_millis lookups := by
  apply forall₄_congr
  intro earlier kind id later
  apply imp_congr_right
  intro _
  rw [rightLookup_iff (runLookups_registers freq_millis wall monotonic earlier),
    registeredKind_runLookups]

/-- A counter is given out as a double counter. -/
theorem counter_as_dcounter :
    ¬ LookupsRight 60000 0 0
      [(.counter, ⟨intern_str "foo", ∅⟩), (.dcounter, ⟨intern_str "foo", ∅⟩)] := by
  intro hright
  obtain ⟨m, hm, hkind⟩ := (hright [(.counter, ⟨intern_str "foo", ∅⟩)] _ _ [] rfl).is_kind
  have hcounter : ((runLookups 60000 0 0 [(.counter, ⟨intern_str "foo", ∅⟩)]).lookup
      ⟨intern_str "foo", ∅⟩ .dcounter).1.objects[((runLookups 60000 0 0
        [(.counter, ⟨intern_str "foo", ∅⟩)]).lookup ⟨intern_str "foo", ∅⟩ .dcounter).2]?.map
        AnyMeter.kind = some .counter := by decide +kernel
  rw [hm, Option.map_some, hkind] at hcounter
  cases hcounter

end SharedRegistry

end AtlasNative
