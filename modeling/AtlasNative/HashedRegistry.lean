import AtlasNative.FlatHashMapRuns
import AtlasNative.HeldMeters

/-!
# The registry over its hash table

The registry again, with its meters in a hash table as in the code: lookups emplace into it,
measurements copy it in the order of its slots, and expired meters are erased from it while an
iterator walks over it. It does what the registry over a finite map does, but for the order in
which it measures.
-/

namespace AtlasNative

open RobinHood ExactDouble
set_option autoImplicit false

structure HashedRegistry where
  /-- all but the map, which is left empty here -/
  reg : SharedRegistry
  meters_ : FlatHashMap Id ℕ

namespace HashedRegistry

section Code
variable (h : HashedRegistry)

def registered : List ℕ := (contents h.meters_.entries).map Prod.snd

def use_count (a : ℕ) : ℕ :=
  (h.registered ++ [h.reg.meters_size, h.reg.expired_meters] ++ h.reg.all_meters ++
    h.reg.handles).count a

def expires (a : ℕ) : Bool := h.reg.HasExpired a && h.use_count a = 1

def meters : Option HashedRegistry :=
  h.meters_.visit.map fun walk =>
    { h with
      reg := { h.reg with all_meters := walk.map Prod.snd }.call h.reg.meters_size
        (.Update (.fin walk.length)) }

/-- The loop of `expire_meters`; the number of erased meters comes second. -/
def expireFrom : ℕ → HashedRegistry → ℕ → ℤ → Option (HashedRegistry × ℤ)
  | 0, _, _, _ => none
  | fuel + 1, h, it, expired =>
    if it = h.meters_.end_ then some (h, expired)
    else
      (h.meters_.deref it).bind fun entry =>
        if h.expires entry.2 then
          (h.meters_.erase it).bind fun r =>
            expireFrom fuel { h with meters_ := r.1 } r.2 (expired + 1)
        else (h.meters_.next it).bind fun it => expireFrom fuel h it expired

def expire_meters : Option HashedRegistry :=
  h.meters_.begin_.bind fun it =>
    (expireFrom h.meters_.entries.length h it 0).map fun r =>
      { r.1 with reg := r.1.reg.call r.1.reg.expired_meters (.Add r.2) }

def measurements : Option (HashedRegistry × Measurements) :=
  h.meters.bind fun copied =>
    let measured := copied.reg.all_meters.foldl SharedRegistry.measureOne (copied.reg, [])
    { copied with reg := { measured.1 with all_meters := [] } }.expire_meters.map
      fun h => (h, measured.2)

end Code

section Code
variable (memory : ℕ) (hash : Id → UInt64)

def insert_if_needed (h : HashedRegistry) (id : Id) (meter : ℕ) : Option (HashedRegistry × ℕ) :=
  (h.meters_.emplace memory hash id meter).bind fun insert_result =>
    (insert_result.1.deref insert_result.2.1).map fun entry =>
      ({ h with meters_ := insert_result.1 }, entry.2)

def create_and_register_as_needed (h : HashedRegistry) (new_meter : AnyMeter) :
    Option (HashedRegistry × ℕ) :=
  let new_meter_ptr := h.reg.objects.length
  let made : HashedRegistry :=
    { h with reg := { h.reg with objects := h.reg.objects ++ [new_meter] } }
  (made.insert_if_needed memory hash new_meter.GetId new_meter_ptr).map fun inserted =>
    let meter_ptr := inserted.2
    if inserted.1.reg.objects[meter_ptr]?.map AnyMeter.GetClass = some new_meter.GetClass then
      (inserted.1, meter_ptr)
    else (inserted.1, new_meter_ptr)

/-- The lookup method of a kind. -/
def lookup (h : HashedRegistry) (id : Id) (kind : MeterKind) : Option (HashedRegistry × ℕ) :=
  h.create_and_register_as_needed memory hash (.create id h.reg.freq_millis_ h.reg.wall kind)

def step (h : HashedRegistry) : RegistryCall → Option HashedRegistry
  | .lookup kind id =>
    (h.lookup memory hash id kind).map fun found =>
      { found.1 with reg := { found.1.reg with handles := found.1.reg.handles ++ [found.2] } }
  | .drop i => some { h with reg := { h.reg with handles := h.reg.handles.eraseIdx i } }
  | .update i op =>
    match h.reg.handles[i]? with
    | some a => some { h with reg := h.reg.call a op }
    | none => some h
  | .advance wall monotonic =>
    some { h with
      reg := { h.reg with wall := h.reg.wall + wall, monotonic := h.reg.monotonic + monotonic } }
  | .measurements => h.measurements.map Prod.fst
  | .expire_meters => h.expire_meters

/-- The constructor registers two meters of its own. -/
def create (freq_millis wall monotonic : ℤ) : Option HashedRegistry :=
  let empty : HashedRegistry := ⟨.empty freq_millis wall monotonic, .create⟩
  (empty.lookup memory hash (SharedRegistry.ownId freq_millis "atlas.numMeters") .gauge).bind
    fun size =>
      (size.1.lookup memory hash (SharedRegistry.ownId freq_millis "atlas.expiredMeters")
        .counter).map fun expired =>
          { expired.1 with
            reg := { expired.1.reg with meters_size := size.2, expired_meters := expired.2 } }

def run (h : HashedRegistry) (calls : List RegistryCall) : Option HashedRegistry :=
  calls.foldlM (step memory hash) h

end Code

/-! ### The loop -/

/-- Nothing outside of the map points to the object. -/
def outside (reg : SharedRegistry) (a : ℕ) : ℕ :=
  ([reg.meters_size, reg.expired_meters] ++ reg.all_meters ++ reg.handles).count a

def lonely (reg : SharedRegistry) (kv : Id × ℕ) : Bool :=
  reg.HasExpired kv.2 && outside reg kv.2 = 0

theorem count_eq_one_iff {l rest : List ℕ} (hl : l.Nodup) {a : ℕ} (ha : a ∈ l) :
    (l ++ rest).count a = 1 ↔ rest.count a = 0 := by
  rw [List.count_append, List.count_eq_one_of_mem hl ha]
  omega

/-- Whether a registered object expires does not depend on the others. -/
theorem expires_eq_lonely {h : HashedRegistry} (hnodup : h.registered.Nodup) {kv : Id × ℕ}
    (hkv : kv ∈ contents h.meters_.entries) : h.expires kv.2 = lonely h.reg kv := by
  have hmem : kv.2 ∈ h.registered := List.mem_map_of_mem hkv
  have hcount : h.use_count kv.2 = 1 ↔ outside h.reg kv.2 = 0 := by
    rw [use_count, outside, List.append_assoc, List.append_assoc, count_eq_one_iff hnodup hmem,
      List.append_assoc]
  rw [expires, lonely, decide_eq_decide.mpr hcount]

theorem expireFrom_eq {hash : Id → UInt64} {fuel it : ℕ} (expired : ℤ) {h : HashedRegistry}
    (hsound : h.meters_.Sound hash) (hnodup : h.registered.Nodup) (hit : h.meters_.Points it)
    (hfuel : (h.meters_.ahead it).length < fuel) :
    ∃ meters, expireFrom fuel h it expired =
        some ({ h with meters_ := meters },
          expired + (h.meters_.ahead it).countP (lonely h.reg)) ∧
      meters.Sound hash ∧ contents meters.entries = contents (h.meters_.entries.take it) ++
        (h.meters_.ahead it).filter fun kv => !lonely h.reg kv := by
  induction fuel generalizing h it expired with
  | zero => exact absurd hfuel (Nat.not_lt_zero _)
  | succ fuel ih =>
    rw [expireFrom]
    rcases hit with rfl | ⟨kv, hkv⟩
    · have hall := FlatHashMap.contents_take_drop h.meters_.entries h.meters_.end_
      have hend := hsound.ahead_end
      rw [if_pos rfl]
      refine ⟨h.meters_, ?_, hsound, ?_⟩
      · rw [hend]
        simp
      · rw [hend, List.filter_nil]
        rw [FlatHashMap.ahead] at hend
        rw [hend] at hall
        exact hall.symm
    · have hmem := FlatHashMap.mem_contents_of_deref hkv
      rw [if_neg (hsound.lt_of_deref hkv).ne, hkv, Option.bind_some,
        expires_eq_lonely hnodup hmem]
      by_cases hlonely : lonely h.reg kv = true
      · obtain ⟨t', it', herase, hsound', -, hit', -, hahead, hbehind⟩ := hsound.erase hkv
        have hnodup' : ({ h with meters_ := t' } : HashedRegistry).registered.Nodup := by
          have hparts : contents h.meters_.entries =
              contents (h.meters_.entries.take it) ++ kv :: t'.ahead it' := by
            rw [← hahead]
            exact (FlatHashMap.contents_take_drop _ _).symm
          have hleft : contents t'.entries =
              contents (h.meters_.entries.take it) ++ t'.ahead it' := by
            rw [← hbehind]
            exact (FlatHashMap.contents_take_drop _ _).symm
          rw [registered, hparts] at hnodup
          rw [registered, hleft]
          exact hnodup.sublist (((List.sublist_cons_self _ _).append_left _).map _)
        rw [hahead, List.length_cons] at hfuel
        have hless : (t'.ahead it').length < fuel := by omega
        obtain ⟨meters, hloop, hmeters, hcontents⟩ := ih (expired + 1)
          (h := { h with meters_ := t' }) hsound' hnodup' hit' hless
        refine ⟨meters, ?_, hmeters, ?_⟩
        · rw [if_pos hlonely, herase, Option.bind_some, hloop, hahead, List.countP_cons,
            if_pos hlonely]
          congr 2
          push_cast
          ring
        · rw [hcontents, hbehind, hahead, List.filter_cons_of_neg (by simp [hlonely])]
      · obtain ⟨it', hnext, hit', hahead, hbehind⟩ := hsound.next hkv
        rw [hahead, List.length_cons] at hfuel
        obtain ⟨meters, hloop, hmeters, hcontents⟩ :=
          ih expired hsound hnodup hit' (by omega)
        refine ⟨meters, ?_, hmeters, ?_⟩
        · rw [if_neg hlonely, hnext, Option.bind_some, hloop, hahead, List.countP_cons,
            if_neg hlonely, Nat.add_zero]
        · rw [hcontents, hbehind, hahead, List.filter_cons_of_pos (by simp [hlonely]),
            List.append_assoc, List.singleton_append]

/-! ### Simulation -/

/-- All but the map is the same, and the table represents the map. -/
structure Simulates (hash : Id → UInt64) (h : HashedRegistry) (reg : SharedRegistry) : Prop where
  rest : h.reg = { reg with meters_ := ∅ }
  table : h.meters_.Represents hash fun id => reg.meters_.lookup id
  registers : reg.Registers
  copy : reg.all_meters = []

namespace Simulates
variable {memory : ℕ} {hash : Id → UInt64} {h h' : HashedRegistry} {reg : SharedRegistry}

theorem perm (hs : Simulates hash h reg) :
    (contents h.meters_.entries).Perm (reg.meters_.entries.map fun e => (e.1, e.2)) := by
  have hkeys : ((reg.meters_.entries.map fun e => ((e.1, e.2) : Id × ℕ)).map Prod.fst).Nodup := by
    rw [List.map_map]
    exact reg.meters_.nodupKeys
  apply (List.perm_ext_iff_of_nodup hs.table.nodup_contents hkeys.of_map).mpr
  rintro ⟨id, a⟩
  rw [hs.table.mem, ← Option.mem_def, AList.mem_lookup_iff, List.mem_map]
  constructor
  · intro hmem
    exact ⟨⟨id, a⟩, hmem, rfl⟩
  · rintro ⟨e, he, heq⟩
    cases heq
    exact he

theorem registered_perm (hs : Simulates hash h reg) : h.registered.Perm reg.registered := by
  have hperm := hs.perm.map Prod.snd
  rw [List.map_map] at hperm
  exact hperm

theorem nodup_registered (hs : Simulates hash h reg) : h.registered.Nodup :=
  hs.registered_perm.nodup_iff.mpr hs.registers.nodup_registered

theorem lonely_eq (hs : Simulates hash h reg) : lonely h.reg = lonely reg := by
  rw [hs.rest]
  rfl

/-- The objects that expire are those of the registry over the map. -/
theorem expires_iff (hs : Simulates hash h reg) {id : Id} {a : ℕ}
    (ha : reg.meters_.lookup id = some a) : reg.expires a = lonely reg (id, a) := by
  have hmem : a ∈ reg.registered := (SharedRegistry.mem_registered_iff reg a).mpr ⟨id, ha⟩
  have hcount : reg.use_count a = 1 ↔ outside reg a = 0 := by
    rw [SharedRegistry.use_count, outside, List.append_assoc, List.append_assoc,
      count_eq_one_iff hs.registers.nodup_registered hmem, List.append_assoc]
  rw [SharedRegistry.expires, lonely, decide_eq_decide.mpr hcount]

theorem expiring_eq (hs : Simulates hash h reg) :
    reg.expiring = (contents h.meters_.entries).countP (lonely reg) := by
  rw [hs.perm.countP_eq, List.countP_map]
  apply List.countP_congr
  intro e he
  rw [hs.expires_iff (AList.mem_lookup_iff.mpr he)]
  rfl

theorem expire_meters (hs : Simulates hash h reg) :
    ∃ h', h.expire_meters = some h' ∧ Simulates hash h' reg.expire_meters ∧
      h'.meters_.num_elements ≤ h.meters_.num_elements := by
  obtain ⟨it, hbegin, hit, hahead, hbehind⟩ := hs.table.sound.begin_
  have hfuel : (h.meters_.ahead it).length < h.meters_.entries.length := by
    rw [hahead]
    exact hs.table.sound.length_contents_lt
  obtain ⟨meters, hloop, hsound, hcontents⟩ :=
    expireFrom_eq 0 hs.table.sound hs.nodup_registered hit hfuel
  rw [hahead, hs.lonely_eq, ← hs.expiring_eq, zero_add] at hloop
  rw [hbehind, hahead, List.nil_append, hs.lonely_eq] at hcontents
  obtain ⟨meters', heq, hlookup⟩ := SharedRegistry.expire_meters_eq hs.registers
  have hfollows := SharedRegistry.expire_meters_follows hs.registers hs.copy
  refine ⟨{ h with
    reg := h.reg.call h.reg.expired_meters (.Add reg.expiring), meters_ := meters }, ?_, ?_, ?_⟩
  · rw [HashedRegistry.expire_meters, hbegin, Option.bind_some, hloop]
    rfl
  · refine ⟨?_, ⟨hsound, ?_⟩, hfollows.registers, hfollows.copy⟩
    · dsimp only
      rw [heq, hs.rest]
      rfl
    · intro id a
      rw [heq, hcontents, List.mem_filter, hs.table.mem]
      show _ ↔ meters'.lookup id = some a
      rw [hlookup]
      apply and_congr_right
      intro ha
      rw [hs.expires_iff ha, Bool.not_eq_true']
  · rw [hsound.size, hs.table.sound.size, hcontents]
    exact List.length_filter_le _ _

/-- The measurements come in the order of the slots. -/
theorem measurements (hs : Simulates hash h reg) :
    ∃ h' ms, h.measurements = some (h', ms) ∧ Simulates hash h' reg.measurements.1 ∧
      ms.Perm reg.measurements.2 ∧ h'.meters_.num_elements ≤ h.meters_.num_elements := by
  have hwalk := hs.table.sound.visit
  have hlength : (contents h.meters_.entries).length = reg.registered.length := by
    rw [← hs.registered_perm.length_eq, registered, List.length_map]
  have hfold := SharedRegistry.foldl_measureOne hs.nodup_registered
    ({ reg.meters with meters_ := ∅, all_meters := h.registered }, [])
  have hafter : SharedRegistry.afterMeasuring
      { reg.meters with meters_ := ∅, all_meters := h.registered } h.registered =
        reg.meters.afterMeasuring reg.registered := by
    have hmem : ∀ a, a ∈ h.registered ↔ a ∈ reg.registered := fun a => hs.registered_perm.mem_iff
    simp only [SharedRegistry.afterMeasuring, hmem]
  have hpolled : Simulates hash
      { h with reg := { reg.polled with meters_ := ∅ } } reg.polled := by
    refine ⟨rfl, hs.table, ?_, hs.copy⟩
    exact hs.registers.of_subset (SharedRegistry.polled_evolves reg) fun id a ha => ha
  obtain ⟨h', hexpire, hsim, hsize⟩ := hpolled.expire_meters
  have hstate : SharedRegistry.polled reg = { reg with
      objects := SharedRegistry.afterMeasuring
        { reg.meters with meters_ := ∅, all_meters := h.registered } h.registered } := by
    rw [hafter]
    rfl
  have hcleared : ({ h with reg := { reg.polled with meters_ := ∅ } } : HashedRegistry) =
      { h with reg := { reg.polled with meters_ := ∅, all_meters := [] } } := by
    have hcopy : reg.polled.all_meters = [] := hs.copy
    rw [← hcopy]
  have hmeters : h.meters = some { h with
      reg := { reg.meters with meters_ := ∅, all_meters := h.registered } } := by
    rw [HashedRegistry.meters, hwalk, Option.map_some, hs.rest, hlength]
    rfl
  refine ⟨h', h.registered.flatMap reg.meters.measured, ?_, ?_, ?_, hsize⟩
  · rw [HashedRegistry.measurements, hmeters, Option.bind_some]
    dsimp only
    rw [hfold]
    dsimp only
    rw [hcleared, hstate] at hexpire
    exact (congrArg (Option.map _) hexpire).trans rfl
  · rw [SharedRegistry.measurements_eq hs.registers hs.copy]
    exact hsim
  · rw [SharedRegistry.measurements_eq hs.registers hs.copy]
    exact hs.registered_perm.flatMap_right _

/-! Lookups. -/

/-- The map after an insertion, and the meter that is then registered. -/
theorem insert_if_needed_eq (reg : SharedRegistry) (id : Id) (meter : ℕ) :
    ∃ meters, reg.insert_if_needed id meter =
        ({ reg with meters_ := meters }, (reg.meters_.lookup id).getD meter) ∧
      (fun id' => meters.lookup id') = Function.update (fun id' => reg.meters_.lookup id') id
        (some ((reg.meters_.lookup id).getD meter)) := by
  unfold SharedRegistry.insert_if_needed
  cases hid : reg.meters_.lookup id with
  | some a =>
    refine ⟨reg.meters_, rfl, ?_⟩
    rw [Option.getD_some, ← hid, Function.update_eq_self]
  | none =>
    refine ⟨reg.meters_.insert id meter, rfl, ?_⟩
    funext id'
    by_cases heq : id' = id
    · subst heq
      rw [AList.lookup_insert, Function.update_self]
      rfl
    · rw [AList.lookup_insert_ne heq, Function.update_of_ne heq]

section Lookups
variable (hmemory : memory ≤ 2 ^ 62)
include hmemory

theorem create_and_register_of_emplace (hs : Simulates hash h reg) {m : AnyMeter}
    {t : FlatHashMap Id ℕ} {pos : ℕ} {inserted : Bool}
    (hcall : h.meters_.emplace memory hash m.GetId h.reg.objects.length =
      some (t, pos, inserted)) :
    ∃ h', h.create_and_register_as_needed memory hash m =
        some (h', (reg.create_and_register_as_needed m).2) ∧
      Simulates hash h' (reg.create_and_register_as_needed m).1 ∧
      h'.meters_.num_elements ≤ h.meters_.num_elements + 1 := by
  have hfollows := SharedRegistry.create_and_register_follows hs.registers hs.copy m
  obtain ⟨hrep, -, hpos, hsize⟩ := hs.table.emplace hmemory hcall
  have hobjects : h.reg.objects = reg.objects := by rw [hs.rest]
  obtain ⟨meters, hinsert, hlookup⟩ := insert_if_needed_eq
    { reg with objects := reg.objects ++ [m] } m.GetId reg.objects.length
  rw [hobjects] at hcall hpos hrep
  dsimp only at hinsert hlookup
  have hmodel : reg.create_and_register_as_needed m =
      ({ reg with objects := reg.objects ++ [m], meters_ := meters },
        (reg.create_and_register_as_needed m).2) := by
    rw [SharedRegistry.create_and_register_as_needed, hinsert]
    dsimp only
    split <;> rfl
  refine ⟨{ reg := { reg with objects := reg.objects ++ [m], meters_ := ∅ }, meters_ := t }, ?_, ?_,
    hsize⟩
  · rw [HashedRegistry.create_and_register_as_needed, SharedRegistry.create_and_register_as_needed,
      HashedRegistry.insert_if_needed, hinsert, hobjects]
    dsimp only
    rw [hcall, Option.bind_some, hpos, Option.map_some, Option.map_some, hs.rest]
    dsimp only
    split <;> rfl
  · rw [hmodel] at hfollows ⊢
    refine ⟨rfl, ?_, hfollows.registers, hfollows.copy⟩
    dsimp only
    rw [hlookup]
    exact hrep

theorem lookup (hs : Simulates hash h reg) {id : Id} {kind : MeterKind} {found : HashedRegistry × ℕ}
    (hcall : h.lookup memory hash id kind = some found) :
    Simulates hash found.1 (reg.lookup id kind).1 ∧ found.2 = (reg.lookup id kind).2 ∧
      found.1.meters_.num_elements ≤ h.meters_.num_elements + 1 := by
  have hfreq : h.reg.freq_millis_ = reg.freq_millis_ := by rw [hs.rest]
  have hwall : h.reg.wall = reg.wall := by rw [hs.rest]
  rw [HashedRegistry.lookup, hfreq, hwall] at hcall
  obtain ⟨inserted, hinsert, -⟩ := Option.map_eq_some_iff.mp hcall
  obtain ⟨⟨t, pos, new⟩, hemplace, -⟩ := Option.bind_eq_some_iff.mp hinsert
  obtain ⟨h', hregister, hsim, hsize⟩ := hs.create_and_register_of_emplace hmemory hemplace
  cases hregister.symm.trans hcall
  rw [SharedRegistry.lookup_eq]
  exact ⟨hsim, rfl, hsize⟩

theorem lookup_isSome {bits : ℕ} (hroom : 2 ^ bits ≤ memory) (hs : Simulates hash h reg)
    (hfew : h.meters_.num_elements + 2 ≤ bits) (id : Id) (kind : MeterKind) :
    ∃ found, h.lookup memory hash id kind = some found := by
  obtain ⟨t, pos, inserted, hemplace⟩ := hs.table.emplace_isSome hmemory hroom hfew
    (AnyMeter.create id h.reg.freq_millis_ h.reg.wall kind).GetId h.reg.objects.length
  obtain ⟨h', hregister, -⟩ := hs.create_and_register_of_emplace hmemory hemplace
  exact ⟨_, hregister⟩

end Lookups

/-! Runs. -/

/-- Where it is only the rest of a registry that changes. -/
theorem of_rest (hs : Simulates hash h reg) (rest : SharedRegistry)
    (hmeters : rest.meters_ = reg.meters_) (hregisters : rest.Registers)
    (hcopy : rest.all_meters = []) :
    Simulates hash { h with reg := { rest with meters_ := ∅ } } rest := by
  refine ⟨rfl, ?_, hregisters, hcopy⟩
  rw [hmeters]
  exact hs.table

variable (memory) in
theorem update (hs : Simulates hash h reg) (i : ℕ) (op : MeterMethod) :
    ∃ h', h.step memory hash (.update i op) = some h' ∧
      Simulates hash h' (reg.step (.update i op)) ∧
      h'.meters_.num_elements = h.meters_.num_elements := by
  have hfollows := SharedRegistry.step_follows hs.registers hs.copy (.update i op)
  rw [SharedRegistry.step] at hfollows ⊢
  rw [HashedRegistry.step, hs.rest]
  dsimp only
  cases hi : reg.handles[i]? with
  | none => exact ⟨h, rfl, hs, rfl⟩
  | some a =>
    rw [hi] at hfollows
    exact ⟨_, rfl, hs.of_rest (reg.call a op) rfl hfollows.registers hfollows.copy, rfl⟩

theorem step (hmemory : memory ≤ 2 ^ 62) (hs : Simulates hash h reg) (c : RegistryCall)
    (hstep : h.step memory hash c = some h') :
    Simulates hash h' (reg.step c) ∧ h'.meters_.num_elements ≤ h.meters_.num_elements + 1 := by
  have hfollows := SharedRegistry.step_follows hs.registers hs.copy c
  cases c with
  | lookup kind id =>
    obtain ⟨found, hlookup, rfl⟩ := Option.map_eq_some_iff.mp hstep
    obtain ⟨hsim, haddress, hsize⟩ := hs.lookup hmemory hlookup
    refine ⟨⟨?_, hsim.table, hfollows.registers, hfollows.copy⟩, hsize⟩
    dsimp only
    rw [haddress, hsim.rest]
    rfl
  | drop i =>
    cases hstep
    refine ⟨⟨?_, hs.table, hs.registers, hs.copy⟩, Nat.le_succ _⟩
    dsimp only
    rw [hs.rest]
    rfl
  | update i op =>
    obtain ⟨h₁, hupdate, hsim, hsize⟩ := hs.update memory i op
    cases hupdate.symm.trans hstep
    exact ⟨hsim, hsize.le.trans (Nat.le_succ _)⟩
  | advance wall monotonic =>
    cases hstep
    refine ⟨⟨?_, hs.table, hs.registers, hs.copy⟩, Nat.le_succ _⟩
    dsimp only
    rw [hs.rest]
    rfl
  | measurements =>
    obtain ⟨h₁, ms, hmeasure, hsim, -, hsize⟩ := hs.measurements
    rw [HashedRegistry.step, hmeasure] at hstep
    cases hstep
    exact ⟨hsim, hsize.trans (Nat.le_succ _)⟩
  | expire_meters =>
    obtain ⟨h₁, hexpire, hsim, hsize⟩ := hs.expire_meters
    cases hexpire.symm.trans hstep
    exact ⟨hsim, hsize.trans (Nat.le_succ _)⟩

theorem step_isSome {bits : ℕ} (hmemory : memory ≤ 2 ^ 62) (hroom : 2 ^ bits ≤ memory)
    (hs : Simulates hash h reg) (hfew : h.meters_.num_elements + 2 ≤ bits) (c : RegistryCall) :
    ∃ h', h.step memory hash c = some h' := by
  cases c with
  | lookup kind id =>
    obtain ⟨found, hlookup⟩ := hs.lookup_isSome hmemory hroom hfew id kind
    rw [HashedRegistry.step, hlookup]
    exact ⟨_, rfl⟩
  | drop i => exact ⟨_, rfl⟩
  | update i op =>
    obtain ⟨h', hupdate, -⟩ := hs.update memory i op
    exact ⟨h', hupdate⟩
  | advance wall monotonic => exact ⟨_, rfl⟩
  | measurements =>
    obtain ⟨h', ms, hmeasure, -⟩ := hs.measurements
    rw [HashedRegistry.step, hmeasure]
    exact ⟨_, rfl⟩
  | expire_meters =>
    obtain ⟨h', hexpire, -⟩ := hs.expire_meters
    exact ⟨h', hexpire⟩

theorem empty (freq_millis wall monotonic : ℤ) :
    Simulates hash ⟨.empty freq_millis wall monotonic, .create⟩
      (.empty freq_millis wall monotonic) :=
  ⟨rfl, .create, fun _ _ ha => by simp [SharedRegistry.empty] at ha, rfl⟩

section Constructor
variable (hmemory : memory ≤ 2 ^ 62) (freq_millis wall monotonic : ℤ)
include hmemory

theorem create (hcreate : HashedRegistry.create memory hash freq_millis wall monotonic = some h) :
    Simulates hash h (.create freq_millis wall monotonic) ∧ h.meters_.num_elements ≤ 2 := by
  obtain ⟨size, hsize, hrest⟩ := Option.bind_eq_some_iff.mp hcreate
  obtain ⟨expired, hexpired, rfl⟩ := Option.map_eq_some_iff.mp hrest
  obtain ⟨hsim, haddress, hfew⟩ := (empty freq_millis wall monotonic).lookup hmemory hsize
  obtain ⟨hsim', haddress', hfew'⟩ := hsim.lookup hmemory hexpired
  have hregisters := SharedRegistry.create_registers freq_millis wall monotonic
  unfold SharedRegistry.create at hregisters ⊢
  dsimp only [SharedRegistry.lookup] at hsim haddress hsim' haddress' hregisters ⊢
  generalize (SharedRegistry.empty freq_millis wall monotonic).gauge _ = model at *
  generalize model.1.counter _ = model' at *
  refine ⟨⟨?_, hsim'.table, hregisters.1, hregisters.2⟩, hfew'.trans (Nat.succ_le_succ hfew)⟩
  dsimp only
  rw [haddress, haddress', hsim'.rest]

variable (hash) in
theorem create_isSome (hroom : 2 ^ 3 ≤ memory) :
    ∃ h, HashedRegistry.create memory hash freq_millis wall monotonic = some h := by
  have hempty : Simulates hash _ _ := empty freq_millis wall monotonic
  obtain ⟨size, hsize⟩ := hempty.lookup_isSome hmemory hroom (Nat.le_succ 2)
    (SharedRegistry.ownId freq_millis "atlas.numMeters") .gauge
  obtain ⟨hsim, -, hfew⟩ := hempty.lookup hmemory hsize
  obtain ⟨expired, hexpired⟩ :=
    hsim.lookup_isSome hmemory hroom (Nat.succ_le_succ (Nat.succ_le_succ hfew))
    (SharedRegistry.ownId freq_millis "atlas.expiredMeters") .counter
  refine ⟨{ expired.1 with
    reg := { expired.1.reg with meters_size := size.2, expired_meters := expired.2 } }, ?_⟩
  rw [HashedRegistry.create]
  dsimp only
  rw [hsize, Option.bind_some, hexpired, Option.map_some]

end Constructor

theorem run (hmemory : memory ≤ 2 ^ 62) (hs : Simulates hash h reg) (calls : List RegistryCall)
    (hrun : h.run memory hash calls = some h') :
    Simulates hash h' (reg.run calls) ∧
      h'.meters_.num_elements ≤ h.meters_.num_elements + calls.length := by
  induction calls generalizing h reg with
  | nil =>
    cases hrun
    exact ⟨hs, le_rfl⟩
  | cons c calls ih =>
    rw [HashedRegistry.run, List.foldlM_cons] at hrun
    obtain ⟨h₁, hstep, hrest⟩ := Option.bind_eq_some_iff.mp hrun
    obtain ⟨hsim, hsize⟩ := hs.step hmemory c hstep
    obtain ⟨hsim', hsize'⟩ := ih hsim hrest
    refine ⟨hsim', ?_⟩
    rw [List.length_cons]
    omega

theorem run_isSome {bits : ℕ} (hmemory : memory ≤ 2 ^ 62) (hroom : 2 ^ bits ≤ memory)
    (hs : Simulates hash h reg) (calls : List RegistryCall)
    (hfew : h.meters_.num_elements + calls.length + 1 ≤ bits) :
    ∃ h', h.run memory hash calls = some h' := by
  induction calls generalizing h reg with
  | nil => exact ⟨h, rfl⟩
  | cons c calls ih =>
    rw [List.length_cons] at hfew
    obtain ⟨h₁, hstep⟩ := hs.step_isSome hmemory hroom (by omega) c
    obtain ⟨hsim, hsize⟩ := hs.step hmemory c hstep
    obtain ⟨h', hrun⟩ := ih hsim (by omega)
    refine ⟨h', ?_⟩
    rw [HashedRegistry.run, List.foldlM_cons, hstep]
    exact hrun

end Simulates

/-! ### The registry in use -/

/-- The registry after its construction and some calls. -/
def used (memory : ℕ) (hash : Id → UInt64) (freq_millis wall monotonic : ℤ)
    (calls : List RegistryCall) : Option HashedRegistry :=
  (create memory hash freq_millis wall monotonic).bind fun h => h.run memory hash calls

/-- The registry over its table has the objects, pointers and registered meters that the one over
a map has, and measures the same in some order. Where there is memory for a table with a bit more
for each call, no call fails. -/
theorem used_simulates {memory : ℕ} (hash : Id → UInt64) (hmemory : memory ≤ 2 ^ 62)
    (freq_millis wall monotonic : ℤ) (calls : List RegistryCall) :
    let reg := (SharedRegistry.create freq_millis wall monotonic).run calls
    (∀ h, used memory hash freq_millis wall monotonic calls = some h →
      h.reg = { reg with meters_ := ∅ } ∧
      (∀ id, h.meters_.get hash id = some (reg.meters_.lookup id)) ∧
      ∃ h' ms, h.measurements = some (h', ms) ∧ ms.Perm reg.measurements.2) ∧
    (2 ^ (calls.length + 3) ≤ memory →
      ∃ h, used memory hash freq_millis wall monotonic calls = some h) := by
  intro reg
  refine ⟨?_, ?_⟩
  · intro h hused
    obtain ⟨made, hcreate, hrun⟩ := Option.bind_eq_some_iff.mp hused
    obtain ⟨hmade, -⟩ := Simulates.create hmemory freq_millis wall monotonic hcreate
    obtain ⟨hsim, -⟩ := hmade.run hmemory calls hrun
    obtain ⟨h', ms, hmeasure, -, hperm, -⟩ := hsim.measurements
    exact ⟨hsim.rest, hsim.table.get, h', ms, hmeasure, hperm⟩
  · intro hroom
    have hless : 2 ^ 3 ≤ 2 ^ (calls.length + 3) := Nat.pow_le_pow_right (by decide) (by omega)
    obtain ⟨made, hcreate⟩ := Simulates.create_isSome hash hmemory freq_millis wall
      monotonic (hless.trans hroom)
    obtain ⟨hmade, hfew⟩ := Simulates.create hmemory freq_millis wall monotonic hcreate
    obtain ⟨h, hrun⟩ := hmade.run_isSome hmemory hroom calls (by omega)
    refine ⟨h, ?_⟩
    rw [used, hcreate]
    exact hrun

/-- Six meters whose ids have one hash, and a measurement. -/
def lookedUp : List RegistryCall :=
  ["a", "b", "c", "d", "e", "f"].map (fun name => .lookup .gauge ⟨intern_str name, ∅⟩) ++
    [.drop 0, .measurements]

theorem used_simulates_lookedUp :
    ∃ h, used (2 ^ 11) (fun _ => 5) 60000 0 0 lookedUp = some h ∧
      h.meters_.get (fun _ => 5) (MeterKind.gauge.taggedId ⟨intern_str "e", ∅⟩) =
        some (some 6) := by
  obtain ⟨hanswers, hreturns⟩ :=
    @used_simulates (2 ^ 11) (fun _ => 5) (by decide) 60000 0 0 lookedUp
  obtain ⟨h, hused⟩ := hreturns (by decide)
  obtain ⟨-, hget, -⟩ := hanswers h hused
  have hlookup : ((SharedRegistry.create 60000 0 0).run lookedUp).meters_.lookup
      (MeterKind.gauge.taggedId ⟨intern_str "e", ∅⟩) = some 6 := by
    decide +kernel
  exact ⟨h, hused, (hget _).trans (congrArg some hlookup)⟩

end HashedRegistry

end AtlasNative
