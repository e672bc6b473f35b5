import AtlasNative.MeterClasses

/-!
# The registry over shared objects

Here the meters are objects with an address, and the registry, its callers and the copy
that `measurements` takes hold shared pointers to them. A lookup always constructs an
object; the registry keeps it unless the id is taken.
-/

namespace AtlasNative

open ExactDouble
set_option autoImplicit false

structure SharedRegistry where
  freq_millis_ : ℤ
  /-- the clock -/
  wall : ℤ
  monotonic : ℤ
  /-- the objects that were constructed, by address -/
  objects : List AnyMeter
  meters_size : ℕ
  expired_meters : ℕ
  meters_ : AList fun _ : Id => ℕ
  /-- the copy that `measurements` takes -/
  all_meters : List ℕ
  /-- the pointers that callers hold -/
  handles : List ℕ

namespace SharedRegistry

def registered (reg : SharedRegistry) : List ℕ := reg.meters_.entries.map (·.2)

def use_count (reg : SharedRegistry) (a : ℕ) : ℕ :=
  (reg.registered ++ [reg.meters_size, reg.expired_meters] ++ reg.all_meters ++
    reg.handles).count a

def HasExpired (reg : SharedRegistry) (a : ℕ) : Bool :=
  reg.objects[a]?.any (AnyMeter.HasExpired reg.wall)

/-- Nobody has updated it for long, and only the map points to it. -/
def expires (reg : SharedRegistry) (a : ℕ) : Bool := reg.HasExpired a && reg.use_count a = 1

/-- A method of the object at an address. A pointer that was cast to a wrong class has no
defined behaviour; the object is then left as it is. -/
def call (reg : SharedRegistry) (a : ℕ) (op : MeterMethod) : SharedRegistry :=
  { reg with
    objects := reg.objects.modify a fun m => (m.apply reg.wall reg.monotonic op).getD m }

/-- Only inserts if the id does not exist, otherwise gives the existing meter. -/
def insert_if_needed (reg : SharedRegistry) (id : Id) (meter : ℕ) : SharedRegistry × ℕ :=
  match reg.meters_.lookup id with
  | some a => (reg, a)
  | none => ({ reg with meters_ := reg.meters_.insert id meter }, meter)

/-- The address of the new object, unless a meter whose class has the same name is registered. -/
def create_and_register_as_needed (reg : SharedRegistry) (new_meter : AnyMeter) :
    SharedRegistry × ℕ :=
  let new_meter_ptr := reg.objects.length
  let inserted := { reg with objects := reg.objects ++ [new_meter] }.insert_if_needed
    new_meter.GetId new_meter_ptr
  let meter_ptr := inserted.2
  if inserted.1.objects[meter_ptr]?.map AnyMeter.GetClass = some new_meter.GetClass then
    (inserted.1, meter_ptr)
  else (inserted.1, new_meter_ptr)

theorem create_and_register_of_none {reg : SharedRegistry} {m : AnyMeter}
    (h : reg.meters_.lookup m.GetId = none) :
    reg.create_and_register_as_needed m =
      ({ reg with
          objects := reg.objects ++ [m]
          meters_ := reg.meters_.insert m.GetId reg.objects.length },
        reg.objects.length) := by
  simp [create_and_register_as_needed, insert_if_needed, h]

theorem create_and_register_of_some {reg : SharedRegistry} {m m' : AnyMeter} {a : ℕ}
    (h : reg.meters_.lookup m.GetId = some a) (ha : reg.objects[a]? = some m') :
    reg.create_and_register_as_needed m =
      ({ reg with objects := reg.objects ++ [m] },
        if m'.GetClass = m.GetClass then a else reg.objects.length) := by
  have hlt : a < reg.objects.length := (List.getElem?_eq_some_iff.mp ha).1
  have hfound : (reg.objects ++ [m])[a]? = some m' := by
    rw [List.getElem?_append_left hlt, ha]
  simp only [create_and_register_as_needed, insert_if_needed, h, hfound, Option.map_some,
    Option.some.injEq]
  split <;> rfl

section Lookups
variable (reg : SharedRegistry) (id : Id)

def counter : SharedRegistry × ℕ :=
  reg.create_and_register_as_needed (.counter (.create id reg.freq_millis_ reg.wall))

def dcounter : SharedRegistry × ℕ :=
  reg.create_and_register_as_needed (.dcounter (.create id reg.freq_millis_ reg.wall))

def timer : SharedRegistry × ℕ :=
  reg.create_and_register_as_needed (.timer (.create id reg.freq_millis_ reg.wall))

def gauge : SharedRegistry × ℕ :=
  reg.create_and_register_as_needed (.gauge (.create id))

def max_gauge : SharedRegistry × ℕ :=
  reg.create_and_register_as_needed (.max_gauge (.create id reg.freq_millis_ reg.wall))

def long_task_timer : SharedRegistry × ℕ :=
  reg.create_and_register_as_needed (.long_task_timer (.create id))

def distribution_summary : SharedRegistry × ℕ :=
  reg.create_and_register_as_needed
    (.distribution_summary (.create id reg.freq_millis_ reg.wall))

def ddistribution_summary : SharedRegistry × ℕ :=
  reg.create_and_register_as_needed
    (.ddistribution_summary (.create id reg.freq_millis_ reg.wall))

end Lookups

/-- The lookup method of a kind. -/
def lookup (reg : SharedRegistry) (id : Id) : MeterKind → SharedRegistry × ℕ
  | .counter => reg.counter id
  | .dcounter => reg.dcounter id
  | .timer => reg.timer id
  | .gauge => reg.gauge id
  | .max_gauge => reg.max_gauge id
  | .long_task_timer => reg.long_task_timer id
  | .distribution_summary => reg.distribution_summary id
  | .ddistribution_summary => reg.ddistribution_summary id

theorem lookup_eq (reg : SharedRegistry) (id : Id) (kind : MeterKind) :
    reg.lookup id kind =
      reg.create_and_register_as_needed (.create id reg.freq_millis_ reg.wall kind) := by
  cases kind <;> rfl

/-- The copy of the meters, whose size goes to the registry's own gauge. -/
def meters (reg : SharedRegistry) : SharedRegistry :=
  { reg with all_meters := reg.registered }.call reg.meters_size
    (.Update (.fin reg.registered.length))

/-- The body of the loop in `measurements`; what has been measured so far comes second. -/
def measureOne (acc : SharedRegistry × Measurements) (a : ℕ) : SharedRegistry × Measurements :=
  match acc.1.objects[a]? with
  | none => acc
  | some m =>
    if m.HasExpired acc.1.wall then acc
    else
      ({ acc.1 with objects := acc.1.objects.modify a (AnyMeter.polled acc.1.wall) },
        acc.2 ++ m.Measure acc.1.wall acc.1.monotonic)

/-- The body of the loop in `expire_meters`; the number of erased meters comes second. -/
def expireOne (acc : SharedRegistry × ℤ) (it : Sigma fun _ : Id => ℕ) : SharedRegistry × ℤ :=
  if acc.1.expires it.2 then
    ({ acc.1 with meters_ := acc.1.meters_.erase it.1 }, acc.2 + 1)
  else acc

def expire_meters (reg : SharedRegistry) : SharedRegistry :=
  let expired := reg.meters_.entries.foldl expireOne (reg, 0)
  expired.1.call expired.1.expired_meters (.Add expired.2)

def measurements (reg : SharedRegistry) : SharedRegistry × Measurements :=
  let copied := reg.meters
  let measured := copied.all_meters.foldl measureOne (copied, [])
  -- the copy is destructed before the meters expire, which reduces the use counts
  ({ measured.1 with all_meters := [] }.expire_meters, measured.2)

def ownId (freq_millis : ℤ) (name : String) : Id :=
  ⟨intern_str name, .of [("id", secs_for_millis freq_millis)]⟩

def empty (freq_millis wall monotonic : ℤ) : SharedRegistry :=
  ⟨freq_millis, wall, monotonic, [], 0, 0, ∅, [], []⟩

/-- The constructor registers two meters of its own. -/
def create (freq_millis wall monotonic : ℤ) : SharedRegistry :=
  let size := (empty freq_millis wall monotonic).gauge (ownId freq_millis "atlas.numMeters")
  let expired := size.1.counter (ownId freq_millis "atlas.expiredMeters")
  { expired.1 with meters_size := size.2, expired_meters := expired.2 }

end SharedRegistry

/-- What the callers of a registry do, and the clock; a caller names a pointer it holds. -/
inductive RegistryCall where
  | lookup (kind : MeterKind) (id : Id)
  | drop (i : ℕ)
  | update (i : ℕ) (op : MeterMethod)
  | advance (wall monotonic : ℕ)
  | measurements
  | expire_meters

namespace SharedRegistry

def step (reg : SharedRegistry) : RegistryCall → SharedRegistry
  | .lookup kind id =>
    let found := reg.lookup id kind
    { found.1 with handles := found.1.handles ++ [found.2] }
  | .drop i => { reg with handles := reg.handles.eraseIdx i }
  | .update i op =>
    match reg.handles[i]? with
    | some a => reg.call a op
    | none => reg
  | .advance wall monotonic =>
    { reg with wall := reg.wall + wall, monotonic := reg.monotonic + monotonic }
  | .measurements => reg.measurements.1
  | .expire_meters => reg.expire_meters

def run (reg : SharedRegistry) (calls : List RegistryCall) : SharedRegistry :=
  calls.foldl step reg

theorem run_append (reg : SharedRegistry) (calls later : List RegistryCall) :
    reg.run (calls ++ later) = (reg.run calls).run later :=
  List.foldl_append

end SharedRegistry

end AtlasNative
