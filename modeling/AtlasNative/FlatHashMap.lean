import AtlasNative.Lib.RobinHood
import AtlasNative.Lib.HighestBit

/-!
# The hash table behind the maps

`ska::flat_hash_map`, under the registries, the tags, the groups of an expression and the
query index. A call may fail because there is no memory for a larger table; reading beyond the
last slot, or what an empty slot holds, would have no defined behaviour, and is a failure here
as well.
-/

namespace AtlasNative

open RobinHood
set_option autoImplicit false

structure FlatHashMap (K V : Type) where
  entries : List (Slot (K × V))
  num_slots_minus_one : ℕ
  /-- of the hash policy -/
  shift : ℕ
  max_lookups : ℕ
  num_elements : ℕ
  deriving DecidableEq

namespace FlatHashMap

/-! ### Sizes -/

/-- `value |= value >> 1`, ..., `value |= value >> 32` -/
def smear (value : BitVec 64) : BitVec 64 := [1, 2, 4, 8, 16, 32].foldl HighestBit.fill value

def log2Table : List ℕ :=
  [63, 0, 58, 1, 59, 47, 53, 2, 60, 39, 48, 27, 54, 33, 42, 3, 61, 51, 37, 40, 49, 18, 28, 20, 55,
    30, 34, 11, 43, 14, 22, 4, 62, 57, 46, 52, 38, 26, 32, 41, 50, 36, 17, 19, 29, 10, 13, 21, 56,
    45, 25, 31, 35, 16, 9, 12, 44, 24, 15, 8, 23, 7, 6, 5]

def log2 (value : ℕ) : ℕ :=
  let value := smear (BitVec.ofNat 64 value)
  log2Table.getD (((value - value >>> 1) * 0x07EDD5E59A4E28C2#64) >>> 58).toNat 0

def next_power_of_two (i : ℕ) : ℕ := (smear (BitVec.ofNat 64 i - 1#64) + 1#64).toNat

/-- `fibonacci_hash_policy` -/
def next_size_over (size : ℕ) : ℕ := max 2 (next_power_of_two size)

def index_for_hash (shift : ℕ) (hash : UInt64) : ℕ :=
  ((11400714819323198485#64 * hash.toBitVec) >>> shift).toNat

def compute_max_lookups (num_buckets : ℕ) : ℕ := max 4 (log2 num_buckets)

section Table
variable {K V : Type}

/-- The table of the default constructor. -/
def create : FlatHashMap K V := ⟨[.empty, .empty, .empty, .stop], 0, 63, 3, 0⟩

def ofBuckets (num_buckets : ℕ) : FlatHashMap K V where
  entries := emptyRow (K × V) num_buckets (compute_max_lookups num_buckets)
  num_slots_minus_one := num_buckets - 1
  shift := 64 - log2 num_buckets
  max_lookups := compute_max_lookups num_buckets
  num_elements := 0

variable (t : FlatHashMap K V)

def bucket_count : ℕ := if t.num_slots_minus_one ≠ 0 then t.num_slots_minus_one + 1 else 0

def size : ℕ := t.num_elements

def end_ : ℕ := t.num_slots_minus_one + t.max_lookups

def begin_ : Option ℕ := skip t.entries

/-- `++it` -/
def next (it : ℕ) : Option ℕ := (skip (t.entries.drop (it + 1))).map (it + 1 + ·)

/-- `*it` -/
def deref (it : ℕ) : Option (K × V) := t.entries[it]?.bind Slot.value

def erase (it : ℕ) : Option (FlatHashMap K V × ℕ) :=
  (closeGap (t.entries.drop it)).bind fun moved =>
    (skip moved).map fun n =>
      ({ t with entries := t.entries.take it ++ moved, num_elements := t.num_elements - 1 }, it + n)

/-- `for (const auto& entry : t)` from `it` on -/
def visitFrom : ℕ → ℕ → Option (List (K × V))
  | 0, _ => none
  | fuel + 1, it =>
    if it = t.end_ then some []
    else
      (t.deref it).bind fun entry =>
        (t.next it).bind fun it => (visitFrom fuel it).map (entry :: ·)

def visit : Option (List (K × V)) := t.begin_.bind (t.visitFrom t.entries.length)

def clear : FlatHashMap K V :=
  { t with
    entries := (t.entries.take t.end_).map (fun _ => .empty) ++ t.entries.drop t.end_
    num_elements := 0 }

variable [DecidableEq K] (hash : K → UInt64)

/-- The position of the element, and whether there is one with the key; else where the search
has ended, and how far that is. -/
def lookup (key : K) : Option (ℕ × ℕ × Bool) :=
  let index := index_for_hash t.shift (hash key)
  (search (fun kv => decide (kv.1 = key)) 0 (t.entries.drop index)).map fun r => (index + r.1, r)

def find (key : K) : Option ℕ :=
  (t.lookup hash key).map fun r => if r.2.2 then r.1 else t.end_

/-- What the iterator that `find` returns points to. -/
def get (key : K) : Option (Option V) :=
  (t.find hash key).map fun found => (t.deref found).map Prod.snd

def sameIn [DecidableEq V] : List (K × V) → Option Bool
  | [] => some true
  | value :: rest =>
    (t.find hash value.1).bind fun found =>
      if found = t.end_ then some false
      else
        (t.deref found).bind fun entry =>
          if value.2 ≠ entry.2 then some false else sameIn rest

/-- `t == rhs` -/
def equal [DecidableEq V] (rhs : FlatHashMap K V) : Option Bool :=
  if t.size ≠ rhs.size then some false else t.visit.bind (rhs.sameIn hash)

/-- Whether the element has got a place comes second; if it has not, the table must grow
before it can be put in. -/
def emplace_new_key (distance_from_desired current_entry : ℕ) (key : K) (v : V) :
    Option (FlatHashMap K V × Bool) :=
  if t.num_slots_minus_one = 0 ∨ distance_from_desired = t.max_lookups ∨
      t.num_slots_minus_one + 1 < 2 * (t.num_elements + 1) then some (t, false)
  else
    match t.entries.drop current_entry with
    | [] => none
    | entry :: rest =>
      if entry.distance < 0 then
        some ({ t with
          entries := t.entries.take current_entry ++ ⟨distance_from_desired, some (key, v)⟩ :: rest
          num_elements := t.num_elements + 1 }, true)
      else
        entry.value.bind fun displaced =>
          (displace t.max_lookups (entry.distance + 1) displaced rest).map fun r =>
            match r.2 with
            | none =>
              ({ t with
                entries := t.entries.take current_entry ++
                  ⟨distance_from_desired, some (key, v)⟩ :: r.1
                num_elements := t.num_elements + 1 }, true)
            | some to_insert =>
              ({ t with
                entries := t.entries.take current_entry ++
                  ⟨distance_from_desired, some to_insert⟩ :: r.1 }, false)

end Table

section Growth
variable {K V : Type} (memory : ℕ)

def rehash (insert : FlatHashMap K V → K × V → Option (FlatHashMap K V)) (num_buckets : ℕ)
    (t : FlatHashMap K V) : Option (FlatHashMap K V) :=
  let num_buckets := max num_buckets (2 * t.num_elements)
  if num_buckets = 0 then some { (create : FlatHashMap K V) with num_elements := t.num_elements }
  else
    let num_buckets := next_size_over num_buckets
    if num_buckets = t.bucket_count then some t
    else if memory < num_buckets then none
    else (contents t.entries.dropLast).foldlM insert (ofBuckets num_buckets)

def grow (insert : FlatHashMap K V → K × V → Option (FlatHashMap K V)) (t : FlatHashMap K V) :
    Option (FlatHashMap K V) :=
  rehash memory insert (max 4 (2 * t.bucket_count)) t

variable [DecidableEq K] (hash : K → UInt64)

/-- A table grows at most `growths` times within one call. -/
def emplaceWithin : ℕ → FlatHashMap K V → K → V → Option (FlatHashMap K V × ℕ × Bool)
  | growths, t, key, v =>
    (t.lookup hash key).bind fun r =>
      if r.2.2 then some (t, r.1, false)
      else
        (t.emplace_new_key r.2.1 r.1 key v).bind fun placed =>
          if placed.2 then some (placed.1, r.1, true)
          else
            match growths with
            | 0 => none
            | growths + 1 =>
              (grow memory (fun t kv => (emplaceWithin growths t kv.1 kv.2).map (·.1)) placed.1).bind
                fun larger => emplaceWithin growths larger key v

/-- The number of buckets, which doubles with every growth, has 64 bits. -/
def emplace (t : FlatHashMap K V) (key : K) (v : V) : Option (FlatHashMap K V × ℕ × Bool) :=
  emplaceWithin memory hash 64 t key v

def insertWithin (growths : ℕ) (t : FlatHashMap K V) (kv : K × V) : Option (FlatHashMap K V) :=
  (emplaceWithin memory hash growths t kv.1 kv.2).map (·.1)

def insert (t : FlatHashMap K V) (kv : K × V) : Option (FlatHashMap K V) :=
  insertWithin memory hash 64 t kv

/-- `t[key] = v` -/
def assign [Inhabited V] (t : FlatHashMap K V) (key : K) (v : V) : Option (FlatHashMap K V) :=
  (emplace memory hash t key Inhabited.default).map fun r =>
    { r.1 with
      entries := r.1.entries.modify r.2.1 fun s => { s with value := s.value.map fun kv => (kv.1, v) } }

/-- The copy constructor. -/
def copy (other : FlatHashMap K V) : Option (FlatHashMap K V) :=
  (rehash memory (insert memory hash) (min (2 * other.size) other.bucket_count) create).bind fun t =>
    other.visit.bind fun elements => elements.foldlM (insert memory hash) t

def eraseKey (t : FlatHashMap K V) (key : K) : Option (FlatHashMap K V) :=
  (t.find hash key).bind fun found =>
    if found = t.end_ then some t else (t.erase found).map (·.1)

end Growth

end FlatHashMap

end AtlasNative
