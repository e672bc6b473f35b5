import AtlasNative.FlatHashMap
import Mathlib.Data.List.Nodup

/-!
# What the calls of a hash table do to its elements

A table is sound when its elements stand in a line from their homes on, each key once, and at
most half of its buckets are in use. Every call keeps this, and what it does to the elements
does not depend on their hashes.
-/

namespace AtlasNative

open RobinHood
set_option autoImplicit false

namespace FlatHashMap

/-! ### Sizes -/

theorem log2_two_pow {b : ℕ} (h : b < 64) : log2 (2 ^ b) = b := by
  have hall : ∀ b < 64, log2 (2 ^ b) = b := by decide +kernel
  exact hall b h

theorem toNat_smear (x : BitVec 64) : (smear x).toNat = 2 ^ x.toNat.size - 1 :=
  (HighestBit.filled_one x).fill.fill.fill.fill.fill.fill.toNat_eq

theorem next_power_of_two_eq {n : ℕ} (hpos : 0 < n) (hn : n ≤ 2 ^ 63) :
    next_power_of_two n = 2 ^ (n - 1).size := by
  have hsub : (BitVec.ofNat 64 n - 1#64).toNat = n - 1 := by
    rw [BitVec.toNat_sub, BitVec.toNat_ofNat, BitVec.toNat_ofNat]
    omega
  have hsize : (n - 1).size ≤ 63 := Nat.size_le.mpr (by omega)
  have hpow : 2 ^ (n - 1).size ≤ 2 ^ 63 := Nat.pow_le_pow_right (by decide) hsize
  have hone : 0 < 2 ^ (n - 1).size := Nat.two_pow_pos _
  rw [next_power_of_two, BitVec.toNat_add, toNat_smear, hsub, BitVec.toNat_ofNat]
  omega

/-- The next size is the least power of two that leaves enough room. -/
theorem next_size_over_eq {n k : ℕ} (hpos : 0 < n) (hn : n ≤ 2 ^ k) (hk : 1 ≤ k) (hk' : k ≤ 63) :
    ∃ b, 1 ≤ b ∧ b ≤ k ∧ next_size_over n = 2 ^ b ∧ n ≤ 2 ^ b := by
  have hmax : n ≤ 2 ^ 63 := hn.trans (Nat.pow_le_pow_right (by decide) hk')
  have hsize : (n - 1).size ≤ k := Nat.size_le.mpr (by omega)
  have hlt : n - 1 < 2 ^ (n - 1).size := Nat.lt_size_self _
  rw [next_size_over, next_power_of_two_eq hpos hmax]
  rcases Nat.eq_zero_or_pos (n - 1).size with hzero | hbits
  · rw [hzero] at hlt ⊢
    exact ⟨1, le_rfl, hk, rfl, by omega⟩
  · refine ⟨(n - 1).size, hbits, hsize, ?_, by omega⟩
    exact max_eq_right (Nat.pow_le_pow_right (n := 2) (i := 1) (by decide) hbits)

theorem next_size_over_two_pow {b : ℕ} (hb : 1 ≤ b) (hb' : b ≤ 63) :
    next_size_over (2 ^ b) = 2 ^ b := by
  obtain ⟨b', -, hle, heq, hroom⟩ := next_size_over_eq (Nat.two_pow_pos b) le_rfl hb hb'
  have hge : b ≤ b' := (Nat.pow_le_pow_iff_right (by decide)).mp hroom
  rw [heq, le_antisymm hle hge]

theorem index_for_hash_lt {shift : ℕ} (h : shift ≤ 64) (hash : UInt64) :
    index_for_hash shift hash < 2 ^ (64 - shift) := by
  rw [index_for_hash, BitVec.toNat_ushiftRight, Nat.shiftRight_eq_div_pow]
  apply Nat.div_lt_of_lt_mul
  rw [← Nat.pow_add, Nat.add_sub_cancel' h]
  exact BitVec.isLt _

/-! ### Sound tables -/

section Calls
variable {K V : Type} (hash : K → UInt64)

def home (shift : ℕ) (kv : K × V) : ℕ := index_for_hash shift (hash kv.1)

/-- The buckets that the hash policy gives out. -/
def slots (t : FlatHashMap K V) : ℕ := 2 ^ (64 - t.shift)

/-- How far an element may come; the first table has no elements. -/
def reach (t : FlatHashMap K V) : ℕ := if t.num_slots_minus_one = 0 then 2 else t.max_lookups

def keys (t : FlatHashMap K V) : List K := (contents t.entries).map Prod.fst

structure Sound (t : FlatHashMap K V) : Prop where
  shift : 2 ≤ t.shift ∧ t.shift ≤ 63
  shape : t.num_slots_minus_one = 0 ∧ t.max_lookups = 3 ∧ t.shift = 63 ∨
    t.num_slots_minus_one + 1 = t.slots ∧ t.max_lookups = max 4 (64 - t.shift)
  line : Line (home hash t.shift) t.slots t.reach 0 0 t.entries
  nodup : t.keys.Nodup
  size : t.num_elements = (contents t.entries).length
  load : 2 * t.num_elements ≤ t.bucket_count

variable {hash} {t : FlatHashMap K V}

namespace Sound

theorem create : Sound hash (create : FlatHashMap K V) := by
  refine ⟨⟨show 2 ≤ 63 by decide, le_rfl⟩, .inl ⟨rfl, rfl, rfl⟩, ?_, List.nodup_nil, rfl, le_rfl⟩
  exact Line.emptyRow (show 0 < 2 + 2 by decide)

theorem ofBuckets {b : ℕ} (hb : 1 ≤ b) (hb' : b ≤ 62) :
    Sound hash (ofBuckets (2 ^ b) : FlatHashMap K V) := by
  have hlog : log2 (2 ^ b) = b := log2_two_pow (by omega)
  have hpos : 2 ^ 1 ≤ 2 ^ b := Nat.pow_le_pow_right (by decide) hb
  have hslots : (FlatHashMap.ofBuckets (2 ^ b) : FlatHashMap K V).slots = 2 ^ b := by
    rw [slots, FlatHashMap.ofBuckets, hlog, Nat.sub_sub_self (by omega)]
  have hreach : (FlatHashMap.ofBuckets (2 ^ b) : FlatHashMap K V).reach =
      compute_max_lookups (2 ^ b) := by
    rw [reach, FlatHashMap.ofBuckets]
    exact if_neg (by dsimp only; omega)
  have hcontents : contents (emptyRow (K × V) (2 ^ b) (compute_max_lookups (2 ^ b))) = [] := by
    rw [emptyRow, contents_append, contents_replicate_empty]
    rfl
  refine ⟨?_, .inr ⟨?_, ?_⟩, ?_, ?_, ?_, Nat.zero_le _⟩
  · dsimp only [FlatHashMap.ofBuckets]
    omega
  · rw [hslots, FlatHashMap.ofBuckets, Nat.sub_add_cancel (Nat.two_pow_pos b)]
  · rw [FlatHashMap.ofBuckets, compute_max_lookups, hlog, Nat.sub_sub_self (by omega)]
  · rw [hslots, hreach]
    exact Line.emptyRow (by omega)
  · rw [keys, FlatHashMap.ofBuckets, hcontents]
    exact List.nodup_nil
  · rw [FlatHashMap.ofBuckets, hcontents]
    rfl

theorem reach_pos (h : Sound hash t) : 0 < t.reach := by
  rw [reach]
  rcases h.shape with ⟨hzero, -⟩ | ⟨-, hmax⟩
  · rw [if_pos hzero]
    decide
  · rw [hmax]
    split <;> omega

theorem slots_ge (h : Sound hash t) : 2 ≤ t.slots :=
  Nat.pow_le_pow_right (n := 2) (i := 1) (by decide) (by have := h.shift; omega)

theorem num_slots_ne_zero (h : Sound hash t) (hslots : t.num_slots_minus_one + 1 = t.slots) :
    t.num_slots_minus_one ≠ 0 := by
  have hge := h.slots_ge
  omega

theorem end_eq (h : Sound hash t) : t.end_ + 1 = t.entries.length := by
  have hlength := h.line.length_eq
  rw [end_, ← Nat.zero_add t.entries.length, hlength, reach]
  rcases h.shape with ⟨hzero, hmax, hshift⟩ | ⟨hslots, -⟩
  · simp [slots, hzero, hmax, hshift]
  · rw [if_neg (h.num_slots_ne_zero hslots), ← hslots]
    omega

theorem home_lt (h : Sound hash t) (kv : K × V) : home hash t.shift kv < t.slots :=
  index_for_hash_lt (by have := h.shift; omega) _

theorem deref_end (h : Sound hash t) : t.deref t.end_ = none := by
  rw [deref, h.line.last h.end_eq]
  rfl

end Sound

/-! ### Search -/

theorem contents_take_drop {α : Type} (row : List (Slot α)) (n : ℕ) :
    contents (row.take n) ++ contents (row.drop n) = contents row := by
  rw [← contents_append, List.take_append_drop]

/-- Where a search for the key ends: there the rest of the line may be replaced. -/
structure Place (hash : K → UInt64) (t : FlatHashMap K V) (key : K) (pos distance : ℕ) : Prop where
  home : index_for_hash t.shift (hash key) + distance = pos
  lt : pos < t.entries.length
  near : distance ≤ t.reach
  passed : distance ≤ (contents (t.entries.take pos)).length
  line : ∃ bound : ℤ, distance ≤ bound ∧
    Line (FlatHashMap.home hash t.shift) t.slots t.reach pos bound (t.entries.drop pos) ∧
    ∀ row, Line (FlatHashMap.home hash t.shift) t.slots t.reach pos bound row →
      Line (FlatHashMap.home hash t.shift) t.slots t.reach 0 0 (t.entries.take pos ++ row)

theorem mem_contents_of_deref {pos : ℕ} {kv : K × V} (h : t.deref pos = some kv) :
    kv ∈ contents t.entries := by
  obtain ⟨s, hs, hkv⟩ := Option.bind_eq_some_iff.mp h
  exact List.mem_filterMap.mpr ⟨s, List.mem_of_getElem? hs, hkv⟩

section Search
variable [DecidableEq K]

theorem Sound.lookup (h : Sound hash t) (key : K) :
    ∃ pos distance met, t.lookup hash key = some (pos, distance, met) ∧
      Place hash t key pos distance ∧
      if met then ∃ v, t.deref pos = some (key, v)
      else key ∉ t.keys ∧ ∃ s, t.entries[pos]? = some s ∧ s.distance < distance := by
  have hlength := h.line.length_eq
  have hindex : index_for_hash t.shift (hash key) < t.slots :=
    index_for_hash_lt (by have := h.shift; omega) _
  generalize hat : index_for_hash t.shift (hash key) = index at hindex
  obtain ⟨bound, h0, -, hdrop, hreplace⟩ := h.line.split le_rfl (n := index) (by omega)
  rw [Nat.zero_add] at hdrop hreplace
  have hsame : ∀ kv : K × V, decide (kv.1 = key) = true → home hash t.shift kv = index := by
    intro kv hkv
    rw [home, of_decide_eq_true hkv, hat]
  obtain ⟨n, met, bound', hsearch, hfound, hnear, hle, hline, hreplace'⟩ :=
    hdrop.search (c := 0) hsame hindex h.reach_pos (by omega) le_rfl h0 (by omega)
  rw [List.drop_drop] at hline
  have htake : t.entries.take index ++ (t.entries.drop index).take n =
      t.entries.take (index + n) := List.take_add.symm
  refine ⟨index + n, n, met, ?_, ⟨?_, ?_, by omega, ?_, bound', ?_, hline, ?_⟩, ?_⟩
  · rw [FlatHashMap.lookup, hat, hsearch]
    rfl
  · rw [hat]
  · apply Nat.lt_of_not_le
    intro hge
    exact hline.ne_nil (List.drop_eq_nil_of_le hge)
  · rw [← htake, contents_append, List.length_append, hfound.passed]
    omega
  · omega
  · intro row hrow
    rw [← htake, List.append_assoc]
    exact hreplace _ (hreplace' row hrow)
  · have hhere := hfound.here
    rw [List.getElem?_drop] at hhere
    cases met with
    | true =>
      obtain ⟨kv, hkv, heq⟩ := hhere
      refine ⟨kv.2, ?_⟩
      rw [deref, hkv, ← of_decide_eq_true heq]
    | false =>
      obtain ⟨hnone, s, hs, hlt⟩ := hhere
      refine ⟨?_, s, hs, by omega⟩
      intro hkey
      obtain ⟨kv, hkv, rfl⟩ := List.mem_map.mp hkey
      rw [← contents_take_drop t.entries index] at hkv
      rcases List.mem_append.mp hkv with hkv | hkv
      · have hlt := h.line.home_lt hkv
        rw [home, hat] at hlt
        omega
      · have hnot := hnone kv hkv
        simp at hnot

theorem Sound.find (h : Sound hash t) (key : K) :
    (∃ pos v, t.find hash key = some pos ∧ t.deref pos = some (key, v)) ∨
      (t.find hash key = some t.end_ ∧ key ∉ t.keys) := by
  obtain ⟨pos, distance, met, hlookup, -, hhere⟩ := h.lookup key
  rw [FlatHashMap.find, hlookup]
  cases met with
  | true =>
    obtain ⟨v, hv⟩ := hhere
    exact .inl ⟨pos, v, rfl, hv⟩
  | false => exact .inr ⟨rfl, hhere.1⟩

end Search

/-! ### Insertion -/

theorem Sound.of_line (h : Sound hash t) {row : List (Slot (K × V))} {l : List (K × V)}
    (hline : Line (home hash t.shift) t.slots t.reach 0 0 row) (hperm : (contents row).Perm l)
    (hnodup : (l.map Prod.fst).Nodup) (hload : 2 * l.length ≤ t.bucket_count) :
    Sound hash { t with entries := row, num_elements := l.length } where
  shift := h.shift
  shape := h.shape
  line := hline
  nodup := (hperm.map Prod.fst).nodup_iff.mpr hnodup
  size := hperm.length_eq.symm
  load := hload

theorem getElem?_take_append {α : Type} {row : List α} {pos : ℕ} (h : pos < row.length) (s : α)
    (rest : List α) : (row.take pos ++ s :: rest)[pos]? = some s := by
  have hlength : (row.take pos).length = pos := List.length_take_of_le h.le
  rw [List.getElem?_append_right hlength.le, hlength, Nat.sub_self]
  rfl

/-- What a larger table is made of. -/
structure Holds (t : FlatHashMap K V) (l : List (K × V)) : Prop where
  elements : (contents t.entries.dropLast).Perm l
  nodup : (l.map Prod.fst).Nodup
  size : t.num_elements = l.length
  load : 2 * t.num_elements ≤ t.bucket_count
  shift : 2 ≤ t.shift ∧ t.shift ≤ 63
  count : t.bucket_count = 0 ∧ t.shift = 63 ∨ t.bucket_count = 2 ^ (64 - t.shift)

theorem Sound.count (h : Sound hash t) :
    t.bucket_count = 0 ∧ t.shift = 63 ∨ t.bucket_count = 2 ^ (64 - t.shift) := by
  rcases h.shape with ⟨hzero, -, hshift⟩ | ⟨hslots, -⟩
  · exact .inl ⟨by rw [bucket_count, if_neg (by simpa using hzero)], hshift⟩
  · right
    rw [bucket_count, if_pos (h.num_slots_ne_zero hslots), hslots, slots]

theorem Sound.holds (h : Sound hash t) : t.Holds (contents t.entries) where
  elements := by rw [h.line.contents_dropLast]
  nodup := h.nodup
  size := h.size
  load := h.load
  shift := h.shift
  count := h.count

/-- A table with few elements for its size has room at a place. -/
theorem Sound.room_of_few (h : Sound hash t) {key : K} {pos distance : ℕ}
    (hplace : Place hash t key pos distance) (hfew : t.num_elements + 2 ≤ 64 - t.shift) :
    ¬ (t.num_slots_minus_one = 0 ∨ distance = t.max_lookups ∨
      t.num_slots_minus_one + 1 < 2 * (t.num_elements + 1)) := by
  have hpassed : distance ≤ t.num_elements := by
    have hall := congrArg List.length (contents_take_drop t.entries pos)
    rw [List.length_append, ← h.size] at hall
    have := hplace.passed
    omega
  rcases h.shape with ⟨-, -, hshift⟩ | ⟨hslots, hmax⟩
  · omega
  · have hne := h.num_slots_ne_zero hslots
    have hpow : 2 ^ (t.num_elements + 2) ≤ t.slots := Nat.pow_le_pow_right (by decide) hfew
    have hself : t.num_elements < 2 ^ t.num_elements := Nat.lt_two_pow_self
    rw [Nat.pow_add] at hpow
    omega

/-- The element stands at its place, and the rest of the line has changed. -/
theorem Sound.put (h : Sound hash t) {key : K} {pos distance : ℕ}
    (hplace : Place hash t key pos distance) (hkey : key ∉ t.keys)
    (hne : t.num_slots_minus_one ≠ 0) (hload : 2 * (t.num_elements + 1) ≤ t.num_slots_minus_one + 1)
    (hnear : distance < t.reach) (v : V) (row : List (Slot (K × V))) (b : ℤ)
    (hb : b ≤ distance + 1) (hrow : Line (home hash t.shift) t.slots t.reach (pos + 1) b row)
    (hperm : (contents row).Perm (contents (t.entries.drop pos))) :
    Sound hash { t with
      entries := t.entries.take pos ++ ⟨distance, some (key, v)⟩ :: row
      num_elements := t.num_elements + 1 } ∧
    (contents (t.entries.take pos ++ ⟨distance, some (key, v)⟩ :: row)).Perm
      ((key, v) :: contents t.entries) := by
  have hall : (contents (t.entries.take pos ++ ⟨distance, some (key, v)⟩ :: row)).Perm
      ((key, v) :: contents t.entries) := by
    rw [contents_append, contents_some_cons, ← contents_take_drop t.entries pos]
    exact List.perm_middle.trans ((hperm.append_left _).cons _)
  have hcount : t.bucket_count = t.num_slots_minus_one + 1 := if_pos hne
  have hsize : t.num_elements + 1 = ((key, v) :: contents t.entries).length := by
    rw [h.size, List.length_cons]
  have hnew : (((key, v) :: contents t.entries).map Prod.fst).Nodup :=
    List.nodup_cons.mpr ⟨hkey, h.nodup⟩
  have hhome := hplace.home
  obtain ⟨bound, hbound, -, hreplace⟩ := hplace.line
  refine ⟨?_, hall⟩
  rw [hsize]
  apply h.of_line (hreplace _ _) hall hnew
  · rw [← hsize, hcount]
    exact hload
  · refine .full (by omega) hbound (by omega) ?_ (h.home_lt (key, v)) (hrow.of_le hb)
    show (index_for_hash t.shift (hash key) : ℤ) + distance = pos
    omega

/-- An element with a new key is put where the search for it has ended, unless the table has to
grow first. A table with few elements does not grow. -/
theorem Sound.emplace_new_key (h : Sound hash t) {key : K} {pos distance : ℕ}
    (hplace : Place hash t key pos distance) (hkey : key ∉ t.keys) {s : Slot (K × V)}
    (hs : t.entries[pos]? = some s) (hlt : s.distance < distance) (v : V) :
    ∃ t' placed, t.emplace_new_key distance pos key v = some (t', placed) ∧ t'.shift = t.shift ∧
      (if placed then Sound hash t' ∧ (contents t'.entries).Perm ((key, v) :: contents t.entries) ∧
          t'.deref pos = some (key, v)
        else t'.Holds (contents t.entries)) ∧
      (t.num_elements + 2 ≤ 64 - t.shift → placed = true) := by
  unfold FlatHashMap.emplace_new_key
  by_cases hfull : t.num_slots_minus_one = 0 ∨ distance = t.max_lookups ∨
      t.num_slots_minus_one + 1 < 2 * (t.num_elements + 1)
  · rw [if_pos hfull]
    exact ⟨t, false, rfl, rfl, h.holds, fun hfew => absurd hfull (h.room_of_few hplace hfew)⟩
  · rw [if_neg hfull]
    obtain ⟨hne, hfar, hload⟩ : t.num_slots_minus_one ≠ 0 ∧ distance ≠ t.max_lookups ∧
        2 * (t.num_elements + 1) ≤ t.num_slots_minus_one + 1 := by omega
    have hreach : t.reach = t.max_lookups := if_neg hne
    have hnear : distance < t.reach := by
      have := hplace.near
      omega
    have hhome := hplace.home
    have hslots := h.home_lt (key, v)
    obtain ⟨bound, hbound, hline, -⟩ := hplace.line
    obtain ⟨rest, hdrop⟩ : ∃ rest, t.entries.drop pos = s :: rest := by
      obtain ⟨hlt', hs'⟩ := List.getElem?_eq_some_iff.mp hs
      exact ⟨_, by rw [List.drop_eq_getElem_cons hlt', hs']⟩
    have hput := h.put hplace hkey hne hload hnear v
    have hcontents := contents_take_drop t.entries pos
    rw [hdrop] at hline hcontents hput ⊢
    cases hline with
    | stop hend =>
      rw [home] at hslots
      dsimp only at hslots
      omega
    | @empty _ _ _ hrow =>
      obtain ⟨hsound, hperm⟩ := hput _ _ (by omega) hrow (by simp)
      exact ⟨_, true, rfl, rfl, ⟨hsound, hperm, by
        rw [deref, getElem?_take_append hplace.lt]
        rfl⟩, fun _ => rfl⟩
    | @full _ _ d displaced _ hd hle hdr hhome' hslots' hrow =>
      dsimp only at hlt
      obtain ⟨row, left, hdisplace, hline, hperm, hnone⟩ :=
        hrow.displace (d := d + 1) (a := displaced) (by omega) le_rfl (by omega) (by omega) hslots'
      dsimp only
      rw [hreach] at hdisplace
      rw [if_neg (by omega), Option.bind_some, hdisplace]
      cases left with
      | none =>
        rw [Option.toList_none, List.append_nil] at hperm
        obtain ⟨hsound, hall⟩ := hput _ _ (by omega) hline hperm
        exact ⟨_, true, rfl, rfl, ⟨hsound, hall, by
          rw [deref, getElem?_take_append hplace.lt]
          rfl⟩, fun _ => rfl⟩
      | some to_insert =>
        refine ⟨_, false, rfl, rfl, ?_, ?_⟩
        · refine ⟨?_, h.nodup, h.size, h.load, h.shift, h.count⟩
          dsimp only
          rw [List.dropLast_append_of_ne_nil (by simp), List.dropLast_cons_of_ne_nil hline.ne_nil,
            contents_append, contents_some_cons, hline.contents_dropLast, ← hcontents]
          exact ((List.perm_append_singleton _ _).symm.trans hperm).append_left _
        · intro hfew
          have hall := congrArg List.length hcontents
          rw [List.length_append, contents_some_cons, List.length_cons, ← h.size] at hall
          have hpassed := hplace.passed
          have hmax : 64 - t.shift ≤ t.max_lookups := by
            rcases h.shape with ⟨hzero, -⟩ | ⟨-, hmax⟩
            · exact absurd hzero hne
            · rw [hmax]
              exact le_max_right _ _
          have hleft := hnone ((contents (t.entries.take pos)).length + 1) (by omega) (by omega)
          cases hleft

/-! ### Growth -/

section Growth
variable (hash) in
/-- The function puts elements with new keys into tables. -/
def Inserts (insert : FlatHashMap K V → K × V → Option (FlatHashMap K V)) : Prop :=
  ∀ t kv t', Sound hash t → kv.1 ∉ t.keys → insert t kv = some t' →
    Sound hash t' ∧ (contents t'.entries).Perm (kv :: contents t.entries) ∧ t'.shift ≤ t.shift

theorem perm_keys {t' : FlatHashMap K V} {l : List (K × V)} (h : (contents t'.entries).Perm l)
    (key : K) : key ∈ t'.keys ↔ key ∈ l.map Prod.fst := (h.map Prod.fst).mem_iff

theorem Sound.insertAll {insert : FlatHashMap K V → K × V → Option (FlatHashMap K V)}
    (hinsert : Inserts hash insert) (h : Sound hash t) {l : List (K × V)}
    (hnodup : ((contents t.entries ++ l).map Prod.fst).Nodup) {t' : FlatHashMap K V}
    (hfold : l.foldlM insert t = some t') :
    Sound hash t' ∧ (contents t'.entries).Perm (contents t.entries ++ l) ∧ t'.shift ≤ t.shift := by
  induction l generalizing t with
  | nil =>
    cases hfold
    exact ⟨h, by rw [List.append_nil], le_rfl⟩
  | cons kv l ih =>
    rw [List.foldlM_cons, Option.bind_eq_bind, Option.bind_eq_some_iff] at hfold
    obtain ⟨t₁, hone, hrest⟩ := hfold
    have hmiddle : (contents t.entries ++ kv :: l).Perm (kv :: contents t.entries ++ l) :=
      List.perm_middle
    have hnodup₁ := (hmiddle.map Prod.fst).nodup_iff.mp hnodup
    have hnew : kv.1 ∉ t.keys := by
      intro hkey
      rw [List.cons_append, List.map_cons, List.map_append] at hnodup₁
      exact (List.nodup_cons.mp hnodup₁).1 (List.mem_append_left _ hkey)
    obtain ⟨hsound, hperm, hshift⟩ := hinsert t kv t₁ h hnew hone
    have hall := hperm.append_right l
    obtain ⟨hsound', hperm', hshift'⟩ := ih hsound
      ((hall.map Prod.fst).nodup_iff.mpr hnodup₁) hrest
    exact ⟨hsound', hperm'.trans (hall.trans hmiddle.symm), hshift'.trans hshift⟩

variable {memory : ℕ}

/-- A growing table gets twice as many buckets, if there is memory. -/
theorem Holds.grow_eq {l : List (K × V)} (h : t.Holds l)
    (insert : FlatHashMap K V → K × V → Option (FlatHashMap K V)) :
    grow memory insert t =
      if memory < 2 ^ (64 - t.shift + 1) then none
      else (contents t.entries.dropLast).foldlM insert (ofBuckets (2 ^ (64 - t.shift + 1))) := by
  have hshift := h.shift
  have hdouble : max (max 4 (2 * t.bucket_count)) (2 * t.num_elements) =
      2 ^ (64 - t.shift + 1) := by
    have hload := h.load
    have hpow : 2 ^ (64 - t.shift + 1) = 2 * 2 ^ (64 - t.shift) := Nat.pow_succ'
    have hone : 2 ^ 1 ≤ 2 ^ (64 - t.shift) := Nat.pow_le_pow_right (by decide) (by omega)
    rcases h.count with ⟨hzero, hfirst⟩ | hcount
    · rw [hzero] at hload
      rw [hzero, hfirst, show t.num_elements = 0 by omega]
      rfl
    · omega
  have hsize := next_size_over_two_pow (b := 64 - t.shift + 1) (by omega) (by omega)
  have hne : 2 ^ (64 - t.shift + 1) ≠ t.bucket_count := by
    have hpow : 2 ^ (64 - t.shift + 1) = 2 * 2 ^ (64 - t.shift) := Nat.pow_succ'
    have hone : 0 < 2 ^ (64 - t.shift) := Nat.two_pow_pos _
    rcases h.count with ⟨hzero, -⟩ | hcount <;> omega
  rw [grow, rehash]
  dsimp only
  rw [hdouble, if_neg (Nat.two_pow_pos _).ne', hsize, if_neg hne]

theorem contents_ofBuckets (num_buckets : ℕ) :
    contents (ofBuckets num_buckets : FlatHashMap K V).entries = [] := by
  rw [ofBuckets, emptyRow, contents_append, contents_replicate_empty]
  rfl

theorem shift_ofBuckets {b : ℕ} (hb : b ≤ 63) :
    (ofBuckets (2 ^ b) : FlatHashMap K V).shift = 64 - b := by
  rw [ofBuckets, log2_two_pow (by omega)]

theorem Holds.grow (hmemory : memory ≤ 2 ^ 62) {l : List (K × V)} (h : t.Holds l)
    {insert : FlatHashMap K V → K × V → Option (FlatHashMap K V)} (hinsert : Inserts hash insert)
    {t' : FlatHashMap K V} (hgrow : grow memory insert t = some t') :
    Sound hash t' ∧ (contents t'.entries).Perm l ∧ t'.shift < t.shift := by
  have hshift := h.shift
  rw [h.grow_eq, ite_eq_iff] at hgrow
  obtain ⟨-, hnone⟩ | ⟨hroom, hfold⟩ := hgrow
  · cases hnone
  have hbits : 64 - t.shift + 1 ≤ 62 :=
    (Nat.pow_le_pow_iff_right (by decide)).mp ((Nat.le_of_not_lt hroom).trans hmemory)
  have hempty := contents_ofBuckets (K := K) (V := V) (2 ^ (64 - t.shift + 1))
  have hnodup : ((contents t.entries.dropLast).map Prod.fst).Nodup :=
    (h.elements.map Prod.fst).nodup_iff.mpr h.nodup
  have hofBuckets : Sound hash (FlatHashMap.ofBuckets (2 ^ (64 - t.shift + 1)) :
      FlatHashMap K V) := .ofBuckets (by omega) hbits
  obtain ⟨hsound, hperm, hle⟩ :=
    hofBuckets.insertAll hinsert (by rwa [hempty, List.nil_append]) hfold
  rw [hempty, List.nil_append] at hperm
  rw [shift_ofBuckets (by omega)] at hle
  exact ⟨hsound, hperm.trans h.elements, by omega⟩

variable [DecidableEq K]

variable (memory) in
/-- A call finds the key, or puts the element in, or first lets the table grow. -/
theorem Sound.emplaceWithin_cases (h : Sound hash t) (key : K) (v : V) :
    (∃ pos old, t.deref pos = some (key, old) ∧
      ∀ growths, emplaceWithin memory hash growths t key v = some (t, pos, false)) ∨
    (key ∉ t.keys ∧ ∃ t' pos, Sound hash t' ∧ t'.shift = t.shift ∧
      (contents t'.entries).Perm ((key, v) :: contents t.entries) ∧ t'.deref pos = some (key, v) ∧
      ∀ growths, emplaceWithin memory hash growths t key v = some (t', pos, true)) ∨
    (key ∉ t.keys ∧ 64 - t.shift < t.num_elements + 2 ∧ ∃ t', t'.Holds (contents t.entries) ∧
      t'.shift = t.shift ∧ emplaceWithin memory hash 0 t key v = none ∧
      ∀ growths, emplaceWithin memory hash (growths + 1) t key v =
        (FlatHashMap.grow memory (insertWithin memory hash growths) t').bind fun larger =>
          emplaceWithin memory hash growths larger key v) := by
  obtain ⟨pos, distance, met, hlookup, hplace, hhere⟩ := h.lookup key
  cases met with
  | true =>
    obtain ⟨old, hold⟩ := hhere
    refine .inl ⟨pos, old, hold, fun growths => ?_⟩
    cases growths <;> rw [emplaceWithin, hlookup, Option.bind_some] <;> rfl
  | false =>
    obtain ⟨hkey, s, hs, hlt⟩ := hhere
    obtain ⟨t', placed, hnew, hshift, hresult, hroom⟩ := h.emplace_new_key hplace hkey hs hlt v
    have hzero : emplaceWithin memory hash 0 t key v =
        if placed then some (t', pos, true) else none := by
      rw [emplaceWithin, hlookup, Option.bind_some, if_neg (by simp), hnew, Option.bind_some]
    have hsucc : ∀ growths, emplaceWithin memory hash (growths + 1) t key v =
        if placed then some (t', pos, true)
        else
          (FlatHashMap.grow memory (insertWithin memory hash growths) t').bind fun larger =>
            emplaceWithin memory hash growths larger key v := by
      intro growths
      rw [emplaceWithin, hlookup, Option.bind_some, if_neg (by simp), hnew, Option.bind_some]
      rfl
    cases placed with
    | true =>
      refine .inr (.inl ⟨hkey, t', pos, hresult.1, hshift, hresult.2.1, hresult.2.2, ?_⟩)
      intro growths
      cases growths with
      | zero => rw [hzero, if_pos rfl]
      | succ growths => rw [hsucc, if_pos rfl]
    | false =>
      refine .inr (.inr ⟨hkey, ?_, t', hresult, hshift, ?_, ?_⟩)
      · apply Nat.lt_of_not_le
        intro hfew
        cases hroom hfew
      · rw [hzero, if_neg (by simp)]
      · intro growths
        rw [hsucc, if_neg (by simp)]

omit [DecidableEq K] in
theorem not_mem_keys_of_deref {key : K} (hkey : key ∉ t.keys) {pos : ℕ} {v : V} :
    t.deref pos ≠ some (key, v) := by
  intro hpos
  exact hkey (List.mem_map.mpr ⟨_, mem_contents_of_deref hpos, rfl⟩)

/-- A call that returns has found the key, or has put the element in. -/
theorem Sound.emplaceWithin (hmemory : memory ≤ 2 ^ 62) (growths : ℕ) {key : K} {v : V} {pos : ℕ}
    {t' : FlatHashMap K V} {inserted : Bool} (h : Sound hash t)
    (hcall : FlatHashMap.emplaceWithin memory hash growths t key v = some (t', pos, inserted)) :
    Sound hash t' ∧ t'.shift ≤ t.shift ∧
      if inserted then key ∉ t.keys ∧ t'.deref pos = some (key, v) ∧
        (contents t'.entries).Perm ((key, v) :: contents t.entries)
      else t' = t ∧ ∃ old, t.deref pos = some (key, old) := by
  induction growths generalizing t t' key v pos inserted with
  | zero =>
    rcases h.emplaceWithin_cases memory key v with
      ⟨at_, old, hold, heq⟩ | ⟨hkey, t₁, at_, hsound, hshift, hperm, hat, heq⟩ |
        ⟨-, -, t₁, -, -, hnone, -⟩
    · cases (heq 0).symm.trans hcall
      exact ⟨h, le_rfl, rfl, old, hold⟩
    · cases (heq 0).symm.trans hcall
      exact ⟨hsound, hshift.le, hkey, hat, hperm⟩
    · cases hnone.symm.trans hcall
  | succ growths ih =>
    rcases h.emplaceWithin_cases memory key v with
      ⟨at_, old, hold, heq⟩ | ⟨hkey, t₁, at_, hsound, hshift, hperm, hat, heq⟩ |
        ⟨hkey, -, t₁, hholds, hshift, -, heq⟩
    · cases (heq (growths + 1)).symm.trans hcall
      exact ⟨h, le_rfl, rfl, old, hold⟩
    · cases (heq (growths + 1)).symm.trans hcall
      exact ⟨hsound, hshift.le, hkey, hat, hperm⟩
    · rw [heq, Option.bind_eq_some_iff] at hcall
      obtain ⟨larger, hgrow, hcall⟩ := hcall
      have hinserts : Inserts hash (insertWithin (V := V) memory hash growths) := by
        intro t kv t' ht hfresh hone
        obtain ⟨⟨t₂, pos₂, inserted₂⟩, hcall₂, rfl⟩ := Option.map_eq_some_iff.mp hone
        obtain ⟨hsound, hle, hdone⟩ := ih ht hcall₂
        cases inserted₂ with
        | true => exact ⟨hsound, hdone.2.2, hle⟩
        | false =>
          obtain ⟨-, old, hold⟩ := hdone
          exact absurd hold (not_mem_keys_of_deref hfresh)
      obtain ⟨hlarger, hperm, hless⟩ := hholds.grow hmemory hinserts hgrow
      have hkey' : key ∉ larger.keys := by
        rw [perm_keys hperm]
        exact hkey
      obtain ⟨hsound, hle, hdone⟩ := ih hlarger hcall
      refine ⟨hsound, by omega, ?_⟩
      cases inserted with
      | true => exact ⟨hkey, hdone.2.1, hdone.2.2.trans (hperm.cons _)⟩
      | false =>
        obtain ⟨-, old, hold⟩ := hdone
        exact absurd hold (not_mem_keys_of_deref hkey')

theorem Sound.inserts (hmemory : memory ≤ 2 ^ 62) (growths : ℕ) :
    Inserts hash (insertWithin (V := V) memory hash growths) := by
  intro t kv t' h hfresh hone
  obtain ⟨⟨t₁, pos, inserted⟩, hcall, rfl⟩ := Option.map_eq_some_iff.mp hone
  obtain ⟨hsound, hle, hdone⟩ := h.emplaceWithin hmemory growths hcall
  cases inserted with
  | true => exact ⟨hsound, hdone.2.2, hle⟩
  | false =>
    obtain ⟨-, old, hold⟩ := hdone
    exact absurd hold (not_mem_keys_of_deref hfresh)

/-- If calls on tables with few elements return, so do many calls. -/
theorem Sound.insertAll_isSome (bits growths : ℕ) (hmemory : memory ≤ 2 ^ 62)
    (hcalls : ∀ {t : FlatHashMap K V}, Sound hash t → t.num_elements + 2 ≤ bits →
      bits ≤ 64 - t.shift + growths → ∀ key v, ∃ t' pos inserted,
        FlatHashMap.emplaceWithin memory hash growths t key v = some (t', pos, inserted) ∧
          64 - t'.shift ≤ max (64 - t.shift) bits)
    {l : List (K × V)} (h : Sound hash t) (hnodup : ((contents t.entries ++ l).map Prod.fst).Nodup)
    (hfew : (contents t.entries ++ l).length + 1 ≤ bits)
    (hgrowths : bits ≤ 64 - t.shift + growths) (hle : 64 - t.shift ≤ bits) :
    ∃ t', l.foldlM (insertWithin memory hash growths) t = some t' ∧ 64 - t'.shift ≤ bits := by
  induction l generalizing t with
  | nil => exact ⟨t, rfl, hle⟩
  | cons kv l ih =>
    rw [List.length_append, List.length_cons, ← h.size] at hfew
    obtain ⟨t₁, pos, inserted, hcall, hle₁⟩ := hcalls h (by omega) hgrowths kv.1 kv.2
    have hone : insertWithin memory hash growths t kv = some t₁ := by
      rw [insertWithin, hcall]
      rfl
    have hmiddle : (contents t.entries ++ kv :: l).Perm (kv :: contents t.entries ++ l) :=
      List.perm_middle
    have hnodup' := (hmiddle.map Prod.fst).nodup_iff.mp hnodup
    have hnew : kv.1 ∉ t.keys := by
      intro hkey
      rw [List.cons_append, List.map_cons, List.map_append] at hnodup'
      exact (List.nodup_cons.mp hnodup').1 (List.mem_append_left _ hkey)
    obtain ⟨h₁, hperm, hshift⟩ := Sound.inserts hmemory growths t kv t₁ h hnew hone
    have happend := hperm.append_right l
    obtain ⟨t', hfold, hle'⟩ := ih h₁ ((happend.map Prod.fst).nodup_iff.mpr hnodup')
      (by
        rw [happend.length_eq, List.length_append, List.length_cons, ← h.size]
        omega)
      (by omega) (by omega)
    refine ⟨t', ?_, hle'⟩
    rw [List.foldlM_cons, hone]
    exact hfold

/-- Where the bits of the table and of its growths exceed the number of elements, and there is
memory for as many buckets, calls return. -/
theorem Sound.emplaceWithin_isSome {bits : ℕ} (hmemory : memory ≤ 2 ^ 62)
    (hroom : 2 ^ bits ≤ memory) (growths : ℕ) (h : Sound hash t) (hfew : t.num_elements + 2 ≤ bits)
    (hgrowths : bits ≤ 64 - t.shift + growths) (key : K) (v : V) :
    ∃ t' pos inserted, FlatHashMap.emplaceWithin memory hash growths t key v =
      some (t', pos, inserted) ∧ 64 - t'.shift ≤ max (64 - t.shift) bits := by
  induction growths generalizing t key v with
  | zero =>
    rcases h.emplaceWithin_cases memory key v with
      ⟨pos, old, -, heq⟩ | ⟨-, t₁, pos, -, hshift, -, -, heq⟩ | ⟨-, hmany, -⟩
    · exact ⟨t, pos, false, heq 0, le_max_left _ _⟩
    · exact ⟨t₁, pos, true, heq 0, by rw [hshift]; exact le_max_left _ _⟩
    · omega
  | succ growths ih =>
    rcases h.emplaceWithin_cases memory key v with
      ⟨pos, old, -, heq⟩ | ⟨-, t₁, pos, -, hshift, -, -, heq⟩ |
        ⟨-, hmany, t₁, hholds, hshift, -, heq⟩
    · exact ⟨t, pos, false, heq _, le_max_left _ _⟩
    · exact ⟨t₁, pos, true, heq _, by rw [hshift]; exact le_max_left _ _⟩
    · have hbounds := h.shift
      have hbits : bits ≤ 62 :=
        (Nat.pow_le_pow_iff_right (by decide)).mp (hroom.trans hmemory)
      have hpow : 2 ^ (64 - t.shift + 1) ≤ memory :=
        (Nat.pow_le_pow_right (by decide) (by omega)).trans hroom
      have hempty := contents_ofBuckets (K := K) (V := V) (2 ^ (64 - t.shift + 1))
      have hofBits := shift_ofBuckets (K := K) (V := V) (b := 64 - t.shift + 1) (by omega)
      have hofBuckets : Sound hash (FlatHashMap.ofBuckets (2 ^ (64 - t.shift + 1)) :
          FlatHashMap K V) := Sound.ofBuckets (by omega) (by omega)
      obtain ⟨larger, hfold, hlarger⟩ := hofBuckets.insertAll_isSome bits growths
        (l := contents t₁.entries.dropLast) hmemory ih
        (by
          rw [hempty, List.nil_append]
          exact (hholds.elements.map Prod.fst).nodup_iff.mpr hholds.nodup)
        (by
          rw [hempty, List.nil_append, hholds.elements.length_eq, ← h.size]
          omega)
        (by omega) (by omega)
      have hgrow : FlatHashMap.grow memory (insertWithin memory hash growths) t₁ = some larger := by
        rw [hholds.grow_eq, hshift, if_neg (by omega), hfold]
      obtain ⟨hsound, hperm, hless⟩ := hholds.grow hmemory (Sound.inserts hmemory growths) hgrow
      have hsize : larger.num_elements = t.num_elements := by
        rw [hsound.size, hperm.length_eq, h.size]
      obtain ⟨t₄, pos, inserted, hcall, hle⟩ := ih hsound (by omega) (by omega) key v
      refine ⟨t₄, pos, inserted, ?_, by omega⟩
      rw [heq, hgrow]
      exact hcall

end Growth

/-! ### Elements that stay where they are -/

section Places
variable {room : ℕ}

theorem Sound.value_of_empty (h : Sound hash t) {pos : ℕ} {s : Slot (K × V)}
    (hs : t.entries[pos]? = some s) (hempty : s.distance < 0) : s.value = none := by
  obtain ⟨hlt, hget⟩ := List.getElem?_eq_some_iff.mp hs
  obtain ⟨bound, -, -, hline, -⟩ := h.line.split le_rfl hlt
  rw [List.drop_eq_getElem_cons hlt, hget] at hline
  generalize t.entries.drop (pos + 1) = rest at hline
  cases hline with
  | stop hpos => rfl
  | empty hrow => rfl
  | full hd hbound hreach hhome hslots hrow => exact absurd hd (not_le.mpr hempty)

variable [DecidableEq K]

/-- The search for the key ends at an empty slot, and the table does not have to grow. -/
structure Fits (hash : K → UInt64) (t : FlatHashMap K V) (key : K) (pos distance : ℕ) : Prop where
  lookup : t.lookup hash key = some (pos, distance, false)
  grown : t.num_slots_minus_one ≠ 0
  near : distance ≠ t.max_lookups
  load : 2 * (t.num_elements + 1) ≤ t.num_slots_minus_one + 1
  is_empty : ∃ s, t.entries[pos]? = some s ∧ s.distance < 0

/-- An element that fits moves no other. -/
theorem Fits.emplace {key : K} {pos distance : ℕ} (h : Fits hash t key pos distance)
    (hsound : Sound hash t) (room : ℕ) (v : V) :
    ∃ t', FlatHashMap.emplace room hash t key v = some (t', pos, true) ∧
      t'.bucket_count = t.bucket_count ∧
      ∀ it kv, t.deref it = some kv → t'.deref it = some kv := by
  obtain ⟨s, hs, hempty⟩ := h.is_empty
  obtain ⟨hlt, hget⟩ := List.getElem?_eq_some_iff.mp hs
  have hdrop : t.entries.drop pos = s :: t.entries.drop (pos + 1) := by
    rw [List.drop_eq_getElem_cons hlt, hget]
  have hfits : ¬ (t.num_slots_minus_one = 0 ∨ distance = t.max_lookups ∨
      t.num_slots_minus_one + 1 < 2 * (t.num_elements + 1)) := by
    have := h.grown
    have := h.near
    have := h.load
    omega
  refine ⟨{ t with
    entries := t.entries.take pos ++ ⟨distance, some (key, v)⟩ :: t.entries.drop (pos + 1)
    num_elements := t.num_elements + 1 }, ?_, rfl, ?_⟩
  · rw [FlatHashMap.emplace, FlatHashMap.emplaceWithin, h.lookup, Option.bind_some,
      if_neg (by simp), FlatHashMap.emplace_new_key, if_neg hfits, hdrop]
    dsimp only
    rw [if_pos hempty]
    rfl
  · intro it kv hit
    have hne : it ≠ pos := by
      rintro rfl
      rw [deref, hs] at hit
      cases (hsound.value_of_empty hs hempty).symm.trans hit
    have hset : t.entries.take pos ++ ⟨distance, some (key, v)⟩ :: t.entries.drop (pos + 1) =
        t.entries.set pos ⟨distance, some (key, v)⟩ := by
      rw [List.set_eq_take_append_cons_drop, if_pos hlt]
    rw [deref, hset, List.getElem?_set_ne hne.symm]
    exact hit

end Places

end Calls

end FlatHashMap

end AtlasNative
