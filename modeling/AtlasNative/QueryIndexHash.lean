import AtlasNative.Lib.ShiftHash
import AtlasNative.QueryEquality
import AtlasNative.QueryIndex

/-!
# Hashes of annotated entries

The memo table of `create_impl` finds a list of annotated entries by its hash. Equality
takes the filters of an entry as a set, and the hash folds them with shifts in the order of
their hash table. The list of filters of an annotated entry stands for that order here.
-/

namespace AtlasNative

open Query
set_option autoImplicit false

namespace std

/-- `std::hash` and `std::equal_to` for a type of keys, with what a hash table asks of them. -/
structure Hashed (T : Type) where
  hash : T → UInt64
  equal_to : T → T → Bool
  equal_to_refl : ∀ a, equal_to a a = true
  hash_congr : ∀ {a b}, equal_to a b = true → hash a = hash b

variable {T : Type} (value : Hashed T) (ref_hash : StrRef → UInt64)
  (string_hash : String → UInt64)

/-- `std::shared_ptr<Query>` -/
def hashed_query : Hashed Query where
  hash := Query.Hash ref_hash string_hash
  equal_to := Query.Equals
  equal_to_refl := Equals_refl
  hash_congr := Hash_congr ref_hash string_hash

def hash_entry (a : QueryIndexEntry T) : UInt64 :=
  a.query.Hash ref_hash string_hash ^^^ value.hash a.value

def equal_to_entry (lhs rhs : QueryIndexEntry T) : Bool :=
  lhs.query.Equals rhs.query && value.equal_to lhs.value rhs.value

def hash_filter (f : RelopQuery) : UInt64 := (Query.relop f).Hash ref_hash string_hash

def hash_annotated (a : QueryIndexAnnotated T) : UInt64 :=
  a.filters.foldl (fun res f => res <<< 1 ^^^ hash_filter ref_hash string_hash f)
    (hash_entry value ref_hash string_hash a.entry)

def equal_to_annotated (lhs rhs : QueryIndexAnnotated T) : Bool :=
  equal_to_entry value lhs.entry rhs.entry &&
    decide (lhs.filters.length = rhs.filters.length) &&
    lhs.filters.all fun f => decide (f ∈ rhs.filters)

def hash_annotated_list (v : AnnotatedList T) : UInt64 :=
  v.foldl (fun res e => res <<< 4 ^^^ hash_annotated value ref_hash string_hash e) 0

def equal_to_annotated_list (lhs rhs : AnnotatedList T) : Bool :=
  decide (lhs.length = rhs.length) &&
    (lhs.zip rhs).all fun p => equal_to_annotated value p.1 p.2

/-- Where values are compared by what they are, this is the equality of the index. -/
theorem equal_to_annotated_eq [DecidableEq T] (hvalue : ∀ a b, value.equal_to a b = decide (a = b))
    (lhs rhs : QueryIndexAnnotated T) : equal_to_annotated value lhs rhs = lhs.equal_to rhs := by
  rw [equal_to_annotated, equal_to_entry, hvalue]
  rfl

theorem equal_to_annotated_list_eq [DecidableEq T]
    (hvalue : ∀ a b, value.equal_to a b = decide (a = b)) (lhs rhs : AnnotatedList T) :
    equal_to_annotated_list value lhs rhs = QueryIndex.equal_to lhs rhs := by
  unfold equal_to_annotated_list QueryIndex.equal_to
  simp only [equal_to_annotated_eq value hvalue]

variable {value}

theorem hash_entry_congr {lhs rhs : QueryIndexEntry T} (h : equal_to_entry value lhs rhs = true) :
    hash_entry value ref_hash string_hash lhs = hash_entry value ref_hash string_hash rhs := by
  obtain ⟨hquery, hvalue⟩ := Bool.and_eq_true_iff.mp h
  rw [hash_entry, hash_entry, Hash_congr ref_hash string_hash hquery, value.hash_congr hvalue]

theorem equal_to_annotated_iff {lhs rhs : QueryIndexAnnotated T} :
    equal_to_annotated value lhs rhs = true ↔
      equal_to_entry value lhs.entry rhs.entry = true ∧ rhs.filters.Perm lhs.filters := by
  simp only [equal_to_annotated, Bool.and_eq_true, decide_eq_true_eq, List.all_eq_true, and_assoc]
  constructor
  · intro h
    rcases h with ⟨hentry, hlen, hsub⟩
    have hperm := (List.subperm_of_subset lhs.filters_nodup hsub).perm_of_length_le hlen.ge
    exact ⟨hentry, hperm.symm⟩
  · intro h
    rcases h with ⟨hentry, hperm⟩
    exact ⟨hentry, hperm.length_eq.symm, fun f hf => hperm.mem_iff.mpr hf⟩

theorem equal_to_annotated_list_iff {lhs rhs : AnnotatedList T} :
    equal_to_annotated_list value lhs rhs = true ↔
      List.Forall₂ (fun a b => equal_to_annotated value a b = true) lhs rhs := by
  rw [List.forall₂_iff_zip]
  simp only [equal_to_annotated_list, Bool.and_eq_true, decide_eq_true_eq, List.all_eq_true,
    Prod.forall]

theorem equal_to_entry_refl (a : QueryIndexEntry T) : equal_to_entry value a a = true :=
  Bool.and_eq_true_iff.mpr ⟨Equals_refl _, value.equal_to_refl _⟩

theorem equal_to_annotated_refl (a : QueryIndexAnnotated T) :
    equal_to_annotated value a a = true :=
  equal_to_annotated_iff.mpr ⟨equal_to_entry_refl a.entry, .refl _⟩

variable (value)

theorem toBitVec_hash_annotated (a : QueryIndexAnnotated T) :
    (hash_annotated value ref_hash string_hash a).toBitVec =
      ShiftHash.mix 1 (hash_entry value ref_hash string_hash a.entry).toBitVec
        (a.filters.map fun f => (hash_filter ref_hash string_hash f).toBitVec) := by
  rw [ShiftHash.mix, List.foldl_map]
  exact (List.foldl_hom UInt64.toBitVec fun _ _ => rfl).symm

theorem toBitVec_hash_annotated_list (v : AnnotatedList T) :
    (hash_annotated_list value ref_hash string_hash v).toBitVec =
      ShiftHash.mix 4 0#64 (v.map fun a => (hash_annotated value ref_hash string_hash a).toBitVec) := by
  rw [ShiftHash.mix, List.foldl_map]
  exact (List.foldl_hom UInt64.toBitVec fun _ _ => rfl).symm

/-- What a shift shows of a hash is the same for all equal values exactly when it is the same
for the hashes of all filters. -/
theorem hash_annotated_shift_iff (a : QueryIndexAnnotated T) (k : ℕ) :
    (∀ b, equal_to_annotated value a b = true →
      (hash_annotated value ref_hash string_hash a).toBitVec <<< k =
        (hash_annotated value ref_hash string_hash b).toBitVec <<< k) ↔
      ∀ f ∈ a.filters, ∀ g ∈ a.filters,
        (hash_filter ref_hash string_hash f).toBitVec <<< k =
          (hash_filter ref_hash string_hash g).toBitVec <<< k := by
  rw [← ShiftHash.order_independent_iff Nat.zero_lt_one k
    (hash_entry value ref_hash string_hash a.entry).toBitVec
    (fun f => (hash_filter ref_hash string_hash f).toBitVec) a.filters]
  constructor
  · intro h filters hperm
    have hequal : equal_to_annotated value a ⟨a.entry, filters, hperm.nodup_iff.mpr a.filters_nodup⟩ =
        true := equal_to_annotated_iff.mpr ⟨equal_to_entry_refl a.entry, hperm⟩
    have hhash := h _ hequal
    rw [toBitVec_hash_annotated, toBitVec_hash_annotated] at hhash
    exact hhash
  · intro h b hequal
    obtain ⟨hentry, hperm⟩ := equal_to_annotated_iff.mp hequal
    rw [toBitVec_hash_annotated, toBitVec_hash_annotated,
      ← hash_entry_congr ref_hash string_hash hentry]
    exact h b.filters hperm

/-- The lowest `bits` bits -/
def low_bits (bits : ℕ) (x : UInt64) : ℕ := x.toNat % 2 ^ bits

/-- A hash respects equality exactly for values whose filters have one hash, and for lists in
which, at each position, the filters agree in the bits that the shifts behind it leave. -/
theorem hash_respects_equal_to_iff :
    (∀ a : QueryIndexAnnotated T,
      (∀ b, equal_to_annotated value a b = true →
        hash_annotated value ref_hash string_hash a =
          hash_annotated value ref_hash string_hash b) ↔
        ∀ f ∈ a.filters, ∀ g ∈ a.filters,
          hash_filter ref_hash string_hash f = hash_filter ref_hash string_hash g) ∧
    (∀ v : AnnotatedList T,
      (∀ w, equal_to_annotated_list value v w = true →
        hash_annotated_list value ref_hash string_hash v =
          hash_annotated_list value ref_hash string_hash w) ↔
        ∀ before a after, v = before ++ a :: after → ∀ f ∈ a.filters, ∀ g ∈ a.filters,
          low_bits (64 - 4 * after.length) (hash_filter ref_hash string_hash f) =
            low_bits (64 - 4 * after.length) (hash_filter ref_hash string_hash g)) := by
  constructor
  · intro a
    have h := hash_annotated_shift_iff value ref_hash string_hash a 0
    simp only [BitVec.shiftLeft_zero, UInt64.toBitVec_inj] at h
    exact h
  · intro v
    have h := ShiftHash.replacement_iff (R := fun a b => equal_to_annotated value a b = true)
      equal_to_annotated_refl 4 0#64
      (fun a => (hash_annotated value ref_hash string_hash a).toBitVec) v
    simp only [← toBitVec_hash_annotated_list, UInt64.toBitVec_inj,
      ← equal_to_annotated_list_iff, hash_annotated_shift_iff] at h
    simp only [ShiftHash.shiftLeft_eq_iff] at h
    exact h

/-- Two filters in one order and in the other, under hashes of references that tell their
lengths. -/
theorem hash_annotated_of_two_filters :
    let ref_hash : StrRef → UInt64 := fun ref => UInt64.ofNat ref.str.toList.length
    let string_hash : String → UInt64 := fun _ => 0
    let value := hashed_query ref_hash string_hash
    let f : RelopQuery := ⟨intern_str "k", intern_str "sps", .EQ⟩
    let g : RelopQuery := ⟨intern_str "k", intern_str "node", .EQ⟩
    let a : QueryIndexAnnotated Query := ⟨⟨.true_, .true_⟩, [f, g], by decide⟩
    let b : QueryIndexAnnotated Query := ⟨⟨.true_, .true_⟩, [g, f], by decide⟩
    equal_to_annotated value a b = true ∧
      hash_annotated value ref_hash string_hash a ≠ hash_annotated value ref_hash string_hash b ∧
      equal_to_annotated_list value [a] [b] = true ∧
      hash_annotated_list value ref_hash string_hash [a] ≠
        hash_annotated_list value ref_hash string_hash [b] := by
  intro ref_hash string_hash value f g a b
  have hequal : equal_to_annotated value a b = true :=
    equal_to_annotated_iff.mpr ⟨equal_to_entry_refl a.entry, List.Perm.swap f g []⟩
  refine ⟨hequal, by decide, ?_, by decide⟩
  exact equal_to_annotated_list_iff.mpr (.cons hequal .nil)

end std

end AtlasNative
