import AtlasNative.Query

/-!
# Equality and hash of queries

`Equals` compares conjunctions and disjunctions up to swapping their operands at every
level. It is an equivalence that the constructors respect, and equal queries have the same
hash and match the same tags. Hashes have 64 bits; those of an interned reference and of a
string are any functions.
-/

namespace AtlasNative

set_option autoImplicit false

/-- `static_cast<size_t>` of the type of a query -/
def QueryType.toSize : QueryType → UInt64
  | .HasKey => 0
  | .RelOp => 1
  | .Regex => 2
  | .In => 3
  | .True => 4
  | .False => 5
  | .Not => 6
  | .Or => 7
  | .And => 8

namespace Query

def Hash (ref_hash : StrRef → UInt64) (string_hash : String → UInt64) (q : Query) : UInt64 :=
  let n := q.GetQueryType.toSize
  match q with
  | .hasKey k => (n <<< 16) ^^^ ref_hash k
  | .relop q => (n <<< 16) ^^^ ref_hash q.key_ref_ ^^^ ref_hash q.value_ref_
  | .regex k pattern _ => (n <<< 16) ^^^ ref_hash k ^^^ string_hash pattern
  | .in_ k vs => vs.foldl (fun res v => res ^^^ ref_hash v) ((n <<< 16) ^^^ ref_hash k)
  | .true_ => n
  | .false_ => n
  | .not_ q => q.Hash ref_hash string_hash - 1
  | .or_ q1 q2 => q1.Hash ref_hash string_hash ^^^ q2.Hash ref_hash string_hash ^^^ n
  | .and_ q1 q2 => q1.Hash ref_hash string_hash ^^^ q2.Hash ref_hash string_hash ^^^ n

theorem Equals_refl (q : Query) : q.Equals q = true := by
  induction q with
  | not_ q ih => rw [Equals, ih]
  | or_ q1 q2 ih1 ih2 => rw [Equals, ih1, ih2]; rfl
  | and_ q1 q2 ih1 ih2 => rw [Equals, ih1, ih2]; rfl
  | _ => simp [Equals]

theorem Equals_comm (q p : Query) : q.Equals p = p.Equals q := by
  induction q, p using Equals.induct with
  | case1 k k' => simp only [Equals, eq_comm]
  | case2 q q' => simp only [Equals, eq_comm]
  | case3 k p i k' p' i' => simp only [Equals, eq_comm]
  | case4 k vs k' vs' => simp only [Equals, eq_comm]
  | case5 | case6 => rfl
  | case7 q q' ih => rw [Equals, Equals, ih]
  | case8 q1 q2 p1 p2 ih1 ih2 ih3 ih4 =>
    rw [Equals, Equals, ih1, ih2, ih3, ih4, Bool.and_comm (q1.Equals p2)]
  | case9 q1 q2 p1 p2 ih1 ih2 ih3 ih4 =>
    rw [Equals, Equals, ih1, ih2, ih3, ih4, Bool.and_comm (q2.Equals p1)]
  | case10 q p h1 h2 h3 h4 h5 h6 h7 h8 h9 =>
    have hswap : p.Equals q = false := Equals.eq_10 p q
      (fun k k' hp hq => h1 k' k hq hp) (fun r r' hp hq => h2 r' r hq hp)
      (fun k r i k' r' i' hp hq => h3 k' r' i' k r i hq hp)
      (fun k vs k' vs' hp hq => h4 k' vs' k vs hq hp) (fun hp hq => h5 hq hp)
      (fun hp hq => h6 hq hp) (fun r r' hp hq => h7 r' r hq hp)
      (fun p1 p2 q1 q2 hp hq => h8 q1 q2 p1 p2 hq hp)
      (fun p1 p2 q1 q2 hp hq => h9 q1 q2 p1 p2 hq hp)
    rw [Equals.eq_10 q p h1 h2 h3 h4 h5 h6 h7 h8 h9, hswap]

theorem not_Equals_iff {q r : Query} :
    (Query.not_ q).Equals r = true ↔ ∃ p, r = .not_ p ∧ q.Equals p = true := by
  cases r <;> simp [Equals]

theorem or_Equals_iff {q1 q2 r : Query} :
    (Query.or_ q1 q2).Equals r = true ↔ ∃ p1 p2, r = .or_ p1 p2 ∧
      ((q1.Equals p1 = true ∧ q2.Equals p2 = true) ∨
        (q1.Equals p2 = true ∧ q2.Equals p1 = true)) := by
  cases r <;> simp [Equals, Equals_comm]

theorem and_Equals_iff {q1 q2 r : Query} :
    (Query.and_ q1 q2).Equals r = true ↔ ∃ p1 p2, r = .and_ p1 p2 ∧
      ((q1.Equals p1 = true ∧ q2.Equals p2 = true) ∨
        (q1.Equals p2 = true ∧ q2.Equals p1 = true)) := by
  cases r <;> simp [Equals, Equals_comm, and_comm]

/-- A query without operands is equal to itself only. -/
theorem eq_of_Equals {q p : Query} (hnot : q.GetQueryType ≠ .Not) (hor : q.GetQueryType ≠ .Or)
    (hand : q.GetQueryType ≠ .And) (h : q.Equals p = true) : p = q := by
  induction q, p using Equals.induct with
  | case1 | case2 | case3 | case4 =>
    simp only [Equals, Bool.and_eq_true, decide_eq_true_iff] at h
    simp [h]
  | case5 | case6 => rfl
  | case7 => exact absurd rfl hnot
  | case8 => exact absurd rfl hor
  | case9 => exact absurd rfl hand
  | case10 q p h1 h2 h3 h4 h5 h6 h7 h8 h9 =>
    rw [Equals.eq_10 q p h1 h2 h3 h4 h5 h6 h7 h8 h9] at h
    cases h

/-- A relation that is reflexive, compatible with the constructors and blind to the order
of operands holds between equal queries. -/
theorem Equals_rec {motive : Query → Query → Prop} (refl : ∀ q, motive q q)
    (not_ : ∀ {q p}, motive q p → motive (.not_ q) (.not_ p))
    (or_ : ∀ {q1 q2 p1 p2}, motive q1 p1 → motive q2 p2 → motive (.or_ q1 q2) (.or_ p1 p2))
    (or_swap : ∀ {q1 q2 p1 p2}, motive q1 p2 → motive q2 p1 → motive (.or_ q1 q2) (.or_ p1 p2))
    (and_ : ∀ {q1 q2 p1 p2}, motive q1 p1 → motive q2 p2 → motive (.and_ q1 q2) (.and_ p1 p2))
    (and_swap : ∀ {q1 q2 p1 p2}, motive q1 p2 → motive q2 p1 →
      motive (.and_ q1 q2) (.and_ p1 p2))
    {q p : Query} (h : q.Equals p = true) : motive q p := by
  induction q generalizing p with
  | not_ q ih =>
    obtain ⟨p, rfl, hq⟩ := not_Equals_iff.mp h
    exact not_ (ih hq)
  | or_ q1 q2 ih1 ih2 =>
    obtain ⟨p1, p2, rfl, ⟨h1, h2⟩ | ⟨h1, h2⟩⟩ := or_Equals_iff.mp h
    · exact or_ (ih1 h1) (ih2 h2)
    · exact or_swap (ih1 h1) (ih2 h2)
  | and_ q1 q2 ih1 ih2 =>
    obtain ⟨p1, p2, rfl, ⟨h1, h2⟩ | ⟨h1, h2⟩⟩ := and_Equals_iff.mp h
    · exact and_ (ih1 h1) (ih2 h2)
    · exact and_swap (ih1 h1) (ih2 h2)
  | _ =>
    rw [eq_of_Equals (by simp [GetQueryType]) (by simp [GetQueryType]) (by simp [GetQueryType]) h]
    exact refl _

theorem Equals_trans {q p r : Query} (hqp : q.Equals p = true) (hpr : p.Equals r = true) :
    q.Equals r = true := by
  refine Equals_rec (motive := fun q p => ∀ r, p.Equals r = true → q.Equals r = true)
    (fun _ _ h => h) ?_ ?_ ?_ ?_ ?_ hqp r hpr
  · intro q p ih r hr
    obtain ⟨r', rfl, hr'⟩ := not_Equals_iff.mp hr
    exact not_Equals_iff.mpr ⟨r', rfl, ih r' hr'⟩
  · intro q1 q2 p1 p2 ih1 ih2 r hr
    obtain ⟨r1, r2, rfl, hops⟩ := or_Equals_iff.mp hr
    have hops' := hops.imp (And.imp (ih1 r1) (ih2 r2)) (And.imp (ih1 r2) (ih2 r1))
    exact or_Equals_iff.mpr ⟨r1, r2, rfl, hops'⟩
  · intro q1 q2 p1 p2 ih1 ih2 r hr
    obtain ⟨r1, r2, rfl, hops⟩ := or_Equals_iff.mp hr
    have hops' := hops.symm.imp (And.imp (ih2 r2) (ih1 r1)) (And.imp (ih2 r1) (ih1 r2))
    exact or_Equals_iff.mpr ⟨r1, r2, rfl, hops'.imp And.symm And.symm⟩
  · intro q1 q2 p1 p2 ih1 ih2 r hr
    obtain ⟨r1, r2, rfl, hops⟩ := and_Equals_iff.mp hr
    have hops' := hops.imp (And.imp (ih1 r1) (ih2 r2)) (And.imp (ih1 r2) (ih2 r1))
    exact and_Equals_iff.mpr ⟨r1, r2, rfl, hops'⟩
  · intro q1 q2 p1 p2 ih1 ih2 r hr
    obtain ⟨r1, r2, rfl, hops⟩ := and_Equals_iff.mp hr
    have hops' := hops.symm.imp (And.imp (ih2 r2) (ih1 r1)) (And.imp (ih2 r1) (ih1 r2))
    exact and_Equals_iff.mpr ⟨r1, r2, rfl, hops'.imp And.symm And.symm⟩

theorem Hash_congr (ref_hash : StrRef → UInt64) (string_hash : String → UInt64) {q p : Query}
    (h : q.Equals p = true) : q.Hash ref_hash string_hash = p.Hash ref_hash string_hash := by
  refine Equals_rec
    (motive := fun q p => q.Hash ref_hash string_hash = p.Hash ref_hash string_hash)
    (fun _ => rfl) ?_ ?_ ?_ ?_ ?_ h
  · intro q p ih
    rw [Hash, Hash, ih]
  · intro q1 q2 p1 p2 ih1 ih2
    rw [Hash, Hash, ih1, ih2]
    rfl
  · intro q1 q2 p1 p2 ih1 ih2
    rw [Hash, Hash, ih1, ih2, UInt64.xor_comm (p2.Hash ref_hash string_hash)]
    rfl
  · intro q1 q2 p1 p2 ih1 ih2
    rw [Hash, Hash, ih1, ih2]
    rfl
  · intro q1 q2 p1 p2 ih1 ih2
    rw [Hash, Hash, ih1, ih2, UInt64.xor_comm (p2.Hash ref_hash string_hash)]
    rfl

/-- Equality is an equivalence that the constructors respect and for which conjunction and
disjunction are commutative; equal queries have one hash and match the same tags. -/
theorem Equals_congruence (ref_hash : StrRef → UInt64) (string_hash : String → UInt64)
    (regex : RegexOracle) :
    Equivalence (fun q p : Query => q.Equals p = true) ∧
    (∀ q1 q2, (Query.or_ q1 q2).Equals (.or_ q2 q1) = true ∧
      (Query.and_ q1 q2).Equals (.and_ q2 q1) = true) ∧
    (∀ q q' p p' : Query, q.Equals q' = true → p.Equals p' = true →
      (Query.not_ q).Equals (.not_ q') = true ∧ (Query.or_ q p).Equals (.or_ q' p') = true ∧
        (Query.and_ q p).Equals (.and_ q' p') = true) ∧
    (∀ q1 q2 : Query, q1.Equals q2 = true →
      q1.Hash ref_hash string_hash = q2.Hash ref_hash string_hash ∧
        ∀ tags, q1.Matches regex tags = q2.Matches regex tags) := by
  refine ⟨⟨Equals_refl, fun h => Equals_comm _ _ ▸ h, Equals_trans⟩, ?_, ?_, ?_⟩
  · intro q1 q2
    have hswap : (q1.Equals q2 = true ∧ q2.Equals q1 = true) ∨
        (q1.Equals q1 = true ∧ q2.Equals q2 = true) := Or.inr ⟨Equals_refl q1, Equals_refl q2⟩
    exact ⟨or_Equals_iff.mpr ⟨q2, q1, rfl, hswap⟩, and_Equals_iff.mpr ⟨q2, q1, rfl, hswap⟩⟩
  · intro q q' p p' hq hp
    exact ⟨not_Equals_iff.mpr ⟨q', rfl, hq⟩, or_Equals_iff.mpr ⟨q', p', rfl, Or.inl ⟨hq, hp⟩⟩,
      and_Equals_iff.mpr ⟨q', p', rfl, Or.inl ⟨hq, hp⟩⟩⟩
  · intro q1 q2 h
    exact ⟨Hash_congr ref_hash string_hash h, fun tags => MatchesWith_congr regex tags.at_ h⟩

end Query

end AtlasNative
