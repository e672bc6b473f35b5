import AtlasNative.Meters

/-!
# Amounts and their 64-bit totals

What the number types of a distribution summary have in common, and what a 64-bit total
makes of the amounts that are added to it: it wraps around, and the amounts of a summary
of `double` are truncated before they are added.
-/

namespace AtlasNative

open ExactDouble MeterNumber TotalOf Int64Sums
set_option autoImplicit false

/-- The order of the number type is that of its doubles, and nothing recorded is the
lowest number. -/
class LawfulMeterNumber (T : Type) [Zero T] [LT T] [DecidableLT T] [DecidableEq T]
    [MeterNumber T] : Prop where
  toDouble_lt (a b : T) : toDouble a < toDouble b ↔ a < b
  lowest_lt (a : T) : notNegative a = true → (lowest : T) < a
  not_nan (a : T) : notNegative a = true → (toDouble a).isnan = false
  lowest_not_nan : (toDouble (lowest : T)).isnan = false

theorem Int64.notNegative_iff (a : Int64) : notNegative a = true ↔ 0 ≤ a.toInt := by
  have hzero : a = 0 ↔ a.toInt = 0 := Int64.toInt_inj.symm
  simp only [notNegative, Bool.or_eq_true, decide_eq_true_eq, Int64.lt_iff_toInt_lt, hzero,
    Int64.toInt_zero]
  omega

instance : LawfulMeterNumber Int64 where
  toDouble_lt _ _ := ((Double.fin_lt_fin _ _).trans Int.cast_lt).trans Int64.lt_iff_toInt_lt.symm
  lowest_lt a h :=
    Int64.lt_iff_toInt_lt.mpr (lt_of_lt_of_le (by decide) ((Int64.notNegative_iff a).mp h))
  not_nan _ _ := rfl
  lowest_not_nan := rfl

theorem Double.notNegative_iff (a : Double) :
    notNegative a = true ↔ a = .posInf ∨ ∃ q : ℚ, 0 ≤ q ∧ a = .fin q := by
  cases a with
  | fin q =>
    simp only [notNegative, Double.zero_def, Bool.or_eq_true, decide_eq_true_eq,
      Double.fin_lt_fin, Double.fin.injEq, reduceCtorEq, false_or, exists_eq_right']
    exact ⟨fun h => h.elim le_of_lt fun h => h.ge, fun h => h.lt_or_eq.imp_right Eq.symm⟩
  | _ => simp [notNegative, Double.zero_def, Double.lt_def, Double.blt]

instance : LawfulMeterNumber Double where
  toDouble_lt _ _ := Iff.rfl
  lowest_lt a h := by
    rcases (Double.notNegative_iff a).mp h with rfl | ⟨q, hq, rfl⟩
    · rfl
    · have hlowest : -(((2 : ℚ) ^ 53 - 1) * 2 ^ 971) < q := lt_of_lt_of_le (by norm_num) hq
      exact (Double.fin_lt_fin _ _).mpr hlowest
  not_nan a h := by
    rcases (Double.notNegative_iff a).mp h with rfl | ⟨q, _, rfl⟩ <;> rfl
  lowest_not_nan := rfl

theorem truncate_eq_floor {q : ℚ} (hq : 0 ≤ q) : truncate q = ⌊q⌋ := by
  rw [truncate, Int.tdiv_eq_ediv_of_nonneg (Rat.num_nonneg.mpr hq), Rat.floor_def']

/-- What is left of a finite amount. -/
def Double.whole : Double → ℤ
  | .fin q => truncate q
  | _ => 0

theorem floor_eq_self_iff (q : ℚ) : (⌊q⌋ : ℚ) = q ↔ ∃ n : ℤ, Double.fin q = .fin n := by
  constructor
  · intro h
    exact ⟨⌊q⌋, by rw [h]⟩
  · intro hgiven
    rcases hgiven with ⟨n, hn⟩
    obtain rfl : q = n := Double.fin.inj hn
    rw [Int.floor_intCast]

/-- Truncating every summand keeps a finite sum exactly when they are all whole. -/
theorem Double.sum_whole {vs : List Double} (hvs : ∀ v ∈ vs, notNegative v = true) {s : ℚ}
    (hs : vs.sum = .fin s) :
    0 ≤ (vs.map whole).sum ∧ ((vs.map whole).sum : ℚ) ≤ s ∧
      (((vs.map whole).sum : ℚ) = s ↔ ∀ a ∈ vs, ∃ n : ℤ, a = .fin n) := by
  induction vs generalizing s with
  | nil =>
    obtain rfl : 0 = s := Double.fin.inj hs
    simp
  | cons v vs ih =>
    obtain ⟨hv, hrest⟩ := List.forall_mem_cons.mp hvs
    rw [List.sum_cons] at hs
    rcases (Double.notNegative_iff v).mp hv with rfl | ⟨q, hq, rfl⟩
    · exact absurd hs (Double.posInf_add_ne_fin _ _)
    · obtain ⟨hnonneg, hle, hiff⟩ := ih hrest (Double.eq_fin_of_add_eq_fin hs)
      have htrunc : whole (.fin q) = ⌊q⌋ := truncate_eq_floor hq
      have hfloor : (⌊q⌋ : ℚ) ≤ q := Int.floor_le q
      rw [List.map_cons, List.sum_cons, htrunc, List.forall_mem_cons, ← floor_eq_self_iff, ← hiff,
        Int.cast_add]
      refine ⟨add_nonneg (Int.floor_nonneg.mpr hq) hnonneg, by linarith, ?_⟩
      constructor
      · intro heq
        constructor <;> linarith
      · intro hgiven
        rcases hgiven with ⟨h1, h2⟩
        linarith

theorem Double.exists_sum_eq {vs : List Double} (h : ∀ a ∈ vs, ∃ n : ℤ, a = .fin n) :
    ∃ n : ℤ, vs.sum = .fin n := by
  induction vs with
  | nil => exact ⟨0, rfl⟩
  | cons v vs ih =>
    obtain ⟨⟨n, rfl⟩, hrest⟩ := List.forall_mem_cons.mp h
    obtain ⟨k, hk⟩ := ih hrest
    exact ⟨n + k, by rw [List.sum_cons, hk, Double.fin_add_fin, Int.cast_add]⟩

theorem Double.le_sum {vs : List Double} (hvs : ∀ v ∈ vs, notNegative v = true) {s : ℚ}
    (hs : vs.sum = .fin s) : 0 ≤ s ∧ ∀ v ∈ vs, ∃ q : ℚ, 0 ≤ q ∧ q ≤ s ∧ v = .fin q := by
  induction vs generalizing s with
  | nil =>
    obtain rfl : 0 = s := Double.fin.inj hs
    exact ⟨le_rfl, fun _ hv => absurd hv List.not_mem_nil⟩
  | cons v vs ih =>
    obtain ⟨hv, hrest⟩ := List.forall_mem_cons.mp hvs
    rw [List.sum_cons] at hs
    rcases (Double.notNegative_iff v).mp hv with rfl | ⟨q, hq, rfl⟩
    · exact absurd hs (Double.posInf_add_ne_fin _ _)
    · obtain ⟨hnonneg, hall⟩ := ih hrest (Double.eq_fin_of_add_eq_fin hs)
      refine ⟨by linarith, List.forall_mem_cons.mpr ⟨⟨q, hq, by linarith, rfl⟩, fun v hv => ?_⟩⟩
      obtain ⟨q', hq', hle, rfl⟩ := hall v hv
      exact ⟨q', hq', by linarith, rfl⟩

theorem toInt_toInt64 {q : ℚ} (hq : 0 ≤ q) (hlt : q < 2 ^ 63) :
    (toInt64 (Double.fin q) : Int64).toInt = truncate q := by
  have htrunc := truncate_eq_floor hq
  have hfloor : 0 ≤ ⌊q⌋ := Int.floor_nonneg.mpr hq
  have hbound : ⌊q⌋ < 2 ^ 63 := Int.floor_lt.mpr (by exact_mod_cast hlt)
  have hrange : IsInt64 (truncate q) := by
    rw [htrunc]
    exact ⟨by omega, hbound⟩
  have hconv : (toInt64 (Double.fin q) : Int64) = Int64.ofInt (truncate q) := if_pos hrange
  rw [hconv, Int64.toInt_ofInt_of_le hrange.1 hrange.2]

/-- The total of amounts that stay below `2 ^ 63` together is that of their whole parts. -/
theorem toInt_sum_toInt64 {vs : List Double} (hvs : ∀ v ∈ vs, notNegative v = true) {s : ℚ}
    (hs : vs.sum = .fin s) (hlt : s < 2 ^ 63) :
    ((vs.map (toInt64 : Double → Int64)).sum).toInt = (vs.map Double.whole).sum := by
  obtain ⟨hnonneg, hle, _⟩ := Double.sum_whole hvs hs
  have hparts : (vs.map (toInt64 : Double → Int64)).map Int64.toInt = vs.map Double.whole := by
    rw [List.map_map]
    apply List.map_congr_left
    intro v hv
    obtain ⟨q, hq, hqs, rfl⟩ := (Double.le_sum hvs hs).2 v hv
    exact toInt_toInt64 hq (hqs.trans_lt hlt)
  have hbound : (vs.map Double.whole).sum < 2 ^ 63 := by
    have := hle.trans_lt hlt
    exact_mod_cast this
  rw [toInt_sum, hparts, bmod_eq_self_iff hnonneg]
  exact hbound

/-- The total amount of a summary of doubles is the sum of the amounts. -/
theorem ofInt64_sum_toInt64_iff {vs : List Double} (hvs : ∀ v ∈ vs, notNegative v = true) :
    (ofInt64 ((vs.map toInt64).sum : Int64) : Double) = vs.sum ↔
      (∀ a ∈ vs, ∃ n : ℤ, a = .fin n) ∧ vs.sum < .fin (2 ^ 63) := by
  have htotal : (ofInt64 ((vs.map toInt64).sum : Int64) : Double) =
      .fin ((vs.map (toInt64 : Double → Int64)).sum).toInt := rfl
  constructor
  · intro h
    rw [htotal] at h
    have hlt : ((((vs.map (toInt64 : Double → Int64)).sum).toInt : ℤ) : ℚ) < 2 ^ 63 := by
      have := Int64.toInt_lt (vs.map (toInt64 : Double → Int64)).sum
      exact_mod_cast this
    refine ⟨(Double.sum_whole hvs h.symm).2.2.mp ?_, ?_⟩
    · rw [← toInt_sum_toInt64 hvs h.symm hlt]
    · rw [← h, Double.fin_lt_fin]
      exact hlt
  · intro hgiven
    rcases hgiven with ⟨hwhole, hlt⟩
    obtain ⟨n, hsum⟩ := Double.exists_sum_eq hwhole
    rw [hsum, Double.fin_lt_fin] at hlt
    rw [htotal, toInt_sum_toInt64 hvs hsum hlt, (Double.sum_whole hvs hsum).2.2.mpr hwhole, hsum]

section Max
variable {T : Type} [AddCommMonoid T] [LT T] [DecidableLT T] [DecidableEq T] [MeterNumber T]
  [LawfulMeterNumber T]

theorem toDouble_foldl_stdMax (vs : List T) (acc : T) :
    toDouble (vs.foldl stdMax acc) = (vs.map toDouble).foldl Double.stdMax (toDouble acc) := by
  induction vs generalizing acc with
  | nil => rfl
  | cons v vs ih =>
    have hstep : toDouble (stdMax acc v) = Double.stdMax (toDouble acc) (toDouble v) := by
      rw [stdMax, Double.stdMax, apply_ite toDouble]
      exact if_congr (LawfulMeterNumber.toDouble_lt acc v).symm rfl rfl
    rw [List.foldl_cons, ih, hstep]
    rfl

/-- Above the lowest number, the running maximum of what was recorded is its greatest. -/
theorem foldl_stdMax_lowest {vs : List T} (hvs : ∀ v ∈ vs, notNegative v = true)
    (hne : vs ≠ []) :
    vs.foldl stdMax lowest ≠ (lowest : T) ∧
      ∃ a ∈ vs, toDouble (vs.foldl stdMax lowest) = toDouble a ∧ ∀ b ∈ vs, ¬ a < b := by
  have hnan : ∀ x ∈ vs.map (toDouble : T → Double), x.isnan = false := by
    intro x hx
    obtain ⟨v, hv, rfl⟩ := List.mem_map.mp hx
    exact LawfulMeterNumber.not_nan v (hvs v hv)
  obtain ⟨hmem, _, hall⟩ := Double.foldl_stdMax_spec (vs.map (toDouble : T → Double))
    (toDouble (lowest : T)) LawfulMeterNumber.lowest_not_nan hnan
  rw [← toDouble_foldl_stdMax] at hmem hall
  obtain ⟨v, hv⟩ := List.exists_mem_of_ne_nil vs hne
  have hlowest : (toDouble (lowest : T)) < toDouble v :=
    (LawfulMeterNumber.toDouble_lt _ _).mpr (LawfulMeterNumber.lowest_lt v (hvs v hv))
  have hne' : toDouble (vs.foldl stdMax lowest) ≠ toDouble (lowest : T) := fun heq =>
    hall _ (List.mem_map.mpr ⟨v, hv, rfl⟩) (heq ▸ hlowest)
  refine ⟨fun heq => hne' (congrArg (toDouble : T → Double) heq), ?_⟩
  obtain ⟨a, ha, heq⟩ := List.mem_map.mp (hmem.resolve_left hne')
  refine ⟨a, ha, heq.symm, fun b hb hlt => ?_⟩
  rw [← LawfulMeterNumber.toDouble_lt, heq] at hlt
  exact hall _ (List.mem_map.mpr ⟨b, hb, rfl⟩) hlt

end Max

end AtlasNative
