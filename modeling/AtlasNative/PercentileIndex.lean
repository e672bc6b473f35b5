import AtlasNative.Lib.SortedTable
import AtlasNative.PercentileBuckets

/-!
# The index of a value against the table

Behind the last value of a power of 4 there is room for less than a third of it, since the
third was rounded down, but `IndexOf` counts on for up to three more values. They get the
index of the first value of the next power of 4, which they are below of.
-/

namespace AtlasNative

open SortedTable
set_option autoImplicit false

namespace percentile_buckets

theorem blockOf_mono {n m : ℕ} (hn : n ≠ 0) (h : n ≤ m) : blockOf n ≤ blockOf m := by
  by_contra hlt
  have hpow : 4 ^ (blockOf m + 1) ≤ 4 ^ blockOf n :=
    Nat.pow_le_pow_right (by omega) (not_le.mp hlt)
  have hle := pow_blockOf_le hn
  have hgt := lt_pow_blockOf m
  omega

theorem blockOf_eq {n k : ℕ} (hle : 4 ^ k ≤ n) (hlt : n < 4 ^ (k + 1)) : blockOf n = k := by
  have hn : n ≠ 0 := by
    have hpos : 0 < 4 ^ k := Nat.pow_pos (by omega)
    omega
  have h := pow_blockOf_le hn
  have h' := lt_pow_blockOf n
  have hk : blockOf n < k + 1 := by
    apply (Nat.pow_lt_pow_iff_right (show 1 < 4 by omega)).mp
    omega
  have hk' : k < blockOf n + 1 := by
    apply (Nat.pow_lt_pow_iff_right (show 1 < 4 by omega)).mp
    omega
  omega

theorem pow_eq_third (k : ℕ) : 4 ^ k = 3 * (4 ^ k / 3) + 1 := by
  have hmod : 4 ^ k % 3 = 1 := by
    rw [Nat.pow_mod]
    simp
  omega

theorem third_pos {k : ℕ} (hk : 1 ≤ k) : 0 < 4 ^ k / 3 := by
  have hfour : 4 ^ 1 ≤ 4 ^ k := Nat.pow_le_pow_right (by omega) hk
  omega

/-- The thirds between the power of 4 and the value. -/
def offset (n : ℕ) : ℕ := (n - 4 ^ blockOf n) / (4 ^ blockOf n / 3)

theorem position_eq (n : ℕ) : position n = blockStart (blockOf n) + offset n := rfl

/-- The values with a place of their own are all but the last three of a block, or all but
the last one of the first block. -/
theorem offset_lt_iff {n : ℕ} (hn : 4 < n) (hblock : blockOf n < 31) :
    offset n < blockLength (blockOf n) ↔
      n + (if blockOf n = 1 then 1 else 3) < 4 ^ (blockOf n + 1) := by
  have hle := pow_blockOf_le (show n ≠ 0 by omega)
  have hone := one_le_blockOf hn.le
  have hthird := pow_eq_third (blockOf n)
  unfold offset blockLength
  rw [Nat.div_lt_iff_lt_mul (third_pos hone), pow_succ, if_neg (show blockOf n ≠ 31 by omega)]
  by_cases hk : blockOf n = 1
  · rw [hk] at hthird hle ⊢
    simp only [if_true]
    omega
  · rw [if_neg hk, if_neg hk]
    omega

theorem offset_le {n : ℕ} (hn : 4 < n) (hblock : blockOf n < 31) :
    offset n ≤ blockLength (blockOf n) := by
  have hle := pow_blockOf_le (show n ≠ 0 by omega)
  have hlt := lt_pow_blockOf n
  have hone := one_le_blockOf hn.le
  have hthird := pow_eq_third (blockOf n)
  have hpos := third_pos hone
  unfold offset blockLength
  apply Nat.lt_succ_iff.mp
  rw [Nat.div_lt_iff_lt_mul hpos, if_neg (show blockOf n ≠ 31 by omega)]
  rw [pow_succ] at hlt
  by_cases hk : blockOf n = 1
  · rw [hk] at hthird hle hlt hpos ⊢
    simp only [if_true]
    omega
  · have hbig : 4 ^ 2 ≤ 4 ^ blockOf n := Nat.pow_le_pow_right (by omega) (by omega)
    rw [if_neg hk]
    omega

theorem blockStart_succ {k : ℕ} (hk : k < 31) (hone : 1 ≤ k) :
    blockStart k + blockLength k = blockStart (k + 1) := by
  unfold blockStart blockLength
  split_ifs <;> omega

theorem blockStart_mono {k k' : ℕ} (h : k ≤ k') : blockStart k ≤ blockStart k' := by
  unfold blockStart
  split_ifs <;> omega

/-- Positions go up with the values, also from one block to the next. -/
theorem position_mono {n m : ℕ} (hn : 4 < n) (h : n ≤ m) (hm : m < 2 ^ 63) :
    position n ≤ position m := by
  have hblocks := blockOf_mono (show n ≠ 0 by omega) h
  rw [position_eq, position_eq]
  rcases Nat.lt_or_eq_of_le hblocks with hlt | heq
  · have hm' := blockOf_lt (show m ≠ 0 by omega) hm
    have hoffset := offset_le hn (by omega)
    have hnext := blockStart_succ (show blockOf n < 31 by omega) (one_le_blockOf hn.le)
    have hstarts := blockStart_mono (show blockOf n + 1 ≤ blockOf m from hlt)
    omega
  · have hoffsets : offset n ≤ offset m := by
      unfold offset
      rw [← heq]
      exact Nat.div_le_div_right (Nat.sub_le_sub_right h _)
    rw [heq]
    omega

/-- The value lies between its bucket's bounds, and the index counts the values that are
not above it. -/
structure Tightest (v : ℤ) (i : ℕ) : Prop where
  lower : ∃ b, Get (i - 1) = .ok b ∧ b ≤ v
  upper : i = Length - 1 ∨ ∃ b, Get i = .ok b ∧ v < b
  rank : i = min (rank kBucketValues v) (Length - 1)

def PicksTightest (v : ℤ) : Prop := ∃ i, IndexOf v = .ok i ∧ Tightest v i

/-- The last value of the first power of 4, or one of the last three of a later one that
another power of 4 follows in the table. -/
def RoundedOff (v : ℤ) : Prop := v = 15 ∨ ∃ k, 3 ≤ k ∧ k ≤ 30 ∧ 4 ^ k - 3 ≤ v ∧ v < 4 ^ k

theorem Get_eq_ok_iff {i : ℕ} {b : ℤ} : Get i = .ok b ↔ kBucketValues[i]? = some b := at_eq_ok_iff

theorem tightest_of_between {v x y : ℤ} {i : ℕ} (hi : i < 275)
    (hx : kBucketValues[i]? = some x) (hy : kBucketValues[i + 1]? = some y)
    (hxv : x ≤ v) (hvy : v < y) : Tightest v (i + 1) where
  lower := ⟨x, Get_eq_ok_iff.mpr hx, hxv⟩
  upper := Or.inr ⟨y, Get_eq_ok_iff.mpr hy, hvy⟩
  rank := by
    rw [rank_eq_succ kBucketValues_ascending hx hy hxv hvy]
    unfold Length
    omega

theorem tightest_last {v x : ℤ} (hx : kBucketValues[274]? = some x) (hxv : x ≤ v) :
    Tightest v 275 where
  lower := ⟨x, Get_eq_ok_iff.mpr hx, hxv⟩
  upper := Or.inl rfl
  rank := by
    have hlt := (le_iff_lt_rank kBucketValues_ascending hx).mp hxv
    unfold Length
    omega

theorem picksTightest_small {n : ℕ} (hone : 1 ≤ n) (hn : n ≤ 4) : PicksTightest n := by
  have htable : ∀ i : ℕ, i < 4 → kBucketValues[i]? = some ((i : ℤ) + 1) ∧
      kBucketValues[i + 1]? = some ((i : ℤ) + 2) := by
    rw [kBucketValues_eq]
    decide +kernel
  obtain ⟨i, rfl⟩ := Nat.exists_eq_add_of_le' hone
  have hindex : IndexOf ((i + 1 : ℕ) : ℤ) = .ok (i + 1) := by
    unfold IndexOf
    rw [if_neg (by omega), if_pos (by omega)]
    rfl
  have hi : i < 4 := by omega
  refine ⟨i + 1, hindex, tightest_of_between (by omega) (htable i hi).1 (htable i hi).2 ?_ ?_⟩
  · push_cast
    exact le_rfl
  · push_cast
    omega

theorem blockOf_lt_thirtyOne_iff {n : ℕ} (hn : n ≠ 0) : blockOf n < 31 ↔ n < 4 ^ 31 := by
  constructor
  · intro h
    exact (lt_pow_blockOf n).trans_le (Nat.pow_le_pow_right (by omega) h)
  · intro h
    have hlt := (pow_blockOf_le hn).trans_lt h
    exact (Nat.pow_lt_pow_iff_right (show 1 < 4 by omega)).mp hlt

/-- From the ninth third of the last power of 4 on every value is in the last bucket. -/
theorem picksTightest_last {n : ℕ} (hn : 4 ^ 30 + 8 * (4 ^ 30 / 3) ≤ n) (hlt : n < 2 ^ 63)
    (hposition : 274 ≤ position n) : PicksTightest n := by
  have hindex := IndexOf_of_gt (show 4 < n by omega) hlt
  rw [Nat.min_eq_right (show 275 ≤ position n + 1 by omega)] at hindex
  refine ⟨275, hindex, tightest_last (kBucketValues_getElem 30 (by omega) (by omega) 8 ?_) ?_⟩
  · decide
  · rw [if_pos (by decide)]
    exact_mod_cast hn

theorem picksTightest_of_capped {n : ℕ} (hn : 4 < n) (hmax : n < 2 ^ 63) (hblock : 30 ≤ blockOf n)
    (hoffset : ¬ (blockOf n < 31 ∧ offset n < blockLength (blockOf n))) : PicksTightest n := by
  have hle := pow_blockOf_le (show n ≠ 0 by omega)
  rcases Nat.lt_or_eq_of_le hblock with hlt | heq
  · have hblock' : blockOf n = 31 := by
      have h := blockOf_lt (show n ≠ 0 by omega) hmax
      omega
    rw [hblock'] at hle
    refine picksTightest_last (by omega) hmax ?_
    rw [position_eq, hblock']
    exact Nat.le_add_right_of_le (by decide)
  · have hmul : 9 ≤ (n - 4 ^ 30) / (4 ^ 30 / 3) := by
      have h : ¬ offset n < blockLength 30 := fun h => hoffset ⟨by omega, heq ▸ h⟩
      unfold offset at h
      rw [← heq] at h
      exact not_lt.mp h
    refine picksTightest_last ?_ hmax ?_
    · rw [Nat.le_div_iff_mul_le (third_pos (show 1 ≤ 30 by omega))] at hmul
      omega
    · unfold position
      rw [← heq]
      have hstart : blockStart 30 = 266 := rfl
      omega

theorem picksTightest_of_offset_lt {n : ℕ} (hn : 4 < n) (hblock : blockOf n < 31)
    (hoffset : offset n < blockLength (blockOf n)) : PicksTightest n := by
  have hne : n ≠ 0 := by omega
  have hone := one_le_blockOf hn.le
  have hpos := third_pos hone
  have hle := pow_blockOf_le hne
  have hlt := lt_pow_blockOf n
  have hmax : n < 2 ^ 63 := by
    have h := (blockOf_lt_thirtyOne_iff hne).mp hblock
    omega
  have hx := kBucketValues_getElem _ hblock hone (offset n) (by omega)
  have hy := kBucketValues_getElem _ hblock hone (offset n + 1) (by omega)
  rw [if_pos hoffset] at hx
  have hindex := IndexOf_of_gt hn hmax
  have hstart : position n < 275 := by
    rw [position_eq]
    unfold blockStart
    unfold blockLength at hoffset
    split_ifs at hoffset ⊢ <;> omega
  rw [Nat.min_eq_left (show position n + 1 ≤ 275 by omega)] at hindex
  refine ⟨position n + 1, hindex, tightest_of_between hstart hx hy ?_ ?_⟩
  · have hmul := Nat.div_mul_le_self (n - 4 ^ blockOf n) (4 ^ blockOf n / 3)
    unfold offset
    omega
  · have hmul := Nat.lt_mul_div_succ (n - 4 ^ blockOf n) hpos
    rw [mul_comm] at hmul
    have hnext : n < 4 ^ blockOf n + (offset n + 1) * (4 ^ blockOf n / 3) := by
      unfold offset
      omega
    split_ifs with hlast hk
    · exact_mod_cast hnext
    · rw [hk] at hlt
      unfold int64_max
      omega
    · exact_mod_cast hlt

/-- Behind the last third of a block `IndexOf` goes on to the next power of 4. -/
theorem not_picksTightest_of_offset_eq {n : ℕ} (hn : 4 < n) (hblock : blockOf n < 30)
    (hoffset : offset n = blockLength (blockOf n)) : ¬ PicksTightest n := by
  have hne : n ≠ 0 := by omega
  have hone := one_le_blockOf hn.le
  have hmax : n < 2 ^ 63 := by
    have h := (blockOf_lt_thirtyOne_iff hne).mp (by omega)
    omega
  have hposition : position n = blockStart (blockOf n + 1) := by
    rw [position_eq, hoffset, blockStart_succ (by omega) hone]
  have hx := kBucketValues_getElem _ (show blockOf n < 31 by omega) hone (offset n) (by omega)
  rw [if_neg (by omega), if_neg (by omega), ← position_eq] at hx
  have hindex := IndexOf_of_gt hn hmax
  rw [hposition, Nat.min_eq_left (by unfold blockStart; split_ifs <;> omega), ← hposition]
    at hindex
  intro hgiven
  rcases hgiven with ⟨i, hi, htight⟩
  obtain rfl : position n + 1 = i := Except.ok.inj (hindex.symm.trans hi)
  obtain ⟨b, hb, hle⟩ := htight.lower
  rw [Nat.add_sub_cancel, Get_eq_ok_iff, hx, Option.some.injEq] at hb
  have hlt := lt_pow_blockOf n
  rw [← hb] at hle
  have hle' : 4 ^ (blockOf n + 1) ≤ n := by exact_mod_cast hle
  omega

/-- The values without a place of their own in a block that another one follows. -/
theorem roundedOff_iff {n : ℕ} (hn : 4 < n) :
    RoundedOff n ↔ blockOf n < 30 ∧ ¬ offset n < blockLength (blockOf n) := by
  have hne : n ≠ 0 := by omega
  have hone := one_le_blockOf hn.le
  have hle := pow_blockOf_le hne
  have hlt := lt_pow_blockOf n
  constructor
  · intro hcases
    rcases hcases with h | ⟨k, hk, hk', hkle, hklt⟩
    · have hblock : blockOf n = 1 := blockOf_eq (by omega) (by omega)
      rw [offset_lt_iff hn (by omega), hblock, if_pos rfl]
      omega
    · obtain ⟨j, rfl⟩ := Nat.exists_eq_add_of_le' (show 1 ≤ k by omega)
      have hpow : 4 ^ 2 ≤ 4 ^ j := Nat.pow_le_pow_right (by omega) (by omega)
      have hlower : 4 ^ (j + 1) - 3 ≤ n := by
        have h : ((4 ^ (j + 1) : ℕ) : ℤ) - 3 ≤ n := by exact_mod_cast hkle
        omega
      have hupper : n < 4 ^ (j + 1) := by exact_mod_cast hklt
      have hblock : blockOf n = j := blockOf_eq (by rw [pow_succ] at hlower; omega) hupper
      rw [offset_lt_iff hn (by omega), hblock, if_neg (by omega)]
      omega
  · intro hgiven
    rcases hgiven with ⟨hblock, hoffset⟩
    rw [offset_lt_iff hn (by omega), not_lt] at hoffset
    by_cases hk : blockOf n = 1
    · left
      rw [hk] at hoffset hlt
      rw [if_pos rfl] at hoffset
      omega
    · right
      rw [if_neg hk] at hoffset
      refine ⟨blockOf n + 1, by omega, by omega, ?_, by exact_mod_cast hlt⟩
      have h : ((4 ^ (blockOf n + 1) : ℕ) : ℤ) ≤ n + 3 := by exact_mod_cast hoffset
      push_cast at h
      omega

/-- `IndexOf` picks the tightest bucket for every value but those that the rounding of a
third leaves behind the last value of a power of 4. -/
theorem picksTightest_iff {v : ℤ} (hone : 1 ≤ v) (hv : IsInt64 v) :
    PicksTightest v ↔ ¬ RoundedOff v := by
  obtain ⟨n, rfl⟩ := Int.eq_ofNat_of_zero_le (show 0 ≤ v by omega)
  have hmax : n < 2 ^ 63 := by
    have h := hv.2
    omega
  by_cases hn : 4 < n
  · have hne : n ≠ 0 := by omega
    rw [roundedOff_iff hn]
    by_cases hoffset : blockOf n < 31 ∧ offset n < blockLength (blockOf n)
    · exact iff_of_true (picksTightest_of_offset_lt hn hoffset.1 hoffset.2)
        fun h => h.2 hoffset.2
    · by_cases hblock : blockOf n < 30
      · have hle := offset_le hn (show blockOf n < 31 by omega)
        have hnot : ¬ offset n < blockLength (blockOf n) := fun h => hoffset ⟨by omega, h⟩
        exact iff_of_false (not_picksTightest_of_offset_eq hn hblock (by omega))
          fun h => h ⟨hblock, hnot⟩
      · refine iff_of_true ?_ fun h => hblock h.1
        exact picksTightest_of_capped hn hmax (by omega) hoffset
  · refine iff_of_true (picksTightest_small (by omega) (by omega)) ?_
    intro hcases
    rcases hcases with h | ⟨k, hk, -, hle, -⟩
    · omega
    · have hpow : (4 : ℤ) ^ 3 ≤ 4 ^ k := pow_le_pow_right₀ (by omega) hk
      omega

theorem picksTightest_eightySeven : (1 : ℤ) ≤ 87 ∧ (PicksTightest 87 ↔ ¬ RoundedOff 87) :=
  ⟨by omega, picksTightest_iff (by omega) (by decide)⟩

/-- 15 gets the bucket from 16 to 21. -/
theorem IndexOf_fifteen : ¬ ∀ v : ℤ, 1 ≤ v → IsInt64 v → PicksTightest v := by
  intro h
  obtain ⟨i, hi, htight⟩ := h 15 (by omega) (by decide)
  have hindex : IndexOf 15 = .ok 15 := by decide +kernel
  have hGet : Get 14 = .ok 16 := by decide +kernel
  obtain rfl : 15 = i := Except.ok.inj (hindex.symm.trans hi)
  obtain ⟨b, hb, hle⟩ := htight.lower
  obtain rfl : 16 = b := Except.ok.inj (hGet.symm.trans hb)
  omega

/-! The order of the indexes. -/

/-- What `IndexOf` returns. -/
def index (v : ℤ) : ℕ := if v ≤ 4 then v.toNat else min (position v.toNat + 1) 275

theorem IndexOf_eq_index {v : ℤ} (hv : IsInt64 v) : IndexOf v = .ok (index v) := by
  unfold index
  by_cases h : v ≤ 4
  · rw [if_pos h]
    unfold IndexOf
    by_cases h0 : v ≤ 0
    · rw [if_pos h0, Int.toNat_of_nonpos h0]
    · rw [if_neg h0, if_pos h]
  · obtain ⟨n, rfl⟩ := Int.eq_ofNat_of_zero_le (show 0 ≤ v by omega)
    have hmax := hv.2
    rw [if_neg h, Int.toNat_natCast]
    exact IndexOf_of_gt (by omega) (by omega)

theorem index_lt (v : ℤ) : index v < Length := by
  unfold index Length
  split_ifs <;> omega

theorem index_mono {v w : ℤ} (h : v ≤ w) (hw : w < 2 ^ 63) : index v ≤ index w := by
  unfold index
  by_cases hv4 : v ≤ 4
  · by_cases hw4 : w ≤ 4
    · rw [if_pos hv4, if_pos hw4]
      omega
    · have hone := one_le_blockOf (show 4 ≤ w.toNat by omega)
      have hstart : 3 ≤ blockStart (blockOf w.toNat) := blockStart_mono hone
      rw [if_pos hv4, if_neg hw4, position_eq]
      omega
  · have hposition := position_mono (show 4 < v.toNat by omega) (Int.toNat_le_toNat h) (by omega)
    rw [if_neg hv4, if_neg (by omega)]
    omega

theorem Get_index (v : ℤ) : ∃ b, Get (index v) = .ok b := by
  have hlt := index_lt v
  unfold Length at hlt
  rw [← length_kBucketValues] at hlt
  exact ⟨_, Get_eq_ok_iff.mpr (List.getElem?_eq_getElem hlt)⟩

theorem Bucket_eq_Get {v : ℤ} (hv : IsInt64 v) : Bucket v = Get (index v) := by
  unfold Bucket
  rw [IndexOf_eq_index hv]
  simp only [bind, Except.bind]

/-- No division by zero and no read behind a table, and the indexes and buckets are in the
order of the values. -/
theorem IndexOf_safe_and_ordered {v w : ℤ} (hv : IsInt64 v) (hw : IsInt64 w) (h : v ≤ w) :
    ∃ i j b c, (IndexOf v = .ok i ∧ Get i = .ok b ∧ Bucket v = .ok b) ∧
      (IndexOf w = .ok j ∧ Get j = .ok c ∧ Bucket w = .ok c) ∧
      i ≤ j ∧ j < Length ∧ b ≤ c := by
  obtain ⟨b, hb⟩ := Get_index v
  obtain ⟨c, hc⟩ := Get_index w
  have hindexes := index_mono h hw.2
  have hbc : b ≤ c :=
    getElem?_mono kBucketValues_ascending (Get_eq_ok_iff.mp hb) (Get_eq_ok_iff.mp hc) hindexes
  exact ⟨index v, index w, b, c, ⟨IndexOf_eq_index hv, hb, (Bucket_eq_Get hv).trans hb⟩,
    ⟨IndexOf_eq_index hw, hc, (Bucket_eq_Get hw).trans hc⟩, hindexes, index_lt w, hbc⟩

theorem IndexOf_safe_and_ordered_fifteen :
    ∃ i j b c, (IndexOf 15 = .ok i ∧ Get i = .ok b ∧ Bucket 15 = .ok b) ∧
      (IndexOf 20 = .ok j ∧ Get j = .ok c ∧ Bucket 20 = .ok c) ∧
      i ≤ j ∧ j < Length ∧ b ≤ c :=
  IndexOf_safe_and_ordered (by decide) (by decide) (by omega)

end percentile_buckets

end AtlasNative
