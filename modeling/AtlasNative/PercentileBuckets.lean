import AtlasNative.Lib.ExceptRuns
import AtlasNative.Machine
import Mathlib.Algebra.Order.Ring.Int
import Mathlib.Data.List.Chain
import Mathlib.Tactic.Linarith

/-!
# The buckets of percentile meters

A generator fills two tables when the library is built: the values that bound the buckets,
a third of a power of 4 apart, and where the values of each power of 4 begin. `IndexOf`
computes the index of a bucket from the bits of a value instead of searching the table.
-/

namespace AtlasNative

set_option autoImplicit false

/-! The generator. -/

def kDigits : ℕ := 2

structure GeneratedTables where
  bucketValues : List ℤ
  powerOf4Index : List ℕ
  deriving DecidableEq

/-- `while (current < next)` -/
def fillBlock (delta next : ℤ) : ℕ → ℤ → List ℤ → Except Fault (List ℤ)
  | 0, _, _ => .error .unfinished
  | fuel + 1, current, bucketValues =>
    if current < next then
      fillBlock delta next fuel (wrap 64 (current + delta)) (bucketValues ++ [current])
    else .ok bucketValues

/-- `while (exp < 64)`; the last shift wraps around. -/
def fillTables : ℕ → ℕ → GeneratedTables → Except Fault GeneratedTables
  | 0, _, _ => .error .unfinished
  | fuel + 1, exp, tables =>
    if exp < 64 then do
      let current := wrap 64 ((1 : ℤ) <<< exp)
      let delta := current.tdiv 3
      let next := wrap 64 (wrap 64 (current <<< kDigits) - delta)
      let powerOf4Index := tables.powerOf4Index ++ [tables.bucketValues.length]
      let bucketValues ← fillBlock delta next 16 current tables.bucketValues
      fillTables fuel (exp + kDigits) ⟨bucketValues, powerOf4Index⟩
    else .ok ⟨tables.bucketValues ++ [int64_max], tables.powerOf4Index⟩

def init : Except Fault GeneratedTables := fillTables 32 kDigits ⟨[1, 2, 3], [0]⟩

namespace percentile_buckets

def tables : GeneratedTables :=
  match init with
  | .ok tables => tables
  | .error _ => ⟨[], []⟩

def kBucketValues : List ℤ := tables.bucketValues

def kPowerOf4Index : List ℕ := tables.powerOf4Index

def Length : ℕ := 276

def Get (i : ℕ) : Except Fault ℤ := at_ kBucketValues i

/-- The leading zeros of a positive 64-bit number. -/
def clzll (v : ℤ) : ℕ := 63 - v.toNat.log2

def IndexOf (v : ℤ) : Except Fault ℕ :=
  if v ≤ 0 then .ok 0
  else if v ≤ 4 then .ok v.toNat
  else do
    let lz := clzll v
    let shift := 64 - lz - 1
    let prevPowerOf2 := (v >>> shift) <<< shift
    let odd := shift % 2 ≠ 0
    let prevPowerOf4 := if odd then prevPowerOf2 >>> (1 : ℕ) else prevPowerOf2
    let shift := if odd then shift - 1 else shift
    let base := prevPowerOf4
    let delta := base.tdiv 3
    let offset ← quotient (v - base) delta
    let start ← at_ kPowerOf4Index (shift / 2)
    let pos := offset.toNat + start
    .ok (if pos ≥ kBucketValues.length - 1 then kBucketValues.length - 1 else pos + 1)

def Bucket (v : ℤ) : Except Fault ℤ := do
  let i ← IndexOf v
  Get i

/-! The tables. -/

/-- Where the values of the powers of 4 begin, by the generator's own count. -/
def blockStart (k : ℕ) : ℕ := if k = 0 then 0 else if k = 1 then 3 else 9 * k - 4

/-- How many values a power of 4 has; the first one has two more, the last one none. -/
def blockLength (k : ℕ) : ℕ := if k = 1 then 11 else if k = 31 then 0 else 9

def block (k : ℕ) : List ℤ :=
  (List.range (blockLength k)).map fun o => ((4 ^ k + o * (4 ^ k / 3) : ℕ) : ℤ)

theorem init_eq : init = .ok
    ⟨[1, 2, 3] ++ ((List.range 31).map (· + 1)).flatMap block ++ [int64_max],
      (List.range 32).map blockStart⟩ := by decide +kernel

theorem kBucketValues_eq :
    kBucketValues = [1, 2, 3] ++ ((List.range 31).map (· + 1)).flatMap block ++ [int64_max] := by
  rw [kBucketValues, tables, init_eq]

theorem kPowerOf4Index_eq : kPowerOf4Index = (List.range 32).map blockStart := by
  rw [kPowerOf4Index, tables, init_eq]

theorem length_kBucketValues : kBucketValues.length = 276 := by
  rw [kBucketValues_eq]
  decide +kernel

theorem kBucketValues_ascending : kBucketValues.Pairwise (· < ·) := by
  rw [kBucketValues_eq, ← List.isChain_iff_pairwise]
  decide +kernel

/-- The values of a power of 4 stand behind one another, and behind them the next power. -/
theorem kBucketValues_getElem : ∀ k < 31, 1 ≤ k → ∀ o < blockLength k + 1,
    kBucketValues[blockStart k + o]? = some (if o < blockLength k then
      ((4 ^ k + o * (4 ^ k / 3) : ℕ) : ℤ) else if k = 30 then int64_max else (4 : ℤ) ^ (k + 1)) := by
  rw [kBucketValues_eq]
  decide +kernel

/-! What `IndexOf` computes. -/

/-- The power of 4 that a number is in the block of. -/
def blockOf (n : ℕ) : ℕ := n.log2 / 2

theorem pow_blockOf_le {n : ℕ} (hn : n ≠ 0) : 4 ^ blockOf n ≤ n := by
  have hpow : 4 ^ blockOf n ≤ 2 ^ n.log2 := by
    rw [show (4 : ℕ) = 2 ^ 2 from rfl, ← pow_mul]
    apply Nat.pow_le_pow_right (by omega)
    unfold blockOf
    omega
  exact hpow.trans (Nat.log2_self_le hn)

theorem lt_pow_blockOf (n : ℕ) : n < 4 ^ (blockOf n + 1) := by
  have hpow : 2 ^ (n.log2 + 1) ≤ 4 ^ (blockOf n + 1) := by
    rw [show (4 : ℕ) = 2 ^ 2 from rfl, ← pow_mul]
    apply Nat.pow_le_pow_right (by omega)
    unfold blockOf
    omega
  exact Nat.lt_log2_self.trans_le hpow

theorem blockOf_lt {n : ℕ} (hn : n ≠ 0) (hlt : n < 2 ^ 63) : blockOf n < 32 := by
  have hlog := (Nat.log2_lt hn).mpr hlt
  unfold blockOf
  omega

theorem one_le_blockOf {n : ℕ} (hn : 4 ≤ n) : 1 ≤ blockOf n := by
  have hlog := (Nat.le_log2 (by omega)).mpr (show 2 ^ 2 ≤ n from hn)
  unfold blockOf
  omega

/-- The position of a value in the table: the start of its block, and the thirds of the
power of 4 that are between. -/
def position (n : ℕ) : ℕ := blockStart (blockOf n) + (n - 4 ^ blockOf n) / (4 ^ blockOf n / 3)

/-- The highest bit of a number. -/
theorem shiftLeft_shiftRight_log2 {n : ℕ} (hne : n ≠ 0) :
    ((n : ℤ) >>> n.log2) <<< n.log2 = ((2 ^ n.log2 : ℕ) : ℤ) := by
  have hone : n / 2 ^ n.log2 = 1 := by
    apply Nat.div_eq_of_lt_le
    · rw [one_mul]
      exact Nat.log2_self_le hne
    · have h := @Nat.lt_log2_self n
      rw [pow_succ] at h
      omega
  rw [Int.shiftRight_eq_div_pow, Int.shiftLeft_eq, ← Int.natCast_ediv, hone]
  simp

/-- The highest bit, or the one below it, is the power of 4 at which the block starts. -/
theorem prevPowerOf4_eq {n : ℕ} (hne : n ≠ 0) :
    (if n.log2 % 2 ≠ 0 then (((n : ℤ) >>> n.log2) <<< n.log2) >>> (1 : ℕ)
      else ((n : ℤ) >>> n.log2) <<< n.log2) = ((4 ^ blockOf n : ℕ) : ℤ) := by
  rw [shiftLeft_shiftRight_log2 hne, show (4 : ℕ) = 2 ^ 2 from rfl, ← pow_mul]
  by_cases hodd : n.log2 % 2 ≠ 0
  · have hsucc : n.log2 = 2 * blockOf n + 1 := by
      unfold blockOf
      omega
    rw [if_pos hodd, Int.shiftRight_eq_div_pow, ← Int.natCast_ediv, hsucc, pow_succ,
      Nat.mul_div_cancel _ (by omega)]
  · have heven : n.log2 = 2 * blockOf n := by
      unfold blockOf
      omega
    rw [if_neg hodd, ← heven]

theorem third_ne_zero {n : ℕ} (hn : 4 ≤ n) : ((4 ^ blockOf n / 3 : ℕ) : ℤ) ≠ 0 := by
  have hfour : 4 ^ 1 ≤ 4 ^ blockOf n := Nat.pow_le_pow_right (by omega) (one_le_blockOf hn)
  omega

theorem IndexOf_of_gt {n : ℕ} (hn : 4 < n) (hlt : n < 2 ^ 63) :
    IndexOf n = .ok (min (position n + 1) 275) := by
  have hne : n ≠ 0 := by omega
  have hlog : n.log2 < 63 := (Nat.log2_lt hne).mpr hlt
  have hshift : 64 - (63 - n.log2) - 1 = n.log2 := by omega
  have hhalf : (if n.log2 % 2 ≠ 0 then n.log2 - 1 else n.log2) / 2 = blockOf n := by
    unfold blockOf
    split <;> omega
  have hstart : at_ kPowerOf4Index (blockOf n) = .ok (blockStart (blockOf n)) := by
    rw [at_eq_ok_iff, kPowerOf4Index_eq, List.getElem?_map,
      List.getElem?_range (blockOf_lt hne hlt)]
    rfl
  have hthird : ((4 ^ blockOf n : ℕ) : ℤ).tdiv 3 = ((4 ^ blockOf n / 3 : ℕ) : ℤ) :=
    (Int.ofNat_tdiv _ 3).symm
  have hoffset : quotient ((n : ℤ) - ((4 ^ blockOf n : ℕ) : ℤ)) ((4 ^ blockOf n / 3 : ℕ) : ℤ) =
      .ok (((n - 4 ^ blockOf n) / (4 ^ blockOf n / 3) : ℕ) : ℤ) := by
    rw [quotient, if_neg (third_ne_zero hn.le), ← Int.natCast_sub (pow_blockOf_le hne)]
    rfl
  have hsmall : ¬ (n : ℤ) ≤ 0 ∧ ¬ (n : ℤ) ≤ 4 := by omega
  unfold IndexOf clzll
  rw [if_neg hsmall.1, if_neg hsmall.2]
  simp only [Int.toNat_natCast, hshift, prevPowerOf4_eq hne, hhalf, hthird, hoffset, hstart,
    length_kBucketValues, bind, Except.bind, Except.ok.injEq]
  unfold position
  split <;> omega

end percentile_buckets

end AtlasNative
