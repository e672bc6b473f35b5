import Mathlib.Algebra.Order.Field.Basic
import Mathlib.Data.List.TakeWhile
import Mathlib.Tactic.Linarith

/-!
# Polylines

A polyline is a list of points that is read from its start. The segment of a level is the
first one whose end reaches the level, and inside of a segment values are interpolated.
-/

namespace Polyline

set_option autoImplicit false

variable {K : Type*} [LinearOrder K]

structure Point (K : Type*) where
  level : K
  value : K

def segment (p : K) : Point K → List (Point K) → Option (Point K × Point K)
  | _, [] => none
  | a, b :: points => if p ≤ b.level then some (a, b) else segment p b points

theorem segment_isSome {p : K} {a b : Point K} {points : List (Point K)} (hb : b ∈ points)
    (hp : p ≤ b.level) : ∃ s t, segment p a points = some (s, t) := by
  induction points generalizing a with
  | nil => cases hb
  | cons c points ih =>
    unfold segment
    by_cases hc : p ≤ c.level
    · exact ⟨a, c, if_pos hc⟩
    · rw [if_neg hc]
      apply ih
      cases hb with
      | head => exact absurd hp hc
      | tail _ hb => exact hb

/-- The ends of the segment are neighbours, and no point in front of them reaches the level. -/
theorem segment_spec {p : K} {a s t : Point K} {points : List (Point K)}
    (h : segment p a points = some (s, t)) :
    ∃ i, (a :: points)[i]? = some s ∧ points[i]? = some t ∧ p ≤ t.level ∧
      ∀ (j : ℕ) (c : Point K), j < i → points[j]? = some c → c.level < p := by
  induction points generalizing a with
  | nil => cases h
  | cons b points ih =>
    unfold segment at h
    by_cases hb : p ≤ b.level
    · rw [if_pos hb, Option.some.injEq, Prod.mk.injEq] at h
      obtain ⟨rfl, rfl⟩ := h
      exact ⟨0, rfl, rfl, hb, fun j c hj => absurd hj (Nat.not_lt_zero j)⟩
    · rw [if_neg hb] at h
      obtain ⟨i, hs, ht, hp, hbefore⟩ := ih h
      refine ⟨i + 1, hs, ht, hp, ?_⟩
      intro j c hj hc
      cases j with
      | zero =>
        obtain rfl : b = c := Option.some.inj hc
        exact not_le.mp hb
      | succ j => exact hbefore j c (Nat.lt_of_succ_lt_succ hj) hc

theorem level_lt_of_segment {p : K} {a s t : Point K} {points : List (Point K)}
    (h : segment p a points = some (s, t)) (ha : a.level < p) : s.level < p := by
  obtain ⟨i, hs, -, -, hbefore⟩ := segment_spec h
  cases i with
  | zero => exact Option.some.inj hs ▸ ha
  | succ i => exact hbefore i s (Nat.lt_succ_self i) hs

theorem value_lt_of_segment {p : K} {a s t : Point K} {points : List (Point K)}
    (hvalues : (a :: points).Pairwise fun b c => b.value < c.value)
    (h : segment p a points = some (s, t)) : s.value < t.value := by
  induction points generalizing a with
  | nil => cases h
  | cons b points ih =>
    obtain ⟨hfirst, hrest⟩ := List.pairwise_cons.mp hvalues
    unfold segment at h
    by_cases hb : p ≤ b.level
    · rw [if_pos hb, Option.some.injEq, Prod.mk.injEq] at h
      obtain ⟨rfl, rfl⟩ := h
      exact hfirst b List.mem_cons_self
    · rw [if_neg hb] at h
      exact ih hrest h

/-- What `f` makes of the segment of a level. -/
def along {β : Type*} (f : K → Point K → Point K → β) (default : β) (a : Point K)
    (points : List (Point K)) (p : K) : β :=
  (segment p a points).elim default fun st => f p st.1 st.2

theorem along_eq {β : Type*} {f : K → Point K → Point K → β} {default : β} {a s t : Point K}
    {points : List (Point K)} {p : K} (h : segment p a points = some (s, t)) :
    along f default a points p = f p s t := by
  rw [along, h, Option.elim_some]

theorem lt_of_mem_dropWhile {level : K} {ps : List K} (hps : ps.Pairwise (· ≤ ·)) {p : K}
    (hp : p ∈ ps.dropWhile (· ≤ level)) : level < p := by
  induction ps with
  | nil => cases hp
  | cons q ps ih =>
    obtain ⟨hq, hrest⟩ := List.pairwise_cons.mp hps
    rw [List.dropWhile_cons] at hp
    by_cases hle : q ≤ level
    · rw [if_pos (decide_eq_true hle)] at hp
      exact ih hrest hp
    · rw [if_neg (by simpa using hle)] at hp
      cases hp with
      | head => exact not_le.mp hle
      | tail _ hp => exact (not_le.mp hle).trans_le (hq p hp)

/-- Levels that ascend can be read in one pass: those that the first point reaches first. -/
theorem map_along_cons {β : Type*} (f : K → Point K → Point K → β) (default : β) (a b : Point K)
    (points : List (Point K)) {ps : List K} (hps : ps.Pairwise (· ≤ ·)) :
    ps.map (along f default a (b :: points)) =
      (ps.takeWhile (· ≤ b.level)).map (f · a b) ++
        (ps.dropWhile (· ≤ b.level)).map (along f default b points) := by
  conv_lhs => rw [← @List.takeWhile_append_dropWhile _ (· ≤ b.level) ps, List.map_append]
  congr 1
  · apply List.map_congr_left
    intro p hp
    have hle : p ≤ b.level := by simpa using List.mem_takeWhile_imp hp
    unfold along segment
    rw [if_pos hle]
    rfl
  · apply List.map_congr_left
    intro p hp
    have hlt := lt_of_mem_dropWhile hps hp
    unfold along
    conv_lhs => unfold segment
    rw [if_neg (not_le.mpr hlt)]

variable [Field K]

def interpolate (p : K) (a b : Point K) : K :=
  (p - a.level) / (b.level - a.level) * (b.value - a.value) + a.value

variable [IsStrictOrderedRing K]

theorem lt_interpolate {p : K} {a b : Point K} (ha : a.level < p) (hb : p ≤ b.level)
    (hvalue : a.value < b.value) : a.value < interpolate p a b := by
  have hshare : 0 < (p - a.level) / (b.level - a.level) :=
    div_pos (sub_pos.mpr ha) (sub_pos.mpr (ha.trans_le hb))
  have hpos := mul_pos hshare (sub_pos.mpr hvalue)
  unfold interpolate
  linarith

theorem interpolate_le {p : K} {a b : Point K} (ha : a.level < p) (hb : p ≤ b.level)
    (hvalue : a.value ≤ b.value) : interpolate p a b ≤ b.value := by
  have hshare : (p - a.level) / (b.level - a.level) ≤ 1 := by
    rw [div_le_one (sub_pos.mpr (ha.trans_le hb))]
    exact sub_le_sub_right hb _
  have hle := mul_le_mul_of_nonneg_right hshare (sub_nonneg.mpr hvalue)
  unfold interpolate
  linarith

theorem interpolate_mono {p q : K} {a b : Point K} (hlevel : a.level < b.level) (h : p ≤ q)
    (hvalue : a.value ≤ b.value) : interpolate p a b ≤ interpolate q a b := by
  have hshare := div_le_div_of_nonneg_right (sub_le_sub_right h a.level)
    (sub_nonneg.mpr hlevel.le)
  have hle := mul_le_mul_of_nonneg_right hshare (sub_nonneg.mpr hvalue)
  unfold interpolate
  exact add_le_add_left hle _

/-- Along a polyline whose values go up, higher levels have higher values. -/
theorem interpolate_segment_mono {p q : K} {a s t s' t' : Point K} {points : List (Point K)}
    (hvalues : (a :: points).Pairwise fun b c => b.value < c.value) (ha : a.level < p)
    (hpq : p ≤ q) (hs : segment p a points = some (s, t))
    (hs' : segment q a points = some (s', t')) :
    interpolate p s t ≤ interpolate q s' t' := by
  induction points generalizing a with
  | nil => cases hs
  | cons b points ih =>
    obtain ⟨hfirst, hrest⟩ := List.pairwise_cons.mp hvalues
    have hab := hfirst b List.mem_cons_self
    unfold segment at hs hs'
    by_cases hp : p ≤ b.level
    · rw [if_pos hp, Option.some.injEq, Prod.mk.injEq] at hs
      obtain ⟨rfl, rfl⟩ := hs
      by_cases hq : q ≤ b.level
      · rw [if_pos hq, Option.some.injEq, Prod.mk.injEq] at hs'
        obtain ⟨rfl, rfl⟩ := hs'
        exact interpolate_mono (ha.trans_le hp) hpq hab.le
      · rw [if_neg hq] at hs'
        have hlevel := level_lt_of_segment hs' (not_le.mp hq)
        have hst := value_lt_of_segment hrest hs'
        obtain ⟨i, hsi, -, hqt, -⟩ := segment_spec hs'
        have hbs : b.value ≤ s'.value := by
          cases List.mem_of_getElem? hsi with
          | head => exact le_rfl
          | tail _ hmem => exact ((List.pairwise_cons.mp hrest).1 s' hmem).le
        calc interpolate p a b ≤ b.value := interpolate_le ha hp hab.le
          _ ≤ s'.value := hbs
          _ ≤ interpolate q s' t' := (lt_interpolate hlevel hqt hst).le
    · rw [if_neg hp] at hs
      rw [if_neg fun hq => hp (hpq.trans hq)] at hs'
      exact ih hrest (not_le.mp hp) hs hs'

end Polyline
