import Mathlib.Data.List.Basic

/-!
# Running extremes

A fold that replaces its accumulator by an element exactly when the element comes strictly
before it, for an order that is total on the values of interest only (NaN stands outside).
The result comes before nothing it should not: it is the accumulator or an element, and
neither the accumulator nor any element comes before it.

Starting from a marker that stands for "nothing seen" and giving up when the marker is
left, the fold finds the first element of the list exactly when some element comes before
the marker.
-/

namespace Extremes

set_option autoImplicit false

universe u
variable {α : Type u}

/-- A strict order whose elements are comparable as far as `s` reaches. -/
structure StrictOrderOn (r : α → α → Prop) (s : α → Prop) : Prop where
  irrefl : ∀ a, ¬ r a a
  trans : ∀ {a b c}, r a b → r b c → r a c
  total : ∀ {a b}, s a → s b → r a b ∨ a = b ∨ r b a

def IsFirst (r : α → α → Prop) (vs : List α) (m : α) : Prop :=
  m ∈ vs ∧ ∀ v ∈ vs, ¬ r v m

variable {r : α → α → Prop} {s : α → Prop}

namespace StrictOrderOn

theorem flip (h : StrictOrderOn r s) : StrictOrderOn (fun a b => r b a) s where
  irrefl a := h.irrefl a
  trans hab hbc := h.trans hbc hab
  total ha hb := by
    rcases h.total ha hb with hlt | heq | hgt
    · exact Or.inr (Or.inr hlt)
    · exact Or.inr (Or.inl heq)
    · exact Or.inl hgt

theorem isFirst_unique (h : StrictOrderOn r s) {vs vs' : List α} {m m' : α}
    (hvs : ∀ v ∈ vs, s v) (hperm : vs.Perm vs') (hm : IsFirst r vs m)
    (hm' : IsFirst r vs' m') : m = m' := by
  have hm'_mem : m' ∈ vs := hperm.mem_iff.mpr hm'.1
  have hm_mem : m ∈ vs' := hperm.mem_iff.mp hm.1
  rcases h.total (hvs m hm.1) (hvs m' hm'_mem) with hlt | heq | hgt
  · exact False.elim (hm'.2 m hm_mem hlt)
  · exact heq
  · exact False.elim (hm.2 m' hm'_mem hgt)

end StrictOrderOn

section Fold
variable [DecidableRel r]

variable (r) in
/-- `b` only when it comes strictly before `a`. -/
def pick (a b : α) : α := if r b a then b else a

theorem pick_eq_or (a b : α) : pick r a b = a ∨ pick r a b = b := by
  unfold pick
  split
  · exact Or.inr rfl
  · exact Or.inl rfl

/-- What does not come before the accumulator, or is the element itself, does not come
before the choice between the two. -/
theorem not_before_pick (h : StrictOrderOn r s) (a b : α) :
    ¬ r a (pick r a b) ∧ ¬ r b (pick r a b) := by
  unfold pick
  split
  · rename_i hba
    exact ⟨fun hab => h.irrefl a (h.trans hab hba), h.irrefl b⟩
  · rename_i hba
    exact ⟨h.irrefl a, hba⟩

theorem foldl_pick_spec (h : StrictOrderOn r s) (vs : List α) (acc : α) (hacc : s acc)
    (hvs : ∀ v ∈ vs, s v) :
    (vs.foldl (pick r) acc = acc ∨ vs.foldl (pick r) acc ∈ vs) ∧
      ¬ r acc (vs.foldl (pick r) acc) ∧ ∀ v ∈ vs, ¬ r v (vs.foldl (pick r) acc) := by
  induction vs generalizing acc with
  | nil => exact ⟨Or.inl rfl, h.irrefl acc, by simp⟩
  | cons v vs ih =>
    obtain ⟨hv, hrest⟩ := List.forall_mem_cons.mp hvs
    have hpick : s (pick r acc v) := by
      rcases pick_eq_or (r := r) acc v with he | he <;> rw [he] <;> assumption
    obtain ⟨hmem, hle, hall⟩ := ih (pick r acc v) hpick hrest
    have hres : s (vs.foldl (pick r) (pick r acc v)) := by
      rcases hmem with he | he
      · rw [he]
        exact hpick
      · exact hrest _ he
    -- what does not come before the running choice does not come before the final one
    have hstep : ∀ x, ¬ r x (pick r acc v) → ¬ r x (vs.foldl (pick r) (pick r acc v)) := by
      intro x hx hbefore
      rcases h.total hpick hres with hlt | heq | hgt
      · exact hle hlt
      · exact hx (heq ▸ hbefore)
      · exact hx (h.trans hbefore hgt)
    obtain ⟨hacc_le, hv_le⟩ := not_before_pick h acc v
    rw [List.foldl_cons]
    refine ⟨?_, hstep acc hacc_le, ?_⟩
    · rcases hmem with he | he
      · rcases pick_eq_or (r := r) acc v with hp | hp
        · exact Or.inl (he.trans hp)
        · rw [he, hp]
          exact Or.inr List.mem_cons_self
      · exact Or.inr (List.mem_cons_of_mem _ he)
    · intro x hx
      rcases List.mem_cons.mp hx with rfl | hx
      · exact hstep _ hv_le
      · exact hall x hx

/-- The marker stays exactly when nothing comes before it. -/
theorem foldl_pick_eq_marker_iff (h : StrictOrderOn r s) (vs : List α) (marker : α)
    (hmarker : s marker) (hvs : ∀ v ∈ vs, s v) :
    vs.foldl (pick r) marker = marker ↔ ¬ ∃ v ∈ vs, r v marker := by
  obtain ⟨hmem, hle, hall⟩ := foldl_pick_spec h vs marker hmarker hvs
  constructor
  · rintro he ⟨v, hv, hbefore⟩
    apply hall v hv
    rw [he]
    exact hbefore
  · intro hnone
    rcases hmem with he | he
    · exact he
    · rcases h.total hmarker (hvs _ he) with hlt | heq | hgt
      · exact False.elim (hle hlt)
      · exact heq.symm
      · exact False.elim (hnone ⟨_, he, hgt⟩)

theorem foldl_pick_isFirst (h : StrictOrderOn r s) (vs : List α) (marker : α)
    (hmarker : s marker) (hvs : ∀ v ∈ vs, s v) (hbefore : ∃ v ∈ vs, r v marker) :
    IsFirst r vs (vs.foldl (pick r) marker) := by
  obtain ⟨hmem, _, hall⟩ := foldl_pick_spec h vs marker hmarker hvs
  refine ⟨?_, hall⟩
  rcases hmem with he | he
  · exact False.elim ((foldl_pick_eq_marker_iff h vs marker hmarker hvs).mp he hbefore)
  · exact he

end Fold

end Extremes
