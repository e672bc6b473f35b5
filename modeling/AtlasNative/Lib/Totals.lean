import AtlasNative.Lib.ExactDouble
import Mathlib.Data.List.Perm.Basic

/-!
# Running totals that start from NaN

A total whose start is NaN takes NaN for "nothing added yet" and lets the next summand
replace it. As long as the summands have a sum, the total is that sum. Infinities of both
signs turn a running total into NaN in the middle, and whatever follows starts it afresh:
what is left then depends on the order of the summands.
-/

namespace ExactDouble

namespace Double

set_option autoImplicit false

/-- Infinities of both signs, which have no sum. -/
def OppositeInfinities (vs : List Double) : Prop := .posInf ∈ vs ∧ .negInf ∈ vs

instance (vs : List Double) : Decidable (OppositeInfinities vs) :=
  inferInstanceAs (Decidable (_ ∧ _))

def addSeen (total v : Double) : Double := if total.isnan then v else total + v

theorem addSeen_nan (v : Double) : addSeen .nan v = v := rfl

theorem addSeen_of_not_nan {total : Double} (h : total.isnan = false) (v : Double) :
    addSeen total v = total + v := by
  rw [addSeen, h]
  rfl

theorem eq_nan_iff (v : Double) : v = .nan ↔ v.isnan = true := by
  cases v <;> simp [isnan]

theorem isnan_eq_false_iff (v : Double) : v.isnan = false ↔ v ≠ .nan := by
  cases v <;> simp [isnan]

theorem OppositeInfinities.of_perm {vs us : List Double} (h : vs.Perm us)
    (hvs : OppositeInfinities vs) : OppositeInfinities us :=
  ⟨h.mem_iff.mp hvs.1, h.mem_iff.mp hvs.2⟩

/-- Adding the first two summands leaves a number, and no new opposite infinities. -/
theorem add_head_of_not_opposite {acc v : Double} {vs : List Double}
    (hacc : acc.isnan = false) (hv : v.isnan = false)
    (h : ¬ OppositeInfinities (acc :: v :: vs)) :
    (acc + v).isnan = false ∧ ¬ OppositeInfinities ((acc + v) :: vs) := by
  simp only [OppositeInfinities, List.mem_cons] at h ⊢
  cases acc <;> cases v <;> simp_all [isnan, add_def, add]

theorem foldl_addSeen_of_number (vs : List Double) (acc : Double) (hacc : acc.isnan = false)
    (hvs : ∀ v ∈ vs, v.isnan = false) (h : ¬ OppositeInfinities (acc :: vs)) :
    vs.foldl addSeen acc = acc + vs.sum ∧ (vs.foldl addSeen acc).isnan = false := by
  induction vs generalizing acc with
  | nil => exact ⟨(add_zero acc).symm, hacc⟩
  | cons v vs ih =>
    obtain ⟨hv, hrest⟩ := List.forall_mem_cons.mp hvs
    obtain ⟨hnum, hopp⟩ := add_head_of_not_opposite hacc hv h
    rw [List.foldl_cons, addSeen_of_not_nan hacc, List.sum_cons, ← add_assoc]
    exact ih (acc + v) hnum hrest hopp

theorem foldl_addSeen_eq_sum {vs : List Double} (hne : vs ≠ [])
    (hvs : ∀ v ∈ vs, v.isnan = false) (h : ¬ OppositeInfinities vs) :
    vs.foldl addSeen .nan = vs.sum ∧ (vs.foldl addSeen .nan).isnan = false := by
  cases vs with
  | nil => exact False.elim (hne rfl)
  | cons v vs =>
    obtain ⟨hv, hrest⟩ := List.forall_mem_cons.mp hvs
    rw [List.foldl_cons, addSeen_nan, List.sum_cons]
    exact foldl_addSeen_of_number vs v hv hrest h

/-- Two opposite infinities at the end leave NaN, in the right one of the two orders. -/
theorem exists_perm_total_nan (rs : List Double) :
    ∃ us : List Double, us.Perm (.posInf :: .negInf :: rs) ∧ us.foldl addSeen .nan = .nan := by
  have hperm : ∀ l : List Double, l.Perm [.posInf, .negInf] →
      (rs ++ l).Perm (.posInf :: .negInf :: rs) := fun l hl =>
    (hl.append_left rs).trans List.perm_append_comm
  by_cases htotal : rs.foldl addSeen .nan = .negInf
  · refine ⟨rs ++ [.negInf, .posInf], hperm _ (List.Perm.swap _ _ _), ?_⟩
    rw [List.foldl_append, htotal]
    rfl
  · refine ⟨rs ++ [.posInf, .negInf], hperm _ (List.Perm.refl _), ?_⟩
    rw [List.foldl_append]
    generalize rs.foldl addSeen .nan = total at htotal ⊢
    cases total with
    | negInf => exact False.elim (htotal rfl)
    | _ => rfl

theorem OppositeInfinities.exists_perm {vs : List Double} (h : OppositeInfinities vs) :
    ∃ rs, vs.Perm (.posInf :: .negInf :: rs) := by
  have hpos : vs.Perm (.posInf :: vs.erase .posInf) := List.perm_cons_erase h.1
  have hneg : Double.negInf ∈ vs.erase .posInf := by
    rcases List.mem_cons.mp (hpos.mem_iff.mp h.2) with he | hmem
    · cases he
    · exact hmem
  exact ⟨_, hpos.trans ((List.perm_cons_erase hneg).cons _)⟩

/-- Two opposite infinities alone leave NaN in both orders. -/
theorem OppositeInfinities.total_of_length_two {vs : List Double} (h : OppositeInfinities vs)
    (hlen : vs.length = 2) : vs.foldl addSeen .nan = .nan := by
  obtain ⟨v, w, rfl⟩ := List.length_eq_two.mp hlen
  simp only [OppositeInfinities, List.mem_cons, List.not_mem_nil, or_false] at h
  obtain ⟨rfl | rfl, he | he⟩ := h
  · cases he
  · subst he
    rfl
  · subst he
    rfl
  · cases he

/-- With a third summand the total depends on the order. -/
theorem OppositeInfinities.exists_orders {vs : List Double} (h : OppositeInfinities vs)
    (hvs : ∀ v ∈ vs, v.isnan = false) (hlen : vs.length ≠ 2) :
    ∃ us ws : List Double, us.Perm vs ∧ ws.Perm vs ∧
      us.foldl addSeen .nan = .nan ∧ (ws.foldl addSeen .nan).isnan = false := by
  obtain ⟨rs, hrs⟩ := h.exists_perm
  cases rs with
  | nil => exact False.elim (hlen hrs.length_eq)
  | cons r rs =>
    obtain ⟨us, hus, hnan⟩ := exists_perm_total_nan (r :: rs)
    obtain ⟨ws, hws, hwnan⟩ := exists_perm_total_nan rs
    have hr : r.isnan = false := by
      apply hvs
      rw [hrs.mem_iff]
      simp
    -- the last summand replaces the NaN before it
    refine ⟨us, ws ++ [r], hus.trans hrs.symm, ?_, hnan, ?_⟩
    · apply List.Perm.trans _ hrs.symm
      apply (hws.append_right [r]).trans
      exact ((List.perm_append_singleton r rs).cons _).cons _
    · rw [List.foldl_append, hwnan]
      exact hr

theorem total_isnan_iff {vs : List Double} (hvs : ∀ v ∈ vs, v.isnan = false)
    (h : ¬ OppositeInfinities vs) : (vs.foldl addSeen .nan).isnan = true ↔ vs = [] := by
  constructor
  · intro hnan
    by_contra hne
    rw [(foldl_addSeen_eq_sum hne hvs h).2] at hnan
    cases hnan
  · rintro rfl
    rfl

/-- The total depends on no order exactly when the summands have a sum, or are two opposite
infinities and nothing else. -/
theorem total_perm {vs us : List Double} (hvs : ∀ v ∈ vs, v.isnan = false)
    (h : ¬ OppositeInfinities vs ∨ vs.length = 2) (hus : us.Perm vs) :
    us.foldl addSeen .nan = vs.foldl addSeen .nan := by
  by_cases hopp : OppositeInfinities vs
  · have hlen : vs.length = 2 := h.resolve_left fun hno => hno hopp
    rw [hopp.total_of_length_two hlen,
      (hopp.of_perm hus.symm).total_of_length_two (hus.length_eq.trans hlen)]
  · by_cases hne : vs = []
    · subst hne
      rw [hus.eq_nil]
    · have husne : us ≠ [] := by
        rintro rfl
        exact hne hus.symm.eq_nil
      have husopp : ¬ OppositeInfinities us := fun ho => hopp (ho.of_perm hus)
      have husnum : ∀ v ∈ us, v.isnan = false := fun v hv => hvs v (hus.mem_iff.mp hv)
      rw [(foldl_addSeen_eq_sum hne hvs hopp).1, (foldl_addSeen_eq_sum husne husnum husopp).1,
        hus.sum_eq]

theorem not_opposite_of_total_perm {vs : List Double} (hvs : ∀ v ∈ vs, v.isnan = false)
    (h : ∀ us : List Double, us.Perm vs →
      (us.foldl addSeen .nan).isnan = (vs.foldl addSeen .nan).isnan) :
    ¬ OppositeInfinities vs ∨ vs.length = 2 := by
  by_contra hcon
  rw [not_or, not_not] at hcon
  obtain ⟨us, ws, hus, hws, husnan, hwsnan⟩ := hcon.1.exists_orders hvs hcon.2
  have heq := (h us hus).trans (h ws hws).symm
  rw [husnan, hwsnan] at heq
  cases heq

theorem isnan_divBy (d : ℚ) (v : Double) : (v.divBy d).isnan = v.isnan := by
  cases v <;> rfl

end Double

end ExactDouble
