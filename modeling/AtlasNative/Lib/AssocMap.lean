import Mathlib.Algebra.BigOperators.Group.List.Basic
import Mathlib.Data.List.AList

/-!
# Updating every value of an association map

`updateAll f s` visits the entries of a map once, replaces the value of each key
by what `f` says, and erases the keys for which `f` says nothing.
-/

namespace AssocMap

set_option autoImplicit false

universe u v
variable {K : Type u} {V : K → Type v}

def updateEntry (f : ∀ k, V k → Option (V k)) (e : Sigma V) : Option (Sigma V) :=
  (f e.1 e.2).map (Sigma.mk e.1)

theorem updateEntry_eq_some_iff {f : ∀ k, V k → Option (V k)} {e e' : Sigma V} :
    updateEntry f e = some e' ↔ ∃ w, f e.1 e.2 = some w ∧ ⟨e.1, w⟩ = e' := by
  simp [updateEntry]

theorem nodupKeys_filterMap_updateEntry (f : ∀ k, V k → Option (V k)) (l : List (Sigma V))
    (hl : l.NodupKeys) : (l.filterMap (updateEntry f)).NodupKeys := by
  apply List.nodupKeys_iff_pairwise.mpr
  apply List.Pairwise.filterMap _ _ (List.nodupKeys_iff_pairwise.mp hl)
  intro e e' hne x hx y hy
  obtain ⟨_, _, rfl⟩ := updateEntry_eq_some_iff.mp hx
  obtain ⟨_, _, rfl⟩ := updateEntry_eq_some_iff.mp hy
  exact hne

def updateAll (f : ∀ k, V k → Option (V k)) (s : AList V) : AList V where
  entries := s.entries.filterMap (updateEntry f)
  nodupKeys := nodupKeys_filterMap_updateEntry f s.entries s.nodupKeys

variable [DecidableEq K]

@[simp] theorem lookup_updateAll (f : ∀ k, V k → Option (V k)) (s : AList V) (k : K) :
    (updateAll f s).lookup k = (s.lookup k).bind (f k) := by
  apply Option.ext
  intro w
  rw [← Option.mem_def, AList.mem_lookup_iff, Option.bind_eq_some_iff]
  constructor
  · intro h
    obtain ⟨⟨k', v⟩, hmem, he⟩ := List.mem_filterMap.mp h
    obtain ⟨w', hw, heq⟩ := updateEntry_eq_some_iff.mp he
    cases heq
    exact ⟨v, AList.mem_lookup_iff.mpr hmem, hw⟩
  · intro hgiven
    rcases hgiven with ⟨v, hv, hw⟩
    exact List.mem_filterMap.mpr
      ⟨⟨k, v⟩, AList.mem_lookup_iff.mp hv, updateEntry_eq_some_iff.mpr ⟨w, hw, rfl⟩⟩

/-- What the entries of a map give for one key, when every entry gives results for its
own key only. -/
theorem filter_flatMap_entries {B : Type v} (s : AList V) (f : ∀ k, V k → List B)
    (key : B → K) (hkey : ∀ k v, ∀ b ∈ f k v, key b = k) (k : K) :
    (s.entries.flatMap fun e => f e.1 e.2).filter (fun b => key b = k) =
      match s.lookup k with
      | some v => f k v
      | none => [] := by
  have hself : ∀ v, (f k v).filter (fun b => key b = k) = f k v := fun v =>
    List.filter_eq_self.mpr fun b hb => decide_eq_true (hkey k v b hb)
  have hother : ∀ e : Sigma V, e.1 ≠ k → (f e.1 e.2).filter (fun b => key b = k) = [] :=
    fun e hne => List.filter_eq_nil_iff.mpr fun b hb => by
      simpa [hkey e.1 e.2 b hb] using hne
  obtain ⟨entries, hnodup⟩ := s
  show (entries.flatMap fun e => f e.1 e.2).filter (fun b => key b = k) =
    match entries.dlookup k with
    | some v => f k v
    | none => []
  induction entries with
  | nil => rfl
  | cons e entries ih =>
    obtain ⟨hnot, hrest⟩ := List.nodupKeys_cons.mp hnodup
    rw [List.flatMap_cons, List.filter_append, ih hrest]
    obtain ⟨a, v⟩ := e
    by_cases ha : a = k
    · subst ha
      rw [hself, List.dlookup_cons_eq, List.dlookup_eq_none.mpr hnot, List.append_nil]
    · rw [hother ⟨a, v⟩ ha, List.dlookup_cons_ne _ _ (Ne.symm ha), List.nil_append]

/-! Two maps with related values. -/

theorem filterMap_keys (s : AList V) {B : Type v} (f : ∀ k, V k → B) :
    s.keys.filterMap (fun k => (s.lookup k).map (f k)) = s.entries.map fun e => f e.1 e.2 := by
  rw [AList.keys, List.keys, List.filterMap_map, ← List.filterMap_eq_map]
  apply List.filterMap_congr
  rintro ⟨k, v⟩ he
  simp [Option.mem_def.mp (AList.mem_lookup_iff.mpr he)]

/-- Maps whose values are related key by key give the same results in some order. -/
theorem perm_map_entries {W : K → Type v} {B : Type v} {s : AList V} {t : AList W}
    {R : ∀ k, V k → W k → Prop} (h : ∀ k, Option.Rel (R k) (s.lookup k) (t.lookup k))
    {f : ∀ k, V k → B} {g : ∀ k, W k → B}
    (hfg : ∀ k v w, s.lookup k = some v → t.lookup k = some w → R k v w → f k v = g k w) :
    (s.entries.map fun e => f e.1 e.2).Perm (t.entries.map fun e => g e.1 e.2) := by
  have hkeys : s.keys.Perm t.keys := by
    apply (List.perm_ext_iff_of_nodup s.keys_nodup t.keys_nodup).mpr
    intro k
    have hk := h k
    rw [← AList.mem_keys, ← AList.mem_keys, ← AList.lookup_isSome, ← AList.lookup_isSome]
    generalize s.lookup k = v at hk ⊢
    generalize t.lookup k = w at hk ⊢
    cases hk <;> rfl
  have hsame : (fun k => (s.lookup k).map (f k)) = fun k => (t.lookup k).map (g k) := by
    funext k
    have hk := h k
    generalize hv : s.lookup k = v at hk
    generalize hw : t.lookup k = w at hk
    cases hk with
    | none => rfl
    | some hvw => exact congrArg some (hfg k _ _ hv hw hvw)
  rw [← filterMap_keys, ← filterMap_keys, hsame]
  exact hkeys.filterMap _

theorem exists_lookup_insert_iff {M : Type v} {s : AList fun _ : K => M} {k : K}
    (h : s.lookup k = none) (v w : M) :
    (∃ k', (s.insert k v).lookup k' = some w) ↔ w = v ∨ ∃ k', s.lookup k' = some w := by
  constructor
  · rintro ⟨k', hk'⟩
    by_cases heq : k' = k
    · rw [heq, AList.lookup_insert] at hk'
      exact .inl (Option.some.inj hk').symm
    · rw [AList.lookup_insert_ne heq] at hk'
      exact .inr ⟨k', hk'⟩
  · rintro (rfl | ⟨k', hk'⟩)
    · exact ⟨k, AList.lookup_insert s⟩
    · refine ⟨k', ?_⟩
      rw [AList.lookup_insert_ne, hk']
      rintro rfl
      rw [h] at hk'
      cases hk'

section Total
variable {M : Type v} [AddCommMonoid M]

def total (s : AList fun _ : K => M) : M := (s.entries.map (·.2)).sum

theorem total_insert_of_notMem {s : AList fun _ : K => M} {k : K} (h : k ∉ s) (v : M) :
    total (s.insert k v) = v + total s := by
  rw [total, AList.entries_insert_of_notMem h]
  rfl

theorem sum_kerase {l : List (Sigma fun _ : K => M)} {k : K} {v : M}
    (h : l.dlookup k = some v) : (l.map (·.2)).sum = v + ((l.kerase k).map (·.2)).sum := by
  induction l with
  | nil => simp at h
  | cons e l ih =>
    obtain ⟨k', v'⟩ := e
    by_cases hk : k = k'
    · subst hk
      rw [List.dlookup_cons_eq, Option.some.injEq] at h
      subst h
      have hkerase : List.kerase k (⟨k, v'⟩ :: l) = l := List.kerase_cons_eq rfl
      rw [hkerase, List.map_cons, List.sum_cons]
    · rw [List.dlookup_cons_ne _ _ hk] at h
      have hkerase : List.kerase k (⟨k', v'⟩ :: l) = ⟨k', v'⟩ :: l.kerase k :=
        List.kerase_cons_ne hk
      rw [hkerase, List.map_cons, List.sum_cons, ih h, List.map_cons,
        List.sum_cons, add_left_comm]

theorem total_insert_of_lookup {s : AList fun _ : K => M} {k : K} {v : M}
    (h : s.lookup k = some v) (w : M) :
    ∃ rest, total s = v + rest ∧ total (s.insert k w) = w + rest := by
  refine ⟨_, sum_kerase h, ?_⟩
  rw [total, AList.entries_insert, List.map_cons, List.sum_cons]

end Total

end AssocMap
