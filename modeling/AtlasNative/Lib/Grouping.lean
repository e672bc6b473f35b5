import Mathlib.Data.List.Induction
import Mathlib.Data.List.Nodup
import Mathlib.Data.List.Perm.Basic

/-!
# Multimaps filled by appending

`push k v m` is `m[k].push_back(v)` on a map whose values are lists: the bucket
of `k` is created on first use and grows at its end. The order of the buckets is
the order of first use; a hash table may hold them in any other order, and the
lemmas below speak of the buckets as a set.
-/

namespace Grouping

set_option autoImplicit false

universe u v
variable {K : Type u} {V : Type v} [DecidableEq K]

def push (k : K) (v : V) : List (K × List V) → List (K × List V)
  | [] => [(k, [v])]
  | (k', vs) :: m => if k' = k then (k', vs ++ [v]) :: m else (k', vs) :: push k v m

/-- The multimap left by pushing the pairs of a list one after the other. -/
def ofPairs (l : List (K × V)) : List (K × List V) :=
  l.foldl (fun m p => push p.1 p.2 m) []

/-- The values pushed under `k`, in the order they came. -/
def bucket (k : K) (l : List (K × V)) : List V :=
  (l.filter fun p => p.1 = k).map Prod.snd

theorem mem_bucket (k : K) (v : V) (l : List (K × V)) : v ∈ bucket k l ↔ (k, v) ∈ l := by
  simp [bucket]

theorem bucket_append (k : K) (l r : List (K × V)) :
    bucket k (l ++ r) = bucket k l ++ bucket k r := by
  simp [bucket]

theorem bucket_singleton (k k' : K) (v : V) :
    bucket k [(k', v)] = if k' = k then [v] else [] := by
  by_cases h : k' = k <;> simp [bucket, h]

theorem bucket_map_mk (k k' : K) (vs : List V) :
    bucket k (vs.map (Prod.mk k')) = if k' = k then vs else [] := by
  induction vs with
  | nil => split <;> rfl
  | cons v vs ih =>
    rw [List.map_cons, ← List.singleton_append, bucket_append, bucket_singleton, ih]
    split <;> rfl

theorem ofPairs_concat (l : List (K × V)) (p : K × V) :
    ofPairs (l ++ [p]) = push p.1 p.2 (ofPairs l) := by
  simp [ofPairs]

theorem keys_push (k : K) (v : V) (m : List (K × List V)) :
    (push k v m).map Prod.fst =
      if k ∈ m.map Prod.fst then m.map Prod.fst else m.map Prod.fst ++ [k] := by
  induction m with
  | nil => simp [push]
  | cons e m ih =>
    by_cases h : e.1 = k
    · simp [push, h]
    · have hk : k ≠ e.1 := fun he => h he.symm
      simp only [push, if_neg h, List.map_cons, ih, List.mem_cons, hk, false_or]
      split <;> simp

theorem nodup_keys_ofPairs (l : List (K × V)) : ((ofPairs l).map Prod.fst).Nodup := by
  induction l using List.reverseRecOn with
  | nil => simp [ofPairs]
  | append_singleton l p ih =>
    rw [ofPairs_concat, keys_push]
    split
    · exact ih
    · rename_i h
      exact ih.append (List.nodup_singleton _) (by simpa using h)

theorem nodup_ofPairs (l : List (K × V)) : (ofPairs l).Nodup :=
  List.Nodup.of_map _ (nodup_keys_ofPairs l)

theorem mem_push {k k' : K} {v : V} {vs : List V} {m : List (K × List V)}
    (hm : (m.map Prod.fst).Nodup) :
    (k', vs) ∈ push k v m ↔
      (k' ≠ k ∧ (k', vs) ∈ m) ∨
      (k' = k ∧ ((∃ ws, (k, ws) ∈ m ∧ vs = ws ++ [v]) ∨ (k ∉ m.map Prod.fst ∧ vs = [v]))) := by
  induction m with
  | nil => simp [push]
  | cons e m ih =>
    obtain ⟨k₀, us⟩ := e
    have hnot : ∀ ws, (k₀, ws) ∉ m := by
      intro ws hws
      exact (List.nodup_cons.mp hm).1 (List.mem_map.mpr ⟨_, hws, rfl⟩)
    have ih := ih (List.nodup_cons.mp hm).2
    by_cases h : k₀ = k
    · subst h
      simp only [push, if_true, List.mem_cons, Prod.mk.injEq]
      constructor
      · intro hcases
        rcases hcases with ⟨rfl, rfl⟩ | hmem
        · exact Or.inr ⟨rfl, Or.inl ⟨us, Or.inl ⟨trivial, rfl⟩, rfl⟩⟩
        · refine Or.inl ⟨?_, Or.inr hmem⟩
          rintro rfl
          exact hnot _ hmem
      · intro hcases
        rcases hcases with ⟨hne, ⟨he, _⟩ | hmem⟩ | ⟨rfl, ⟨ws, ⟨_, rfl⟩ | hws, rfl⟩ | ⟨habs, _⟩⟩
        · exact False.elim (hne he)
        · exact Or.inr hmem
        · exact Or.inl ⟨rfl, rfl⟩
        · exact False.elim (hnot _ hws)
        · simp at habs
    · simp only [push, if_neg h, List.mem_cons, Prod.mk.injEq, ih]
      constructor
      · intro hcases
        rcases hcases with ⟨rfl, rfl⟩ | ⟨hne, hmem⟩ | ⟨rfl, ⟨ws, hws, rfl⟩ | ⟨habs, rfl⟩⟩
        · exact Or.inl ⟨h, Or.inl ⟨rfl, rfl⟩⟩
        · exact Or.inl ⟨hne, Or.inr hmem⟩
        · exact Or.inr ⟨rfl, Or.inl ⟨ws, Or.inr hws, rfl⟩⟩
        · refine Or.inr ⟨rfl, Or.inr ⟨?_, rfl⟩⟩
          simpa [Ne.symm h] using habs
      · intro hcases
        rcases hcases with ⟨hne, ⟨rfl, rfl⟩ | hmem⟩ | ⟨rfl, ⟨ws, ⟨rfl, _⟩ | hws, rfl⟩ | ⟨habs, rfl⟩⟩
        · exact Or.inl ⟨rfl, rfl⟩
        · exact Or.inr (Or.inl ⟨hne, hmem⟩)
        · exact False.elim (h rfl)
        · exact Or.inr (Or.inr ⟨rfl, Or.inl ⟨ws, hws, rfl⟩⟩)
        · refine Or.inr (Or.inr ⟨rfl, Or.inr ⟨?_, rfl⟩⟩)
          intro hk
          exact habs (List.mem_cons_of_mem _ hk)

theorem mem_ofPairs {k : K} {vs : List V} (l : List (K × V)) :
    (k, vs) ∈ ofPairs l ↔ vs = bucket k l ∧ vs ≠ [] := by
  induction l using List.reverseRecOn generalizing k vs with
  | nil => simp [ofPairs, bucket]
  | append_singleton l p ih =>
    obtain ⟨k₀, v⟩ := p
    have habs : k₀ ∉ (ofPairs l).map Prod.fst ↔ bucket k₀ l = [] := by
      constructor
      · intro h
        by_contra hne
        exact h (List.mem_map.mpr ⟨(k₀, bucket k₀ l), ih.mpr ⟨rfl, hne⟩, rfl⟩)
      · intro h hmem
        obtain ⟨⟨k₁, ws⟩, hws, rfl⟩ := List.mem_map.mp hmem
        exact (ih.mp hws).2 ((ih.mp hws).1.trans h)
    rw [ofPairs_concat, mem_push (nodup_keys_ofPairs l), bucket_append, bucket_singleton]
    by_cases hk : k₀ = k
    · subst hk
      simp only [ne_eq, not_true_eq_false, false_and, false_or, true_and, if_true, habs, ih]
      constructor
      · intro hcases
        rcases hcases with ⟨ws, ⟨rfl, _⟩, rfl⟩ | ⟨hnil, rfl⟩
        · simp
        · simp [hnil]
      · intro hgiven
        rcases hgiven with ⟨rfl, _⟩
        by_cases hnil : bucket k₀ l = []
        · exact Or.inr ⟨hnil, by simp [hnil]⟩
        · exact Or.inl ⟨_, ⟨rfl, hnil⟩, rfl⟩
    · have hk' : k ≠ k₀ := fun h => hk h.symm
      simp [hk, hk', ih]

/-- Two pair lists whose buckets agree up to `f`, where `f` may empty some of them,
build multimaps that agree up to `f` and the order of the buckets. -/
theorem ofPairs_perm_filter_map {W : Type v} (f : List V → List W)
    (l : List (K × V)) (r : List (K × W)) (hnil : f [] = [])
    (h : ∀ k, bucket k r = f (bucket k l)) :
    (ofPairs r).Perm
      (((ofPairs l).map fun e => (e.1, f e.2)).filter fun e => !e.2.isEmpty) := by
  apply (List.perm_ext_iff_of_nodup (nodup_ofPairs r) ?_).mpr
  · intro hgiven
    rcases hgiven with ⟨k, ws⟩
    simp only [mem_ofPairs, List.mem_filter, List.mem_map, Prod.mk.injEq, Prod.exists, h,
      Bool.not_eq_true', List.isEmpty_eq_false_iff]
    constructor
    · intro hgiven
      rcases hgiven with ⟨rfl, hne⟩
      refine ⟨⟨k, bucket k l, ⟨rfl, ?_⟩, rfl, rfl⟩, hne⟩
      intro hb
      exact hne (by rw [hb, hnil])
    · intro hgiven
      rcases hgiven with ⟨⟨_, _, ⟨rfl, _⟩, rfl, rfl⟩, hne⟩
      exact ⟨rfl, hne⟩
  · apply List.Nodup.filter
    apply List.Nodup.of_map Prod.fst
    have hfst : ((ofPairs l).map fun e => (e.1, f e.2)).map Prod.fst = (ofPairs l).map Prod.fst := by
      simp [Function.comp_def]
    rw [hfst]
    exact nodup_keys_ofPairs l

/-! The values of all buckets together. -/

theorem flatMap_push_perm (k : K) (v : V) (m : List (K × List V)) :
    ((push k v m).flatMap Prod.snd).Perm (m.flatMap Prod.snd ++ [v]) := by
  induction m with
  | nil => exact List.Perm.refl _
  | cons e m ih =>
    obtain ⟨k', vs⟩ := e
    by_cases h : k' = k
    · simp only [push, if_pos h, List.flatMap_cons, List.append_assoc]
      exact List.perm_append_comm.append_left vs
    · simp only [push, if_neg h, List.flatMap_cons, List.append_assoc]
      exact ih.append_left vs

theorem flatMap_ofPairs_perm (l : List (K × V)) :
    ((ofPairs l).flatMap Prod.snd).Perm (l.map Prod.snd) := by
  induction l using List.reverseRecOn with
  | nil => exact List.Perm.refl _
  | append_singleton l p ih =>
    rw [ofPairs_concat, List.map_append]
    exact (flatMap_push_perm p.1 p.2 (ofPairs l)).trans (ih.append_right _)

end Grouping
