import Mathlib.Data.List.Induction

/-!
# Runs of steps that may fail

A fold in the exception monad is a run whose steps may fail. What each step preserves,
with the steps before it at hand, holds of every state that a run reaches.
-/

namespace ExceptRuns

set_option autoImplicit false

universe u v
variable {ε : Type u} {σ α : Type v}

theorem bind_eq_ok {x : Except ε α} {f : α → Except ε σ} {r : σ} :
    (x >>= f) = .ok r ↔ ∃ a, x = .ok a ∧ f a = .ok r := by
  cases x with
  | error e => simp [bind, Except.bind]
  | ok a => simp [bind, Except.bind]

theorem foldlM_append_eq_ok {f : σ → α → Except ε σ} {l l' : List α} {s s' : σ} :
    (l ++ l').foldlM f s = .ok s' ↔ ∃ t, l.foldlM f s = .ok t ∧ l'.foldlM f t = .ok s' := by
  rw [List.foldlM_append]
  exact bind_eq_ok

theorem foldlM_concat_eq_ok {f : σ → α → Except ε σ} {l : List α} {a : α} {s s' : σ} :
    (l ++ [a]).foldlM f s = .ok s' ↔ ∃ t, l.foldlM f s = .ok t ∧ f t a = .ok s' := by
  rw [foldlM_append_eq_ok]
  refine exists_congr fun t => and_congr_right fun _ => ?_
  rw [List.foldlM_cons, bind_eq_ok]
  constructor
  · intro hgiven
    rcases hgiven with ⟨t', ht', hs'⟩
    exact ht'.trans hs'
  · intro h
    exact ⟨s', h, rfl⟩

/-- A property of the steps so far and the state, which every step of the run keeps. -/
theorem foldlM_history {f : σ → α → Except ε σ} {P : List α → σ → Prop} {s s' : σ} {l : List α}
    (hnil : P [] s)
    (hstep : ∀ done a rest t t', l = done ++ a :: rest → done.foldlM f s = .ok t → P done t →
      f t a = .ok t' → P (done ++ [a]) t')
    (h : l.foldlM f s = .ok s') : P l s' := by
  induction l using List.reverseRecOn generalizing s' with
  | nil => exact Except.ok.inj h ▸ hnil
  | append_singleton l a ih =>
    obtain ⟨t, hl, ha⟩ := foldlM_concat_eq_ok.mp h
    have hbefore : P l t := by
      refine ih ?_ hl
      intro done a' rest u u' hdone
      exact hstep done a' (rest ++ [a]) u u' (by rw [hdone, List.append_assoc, List.cons_append])
    exact hstep l a [] t s' rfl hl hbefore ha

theorem foldlM_invariant {f : σ → α → Except ε σ} {P : σ → Prop} {s s' : σ} {l : List α}
    (hs : P s) (hstep : ∀ a ∈ l, ∀ t t', P t → f t a = .ok t' → P t')
    (h : l.foldlM f s = .ok s') : P s' := by
  refine foldlM_history (P := fun _ => P) hs ?_ h
  intro done a rest t t' hl _ ht hstep'
  exact hstep a (hl ▸ List.mem_append_right done List.mem_cons_self) t t' ht hstep'

end ExceptRuns
