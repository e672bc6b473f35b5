import Mathlib.Algebra.Ring.Nat
import Mathlib.Data.List.Forall2
import Mathlib.Order.Lattice

/-!
# Hashes that shift and mix in

`mix s init l` folds words into a word: it shifts what it has by `s` and mixes in the
next word by exclusive or. What is left of a result after a further shift by `k` depends
on the order of the words unless they all agree as far as a shift by `k` shows.
-/

namespace ShiftHash

set_option autoImplicit false

universe u
variable {w : ℕ}

def mix (s : ℕ) (init : BitVec w) (l : List (BitVec w)) : BitVec w :=
  l.foldl (fun res x => res <<< s ^^^ x) init

@[simp] theorem mix_nil (s : ℕ) (init : BitVec w) : mix s init [] = init := rfl

@[simp] theorem mix_cons (s : ℕ) (init x : BitVec w) (l : List (BitVec w)) :
    mix s init (x :: l) = mix s (init <<< s ^^^ x) l := rfl

theorem mix_append (s : ℕ) (init : BitVec w) (l l' : List (BitVec w)) :
    mix s init (l ++ l') = mix s (mix s init l) l' := List.foldl_append

theorem mix_eq_xor (s : ℕ) (init : BitVec w) (l : List (BitVec w)) :
    mix s init l = init <<< (s * l.length) ^^^ mix s 0#w l := by
  induction l generalizing init with
  | nil => simp
  | cons x l ih =>
    have hlen : s * (x :: l).length = s + s * l.length := by
      rw [List.length_cons, Nat.mul_succ, Nat.add_comm]
    calc mix s init (x :: l)
        = (init <<< s ^^^ x) <<< (s * l.length) ^^^ mix s 0#w l := ih _
      _ = init <<< (s + s * l.length) ^^^ (x <<< (s * l.length) ^^^ mix s 0#w l) := by
          rw [BitVec.shiftLeft_xor_distrib, BitVec.shiftLeft_add, BitVec.xor_assoc]
      _ = init <<< (s * (x :: l).length) ^^^ mix s 0#w (x :: l) := by
          rw [hlen, mix_cons, BitVec.zero_shiftLeft, BitVec.zero_xor, ← ih]

theorem shiftLeft_comm (x : BitVec w) (m n : ℕ) : x <<< m <<< n = x <<< n <<< m := by
  rw [← BitVec.shiftLeft_add, Nat.add_comm, BitVec.shiftLeft_add]

theorem mix_congr {s k : ℕ} {init init' : BitVec w} {l l' : List (BitVec w)}
    (hinit : init <<< k = init' <<< k) (h : List.Forall₂ (fun x y : BitVec w => x <<< k = y <<< k) l l') :
    mix s init l <<< k = mix s init' l' <<< k := by
  induction h generalizing init init' with
  | nil => exact hinit
  | cons hxy _ ih =>
    apply ih
    rw [BitVec.shiftLeft_xor_distrib, BitVec.shiftLeft_xor_distrib, shiftLeft_comm, hinit,
      shiftLeft_comm, hxy]

theorem eq_zero_of_shiftLeft_eq_self {s : ℕ} (hs : 0 < s) {x : BitVec w} (h : x <<< s = x) :
    x = 0#w := by
  have hbit : ∀ i, x.getLsbD i = false := by
    intro i
    induction i using Nat.strong_induction_on with
    | _ i ih =>
      rw [← h, BitVec.getLsbD_shiftLeft]
      by_cases hi : i < s
      · simp [hi]
      · rw [ih (i - s) (by omega), Bool.and_false]
  apply BitVec.eq_of_getLsbD_eq
  intro i _
  rw [hbit i, BitVec.getLsbD_zero]

/-- Two words at the end can be swapped only if they agree. -/
theorem eq_of_mix_swap {s k : ℕ} (hs : 0 < s) {init x y : BitVec w}
    (h : mix s init [x, y] <<< k = mix s init [y, x] <<< k) : x <<< k = y <<< k := by
  simp only [mix_cons, mix_nil, BitVec.shiftLeft_xor_distrib, BitVec.xor_assoc,
    BitVec.xor_right_inj] at h
  rw [shiftLeft_comm x, shiftLeft_comm y] at h
  have hsame : (x <<< k ^^^ y <<< k) <<< s = x <<< k ^^^ y <<< k := by
    rw [BitVec.shiftLeft_xor_distrib]
    calc x <<< k <<< s ^^^ y <<< k <<< s
        = (x <<< k <<< s ^^^ y <<< k) ^^^ (y <<< k ^^^ y <<< k <<< s) := by
          rw [BitVec.xor_assoc, ← BitVec.xor_assoc (y <<< k), BitVec.xor_self, BitVec.zero_xor]
      _ = (y <<< k <<< s ^^^ x <<< k) ^^^ (y <<< k ^^^ y <<< k <<< s) := by rw [h]
      _ = x <<< k ^^^ y <<< k := by
          rw [BitVec.xor_comm (y <<< k <<< s), BitVec.xor_assoc, BitVec.xor_comm (y <<< k),
            ← BitVec.xor_assoc (y <<< k <<< s), BitVec.xor_self, BitVec.zero_xor]
  exact BitVec.xor_eq_zero_iff.mp (eq_zero_of_shiftLeft_eq_self hs hsame)

theorem exists_perm_append_pair {α : Type u} {l : List α} {x y : α} (hx : x ∈ l) (hy : y ∈ l)
    (hne : x ≠ y) : ∃ rest, (rest ++ [x, y]).Perm l := by
  obtain ⟨l1, l2, rfl⟩ := List.append_of_mem hx
  have hy' : y ∈ l1 ++ l2 := by
    rcases List.mem_append.mp hy with hl1 | hl2
    · exact List.mem_append_left _ hl1
    · exact List.mem_append_right _ ((List.mem_cons.mp hl2).resolve_left hne.symm)
  obtain ⟨m1, m2, hm⟩ := List.append_of_mem hy'
  refine ⟨m1 ++ m2, ?_⟩
  have hback : (m1 ++ m2 ++ [x, y]).Perm (x :: (l1 ++ l2)) := by
    rw [hm]
    apply List.perm_append_comm.trans
    change (x :: y :: (m1 ++ m2)).Perm (x :: (m1 ++ y :: m2))
    exact List.perm_middle.symm.cons x
  exact hback.trans List.perm_middle.symm

/-- A result is the same for every order of the words exactly when the words agree. -/
theorem order_independent_iff {α : Type u} {s : ℕ} (hs : 0 < s) (k : ℕ) (init : BitVec w)
    (f : α → BitVec w) (l : List α) :
    (∀ l' : List α, l'.Perm l → mix s init (l.map f) <<< k = mix s init (l'.map f) <<< k) ↔
      ∀ x ∈ l, ∀ y ∈ l, f x <<< k = f y <<< k := by
  constructor
  · intro h x hx y hy
    by_cases hne : x = y
    · rw [hne]
    · obtain ⟨rest, hrest⟩ := exists_perm_append_pair hx hy hne
      have hswap : (rest ++ [y, x]).Perm l :=
        ((List.Perm.swap x y []).append_left rest).trans hrest
      have hmix := (h _ hrest).symm.trans (h _ hswap)
      rw [List.map_append, List.map_append, mix_append, mix_append] at hmix
      exact eq_of_mix_swap hs hmix
  · intro h l' hl'
    apply mix_congr rfl
    rw [List.forall₂_map_left_iff, List.forall₂_map_right_iff, List.forall₂_iff_get]
    refine ⟨hl'.length_eq.symm, ?_⟩
    intro i hi hi'
    exact h _ (List.get_mem _ _) _ (hl'.mem_iff.mp (List.get_mem _ _))

/-- A word in the list counts as far as the words behind it do not shift it out. -/
theorem mix_set_eq_iff (s : ℕ) (init x y : BitVec w) (before after : List (BitVec w)) :
    mix s init (before ++ x :: after) = mix s init (before ++ y :: after) ↔
      x <<< (s * after.length) = y <<< (s * after.length) := by
  rw [mix_append, mix_append, mix_cons, mix_cons, mix_eq_xor, mix_eq_xor s (_ ^^^ y),
    BitVec.xor_left_inj, BitVec.shiftLeft_xor_distrib, BitVec.shiftLeft_xor_distrib,
    BitVec.xor_right_inj]

/-- Elements can be replaced by related ones exactly when, at each position, the words of
related elements agree as far as they count there. -/
theorem replacement_iff {α : Type u} {R : α → α → Prop} (hrefl : ∀ a, R a a) (s : ℕ)
    (init : BitVec w) (f : α → BitVec w) (v : List α) :
    (∀ v' : List α, List.Forall₂ R v v' → mix s init (v.map f) = mix s init (v'.map f)) ↔
      ∀ before a after, v = before ++ a :: after → ∀ b, R a b →
        f a <<< (s * after.length) = f b <<< (s * after.length) := by
  constructor
  · intro h before a after hv b hab
    subst hv
    have hsame : ∀ l : List α, List.Forall₂ R l l := fun l => List.forall₂_same.mpr fun a _ => hrefl a
    have hmix := h (before ++ b :: after)
      (List.rel_append (hsame before) (List.Forall₂.cons hab (hsame after)))
    rw [List.map_append, List.map_append, List.map_cons, List.map_cons, mix_set_eq_iff,
      List.length_map] at hmix
    exact hmix
  · intro h v' hv'
    induction hv' generalizing init with
    | nil => rfl
    | @cons a b v v' hab hrest ih =>
      have hhead := h [] a v rfl b hab
      have hset : mix s init (f a :: v.map f) = mix s init (f b :: v.map f) := by
        apply (mix_set_eq_iff s init (f a) (f b) [] (v.map f)).mpr
        rw [List.length_map]
        exact hhead
      rw [List.map_cons, List.map_cons, hset, mix_cons, mix_cons]
      apply ih
      intro before a' after hv
      exact h (a :: before) a' after (by rw [hv, List.cons_append])

theorem shiftLeft_eq_iff {x y : BitVec w} {k : ℕ} :
    x <<< k = y <<< k ↔ x.toNat % 2 ^ (w - k) = y.toNat % 2 ^ (w - k) := by
  rw [← BitVec.toNat_inj, BitVec.toNat_shiftLeft, BitVec.toNat_shiftLeft, Nat.shiftLeft_eq,
    Nat.shiftLeft_eq]
  by_cases hk : k ≤ w
  · have hw : 2 ^ w = 2 ^ (w - k) * 2 ^ k := by rw [← Nat.pow_add, Nat.sub_add_cancel hk]
    rw [hw, Nat.mul_mod_mul_right, Nat.mul_mod_mul_right]
    exact Nat.mul_right_cancel_iff (Nat.two_pow_pos k)
  · have hw : 2 ^ k = 2 ^ w * 2 ^ (k - w) := by
      rw [← Nat.pow_add, Nat.add_sub_cancel' (by omega)]
    have hzero : w - k = 0 := by omega
    rw [hzero, hw, Nat.mul_left_comm, Nat.mul_left_comm y.toNat, Nat.mul_mod_right,
      Nat.mul_mod_right, Nat.pow_zero, Nat.mod_one, Nat.mod_one]

end ShiftHash
