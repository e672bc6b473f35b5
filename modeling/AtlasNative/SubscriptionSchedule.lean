import AtlasNative.SubscriptionManager

/-!
# The schedule of the subscriptions

The sender serves one interval in each iteration, the one whose index is the number of
the iteration modulo 12. So every interval is served once a minute, and only the interval
of a minute is served as often as its registry is to be reported.
-/

namespace AtlasNative

set_option autoImplicit false

section Serve
variable (rt : Runtime) (config : Config)

def Serves (m : SubscriptionManager) (run : ℕ) (underlying : ℤ) (i : Fin 12) : Prop :=
  (((i : ℕ) : ℤ) + 1) * kFastestFrequencyMillis ∈
    (m.main_sender_round rt config run underlying).2.subs.map Prod.fst

theorem sendMain_subscriptions (m : SubscriptionManager) (now : ℤ) (due : Bool) :
    (m.sendMain rt config now due).1.subscriptions_ = m.subscriptions_ := by
  unfold SubscriptionManager.sendMain
  split <;> rfl

theorem serves_iff {m : SubscriptionManager} (hsubs : config.AreSubsEnabled = true)
    (hnonempty : ∀ i, m.subscriptions_ i ≠ []) (run : ℕ) (underlying : ℤ) (i : Fin 12) :
    Serves rt config m run underlying i ↔ run % 12 = i := by
  have hkeep := sendMain_subscriptions rt config
    (m.update_registries config (m.WallTime underlying)) (m.WallTime underlying)
    (decide ((m.WallTime underlying).tmod 60000 < kFastestFrequencyMillis))
  have hidx : (((m.update_registries config (m.WallTime underlying)).sendMain rt config
      (m.WallTime underlying) (decide ((m.WallTime underlying).tmod 60000 <
        kFastestFrequencyMillis))).1.subscriptions_ (Fin.ofNat 12 run)).isEmpty = false := by
    rw [hkeep, List.isEmpty_eq_false_iff]
    exact hnonempty _
  rw [Serves, SubscriptionManager.main_sender_round, SubscriptionManager.sendSubs]
  simp only [hsubs, hidx, Bool.not_false, Bool.and_true, if_true, List.nil_append, List.map_cons,
    List.map_nil, List.mem_singleton]
  have hval : ((Fin.ofNat 12 run : Fin 12) : ℕ) = run % 12 := rfl
  rw [hval, kFastestFrequencyMillis]
  omega

end Serve

/-- The reporting step, of length `R`, of a value that is fed at wall time `t`. -/
def fedStep (R t : ℤ) : ℤ := (t - kFastestFrequencyMillis).tdiv R

/-- The reporting step that is polled at wall time `t`. -/
def polledStep (R t : ℤ) : ℤ := t.tdiv R - 1

/-- The interval is served in every iteration of one phase, and every value belongs to a
step that one send polls. Iteration `r` starts in the state `managers r`, `r` times 5 s
after the first one. -/
def ServedAtOwnInterval (rt : Runtime) (config : Config) (managers : ℕ → SubscriptionManager)
    (t₀ : ℤ) (i : Fin 12) : Prop :=
  let time := fun r : ℕ => t₀ + 5000 * r
  let served := fun r => Serves rt config (managers r) r (time r) i
  let R := kFastestFrequencyMillis * ((i : ℕ) + 1)
  (∃ c : ℕ, ∀ r, served r ↔ r % (i + 1) = c) ∧
    ∀ r, ∃! r', served r' ∧ r ≤ r' ∧ polledStep R (time r') = fedStep R (time r)

theorem existsUnique_polled {t₀ : ℤ} (ht₀ : 0 ≤ t₀) (r : ℕ) :
    ∃! r' : ℕ, r' % 12 = 11 ∧ r ≤ r' ∧
      polledStep 60000 (t₀ + 5000 * r') = fedStep 60000 (t₀ + 5000 * r) := by
  have hpolled : ∀ r' : ℕ, polledStep 60000 (t₀ + 5000 * r') = (t₀ + 5000 * r') / 60000 - 1 :=
    fun r' => by rw [polledStep, Int.tdiv_eq_ediv_of_nonneg (by omega)]
  have hfed : fedStep 60000 (t₀ + 5000 * r) = (t₀ + 5000 * r - 5000) / 60000 ∨
      r = 0 ∧ t₀ < 5000 ∧ fedStep 60000 (t₀ + 5000 * r) = 0 := by
    unfold fedStep kFastestFrequencyMillis
    have hcases := tdiv_sub_cases (t := t₀ + 5000 * r) (s := 5000) (d := 60000)
      (by omega) (by omega)
    omega
  simp only [hpolled]
  obtain ⟨q, hq⟩ : ∃ q : ℕ, (q : ℤ) =
      fedStep 60000 (t₀ + 5000 * r) - (t₀ + 55000) / 60000 + 1 :=
    ⟨_, Int.toNat_of_nonneg (by omega)⟩
  refine ⟨12 * q + 11, ⟨by omega, by omega, by omega⟩, ?_⟩
  rintro r' ⟨hphase, _, hstep⟩
  omega

def subscribedManager : SubscriptionManager :=
  { SubscriptionManager.create 60000 with
    subscriptions_ := fun i => [⟨"sub", 5000 * ((i : ℕ) + 1), ":true,:all"⟩] }

end AtlasNative
