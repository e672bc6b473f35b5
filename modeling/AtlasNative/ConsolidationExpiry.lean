import AtlasNative.ConsolidationReference

/-!
# What the consolidation registry erases

An entry is erased by the second empty report in a row, and a report is judged from the
last completed reporting step alone. When the two reports are not a full step apart, the
values of the step between them are erased before they are reported.
-/

namespace AtlasNative

open ExactDouble Rolling Grouping ConsolidationRegistry
set_option autoImplicit false

/-- What `has_value` asks of the value that was polled. -/
def AggrOp.positive : AggrOp → Double → Prop
  | .Add, v => 0 < v
  | .Max, v => Double.lowest < v

def updateEvents (updates : List (ℤ × Measurements)) : List ConsEvent :=
  updates.map fun e => .update e.1 e.2

def valuesSince (id : Id) (updates : List (ℤ × Measurements)) : List Double :=
  updates.flatMap fun e => valuesFor id e.2

/-- A run calls `measurements` at `t`, after some updates that follow the call before it. -/
structure CallAt (events before : List ConsEvent) (updates : List (ℤ × Measurements)) (t : ℤ) :
    Prop where
  split : ∃ after, events = before ++ updateEvents updates ++ .measure t :: after
  previous : before = [] ∨ ∃ earlier t', before = earlier ++ [.measure t']

def Removes (u R : ℤ) (before : List ConsEvent) (updates : List (ℤ × Measurements)) (t : ℤ)
    (id : Id) : Prop :=
  let reg := runCons (.create u R) (before ++ updateEvents updates)
  reg.my_values.lookup id ≠ none ∧ (reg.afterMeasurements t).my_values.lookup id = none

/-- Some update passed a value for the id and wrote it to the reporting step `k`. -/
def WrittenTo (u R : ℤ) (id : Id) (events : List ConsEvent) (k : ℤ) : Prop :=
  ∃ earlier s values later, events = earlier ++ .update s values :: later ∧
    valuesFor id values ≠ [] ∧
    ∃ c, (runCons (.create u R) (earlier ++ [.update s values])).my_values.lookup id = some c ∧
      c.v.last_init_pos_ = k

/-- A value came since the call before, or is in a step that the clock has not completed. -/
def Fresh (u R : ℤ) (before : List ConsEvent) (updates : List (ℤ × Measurements)) (t : ℤ)
    (id : Id) : Prop :=
  valuesSince id updates ≠ [] ∨
    ∃ k, t.tdiv R ≤ k ∧ WrittenTo u R id (before ++ updateEvents updates) k

def NeverDiscardsFresh (u R : ℤ) (events : List ConsEvent) : Prop :=
  ∀ before updates t, CallAt events before updates t →
    ∀ id, Removes u R before updates t id → ¬ Fresh u R before updates t id

/-- The steps to which updates write values for an id whose entry has reached step `pos`. -/
def updatesLog (u R pos : ℤ) (id : Id) (updates : List (ℤ × Measurements)) : List (ℤ × Double) :=
  updates.flatMap fun e => (valuesFor id e.2).map (Prod.mk (max pos ((e.1 + offset u).tdiv R)))

/-- The step that an entry is in once values were written to it. -/
def reached (pos : ℤ) (log : List (ℤ × Double)) : ℤ := (log.map Prod.fst).foldl max pos

/-- What an entry and the updates after it hold for a step `k` that the entry has not passed. -/
def heldFor (u R : ℤ) (id : Id) (c : ConsolidatedValue) (updates : List (ℤ × Measurements))
    (k : ℤ) : Double :=
  (bucket k (updatesLog u R c.v.last_init_pos_ id updates)).foldl
    ((aggregate_op id).combine (multiple u R))
    (if c.v.last_init_pos_ = k then c.v.current_ else (aggregate_op id).init)

/-- The step in which a call polls an entry: that of the clock, unless the updates took the
entry beyond it. -/
def polledIn (u R : ℤ) (id : Id) (c : ConsolidatedValue) (updates : List (ℤ × Measurements))
    (t : ℤ) : ℤ :=
  max (reached c.v.last_init_pos_ (updatesLog u R c.v.last_init_pos_ id updates)) (t.tdiv R)

/-- Whenever a call finds fresh values in an entry that the call before it has marked, a
reporting step has begun between the two, and the last completed one holds something. -/
def FillsCompletedStep (u R : ℤ) (events : List ConsEvent) : Prop :=
  ∀ before updates t, CallAt events before updates t →
    ∀ id c, (runCons (.create u R) before).my_values.lookup id = some c → c.marked_ = true →
      Fresh u R before updates t id →
      c.v.last_init_pos_ < polledIn u R id c updates t ∧
        (aggregate_op id).positive
          (heldFor u R id c updates (polledIn u R id c updates t - 1))

theorem reached_append (pos : ℤ) (log log' : List (ℤ × Double)) :
    reached pos (log ++ log') = reached (reached pos log) log' := by
  rw [reached, List.map_append, List.foldl_append]
  rfl

theorem le_reached (pos : ℤ) (log : List (ℤ × Double)) : pos ≤ reached pos log := by
  induction log generalizing pos with
  | nil => exact le_rfl
  | cons e log ih => exact (le_max_left pos e.1).trans (ih _)

theorem reached_le {pos b : ℤ} {log : List (ℤ × Double)} (hpos : pos ≤ b)
    (hlog : ∀ e ∈ log, e.1 ≤ b) : reached pos log ≤ b := by
  induction log generalizing pos with
  | nil => exact hpos
  | cons e log ih =>
    obtain ⟨he, hrest⟩ := List.forall_mem_cons.mp hlog
    exact ih (max_le hpos he) hrest

theorem updatesLog_concat (u R pos : ℤ) (id : Id) (updates : List (ℤ × Measurements))
    (e : ℤ × Measurements) :
    updatesLog u R pos id (updates ++ [e]) = updatesLog u R pos id updates ++
      (valuesFor id e.2).map (Prod.mk (max pos ((e.1 + offset u).tdiv R))) := by
  simp [updatesLog]

theorem valueAt_updatesLog {f : Double → Double → Double} {init : Double} {r : Roller Double}
    {log : List (ℤ × Double)} (h : Tracks f init r log) (u R : ℤ) (id : Id)
    (updates : List (ℤ × Measurements)) {k : ℤ} (hk : r.pos ≤ k) :
    valueAt f init (log ++ updatesLog u R r.pos id updates) (k - 1) =
      if r.pos = k then r.previous
      else (bucket (k - 1) (updatesLog u R r.pos id updates)).foldl f
        (if r.pos = k - 1 then r.current else init) := by
  rw [valueAt, bucket_append, List.foldl_append]
  by_cases hreached : r.pos = k
  · have hnone : bucket (k - 1) (updatesLog u R r.pos id updates) = [] := by
      apply List.eq_nil_iff_forall_not_mem.mpr
      intro v hv
      obtain ⟨e, _, hmem⟩ := List.mem_flatMap.mp ((mem_bucket _ v _).mp hv)
      obtain ⟨w, _, heq⟩ := List.mem_map.mp hmem
      have hstep : max r.pos ((e.1 + offset u).tdiv R) = k - 1 := (Prod.mk.inj heq).1
      have hle := le_max_left r.pos ((e.1 + offset u).tdiv R)
      omega
    rw [if_pos hreached, hnone, List.foldl_nil, h.previous, hreached, valueAt]
  · rw [if_neg hreached]
    congr 1
    by_cases hcurrent : r.pos = k - 1
    · rw [if_pos hcurrent, h.current, hcurrent, valueAt]
    · rw [if_neg hcurrent]
      exact valueAt_of_lt f init h.bound (by omega)

namespace Holds
variable {op : AggrOp} {m R : ℤ} {c : ConsolidatedValue} {log : List (ℤ × Double)}

theorem has_value_iff (h : Holds op m R c log) (wall : ℤ) :
    c.has_value wall = true ↔ op.positive (c.v.Poll wall) := by
  cases op with
  | Add =>
    have hgauge : c.is_gauge_ = false := h.is_gauge
    rw [ConsolidatedValue.has_value, hgauge]
    exact decide_eq_true_iff
  | Max =>
    have hgauge : c.is_gauge_ = true := h.is_gauge
    rw [ConsolidatedValue.has_value, hgauge]
    exact decide_eq_true_iff

theorem foldl_record (h : Holds op m R c log) (now : ℤ) (vs : List Double) :
    ∃ c', vs.foldl (ConsolidatedValue.record (decide (op = AggrOp.Max)) m R now) (some c) =
        some c' ∧
      Holds op m R c' (log ++ vs.map (Prod.mk (max c.v.last_init_pos_ (now.tdiv R)))) ∧
      c'.v.last_init_pos_ = reached c.v.last_init_pos_
        (vs.map (Prod.mk (max c.v.last_init_pos_ (now.tdiv R)))) := by
  induction vs generalizing c log with
  | nil => exact ⟨c, rfl, by simpa using h, rfl⟩
  | cons v vs ih =>
    obtain ⟨hupdate, hpos⟩ := h.update now v
    obtain ⟨c', hfold, hholds, hreached⟩ := ih hupdate
    rw [hpos, max_assoc, max_self] at hholds hreached
    rw [List.append_assoc, List.singleton_append] at hholds
    refine ⟨c', hfold, hholds, hreached.trans ?_⟩
    rw [List.map_cons, ← List.singleton_append, reached_append]
    congr 1
    exact (max_eq_right (le_max_left _ _)).symm

end Holds

section Entries
variable {u R : ℤ} {id : Id}

theorem lookup_update {reg : ConsolidationRegistry} (hu : reg.update_frequency_ = u)
    (hR : reg.reporting_frequency_ = R) (id : Id) (s : ℤ) (values : Measurements) :
    (reg.update_from s values).my_values.lookup id =
      (valuesFor id values).foldl
        (ConsolidatedValue.record (decide (aggregate_op id = AggrOp.Max)) (multiple u R) R
          (s + offset u))
        (reg.my_values.lookup id) := by
  rw [update_from, lookup_foldl_update_one, hu, hR]

theorem exists_holds_run (events : List ConsEvent) {c : ConsolidatedValue}
    (hc : (runCons (.create u R) events).my_values.lookup id = some c) :
    ∃ log, Holds (aggregate_op id) (multiple u R) R c log := by
  induction events using List.reverseRecOn generalizing c with
  | nil => simp [runCons, ConsolidationRegistry.create] at hc
  | append_singleton events e ih =>
    obtain ⟨hfreq, hreporting⟩ := runCons_frequencies (.create u R) events
    rw [runCons_concat] at hc
    cases e with
    | update s values =>
      have hfold := lookup_update hfreq hreporting id s values
      rw [show ConsEvent.apply (runCons (.create u R) events) (.update s values) =
        (runCons (.create u R) events).update_from s values from rfl, hfold] at hc
      cases hentry : (runCons (.create u R) events).my_values.lookup id with
      | some c₀ =>
        obtain ⟨log, hholds⟩ := ih hentry
        rw [hentry] at hc
        obtain ⟨c', hc', hholds', _⟩ := hholds.foldl_record (s + offset u) (valuesFor id values)
        obtain rfl := Option.some.inj (hc.symm.trans hc')
        exact ⟨_, hholds'⟩
      | none =>
        rw [hentry] at hc
        cases hvs : valuesFor id values with
        | nil => simp [hvs] at hc
        | cons v vs =>
          -- the first value finds a new entry, in the step of the clock
          rw [hvs] at hc
          obtain ⟨c', hc', hholds', _⟩ := (Holds.create (aggregate_op id) (multiple u R) R
            (s + offset u)).foldl_record (s + offset u) (v :: vs)
          obtain rfl := Option.some.inj (hc.symm.trans hc')
          exact ⟨_, hholds'⟩
    | measure t =>
      rw [show ConsEvent.apply (runCons (.create u R) events) (.measure t) =
        (runCons (.create u R) events).afterMeasurements t from rfl,
        lookup_afterMeasurements] at hc
      obtain ⟨c₀, hentry, hreport⟩ := Option.bind_eq_some_iff.mp hc
      obtain ⟨log, hholds⟩ := ih hentry
      exact ⟨log, (hholds.report t hreport).1⟩

theorem lookup_updateEvents {reg : ConsolidationRegistry} (hfreq : reg.update_frequency_ = u)
    (hreporting : reg.reporting_frequency_ = R) (hR : 0 < R) {c : ConsolidatedValue}
    {log : List (ℤ × Double)} (hc : reg.my_values.lookup id = some c)
    (h : Holds (aggregate_op id) (multiple u R) R c log) (updates : List (ℤ × Measurements))
    (hordered : updates.Pairwise fun e e' => e.1 ≤ e'.1) :
    ∃ c', (runCons reg (updateEvents updates)).my_values.lookup id = some c' ∧
      Holds (aggregate_op id) (multiple u R) R c'
        (log ++ updatesLog u R c.v.last_init_pos_ id updates) ∧
      c'.v.last_init_pos_ =
        reached c.v.last_init_pos_ (updatesLog u R c.v.last_init_pos_ id updates) := by
  induction updates using List.reverseRecOn with
  | nil => exact ⟨c, hc, by simpa [updatesLog] using h, rfl⟩
  | append_singleton updates e ih =>
    obtain ⟨hpairs, _, hlast⟩ := List.pairwise_append.mp hordered
    obtain ⟨c', hc', hholds, hpos⟩ := ih hpairs
    have hfreqs := runCons_frequencies reg (updateEvents updates)
    obtain ⟨c'', hc'', hholds', hpos'⟩ :=
      hholds.foldl_record (e.1 + offset u) (valuesFor id e.2)
    have hsteps : ∀ x ∈ updatesLog u R c.v.last_init_pos_ id updates,
        x.1 ≤ max c.v.last_init_pos_ ((e.1 + offset u).tdiv R) := by
      intro x hx
      obtain ⟨e', he', hx⟩ := List.mem_flatMap.mp hx
      obtain ⟨v, _, rfl⟩ := List.mem_map.mp hx
      have htimes := hlast e' he' e (by simp)
      exact max_le_max le_rfl (Int.tdiv_le_tdiv hR (by omega))
    -- an entry that was moved by the earlier updates is not beyond this one
    have hmax : max c'.v.last_init_pos_ ((e.1 + offset u).tdiv R) =
        max c.v.last_init_pos_ ((e.1 + offset u).tdiv R) := by
      rw [hpos]
      exact le_antisymm (max_le (reached_le (le_max_left _ _) hsteps) (le_max_right _ _))
        (max_le_max (le_reached _ _) le_rfl)
    rw [hmax] at hholds' hpos'
    refine ⟨c'', ?_, ?_, ?_⟩
    · rw [updateEvents, List.map_append, List.map_singleton, runCons_concat]
      show ((runCons reg (updateEvents updates)).update_from e.1 e.2).my_values.lookup id = _
      rw [lookup_update (hfreqs.1.trans hfreq) (hfreqs.2.trans hreporting), hc', hc'']
    · rw [updatesLog_concat, ← List.append_assoc]
      exact hholds'
    · rw [updatesLog_concat, reached_append, ← hpos]
      exact hpos'

theorem marked_updateEvents (reg : ConsolidationRegistry) (id : Id)
    (updates : List (ℤ × Measurements)) :
    marked ((runCons reg (updateEvents updates)).my_values.lookup id) =
      marked (reg.my_values.lookup id) := by
  induction updates using List.reverseRecOn with
  | nil => rfl
  | append_singleton updates e ih =>
    rw [updateEvents, List.map_append, List.map_singleton, runCons_concat]
    show marked (((runCons reg (updateEvents updates)).update_from e.1 e.2).my_values.lookup id) = _
    rw [lookup_update rfl rfl, marked_foldl_record, ih]

/-- An entry that a call left marked holds nothing for the step before its own. -/
theorem previous_of_marked {earlier : List ConsEvent} {t' : ℤ} {c : ConsolidatedValue}
    (hc : (runCons (.create u R) (earlier ++ [.measure t'])).my_values.lookup id = some c)
    (hmarked : c.marked_ = true) : ¬ (aggregate_op id).positive c.v.previous_ := by
  rw [runCons_concat] at hc
  rw [show ConsEvent.apply (runCons (.create u R) earlier) (.measure t') =
    (runCons (.create u R) earlier).afterMeasurements t' from rfl, lookup_afterMeasurements] at hc
  obtain ⟨c₀, hentry, hreport⟩ := Option.bind_eq_some_iff.mp hc
  obtain ⟨log, hholds⟩ := exists_holds_run earlier hentry
  unfold ConsolidatedValue.report at hreport
  split_ifs at hreport with hvalue hwas
  · -- an entry that was reported is not marked
    obtain rfl := Option.some.inj hreport
    exact absurd hmarked Bool.false_ne_true
  · obtain rfl := Option.some.inj hreport
    exact fun hpositive => hvalue ((hholds.has_value_iff t').mpr hpositive)

end Entries

section Calls
variable {u R t : ℤ} {events before : List ConsEvent} {updates : List (ℤ × Measurements)}

/-- The times of a run do not decrease. -/
def InOrder (events : List ConsEvent) : Prop := events.Pairwise fun e e' => e.time ≤ e'.time

theorem CallAt.in_order (h : CallAt events before updates t) (hordered : InOrder events) :
    updates.Pairwise fun e e' => e.1 ≤ e'.1 := by
  obtain ⟨after, rfl⟩ := h.split
  have hfirst := (List.pairwise_append.mp hordered).1
  have hupdates := (List.pairwise_append.mp hfirst).2.1
  rwa [updateEvents, List.pairwise_map] at hupdates

theorem CallAt.not_positive_previous (h : CallAt events before updates t) {id : Id}
    {c : ConsolidatedValue}
    (hc : (runCons (.create u R) before).my_values.lookup id = some c)
    (hmarked : c.marked_ = true) : ¬ (aggregate_op id).positive c.v.previous_ := by
  rcases h.previous with rfl | ⟨earlier, t', rfl⟩
  · simp [runCons, ConsolidationRegistry.create] at hc
  · exact previous_of_marked hc hmarked

/-- What a call finds in an entry that the call before it left marked. -/
theorem CallAt.has_value_iff (h : CallAt events before updates t) (hR : 0 < R)
    (hordered : InOrder events) {id : Id} {c : ConsolidatedValue}
    (hc : (runCons (.create u R) before).my_values.lookup id = some c)
    (hmarked : c.marked_ = true) :
    ∃ c', (runCons (.create u R) (before ++ updateEvents updates)).my_values.lookup id = some c' ∧
      (c'.has_value t = true ↔ c.v.last_init_pos_ < polledIn u R id c updates t ∧
        (aggregate_op id).positive
          (heldFor u R id c updates (polledIn u R id c updates t - 1))) := by
  obtain ⟨log, hholds⟩ := exists_holds_run before hc
  have hfreqs := runCons_frequencies (.create u R) before
  obtain ⟨c', hc', hholds', hpos⟩ :=
    lookup_updateEvents (u := u) hfreqs.1 hfreqs.2 hR hc hholds updates (h.in_order hordered)
  refine ⟨c', runCons_append _ _ _ ▸ hc', ?_⟩
  rw [hholds'.has_value_iff t]
  have hpoll : c'.v.Poll t =
      valueAt ((aggregate_op id).combine (multiple u R)) (aggregate_op id).init
        (log ++ updatesLog u R c.v.last_init_pos_ id updates)
        (polledIn u R id c updates t - 1) := by
    have hroll := (hholds'.tracks.roll (t.tdiv R)).previous
    rw [Roller.roll_pos, StepNumber.toRoller_pos, hpos] at hroll
    rw [StepNumber.Poll_eq, hholds'.init, hholds'.step]
    exact hroll
  have hle : c.v.last_init_pos_ ≤ polledIn u R id c updates t :=
    (le_reached _ _).trans (le_max_left _ _)
  have hheld := valueAt_updatesLog hholds.tracks u R id updates hle
  rw [StepNumber.toRoller_pos] at hheld
  rw [hpoll, hheld]
  by_cases hlt : c.v.last_init_pos_ < polledIn u R id c updates t
  · -- the step before the polled one is the one the entry was in, or a later one
    rw [if_neg (by omega)]
    exact ⟨fun hpositive => ⟨hlt, hpositive⟩, fun hfilled => hfilled.2⟩
  · -- the entry is still in the step that is polled, and holds nothing for the one before
    have hnothing := h.not_positive_previous hc hmarked
    rw [if_pos (by omega)]
    exact ⟨fun hpositive => absurd hpositive hnothing, fun hfilled => absurd hfilled.1 hlt⟩

theorem CallAt.removes_iff (h : CallAt events before updates t) (hR : 0 < R)
    (hordered : InOrder events) (id : Id) :
    Removes u R before updates t id ↔
      ∃ c, (runCons (.create u R) before).my_values.lookup id = some c ∧ c.marked_ = true ∧
        ¬ (c.v.last_init_pos_ < polledIn u R id c updates t ∧
          (aggregate_op id).positive
            (heldFor u R id c updates (polledIn u R id c updates t - 1))) := by
  have hsame := marked_updateEvents (runCons (.create u R) before) id updates
  rw [← runCons_append] at hsame
  rw [Removes, lookup_afterMeasurements]
  constructor
  · intro hgiven
    rcases hgiven with ⟨hthere, hgone⟩
    obtain ⟨c', hc'⟩ := Option.ne_none_iff_exists'.mp hthere
    rw [hc'] at hsame hgone
    obtain ⟨hempty, hmarked'⟩ := (ConsolidatedValue.report_eq_none_iff c' t).mp hgone
    obtain ⟨c, hc, hmarked⟩ := (marked_iff _).mp (hsame.symm.trans hmarked')
    obtain ⟨c'', hc'', hvalue⟩ := h.has_value_iff hR hordered hc hmarked
    obtain rfl := Option.some.inj (hc'.symm.trans hc'')
    exact ⟨c, hc, hmarked, fun hfilled => by simp [hvalue.mpr hfilled] at hempty⟩
  · intro hgiven
    rcases hgiven with ⟨c, hc, hmarked, hnot⟩
    obtain ⟨c', hc', hvalue⟩ := h.has_value_iff hR hordered hc hmarked
    rw [hc', hc] at hsame
    have hempty : c'.has_value t = false := Bool.eq_false_iff.mpr fun hv => hnot (hvalue.mp hv)
    rw [hc']
    exact ⟨Option.some_ne_none _, (ConsolidatedValue.report_eq_none_iff c' t).mpr
      ⟨hempty, hsame.trans hmarked⟩⟩

end Calls

/-- In every run, expiry discards no fresh values exactly when every marked entry that has
some is in a call that finds its completed step filled. -/
theorem neverDiscardsFresh_iff (u : ℤ) {R : ℤ} (hR : 0 < R) {events : List ConsEvent}
    (hordered : InOrder events) :
    NeverDiscardsFresh u R events ↔ FillsCompletedStep u R events := by
  constructor
  · intro hnever before updates t hcall id c hc hmarked hfresh
    by_contra hnot
    have hremoves := (hcall.removes_iff hR hordered id).mpr ⟨c, hc, hmarked, hnot⟩
    exact hnever before updates t hcall id hremoves hfresh
  · intro hfills before updates t hcall id hremoves hfresh
    obtain ⟨c, hc, hmarked, hnot⟩ := (hcall.removes_iff hR hordered id).mp hremoves
    exact hnot (hfills before updates t hcall id c hc hmarked hfresh)

instance (events : List ConsEvent) : Decidable (InOrder events) :=
  inferInstanceAs (Decidable (List.Pairwise _ _))

def requestsId : Id := ⟨intern_str "requests", .of [("statistic", "count")]⟩

def earlyReports : List ConsEvent :=
  [.update 10000 [⟨requestsId, 10000, .fin 1⟩], .measure 60000, .measure 120000,
    .update 140000 [⟨requestsId, 140000, .fin 1⟩], .measure 150000]

theorem neverDiscardsFresh_iff_early :
    NeverDiscardsFresh 5000 60000 earlyReports ↔ FillsCompletedStep 5000 60000 earlyReports :=
  neverDiscardsFresh_iff 5000 (by omega) (by decide +kernel)

/-- The early report erases the value of ten seconds ago, and the next one has nothing. -/
theorem early_report_discards :
    InOrder earlyReports ∧ ¬ NeverDiscardsFresh 5000 60000 earlyReports ∧
      (runCons (.create 5000 60000) earlyReports).measurements 180000 180000 = [] := by
  refine ⟨by decide +kernel, fun hnever => ?_, by decide +kernel⟩
  have hcall : CallAt earlyReports (earlyReports.take 3)
      [(140000, [⟨requestsId, 140000, .fin 1⟩])] 150000 :=
    ⟨⟨[], rfl⟩, .inr ⟨earlyReports.take 2, 120000, rfl⟩⟩
  apply hnever _ _ _ hcall requestsId
  · exact ⟨by decide +kernel, by decide +kernel⟩
  · exact .inl (by decide +kernel)

end AtlasNative
