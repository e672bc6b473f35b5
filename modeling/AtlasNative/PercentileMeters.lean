import AtlasNative.HeldMeters
import AtlasNative.Lib.Numerals
import AtlasNative.PercentileIndex
import AtlasNative.Percentiles

/-!
# Percentile timers and summaries

A percentile meter hands every sample to a timer or a distribution summary of its own id,
and counts it in the counter of its bucket, which it looks up when the first sample comes.
The two are told about every sample, but do not count the same ones.
-/

namespace AtlasNative

open ExactDouble Numerals
set_option autoImplicit false

def hexDigit (d : ℕ) : Char := (Nat.digitChar d).toUpper

/-- `"%c%04zX"` -/
def bucketTag (letter : Char) (i : ℕ) : String :=
  String.ofList (letter :: numeral hexDigit 16 4 i)

def kTimerTags : List String := (List.range percentile_buckets.Length).map (bucketTag 'T')

def kDistTags : List String := (List.range percentile_buckets.Length).map (bucketTag 'D')

/-- The meters that a percentile meter can be. -/
inductive PercentileClass where
  | PercentileTimer
  | PercentileDistributionSummary

namespace PercentileClass

def letter : PercentileClass → Char
  | PercentileTimer => 'T'
  | PercentileDistributionSummary => 'D'

def tags : PercentileClass → List String
  | PercentileTimer => kTimerTags
  | PercentileDistributionSummary => kDistTags

/-- The lookup for the meter that gets all samples. -/
def recorder : PercentileClass → MeterKind
  | PercentileTimer => .timer
  | PercentileDistributionSummary => .distribution_summary

end PercentileClass

/-- `Count()` of the classes that count. -/
def AnyMeter.Count : AnyMeter → ℤ
  | counter m => m.Count
  | timer m => m.Count
  | distribution_summary m => m.Count
  | _ => 0

def SharedRegistry.CountAt (reg : SharedRegistry) (a : ℕ) : ℤ :=
  (reg.objects[a]?.map AnyMeter.Count).getD 0

/-- A lookup whose pointer is kept. -/
def SharedRegistry.hold (reg : SharedRegistry) (id : Id) (kind : MeterKind) : SharedRegistry × ℕ :=
  let found := reg.lookup id kind
  ({ found.1 with handles := found.1.handles ++ [found.2] }, found.2)

/-- The assignment to an element of an array. -/
def percentile_buckets.Counts.set (counts : percentile_buckets.Counts) (i : ℕ) (count : ℤ) :
    percentile_buckets.Counts :=
  ⟨counts.val.set i count, List.length_set.trans counts.2⟩

structure PercentileMeter where
  id_ : Id
  /-- `timer_` or `dist_` -/
  recorder_ : ℕ
  /-- Null pointers are `none`. -/
  counters_ : List (Option ℕ)

namespace PercentileMeter

def create (cls : PercentileClass) (reg : SharedRegistry) (id : Id) :
    SharedRegistry × PercentileMeter :=
  let found := reg.hold id cls.recorder
  (found.1, ⟨id, found.2, List.replicate percentile_buckets.Length none⟩)

/-- `id_->WithTag(statistic::percentile)->WithTag(...)` -/
def bucketId (id : Id) (tag : String) : Id :=
  (id.WithStatistic "percentile").WithTag (intern_str "percentile") (intern_str tag)

def CounterFor (cls : PercentileClass) (reg : SharedRegistry) (m : PercentileMeter) (i : ℕ) :
    Except Fault ((SharedRegistry × PercentileMeter) × ℕ) := do
  match ← at_ m.counters_ i with
  | some a => .ok ((reg, m), a)
  | none =>
    let tag ← at_ cls.tags i
    let found := reg.hold (bucketId m.id_ tag) .counter
    .ok ((found.1, { m with counters_ := m.counters_.set i (some found.2) }), found.2)

def Record (cls : PercentileClass) (reg : SharedRegistry) (m : PercentileMeter) (amount : ℤ) :
    Except Fault (SharedRegistry × PercentileMeter) := do
  let reg := reg.call m.recorder_ (.Record amount)
  let i ← percentile_buckets.IndexOf amount
  let (s, a) ← CounterFor cls reg m i
  .ok (s.1.call a (.Add 1), s.2)

def Count (reg : SharedRegistry) (m : PercentileMeter) : ℤ := reg.CountAt m.recorder_

/-- An array before its elements are assigned. -/
def noCounts : percentile_buckets.Counts :=
  ⟨List.replicate percentile_buckets.Length 0, List.length_replicate⟩

/-- `counts.at(i) = CounterFor(i)->Count()` -/
def readCount (cls : PercentileClass)
    (s : (SharedRegistry × PercentileMeter) × percentile_buckets.Counts) (i : ℕ) :
    Except Fault ((SharedRegistry × PercentileMeter) × percentile_buckets.Counts) := do
  let (s', a) ← CounterFor cls s.1.1 s.1.2 i
  .ok (s', s.2.set i (s'.1.CountAt a))

def readCounts (cls : PercentileClass) (reg : SharedRegistry) (m : PercentileMeter) :
    Except Fault ((SharedRegistry × PercentileMeter) × percentile_buckets.Counts) :=
  (List.range percentile_buckets.Length).foldlM (readCount cls) ((reg, m), noCounts)

end PercentileMeter

namespace PercentileTimer

def Record : SharedRegistry → PercentileMeter → ℤ → Except Fault (SharedRegistry × PercentileMeter) :=
  PercentileMeter.Record .PercentileTimer

/-- In seconds. -/
def Percentile (reg : SharedRegistry) (m : PercentileMeter) (p : Double) :
    Except Fault ((SharedRegistry × PercentileMeter) × Double) := do
  let (s, counts) ← PercentileMeter.readCounts .PercentileTimer reg m
  .ok (s, (percentile_buckets.Percentile counts p).divBy (10 ^ 9))

end PercentileTimer

namespace PercentileDistributionSummary

def Record : SharedRegistry → PercentileMeter → ℤ → Except Fault (SharedRegistry × PercentileMeter) :=
  PercentileMeter.Record .PercentileDistributionSummary

def Percentile (reg : SharedRegistry) (m : PercentileMeter) (p : Double) :
    Except Fault ((SharedRegistry × PercentileMeter) × Double) := do
  let (s, counts) ← PercentileMeter.readCounts .PercentileDistributionSummary reg m
  .ok (s, percentile_buckets.Percentile counts p)

end PercentileDistributionSummary

/-- A sample, or time that passes. -/
inductive PercentileCall where
  | Record (amount : ℤ)
  | advance (wall monotonic : ℕ)

namespace PercentileMeter

def step (cls : PercentileClass) (s : SharedRegistry × PercentileMeter) :
    PercentileCall → Except Fault (SharedRegistry × PercentileMeter)
  | .Record amount => Record cls s.1 s.2 amount
  | .advance wall monotonic => .ok (s.1.step (.advance wall monotonic), s.2)

def run (cls : PercentileClass) (s : SharedRegistry × PercentileMeter)
    (calls : List PercentileCall) : Except Fault (SharedRegistry × PercentileMeter) :=
  calls.foldlM (step cls) s

def samples (calls : List PercentileCall) : List ℤ :=
  calls.filterMap fun
    | .Record amount => some amount
    | .advance _ _ => none

/-! The ids of the counters. -/

theorem hexDigit_ascends : StrictMonoOn hexDigit (Set.Iio 16) := by
  have htable : ∀ d < 16, ∀ e < 16, d < e → hexDigit d < hexDigit e := by decide
  exact fun d hd e he => htable d hd e he

theorem bucketTag_injective {letter : Char} {i j : ℕ} (h : bucketTag letter i = bucketTag letter j) :
    i = j := by
  have hchars := List.cons.inj (String.ofList_injective h)
  exact numeral_injective (by omega) hexDigit_ascends hchars.2

theorem nul_notMem_bucketTag {letter : Char} (hletter : letter ≠ nul) (i : ℕ) :
    nul ∉ (bucketTag letter i).toList := by
  unfold bucketTag
  rw [String.toList_ofList]
  intro h
  rcases List.mem_cons.mp h with h | h
  · exact hletter h.symm
  · obtain ⟨d, hd, hnul⟩ := mem_numeral (by omega) h
    have htable : ∀ d < 16, hexDigit d ≠ nul := by decide
    exact htable d hd hnul

theorem letter_ne_nul (cls : PercentileClass) : cls.letter ≠ nul := by
  cases cls <;> decide

/-- The id of the counter of a bucket. -/
def counterId (cls : PercentileClass) (id : Id) (i : ℕ) : Id :=
  bucketId id (bucketTag cls.letter i)

theorem counterId_injective {cls : PercentileClass} {id : Id} {i j : ℕ}
    (h : counterId cls id i = counterId cls id j) : i = j := by
  have htags := congrArg (fun id => id.tags_.at_ (intern_str "percentile")) h
  simp only [counterId, bucketId, Id.WithTag, Tags.at_add, if_true, Option.some.injEq] at htags
  have hstr : c_str (bucketTag cls.letter i) = c_str (bucketTag cls.letter j) :=
    congrArg StrRef.str htags
  rw [c_str_eq_self (nul_notMem_bucketTag (letter_ne_nul cls) i),
    c_str_eq_self (nul_notMem_bucketTag (letter_ne_nul cls) j)] at hstr
  exact bucketTag_injective hstr

/-- The counters have a statistic, so that the registry adds no default one. -/
theorem taggedId_counterId (cls : PercentileClass) (id : Id) (i : ℕ) :
    MeterKind.counter.taggedId (counterId cls id i) = counterId cls id i := by
  have hne : statistic ≠ intern_str "percentile" := by decide +kernel
  have hhas : (counterId cls id i).tags_.at_ statistic = some (intern_str "percentile") := by
    simp [counterId, bucketId, Id.WithStatistic, Id.WithTag, Tags.at_add, hne]
  unfold MeterKind.taggedId WithDefaultTagForId Tags.has
  rw [show (counterId cls id i).tags_.lookup statistic = _ from hhas]
  rfl

theorem at_tags (cls : PercentileClass) {i : ℕ} (hi : i < percentile_buckets.Length) :
    at_ cls.tags i = .ok (bucketTag cls.letter i) := by
  rw [at_eq_ok_iff]
  cases cls <;> simp [PercentileClass.tags, PercentileClass.letter, kTimerTags, kDistTags, hi]

/-! What one step does. -/

/-- The recorder has counted `total` samples and the counter of a bucket `counted` of them,
and no other meter is registered under the id of a counter that is not looked up yet. -/
structure Tracks (cls : PercentileClass) (reg : SharedRegistry) (m : PercentileMeter) (total : ℤ)
    (counted : ℕ → ℤ) : Prop where
  recorder : ∃ r, reg.objects[m.recorder_]? = some r ∧ r.kind = cls.recorder ∧ r.Count = total
  length : m.counters_.length = percentile_buckets.Length
  made : ∀ i a : ℕ, m.counters_[i]? = some (some a) →
    ∃ c, reg.objects[a]? = some c ∧ c.kind = .counter ∧ c.Count = counted i
  distinct : ∀ i j a : ℕ, m.counters_[i]? = some (some a) → m.counters_[j]? = some (some a) → i = j
  unmade : ∀ i : ℕ, m.counters_[i]? = some none → counted i = 0 ∧
    (reg.meters_.lookup (counterId cls m.id_ i) = none ∨
      reg.meters_.lookup (counterId cls m.id_ i) = some m.recorder_)

theorem recorder_ne_counter (cls : PercentileClass) : cls.recorder ≠ .counter := by
  cases cls <;> decide

theorem GetClass_recorder_ne (cls : PercentileClass) :
    cls.recorder.GetClass ≠ MeterKind.counter.GetClass := by
  cases cls <;> decide

/-- The lookup of the counter of a bucket finds nothing that it could return. -/
theorem Tracks.hold {cls : PercentileClass} {reg : SharedRegistry} {m : PercentileMeter} {total : ℤ}
    {counted : ℕ → ℤ} (h : Tracks cls reg m total counted) {i : ℕ}
    (hi : m.counters_[i]? = some none) :
    ∃ meters, reg.hold (counterId cls m.id_ i) .counter =
        ({ reg with
            objects := reg.objects ++
              [.create (counterId cls m.id_ i) reg.freq_millis_ reg.wall .counter]
            meters_ := meters
            handles := reg.handles ++ [reg.objects.length] }, reg.objects.length) ∧
      ∀ id, id ≠ counterId cls m.id_ i → meters.lookup id = reg.meters_.lookup id := by
  have hid : (AnyMeter.create (counterId cls m.id_ i) reg.freq_millis_ reg.wall .counter).GetId =
      counterId cls m.id_ i := by
    rw [AnyMeter.GetId_create, taggedId_counterId]
  unfold SharedRegistry.hold
  rw [SharedRegistry.lookup_eq]
  rcases (h.unmade i hi).2 with hnone | hrecorder
  · rw [SharedRegistry.create_and_register_of_none (by rw [hid]; exact hnone), hid]
    exact ⟨_, rfl, fun id hne => AList.lookup_insert_ne hne⟩
  · obtain ⟨r, hr, hkind, -⟩ := h.recorder
    rw [SharedRegistry.create_and_register_of_some (by rw [hid]; exact hrecorder) hr, if_neg]
    · exact ⟨reg.meters_, rfl, fun id _ => rfl⟩
    · unfold AnyMeter.GetClass
      rw [hkind, AnyMeter.kind_create]
      exact GetClass_recorder_ne cls

theorem getElem?_append_of_eq_some {A : Type} {l : List A} {a : ℕ} {x : A} (h : l[a]? = some x)
    (l' : List A) : (l ++ l')[a]? = some x := by
  rw [List.getElem?_append_left (List.getElem?_eq_some_iff.mp h).1, h]

theorem getElem?_set_eq_some {A : Type} {l : List A} {i j : ℕ} {x y : A}
    (h : (l.set i x)[j]? = some y) : (j = i ∧ x = y) ∨ (j ≠ i ∧ l[j]? = some y) := by
  rw [List.getElem?_set] at h
  by_cases hij : i = j
  · rw [if_pos hij] at h
    split at h
    · exact Or.inl ⟨hij.symm, Option.some.inj h⟩
    · cases h
  · rw [if_neg hij] at h
    exact Or.inr ⟨Ne.symm hij, h⟩

theorem Tracks.make {cls : PercentileClass} {reg : SharedRegistry} {m : PercentileMeter} {total : ℤ}
    {counted : ℕ → ℤ} (h : Tracks cls reg m total counted) {i : ℕ}
    (hi : m.counters_[i]? = some none) {meters : AList fun _ : Id => ℕ}
    (hmeters : ∀ id, id ≠ counterId cls m.id_ i → meters.lookup id = reg.meters_.lookup id)
    {new : AnyMeter} (hkind : new.kind = .counter) (hcount : new.Count = 0) (handles : List ℕ) :
    Tracks cls
      { reg with objects := reg.objects ++ [new], meters_ := meters, handles := handles }
      { m with counters_ := m.counters_.set i (some reg.objects.length) } total counted where
  recorder := by
    obtain ⟨r, hr, hrest⟩ := h.recorder
    exact ⟨r, getElem?_append_of_eq_some hr _, hrest⟩
  length := by
    rw [List.length_set]
    exact h.length
  made := by
    intro j a hj
    rcases getElem?_set_eq_some hj with ⟨rfl, heq⟩ | ⟨-, hj⟩
    · obtain rfl := Option.some.inj heq
      exact ⟨new, by simp, hkind, hcount.trans (h.unmade j hi).1.symm⟩
    · obtain ⟨c, hc, hrest⟩ := h.made j a hj
      exact ⟨c, getElem?_append_of_eq_some hc _, hrest⟩
  distinct := by
    have hold : ∀ j a : ℕ, m.counters_[j]? = some (some a) → some reg.objects.length ≠ some a := by
      intro j a hj heq
      obtain ⟨c, hc, -⟩ := h.made j a hj
      have hlt := (List.getElem?_eq_some_iff.mp hc).1
      rw [Option.some.injEq] at heq
      omega
    intro j k a hj hk
    rcases getElem?_set_eq_some hj with ⟨hji, heq⟩ | ⟨-, hj⟩
    · rcases getElem?_set_eq_some hk with ⟨hki, -⟩ | ⟨-, hk⟩
      · exact hji.trans hki.symm
      · exact absurd heq (hold k a hk)
    · rcases getElem?_set_eq_some hk with ⟨-, heq⟩ | ⟨-, hk⟩
      · exact absurd heq (hold j a hj)
      · exact h.distinct j k a hj hk
  unmade := by
    intro j hj
    rcases getElem?_set_eq_some hj with ⟨-, heq⟩ | ⟨hji, hj⟩
    · cases heq
    · rw [hmeters _ fun heq => hji (counterId_injective heq)]
      exact h.unmade j hj

theorem CounterFor_spec {cls : PercentileClass} {reg : SharedRegistry} {m : PercentileMeter}
    {total : ℤ} {counted : ℕ → ℤ} (h : Tracks cls reg m total counted) {i : ℕ}
    (hi : i < percentile_buckets.Length) :
    ∃ reg' m' a, CounterFor cls reg m i = .ok ((reg', m'), a) ∧
      Tracks cls reg' m' total counted ∧ m'.counters_[i]? = some (some a) := by
  obtain ⟨c, hc⟩ : ∃ c, m.counters_[i]? = some c := by
    rw [← h.length] at hi
    exact ⟨_, List.getElem?_eq_getElem hi⟩
  unfold CounterFor
  rw [at_eq_ok_iff.mpr hc]
  cases c with
  | some a => exact ⟨reg, m, a, rfl, h, hc⟩
  | none =>
    obtain ⟨meters, hhold, hmeters⟩ := h.hold hc
    unfold counterId at hhold
    simp only [bind, Except.bind, at_tags cls hi, hhold]
    refine ⟨_, _, _, rfl, h.make hc hmeters (AnyMeter.kind_create _ _ _ _) rfl _, ?_⟩
    exact List.getElem?_set_self (List.getElem?_eq_some_iff.mp hc).1

theorem notNegative_iff (amount : ℤ) : notNegative amount = true ↔ 0 ≤ amount := by
  unfold notNegative
  rw [Bool.or_eq_true, decide_eq_true_iff, decide_eq_true_iff]
  omega

/-- The recorder counts a sample unless it is negative. -/
theorem Count_apply_Record {cls : PercentileClass} {r : AnyMeter} (hkind : r.kind = cls.recorder)
    (now monotonic amount : ℤ) :
    ∃ r', r.apply now monotonic (.Record amount) = some r' ∧ r'.kind = cls.recorder ∧
      r'.Count = r.Count + if 0 ≤ amount then 1 else 0 := by
  cases cls with
  | PercentileTimer =>
    cases r with
    | timer t =>
      refine ⟨_, rfl, rfl, ?_⟩
      unfold AnyMeter.Count DefaultTimer.Count DefaultTimer.Record
      simp only [notNegative_iff]
      split_ifs <;> simp
    | _ => cases hkind
  | PercentileDistributionSummary =>
    cases r with
    | distribution_summary d =>
      refine ⟨_, rfl, rfl, ?_⟩
      unfold AnyMeter.Count DefaultDistributionSummaryNum.Count DefaultDistributionSummaryNum.Record
      simp only [notNegative_iff]
      split_ifs <;> simp
    | _ => cases hkind

theorem Count_apply_Add {c : AnyMeter} (hkind : c.kind = .counter) (now monotonic amount : ℤ) :
    ∃ c', c.apply now monotonic (.Add amount) = some c' ∧ c'.kind = .counter ∧
      c'.Count = c.Count + amount := by
  cases c with
  | counter c => exact ⟨_, rfl, rfl, rfl⟩
  | _ => cases hkind

theorem getElem?_call_self {reg : SharedRegistry} {a : ℕ} {x x' : AnyMeter} {op : MeterMethod}
    (hx : reg.objects[a]? = some x) (hop : x.apply reg.wall reg.monotonic op = some x') :
    (reg.call a op).objects[a]? = some x' := by
  unfold SharedRegistry.call
  simp [hx, hop]

theorem getElem?_call_ne (reg : SharedRegistry) {a b : ℕ} (h : a ≠ b) (op : MeterMethod) :
    (reg.call a op).objects[b]? = reg.objects[b]? := by
  unfold SharedRegistry.call
  simp [h]

theorem Tracks.recorder_ne {cls : PercentileClass} {reg : SharedRegistry} {m : PercentileMeter}
    {total : ℤ} {counted : ℕ → ℤ} (h : Tracks cls reg m total counted) {i a : ℕ}
    (ha : m.counters_[i]? = some (some a)) : m.recorder_ ≠ a := by
  intro heq
  obtain ⟨r, hr, hkind, -⟩ := h.recorder
  obtain ⟨c, hc, hkind', -⟩ := h.made i a ha
  rw [heq, hc, Option.some.injEq] at hr
  rw [← hr] at hkind
  exact recorder_ne_counter cls (hkind.symm.trans hkind')

theorem Tracks.record {cls : PercentileClass} {reg : SharedRegistry} {m : PercentileMeter}
    {total : ℤ} {counted : ℕ → ℤ} (h : Tracks cls reg m total counted) (amount : ℤ) :
    Tracks cls (reg.call m.recorder_ (.Record amount)) m
      (total + if 0 ≤ amount then 1 else 0) counted where
  recorder := by
    obtain ⟨r, hr, hkind, hcount⟩ := h.recorder
    obtain ⟨r', hop, hkind', hcount'⟩ := Count_apply_Record hkind reg.wall reg.monotonic amount
    exact ⟨r', getElem?_call_self hr hop, hkind', hcount ▸ hcount'⟩
  length := h.length
  made := by
    intro i a ha
    rw [getElem?_call_ne reg (h.recorder_ne ha)]
    exact h.made i a ha
  distinct := h.distinct
  unmade := h.unmade

theorem Tracks.increment {cls : PercentileClass} {reg : SharedRegistry} {m : PercentileMeter}
    {total : ℤ} {counted : ℕ → ℤ} (h : Tracks cls reg m total counted) {i a : ℕ}
    (ha : m.counters_[i]? = some (some a)) :
    Tracks cls (reg.call a (.Add 1)) m total
      (fun j => counted j + if i = j then 1 else 0) where
  recorder := by
    rw [getElem?_call_ne reg (h.recorder_ne ha).symm]
    exact h.recorder
  length := h.length
  made := by
    intro j b hb
    by_cases hij : i = j
    · subst hij
      obtain rfl : a = b := Option.some.inj (Option.some.inj (ha.symm.trans hb))
      obtain ⟨c, hc, hkind, hcount⟩ := h.made i a ha
      obtain ⟨c', hop, hkind', hcount'⟩ := Count_apply_Add hkind reg.wall reg.monotonic 1
      refine ⟨c', getElem?_call_self hc hop, hkind', ?_⟩
      rw [hcount', hcount, if_pos rfl]
    · have hne : a ≠ b := fun heq => hij (h.distinct i j a ha (heq ▸ hb))
      rw [getElem?_call_ne reg hne, if_neg hij, add_zero]
      exact h.made j b hb
  distinct := h.distinct
  unmade := by
    intro j hj
    have hij : i ≠ j := by
      rintro rfl
      cases ha.symm.trans hj
    rw [if_neg hij, add_zero]
    exact h.unmade j hj

/-- A sample goes to the recorder and to the counter of its bucket. -/
theorem Record_spec {cls : PercentileClass} {reg : SharedRegistry} {m : PercentileMeter}
    {total : ℤ} {counted : ℕ → ℤ} (h : Tracks cls reg m total counted) {amount : ℤ}
    (hamount : IsInt64 amount) :
    ∃ reg' m', Record cls reg m amount = .ok (reg', m') ∧
      Tracks cls reg' m' (total + if 0 ≤ amount then 1 else 0)
        fun j => counted j + if percentile_buckets.index amount = j then 1 else 0 := by
  obtain ⟨reg', m', a, hcounter, htracks, ha⟩ :=
    CounterFor_spec (h.record amount) (percentile_buckets.index_lt amount)
  refine ⟨_, m', ?_, htracks.increment ha⟩
  unfold Record
  simp only [bind, Except.bind, percentile_buckets.IndexOf_eq_index hamount, hcounter]

theorem Tracks.advance {cls : PercentileClass} {reg : SharedRegistry} {m : PercentileMeter}
    {total : ℤ} {counted : ℕ → ℤ} (h : Tracks cls reg m total counted) (wall monotonic : ℕ) :
    Tracks cls (reg.step (.advance wall monotonic)) m total counted :=
  ⟨h.recorder, h.length, h.made, h.distinct, h.unmade⟩

/-- How many samples the recorder counts. -/
def accepted (xs : List ℤ) : ℤ := xs.countP (0 ≤ ·)

/-- How many samples the counter of a bucket counts. -/
def inBucket (xs : List ℤ) (i : ℕ) : ℤ := xs.countP (percentile_buckets.index · = i)

theorem run_spec {cls : PercentileClass} {calls : List PercentileCall}
    (hcalls : ∀ x ∈ samples calls, IsInt64 x) {s : SharedRegistry × PercentileMeter} {total : ℤ}
    {counted : ℕ → ℤ} (h : Tracks cls s.1 s.2 total counted) :
    ∃ s', run cls s calls = .ok s' ∧ Tracks cls s'.1 s'.2 (total + accepted (samples calls))
      fun i => counted i + inBucket (samples calls) i := by
  induction calls generalizing s total counted with
  | nil =>
    refine ⟨s, rfl, ?_⟩
    simpa [accepted, inBucket, samples] using h
  | cons call calls ih =>
    cases call with
    | Record amount =>
      have hsamples : samples (.Record amount :: calls) = amount :: samples calls := rfl
      rw [hsamples] at hcalls ⊢
      obtain ⟨hamount, hrest⟩ := List.forall_mem_cons.mp hcalls
      obtain ⟨reg', m', hrecord, htracks⟩ := Record_spec h hamount
      obtain ⟨s', hrun, htracks'⟩ := @ih hrest (reg', m') _ _ htracks
      refine ⟨s', ?_, ?_⟩
      · unfold run at hrun ⊢
        rw [List.foldlM_cons, step, hrecord]
        exact hrun
      · convert htracks' using 1
        · unfold accepted
          rw [List.countP_cons]
          push_cast
          simp only [decide_eq_true_iff]
          ring
        · funext i
          unfold inBucket
          rw [List.countP_cons]
          push_cast
          simp only [decide_eq_true_iff]
          ring
    | advance wall monotonic =>
      obtain ⟨s', hrun, htracks'⟩ :=
        @ih hcalls (s.1.step (.advance wall monotonic), s.2) _ _ (h.advance wall monotonic)
      refine ⟨s', ?_, htracks'⟩
      unfold run at hrun ⊢
      rw [List.foldlM_cons, step]
      exact hrun

/-- No meter is registered under the id, or under the id of one of its counters. -/
def Fresh (cls : PercentileClass) (reg : SharedRegistry) (id : Id) : Prop :=
  reg.meters_.lookup id = none ∧ ∀ i, reg.meters_.lookup (counterId cls id i) = none

theorem tracks_create {cls : PercentileClass} {reg : SharedRegistry} {id : Id}
    (h : Fresh cls reg id) : Tracks cls (create cls reg id).1 (create cls reg id).2 0 fun _ => 0 := by
  have hid : (AnyMeter.create id reg.freq_millis_ reg.wall cls.recorder).GetId = id := by
    cases cls <;> rfl
  have hcount : (AnyMeter.create id reg.freq_millis_ reg.wall cls.recorder).Count = 0 := by
    cases cls <;> rfl
  unfold create SharedRegistry.hold
  rw [SharedRegistry.lookup_eq,
    SharedRegistry.create_and_register_of_none (by rw [hid]; exact h.1), hid]
  constructor
  · exact ⟨_, by simp, AnyMeter.kind_create _ _ _ _, hcount⟩
  · exact List.length_replicate
  · intro i a hi
    cases List.eq_of_mem_replicate (List.mem_of_getElem? hi)
  · intro i j a hi
    cases List.eq_of_mem_replicate (List.mem_of_getElem? hi)
  · intro i _
    refine ⟨rfl, ?_⟩
    by_cases hne : counterId cls id i = id
    · right
      rw [hne, AList.lookup_insert]
    · left
      rw [AList.lookup_insert_ne hne]
      exact h.2 i

theorem Tracks.CountAt_eq {cls : PercentileClass} {reg : SharedRegistry} {m : PercentileMeter}
    {total : ℤ} {counted : ℕ → ℤ} (h : Tracks cls reg m total counted) {i a : ℕ}
    (ha : m.counters_[i]? = some (some a)) : reg.CountAt a = counted i := by
  obtain ⟨c, hc, -, hcount⟩ := h.made i a ha
  unfold SharedRegistry.CountAt
  rw [hc, Option.map_some, Option.getD_some, hcount]

theorem Tracks.Count_eq {cls : PercentileClass} {reg : SharedRegistry} {m : PercentileMeter}
    {total : ℤ} {counted : ℕ → ℤ} (h : Tracks cls reg m total counted) : m.Count reg = total := by
  obtain ⟨r, hr, -, hcount⟩ := h.recorder
  unfold Count SharedRegistry.CountAt
  rw [hr, Option.map_some, Option.getD_some, hcount]

/-- The loop of `Percentile` reads all counters, those included that it has to create. -/
theorem readCounts_spec {cls : PercentileClass} {reg : SharedRegistry} {m : PercentileMeter}
    {total : ℤ} {counted : ℕ → ℤ} (h : Tracks cls reg m total counted) :
    ∃ s counts, readCounts cls reg m = .ok (s, counts) ∧
      ∀ i < percentile_buckets.Length, counts.val[i]? = some (counted i) := by
  have hprefix : ∀ n ≤ percentile_buckets.Length, ∃ s counts,
      (List.range n).foldlM (readCount cls) ((reg, m), noCounts) = .ok (s, counts) ∧
        Tracks cls s.1 s.2 total counted ∧ ∀ i < n, counts.val[i]? = some (counted i) := by
    intro n hn
    induction n with
    | zero => exact ⟨_, _, rfl, h, fun i hi => absurd hi (Nat.not_lt_zero i)⟩
    | succ n ih =>
      obtain ⟨s, counts, hrun, htracks, hcounts⟩ := ih (by omega)
      obtain ⟨reg', m', a, hcounter, htracks', ha⟩ := CounterFor_spec htracks (show n < _ by omega)
      refine ⟨(reg', m'), counts.set n (reg'.CountAt a), ?_, htracks', ?_⟩
      · rw [List.range_succ, ExceptRuns.foldlM_concat_eq_ok]
        refine ⟨_, hrun, ?_⟩
        unfold readCount
        simp only [bind, Except.bind, hcounter]
      · intro i hi
        show (counts.val.set n (reg'.CountAt a))[i]? = some (counted i)
        rcases Nat.lt_succ_iff_lt_or_eq.mp hi with hlt | rfl
        · rw [List.getElem?_set_ne hlt.ne']
          exact hcounts i hlt
        · rw [htracks'.CountAt_eq ha, List.getElem?_set_self (hn.trans_eq counts.2.symm)]
  obtain ⟨s, counts, hrun, -, hcounts⟩ := hprefix _ le_rfl
  exact ⟨s, counts, hrun, hcounts⟩

theorem sum_eq_of_getElem? {counts : percentile_buckets.Counts} {counted : ℕ → ℤ}
    (h : ∀ i < percentile_buckets.Length, counts.val[i]? = some (counted i)) :
    counts.val.sum = ∑ i ∈ Finset.range percentile_buckets.Length, counted i := by
  have heq : counts.val = (List.range percentile_buckets.Length).map counted := by
    apply List.ext_getElem?
    intro i
    by_cases hi : i < percentile_buckets.Length
    · rw [h i hi, List.getElem?_map, List.getElem?_range hi, Option.map_some]
    · rw [List.getElem?_eq_none (counts.2.trans_le (not_lt.mp hi)), List.getElem?_eq_none]
      rw [List.length_map, List.length_range]
      exact not_lt.mp hi
  rw [heq]
  rfl

theorem sum_inBucket (xs : List ℤ) :
    ∑ i ∈ Finset.range percentile_buckets.Length, inBucket xs i = xs.length := by
  induction xs with
  | nil => simp [inBucket]
  | cons x xs ih =>
    have hcons : ∀ i, inBucket (x :: xs) i =
        inBucket xs i + if percentile_buckets.index x = i then 1 else 0 := by
      intro i
      unfold inBucket
      rw [List.countP_cons]
      push_cast
      simp only [decide_eq_true_iff]
    simp only [hcons]
    rw [Finset.sum_add_distrib, ih, Finset.sum_ite_eq,
      if_pos (Finset.mem_range.mpr (percentile_buckets.index_lt x)), List.length_cons]
    push_cast
    rfl

/-- After a run the recorder has the samples that are not negative, the counters all. -/
theorem readCounts_after_run {cls : PercentileClass} {reg : SharedRegistry} {id : Id}
    (hfresh : Fresh cls reg id) {calls : List PercentileCall}
    (hcalls : ∀ x ∈ samples calls, IsInt64 x) :
    ∃ s s' counts, run cls (create cls reg id) calls = .ok s ∧
      s.2.Count s.1 = accepted (samples calls) ∧ readCounts cls s.1 s.2 = .ok (s', counts) ∧
      counts.val.sum = (samples calls).length ∧
      ∀ i < percentile_buckets.Length, counts.val[i]? = some (inBucket (samples calls) i) := by
  obtain ⟨s, hrun, htracks⟩ := run_spec hcalls (tracks_create hfresh)
  simp only [zero_add] at htracks
  obtain ⟨s', counts, hread, hcounts⟩ := readCounts_spec htracks
  refine ⟨s, s', counts, hrun, htracks.Count_eq, hread, ?_, hcounts⟩
  rw [sum_eq_of_getElem? hcounts, sum_inBucket]

/-- The counters of the buckets add up to what is counted, and each has counted the samples
of its bucket that are counted. -/
def DescribesPopulation (cls : PercentileClass) (s : SharedRegistry × PercentileMeter)
    (xs : List ℤ) : Prop :=
  ∃ s' counts, readCounts cls s.1 s.2 = .ok (s', counts) ∧ counts.val.sum = s.2.Count s.1 ∧
    ∀ i < percentile_buckets.Length, counts.val[i]? = some
      (((xs.filter (0 ≤ ·)).countP (percentile_buckets.IndexOf · = .ok i) : ℕ) : ℤ)

/-- Only negative samples, which the recorder drops and the first bucket counts, tell the two
apart. -/
theorem describesPopulation_iff {cls : PercentileClass} {reg : SharedRegistry} {id : Id}
    (hfresh : Fresh cls reg id) {calls : List PercentileCall}
    (hcalls : ∀ x ∈ samples calls, IsInt64 x) :
    ∃ s, run cls (create cls reg id) calls = .ok s ∧
      (DescribesPopulation cls s (samples calls) ↔ ∀ x ∈ samples calls, 0 ≤ x) := by
  obtain ⟨s, s', counts, hrun, hCount, hread, hsum, hcounts⟩ := readCounts_after_run hfresh hcalls
  refine ⟨s, hrun, ?_⟩
  constructor
  · intro h
    rcases h with ⟨t, counts', hread', hsum', -⟩
    obtain ⟨-, rfl⟩ := Prod.mk.inj (Except.ok.inj (hread.symm.trans hread'))
    have hall : (samples calls).countP (0 ≤ ·) = (samples calls).length := by
      unfold accepted at hCount
      omega
    have hmem := List.countP_eq_length.mp hall
    intro x hx
    simpa using hmem x hx
  · intro hall
    have hfilter : (samples calls).filter (0 ≤ ·) = samples calls := by
      rw [List.filter_eq_self]
      intro x hx
      simpa using hall x hx
    have haccepted : accepted (samples calls) = (samples calls).length := by
      unfold accepted
      rw [List.countP_eq_length_filter, hfilter]
    refine ⟨s', counts, hread, ?_, ?_⟩
    · rw [hsum, hCount, haccepted]
    · intro i hi
      rw [hcounts i hi, hfilter, inBucket]
      congr 2
      apply List.countP_congr
      intro x hx
      rw [percentile_buckets.IndexOf_eq_index (hcalls x hx)]
      simp

theorem fresh_of_name {cls : PercentileClass} {reg : SharedRegistry} {id : Id}
    (h : ∀ e ∈ reg.meters_.entries, e.1.name_ ≠ id.name_) : Fresh cls reg id := by
  have hnone : ∀ id' : Id, id'.name_ = id.name_ → reg.meters_.lookup id' = none := by
    intro id' hname
    rw [Option.eq_none_iff_forall_not_mem]
    intro a ha
    exact h ⟨id', a⟩ (AList.mem_lookup_iff.mp ha) hname
  exact ⟨hnone id rfl, fun i => hnone _ rfl⟩

/-- The id of a new meter, in a registry with only its own meters. -/
def newId : Id := ⟨intern_str "server.requestLatency", ∅⟩

theorem fresh_newId (cls : PercentileClass) : Fresh cls (.create 60000 0 0) newId :=
  fresh_of_name (by decide +kernel)

theorem describesPopulation_twice :
    ∃ s, run .PercentileTimer (create .PercentileTimer (.create 60000 0 0) newId)
        [.Record 15, .advance 1000 1000, .Record 0] = .ok s ∧
      (DescribesPopulation .PercentileTimer s [15, 0] ↔ ∀ x ∈ [15, 0], (0 : ℤ) ≤ x) :=
  describesPopulation_iff (fresh_newId _) (by decide)

/-- A negative sample is counted in the first bucket only. -/
theorem negative_sample_not_described :
    ¬ ∀ (cls : PercentileClass) (reg : SharedRegistry) (id : Id) (calls : List PercentileCall),
      Fresh cls reg id → (∀ x ∈ samples calls, IsInt64 x) →
      ∃ s, run cls (create cls reg id) calls = .ok s ∧ DescribesPopulation cls s (samples calls) := by
  intro h
  have hfresh := fresh_newId .PercentileTimer
  have hcalls : ∀ x ∈ samples [.Record (-1)], IsInt64 x := by decide
  obtain ⟨s, hrun, t, counts, hread, hsum, -⟩ := h _ _ _ _ hfresh hcalls
  obtain ⟨s', t', counts', hrun', hCount', hread', hsum', -⟩ := readCounts_after_run hfresh hcalls
  obtain rfl := Except.ok.inj (hrun.symm.trans hrun')
  obtain ⟨-, rfl⟩ := Prod.mk.inj (Except.ok.inj (hread.symm.trans hread'))
  rw [hsum', hCount'] at hsum
  cases hsum

end PercentileMeter

end AtlasNative
