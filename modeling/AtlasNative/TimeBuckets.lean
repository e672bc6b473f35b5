import AtlasNative.BucketFunctions

/-!
# Time buckets

A formatter for times is chosen only when the maximum is eight of its units or more, so that
the bounds, an eighth of the maximum apart, are in different units.
-/

namespace AtlasNative

set_option autoImplicit false

namespace bucket_functions

/-- The formatters of single nanoseconds come first, and each of the others stands behind
one for up to eight of its units. -/
theorem GetTimeFormatters_units : ∀ i < 22, ∀ vf ∈ GetTimeFormatters[i]?,
    vf.factor_ = 1 ∨ (0 < vf.factor_ ∧
      ∃ j < i, ∃ w ∈ GetTimeFormatters[j]?, 8 * vf.factor_ ≤ w.max_) := by decide +kernel

theorem farApart_of_GetFormatter {max : ℤ} {vf : ValueFormatter}
    (h : GetFormatter GetTimeFormatters max = .ok vf) : FarApart vf.factor_ max := by
  obtain ⟨i, hi, hbefore, -⟩ := GetFormatter_spec h
  have hlt : i < 22 := (List.getElem?_eq_some_iff.mp hi).1
  rcases GetTimeFormatters_units i hlt vf hi with hone | ⟨hpos, j, hj, w, hw, hle⟩
  · exact Or.inl hone
  · exact Or.inr ⟨hpos, hle.trans (hbefore j w hj hw)⟩

/-- The labels of a bucket function tell its buckets apart: different bounds have different
labels, an amount is in the bucket of the first bound that it does not exceed, and amounts
have one label exactly when they are in one bucket. -/
structure TellsApart (f : BucketsFunction) (vf : ValueFormatter) (bounds : List ℤ) : Prop where
  labels : ∀ c ∈ bounds, ∀ d ∈ bounds, c ≠ d → vf.GetLabel c ≠ vf.GetLabel d
  first : ∀ a, (∃ b ∈ f.buckets_, a ≤ b.upper_boundary_ ∧
      (∀ c ∈ -1 :: bounds, a ≤ c → b.upper_boundary_ ≤ c) ∧ f.call a = b.name_) ∨
    ((∀ c ∈ -1 :: bounds, c < a) ∧ f.call a = f.fallback_)
  merged : ∀ a b, a < b → (f.call a = f.call b ↔ ¬ ∃ c ∈ -1 :: bounds, a ≤ c ∧ c < b)

/-- The bucket function of a maximum tells the buckets of its bounds apart. -/
def NeverMerges (function : ℤ → Except Fault BucketsFunction) (max : ℤ) (bounds : List ℤ) : Prop :=
  ∃ vf f, GetFormatter GetTimeFormatters max = .ok vf ∧ function max = .ok f ∧
    f.buckets_.map (·.upper_boundary_) = -1 :: bounds ∧ TellsApart f vf bounds

theorem tellsApart_labelled {ltZero gtMax : String} (hnames : OuterNames ltZero gtMax)
    {vf : ValueFormatter} (hfactor : 0 < vf.factor_) {bounds : List ℤ}
    (hbounds : Spaced vf.factor_ bounds) :
    TellsApart (labelled ltZero gtMax bounds vf) vf bounds where
  labels := by
    intro c hc d hd hne heq
    rw [ValueFormatter.GetLabel_eq hfactor.ne', ValueFormatter.GetLabel_eq hfactor.ne',
      Except.ok.injEq] at heq
    rcases lt_or_gt_of_ne hne with hlt | hgt
    · exact label_ne_label hfactor hbounds hc hd hlt heq
    · exact label_ne_label hfactor hbounds hd hc hgt heq.symm
  first a := by
    have hbound : ∀ c ∈ -1 :: bounds, ∃ s ∈ steps ltZero bounds vf, s.1 = c := by
      intro c hc
      rcases List.mem_cons.mp hc with rfl | hc
      · exact ⟨_, List.mem_cons_self, rfl⟩
      · exact ⟨_, List.mem_cons_of_mem _ (List.mem_map_of_mem hc), rfl⟩
    have hascend := @steps_ascend ltZero _ _ hfactor hbounds
    rcases @StepFunction.valueAt_spec _ _ _ gtMax _ hascend a with
      ⟨s, hs, has, hleast, hvalue⟩ | ⟨hall, hvalue⟩
    · left
      obtain ⟨b, hb, rfl⟩ : ∃ b ∈ (labelled ltZero gtMax bounds vf).buckets_,
          (b.upper_boundary_, b.name_) = s := by
        rw [@steps_eq_map ltZero gtMax] at hs
        exact List.mem_map.mp hs
      refine ⟨b, hb, has, ?_, call_labelled a ▸ hvalue⟩
      intro c hc hac
      obtain ⟨t, ht, rfl⟩ := hbound c hc
      exact hleast t ht hac
    · right
      refine ⟨?_, call_labelled a ▸ hvalue⟩
      intro c hc
      obtain ⟨t, ht, rfl⟩ := hbound c hc
      exact hall t ht
  merged a b hab := call_labelled_eq_iff hnames hfactor hbounds hab

theorem neverMerges_of_bias {ltZero gtMax : String} (hnames : OuterNames ltZero gtMax)
    {function : ℤ → Except Fault BucketsFunction} {max : ℤ} {bounds : List ℤ}
    (hfunction : function max = (GetFormatter GetTimeFormatters max >>= bias ltZero gtMax bounds))
    (hbounds : ∀ step, FarApart step max → Spaced step bounds) :
    NeverMerges function max bounds := by
  obtain ⟨vf, hvf⟩ := exists_GetFormatter (show GetTimeFormatters ≠ [] from List.cons_ne_nil _ _) max
  have hfar := farApart_of_GetFormatter hvf
  refine ⟨vf, labelled ltZero gtMax bounds vf, hvf, ?_, ?_,
    tellsApart_labelled hnames hfar.pos (hbounds _ hfar)⟩
  · rw [hfunction, hvf]
    exact bias_eq hfar.pos.ne' _ _ _
  · simp [labelled, Function.comp_def]

theorem outerNames_age : OuterNames "future" "old" :=
  ⟨by decide, ⟨'f', by decide +kernel, by decide⟩, ⟨'o', by decide +kernel, by decide⟩⟩

theorem outerNames_latency : OuterNames "negative_latency" "slow" :=
  ⟨by decide, ⟨'n', by decide +kernel, by decide⟩, ⟨'s', by decide +kernel, by decide⟩⟩

/-- The labels of ages and latencies never merge buckets. -/
theorem time_labels_never_merge {max : ℤ} (hmax : 0 ≤ max) :
    NeverMerges Age max (zeroBounds max) ∧ NeverMerges AgeBiasOld max (maxBounds max) ∧
      NeverMerges Latency max (zeroBounds max) ∧ NeverMerges LatencyBiasSlow max (maxBounds max) := by
  have hzero := fun step => @spaced_zeroBounds step max hmax
  have hbiasMax := fun step => @spaced_maxBounds step max hmax
  exact ⟨neverMerges_of_bias outerNames_age rfl hzero,
    neverMerges_of_bias outerNames_age rfl hbiasMax,
    neverMerges_of_bias outerNames_latency rfl hzero,
    neverMerges_of_bias outerNames_latency rfl hbiasMax⟩

theorem time_labels_never_merge_minute :
    NeverMerges Age (60 * SECS) (zeroBounds (60 * SECS)) ∧
      NeverMerges AgeBiasOld (60 * SECS) (maxBounds (60 * SECS)) ∧
      NeverMerges Latency (60 * SECS) (zeroBounds (60 * SECS)) ∧
      NeverMerges LatencyBiasSlow (60 * SECS) (maxBounds (60 * SECS)) :=
  time_labels_never_merge (by decide)

end bucket_functions

end AtlasNative
