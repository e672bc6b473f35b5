import AtlasNative.QueryIndex

/-!
# The query index agrees with plain evaluation

A node agrees with a list of annotated entries when a lookup below it, for any list
of `:eq` queries, finds the values of the entries whose filters are all in that list
and whose remainder matches. Building a node keeps this for the node and for
every entry of the memo table.
-/

namespace AtlasNative

open Query Grouping QueryIndexAnnotated
set_option autoImplicit false

variable {T : Type}

namespace QueryIndex

section Agreement
variable (regex : RegexOracle) (tags : Tags)

/-- The entry is found among `queries` under the value `v`. -/
def Selects (queries : List RelopQuery) (v : T) (a : QueryIndexAnnotated T) : Prop :=
  a.filters ⊆ queries ∧ a.entry.query.Matches regex tags = true ∧ a.entry.value = v

variable {regex tags}

theorem selects_cons_iff {a : QueryIndexAnnotated T} {q : RelopQuery}
    {queries : List RelopQuery} {v : T} :
    Selects regex tags (q :: queries) v a ↔
      (q ∈ a.filters ∧ Selects regex tags queries v (a.erase q)) ∨
        Selects regex tags queries v a := by
  have herase : ∀ f, f ∈ (a.erase q).filters ↔ f ≠ q ∧ f ∈ a.filters := fun f =>
    a.filters_nodup.mem_erase_iff
  have hentry : (a.erase q).entry = a.entry := rfl
  simp only [Selects, List.subset_def, herase, hentry, List.mem_cons]
  constructor
  · intro h
    rcases h with ⟨hsub, hm, hv⟩
    by_cases hq : q ∈ a.filters
    · refine Or.inl ⟨hq, ?_, hm, hv⟩
      rintro f ⟨hne, hf⟩
      exact (hsub hf).resolve_left hne
    · refine Or.inr ⟨?_, hm, hv⟩
      intro f hf
      refine (hsub hf).resolve_left ?_
      rintro rfl
      exact hq hf
  · intro h
    rcases h with ⟨_, hsub, hm, hv⟩ | ⟨hsub, hm, hv⟩
    · refine ⟨?_, hm, hv⟩
      intro f hf
      by_cases hfq : f = q
      · exact Or.inl hfq
      · exact Or.inr (hsub ⟨hfq, hf⟩)
    · exact ⟨fun {f} hf => Or.inr (hsub hf), hm, hv⟩

theorem Selects.mono {a : QueryIndexAnnotated T} {queries : List RelopQuery} {v : T}
    (h : Selects regex tags [] v a) : Selects regex tags queries v a := by
  obtain ⟨hsub, hm, hv⟩ := h
  rw [List.subset_nil] at hsub
  exact ⟨by simp [hsub], hm, hv⟩

variable [DecidableEq T] (regex tags)

def Agrees (entries : AnnotatedList T) (idx : QueryIndex T) : Prop :=
  ∀ (queries : List RelopQuery) (v : T),
    v ∈ matching_entries regex tags queries idx ↔ ∃ a ∈ entries, Selects regex tags queries v a

def MemoAgrees (idx_map : AnnotatedIdxMap T) : Prop :=
  ∀ kv ∈ idx_map, Agrees regex tags kv.1 kv.2

variable {regex tags}

/-- Equal filter sets may list their filters in different orders. -/
theorem perm_of_equal_to {a b : QueryIndexAnnotated T} (h : a.equal_to b = true) :
    a.filters.Perm b.filters := by
  simp only [QueryIndexAnnotated.equal_to, Bool.and_eq_true, decide_eq_true_eq,
    List.all_eq_true] at h
  obtain ⟨⟨_, hlen⟩, hsub⟩ := h
  exact (List.subperm_of_subset a.filters_nodup hsub).perm_of_length_le hlen.ge

theorem selects_congr {a b : QueryIndexAnnotated T} (h : a.equal_to b = true)
    (queries : List RelopQuery) (v : T) :
    Selects regex tags queries v a ↔ Selects regex tags queries v b := by
  have hperm := perm_of_equal_to h
  simp only [QueryIndexAnnotated.equal_to, Bool.and_eq_true, decide_eq_true_eq] at h
  obtain ⟨⟨⟨hquery, hvalue⟩, _⟩, _⟩ := h
  have hmatches : a.entry.query.Matches regex tags = b.entry.query.Matches regex tags :=
    MatchesWith_congr regex _ hquery
  simp only [Selects, hmatches, hvalue, List.subset_def, hperm.mem_iff]

theorem exists_selects_congr {lhs rhs : AnnotatedList T} (h : equal_to lhs rhs = true)
    (queries : List RelopQuery) (v : T) :
    (∃ a ∈ lhs, Selects regex tags queries v a) ↔ ∃ a ∈ rhs, Selects regex tags queries v a := by
  induction lhs generalizing rhs with
  | nil =>
    cases rhs with
    | nil => rfl
    | cons b rhs => simp [equal_to] at h
  | cons a lhs ih =>
    cases rhs with
    | nil => simp [equal_to] at h
    | cons b rhs =>
      simp only [equal_to, List.length_cons, List.zip_cons_cons, List.all_cons,
        Bool.and_eq_true, decide_eq_true_eq, Nat.add_right_cancel_iff] at h
      obtain ⟨hlen, hab, hrest⟩ := h
      have hrest' : equal_to lhs rhs = true := by simp only [equal_to, hlen, hrest]; rfl
      simp only [List.mem_cons, exists_eq_or_imp, selects_congr hab, ih hrest']

theorem MemoAgrees.find {idx_map : AnnotatedIdxMap T} (hmemo : MemoAgrees regex tags idx_map)
    {h : HashOrder} {path : List ℕ} {entries : AnnotatedList T} {idx : QueryIndex T}
    (hfind : find h path idx_map entries = some idx) : Agrees regex tags entries idx := by
  unfold QueryIndex.find at hfind
  split at hfind
  · obtain ⟨kv, hkv, rfl⟩ := Option.map_eq_some_iff.mp hfind
    have heq := List.find?_some hkv
    have hmem := (h.order_perm path idx_map).mem_iff.mp (List.mem_of_find?_eq_some hkv)
    intro queries v
    rw [hmemo kv hmem queries v, exists_selects_congr heq]
  · contradiction

theorem mem_slow_matches_leaf (trees : List (RelopQuery × QueryIndex T))
    (entries : AnnotatedList T) (v : T) :
    v ∈ (mk trees ((leaf entries).map (·.entry))).slow_matches regex tags ↔
      ∃ a ∈ entries, Selects regex tags [] v a := by
  simp only [slow_matches, leaf, Selects, List.mem_toFinset, List.mem_map, List.mem_filter,
    List.subset_nil]
  constructor
  · intro h
    rcases h with ⟨_, ⟨⟨a, ⟨ha, hnil⟩, rfl⟩, hm⟩, rfl⟩
    exact ⟨a, ha, List.isEmpty_iff.mp hnil, hm, rfl⟩
  · intro h
    rcases h with ⟨a, ha, hnil, hm, rfl⟩
    exact ⟨a.entry, ⟨⟨a, ⟨ha, List.isEmpty_iff.mpr hnil⟩, rfl⟩, hm⟩, rfl⟩

def TreesAgree (regex : RegexOracle) (tags : Tags) (groups : List (RelopQuery × AnnotatedList T))
    (trees : List (RelopQuery × QueryIndex T)) : Prop :=
  List.Forall₂ (fun q_lst tree => tree.1 = q_lst.1 ∧ Agrees regex tags q_lst.2 tree.2)
    groups trees

theorem TreesAgree.find {groups : List (RelopQuery × AnnotatedList T)}
    {trees : List (RelopQuery × QueryIndex T)} (h : TreesAgree regex tags groups trees)
    (q : RelopQuery) :
    (∃ idx lst, (trees.find? fun kv => kv.1 = q).map Prod.snd = some idx ∧
      (q, lst) ∈ groups ∧ Agrees regex tags lst idx) ∨
    ((trees.find? fun kv => kv.1 = q).map Prod.snd = none ∧ ∀ lst, (q, lst) ∉ groups) := by
  induction h with
  | nil => exact Or.inr ⟨rfl, fun lst => List.not_mem_nil⟩
  | @cons q_lst tree groups trees hhead _ ih =>
    obtain ⟨hkey, hagrees⟩ := hhead
    by_cases hq : tree.1 = q
    · refine Or.inl ⟨tree.2, q_lst.2, ?_, ?_, hagrees⟩
      · simp [hq]
      · rw [← hq, hkey]
        exact List.mem_cons_self
    · have hskip : ((tree :: trees).find? fun kv => kv.1 = q) = trees.find? fun kv => kv.1 = q := by
        simp [hq]
      rw [hskip]
      rcases ih with ⟨idx, lst, hidx, hmem, hlst⟩ | ⟨hnone, hnot⟩
      · exact Or.inl ⟨idx, lst, hidx, List.mem_cons_of_mem _ hmem, hlst⟩
      · refine Or.inr ⟨hnone, fun lst hmem => ?_⟩
        rcases List.mem_cons.mp hmem with heq | hmem
        · exact hq (by rw [hkey, ← heq])
        · exact hnot lst hmem

theorem mem_matching_entries_cons (idx : QueryIndex T) (q : RelopQuery)
    (queries : List RelopQuery) (v : T) :
    v ∈ matching_entries regex tags (q :: queries) idx ↔
      (∃ matching, idx.child q = some matching ∧
        v ∈ matching_entries regex tags queries matching) ∨
      v ∈ idx.slow_matches regex tags ∨ v ∈ matching_entries regex tags queries idx := by
  simp only [matching_entries, Finset.mem_union, or_assoc]
  cases idx.child q <;> simp

theorem exists_child_iff {h : HashOrder} {path : List ℕ} {entries : AnnotatedList T}
    {trees : List (RelopQuery × QueryIndex T)} {leaf_entries : List (QueryIndexEntry T)}
    (htrees : TreesAgree regex tags (grouped_by_q h path entries) trees) {q : RelopQuery}
    {queries : List RelopQuery} {v : T} :
    (∃ matching, (mk trees leaf_entries).child q = some matching ∧
        v ∈ matching_entries regex tags queries matching) ↔
      ∃ a ∈ entries, q ∈ a.filters ∧ Selects regex tags queries v (a.erase q) := by
  rcases htrees.find q with ⟨idx, lst, hidx, hmem, hlst⟩ | ⟨hnone, hnot⟩
  · simp only [child, hidx, Option.some.injEq, exists_eq_left', hlst queries v,
      mem_group (mem_grouped_by_q.mp hmem), children, List.mem_filter]
    constructor
    · intro hgiven
      rcases hgiven with ⟨_, ⟨a, ⟨ha, _⟩, hq, rfl⟩, hs⟩
      exact ⟨a, ha, hq, hs⟩
    · intro hgiven
      rcases hgiven with ⟨a, ha, hq, hs⟩
      refine ⟨_, ⟨a, ⟨ha, ?_⟩, hq, rfl⟩, hs⟩
      simpa using List.ne_nil_of_mem hq
  · simp only [child, hnone, reduceCtorEq, false_and, exists_false, false_iff]
    intro hgiven
    rcases hgiven with ⟨a, ha, hq, _⟩
    have hchild : a ∈ children entries :=
      List.mem_filter.mpr ⟨ha, by simpa using List.ne_nil_of_mem hq⟩
    obtain ⟨lst, hlst⟩ := exists_group h (1 :: path) hchild hq
    exact hnot lst (mem_grouped_by_q.mpr hlst)

/-- A node whose subtrees agree with their groups agrees with its entries: one `:eq`
query at a time is either used by an entry or skipped. -/
theorem agrees_mk {h : HashOrder} {path : List ℕ} {entries : AnnotatedList T}
    {trees : List (RelopQuery × QueryIndex T)}
    (htrees : TreesAgree regex tags (grouped_by_q h path entries) trees) :
    Agrees regex tags entries (mk trees ((leaf entries).map (·.entry))) := by
  intro queries v
  induction queries with
  | nil => exact mem_slow_matches_leaf trees entries v
  | cons q queries ih =>
    rw [mem_matching_entries_cons, exists_child_iff htrees, mem_slow_matches_leaf, ih]
    simp only [selects_cons_iff]
    constructor
    · intro hcases
      rcases hcases with ⟨a, ha, hs⟩ | ⟨a, ha, hs⟩ | ⟨a, ha, hs⟩
      · exact ⟨a, ha, Or.inl hs⟩
      · exact ⟨a, ha, Or.inr hs.mono⟩
      · exact ⟨a, ha, Or.inr hs⟩
    · intro hgiven
      rcases hgiven with ⟨a, ha, hs | hs⟩
      · exact Or.inl ⟨a, ha, hs⟩
      · exact Or.inr (Or.inr ⟨a, ha, hs⟩)

variable (regex tags)

/-- Building the node for a list of entries, and for the groups of one. -/
theorem create_impl_agrees (h : HashOrder) (path : List ℕ) (idx_map : AnnotatedIdxMap T)
    (entries : AnnotatedList T) (hmemo : MemoAgrees regex tags idx_map) :
    Agrees regex tags entries (create_impl h path idx_map entries).1 ∧
      MemoAgrees regex tags (create_impl h path idx_map entries).2 := by
  revert hmemo
  apply create_impl.induct h
    (fun path idx_map entries => MemoAgrees regex tags idx_map →
      Agrees regex tags entries (create_impl h path idx_map entries).1 ∧
        MemoAgrees regex tags (create_impl h path idx_map entries).2)
    (fun path idx_map groups => MemoAgrees regex tags idx_map →
      TreesAgree regex tags groups (create_trees h path idx_map groups).1 ∧
        MemoAgrees regex tags (create_trees h path idx_map groups).2)
  case case1 =>
    intro path idx_map entries idx hfind hmemo
    rw [create_impl, hfind]
    exact ⟨hmemo.find hfind, hmemo⟩
  case case2 =>
    intro path idx_map entries hfind ih hmemo
    obtain ⟨htrees, hmemo'⟩ := ih hmemo
    rw [create_impl, hfind]
    refine ⟨agrees_mk htrees, ?_⟩
    intro kv hkv
    rcases List.mem_cons.mp hkv with rfl | hkv
    · exact agrees_mk htrees
    · exact hmemo' kv hkv
  case case3 =>
    intro path idx_map hmemo
    rw [create_trees]
    exact ⟨List.Forall₂.nil, hmemo⟩
  case case4 =>
    intro path idx_map q_lst groups idx ih1 ih2 hmemo
    obtain ⟨hidx, hmemo1⟩ := ih1 hmemo
    obtain ⟨htrees, hmemo2⟩ := ih2 hmemo1
    rw [create_trees]
    exact ⟨List.Forall₂.cons ⟨rfl, hidx⟩ htrees, hmemo2⟩

end Agreement

section Rewrites
variable (regex : RegexOracle) (get_value : StrRef → Option StrRef)

theorem any_split (q : Query) :
    (split q).any (·.MatchesWith regex get_value) = q.MatchesWith regex get_value := by
  induction q with
  | and_ q1 q2 ih1 ih2 =>
    rw [split, any_vector_cross_product _ _ _ (·.MatchesWith regex get_value) _
      (query.MatchesWith_and_q regex get_value), ih1, ih2, MatchesWith]
  | in_ k vs =>
    rw [split]
    split
    · cases hk : get_value k <;> simp [MatchesWith, do_query, hk, Function.comp_def]
    · simp
  | _ => simp [split]

theorem all_conjunction_list (q : Query) :
    (conjunction_list q).all (·.MatchesWith regex get_value) = q.MatchesWith regex get_value := by
  induction q with
  | and_ q1 q2 ih1 ih2 => rw [conjunction_list, List.all_append, ih1, ih2, MatchesWith]
  | _ => simp [conjunction_list]

theorem all_foldl_distinct (queries set : List Query) :
    (queries.foldl (fun set q => if set.any (·.Equals q) then set else set ++ [q]) set).all
        (·.MatchesWith regex get_value) =
      (set.all (·.MatchesWith regex get_value) &&
        queries.all (·.MatchesWith regex get_value)) := by
  induction queries generalizing set with
  | nil => simp
  | cons q queries ih =>
    rw [List.foldl_cons, ih, List.all_cons]
    split
    · rename_i hany
      obtain ⟨p, hp, hpq⟩ := List.any_eq_true.mp hany
      have hcongr := MatchesWith_congr regex get_value hpq
      by_cases hset : set.all (·.MatchesWith regex get_value) = true
      · have hq := List.all_eq_true.mp hset p hp
        rw [hcongr] at hq
        simp [hset, hq]
      · simp [Bool.eq_false_iff.mpr hset]
    · simp [Bool.and_assoc]

theorem all_distinct (queries : List Query) :
    (distinct queries).all (·.MatchesWith regex get_value) =
      queries.all (·.MatchesWith regex get_value) := by
  rw [distinct, all_foldl_distinct, List.all_nil, Bool.true_and]

end Rewrites

theorem eqFilter?_eq_some_iff {q : Query} {f : RelopQuery} :
    eqFilter? q = some f ↔ q = .relop f ∧ f.op_ = .EQ := by
  cases q with
  | relop p =>
    simp only [eqFilter?, Option.ite_none_right_eq_some, Option.some.injEq, relop.injEq]
    constructor
    · intro h
      rcases h with ⟨hop, rfl⟩
      exact ⟨rfl, hop⟩
    · intro h
      rcases h with ⟨rfl, hop⟩
      exact ⟨hop, rfl⟩
  | _ => simp [eqFilter?]

section Tags
variable (regex : RegexOracle) (tags : AList fun _ : StrRef => StrRef)

def tagQueries : List RelopQuery := tags.entries.map fun tag => ⟨tag.1, tag.2, .EQ⟩

theorem mem_tagQueries_iff {f : RelopQuery} (hf : f.op_ = .EQ) :
    f ∈ tagQueries tags ↔ (Query.relop f).Matches regex tags.toFinmap = true := by
  obtain ⟨k, v, op⟩ := f
  obtain rfl : op = .EQ := hf
  have hmem : (⟨k, v, .EQ⟩ : RelopQuery) ∈ tagQueries tags ↔ ⟨k, v⟩ ∈ tags.entries := by
    simp only [tagQueries, List.mem_map, RelopQuery.mk.injEq, and_true]
    constructor
    · intro h
      rcases h with ⟨⟨_, _⟩, hmem, rfl, rfl⟩
      exact hmem
    · intro hmem
      exact ⟨_, hmem, rfl, rfl⟩
  rw [hmem, ← AList.mem_lookup_iff]
  simp only [Query.Matches, MatchesWith, Tags.at_, Finmap.lookup_toFinmap]
  cases tags.lookup k <;> simp [do_query]

theorem selects_annotate {T : Type} (h : HashOrder) (path : List ℕ) (entry : QueryIndexEntry T)
    (v : T) :
    Selects regex tags.toFinmap (tagQueries tags) v (annotate h path entry) ↔
      entry.query.Matches regex tags.toFinmap = true ∧ entry.value = v := by
  have hall : entry.query.Matches regex tags.toFinmap =
      (h.order path (distinct (conjunction_list entry.query))).all
        (·.Matches regex tags.toFinmap) := by
    rw [(h.order_perm path _).all_eq]
    exact ((all_distinct regex _ _).trans (all_conjunction_list regex _ _)).symm
  have hremainder : ∀ remainder : List Query,
      (if remainder.isEmpty then .true_ else query.and_queries remainder).Matches regex
        tags.toFinmap = remainder.all (·.Matches regex tags.toFinmap) := by
    intro remainder
    split
    · rename_i hnil
      rw [List.isEmpty_iff.mp hnil]
      rfl
    · exact query.MatchesWith_and_queries regex _ remainder
  simp only [Selects, annotate, hremainder, hall, List.all_eq_true, List.mem_filter,
    List.subset_def, List.mem_dedup, List.mem_filterMap, eqFilter?_eq_some_iff]
  constructor
  · intro hgiven
    rcases hgiven with ⟨hfilters, hrest, hv⟩
    refine ⟨fun q hq => ?_, hv⟩
    cases hf : eqFilter? q with
    | none => exact hrest q ⟨hq, by rw [hf]; rfl⟩
    | some f =>
      obtain ⟨rfl, hop⟩ := eqFilter?_eq_some_iff.mp hf
      exact (mem_tagQueries_iff regex tags hop).mp (hfilters ⟨_, hq, rfl, hop⟩)
  · intro hgiven
    rcases hgiven with ⟨hq, hv⟩
    refine ⟨?_, fun q hmem => hq q hmem.1, hv⟩
    rintro f ⟨_, hmem, rfl, hop⟩
    exact (mem_tagQueries_iff regex tags hop).mpr (hq _ hmem)

theorem exists_split_iff (q : Query) (tags : Tags) :
    (∃ raw_q ∈ query.dnf_list q, ∃ p ∈ split raw_q, p.Matches regex tags = true) ↔
      q.Matches regex tags = true := by
  have hsplit : ∀ raw_q : Query, (∃ p ∈ split raw_q, p.Matches regex tags = true) ↔
      raw_q.Matches regex tags = true := by
    intro raw_q
    rw [Query.Matches, ← any_split, List.any_eq_true]
    rfl
  simp only [hsplit]
  rw [Query.Matches, ← query.any_dnf_list, List.any_eq_true]
  rfl

theorem exists_annotated_iff {T : Type} (h : HashOrder) (entries : List (QueryIndexEntry T))
    (v : T) :
    (∃ a ∈ annotated h entries, Selects regex tags.toFinmap (tagQueries tags) v a) ↔
      ∃ e ∈ entries, e.query.Matches regex tags.toFinmap = true ∧ e.value = v := by
  simp only [annotated, List.mem_map, exists_exists_and_eq_and, selects_annotate]
  constructor
  · intro hgiven
    rcases hgiven with ⟨e, he, hm, hv⟩
    obtain ⟨entry, hentry, raw_q, hraw, q, hq, heq⟩ := by
      simpa only [List.mem_flatMap, List.mem_map] using List.fst_mem_of_mem_zipIdx he
    rw [← heq] at hm hv
    exact ⟨entry, hentry, (exists_split_iff regex _ _).mp ⟨raw_q, hraw, q, hq, hm⟩, hv⟩
  · intro hgiven
    rcases hgiven with ⟨entry, hentry, hm, hv⟩
    obtain ⟨raw_q, hraw, q, hq, hm⟩ := (exists_split_iff regex _ _).mpr hm
    have hmem : (⟨q, entry.value⟩ : QueryIndexEntry T) ∈ entries.flatMap fun entry =>
        (query.dnf_list entry.query).flatMap fun raw_q =>
          (split raw_q).map fun q => ⟨q, entry.value⟩ := by
      simp only [List.mem_flatMap, List.mem_map]
      exact ⟨entry, hentry, raw_q, hraw, q, hq, rfl⟩
    obtain ⟨i, hi, heq⟩ := List.getElem_of_mem hmem
    refine ⟨(⟨q, entry.value⟩, i), ?_, hm, hv⟩
    rw [List.mk_mem_zipIdx_iff_getElem?, List.getElem?_eq_getElem hi, heq]

/-- The index finds the values of the entries whose query matches, and says that it
matches when there is one, whatever the order of its hash tables and of the tags. -/
theorem MatchingEntries_Create {T : Type} [DecidableEq T] (h : HashOrder)
    (entries : List (QueryIndexEntry T)) :
    MatchingEntries regex tags (Create h entries) =
        ((entries.filter fun e => e.query.Matches regex tags.toFinmap).map (·.value)).toFinset ∧
      (MatchesTags regex tags (Create h entries) = true ↔
        ∃ e ∈ entries, e.query.Matches regex tags.toFinmap = true) := by
  have hset : MatchingEntries regex tags (Create h entries) =
      ((entries.filter fun e => e.query.Matches regex tags.toFinmap).map
        (·.value)).toFinset := by
    ext v
    have hagrees := (create_impl_agrees regex tags.toFinmap h [] [] (annotated h entries)
      fun kv hkv => absurd hkv List.not_mem_nil).1
    rw [MatchingEntries, Create, ← tagQueries, hagrees, exists_annotated_iff]
    simp only [List.mem_toFinset, List.mem_map, List.mem_filter, and_assoc]
  refine ⟨hset, ?_⟩
  simp only [MatchesTags, hset, Bool.not_eq_true', decide_eq_false_iff_not,
    List.toFinset_eq_empty_iff, List.map_eq_nil_iff, List.filter_eq_nil_iff, not_forall,
    not_not, exists_prop]

end Tags

end QueryIndex

end AtlasNative
