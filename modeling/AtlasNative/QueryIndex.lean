import AtlasNative.Dnf
import AtlasNative.Lib.Grouping
import Mathlib.Data.Finset.Union

/-!
# The query index

A trie over `:eq` filters: `Create` rewrites every query into alternatives that are
conjunctions, takes the `:eq` clauses of each as a set of filters, and shares equal
nodes through a memo table. Every iteration over a hash table, and whether a lookup
in the memo table finds an equal key, is left to a `HashOrder`; each of them has a
path of its own, so that no two need to agree.
-/

namespace AtlasNative

open Query Grouping
set_option autoImplicit false

/-- The choices of the hash tables, per iteration. -/
structure HashOrder where
  order : {α : Type} → List ℕ → List α → List α
  order_perm : ∀ {α : Type} (path : List ℕ) (l : List α), (order path l).Perm l
  /-- The hash of a list of entries depends on the order of its filter sets, so that
  equal keys can have different hashes. -/
  hit : List ℕ → Bool

variable {T : Type}

structure QueryIndexEntry (T : Type) where
  query : Query
  value : T

structure QueryIndexAnnotated (T : Type) where
  entry : QueryIndexEntry T
  filters : List RelopQuery
  filters_nodup : filters.Nodup

abbrev AnnotatedList (T : Type) := List (QueryIndexAnnotated T)

inductive QueryIndex (T : Type) where
  | mk (indexes_ : List (RelopQuery × QueryIndex T)) (entries_ : List (QueryIndexEntry T))

abbrev AnnotatedIdxMap (T : Type) := List (AnnotatedList T × QueryIndex T)

namespace QueryIndexAnnotated

def erase (a : QueryIndexAnnotated T) (filter : RelopQuery) : QueryIndexAnnotated T where
  entry := a.entry
  filters := a.filters.erase filter
  filters_nodup := a.filters_nodup.erase filter

/-- Each filter with the entry that is left once it has been applied. -/
def to_query_annotated_list (h : HashOrder) (path : List ℕ) (a : QueryIndexAnnotated T) :
    List (RelopQuery × QueryIndexAnnotated T) :=
  (h.order path a.filters).map fun filter => (filter, a.erase filter)

/-- `std::equal_to` on annotated entries -/
def equal_to [DecidableEq T] (lhs rhs : QueryIndexAnnotated T) : Bool :=
  lhs.entry.query.Equals rhs.entry.query && decide (lhs.entry.value = rhs.entry.value) &&
    decide (lhs.filters.length = rhs.filters.length) &&
    lhs.filters.all fun f => decide (f ∈ rhs.filters)

theorem erase_length_lt {a : QueryIndexAnnotated T} {f : RelopQuery} (hf : f ∈ a.filters) :
    (a.erase f).filters.length < a.filters.length := by
  have hpos := List.length_pos_of_mem hf
  have hlen := List.length_erase_of_mem hf
  simp only [erase]
  omega

theorem mem_to_query_annotated_list {h : HashOrder} {path : List ℕ}
    {a b : QueryIndexAnnotated T} {f : RelopQuery} :
    (f, b) ∈ a.to_query_annotated_list h path ↔ f ∈ a.filters ∧ b = a.erase f := by
  have hmem : f ∈ h.order path a.filters ↔ f ∈ a.filters := (h.order_perm path _).mem_iff
  simp only [to_query_annotated_list, List.mem_map, Prod.mk.injEq]
  constructor
  · intro hgiven
    rcases hgiven with ⟨_, hf, rfl, rfl⟩
    exact ⟨hmem.mp hf, rfl⟩
  · intro hgiven
    rcases hgiven with ⟨hf, rfl⟩
    exact ⟨f, hmem.mpr hf, rfl, rfl⟩

end QueryIndexAnnotated

open QueryIndexAnnotated

namespace QueryIndex

/-- `std::equal_to` on lists of annotated entries -/
def equal_to [DecidableEq T] (lhs rhs : AnnotatedList T) : Bool :=
  decide (lhs.length = rhs.length) && (lhs.zip rhs).all fun p => p.1.equal_to p.2

/-- `idx_map->find(entries)` -/
def find [DecidableEq T] (h : HashOrder) (path : List ℕ) (idx_map : AnnotatedIdxMap T)
    (entries : AnnotatedList T) : Option (QueryIndex T) :=
  if h.hit path then
    ((h.order path idx_map).find? fun kv => equal_to kv.1 entries).map Prod.snd
  else none

/-- `grouped_by_q`, before it is iterated over -/
def group (h : HashOrder) (path : List ℕ) (children : AnnotatedList T) :
    List (RelopQuery × AnnotatedList T) :=
  ofPairs (children.zipIdx.flatMap fun e => e.1.to_query_annotated_list h (e.2 :: path))

def depth (entries : AnnotatedList T) : ℕ :=
  (entries.map fun e => e.filters.length).foldr max 0

theorem length_le_depth {entries : AnnotatedList T} {e : QueryIndexAnnotated T}
    (he : e ∈ entries) : e.filters.length ≤ depth entries := by
  induction entries with
  | nil => simp at he
  | cons a entries ih =>
    simp only [depth, List.map_cons, List.foldr_cons] at ih ⊢
    rcases List.mem_cons.mp he with rfl | hmem
    · exact le_max_left _ _
    · exact (ih hmem).trans (le_max_right _ _)

theorem depth_le {entries : AnnotatedList T} {n : ℕ}
    (hn : ∀ e ∈ entries, e.filters.length ≤ n) : depth entries ≤ n := by
  induction entries with
  | nil => exact Nat.zero_le n
  | cons a entries ih =>
    have hrest := ih fun e he => hn e (List.mem_cons_of_mem _ he)
    exact max_le (hn a List.mem_cons_self) hrest

theorem mem_group {h : HashOrder} {path : List ℕ} {children : AnnotatedList T}
    {q : RelopQuery} {lst : AnnotatedList T} (hlst : (q, lst) ∈ group h path children)
    (b : QueryIndexAnnotated T) :
    b ∈ lst ↔ ∃ a ∈ children, q ∈ a.filters ∧ b = a.erase q := by
  rw [((mem_ofPairs _).mp hlst).1, mem_bucket, List.mem_flatMap]
  constructor
  · intro hgiven
    rcases hgiven with ⟨e, he, hb⟩
    exact ⟨e.1, List.fst_mem_of_mem_zipIdx he, mem_to_query_annotated_list.mp hb⟩
  · intro hgiven
    rcases hgiven with ⟨a, ha, hb⟩
    obtain ⟨i, hi, rfl⟩ := List.getElem_of_mem ha
    exact ⟨(children[i], i), List.mk_mem_zipIdx_iff_getElem?.mpr (by simp [hi]),
      mem_to_query_annotated_list.mpr hb⟩

theorem exists_group (h : HashOrder) (path : List ℕ) {children : AnnotatedList T}
    {a : QueryIndexAnnotated T} (ha : a ∈ children) {q : RelopQuery} (hq : q ∈ a.filters) :
    ∃ lst, (q, lst) ∈ group h path children := by
  obtain ⟨i, hi, rfl⟩ := List.getElem_of_mem ha
  refine ⟨_, (mem_ofPairs _).mpr ⟨rfl, ?_⟩⟩
  apply List.ne_nil_of_mem (a := children[i].erase q)
  rw [mem_bucket, List.mem_flatMap]
  exact ⟨(children[i], i), List.mk_mem_zipIdx_iff_getElem?.mpr (by simp [hi]),
    mem_to_query_annotated_list.mpr ⟨hq, rfl⟩⟩

theorem depth_group_lt {h : HashOrder} {path : List ℕ} {children : AnnotatedList T}
    {q : RelopQuery} {lst : AnnotatedList T} (hlst : (q, lst) ∈ group h path children) :
    depth lst < depth children := by
  have hle : ∀ b ∈ lst, b.filters.length + 1 ≤ depth children := by
    intro b hb
    obtain ⟨a, ha, hq, rfl⟩ := (mem_group hlst b).mp hb
    have hlt := erase_length_lt hq
    have hdepth := length_le_depth ha
    omega
  have hne : lst ≠ [] := ((mem_ofPairs _).mp hlst).2
  obtain ⟨b, hb⟩ := List.exists_mem_of_ne_nil lst hne
  have hb' := hle b hb
  have hdepth : depth lst ≤ depth children - 1 := depth_le fun e he => by
    have he' := hle e he
    omega
  omega

def groupsDepth (groups : List (RelopQuery × AnnotatedList T)) : ℕ :=
  (groups.map fun q_lst => depth q_lst.2 + 1).foldr max 0

theorem groupsDepth_le {groups : List (RelopQuery × AnnotatedList T)} {n : ℕ}
    (hn : ∀ q_lst ∈ groups, depth q_lst.2 < n) : groupsDepth groups ≤ n := by
  induction groups with
  | nil => exact Nat.zero_le n
  | cons q_lst groups ih =>
    have hrest := ih fun e he => hn e (List.mem_cons_of_mem _ he)
    exact max_le (hn q_lst List.mem_cons_self) hrest

def children (entries : AnnotatedList T) : AnnotatedList T :=
  entries.filter fun entry => !entry.filters.isEmpty

def leaf (entries : AnnotatedList T) : AnnotatedList T :=
  entries.filter fun entry => entry.filters.isEmpty

theorem depth_children_le (entries : AnnotatedList T) : depth (children entries) ≤ depth entries :=
  depth_le fun _ he => length_le_depth (List.mem_of_mem_filter he)

/-- `grouped_by_q`, in the order it is iterated over -/
def grouped_by_q (h : HashOrder) (path : List ℕ) (entries : AnnotatedList T) :
    List (RelopQuery × AnnotatedList T) :=
  h.order (2 :: path) (group h (1 :: path) (children entries))

theorem mem_grouped_by_q {h : HashOrder} {path : List ℕ} {entries : AnnotatedList T}
    {q_lst : RelopQuery × AnnotatedList T} :
    q_lst ∈ grouped_by_q h path entries ↔ q_lst ∈ group h (1 :: path) (children entries) :=
  (h.order_perm _ _).mem_iff

theorem groupsDepth_grouped_by_q_le (h : HashOrder) (path : List ℕ) (entries : AnnotatedList T) :
    groupsDepth (grouped_by_q h path entries) ≤ depth entries := by
  apply groupsDepth_le
  intro q_lst hq
  exact (depth_group_lt (mem_grouped_by_q.mp hq)).trans_le (depth_children_le entries)

mutual

def create_impl [DecidableEq T] (h : HashOrder) (path : List ℕ) (idx_map : AnnotatedIdxMap T)
    (entries : AnnotatedList T) : QueryIndex T × AnnotatedIdxMap T :=
  match find h (0 :: path) idx_map entries with
  | some idx => (idx, idx_map)
  | none =>
    let trees := create_trees h (3 :: path) idx_map (grouped_by_q h path entries)
    let query_index := .mk trees.1 ((leaf entries).map (·.entry))
    (query_index, (entries, query_index) :: trees.2)
termination_by (depth entries, 1, 0)
decreasing_by
  rcases (groupsDepth_grouped_by_q_le h path entries).lt_or_eq with hlt | heq
  · exact Prod.Lex.left _ _ hlt
  · rw [heq]
    exact Prod.Lex.right _ (Prod.Lex.left _ _ Nat.zero_lt_one)

/-- The loop over `grouped_by_q` that fills `trees`. -/
def create_trees [DecidableEq T] (h : HashOrder) (path : List ℕ) (idx_map : AnnotatedIdxMap T) :
    List (RelopQuery × AnnotatedList T) →
      List (RelopQuery × QueryIndex T) × AnnotatedIdxMap T
  | [] => ([], idx_map)
  | q_lst :: groups =>
    let idx := create_impl h (groups.length :: path) idx_map q_lst.2
    let trees := create_trees h path idx.2 groups
    ((q_lst.1, idx.1) :: trees.1, trees.2)
termination_by groups => (groupsDepth groups, 0, groups.length)
decreasing_by
  · exact Prod.Lex.left _ _ (le_max_left (depth q_lst.2 + 1) (groupsDepth groups))
  · rcases (le_max_right (depth q_lst.2 + 1) (groupsDepth groups)).lt_or_eq with hlt | heq
    · exact Prod.Lex.left _ _ hlt
    · rw [show groupsDepth (q_lst :: groups) = groupsDepth groups from heq.symm]
      exact Prod.Lex.right _ (Prod.Lex.right _ (Nat.lt_succ_self _))

end

/-- Splits `:in` queries with few values into queries using `:eq`. -/
def split : Query → List Query
  | .and_ q1 q2 => vector_cross_product (split q1) (split q2) query.and_q
  | .in_ k vs => if vs.length < 5 then vs.map fun v => .relop ⟨k, v, .EQ⟩ else [.in_ k vs]
  | q => [q]

/-- The clauses of a query that are ANDed together. -/
def conjunction_list : Query → List Query
  | .and_ q1 q2 => conjunction_list q1 ++ conjunction_list q2
  | q => [q]

/-- Filling a hash set of queries: equal ones are kept once. -/
def distinct (queries : List Query) : List Query :=
  queries.foldl (fun set q => if set.any (·.Equals q) then set else set ++ [q]) []

def eqFilter? : Query → Option RelopQuery
  | .relop q => if q.op_ = .EQ then some q else none
  | _ => none

/-- Takes the `:eq` clauses out as filters; what is left has to be checked against. -/
def annotate (h : HashOrder) (path : List ℕ) (entry : QueryIndexEntry T) :
    QueryIndexAnnotated T :=
  let queries := h.order path (distinct (conjunction_list entry.query))
  let remainder := queries.filter fun q => (eqFilter? q).isNone
  let remainder_query := if remainder.isEmpty then .true_ else query.and_queries remainder
  ⟨⟨remainder_query, entry.value⟩, (queries.filterMap eqFilter?).dedup, List.nodup_dedup _⟩

def annotated (h : HashOrder) (entries : List (QueryIndexEntry T)) : AnnotatedList T :=
  let split_entries := entries.flatMap fun entry =>
    (query.dnf_list entry.query).flatMap fun raw_q =>
      (split raw_q).map fun q => (⟨q, entry.value⟩ : QueryIndexEntry T)
  split_entries.zipIdx.map fun e => annotate h [e.2, 4] e.1

def Create [DecidableEq T] (h : HashOrder) (entries : List (QueryIndexEntry T)) : QueryIndex T :=
  (create_impl h [] [] (annotated h entries)).1

/-- `indexes_.find(q)` -/
def child (q : RelopQuery) : QueryIndex T → Option (QueryIndex T)
  | mk indexes_ _ => (indexes_.find? fun kv => kv.1 = q).map Prod.snd

section Matching
variable [DecidableEq T] (regex : RegexOracle) (tags : Tags)

def slow_matches : QueryIndex T → Finset T
  | mk _ entries_ =>
    ((entries_.filter fun e => e.query.Matches regex tags).map (·.value)).toFinset

def matching_entries : List RelopQuery → QueryIndex T → Finset T
  | [], idx => idx.slow_matches regex tags
  | q :: queries, idx =>
    let children :=
      match idx.child q with
      | some matching => matching_entries queries matching
      | none => ∅
    children ∪ idx.slow_matches regex tags ∪ matching_entries queries idx

end Matching

/-- The tags come as the entries of their hash table, in the order of the walk. -/
def MatchingEntries [DecidableEq T] (regex : RegexOracle)
    (tags : AList fun _ : StrRef => StrRef) (idx : QueryIndex T) : Finset T :=
  let queries := tags.entries.map fun tag => (⟨tag.1, tag.2, .EQ⟩ : RelopQuery)
  matching_entries regex tags.toFinmap queries idx

def MatchesTags [DecidableEq T] (regex : RegexOracle)
    (tags : AList fun _ : StrRef => StrRef) (idx : QueryIndex T) : Bool :=
  !decide (MatchingEntries regex tags idx = ∅)

end QueryIndex

end AtlasNative
