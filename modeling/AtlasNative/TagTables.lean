import AtlasNative.FlatHashMapRuns
import AtlasNative.Tags
import Mathlib.Data.List.Forall2

/-!
# Tags and ids over their hash tables

Everywhere else the tags of an id are a finite map. In the code they are a hash table, whose
order depends on its history, and an id keeps its hash once that has been computed. Whatever is
done with tags and ids, the tables answer as the finite maps do.
-/

namespace AtlasNative

open RobinHood
set_option autoImplicit false

/-- `operator[]` puts such a reference in before the value is assigned. -/
instance : Inhabited StrRef := ⟨intern_str ""⟩

abbrev TagTable := FlatHashMap StrRef StrRef

namespace TagTable

section Code
variable (memory : ℕ) (ref_hash : StrRef → UInt64)

def add (t : TagTable) (k v : StrRef) : Option TagTable := t.assign memory ref_hash k v

def hashWalk (walk : List (StrRef × StrRef)) : UInt64 :=
  walk.foldl (fun h entry => h + ((ref_hash entry.1 <<< 1) ^^^ ref_hash entry.2)) 0

def hash (t : TagTable) : Option UInt64 := t.visit.map (hashWalk ref_hash)

def add_all (t source : TagTable) : Option TagTable :=
  source.visit.bind fun walk =>
    walk.foldlM (fun t entry => add memory ref_hash t entry.1 entry.2) t

/-- `t == that`, which walks over `that`. -/
def equal (t that : TagTable) : Option Bool := FlatHashMap.equal that ref_hash t

def has (t : TagTable) (key : StrRef) : Option Bool :=
  (t.find ref_hash key).map fun entry => entry ≠ t.end_

def at_ (t : TagTable) (key : StrRef) : Option (Option StrRef) :=
  (t.find ref_hash key).bind fun entry =>
    if entry ≠ t.end_ then (t.deref entry).map fun entry => some entry.2 else some none

end Code

end TagTable

structure TableId where
  name_ : StrRef
  tags_ : TagTable
  /-- 0 before it is computed -/
  hash_ : UInt64

namespace TableId

section Code
variable (memory : ℕ) (ref_hash : StrRef → UInt64)

/-- The tags are copied for the parameter of the constructor. -/
def create (name : StrRef) (tags : TagTable) : Option TableId :=
  (tags.copy memory ref_hash).map fun tags => ⟨name, tags, 0⟩

def equal (id rhs : TableId) : Option Bool :=
  if id.name_ = rhs.name_ then id.tags_.equal ref_hash rhs.tags_ else some false

def Hash (id : TableId) : Option (TableId × UInt64) :=
  if id.hash_ = 0 then
    (id.tags_.hash ref_hash).map fun h =>
      let hash_ := h ^^^ ref_hash id.name_
      ({ id with hash_ := hash_ }, hash_)
  else some (id, id.hash_)

def WithTag (id : TableId) (key value : StrRef) : Option TableId :=
  (id.tags_.copy memory ref_hash).bind fun new_tags =>
    (TagTable.add memory ref_hash new_tags key value).bind fun new_tags =>
      create memory ref_hash id.name_ new_tags

/-- Nothing for the id itself. -/
def WithDefaultTagForId (id : TableId) (key value : StrRef) : Option (Option TableId) :=
  (id.tags_.has ref_hash key).bind fun already_has_key =>
    if already_has_key then some none
    else (id.WithTag memory ref_hash key value).map some

end Code

end TableId

/-- The hash of a finite map of tags, in whatever order they come. -/
def Tags.hash (ref_hash : StrRef → UInt64) (tags : Tags) : UInt64 :=
  TagTable.hashWalk ref_hash (sortedWalk tags)

def Id.Hash (ref_hash : StrRef → UInt64) (id : Id) : UInt64 :=
  id.tags_.hash ref_hash ^^^ ref_hash id.name_

namespace TagTable
variable {memory : ℕ} {ref_hash : StrRef → UInt64} {t t' source : TagTable} {tags tags' : Tags}

theorem hashWalk_perm (ref_hash : StrRef → UInt64) {walk walk' : List (StrRef × StrRef)}
    (h : walk.Perm walk') : hashWalk ref_hash walk = hashWalk ref_hash walk' := by
  apply h.foldl_eq'
  intro x _ y _ sum
  rw [UInt64.add_assoc, UInt64.add_assoc, UInt64.add_comm (_ ^^^ _)]

/-- The table holds the tags. -/
def Of (ref_hash : StrRef → UInt64) (t : TagTable) (tags : Tags) : Prop :=
  t.Represents ref_hash fun k => tags.at_ k

namespace Of

theorem enumerates (h : Of ref_hash t tags) : Enumerates (contents t.entries) tags :=
  ⟨h.sound.nodup, h.mem⟩

theorem visit (h : Of ref_hash t tags) : t.visit = some (contents t.entries) := h.sound.visit

theorem hash (h : Of ref_hash t tags) : t.hash ref_hash = some (tags.hash ref_hash) := by
  rw [TagTable.hash, h.visit, Option.map_some,
    hashWalk_perm ref_hash (h.enumerates.perm (sortedWalk_enumerates tags))]
  rfl

theorem size (h : Of ref_hash t tags) : t.size = tags.keys.card := by
  have hkeys : tags.keys = ((contents t.entries).map Prod.fst).toFinset := by
    ext k
    rw [h.enumerates.mem_keys, List.mem_toFinset]
  rw [hkeys, List.toFinset_card_of_nodup h.enumerates.1, List.length_map]
  exact h.sound.size

theorem find (h : Of ref_hash t tags) (key : StrRef) :
    (∃ pos v, t.find ref_hash key = some pos ∧ pos ≠ t.end_ ∧ t.deref pos = some (key, v) ∧
      tags.at_ key = some v) ∨
    (t.find ref_hash key = some t.end_ ∧ tags.at_ key = none) := by
  rcases h.sound.find key with ⟨pos, v, hfind, hpos⟩ | ⟨hfind, hkey⟩
  · left
    refine ⟨pos, v, hfind, (h.sound.lt_of_deref hpos).ne, hpos, ?_⟩
    exact (h.mem key v).mp (FlatHashMap.mem_contents_of_deref hpos)
  · exact .inr ⟨hfind, h.eq_none hkey⟩

theorem at_ (h : Of ref_hash t tags) (key : StrRef) : t.at_ ref_hash key = some (tags.at_ key) := by
  rcases h.find key with ⟨pos, v, hfind, hne, hpos, hv⟩ | ⟨hfind, hnone⟩
  · rw [TagTable.at_, hfind, Option.bind_some, if_pos hne, hpos, hv]
    rfl
  · rw [TagTable.at_, hfind, Option.bind_some, if_neg (not_not_intro rfl), hnone]

theorem has (h : Of ref_hash t tags) (key : StrRef) : t.has ref_hash key = some (tags.has key) := by
  rw [TagTable.has, Tags.has]
  rcases h.find key with ⟨pos, v, hfind, hne, hpos, hv⟩ | ⟨hfind, hnone⟩
  · have hat : tags.lookup key = some v := hv
    rw [hfind, hat, Option.map_some, decide_eq_true hne]
    rfl
  · have hat : tags.lookup key = none := hnone
    rw [hfind, hat, Option.map_some, decide_eq_false (not_not_intro rfl)]
    rfl

theorem equal (h : Of ref_hash t tags) (h' : Of ref_hash t' tags') :
    t.equal ref_hash t' = some (decide (tags = tags')) := by
  obtain ⟨b, hequal, hiff⟩ := FlatHashMap.Represents.equal h' h
  have hsame : tags = tags' ↔ b = true := by
    rw [hiff]
    constructor
    · rintro rfl
      rfl
    · intro hlookups
      apply Finmap.ext_lookup
      intro k
      exact (congrFun hlookups k).symm
  rw [TagTable.equal, hequal]
  cases b with
  | true => rw [decide_eq_true (hsame.mpr rfl)]
  | false => rw [decide_eq_false fun heq => Bool.false_ne_true (hsame.mp heq)]

section Calls
variable (hmemory : memory ≤ 2 ^ 62)
include hmemory

theorem add (h : Of ref_hash t tags) {k v : StrRef} (hcall : t.add memory ref_hash k v = some t') :
    Of ref_hash t' (tags.add k v) := by
  obtain ⟨hrep, -⟩ := FlatHashMap.Represents.assign hmemory h hcall
  have hlookups : (fun key => (tags.add k v).at_ key) =
      Function.update (fun key => tags.at_ key) k (some v) := by
    funext key
    rw [Tags.at_add, Function.update_apply]
  rw [Of, hlookups]
  exact hrep

theorem copy (h : Of ref_hash t tags) (hcall : t.copy memory ref_hash = some t') :
    Of ref_hash t' tags :=
  (FlatHashMap.Represents.copy hmemory h hcall).1

omit hmemory in
theorem foldl_add (walk : List (StrRef × StrRef)) (tags : Tags) :
    walk.foldl (fun tags kv => tags.add kv.1 kv.2) tags = tags.add_all (ofWalk walk) := by
  induction walk using List.reverseRecOn with
  | nil =>
    apply Finmap.ext_lookup
    intro key
    exact (tags.at_add_all ∅ key).symm
  | append_singleton walk kv ih =>
    rw [ofWalk, List.foldl_append, List.foldl_append, ih, List.foldl_cons, List.foldl_nil]
    apply Finmap.ext_lookup
    intro key
    show Tags.at_ _ key = Tags.at_ _ key
    rw [Tags.at_add, Tags.at_add_all, Tags.at_add_all, List.foldl_cons, List.foldl_nil, Tags.at_add]
    split <;> rfl

theorem add_walk {walk : List (StrRef × StrRef)} (h : Of ref_hash t tags)
    (hcall : walk.foldlM (fun t entry => TagTable.add memory ref_hash t entry.1 entry.2) t =
      some t') :
    Of ref_hash t' (walk.foldl (fun tags kv => tags.add kv.1 kv.2) tags) := by
  induction walk generalizing t tags with
  | nil =>
    cases hcall
    exact h
  | cons kv walk ih =>
    rw [List.foldlM_cons] at hcall
    obtain ⟨t₁, hadd, hrest⟩ := Option.bind_eq_some_iff.mp hcall
    exact ih (h.add hmemory hadd) hrest

theorem add_all (h : Of ref_hash t tags) (hsource : Of ref_hash source tags')
    (hcall : t.add_all memory ref_hash source = some t') : Of ref_hash t' (tags.add_all tags') := by
  rw [TagTable.add_all, hsource.visit, Option.bind_some] at hcall
  have hadded := h.add_walk hmemory hcall
  have hwalk := hsource.enumerates
  rw [foldl_add, (enumerates_ofWalk hwalk.1).unique hwalk] at hadded
  exact hadded

/-! Where there is room for all keys. -/

section Room
variable {bits : ℕ} (hroom : 2 ^ bits ≤ memory) {keys : Finset StrRef} (hfew : keys.card + 2 ≤ bits)
include hroom hfew

omit hmemory hroom in
theorem few (h : Of ref_hash t tags) (hkeys : tags.keys ⊆ keys) : t.num_elements + 2 ≤ bits := by
  have hcard := Finset.card_le_card hkeys
  have hsize : t.num_elements = tags.keys.card := h.size
  omega

theorem add_isSome (h : Of ref_hash t tags) (hkeys : tags.keys ⊆ keys) (k v : StrRef) :
    ∃ t', t.add memory ref_hash k v = some t' :=
  FlatHashMap.Represents.call_isSome hmemory hroom h (h.few hfew hkeys) (.assign k v)

theorem copy_isSome (h : Of ref_hash t tags) (hkeys : tags.keys ⊆ keys) :
    ∃ t', t.copy memory ref_hash = some t' :=
  FlatHashMap.Represents.copy_isSome hmemory hroom h (h.few hfew hkeys)

omit hmemory hroom hfew in
theorem keys_add (hkeys : tags.keys ⊆ keys) {k : StrRef} (hk : k ∈ keys) (v : StrRef) :
    (tags.add k v).keys ⊆ keys := by
  intro key hkey
  rw [Finmap.mem_keys, Tags.add, Finmap.mem_insert] at hkey
  rcases hkey with rfl | hkey
  · exact hk
  · exact hkeys (Finmap.mem_keys.mpr hkey)

theorem add_walk_isSome {walk : List (StrRef × StrRef)} (h : Of ref_hash t tags)
    (hkeys : tags.keys ⊆ keys) (hwalk : ∀ kv ∈ walk, kv.1 ∈ keys) :
    ∃ t', walk.foldlM (fun t entry => TagTable.add memory ref_hash t entry.1 entry.2) t =
      some t' := by
  induction walk generalizing t tags with
  | nil => exact ⟨t, rfl⟩
  | cons kv walk ih =>
    obtain ⟨hfirst, hrest⟩ := List.forall_mem_cons.mp hwalk
    obtain ⟨t₁, hadd⟩ := h.add_isSome hmemory hroom hfew hkeys kv.1 kv.2
    obtain ⟨t', hfold⟩ := ih (h.add hmemory hadd) (keys_add hkeys hfirst kv.2) hrest
    refine ⟨t', ?_⟩
    rw [List.foldlM_cons, hadd]
    exact hfold

theorem add_all_isSome (h : Of ref_hash t tags) (hkeys : tags.keys ⊆ keys)
    (hsource : Of ref_hash source tags') (hkeys' : tags'.keys ⊆ keys) :
    ∃ t', t.add_all memory ref_hash source = some t' := by
  rw [TagTable.add_all, hsource.visit, Option.bind_some]
  apply h.add_walk_isSome hmemory hroom hfew hkeys
  intro kv hkv
  apply hkeys'
  rw [hsource.enumerates.mem_keys]
  exact List.mem_map_of_mem hkv

end Room

end Calls

end Of

end TagTable

namespace TableId
variable {memory : ℕ} {ref_hash : StrRef → UInt64} {id id' rhs : TableId} {value value' : Id}

/-- The object is that of the id; if it keeps a hash, that is the hash of the id. -/
structure Of (ref_hash : StrRef → UInt64) (id : TableId) (value : Id) : Prop where
  name : id.name_ = value.name_
  tags : id.tags_.Of ref_hash value.tags_
  hash : id.hash_ = 0 ∨ id.hash_ = value.Hash ref_hash

namespace Of

theorem equal (h : Of ref_hash id value) (hrhs : Of ref_hash rhs value') :
    id.equal ref_hash rhs = some (decide (value = value')) := by
  rw [TableId.equal, h.name, hrhs.name, h.tags.equal hrhs.tags]
  by_cases hname : value.name_ = value'.name_
  · rw [if_pos hname, Option.some.injEq, decide_eq_decide]
    constructor
    · intro htags
      cases value
      cases value'
      cases hname
      cases htags
      rfl
    · rintro rfl
      rfl
  · have hne : value ≠ value' := fun heq => hname (congrArg Id.name_ heq)
    rw [if_neg hname, decide_eq_false hne]

theorem Hash (h : Of ref_hash id value) :
    ∃ id', id.Hash ref_hash = some (id', value.Hash ref_hash) ∧ Of ref_hash id' value := by
  have hcomputed : (id.tags_.hash ref_hash).map (fun hash => hash ^^^ ref_hash id.name_) =
      some (value.Hash ref_hash) := by
    rw [h.tags.hash, h.name]
    rfl
  rw [TableId.Hash]
  by_cases hzero : id.hash_ = 0
  · refine ⟨{ id with hash_ := value.Hash ref_hash }, ?_, h.name, h.tags, .inr rfl⟩
    rw [if_pos hzero, h.tags.hash, h.name]
    rfl
  · have hkept := h.hash.resolve_left hzero
    exact ⟨id, by rw [if_neg hzero, hkept], h⟩

section Calls
variable (hmemory : memory ≤ 2 ^ 62)
include hmemory

theorem create {name : StrRef} {t : TagTable} {tags : Tags} (h : t.Of ref_hash tags)
    (hcall : TableId.create memory ref_hash name t = some id) : Of ref_hash id ⟨name, tags⟩ := by
  obtain ⟨t', hcopy, rfl⟩ := Option.map_eq_some_iff.mp hcall
  exact ⟨rfl, h.copy hmemory hcopy, .inl rfl⟩

theorem WithTag (h : Of ref_hash id value) {k v : StrRef}
    (hcall : id.WithTag memory ref_hash k v = some id') : Of ref_hash id' (value.WithTag k v) := by
  obtain ⟨t, hcopy, hcall⟩ := Option.bind_eq_some_iff.mp hcall
  obtain ⟨t', hadd, hcreate⟩ := Option.bind_eq_some_iff.mp hcall
  rw [h.name] at hcreate
  exact create hmemory ((h.tags.copy hmemory hcopy).add hmemory hadd) hcreate

theorem WithDefaultTagForId (h : Of ref_hash id value) {k v : StrRef} {made : Option TableId}
    (hcall : id.WithDefaultTagForId memory ref_hash k v = some made) :
    (value.tags_.has k = true ∧ made = none) ∨
      (value.tags_.has k = false ∧ ∃ id', made = some id' ∧
        Of ref_hash id' (AtlasNative.WithDefaultTagForId value k v)) := by
  rw [TableId.WithDefaultTagForId, h.tags.has, Option.bind_some] at hcall
  rw [AtlasNative.WithDefaultTagForId]
  by_cases hhas : value.tags_.has k = true
  · left
    rw [if_pos hhas] at hcall
    cases hcall
    exact ⟨hhas, rfl⟩
  · right
    rw [if_neg hhas] at hcall ⊢
    obtain ⟨id', hmade, rfl⟩ := Option.map_eq_some_iff.mp hcall
    exact ⟨Bool.eq_false_iff.mpr hhas, id', rfl, h.WithTag hmemory hmade⟩

section Room
variable {bits : ℕ} (hroom : 2 ^ bits ≤ memory) {keys : Finset StrRef} (hfew : keys.card + 2 ≤ bits)
include hroom hfew

theorem create_isSome {t : TagTable} {tags : Tags} (h : t.Of ref_hash tags)
    (hkeys : tags.keys ⊆ keys) (name : StrRef) :
    ∃ id, TableId.create memory ref_hash name t = some id := by
  obtain ⟨t', hcopy⟩ := h.copy_isSome hmemory hroom hfew hkeys
  exact ⟨_, congrArg (Option.map _) hcopy⟩

theorem WithTag_isSome (h : Of ref_hash id value) (hkeys : value.tags_.keys ⊆ keys) {k : StrRef}
    (hk : k ∈ keys) (v : StrRef) : ∃ id', id.WithTag memory ref_hash k v = some id' := by
  obtain ⟨t, hcopy⟩ := h.tags.copy_isSome hmemory hroom hfew hkeys
  have ht := h.tags.copy hmemory hcopy
  obtain ⟨t', hadd⟩ := ht.add_isSome hmemory hroom hfew hkeys k v
  obtain ⟨id', hcreate⟩ := create_isSome hmemory hroom hfew (ht.add hmemory hadd)
    (TagTable.Of.keys_add hkeys hk v) id.name_
  refine ⟨id', ?_⟩
  rw [TableId.WithTag, hcopy, Option.bind_some, hadd, Option.bind_some, hcreate]

theorem WithDefaultTagForId_isSome (h : Of ref_hash id value) (hkeys : value.tags_.keys ⊆ keys)
    {k : StrRef} (hk : k ∈ keys) (v : StrRef) :
    ∃ made, id.WithDefaultTagForId memory ref_hash k v = some made := by
  rw [TableId.WithDefaultTagForId, h.tags.has, Option.bind_some]
  split
  · exact ⟨none, rfl⟩
  · obtain ⟨id', hmade⟩ := h.WithTag_isSome hmemory hroom hfew hkeys hk v
    exact ⟨some id', congrArg (Option.map some) hmade⟩

end Room

end Calls

end Of

end TableId

/-! ### Runs -/

/-- What is done with tags and ids; new ones come behind those that there are. -/
inductive TagCall where
  | create
  | add (i : ℕ) (k v : StrRef)
  | add_all (i source : ℕ)
  | copy (i : ℕ)
  | id (name : StrRef) (i : ℕ)
  | WithTag (i : ℕ) (key value : StrRef)
  | WithDefaultTagForId (i : ℕ) (key value : StrRef)
  | Hash (i : ℕ)

/-- The tags and ids in use. -/
structure TagStore where
  tags : List TagTable
  ids : List TableId

/-- The same as finite maps. -/
structure TagValues where
  tags : List Tags
  ids : List Id

namespace TagStore

section Code
variable (memory : ℕ) (ref_hash : StrRef → UInt64)

def step (s : TagStore) : TagCall → Option TagStore
  | .create => some { s with tags := s.tags ++ [.create] }
  | .add i k v =>
    s.tags[i]?.elim (some s) fun t =>
      (t.add memory ref_hash k v).map fun t => { s with tags := s.tags.set i t }
  | .add_all i source =>
    s.tags[i]?.elim (some s) fun t => s.tags[source]?.elim (some s) fun other =>
      (t.add_all memory ref_hash other).map fun t => { s with tags := s.tags.set i t }
  | .copy i =>
    s.tags[i]?.elim (some s) fun t =>
      (t.copy memory ref_hash).map fun t => { s with tags := s.tags ++ [t] }
  | .id name i =>
    s.tags[i]?.elim (some s) fun t =>
      (TableId.create memory ref_hash name t).map fun id => { s with ids := s.ids ++ [id] }
  | .WithTag i key value =>
    s.ids[i]?.elim (some s) fun id =>
      (id.WithTag memory ref_hash key value).map fun id => { s with ids := s.ids ++ [id] }
  | .WithDefaultTagForId i key value =>
    s.ids[i]?.elim (some s) fun id =>
      (id.WithDefaultTagForId memory ref_hash key value).map fun made =>
        { s with ids := s.ids ++ made.toList }
  | .Hash i =>
    s.ids[i]?.elim (some s) fun id =>
      (id.Hash ref_hash).map fun r => { s with ids := s.ids.set i r.1 }

def run (calls : List TagCall) : Option TagStore := calls.foldlM (step memory ref_hash) ⟨[], []⟩

end Code

end TagStore

namespace TagValues

def step (m : TagValues) : TagCall → TagValues
  | .create => { m with tags := m.tags ++ [∅] }
  | .add i k v => m.tags[i]?.elim m fun tags => { m with tags := m.tags.set i (tags.add k v) }
  | .add_all i source =>
    m.tags[i]?.elim m fun tags => m.tags[source]?.elim m fun other =>
      { m with tags := m.tags.set i (tags.add_all other) }
  | .copy i => m.tags[i]?.elim m fun tags => { m with tags := m.tags ++ [tags] }
  | .id name i => m.tags[i]?.elim m fun tags => { m with ids := m.ids ++ [⟨name, tags⟩] }
  | .WithTag i key value =>
    m.ids[i]?.elim m fun id => { m with ids := m.ids ++ [id.WithTag key value] }
  | .WithDefaultTagForId i key value =>
    m.ids[i]?.elim m fun id =>
      if id.tags_.has key then m
      else { m with ids := m.ids ++ [WithDefaultTagForId id key value] }
  | .Hash _ => m

def run (calls : List TagCall) : TagValues := calls.foldl step ⟨[], []⟩

end TagValues

section Lists
variable {α β : Type} {R : α → β → Prop} {l : List α} {l' : List β}

/-- What is done with the elements at one place, or where there are none. -/
theorem elim_of_forall₂ {γ δ : Type} {P : γ → δ → Prop} (h : List.Forall₂ R l l') (i : ℕ) {c : γ}
    {d : δ} {f : α → γ} {g : β → δ} (hnone : P c d)
    (hsome : ∀ a b, l'[i]? = some b → R a b → P (f a) (g b)) :
    P (l[i]?.elim c f) (l'[i]?.elim d g) := by
  induction h generalizing i with
  | nil => exact hnone
  | cons hab _ ih =>
    cases i with
    | zero => exact hsome _ _ rfl hab
    | succ i => exact ih i hsome

theorem isSome_elim_of_forall₂ {γ : Type} (h : List.Forall₂ R l l') (i : ℕ) {c : Option γ}
    {f : α → Option γ} (hnone : c.isSome = true)
    (hsome : ∀ a b, l'[i]? = some b → R a b → (f a).isSome = true) :
    (l[i]?.elim c f).isSome = true :=
  elim_of_forall₂ (P := fun (o : Option γ) _ => o.isSome = true) (d := ()) (g := fun _ => ()) h i
    hnone hsome

theorem forall₂_set (h : List.Forall₂ R l l') (i : ℕ) {a : α} {b : β} (hab : R a b) :
    List.Forall₂ R (l.set i a) (l'.set i b) := by
  induction h generalizing i with
  | nil => exact .nil
  | cons hhead htail ih =>
    cases i with
    | zero => exact .cons hab htail
    | succ i => exact .cons hhead (ih i)

theorem forall₂_set_left (h : List.Forall₂ R l l') {i : ℕ} {a : α} {b : β} (hb : l'[i]? = some b)
    (hab : R a b) : List.Forall₂ R (l.set i a) l' := by
  obtain ⟨hi, rfl⟩ := List.getElem?_eq_some_iff.mp hb
  have hset := forall₂_set h i hab
  rwa [List.set_getElem_self] at hset

theorem forall_mem_set {p : α → Prop} (h : ∀ a ∈ l, p a) (i : ℕ) {b : α} (hb : p b) :
    ∀ a ∈ l.set i b, p a := by
  intro a ha
  rcases List.mem_or_eq_of_mem_set ha with ha | rfl
  · exact h a ha
  · exact hb

theorem forall_mem_concat {p : α → Prop} (h : ∀ a ∈ l, p a) {b : α} (hb : p b) :
    ∀ a ∈ l ++ [b], p a := by
  intro a ha
  rcases List.mem_append.mp ha with ha | ha
  · exact h a ha
  · rwa [List.mem_singleton.mp ha]

theorem forall₂_concat (h : List.Forall₂ R l l') {a : α} {b : β} (hab : R a b) :
    List.Forall₂ R (l ++ [a]) (l' ++ [b]) :=
  List.rel_append h (.cons hab .nil)

end Lists

/-- The key of the tag that a call adds. -/
def TagCall.key? : TagCall → Option StrRef
  | .add _ k _ => some k
  | .WithTag _ key _ => some key
  | .WithDefaultTagForId _ key _ => some key
  | _ => none

/-- All keys are among some. -/
structure TagValues.Within (keys : Finset StrRef) (m : TagValues) : Prop where
  tags : ∀ tags ∈ m.tags, tags.keys ⊆ keys
  ids : ∀ id ∈ m.ids, id.tags_.keys ⊆ keys

theorem TagValues.Within.step {keys : Finset StrRef} {m : TagValues} (h : m.Within keys)
    (c : TagCall) (hc : ∀ k, c.key? = some k → k ∈ keys) : (m.step c).Within keys := by
  cases c with
  | create => exact ⟨forall_mem_concat h.tags (Finset.empty_subset _), h.ids⟩
  | add i k v =>
    rw [TagValues.step]
    cases ht : m.tags[i]? with
    | none => exact h
    | some tags =>
      have hkeys := h.tags tags (List.mem_of_getElem? ht)
      exact ⟨forall_mem_set h.tags i (TagTable.Of.keys_add hkeys (hc k rfl) v), h.ids⟩
  | add_all i source =>
    rw [TagValues.step]
    cases ht : m.tags[i]? with
    | none => exact h
    | some tags =>
      cases hs : m.tags[source]? with
      | none => exact h
      | some other =>
        refine ⟨forall_mem_set h.tags i ?_, h.ids⟩
        rw [Tags.add_all, Finmap.keys_union]
        exact Finset.union_subset (h.tags other (List.mem_of_getElem? hs))
          (h.tags tags (List.mem_of_getElem? ht))
  | copy i =>
    rw [TagValues.step]
    cases ht : m.tags[i]? with
    | none => exact h
    | some tags => exact ⟨forall_mem_concat h.tags (h.tags tags (List.mem_of_getElem? ht)), h.ids⟩
  | id name i =>
    rw [TagValues.step]
    cases ht : m.tags[i]? with
    | none => exact h
    | some tags => exact ⟨h.tags, forall_mem_concat h.ids (h.tags tags (List.mem_of_getElem? ht))⟩
  | WithTag i key value =>
    rw [TagValues.step]
    cases hi : m.ids[i]? with
    | none => exact h
    | some id =>
      have hkeys := h.ids id (List.mem_of_getElem? hi)
      exact ⟨h.tags, forall_mem_concat h.ids (TagTable.Of.keys_add hkeys (hc key rfl) value)⟩
  | WithDefaultTagForId i key value =>
    rw [TagValues.step]
    cases hi : m.ids[i]? with
    | none => exact h
    | some id =>
      have hkeys := h.ids id (List.mem_of_getElem? hi)
      dsimp only [Option.elim_some]
      by_cases hhas : id.tags_.has key = true
      · rw [if_pos hhas]
        exact h
      · rw [if_neg hhas, WithDefaultTagForId, if_neg hhas]
        exact ⟨h.tags, forall_mem_concat h.ids (TagTable.Of.keys_add hkeys (hc key rfl) value)⟩
  | Hash i => exact h

namespace TagStore
variable {memory : ℕ} {ref_hash : StrRef → UInt64} {s s' : TagStore} {m : TagValues}

structure Of (ref_hash : StrRef → UInt64) (s : TagStore) (m : TagValues) : Prop where
  tags : List.Forall₂ (TagTable.Of ref_hash) s.tags m.tags
  ids : List.Forall₂ (TableId.Of ref_hash) s.ids m.ids

/-- If there is a store, it is that of the values. -/
def Returns (ref_hash : StrRef → UInt64) (o : Option TagStore) (m : TagValues) : Prop :=
  ∀ s, o = some s → Of ref_hash s m

namespace Of

section Calls
variable (hmemory : memory ≤ 2 ^ 62)
include hmemory

theorem step (h : Of ref_hash s m) (c : TagCall) :
    Returns ref_hash (s.step memory ref_hash c) (m.step c) := by
  have hkept : Returns ref_hash (some s) m := by
    rintro s' ⟨⟩
    exact h
  cases c with
  | create =>
    rintro s' ⟨⟩
    exact ⟨forall₂_concat h.tags .create, h.ids⟩
  | add i k v =>
    apply elim_of_forall₂ (P := Returns ref_hash) h.tags i hkept
    intro t tags _ ht s' hs'
    obtain ⟨t', hadd, rfl⟩ := Option.map_eq_some_iff.mp hs'
    exact ⟨forall₂_set h.tags i (ht.add hmemory hadd), h.ids⟩
  | add_all i source =>
    apply elim_of_forall₂ (P := Returns ref_hash) h.tags i hkept
    intro t tags _ ht
    apply elim_of_forall₂ (P := Returns ref_hash) h.tags source hkept
    intro other others _ hother s' hs'
    obtain ⟨t', hadd, rfl⟩ := Option.map_eq_some_iff.mp hs'
    exact ⟨forall₂_set h.tags i (ht.add_all hmemory hother hadd), h.ids⟩
  | copy i =>
    apply elim_of_forall₂ (P := Returns ref_hash) h.tags i hkept
    intro t tags _ ht s' hs'
    obtain ⟨t', hcopy, rfl⟩ := Option.map_eq_some_iff.mp hs'
    exact ⟨forall₂_concat h.tags (ht.copy hmemory hcopy), h.ids⟩
  | id name i =>
    apply elim_of_forall₂ (P := Returns ref_hash) h.tags i hkept
    intro t tags _ ht s' hs'
    obtain ⟨id, hcreate, rfl⟩ := Option.map_eq_some_iff.mp hs'
    exact ⟨h.tags, forall₂_concat h.ids (.create hmemory ht hcreate)⟩
  | WithTag i key value =>
    apply elim_of_forall₂ (P := Returns ref_hash) h.ids i hkept
    intro id idValue _ hid s' hs'
    obtain ⟨id', hmade, rfl⟩ := Option.map_eq_some_iff.mp hs'
    exact ⟨h.tags, forall₂_concat h.ids (hid.WithTag hmemory hmade)⟩
  | WithDefaultTagForId i key value =>
    apply elim_of_forall₂ (P := Returns ref_hash) h.ids i hkept
    intro id idValue _ hid s' hs'
    obtain ⟨made, hmade, rfl⟩ := Option.map_eq_some_iff.mp hs'
    rcases hid.WithDefaultTagForId hmemory hmade with ⟨hhas, rfl⟩ | ⟨hhas, id', rfl, hid'⟩
    · rw [if_pos hhas, Option.toList_none, List.append_nil]
      exact h
    · rw [if_neg (Bool.eq_false_iff.mp hhas)]
      exact ⟨h.tags, forall₂_concat h.ids hid'⟩
  | Hash i =>
    have hsame : m.step (.Hash i) = m.ids[i]?.elim m fun _ => m := by
      cases m.ids[i]? <;> rfl
    rw [hsame]
    apply elim_of_forall₂ (P := Returns ref_hash) h.ids i hkept
    intro id idValue hvalue hid s' hs'
    obtain ⟨id', hhash, hid'⟩ := hid.Hash
    rw [hhash] at hs'
    cases hs'
    exact ⟨h.tags, forall₂_set_left h.ids hvalue hid'⟩

theorem step_isSome {bits : ℕ} (hroom : 2 ^ bits ≤ memory) {keys : Finset StrRef}
    (hfew : keys.card + 2 ≤ bits) (h : Of ref_hash s m) (hkeys : m.Within keys) (c : TagCall)
    (hc : ∀ k, c.key? = some k → k ∈ keys) : (s.step memory ref_hash c).isSome := by
  cases c with
  | create => rfl
  | add i k v =>
    apply isSome_elim_of_forall₂ h.tags i rfl
    intro t tags htags ht
    obtain ⟨t', hadd⟩ := ht.add_isSome hmemory hroom hfew
      (hkeys.tags tags (List.mem_of_getElem? htags)) k v
    rw [hadd]
    rfl
  | add_all i source =>
    apply isSome_elim_of_forall₂ h.tags i rfl
    intro t tags htags ht
    apply isSome_elim_of_forall₂ h.tags source rfl
    intro other others hothers hother
    obtain ⟨t', hadd⟩ := ht.add_all_isSome hmemory hroom hfew
      (hkeys.tags tags (List.mem_of_getElem? htags)) hother
      (hkeys.tags others (List.mem_of_getElem? hothers))
    rw [hadd]
    rfl
  | copy i =>
    apply isSome_elim_of_forall₂ h.tags i rfl
    intro t tags htags ht
    obtain ⟨t', hcopy⟩ := ht.copy_isSome hmemory hroom hfew
      (hkeys.tags tags (List.mem_of_getElem? htags))
    rw [hcopy]
    rfl
  | id name i =>
    apply isSome_elim_of_forall₂ h.tags i rfl
    intro t tags htags ht
    obtain ⟨id, hcreate⟩ := TableId.Of.create_isSome hmemory hroom hfew ht
      (hkeys.tags tags (List.mem_of_getElem? htags)) name
    rw [hcreate]
    rfl
  | WithTag i key value =>
    apply isSome_elim_of_forall₂ h.ids i rfl
    intro id idValue hvalue hid
    obtain ⟨id', hmade⟩ := hid.WithTag_isSome hmemory hroom hfew
      (hkeys.ids idValue (List.mem_of_getElem? hvalue)) (hc key rfl) value
    rw [hmade]
    rfl
  | WithDefaultTagForId i key value =>
    apply isSome_elim_of_forall₂ h.ids i rfl
    intro id idValue hvalue hid
    obtain ⟨made, hmade⟩ := hid.WithDefaultTagForId_isSome hmemory hroom hfew
      (hkeys.ids idValue (List.mem_of_getElem? hvalue)) (hc key rfl) value
    rw [hmade]
    rfl
  | Hash i =>
    apply isSome_elim_of_forall₂ h.ids i rfl
    intro id idValue _ hid
    obtain ⟨id', hhash, -⟩ := hid.Hash
    rw [hhash]
    rfl

theorem run {calls : List TagCall} (hrun : TagStore.run memory ref_hash calls = some s) :
    Of ref_hash s (TagValues.run calls) := by
  induction calls using List.reverseRecOn generalizing s with
  | nil =>
    cases hrun
    exact ⟨.nil, .nil⟩
  | append_singleton calls c ih =>
    rw [TagStore.run, List.foldlM_append] at hrun
    obtain ⟨s₁, hbefore, hlast⟩ := Option.bind_eq_some_iff.mp hrun
    have hstep : s₁.step memory ref_hash c = some s := by simpa using hlast
    rw [TagValues.run, List.foldl_append]
    exact (ih hbefore).step hmemory c s hstep

theorem run_isSome (calls : List TagCall) (hroom : 2 ^ (calls.length + 2) ≤ memory) :
    ∃ s, TagStore.run memory ref_hash calls = some s := by
  have hfew : (calls.filterMap TagCall.key?).toFinset.card + 2 ≤ calls.length + 2 :=
    Nat.add_le_add_right
      ((List.toFinset_card_le _).trans (List.length_filterMap_le TagCall.key? calls)) 2
  have hkeys : ∀ c ∈ calls, ∀ k, c.key? = some k → k ∈ (calls.filterMap TagCall.key?).toFinset := by
    intro c hc k hk
    rw [List.mem_toFinset, List.mem_filterMap]
    exact ⟨c, hc, hk⟩
  -- a prefix of the calls adds no other keys
  suffices hall : ∀ earlier, earlier <+: calls →
      (∃ s, TagStore.run memory ref_hash earlier = some s) ∧
        (TagValues.run earlier).Within (calls.filterMap TagCall.key?).toFinset from
    (hall calls List.prefix_rfl).1
  intro earlier hearlier
  induction earlier using List.reverseRecOn with
  | nil =>
    refine ⟨⟨⟨[], []⟩, rfl⟩, ?_, ?_⟩
    · exact fun _ h => absurd h List.not_mem_nil
    · exact fun _ h => absurd h List.not_mem_nil
  | append_singleton earlier c ih =>
    obtain ⟨⟨s, hbefore⟩, hwithin⟩ := ih ((List.prefix_append _ _).trans hearlier)
    have hc := hkeys c (hearlier.subset (by simp))
    have hof := run hmemory hbefore
    obtain ⟨s', hstep⟩ := Option.isSome_iff_exists.mp
      (hof.step_isSome hmemory hroom hfew hwithin c hc)
    refine ⟨⟨s', ?_⟩, ?_⟩
    · rw [TagStore.run] at hbefore
      rw [TagStore.run, List.foldlM_append, hbefore]
      simpa using hstep
    · rw [TagValues.run, List.foldl_append]
      exact hwithin.step c hc

end Calls

end Of

end TagStore

/-- What a table says about the tags it holds. -/
structure TagTable.Answers (ref_hash : StrRef → UInt64) (t : TagTable) (tags : Tags) : Prop where
  at_ : ∀ key, t.at_ ref_hash key = some (tags.at_ key)
  has : ∀ key, t.has ref_hash key = some (tags.has key)
  size : t.size = tags.keys.card
  walk : ∃ walk, t.visit = some walk ∧ Enumerates walk tags
  hash : t.hash ref_hash = some (tags.hash ref_hash)

theorem TagTable.Of.answers {ref_hash : StrRef → UInt64} {t : TagTable} {tags : Tags}
    (h : t.Of ref_hash tags) : t.Answers ref_hash tags :=
  ⟨h.at_, h.has, h.size, ⟨_, h.visit, h.enumerates⟩, h.hash⟩

namespace TagStore

/-- Tables and ids that were made by some calls are those of the finite maps that the calls make.
The hash of tags or an id, even one that was kept, depends only on what they are; and so does
equality, for all tables and hashes. Where there is memory for a table with a bit more for each
call, no call fails. -/
theorem run_agrees {memory : ℕ} (ref_hash : StrRef → UInt64) (hmemory : memory ≤ 2 ^ 62)
    (calls : List TagCall) :
    let m := TagValues.run calls
    (∀ s, run memory ref_hash calls = some s →
      List.Forall₂ (TagTable.Answers ref_hash) s.tags m.tags ∧
      (∀ p ∈ s.tags.zip m.tags, ∀ q ∈ s.tags.zip m.tags,
        p.1.equal ref_hash q.1 = some (decide (p.2 = q.2))) ∧
      List.Forall₂ (fun id value => id.name_ = value.name_ ∧
        id.tags_.Answers ref_hash value.tags_ ∧
        (id.Hash ref_hash).map Prod.snd = some (value.Hash ref_hash)) s.ids m.ids ∧
      ∀ p ∈ s.ids.zip m.ids, ∀ q ∈ s.ids.zip m.ids,
        p.1.equal ref_hash q.1 = some (decide (p.2 = q.2))) ∧
    (2 ^ (calls.length + 2) ≤ memory → ∃ s, run memory ref_hash calls = some s) := by
  intro m
  refine ⟨?_, Of.run_isSome hmemory calls⟩
  intro s hrun
  have hof := Of.run hmemory hrun
  refine ⟨?_, ?_, ?_, ?_⟩
  · exact hof.tags.imp fun _ _ ht => ht.answers
  · intro p hp q hq
    exact (List.forall₂_zip hof.tags hp).equal (List.forall₂_zip hof.tags hq)
  · apply hof.ids.imp
    intro id value hid
    obtain ⟨id', hhash, -⟩ := hid.Hash
    exact ⟨hid.name, hid.tags.answers, congrArg (Option.map Prod.snd) hhash⟩
  · intro p hp q hq
    exact (List.forall₂_zip hof.ids hp).equal (List.forall₂_zip hof.ids hq)

/-- Two ids with one name and the same tags, which came in different orders. -/
def twice : List TagCall :=
  let a := intern_str "a"
  let b := intern_str "b"
  [.create, .add 0 a b, .add 0 b a, .create, .add 1 b b, .add_all 1 0, .id a 0, .id a 1, .Hash 0]

theorem run_agrees_twice :
    ∃ s id id', run (2 ^ 11) (fun ref => ref.str.length.toUInt64) twice = some s ∧
      s.ids = [id, id'] ∧ id.equal (fun ref => ref.str.length.toUInt64) id' = some true ∧
      (id.Hash fun ref => ref.str.length.toUInt64).map Prod.snd =
        (id'.Hash fun ref => ref.str.length.toUInt64).map Prod.snd := by
  obtain ⟨hanswers, hreturns⟩ := @run_agrees (2 ^ 11) (fun ref => ref.str.length.toUInt64)
    (by decide) twice
  obtain ⟨s, hrun⟩ := hreturns (by decide)
  obtain ⟨-, -, hids, hequal⟩ := hanswers s hrun
  have hvalues : (TagValues.run twice).ids =
      [⟨intern_str "a", .of [("a", "b"), ("b", "a")]⟩,
        ⟨intern_str "a", .of [("a", "b"), ("b", "a")]⟩] := by
    decide +kernel
  rw [hvalues] at hids hequal
  obtain ⟨id, rest, ⟨-, -, hhash⟩, hrest, hs⟩ := List.forall₂_cons_right_iff.mp hids
  obtain ⟨id', rest', ⟨-, -, hhash'⟩, hnil, rfl⟩ := List.forall₂_cons_right_iff.mp hrest
  rw [List.forall₂_nil_right_iff.mp hnil] at hs
  rw [hs] at hequal
  refine ⟨s, id, id', hrun, hs, ?_, hhash.trans hhash'.symm⟩
  exact hequal _ List.mem_cons_self _ (List.mem_cons_of_mem _ List.mem_cons_self)

end TagStore

end AtlasNative
