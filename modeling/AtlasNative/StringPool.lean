import AtlasNative.FlatHashMapRuns
import AtlasNative.Machine
import AtlasNative.Strings
import Mathlib.Algebra.BigOperators.Group.List.Basic
import Mathlib.Data.List.Dedup

/-!
# The pool of interned strings

Memory is a list of bytes, and a byte that is not allocated is `none`. The pool hands out
references into the slots of its hash table. What they refer to is equal exactly when the
strings are, but an insertion may move an element to another slot or all of them to another
table: a reference is good until then, and a copy of what it refers to is good forever.
-/

namespace AtlasNative

set_option autoImplicit false

namespace string_pool

abbrev Address := ℕ

abbrev Memory := List (Option Char)

def c_string : Memory → Except Fault (List Char)
  | some c :: memory =>
    if c = nul then .ok [] else
      match c_string memory with
      | .ok s => .ok (c :: s)
      | .error fault => .error fault
  | _ => .error .undefined

/-- The C string that starts at an address, up to its NUL. -/
def text (memory : Memory) (p : Address) : Except Fault (List Char) := c_string (memory.drop p)

def strlen (memory : Memory) (p : Address) : Except Fault ℕ := (text memory p).map List.length

/-- What `strdup` does when there is memory left: the copy lies where nothing was allocated, so
that no byte that was allocated changes. -/
structure Strdup where
  copy : Memory → List Char → Address × Memory
  holds : ∀ memory s, nul ∉ s → text (copy memory s).2 (copy memory s).1 = .ok s
  kept : ∀ memory s (p : Address) c, memory[p]? = some (some c) →
    (copy memory s).2[p]? = some (some c)

/-- `strdup(string)` -/
def Strdup.call (strdup : Strdup) (memory : Memory) (string : Address) :
    Except Fault (Address × Memory) :=
  (text memory string).map (strdup.copy memory)

structure StrRef where
  data : Option Address
  deriving DecidableEq

/-- The keys are pointers, which are hashed and compared by their strings: here they are these
strings, and the pointer is in the value. -/
structure StringPool where
  table : FlatHashMap (List Char) StrRef
  alloc_size_ : ℕ
  deriving DecidableEq

/-- `const StrRef&` into a slot. The table never gets smaller, so the number of its buckets tells
its arrays of slots apart. -/
structure Reference where
  buckets : ℕ
  slot : ℕ
  deriving DecidableEq

def defined {α : Type} (result : Option α) : Except Fault α := result.elim (.error .undefined) .ok

namespace StringPool

/-- What is in the slot now, if its array has not been freed. -/
def read (pool : StringPool) (r : Reference) : Except Fault StrRef :=
  if r.buckets = pool.table.bucket_count then (defined (pool.table.deref r.slot)).map Prod.snd
  else .error .undefined

section Code
variable (room : ℕ) (hash : List Char → UInt64)

def intern (strdup : Strdup) (pool : StringPool) (memory : Memory) (string : Address) :
    Except Fault (StringPool × Memory × Reference) := do
  let s ← text memory string
  let it ← defined (pool.table.find hash s)
  if it ≠ pool.table.end_ then .ok (pool, memory, ⟨pool.table.bucket_count, it⟩)
  else
    let (copy, memory) ← strdup.call memory string
    let ref : StrRef := ⟨some copy⟩
    let key ← text memory copy
    let (table, added, _) ← defined (FlatHashMap.emplace room hash pool.table key ref)
    let length ← strlen memory copy
    .ok (⟨table, pool.alloc_size_ + (length + 1)⟩, memory, ⟨table.bucket_count, added⟩)

end Code

def pool_size (pool : StringPool) : ℕ := pool.table.size

def alloc_size (pool : StringPool) : ℕ := pool.alloc_size_

end StringPool

/-! ### C strings -/

theorem text_eq_of_byte {memory : Memory} {p : Address} {c : Char}
    (h : memory[p]? = some (some c)) :
    text memory p = if c = nul then .ok [] else (text memory (p + 1)).map (c :: ·) := by
  obtain ⟨hp, hc⟩ := List.getElem?_eq_some_iff.mp h
  unfold text
  rw [List.drop_eq_getElem_cons hp, hc, c_string]
  split
  · rfl
  · cases c_string (memory.drop (p + 1)) <;> rfl

theorem text_eq_error {memory : Memory} {p : Address} (h : ∀ c, memory[p]? ≠ some (some c)) :
    text memory p = .error .undefined := by
  unfold text
  by_cases hp : p < memory.length
  · rw [List.drop_eq_getElem_cons hp]
    cases hc : memory[p] with
    | none => rfl
    | some c => exact absurd (List.getElem?_eq_some_iff.mpr ⟨hp, hc⟩) (h c)
  · rw [List.drop_eq_nil_of_le (not_lt.mp hp)]
    rfl

theorem text_cases {memory : Memory} {p : Address} {s : List Char} (h : text memory p = .ok s) :
    ∃ c, memory[p]? = some (some c) ∧
      ((c = nul ∧ s = []) ∨
        (c ≠ nul ∧ ∃ s', s = c :: s' ∧ text memory (p + 1) = .ok s')) := by
  by_cases hbyte : ∃ c, memory[p]? = some (some c)
  · obtain ⟨c, hc⟩ := hbyte
    refine ⟨c, hc, ?_⟩
    rw [text_eq_of_byte hc] at h
    by_cases hnul : c = nul
    · rw [if_pos hnul, Except.ok.injEq] at h
      exact Or.inl ⟨hnul, h.symm⟩
    · rw [if_neg hnul] at h
      cases hrest : text memory (p + 1) with
      | error fault =>
        rw [hrest] at h
        cases h
      | ok s' =>
        rw [hrest] at h
        exact Or.inr ⟨hnul, s', (Except.ok.inj h).symm, rfl⟩
  · rw [text_eq_error (not_exists.mp hbyte)] at h
    cases h

theorem nul_notMem_of_text {memory : Memory} {p : Address} {s : List Char}
    (h : text memory p = .ok s) : nul ∉ s := by
  induction s generalizing p with
  | nil => exact List.not_mem_nil
  | cons c s ih =>
    obtain ⟨c', _, ⟨_, hnil⟩ | ⟨hne, s', hs, hrest⟩⟩ := text_cases h
    · cases hnil
    · cases hs
      intro hmem
      rcases List.mem_cons.mp hmem with hnul | hmem
      · exact hne hnul.symm
      · exact ih hrest hmem

theorem text_kept {memory memory' : Memory} {p : Address} {s : List Char}
    (hkept : ∀ (p : Address) c, memory[p]? = some (some c) → memory'[p]? = some (some c))
    (h : text memory p = .ok s) : text memory' p = .ok s := by
  induction s generalizing p with
  | nil =>
    obtain ⟨c, hc, ⟨hnul, _⟩ | ⟨_, s', hs, _⟩⟩ := text_cases h
    · rw [text_eq_of_byte (hkept p c hc), if_pos hnul]
    · cases hs
  | cons c s ih =>
    obtain ⟨c', hc, ⟨_, hnil⟩ | ⟨hne, s', hs, hrest⟩⟩ := text_cases h
    · cases hnil
    · cases hs
      rw [text_eq_of_byte (hkept p c hc), if_neg hne, ih hrest]
      rfl

/-! ### Calls -/

def StrRef.Denotes (memory : Memory) (ref : StrRef) (s : List Char) : Prop :=
  ∃ p, ref.data = some p ∧ text memory p = .ok s

theorem StrRef.Denotes.unique {memory : Memory} {ref : StrRef} {s t : List Char}
    (hs : ref.Denotes memory s) (ht : ref.Denotes memory t) : s = t := by
  obtain ⟨p, hp, hs⟩ := hs
  obtain ⟨q, hq, ht⟩ := ht
  cases hp.symm.trans hq
  exact Except.ok.inj (hs.symm.trans ht)

section Calls
variable {room : ℕ} {hash : List Char → UInt64} {pool pool' : StringPool} {memory memory' : Memory}
  {f : List Char → Option StrRef} {string : Address} {s : List Char} {r : Reference}

/-- The pool has a copy of each string that it knows. -/
structure Holds (hash : List Char → UInt64) (pool : StringPool) (memory : Memory)
    (f : List Char → Option StrRef) : Prop where
  table : pool.table.Represents hash f
  copies : ∀ s ref, f s = some ref → ref.Denotes memory s
  alloc : pool.alloc_size_ = (pool.table.keys.map fun s => s.length + 1).sum

theorem Holds.start (memory : Memory) : Holds hash ⟨.create, 0⟩ memory fun _ => none where
  table := .create
  copies := by
    intro s ref hs
    cases hs
  alloc := rfl

theorem Holds.kept (h : Holds hash pool memory f)
    (hkept : ∀ s ref p, f s = some ref → ref.data = some p → text memory p = .ok s →
      text memory' p = .ok s) : Holds hash pool memory' f where
  table := h.table
  copies := by
    intro s ref hs
    obtain ⟨p, hp, htext⟩ := h.copies s ref hs
    exact ⟨p, hp, hkept s ref p hs hp htext⟩
  alloc := h.alloc

theorem read_of_deref {kv : List Char × StrRef} {it : ℕ} (h : pool.table.deref it = some kv) :
    pool.read ⟨pool.table.bucket_count, it⟩ = .ok kv.2 := by
  rw [StringPool.read, if_pos rfl, h]
  rfl

theorem Holds.intern_of_some (room : ℕ) (strdup : Strdup) (h : Holds hash pool memory f)
    (hstring : text memory string = .ok s) {ref : StrRef} (hs : f s = some ref) :
    ∃ r, pool.intern room hash strdup memory string = .ok (pool, memory, r) ∧
      pool.read r = .ok ref := by
  rcases h.table.sound.find s with ⟨it, v, hfind, hit⟩ | ⟨-, hkey⟩
  · have hv := (h.table.mem s v).mp (FlatHashMap.mem_contents_of_deref hit)
    obtain rfl : ref = v := Option.some.inj (hs.symm.trans hv)
    refine ⟨⟨pool.table.bucket_count, it⟩, ?_, read_of_deref hit⟩
    have hne : it ≠ pool.table.end_ := (h.table.sound.lt_of_deref hit).ne
    rw [StringPool.intern, hstring]
    simp only [bind, Except.bind, hfind, defined, Option.elim_some, if_pos hne]
  · rw [h.table.eq_none hkey] at hs
    cases hs

/-- A new string is copied, and the copy is put into the table. -/
theorem Holds.intern_of_none (strdup : Strdup) (h : Holds hash pool memory f)
    (hstring : text memory string = .ok s) (hs : f s = none) :
    let copy := strdup.copy memory s
    pool.intern room hash strdup memory string =
      (defined (FlatHashMap.emplace room hash pool.table s ⟨some copy.1⟩)).map fun r =>
        (⟨r.1, pool.alloc_size_ + (s.length + 1)⟩, copy.2, ⟨r.1.bucket_count, r.2.1⟩) := by
  intro copy
  have hcopy : text copy.2 copy.1 = .ok s := strdup.holds memory s (nul_notMem_of_text hstring)
  have hcall : strdup.call memory string = .ok copy := by
    rw [Strdup.call, hstring]
    rfl
  have hlength : strlen copy.2 copy.1 = .ok s.length := by
    rw [strlen, hcopy]
    rfl
  rcases h.table.sound.find s with ⟨it, v, -, hit⟩ | ⟨hfind, -⟩
  · have hv := (h.table.mem s v).mp (FlatHashMap.mem_contents_of_deref hit)
    cases hs.symm.trans hv
  · rw [StringPool.intern, hstring]
    simp only [bind, Except.bind, hfind, defined, Option.elim_some, ne_eq, not_true_eq_false,
      if_false, hcall, hcopy, hlength]
    cases FlatHashMap.emplace room hash pool.table s ⟨some copy.1⟩ <;> rfl

/-- The pool with another string. -/
theorem Holds.add (hroom : room ≤ 2 ^ 62) (strdup : Strdup) (h : Holds hash pool memory f)
    (hnul : nul ∉ s) (hs : f s = none) {t' : FlatHashMap (List Char) StrRef} {it : ℕ}
    {inserted : Bool} (hcall : FlatHashMap.emplace room hash pool.table s
      ⟨some (strdup.copy memory s).1⟩ = some (t', it, inserted)) :
    Holds hash ⟨t', pool.alloc_size_ + (s.length + 1)⟩ (strdup.copy memory s).2
        (Function.update f s (some ⟨some (strdup.copy memory s).1⟩)) ∧
      t'.deref it = some (s, ⟨some (strdup.copy memory s).1⟩) := by
  obtain ⟨htable, -, hit, -⟩ := h.table.emplace hroom hcall
  rw [hs, Option.getD_none] at htable hit
  refine ⟨⟨htable, ?_, ?_⟩, hit⟩
  · intro t ref ht
    by_cases heq : t = s
    · subst heq
      rw [Function.update_self, Option.some.injEq] at ht
      exact ⟨_, by rw [← ht], strdup.holds memory t hnul⟩
    · rw [Function.update_of_ne heq] at ht
      obtain ⟨p, hp, htext⟩ := h.copies t ref ht
      exact ⟨p, hp, text_kept (strdup.kept memory s) htext⟩
  · have hnew : s ∉ pool.table.keys := by
      rw [h.table.mem_keys, hs]
      simp
    have hperm : t'.keys.Perm (s :: pool.table.keys) := by
      apply (List.perm_ext_iff_of_nodup htable.sound.nodup
        (List.nodup_cons.mpr ⟨hnew, h.table.sound.nodup⟩)).mpr
      intro t
      rw [htable.mem_keys, List.mem_cons, h.table.mem_keys]
      by_cases heq : t = s <;> simp [heq]
    rw [(hperm.map _).sum_eq, List.map_cons, List.sum_cons, ← h.alloc]
    exact Nat.add_comm _ _

theorem read_kept {r : Reference} {ref : StrRef}
    (hcount : pool'.table.bucket_count = pool.table.bucket_count)
    (hkept : ∀ it kv, pool.table.deref it = some kv → pool'.table.deref it = some kv)
    (hread : pool.read r = .ok ref) : pool'.read r = .ok ref := by
  rw [StringPool.read] at hread ⊢
  rw [hcount]
  split_ifs at hread ⊢ with hbuckets
  cases hderef : pool.table.deref r.slot with
  | none =>
    rw [hderef] at hread
    cases hread
  | some kv =>
    rw [hkept r.slot kv hderef]
    rw [hderef] at hread
    exact hread

end Calls

/-! ### Runs -/

/-- What a caller has kept of a call. -/
inductive Held where
  | reference (r : Reference)
  | copy (ref : StrRef)
  deriving DecidableEq

def StringPool.value (pool : StringPool) : Held → Except Fault StrRef
  | .reference r => pool.read r
  | .copy ref => .ok ref

abbrev Log := List (List Char × Held)

/-- The calls so far, in their order; `admitted` says which calls are made. Between them callers
copy what their references refer to, and others may do to memory what they like, as long as
they do not write to the copies of the pool. -/
inductive Run (room : ℕ) (hash : List Char → UInt64)
    (admitted : StringPool → Log → List Char → Prop) : StringPool → Memory → Log → Prop where
  | start (memory : Memory) : Run room hash admitted ⟨.create, 0⟩ memory []
  | intern {pool pool' : StringPool} {memory memory' : Memory} {log : Log} {string : Address}
      {s : List Char} {r : Reference} (strdup : Strdup) (run : Run room hash admitted pool memory log)
      (hstring : text memory string = .ok s) (hadmitted : admitted pool log s)
      (hintern : pool.intern room hash strdup memory string = .ok (pool', memory', r)) :
      Run room hash admitted pool' memory' (log ++ [(s, .reference r)])
  | copy {pool : StringPool} {memory : Memory} (before after : Log) {s : List Char}
      {r : Reference} {ref : StrRef}
      (run : Run room hash admitted pool memory (before ++ (s, .reference r) :: after))
      (hread : pool.read r = .ok ref) :
      Run room hash admitted pool memory (before ++ (s, .copy ref) :: after)
  | others {pool : StringPool} {memory memory' : Memory} {log : Log}
      (run : Run room hash admitted pool memory log)
      (hkept : ∀ kv ∈ RobinHood.contents pool.table.entries, ∀ p, kv.2.data = some p →
        text memory' p = text memory p) : Run room hash admitted pool memory' log

/-- What is said of the references that were returned, and of the sizes. -/
structure Stand (pool : StringPool) (memory : Memory) (log : Log) : Prop where
  denote : ∀ x ∈ log, ∃ ref, pool.value x.2 = .ok ref ∧ ref.Denotes memory x.1
  same : ∀ x ∈ log, ∀ y ∈ log, ∀ a b, pool.value x.2 = .ok a → pool.value y.2 = .ok b →
    (a = b ↔ x.1 = y.1)
  pool_size : pool.pool_size = (log.map Prod.fst).dedup.length
  alloc_size : pool.alloc_size = ((log.map Prod.fst).dedup.map fun s => s.length + 1).sum

/-- No reference is uncopied, or the string is in the pool, or it is put into an empty slot. -/
def InPlace (hash : List Char → UInt64) (pool : StringPool) (log : Log) (s : List Char) : Prop :=
  (∀ x ∈ log, ∃ ref, x.2 = .copy ref) ∨ s ∈ pool.table.keys ∨
    ∃ pos distance, pool.table.Fits hash s pos distance

section Runs
variable {room : ℕ} {hash : List Char → UInt64} {pool pool' : StringPool} {memory memory' : Memory}
  {log : Log} {f : List Char → Option StrRef}

def Recorded (pool : StringPool) (f : List Char → Option StrRef) (log : Log) : Prop :=
  ∀ x ∈ log, ∃ ref, pool.value x.2 = .ok ref ∧ f x.1 = some ref

theorem Recorded.concat (h : Recorded pool f log) {s : List Char} {r : Reference} {ref : StrRef}
    (hread : pool.read r = .ok ref) (hs : f s = some ref) :
    Recorded pool f (log ++ [(s, .reference r)]) := by
  intro x hx
  rcases List.mem_append.mp hx with hold | hnew
  · exact h x hold
  · rw [List.mem_singleton.mp hnew]
    exact ⟨ref, hread, hs⟩

theorem Recorded.add (hsound : pool.table.Sound hash) (h : Recorded pool f log) {s : List Char}
    (hs : f s = none) (hplace : (∀ x ∈ log, ∃ ref, x.2 = .copy ref) ∨
      ∃ pos distance, pool.table.Fits hash s pos distance)
    {ref : StrRef} {it : ℕ} {inserted : Bool}
    (hcall : FlatHashMap.emplace room hash pool.table s ref = some (pool'.table, it, inserted)) :
    Recorded pool' (Function.update f s (some ref)) log := by
  intro x hx
  obtain ⟨old, hvalue, hold⟩ := h x hx
  have hne : x.1 ≠ s := by
    rintro rfl
    cases hs.symm.trans hold
  refine ⟨old, ?_, by rw [Function.update_of_ne hne, hold]⟩
  rcases hplace with hcopies | ⟨pos, distance, hfits⟩
  · obtain ⟨ref', href'⟩ := hcopies x hx
    rw [href'] at hvalue ⊢
    exact hvalue
  · obtain ⟨t', hemplace, hcount, hkept⟩ := hfits.emplace hsound room ref
    cases hemplace.symm.trans hcall
    cases hheld : x.2 with
    | copy ref' =>
      rw [hheld] at hvalue
      exact hvalue
    | reference r =>
      rw [hheld] at hvalue
      exact read_kept hcount hkept hvalue

/-- A call returns the reference of its string, and what is held stays what it is. -/
theorem Holds.intern (hroom : room ≤ 2 ^ 62) (strdup : Strdup) (h : Holds hash pool memory f)
    (hrecorded : Recorded pool f log) {string : Address} {s : List Char} {r : Reference}
    (hstring : text memory string = .ok s) (hplace : InPlace hash pool log s)
    (hintern : pool.intern room hash strdup memory string = .ok (pool', memory', r)) :
    ∃ f', Holds hash pool' memory' f' ∧ Recorded pool' f' (log ++ [(s, .reference r)]) ∧
      ∀ t, (f' t).isSome = true ↔ (f t).isSome = true ∨ t = s := by
  cases hs : f s with
  | some ref =>
    obtain ⟨r', hcall, hread⟩ := h.intern_of_some room strdup hstring hs
    cases hcall.symm.trans hintern
    refine ⟨f, h, hrecorded.concat hread hs, fun t => ⟨Or.inl, fun ht => ht.elim id ?_⟩⟩
    rintro rfl
    rw [hs]
    rfl
  | none =>
    rw [h.intern_of_none strdup hstring hs, defined] at hintern
    cases hcall : FlatHashMap.emplace room hash pool.table s ⟨some (strdup.copy memory s).1⟩ with
    | none =>
      rw [hcall] at hintern
      cases hintern
    | some result =>
      obtain ⟨t', it, inserted⟩ := result
      rw [hcall] at hintern
      cases hintern
      have hnew : s ∉ pool.table.keys := by
        rw [h.table.mem_keys, hs]
        simp
      obtain ⟨hholds, hit⟩ := h.add hroom strdup (nul_notMem_of_text hstring) hs hcall
      have hplace' := hplace.imp_right fun hgiven => hgiven.resolve_left hnew
      refine ⟨_, hholds, (hrecorded.add h.table.sound hs hplace' hcall).concat (read_of_deref hit)
        (Function.update_self ..), fun t => ?_⟩
      by_cases ht : t = s
      · simp [ht]
      · simp [ht]

theorem Run.holds (hroom : room ≤ 2 ^ 62) (h : Run room hash (InPlace hash) pool memory log) :
    ∃ f, Holds hash pool memory f ∧ Recorded pool f log ∧
      ∀ s, (f s).isSome = true ↔ s ∈ log.map Prod.fst := by
  induction h with
  | start memory =>
    exact ⟨fun _ => none, .start memory, fun x hx => absurd hx List.not_mem_nil, by simp⟩
  | @intern pool pool' memory memory' log string s r strdup _ hstring hadmitted hintern ih =>
    obtain ⟨f, hholds, hrecorded, hknown⟩ := ih
    obtain ⟨f', hholds', hrecorded', hknown'⟩ :=
      hholds.intern hroom strdup hrecorded hstring hadmitted hintern
    refine ⟨f', hholds', hrecorded', fun t => ?_⟩
    rw [hknown', hknown, List.map_append, List.mem_append, List.map_singleton, List.mem_singleton]
  | @copy pool memory before after s r ref _ hread ih =>
    obtain ⟨f, hholds, hrecorded, hknown⟩ := ih
    refine ⟨f, hholds, ?_, by simpa using hknown⟩
    intro x hx
    rcases List.mem_append.mp hx with hbefore | hx
    · exact hrecorded x (List.mem_append_left _ hbefore)
    · rcases List.mem_cons.mp hx with rfl | hafter
      · obtain ⟨ref', hvalue, href'⟩ := hrecorded (s, .reference r)
          (List.mem_append_right _ List.mem_cons_self)
        cases hread.symm.trans hvalue
        exact ⟨ref, rfl, href'⟩
      · exact hrecorded x (List.mem_append_right _ (List.mem_cons_of_mem _ hafter))
  | @others pool memory memory' log _ hkept ih =>
    obtain ⟨f, hholds, hrecorded, hknown⟩ := ih
    refine ⟨f, hholds.kept ?_, hrecorded, hknown⟩
    intro s ref p hs hp htext
    rw [hkept (s, ref) ((hholds.table.mem s ref).mpr hs) p hp, htext]

/-- The next call returns, unless there is no room for a larger table. -/
theorem Holds.intern_returns (strdup : Strdup) (h : Holds hash pool memory f) {string : Address}
    {s : List Char} (hstring : text memory string = .ok s) :
    (∃ result, pool.intern room hash strdup memory string = .ok result) ∨
      FlatHashMap.emplace room hash pool.table s ⟨some (strdup.copy memory s).1⟩ = none := by
  cases hs : f s with
  | some ref =>
    obtain ⟨r, hcall, -⟩ := h.intern_of_some room strdup hstring hs
    exact Or.inl ⟨_, hcall⟩
  | none =>
    rw [h.intern_of_none strdup hstring hs]
    cases FlatHashMap.emplace room hash pool.table s ⟨some (strdup.copy memory s).1⟩ with
    | none => exact Or.inr rfl
    | some result => exact Or.inl ⟨_, rfl⟩

/-- As long as no insertion may move an element that an uncopied reference refers to, what was
returned is equal exactly when the strings are, and denotes its string; and the next call
returns, unless there is no room for a larger table. -/
theorem interned_references_stand_for_strings (hroom : room ≤ 2 ^ 62)
    (h : Run room hash (InPlace hash) pool memory log) :
    Stand pool memory log ∧
      ∀ (strdup : Strdup) (string : Address) (s : List Char), text memory string = .ok s →
        (∃ result, pool.intern room hash strdup memory string = .ok result) ∨
          FlatHashMap.emplace room hash pool.table s ⟨some (strdup.copy memory s).1⟩ = none := by
  obtain ⟨f, hholds, hrecorded, hknown⟩ := h.holds hroom
  have hperm : pool.table.keys.Perm (log.map Prod.fst).dedup := by
    apply (List.perm_ext_iff_of_nodup hholds.table.sound.nodup (List.nodup_dedup _)).mpr
    intro s
    rw [hholds.table.mem_keys, hknown, List.mem_dedup]
  refine ⟨⟨?_, ?_, ?_, ?_⟩, fun strdup string s hstring => hholds.intern_returns strdup hstring⟩
  · intro x hx
    obtain ⟨ref, hvalue, href⟩ := hrecorded x hx
    exact ⟨ref, hvalue, hholds.copies x.1 ref href⟩
  · intro x hx y hy a b ha hb
    obtain ⟨a', hvalue, hfa⟩ := hrecorded x hx
    obtain ⟨b', hvalue', hfb⟩ := hrecorded y hy
    cases ha.symm.trans hvalue
    cases hb.symm.trans hvalue'
    constructor
    · rintro rfl
      exact (hholds.copies x.1 a hfa).unique (hholds.copies y.1 a hfb)
    · intro heq
      rw [heq, hfb] at hfa
      exact (Option.some.inj hfa).symm
  · rw [StringPool.pool_size, FlatHashMap.size, hholds.table.sound.size, ← hperm.length_eq,
      FlatHashMap.keys, List.length_map]
  · rw [StringPool.alloc_size, hholds.alloc]
    exact (hperm.map _).sum_eq

end Runs

def bytes (s : List Char) : Memory := s.map some ++ [some nul]

theorem c_string_bytes {s : List Char} (h : nul ∉ s) : c_string (bytes s) = .ok s := by
  induction s with
  | nil => rfl
  | cons c s ih =>
    have hne : c ≠ nul := fun hc => h (hc ▸ List.mem_cons_self)
    have hrest : c_string (bytes s) = .ok s := ih fun hmem => h (List.mem_cons_of_mem _ hmem)
    change c_string (some c :: bytes s) = .ok (c :: s)
    rw [c_string, if_neg hne, hrest]

/-- A `strdup` that puts the copy behind everything that is in memory. -/
def strdup_behind : Strdup where
  copy memory s := (memory.length, memory ++ bytes s)
  holds := by
    intro memory s h
    rw [text, List.drop_left, c_string_bytes h]
  kept := by
    intro memory s p c h
    rw [List.getElem?_append_left (List.getElem?_eq_some_iff.mp h).1, h]

/-- What `XXH64` with the seed 42 makes of three strings. -/
def xxh64 (s : List Char) : UInt64 :=
  if s = ['a'] then 0x88e4fe59adf7b0cc
  else if s = ['b'] then 0xa74b3eb11484e7d3
  else if s = ['c'] then 0xd02c1c8507b86b5a
  else 0

def grown_pool : StringPool where
  table :=
    { entries := [⟨0, some (['c'], ⟨some 10⟩)⟩, .empty, .empty, .empty, .empty, .empty,
        ⟨0, some (['a'], ⟨some 6⟩)⟩, ⟨1, some (['b'], ⟨some 8⟩)⟩, .empty, .empty, .empty, .stop]
      num_slots_minus_one := 7
      shift := 61
      max_lookups := 4
      num_elements := 3 }
  alloc_size_ := 6

def small_pool (second : Bool) : StringPool where
  table :=
    { entries := [.empty, .empty, .empty, ⟨0, some (['a'], ⟨some 6⟩)⟩,
        if second then ⟨1, some (['b'], ⟨some 8⟩)⟩ else .empty, .empty, .empty, .stop]
      num_slots_minus_one := 3
      shift := 62
      max_lookups := 4
      num_elements := if second then 2 else 1 }
  alloc_size_ := if second then 4 else 2

/-- The memory after calls for the three strings, which the copies follow. -/
def memory_of (copies : List Char) : Memory :=
  bytes ['a'] ++ bytes ['b'] ++ bytes ['c'] ++ copies.flatMap fun c => bytes [c]

theorem intern_first :
    (⟨.create, 0⟩ : StringPool).intern (2 ^ 62) xxh64 strdup_behind (memory_of []) 0 =
      .ok (small_pool false, memory_of ['a'], ⟨4, 3⟩) := by
  decide +kernel

theorem intern_second :
    (small_pool false).intern (2 ^ 62) xxh64 strdup_behind (memory_of ['a']) 2 =
      .ok (small_pool true, memory_of ['a', 'b'], ⟨4, 4⟩) := by
  decide +kernel

theorem intern_third :
    (small_pool true).intern (2 ^ 62) xxh64 strdup_behind (memory_of ['a', 'b']) 4 =
      .ok (grown_pool, memory_of ['a', 'b', 'c'], ⟨8, 0⟩) := by
  decide +kernel

/-- Two references are copied before the third call, which lets the table grow. -/
theorem interned_references_of_three_calls :
    Stand grown_pool (memory_of ['a', 'b', 'c'])
        [(['a'], .copy ⟨some 6⟩), (['b'], .copy ⟨some 8⟩), (['c'], .reference ⟨8, 0⟩)] ∧
      ∀ (strdup : Strdup) (string : Address) (s : List Char),
        text (memory_of ['a', 'b', 'c']) string = .ok s →
        (∃ result, grown_pool.intern (2 ^ 62) xxh64 strdup (memory_of ['a', 'b', 'c']) string =
            .ok result) ∨
          FlatHashMap.emplace (2 ^ 62) xxh64 grown_pool.table s
            ⟨some (strdup.copy (memory_of ['a', 'b', 'c']) s).1⟩ = none := by
  have hfits : (small_pool false).table.Fits xxh64 ['b'] 4 1 :=
    ⟨by decide +kernel, by decide, by decide, by decide, ⟨.empty, rfl, by decide⟩⟩
  have h : Run (2 ^ 62) xxh64 (InPlace xxh64) (small_pool false) (memory_of ['a'])
      [(['a'], .reference ⟨4, 3⟩)] :=
    Run.intern strdup_behind (.start _) (by decide) (Or.inl (by simp)) intern_first
  have h : Run (2 ^ 62) xxh64 (InPlace xxh64) (small_pool true) (memory_of ['a', 'b'])
      [(['a'], .reference ⟨4, 3⟩), (['b'], .reference ⟨4, 4⟩)] :=
    Run.intern strdup_behind h (by decide) (Or.inr (Or.inr ⟨4, 1, hfits⟩)) intern_second
  have h : Run (2 ^ 62) xxh64 (InPlace xxh64) (small_pool true) (memory_of ['a', 'b'])
      [(['a'], .copy ⟨some 6⟩), (['b'], .reference ⟨4, 4⟩)] :=
    Run.copy [] _ h (by decide +kernel)
  have h : Run (2 ^ 62) xxh64 (InPlace xxh64) (small_pool true) (memory_of ['a', 'b'])
      [(['a'], .copy ⟨some 6⟩), (['b'], .copy ⟨some 8⟩)] :=
    Run.copy [(['a'], .copy ⟨some 6⟩)] _ h (by decide +kernel)
  have h : Run (2 ^ 62) xxh64 (InPlace xxh64) grown_pool (memory_of ['a', 'b', 'c'])
      [(['a'], .copy ⟨some 6⟩), (['b'], .copy ⟨some 8⟩), (['c'], .reference ⟨8, 0⟩)] :=
    Run.intern strdup_behind h (by decide) (Or.inl (by simp)) intern_third
  exact interned_references_stand_for_strings le_rfl h

/-- After the third of three calls the references that the others returned are into an array that
was freed. -/
theorem references_dangle_after_growth :
    let log : Log := [(['a'], .reference ⟨4, 3⟩), (['b'], .reference ⟨4, 4⟩),
      (['c'], .reference ⟨8, 0⟩)]
    Run (2 ^ 62) xxh64 (fun _ _ _ => True) grown_pool (memory_of ['a', 'b', 'c']) log ∧
      grown_pool.value (.reference ⟨4, 3⟩) = .error .undefined ∧
      ¬ Stand grown_pool (memory_of ['a', 'b', 'c']) log := by
  intro log
  have hfreed : grown_pool.value (.reference ⟨4, 3⟩) = .error .undefined := by decide +kernel
  have h : Run (2 ^ 62) xxh64 (fun _ _ _ => True) (small_pool false) (memory_of ['a'])
      [(['a'], .reference ⟨4, 3⟩)] :=
    Run.intern strdup_behind (.start _) (by decide) trivial intern_first
  have h : Run (2 ^ 62) xxh64 (fun _ _ _ => True) (small_pool true) (memory_of ['a', 'b'])
      [(['a'], .reference ⟨4, 3⟩), (['b'], .reference ⟨4, 4⟩)] :=
    Run.intern strdup_behind h (by decide) trivial intern_second
  refine ⟨Run.intern strdup_behind h (by decide) trivial intern_third, hfreed, ?_⟩
  intro hstand
  obtain ⟨ref, hvalue, -⟩ := hstand.denote _ List.mem_cons_self
  cases hfreed.symm.trans hvalue

end string_pool

end AtlasNative
