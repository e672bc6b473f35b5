import AtlasNative.FlatHashMapCalls
import Mathlib.Data.List.Induction
import Mathlib.Data.List.Perm.Subperm
import Mathlib.Logic.Function.Basic

/-!
# A hash table is a finite map

Whatever calls are made on a table, it holds what they made of a partial function from keys to
values: `find` gives its value, a walk over the table meets every key that has one exactly once,
and two tables are equal if their functions are.
-/

namespace AtlasNative

open RobinHood
set_option autoImplicit false

namespace FlatHashMap

section Walks
variable {K V : Type} {hash : K → UInt64} {t : FlatHashMap K V}

/-! ### Iterators -/

/-- The iterator is at an element or at the end. -/
def Points (t : FlatHashMap K V) (it : ℕ) : Prop := it = t.end_ ∨ ∃ kv, t.deref it = some kv

/-- The elements from the iterator on. -/
def ahead (t : FlatHashMap K V) (it : ℕ) : List (K × V) := contents (t.entries.drop it)

theorem drop_eq_of_deref {it : ℕ} {kv : K × V} (h : t.deref it = some kv) :
    ∃ d rest, t.entries.drop it = ⟨d, some kv⟩ :: rest ∧ t.entries.drop (it + 1) = rest := by
  obtain ⟨s, hs, hkv⟩ := Option.bind_eq_some_iff.mp h
  obtain ⟨hlt, hs'⟩ := List.getElem?_eq_some_iff.mp hs
  refine ⟨s.distance, t.entries.drop (it + 1), ?_, rfl⟩
  rw [List.drop_eq_getElem_cons hlt, hs', ← hkv]

theorem ahead_of_deref {it : ℕ} {kv : K × V} (h : t.deref it = some kv) :
    t.ahead it = kv :: t.ahead (it + 1) := by
  obtain ⟨d, rest, hdrop, hrest⟩ := drop_eq_of_deref h
  rw [ahead, ahead, hdrop, hrest, contents_some_cons]

theorem Sound.ahead_end (h : Sound hash t) : t.ahead t.end_ = [] := by
  have hlt : t.end_ < t.entries.length := by
    have := h.end_eq
    omega
  obtain ⟨hlt', hs⟩ := List.getElem?_eq_some_iff.mp (h.line.last h.end_eq)
  rw [ahead, List.drop_eq_getElem_cons hlt, hs, contents_stop_cons,
    List.drop_eq_nil_of_le h.end_eq.ge, contents_nil]

theorem Sound.lt_of_deref (h : Sound hash t) {it : ℕ} {kv : K × V} (hit : t.deref it = some kv) :
    it < t.end_ := by
  have hend := h.end_eq
  have hne : it ≠ t.end_ := by
    rintro rfl
    rw [h.deref_end] at hit
    cases hit
  obtain ⟨s, hs, -⟩ := Option.bind_eq_some_iff.mp hit
  have hlt := (List.getElem?_eq_some_iff.mp hs).1
  omega

/-- From any slot on an iterator comes to the next element, or to the end. -/
theorem Sound.skip (h : Sound hash t) (pos : ℕ) (hpos : pos < t.entries.length) :
    ∃ n, RobinHood.skip (t.entries.drop pos) = some n ∧ t.Points (pos + n) ∧
      t.ahead (pos + n) = t.ahead pos ∧
      contents (t.entries.take (pos + n)) = contents (t.entries.take pos) := by
  obtain ⟨bound, -, -, hline, -⟩ := h.line.split le_rfl hpos
  obtain ⟨n, hskip, hnone, hlt, hend⟩ := hline.skip
  rw [List.drop_drop] at hend
  have hpassed : contents (t.entries.take (pos + n)) = contents (t.entries.take pos) := by
    rw [List.take_add, contents_append, hnone, List.append_nil]
  refine ⟨n, hskip, ?_, ?_, hpassed⟩
  · rcases hend with ⟨hstop, -⟩ | ⟨d, kv, rest, hdrop, -⟩
    · left
      have hlength := congrArg List.length hstop
      rw [List.length_drop, List.length_singleton] at hlength
      have := h.end_eq
      omega
    · right
      refine ⟨kv, ?_⟩
      have hhead := congrArg (·[0]?) hdrop
      rw [List.getElem?_drop] at hhead
      rw [deref, ← Nat.add_zero (pos + n), hhead]
      rfl
  · have hall := contents_take_drop t.entries (pos + n)
    rw [hpassed, ← contents_take_drop t.entries pos] at hall
    exact List.append_cancel_left hall

theorem Sound.begin_ (h : Sound hash t) :
    ∃ it, t.begin_ = some it ∧ t.Points it ∧ t.ahead it = contents t.entries ∧
      contents (t.entries.take it) = [] := by
  have hend := h.end_eq
  obtain ⟨n, hskip, hpoints, hahead, hbehind⟩ := h.skip 0 (by omega)
  rw [Nat.zero_add] at hpoints hahead hbehind
  exact ⟨n, hskip, hpoints, hahead, hbehind⟩

theorem Sound.next (h : Sound hash t) {it : ℕ} {kv : K × V} (hit : t.deref it = some kv) :
    ∃ it', t.next it = some it' ∧ t.Points it' ∧ t.ahead it = kv :: t.ahead it' ∧
      contents (t.entries.take it') = contents (t.entries.take it) ++ [kv] := by
  have hlt := h.lt_of_deref hit
  have hend := h.end_eq
  obtain ⟨n, hskip, hpoints, hahead, hbehind⟩ := h.skip (it + 1) (by omega)
  refine ⟨it + 1 + n, ?_, hpoints, ?_, ?_⟩
  · rw [FlatHashMap.next, hskip]
    rfl
  · rw [hahead]
    exact ahead_of_deref hit
  · rw [hbehind]
    have hall := contents_take_drop t.entries it
    rw [← contents_take_drop t.entries (it + 1)] at hall
    have hsplit : contents (t.entries.drop it) = [kv] ++ contents (t.entries.drop (it + 1)) :=
      ahead_of_deref hit
    rw [hsplit, ← List.append_assoc] at hall
    exact (List.append_cancel_right hall).symm

theorem Sound.visitFrom (h : Sound hash t) {fuel it : ℕ} (hit : t.Points it)
    (hfuel : (t.ahead it).length < fuel) : t.visitFrom fuel it = some (t.ahead it) := by
  induction fuel generalizing it with
  | zero => exact absurd hfuel (Nat.not_lt_zero _)
  | succ fuel ih =>
    rw [FlatHashMap.visitFrom]
    rcases hit with rfl | ⟨kv, hkv⟩
    · rw [if_pos rfl, h.ahead_end]
    · obtain ⟨it', hnext, hit', hahead, -⟩ := h.next hkv
      rw [hahead, List.length_cons] at hfuel
      rw [if_neg (h.lt_of_deref hkv).ne, hkv, Option.bind_some, hnext, Option.bind_some,
        ih hit' (by omega), hahead]
      rfl

theorem length_contents_le {α : Type} (row : List (Slot α)) : (contents row).length ≤ row.length :=
  List.length_filterMap_le _ _

theorem Sound.length_contents_lt (h : Sound hash t) :
    (contents t.entries).length < t.entries.length := by
  rw [← h.line.contents_dropLast]
  have hle := length_contents_le t.entries.dropLast
  rw [List.length_dropLast] at hle
  have := h.end_eq
  omega

/-- A walk over the table meets its elements from the left to the right. -/
theorem Sound.visit (h : Sound hash t) : t.visit = some (contents t.entries) := by
  obtain ⟨it, hbegin, hit, hahead, -⟩ := h.begin_
  have hfew : (t.ahead it).length < t.entries.length := by
    rw [hahead]
    exact h.length_contents_lt
  rw [FlatHashMap.visit, hbegin, Option.bind_some, h.visitFrom hit hfew, hahead]

/-- An erased element leaves the others as they are, and the iterator at the next one. -/
theorem Sound.erase (h : Sound hash t) {it : ℕ} {kv : K × V} (hit : t.deref it = some kv) :
    ∃ t' it', t.erase it = some (t', it') ∧ Sound hash t' ∧ t'.shift = t.shift ∧ t'.Points it' ∧
      t'.bucket_count = t.bucket_count ∧ t.ahead it = kv :: t'.ahead it' ∧
      contents (t'.entries.take it') = contents (t.entries.take it) := by
  have hlt := h.lt_of_deref hit
  have hend := h.end_eq
  obtain ⟨bound, h0, -, hline, hreplace⟩ := h.line.split le_rfl (n := it) (by omega)
  rw [Nat.zero_add] at hline hreplace
  have hahead := ahead_of_deref hit
  have hcontents := contents_take_drop t.entries it
  obtain ⟨d, rest, hdrop, hrest⟩ := drop_eq_of_deref hit
  rw [ahead, ahead, hrest] at hahead
  rw [hdrop] at hline
  cases hline with
  | full hd hbound hreach hhome hslots hrow =>
    obtain ⟨row, hclose, hrow', hsame⟩ := hrow.closeGap hd le_rfl ⟨d, some kv⟩
    have htake : (t.entries.take it ++ row).take it = t.entries.take it :=
      List.take_left' (List.length_take_of_le (by omega))
    have hdrop' : (t.entries.take it ++ row).drop it = row :=
      List.drop_left' (List.length_take_of_le (by omega))
    -- what is left is a part of what was there
    have hall : contents (t.entries.take it ++ row) =
        contents (t.entries.take it) ++ contents rest := by
      rw [contents_append, hsame]
    have hparts : contents t.entries = contents (t.entries.take it) ++ kv :: contents rest := by
      rw [← hcontents, hahead]
    have hsize : t.num_elements - 1 = (contents (t.entries.take it) ++ contents rest).length := by
      rw [h.size, hparts, List.length_append, List.length_append, List.length_cons]
      omega
    have hsound : Sound hash { t with
        entries := t.entries.take it ++ row, num_elements := t.num_elements - 1 } := by
      rw [hsize]
      apply h.of_line (hreplace _ (hrow'.of_le hbound)) (by rw [hall])
      · have hnodup := h.nodup
        rw [keys, hparts] at hnodup
        exact hnodup.sublist (((List.sublist_cons_self _ _).append_left _).map _)
      · rw [← hsize]
        have := h.load
        omega
    have hlength : it < (t.entries.take it ++ row).length := by
      have hshort := hsound.line.length_eq
      have hlong := h.line.length_eq
      dsimp only at hshort
      have hslots' : slots { t with
        entries := t.entries.take it ++ row, num_elements := t.num_elements - 1 } = t.slots := rfl
      have hreach' : reach { t with
        entries := t.entries.take it ++ row, num_elements := t.num_elements - 1 } = t.reach := rfl
      omega
    obtain ⟨n, hskip, hpoints, hahead', hbehind⟩ := hsound.skip _ hlength
    dsimp only at hskip hbehind
    rw [hdrop'] at hskip
    rw [htake] at hbehind
    refine ⟨_, it + n, ?_, hsound, rfl, hpoints, rfl, ?_, hbehind⟩
    · rw [FlatHashMap.erase, hdrop, hclose, Option.bind_some, hskip]
      rfl
    · rw [hahead', ahead, ahead, hdrop', hdrop, contents_some_cons, hsame]

/-- An assignment through an iterator. -/
theorem Sound.set_value (h : Sound hash t) {pos : ℕ} {key : K} {old : V}
    (hpos : t.deref pos = some (key, old)) (v : V) :
    ∃ front back, contents t.entries = front ++ (key, old) :: back ∧
      Sound hash { t with
        entries := t.entries.modify pos fun s =>
          { s with value := s.value.map fun kv => (kv.1, v) } } ∧
      contents (t.entries.modify pos fun s => { s with value := s.value.map fun kv => (kv.1, v) }) =
        front ++ (key, v) :: back := by
  have hlt := h.lt_of_deref hpos
  have hend := h.end_eq
  obtain ⟨bound, -, -, hline, hreplace⟩ := h.line.split le_rfl (n := pos) (by omega)
  rw [Nat.zero_add] at hline hreplace
  have hcontents := contents_take_drop t.entries pos
  have hahead := ahead_of_deref hpos
  obtain ⟨d, rest, hdrop, hrest⟩ := drop_eq_of_deref hpos
  rw [ahead, ahead, hrest] at hahead
  have hmodify : (t.entries.modify pos fun s =>
      { s with value := s.value.map fun kv => (kv.1, v) }) =
        t.entries.take pos ++ ⟨d, some (key, v)⟩ :: rest := by
    have hat : t.entries[pos] = ⟨d, some (key, old)⟩ := by
      have hcons := List.drop_eq_getElem_cons (l := t.entries) (i := pos) (by omega)
      exact (List.cons.inj (hcons.symm.trans hdrop)).1
    rw [List.modify_eq_take_cons_drop (by omega), hat, hrest]
    rfl
  have hparts : contents t.entries =
      contents (t.entries.take pos) ++ (key, old) :: contents rest := by
    rw [← hcontents, hahead]
  have hnew : contents (t.entries.take pos ++ ⟨d, some (key, v)⟩ :: rest) =
      contents (t.entries.take pos) ++ (key, v) :: contents rest := by
    rw [contents_append, contents_some_cons]
  have hkeys : (contents (t.entries.take pos ++ ⟨d, some (key, v)⟩ :: rest)).map Prod.fst =
      t.keys := by
    rw [keys, hparts, hnew, List.map_append, List.map_append]
    rfl
  have hlength : t.num_elements =
      (contents (t.entries.take pos ++ ⟨d, some (key, v)⟩ :: rest)).length := by
    rw [h.size, ← List.length_map (f := Prod.fst), ← List.length_map (f := Prod.fst), hkeys]
    rfl
  refine ⟨_, _, hparts, ?_, by rw [hmodify, hnew]⟩
  rw [hmodify]
  rw [hdrop] at hline
  cases hline with
  | full hd hbound hreach hhome hslots hrow =>
    exact ⟨h.shift, h.shape, hreplace _ (.full hd hbound hreach hhome hslots hrow),
      by rw [keys, hkeys]; exact h.nodup, hlength, h.load⟩

theorem Sound.clear (h : Sound hash t) :
    Sound hash t.clear ∧ contents t.clear.entries = [] := by
  have hend := h.end_eq
  have hlength := h.line.length_eq
  have hentries : t.clear.entries = List.replicate t.end_ .empty ++ [.stop] := by
    obtain ⟨hlt, hstop⟩ := List.getElem?_eq_some_iff.mp (h.line.last h.end_eq)
    rw [FlatHashMap.clear, List.drop_eq_getElem_cons hlt, hstop, List.drop_eq_nil_of_le h.end_eq.ge,
      List.map_const', List.length_take_of_le (by omega)]
  have hnone : contents t.clear.entries = [] := by
    rw [hentries, contents_append, contents_replicate_empty]
    rfl
  refine ⟨⟨h.shift, h.shape, ?_, ?_, ?_, Nat.zero_le _⟩, hnone⟩
  · rw [hentries]
    have hlast : 0 + t.end_ + 1 = t.slots + t.reach := by omega
    exact Line.replicate_empty _ hlast
  · rw [keys, hnone]
    exact List.nodup_nil
  · rw [hnone]
    rfl

end Walks

/-! ### Partial functions -/

section Functions
variable {K V : Type} {hash : K → UInt64} {t t' : FlatHashMap K V} {f : K → Option V}

/-- The elements of the table are the values of a partial function. -/
structure Represents (hash : K → UInt64) (t : FlatHashMap K V) (f : K → Option V) : Prop where
  sound : Sound hash t
  mem : ∀ key v, (key, v) ∈ contents t.entries ↔ f key = some v

namespace Represents

theorem mem_keys (h : Represents hash t f) (key : K) : key ∈ t.keys ↔ (f key).isSome = true := by
  rw [keys, List.mem_map, Option.isSome_iff_exists]
  constructor
  · rintro ⟨kv, hkv, rfl⟩
    exact ⟨kv.2, (h.mem kv.1 kv.2).mp hkv⟩
  · rintro ⟨v, hv⟩
    exact ⟨(key, v), (h.mem key v).mpr hv, rfl⟩

theorem eq_none (h : Represents hash t f) {key : K} (hkey : key ∉ t.keys) : f key = none := by
  rw [h.mem_keys, Option.not_isSome_iff_eq_none] at hkey
  exact hkey

theorem create : Represents hash (create : FlatHashMap K V) fun _ => none :=
  ⟨.create, fun _ _ => iff_of_false (fun h => by cases h) (fun h => by cases h)⟩

theorem clear (h : Represents hash t f) : Represents hash t.clear fun _ => none := by
  obtain ⟨hsound, hnone⟩ := h.sound.clear
  refine ⟨hsound, fun key v => ?_⟩
  rw [hnone]
  exact iff_of_false (fun h => by cases h) (fun h => by cases h)

theorem nodup_contents (h : Represents hash t f) : (contents t.entries).Nodup :=
  h.sound.nodup.of_map

/-- The walk over the table. -/
theorem visit (h : Represents hash t f) : ∃ walk, t.visit = some walk ∧ (walk.map Prod.fst).Nodup ∧
    (∀ key v, (key, v) ∈ walk ↔ f key = some v) ∧ t.size = walk.length :=
  ⟨_, h.sound.visit, h.sound.nodup, h.mem, h.sound.size⟩

variable [DecidableEq K]

theorem get (h : Represents hash t f) (key : K) : t.get hash key = some (f key) := by
  rcases h.sound.find key with ⟨pos, v, hfind, hpos⟩ | ⟨hfind, hkey⟩
  · rw [FlatHashMap.get, hfind, Option.map_some, hpos,
      (h.mem key v).mp (mem_contents_of_deref hpos)]
    rfl
  · rw [FlatHashMap.get, hfind, Option.map_some, h.sound.deref_end, h.eq_none hkey]
    rfl

theorem of_update (hsound : Sound hash t') {key : K} {v : Option V}
    (hmem : ∀ key' v', (key', v') ∈ contents t'.entries ↔
      if key' = key then v = some v' else f key' = some v') :
    Represents hash t' (Function.update f key v) := by
  refine ⟨hsound, fun key' v' => ?_⟩
  rw [hmem, Function.update_apply]
  split <;> rfl

section Calls
variable {memory : ℕ}

theorem emplace (hmemory : memory ≤ 2 ^ 62) (h : Represents hash t f) {key : K} {v : V} {pos : ℕ}
    {inserted : Bool} (hcall : FlatHashMap.emplace memory hash t key v = some (t', pos, inserted)) :
    Represents hash t' (Function.update f key (some ((f key).getD v))) ∧
      inserted = (f key).isNone ∧ t'.deref pos = some (key, (f key).getD v) ∧
      t'.num_elements ≤ t.num_elements + 1 := by
  obtain ⟨hsound, -, hdone⟩ := h.sound.emplaceWithin hmemory 64 hcall
  cases inserted with
  | true =>
    obtain ⟨hkey, hpos, hperm⟩ := hdone
    have hnone := h.eq_none hkey
    rw [hnone]
    refine ⟨of_update hsound ?_, rfl, hpos, ?_⟩
    · intro key' v'
      rw [hperm.mem_iff, List.mem_cons, Prod.mk.injEq, h.mem]
      by_cases heq : key' = key
      · subst heq
        simp [hnone, eq_comm]
      · simp [heq]
    · rw [hsound.size, hperm.length_eq, List.length_cons, h.sound.size]
  | false =>
    obtain ⟨rfl, old, hpos⟩ := hdone
    have hold := (h.mem key old).mp (mem_contents_of_deref hpos)
    rw [hold]
    refine ⟨?_, rfl, hpos, Nat.le_succ _⟩
    rw [Option.getD_some, ← hold, Function.update_eq_self]
    exact h

/-- Another value for a key. -/
theorem of_split (h : Represents hash t f) {key : K} {old : V} {front back : List (K × V)}
    (hparts : contents t.entries = front ++ (key, old) :: back) (hsound : Sound hash t')
    {v : Option V} (hnew : contents t'.entries = front ++ v.toList.map (key, ·) ++ back) :
    Represents hash t' (Function.update f key v) := by
  have hnodup := h.sound.nodup
  rw [keys, hparts, List.map_append, List.map_cons] at hnodup
  have hmiddle : (key :: (front.map Prod.fst ++ back.map Prod.fst)).Nodup :=
    List.perm_middle.nodup_iff.mp hnodup
  have hother := (List.nodup_cons.mp hmiddle).1
  apply of_update hsound
  intro key' v'
  have hmem := h.mem key' v'
  rw [hparts] at hmem
  rw [hnew]
  by_cases heq : key' = key
  · subst heq
    have hfront : (key', v') ∉ front := fun hin =>
      hother (List.mem_append_left _ (List.mem_map_of_mem (f := Prod.fst) hin))
    have hback : (key', v') ∉ back := fun hin =>
      hother (List.mem_append_right _ (List.mem_map_of_mem (f := Prod.fst) hin))
    simp [hfront, hback]
  · rw [if_neg heq, ← hmem]
    simp [heq, Ne.symm heq]

theorem assign (hmemory : memory ≤ 2 ^ 62) [Inhabited V] (h : Represents hash t f) {key : K} {v : V}
    (hcall : FlatHashMap.assign memory hash t key v = some t') :
    Represents hash t' (Function.update f key (some v)) ∧
      t'.num_elements ≤ t.num_elements + 1 := by
  obtain ⟨⟨t₁, pos, inserted⟩, hemplace, rfl⟩ := Option.map_eq_some_iff.mp hcall
  obtain ⟨hrep, -, hpos, hsize⟩ := h.emplace hmemory hemplace
  obtain ⟨front, back, hparts, hsound, hnew⟩ := hrep.sound.set_value hpos v
  have hresult := hrep.of_split (v := some v) hparts hsound (by simpa using hnew)
  rw [Function.update_idem] at hresult
  exact ⟨hresult, hsize⟩

theorem erase (h : Represents hash t f) {it : ℕ} {key : K} {v : V}
    (hit : t.deref it = some (key, v)) :
    ∃ t' it', t.erase it = some (t', it') ∧ Represents hash t' (Function.update f key none) ∧
      t'.num_elements ≤ t.num_elements := by
  obtain ⟨t', it', herase, hsound, -, -, -, hahead, hbehind⟩ := h.sound.erase hit
  have hold : contents t.entries =
      contents (t.entries.take it) ++ (key, v) :: contents (t'.entries.drop it') := by
    rw [← contents_take_drop t.entries it]
    exact congrArg _ hahead
  have hnew : contents t'.entries =
      contents (t.entries.take it) ++ contents (t'.entries.drop it') := by
    rw [← hbehind, contents_take_drop]
  refine ⟨t', it', herase, h.of_split hold hsound (by simpa using hnew), ?_⟩
  rw [hsound.size, h.sound.size, hold, hnew, List.length_append, List.length_append,
    List.length_cons]
  omega

theorem eraseKey (h : Represents hash t f) (key : K) :
    ∃ t', t.eraseKey hash key = some t' ∧ Represents hash t' (Function.update f key none) ∧
      t'.num_elements ≤ t.num_elements := by
  rcases h.sound.find key with ⟨pos, v, hfind, hpos⟩ | ⟨hfind, hkey⟩
  · obtain ⟨t', it', herase, hrep, hsize⟩ := h.erase hpos
    refine ⟨t', ?_, hrep, hsize⟩
    rw [FlatHashMap.eraseKey, hfind, Option.bind_some, if_neg (h.sound.lt_of_deref hpos).ne, herase]
    rfl
  · refine ⟨t, ?_, ?_, le_rfl⟩
    · rw [FlatHashMap.eraseKey, hfind, Option.bind_some, if_pos rfl]
    · rw [← h.eq_none hkey, Function.update_eq_self]
      exact h

theorem emplace_isSome {bits : ℕ} (hmemory : memory ≤ 2 ^ 62) (hroom : 2 ^ bits ≤ memory)
    (h : Represents hash t f) (hfew : t.num_elements + 2 ≤ bits) (key : K) (v : V) :
    ∃ t' pos inserted, FlatHashMap.emplace memory hash t key v = some (t', pos, inserted) := by
  have hbits : bits ≤ 62 := (Nat.pow_le_pow_iff_right (by decide)).mp (hroom.trans hmemory)
  obtain ⟨t', pos, inserted, hcall, -⟩ :=
    h.sound.emplaceWithin_isSome hmemory hroom 64 hfew (by omega) key v
  exact ⟨t', pos, inserted, hcall⟩

/-! Copies. -/

variable (memory) in
omit [DecidableEq K] in
theorem rehash_create (insert : FlatHashMap K V → K × V → Option (FlatHashMap K V)) {n k : ℕ}
    (hn : n ≤ 2 ^ k) (hk : 1 ≤ k) (hk' : k ≤ 63) :
    rehash memory insert n FlatHashMap.create = some FlatHashMap.create ∨
      ∃ b, 1 ≤ b ∧ b ≤ k ∧ rehash memory insert n FlatHashMap.create =
        if memory < 2 ^ b then none else some (ofBuckets (2 ^ b)) := by
  have hmax : max n (2 * (FlatHashMap.create : FlatHashMap K V).num_elements) = n := Nat.max_zero n
  rw [rehash]
  dsimp only
  rw [hmax]
  rcases Nat.eq_zero_or_pos n with hzero | hpos
  · left
    rw [if_pos hzero]
  · obtain ⟨b, hb, hle, hsize, -⟩ := next_size_over_eq hpos hn hk hk'
    refine .inr ⟨b, hb, hle, ?_⟩
    have hne : 2 ^ b ≠ (FlatHashMap.create : FlatHashMap K V).bucket_count :=
      (Nat.two_pow_pos b).ne'
    rw [if_neg hpos.ne', hsize, if_neg hne]
    rfl

variable (hash) in
omit [DecidableEq K] in
/-- An empty table with the buckets for a copy. -/
theorem empty_of_rehash {insert : FlatHashMap K V → K × V → Option (FlatHashMap K V)} {n k : ℕ}
    (hn : n ≤ 2 ^ k) (hk : 1 ≤ k) (hk' : k ≤ 62) {t : FlatHashMap K V}
    (h : rehash memory insert n FlatHashMap.create = some t) :
    Sound hash t ∧ contents t.entries = [] ∧ 64 - t.shift ≤ k := by
  rcases rehash_create memory insert hn hk (by omega) with heq | ⟨b, hb, hle, heq⟩
  · cases heq.symm.trans h
    exact ⟨.create, rfl, hk⟩
  · rw [heq, ite_eq_iff] at h
    obtain ⟨-, hnone⟩ | ⟨-, hsome⟩ := h
    · cases hnone
    · cases hsome
      rw [contents_ofBuckets, shift_ofBuckets (by omega)]
      exact ⟨.ofBuckets hb (by omega), rfl, by omega⟩

omit [DecidableEq K] in
theorem nodup_append_of_empty {t₀ : FlatHashMap K V} (h₀ : contents t₀.entries = [])
    (h : Represents hash t f) :
    ((contents t₀.entries ++ contents t.entries).map Prod.fst).Nodup := by
  rw [h₀]
  exact h.sound.nodup

theorem copy (hmemory : memory ≤ 2 ^ 62) (h : Represents hash t f)
    (hcall : FlatHashMap.copy memory hash t = some t') :
    Represents hash t' f ∧ t'.num_elements = t.num_elements := by
  rw [FlatHashMap.copy, Option.bind_eq_some_iff] at hcall
  obtain ⟨t₀, hrehash, hcall⟩ := hcall
  rw [h.sound.visit, Option.bind_some] at hcall
  have hshift := h.sound.shift
  have hcount : min (2 * t.size) t.bucket_count ≤ 2 ^ 62 := by
    have hpow : 2 ^ (64 - t.shift) ≤ 2 ^ 62 := Nat.pow_le_pow_right (by decide) (by omega)
    rcases h.sound.count with ⟨hzero, -⟩ | hcount <;> omega
  obtain ⟨hsound₀, hempty, -⟩ := empty_of_rehash hash hcount (by decide) le_rfl hrehash
  obtain ⟨hsound, hperm, -⟩ := hsound₀.insertAll (Sound.inserts hmemory 64)
    (nodup_append_of_empty hempty h) hcall
  rw [hempty, List.nil_append] at hperm
  refine ⟨⟨hsound, fun key v => ?_⟩, ?_⟩
  · rw [hperm.mem_iff, h.mem]
  · rw [hsound.size, hperm.length_eq, h.sound.size]

theorem copy_isSome {bits : ℕ} (hmemory : memory ≤ 2 ^ 62) (hroom : 2 ^ bits ≤ memory)
    (h : Represents hash t f) (hfew : t.num_elements + 2 ≤ bits) :
    ∃ t', FlatHashMap.copy memory hash t = some t' := by
  have hbits : bits ≤ 62 := (Nat.pow_le_pow_iff_right (by decide)).mp (hroom.trans hmemory)
  have hsmall : min (2 * t.size) t.bucket_count ≤ 2 ^ bits := by
    have hself : t.num_elements < 2 ^ t.num_elements := Nat.lt_two_pow_self
    have hpow : 2 ^ (t.num_elements + 1) ≤ 2 ^ bits := Nat.pow_le_pow_right (by decide) (by omega)
    have hdouble : 2 ^ (t.num_elements + 1) = 2 * 2 ^ t.num_elements := Nat.pow_succ'
    have hsize : t.size = t.num_elements := rfl
    omega
  have hsome : ∃ t₀, rehash memory (FlatHashMap.insert memory hash)
      (min (2 * t.size) t.bucket_count) (FlatHashMap.create : FlatHashMap K V) = some t₀ := by
    rcases rehash_create memory (FlatHashMap.insert memory hash) hsmall
      (by omega) (by omega) with heq | ⟨b, -, hle, heq⟩
    · exact ⟨_, heq⟩
    · have hpow : 2 ^ b ≤ 2 ^ bits := Nat.pow_le_pow_right (by decide) hle
      rw [if_neg (by omega)] at heq
      exact ⟨_, heq⟩
  obtain ⟨t₀, hrehash⟩ := hsome
  obtain ⟨hsound₀, hempty, hle⟩ := empty_of_rehash hash hsmall (by omega) hbits hrehash
  obtain ⟨t', hfold, -⟩ := hsound₀.insertAll_isSome bits 64 (l := contents t.entries) hmemory
    (fun {_} h hfew hgrowths => h.emplaceWithin_isSome hmemory hroom 64 hfew hgrowths)
    (nodup_append_of_empty hempty h)
    (by
      rw [hempty, List.nil_append, ← h.sound.size]
      omega)
    (by omega) hle
  refine ⟨t', ?_⟩
  rw [FlatHashMap.copy, hrehash, Option.bind_some, h.sound.visit]
  exact hfold

end Calls

/-! Equality. -/

theorem sameIn [DecidableEq V] (h : Represents hash t f) (l : List (K × V)) :
    ∃ b, t.sameIn hash l = some b ∧ (b = true ↔ ∀ kv ∈ l, f kv.1 = some kv.2) := by
  induction l with
  | nil => exact ⟨true, rfl, by simp⟩
  | cons kv l ih =>
    obtain ⟨b, hb, hall⟩ := ih
    rcases h.sound.find kv.1 with ⟨pos, v, hfind, hpos⟩ | ⟨hfind, hkey⟩
    · have hv := (h.mem kv.1 v).mp (mem_contents_of_deref hpos)
      rw [FlatHashMap.sameIn, hfind, Option.bind_some, if_neg (h.sound.lt_of_deref hpos).ne, hpos,
        Option.bind_some]
      by_cases heq : kv.2 = v
      · refine ⟨b, ?_, ?_⟩
        · rw [if_neg (not_not_intro heq), hb]
        · rw [hall, List.forall_mem_cons, hv, heq]
          simp
      · refine ⟨false, if_pos heq, ?_⟩
        rw [List.forall_mem_cons, hv, Option.some.injEq]
        simp [Ne.symm heq]
    · refine ⟨false, ?_, ?_⟩
      · rw [FlatHashMap.sameIn, hfind, Option.bind_some, if_pos rfl]
      · rw [List.forall_mem_cons, h.eq_none hkey]
        simp

/-- Two tables are equal if they represent one function, whatever their hashes and sizes are. -/
theorem equal [DecidableEq V] {hash' : K → UInt64} {g : K → Option V} {rhs : FlatHashMap K V}
    (h : Represents hash t f) (hrhs : Represents hash' rhs g) :
    ∃ b, FlatHashMap.equal t hash' rhs = some b ∧ (b = true ↔ f = g) := by
  have hperm : f = g → (contents t.entries).Perm (contents rhs.entries) := by
    rintro rfl
    apply (List.perm_ext_iff_of_nodup h.nodup_contents hrhs.nodup_contents).mpr
    rintro ⟨key, v⟩
    rw [h.mem, hrhs.mem]
  rw [FlatHashMap.equal]
  by_cases hsize : t.size = rhs.size
  · obtain ⟨b, hb, hall⟩ := hrhs.sameIn (contents t.entries)
    refine ⟨b, ?_, ?_⟩
    · rw [if_neg (not_not_intro hsize), h.sound.visit, Option.bind_some, hb]
    · rw [hall]
      constructor
      · intro hsub
        have hsubset : contents t.entries ⊆ contents rhs.entries := by
          rintro ⟨key, v⟩ hkv
          exact (hrhs.mem key v).mpr (hsub (key, v) hkv)
        have hlength : (contents rhs.entries).length ≤ (contents t.entries).length := by
          rw [← h.sound.size, ← hrhs.sound.size]
          exact hsize.ge
        have hboth := (List.subperm_of_subset h.nodup_contents hsubset).perm_of_length_le hlength
        funext key
        apply Option.ext
        intro v
        rw [← h.mem, ← hrhs.mem, hboth.mem_iff]
      · rintro rfl kv hkv
        exact (h.mem kv.1 kv.2).mp hkv
  · refine ⟨false, if_pos hsize, ?_⟩
    have hne : f ≠ g := by
      intro heq
      apply hsize
      rw [size, size, h.sound.size, hrhs.sound.size, (hperm heq).length_eq]
    simp [hne]

end Represents

end Functions

/-! ### Runs -/

/-- What is done with one table; a copy takes the place of the table it is made of. -/
inductive MapCall (K V : Type) where
  | emplace (key : K) (v : V)
  | assign (key : K) (v : V)
  | erase (key : K)
  | clear
  | copy

section Runs
variable {K V : Type} [DecidableEq K] [Inhabited V] (memory : ℕ) (hash : K → UInt64)

def call (t : FlatHashMap K V) : MapCall K V → Option (FlatHashMap K V)
  | .emplace key v => t.insert memory hash (key, v)
  | .assign key v => t.assign memory hash key v
  | .erase key => t.eraseKey hash key
  | .clear => some t.clear
  | .copy => t.copy memory hash

def run (calls : List (MapCall K V)) : Option (FlatHashMap K V) :=
  calls.foldlM (call memory hash) create

omit [Inhabited V] in
/-- What a call means for a partial function. -/
def MapCall.on (f : K → Option V) : MapCall K V → K → Option V
  | .emplace key v => Function.update f key (some ((f key).getD v))
  | .assign key v => Function.update f key (some v)
  | .erase key => Function.update f key none
  | .clear => fun _ => none
  | .copy => f

omit [Inhabited V] in
def meaning (calls : List (MapCall K V)) : K → Option V := calls.foldl MapCall.on fun _ => none

theorem Represents.call {t t' : FlatHashMap K V} {f : K → Option V} {memory : ℕ}
    {hash : K → UInt64} (hmemory : memory ≤ 2 ^ 62) (h : Represents hash t f) (c : MapCall K V)
    (hcall : t.call memory hash c = some t') :
    Represents hash t' (c.on f) ∧ t'.num_elements ≤ t.num_elements + 1 := by
  cases c with
  | emplace key v =>
    obtain ⟨⟨t₁, pos, inserted⟩, hemplace, rfl⟩ := Option.map_eq_some_iff.mp hcall
    obtain ⟨hrep, -, -, hsize⟩ := h.emplace hmemory hemplace
    exact ⟨hrep, hsize⟩
  | assign key v => exact h.assign hmemory hcall
  | erase key =>
    obtain ⟨t₁, herase, hrep, hsize⟩ := h.eraseKey key
    cases herase.symm.trans hcall
    exact ⟨hrep, hsize.trans (Nat.le_succ _)⟩
  | clear =>
    cases hcall
    exact ⟨h.clear, Nat.zero_le _⟩
  | copy =>
    obtain ⟨hrep, hsize⟩ := h.copy hmemory hcall
    exact ⟨hrep, hsize.le.trans (Nat.le_succ _)⟩

theorem Represents.call_isSome {t : FlatHashMap K V} {f : K → Option V} {memory bits : ℕ}
    {hash : K → UInt64} (hmemory : memory ≤ 2 ^ 62) (hroom : 2 ^ bits ≤ memory)
    (h : Represents hash t f) (hfew : t.num_elements + 2 ≤ bits) (c : MapCall K V) :
    ∃ t', t.call memory hash c = some t' := by
  cases c with
  | emplace key v =>
    obtain ⟨t', pos, inserted, hcall⟩ := h.emplace_isSome hmemory hroom hfew key v
    refine ⟨t', ?_⟩
    show (FlatHashMap.emplace memory hash t key v).map (·.1) = some t'
    rw [hcall]
    rfl
  | assign key v =>
    obtain ⟨t', pos, inserted, hcall⟩ := h.emplace_isSome hmemory hroom hfew key default
    exact ⟨_, congrArg (Option.map _) hcall⟩
  | erase key =>
    obtain ⟨t', herase, -⟩ := h.eraseKey key
    exact ⟨t', herase⟩
  | clear => exact ⟨_, rfl⟩
  | copy => exact h.copy_isSome hmemory hroom hfew

theorem represents_of_run {t : FlatHashMap K V} {memory : ℕ} {hash : K → UInt64}
    (hmemory : memory ≤ 2 ^ 62) {calls : List (MapCall K V)}
    (hrun : run memory hash calls = some t) :
    Represents hash t (meaning calls) ∧ t.num_elements ≤ calls.length := by
  induction calls using List.reverseRecOn generalizing t with
  | nil =>
    cases hrun
    exact ⟨.create, le_rfl⟩
  | append_singleton calls c ih =>
    rw [run, List.foldlM_append, Option.bind_eq_bind, Option.bind_eq_some_iff] at hrun
    obtain ⟨t₁, hbefore, hcall⟩ := hrun
    have hlast : call memory hash t₁ c = some t := by simpa using hcall
    obtain ⟨hrep, hsize⟩ := ih hbefore
    obtain ⟨hrep', hsize'⟩ := hrep.call hmemory c hlast
    rw [meaning, List.foldl_append, List.length_append, List.length_singleton]
    exact ⟨hrep', by omega⟩

theorem run_isSome {memory : ℕ} (hash : K → UInt64) (hmemory : memory ≤ 2 ^ 62)
    (calls : List (MapCall K V)) (hroom : 2 ^ (calls.length + 2) ≤ memory) :
    ∃ t, run memory hash calls = some t := by
  induction calls using List.reverseRecOn with
  | nil => exact ⟨create, rfl⟩
  | append_singleton calls c ih =>
    rw [List.length_append, List.length_singleton] at hroom
    have hless : 2 ^ (calls.length + 2) ≤ 2 ^ (calls.length + 1 + 2) :=
      Nat.pow_le_pow_right (by decide) (by omega)
    obtain ⟨t, hrun⟩ := ih (hless.trans hroom)
    obtain ⟨hrep, hsize⟩ := represents_of_run hmemory hrun
    obtain ⟨t', hcall⟩ := hrep.call_isSome hmemory hroom (by omega) c
    refine ⟨t', ?_⟩
    rw [run, List.foldlM_append]
    rw [run] at hrun
    rw [hrun]
    simpa using hcall

/-- A table on which calls were made answers like the partial function that they mean, and holds
each of its keys once. Where there is memory for a table with a bit more for each call, no call
fails, whatever the hashes are. -/
theorem run_answers {memory : ℕ} (hash : K → UInt64) (hmemory : memory ≤ 2 ^ 62)
    (calls : List (MapCall K V)) :
    (∀ t, run memory hash calls = some t →
      (∀ key, t.get hash key = some (meaning calls key)) ∧
      (∃ walk, t.visit = some walk ∧ (walk.map Prod.fst).Nodup ∧
        (∀ key v, (key, v) ∈ walk ↔ meaning calls key = some v) ∧ t.size = walk.length) ∧
      ∀ key v t' pos inserted, emplace memory hash t key v = some (t', pos, inserted) →
        inserted = (meaning calls key).isNone ∧
          t'.deref pos = some (key, (meaning calls key).getD v)) ∧
      (2 ^ (calls.length + 2) ≤ memory → ∃ t, run memory hash calls = some t) := by
  refine ⟨?_, run_isSome hash hmemory calls⟩
  intro t hrun
  obtain ⟨hrep, -⟩ := represents_of_run hmemory hrun
  refine ⟨hrep.get, hrep.visit, ?_⟩
  intro key v t' pos inserted hcall
  obtain ⟨-, hinserted, hpos, -⟩ := hrep.emplace hmemory hcall
  exact ⟨hinserted, hpos⟩

/-- Six keys of one hash, of which one is assigned again and one erased. -/
theorem run_answers_oneHash :
    let calls := (List.range 6).map (fun k => MapCall.emplace k k) ++
      [.assign 3 7, .erase 4, .copy]
    ∃ t, run (2 ^ 11) (fun _ => 5) calls = some t ∧ t.get (fun _ => 5) 3 = some (some 7) ∧
      t.get (fun _ => 5) 4 = some none ∧ t.size = 5 := by
  intro calls
  obtain ⟨hanswers, hreturns⟩ := run_answers (fun _ => 5) (show 2 ^ 11 ≤ 2 ^ 62 by decide) calls
  obtain ⟨t, hrun⟩ := hreturns (by decide)
  obtain ⟨hget, -⟩ := hanswers t hrun
  have hsize : (run (2 ^ 11) (fun _ => 5) calls).map size = some 5 := by decide +kernel
  rw [hrun, Option.map_some, Option.some.injEq] at hsize
  exact ⟨t, hrun, hget 3, hget 4, hsize⟩

end Runs

end FlatHashMap

end AtlasNative
