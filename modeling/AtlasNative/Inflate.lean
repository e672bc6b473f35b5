import AtlasNative.HttpReplies

/-!
# Inflating what was received

The loop of `inflate_string` runs while there is input and never asks whether the stream has
ended. A stream that is cut off, or an empty body, runs out of input before its end and
counts as inflated; input behind the end of the stream is never consumed.
-/

namespace AtlasNative

set_option autoImplicit false

namespace Zlib

/-- What zlib says of a stream that has ended: `inflate` takes no more of the input and says
so again. -/
def EndIsFinal (zlib : Zlib) : Prop :=
  ∀ stream next_in avail_out, (zlib.inflate stream next_in avail_out).ret = .Z_STREAM_END →
    ∀ next_in' avail_out',
      (zlib.inflate (zlib.inflate stream next_in avail_out).stream next_in' avail_out').ret =
          .Z_STREAM_END ∧
        (zlib.inflate (zlib.inflate stream next_in avail_out).stream next_in'
          avail_out').next_in = next_in'

variable (zlib : Zlib)

def call (stream : zlib.Stream) (next_in : List Char) : Inflated zlib.Stream :=
  zlib.inflate stream next_in 65536

def IsError (ret : ZResult) : Prop := ret = .Z_DATA_ERROR ∨ ret = .Z_MEM_ERROR

instance (ret : ZResult) : Decidable (IsError ret) := inferInstanceAs (Decidable (_ ∨ _))

/-- Decoding the input reaches the end of the stream, in front of `rest`. -/
inductive Ends : zlib.Stream → List Char → List Char → Prop where
  | last {stream : zlib.Stream} {next_in : List Char} :
      next_in ≠ [] → (zlib.call stream next_in).ret = .Z_STREAM_END →
      Ends stream next_in (zlib.call stream next_in).next_in
  | step {stream : zlib.Stream} {next_in rest : List Char} :
      next_in ≠ [] → (zlib.call stream next_in).ret ≠ .Z_STREAM_END →
      ¬ IsError (zlib.call stream next_in).result →
      Ends (zlib.call stream next_in).stream (zlib.call stream next_in).next_in rest →
      Ends stream next_in rest

/-- Decoding the input reaches an error. -/
inductive Corrupt : zlib.Stream → List Char → Prop where
  | last {stream : zlib.Stream} {next_in : List Char} :
      next_in ≠ [] → IsError (zlib.call stream next_in).result → Corrupt stream next_in
  | step {stream : zlib.Stream} {next_in : List Char} :
      next_in ≠ [] → (zlib.call stream next_in).ret ≠ .Z_STREAM_END →
      Corrupt (zlib.call stream next_in).stream (zlib.call stream next_in).next_in →
      Corrupt stream next_in

variable {zlib} {stream : zlib.Stream} {next_in rest out : List Char}

theorem not_isError_of_end {step : Inflated zlib.Stream} (h : step.ret = .Z_STREAM_END) :
    ¬ IsError step.result := by
  rw [Inflated.result, h]
  decide

/-! What a run of the loop does, call by call. -/

theorem inflate_loop_nil (fuel : ℕ) (stream : zlib.Stream) (out : List Char) :
    inflate_loop zlib (fuel + 1) stream [] out = some (.ok out) := rfl

theorem inflate_loop_error (hne : next_in ≠ []) (h : IsError (zlib.call stream next_in).result)
    (fuel : ℕ) (out : List Char) :
    inflate_loop zlib (fuel + 1) stream next_in out =
      some (.error (zlib.call stream next_in).result) := by
  rw [inflate_loop, if_neg (by simpa using hne)]
  exact if_pos h

theorem inflate_loop_next (hne : next_in ≠ [])
    (h : ¬ IsError (zlib.call stream next_in).result) (fuel : ℕ) (out : List Char) :
    inflate_loop zlib (fuel + 1) stream next_in out =
      inflate_loop zlib fuel (zlib.call stream next_in).stream (zlib.call stream next_in).next_in
        (out ++ (zlib.call stream next_in).output) := by
  rw [inflate_loop, if_neg (by simpa using hne)]
  exact if_neg h

/-- Input behind the end of the stream keeps the loop going for ever. -/
theorem inflate_loop_after_end (hfinal : zlib.EndIsFinal)
    (hend : (zlib.call stream next_in).ret = .Z_STREAM_END) (hne : rest ≠ []) (fuel : ℕ)
    (out : List Char) :
    inflate_loop zlib fuel (zlib.call stream next_in).stream rest out = none := by
  induction fuel generalizing stream next_in out with
  | zero => rfl
  | succ fuel ih =>
    obtain ⟨hagain, hrest⟩ := hfinal stream next_in 65536 hend rest 65536
    have hret : (zlib.call (zlib.call stream next_in).stream rest).ret = .Z_STREAM_END := hagain
    have hnext : (zlib.call (zlib.call stream next_in).stream rest).next_in = rest := hrest
    rw [inflate_loop_next hne (not_isError_of_end hret), hnext]
    exact ih hret _

theorem Ends.loop_nil (h : Ends zlib stream next_in []) (out : List Char) :
    ∃ fuel out', inflate_loop zlib fuel stream next_in out = some (.ok out') := by
  generalize hrest : ([] : List Char) = rest at h
  induction h generalizing out with
  | @last stream next_in hne hend =>
    refine ⟨2, out ++ (zlib.call stream next_in).output, ?_⟩
    rw [inflate_loop_next hne (not_isError_of_end hend), ← hrest]
    exact inflate_loop_nil 0 _ _
  | @step stream next_in rest hne _ herror _ ih =>
    obtain ⟨fuel, out', hloop⟩ := ih (out ++ (zlib.call stream next_in).output) hrest
    exact ⟨fuel + 1, out', (inflate_loop_next hne herror fuel out).trans hloop⟩

theorem Ends.loop_eq_none (hfinal : zlib.EndIsFinal) (h : Ends zlib stream next_in rest)
    (hne : rest ≠ []) (fuel : ℕ) (out : List Char) :
    inflate_loop zlib fuel stream next_in out = none := by
  induction h generalizing fuel out with
  | @last stream next_in hin hend =>
    cases fuel with
    | zero => rfl
    | succ fuel =>
      rw [inflate_loop_next hin (not_isError_of_end hend)]
      exact inflate_loop_after_end hfinal hend hne fuel _
  | @step stream next_in rest hin _ herror _ ih =>
    cases fuel with
    | zero => rfl
    | succ fuel =>
      rw [inflate_loop_next hin herror]
      exact ih hne fuel _

theorem Corrupt.loop (h : Corrupt zlib stream next_in) (out : List Char) :
    ∃ fuel err, inflate_loop zlib fuel stream next_in out = some (.error err) ∧ IsError err := by
  induction h generalizing out with
  | @last stream next_in hne herror =>
    exact ⟨1, _, inflate_loop_error hne herror 0 out, herror⟩
  | @step stream next_in hne hend _ ih =>
    by_cases herror : IsError (zlib.call stream next_in).result
    · exact ⟨1, _, inflate_loop_error hne herror 0 out, herror⟩
    · obtain ⟨fuel, err, hloop, herr⟩ := ih (out ++ (zlib.call stream next_in).output)
      exact ⟨fuel + 1, err, (inflate_loop_next hne herror fuel out).trans hloop, herr⟩

/-- The loop returns an error only for an error of zlib that comes before the end of the
stream. -/
theorem corrupt_of_loop (hfinal : zlib.EndIsFinal) {fuel : ℕ} {err : ZResult}
    (h : inflate_loop zlib fuel stream next_in out = some (.error err)) :
    Corrupt zlib stream next_in := by
  induction fuel generalizing stream next_in out with
  | zero => cases h
  | succ fuel ih =>
    by_cases hne : next_in = []
    · subst hne
      cases h
    · by_cases herror : IsError (zlib.call stream next_in).result
      · exact .last hne herror
      · rw [inflate_loop_next hne herror] at h
        by_cases hend : (zlib.call stream next_in).ret = .Z_STREAM_END
        · -- behind the end the loop has no input left or never ends
          by_cases hrest : (zlib.call stream next_in).next_in = []
          · rw [hrest] at h
            cases fuel with
            | zero => cases h
            | succ fuel => cases h
          · rw [inflate_loop_after_end hfinal hend hrest] at h
            cases h
        · exact .step hne hend (ih h)

end Zlib

section Inflate
variable (zlib : Zlib)

def availableInput (source : String) : List Char :=
  source.toList.take (source.toList.length % 2 ^ 32)

/-- `inflate_string` returns, and returns `Z_OK` only for a stream that was decoded to its
end. -/
structure InflatesSafely (dest source : String) : Prop where
  terminates : ∃ fuel r, inflate_string zlib fuel dest source = some r
  complete : ∀ fuel out, inflate_string zlib fuel dest source = some (.Z_OK, out) →
    ∃ rest, Zlib.Ends zlib zlib.inflateInit2.2 (availableInput source) rest

variable {zlib}

theorem inflate_string_of_init (h : zlib.inflateInit2.1 = .Z_OK) (fuel : ℕ)
    (dest source : String) :
    inflate_string zlib fuel dest source =
      (inflate_loop zlib fuel zlib.inflateInit2.2 (availableInput source) []).map fun
        | .ok out => (.Z_OK, String.ofList out)
        | .error ret => (ret, dest) := by
  unfold inflate_string availableInput
  generalize zlib.inflateInit2 = init at h ⊢
  obtain ⟨init_result, stream⟩ := init
  dsimp only at h
  subst h
  rfl

theorem inflate_string_of_not_init (h : zlib.inflateInit2.1 ≠ .Z_OK) (fuel : ℕ)
    (dest source : String) :
    inflate_string zlib fuel dest source = some (zlib.inflateInit2.1, dest) := by
  unfold inflate_string
  generalize zlib.inflateInit2 = init at h ⊢
  obtain ⟨init_result, stream⟩ := init
  cases init_result with
  | Z_OK => exact absurd rfl h
  | _ => rfl

/-- Inflating is safe exactly when zlib cannot start, or the input is one whole stream and
nothing more, or an error comes up before the end of the stream. -/
theorem inflate_string_safe_iff (hfinal : zlib.EndIsFinal) (dest source : String) :
    InflatesSafely zlib dest source ↔
      zlib.inflateInit2.1 ≠ .Z_OK ∨
        Zlib.Ends zlib zlib.inflateInit2.2 (availableInput source) [] ∨
        Zlib.Corrupt zlib zlib.inflateInit2.2 (availableInput source) := by
  by_cases hinit : zlib.inflateInit2.1 = .Z_OK
  · constructor
    · intro h
      obtain ⟨fuel, r, hr⟩ := h.terminates
      have hloop := hr
      rw [inflate_string_of_init hinit, Option.map_eq_some_iff] at hloop
      obtain ⟨result, hresult, hmap⟩ := hloop
      apply Or.inr
      cases result with
      | error err => exact Or.inr (Zlib.corrupt_of_loop hfinal hresult)
      | ok out =>
        apply Or.inl
        rw [← hmap] at hr
        obtain ⟨rest, hends⟩ := h.complete fuel _ hr
        by_cases hrest : rest = []
        · exact hrest ▸ hends
        · rw [hends.loop_eq_none hfinal hrest] at hresult
          cases hresult
    · intro hcases
      rcases hcases with hno | hends | hcorrupt
      · exact False.elim (hno hinit)
      · obtain ⟨fuel, out, hloop⟩ := hends.loop_nil []
        refine ⟨⟨fuel, (.Z_OK, String.ofList out), ?_⟩, fun _ _ _ => ⟨[], hends⟩⟩
        rw [inflate_string_of_init hinit, hloop]
        rfl
      · obtain ⟨fuel, err, hloop, herr⟩ := hcorrupt.loop []
        have hstring : inflate_string zlib fuel dest source = some (err, dest) := by
          rw [inflate_string_of_init hinit, hloop]
          rfl
        refine ⟨⟨fuel, _, hstring⟩, ?_⟩
        intro fuel' out hout
        have heq := congrArg Prod.fst (inflate_string_unique zlib hstring hout)
        dsimp only at heq
        subst heq
        rcases herr with habs | habs <;> cases habs
  · apply iff_of_true _ (Or.inl hinit)
    refine ⟨⟨0, _, inflate_string_of_not_init hinit 0 dest source⟩, ?_⟩
    intro fuel out hout
    rw [inflate_string_of_not_init hinit] at hout
    exact False.elim (hinit (congrArg Prod.fst (Option.some.inj hout)))

end Inflate

def emptyObjectGzip : List Char :=
  [31, 139, 8, 0, 0, 0, 0, 0, 0, 3, 171, 174, 5, 0, 67, 191, 166, 163, 2, 0, 0, 0].map Char.ofNat

/-- zlib on the compressed text of an empty object; its streams know whether they ended. -/
def emptyObjectInflater : Zlib where
  Stream := Bool
  inflateInit2 := (.Z_OK, false)
  inflate ended next_in _ :=
    if ended then ⟨.Z_STREAM_END, true, [], next_in⟩
    else if next_in = emptyObjectGzip then ⟨.Z_STREAM_END, true, ['{', '}'], []⟩
    else ⟨.Z_DATA_ERROR, false, [], next_in⟩

theorem emptyObjectInflater_endIsFinal : emptyObjectInflater.EndIsFinal := by
  intro ended next_in avail_out hend next_in' avail_out'
  cases ended with
  | true => exact ⟨rfl, rfl⟩
  | false =>
    by_cases hin : next_in = emptyObjectGzip
    · subst hin
      exact ⟨rfl, rfl⟩
    · have hret : (emptyObjectInflater.inflate false next_in avail_out).ret = .Z_DATA_ERROR := by
        simp [emptyObjectInflater, hin]
      rw [hret] at hend
      cases hend

theorem inflate_empty_object_safe :
    InflatesSafely emptyObjectInflater "" (String.ofList emptyObjectGzip) := by
  apply (inflate_string_safe_iff emptyObjectInflater_endIsFinal "" _).mpr
  apply Or.inr
  apply Or.inl
  have hinput : availableInput (String.ofList emptyObjectGzip) = emptyObjectGzip := by
    rw [availableInput, String.toList_ofList]
    rfl
  rw [hinput]
  exact .last (by decide) rfl

/-- An empty body counts as inflated, although no stream has ended. -/
theorem inflate_empty_body_not_safe : ¬ InflatesSafely emptyObjectInflater "" "" := by
  intro h
  obtain ⟨rest, hends⟩ := h.complete 1 "" rfl
  have hinput : availableInput "" = [] := rfl
  rw [hinput] at hends
  cases hends with
  | last hne _ => exact hne rfl
  | step hne _ _ _ => exact hne rfl

end AtlasNative
