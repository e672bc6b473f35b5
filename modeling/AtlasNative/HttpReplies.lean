import AtlasNative.Lib.ExceptRuns
import AtlasNative.Machine
import AtlasNative.Strings
import Mathlib.Data.List.DropRight

/-!
# Replies to a conditional get

What libcurl hands over for a reply becomes a status, an ETag and a text. A gzipped body
is inflated chunk by chunk. The loop of `inflate_string` ends when the input is used up,
so it runs on fuel here.
-/

namespace AtlasNative

open ExceptRuns
set_option autoImplicit false

def IStartsWith (s prefix_ : String) : Bool :=
  go s.toList prefix_.toList
where
  /-- The end of the string reads as a NUL. -/
  go : List Char → List Char → Bool
    | _, [] => true
    | [], _ :: _ => false
    | a :: as, b :: bs => a ≠ nul && a.toLower = b.toLower && go as bs

def TrimRight (s : String) : String := String.ofList (s.toList.rdropWhile isspace)

/-- The results of zlib that `inflate_string` tells apart, and those of initialisation. -/
inductive ZResult where
  | Z_OK
  | Z_STREAM_END
  | Z_NEED_DICT
  | Z_DATA_ERROR
  | Z_STREAM_ERROR
  | Z_MEM_ERROR
  | Z_BUF_ERROR
  | Z_VERSION_ERROR
  deriving DecidableEq

structure Inflated (Stream : Type) where
  ret : ZResult
  stream : Stream
  output : List Char
  next_in : List Char

/-- The loop counts a dictionary that is needed as an error in the data. -/
def Inflated.result {Stream : Type} (step : Inflated Stream) : ZResult :=
  if step.ret = .Z_NEED_DICT then .Z_DATA_ERROR else step.ret

/-- zlib: `inflateInit2`, and `inflate` with the input and `avail_out`. -/
structure Zlib where
  Stream : Type
  inflateInit2 : ZResult × Stream
  inflate : Stream → List Char → ℕ → Inflated Stream

section Inflate
variable (zlib : Zlib)

def inflate_loop : ℕ → zlib.Stream → List Char → List Char → Option (Except ZResult (List Char))
  | 0, _, _, _ => none
  | fuel + 1, stream, next_in, out =>
    if next_in.isEmpty then some (.ok out)
    else
      let step := zlib.inflate stream next_in 65536
      if step.result = .Z_DATA_ERROR ∨ step.result = .Z_MEM_ERROR then some (.error step.result)
      else inflate_loop fuel step.stream step.next_in (out ++ step.output)

/-- The result and `*dest`. `avail_in` has 32 bits. -/
def inflate_string (fuel : ℕ) (dest source : String) : Option (ZResult × String) :=
  let next_in := source.toList.take (source.toList.length % 2 ^ 32)
  match zlib.inflateInit2 with
  | (.Z_OK, stream) =>
    (inflate_loop zlib fuel stream next_in []).map fun
      | .ok out => (.Z_OK, String.ofList out)
      | .error ret => (ret, dest)
  | (init_result, _) => some (init_result, dest)

theorem inflate_loop_mono {fuel fuel' : ℕ} (hfuel : fuel ≤ fuel') {stream : zlib.Stream}
    {next_in out : List Char} {r : Except ZResult (List Char)}
    (h : inflate_loop zlib fuel stream next_in out = some r) :
    inflate_loop zlib fuel' stream next_in out = some r := by
  induction fuel generalizing fuel' stream next_in out with
  | zero => exact absurd h (Option.some_ne_none r).symm
  | succ fuel ih =>
    cases fuel' with
    | zero => exact absurd hfuel (Nat.not_succ_le_zero fuel)
    | succ fuel' =>
      rw [inflate_loop] at h ⊢
      by_cases hempty : next_in.isEmpty = true
      · rwa [if_pos hempty] at h ⊢
      · rw [if_neg hempty] at h ⊢
        by_cases herror : (zlib.inflate stream next_in 65536).result = .Z_DATA_ERROR ∨
            (zlib.inflate stream next_in 65536).result = .Z_MEM_ERROR
        · rwa [if_pos herror] at h ⊢
        · rw [if_neg herror] at h ⊢
          exact ih (Nat.le_of_succ_le_succ hfuel) h

theorem inflate_string_mono {fuel fuel' : ℕ} (hfuel : fuel ≤ fuel') {dest source : String}
    {r : ZResult × String} (h : inflate_string zlib fuel dest source = some r) :
    inflate_string zlib fuel' dest source = some r := by
  unfold inflate_string at h ⊢
  split at h
  · obtain ⟨out, hout, rfl⟩ := Option.map_eq_some_iff.mp h
    exact Option.map_eq_some_iff.mpr ⟨out, inflate_loop_mono zlib hfuel hout, rfl⟩
  · exact h

theorem inflate_string_unique {fuel fuel' : ℕ} {dest source : String} {r r' : ZResult × String}
    (h : inflate_string zlib fuel dest source = some r)
    (h' : inflate_string zlib fuel' dest source = some r') : r = r' := by
  have hmax := inflate_string_mono zlib (le_max_left fuel fuel') h
  have hmax' := inflate_string_mono zlib (le_max_right fuel fuel') h'
  exact Option.some.inj (hmax.symm.trans hmax')

theorem inflate_string_dest {fuel : ℕ} {dest source text : String} {code : ZResult}
    (h : inflate_string zlib fuel dest source = some (code, text)) (hcode : code ≠ .Z_OK) :
    text = dest := by
  unfold inflate_string at h
  split at h
  · obtain ⟨out, -, hout⟩ := Option.map_eq_some_iff.mp h
    cases out with
    | ok out => exact absurd (congrArg Prod.fst hout).symm hcode
    | error ret => exact (congrArg Prod.snd hout).symm
  · exact (congrArg Prod.snd (Option.some.inj h)).symm

/-- `Buffer::uncompress_to` only logs what went wrong. -/
def uncompress_to (fuel : ℕ) (buf s : String) : Option String :=
  (inflate_string zlib fuel s buf).map Prod.snd

end Inflate

structure HeaderInfo where
  etag : String := ""
  compressed : Bool := false
  deriving DecidableEq

def header_callback (hi : HeaderInfo) (header : String) : HeaderInfo :=
  if IStartsWith header "Etag: " then
    { hi with etag := TrimRight (String.ofList (header.toList.drop 6)) }
  else if IStartsWith header "Content-Encoding: gzip" then { hi with compressed := true }
  else hi

def headerInfo (headers : List String) : HeaderInfo := headers.foldl header_callback {}

/-- What libcurl makes of a request. Unless the transfer fails there are the status, the
headers, and the body as the write callback gets it. -/
inductive Transfer where
  | failed
  | completed (status : ℤ) (headers : List String) (body : String)

/-- The status that the caller gets: a `file:///` URL has none and counts as 200. -/
def httpCode (status : ℤ) : ℤ := if status = 0 then 200 else status

section Get
variable (zlib : Zlib)

/-- The text that `conditional_get` leaves in `*res`, which was empty, when it got something
back. -/
def payload (fuel : ℕ) (headers : List String) (body : String) : Except Fault String :=
  if (headerInfo headers).compressed then
    match uncompress_to zlib fuel body "" with
    | some res => .ok res
    | none => .error .unfinished
  else .ok body

/-- The result is the status, the new `*etag` and `*res`, which is empty before. -/
def conditional_get (fuel : ℕ) (reply : Transfer) (etag : String) :
    Except Fault (ℤ × String × String) :=
  match reply with
  | .failed => .ok (400, etag, "")
  | .completed status headers body => do
    let res ← if status ≠ 304 then payload zlib fuel headers body else .ok ""
    return (httpCode status, (headerInfo headers).etag, res)

theorem conditional_get_completed {fuel : ℕ} {status code : ℤ} {headers : List String}
    {body etag etag' res : String}
    (h : conditional_get zlib fuel (.completed status headers body) etag =
      .ok (code, etag', res)) :
    httpCode status = code ∧ (headerInfo headers).etag = etag' ∧
      (status ≠ 304 → payload zlib fuel headers body = .ok res) := by
  rw [conditional_get] at h
  split at h
  · obtain ⟨text, htext, h⟩ := bind_eq_ok.mp h
    obtain ⟨hcode, hetag, rfl⟩ : httpCode status = code ∧ (headerInfo headers).etag = etag' ∧
        text = res := by
      simpa using Except.ok.inj h
    exact ⟨hcode, hetag, fun _ => htext⟩
  · rename_i hstatus
    have hr : (httpCode status, (headerInfo headers).etag, "") = (code, etag', res) :=
      Except.ok.inj h
    exact ⟨congrArg Prod.fst hr, congrArg (·.2.1) hr, fun h304 => absurd h304 hstatus⟩

def Decoded (headers : List String) (body text : String) : Prop :=
  if (headerInfo headers).compressed then
    ∃ fuel, inflate_string zlib fuel "" body = some (.Z_OK, text)
  else text = body

/-- Either the text is the one that the body stands for, or inflating failed and the text
is empty. -/
theorem payload_cases {fuel : ℕ} {headers : List String} {body text : String}
    (h : payload zlib fuel headers body = .ok text) :
    Decoded zlib headers body text ∨ (∀ text', ¬ Decoded zlib headers body text') ∧ text = "" := by
  unfold payload uncompress_to at h
  unfold Decoded
  by_cases hcompressed : (headerInfo headers).compressed = true
  · simp only [if_pos hcompressed] at h ⊢
    cases hinflate : inflate_string zlib fuel "" body with
    | none => simp [hinflate] at h
    | some r =>
      obtain ⟨code, dest⟩ := r
      have hdest : dest = text := by simpa [hinflate] using h
      subst hdest
      by_cases hcode : code = .Z_OK
      · subst hcode
        exact Or.inl ⟨fuel, hinflate⟩
      · refine Or.inr ⟨?_, inflate_string_dest zlib hinflate hcode⟩
        rintro text' ⟨fuel', htext'⟩
        exact hcode (congrArg Prod.fst (inflate_string_unique zlib hinflate htext'))
  · simp only [if_neg hcompressed] at h ⊢
    exact Or.inl (Except.ok.inj h).symm

theorem Decoded.unique {headers : List String} {body text text' : String}
    (h : Decoded zlib headers body text) (h' : Decoded zlib headers body text') : text = text' := by
  unfold Decoded at h h'
  split at h
  · rename_i hcompressed
    rw [if_pos hcompressed] at h'
    obtain ⟨fuel, h⟩ := h
    obtain ⟨fuel', h'⟩ := h'
    exact congrArg Prod.snd (inflate_string_unique zlib h h')
  · rename_i hcompressed
    rw [if_neg hcompressed] at h'
    exact h.trans h'.symm

theorem payload_of_decoded {fuel : ℕ} {headers : List String} {body text text' : String}
    (h : payload zlib fuel headers body = .ok text') (hdecoded : Decoded zlib headers body text) :
    text' = text := by
  rcases payload_cases zlib h with htext' | ⟨hnone, _⟩
  · exact Decoded.unique zlib htext' hdecoded
  · exact absurd hdecoded (hnone text)

end Get

end AtlasNative
