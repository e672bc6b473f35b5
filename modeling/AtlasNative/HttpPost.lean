import AtlasNative.Inflate
import AtlasNative.SubscriptionPayload

/-!
# Posting compressed documents

`http::post` and `setup_handle_for_post` compress a document in the same way and hand the
buffer to curl, with the number of bytes to send. A buffer from `new char[]` holds whatever
was in the heap, and zlib is what it says about one call of `deflate`.
-/

namespace AtlasNative

set_option autoImplicit false

/-- What a call of `deflate` leaves: the stream, and the output it has written. -/
structure Deflated (Stream : Type) where
  ret : ZResult
  stream : Stream
  written : List Char

/-- zlib: `deflateInit2`, `deflate` with `Z_FINISH`, the input and `avail_out`, and
`deflateEnd`. -/
structure Deflater where
  Stream : Type
  compressBound : ℕ → ℕ
  le_compressBound : ∀ size, size ≤ compressBound size
  deflateInit2 : ZResult × Stream
  deflate : Stream → List Char → ℕ → Deflated Stream
  written_le : ∀ stream next_in avail_out,
    (deflate stream next_in avail_out).written.length ≤ avail_out
  deflateEnd : Stream → ZResult

def kGzipHeaderSize : ℕ := 16

structure Compressed where
  ret : ZResult
  dest : List Char
  destLen : ℕ

/-- `avail_in` and `avail_out` have 32 bits. -/
def gzip_compress (zlib : Deflater) (dest : List Char) (destLen : ℕ) (source : List Char) :
    Compressed :=
  match zlib.deflateInit2 with
  | (.Z_OK, stream) =>
    let next_in := source.take (source.length % 2 ^ 32)
    let step := zlib.deflate stream next_in (destLen % 2 ^ 32)
    let dest := step.written ++ dest.drop step.written.length
    if step.ret = .Z_STREAM_END then
      ⟨zlib.deflateEnd step.stream, dest, step.written.length⟩
    else ⟨if step.ret = .Z_OK then .Z_BUF_ERROR else step.ret, dest, destLen⟩
  | (err, _) => ⟨err, dest, destLen⟩

def new_char (heap : ℕ → Char) (size : ℕ) : List Char := (List.range size).map heap

/-- What `post_payload` sets on a handle. -/
structure PostFields where
  POSTFIELDS : List Char
  POSTFIELDSIZE : ℕ

def PostFields.body (fields : PostFields) : List Char := fields.POSTFIELDS.take fields.POSTFIELDSIZE

section Post
/-! `JsonGetString` is the writer of rapidjson. -/
variable (zlib : Deflater) (JsonGetString : JsonValue → String) (heap : ℕ → Char)

namespace http

def post (payload : List Char) (size : ℕ) : Option PostFields :=
  let compressed_size := zlib.compressBound size + kGzipHeaderSize
  let compressed := gzip_compress zlib (new_char heap compressed_size) compressed_size payload
  if compressed.ret = .Z_OK then some ⟨compressed.dest, compressed.destLen⟩ else none

/-- The overload of `post` for a document. -/
def post_document (payload : JsonValue) : Option PostFields :=
  let c_str := (c_str (JsonGetString payload)).toList
  post zlib heap c_str c_str.length

def setup_handle_for_post (doc : JsonValue) : Option PostFields :=
  let payload := (c_str (JsonGetString doc)).toList
  let size := payload.length
  let compressed_size := zlib.compressBound size + kGzipHeaderSize
  let compressed := gzip_compress zlib (new_char heap compressed_size) compressed_size payload
  -- the size is the one before the compression
  if compressed.ret = .Z_OK then some ⟨compressed.dest, size⟩ else none

end http

end Post

section Compress
variable {zlib : Deflater}

/-- `gzip_compress` fails, or writes some bytes, no more than fit, to the front of the
buffer and says how many. What it does depends on the input only. -/
theorem gzip_compress_cases (destLen : ℕ) (source : List Char) :
    (∀ dest, (gzip_compress zlib dest destLen source).ret ≠ .Z_OK) ∨
      ∃ written : List Char, written.length ≤ destLen ∧ ∀ dest,
        gzip_compress zlib dest destLen source =
          ⟨.Z_OK, written ++ dest.drop written.length, written.length⟩ := by
  unfold gzip_compress
  obtain ⟨err, stream⟩ := zlib.deflateInit2
  cases err with
  | Z_OK =>
    dsimp only
    have hle := zlib.written_le stream (source.take (source.length % 2 ^ 32)) (destLen % 2 ^ 32)
    generalize zlib.deflate stream (source.take (source.length % 2 ^ 32)) (destLen % 2 ^ 32) =
      step at hle ⊢
    by_cases hend : step.ret = .Z_STREAM_END
    · simp only [if_pos hend]
      by_cases hok : zlib.deflateEnd step.stream = .Z_OK
      · rw [hok]
        exact Or.inr ⟨step.written, hle.trans (Nat.mod_le _ _), fun _ => rfl⟩
      · exact Or.inl fun _ => hok
    · simp only [if_neg hend]
      apply Or.inl
      intro _
      split
      · exact ZResult.noConfusion
      · assumption
  | _ => exact Or.inl fun _ => ZResult.noConfusion

theorem length_new_char (heap : ℕ → Char) (size : ℕ) : (new_char heap size).length = size := by
  rw [new_char, List.length_map, List.length_range]

theorem take_append_eq_iff {written rest : List Char} {size : ℕ}
    (h : size ≤ (written ++ rest).length) :
    (written ++ rest).take size = written ↔ written.length = size := by
  constructor
  · intro heq
    rw [← congrArg List.length heq, List.length_take, Nat.min_eq_left h]
  · rintro rfl
    exact List.take_left

end Compress

/-! What the two ways of posting send. -/

section Bodies
variable (zlib : Deflater) (JsonGetString : JsonValue → String)

def compressedBytes (doc : JsonValue) : Option (List Char) :=
  let payload := (c_str (JsonGetString doc)).toList
  let destLen := zlib.compressBound payload.length + kGzipHeaderSize
  let compressed := gzip_compress zlib (new_char (fun _ => nul) destLen) destLen payload
  if compressed.ret = .Z_OK then some (compressed.dest.take compressed.destLen) else none

/-- Both paths send exactly the bytes that `gzip_compress` produces, whatever was in the
heap. -/
structure SameBody (doc : JsonValue) : Prop where
  post : ∀ heap, (http.post_document zlib JsonGetString heap doc).map PostFields.body =
    compressedBytes zlib JsonGetString doc
  post_batches : ∀ heap,
    (http.setup_handle_for_post zlib JsonGetString heap doc).map PostFields.body =
      compressedBytes zlib JsonGetString doc

theorem sameBody_of_failure {doc : JsonValue} {payload : List Char}
    (hpayload : (c_str (JsonGetString doc)).toList = payload)
    (hfail : ∀ dest, (gzip_compress zlib dest
      (zlib.compressBound payload.length + kGzipHeaderSize) payload).ret ≠ .Z_OK) :
    compressedBytes zlib JsonGetString doc = none ∧ SameBody zlib JsonGetString doc := by
  have hnone : compressedBytes zlib JsonGetString doc = none := by
    simp only [compressedBytes, hpayload]
    exact if_neg (hfail _)
  refine ⟨hnone, ?_, ?_⟩
  · intro heap
    simp only [hnone, http.post_document, http.post, hpayload]
    rw [if_neg (hfail _)]
    rfl
  · intro heap
    simp only [hnone, http.setup_handle_for_post, hpayload]
    rw [if_neg (hfail _)]
    rfl

theorem bodies_of_success {doc : JsonValue} {payload written : List Char}
    (hpayload : (c_str (JsonGetString doc)).toList = payload)
    (hok : ∀ dest, gzip_compress zlib dest
      (zlib.compressBound payload.length + kGzipHeaderSize) payload =
        ⟨.Z_OK, written ++ dest.drop written.length, written.length⟩) :
    compressedBytes zlib JsonGetString doc = some written ∧
      (∀ heap, (http.post_document zlib JsonGetString heap doc).map PostFields.body =
        some written) ∧
      ∀ heap, (http.setup_handle_for_post zlib JsonGetString heap doc).map PostFields.body =
        some written ↔ written.length = payload.length := by
  refine ⟨?_, ?_, ?_⟩
  · simp only [compressedBytes, hpayload, hok, if_true, List.take_left]
  · intro heap
    simp only [http.post_document, http.post, hpayload, hok, if_true, Option.map_some,
      PostFields.body, List.take_left]
  · intro heap
    simp only [http.setup_handle_for_post, hpayload, hok, if_true, Option.map_some,
      PostFields.body, Option.some.injEq]
    apply take_append_eq_iff
    have hbound := zlib.le_compressBound payload.length
    rw [List.length_append, List.length_drop, length_new_char]
    omega

/-- The bodies are the same exactly when the compression fails, or makes a document neither
shorter nor longer. -/
theorem same_body_iff (doc : JsonValue) :
    SameBody zlib JsonGetString doc ↔
      ∀ bytes, compressedBytes zlib JsonGetString doc = some bytes →
        bytes.length = (c_str (JsonGetString doc)).toList.length := by
  generalize hpayload : (c_str (JsonGetString doc)).toList = payload
  have hcases := @gzip_compress_cases zlib (zlib.compressBound payload.length + kGzipHeaderSize)
    payload
  rcases hcases with hfail | ⟨written, _, hok⟩
  · obtain ⟨hnone, hsame⟩ := sameBody_of_failure zlib JsonGetString hpayload hfail
    apply iff_of_true hsame
    intro bytes hbytes
    rw [hnone] at hbytes
    cases hbytes
  · obtain ⟨hbytes, hpost, hsetup⟩ := bodies_of_success zlib JsonGetString hpayload hok
    rw [hbytes]
    constructor
    · intro h bytes heq
      cases heq
      exact (hsetup fun _ => nul).mp ((h.post_batches fun _ => nul).trans hbytes)
    · intro h
      exact ⟨fun heap => (hpost heap).trans hbytes.symm,
        fun heap => ((hsetup heap).mpr (h written rfl)).trans hbytes.symm⟩

end Bodies

def emptyObjectDeflater : Deflater where
  Stream := Unit
  compressBound size := size + size / 2 ^ 12 + size / 2 ^ 14 + size / 2 ^ 25 + 13
  le_compressBound size := by omega
  deflateInit2 := (.Z_OK, ())
  deflate _ next_in avail_out :=
    if next_in = ['{', '}'] ∧ 22 ≤ avail_out then
      ⟨.Z_STREAM_END, (), emptyObjectGzip⟩
    else ⟨.Z_STREAM_ERROR, (), []⟩
  written_le _ next_in avail_out := by
    split
    · rename_i h
      exact h.2
    · exact Nat.zero_le _
  deflateEnd _ := .Z_OK

theorem empty_object_is_cut :
    ¬ SameBody emptyObjectDeflater (fun _ => "{}") (.object []) := by
  intro h
  have hbatches := h.post_batches fun _ => nul
  revert hbatches
  decide

end AtlasNative
