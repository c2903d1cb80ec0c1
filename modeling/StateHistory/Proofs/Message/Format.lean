import StateHistory.Proofs.Message.Reading
import StateHistory.Proofs.Message.Spelling

/-! # Writing and reading are inverse

`Format` names the types that have a binary form: flags, numbers, checksums, blobs, texts, the messages, and
whatever is made of them with `option` and `vector`. By induction on it, everything that is written is read
back, whatever follows (`Format.outcome_encode_append`), and whatever is read is written as the shortest of
the forms that it could have been read off (`Format.encode_of_outcome`). Whatever the form, it depends on no
byte behind it, and it cannot be cut short (`Format.outcome_local`). -/

namespace StateHistory

/-- A type of values in the binary format. -/
inductive Format where
  | bool | uint32 | checksum | bytes | string
  | position | status | report | blocksRequest | request
  | option (item : Format)
  | vector (item : Format)

namespace Format

/-- The values of a type. -/
def Value : Format → Type
  | bool => Bool
  | uint32 => UInt32
  | checksum => Checksum256
  | bytes => Bytes
  | string => String
  | position => BlockPosition
  | status => ChainStatus
  | report => BlockReport
  | blocksRequest => BlocksRequest
  | request => Request
  | option item => Option item.Value
  | vector item => List item.Value

/-- Writes a value. -/
def encode : (f : Format) → f.Value → Bytes
  | bool => Encoder.bool
  | uint32 => Encoder.uint32
  | checksum => Bytes.Block.bytes
  | bytes => Encoder.blob
  | string => Encoder.string
  | position => BlockPosition.encode
  | status => ChainStatus.encode
  | report => BlockReport.encode
  | blocksRequest => BlocksRequest.encode
  | request => Request.encode
  | option item => Encoder.option item.encode
  | vector item => Encoder.vector item.encode

/-- Reads a value. -/
def decoder : (f : Format) → Decoder f.Value
  | bool => Decoder.bool
  | uint32 => Decoder.uint32
  | checksum => Decoder.exact 32
  | bytes => Decoder.blob
  | string => Decoder.string
  | position => BlockPosition.decoder
  | status => ChainStatus.decoder
  | report => BlockReport.decoder
  | blocksRequest => BlocksRequest.decoder
  | request => Request.decoder
  | option item => Decoder.option item.decoder
  | vector item => Decoder.vector item.decoder

/-- All lengths and counts in a value have a place in the format. -/
def Fits : (f : Format) → f.Value → Prop
  | bytes, bs => List.length bs < 0x100000000
  | string, s => (Bytes.ofText s).length < 0x100000000
  | report, r => BlockReport.Fits r
  | blocksRequest, r => BlocksRequest.Fits r
  | request, r => Request.Fits r
  | option item, o => ∀ v, o = some v → item.Fits v
  | vector item, vs => List.length vs < 0x100000000 ∧ ∀ v ∈ (show List item.Value from vs), item.Fits v
  | _, _ => True

/-- The forms of a value. -/
def spelling : (f : Format) → f.Value → Spelling
  | bytes => Spelling.blob
  | string => fun s => Spelling.blob (Bytes.ofText s)
  | report => BlockReport.spelling
  | blocksRequest => BlocksRequest.spelling
  | request => Request.spelling
  | option item => Spelling.option item.spelling
  | vector item => Spelling.vector item.spelling
  | f => fun v => .exactly (f.encode v)

theorem accepts_decoder (f : Format) : f.decoder.Accepts f.spelling := by
  induction f with
  | bool => exact Decoder.recognizes_bool.accepts
  | uint32 => exact Decoder.recognizes_uint32.accepts
  | checksum => exact (Decoder.recognizes_exact 32).accepts
  | bytes => exact Decoder.accepts_blob
  | string => exact Decoder.accepts_string
  | position => exact BlockPosition.accepts_decoder
  | status => exact ChainStatus.accepts_decoder
  | report => exact BlockReport.accepts_decoder
  | blocksRequest => exact BlocksRequest.accepts_decoder
  | request => exact Request.accepts_decoder
  | option item ih => exact ih.option
  | vector item ih => exact ih.vector

theorem allows_encode (f : Format) {v : f.Value} (h : f.Fits v) : (f.spelling v).Allows (f.encode v) := by
  induction f with
  | bytes => exact Spelling.allows_blob h
  | string => exact Spelling.allows_blob h
  | report => exact BlockReport.allows_encode h
  | blocksRequest => exact BlocksRequest.allows_encode h
  | request => exact Request.allows_encode h
  | option item ih => exact Spelling.allows_option fun v hv => ih (h v hv)
  | vector item ih => exact Spelling.allows_vector h.1 fun v hv => ih (h.2 v hv)
  | _ => exact Spelling.allows_exactly _

theorem shortens_encode (f : Format) (v : f.Value) : (f.spelling v).Shortens (f.encode v) := by
  induction f with
  | bytes => exact Spelling.shortens_blob v
  | string => exact Spelling.shortens_blob _
  | report => exact BlockReport.shortens_encode v
  | blocksRequest => exact BlocksRequest.shortens_encode v
  | request => exact Request.shortens_encode v
  | option item ih => exact Spelling.shortens_option ih v
  | vector item ih => exact Spelling.shortens_vector ih v
  | _ => exact Spelling.shortens_exactly _

/-- What is written is read back, whatever follows it. -/
theorem outcome_encode_append (f : Format) {v : f.Value} (h : f.Fits v) (s : Bytes) :
    f.decoder.outcome (f.encode v ++ s) = (.ok v, s) :=
  Decoder.outcome_eq_ok_iff.mpr (f.accepts_decoder.complete (f.allows_encode h) s)

/-- A request with two hundred positions. -/
def sampleRequest : Request := .blocks (.streamFrom 9 (.replicate 200 ⟨7, .fill 32 0xab⟩))

/-- The number of positions takes two bytes here. In the second value an item is absent. -/
theorem outcome_encode_samples :
    Request.decoder.outcome (sampleRequest.encode ++ [0xff]) = (.ok sampleRequest, [0xff]) ∧
      (Decoder.vector (Decoder.option Decoder.bool)).outcome
          (Encoder.vector (Encoder.option Encoder.bool) [some false, none] ++ [0xff]) =
        (.ok [some false, none], [0xff]) := by
  have hpositions : sampleRequest.Fits := Nat.lt_of_le_of_lt (Nat.le_of_eq List.length_replicate) (by decide)
  have hitems : Fits (.vector (.option .bool)) [some false, none] := ⟨by decide, fun _ _ _ _ => trivial⟩
  exact ⟨outcome_encode_append .request hpositions [0xff],
    outcome_encode_append (.vector (.option .bool)) hitems [0xff]⟩

/-- What is read is written as the shortest of its forms: it is no longer than the part `w` of the input that
was read, it is read as the same value, and it is that part exactly if all numbers in that part are in their
shortest form. -/
theorem encode_of_outcome (f : Format) {input rest : Bytes} {v : f.Value}
    (h : f.decoder.outcome input = (.ok v, rest)) :
    ∃ w, input = w ++ rest ∧ (f.encode v).length ≤ w.length ∧ f.decoder.outcome (f.encode v) = (.ok v, []) ∧
      (∃ numbers, f.spelling v w numbers) ∧
      (∀ numbers, f.spelling v w numbers → (f.encode v = w ↔ ∀ n ∈ numbers, Encoder.Shortest n)) ∧
      (f = .position ∨ f = .status → f.encode v = w) ∧
      (f.decoder.decode (f.encode v)).map f.encode = .ok (f.encode v) := by
  obtain ⟨w, hsplit, numbers, hw⟩ := f.accepts_decoder.sound (Decoder.outcome_eq_ok_iff.mp h)
  have hshortens := f.shortens_encode v
  have hback : f.decoder.outcome (f.encode v) = (.ok v, []) := by
    have hrun := f.accepts_decoder.complete (hshortens.allows hw) []
    rw [List.append_nil] at hrun
    exact Decoder.outcome_eq_ok_iff.mpr hrun
  refine ⟨w, hsplit, hshortens.length_le hw, hback, ⟨numbers, hw⟩, fun _ hnumbers => hshortens.eq_iff hnumbers,
    ?_, ?_⟩
  · rintro (rfl | rfl) <;> exact hw.1.symm
  · rw [Decoder.decode, hback]
    rfl

/-- An acknowledgement whose tag is padded is read as one whose tag is not. -/
theorem encode_of_outcome_padded :
    Request.decoder.outcome [0x82, 0x00, 3, 0, 0, 0, 9] = (.ok (.acknowledge 3), [9]) ∧
      (Request.acknowledge 3).encode.length ≤ 6 ∧
      Request.decoder.outcome (Request.acknowledge 3).encode = (.ok (.acknowledge 3), []) := by
  have hread : Request.decoder.outcome [0x82, 0x00, 3, 0, 0, 0, 9] = (.ok (.acknowledge 3), [9]) := by
    decide +kernel
  obtain ⟨w, hsplit, hlength, hback, -⟩ := encode_of_outcome .request hread
  obtain rfl : [0x82, 0x00, 3, 0, 0, 0] = w := List.append_cancel_right hsplit
  exact ⟨hread, hlength, hback⟩

/-! ### Cutting short -/

theorem plain_decoder (f : Format) : f.decoder.Plain := by
  induction f with
  | bool => exact Decoder.plain_bool
  | uint32 => exact Decoder.plain_uint32
  | checksum => exact .exact 32
  | bytes => exact Decoder.plain_blob
  | string => exact Decoder.plain_string
  | position => exact BlockPosition.plain_decoder
  | status => exact ChainStatus.plain_decoder
  | report => exact BlockReport.plain_decoder
  | blocksRequest => exact BlocksRequest.plain_decoder
  | request => exact Request.plain_decoder
  | option item ih => exact ih.option
  | vector item ih => exact ih.vector

/-- The part `w` of an input that a value was read off is read as this value in front of every other byte
string, and wherever it is cut, what comes before the cut is too short and nothing else. -/
theorem outcome_local (f : Format) {input rest : Bytes} {v : f.Value}
    (h : f.decoder.outcome input = (.ok v, rest)) :
    ∃ w, input = w ++ rest ∧ (∀ s, f.decoder.outcome (w ++ s) = (.ok v, s)) ∧
      ∀ p, p <+: w → p ≠ w →
        ∃ needed remaining left, f.decoder.outcome p = (.error (.truncated needed remaining), left) :=
  f.plain_decoder.isLocal.outcome h

/-- A padded tag can be cut, too. -/
theorem outcome_local_padded :
    Request.decoder.outcome [0x82, 0x00, 3, 0, 0, 0, 9] = (.ok (.acknowledge 3), [9]) ∧
      (∀ s, Request.decoder.outcome ([0x82, 0x00, 3, 0, 0, 0] ++ s) = (.ok (.acknowledge 3), s)) ∧
      ∃ needed remaining left, Request.decoder.outcome [0x82] = (.error (.truncated needed remaining), left) := by
  have hread : Request.decoder.outcome [0x82, 0x00, 3, 0, 0, 0, 9] = (.ok (.acknowledge 3), [9]) := by
    decide +kernel
  obtain ⟨w, hsplit, hsame, hshort⟩ := outcome_local .request hread
  obtain rfl : [0x82, 0x00, 3, 0, 0, 0] = w := List.append_cancel_right hsplit
  exact ⟨hread, hsame, hshort [0x82] ⟨_, rfl⟩ nofun⟩

end Format

end StateHistory
