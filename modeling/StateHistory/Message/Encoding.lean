import StateHistory.Message.Basic
import StateHistory.Binary.Decoder
import StateHistory.Binary.Encoder

/-! # Messages as bytes

For every type of message a writer and a reader, field by field in the same order. A request and a
result are written as a tag and a body. The reader of a request knows the canonical tags only;
which tags a session uses is said by its schema (`StateHistory.Frame`). -/

namespace StateHistory

/-! ### Positions and ranges -/

namespace BlockPosition

/-- The bytes of a position. -/
def encode (p : BlockPosition) : Bytes := Encoder.uint32 p.number ++ p.id.bytes

/-- Reads a position. -/
def decoder : Decoder BlockPosition := do
  let number ← Decoder.uint32
  let id ← Decoder.exact 32
  return ⟨number, id⟩

end BlockPosition

namespace BlockRange

/-- The bytes of a range. -/
def encode (r : BlockRange) : Bytes := Encoder.uint32 r.first ++ Encoder.uint32 r.past

/-- Reads a range. -/
def decoder : Decoder BlockRange := do
  let first ← Decoder.uint32
  let past ← Decoder.uint32
  return ⟨first, past⟩

end BlockRange

/-! ### Results -/

namespace ChainStatus

/-- The bytes of a status. -/
def encode (s : ChainStatus) : Bytes :=
  s.head.encode ++ s.lastIrreversible.encode ++ s.traces.encode ++ s.chainState.encode

/-- Reads a status. -/
def decoder : Decoder ChainStatus := do
  let head ← BlockPosition.decoder
  let lastIrreversible ← BlockPosition.decoder
  let traces ← BlockRange.decoder
  let chainState ← BlockRange.decoder
  return ⟨head, lastIrreversible, traces, chainState⟩

end ChainStatus

namespace BlockReport

/-- The bytes of a block report. -/
def encode (r : BlockReport) : Bytes :=
  r.head.encode ++ r.lastIrreversible.encode
    ++ Encoder.option BlockPosition.encode r.block
    ++ Encoder.option BlockPosition.encode r.previous
    ++ Encoder.option Encoder.blob r.signedBlock
    ++ Encoder.option Encoder.blob r.traces
    ++ Encoder.option Encoder.blob r.deltas

/-- Reads a block report. -/
def decoder : Decoder BlockReport := do
  let head ← BlockPosition.decoder
  let lastIrreversible ← BlockPosition.decoder
  let block ← Decoder.option BlockPosition.decoder
  let previous ← Decoder.option BlockPosition.decoder
  let signedBlock ← Decoder.option Decoder.blob
  let traces ← Decoder.option Decoder.blob
  let deltas ← Decoder.option Decoder.blob
  return ⟨head, lastIrreversible, block, previous, signedBlock, traces, deltas⟩

end BlockReport

namespace Result

/-- The bytes of a result without its tag. -/
def encodeBody : Result → Bytes
  | status s => s.encode
  | blocks r => r.encode

/-- The bytes of a result with its canonical tag. -/
def encode (r : Result) : Bytes := Encoder.varuint32 r.canonicalTag ++ r.encodeBody

end Result

/-! ### Requests -/

namespace BlocksRequest

/-- The bytes of a request for blocks. -/
def encode (r : BlocksRequest) : Bytes :=
  Encoder.uint32 r.start ++ Encoder.uint32 r.stop ++ Encoder.uint32 r.maxMessagesInFlight
    ++ Encoder.vector BlockPosition.encode r.havePositions
    ++ Encoder.bool r.irreversibleOnly ++ Encoder.bool r.fetchBlock
    ++ Encoder.bool r.fetchTraces ++ Encoder.bool r.fetchDeltas

/-- Reads a request for blocks. -/
def decoder : Decoder BlocksRequest := do
  let start ← Decoder.uint32
  let stop ← Decoder.uint32
  let maxMessagesInFlight ← Decoder.uint32
  let havePositions ← Decoder.vector BlockPosition.decoder
  let irreversibleOnly ← Decoder.bool
  let fetchBlock ← Decoder.bool
  let fetchTraces ← Decoder.bool
  let fetchDeltas ← Decoder.bool
  return ⟨start, stop, maxMessagesInFlight, havePositions, irreversibleOnly, fetchBlock,
    fetchTraces, fetchDeltas⟩

end BlocksRequest

namespace Request

/-- The bytes of a request without its tag. -/
def encodeBody : Request → Bytes
  | status => []
  | blocks r => r.encode
  | acknowledge messages => Encoder.uint32 messages

/-- The bytes of a request under a given tag. -/
def encodeWithTag (tag : UInt32) (r : Request) : Bytes := Encoder.varuint32 tag ++ r.encodeBody

/-- The bytes of a request with its canonical tag. -/
def encode (r : Request) : Bytes := r.encodeWithTag r.canonicalTag

/-- Reads a request with its canonical tag. -/
def decoder : Decoder Request := do
  let tag ← Decoder.varuint32
  if tag = 0 then return .status
  else if tag = 1 then return .blocks (← BlocksRequest.decoder)
  else if tag = 2 then return .acknowledge (← Decoder.uint32)
  else throw (.invalidVariantIndex "request" tag)

end Request

end StateHistory
