import StateHistory.Log
import StateHistory.Message.Encoding
import StateHistory.Schema.Decoding

/-! # Frames

The first frame of a session is a schema document, every later one is a result. The tag of a result is
its place in the schema's `result` variant, and the tag of a request its place in the schema's
`request` variant, so a node may order and extend its variants at will. Without a schema a request
carries its canonical tag. -/

namespace StateHistory.Frame

open Schema

/-- The variant of the frames that a node sends. -/
def resultVariant : String := "result"

/-- The variant of the frames that a client sends. -/
def requestVariant : String := "request"

/-! ### Schemas -/

/-- The catalog of a document, and a report for every table it leaves out. -/
def catalogOf (d : Document) : Except ProtocolError (Catalog × List LogEntry) := do
  let c ← Catalog.ofDocument d
  return (c, (c.droppedTables d).map fun (name, e) =>
    ⟨.warn, s!"ignoring table {name}: {e.message}"⟩)

/-- The catalog of a schema frame, and a report for every table it leaves out. -/
def parseSchema (frame : Bytes) : Except ProtocolError (Catalog × List LogEntry) :=
  match frame.toText? with
  | none => .error .invalidUtf8
  | some text => do catalogOf (← Document.parse text)

/-! ### Results -/

/-- Reads a result whose case is the given type. -/
def bodyDecoder (type : String) : Decoder Result := do
  if type = Result.statusType then return .status (← ChainStatus.decoder)
  else if type = Result.blocksType then return .blocks (← BlockReport.decoder)
  else throw (.unsupportedResult type)

/-- Reads a result under the tags of a catalog. -/
def resultDecoder (c : Catalog) : Decoder Result := do
  let tag ← Decoder.varuint32
  match c.variantCase resultVariant tag with
  | .ok case => bodyDecoder case.render
  | .error e => throw e

/-- The result of a frame, and a report if bytes follow it. -/
def decodeResult (c : Catalog) (frame : Bytes) : Except ProtocolError (Result × List LogEntry) :=
  match (resultDecoder c).outcome frame with
  | (.ok result, []) => .ok (result, [])
  | (.ok result, rest) =>
    .ok (result,
      [⟨.debug, s!"ignoring {rest.length} trailing bytes after {result.typeName}"⟩])
  | (.error e, _) => .error e

/-! ### Requests -/

/-- The tag of a request in a session with or without a catalog. -/
def requestTag (catalog : Option Catalog) (request : Request) : Except ProtocolError UInt32 :=
  match catalog with
  | some c => c.variantTag requestVariant request.typeName
  | none => .ok request.canonicalTag

/-- The frame of a request. A node that does not list the request's type cannot be sent it. -/
def encodeRequest (catalog : Option Catalog) (request : Request) : Except ProtocolError Bytes := do
  return request.encodeWithTag (← requestTag catalog request)

end StateHistory.Frame
