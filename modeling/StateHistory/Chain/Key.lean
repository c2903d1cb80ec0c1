import StateHistory.Binary.Decoder

/-! # Keys and signatures

A public key and a signature start with the kind of their curve. A key holds 33 bytes and a signature
65; a key of the kind for web authentication adds a flag and the name of the relying party, such a
signature adds the authenticator's data and the client's document. The text shows the kind and the
bytes, without the lengths of the parts. -/

namespace StateHistory.Key

/-- The kinds of keys, by their tags. -/
def kinds : List String := ["K1", "R1", "WA"]

/-- The tag of a key for web authentication. -/
def webTag : UInt32 := 2

/-- The text of a key or a signature. An unknown kind is noticed only after its bytes are read. -/
def render (mark : String) (tag : UInt32) (bytes : Bytes) : Decoder String :=
  match kinds[tag.toNat]? with
  | some kind => return mark ++ "_" ++ kind ++ ":" ++ bytes.toHex
  | none => throw (.invalidVariantIndex "key type" tag)

/-- Reads a public key as its text. -/
def publicDecoder : Decoder String := do
  let tag ← Decoder.varuint32
  let point ← Decoder.bytes 33
  if tag = webTag then
    let presence ← Decoder.uint8
    let party ← Decoder.string
    render "PUB" tag (point ++ presence :: Bytes.ofText party)
  else render "PUB" tag point

/-- Reads a signature as its text. -/
def signatureDecoder : Decoder String := do
  let tag ← Decoder.varuint32
  let compact ← Decoder.bytes 65
  if tag = webTag then
    let authenticator ← Decoder.blob
    let client ← Decoder.string
    render "SIG" tag (compact ++ authenticator ++ Bytes.ofText client)
  else render "SIG" tag compact

end StateHistory.Key
