import StateHistory.Chain.Asset
import StateHistory.Chain.Calendar
import StateHistory.Chain.Key
import StateHistory.Chain.Name
import StateHistory.Json.Value

/-! # Builtin types

The types that every schema can refer to without declaring them, and their readers.

* Numbers of more than 32 bits are written as decimal texts, since a JSON reader may hold numbers as
  doubles.
* Bytes of any kind are written in hexadecimal.
* Instants are written as dates (`StateHistory.Instant`). -/

namespace StateHistory.Schema

/-- A builtin type. -/
inductive Builtin where
  | bool | int8 | uint8 | int16 | uint16 | int32 | uint32 | int64 | uint64 | int128 | uint128
  | varint32 | varuint32 | float32 | float64 | float128
  | timePoint | timePointSec | blockTimestamp
  | name | bytes | string | checksum160 | checksum256 | checksum512
  | publicKey | signature | symbolCode | symbol | asset | extendedAsset
deriving DecidableEq, Repr, Inhabited

namespace Builtin

/-- The names of the builtin types in a schema. -/
def table : List (String × Builtin) :=
  [("bool", bool), ("int8", int8), ("uint8", uint8), ("int16", int16), ("uint16", uint16),
   ("int32", int32), ("uint32", uint32), ("int64", int64), ("uint64", uint64),
   ("int128", int128), ("uint128", uint128), ("varint32", varint32), ("varuint32", varuint32),
   ("float32", float32), ("float64", float64), ("float128", float128),
   ("time_point", timePoint), ("time_point_sec", timePointSec),
   ("block_timestamp_type", blockTimestamp), ("name", name), ("bytes", bytes),
   ("string", string), ("checksum160", checksum160), ("checksum256", checksum256),
   ("checksum512", checksum512), ("public_key", publicKey), ("signature", signature),
   ("symbol_code", symbolCode), ("symbol", symbol), ("asset", asset),
   ("extended_asset", extendedAsset)]

/-! ### Readers -/

/-- A whole number. -/
def integer (d : Decoder Int) : Decoder Json := return .integer (← d)

/-- A whole number, as its decimal text. -/
def decimal (d : Decoder Int) : Decoder Json := return .string (toString (← d))

/-- Bytes, as their hexadecimal text. -/
def hex (d : Decoder Bytes) : Decoder Json := return .string (← d).toHex

/-- A text. -/
def text (d : Decoder String) : Decoder Json := return .string (← d)

/-- A number without sign, among the integers. -/
def natural (width : Nat) : Decoder Int := return (← Decoder.unsigned width)

/-- A floating-point number; what is no finite number is written as a text. -/
def floating (x : Binary64) : Json :=
  match x.view with
  | .finite .. => .number x
  | _ => .string (DecimalLayout.plain.render x)

/-- The instant that lies `micros` millionths of a second after the start of 1970, the millionths cut
to thousandths. -/
def instantOfMicros (micros : Int) : String :=
  Instant.render (micros / 1000000) (micros % 1000000 / 1000).toNat

/-- The start of the year 2000, in thousandths of a second after the start of 1970. -/
def blockEpoch : Nat := 946684800000

/-- The instant of a count of half seconds since the start of the year 2000. -/
def instantOfBlock (slot : Nat) : String :=
  let millis := slot * 500 + blockEpoch
  Instant.render (millis / 1000 : Nat) (millis % 1000)

/-- An asset beside the account that issues it. -/
def extendedAssetDecoder : Decoder Json := do
  let quantity ← Asset.decoder
  let contract ← Decoder.uint64
  return Json.ofMembers
    [("quantity", .string quantity), ("contract", .string (Name.render contract))]

/-- The reader of a builtin type. -/
def decoder : Builtin → Decoder Json
  | bool => return .bool (← Decoder.bool)
  | int8 => integer (Decoder.signed 1)
  | uint8 => integer (natural 1)
  | int16 => integer (Decoder.signed 2)
  | uint16 => integer (natural 2)
  | int32 => integer (Decoder.signed 4)
  | uint32 => integer (natural 4)
  | int64 => decimal (Decoder.signed 8)
  | uint64 => decimal (natural 8)
  | int128 => decimal (Decoder.signed 16)
  | uint128 => decimal (natural 16)
  | varint32 => integer Decoder.varint32
  | varuint32 => return .integer (← Decoder.varuint32).toNat
  | float32 => return floating (Binary64.ofBinary32 (← Decoder.uint32))
  | float64 => return floating ⟨← Decoder.uint64⟩
  | float128 => hex (Decoder.bytes 16)
  | timePoint => return .string (instantOfMicros (← Decoder.signed 8))
  | timePointSec => return .string (Instant.render (← Decoder.unsigned 4) 0)
  | blockTimestamp => return .string (instantOfBlock (← Decoder.unsigned 4))
  | name => return .string (Name.render (← Decoder.uint64))
  | bytes => hex Decoder.blob
  | string => text Decoder.string
  | checksum160 => hex (Decoder.bytes 20)
  | checksum256 => hex (Decoder.bytes 32)
  | checksum512 => hex (Decoder.bytes 64)
  | publicKey => text Key.publicDecoder
  | signature => text Key.signatureDecoder
  | symbolCode => return .string (Symbol.renderCode (← Decoder.uint64))
  | symbol => return .string (Symbol.render (← Decoder.uint64))
  | asset => text Asset.decoder
  | extendedAsset => extendedAssetDecoder

end Builtin

end StateHistory.Schema
