/-! # Protocol errors

Everything that can be wrong with the bytes of a session, as causes. The wording of each cause is in
`ProtocolError.message` and nowhere else. Trying again against the same node mends none of them. -/

namespace StateHistory

/-- What can go wrong while bytes from a node, or for a node, are interpreted. -/
inductive ProtocolError where
  /-- A read asked for more bytes than were left. -/
  | truncated (needed remaining : Nat)
  /-- A flag byte other than 0 and 1. -/
  | invalidBool (byte : UInt8)
  /-- A variable-length number of more than 32 bits. -/
  | varintOverflow
  /-- A text that is not UTF-8. -/
  | invalidUtf8
  /-- A schema document that is no JSON text of the expected form. -/
  | malformedSchema
  /-- A schema version this library does not understand. -/
  | unsupportedVersion (version : String)
  /-- A type name declared twice. -/
  | redefinition (name : String)
  /-- A reference to a type that nobody declares. -/
  | unknownType (name : String)
  /-- A declared name that is empty or ends in a modifier. -/
  | invalidTypeName (name : String)
  /-- A base that is something other than a declared struct. -/
  | baseNotStruct (base owner : String)
  /-- A struct among its own bases, or too many bases. -/
  | recursiveBase (owner : String)
  /-- More aliases in a row than are followed. -/
  | aliasTooDeep (name : String)
  /-- A case was asked of a type without cases. -/
  | notVariant (name : String)
  /-- A tag beyond the cases of a variant. -/
  | invalidVariantIndex (variant : String) (index : UInt32)
  /-- A case that the variant does not list. -/
  | missingVariantCase (variant case : String)
  /-- A result frame in a session without a schema. -/
  | resultBeforeSchema
  /-- A result this library has no reader for. -/
  | unsupportedResult (type : String)
  /-- Values nested more deeply than the decoder follows. -/
  | recursionLimit
deriving DecidableEq, Repr

/-- The text of a protocol error. -/
def ProtocolError.message : ProtocolError → String
  | truncated needed remaining =>
    s!"stream ended: needed {needed} bytes, {remaining} remaining"
  | invalidBool byte => s!"invalid bool value {byte}"
  | varintOverflow => "varuint32 does not fit in 32 bits"
  | invalidUtf8 => "invalid utf8 in string"
  | malformedSchema => "abi is not valid json"
  | unsupportedVersion version => s!"unsupported abi version {version}"
  | redefinition name => s!"abi redefines {name}"
  | unknownType name => s!"unknown type {name}"
  | invalidTypeName name => s!"invalid type name \"{name}\""
  | baseNotStruct base owner => s!"base {base} of {owner} is not a struct"
  | recursiveBase owner => s!"recursive base in {owner}"
  | aliasTooDeep name => s!"alias chain too deep at {name}"
  | notVariant name => s!"{name} is not a variant"
  | invalidVariantIndex variant index => s!"invalid index {index} for variant {variant}"
  | missingVariantCase variant case => s!"variant {variant} has no case {case}"
  | resultBeforeSchema => "result received before the schema"
  | unsupportedResult type => s!"unsupported result {type}"
  | recursionLimit => "recursion limit reached"

end StateHistory
