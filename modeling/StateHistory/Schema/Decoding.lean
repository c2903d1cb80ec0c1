import StateHistory.Schema.Catalog

/-! # Decoding by schema

`Catalog.read` turns bytes into JSON as a type reference and a catalog say. A value may contain values,
and every step inward (past a modifier, through an alias, into a field, an item or a case) takes one
of a limited number of levels; a reference met without a level left is an error before anything is
read.

* An optional value is `null` or the value, an array is a list after its count.
* A struct is an object. Fields marked with `$` may be missing at the end of the input: the first one
  that is met there ends the struct.
* A variant is a pair of the case's name and its value.
* A value marked with `$` outside a struct is `null` at the end of the input. -/

namespace StateHistory.Schema

/-- How many levels a value may have. -/
def maxLevels : Nat := 32

/-- Reads the fields of a struct onto the members read so far. -/
def readFields (read : TypeRef → Decoder Json) :
    List Field → (members : List (String × Json)) → Decoder (List (String × Json))
  | [], members => return members
  | field :: fields, members => do
    if field.type.isExtension && (← Decoder.atEnd) then return members
    else
      let value ← read field.type
      readFields read fields (Json.insertMember field.name value members)

namespace Catalog

/-- Reads a value of the given type, with the given number of levels left. -/
def readWithin (c : Catalog) : (levels : Nat) → TypeRef → Decoder Json
  | 0, _ => throw .recursionLimit
  | levels + 1, .optional inner => do
    if ← Decoder.bool then c.readWithin levels inner else return .null
  | levels + 1, .array inner => do
    return .array (← Decoder.vector (c.readWithin levels inner))
  | levels + 1, .extension inner => do
    if ← Decoder.atEnd then return .null else c.readWithin levels inner
  | levels + 1, .named name =>
    match c.find? name with
    | none => throw (.unknownType name)
    | some (.builtin type) => type.decoder
    | some (.alias target) => c.readWithin levels target
    | some (.struct fields) => return .object (← readFields (c.readWithin levels) fields [])
    | some (.variant cases) => do
      let tag ← Decoder.varuint32
      match cases[tag.toNat]? with
      | none => throw (.invalidVariantIndex name tag)
      | some case => return .array [.string case.render, ← c.readWithin levels case]

/-- Reads a value of the given type. -/
def read (c : Catalog) (type : TypeRef) : Decoder Json := c.readWithin maxLevels type

/-- The value of the given type at the front of a byte string. -/
def toJson (c : Catalog) (type : String) (bytes : Bytes) : Except ProtocolError Json :=
  (c.read (TypeRef.parse type)).decode bytes

end Catalog

end StateHistory.Schema
