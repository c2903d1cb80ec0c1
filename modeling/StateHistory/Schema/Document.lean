import StateHistory.Json.Tree
import StateHistory.ProtocolError

/-! # Schema documents

The document that a node sends first: aliases, structs, variants and tables, as they are declared.

A document is a JSON text. Members that this library does not know are passed over, whatever they
hold; a known member that is repeated, missing without a default, or of another form spoils the
document. Every record may also be written as the list of its members in the order of its
declaration here. -/

namespace StateHistory.Schema

/-- Another name for a type. -/
structure AliasDef where
  name : String
  target : String
deriving DecidableEq, Repr

/-- A member of a struct. -/
structure FieldDef where
  name : String
  type : String
deriving DecidableEq, Repr

/-- A struct. Its fields follow those of its base, which is the empty text when there is none. -/
structure StructDef where
  name : String
  base : String
  fields : List FieldDef
deriving DecidableEq, Repr

/-- A choice among types. -/
structure VariantDef where
  name : String
  cases : List String
deriving DecidableEq, Repr

/-- A table of the node and the type of its rows. -/
structure TableDef where
  name : String
  type : String
  keyNames : List String
deriving DecidableEq, Repr

/-- A schema document. -/
structure Document where
  version : String
  aliases : List AliasDef
  structs : List StructDef
  variants : List VariantDef
  tables : List TableDef
deriving DecidableEq, Repr

open Json

/-- The value of a member that may be missing. -/
def orDefault {α : Type} (default : α) (read : Tree → Option α) : Option Tree → Option α
  | some tree => read tree
  | none => some default

/-- The value of a member that has to be there. -/
def required {α : Type} (read : Tree → Option α) (member : Option Tree) : Option α :=
  member.bind read

/-- Reads an alias. -/
def AliasDef.ofTree? (tree : Tree) : Option AliasDef := do
  match ← tree.record? ["new_type_name", "type"] with
  | [name, target] => return ⟨← required Tree.string? name, ← required Tree.string? target⟩
  | _ => none

/-- Reads a field. -/
def FieldDef.ofTree? (tree : Tree) : Option FieldDef := do
  match ← tree.record? ["name", "type"] with
  | [name, type] => return ⟨← required Tree.string? name, ← required Tree.string? type⟩
  | _ => none

/-- Reads a struct. -/
def StructDef.ofTree? (tree : Tree) : Option StructDef := do
  match ← tree.record? ["name", "base", "fields"] with
  | [name, base, fields] =>
    return ⟨← required Tree.string? name, ← orDefault "" Tree.string? base,
      ← orDefault [] (Tree.list? FieldDef.ofTree?) fields⟩
  | _ => none

/-- Reads a variant. -/
def VariantDef.ofTree? (tree : Tree) : Option VariantDef := do
  match ← tree.record? ["name", "types"] with
  | [name, cases] =>
    return ⟨← required Tree.string? name, ← orDefault [] (Tree.list? Tree.string?) cases⟩
  | _ => none

/-- Reads a table. -/
def TableDef.ofTree? (tree : Tree) : Option TableDef := do
  match ← tree.record? ["name", "type", "key_names"] with
  | [name, type, keyNames] =>
    return ⟨← orDefault "" Tree.string? name, ← orDefault "" Tree.string? type,
      ← orDefault [] (Tree.list? Tree.string?) keyNames⟩
  | _ => none

/-- Reads a document. -/
def Document.ofTree? (tree : Tree) : Option Document := do
  match ← tree.record? ["version", "types", "structs", "variants", "tables"] with
  | [version, aliases, structs, variants, tables] =>
    return ⟨← required Tree.string? version,
      ← orDefault [] (Tree.list? AliasDef.ofTree?) aliases,
      ← orDefault [] (Tree.list? StructDef.ofTree?) structs,
      ← orDefault [] (Tree.list? VariantDef.ofTree?) variants,
      ← orDefault [] (Tree.list? TableDef.ofTree?) tables⟩
  | _ => none

/-- The document that a text holds. -/
def Document.parse (text : String) : Except ProtocolError Document :=
  match (Tree.parse? text).bind Document.ofTree? with
  | some document => .ok document
  | none => .error .malformedSchema

/-- What the versions of the documents that can be read begin with. -/
def supportedVersions : String := "eosio::abi/1."

/-- Refuses a version that is not supported. -/
def checkVersion (version : String) : Except ProtocolError Unit :=
  if supportedVersions.toList.isPrefixOf version.toList then .ok ()
  else .error (.unsupportedVersion version)

end StateHistory.Schema
