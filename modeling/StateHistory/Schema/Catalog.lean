import StateHistory.Schema.Builtin
import StateHistory.Schema.Document
import StateHistory.Schema.TypeRef

/-! # Type catalogs

A catalog maps type names to layouts. It is built once from a schema document and only read
afterwards. `Catalog.ofDocument` accepts a document if

* its version is supported;
* no declared name is empty or ends in a modifier, and no name is declared twice or is the name of a
  builtin type;
* the bases of every struct lead to declared structs only, end, and are not too many; the struct's
  layout is then the fields of its furthest base first and its own fields last;
* every type that an alias, a field or a case refers to is known, and from every alias a type that is
  no plain alias is reached within the limit.

A base may be given by an alias. Tables never spoil a document: one whose rows have an unknown type is
left out, and `Catalog.droppedTables` tells why. -/

namespace StateHistory.Schema

/-- A field of a struct. -/
structure Field where
  name : String
  type : TypeRef
deriving DecidableEq, Repr

/-- The layout of a type. A struct holds the fields of its bases, too. -/
inductive Layout where
  | builtin (type : Builtin)
  | alias (target : TypeRef)
  | struct (fields : List Field)
  | variant (cases : List TypeRef)
deriving DecidableEq, Repr

/-- How many aliases in a row are followed, and how many structs may be based on each other. -/
def maxChain : Nat := 32

/-- The types and tables of a schema. -/
structure Catalog where
  version : String
  types : List (String × Layout)
  tables : List (String × TypeRef)
deriving DecidableEq, Repr

/-! ### Declarations -/

/-- The fields of a struct's own declaration. -/
def StructDef.ownFields (d : StructDef) : List Field :=
  d.fields.map fun f => ⟨f.name, TypeRef.parse f.type⟩

/-- The builtin types under their names. -/
def builtinLayouts : List (String × Layout) :=
  Builtin.table.map fun (name, type) => (name, .builtin type)

namespace Document

/-- The names that a document declares, in the order in which they are looked at. -/
def declaredNames (d : Document) : List String :=
  d.aliases.map (·.name) ++ d.structs.map (·.name) ++ d.variants.map (·.name)

/-- Every declaration under its name, structs without the fields of their bases. -/
def declarations (d : Document) : List (String × Layout) :=
  builtinLayouts
    ++ d.aliases.map (fun a => (a.name, .alias (TypeRef.parse a.target)))
    ++ d.structs.map (fun s => (s.name, .struct s.ownFields))
    ++ d.variants.map (fun v => (v.name, .variant (v.cases.map TypeRef.parse)))

/-- Refuses the first name that cannot be declared, given the names taken before. -/
def checkNames (taken : List String) : List String → Except ProtocolError Unit
  | [] => .ok ()
  | name :: names =>
    if !TypeRef.isName name then .error (.invalidTypeName name)
    else if taken.contains name then .error (.redefinition name)
    else checkNames (name :: taken) names

/-! ### Bases -/

/-- The type that a base stands for: aliases are followed, at most `room` look-ups long. -/
def resolveBase (types : List (String × Layout)) (base : String) :
    (room : Nat) → (current : String) → Except ProtocolError String
  | 0, _ => .error (.aliasTooDeep base)
  | room + 1, current =>
    match types.lookup current with
    | none => .error (.unknownType current)
    | some (.alias target) => resolveBase types base room target.render
    | some _ => .ok current

/-- The struct that a struct is based on, if it is based on any. `owner` is the struct whose bases
are looked for. -/
def baseOf (d : Document) (owner : String) (s : StructDef) :
    Except ProtocolError (Option StructDef) :=
  if s.base.isEmpty then .ok none
  else do
    let base ← resolveBase d.declarations s.base maxChain s.base
    match d.structs.find? (·.name == base) with
    | some b => .ok (some b)
    | none => .error (.baseNotStruct base owner)

/-- The bases of a struct, the nearest first. At most `room` of them are followed, and none that is
among `seen`. -/
def bases (d : Document) (owner : String) :
    (room : Nat) → (seen : List String) → StructDef → Except ProtocolError (List StructDef)
  | room, seen, s => do
    match ← d.baseOf owner s with
    | none => .ok []
    | some b =>
      if seen.contains b.name then .error (.recursiveBase owner)
      else match room with
        | 0 => .error (.recursiveBase owner)
        | room + 1 => return b :: (← bases d owner room (b.name :: seen) b)

/-- The whole layout of a struct: the fields of its bases, the furthest first, and its own. -/
def flatten (d : Document) (s : StructDef) : Except ProtocolError (List Field) := do
  let above ← d.bases s.name (maxChain - 1) [s.name] s
  return (above.reverse ++ [s]).flatMap StructDef.ownFields

end Document

/-! ### Look-up -/

namespace Catalog

/-- The layout declared under a name. -/
def find? (c : Catalog) (name : String) : Option Layout := c.types.lookup name

/-- The number of types. -/
def size (c : Catalog) : Nat := c.types.length

/-- Whether a name is declared. -/
def contains (c : Catalog) (name : String) : Bool := (c.find? name).isSome

/-- The layout declared under a name, or the error that there is none. -/
def get (c : Catalog) (name : String) : Except ProtocolError Layout :=
  match c.find? name with
  | some layout => .ok layout
  | none => .error (.unknownType name)

/-- Refuses a reference whose name, below its modifiers, is not declared. -/
def checkRef (c : Catalog) (type : TypeRef) : Except ProtocolError Unit := do
  discard (c.get type.baseName)

/-- Follows aliases from a reference, at most `room` look-ups long. -/
def resolveFrom (c : Catalog) (origin : String) :
    (room : Nat) → TypeRef → Except ProtocolError TypeRef
  | 0, _ => .error (.aliasTooDeep origin)
  | room + 1, .named name => do
    match ← c.get name with
    | .alias target => c.resolveFrom origin room target
    | _ => .ok (.named name)
  | _ + 1, type => .ok type

/-- Follows aliases until a reference is reached that is not a plain alias. It may carry a
modifier. -/
def resolve (c : Catalog) (type : String) : Except ProtocolError TypeRef :=
  c.resolveFrom type maxChain (TypeRef.parse type)

/-- The cases of a variant, which may be given by an alias. -/
def variantCases (c : Catalog) (variant : String) : Except ProtocolError (List TypeRef) := do
  match ← c.resolve variant with
  | .named name =>
    match ← c.get name with
    | .variant cases => .ok cases
    | _ => .error (.notVariant variant)
  | _ => .error (.notVariant variant)

/-- The case of a variant under a tag. -/
def variantCase (c : Catalog) (variant : String) (tag : UInt32) :
    Except ProtocolError TypeRef := do
  match (← c.variantCases variant)[tag.toNat]? with
  | some case => .ok case
  | none => .error (.invalidVariantIndex variant tag)

/-- The least tag under which a variant lists a case. -/
def variantTag (c : Catalog) (variant case : String) : Except ProtocolError UInt32 := do
  match (← c.variantCases variant).findIdx? (·.render == case) with
  | some tag => .ok (UInt32.ofNat tag)
  | none => .error (.missingVariantCase variant case)

/-- The type of the rows of a table. -/
def table? (c : Catalog) (name : String) : Option TypeRef := c.tables.lookup name

/-! ### Construction -/

/-- Refuses a type whose layout refers to something that is not there. -/
def checkLayout (c : Catalog) (name : String) : Layout → Except ProtocolError Unit
  | .builtin _ => .ok ()
  | .alias target => do
    c.checkRef target
    discard (c.resolve name)
  | .struct fields => fields.forM fun f => c.checkRef f.type
  | .variant cases => cases.forM c.checkRef

/-- Refuses a catalog with a type that refers to something that is not there. -/
def check (c : Catalog) : Except ProtocolError Unit :=
  c.types.forM fun (name, layout) => c.checkLayout name layout

/-- The catalog of a document, before its references are checked and without tables. -/
def ofDeclarations (d : Document) : Except ProtocolError Catalog := do
  let structs ← d.structs.mapM fun s => return (s.name, Layout.struct (← d.flatten s))
  return {
    version := d.version
    types := builtinLayouts
      ++ d.aliases.map (fun a => (a.name, .alias (TypeRef.parse a.target)))
      ++ structs
      ++ d.variants.map (fun v => (v.name, .variant (v.cases.map TypeRef.parse)))
    tables := [] }

/-- The catalog of a document. Of two tables with one name the later one counts. -/
def ofDocument (d : Document) : Except ProtocolError Catalog := do
  checkVersion d.version
  Document.checkNames (Builtin.table.map (·.1)) d.declaredNames
  let c ← ofDeclarations d
  c.check
  let known := d.tables.filter fun t => c.contains (TypeRef.parse t.type).baseName
  return { c with tables := (known.map fun t => (t.name, TypeRef.parse t.type)).reverse }

/-- The tables of a document that its catalog leaves out, and why. -/
def droppedTables (c : Catalog) (d : Document) : List (String × ProtocolError) :=
  d.tables.filterMap fun t =>
    match c.checkRef (TypeRef.parse t.type) with
    | .ok () => none
    | .error e => some (t.name, e)

end Catalog

end StateHistory.Schema
