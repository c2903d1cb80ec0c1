/-! # Type references

A schema names a type by the name of its declaration, followed by any number of modifiers: `?` for a
value that may be absent, `[]` for any number of values, `$` for a value that may be missing at the
end of a message. The last modifier is the outermost one. `TypeRef.parse` takes the modifiers off and
`TypeRef.render` puts them back, so a reference has one text and a text is one reference. -/

namespace StateHistory

/-- A reference to a type. -/
inductive TypeRef where
  | named (name : String)
  | optional (inner : TypeRef)
  | array (inner : TypeRef)
  | extension (inner : TypeRef)
deriving DecidableEq, Repr, Inhabited

namespace TypeRef

/-- The reference whose text is the given characters, last to first. -/
def ofReversed : List Char → TypeRef
  | '$' :: cs => extension (ofReversed cs)
  | ']' :: '[' :: cs => array (ofReversed cs)
  | '?' :: cs => optional (ofReversed cs)
  | cs => named (String.ofList cs.reverse)

/-- The reference that a text spells. -/
def parse (s : String) : TypeRef := ofReversed s.toList.reverse

/-- The text of a reference. -/
def render : TypeRef → String
  | named name => name
  | optional inner => inner.render ++ "?"
  | array inner => inner.render ++ "[]"
  | extension inner => inner.render ++ "$"

/-- The name below all modifiers. -/
def baseName : TypeRef → String
  | named name => name
  | optional inner => inner.baseName
  | array inner => inner.baseName
  | extension inner => inner.baseName

/-- Whether the outermost modifier is `$`. -/
def isExtension : TypeRef → Bool
  | extension _ => true
  | _ => false

/-- Whether a text can be the name of a declaration: it is not empty and ends in no modifier. -/
def isName (s : String) : Bool := !s.isEmpty && parse s == named s

end TypeRef

end StateHistory
