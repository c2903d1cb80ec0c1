import StateHistory.Bytes
import StateHistory.Number.Shortest

/-! # JSON values

The values that schema-driven decoding produces, and their text without any blanks.

The members of an object are kept in the order of their keys, each key once: `Json.insertMember`
puts a member at its place and replaces the value of a key that is there already. Integers and
double-precision numbers are told apart, since the latter always show a fraction or an exponent. -/

namespace StateHistory

/-- A JSON value. -/
inductive Json where
  | null
  | bool (b : Bool)
  | integer (n : Int)
  | number (x : Binary64)
  | string (s : String)
  | array (items : List Json)
  | object (members : List (String × Json))
deriving Inhabited

namespace Json

/-- Puts a member among members in the order of their keys. The value of an equal key is replaced. -/
def insertMember (key : String) (value : Json) : List (String × Json) → List (String × Json)
  | [] => [(key, value)]
  | (k, v) :: rest =>
    if key < k then (key, value) :: (k, v) :: rest
    else if key = k then (key, value) :: rest
    else (k, v) :: insertMember key value rest

/-- The object with the given members; of two members with one key the later one counts. -/
def ofMembers (members : List (String × Json)) : Json :=
  object (members.foldl (fun ms m => insertMember m.1 m.2 ms) [])

/-! ### Text -/

/-- Finite numbers show a fraction while their decimal exponent lies between -5 and 15, and an
exponent beyond. -/
def numberLayout : DecimalLayout where
  positionalFrom := -5
  positionalTo := 15
  pointZero := true
  exponentPlus := false
  tieUp := false

/-- The escape of a character inside a text, for the characters that need one. -/
def escape? (c : Char) : Option String :=
  match c with
  | '"' => some "\\\""
  | '\\' => some "\\\\"
  | '\n' => some "\\n"
  | '\r' => some "\\r"
  | '\t' => some "\\t"
  | '\x08' => some "\\b"
  | '\x0c' => some "\\f"
  | _ =>
    if c.toNat < 32 then
      some (String.ofList ("\\u00".toList ++ Bytes.hexChars [UInt8.ofNat c.toNat]))
    else none

/-- Appends a quoted text. -/
def quoteOnto (acc : String) (s : String) : String :=
  (s.foldl (fun acc c => match escape? c with
    | some e => acc ++ e
    | none => acc.push c) (acc.push '"')).push '"'

mutual

/-- Appends the text of a value. -/
def renderOnto (layout : DecimalLayout) (acc : String) : Json → String
  | null => acc ++ "null"
  | bool b => acc ++ (if b then "true" else "false")
  | integer n => acc ++ toString n
  | number x => acc ++ layout.render x
  | string s => quoteOnto acc s
  | array items => (itemsOnto layout (acc.push '[') true items).push ']'
  | object members => (membersOnto layout (acc.push '\x7b') true members).push '\x7d'

/-- Appends the items of an array, with commas between them. -/
def itemsOnto (layout : DecimalLayout) (acc : String) (first : Bool) : List Json → String
  | [] => acc
  | item :: items =>
    itemsOnto layout (renderOnto layout (if first then acc else acc.push ',') item) false items

/-- Appends the members of an object, with commas between them. -/
def membersOnto (layout : DecimalLayout) (acc : String) (first : Bool) :
    List (String × Json) → String
  | [] => acc
  | (key, value) :: members =>
    let acc := (quoteOnto (if first then acc else acc.push ',') key).push ':'
    membersOnto layout (renderOnto layout acc value) false members

end

/-- The text of a value, without blanks. -/
def render (j : Json) : String := renderOnto numberLayout "" j

end Json

end StateHistory
