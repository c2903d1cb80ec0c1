import StateHistory.Text.Digits

/-! # Reading JSON text

The grammar of JSON, and nothing about what a document means. `Tree.parse?` accepts exactly one value
with blanks around it; blanks are space, tab, line feed and carriage return.

* A numeral keeps its digits and its decimal exponent, so numerals of any size are accepted.
* A text needs valid escapes. A `\u` escape for one half of a surrogate pair, without its other half
  beside it, has no character: such a text is part of the tree but cannot be read, which is a matter
  for whoever asks for its characters.
* A repeated key is kept; what it means is decided by the reader of the object.

The recursion is bounded by a count that starts at twice the length of the text; of two steps in a
row at least one consumes a character, so the bound is never what ends it. -/

namespace StateHistory.Json

/-- The value `± digits · 10 ^ exponent`. An integral numeral is written with neither a fraction nor
an exponent. -/
structure Numeral where
  negative : Bool
  digits : Nat
  exponent : Int
  integral : Bool
deriving DecidableEq, Repr

/-- A JSON text, taken apart. A text that cannot be read is `none`. -/
inductive Tree where
  | null
  | bool (b : Bool)
  | numeral (n : Numeral)
  | text (s : Option String)
  | array (items : List Tree)
  | object (members : List (Option String × Tree))
deriving Inhabited

namespace Tree

/-- The blanks of JSON. -/
def isBlank (c : Char) : Bool := c == ' ' || c == '\n' || c == '\t' || c == '\r'

/-- What follows the blanks at the front. -/
def skipBlanks (cs : List Char) : List Char := cs.dropWhile isBlank

/-! ### Numerals -/

/-- The exponent at the front, 0 if there is none, whether there is one, and the rest. -/
def exponentPart? (cs : List Char) : Option (Int × Bool × List Char) :=
  match cs with
  | 'e' :: cs | 'E' :: cs =>
    let (negative, cs) := match cs with
      | '-' :: cs => (true, cs)
      | '+' :: cs => (false, cs)
      | cs => (false, cs)
    let (ds, rest) := Digits.span 10 cs
    if ds.isEmpty then none
    else
      let e : Int := Digits.toNat 10 ds
      some (if negative then -e else e, true, rest)
  | cs => some (0, false, cs)

/-- The numeral without sign at the front, and the rest. A leading zero stands alone, and a point
needs digits on both sides. -/
def unsignedNumeral? (negative : Bool) (cs : List Char) : Option (Numeral × List Char) := do
  let (whole, rest) := Digits.span 10 cs
  if whole.isEmpty || (whole.head? == some '0' && whole.length != 1) then none
  let (places, rest) ← match rest with
    | '.' :: rest =>
      let (places, rest) := Digits.span 10 rest
      if places.isEmpty then none else some (places, rest)
    | rest => some ([], rest)
  let (e, marked, rest) ← exponentPart? rest
  return (⟨negative, Digits.toNat 10 (whole ++ places), e - places.length,
    places.isEmpty && !marked⟩, rest)

/-! ### Texts -/

/-- The unit written by four hexadecimal digits, and the rest. -/
def unit? : List Char → Option (Nat × List Char)
  | a :: b :: c :: d :: rest => do
    return (← Digits.toNat? 16 [a, b, c, d], rest)
  | _ => none

/-- The character of an escape of one letter. -/
def shortEscape? : Char → Option Char
  | '"' => some '"'
  | '\\' => some '\\'
  | '/' => some '/'
  | 'b' => some '\x08'
  | 'f' => some '\x0c'
  | 'n' => some '\n'
  | 'r' => some '\r'
  | 't' => some '\t'
  | _ => none

/-- The second half of a surrogate pair, written as an escape at the front, and the rest. -/
def lowHalf? : List Char → Option (Nat × List Char)
  | '\\' :: 'u' :: cs => do
    let (u, rest) ← unit? cs
    if 0xdc00 ≤ u ∧ u < 0xe000 then return (u, rest) else none
  | _ => none

/-- The character behind a unit, if the unit and what follows it have one, and the rest. -/
def unitChar (u : Nat) (rest : List Char) : Option Char × List Char :=
  if u < 0xd800 ∨ 0xe000 ≤ u then (some (Char.ofNat u), rest)
  else if u < 0xdc00 then
    match lowHalf? rest with
    | some (v, rest) => (some (Char.ofNat (0x10000 + 1024 * (u - 0xd800) + (v - 0xdc00))), rest)
    | none => (none, rest)
  else (none, rest)

/-- One character of a text, not the closing quote, and the rest. -/
def textChar? : List Char → Option (Option Char × List Char)
  | '\\' :: 'u' :: cs => do
    let (u, rest) ← unit? cs
    return unitChar u rest
  | '\\' :: c :: cs => (shortEscape? c).map fun e => (some e, cs)
  | c :: cs => if c.toNat < 32 ∨ c = '\\' then none else some (some c, cs)
  | [] => none

/-- The text whose opening quote has been read, and what follows its closing quote. The characters
before are in `acc`, the latest first, or `none` when one of them cannot be read. -/
def textBody? : (bound : Nat) → (acc : Option (List Char)) → List Char →
    Option (Option String × List Char)
  | 0, _, _ => none
  | _ + 1, acc, '"' :: rest => some (acc.map fun cs => String.ofList cs.reverse, rest)
  | bound + 1, acc, cs => do
    let (c, rest) ← textChar? cs
    textBody? bound (acc.bind fun cs => c.map (· :: cs)) rest

/-! ### Values -/

mutual

/-- The value at the front, and the rest. -/
def value? : (bound : Nat) → List Char → Option (Tree × List Char)
  | 0, _ => none
  | bound + 1, cs =>
    match skipBlanks cs with
    | 'n' :: 'u' :: 'l' :: 'l' :: rest => some (null, rest)
    | 't' :: 'r' :: 'u' :: 'e' :: rest => some (bool true, rest)
    | 'f' :: 'a' :: 'l' :: 's' :: 'e' :: rest => some (bool false, rest)
    | '"' :: rest => (textBody? (rest.length + 1) (some []) rest).map fun (s, rest) => (text s, rest)
    | '-' :: rest => (unsignedNumeral? true rest).map fun (n, rest) => (numeral n, rest)
    | '[' :: rest =>
      match skipBlanks rest with
      | ']' :: rest => some (array [], rest)
      | rest => items? bound [] rest
    | '\x7b' :: rest =>
      match skipBlanks rest with
      | '\x7d' :: rest => some (object [], rest)
      | rest => members? bound [] rest
    | rest => (unsignedNumeral? false rest).map fun (n, rest) => (numeral n, rest)

/-- The items of an array from one item on, and what follows the array. -/
def items? : (bound : Nat) → (acc : List Tree) → List Char → Option (Tree × List Char)
  | 0, _, _ => none
  | bound + 1, acc, cs => do
    let (v, rest) ← value? bound cs
    match skipBlanks rest with
    | ',' :: rest => items? bound (v :: acc) rest
    | ']' :: rest => some (array (v :: acc).reverse, rest)
    | _ => none

/-- The members of an object from one member on, and what follows the object. -/
def members? : (bound : Nat) → (acc : List (Option String × Tree)) → List Char →
    Option (Tree × List Char)
  | 0, _, _ => none
  | bound + 1, acc, cs =>
    match skipBlanks cs with
    | '"' :: rest => do
      let (key, rest) ← textBody? (rest.length + 1) (some []) rest
      match skipBlanks rest with
      | ':' :: rest =>
        let (v, rest) ← value? bound rest
        match skipBlanks rest with
        | ',' :: rest => members? bound ((key, v) :: acc) rest
        | '\x7d' :: rest => some (object ((key, v) :: acc).reverse, rest)
        | _ => none
      | _ => none
    | _ => none

end

/-- The tree of a text that is one JSON value with blanks around it. -/
def parse? (s : String) : Option Tree :=
  let cs := s.toList
  match value? (2 * cs.length + 2) cs with
  | some (tree, rest) => if (skipBlanks rest).isEmpty then some tree else none
  | none => none

/-! ### Views -/

/-- The characters of a text that can be read. -/
def string? : Tree → Option String
  | text s => s
  | _ => none

/-- The items of an array, each read by `read`. -/
def list? {α : Type} (read : Tree → Option α) : Tree → Option (List α)
  | array items => items.mapM read
  | _ => none

/-- The values of the named members. An object names them, an array lists them in order and may end
early. Further members of an object do not matter, but every key has to be readable, a named member
may not be repeated, and an array holds no more items than there are names. -/
def record? (names : List String) : Tree → Option (List (Option Tree))
  | array items =>
    if items.length ≤ names.length then
      some (items.map some ++ List.replicate (names.length - items.length) none)
    else none
  | object members =>
    if members.all (fun m => m.1.isSome)
        && names.all (fun n => (members.filter (fun m => m.1 == some n)).length ≤ 1) then
      some (names.map fun n => (members.find? (fun m => m.1 == some n)).map (·.2))
    else none
  | _ => none

end Tree

end StateHistory.Json
