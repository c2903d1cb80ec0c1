import StateHistory.Toml.DateTime
import StateHistory.Toml.Node
import StateHistory.Toml.Quotation

/-! # Reading TOML

The grammar of TOML, version 0.5, with arrays whose items may differ in kind. A text is a sequence of
lines: blank ones, comments, headers of tables, and assignments to keys. Line breaks are line feeds,
with or without a carriage return in front.

Bare words made of letters, digits, `-` and `_` are keys on the left of an assignment and numbers, dates
or truth values on its right. Underscores may separate the digits of a number; an integer has to fit
into 64 bits and a fractional number has to be finite, apart from `inf` and `nan`. -/

namespace StateHistory.Toml

/-! ### Words and blanks -/

/-- Whether a character may stand in a bare word. -/
def isWordChar (c : Char) : Bool :=
  ('a' ≤ c && c ≤ 'z') || ('A' ≤ c && c ≤ 'Z') || ('0' ≤ c && c ≤ '9') || c == '-' || c == '_'

/-- The bare word at the front, and the rest. -/
def word? (cs : List Char) : Option (List Char × List Char) :=
  let w := cs.takeWhile isWordChar
  if w.isEmpty then none else some (w, cs.drop w.length)

/-- What follows the blanks at the front. -/
def skipBlanks (cs : List Char) : List Char := cs.dropWhile fun c => c == ' ' || c == '\t'

/-- What follows the end of a line, before which a comment may stand. -/
def lineEnd? (cs : List Char) : Option (List Char) :=
  let rest := match cs with
    | '#' :: rest => rest.dropWhile fun c => c == '\t' || 32 ≤ c.toNat
    | rest => rest
  match rest with
  | [] => some []
  | '\n' :: rest => some rest
  | _ => none

/-! ### Numbers -/

/-- The digits of a number at the front without their underscores, and the rest. A digit stands at both
ends of an underscore, and a leading zero stands alone unless zeros are allowed. -/
def digits? (base : Nat) (zeros : Bool) (cs : List Char) : Option (List Char × List Char) :=
  let run := cs.takeWhile fun c => Digits.isDigit base c || c == '_'
  -- A second underscore in a row ends the digits.
  let run := match doubled run with
    | some n => run.take n
    | none => run
  let ds := run.filter (· != '_')
  if run.head? == some '_' || run.getLast? == some '_' || ds.isEmpty then none
  else if !zeros && ds.head? == some '0' && ds.length != 1 then none
  else some (ds, cs.drop run.length)
where
  /-- How many characters stand before the second of two underscores in a row. -/
  doubled : List Char → Option Nat
    | '_' :: '_' :: _ => some 1
    | _ :: cs => (doubled cs).map (· + 1)
    | [] => none

/-- The sign at the front, and the rest. -/
def sign (cs : List Char) : Bool × List Char :=
  match cs with
  | '-' :: cs => (true, cs)
  | '+' :: cs => (false, cs)
  | cs => (false, cs)

/-- The integer that a word spells. -/
def integer? (w : List Char) : Option Int := do
  let (base, negative, cs) := match w with
    | '0' :: 'x' :: cs => (16, false, cs)
    | '0' :: 'o' :: cs => (8, false, cs)
    | '0' :: 'b' :: cs => (2, false, cs)
    | cs => (10, sign cs)
  let (ds, rest) ← digits? base (base != 10) cs
  let n : Int := Digits.toNat base ds
  let n := if negative then -n else n
  if rest.isEmpty ∧ -0x8000000000000000 ≤ n ∧ n < 0x8000000000000000 then return n else none

/-- The exponent behind its letter, and the rest of the text. The word goes on after a plus sign. -/
def exponent? (w rest : List Char) : Option (Int × List Char) := do
  if w.isEmpty then
    let (w, rest) ← word? (match rest with
      | '+' :: rest => rest
      | rest => rest)
    let (ds, more) ← digits? 10 true w
    if more.isEmpty then return ((Digits.toNat 10 ds : Int), rest) else none
  else
    let (negative, w) := sign w
    let (ds, more) ← digits? 10 true w
    let n : Int := Digits.toNat 10 ds
    if more.isEmpty then return (if negative then -n else n, rest) else none

/-- The fractional number that starts with a word, and the rest of the text. -/
def float? (w rest : List Char) : Option (Binary64 × List Char) := do
  let (negative, w) := sign w
  let (whole, more) ← digits? 10 false w
  let (places, more, rest) ← match rest, more with
    | '.' :: rest, [] => do
      let (w, rest) ← word? rest
      let (places, more) ← digits? 10 true w
      some (places, more, rest)
    | rest, more => some ([], more, rest)
  let (e, rest) ← match more with
    | [] => some (0, rest)
    | c :: more => if c = 'e' ∨ c = 'E' then exponent? more rest else none
  let x := Binary64.ofDecimal negative (Digits.toNat 10 (whole ++ places)) (e - places.length)
  match x.view with
  | .finite .. => return (x, rest)
  | _ => none

/-- The number that starts with a word, and the rest of the text. -/
def number? (w rest : List Char) : Option (Node × List Char) :=
  if ['0', 'x'].isPrefixOf w || ['0', 'o'].isPrefixOf w || ['0', 'b'].isPrefixOf w then
    (integer? w).map fun n => (.integer n, rest)
  else if w.contains 'e' || w.contains 'E' || rest.head? == some '.' then
    (float? w rest).map fun (x, rest) => (.float x, rest)
  else
    let (negative, name) := sign w
    if name = "inf".toList then some (.float (Binary64.infinity negative), rest)
    else if name = "nan".toList then some (.float Binary64.nan, rest)
    else (integer? w).map fun n => (.integer n, rest)

/-! ### Dates -/

/-- A word after a character, both at the front, and the rest. -/
def wordAfter? (c : Char) (cs : List Char) : Option (List Char × List Char) := do
  let (w, rest) ← word? (← DateTime.after? c cs)
  return (c :: w, rest)

/-- The same, and nothing if the character is not there. -/
def wordIfAfter? (c : Char) (cs : List Char) : Option (List Char × List Char) :=
  if cs.head? = some c then wordAfter? c cs else some ([], cs)

/-- The text of a date or time that starts with a word, and the rest. -/
def dateChars? (w rest : List Char) : Option (List Char × List Char) := do
  let (w, rest) := match wordAfter? ' ' rest with
    | some (hour, rest) => (w ++ hour, rest)
    | none => (w, rest)
  if rest.head? = some ':' then
    let (minute, rest) ← wordAfter? ':' rest
    let (second, rest) ← wordAfter? ':' rest
    let (fraction, rest) ← wordIfAfter? '.' rest
    let (plus, rest) ← wordIfAfter? '+' rest
    let (colon, rest) ← wordIfAfter? ':' rest
    return (w ++ minute ++ second ++ fraction ++ plus ++ colon, rest)
  else return (w, rest)

/-- The date or time that starts with a word, and the rest. -/
def date? (w rest : List Char) : Option (Node × List Char) := do
  let (cs, rest) ← dateChars? w rest
  return (.text (String.ofList (← DateTime.normal? cs)), rest)

/-- Whether a word starts a date: it holds the letter between date and time, or a hyphen that belongs
to no exponent. -/
def startsDate (w : List Char) : Bool :=
  w.contains 'T' || w.contains 't'
    || ((w.drop 1).contains '-' && !infixed 'e' w && !infixed 'E' w)
where
  /-- Whether a letter stands before a hyphen. -/
  infixed (c : Char) : List Char → Bool
    | a :: b :: cs => (a == c && b == '-') || infixed c (b :: cs)
    | _ => false

/-- The number or date that starts with a word, and the rest. -/
def numberOrDate? (w rest : List Char) : Option (Node × List Char) :=
  if startsDate w || rest.head? == some ':' then date? w rest else number? w rest

/-- The value that a bare word starts, and the rest. -/
def bare? (w rest : List Char) : Option (Node × List Char) :=
  if w = "true".toList then some (.boolean true, rest)
  else if w = "false".toList then some (.boolean false, rest)
  else if w = "inf".toList ∨ w = "nan".toList then numberOrDate? w rest
  else match w with
    | c :: _ => if c = '-' ∨ Digits.isDigit 10 c then numberOrDate? w rest else none
    | [] => none

/-! ### Keys -/

/-- A key without dots at the front, and the rest. -/
def key? (cs : List Char) : Option (String × List Char) :=
  match cs with
  | '"' :: _ | '\'' :: _ => do
    let (s, multiline, rest) ← quotation? (if cs.head? = some '"' then '"' else '\'') cs
    if multiline then none else return (s, rest)
  | cs => (word? cs).map fun (w, rest) => (String.ofList w, rest)

/-- The keys of a dotted key from one key on, and the rest. Blanks may stand around each. -/
def dottedKey? : (bound : Nat) → List Char → Option (List String × List Char)
  | 0, _ => none
  | bound + 1, cs => do
    let (key, rest) ← key? (skipBlanks cs)
    match skipBlanks rest with
    | '.' :: rest =>
      let (keys, rest) ← dottedKey? bound rest
      return (key :: keys, rest)
    | rest => return ([key], rest)

/-! ### Values -/

/-- What follows blanks, line breaks and comments inside an array. -/
def skipLines? : (bound : Nat) → List Char → Option (List Char)
  | 0, _ => none
  | bound + 1, cs =>
    match skipBlanks cs with
    | '\n' :: rest => skipLines? bound rest
    | '#' :: rest => do skipLines? bound (← lineEnd? ('#' :: rest))
    | rest => some rest

mutual

/-- The value at the front, and the rest. -/
def value? : (bound : Nat) → List Char → Option (Node × List Char)
  | 0, _ => none
  | bound + 1, cs =>
    match cs with
    | '"' :: _ => (quotation? '"' cs).map fun (s, _, rest) => (.text s, rest)
    | '\'' :: _ => (quotation? '\'' cs).map fun (s, _, rest) => (.text s, rest)
    | '+' :: rest => do
      let (w, rest) ← word? rest
      number? w rest
    | '[' :: rest => do items? bound [] rest
    | '\x7b' :: rest =>
      match skipBlanks rest with
      | '\x7d' :: rest => some (.braces [], rest)
      | rest => entries? bound [] rest
    | cs => do
      let (w, rest) ← word? cs
      bare? w rest

/-- The items of an array from one item on, and what follows the array. -/
def items? : (bound : Nat) → (acc : List Node) → List Char → Option (Node × List Char)
  | 0, _, _ => none
  | bound + 1, acc, cs => do
    match ← skipLines? (cs.length + 1) cs with
    | ']' :: rest => some (.array acc.reverse, rest)
    | cs =>
      let (v, rest) ← value? bound cs
      match ← skipLines? (rest.length + 1) rest with
      | ',' :: rest => items? bound (v :: acc) rest
      | ']' :: rest => some (.array (v :: acc).reverse, rest)
      | _ => none

/-- The entries of a table in braces from one entry on, and what follows the table. -/
def entries? : (bound : Nat) → (acc : Entries) → List Char → Option (Node × List Char)
  | 0, _, _ => none
  | bound + 1, acc, cs => do
    let (keys, rest) ← dottedKey? (cs.length + 1) cs
    let (v, rest) ← value? bound (skipBlanks (← DateTime.after? '=' rest))
    let acc ← acc.add? v keys
    match skipBlanks rest with
    | '\x7d' :: rest => some (.braces acc, rest)
    | ',' :: rest => entries? bound acc (skipBlanks rest)
    | _ => none

end

/-! ### Lines -/

/-- A text on its way: the entries so far, and the table that assignments go to. -/
structure Draft where
  entries : Entries
  path : List String

/-- Takes in the header of a table, whose opening bracket has been read. -/
def header? (draft : Draft) (cs : List Char) : Option (Draft × List Char) := do
  let (isArray, cs) := match cs with
    | '[' :: cs => (true, cs)
    | cs => (false, cs)
  let (keys, rest) ← dottedKey? (cs.length + 1) cs
  let rest ← DateTime.after? ']' rest
  let rest ← if isArray then DateTime.after? ']' rest else some rest
  let rest ← lineEnd? (skipBlanks rest)
  let last ← keys.getLast?
  let open? := if isArray then Entries.append? last else Entries.define? last
  return (⟨← draft.entries.modify? open? keys.dropLast, keys⟩, rest)

/-- Takes in an assignment. -/
def assignment? (draft : Draft) (cs : List Char) : Option (Draft × List Char) := do
  let (keys, rest) ← dottedKey? (cs.length + 1) cs
  let rest := skipBlanks (← DateTime.after? '=' rest)
  let (v, rest) ← value? (2 * rest.length + 2) rest
  let rest ← lineEnd? (skipBlanks rest)
  return ({ draft with entries := ← draft.entries.modify? (Entries.add? v keys) draft.path }, rest)

/-- Takes in all lines of a text. -/
def lines? : (bound : Nat) → Draft → List Char → Option Entries
  | 0, _, _ => none
  | bound + 1, draft, cs =>
    match skipBlanks cs with
    | [] => some draft.entries
    | '\n' :: rest => lines? bound draft rest
    | '#' :: rest => do lines? bound draft (← lineEnd? ('#' :: rest))
    | '[' :: rest => do
      let (draft, rest) ← header? draft rest
      lines? bound draft rest
    | cs => do
      let (draft, rest) ← assignment? draft cs
      lines? bound draft rest

/-- A text whose line breaks are line feeds. -/
def foldBreaks : List Char → List Char
  | '\r' :: '\n' :: cs => '\n' :: foldBreaks cs
  | c :: cs => c :: foldBreaks cs
  | [] => []

/-- The entries of a TOML text. A byte order mark in front does not matter. -/
def parse? (s : String) : Option Entries :=
  let cs := foldBreaks s.toList
  let cs := if cs.head? = some '\ufeff' then cs.drop 1 else cs
  lines? (cs.length + 1) ⟨[], []⟩ cs

end StateHistory.Toml
