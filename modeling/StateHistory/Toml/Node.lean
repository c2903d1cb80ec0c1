import StateHistory.Number.Binary64

/-! # TOML trees

The tree that a TOML text builds, line by line. Which additions a table allows depends on how it came
about, so tables are told apart:

* a table written in braces is complete where it stands;
* a table opened by a dotted key accepts further dotted keys, as long as they follow in the same block;
* a table opened by a header may be passed through by longer headers before and after, and be defined by
  a header of its own once;
* an array of tables accepts further elements, and headers go on inside its last one.

A key that is set twice, or that would turn a value into a table, spoils the text. -/

namespace StateHistory.Toml

/-- A value of a TOML text. Dates and times are kept as their text. -/
inductive Node where
  | text (s : String)
  | integer (n : Int)
  | float (x : Binary64)
  | boolean (b : Bool)
  | array (items : List Node)
  /-- A table in braces. -/
  | braces (entries : List (String × Node))
  /-- A table opened by dotted keys. -/
  | dotted (entries : List (String × Node))
  /-- A table opened by headers, and whether a header of its own defined it. -/
  | header (defined : Bool) (entries : List (String × Node))
  /-- An array of tables. -/
  | headers (elements : List (List (String × Node)))
deriving Inhabited

/-- The entries of a table, in the order of their first mention. -/
abbrev Entries := List (String × Node)

namespace Entries

/-- Puts a node in the place of the one under the same key. -/
def replace (key : String) (node : Node) (es : Entries) : Entries :=
  es.map fun e => if e.1 == key then (key, node) else e

/-- Adds a value under a dotted key. -/
def add? (value : Node) : List String → Entries → Option Entries
  | [], _ => none
  | [key], es =>
    match es.lookup key with
    | none => some (es ++ [(key, value)])
    | some _ => none
  | key :: keys, es =>
    match es.lookup key with
    | none => (add? value keys []).map fun inner => es ++ [(key, .dotted inner)]
    | some (.dotted es') => (add? value keys es').map fun inner => replace key (.dotted inner) es
    | some _ => none

/-- Changes the entries of the table that a header path leads to. Tables on the way that are not there
are opened. -/
def modify? (f : Entries → Option Entries) : List String → Entries → Option Entries
  | [], es => f es
  | key :: keys, es =>
    match es.lookup key with
    | none => (modify? f keys []).map fun inner => es ++ [(key, .header false inner)]
    | some (.header defined inner) =>
      (modify? f keys inner).map fun inner => replace key (.header defined inner) es
    | some (.headers elements) =>
      match elements.getLast? with
      | some last =>
        (modify? f keys last).map fun last =>
          replace key (.headers (elements.dropLast ++ [last])) es
      | none => none
    | some _ => none

/-- Defines the table of a header. -/
def define? (key : String) (es : Entries) : Option Entries :=
  match es.lookup key with
  | none => some (es ++ [(key, .header true [])])
  | some (.header false inner) => some (replace key (.header true inner) es)
  | some _ => none

/-- Appends an element to the array of tables of a header. -/
def append? (key : String) (es : Entries) : Option Entries :=
  match es.lookup key with
  | none => some (es ++ [(key, .headers [[]])])
  | some (.headers elements) => some (replace key (.headers (elements ++ [[]])) es)
  | some _ => none

end Entries

end StateHistory.Toml
