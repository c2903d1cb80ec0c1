import StateHistory.Configuration.Value
import StateHistory.Text.Digits

/-! # Paths into a configuration

A path leads from the outermost table to a value: through members of tables and items of arrays. It is
written `name.name[index].name`; a text of any other form is the name of a single member.

To put a value at a path, everything on the way that is in its way gives way: what is no table becomes an
empty table, what is no array an empty array, and missing items are filled up. At the end of the path, a
table is merged, entry by entry, into what is there, and any other value takes its place. So a value that
is put at a path changes nothing beside that path. -/

namespace StateHistory.Configuration

/-- One step of a path. An index below zero counts from the end. -/
inductive Step where
  | member (name : String)
  | item (index : Int)
deriving DecidableEq, Repr

/-- A path. -/
abbrev Path := List Step

namespace Path

/-! ### Written paths -/

/-- Whether a character may stand in the name of a written path. -/
def isNameChar (c : Char) : Bool :=
  ('a' ≤ c && c ≤ 'z') || ('A' ≤ c && c ≤ 'Z') || ('0' ≤ c && c ≤ '9')
    || c == ' ' || c == '_' || c == '-'

/-- The name at the front, and the rest. -/
def name? (cs : List Char) : Option (String × List Char) :=
  let name := cs.takeWhile isNameChar
  if name.isEmpty then none else some (String.ofList name, cs.drop name.length)

/-- What follows the blanks at the front. -/
def skipBlanks (cs : List Char) : List Char := cs.dropWhile fun c => c == ' ' || c == '\t'

/-- The index at the front with its closing bracket, and the rest. -/
def index? (cs : List Char) : Option (Int × List Char) := do
  let cs := skipBlanks cs
  let (mark, cs) := match cs with
    | '-' :: cs => (['-'], cs)
    | cs => ([], cs)
  let (ds, rest) := Digits.span 10 cs
  let n ← Digits.integer? 0x8000000000000000 (mark ++ ds)
  match skipBlanks rest with
  | ']' :: rest => return (n, rest)
  | _ => none

/-- The steps of a written path after the first one. -/
def steps? : (bound : Nat) → List Char → Option Path
  | _, [] => some []
  | bound + 1, '.' :: cs => do
    let (name, rest) ← name? cs
    return .member name :: (← steps? bound rest)
  | bound + 1, '[' :: cs => do
    let (index, rest) ← index? cs
    return .item index :: (← steps? bound rest)
  | _, _ => none

/-- The path that a text writes. -/
def parse? (s : String) : Option Path := do
  let (name, rest) ← name? s.toList
  return .member name :: (← steps? rest.length rest)

/-- The path that a text stands for. -/
def ofText (s : String) : Path := (parse? s).getD [.member s]

end Path

/-! ### Putting values -/

namespace Value

/-- Entries with one of them set: in its place if there is one of its name, and behind all others if
not. -/
def setEntry (name : String) (v : Value) : List (String × Value) → List (String × Value)
  | [] => [(name, v)]
  | e :: es => if e.1 = name then (name, v) :: es else e :: setEntry name v es

mutual

/-- What becomes of the value at the end of a path when another one is put there. -/
def merge (old : Option Value) : Value → Value
  | table _ entries => mergeEntries (old.getD empty) entries
  | v => v

/-- A value with entries put into it one after the other. -/
def mergeEntries (base : Value) : List (String × Value) → Value
  | [] => base
  | (name, v) :: rest =>
    let (origin, entries) := base.asTable
    mergeEntries (table origin (setEntry name (merge (entries.lookup name) v) entries)) rest

end

/-- The place in an array of a given length that an index stands for. An index below zero counts from the end; there
is no provision for one that leads in front of the first item, which is taken for the first here. -/
def place (length : Nat) (index : Int) : Nat :=
  if index < 0 then length - index.natAbs else index.toNat

/-- What becomes of a value, which may be missing, when `v` is put at a path into it. -/
def put (v : Value) : Path → (old : Option Value) → Value
  | [], old => merge old v
  | .member name :: path, old =>
    let (origin, entries) := (old.getD empty).asTable
    table origin (setEntry name (put v path (entries.lookup name)) entries)
  | .item index :: path, old =>
    let (origin, items) := (old.getD empty).asArray
    let n := place items.length index
    let items := items ++ List.replicate (n + 1 - items.length) (plain .nothing)
    array origin (items.set n (if path.isEmpty then v else put v path items[n]?))

/-- The value at a path. -/
def at? : Path → Value → Option Value
  | [], v => some v
  | .member name :: path, table _ entries => (entries.lookup name).bind (at? path)
  | .item index :: path, array _ items => items[place items.length index]?.bind (at? path)
  | _, _ => none

end Value

end StateHistory.Configuration
