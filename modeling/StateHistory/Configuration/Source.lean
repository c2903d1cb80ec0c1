import StateHistory.Configuration.Path
import StateHistory.Json.Number
import StateHistory.Toml.Reader

/-! # Where configuration comes from

A layer is a list of written paths and the values to put there. Its entries are put in the order of the list;
that order is one of many, for a source does not order what it holds. Where two entries of one layer lead into the
same section, what comes of them may depend on it.

Sources are merged with each other before they are laid over anything else (`Layer.merge`). So a section that one
source writes as a list or a scalar, and a later one member by member, is in the end a table of these members alone:
what the section is laid over supplies the others.

* A TOML or JSON text is a layer: each of its outermost keys is a path. A JSON text that is no object
  gives an empty layer.
* The environment is a layer: the variables whose names start with the client's own prefix. In the rest
  of the name, two underscores separate the steps of the path.

A file is looked for under the name as it is given, and then with the extension of every known form in
place of its own. -/

namespace StateHistory.Configuration

/-- Written paths, and the values to put there. -/
abbrev Layer := List (String × Value)

/-- A table with a layer put on top of it. -/
def Value.putLayer (base : Value) (layer : Layer) : Value :=
  layer.foldl (fun base (path, v) => v.put (.ofText path) (some base)) base

/-- The layer that sources make together: what comes of putting one after the other into an empty table. -/
def Layer.merge (sources : List Layer) : Layer := (sources.foldl Value.putLayer Value.empty).asTable.2

/-! ### Texts -/

namespace Value

mutual

/-- The value of a TOML node. -/
def ofToml (origin : Option String) : Toml.Node → Value
  | .text s => scalar origin (.text s)
  | .integer n => scalar origin (.integer n)
  | .float x => scalar origin (.float x)
  | .boolean b => scalar origin (.boolean b)
  | .array items => array origin (itemsOfToml origin items)
  | .braces entries => table origin (entriesOfToml origin entries)
  | .dotted entries => table origin (entriesOfToml origin entries)
  | .header _ entries => table origin (entriesOfToml origin entries)
  | .headers elements => array origin (tablesOfToml origin elements)

/-- The values of the items of a TOML array. -/
def itemsOfToml (origin : Option String) : List Toml.Node → List Value
  | [] => []
  | item :: items => ofToml origin item :: itemsOfToml origin items

/-- The values of the entries of a TOML table. -/
def entriesOfToml (origin : Option String) : List (String × Toml.Node) → List (String × Value)
  | [] => []
  | (name, node) :: rest => (name, ofToml origin node) :: entriesOfToml origin rest

/-- The tables of a TOML array of tables. -/
def tablesOfToml (origin : Option String) : List (List (String × Toml.Node)) → List Value
  | [] => []
  | entries :: rest => table origin (entriesOfToml origin entries) :: tablesOfToml origin rest

end

mutual

/-- The value of a JSON tree in which all texts can be read and all numbers exist. At most `depth`
arrays and objects may be open at once. -/
def ofJson? (origin : Option String) (depth : Nat) : Json.Tree → Option Value
  | .null => some (scalar origin .nothing)
  | .bool b => some (scalar origin (.boolean b))
  | .numeral n =>
    match n.toInt? with
    | some i => some (scalar origin (.integer i))
    | none => n.toBinary64?.map fun x => scalar origin (.float x)
  | .text s => s.map fun s => scalar origin (.text s)
  | .array items =>
    if depth = 0 then none
    else (itemsOfJson? origin (depth - 1) items).map fun vs => array origin vs
  | .object members =>
    if depth = 0 then none
    else (membersOfJson? origin (depth - 1) [] members).map fun vs => table origin vs

/-- The values of the items of a JSON array. -/
def itemsOfJson? (origin : Option String) (depth : Nat) : List Json.Tree → Option (List Value)
  | [] => some []
  | item :: items => do
    return (← ofJson? origin depth item) :: (← itemsOfJson? origin depth items)

/-- The values of the members of a JSON object after those in `acc`. The last one of a name counts. -/
def membersOfJson? (origin : Option String) (depth : Nat) (acc : List (String × Value)) :
    List (Option String × Json.Tree) → Option (List (String × Value))
  | [] => some acc
  | (name, tree) :: rest => do
    let v ← ofJson? origin depth tree
    membersOfJson? origin depth (setEntry (← name) v acc) rest

end

end Value

/-- How deeply the arrays and objects of a JSON text may be nested. -/
def maxJsonDepth : Nat := 127

/-- The forms of a text. -/
inductive Form where
  | toml | json
deriving DecidableEq, Repr

/-- The extension of the files of a form. -/
def Form.extension : Form → String
  | toml => "toml"
  | json => "json"

/-- All forms, in the order in which files are looked for. -/
def Form.all : List Form := [toml, json]

/-- The layer of a text. -/
def Form.layer? (origin : Option String) (text : String) : Form → Option Layer
  | toml => (Toml.parse? text).map (Value.entriesOfToml origin)
  | json => do
    let v ← Value.ofJson? origin maxJsonDepth (← Json.Tree.parse? text)
    return v.asTable.2

/-! ### Files -/

/-- The files of the working directory and below, by name. -/
abbrev Files := List (String × String)

/-- The steps of a file name. Empty ones and single dots lead nowhere. -/
def fileSteps (name : String) : List (List Char) :=
  (Text.split '/' name.toList).filter fun step => !step.isEmpty && step != ['.']

/-- A file name in its shortest form. -/
def fileName (steps : List (List Char)) : String := String.ofList (Text.join '/' steps)

/-- The stem of a single step of a file name, and its extension. A dot in front starts none. -/
def stemAndExtension (step : List Char) : List Char × Option (List Char) :=
  let tail := (step.reverse.takeWhile (· != '.')).reverse
  if tail.length + 1 < step.length then (step.take (step.length - tail.length - 1), some tail)
  else (step, none)

/-- The name of a file with another extension. -/
def withExtension (extension : String) (steps : List (List Char)) : List (List Char) :=
  match steps.getLast? with
  | none => steps
  | some last =>
    steps.dropLast ++ [(stemAndExtension last).1 ++ '.' :: extension.toList]

/-- A file that was found. -/
structure FoundFile where
  name : String
  text : String
  /-- The form that its extension tells. -/
  form : Option Form

/-- Looks a file up by its steps. -/
def Files.file? (files : Files) (form : Option Form) (steps : List (List Char)) : Option FoundFile :=
  let name := fileName steps
  (List.find? (fun f => fileName (fileSteps f.1) == name) files).map fun f => ⟨name, f.2, form⟩

/-- Looks a file up under its name, and then under the extensions of all forms. An absolute name leads
out of the directory. -/
def Files.resolve? (files : Files) (name : String) : Option FoundFile :=
  if name.startsWith "/" then none
  else
    let steps := fileSteps name
    let extension := (steps.getLast?.bind fun last => (stemAndExtension last).2).map String.ofList
    let own := Form.all.find? fun form => extension == some form.extension
    (files.file? own steps).or <|
      Form.all.findSome? fun form => files.file? (some form) (withExtension form.extension steps)

/-- The names under which a file is looked for. -/
def fileCandidates (name : String) : List String :=
  let steps := fileSteps name
  fileName steps :: Form.all.map fun form => fileName (withExtension form.extension steps)

/-! ### The environment -/

/-- The variables of the environment. -/
abbrev Environment := List (String × String)

/-- What the names of the client's own variables start with, in any case. -/
def variableMark : List Char := ['s', 'h', 'i', 'p', '_']

/-- The small letter of a letter that has one among the ASCII letters. Beside the ASCII letters this is
the Kelvin sign. -/
def smallLetter (c : Char) : Char := if c = '\u212a' then 'k' else c.toLower

/-- A text with every two underscores replaced by a dot. -/
def dotted : List Char → List Char
  | '_' :: '_' :: cs => '.' :: dotted cs
  | c :: cs => c :: dotted cs
  | [] => []

/-- The written path that a variable stands for, if it is one of the client's own. -/
def variablePath? (name : String) : Option String :=
  let cs := name.toList
  if variableMark.isPrefixOf (cs.map smallLetter) then
    some (String.ofList ((dotted (cs.drop variableMark.length)).map smallLetter))
  else none

/-- Where the values of variables come from. -/
def environmentOrigin : String := "the environment"

/-- The layer of the environment. -/
def Environment.layer (env : Environment) : Layer :=
  env.filterMap fun (name, value) =>
    (variablePath? name).map fun path => (path, .scalar (some environmentOrigin) (.text value))

end StateHistory.Configuration
