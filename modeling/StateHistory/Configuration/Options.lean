import StateHistory.Configuration.Error
import StateHistory.Configuration.Source
import StateHistory.Follow.Delay

/-! # Options

The options of a client, read from a configuration of three layers: defaults, then what the sources give, then
what the caller insists on. The sources are a file and the environment, merged with each other beforehand. A later
one wins over an earlier one, option by option.

Each section of the configuration is a table with a member for every option, or an array of the options
in their order; what else it holds does not matter. Integers are cut to the width of their option. The
options of all sections are read before any of them is checked. -/

namespace StateHistory

open StateHistory.Configuration

/-- Which blocks are wanted. -/
structure StreamOptions where
  /-- The first block. -/
  startBlock : UInt32
  /-- The block to stop before, or 0 to go on for ever. -/
  stopBefore : UInt32
deriving DecidableEq, Repr

/-- How delays between attempts grow. Delays are milliseconds. -/
structure ReconnectOptions where
  initialDelay : UInt64
  maxDelay : UInt64
  factor : Binary64
deriving DecidableEq, Repr

/-- The options of a client. -/
structure Options where
  node : Endpoint
  stream : StreamOptions
  reconnect : ReconnectOptions
deriving DecidableEq, Repr

/-- The delays before the first attempt. -/
def ReconnectOptions.delay (r : ReconnectOptions) : Delay :=
  .start r.initialDelay.toNat r.maxDelay.toNat r.factor

/-- Options that win over every other layer. -/
structure Overrides where
  host : Option String
  port : Option String
  startBlock : Option UInt32
  stopBefore : Option UInt32
deriving DecidableEq, Repr

namespace Configuration

/-! ### Members -/

/-- The value of a member of a section, and its key in messages. -/
structure Member where
  key : String
  value : Value

namespace Member

/-- A member as an integer. -/
def integer (m : Member) : Except ConfigurationError Int :=
  match m.value.scalar?.bind Scalar.integer? with
  | some n => .ok n
  | none => .error (.wrongKind m.value .integer m.key)

/-- A member as an integer, cut to 32 bits. -/
def word32 (m : Member) : Except ConfigurationError UInt32 := return UInt32.ofInt (← m.integer)

/-- A member as an integer, cut to 64 bits. -/
def word64 (m : Member) : Except ConfigurationError UInt64 := return UInt64.ofInt (← m.integer)

/-- A member as a double-precision number. -/
def float (m : Member) : Except ConfigurationError Binary64 :=
  match m.value.scalar?.bind Scalar.float? with
  | some x => .ok x
  | none => .error (.wrongKind m.value .float m.key)

/-- A member as a text. -/
def text (m : Member) : Except ConfigurationError String :=
  match m.value.scalar?.bind Scalar.text? with
  | some s => .ok s
  | none => .error (.wrongKind m.value .text m.key)

end Member

/-! ### Sections -/

namespace Section

/-- The members that the value of a section has. -/
def contents (part : Section) (v : Value) : Except ConfigurationError (String → Option Member) :=
  match v with
  | .table _ entries =>
    .ok fun name => (entries.lookup name).map fun v => ⟨part.name ++ "." ++ name, v⟩
  | .array _ items =>
    .ok fun name =>
      let i := part.members.idxOf name
      items[i]?.map fun v => ⟨part.name ++ "[" ++ toString i ++ "]", v⟩
  | .scalar _ content => .error (.notSection content part)

/-- What is wrong with the value of a section that lacks a member. -/
def lacking (part : Section) (v : Value) (name : String) : ConfigurationError :=
  match v with
  | .array _ items => .shortSection items.length part
  | _ => .missingMember name

/-- A member that has to be there. -/
def required {α : Type} (part : Section) (v : Value) (name : String) (member : Option α) :
    Except ConfigurationError α :=
  match member with
  | some a => .ok a
  | none => .error (part.lacking v name)

end Section

end Configuration

/-- Reads the section of the node. -/
def Endpoint.ofValue (v : Value) : Except ConfigurationError Endpoint := do
  let member ← Section.node.contents v
  let host ← (member "host").mapM Member.text
  let port ← (member "port").mapM Member.text
  return ⟨← Section.node.required v "host" host, ← Section.node.required v "port" port⟩

/-- Reads the section of the stream. -/
def StreamOptions.ofValue (v : Value) : Except ConfigurationError StreamOptions := do
  let member ← Section.stream.contents v
  let start ← (member "start_block").mapM Member.word32
  let stop ← (member "stop_before").mapM Member.word32
  return ⟨← Section.stream.required v "start_block" start,
    ← Section.stream.required v "stop_before" stop⟩

/-- Reads the section of the delays. -/
def ReconnectOptions.ofValue (v : Value) : Except ConfigurationError ReconnectOptions := do
  let member ← Section.reconnect.contents v
  let initial ← (member "initial_delay_ms").mapM Member.word64
  let limit ← (member "max_delay_ms").mapM Member.word64
  let factor ← (member "backoff_factor").mapM Member.float
  return ⟨← Section.reconnect.required v "initial_delay_ms" initial,
    ← Section.reconnect.required v "max_delay_ms" limit,
    ← Section.reconnect.required v "backoff_factor" factor⟩

namespace Options

/-! ### Reading -/

/-- The value of a section. -/
def sectionValue (root : Value) (part : Section) : Except ConfigurationError Value :=
  match root.at? [.member part.name] with
  | some v => .ok v
  | none => .error (.missingMember part.name)

/-- Reads the options from a configuration. -/
def ofValue (root : Value) : Except ConfigurationError Options := do
  return ⟨← Endpoint.ofValue (← sectionValue root .node),
    ← StreamOptions.ofValue (← sectionValue root .stream),
    ← ReconnectOptions.ofValue (← sectionValue root .reconnect)⟩

/-! ### Checking -/

/-- Fails unless the options can be used. -/
def check (o : Options) : Except ConfigurationError Unit := do
  match o.node.location with
  | .ok _ => pure ()
  | .error e => throw (.endpoint e)
  if o.reconnect.initialDelay = 0 then throw .zeroDelay
  if o.reconnect.maxDelay < o.reconnect.initialDelay then throw .lowLimit
  if o.reconnect.factor.isNaN || o.reconnect.factor.lt (Binary64.ofNat 1) then throw .lowFactor
  if o.stream.stopBefore ≠ 0 ∧ o.stream.stopBefore ≤ o.stream.startBlock then throw .stopBeforeStart

/-! ### Layers -/

/-- What every option is unless a layer says otherwise. -/
def defaults : Layer :=
  [("node.host", .plain (.text "127.0.0.1")), ("node.port", .plain (.text "8080")),
   ("stream.start_block", .plain (.integer 0)), ("stream.stop_before", .plain (.integer 0)),
   ("reconnect.initial_delay_ms", .plain (.integer 500)),
   ("reconnect.max_delay_ms", .plain (.integer 30000)),
   ("reconnect.backoff_factor", .plain (.float (Binary64.ofNat 2)))]

/-- The variable of the environment that sets an option, in capitals. -/
def variableName (path : String) : String :=
  String.ofList (variableMark.map Char.toUpper ++ path.toList.flatMap fun c =>
    if c = '.' then ['_', '_'] else [c.toUpper])

/-- The variables of all options. -/
def variableNames : List String := defaults.map fun (path, _) => variableName path

end Options

/-- The layer of overrides. -/
def Overrides.layer (o : Overrides) : Layer :=
  (o.host.map fun s => ("node.host", .plain (.text s))).toList
    ++ (o.port.map fun s => ("node.port", .plain (.text s))).toList
    ++ (o.startBlock.map fun n => ("stream.start_block", .plain (.integer n.toNat))).toList
    ++ (o.stopBefore.map fun n => ("stream.stop_before", .plain (.integer n.toNat))).toList

namespace Options

/-- The options of a file's layer, an environment and overrides: the two sources are merged with each other, and
the result is laid over the defaults. The entries of each source are put in the order in which they are listed. -/
def ofLayers (file : Layer) (env : Environment) (o : Overrides) : Except ConfigurationError Options := do
  let options ← ofValue <|
    [defaults, .merge [file, env.layer], o.layer].foldl Value.putLayer Value.empty
  options.check
  return options

/-- The options of a TOML text, an environment and overrides. -/
def ofToml (text : String) (env : Environment) (o : Overrides) : Except ConfigurationError Options :=
  match Form.toml.layer? none text with
  | some layer => ofLayers layer env o
  | none => .error .unreadable

/-- The name of the file that is looked for when none is named. -/
def defaultFile : String := "config"

/-- The layer of a file. A file that is not named may be missing. -/
def fileLayer (files : Files) (name : Option String) : Except ConfigurationError Layer :=
  match files.resolve? (name.getD defaultFile), name with
  | some ⟨file, text, some form⟩, _ =>
    match form.layer? (some file) text with
    | some layer => .ok layer
    | none => .error .unreadable
  | some ⟨file, _, none⟩, some _ => .error (.unknownForm file)
  | none, some name => .error (.missingFile name)
  | _, none => .ok []

/-- The options of a file, an environment and overrides. -/
def load (files : Files) (name : Option String) (env : Environment) (o : Overrides) :
    Except ConfigurationError Options := do
  ofLayers (← fileLayer files name) env o

end Options

end StateHistory
