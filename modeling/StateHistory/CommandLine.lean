import StateHistory.Configuration.Options

/-! # The command line

The flags of the client, and what they ask for.

* A long flag is two hyphens and its name, a short one a hyphen and its letter. The value follows as the
  next word or, after a long flag and an equals sign or right after a short flag, in the same word.
* Every flag takes a value and may be given once. A word that starts with a hyphen is no value, unless
  it is nothing but a hyphen.
* Help and version end the reading as soon as they are met, and so does a word that is no flag. A flag
  without a value and a flag given twice are found when all words have been read. -/

namespace StateHistory

/-- The flags that take a value. -/
inductive Flag where
  | config | host | port | startBlock | stopBefore
deriving DecidableEq, Repr

namespace Flag

/-- All flags. -/
def all : List Flag := [config, host, port, startBlock, stopBefore]

/-- The long name of a flag. -/
def name : Flag → String
  | config => "config"
  | host => "host"
  | port => "port"
  | startBlock => "start_block"
  | stopBefore => "stop_before"

/-- The letter of a flag, if it has one. -/
def letter? : Flag → Option Char
  | config => some 'c'
  | port => some 'p'
  | startBlock => some 's'
  | host | stopBefore => none

/-- What a flag is for. -/
def purpose : Flag → String
  | config => "config file name"
  | host => "state history host"
  | port => "state history port"
  | startBlock => "first block to stream"
  | stopBefore => "stop when this block is reached"

end Flag

/-- Flags in the order in which they were given, each with its value if it has one. -/
abbrev GivenFlags := List (Flag × Option String)

/-- What a command line asks for other than to run. -/
inductive CommandLineEnd where
  | help
  | version
  /-- The command line makes no sense. -/
  | misuse
deriving DecidableEq, Repr

/-- The exit code of a client that does not run. -/
def CommandLineEnd.exitCode : CommandLineEnd → UInt8
  | help | version => 0
  | misuse => 1

namespace CommandLine

/-- A value in the same word as its flag, without the equals signs in front of it. -/
def attached (cs : List Char) : String := String.ofList (cs.dropWhile (· == '='))

/-- The flag of a word that starts with two hyphens, and its value if the word holds one. Further
hyphens in front do not matter. -/
def long (word : List Char) : Except CommandLineEnd (Flag × Option String) :=
  let cs := word.dropWhile (· == '-')
  let name := String.ofList (cs.takeWhile (· != '='))
  let value := match cs.dropWhile (· != '=') with
    | [] => none
    | _ :: rest => some (attached rest)
  if name = "help" then .error .help
  else if name = "version" then .error .version
  else
    match Flag.all.find? fun f => f.name == name with
    | some flag => .ok (flag, value)
    | none => .error .misuse

/-- The flag of a word that starts with one hyphen, and its value if the word holds one. -/
def short (word : List Char) : Except CommandLineEnd (Flag × Option String) :=
  match word.dropWhile (· == '-') with
  | [] => .error .misuse
  | c :: rest =>
    if c = 'h' then .error .help
    else if c = 'V' then .error .version
    else
      match Flag.all.find? fun f => f.letter? == some c with
      | some flag => .ok (flag, if rest.isEmpty then none else some (attached rest))
      | none => .error .misuse

/-- Whether a word can be a value. -/
def isValue (word : List Char) : Bool := word.head? != some '-' || word == ['-']

/-- Reads words. -/
def words : List String → Except CommandLineEnd GivenFlags
  | [] => .ok []
  | word :: rest => do
    let cs := word.toList
    if cs = ['-', '-'] then
      -- Only words that are no flags could follow, and there are none.
      if rest.isEmpty then return [] else throw .misuse
    else if isValue cs then throw .misuse
    else
      let (flag, value) ← if ['-', '-'].isPrefixOf cs then long cs else short cs
      match value, rest with
      | none, next :: rest =>
        if isValue next.toList then return (flag, some next) :: (← words rest)
        else return (flag, none) :: (← words (next :: rest))
      | value, rest => return (flag, value) :: (← words rest)
termination_by ws => ws.length

/-- The flags of a command line, each given once and with a value. -/
def parse (args : List String) : Except CommandLineEnd (List (Flag × String)) := do
  let given ← words args
  if (given.map (·.1)).eraseDups.length ≠ given.length then throw .misuse
  given.mapM fun (flag, value) =>
    match value with
    | some value => .ok (flag, value)
    | none => .error .misuse

/-- The text that explains the flags. -/
def helpText : String :=
  let flag (f : Flag) : String :=
    (match f.letter? with
      | some c => s!"    -{c}, "
      | none => "        ") ++ s!"--{f.name} <{f.name}>    {f.purpose}\n"
  "Streams blocks from a state-history node\n\nFLAGS:\n    -h, --help       Prints help information\n"
    ++ "    -V, --version    Prints version information\n\nOPTIONS:\n"
    ++ String.join (Flag.all.map flag)

end CommandLine

/-- What keeps a client from running. -/
inductive LaunchError where
  /-- A flag for a block whose value is no height. -/
  | notBlock (flag : Flag) (value : String)
  | configuration (error : ConfigurationError)

/-- The text of an error. -/
def LaunchError.message : LaunchError → String
  | notBlock flag value =>
    s!"--{flag.name} must be a block number, got " ++ Text.quoted value
  | configuration error => error.message

namespace CommandLine

/-- The height that a flag gives. -/
def blockFlag (flags : List (Flag × String)) (flag : Flag) : Except LaunchError (Option UInt32) :=
  match flags.lookup flag with
  | none => .ok none
  | some value =>
    match Digits.natural? 0x100000000 value.toList with
    | some n => .ok (some (UInt32.ofNat n))
    | none => .error (.notBlock flag value)

/-- What the flags insist on. -/
def overrides (flags : List (Flag × String)) : Except LaunchError Overrides := do
  let startBlock ← blockFlag flags .startBlock
  let stopBefore ← blockFlag flags .stopBefore
  return ⟨flags.lookup .host, flags.lookup .port, startBlock, stopBefore⟩

/-- The options of a client that is launched with flags. -/
def options (files : Configuration.Files) (env : Configuration.Environment)
    (flags : List (Flag × String)) : Except LaunchError Options := do
  let o ← overrides flags
  match Options.load files (flags.lookup .config) env o with
  | .ok options => return options
  | .error e => throw (.configuration e)

end CommandLine

end StateHistory
