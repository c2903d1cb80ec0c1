import StateHistory.Configuration.Value
import StateHistory.Endpoint.Basic

/-! # What can be wrong with a configuration

Everything that keeps a configuration from being used, as causes. The wording of each cause is in
`ConfigurationError.message` and nowhere else. A text that cannot be read has no wording here: what is
wrong with it is a matter of its form. -/

namespace StateHistory.Configuration

/-- A section of the configuration: a table of its own at the outermost level. -/
inductive Section where
  | node | stream | reconnect
deriving DecidableEq, Repr

namespace Section

/-- The name of a section. -/
def name : Section → String
  | node => "node"
  | stream => "stream"
  | reconnect => "reconnect"

/-- The title of a section in messages. -/
def title : Section → String
  | node => "struct NodeSettings"
  | stream => "struct StreamSettings"
  | reconnect => "struct ReconnectSettings"

/-- The members of a section. -/
def members : Section → List String
  | node => ["host", "port"]
  | stream => ["start_block", "stop_before"]
  | reconnect => ["initial_delay_ms", "max_delay_ms", "backoff_factor"]

end Section

/-- What a setting is read as. -/
inductive Kind where
  | integer | float | text
deriving DecidableEq, Repr

/-- The name of a kind in messages. -/
def Kind.label : Kind → String
  | integer => "an integer"
  | float => "a floating point"
  | text => "a string"

end Configuration

open StateHistory.Configuration in
/-- Why a configuration cannot be used. -/
inductive ConfigurationError where
  /-- A text of another form than its name tells. -/
  | unreadable
  /-- A file that was asked for and is not there. -/
  | missingFile (name : String)
  /-- A file whose name does not tell its form. -/
  | unknownForm (name : String)
  /-- A value that cannot be read as what its setting is. -/
  | wrongKind (value : Value) (kind : Kind) (key : String)
  /-- A scalar in the place of a section. -/
  | notSection (content : Scalar) (part : Section)
  /-- An array in the place of a section with fewer items than the section has members. -/
  | shortSection (length : Nat) (part : Section)
  /-- A section without one of its members. -/
  | missingMember (name : String)
  /-- An endpoint that cannot be used. -/
  | endpoint (error : EndpointError)
  /-- A first delay of zero. -/
  | zeroDelay
  /-- A limit of delays below the first delay. -/
  | lowLimit
  /-- A factor by which delays would not grow. -/
  | lowFactor
  /-- A last block that is not after the first one. -/
  | stopBeforeStart

namespace ConfigurationError

open StateHistory.Configuration

/-- The text of an error. -/
def message : ConfigurationError → String
  | unreadable => "unreadable configuration"
  | missingFile name => "configuration file \"" ++ name ++ "\" not found"
  | unknownForm name => "configuration file \"" ++ name ++ "\" is not of a registered file format"
  | wrongKind value kind key =>
    "invalid type: " ++ value.describe ++ ", expected " ++ kind.label ++ " for key \x60" ++ key ++ "\x60"
      ++ (match value.origin with
        | some origin => " in " ++ origin
        | none => "")
  | notSection content part => "invalid type: " ++ content.describe ++ ", expected " ++ part.title
  | shortSection length part =>
    "invalid length " ++ toString length ++ ", expected " ++ part.title ++ " with "
      ++ toString part.members.length ++ " elements"
  | missingMember name => "missing field \x60" ++ name ++ "\x60"
  | endpoint error => error.message
  | zeroDelay => "reconnect.initial_delay_ms must be positive"
  | lowLimit => "reconnect.max_delay_ms must not be below initial_delay_ms"
  | lowFactor => "reconnect.backoff_factor must be at least 1.0"
  | stopBeforeStart => "stream.stop_before must be after stream.start_block"

end ConfigurationError

end StateHistory
