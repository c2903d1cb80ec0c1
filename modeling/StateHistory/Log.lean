/-! # Log entries

What the library reports beside its results: a level and a text. Entries are values; whoever runs the
library decides what becomes of them. -/

namespace StateHistory

/-- How much an entry matters. -/
inductive LogLevel where
  | trace | debug | info | warn | error
deriving DecidableEq, Repr

/-- The name of a level. -/
def LogLevel.label : LogLevel → String
  | trace => "TRACE"
  | debug => "DEBUG"
  | info => "INFO"
  | warn => "WARN"
  | error => "ERROR"

/-- One report. -/
structure LogEntry where
  level : LogLevel
  text : String
deriving DecidableEq, Repr

/-- The line of an entry. -/
def LogEntry.render (e : LogEntry) : String := e.level.label ++ " " ++ e.text

end StateHistory
