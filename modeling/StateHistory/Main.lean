import StateHistory.CommandLine
import StateHistory.Follow.Follower

/-! # The client

The command-line client. It follows the chain of a node and reports what it sees on standard error.

The web socket itself is held by a relay at the other end of standard input and output. The relay writes
a line for everything that happens: `open` when a connection is open, `fail` and a text when it could not
be opened, the hexadecimal digits of every data frame, `close` when the node closes the connection, and
`lost` and a text when it breaks. Every line of standard output is a frame to be sent. The end of standard
input asks the client to stop. -/

namespace StateHistory.Client

/-- The bytes of hexadecimal digits. -/
def unhex : List Char → Bytes
  | a :: b :: cs =>
    UInt8.ofNat (16 * (Digits.value? a).getD 0 + (Digits.value? b).getD 0) :: unhex cs
  | _ => []

/-- What a line of the relay says has come in. -/
def incoming (line : String) : Incoming :=
  if line == "close" then .closing
  else if line.startsWith "lost" then .failed (line.drop 5).toString
  else if line.isEmpty then .control
  else .data (unhex line.toList)

/-- What a line of the relay says of the opening. -/
def outcomes (line : String) : List (Except String Unit) :=
  if line == "open" then [.ok (), .ok (), .ok ()] else [.ok (), .error (line.drop 5).toString]

/-- The next line of the relay. -/
def nextLine : IO (Option String) := do
  let line ← (← IO.getStdin).getLine
  return if line.isEmpty then none else some line.trimAscii.toString

/-- Reports what is new in a log. -/
def report (seen : Nat) (log : List LogEntry) : IO Nat := do
  for e in log.drop seen do IO.eprintln e.render
  return log.length

/-- Sends the frames that a session has written since then. -/
def transmit (sent : Nat) (s : Session) : IO Nat := do
  let stdout ← IO.getStdout
  for frame in s.written.drop sent do stdout.putStrLn frame.toHex
  stdout.flush
  return s.written.length

/-- One session, up to its end or the end of standard input. Whether it ended by itself is part of the
answer. -/
partial def converse (sent logged told : Nat) (s : Session) (f : Follower) :
    IO (Bool × Session × Follower) := do
  let sent ← transmit sent s
  let logged ← report logged s.log
  let told ← report told (f.trace.map FollowerEvent.entry)
  if s.phase = .closed then return (true, s, f)
  match ← nextLine with
  | none =>
    let (s, f) := Session.settle Follower.consumer (s.close false) f
    let _ ← report logged s.log
    return (false, s, f)
  | some line =>
    let (_, s, f) := Session.play Follower.consumer [.turn (.received (incoming line))] s f
    converse sent logged told s f

/-- Sessions one after the other. -/
partial def follow (f : Follower) : IO UInt32 := do
  match Session.connect f.options.node with
  | .error e =>
    IO.eprintln e.message
    return 1
  | .ok s =>
    let some line ← nextLine | return 0
    let told := f.trace.length
    let (_, s, f') := Session.play Follower.consumer (Session.openingMoves (outcomes line)) s f
    let (ended, s, f') ← converse 0 0 told s f'
    if !ended then return 0
    let jitter := Binary64.ofDecimal false (75 + (← IO.rand 0 50)) (-2)
    let told := f'.trace.length
    let retry := (s.ending.map (·.retry)).getD false
    let (verdict, f') := f'.afterSession f.progress.received retry jitter
    let _ ← report told (f'.trace.map FollowerEvent.entry)
    match verdict with
    | .finished => return 0
    | .failed =>
      IO.eprintln Follower.failureMessage
      return 1
    | .again millis =>
      IO.sleep (UInt32.ofNat (min millis 0xffffffff))
      follow f'

/-- The files among some names that can be read. -/
def readFiles (names : List String) : IO Configuration.Files := do
  let mut files := []
  for name in names do
    try files := files ++ [(name, ← IO.FS.readFile name)]
    catch _ => pure ()
  return files

/-- The variables among some names that are set. -/
def readEnvironment (names : List String) : IO Configuration.Environment := do
  let mut env := []
  for name in names do
    if let some value ← IO.getEnv name then env := env ++ [(name, value)]
  return env

/-- The client, for the words of its command line. -/
def run (args : List String) : IO UInt32 := do
  match CommandLine.parse args with
  | .error e =>
    match e with
    | .help => IO.print CommandLine.helpText
    | .version => IO.println "ship_client"
    | .misuse => IO.eprint CommandLine.helpText
    return e.exitCode.toUInt32
  | .ok flags =>
    let name := (flags.lookup .config).getD Options.defaultFile
    let files ← readFiles (Configuration.fileCandidates name)
    let env ← readEnvironment Options.variableNames
    match CommandLine.options files env flags with
    | .error e =>
      IO.eprintln e.message
      return 1
    | .ok options => follow (Follower.start options)

end StateHistory.Client

def main (args : List String) : IO UInt32 := StateHistory.Client.run args
