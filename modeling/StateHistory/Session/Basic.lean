import StateHistory.Endpoint.Basic
import StateHistory.Frame
import StateHistory.Session.Ending

/-! # Sessions

A session is one connection to a node, from the attempt to reach it to its end. It passes through its
phases in a fixed order and may end in every one of them.

Whoever holds a handle of a session talks to it through a queue of commands. The session takes commands
from the queue one at a time; a request that it has taken waits among the outbound frames until the
socket takes it. Once the session has met its end, the queue takes no further commands.

The trace is what has happened so far: the phases entered, the requests accepted and the closes asked
for, what the consumer was told and what it answered, and how it ended. The log is a view of the trace
(`Event.entry?`). -/

namespace StateHistory

/-- The phases of a session. -/
inductive Phase where
  | disconnected | resolving | connecting | handshaking | awaitingSchema | streaming | closed
deriving DecidableEq, Repr

namespace Phase

/-- The name of a phase. -/
def label : Phase → String
  | disconnected => "Disconnected"
  | resolving => "Resolving"
  | connecting => "Connecting"
  | handshaking => "Handshaking"
  | awaitingSchema => "AwaitingSchema"
  | streaming => "Streaming"
  | closed => "Closed"

/-- Whether requests may be made in a phase. -/
def takesRequests : Phase → Bool
  | awaitingSchema | streaming => true
  | _ => false

end Phase

/-- Where a session connects to: the host to dial, the port, and the location of the web socket. -/
structure Target where
  endpoint : Endpoint
  host : String
  port : Nat
  url : Url
deriving DecidableEq

/-- The target of an endpoint. -/
def Target.ofEndpoint (e : Endpoint) : Except EndpointError Target := do
  let url ← e.location
  return ⟨e, e.dialHost, ← e.portNumber, url⟩

/-- What a handle asks of a session. -/
inductive Command where
  | send (frame : Bytes)
  | close (retry : Bool)
deriving DecidableEq

/-- What a consumer is told. Results come with the frame they were read from. -/
inductive Call where
  | schema
  | status (status : ChainStatus) (frame : Bytes)
  | blocks (report : BlockReport) (frame : Bytes)
deriving DecidableEq

/-- The name of a call in messages. -/
def Call.label : Call → String
  | schema => "received_abi"
  | status .. => "received_status"
  | blocks .. => "received_blocks"

/-- A panic, with its text if it has one. -/
structure Panic where
  text : Option String
deriving DecidableEq, Repr

/-- The text of a panic in messages. -/
def Panic.message (p : Panic) : String := p.text.getD "unknown panic"

/-- What becomes of a session after a result. -/
inductive Flow where
  | proceed | stop
deriving DecidableEq, Repr

/-- How a consumer goes wrong. -/
inductive Failure where
  | error (text : String)
  | panic (panic : Panic)
deriving DecidableEq, Repr

/-- The text of a failure, after the name of the call. -/
def Failure.message : Failure → String
  | error text => " failed: " ++ text
  | panic p => " panicked: " ++ p.message

/-! ### Events -/

/-- What happens in a session. -/
inductive Event where
  /-- The attempt began. -/
  | began
  | entered (previous next : Phase)
  /-- The web socket is open. -/
  | opened
  /-- A request taken from the queue before the session was open was dropped. -/
  | requestDropped
  /-- A request was accepted, as the given frame. -/
  | accepted (request : Request) (frame : Bytes)
  /-- Somebody asked for a close. -/
  | closeRequested (retry : Bool)
  /-- Reading a frame had something to report. -/
  | reported (entry : LogEntry)
  | schemaRefused (error : ProtocolError)
  | schemaAccepted (version : String) (size : Nat)
  | resultRefused (length : Nat) (error : ProtocolError)
  /-- The consumer was told something. -/
  | called (call : Call)
  /-- The consumer has dealt with what it was told. -/
  | answered (outcome : Except Failure Flow)
  /-- Accepted requests that the socket will not see any more. -/
  | unsent (count : Nat)
  | ended (ending : Ending)
  /-- The consumer was told of the end, and whether another attempt makes sense. -/
  | notified (retry : Bool)
  | notificationPanicked (panic : Panic)

namespace Event

/-- The report of an ending. -/
def endingEntry (url : String) (e : Ending) : LogEntry :=
  match e with
  | .transport .. => ⟨.error, url ++ " " ++ e.message⟩
  | .protocol _ | .consumer _ => ⟨.error, "closing " ++ url ++ ": " ++ e.message⟩
  | .stopped | .requested _ => ⟨.info, "closing " ++ url ++ ": " ++ e.message⟩

/-- The report of an event, if it has one. -/
def entry? (t : Target) : Event → Option LogEntry
  | began => some ⟨.info, "connecting to state history at " ++ t.endpoint.render⟩
  | entered previous next =>
    some ⟨.debug, s!"{t.host}:{t.port} {previous.label} -> {next.label}"⟩
  | opened => some ⟨.info, "connected to " ++ t.url.render⟩
  | requestDropped => some ⟨.warn, "dropping request queued before the session opened"⟩
  | reported entry => some entry
  | schemaRefused error => some ⟨.error, s!"invalid schema from {t.url.render}: {error.message}"⟩
  | schemaAccepted version size => some ⟨.debug, s!"schema {version} with {size} types"⟩
  | resultRefused length error =>
    some ⟨.error, s!"failed to decode {length} byte result frame: {error.message}"⟩
  | unsent count => some ⟨.debug, s!"dropping {count} unsent requests"⟩
  | ended ending => some (endingEntry t.url.render ending)
  | notificationPanicked panic => some ⟨.error, "closed callback panicked: " ++ panic.message⟩
  | accepted .. | closeRequested _ | called _ | answered _ | notified _ => none

end Event

/-! ### The state of a session -/

/-- A session. -/
structure Session where
  target : Target
  phase : Phase
  /-- The catalog of the schema, once it has been accepted. -/
  catalog : Option Schema.Catalog
  /-- Whether the queue takes commands. -/
  isOpen : Bool
  queue : List Command
  /-- Frames that wait for the socket, the oldest first. -/
  outbound : List Bytes
  /-- Whether frames may not have gone out yet. -/
  unflushed : Bool
  /-- Frames that the socket has taken, the oldest first. -/
  written : List Bytes
  ending : Option Ending
  /-- The events so far, the oldest first. -/
  trace : List Event

namespace Session

/-- A session that is about to begin. -/
def start (t : Target) : Session where
  target := t
  phase := .disconnected
  catalog := none
  isOpen := true
  queue := []
  outbound := []
  unflushed := false
  written := []
  ending := none
  trace := [.began]

/-- A session to an endpoint. -/
def connect (e : Endpoint) : Except EndpointError Session := return start (← Target.ofEndpoint e)

/-- The reports of a session. -/
def log (s : Session) : List LogEntry := s.trace.filterMap (Event.entry? s.target)

/-- Notes an event. -/
def note (s : Session) (e : Event) : Session := { s with trace := s.trace ++ [e] }

/-- Enters a phase. -/
def enter (s : Session) (p : Phase) : Session :=
  { s with phase := p, trace := s.trace ++ [.entered s.phase p] }

/-- Meets an end. What is left in the queue and among the outbound frames stays there for ever. -/
def meet (s : Session) (e : Ending) : Session :=
  let s := { s with isOpen := false, ending := some e }
  if s.outbound.isEmpty then s else s.note (.unsent s.outbound.length)

end Session

end StateHistory
