import StateHistory.Message.Retention
import StateHistory.Session.Basic

/-! # Handles

A handle is what a session is controlled by, by its owner as well as by its consumer. Requests are
accepted while the session awaits the schema or streams; they go out in the order in which they were
accepted. A close may be asked for at any time, and only the first one counts.

`Handle α` is a program of uses of a handle with a result in `α`. Each use may depend on what the uses
before it showed. A handle gives no other access to a session than `Handle.run` does. -/

namespace StateHistory

/-- Why a request was not accepted. -/
inductive SendError where
  /-- The session is in a phase that takes no requests. -/
  | wrongPhase (type : String) (phase : Phase)
  /-- The node does not know requests of this type. -/
  | protocol (error : ProtocolError)
  /-- The session has met its end. -/
  | closed
deriving DecidableEq

/-- The text of an error. -/
def SendError.message : SendError → String
  | wrongPhase type phase => s!"cannot send {type} while connection is {phase.label}"
  | protocol error => error.message
  | closed => "connection is closed"

namespace Session

/-- The session after a request was accepted. -/
def send (s : Session) (r : Request) : Except SendError Session :=
  if !s.phase.takesRequests then .error (.wrongPhase r.typeName s.phase)
  else
    match Frame.encodeRequest s.catalog r with
    | .error e => .error (.protocol e)
    | .ok frame =>
      if s.isOpen then
        .ok { s with queue := s.queue ++ [.send frame], trace := s.trace ++ [.accepted r frame] }
      else .error .closed

/-- The session after a close was asked for. -/
def close (s : Session) (retry : Bool) : Session :=
  let s := s.note (.closeRequested retry)
  if s.isOpen then { s with queue := s.queue ++ [.close retry] } else s

end Session

/-- A program of uses of a handle. -/
inductive Handle (α : Type) where
  | done (result : α)
  | send (request : Request) (next : Except SendError Unit → Handle α)
  | close (retry : Bool) (next : Handle α)
  | phase (next : Phase → Handle α)
  | catalog (next : Option Schema.Catalog → Handle α)

namespace Handle

/-- One program after the other. -/
def bind {α β : Type} (f : α → Handle β) : Handle α → Handle β
  | done result => f result
  | send request next => .send request fun answer => bind f (next answer)
  | close retry next => .close retry (bind f next)
  | phase next => .phase fun p => bind f (next p)
  | catalog next => .catalog fun c => bind f (next c)

instance : Monad Handle where
  pure := done
  bind h f := h.bind f

/-- Runs a program on a session. -/
def run {α : Type} : Handle α → Session → α × Session
  | done result, s => (result, s)
  | send request next, s =>
    match s.send request with
    | .ok s => (next (.ok ())).run s
    | .error e => (next (.error e)).run s
  | close retry next, s => next.run (s.close retry)
  | phase next, s => (next s.phase).run s
  | catalog next, s => (next s.catalog).run s

/-- Makes a request. -/
def request (r : Request) : Handle (Except SendError Unit) := .send r .done

/-- Asks for the status of the node. -/
def requestStatus : Handle (Except SendError Unit) := request .status

/-- Asks for blocks from a height on. -/
def requestBlocks (start : UInt32) (held : List BlockPosition) : Handle (Except SendError Unit) :=
  request (.blocks (.streamFrom start held))

/-- Asks for blocks from a height on, or from where the node still has them. -/
def requestBlocksFrom (status : ChainStatus) (start : UInt32) (held : List BlockPosition) :
    Handle (Except SendError Unit) :=
  requestBlocks (status.resumeStart start) held

/-- Acknowledges results. -/
def acknowledge (messages : UInt32) : Handle (Except SendError Unit) :=
  request (.acknowledge messages)

/-- Asks for a close. -/
def requestClose (retry : Bool) : Handle Unit := .close retry (.done ())

/-- The phase of the session. -/
def currentPhase : Handle Phase := .phase .done

/-- The catalog of the session. -/
def currentCatalog : Handle (Option Schema.Catalog) := .catalog .done

end Handle

end StateHistory
