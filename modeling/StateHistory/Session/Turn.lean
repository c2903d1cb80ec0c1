import StateHistory.Session.Consumer

/-! # Turns

A session goes forward by turns. A turn does at most one thing: it looks at its queue first, then at
what waits for the socket, and only then at what has come in. What the world has ready for a turn is a
`Readiness`.

* While a session opens, a turn takes a command or the outcome of the step that is under way.
* When it is open, a turn takes a command, or lets the socket take frames, or receives one frame. A
  socket that is not ready for all frames does not keep the session from receiving.
* A turn that meets an end only notes it. The turn after it tells the consumer and closes the session.

The first data frame is the schema, every later one is a result; whether a frame came as text or as
bytes does not matter. -/

namespace StateHistory

/-- What comes in on an open web socket. -/
inductive Incoming where
  | data (frame : Bytes)
  /-- A frame that only keeps the connection alive. -/
  | control
  /-- The node closes the connection. -/
  | closing
  /-- Reading failed. -/
  | failed (text : String)
  /-- The stream is over. -/
  | over
deriving DecidableEq

/-- What the world has ready. -/
structure Readiness where
  /-- The outcome of the step of the opening that is under way. -/
  opening : Option (Except String Unit)
  /-- How many frames the socket takes. -/
  room : Nat
  /-- Whether the frames that the socket took have gone out, or how writing failed. -/
  flush : Option (Except String Unit)
  incoming : Option Incoming

namespace Readiness

/-- Nothing is ready. -/
def nothing : Readiness := ⟨none, 0, none, none⟩

/-- The step of the opening that is under way is over. -/
def opened (outcome : Except String Unit) : Readiness := { nothing with opening := some outcome }

/-- The socket takes so many frames, and they go out. -/
def writable (frames : Nat) : Readiness := { nothing with room := frames, flush := some (.ok ()) }

/-- Something has come in. -/
def received (i : Incoming) : Readiness := { nothing with incoming := some i }

end Readiness

namespace Session

variable {σ : Type} (c : Consumer σ)

/-! ### Opening -/

/-- A turn while a step of the opening is under way, before the given phase. -/
def openingTurn (step : String) (next : Phase) (r : Readiness) (s : Session) : Session :=
  match s.queue with
  | .send _ :: rest => { s with queue := rest }.note .requestDropped
  | .close retry :: rest => { s with queue := rest }.meet (.requested retry)
  | [] =>
    match r.opening with
    | none => s
    | some (.error text) => s.meet (.transport step text)
    | some (.ok ()) =>
      let s := s.enter next
      if next = .awaitingSchema then s.note .opened else s

/-! ### Receiving -/

/-- Tells the consumer something. -/
def tell (call : Call) (s : Session) (k : σ) : Session × σ :=
  let ((outcome, k), s) := (c.answer call k).run (s.note (.called call))
  let s := s.note (.answered outcome)
  match call.ending? outcome with
  | none => (s, k)
  | some e => (s.meet e, k)

/-- Receives a schema. -/
def receiveSchema (frame : Bytes) (s : Session) (k : σ) : Session × σ :=
  match Frame.parseSchema frame with
  | .error e => ((s.note (.schemaRefused e)).meet (.protocol e), k)
  | .ok (catalog, entries) =>
    let s := entries.foldl (fun s e => s.note (.reported e)) s
    let s := s.note (.schemaAccepted catalog.version catalog.size)
    tell c .schema ({ s with catalog := some catalog }.enter .streaming) k

/-- The call that hands a result to a consumer. -/
def callOf (result : Result) (frame : Bytes) : Call :=
  match result with
  | .status status => .status status frame
  | .blocks report => .blocks report frame

/-- Receives a result. -/
def receiveResult (frame : Bytes) (s : Session) (k : σ) : Session × σ :=
  match s.catalog with
  | none => (s.meet (.protocol .resultBeforeSchema), k)
  | some catalog =>
    match Frame.decodeResult catalog frame with
    | .error e => ((s.note (.resultRefused frame.length e)).meet (.protocol e), k)
    | .ok (result, entries) =>
      tell c (callOf result frame) (entries.foldl (fun s e => s.note (.reported e)) s) k

/-- The step of the transport that reads. -/
def readStep : String := "async_read"

/-- The step of the transport that writes. -/
def writeStep : String := "async_write"

/-- What is said when the node closes the connection. -/
def closedByPeer : String := "connection closed by peer"

/-- What is said when a stream is over. -/
def endOfStream : String := "end of stream"

/-- Receives what has come in. -/
def receive (i : Incoming) (s : Session) (k : σ) : Session × σ :=
  match i with
  | .data frame =>
    if s.phase = .awaitingSchema then receiveSchema c frame s k else receiveResult c frame s k
  | .control => (s, k)
  | .closing => (s.meet (.transport readStep closedByPeer), k)
  | .failed text => (s.meet (.transport readStep text), k)
  | .over => (s.meet (.transport readStep endOfStream), k)

/-! ### Writing -/

/-- Hands frames to the socket, as many as it takes. -/
def hand (frames : Nat) (s : Session) : Session :=
  { s with
    written := s.written ++ s.outbound.take frames
    outbound := s.outbound.drop frames }

/-! ### Turns -/

/-- A turn of an open session. -/
def exchangeTurn (r : Readiness) (s : Session) (k : σ) : Session × σ :=
  match s.queue with
  | .send frame :: rest =>
    ({ s with queue := rest, outbound := s.outbound ++ [frame], unflushed := true }, k)
  | .close retry :: rest => ({ s with queue := rest }.meet (.requested retry), k)
  | [] =>
    let s := if s.unflushed then s.hand r.room else s
    match s.unflushed, s.outbound, r.flush with
    | true, [], some (.ok ()) => ({ s with unflushed := false }, k)
    | true, _, some (.error text) => (s.meet (.transport writeStep text), k)
    | _, _, _ =>
      match r.incoming with
      | some i => receive c i s k
      | none => (s, k)

/-- The last turn: tells the consumer of the end, and closes the session. -/
def finish (e : Ending) (s : Session) (k : σ) : Session × σ :=
  let s := (s.note (.ended e)).note (.notified e.retry)
  let ((panicked, k), s) := (c.onEnd e.retry k).run s
  let s := match panicked with
    | some p => s.note (.notificationPanicked p)
    | none => s
  (s.enter .closed, k)

/-- A turn. -/
def turn (r : Readiness) (s : Session) (k : σ) : Session × σ :=
  match s.phase, s.ending with
  | .closed, _ => (s, k)
  | _, some e => finish c e s k
  | .disconnected, none => (s.enter .resolving, k)
  | .resolving, none => (s.openingTurn "resolve" .connecting r, k)
  | .connecting, none => (s.openingTurn "connect" .handshaking r, k)
  | .handshaking, none => (s.openingTurn "handshake" .awaitingSchema r, k)
  | .awaitingSchema, none => exchangeTurn c r s k
  | .streaming, none => exchangeTurn c r s k

/-! ### Runs -/

/-- One move in the life of a session: the session takes a turn, or somebody uses a handle. Whoever does
so may share the state of the consumer. -/
inductive Move (σ : Type) where
  | turn (r : Readiness)
  | use (h : σ → Handle σ)

/-- The session after a move. -/
def move (m : Move σ) (s : Session) (k : σ) : Session × σ :=
  match m with
  | .turn r => turn c r s k
  | .use h =>
    let (k, s) := (h k).run s
    (s, k)

/-- The session after moves. -/
def moves (ms : List (Move σ)) (s : Session) (k : σ) : Session × σ :=
  ms.foldl (fun (s, k) m => move c m s k) (s, k)

/-- Turns with nothing coming in, and with room for every frame. -/
def turns : (count : Nat) → Session → σ → Session × σ
  | 0, s, k => (s, k)
  | count + 1, s, k =>
    let (s, k) := turn c (.writable s.outbound.length) s k
    turns count s k

/-- The session when it has done all that it can do by itself: every command of its queue takes a turn,
then its frames go out, or it closes. -/
def settle (s : Session) (k : σ) : Session × σ := turns c (s.queue.length + 2) s k

/-- The session after moves that each leave it the time to settle, and how many of them were made until
it was closed. -/
def play : List (Move σ) → Session → σ → Nat × Session × σ
  | [], s, k => (0, s, k)
  | m :: ms, s, k =>
    if s.phase = .closed then (0, s, k)
    else
      let (s, k) := move c m s k
      let (s, k) := settle c s k
      let (made, s, k) := play ms s k
      (made + 1, s, k)

/-- The moves that open a session, for the outcomes of the steps of the opening. -/
def openingMoves (outcomes : List (Except String Unit)) : List (Move σ) :=
  .turn .nothing :: outcomes.map fun o => .turn (.opened o)

end Session

end StateHistory
