import StateHistory.Configuration.Options
import StateHistory.Follow.Progress
import StateHistory.Session.Turn

/-! # Following a chain

A follower streams blocks from a node, one session after the other, until the block to stop before is
reached, until somebody asks it to stop, or until a session ends in a way that another attempt will not
mend.

As the consumer of a session it asks for the status once the schema is there, and for blocks once the
status is there: from the height that its progress expects next, with the positions it remembers. It
records every block.

After a session, `afterSession` says what comes next. A session that brought at least one block takes the
delay back to where it started; every attempt makes the next delay longer. -/

namespace StateHistory

/-- What a follower reports. -/
inductive FollowerEvent where
  | nodeStatus (status : ChainStatus)
  /-- The node has no further block at present. -/
  | caughtUp (head : UInt32)
  /-- A block belongs to another fork than the ones before it. -/
  | forkSwitch (number : UInt32)
  | block (position : BlockPosition) (head lastIrreversible : UInt32)
  | deltas (value : Json)
  | deltasRefused (error : ProtocolError)
  /-- The block to stop before has been reached. -/
  | reached (stop : UInt32) (received : Nat)
  | reconnecting (millis : Nat)
deriving Inhabited

/-- The report of an event. -/
def FollowerEvent.entry : FollowerEvent → LogEntry
  | nodeStatus s =>
    ⟨.info, s!"node head {s.head.number} irreversible {s.lastIrreversible.number}, "
      ++ s!"traces [{s.traces.first}, {s.traces.past}) "
      ++ s!"chain state [{s.chainState.first}, {s.chainState.past})"⟩
  | caughtUp head => ⟨.debug, s!"caught up at head {head}"⟩
  | forkSwitch number => ⟨.warn, s!"fork switch at block {number}"⟩
  | block position head lastIrreversible =>
    ⟨.info, s!"block {position.number} {position.id.bytes.toHex} head {head} "
      ++ s!"irreversible {lastIrreversible}"⟩
  | deltas value => ⟨.trace, "deltas " ++ value.render⟩
  | deltasRefused error => ⟨.trace, "deltas not decodable: " ++ error.message⟩
  | reached stop received => ⟨.info, s!"reached block {stop}, {received} blocks received"⟩
  | reconnecting millis => ⟨.info, s!"reconnecting in {millis} ms"⟩

/-- A follower, between two sessions or in one. -/
structure Follower where
  options : Options
  progress : Progress
  delay : Delay
  /-- What it has reported so far, the oldest first. -/
  trace : List FollowerEvent

namespace Follower

/-- A follower that has not begun. -/
def start (o : Options) : Follower := ⟨o, .start o.stream.startBlock, o.reconnect.delay, []⟩

/-- Notes an event. -/
def note (f : Follower) (e : FollowerEvent) : Follower := { f with trace := f.trace ++ [e] }

/-! ### In a session -/

/-- The outcome of a call that made a request. -/
def requested {α : Type} (a : α) : Except SendError Unit → Except Failure α
  | .ok () => .ok a
  | .error e => .error (.error e.message)

/-- Asks for the status. -/
def onSchema : Answer Follower Unit := fun f => do
  return (requested () (← Handle.requestStatus), f)

/-- Asks for the blocks that come next. -/
def onStatus (status : ChainStatus) (_frame : Bytes) : Answer Follower Flow := fun f => do
  let answer ← Handle.requestBlocksFrom status f.progress.nextBlock f.progress.positions
  return (requested .proceed answer, f.note (.nodeStatus status))

/-- The type of the changes that come with a block. -/
def deltasType : String := "table_delta[]"

/-- The event of the changes that come with a block. -/
def deltasEvent (c : Schema.Catalog) (deltas : Bytes) : FollowerEvent :=
  match c.toJson deltasType deltas with
  | .ok value => .deltas value
  | .error e => .deltasRefused e

/-- Whether the block to stop before has been reached. -/
def hasReached (f : Follower) : Bool :=
  f.options.stream.stopBefore != 0 && f.options.stream.stopBefore ≤ f.progress.nextBlock

/-- The follower after a block, with the events of it. -/
def takeBlock (f : Follower) (report : BlockReport) (block : BlockPosition) : Follower :=
  let lastIrreversible := report.lastIrreversible.number
  let f' := if f.progress.forks block then f.note (.forkSwitch block.number) else f
  { f' with progress := f.progress.record block lastIrreversible }.note
    (.block block report.head.number lastIrreversible)

/-- Records a block, and stops when it is the last one. -/
def onBlocks (report : BlockReport) (_frame : Bytes) : Answer Follower Flow := fun f =>
  match report.block with
  | none => return (.ok .proceed, f.note (.caughtUp report.head.number))
  | some block => do
    let f := f.takeBlock report block
    let f := match ← Handle.currentCatalog, report.deltas with
      | some c, some deltas => f.note (deltasEvent c deltas)
      | _, _ => f
    if f.hasReached then
      return (.ok .stop, { f with progress := { f.progress with finished := true } })
    else return (.ok .proceed, f)

/-- A follower as the consumer of a session. -/
def consumer : Consumer Follower where
  onSchema := onSchema
  onStatus := onStatus
  onBlocks := onBlocks
  onEnd := fun _ f => return (none, f)

/-! ### Between sessions -/

/-- What comes after a session. -/
inductive Verdict where
  /-- The block to stop before has been reached. -/
  | finished
  /-- Another session will not do better. -/
  | failed
  /-- Another session follows after some milliseconds. -/
  | again (millis : Nat)
deriving DecidableEq, Repr

/-- What is said of a follower that failed. -/
def failureMessage : String := "state history connection failed and will not be retried"

/-- What comes after a session that ended with the given flag and before which `before` blocks had been
received, and the follower from then on. The delay is waited with the given deviation. -/
def afterSession (f : Follower) (before : Nat) (retry : Bool) (jitter : Binary64) :
    Verdict × Follower :=
  if f.progress.finished then
    (.finished, f.note (.reached f.options.stream.stopBefore f.progress.received))
  else if !retry then (.failed, f)
  else
    let delay := if before < f.progress.received then f.delay.reset else f.delay
    let millis := delay.wait jitter
    (.again millis, { f with delay := delay.next }.note (.reconnecting millis))

/-! ### Runs -/

/-- One session of a run: what is ready for each of its turns, and the deviation of the delay after it.
Nobody but the follower has a handle of the session. -/
structure Visit where
  turns : List Readiness
  jitter : Binary64

/-- A session of a follower, and the follower after it. -/
def visit (f : Follower) (turns : List Readiness) : Except EndpointError (Session × Follower) := do
  return (← Session.connect f.options.node).moves consumer (turns.map .turn) f

/-- How a run ends. -/
inductive Outcome where
  | endpoint (error : EndpointError)
  /-- The block to stop before has been reached. -/
  | finished
  | failed
  /-- The follower was asked to stop. -/
  | stopped
deriving DecidableEq

/-- How a run ends, the sessions of it, and the follower after it. A visit that leaves its session open is
the last one: there the follower is asked to stop, and closes the session. When all visits are over, it is
asked to stop before another session begins. -/
def run (f : Follower) : List Visit → Outcome × List Session × Follower
  | [] => (.stopped, [], f)
  | v :: vs =>
    match f.visit v.turns with
    | .error e => (.endpoint e, [], f)
    | .ok (s, f') =>
      match s.phase, s.ending with
      | .closed, some e =>
        match f'.afterSession f.progress.received e.retry v.jitter with
        | (.finished, f') => (.finished, [s], f')
        | (.failed, f') => (.failed, [s], f')
        | (.again _, f') =>
          let (outcome, sessions, f') := run f' vs
          (outcome, s :: sessions, f')
      | _, _ =>
        let (s, f') := Session.settle consumer (s.close false) f'
        (.stopped, [s], f')

end Follower

end StateHistory
