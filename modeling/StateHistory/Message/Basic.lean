import StateHistory.Bytes

/-! # Messages

What a client and a node tell each other once the schema has arrived.

* A client asks for the status, asks for blocks, or acknowledges results (`Request`).
* A node answers with its status (`ChainStatus`) or with one block (`BlockReport`). Either answer is
  a `Result`.

A block is named by its height and its identifier (`BlockPosition`); two blocks of one height belong
to different forks. -/

namespace StateHistory

/-- A block, by height and identifier. -/
structure BlockPosition where
  number : UInt32
  id : Checksum256
deriving DecidableEq, Inhabited

/-- The heights from `first` up to, and without, `past`. -/
structure BlockRange where
  first : UInt32
  past : UInt32
deriving DecidableEq, Inhabited, Repr

/-- Whether the range holds a height at all. -/
def BlockRange.available (r : BlockRange) : Bool := r.first < r.past

/-- The node's head, its last irreversible block, and the ranges it still retains. -/
structure ChainStatus where
  head : BlockPosition
  lastIrreversible : BlockPosition
  traces : BlockRange
  chainState : BlockRange
deriving DecidableEq, Inhabited

/-- One block of the stream. The three payloads stay encoded; a node that has caught up sends reports
without a block. -/
structure BlockReport where
  head : BlockPosition
  lastIrreversible : BlockPosition
  block : Option BlockPosition
  previous : Option BlockPosition
  signedBlock : Option Bytes
  traces : Option Bytes
  deltas : Option Bytes
deriving DecidableEq, Inhabited

/-- Which blocks a client asks for, and which parts of them. `havePositions` are blocks it has seen,
from which the node finds out on which fork the client stands. -/
structure BlocksRequest where
  start : UInt32
  stop : UInt32
  maxMessagesInFlight : UInt32
  havePositions : List BlockPosition
  irreversibleOnly : Bool
  fetchBlock : Bool
  fetchTraces : Bool
  fetchDeltas : Bool
deriving DecidableEq, Inhabited

/-- The height that means that there is no limit. -/
def unbounded : UInt32 := 0xffffffff

/-- A request without an end, for every part of every block, reversible or not. -/
def BlocksRequest.streamFrom (start : UInt32) (havePositions : List BlockPosition) :
    BlocksRequest where
  start := start
  stop := unbounded
  maxMessagesInFlight := unbounded
  havePositions := havePositions
  irreversibleOnly := false
  fetchBlock := true
  fetchTraces := true
  fetchDeltas := true

/-- What a client sends. -/
inductive Request where
  | status
  | blocks (request : BlocksRequest)
  | acknowledge (messages : UInt32)
deriving DecidableEq

/-- The name of a request's type in the schema. -/
def Request.typeName : Request → String
  | status => "get_status_request_v0"
  | blocks _ => "get_blocks_request_v0"
  | acknowledge _ => "get_blocks_ack_request_v0"

/-- The tag of a request before a schema has said otherwise. -/
def Request.canonicalTag : Request → UInt32
  | status => 0
  | blocks _ => 1
  | acknowledge _ => 2

/-- What a node sends. -/
inductive Result where
  | status (status : ChainStatus)
  | blocks (report : BlockReport)
deriving DecidableEq

/-- The name of the type of a status in the schema. -/
def Result.statusType : String := "get_status_result_v0"

/-- The name of the type of a block report in the schema. -/
def Result.blocksType : String := "get_blocks_result_v0"

/-- The name of a result's type in the schema. -/
def Result.typeName : Result → String
  | status _ => statusType
  | blocks _ => blocksType

/-- The tag of a result in the node's own schema. -/
def Result.canonicalTag : Result → UInt32
  | status _ => 0
  | blocks _ => 1

end StateHistory
