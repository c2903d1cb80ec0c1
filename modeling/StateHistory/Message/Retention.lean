import StateHistory.Message.Basic

/-! # What a node still has

A node retains traces and chain state for one range of heights each. A client that asks for blocks
below both ranges would be refused, so a stream is resumed no lower than the oldest block that some
range still holds. -/

namespace StateHistory.ChainStatus

/-- The ranges that hold a height at all. -/
def availableRanges (s : ChainStatus) : List BlockRange :=
  [s.traces, s.chainState].filter BlockRange.available

/-- The oldest retained height, 0 when the node reports none. -/
def availableStart (s : ChainStatus) : UInt32 :=
  ((s.availableRanges.map (·.first)).min?).getD 0

/-- Where to resume a stream that should go on at `start`. -/
def resumeStart (s : ChainStatus) (start : UInt32) : UInt32 := max start s.availableStart

end StateHistory.ChainStatus
