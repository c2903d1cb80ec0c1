import StateHistory.Message.Basic

/-! # Progress of a stream

What a client remembers of the blocks it received, across all its sessions: the height it expects
next, how many blocks there were, and the positions of the blocks that could still be replaced.

The remembered positions increase in height. A block at or below the height of one of them replaces
it and all that followed, since the node has then changed to another fork; blocks at or below the last
irreversible height, and the oldest beyond a fixed number, are forgotten. -/

namespace StateHistory

/-- What has been streamed so far. -/
structure Progress where
  nextBlock : UInt32
  received : Nat
  positions : List BlockPosition
  finished : Bool
deriving DecidableEq

namespace Progress

/-- Nothing streamed yet. -/
def start (block : UInt32) : Progress := ⟨block, 0, [], false⟩

/-- How many positions are remembered. -/
def maxPositions : Nat := 1024

/-- The height above another one; the largest height has none above it. -/
def successor (n : UInt32) : UInt32 := if n = 0xffffffff then n else n + 1

/-- Positions that stay when a block of the given height is received. -/
def keepBelow (height : UInt32) (ps : List BlockPosition) : List BlockPosition :=
  (ps.reverse.dropWhile fun p => height ≤ p.number).reverse

/-- Positions that can still be replaced. -/
def dropIrreversible (lastIrreversible : UInt32) (ps : List BlockPosition) : List BlockPosition :=
  ps.dropWhile fun p => p.number ≤ lastIrreversible

/-- The latest of the positions, as many as are remembered. -/
def latest (ps : List BlockPosition) : List BlockPosition := ps.drop (ps.length - maxPositions)

/-- Whether a block belongs to another fork than the blocks before it. -/
def forks (p : Progress) (block : BlockPosition) : Bool :=
  block.number < p.nextBlock && 0 < p.received

/-- The progress after a block. -/
def record (p : Progress) (block : BlockPosition) (lastIrreversible : UInt32) : Progress :=
  { p with
    nextBlock := successor block.number
    received := p.received + 1
    positions :=
      latest (dropIrreversible lastIrreversible (keepBelow block.number p.positions ++ [block])) }

end Progress

end StateHistory
