import StateHistory.Session.Handle

/-! # Consumers

Whoever wants the results of a session is its consumer. A consumer keeps a state of its own, and may use
a handle of the session whenever it is told something. It is told of the schema once, then of every
result, and at last of the end.

A consumer that fails or panics ends the session; what it did to its state until then stays. -/

namespace StateHistory

/-- The part of a consumer that answers to one call: uses of a handle and a change of its own state. -/
abbrev Answer (σ α : Type) := σ → Handle (Except Failure α × σ)

/-- A consumer whose state is in `σ`. -/
structure Consumer (σ : Type) where
  onSchema : Answer σ Unit
  onStatus : ChainStatus → Bytes → Answer σ Flow
  onBlocks : BlockReport → Bytes → Answer σ Flow
  onEnd : (retry : Bool) → σ → Handle (Option Panic × σ)

/-- The answer to a call. The schema never stops a session. -/
def Consumer.answer {σ : Type} (c : Consumer σ) : Call → Answer σ Flow
  | .schema => fun k => (c.onSchema k).bind fun (outcome, k) =>
      .done (outcome.map fun _ => .proceed, k)
  | .status status frame => c.onStatus status frame
  | .blocks report frame => c.onBlocks report frame

/-- The end that the outcome of a call leads to, if it leads to one. -/
def Call.ending? (call : Call) : Except Failure Flow → Option Ending
  | .ok .proceed => none
  | .ok .stop => some .stopped
  | .error failure => some (.consumer (call.label ++ failure.message))

end StateHistory
