import StateHistory.ProtocolError

/-! # How a session ends

Every session ends for exactly one reason. A transport failure is likely to pass, so only it and a
close that asks for it are followed by another attempt. -/

namespace StateHistory

/-- The reason for which a session ended. -/
inductive Ending where
  /-- A step of the transport failed. -/
  | transport (step message : String)
  /-- The node sent what cannot be understood. -/
  | protocol (error : ProtocolError)
  /-- The consumer failed. -/
  | consumer (message : String)
  /-- The consumer asked to stop. -/
  | stopped
  /-- A close was requested. -/
  | requested (retry : Bool)
deriving DecidableEq, Repr

namespace Ending

/-- Whether another attempt makes sense. -/
def retry : Ending → Bool
  | transport _ _ => true
  | requested retry => retry
  | protocol _ | consumer _ | stopped => false

/-- The text of an ending. -/
def message : Ending → String
  | transport step message => s!"{step}: {message}"
  | protocol error => error.message
  | consumer message => message
  | stopped => "consumer requested stop"
  | requested _ => "close requested"

end Ending

end StateHistory
