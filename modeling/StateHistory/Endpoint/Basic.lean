import StateHistory.Endpoint.Url
import StateHistory.Text.Quoted

/-! # Endpoints

Where a node is to be found: a host and a port, as somebody wrote them down. Blanks around either do
not matter. A host may be a name, an address of version 4 or, with or without brackets, an address of
version 6. -/

namespace StateHistory

/-- A host and a port. -/
structure Endpoint where
  host : String
  port : String
deriving DecidableEq, Repr

/-- Why an endpoint cannot be used. -/
inductive EndpointError where
  | emptyHost
  | invalidPort (text : String)
  | zeroPort
  | url (error : UrlError)
deriving DecidableEq, Repr

/-- The text of an error. -/
def EndpointError.message : EndpointError → String
  | emptyHost => "host must not be empty"
  | invalidPort text => "invalid port " ++ Text.quoted text
  | zeroPort => "port must not be 0"
  | url error => error.message

namespace Endpoint

/-- The text of an endpoint. -/
def render (e : Endpoint) : String := e.host ++ ":" ++ e.port

/-- The number of the port: a positive number of sixteen bits. -/
def portNumber (e : Endpoint) : Except EndpointError Nat :=
  match Digits.natural? 65536 (Text.trim e.port.toList) with
  | none => .error (.invalidPort e.port)
  | some 0 => .error .zeroPort
  | some n => .ok n

/-- The text of the location of an endpoint's web socket, after the scheme. A host that is an address
of version 6 without brackets gets them. -/
def locationChars (host : List Char) (port : Nat) : List Char :=
  let host := if host.contains ':' && host.head? != some '[' then '[' :: (host ++ [']']) else host
  "//".toList ++ host ++ ':' :: (Nat.toDigits 10 port ++ ['/'])

/-- The location of an endpoint's web socket. -/
def location (e : Endpoint) : Except EndpointError Url := do
  let host := Text.trim e.host.toList
  if host.isEmpty then throw .emptyHost
  let port ← e.portNumber
  match Url.parse (locationChars host port) with
  | .ok url => return url
  | .error error => throw (.url error)

/-- The host to dial: without blanks and without the brackets of an address. -/
def dialHost (e : Endpoint) : String :=
  String.ofList <|
    Text.dropEndWhile (· == ']') ((Text.trim e.host.toList).dropWhile (· == '['))

end Endpoint

end StateHistory
