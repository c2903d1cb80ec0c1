import StateHistory.Bytes
import StateHistory.Endpoint.Address
import StateHistory.Endpoint.Domain

/-! # Web socket locations

The location of a web socket, read from a text as a browser reads it. `Url.parse` expects what follows
the scheme, `ws:`.

* Tabs and line breaks are dropped wherever they stand, and the authority starts behind any number of
  slashes of either kind. It ends before the next slash, question mark or number sign.
* What stands before the last `@` of the authority names a user. The host ends at the first colon
  outside brackets, behind which stands the port.
* A host in brackets is an address of version 6. Any other host is percent-decoded and brought to the
  normal form of a domain name; if it ends in a number, it has to be an address of version 4.
* Characters with a meaning elsewhere are percent-encoded, dots are resolved in the path, and the
  default port 80 is left out. -/

namespace StateHistory

/-- Why a text is no location. -/
inductive UrlError where
  | emptyHost
  | invalidDomain
  | invalidPort
  | invalidIpv4
  | invalidIpv6
deriving DecidableEq, Repr

/-- The text of an error. -/
def UrlError.message : UrlError → String
  | emptyHost => "empty host"
  | invalidDomain => "invalid international domain name"
  | invalidPort => "invalid port number"
  | invalidIpv4 => "invalid IPv4 address"
  | invalidIpv6 => "invalid IPv6 address"

/-! ### Percent encoding -/

namespace Percent

/-- A byte after a percent sign. -/
def encodeByte (b : UInt8) : List Char := '%' :: ((Bytes.hexChars [b]).map Char.toUpper)

/-- A text whose characters of a class, and those that are not plain ASCII, are percent-encoded. -/
def encode (special : List Char) (cs : List Char) : List Char :=
  cs.flatMap fun c =>
    if c.toNat < 32 ∨ 126 < c.toNat ∨ special.contains c then
      (Bytes.ofText (String.ofList [c])).flatMap encodeByte
    else [c]

/-- The bytes of a text, where a percent sign and two hexadecimal digits are the byte they spell. -/
def decode : List Char → Bytes
  | [] => []
  | '%' :: a :: b :: cs =>
    match Digits.toNat? 16 [a, b] with
    | some n => UInt8.ofNat n :: decode cs
    | none => 37 :: decode (a :: b :: cs)
  | c :: cs => Bytes.ofText (String.ofList [c]) ++ decode cs

/-- What is encoded in a fragment. -/
def fragment : List Char := " \"<>".toList ++ [Char.ofNat 0x60]

/-- What is encoded in a query. -/
def query : List Char := " \"#<>'".toList

/-- What is encoded in a path. -/
def path : List Char := fragment ++ ['#', '?', '\x7b', '\x7d']

/-- What is encoded in the part that names a user. -/
def userinfo : List Char := path ++ "/:;=@[\\]^|".toList

end Percent

/-! ### Hosts -/

/-- A host in normal form. -/
inductive Host where
  | domain (name : List Char)
  | ipv4 (address : Nat)
  | ipv6 (groups : List Nat)
deriving DecidableEq, Repr

namespace Host

/-- The text of a host. -/
def chars : Host → List Char
  | domain name => name
  | ipv4 address => Address.renderIpv4 address
  | ipv6 groups => '[' :: (Address.renderIpv6 groups ++ [']'])

/-- The host behind a name without brackets. -/
def ofName (cs : List Char) : Except UrlError Host :=
  match (Percent.decode cs).toText?.bind fun s => Domain.normal? s.toList with
  | none => .error .invalidDomain
  | some [] => .error .emptyHost
  | some name =>
    if Address.endsInNumber name then
      match Address.ipv4? name with
      | some address => .ok (.ipv4 address)
      | none => .error .invalidIpv4
    else .ok (.domain name)

/-- The host of a text. -/
def parse : List Char → Except UrlError Host
  | [] => .error .emptyHost
  | '[' :: rest =>
    match if rest.getLast? = some ']' then Address.ipv6? rest.dropLast else none with
    | some groups => .ok (.ipv6 groups)
    | none => .error .invalidIpv6
  | cs => ofName cs

end Host

/-! ### Locations -/

/-- The location of a web socket. The user, the query and the fragment include the signs that set them
off. -/
structure Url where
  userinfo : List Char
  host : Host
  port : Option Nat
  path : List Char
  query : List Char
  fragment : List Char
deriving DecidableEq, Repr

namespace Url

/-- The port of a location that names none. -/
def defaultPort : Nat := 80

/-- The text of a location. -/
def render (u : Url) : String :=
  String.ofList <|
    "ws://".toList ++ u.userinfo ++ u.host.chars
      ++ (match u.port with
        | some port => ':' :: Nat.toDigits 10 port
        | none => [])
      ++ u.path ++ u.query ++ u.fragment

/-- What ends an authority. -/
def endsAuthority (c : Char) : Bool := c == '/' || c == '\\' || c == '?' || c == '#'

/-- An authority as what stands before its last `@`, if there is one, and what stands after. -/
def splitUser (cs : List Char) : Option (List Char) × List Char :=
  match (Text.split '@' cs).reverse with
  | last :: before :: more => (some (Text.join '@' (before :: more).reverse), last)
  | _ => (none, cs)

/-- The part of a location that names a user: a name and, after a colon, a password. -/
def encodeUser (cs : List Char) : List Char :=
  let name := Percent.encode Percent.userinfo (cs.takeWhile (· != ':'))
  let word := Percent.encode Percent.userinfo ((cs.dropWhile (· != ':')).drop 1)
  if name.isEmpty && word.isEmpty then []
  else name ++ (if word.isEmpty then [] else ':' :: word) ++ ['@']

/-- The host of an authority and what follows it, from the first colon outside brackets on. -/
def splitHost : (inside : Bool) → List Char → List Char × List Char
  | _, [] => ([], [])
  | inside, c :: cs =>
    if c = ':' ∧ !inside then ([], c :: cs)
    else
      let (host, rest) := splitHost (if c = '[' then true else if c = ']' then false else inside) cs
      (c :: host, rest)

/-- The port behind a host. -/
def parsePort : List Char → Except UrlError (Option Nat)
  | ':' :: ds =>
    if ds.isEmpty then .ok none
    else match Digits.toNat? 10 ds with
      | some n =>
        if 65535 < n then .error .invalidPort
        else .ok (if n = defaultPort then none else some n)
      | none => .error .invalidPort
  | _ => .ok none

/-- Whether a segment of a path stays where it is. -/
def isHere (segment : List Char) : Bool :=
  let s := segment.map Char.toLower
  s == ".".toList || s == "%2e".toList

/-- Whether a segment of a path goes up. -/
def isUp (segment : List Char) : Bool :=
  let s := segment.map Char.toLower
  s == "..".toList || s == ".%2e".toList || s == "%2e.".toList || s == "%2e%2e".toList

/-- Resolves the segments of a path onto those resolved before, which stand last to first. -/
def resolvePath : (above segments : List (List Char)) → List (List Char)
  | above, [] => above
  | above, segment :: segments =>
    let above :=
      if isUp segment then above.drop 1
      else if isHere segment then above
      else segment :: above
    let above :=
      if segments.isEmpty && (isUp segment || isHere segment) then [] :: above else above
    resolvePath above segments

/-- The path that starts with a slash of either kind, or is empty. -/
def parsePath (cs : List Char) : List Char :=
  let cs := cs.map fun c => if c = '\\' then '/' else c
  let segments := (Text.split '/' (if cs.head? = some '/' then cs.drop 1 else cs)).map
    (Percent.encode Percent.path)
  '/' :: Text.join '/' (resolvePath [] segments).reverse

/-- The location whose text after the scheme is given. -/
def parse (text : List Char) : Except UrlError Url := do
  let cs := text.filter fun c => c != '\t' && c != '\n' && c != '\r'
  let cs := cs.dropWhile fun c => c == '/' || c == '\\'
  let (user, authority) := splitUser (cs.takeWhile (!endsAuthority ·))
  let rest := cs.dropWhile (!endsAuthority ·)
  let (hostText, portText) := splitHost false authority
  let host ← Host.parse hostText
  let port ← parsePort portText
  let path := rest.takeWhile fun c => c != '?' && c != '#'
  let rest := rest.dropWhile fun c => c != '?' && c != '#'
  let query := rest.takeWhile (· != '#')
  let fragment := rest.dropWhile (· != '#')
  return {
    userinfo := (user.map encodeUser).getD []
    host := host
    port := port
    path := parsePath path
    query := query.take 1 ++ Percent.encode Percent.query (query.drop 1)
    fragment := fragment.take 1 ++ Percent.encode Percent.fragment (fragment.drop 1) }

end Url

end StateHistory
