import Sylar.Lib.Lang
import Sylar.Spec.Uri

/-!
# `Sylar.Spec.UriParts`: URIs with an authority, by their parts

`Parts` are the texts that a URI with a scheme and an authority is made of, and `Parts.text` is the
URI. `Parts.Rfc` says that the parts are those of RFC 3986, with the bytes above ASCII that `uri.rl`
adds to `pchar`. The rules of the RFC for the other parts are word for word those of `uri.rl`, but for
the host: `uri.rl` takes other words for an `IPv6address` and a `dec-octet`. `Rfc3986.host` is the
host of the RFC.
-/

set_option autoImplicit false

namespace Sylar

open Lib Lib.Rx

/-- The parts of a URI with an authority. `none` is a part that is missing with its separator. -/
structure Parts where
  scheme : List UInt8
  userinfo : Option (List UInt8)
  host : List UInt8
  port : Option (List UInt8)
  path : List UInt8
  query : Option (List UInt8)
  fragment : Option (List UInt8)

/-- An optional part behind its separator. -/
def behind (sep : UInt8) : Option (List UInt8) → List UInt8
  | none => []
  | some w => sep :: w

def userinfoText : Option (List UInt8) → List UInt8
  | none => []
  | some w => w ++ [64]

namespace Parts

def authority (x : Parts) : List UInt8 := userinfoText x.userinfo ++ (x.host ++ behind 58 x.port)

/-- `scheme ":" "//" [ userinfo "@" ] host [ ":" port ] path [ "?" query ] [ "#" fragment ]`. -/
def text (x : Parts) : List UInt8 :=
  x.scheme ++ 58 :: (47 :: 47 :: (x.authority ++ x.path) ++
    (behind 63 x.query ++ behind 35 x.fragment))

end Parts

/-! ### The host of RFC 3986 -/

namespace Rfc3986

open UriParser (Machine lit digit xdigit isRegName)

def decOctet : Machine :=
  alts [digit, seq (sym (between 49 57)) digit, seqs [lit "1", digit, digit],
    seqs [lit "2", sym (between 48 52), digit], seq (lit "25") (sym (between 48 53))]

def ipv4address : Machine :=
  seqs [decOctet, lit ".", decOctet, lit ".", decOctet, lit ".", decOctet]

def h16 : Machine := seq xdigit (upTo 3 xdigit)

def ls32 : Machine := alt (seqs [h16, lit ":", h16]) ipv4address

/-- `h16 ":"`. -/
def group : Machine := seq h16 (lit ":")

/-- `[ *n( h16 ":" ) h16 ]`, with up to `n` groups. -/
def groups (n : Nat) : Machine := opt (seq (upTo n group) h16)

def ipv6address : Machine :=
  alts [
    seq (times 6 group) ls32,
    seqs [lit "::", times 5 group, ls32],
    seqs [groups 0, lit "::", times 4 group, ls32],
    seqs [groups 1, lit "::", times 3 group, ls32],
    seqs [groups 2, lit "::", times 2 group, ls32],
    seqs [groups 3, lit "::", group, ls32],
    seqs [groups 4, lit "::", ls32],
    seqs [groups 5, lit "::", h16],
    seqs [groups 6, lit "::"]]

/-- The letter may be of either case. -/
def ipvFuture : Machine :=
  seqs [sym (oneOf "vV"), plus xdigit, lit ".", plus (sym fun c => isRegName c || c == 58)]

def ipLiteral : Machine := seqs [lit "[", alt ipv6address ipvFuture, lit "]"]

def host : Machine := alts [ipLiteral, ipv4address, UriParser.regName]

end Rfc3986

namespace Parts

/-- The parts are those of RFC 3986. A port is empty or a number from 1 to 65535. -/
structure Rfc (x : Parts) : Prop where
  scheme : x.scheme ∈ lang UriParser.schemeText
  userinfo : ∀ w ∈ x.userinfo, w ∈ lang UriParser.userinfo
  host : x.host ∈ lang Rfc3986.host
  port : ∀ w ∈ x.port, (∀ c ∈ w, isDigit c = true) ∧
    (w = [] ∨ 1 ≤ ofNumeral 10 w ∧ ofNumeral 10 w ≤ 65535)
  path : x.path ∈ lang UriParser.pathAbempty
  query : ∀ w ∈ x.query, w ∈ lang UriParser.queryChars
  fragment : ∀ w ∈ x.fragment, w ∈ lang UriParser.queryChars

/-- Each part is of the form that `uri.rl` has for it. -/
structure Grammatical (x : Parts) : Prop where
  scheme : x.scheme ∈ lang UriParser.schemeText
  userinfo : ∀ w ∈ x.userinfo, w ∈ lang UriParser.userinfo
  host : x.host ∈ lang UriParser.host
  port : ∀ w ∈ x.port, w ∈ lang UriParser.port
  path : x.path ∈ lang UriParser.pathAbempty
  query : ∀ w ∈ x.query, w ∈ lang UriParser.queryChars
  fragment : ∀ w ∈ x.fragment, w ∈ lang UriParser.queryChars

end Parts

/-! ### Extraction -/

/-- The port that a scheme has when a URI names none. -/
def defaultPort (scheme : List UInt8) : Int :=
  if scheme = text "http" ∨ scheme = text "ws" then 80
  else if scheme = text "https" ∨ scheme = text "wss" then 443
  else 0

namespace Parts

/-- The port of the URI: the value of its digits, or the default of the scheme. -/
def portNumber (x : Parts) : Int :=
  match x.port with
  | none | some [] => defaultPort x.scheme
  | some (d :: ds) => ofNumeral 10 (d :: ds)

/-- `Uri::Create` returns the parts of the URI. -/
def Extracted (x : Parts) : Prop :=
  ∃ u, Uri.create x.text = .ok (some u) ∧ u.scheme = x.scheme ∧ u.userinfo = x.userinfo.getD [] ∧
    u.host = x.host ∧ u.getPort = x.portNumber ∧
    u.getPath = (bif x.path.isEmpty then Lib.text "/" else x.path) ∧
    u.query = x.query.getD [] ∧ u.fragment = x.fragment.getD []

end Parts

/-- What follows the first colon. -/
def behindColon (w : List UInt8) : List UInt8 := (w.dropWhile (· != 58)).tail

/-- A digit follows the first colon. -/
def digitBehindColon (w : List UInt8) : Bool := ((behindColon w).head?.map isDigit).getD false

/-- The host has the form that `uri.rl` has for it, no digit follows the first colon of the user
information, and an empty port has no path behind it but `/`. -/
structure Parts.Extractable (x : Parts) : Prop where
  host : x.host ∈ lang UriParser.host
  userinfo : ∀ w ∈ x.userinfo, digitBehindColon w = false
  path : x.port = some [] → x.path = [] ∨ x.path = [47]

/-! ### Printing -/

/-- The string has a scheme and an authority. -/
def HasAuthority (s : List UInt8) : Prop :=
  ∃ scheme ∈ lang UriParser.schemeText, ∃ rest, s = scheme ++ 58 :: 47 :: 47 :: rest

/-- `Uri::Create` gets the same `Uri` back from what `toString` prints. -/
def Uri.ReadBack (u : Uri) : Prop :=
  ∃ u', create u.toString = .ok (some u') ∧ u'.scheme = u.scheme ∧ u'.userinfo = u.userinfo ∧
    u'.host = u.host ∧ u'.getPort = u.getPort ∧ u'.getPath = u.getPath ∧ u'.query = u.query ∧
    u'.fragment = u.fragment

/-- One of the first two colons of the user information has no digit behind it, and the port is not
negative as an `int`. -/
structure Parts.Printable (x : Parts) : Prop where
  userinfo : ∀ w ∈ x.userinfo, digitBehindColon w = false ∨ digitBehindColon (behindColon w) = false
  port : ∀ w ∈ x.port, 0 ≤ atoi w

end Sylar
