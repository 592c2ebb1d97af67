import Sylar.Lib.Machine
import Sylar.Lib.Text

/-!
# `Sylar.Spec.Uri`: the grammar of URIs, and `Uri`

Each definition of `uri.rl` is an expression of `Lib.Machine` here, under the same name. `create` runs
the machine as the generated code does: over the whole string, and then the actions of the end of
the input, since `eof` is `pe`.

All actions share one variable `mark`. In Ragel a number is the machine of one byte, so that
`2 [0-4] digit` begins with the byte 2.
-/

set_option autoImplicit false

namespace Sylar

open Lib Lib.Rx

/-- The actions of `uri.rl` that do something. -/
inductive UriAction where
  | marku | markh | saveScheme | savePort | saveUserinfo | saveHost | savePath | saveQuery
  | saveFragment
  deriving DecidableEq, Repr

/-! ### The grammar -/

namespace UriParser

abbrev Machine := Rx UInt8 UriAction

/-- A word in quotes. -/
def lit (s : String) : Machine := word (text s)

def isSubDelim (c : UInt8) : Bool := oneOf "!$&'()*+,;=" c

def isUnreserved (c : UInt8) : Bool := isAlpha c || isDigit c || oneOf "-._~" c

def digit : Machine := sym isDigit

def xdigit : Machine := sym isXdigit

def pctEncoded : Machine := seqs [lit "%", xdigit, xdigit]

def schemeText : Machine :=
  seq (sym isAlpha) (star (sym fun c => isAlpha c || isDigit c || oneOf "+-." c))

def scheme : Machine := leave .saveScheme (enter .marku schemeText)

/-- The bytes of a `reg_name`. -/
def isRegName (c : UInt8) : Bool := isUnreserved c || isSubDelim c

def userinfo : Machine := star (alt (sym fun c => isRegName c || c == 58) pctEncoded)

def decOctet : Machine :=
  alts [digit, seq (sym (between 49 57)) digit, seqs [lit "1", digit, digit],
    seqs [sym (· == 2), sym (between 48 52), digit], seq (lit "25") (sym (between 48 53))]

def ipv4address : Machine :=
  seqs [decOctet, lit ".", decOctet, lit ".", decOctet, lit ".", decOctet]

def h16 : Machine := seq xdigit (upTo 3 xdigit)

def ls32 : Machine := alt (seqs [h16, lit ":", h16]) ipv4address

/-- `h16 ":"`. -/
def group : Machine := seq h16 (lit ":")

/-- `( ( h16 ":" ){n} h16 )?`. -/
def groups (n : Nat) : Machine := opt (seq (times n group) h16)

def ipv6address : Machine :=
  alts [
    seq (times 6 group) ls32,
    seqs [lit "::", times 5 group, ls32],
    seqs [opt h16, lit "::", times 4 group, ls32],
    seqs [groups 1, lit "::", times 3 group, ls32],
    seqs [groups 2, lit "::", times 2 group, ls32],
    seqs [groups 3, lit "::", times 1 group, ls32],
    seqs [groups 4, lit "::", ls32],
    seqs [groups 5, lit "::", h16],
    seqs [groups 6, lit "::"]]

def ipvFuture : Machine :=
  seqs [lit "v", plus xdigit, lit ".", plus (sym fun c => isRegName c || c == 58)]

def ipLiteral : Machine := seqs [lit "[", alt ipv6address ipvFuture, lit "]"]

def regName : Machine := star (alt (sym isRegName) pctEncoded)

def host : Machine := alts [ipLiteral, ipv4address, regName]

def port : Machine := star digit

/-- `userinfo %save_userinfo "@"`. -/
def userinfoAt : Machine := seq (leave .saveUserinfo userinfo) (lit "@")

/-- `host >markh %save_host (":" port >markh %save_port)?`. -/
def hostPort : Machine :=
  seq (leave .saveHost (enter .markh host))
    (opt (seq (lit ":") (leave .savePort (enter .markh port))))

def authority : Machine := enter .markh (seq (opt userinfoAt) hostPort)

/-- The bytes of a `pchar`: those above ASCII too. -/
def isPchar (c : UInt8) : Bool :=
  decide (128 ≤ c) || isUnreserved c || isSubDelim c || oneOf ":@" c

def pchar : Machine := alt (sym isPchar) pctEncoded

def segment : Machine := star pchar

def segmentNz : Machine := plus pchar

def segmentNzNc : Machine := plus (alt (sym fun c => isPchar c && c != 58) pctEncoded)

/-- `"/" segment`. -/
def slashSegment : Machine := seq (lit "/") segment

def pathAbempty : Machine := seq (opt slashSegment) (star slashSegment)

def pathAbsolute : Machine := seq (lit "/") (opt (seq segmentNz (star slashSegment)))

def pathNoscheme : Machine := seq segmentNzNc (star slashSegment)

def pathRootless : Machine := seq segmentNz (star slashSegment)

def pathEmpty : Machine := eps

/-- `( pchar | "/" | "?" )*`. -/
def queryChars : Machine := star (alt pchar (sym (oneOf "/?")))

def query : Machine := leave .saveQuery (enter .marku queryChars)

def fragment : Machine := leave .saveFragment (enter .marku queryChars)

/-- `( "?" query )? ( "#" fragment )?`. -/
def queryFragment : Machine := seq (opt (seq (lit "?") query)) (opt (seq (lit "#") fragment))

/-- `"//" authority path_abempty > markh %save_path`. -/
def netPath : Machine :=
  seq (lit "//") (seq authority (leave .savePath (enter .markh pathAbempty)))

def hierPart : Machine := alts [netPath, pathAbsolute, pathRootless, pathEmpty]

def relativePart : Machine :=
  alts [seqs [lit "//", authority, pathAbempty], pathAbsolute, pathNoscheme, pathEmpty]

def relativeRef : Machine := seq relativePart queryFragment

def uri : Machine := seq scheme (seq (lit ":") (seq hierPart queryFragment))

def uriReference : Machine := alt uri relativeRef

def main : Machine := uriReference

end UriParser

/-! ### `Uri` -/

structure Uri where
  scheme : List UInt8
  userinfo : List UInt8
  host : List UInt8
  path : List UInt8
  query : List UInt8
  fragment : List UInt8
  port : Int
  deriving DecidableEq, Repr

/-- A string or a number is read through the null pointer. -/
inductive NullMark where
  | nullMark
  deriving DecidableEq, Repr

/-- `mark`, as a position in the string, and the `Uri` so far. -/
structure UriScan where
  mark : Option Nat
  uri : Uri

namespace Uri

def new : Uri := ⟨[], [], [], [], [], [], 0⟩

/-- `std::string(mark, fpc - mark)`. -/
def since (s : List UInt8) (mark fpc : Nat) : List UInt8 := (s.drop mark).take (fpc - mark)

/-- An action that stores the text from `mark` on and clears it. -/
def save (s : List UInt8) (fpc : Nat) (set : List UInt8 → Uri → Uri) (x : UriScan) :
    Except NullMark UriScan :=
  match x.mark with
  | none => .error .nullMark
  | some k => .ok ⟨none, set (since s k fpc) x.uri⟩

/-- The same with a test of `mark` before it. -/
def saveMarked (s : List UInt8) (fpc : Nat) (set : List UInt8 → Uri → Uri) (x : UriScan) : UriScan :=
  match x.mark with
  | none => ⟨none, x.uri⟩
  | some k => ⟨none, set (since s k fpc) x.uri⟩

def setScheme (v : List UInt8) (u : Uri) : Uri := { u with scheme := v }

def setUserinfo (v : List UInt8) (u : Uri) : Uri := { u with userinfo := v }

def setHost (v : List UInt8) (u : Uri) : Uri := { u with host := v }

def setPath (v : List UInt8) (u : Uri) : Uri := { u with path := v }

def setQuery (v : List UInt8) (u : Uri) : Uri := { u with query := v }

def setFragment (v : List UInt8) (u : Uri) : Uri := { u with fragment := v }

def setPort (v : Int) (u : Uri) : Uri := { u with port := v }

/-- The body of an action at the position `fpc`. -/
def act (s : List UInt8) (fpc : Nat) (a : UriAction) (x : UriScan) : Except NullMark UriScan :=
  match a with
  | .marku | .markh => .ok { x with mark := some fpc }
  | .saveScheme => save s fpc setScheme x
  | .savePort =>
    match x.mark with
    | none => .error .nullMark
    | some k => .ok ⟨none, bif fpc != k then setPort (atoi (s.drop k)) x.uri else x.uri⟩
  | .saveUserinfo => .ok (saveMarked s fpc setUserinfo x)
  -- This one leaves `mark` as it is.
  | .saveHost => .ok { x with uri := (saveMarked s fpc setHost x).uri }
  | .savePath => .ok (saveMarked s fpc setPath x)
  | .saveQuery => save s fpc setQuery x
  | .saveFragment => save s fpc setFragment x

/-- `write exec`, and behind it the actions of the end of the input. -/
def scan (s : List UInt8) : Cs × Except NullMark UriScan :=
  match exec UriParser.main (fun fpc a st => st.bind (act s fpc a)) (fun _ => false) 0 true .none s
    (.ok ⟨none, new⟩) with
  | (_, .error, st) => (.error, st)
  | (fpc, .at m t, st) =>
    (.at m t, ((acts m true UriParser.main t none).eraseDups).foldl
      (fun st a => st.bind (act s fpc a)) st)

/-- `Uri::Create`. `none` is the null pointer. -/
def create (s : List UInt8) : Except NullMark (Option Uri) :=
  match scan s with
  | (.error, st) => st.map fun _ => none
  | (.at m t, st) => st.map fun x => bif live m UriParser.main t then some x.uri else none

def isDefaultPort (u : Uri) : Bool :=
  if u.port = 0 then true
  else if u.scheme = text "http" ∨ u.scheme = text "ws" then u.port == 80
  else if u.scheme = text "https" ∨ u.scheme = text "wss" then u.port == 443
  else false

def getPath (u : Uri) : List UInt8 := bif u.path.isEmpty then text "/" else u.path

def getPort (u : Uri) : Int :=
  if u.port ≠ 0 then u.port
  else if u.scheme = text "http" ∨ u.scheme = text "ws" then 80
  else if u.scheme = text "https" ∨ u.scheme = text "wss" then 443
  else u.port

/-- `std::to_string`. -/
def toText (n : Int) : List UInt8 :=
  bif n < 0 then text "-" ++ numeral 10 n.natAbs else numeral 10 n.natAbs

/-- `dump`, and what `toString` returns. -/
def toString (u : Uri) : List UInt8 :=
  u.scheme ++ text "://" ++ u.userinfo ++ (bif u.userinfo.isEmpty then [] else text "@") ++ u.host ++
    (bif u.isDefaultPort then [] else text ":" ++ toText u.port) ++ u.getPath ++
    (bif u.query.isEmpty then [] else text "?") ++ u.query ++
    (bif u.fragment.isEmpty then [] else text "#") ++ u.fragment

end Uri

end Sylar
