import Sylar.Lib.Machine
import Sylar.Spec.Http

/-!
# `Sylar.Spec.HttpRequestParser`: the request grammar and its parser

`http11_parser.rl` is a Ragel grammar with actions. Each of its definitions is an expression of
`Lib.Machine` here, under the same name, and `httpParserExecute` runs the machine as the generated
code does: one byte at a time until the end of the buffer, an error, or the `fbreak` of the action
`done`.

The file has been through a formatter for C++, which put blanks into `%%{`, `:=`, `--` and `/../i`
and joined the definition of `CRLF` to the comment before it. The model reads it without them. In
Ragel `-` is the difference of two machines and a number is the machine of one byte, so that
`0 - 31` is the byte 0, `"1" - "9"` is `"1"` and `6( h16 ":" )` is the byte 6 and one group.

`http_parser_init` leaves `query_start` and `uri_relaxed` as they are in the memory of the new
object. `Junk` holds these values.
-/

set_option autoImplicit false

namespace Sylar.Http

open Lib Lib.Rx

/-- The actions of `http11_parser.rl`. -/
inductive RequestAction where
  | mark | startField | writeField | startValue | writeValue | requestMethod | requestUri
  | fragment | startQuery | queryString | httpVersion | requestPath | done | xml | json
  deriving DecidableEq, Repr

/-- Values that the constructor does not set. -/
structure Junk where
  uriRelaxed : Bool
  queryStart : Nat

/-! ### The grammar -/

namespace Http11

abbrev Machine := Rx UInt8 RequestAction

/-- A word in quotes. -/
def lit (s : String) : Machine := word (text s)

def crlf : Machine := alt (lit "\r\n") (lit "\n")

def isUnreserved (c : UInt8) : Bool := isAlpha c || isDigit c || oneOf "-._~" c

def isMoreDelim (relaxed : Bool) (c : UInt8) : Bool := relaxed && oneOf "\x7b\x7d^" c

def isSubDelim (relaxed : Bool) (c : UInt8) : Bool :=
  oneOf "!$&'()*+,;=" c || isMoreDelim relaxed c

def pctEncoded : Machine := seqs [lit "%", sym isXdigit, sym isXdigit]

section
variable (relaxed : Bool)

/-- The bytes of a `pchar`: those above ASCII too. -/
def isPchar (c : UInt8) : Bool :=
  decide (128 ≤ c) || isUnreserved c || isSubDelim relaxed c || oneOf ":@" c

def pchar : Machine := alt (sym (isPchar relaxed)) pctEncoded

def queryChars : Machine := star (alt (pchar relaxed) (sym (oneOf "/?")))

def fragment : Machine := leave .fragment (enter .mark (queryChars relaxed))

def query : Machine := leave .queryString (queryChars relaxed)

def segmentNzNc : Machine :=
  plus (alt (sym fun c => isUnreserved c || isSubDelim relaxed c || c == 64) pctEncoded)

def segmentNz : Machine := plus (pchar relaxed)

def segment : Machine := star (pchar relaxed)

/-- `( "/" segment )*`. -/
def slashSegments : Machine := star (seq (lit "/") (segment relaxed))

def pathEmpty : Machine := eps

def pathRootless : Machine := seq (segmentNz relaxed) (slashSegments relaxed)

def pathNoscheme : Machine := seq (segmentNzNc relaxed) (slashSegments relaxed)

def pathAbsolute : Machine :=
  seq (lit "/") (opt (seq (segmentNz relaxed) (slashSegments relaxed)))

def pathAbempty : Machine := slashSegments relaxed

/-- Any of the five forms of a path. The machine does not use it. -/
def path : Machine :=
  alts [pathAbempty relaxed, pathAbsolute relaxed, pathNoscheme relaxed, pathRootless relaxed,
    pathEmpty]

/-- The bytes of a `reg_name`. -/
def isRegName (c : UInt8) : Bool := isUnreserved c || isSubDelim relaxed c

def regName : Machine := star (alt (sym (isRegName relaxed)) pctEncoded)

def digit : Machine := sym isDigit

def decOctet : Machine :=
  alts [digit, seq (lit "1") digit, seq (lit "1") (times 2 digit), seqs [lit "2", lit "0", digit],
    seq (lit "25") (lit "0")]

def ipv4address : Machine :=
  seqs [decOctet, lit ".", decOctet, lit ".", decOctet, lit ".", decOctet]

def h16 : Machine := seq (sym isXdigit) (upTo 3 (sym isXdigit))

def ls32 : Machine := alt (seqs [h16, lit ":", h16]) ipv4address

/-- `h16 ":"`. -/
def group : Machine := seq h16 (lit ":")

/-- `n( h16 ":" )`: the byte `n` and one group. -/
def numbered (n : UInt8) : Machine := seq (sym (· == n)) group

/-- `( ( h16 ":" ){n,} h16 )?`. -/
def groupsFrom (n : Nat) : Machine := opt (seqs [times n group, star group, h16])

def ipv6address : Machine :=
  alts [
    seq (numbered 6) ls32,
    seqs [lit "::", numbered 5, ls32],
    seqs [opt h16, lit "::", numbered 4, ls32],
    seqs [groupsFrom 1, lit "::", numbered 3, ls32],
    seqs [groupsFrom 2, lit "::", numbered 2, ls32],
    seqs [groupsFrom 3, lit "::", group, ls32],
    seqs [groupsFrom 4, lit "::", ls32],
    seqs [groupsFrom 5, lit "::", h16],
    seqs [groupsFrom 6, lit "::"]]

def ipvFuture : Machine :=
  seqs [lit "v", plus (sym isXdigit), lit ".", plus (sym fun c => isRegName relaxed c || c == 58)]

def ipLiteral : Machine := seqs [lit "[", alt ipv6address (ipvFuture relaxed), lit "]"]

def port : Machine := star digit

def host : Machine := alts [ipLiteral relaxed, ipv4address, regName relaxed]

def userinfo : Machine := star (alt (sym fun c => isRegName relaxed c || c == 58) pctEncoded)

def authority : Machine :=
  seqs [opt (seq (userinfo relaxed) (lit "@")), host relaxed, opt (seq (lit ":") port)]

def scheme : Machine :=
  seq (sym isAlpha) (star (sym fun c => isAlpha c || isDigit c || oneOf "+-." c))

/-- `"//" authority path_abempty`. -/
def netPath : Machine := seqs [lit "//", authority relaxed, pathAbempty relaxed]

def relativePart : Machine :=
  alts [netPath relaxed, pathAbsolute relaxed, pathNoscheme relaxed, pathEmpty]

def hierPart : Machine :=
  alts [netPath relaxed, pathAbsolute relaxed, pathRootless relaxed, pathEmpty]

/-- What `relative_ref` and `URI` have in common: a path with a query and a fragment. -/
def reference (part : Machine) : Machine :=
  seq (leave .requestUri (enter .mark (seq (leave .requestPath part)
      (opt (seq (leave .startQuery (lit "?")) (query relaxed))))))
    (opt (seq (lit "#") (fragment relaxed)))

def relativeRef : Machine := reference relaxed (relativePart relaxed)

def uri : Machine := seqs [scheme, lit ":", reference relaxed (hierPart relaxed)]

def uriReference : Machine := alt (uri relaxed) (relativeRef relaxed)

def method : Machine :=
  leave .requestMethod (enter .mark
    (seq (sym fun c => isUpper c || isDigit c) (upTo 19 (sym fun c => isUpper c || isDigit c))))

def httpNumber : Machine := seq (lit "1.") (alt (lit "0") (lit "1"))

def httpVersion : Machine := leave .httpVersion (enter .mark (seq (lit "HTTP/") httpNumber))

def requestLine : Machine :=
  seqs [method, lit " ", uriReference relaxed, lit " ", httpVersion, crlf]

/-- `0 - 31` is the byte 0. -/
def isHttpCtl (c : UInt8) : Bool := c == 0 || c == 127

def isHttpSeparator (c : UInt8) : Bool := oneOf "()<>@,;:\\\"/[]?=\x7b\x7d \t" c

def lws : Machine := seq (opt crlf) (plus (sym (oneOf " \t")))

def isToken (c : UInt8) : Bool := decide (c < 128) && !(isHttpCtl c || isHttpSeparator c)

def content : Machine := alt (sym fun c => !isHttpCtl c) lws

def fieldName : Machine := leave .writeField (enter .startField (plus (sym isToken)))

def fieldValue : Machine := leave .writeValue (enter .startValue (star content))

def messageHeader : Machine := guarded (seqs [fieldName, lit ":", star lws, fieldValue]) crlf

def request : Machine := seqs [requestLine relaxed, star messageHeader, crlf]

def isAny (_ : UInt8) : Bool := true

def socketJsonStart : Machine := seq (lit "@") (relativePart relaxed)

/-- The right side of `:>>` is one byte, so it takes over where it can start. -/
def socketJsonData : Machine :=
  guarded (seqs [lit "\x7b", star (sym isAny), lit "\x7d"]) (lit "\x00")

def socketXmlData : Machine :=
  guarded (seqs [leave .requestPath (enter .mark (seq (lit "<")
      (plus (sym fun c => isAlpha c || isDigit c || oneOf "-." c)))),
    sym (fun c => oneOf "/>" c || isSpace c), star (sym isAny), lit ">"]) (lit "\x00")

def socketJson : Machine :=
  seqs [leave .requestPath (enter .mark (socketJsonStart relaxed)), lit " ",
    finish .json (enter .mark socketJsonData)]

def socketXml : Machine := finish .xml socketXmlData

def socketRequest : Machine := alt socketXml (socketJson relaxed)

def main : Machine := finish .done (alt (request relaxed) (socketRequest relaxed))

end

end Http11

/-! ### The parser -/

/-- Ways in which a call does not return: an assertion fails, bytes outside the buffer are read, or
a sum of the type `int` leaves its range. -/
inductive Abort where
  | assertion
  | outOfBounds
  | overflow
  deriving DecidableEq, Repr

/-- `struct http_parser`, without the callbacks, which are fixed. -/
structure HttpParser where
  cs : Cs
  bodyStart : Nat
  contentLen : Int
  nread : Nat
  mark : Nat
  fieldStart : Nat
  fieldLen : Nat
  queryStart : Nat
  xmlSent : Bool
  jsonSent : Bool
  deriving DecidableEq, Repr

structure HttpRequestParser where
  parser : HttpParser
  data : HttpRequest
  error : Nat

def httpParserInit (junk : Junk) : HttpParser where
  cs := .at true .none
  bodyStart := 0
  contentLen := 0
  nread := 0
  mark := 0
  fieldStart := 0
  fieldLen := 0
  queryStart := junk.queryStart
  xmlSent := false
  jsonSent := false

/-- The constructor. -/
def HttpRequestParser.new (junk : Junk) : HttpRequestParser where
  parser := httpParserInit junk
  data := .new
  error := 0

/-- `LEN(AT, FPC)`, in the arithmetic of `size_t`. -/
def lenTo (at_ fpc : Nat) : Nat := (fpc + 2 ^ 64 - at_) % 2 ^ 64

/-- `std::string(buffer + at, len)`. -/
def slice (buffer : List UInt8) (at_ len : Nat) : Except Abort (List UInt8) :=
  if at_ + len ≤ buffer.length then .ok ((buffer.drop at_).take len) else .error .outOfBounds

/-- `strncmp(a, b, n) == 0` for a `b` without zero bytes. -/
def strncmpEq (a b : List UInt8) (n : Nat) : Bool := (a.take n).takeWhile (· != 0) == b.take n

def onRequestMethod (at_ : List UInt8) (p : HttpRequestParser) : HttpRequestParser :=
  match charsToHttpMethod at_ with
  | none => { p with error := 1000 }
  | some m => { p with data := { p.data with method := m } }

/-- The texts that the grammar takes for a method: 1 to 20 upper-case letters and digits. -/
structure IsMethodToken (t : List UInt8) : Prop where
  length_pos : 0 < t.length
  length_le : t.length ≤ 20
  chars : ∀ c ∈ t, (isUpper c || isDigit c) = true

/-- The token `t`, with a blank and the bytes `x` behind it, is matched exactly: the callback sets
the method that `t` is the name of, and reports the error 1000 when it names none. -/
def MatchesExactly (t x : List UInt8) : Prop :=
  ∀ p : HttpRequestParser, onRequestMethod (t ++ 32 :: x) p =
    match stringToHttpMethod t with
    | none => { p with error := 1000 }
    | some m => { p with data := { p.data with method := m } }

/-- Both versions are stored as 1.1. -/
def onRequestVersion (at_ : List UInt8) (length : Nat) (p : HttpRequestParser) :
    HttpRequestParser :=
  bif strncmpEq at_ (text "HTTP/1.1") length then { p with data := { p.data with version := 0x11 } }
  else bif strncmpEq at_ (text "HTTP/1.0") length then
    { p with data := { p.data with version := 0x11 } }
  else { p with error := 1001 }

def onRequestHttpField (field value : List UInt8) (p : HttpRequestParser) : HttpRequestParser :=
  bif field.isEmpty then p else { p with data := p.data.setHeader field value }

/-- The body of an action at the position `fpc`. -/
def requestAct (buffer : List UInt8) (fpc : Nat) (a : RequestAction) (p : HttpRequestParser) :
    Except Abort HttpRequestParser :=
  let h := p.parser
  match a with
  | .mark => .ok { p with parser := { h with mark := fpc } }
  | .startField => .ok { p with parser := { h with fieldStart := fpc } }
  | .writeField => .ok { p with parser := { h with fieldLen := lenTo h.fieldStart fpc } }
  | .startValue => .ok { p with parser := { h with mark := fpc } }
  | .writeValue =>
    -- `on_request_http_field` looks at the two strings only when the field has a length.
    if h.fieldLen = 0 then .ok p
    else do
      let field ← slice buffer h.fieldStart h.fieldLen
      let value ← slice buffer h.mark (lenTo h.mark fpc)
      .ok (onRequestHttpField field value p)
  | .requestMethod => .ok (onRequestMethod (buffer.drop h.mark) p)
  | .requestUri => .ok p
  | .fragment => do
    let v ← slice buffer h.mark (lenTo h.mark fpc)
    .ok { p with data := { p.data with fragment := v } }
  | .startQuery => .ok { p with parser := { h with queryStart := fpc } }
  | .queryString => do
    let v ← slice buffer h.queryStart (lenTo h.queryStart fpc)
    .ok { p with data := { p.data with query := v } }
  | .httpVersion => .ok (onRequestVersion (buffer.drop h.mark) (lenTo h.mark fpc) p)
  | .requestPath => do
    let v ← slice buffer h.mark (lenTo h.mark fpc)
    .ok { p with data := { p.data with path := v } }
  | .done =>
    bif h.xmlSent || h.jsonSent then
      .ok { p with parser := { h with
        bodyStart := h.mark
        contentLen := (fpc : Int) - h.mark + 1 } }
    else .ok { p with parser := { h with bodyStart := fpc + 1 } }
  | .xml => .ok { p with parser := { h with xmlSent := true } }
  | .json => .ok { p with parser := { h with jsonSent := true } }

/-- `fbreak`. -/
def RequestAction.stops : RequestAction → Bool
  | .done => true
  | _ => false

/-- `write exec` from the state `cs`. A machine in its error state reads nothing. -/
def requestExec (relaxed : Bool) (buffer : List UInt8) (cs : Cs)
    (p : HttpRequestParser) : Nat × Cs × Except Abort HttpRequestParser :=
  match cs with
  | .error => (0, .error, .ok p)
  | .at m t =>
    exec (Http11.main relaxed) (fun fpc a st => st.bind (requestAct buffer fpc a))
      RequestAction.stops 0 m t buffer (.ok p)

/-- The fields that `http_parser_execute` resets when it is called. -/
def HttpRequestParser.reset (p : HttpRequestParser) : HttpRequestParser :=
  { p with parser := { p.parser with nread := 0, mark := 0, fieldLen := 0, fieldStart := 0 } }

/-- The end of `http_parser_execute`, with the position and the state that `write exec` left. -/
def leaveExecute (buffer : List UInt8) (fpc : Nat) (cs : Cs) (p : HttpRequestParser) :
    Except Abort (Nat × HttpRequestParser) :=
  let h := { p.parser with nread := fpc }
  let h := if p.parser.cs = .error then h else { h with cs := cs }
  if h.nread ≤ buffer.length ∧ h.bodyStart ≤ buffer.length ∧ h.mark < buffer.length ∧
      h.fieldLen ≤ buffer.length ∧ h.fieldStart < buffer.length then
    .ok (fpc, { p with parser := h })
  else .error .assertion

/-- `http_parser_execute(parser, buffer, len, 0)`: the number of bytes consumed and the parser. The
length is compared as an `int` in the second assertion. -/
def httpParserExecute (relaxed : Bool) (buffer : List UInt8) (p : HttpRequestParser) :
    Except Abort (Nat × HttpRequestParser) :=
  if buffer.length = 0 then .ok (0, p)
  else if (buffer.length : Int) ≠ toInt32 buffer.length then .error .assertion
  else
    match requestExec relaxed buffer p.parser.cs p.reset with
    | (fpc, cs, res) => res.bind (leaveExecute buffer fpc cs)

namespace HttpRequestParser

/-- `execute`: the bytes that are left in front of the buffer, and the parser. -/
def execute (relaxed : Bool) (buffer : List UInt8) (p : HttpRequestParser) :
    Except Abort (List UInt8 × HttpRequestParser) :=
  (httpParserExecute relaxed buffer p).map fun r => (buffer.drop r.1, r.2)

/-- `http_parser_is_finished`: the state is a final one. -/
def isFinished (relaxed : Bool) (p : HttpRequestParser) : Bool :=
  match p.parser.cs with
  -- `http_parser_finish` returns -1 here, which is true as a `bool`.
  | .error => true
  | .at m t => live m (Http11.main relaxed) t

def hasError (p : HttpRequestParser) : Bool := p.error != 0 || p.parser.cs == .error

def getContentLenght (p : HttpRequestParser) : Nat :=
  getAs p.data.headers (text "content-length") 0

end HttpRequestParser

end Sylar.Http
