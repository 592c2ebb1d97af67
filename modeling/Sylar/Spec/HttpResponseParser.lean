import Sylar.Lib.Machine
import Sylar.Spec.Http
import Sylar.Spec.HttpRequestParser

/-!
# `Sylar.Spec.HttpResponseParser`: the response grammar and its parser

`httpclient_parser.rl` in the way of `Sylar.Spec.HttpRequestParser`. One machine reads the head of a
response and the size line of a chunk.

A state of the generated machine is finished when it is `first_final`, the first final state in the
order of the generator. That is the state behind a size line, which no byte leaves. A final state
that can go on reading is another one.

`httpclient_parser_init` leaves `status` as it is in the memory of the new object, and nothing reads
that field, so it is left out.
-/

set_option autoImplicit false

namespace Sylar.Http

open Lib Lib.Rx

/-- The actions of `httpclient_parser.rl`. -/
inductive ResponseAction where
  | mark | startField | writeField | startValue | writeContentLen | writeConnectionClose
  | writeValue | reasonPhrase | statusCode | httpVersion | chunkSize | transChunked | done
  deriving DecidableEq, Repr

/-! ### The grammar -/

namespace HttpClient

abbrev Machine := Rx UInt8 ResponseAction

/-- A word in quotes. -/
def lit (s : String) : Machine := word (text s)

/-- A word in any case, `/../i`. -/
def anyCase (s : String) : Machine :=
  seqs ((text s).map fun c => sym fun d => toLower d == toLower c)

def crlf : Machine := alt (lit "\r\n") (lit "\n")

def isCtl (c : UInt8) : Bool := decide (c < 32) || c == 127

def isTspecial (c : UInt8) : Bool := oneOf "()<>@,;:\\\"/[]?=\x7b\x7d \t" c

def isToken (c : UInt8) : Bool := decide (c < 128) && !(isCtl c || isTspecial c)

def digit : Machine := sym isDigit

def spaces : Machine := star (sym isSpace)

def colon : Machine := lit ":"

/-- `any -- CRLF`: a byte that is no line feed. -/
def isReason (c : UInt8) : Bool := c != 10

def isAny (_ : UInt8) : Bool := true

def reasonPhrase : Machine := leave .reasonPhrase (enter .mark (plus (sym isReason)))

def statusCode : Machine := leave .statusCode (enter .mark (plus digit))

def httpNumber : Machine := seqs [plus digit, lit ".", plus digit]

def httpVersion : Machine := leave .httpVersion (enter .mark (seq (lit "HTTP/") httpNumber))

def statusLine : Machine :=
  guarded (seqs [httpVersion, lit " ", statusCode, lit " ", reasonPhrase]) crlf

def fieldName : Machine := leave .writeField (enter .startField (plus (sym isToken)))

def fieldValue : Machine := leave .writeValue (enter .startValue (star (sym isAny)))

def fields : Machine := guarded (seqs [fieldName, colon, spaces, fieldValue]) crlf

def contentLength : Machine :=
  seq (seqs [leave .writeField (enter .startField (anyCase "Content-Length")), colon, spaces,
    leave .writeValue (leave .writeContentLen (enter .startValue (plus digit)))]) crlf

def connClose : Machine :=
  seq (seqs [anyCase "Connection", colon, spaces, anyCase "close"])
    (leave .writeConnectionClose crlf)

def transferEncodingChunked : Machine :=
  seq (seqs [leave .writeField (enter .startField (anyCase "Transfer-Encoding")), colon, spaces,
    leave .writeValue (enter .startValue (anyCase "chunked"))]) (finish .transChunked crlf)

def messageHeader : Machine := alts [transferEncodingChunked, connClose, contentLength, fields]

def response : Machine := seqs [statusLine, star messageHeader, crlf]

def chunkExtension : Machine :=
  star (seqs [lit ";",
    leave .startValue (leave .writeField (enter .startField (plus (sym isToken)))),
    leave .writeValue (opt (seq (lit "=") (enter .startValue (plus (sym isToken)))))])

def chunkedHeader : Machine :=
  guarded (seq (leave .chunkSize (enter .mark (plus (sym isXdigit)))) chunkExtension) crlf

def main : Machine := finish .done (alt response chunkedHeader)

end HttpClient

/-! ### The parser -/

/-- `struct httpclient_parser`, without the callbacks, which are fixed, and without `status`. -/
structure HttpclientParser where
  cs : Cs
  bodyStart : Nat
  contentLen : Int
  chunked : Bool
  chunksDone : Bool
  close : Bool
  nread : Nat
  mark : Nat
  fieldStart : Nat
  fieldLen : Nat
  deriving DecidableEq, Repr

structure HttpResponseParser where
  parser : HttpclientParser
  data : HttpResponse
  error : Nat

def httpclientParserInit : HttpclientParser where
  cs := .at true .none
  bodyStart := 0
  contentLen := -1
  chunked := false
  chunksDone := false
  close := false
  nread := 0
  mark := 0
  fieldStart := 0
  fieldLen := 0

/-- The constructor. -/
def HttpResponseParser.new : HttpResponseParser where
  parser := httpclientParserInit
  data := .new
  error := 0

/-- Both versions are stored as 1.1. -/
def onResponseVersion (at_ : List UInt8) (length : Nat) (p : HttpResponseParser) :
    HttpResponseParser :=
  bif strncmpEq at_ (text "HTTP/1.1") length then { p with data := { p.data with version := 0x11 } }
  else bif strncmpEq at_ (text "HTTP/1.0") length then
    { p with data := { p.data with version := 0x11 } }
  else { p with error := 1001 }

/-- The body of an action at the position `fpc`. -/
def responseAct (buffer : List UInt8) (fpc : Nat) (a : ResponseAction) (p : HttpResponseParser) :
    Except Abort HttpResponseParser :=
  let h := p.parser
  match a with
  | .mark => .ok { p with parser := { h with mark := fpc } }
  | .startField => .ok { p with parser := { h with fieldStart := fpc } }
  | .writeField => .ok { p with parser := { h with fieldLen := lenTo h.fieldStart fpc } }
  | .startValue => .ok { p with parser := { h with mark := fpc } }
  | .writeContentLen =>
    .ok { p with parser := { h with contentLen := toInt32 (strtol 10 (buffer.drop h.mark)) } }
  | .writeConnectionClose => .ok { p with parser := { h with close := true } }
  | .writeValue =>
    -- `on_response_http_field` looks at the two strings only when the field has a length.
    if h.fieldLen = 0 then .ok p
    else do
      let field ← slice buffer h.fieldStart h.fieldLen
      let value ← slice buffer h.mark (lenTo h.mark fpc)
      .ok { p with data := p.data.setHeader field value }
  | .reasonPhrase => do
    let v ← slice buffer h.mark (lenTo h.mark fpc)
    .ok { p with data := { p.data with reason := v } }
  | .statusCode =>
    .ok { p with data := { p.data with status := atoi (buffer.drop h.mark) } }
  | .httpVersion => .ok (onResponseVersion (buffer.drop h.mark) (lenTo h.mark fpc) p)
  | .chunkSize =>
    let contentLen := toInt32 (strtol 16 (buffer.drop h.mark))
    .ok { p with parser := { h with
      chunked := true
      contentLen := contentLen
      chunksDone := decide (contentLen ≤ 0) } }
  | .transChunked => .ok { p with parser := { h with chunked := true } }
  | .done => .ok { p with parser := { h with bodyStart := fpc + 1 } }

/-- `fbreak`. -/
def ResponseAction.stops : ResponseAction → Bool
  | .done => true
  | _ => false

/-- `write exec` from the state `cs`. A machine in its error state reads nothing. -/
def responseExec (buffer : List UInt8) (cs : Cs) (p : HttpResponseParser) :
    Nat × Cs × Except Abort HttpResponseParser :=
  match cs with
  | .error => (0, .error, .ok p)
  | .at m t =>
    exec HttpClient.main (fun fpc a st => st.bind (responseAct buffer fpc a))
      ResponseAction.stops 0 m t buffer (.ok p)

namespace HttpResponseParser

/-- The fields that `httpclient_parser_execute` resets when it is called. -/
def reset (p : HttpResponseParser) : HttpResponseParser :=
  { p with parser := { p.parser with nread := 0, mark := 0, fieldLen := 0, fieldStart := 0 } }

/-- The end of `httpclient_parser_execute`, with the position and the state that `write exec` left.
A `check` that fails returns -1, and `execute` then moves bytes from in front of the buffer. -/
def leaveExecute (buffer : List UInt8) (fpc : Nat) (cs : Cs) (p : HttpResponseParser) :
    Except Abort (Nat × HttpResponseParser) :=
  let h := { p.parser with nread := fpc, cs := cs }
  if h.nread ≤ buffer.length ∧ h.bodyStart ≤ buffer.length then
    if h.mark < buffer.length ∧ h.fieldLen ≤ buffer.length ∧ h.fieldStart < buffer.length then
      .ok (fpc, { p with parser := h })
    else .error .outOfBounds
  else .error .assertion

/-- `httpclient_parser_execute(parser, buffer, len, 0)`: the number of bytes consumed and the
parser. The byte behind the buffer is 0, which its callers see to. The length is compared as an
`int` in the third assertion. -/
def httpclientParserExecute (buffer : List UInt8) (p : HttpResponseParser) :
    Except Abort (Nat × HttpResponseParser) :=
  if (buffer.length : Int) ≠ toInt32 buffer.length then .error .assertion
  else
    match responseExec buffer p.parser.cs p.reset with
    | (fpc, cs, res) => res.bind (leaveExecute buffer fpc cs)

/-- `execute`: the bytes that are left in front of the buffer, and the parser. With `chunck` the
parser starts afresh. -/
def execute (chunck : Bool) (buffer : List UInt8) (p : HttpResponseParser) :
    Except Abort (List UInt8 × HttpResponseParser) :=
  let p := bif chunck then { p with parser := httpclientParserInit } else p
  (httpclientParserExecute buffer p).map fun r => (buffer.drop r.1, r.2)

/-- `httpclient_parser_is_finished`: the state is `first_final`. -/
def isFinished (p : HttpResponseParser) : Bool :=
  match p.parser.cs with
  -- `httpclient_parser_finish` returns -1 here, which is true as a `bool`.
  | .error => true
  | .at m t => live m HttpClient.main t && !hasNext m HttpClient.main t

def hasError (p : HttpResponseParser) : Bool := p.error != 0 || p.parser.cs == .error

def getContentLenght (p : HttpResponseParser) : Nat :=
  getAs p.data.headers (text "content-length") 0

end HttpResponseParser

end Sylar.Http
