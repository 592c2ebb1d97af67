import Sylar.Lib.OrderedMap
import Sylar.Lib.Text

/-!
# `Sylar.Spec.Http`: requests and responses, and how they are printed

The tables of methods and status codes, the header map, `HttpRequest` and `HttpResponse` with the
operations that the parsers and the sessions use, and the two `dump` functions.

The tables are macros whose last argument is turned into a string as it stands, so the text of
`MSEARCH` has blanks in it. `INVALID_METHOD` is `none`: no request has it as its method. A status
is any integer, since `on_response_status` casts what it has read.

A header map compares its keys with `strcasecmp` on their C strings, so what follows a zero byte
does not count and neither does the case of a letter.
-/

set_option autoImplicit false

namespace Sylar.Http

open Lib

inductive HttpMethod where
  | delete | get | head | post | put | connect | options | trace | copy | lock | mkcol | move
  | propfind | proppatch | search | unlock | bind | rebind | unbind | acl | report | mkactivity
  | checkout | merge | msearch | notify | subscribe | unsubscribe | patch | purge | mkcalendar
  | link | unlink | source
  deriving DecidableEq, Repr

/-- `HTTP_METHOD_MAP`. -/
def httpMethodMap : List (HttpMethod × List UInt8) :=
  [(.delete, text "DELETE"), (.get, text "GET"), (.head, text "HEAD"), (.post, text "POST"),
   (.put, text "PUT"), (.connect, text "CONNECT"), (.options, text "OPTIONS"),
   (.trace, text "TRACE"), (.copy, text "COPY"), (.lock, text "LOCK"), (.mkcol, text "MKCOL"),
   (.move, text "MOVE"), (.propfind, text "PROPFIND"), (.proppatch, text "PROPPATCH"),
   (.search, text "SEARCH"), (.unlock, text "UNLOCK"), (.bind, text "BIND"),
   (.rebind, text "REBIND"), (.unbind, text "UNBIND"), (.acl, text "ACL"),
   (.report, text "REPORT"), (.mkactivity, text "MKACTIVITY"), (.checkout, text "CHECKOUT"),
   (.merge, text "MERGE"), (.msearch, text "M - SEARCH"), (.notify, text "NOTIFY"),
   (.subscribe, text "SUBSCRIBE"), (.unsubscribe, text "UNSUBSCRIBE"), (.patch, text "PATCH"),
   (.purge, text "PURGE"), (.mkcalendar, text "MKCALENDAR"), (.link, text "LINK"),
   (.unlink, text "UNLINK"), (.source, text "SOURCE")]

/-- `HTTP_STATUS_MAP`. -/
def httpStatusMap : List (Int × List UInt8) :=
  [(100, text "Continue"), (101, text "Switching Protocols"), (102, text "Processing"),
   (200, text "OK"), (201, text "Created"), (202, text "Accepted"),
   (203, text "Non - Authoritative Information"), (204, text "No Content"),
   (205, text "Reset Content"), (206, text "Partial Content"), (207, text "Multi - Status"),
   (208, text "Already Reported"), (226, text "IM Used"), (300, text "Multiple Choices"),
   (301, text "Moved Permanently"), (302, text "Found"), (303, text "See Other"),
   (304, text "Not Modified"), (305, text "Use Proxy"), (307, text "Temporary Redirect"),
   (308, text "Permanent Redirect"), (400, text "Bad Request"), (401, text "Unauthorized"),
   (402, text "Payment Required"), (403, text "Forbidden"), (404, text "Not Found"),
   (405, text "Method Not Allowed"), (406, text "Not Acceptable"),
   (407, text "Proxy Authentication Required"), (408, text "Request Timeout"),
   (409, text "Conflict"), (410, text "Gone"), (411, text "Length Required"),
   (412, text "Precondition Failed"), (413, text "Payload Too Large"), (414, text "URI Too Long"),
   (415, text "Unsupported Media Type"), (416, text "Range Not Satisfiable"),
   (417, text "Expectation Failed"), (421, text "Misdirected Request"),
   (422, text "Unprocessable Entity"), (423, text "Locked"), (424, text "Failed Dependency"),
   (426, text "Upgrade Required"), (428, text "Precondition Required"),
   (429, text "Too Many Requests"), (431, text "Request Header Fields Too Large"),
   (451, text "Unavailable For Legal Reasons"), (500, text "Internal Server Error"),
   (501, text "Not Implemented"), (502, text "Bad Gateway"), (503, text "Service Unavailable"),
   (504, text "Gateway Timeout"), (505, text "HTTP Version Not Supported"),
   (506, text "Variant Also Negotiates"), (507, text "Insufficient Storage"),
   (508, text "Loop Detected"), (510, text "Not Extended"),
   (511, text "Network Authentication Required")]

/-- The first method of the table whose text the string begins with. -/
def charsToHttpMethod (m : List UInt8) : Option HttpMethod :=
  (httpMethodMap.find? fun e => e.2.isPrefixOf m).map Prod.fst

/-- The method whose text is the string, as `strcmp` compares the two. -/
def stringToHttpMethod (m : List UInt8) : Option HttpMethod :=
  (httpMethodMap.find? fun e => e.2 == m.takeWhile (· != 0)).map Prod.fst

def httpMethodToString (m : HttpMethod) : List UInt8 := (httpMethodMap.lookup m).getD []

def httpStatusToString (s : Int) : List UInt8 := (httpStatusMap.lookup s).getD (text "<unknown>")

/-! ### Headers -/

/-- What `strcasecmp` sees of a string. -/
def caseFold (s : List UInt8) : List Nat :=
  (s.takeWhile (· != 0)).map fun c => (toLower c).toNat

/-- `HttpRequest::MapType`. -/
abbrev MapType := OrderedMap caseFold (List UInt8)

/-- `boost::lexical_cast<uint64_t>`: a sign and digits, and nothing else. A negative number wraps.
`none` is `bad_lexical_cast`. -/
def lexicalCast (s : List UInt8) : Option Nat :=
  let ds := bif s.head? == some 43 || s.head? == some 45 then s.tail else s
  if ds = [] ∨ ds.all isDigit = false ∨ 2 ^ 64 ≤ ofNumeral 10 ds then none
  else if s.head? = some 45 then some ((2 ^ 64 - ofNumeral 10 ds) % 2 ^ 64)
  else some (ofNumeral 10 ds)

/-- `getAs<uint64_t>`. -/
def getAs (m : MapType) (key : List UInt8) (dflt : Nat) : Nat :=
  match m.find key with
  | none => dflt
  | some v => (lexicalCast v).getD dflt

/-! ### Requests -/

structure HttpRequest where
  method : HttpMethod
  version : UInt8
  close : Bool
  websocket : Bool
  path : List UInt8
  query : List UInt8
  fragment : List UInt8
  body : List UInt8
  headers : MapType

namespace HttpRequest

/-- The constructor with its default arguments. -/
def new : HttpRequest where
  method := .get
  version := 0x11
  close := true
  websocket := false
  path := text "/"
  query := []
  fragment := []
  body := []
  headers := .empty

def getHeader (q : HttpRequest) (key : List UInt8) : List UInt8 := (q.headers.find key).getD []

def setHeader (q : HttpRequest) (key val : List UInt8) : HttpRequest :=
  { q with headers := q.headers.set key val }

/-- What stands in front of an optional part: nothing when the part is empty. -/
def mark (sep : String) (part : List UInt8) : List UInt8 :=
  bif part.isEmpty then [] else text sep

/-- The header line that `dump` prints for an entry. -/
def dumpHeader (websocket : Bool) (e : List UInt8 × List UInt8) : List UInt8 :=
  bif !websocket && caseFold e.1 == caseFold (text "connection") then []
  else e.1 ++ text ":" ++ e.2 ++ text "\r\n"

def dumpConnection (websocket close : Bool) : List UInt8 :=
  bif websocket then []
  else text "connection: " ++ (bif close then text "close" else text "keep-alive") ++ text "\r\n"

def dumpBody (body : List UInt8) : List UInt8 :=
  bif body.isEmpty then text "\r\n"
  else text "content-length: " ++ numeral 10 body.length ++ text "\r\n\r\n" ++ body

/-- The two halves of the version byte as it is printed, with what stands between them. -/
def dumpVersion (sep : String) (version : UInt8) : List UInt8 :=
  text "HTTP/" ++ numeral 10 (version >>> 4).toNat ++ text sep ++
    numeral 10 (version &&& 0x0F).toNat

def dump (q : HttpRequest) : List UInt8 :=
  httpMethodToString q.method ++ text " " ++ q.path ++ mark "?" q.query ++ q.query ++
    mark "#" q.fragment ++ q.fragment ++ text " " ++ dumpVersion "." q.version ++ text "\r\n" ++
    dumpConnection q.websocket q.close ++ q.headers.entries.flatMap (dumpHeader q.websocket) ++
    dumpBody q.body

/-- `init`: the close flag follows the connection header when there is one. -/
def init (q : HttpRequest) : HttpRequest :=
  let conn := q.getHeader (text "connection")
  bif conn.isEmpty then q
  else { q with close := !(caseFold conn == caseFold (text "keep-alive")) }

end HttpRequest

/-! ### Responses -/

structure HttpResponse where
  status : Int
  version : UInt8
  close : Bool
  websocket : Bool
  body : List UInt8
  reason : List UInt8
  headers : MapType
  cookies : List (List UInt8)

namespace HttpResponse

/-- The constructor with its default arguments. -/
def new : HttpResponse where
  status := 200
  version := 0x11
  close := true
  websocket := false
  body := []
  reason := []
  headers := .empty
  cookies := []

def setHeader (r : HttpResponse) (key val : List UInt8) : HttpResponse :=
  { r with headers := r.headers.set key val }

def dumpHeader (websocket : Bool) (e : List UInt8 × List UInt8) : List UInt8 :=
  bif !websocket && caseFold e.1 == caseFold (text "connection") then []
  else e.1 ++ text ": " ++ e.2 ++ text "\r\n"

def dumpCookie (cookie : List UInt8) : List UInt8 :=
  text "Set-Cookie: " ++ cookie ++ text "\r\n"

/-- The version is printed with a comma. -/
def dump (r : HttpResponse) : List UInt8 :=
  HttpRequest.dumpVersion "," r.version ++ text " " ++ numeral 10 (r.status % 2 ^ 32).toNat ++
    text " " ++ (bif r.reason.isEmpty then httpStatusToString r.status else r.reason) ++ text "\r\n" ++
    r.headers.entries.flatMap (dumpHeader r.websocket) ++ r.cookies.flatMap dumpCookie ++
    HttpRequest.dumpConnection r.websocket r.close ++ HttpRequest.dumpBody r.body

end HttpResponse

end Sylar.Http
