import Sylar.Spec.HttpConnection
import Sylar.Spec.HttpServer
import Sylar.Spec.SocketStream
import Sylar.Spec.Uri

/-!
# `Sylar.Spec.HttpCalls`: the calls of an HTTP client

`HttpConnection::DoRequest` connects for each request, and `HttpConnectionPool::doRequest` takes a
connection from a pool. Both make the request with the same loop over the headers of the caller
(`buildRequest`) and end with the same exchange (`exchange`).

What the network does is a parameter: the address that a lookup gives, as its text, whether
`connect` succeeds, the results of the calls of `write`, and what arrives when the peer has the
request. A `Socket::CreateTCP` returns a socket at all times, and so does `getSocket`, so
`CREATE_SOCKET_ERROR` and `POOL_INVALID_CONNECTION` are not among the results.
-/

set_option autoImplicit false

namespace Sylar.Http

open Lib

namespace HttpResult

/-- `HttpResult::Error`. -/
inductive Error where
  | ok | invalidUrl | invalidHost | connectFail | sendCloseByPeer | sendSocketError | timeout
  | createSocketError | poolGetConnection | poolInvalidConnection
  deriving DecidableEq, Repr

end HttpResult

structure HttpResult where
  result : HttpResult.Error
  response : Option HttpResponse
  error : List UInt8

/-- `std::map<std::string, std::string>`. -/
abbrev StringMap := OrderedMap (fun s : List UInt8 => s.map UInt8.toNat) (List UInt8)

/-! ### The request -/

def IsConnection (key : List UInt8) : Prop := caseFold key = caseFold (text "connection")

def IsHost (key : List UInt8) : Prop := caseFold key = caseFold (text "host")

instance (key : List UInt8) : Decidable (IsConnection key) := inferInstanceAs (Decidable (_ = _))

instance (key : List UInt8) : Decidable (IsHost key) := inferInstanceAs (Decidable (_ = _))

/-- The body of the loop over the headers: the request, and `has_host`. -/
def addHeader (st : HttpRequest × Bool) (i : List UInt8 × List UInt8) : HttpRequest × Bool :=
  if IsConnection i.1 then
    if caseFold i.2 = caseFold (text "keep-alive") then ({ st.1 with close := false }, st.2) else st
  else (st.1.setHeader i.1 i.2, if st.2 = false ∧ IsHost i.1 then !i.2.isEmpty else st.2)

/-- The request, from what it is before the loop. `host` is for a caller who gives none. -/
def buildRequest (req : HttpRequest) (headers : StringMap) (host body : List UInt8) : HttpRequest :=
  let (req, hasHost) := headers.entries.foldl addHeader (req, false)
  let req := bif hasHost then req else req.setHeader (text "Host") host
  { req with body := body }

/-! ### The exchange -/

/-- The connection to a peer: the results of `write`, the error that a failed one leaves, and what
arrives when the peer has got some bytes. -/
structure Peer where
  write : Results
  errno : Int
  strerror : List UInt8
  answer : List UInt8 → Stream

/-- `sendRequest`. `writeFixSize` returns in any case, so the second branch is not taken. -/
def sendRequest (io : Results) (req : HttpRequest) : Int :=
  match Transfer.writeFixSize io req.dump.length [] with
  | .ok rt _ => rt
  | .error _ _ => -1

/-- What both functions do with a connection to `addr`. -/
def exchange (buffSize : Nat) (peer : Peer) (req : HttpRequest) (timeoutMs : Nat)
    (addr : List UInt8) : Except Abort HttpResult :=
  let rt := sendRequest peer.write req
  if rt = 0 then .ok ⟨.sendCloseByPeer, none, text "send request closed by peer: " ++ addr⟩
  else if rt < 0 then
    .ok ⟨.sendSocketError, none, text "send request socket error errno=" ++
      Sylar.Uri.toText peer.errno ++ text " errstr=" ++ peer.strerror⟩
  else do
    match ← HttpConnection.recvResponse buffSize (peer.answer req.dump) with
    | (none, _) =>
      .ok ⟨.timeout, none, text "recv response timeout: " ++ addr ++ text " timeout_ms:" ++
        numeral 10 timeoutMs⟩
    | (some (rsp, _), _) => .ok ⟨.ok, some rsp, text "ok"⟩

/-! ### `HttpConnection` -/

/-- What the network does for a call that connects. -/
structure Net extends Peer where
  createAddress : Sylar.Uri → Option (List UInt8)
  connect : List UInt8 → Bool

namespace HttpConnection

/-- The request that `DoRequest(method, uri, timeout_ms, headers, body)` makes. -/
def requestOf (method : HttpMethod) (uri : Sylar.Uri) (headers : StringMap) (body : List UInt8) :
    HttpRequest :=
  buildRequest { HttpRequest.new with
    path := uri.getPath
    query := uri.query
    fragment := uri.fragment
    method := method } headers uri.host body

variable (buffSize : Nat) (net : Net)

/-- `DoRequest(req, uri, timeout_ms)`. -/
def doRequest (req : HttpRequest) (uri : Sylar.Uri) (timeoutMs : Nat) : Except Abort HttpResult :=
  match net.createAddress uri with
  | none => .ok ⟨.invalidHost, none, text "invalid host: " ++ uri.host⟩
  | some addr =>
    if net.connect addr then exchange buffSize net.toPeer req timeoutMs addr
    else .ok ⟨.connectFail, none, text "connect fail: " ++ addr⟩

/-- `DoRequest(method, uri, timeout_ms, headers, body)`. -/
def doRequestUri (method : HttpMethod) (uri : Sylar.Uri) (timeoutMs : Nat) (headers : StringMap)
    (body : List UInt8) : Except Abort HttpResult :=
  doRequest buffSize net (requestOf method uri headers body) uri timeoutMs

/-- A call with the text of a URL. A null mark in `Uri::Create` leaves no result. -/
def doUrl (complaint : String) (method : HttpMethod) (url : List UInt8) (timeoutMs : Nat)
    (headers : StringMap) (body : List UInt8) : Except NullMark (Except Abort HttpResult) := do
  match ← Sylar.Uri.create url with
  | none => .ok (.ok ⟨.invalidUrl, none, text complaint ++ url⟩)
  | some uri => .ok (doRequestUri buffSize net method uri timeoutMs headers body)

def doGet := doUrl buffSize net "invalid url:" .get

def doPost := doUrl buffSize net "invalid url:" .post

def doRequestUrl := doUrl buffSize net "invalid url: "

end HttpConnection

/-! ### `HttpConnectionPool` -/

namespace HttpConnectionPool

/-- Where the connections of a pool go. -/
structure Target where
  host : List UInt8
  vhost : List UInt8
  port : Nat

variable (pool : Target)

/-- The host of a request for which the caller gives none. -/
def Target.hostHeader : List UInt8 := if pool.vhost.isEmpty then pool.host else pool.vhost

/-- The text that a `Uri` is turned into. -/
def urlOf (uri : Sylar.Uri) : List UInt8 :=
  uri.getPath ++ HttpRequest.mark "?" uri.query ++ uri.query ++ HttpRequest.mark "#" uri.fragment ++
    uri.fragment

/-- The request that `doRequest(method, url, timeout_ms, headers, body)` makes. -/
def Target.requestOf (method : HttpMethod) (url : List UInt8) (headers : StringMap)
    (body : List UInt8) : HttpRequest :=
  buildRequest { HttpRequest.new with
    path := url
    method := method
    close := false } headers pool.hostHeader body

/-- `doRequest(req, timeout_ms)`. `conn` is what `getConnection` returns: the text of the remote
address, and the connection. -/
def Target.doRequest (buffSize : Nat) (conn : Option (List UInt8 × Peer)) (req : HttpRequest)
    (timeoutMs : Nat) : Except Abort HttpResult :=
  match conn with
  | none =>
    .ok ⟨.poolGetConnection, none, text "pool host:" ++ pool.host ++ text " port:" ++
      numeral 10 pool.port⟩
  | some (addr, peer) => exchange buffSize peer req timeoutMs addr

/-- `doRequest(method, uri, timeout_ms, headers, body)`. -/
def Target.doRequestUri (buffSize : Nat) (conn : Option (List UInt8 × Peer)) (method : HttpMethod)
    (uri : Sylar.Uri) (timeoutMs : Nat) (headers : StringMap) (body : List UInt8) :
    Except Abort HttpResult :=
  pool.doRequest buffSize conn (pool.requestOf method (urlOf uri) headers body) timeoutMs

end HttpConnectionPool

/-! ### This repository's server as the peer -/

/-- What `handleClient` writes to the connection. -/
def HttpServer.written (events : List HttpServer.Event) : List UInt8 :=
  events.flatMap fun
    | .sent rsp => rsp.dump
    | _ => []

/-! ### What a caller asks for -/

/-- The value of the last entry for a key. The entries of the caller stand in the order of their
bytes, so keys that differ in case are different entries. -/
def lastOf (es : List (List UInt8 × List UInt8)) (key : List UInt8) : Option (List UInt8) :=
  (es.reverse.find? fun e => decide (caseFold e.1 = caseFold key)).map Prod.snd

/-- The caller gives a host. -/
def GivesHost (headers : StringMap) : Prop := ∃ e ∈ headers.entries, IsHost e.1 ∧ e.2 ≠ []

instance (headers : StringMap) : Decidable (GivesHost headers) :=
  inferInstanceAs (Decidable (∃ e ∈ headers.entries, _))

/-- The caller asks to keep the connection. -/
def AsksKeepAlive (headers : StringMap) : Prop :=
  ∃ e ∈ headers.entries, IsConnection e.1 ∧ caseFold e.2 = caseFold (text "keep-alive")

/-- The value that a request carries for a key, when `host` is the host of the client. -/
def carried (headers : StringMap) (host key : List UInt8) : Option (List UInt8) :=
  if IsConnection key then none
  else if IsHost key ∧ ¬ GivesHost headers then some host
  else lastOf headers.entries key

end Sylar.Http
