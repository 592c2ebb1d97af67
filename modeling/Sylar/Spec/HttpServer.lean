import Sylar.Spec.Http
import Sylar.Spec.Servlet

/-!
# `Sylar.Spec.HttpServer`: the loop over the requests of one connection

`handleClient` receives a request, makes a response with its close flag, gives both to the
dispatcher, and sends the response. It goes on as long as the server keeps connections alive and
`recvRequest` returns a request, and closes the session at the end.

The requests that `recvRequest` returns on the connection are a list, and the null pointer that it
returns at the end of them is the end of the list. A servlet is a function on the response, and a
null pointer to a servlet is `none`. What the loop does is a list of events, the oldest first.
-/

set_option autoImplicit false

namespace Sylar.Http

open Lib

abbrev Servlet := HttpRequest → HttpResponse → HttpResponse

structure HttpServer where
  isKeepalive : Bool
  name : List UInt8
  dispatch : ServletDispatch (Option Servlet)

namespace HttpServer

inductive Event where
  | received (req : HttpRequest)
  | sent (rsp : HttpResponse)
  | closed

/-- `ServletDispatch::handle`. -/
def handle (fnmatch : Uri → Uri → Bool) (d : ServletDispatch (Option Servlet)) (req : HttpRequest)
    (rsp : HttpResponse) : HttpResponse :=
  match d.getMatchServlet fnmatch req.path with
  | some slt => slt req rsp
  | none => rsp

variable (fnmatch : Uri → Uri → Bool) (server : HttpServer)

/-- The response to a request, as it is sent. -/
def respond (req : HttpRequest) : HttpResponse :=
  let rsp := { HttpResponse.new with
    version := req.version
    close := req.close || !server.isKeepalive }
  handle fnmatch server.dispatch req (rsp.setHeader (text "Server") server.name)

/-- `handleClient`, with the requests that arrive. -/
def handleClient : List HttpRequest → List Event
  | [] => [.closed]
  | req :: arriving =>
    .received req :: .sent (server.respond fnmatch req) ::
      if server.isKeepalive then handleClient arriving else [.closed]

end HttpServer

/-- The connection header that `dump` prints is `close`. A response with `m_websocket` has only what
its servlet has put in the headers. -/
def HttpResponse.saysClose (r : HttpResponse) : Bool :=
  bif r.websocket then
    caseFold ((r.headers.find (text "connection")).getD []) == caseFold (text "close")
  else r.close

end Sylar.Http
