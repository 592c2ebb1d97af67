import Mathlib

/-!
# `Sylar.Spec.TcpServer`: the listening sockets of a server

`TcpServer::bind` makes a socket for each address, binds it and listens on it. `m_socks` has the
sockets. The system calls are parameters: `SocketCalls` has the results of the calls that the
address with the index `i` leads to.

An address is a value of any type with a family. A socket is its fields. Its options, and what the
server logs, are left out.
-/

set_option autoImplicit false

namespace Sylar

/-- The results of the system calls for the address with the index `i`. `getsockname` is the local
address, and `none` when the call fails. -/
structure SocketCalls (α : Type) where
  socket : (i : Nat) → Int
  bind : (i : Nat) → Int
  listen : (i : Nat) → Int
  getsockname : (i : Nat) → Option α

structure Socket (α : Type) where
  sock : Int
  family : Int
  type : Int
  protocol : Int
  isConnect : Bool
  localAddress : Option α
  deriving DecidableEq, Repr

section
variable {α : Type} (getFamily : α → Int) (sys : SocketCalls α)

namespace Socket

/-- `SOCK_STREAM`. -/
def sockStream : Int := 1

/-- `CreateTCP(address)`. -/
def createTCP (address : α) : Socket α := ⟨-1, getFamily address, sockStream, 0, false, none⟩

def isValid (s : Socket α) : Bool := s.sock != -1

/-- `newSock()`. -/
def newSock (i : Nat) (s : Socket α) : Socket α := { s with sock := sys.socket i }

/-- `getLocalAddress()`. An address that cannot be found is not stored. -/
def getLocalAddress (i : Nat) (s : Socket α) : Socket α :=
  if s.localAddress.isSome then s else { s with localAddress := sys.getsockname i }

/-- `bind(addr)`: the returned value, and the socket. -/
def bind (i : Nat) (addr : α) (s : Socket α) : Bool × Socket α :=
  let s := if s.isValid then s else s.newSock sys i
  if !s.isValid then (false, s)
  else if getFamily addr != s.family then (false, s)
  else if sys.bind i != 0 then (false, s)
  else (true, s.getLocalAddress sys i)

/-- `listen(backlog)`. -/
def listen (i : Nat) (s : Socket α) : Bool :=
  if !s.isValid then false else sys.listen i == 0

end Socket

/-- `m_socks`. -/
structure TcpServer (α : Type) where
  socks : List (Socket α)
  deriving DecidableEq, Repr

namespace TcpServer

/-- The `for` loop of `bind`, on the addresses from the index `i` on: `fails` and `m_socks`. -/
def bindLoop : (i : Nat) → (addrs fails : List α) → (socks : List (Socket α)) →
    List α × List (Socket α)
  | _, [], fails, socks => (fails, socks)
  | i, addr :: rest, fails, socks =>
    let (bound, sock) := (Socket.createTCP getFamily addr).bind getFamily sys i addr
    if !bound then bindLoop (i + 1) rest (fails ++ [addr]) socks
    else if !sock.listen sys i then bindLoop (i + 1) rest (fails ++ [addr]) socks
    else bindLoop (i + 1) rest fails (socks ++ [sock])

/-- `bind(addrs, fails)`: the returned value, `fails`, and the server. -/
def bind (addrs fails : List α) (server : TcpServer α) : Bool × List α × TcpServer α :=
  let (fails, socks) := bindLoop getFamily sys 0 addrs fails server.socks
  if !fails.isEmpty then (false, fails, { server with socks := [] })
  else (true, fails, { server with socks := socks })

/-! ### All or nothing -/

/-- The socket for the address with the index `i`, if it was bound and listens. -/
def listening (i : Nat) (addr : α) : Option (Socket α) :=
  let (bound, sock) := (Socket.createTCP getFamily addr).bind getFamily sys i addr
  if bound && sock.listen sys i then some sock else none

/-- The addresses from the index `i` on, each with its socket. -/
def attempts (i : Nat) (addrs : List α) : List (α × Option (Socket α)) :=
  (addrs.zipIdx i).map fun p => (p.1, listening getFamily sys p.2 p.1)

/-- The addresses without a socket. -/
def failing (l : List (α × Option (Socket α))) : List α :=
  (l.filter fun p => p.2.isNone).map Prod.fst

/-- `bind` is all or nothing. It returns true if and only if every address has its socket, and then
`fails` is empty and the sockets are appended to `m_socks`. Otherwise `fails` is the addresses
without one, and `m_socks` is what it was. -/
structure AllOrNothing (addrs : List α) (server : TcpServer α) : Prop where
  returned : (bind getFamily sys addrs [] server).1 = true ↔
    ∀ p ∈ attempts getFamily sys 0 addrs, p.2.isSome
  all (h : (bind getFamily sys addrs [] server).1 = true) :
    (bind getFamily sys addrs [] server).2.1 = [] ∧
      ∃ socks, (attempts getFamily sys 0 addrs).map Prod.snd = socks.map some ∧
        (bind getFamily sys addrs [] server).2.2.socks = server.socks ++ socks
  nothing (h : (bind getFamily sys addrs [] server).1 = false) :
    (bind getFamily sys addrs [] server).2.1 = failing (attempts getFamily sys 0 addrs) ∧
      (bind getFamily sys addrs [] server).2.2.socks = server.socks

end TcpServer

end

end Sylar
