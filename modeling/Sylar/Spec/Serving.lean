import Sylar.Lib.Run
import Sylar.Spec.TcpServer

/-!
# `Sylar.Spec.Serving`: the accept loops of a server

`TcpServer::start` schedules one `startAccept` for each listening socket. Each of them loops until
`m_isStop` is set: it accepts a connection and schedules `handleClient` for it. `stop` sets
`m_isStop` and schedules a task that closes the listening sockets. `m_isStop` is one flag for all
loops, and `start` resets it.

Listening sockets are numbered in the order in which they are made. A socket is closed by the
closing task, and also when nothing refers to it any more. A loop refers to its socket, and
`m_socks` to those in it. The accept worker runs its tasks in any order, and a loop can wait in
`accept` while others run. The closing task does not wait, and it is one step. What the kernel
answers is part of an action.

`handleClient` itself, what is logged, and the destructor are left out.
-/

set_option autoImplicit false

namespace Sylar.Serving

open Lib

/-- Where a `startAccept` is. -/
inductive Pc where
  /-- Before the test of `m_isStop`. A task that has not begun is here. -/
  | test
  /-- In `sock->accept()`. -/
  | accept
  deriving DecidableEq, Repr

/-- A task that runs `startAccept(sock)`. -/
structure Loop where
  sock : Nat
  pc : Pc
  deriving DecidableEq, Repr

structure State where
  isStop : Bool
  /-- `m_socks`. -/
  socks : List Nat
  isOpen : Nat → Bool
  /-- The number of the next socket. -/
  next : Nat
  loops : List Loop
  /-- The closing tasks that `stop` has scheduled and that have not run. -/
  closers : Nat
  recvTimeout : UInt64
  /-- The clients of the scheduled `handleClient`, each with its receive timeout. -/
  handed : List (Nat × UInt64)

inductive Action where
  /-- `bind(addrs, fails)`, and for each address whether it was bound and listens. -/
  | bind (bound : List Bool)
  | start
  | stop
  | setRecvTimeout (v : UInt64)
  /-- A closing task runs. -/
  | close
  /-- The loop with the index `k` tests `m_isStop`. -/
  | test (k : Nat)
  /-- `accept` returns in the loop with the index `k`. -/
  | accept (k : Nat) (client : Option Nat)
  deriving DecidableEq, Repr

namespace State

/-- The sockets that the loops refer to. -/
def held (s : State) : List Nat := s.loops.map Loop.sock

/-- Sockets that nothing refers to are destroyed, and so closed. -/
def collect (s : State) : State :=
  { s with isOpen := fun i => s.isOpen i && (s.socks.contains i || s.held.contains i) }

def bind (s : State) (bound : List Bool) : State :=
  let made := List.range' s.next (bound.count true)
  let s := { s with next := s.next + bound.count true }
  if bound.all id then
    { s with socks := s.socks ++ made, isOpen := fun i => s.isOpen i || made.contains i }
  else collect { s with socks := [] }

def start (s : State) : State :=
  if !s.isStop then s
  else { s with isStop := false, loops := s.loops ++ s.socks.map (⟨·, .test⟩) }

def stop (s : State) : State := { s with isStop := true, closers := s.closers + 1 }

/-- The closing task. -/
def close (s : State) : State :=
  { s with
    isOpen := fun i => s.isOpen i && !s.socks.contains i
    socks := []
    closers := s.closers - 1 }

end State

def step (s : State) : Action → Option State
  | .bind bound => some (s.bind bound)
  | .start => some s.start
  | .stop => some s.stop
  | .setRecvTimeout v => some { s with recvTimeout := v }
  | .close => if s.closers = 0 then none else some s.close
  | .test k =>
    match s.loops[k]? with
    | some ⟨sock, .test⟩ =>
      if s.isStop then some (State.collect { s with loops := s.loops.eraseIdx k })
      else some { s with loops := s.loops.set k ⟨sock, .accept⟩ }
    | _ => none
  | .accept k client =>
    match s.loops[k]? with
    | some ⟨sock, .accept⟩ =>
      match client with
      | some client =>
        -- Only an open socket has connections.
        if s.isOpen sock then
          some { s with
            loops := s.loops.set k ⟨sock, .test⟩
            handed := s.handed ++ [(client, s.recvTimeout)] }
        else none
      | none => some { s with loops := s.loops.set k ⟨sock, .test⟩ }
    | _ => none

/-- `TcpServer(worker, accept_worker)`. -/
def init (recvTimeout : UInt64) : State := ⟨true, [], fun _ => false, 0, [], 0, recvTimeout, []⟩

end Sylar.Serving
