import Sylar.Lib.Run
import Sylar.Lib.Text

/-!
# `Sylar.Spec.HttpConnectionPool`: the connection pool

`getConnection` reads the clock, takes connections from the front of `m_conns` under the lock until one
is good, deletes the others, corrects `m_total`, and makes a new connection when it has found none.
`ReleasePtr` is the deleter of the pointer that it returns: it deletes the connection or puts it back.

`n` is the number of threads, and any of them may move between two steps. A connection is the number
of its allocation, and `heap` has the objects. The environment answers which connections are
connected, and whether the lookup, the socket and `connect` succeed. `born` and `handouts` are the
times that the source does not keep: when the object was made, and how often it was returned. `log`
is the history of the decisions, the newest first.

Each connection that a caller drops is released once, which is what `shared_ptr` does.
-/

set_option autoImplicit false

namespace Sylar.Http.HttpConnectionPool

open Lib

/-- The limits of a pool, `uint32_t` each. -/
structure Config where
  maxSize : Nat
  maxAliveTime : Nat
  maxRequest : Nat
  deriving DecidableEq, Repr

structure Conn where
  /-- `m_createTime`. Nothing in the source assigns it. -/
  createTime : Nat
  /-- `m_request`. -/
  request : Nat
  born : Nat
  handouts : Nat
  deriving DecidableEq, Repr

/-- Where a thread is. -/
inductive Pc where
  | idle
  /-- In `getConnection`, before the lock. -/
  | locking (now : Nat)
  /-- Behind the lock, with the connections to delete. -/
  | discarding (ptr : Option Nat) (invalid : List Nat)
  /-- Before `m_total -= invalid_conns.size()`. -/
  | subtracting (ptr : Option Nat) (size : Nat)
  /-- Before the lookup of the address. -/
  | connecting
  /-- Before `++m_total`. -/
  | counting (ptr : Nat)
  /-- Before the return. -/
  | returning (ptr : Nat)
  /-- In `ReleasePtr`, behind `++m_request`. -/
  | checking (ptr : Nat)
  /-- Behind `delete`, before `--m_total`. -/
  | decrementing
  /-- Before the lock. -/
  | pushing (ptr : Nat)
  deriving DecidableEq, Repr

/-- What has been decided about a connection. -/
inductive Verdict where
  /-- `getConnection` returns it from the pool. -/
  | reused
  /-- `ReleasePtr` puts it back. -/
  | kept
  /-- It is deleted. -/
  | discarded (connected : Bool)
  deriving DecidableEq, Repr

/-- A decision, with the object and the reading of the clock it was made with. -/
structure Decision where
  verdict : Verdict
  conn : Conn
  now : Nat
  deriving DecidableEq, Repr

structure Pool (n : Nat) where
  heap : Nat → Conn
  nextConn : Nat
  conns : List Nat
  /-- Returned and not yet released. -/
  out : List Nat
  deleted : List Nat
  /-- `m_total`, an `int32_t`. -/
  total : Int
  clock : Nat
  pc : Fin n → Pc
  log : List Decision

inductive Action (n : Nat) where
  /-- The clock goes on. -/
  | tick (ms : Nat)
  | getConnection (thread : Fin n)
  /-- The loop under the lock, with the connections for which `isConnected()` is true. -/
  | pop (thread : Fin n) (connected : List Nat)
  | discard (thread : Fin n)
  | subtract (thread : Fin n)
  | connect (thread : Fin n) (success : Bool)
  | count (thread : Fin n)
  | hand (thread : Fin n)
  | releasePtr (thread : Fin n) (ptr : Nat)
  | check (thread : Fin n) (connected : Bool)
  | decrement (thread : Fin n)
  | push (thread : Fin n)
  deriving DecidableEq, Repr

section
variable (cfg : Config)

/-- The test of `getConnection`. -/
def isInvalid (heap : Nat → Conn) (now : Nat) (connected : List Nat) (conn : Nat) : Bool :=
  !connected.contains conn || decide (now < (heap conn).createTime + cfg.maxAliveTime)

/-- The loop of `getConnection`: `ptr`, `invalid_conns`, and what is left of `m_conns`. -/
def popLoop (heap : Nat → Conn) (now : Nat) (connected : List Nat) :
    List Nat → Option Nat × List Nat × List Nat
  | [] => (none, [], [])
  | conn :: conns =>
    if isInvalid cfg heap now connected conn then
      let (ptr, invalid, rest) := popLoop heap now connected conns
      (ptr, conn :: invalid, rest)
    else (some conn, [], conns)

/-- The test of `ReleasePtr`. -/
def isSpent (conn : Conn) (now : Nat) (connected : Bool) : Bool :=
  !connected || decide (now ≤ conn.createTime + cfg.maxAliveTime) ||
    decide (cfg.maxRequest ≤ conn.request)

end

namespace Pool

variable {n : Nat}

def goto (s : Pool n) (t : Fin n) (pc : Pc) : Pool n := { s with pc := Function.update s.pc t pc }

/-- The object of a connection changes. -/
def modify (s : Pool n) (ptr : Nat) (f : Conn → Conn) : Pool n :=
  { s with heap := Function.update s.heap ptr (f (s.heap ptr)) }

def pop (cfg : Config) (s : Pool n) (t : Fin n) (now : Nat) (connected : List Nat) : Pool n :=
  let (ptr, invalid, rest) := popLoop cfg s.heap now connected s.conns
  { s with
    conns := rest
    pc := Function.update s.pc t (.discarding ptr invalid)
    log := (ptr.toList.map fun c => ⟨.reused, s.heap c, now⟩) ++
      (invalid.map fun c => ⟨.discarded (connected.contains c), s.heap c, now⟩) ++ s.log }

def discard (s : Pool n) (t : Fin n) (ptr : Option Nat) (invalid : List Nat) : Pool n :=
  { s with
    deleted := invalid ++ s.deleted
    pc := Function.update s.pc t (.subtracting ptr invalid.length) }

def subtract (s : Pool n) (t : Fin n) (ptr : Option Nat) (size : Nat) : Pool n :=
  { s with
    total := toInt32 (s.total - size)
    pc := Function.update s.pc t (ptr.elim .connecting .returning) }

def connect (s : Pool n) (t : Fin n) (success : Bool) : Pool n :=
  if success then
    { s with
      heap := Function.update s.heap s.nextConn ⟨0, 0, s.clock, 0⟩
      nextConn := s.nextConn + 1
      pc := Function.update s.pc t (.counting s.nextConn) }
  else s.goto t .idle

def count (s : Pool n) (t : Fin n) (ptr : Nat) : Pool n :=
  { s with
    total := toInt32 (s.total + 1)
    pc := Function.update s.pc t (.returning ptr) }

def hand (s : Pool n) (t : Fin n) (ptr : Nat) : Pool n :=
  { s.modify ptr fun c => { c with handouts := c.handouts + 1 } with
    out := ptr :: s.out
    pc := Function.update s.pc t .idle }

def releasePtr (s : Pool n) (t : Fin n) (ptr : Nat) : Pool n :=
  { s.modify ptr fun c => { c with request := c.request + 1 } with
    out := s.out.erase ptr
    pc := Function.update s.pc t (.checking ptr) }

def check (cfg : Config) (s : Pool n) (t : Fin n) (ptr : Nat) (connected : Bool) : Pool n :=
  if isSpent cfg (s.heap ptr) s.clock connected then
    { s with
      deleted := ptr :: s.deleted
      pc := Function.update s.pc t .decrementing
      log := ⟨.discarded connected, s.heap ptr, s.clock⟩ :: s.log }
  else
    { s with
      pc := Function.update s.pc t (.pushing ptr)
      log := ⟨.kept, s.heap ptr, s.clock⟩ :: s.log }

def decrement (s : Pool n) (t : Fin n) : Pool n :=
  { s with
    total := toInt32 (s.total - 1)
    pc := Function.update s.pc t .idle }

def push (s : Pool n) (t : Fin n) (ptr : Nat) : Pool n :=
  { s with
    conns := s.conns ++ [ptr]
    pc := Function.update s.pc t .idle }

end Pool

/-- One step, `none` when it is not enabled. -/
def step {n : Nat} (cfg : Config) (s : Pool n) : Action n → Option (Pool n)
  | .tick ms => some { s with clock := s.clock + ms }
  | .getConnection t =>
    match s.pc t with
    | .idle => some (s.goto t (.locking s.clock))
    | _ => none
  | .pop t connected =>
    match s.pc t with
    | .locking now => some (s.pop cfg t now connected)
    | _ => none
  | .discard t =>
    match s.pc t with
    | .discarding ptr invalid => some (s.discard t ptr invalid)
    | _ => none
  | .subtract t =>
    match s.pc t with
    | .subtracting ptr size => some (s.subtract t ptr size)
    | _ => none
  | .connect t success =>
    match s.pc t with
    | .connecting => some (s.connect t success)
    | _ => none
  | .count t =>
    match s.pc t with
    | .counting ptr => some (s.count t ptr)
    | _ => none
  | .hand t =>
    match s.pc t with
    | .returning ptr => some (s.hand t ptr)
    | _ => none
  | .releasePtr t ptr =>
    if s.pc t = .idle ∧ ptr ∈ s.out then some (s.releasePtr t ptr) else none
  | .check t connected =>
    match s.pc t with
    | .checking ptr => some (s.check cfg t ptr connected)
    | _ => none
  | .decrement t =>
    match s.pc t with
    | .decrementing => some (s.decrement t)
    | _ => none
  | .push t =>
    match s.pc t with
    | .pushing ptr => some (s.push t ptr)
    | _ => none

/-- A new pool, at some reading of the clock. -/
def init (n clock : Nat) : Pool n where
  heap := fun _ => ⟨0, 0, 0, 0⟩
  nextConn := 0
  conns := []
  out := []
  deleted := []
  total := 0
  clock := clock
  pc := fun _ => .idle
  log := []

/-- No call is in progress. -/
def Quiet {n : Nat} (s : Pool n) : Prop := ∀ t, s.pc t = .idle

/-- The number of connections that were made and not deleted. -/
def live {n : Nat} (s : Pool n) : Nat := s.nextConn - s.deleted.length

/-- A decision respects the age limit: what is returned or put back was made at most `m_maxAliveTime`
before, and a connected connection that is deleted is that old or has served its requests. -/
def Decision.fair (cfg : Config) (d : Decision) : Bool :=
  match d.verdict with
  | .reused | .kept => decide (d.now ≤ d.conn.born + cfg.maxAliveTime)
  | .discarded connected =>
    !connected || decide (d.conn.born + cfg.maxAliveTime ≤ d.now) ||
      decide (cfg.maxRequest ≤ d.conn.request)

end Sylar.Http.HttpConnectionPool
