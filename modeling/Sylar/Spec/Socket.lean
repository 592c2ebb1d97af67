import Sylar.Lib.Run
import Sylar.Lib.Text
import Sylar.Spec.TcpServer

/-!
# `Sylar.Spec.Socket`: socket objects, their descriptors and their contexts

A `Socket` makes a descriptor when it first needs one, gives it back in `close`, and can then make
another one. Beside the kernel's table of descriptors there is the `FdManager`, with a context
for each descriptor that the hooked `socket` or `accept` has returned. Timeouts are kept there.

The world is all three: the open descriptors, the contexts, and the objects. Objects are numbered
in the order in which they are made. What the kernel answers is part of an action: the number of
a new descriptor, the names it has, and whether a call succeeds. A number that the kernel returns
for a new descriptor is not in use.

The hook is enabled. Methods run one at a time. The options that `initSock` sets, `listen`, and
what is logged are left out, and so is the cancelling of events in `close`.

`recvAsked` and `sendAsked` are histories: the last timeout that was set since the object has its
descriptor. `badCloses` counts the calls of `close` for a descriptor that is not open.
-/

set_option autoImplicit false

namespace Sylar.Sockets

open Lib

/-! ### Data -/

/-- An open socket of the kernel, with what `getsockname` and `getpeername` return. -/
structure Desc (α : Type) where
  name : α
  peer : Option α
  deriving DecidableEq, Repr

/-- `FdCtx`. The timeouts are of the type `uint64_t`. -/
structure FdCtx where
  isSocket : Bool
  recvTimeout : Nat
  sendTimeout : Nat
  deriving DecidableEq, Repr

/-- `Socket`, with histories. -/
structure Sock (α : Type) extends Sylar.Socket α where
  remoteAddress : Option α
  recvAsked : Option UInt64
  sendAsked : Option UInt64
  deriving DecidableEq, Repr

structure World (α : Type) where
  desc : Int → Option (Desc α)
  /-- `m_datas` of the `FdManager`. -/
  ctx : Int → Option FdCtx
  socks : Nat → Option (Sock α)
  next : Nat
  badCloses : Nat

section
variable {α : Type}

/-! ### Contexts -/

/-- `-1` as a `uint64_t`: no timeout. -/
def noTimeout : Nat := 2 ^ 64 - 1

/-- `FdManager::get(fd)`. -/
def World.get (w : World α) (fd : Int) : Option FdCtx := if fd = -1 then none else w.ctx fd

/-- `FdManager::get(fd, true)`. A new context asks the kernel whether it has a socket. -/
def World.getOrCreate (w : World α) (fd : Int) : World α :=
  match w.get fd with
  | some _ => w
  | none =>
    { w with ctx := Function.update w.ctx fd (some ⟨(w.desc fd).isSome, noTimeout, noTimeout⟩) }

/-! ### System calls -/

/-- The kernel opens a descriptor. -/
def World.opened (w : World α) (fd : Int) (d : Desc α) : World α :=
  { w with desc := Function.update w.desc fd (some d) }

/-- The hooked `socket`, with the answer of the kernel: a descriptor and its name. -/
def socket (w : World α) : Option (Int × α) → Int × World α
  | none => (-1, w)
  | some (fd, name) => (fd, (w.opened fd ⟨name, none⟩).getOrCreate fd)

/-- The hooked `close`. -/
def closeFd (w : World α) (fd : Int) : World α :=
  let w := if (w.get fd).isSome then { w with ctx := Function.update w.ctx fd none } else w
  if (w.desc fd).isSome then { w with desc := Function.update w.desc fd none }
  else { w with badCloses := w.badCloses + 1 }

/-- The hooked `connect` and `connect_with_timeout`, with the answer of the kernel: the peer and
the name. -/
def connectFd (w : World α) (fd : Int) (answer : Option (α × α)) : Bool × World α :=
  match w.get fd, w.desc fd, answer with
  | some _, some _, some (peer, name) => (true, w.opened fd ⟨name, some peer⟩)
  | _, _, _ => (false, w)

/-- `struct timeval{int(v / 1000), int(v % 1000 * 1000)}`. -/
def timeval (v : UInt64) : Int × Int :=
  (toInt32 (v.toNat / 1000 : Nat), toInt32 (v.toNat % 1000 * 1000 : Nat))

/-- `v->tv_sec * 1000 + v->tv_usec / 1000` as a `uint64_t`. -/
def milliseconds (tv : Int × Int) : Nat := ((tv.1 * 1000 + tv.2.tdiv 1000) % 2 ^ 64).toNat

/-- The hooked `setsockopt` with `SO_RCVTIMEO` or `SO_SNDTIMEO`. -/
def setTimeoutFd (w : World α) (fd : Int) (recv : Bool) (tv : Int × Int) : World α :=
  match w.get fd with
  | none => w
  | some c =>
    { w with
      ctx := Function.update w.ctx fd (some
        (if recv then { c with recvTimeout := milliseconds tv }
          else { c with sendTimeout := milliseconds tv })) }

/-! ### Methods -/

/-- `Socket(family, type, protocol)`. -/
def Sock.new (family type protocol : Int) : Sock α :=
  ⟨⟨-1, family, type, protocol, false, none⟩, none, none, none⟩

/-- `getLocalAddress()`, up to the address it returns. -/
def Sock.getLocalAddress (w : World α) (s : Sock α) : Sock α :=
  match s.localAddress, w.desc s.sock with
  | none, some d => { s with localAddress := some d.name }
  | _, _ => s

/-- `getRemoteAddress()`, up to the address it returns. -/
def Sock.getRemoteAddress (w : World α) (s : Sock α) : Sock α :=
  match s.remoteAddress, w.desc s.sock with
  | none, some d => { s with remoteAddress := d.peer }
  | _, _ => s

/-- `newSock()`. -/
def Sock.newSock (w : World α) (s : Sock α) (made : Option (Int × α)) : World α × Sock α :=
  let (fd, w) := socket w made
  (w, { s with sock := fd, recvAsked := none, sendAsked := none })

/-- `close()`. -/
def Sock.close (w : World α) (s : Sock α) : World α × Sock α :=
  if !s.isConnect && s.sock == -1 then (w, s)
  else
    let w := if s.sock != -1 then closeFd w s.sock else w
    (w, { s with isConnect := false, sock := -1, recvAsked := none, sendAsked := none })

/-- The start of `bind` and `connect`. -/
def Sock.ensure (w : World α) (s : Sock α) (made : Option (Int × α)) : World α × Sock α :=
  if s.isValid then (w, s) else s.newSock w made

variable (getFamily : α → Int)

/-- `bind(addr)`, with the answer of the kernel: the name. -/
def Sock.bind (w : World α) (s : Sock α) (addr : α) (made : Option (Int × α))
    (bound : Option α) : Bool × World α × Sock α :=
  let (w, s) := s.ensure w made
  if !s.isValid then (false, w, s)
  else if getFamily addr != s.family then (false, w, s)
  else match bound, w.desc s.sock with
    | some name, some d =>
      let w := w.opened s.sock { d with name := name }
      (true, w, s.getLocalAddress w)
    | _, _ => (false, w, s)

/-- `connect(addr, timeout_ms)`. -/
def Sock.connect (w : World α) (s : Sock α) (addr : α) (made : Option (Int × α))
    (answer : Option (α × α)) : Bool × World α × Sock α :=
  let (w, s) := s.ensure w made
  if !s.isValid then (false, w, s)
  else if getFamily addr != s.family then (false, w, s)
  else match connectFd w s.sock answer with
    | (false, w) =>
      let (w, s) := s.close w
      (false, w, s)
    | (true, w) =>
      let s := { s with isConnect := true }
      (true, w, (s.getRemoteAddress w).getLocalAddress w)

/-- `reconnect(timeout_ms)`. -/
def Sock.reconnect (w : World α) (s : Sock α) (made : Option (Int × α))
    (answer : Option (α × α)) : Bool × World α × Sock α :=
  match s.remoteAddress with
  | none => (false, w, s)
  | some addr => Sock.connect getFamily w { s with localAddress := none } addr made answer

/-- `init(sock)`. -/
def Sock.init (w : World α) (s : Sock α) (fd : Int) : Bool × Sock α :=
  match w.get fd with
  | some c =>
    if c.isSocket then
      let s := { s with sock := fd, isConnect := true }
      (true, (s.getLocalAddress w).getRemoteAddress w)
    else (false, s)
  | none => (false, s)

/-- `accept()`, with the answer of the kernel: a descriptor, its peer and its name. The object is
destroyed when the call fails, and has no descriptor then. -/
def Sock.accept (w : World α) (s : Sock α) (answer : Option (Int × α × α)) :
    World α × Option (Sock α) :=
  match answer with
  | none => (w, none)
  | some (fd, peer, name) =>
    let w := (w.opened fd ⟨name, some peer⟩).getOrCreate fd
    match (Sock.new s.family s.type s.protocol).init w fd with
    | (true, s) => (w, some s)
    | (false, _) => (w, none)

/-- `setRecvTimeout(v)` and `setSendTimeout(v)`. -/
def Sock.setTimeout (w : World α) (s : Sock α) (recv : Bool) (v : UInt64) : World α × Sock α :=
  (setTimeoutFd w s.sock recv (timeval v),
    if !s.isValid then s
    else if recv then { s with recvAsked := some v } else { s with sendAsked := some v })

/-- `getRecvTimeout()` and `getSendTimeout()`. -/
def Sock.getTimeout (w : World α) (s : Sock α) (recv : Bool) : Int :=
  match w.get s.sock with
  | some c => toInt64 (if recv then c.recvTimeout else c.sendTimeout : Nat)
  | none => -1

/-! ### Steps -/

inductive Action (α : Type) where
  /-- `CreateTCP`, `CreateUDP` and the others. -/
  | create (family type protocol : Int)
  | bind (i : Nat) (addr : α) (made : Option (Int × α)) (bound : Option α)
  | accept (i : Nat) (answer : Option (Int × α × α))
  | connect (i : Nat) (addr : α) (made : Option (Int × α)) (answer : Option (α × α))
  | reconnect (i : Nat) (made : Option (Int × α)) (answer : Option (α × α))
  | close (i : Nat)
  /-- `~Socket`. -/
  | destroy (i : Nat)
  | setTimeout (i : Nat) (recv : Bool) (v : UInt64)
  | getLocalAddress (i : Nat)
  | getRemoteAddress (i : Nat)
  deriving DecidableEq, Repr

/-- A number that the kernel can return for a new descriptor. -/
def World.unused (w : World α) (fd : Int) : Bool := decide (0 ≤ fd) && (w.desc fd).isNone

def World.store (w : World α) (i : Nat) (s : Sock α) : World α :=
  { w with socks := Function.update w.socks i (some s) }

def World.add (w : World α) (s : Sock α) : World α :=
  { w with socks := Function.update w.socks w.next (some s), next := w.next + 1 }

/-- A method of the object `i` is called. -/
def World.on (w : World α) (i : Nat) (method : Sock α → Option (World α)) : Option (World α) :=
  (w.socks i).bind method

/-- One step, `none` when there is no such object, or no such answer. -/
def step (w : World α) : Action α → Option (World α)
  | .create family type protocol => some (w.add (Sock.new family type protocol))
  | .bind i addr made bound => w.on i fun s =>
    if made.all fun p => w.unused p.1 then
      let (_, w, s) := Sock.bind getFamily w s addr made bound
      some (w.store i s)
    else none
  | .accept i answer => w.on i fun s =>
    if answer.all fun p => w.unused p.1 && (w.desc s.sock).isSome then
      match s.accept w answer with
      | (w, some s) => some (w.add s)
      | (w, none) => some w
    else none
  | .connect i addr made answer => w.on i fun s =>
    if made.all fun p => w.unused p.1 then
      let (_, w, s) := Sock.connect getFamily w s addr made answer
      some (w.store i s)
    else none
  | .reconnect i made answer => w.on i fun s =>
    if made.all fun p => w.unused p.1 then
      let (_, w, s) := Sock.reconnect getFamily w s made answer
      some (w.store i s)
    else none
  | .close i => w.on i fun s =>
    let (w, s) := s.close w
    some (w.store i s)
  | .destroy i => w.on i fun s =>
    let (w, _) := s.close w
    some { w with socks := Function.update w.socks i none }
  | .setTimeout i recv v => w.on i fun s =>
    let (w, s) := s.setTimeout w recv v
    some (w.store i s)
  | .getLocalAddress i => w.on i fun s => some (w.store i (s.getLocalAddress w))
  | .getRemoteAddress i => w.on i fun s => some (w.store i (s.getRemoteAddress w))

/-- A process without a socket. -/
def init : World α := ⟨fun _ => none, fun _ => none, fun _ => none, 0, 0⟩

end

end Sylar.Sockets
