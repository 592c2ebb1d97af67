import Sylar.Lib.Run

/-!
# `Sylar.Spec.HookFlags`: the hooked calls that touch `O_NONBLOCK`

An `FdCtx` keeps two views of the flag. `m_sysNonblock` says that the library has set it in the
kernel, and `m_userNonblock` what the user has asked for. `fcntl(F_SETFL)` and `ioctl(FIONBIO)` are
hooked to keep them apart.

The hooks look a context up with `FdMgr::GetInstance()->get(fd)`. In two of their branches they call
themselves and not the original function. `stack` bounds how deep a call can go, and `overflow` is
the end of the process when it goes deeper.

`requested` is a history: what the user asked for last on a descriptor, and `false` before that. A
descriptor is closed through the hooked `close` only.
-/

set_option autoImplicit false

namespace Sylar.HookFlags

/-- What the kernel has for an open descriptor. -/
structure File where
  isSocket : Bool
  nonblock : Bool
  deriving DecidableEq, Repr

structure FdCtx where
  isSocket : Bool
  sysNonblock : Bool
  userNonblock : Bool
  isClosed : Bool
  deriving DecidableEq, Repr

structure State where
  kernel : Nat → Option File
  ctxs : Nat → Option FdCtx
  requested : Nat → Bool

inductive Sys where
  | running (st : State)
  | overflow

def oNonblock : BitVec 32 := 0x800

/-- `arg & O_NONBLOCK`, as a truth value. -/
def asksNonblock (arg : BitVec 32) : Bool := arg &&& oNonblock != 0

/-- The constructor with `init()`: the new context and the file. `statOk` says that `fstat`
succeeds. -/
def FdCtx.init (statOk : Bool) (file : File) : FdCtx × File :=
  if statOk && file.isSocket then (⟨true, true, false, false⟩, { file with nonblock := true })
  else (⟨false, false, false, false⟩, file)

namespace State

/-- `get(fd, true)`. -/
def track (fd : Nat) (statOk : Bool) (st : State) : State :=
  match st.ctxs fd, st.kernel fd with
  | none, some file =>
    { st with
      ctxs := Function.update st.ctxs fd (some (FdCtx.init statOk file).1)
      kernel := Function.update st.kernel fd (some (FdCtx.init statOk file).2) }
  | _, _ => st

/-- A new descriptor of the kernel. -/
def opened (fd : Nat) (file : File) (st : State) : State :=
  { st with
    kernel := Function.update st.kernel fd (some file)
    requested := Function.update st.requested fd false }

/-- The flag of the file is set or cleared, by `fcntl_f` or `ioctl_f`. -/
def setKernel (fd : Nat) (nonblock : Bool) (st : State) : State :=
  { st with
    kernel := Function.update st.kernel fd
      ((st.kernel fd).map fun file => { file with nonblock := nonblock }) }

/-- `ctx->setUserNonblock(v)`. -/
def setUserNonblock (fd : Nat) (v : Bool) (st : State) : State :=
  { st with
    ctxs := Function.update st.ctxs fd
      ((st.ctxs fd).map fun ctx => { ctx with userNonblock := v }) }

/-- The user asks for a state of the flag. -/
def request (fd : Nat) (v : Bool) (st : State) : State :=
  { st with requested := Function.update st.requested fd v }

/-- `del(fd)` and `close_f(fd)`. -/
def closed (fd : Nat) (st : State) : State :=
  { st with
    kernel := Function.update st.kernel fd none
    ctxs := Function.update st.ctxs fd none }

end State

/-- `fcntl(fd, F_SETFL, arg)`. -/
def fcntl (fd : Nat) (arg : BitVec 32) (st : State) : State :=
  match st.ctxs fd with
  | none => st.setKernel fd (asksNonblock arg)
  | some ctx =>
    if ctx.isClosed || ctx.isSocket then st.setKernel fd (asksNonblock arg)
    else
      let st := st.setUserNonblock fd (asksNonblock arg)
      let arg := if ctx.sysNonblock then arg ||| oNonblock else arg &&& ~~~oNonblock
      st.setKernel fd (asksNonblock arg)

/-- `ioctl(fd, FIONBIO, &v)`. -/
def ioctl (fd : Nat) (v : Int) : Nat → State → Sys
  | 0, _ => .overflow
  | stack + 1, st =>
    match st.ctxs fd with
    | none => ioctl fd v stack st
    | some ctx =>
      if ctx.isSocket || ctx.isClosed then ioctl fd v stack st
      else .running ((st.setUserNonblock fd (v != 0)).setKernel fd (v != 0))

inductive Action where
  /-- `socket()`. `nonblock` is `SOCK_NONBLOCK` in its type. -/
  | socket (hooked : Bool) (fd : Nat) (nonblock statOk : Bool)
  | accept (fd : Nat) (statOk : Bool)
  /-- A descriptor that is not a socket. -/
  | openFile (fd : Nat) (nonblock : Bool)
  | close (fd : Nat)
  | fcntl (fd : Nat) (arg : BitVec 32)
  | ioctl (fd : Nat) (v : Int) (stack : Nat)
  deriving DecidableEq, Repr

/-- One step, `none` when it is not enabled. The kernel gives out descriptors that are not open. -/
def step : Sys → Action → Option Sys
  | .overflow, _ => none
  | .running st, .socket hooked fd nonblock statOk =>
    if st.kernel fd = none then
      let st := st.opened fd ⟨true, nonblock⟩
      some (.running (if hooked then st.track fd statOk else st))
    else none
  | .running st, .accept fd statOk =>
    if st.kernel fd = none then some (.running ((st.opened fd ⟨true, false⟩).track fd statOk))
    else none
  | .running st, .openFile fd nonblock =>
    if st.kernel fd = none then some (.running (st.opened fd ⟨false, nonblock⟩)) else none
  | .running st, .close fd => some (.running (st.closed fd))
  | .running st, .fcntl fd arg =>
    some (.running (HookFlags.fcntl fd arg (st.request fd (asksNonblock arg))))
  | .running st, .ioctl fd v stack =>
    some (HookFlags.ioctl fd v (stack + 1) (st.request fd (v != 0)))

/-- Nothing is open. -/
def init : Sys := .running ⟨fun _ => none, fun _ => none, fun _ => false⟩

/-- The descriptor is tracked as an open socket. -/
def State.tracksSocket (st : State) (fd : Nat) : Bool :=
  match st.ctxs fd with
  | none => false
  | some ctx => ctx.isSocket && !ctx.isClosed

/-- A tracked open socket is non-blocking in the kernel, and its context has what the user asked
for. -/
def Shadowed (st : State) : Prop :=
  ∀ fd ctx, st.ctxs fd = some ctx → ctx.isSocket = true → ctx.isClosed = false →
    (∃ file, st.kernel fd = some file ∧ file.nonblock = true) ∧
      ctx.userNonblock = st.requested fd

end Sylar.HookFlags
