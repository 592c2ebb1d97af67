import Sylar.Lib.Text
import Sylar.Spec.HookFlags
import Sylar.Spec.TimerManager

/-!
# `Sylar.Spec.HookCalls`: what the hooked calls pass on

A hooked function has the name of the function of libc that it replaces, and `close_f`, `fcntl_f` and
so on are the originals. A call by the plain name from inside a wrapper is a call of the wrapper.
`run` follows such calls, and `stack` bounds how deep they can go.

`wrapper` is one invocation: it either ends with a call of an original or the registration of a timer,
or calls a wrapper through `self`. What an original answers is given by `kernel`. A thread with
hooks on belongs to an `IOManager`, so that the sleeping calls find one.

The sleeping calls hand a number of milliseconds to `addTimer`. `Sleep.ms` has the types of the
source at each step: `unsigned int`, `useconds_t`, and the `int` that `nanosleep` computes.
-/

set_option autoImplicit false

namespace Sylar.HookCalls

open Lib
open HookFlags (FdCtx oNonblock asksNonblock)

/-! ### Sleeping -/

/-- A call that sleeps, with its arguments. -/
inductive Sleep where
  | sleep (seconds : Nat)
  | usleep (usec : Nat)
  | nanosleep (tvSec tvNsec : Nat)
  deriving DecidableEq, Repr

/-- An `int` as a `uint64_t`. -/
def toUInt64 (n : Int) : Nat := (n % 2 ^ 64).toNat

/-- The first argument of `addTimer`. -/
def Sleep.ms : Sleep → Nat
  | .sleep seconds => seconds * 1000 % 2 ^ 32
  | .usleep usec => usec / 1000
  | .nanosleep tvSec tvNsec =>
    let timeoutMs := toInt32 (tvSec * 1000 + tvNsec / 1000 / 1000 : Nat)
    toUInt64 timeoutMs

/-- The registration of the timer, with the new timer at `p`. -/
def Sleep.addTimer {P : Type} [LinearOrder P] (m : TimerManager.Manager P) (now cb : Nat) (p : P)
    (call : Sleep) : TimerManager.Manager P :=
  (TimerManager.addTimer m now call.ms cb false p).1

/-- The arguments that the types allow, and a sum of milliseconds below 2^62. -/
def Sleep.Valid : Sleep → Prop
  | .sleep seconds => seconds < 2 ^ 32
  | .usleep usec => usec < 2 ^ 32
  | .nanosleep tvSec tvNsec => tvSec * 1000 < 2 ^ 62 ∧ tvNsec < 10 ^ 9

/-- The time asked for, in whole milliseconds. -/
def Sleep.period : Sleep → Nat
  | .sleep seconds => 1000 * seconds
  | .usleep usec => usec / 1000
  | .nanosleep tvSec tvNsec => (tvSec * 10 ^ 9 + tvNsec) / 10 ^ 6

/-- The timer that is registered has the period asked for and is due after it. -/
def Sleep.Exact (call : Sleep) (now : Nat) : Prop :=
  ∀ (P : Type) [LinearOrder P] (m : TimerManager.Manager P) (cb : Nat) (p : P),
    ∃ t, (call.addTimer m now cb p).heap p = some t ∧ t.ms = call.period ∧
      t.next = now + call.period

/-! ### The wrappers -/

/-- The commands of `fcntl` that the switch names, and the others. -/
inductive FcntlCmd where
  | dupfd | dupfdCloexec | setfd | setown | setsig | setlease | notify | setpipeSz
  | getfd | getown | getsig | getlease | getpipeSz
  | setlk | setlkw | getlk | getownEx | setownEx
  | setfl | getfl
  | other (cmd : Int)
  deriving DecidableEq, Repr

inductive IoctlRequest where
  | fionbio
  | other (request : Nat)
  deriving DecidableEq, Repr

/-- A call of one of the functions. `arg` is the argument behind the fixed ones, an `int` in its low
half or a pointer, and 0 when there is none. `value` is what the pointer of `FIONBIO` points to. -/
inductive Call where
  | close (fd : Int)
  | nanosleep (tvSec tvNsec : Nat)
  | fcntl (fd : Int) (cmd : FcntlCmd) (arg : BitVec 64)
  | ioctl (fd : Int) (request : IoctlRequest) (arg : BitVec 64) (value : Int)
  deriving DecidableEq, Repr

/-- What a call ends with. -/
inductive Final where
  | original (call : Call)
  | addTimer (ms : Nat)
  deriving DecidableEq, Repr

/-- `t_hook_enable` and the descriptors that `FdMgr` has a context for. -/
structure Env where
  hookEnable : Bool
  get : Int → Option FdCtx

/-- What a call has done: the final calls, its value and the descriptors afterwards. -/
structure Outcome where
  finals : List Final
  value : BitVec 32
  env : Env

/-- The original is called. -/
def original (kernel : Call → BitVec 32) (call : Call) (env : Env) : Outcome :=
  ⟨[.original call], kernel call, env⟩

/-- `ctx->setUserNonblock(v)`. -/
def Env.setUserNonblock (env : Env) (fd : Int) (ctx : FdCtx) (v : Bool) : Env :=
  { env with get := Function.update env.get fd (some { ctx with userNonblock := v }) }

/-- `del(fd)`. -/
def Env.del (env : Env) (fd : Int) : Env := { env with get := Function.update env.get fd none }

/-- An argument that is read as an `int`. -/
def asInt (arg : BitVec 64) : BitVec 64 := (arg.setWidth 32).setWidth 64

section
variable (kernel : Call → BitVec 32) (self : Call → Env → Option Outcome)

def nanosleep (tvSec tvNsec : Nat) (env : Env) : Option Outcome :=
  bif !env.hookEnable then self (.nanosleep tvSec tvNsec) env
  else some ⟨[.addTimer (Sleep.nanosleep tvSec tvNsec).ms], 0, env⟩

/-- `cancelAll` touches none of the functions here. -/
def close (fd : Int) (env : Env) : Option Outcome :=
  bif !env.hookEnable then self (.close fd) env
  else
    match env.get fd with
    | none => some (original kernel (.close fd) env)
    | some _ => some (original kernel (.close fd) (env.del fd))

def fcntl (fd : Int) (cmd : FcntlCmd) (arg : BitVec 64) (env : Env) : Option Outcome :=
  match cmd with
  | .setfl =>
    let direct := original kernel (.fcntl fd cmd (asInt arg)) env
    match env.get fd with
    | none => some direct
    | some ctx =>
      bif ctx.isClosed || ctx.isSocket then some direct
      else
        let env := env.setUserNonblock fd ctx (asksNonblock (arg.setWidth 32))
        let flags := arg.setWidth 32
        let flags := bif ctx.sysNonblock then flags ||| oNonblock else flags &&& ~~~oNonblock
        some (original kernel (.fcntl fd cmd (flags.setWidth 64)) env)
  | .getfl => do
    let answer ← self (.fcntl fd cmd 0) env
    match answer.env.get fd with
    | none => some answer
    | some ctx =>
      bif ctx.isClosed || !ctx.isSocket then some answer
      else bif ctx.userNonblock then some { answer with value := answer.value ||| oNonblock }
      else some { answer with value := answer.value &&& ~~~oNonblock }
  | .dupfd | .dupfdCloexec | .setfd | .setown | .setsig | .setlease | .notify | .setpipeSz =>
    some (original kernel (.fcntl fd cmd (asInt arg)) env)
  | .getfd | .getown | .getsig | .getlease | .getpipeSz =>
    some (original kernel (.fcntl fd cmd 0) env)
  | .setlk | .setlkw | .getlk | .getownEx | .setownEx =>
    some (original kernel (.fcntl fd cmd arg) env)
  | .other _ => self (.fcntl fd cmd 0) env

def ioctl (fd : Int) (request : IoctlRequest) (arg : BitVec 64) (value : Int) (env : Env) :
    Option Outcome :=
  match request with
  | .fionbio =>
    match env.get fd with
    | none => self (.ioctl fd request arg value) env
    | some ctx =>
      bif ctx.isSocket || ctx.isClosed then self (.ioctl fd request arg value) env
      else
        some (original kernel (.ioctl fd request arg value)
          (env.setUserNonblock fd ctx (value != 0)))
  | .other _ => some (original kernel (.ioctl fd request arg value) env)

/-- One invocation of a wrapper. -/
def wrapper (call : Call) (env : Env) : Option Outcome :=
  match call with
  | .close fd => close kernel self fd env
  | .nanosleep tvSec tvNsec => nanosleep self tvSec tvNsec env
  | .fcntl fd cmd arg => fcntl kernel self fd cmd arg env
  | .ioctl fd request arg value => ioctl kernel self fd request arg value env

end

/-- A call with at most `stack` invocations on the stack, `none` when it needs more. -/
def run (kernel : Call → BitVec 32) : Nat → Call → Env → Option Outcome
  | 0, _, _ => none
  | stack + 1, call, env => wrapper kernel (run kernel stack) call env

/-- The call ends with exactly one final call. -/
def Terminates (kernel : Call → BitVec 32) (call : Call) (env : Env) : Prop :=
  ∃ stack outcome, run kernel stack call env = some outcome ∧ outcome.finals.length = 1

end Sylar.HookCalls
