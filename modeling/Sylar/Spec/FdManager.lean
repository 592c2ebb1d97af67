import Sylar.Lib.Run
import Sylar.Lib.Text

/-!
# `Sylar.Spec.FdManager`: the contexts of descriptors

`m_datas` has a slot for each descriptor below its size, and a slot has a pointer to an `FdCtx` or is
empty. `get` looks the slot up under the read lock. When it has to create a context it takes the
write lock in a second step, makes a new `FdCtx`, and stores it without looking at the slot again.
`del` empties a slot under the write lock.

A pointer is the number of its allocation. `log` is a history, the newest event first: which context a
`get` has returned, and which descriptor a `del` was about. A `get` that returns a null pointer
leaves no event. Any thread may move between two steps.
-/

set_option autoImplicit false

namespace Sylar.FdManager

open Lib

/-- Where a thread is: at no call, or in `get` before the write lock. -/
inductive Pc where
  | idle
  | creating (fd : Nat)
  deriving DecidableEq, Repr

inductive Event where
  | got (fd ctx : Nat)
  | deleted (fd : Nat)
  deriving DecidableEq, Repr

structure Mgr where
  datas : List (Option Nat)
  nextCtx : Nat
  pc : Nat → Pc
  log : List Event

/-- The process, or that it has used a slot out of the range of `m_datas`. -/
inductive Sys where
  | running (mgr : Mgr)
  | outOfRange

inductive Action where
  /-- `get(fd, auto_create)` up to the release of the read lock. -/
  | get (thread fd : Nat) (autoCreate : Bool)
  /-- The rest of `get`, under the write lock. -/
  | create (thread : Nat)
  | del (fd : Nat)
  deriving DecidableEq, Repr

/-- What the slot of a descriptor has. -/
def Mgr.slot (mgr : Mgr) (fd : Nat) : Option Nat := mgr.datas[fd]?.join

/-- `m_datas.resize(size)`. -/
def resize (size : Nat) (datas : List (Option Nat)) : List (Option Nat) :=
  datas.take size ++ List.replicate (size - datas.length) none

/-- `fd * 1.5` as a `size_t`. -/
def grown (fd : Nat) : Nat := fd * 3 / 2

/-- The test under the read lock. -/
def lookup (t fd : Nat) (autoCreate : Bool) (mgr : Mgr) : Sys :=
  let creating := { mgr with pc := Function.update mgr.pc t (.creating fd) }
  if (fd : Int) < toInt32 mgr.datas.length then
    match mgr.datas[fd]? with
    | none => .outOfRange
    | some (some ctx) => .running { mgr with log := .got fd ctx :: mgr.log }
    | some none => .running (if autoCreate then creating else mgr)
  else .running (if autoCreate then creating else mgr)

/-- The store of a new context. -/
def create (t fd : Nat) (mgr : Mgr) : Sys :=
  let datas := if (fd : Int) < toInt32 mgr.datas.length then mgr.datas
    else resize (grown fd) mgr.datas
  if fd < datas.length then
    .running
      { datas := datas.set fd (some mgr.nextCtx)
        nextCtx := mgr.nextCtx + 1
        pc := Function.update mgr.pc t .idle
        log := .got fd mgr.nextCtx :: mgr.log }
  else .outOfRange

/-- `del(fd)`. -/
def del (fd : Nat) (mgr : Mgr) : Sys :=
  let deleted := { mgr with log := .deleted fd :: mgr.log }
  if (fd : Int) < toInt32 mgr.datas.length then
    if fd < mgr.datas.length then .running { deleted with datas := mgr.datas.set fd none }
    else .outOfRange
  else .running deleted

/-- One step, `none` when it is not enabled. A descriptor is an `int`. -/
def step : Sys → Action → Option Sys
  | .outOfRange, _ => none
  | .running mgr, .get t fd autoCreate =>
    if mgr.pc t = .idle ∧ fd < 2 ^ 31 then some (lookup t fd autoCreate mgr) else none
  | .running mgr, .create t =>
    match mgr.pc t with
    | .creating fd => some (create t fd mgr)
    | .idle => none
  | .running mgr, .del fd => if fd < 2 ^ 31 then some (del fd mgr) else none

/-- The constructor: `m_datas.resize(64)`. -/
def init : Sys := .running ⟨List.replicate 64 none, 0, fun _ => .idle, []⟩

/-- Between two calls of `del` for a descriptor, all contexts that `get` returns for it are the
same. -/
def OneContext (log : List Event) : Prop :=
  ∀ later between earlier fd ctx ctx',
    log = later ++ .got fd ctx' :: (between ++ .got fd ctx :: earlier) →
      .deleted fd ∉ between → ctx = ctx'

end Sylar.FdManager
