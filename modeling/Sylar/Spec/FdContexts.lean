import Sylar.Lib.Run
import Sylar.Lib.Text

/-!
# `Sylar.Spec.FdContexts`: the table of contexts of an `IOManager`

`m_fdContexts` has a pointer to an `FdContext` for each descriptor below its size. `addEvent` tests
the size under the read lock. When the table is too small it takes the write lock in a second step
and calls `contextResize`, which cuts the table or fills it up with new contexts. Then it has the
pointer, and what it does under the lock of the context is a third step. `delEvent`, `cancelEvent`
and `cancelAll` test the size and read the pointer under one read lock.

A pointer is the number of its allocation. `registered` are the descriptors that epoll watches, with
the pointer in their `epoll_event`. Any thread may move between two steps.
-/

set_option autoImplicit false

namespace Sylar.FdContexts

open Lib

/-- `addEvent`, or one of the calls that take events away. -/
inductive Op where
  | add
  | del
  deriving DecidableEq, Repr

/-- Where a thread is. -/
inductive Pc where
  | idle
  /-- `addEvent` has found the table too small, before the write lock. -/
  | resizing (fd : Nat)
  /-- The call has the pointer, before the lock of the context. -/
  | holding (fd ctx : Nat) (op : Op)
  deriving DecidableEq, Repr

structure Table where
  fdContexts : List Nat
  nextCtx : Nat
  pc : Nat → Pc
  registered : List (Nat × Nat)

/-- The process, or that it has read the table out of its range. -/
inductive Sys where
  | running (st : Table)
  | outOfRange

inductive Action where
  /-- The test of the size under the read lock. -/
  | lookup (thread fd : Nat) (op : Op)
  /-- `contextResize(fd * 1.5)` and the read of the pointer under the write lock. -/
  | resize (thread : Nat)
  /-- The rest of the call. `changed` says that it adds the descriptor to epoll or removes it. -/
  | finish (thread : Nat) (changed : Bool)
  deriving DecidableEq, Repr

/-- `contextResize`: a smaller size cuts the table, and an empty slot gets a new context. -/
def contextResize (size : Nat) (st : Table) : Table :=
  { st with
    fdContexts :=
      st.fdContexts.take size ++ List.range' st.nextCtx (size - st.fdContexts.length)
    nextCtx := st.nextCtx + (size - st.fdContexts.length) }

/-- `fd * 1.5` as a `size_t`. -/
def grown (fd : Nat) : Nat := fd * 3 / 2

/-- `m_fdContexts[fd]`. -/
def access (t fd : Nat) (op : Op) (st : Table) : Sys :=
  match st.fdContexts[fd]? with
  | none => .outOfRange
  | some ctx => .running { st with pc := Function.update st.pc t (.holding fd ctx op) }

/-- The end of a call. -/
def leave (t fd ctx : Nat) (op : Op) (changed : Bool) (st : Table) : Table :=
  { st with
    pc := Function.update st.pc t .idle
    registered :=
      match op, changed with
      | .add, true => (fd, ctx) :: st.registered
      | .del, true => st.registered.filter (· != (fd, ctx))
      | _, false => st.registered }

/-- One step, `none` when it is not enabled. A descriptor is an `int`. The size is compared as an
`int` too. -/
def step : Sys → Action → Option Sys
  | .outOfRange, _ => none
  | .running st, .lookup t fd op =>
    if st.pc t = .idle ∧ fd < 2 ^ 31 then
      if (fd : Int) < toInt32 st.fdContexts.length then some (access t fd op st)
      else
        match op with
        | .add => some (.running { st with pc := Function.update st.pc t (.resizing fd) })
        | .del => some (.running st)
    else none
  | .running st, .resize t =>
    match st.pc t with
    | .resizing fd => some (access t fd .add (contextResize (grown fd) st))
    | _ => none
  | .running st, .finish t changed =>
    match st.pc t with
    | .holding fd ctx op => some (.running (leave t fd ctx op changed st))
    | _ => none

/-- A new `IOManager`: `contextResize(32)`. -/
def init : Sys := .running (contextResize 32 ⟨[], 0, fun _ => .idle, []⟩)

end Sylar.FdContexts
