import Sylar.Lib.Counter
import Sylar.Lib.Run

/-!
# `Sylar.Spec.IOManager`: the event table of an `IOManager`

Each `FdContext` has a mutex, and each of `addEvent`, `delEvent`, `cancelEvent` and the handling
of one epoll entry in `idle()` runs under it. These critical sections are the atomic steps of the
model. Between them any thread may move.

`epoll_wait` is a step of its own. It hands a thread a batch of entries, and the thread handles
them one by one later, when the table may have changed. `epoll_ctl` is answered by the
environment: it may succeed or fail.

The model keeps every `FdContext` ever allocated, in allocation order. An operation looks the
pointer up before it takes the mutex, so the steps are given the context.

`ticket` numbers the registrations. The source has no such field. It lets a statement say that
one registration is scheduled at most once.
-/

set_option autoImplicit false

namespace Sylar.IOManager

/-! ### Data -/

/-- `IOManager::Event`, without `NONE`. -/
inductive Event where
  | read
  | write
  deriving DecidableEq, Repr

/-- A set of events: `fd_ctx->events`, and the `EPOLLIN` and `EPOLLOUT` bits of an entry. -/
structure Mask where
  read : Bool := false
  write : Bool := false
  deriving DecidableEq, Repr

namespace Mask

def has (m : Mask) : Event → Bool
  | .read => m.read
  | .write => m.write

/-- `m | event`. -/
def insert (m : Mask) : Event → Mask
  | .read => { m with read := true }
  | .write => { m with write := true }

/-- `m & ~event`. -/
def erase (m : Mask) : Event → Mask
  | .read => { m with read := false }
  | .write => { m with write := false }

def union (m k : Mask) : Mask := ⟨m.read || k.read, m.write || k.write⟩

/-- `(m & k) == NONE`. -/
def disjoint (m k : Mask) : Bool := !(m.read && k.read) && !(m.write && k.write)

end Mask

/-- `FdContext::EventContext`. Schedulers, fibers and callbacks are numbers. -/
structure EventContext where
  scheduler : Option Nat := none
  fiber : Option Nat := none
  cb : Option Nat := none
  ticket : Nat := 0
  deriving DecidableEq, Repr

structure FdContext where
  read : EventContext := {}
  write : EventContext := {}
  events : Mask := {}
  deriving DecidableEq, Repr

def FdContext.getContext (x : FdContext) : Event → EventContext
  | .read => x.read
  | .write => x.write

/-- The context with one `EventContext` replaced. -/
def FdContext.setContext (x : FdContext) : Event → EventContext → FdContext
  | .read, ctx => { x with read := ctx }
  | .write, ctx => { x with write := ctx }

/-- `resetContext`. -/
def FdContext.resetContext (x : FdContext) (e : Event) : FdContext :=
  x.setContext e { x.getContext e with scheduler := none, fiber := none, cb := none }

/-- What `triggerEvent` hands to a scheduler. -/
structure Scheduled where
  ticket : Nat
  scheduler : Nat
  fiber : Option Nat
  cb : Option Nat
  deriving DecidableEq, Repr

/-- How the process ends: a failed `SYLAR_ASSERT`, or a call through a null scheduler. -/
inductive Abort where
  /-- `addEvent`: the event is registered already. -/
  | eventSet
  /-- `addEvent`: the `EventContext` is not empty. -/
  | contextInUse
  /-- `addEvent`: the calling fiber is not in the state `EXEC`. -/
  | fiberNotExec
  /-- `triggerEvent`: the event is not registered. -/
  | eventClear
  /-- `triggerEvent`: `ctx.scheduler` is null. -/
  | nullScheduler
  /-- `cancelAll`: an event is registered at its end. -/
  | eventsLeft
  deriving DecidableEq, Repr

/-- The table: the contexts, the counter, and what has been scheduled from it so far. -/
structure Table where
  ctxs : List FdContext
  pendingEventCount : Nat
  scheduled : List Scheduled
  nextTicket : Nat
  deriving DecidableEq, Repr

/-! ### The critical sections -/

/-- `FdContext::triggerEvent`. `schedule(&ctx.cb)` and `schedule(&ctx.fiber)` swap the pointer
out of the context, and an empty one is not queued. -/
def triggerEvent (x : FdContext) (e : Event) : Except Abort (List Scheduled × FdContext) :=
  if x.events.has e then
    let ctx := x.getContext e
    let x := { x with events := x.events.erase e }
    match ctx.scheduler with
    | none => .error .nullScheduler
    | some s =>
      match ctx.cb with
      | some cb =>
        .ok ([⟨ctx.ticket, s, none, some cb⟩],
          x.setContext e { ctx with scheduler := none, cb := none })
      | none =>
        .ok ((ctx.fiber.map fun f => ⟨ctx.ticket, s, some f, none⟩).toList,
          x.setContext e { ctx with scheduler := none, fiber := none })
  else .error .eventClear

/-- The call of `triggerEvent` with the decrement that follows it. -/
def fire (c : Nat) (x : FdContext) (e : Event) (io : Table) : Except Abort (FdContext × Table) := do
  let (items, x) ← triggerEvent x e
  pure (x, { io with
    ctxs := io.ctxs.set c x
    scheduled := io.scheduled ++ items
    pendingEventCount := Lib.wrapPred io.pendingEventCount })

/-- What `addEvent` reads from its thread: `Scheduler::GetThis()`, `Fiber::GetThis()`, and
whether that fiber is in the state `EXEC`. -/
structure Caller where
  scheduler : Option Nat
  fiber : Nat
  exec : Bool
  deriving DecidableEq, Repr

/-- `addEvent` from the lock on. -/
def addEvent (c : Nat) (x : FdContext) (e : Event) (cb : Option Nat) (caller : Caller)
    (ctlOk : Bool) (io : Table) : Except Abort (Int × Table) :=
  let ctx := x.getContext e
  if x.events.has e then .error .eventSet
  else if !ctlOk then .ok (-1, io)
  else if ctx.scheduler.isSome || ctx.fiber.isSome || ctx.cb.isSome then .error .contextInUse
  else if cb.isNone && !caller.exec then .error .fiberNotExec
  else
    let fiber := if cb.isNone then some caller.fiber else none
    let x := { x with events := x.events.insert e }.setContext e
      ⟨caller.scheduler, fiber, cb, io.nextTicket⟩
    .ok (0, { io with
      ctxs := io.ctxs.set c x
      pendingEventCount := io.pendingEventCount + 1
      nextTicket := io.nextTicket + 1 })

/-- `delEvent` from the lock on. -/
def delEvent (c : Nat) (x : FdContext) (e : Event) (ctlOk : Bool) (io : Table) : Bool × Table :=
  if !x.events.has e then (false, io)
  else if !ctlOk then (false, io)
  else
    let x := { x with events := x.events.erase e }.resetContext e
    (true, { io with
      ctxs := io.ctxs.set c x
      pendingEventCount := Lib.wrapPred io.pendingEventCount })

/-- `cancelEvent` from the lock on. -/
def cancelEvent (c : Nat) (x : FdContext) (e : Event) (ctlOk : Bool) (io : Table) :
    Except Abort (Bool × Table) :=
  if !x.events.has e then .ok (false, io)
  else if !ctlOk then .ok (false, io)
  else do
    let (_, io) ← fire c x e io
    pure (true, io)

/-- One entry of an epoll batch: the context, its `EPOLLIN` and `EPOLLOUT` bits, and whether
`EPOLLERR` or `EPOLLHUP` is set. -/
structure Entry where
  ctx : Nat
  events : Mask
  errHup : Bool
  deriving DecidableEq, Repr

/-- `real_events`: on an error the registered events count as reported. -/
def realEvents (x : FdContext) (entry : Entry) : Mask :=
  if entry.errHup then entry.events.union x.events else entry.events

/-- `if (real_events & event) { fd_ctx->triggerEvent(event); --m_pendingEventCount; }`. -/
def fireIf (real : Mask) (c : Nat) (x : FdContext) (e : Event) (io : Table) :
    Except Abort (FdContext × Table) :=
  if real.has e then fire c x e io else .ok (x, io)

/-- The events of `real` one after the other, `READ` first. -/
def fireAll (c : Nat) (x : FdContext) (real : Mask) (io : Table) : Except Abort Table := do
  let (x, io) ← fireIf real c x .read io
  let (_, io) ← fireIf real c x .write io
  pure io

/-- `cancelAll`. `c` is the pointer that the test of the size found, `none` for a descriptor behind
the end of the table. -/
def cancelAll (c : Option Nat) (ctlOk : Bool) (io : Table) : Except Abort (Bool × Table) :=
  match c.bind fun c => (io.ctxs[c]?).map fun x => (c, x) with
  | none => .ok (false, io)
  | some (c, x) =>
    if x.events.read || x.events.write then .ok (false, io)
    else if !ctlOk then .ok (false, io)
    else do
      let (x, io) ← fireIf x.events c x .read io
      let (x, io) ← fireIf x.events c x .write io
      if x.events.read || x.events.write then .error .eventsLeft else pure (true, io)

/-- The body of the loop over the batch in `idle()`, from the lock on. -/
def processEntry (x : FdContext) (entry : Entry) (ctlOk : Bool) (io : Table) :
    Except Abort Table :=
  let real := realEvents x entry
  if x.events.disjoint real then .ok io
  else if !ctlOk then .ok io
  else fireAll entry.ctx x real io

/-! ### The system -/

/-- The table and the batches that the threads have not handled yet, or how the process ended. -/
inductive Sys where
  | running (io : Table) (batches : Nat → List Entry)
  | aborted (why : Abort)

/-- One step. `contextResize` allocates the contexts. -/
inductive Action where
  | newContext
  | addEvent (c : Nat) (e : Event) (cb : Option Nat) (caller : Caller) (ctlOk : Bool)
  | delEvent (c : Nat) (e : Event) (ctlOk : Bool)
  | cancelEvent (c : Nat) (e : Event) (ctlOk : Bool)
  | epollWait (thread : Nat) (entries : List Entry)
  | process (thread : Nat) (ctlOk : Bool)
  deriving DecidableEq, Repr

/-- An entry reports registered events only. -/
def Entry.reportable (io : Table) (entry : Entry) : Bool :=
  match io.ctxs[entry.ctx]? with
  | none => false
  | some x => (!entry.events.read || x.events.read) && (!entry.events.write || x.events.write)

/-- The state after a critical section. -/
def Sys.ofResult (batches : Nat → List Entry) : Except Abort Table → Sys
  | .ok io => .running io batches
  | .error why => .aborted why

/-- One step of the system, `none` when it is not enabled. A thread calls `epoll_wait` when it
has handled its batch, and one call reports a context at most once. -/
def step : Sys → Action → Option Sys
  | .aborted _, _ => none
  | .running io batches, .newContext =>
    some (.running { io with ctxs := io.ctxs ++ [{}] } batches)
  | .running io batches, .addEvent c e cb caller ctlOk =>
    (io.ctxs[c]?).map fun x =>
      .ofResult batches ((IOManager.addEvent c x e cb caller ctlOk io).map Prod.snd)
  | .running io batches, .delEvent c e ctlOk =>
    (io.ctxs[c]?).map fun x => .running (IOManager.delEvent c x e ctlOk io).2 batches
  | .running io batches, .cancelEvent c e ctlOk =>
    (io.ctxs[c]?).map fun x =>
      .ofResult batches ((IOManager.cancelEvent c x e ctlOk io).map Prod.snd)
  | .running io batches, .epollWait t entries =>
    if (batches t).isEmpty && entries.all (·.reportable io) && decide (entries.map (·.ctx)).Nodup
    then some (.running io (Function.update batches t entries))
    else none
  | .running io batches, .process t ctlOk =>
    match batches t with
    | [] => none
    | entry :: rest => (io.ctxs[entry.ctx]?).map fun x =>
      .ofResult (Function.update batches t rest) (processEntry x entry ctlOk io)

/-- A new `IOManager`: no context, no event, no batch. -/
def init : Sys := .running ⟨[], 0, [], 0⟩ fun _ => []

/-! ### What the table promises -/

/-- The number of bits set in a context. -/
def FdContext.bits (x : FdContext) : Nat := x.events.read.toNat + x.events.write.toNat

/-- A set bit has a scheduler and exactly one of fiber and callback. A clear bit has nothing. -/
def SlotOk (x : FdContext) (e : Event) : Prop :=
  let ctx := x.getContext e
  if x.events.has e then
    ctx.scheduler.isSome ∧ (ctx.fiber.isSome ∧ ctx.cb = none ∨ ctx.fiber = none ∧ ctx.cb.isSome)
  else ctx.scheduler = none ∧ ctx.fiber = none ∧ ctx.cb = none

/-- The promise about one state: the counter counts the bits, every slot is as its bit says, no
registration is scheduled twice, and no process ends in `triggerEvent`. -/
def EventTableOk : Sys → Prop
  | .running io _ =>
    io.pendingEventCount = (io.ctxs.map FdContext.bits).sum ∧
    (∀ x ∈ io.ctxs, ∀ e, SlotOk x e) ∧
    (io.scheduled.map Scheduled.ticket).Nodup
  | .aborted why => why ≠ .eventClear ∧ why ≠ .nullScheduler

/-- The waiters of the registered events, as `triggerEvent` hands them to a scheduler. -/
def FdContext.waiters (x : FdContext) : List (Nat × Option Nat × Option Nat) :=
  ([.read, .write].filter x.events.has).map fun e =>
    ((x.getContext e).ticket, (x.getContext e).fiber, (x.getContext e).cb)

/-- What `cancelAll` promises. When an event is registered and `epoll_ctl` succeeds, it returns
true, the events are `NONE`, each waiter is scheduled once, the counter goes down by the number of
events and no other context changes. Otherwise it returns false and changes nothing. -/
def CancelsAll (c : Option Nat) (ctlOk : Bool) (io : Table) : Prop :=
  (∀ i x, c = some i → io.ctxs[i]? = some x → x.events ≠ {} → ctlOk = true →
    ∃ io' x', cancelAll c ctlOk io = .ok (true, io') ∧ io'.ctxs[i]? = some x' ∧ x'.events = {} ∧
      (∃ items, io'.scheduled = io.scheduled ++ items ∧
        (items.map fun y => (y.ticket, y.fiber, y.cb)).Perm x.waiters) ∧
      io'.pendingEventCount + x.bits = io.pendingEventCount ∧
      ∀ j ≠ i, io'.ctxs[j]? = io.ctxs[j]?) ∧
  ((∀ i x, c = some i → io.ctxs[i]? = some x → x.events = {}) ∨ ctlOk = false →
    cancelAll c ctlOk io = .ok (false, io))

end Sylar.IOManager
