import Sylar.Spec.Scheduler

/-!
# `Sylar.Spec.Fiber`: the fibers of one thread

A `Fiber` is a saved context with a state. A thread has a fiber of its own, for the stack it was
started with, and `Scheduler::run` executes on the stack of one fiber, `t_sheduler_fiber`. On a
worker thread that is the thread's own fiber. On the thread that made the scheduler with
`use_caller` it is `m_rootFiber`, which `Stop` enters with `call`.

`swapcontext` saves where the thread is and goes where another context was saved. A context is a
stack and a point in the code. So nothing but the code says that the context in the object of a
fiber is one of its own stack, and that `t_fiber` names the fiber whose stack the thread is on.

The state is that of one thread. The objects are numbered in the order in which they are made. A
step goes from one point to the next, and a switch ends a step: `proceed` is the code behind it.
The tasks are arbitrary. They yield, return or throw, and they make and drop pointers to fibers
as they like.

`handles` counts the `Fiber::ptr` that are held outside the fibers' stacks and outside `run()`: in
the queue, by events, by timers and by the user. An object is destroyed when the last pointer to
it goes. Callbacks are numbered in the order in which they are installed. `entered` and
`discarded` are histories: the callbacks that were called, and those that were destroyed with a
fiber that had never run.
-/

set_option autoImplicit false

namespace Sylar.Fibers

open Scheduler (FiberState)

/-! ### Data -/

/-- The three places where `run()` swaps a fiber in. -/
inductive Branch where
  /-- The fiber of an item, held by `ft`. -/
  | fiber
  /-- `cb_fiber`. -/
  | cb
  /-- `idle_fiber`. -/
  | idle
  deriving DecidableEq, Repr

/-- A point in the code at which a context can be saved. -/
inductive Point where
  /-- In a constructor, behind `getcontext`. -/
  | made
  /-- The start of `MainFunc`, or of `CallerMainFunc`. -/
  | entry (caller : Bool)
  /-- In the callback. Behind the `swapOut` of `YieldToReady` or `YieldToHold` their local `cur`
  is still to be destroyed. -/
  | callback (cur : Option Nat)
  /-- Behind the last `swapOut` of `MainFunc`, or the last `back` of `CallerMainFunc`. -/
  | past
  /-- At the head of the loop of `run()`. -/
  | top
  /-- In `run()`, behind the `swapIn` of the fiber `f`. -/
  | back (f : Nat) (branch : Branch)
  /-- In the code that owns the scheduler. -/
  | outside
  /-- A worker thread behind `run()`. -/
  | ended
  deriving DecidableEq, Repr

/-- `ucontext_t`. A stack is named after its fiber. -/
structure Context where
  stack : Nat
  point : Point
  deriving DecidableEq, Repr

/-- `Fiber`. `cur` is the local variable of `MainFunc` on the fiber's stack. `frames` is the number
of `Fiber::ptr` to this object in the frames of the fibers' stacks. -/
structure Fiber where
  id : Nat
  state : FiberState
  /-- `m_stack` is not null. -/
  stack : Bool
  cb : Option Nat
  ctx : Context
  cur : Option Nat := none
  frames : Nat := 0
  deriving DecidableEq, Repr

structure Thread where
  heap : Nat → Option Fiber
  next : Nat
  /-- `s_fiber_id`. -/
  fiberId : Nat
  /-- `s_fiber_count`. -/
  fiberCount : Nat
  /-- `t_fiber`. -/
  tFiber : Option Nat
  /-- `t_threadFiber`. -/
  threadFiber : Option Nat
  /-- `t_sheduler_fiber`. -/
  schedulerFiber : Option Nat
  /-- `m_rootFiber`. -/
  rootFiber : Option Nat
  /-- The local variables of `run()`. -/
  idleFiber : Option Nat
  cbFiber : Option Nat
  ft : Option Nat
  handles : Nat → Nat
  /-- Where the thread is. -/
  control : Context
  nextCb : Nat
  entered : List Nat
  discarded : List Nat

/-- How the process ends. -/
inductive Abort where
  /-- `swapIn`: the fiber is in the state `EXEC`. -/
  | swapInExec
  /-- `YieldToReady` or `YieldToHold`: the fiber is not in the state `EXEC`. -/
  | yieldNotExec
  /-- `reset`: the fiber has no stack, or has not finished. -/
  | resetRunning
  /-- `~Fiber`: the fiber has not finished. -/
  | destroyRunning
  /-- `MainFunc` or `CallerMainFunc`: a fiber that has finished was resumed. -/
  | neverReach
  /-- A null pointer or a pointer to a destroyed object is followed. -/
  | dangling
  /-- The stack that the thread is on is freed. -/
  | stackFreed
  deriving DecidableEq, Repr

inductive Sys where
  | running (t : Thread)
  | aborted (why : Abort)
  /-- The thread has ended. -/
  | exited (t : Thread)

/-! ### Objects -/

def Thread.deref (t : Thread) (f : Nat) : Except Abort Fiber :=
  match t.heap f with
  | some x => .ok x
  | none => .error .dangling

def Thread.modify (t : Thread) (f : Nat) (g : Fiber → Fiber) : Thread :=
  { t with heap := Function.update t.heap f ((t.heap f).map g) }

/-- `use_count()` of the pointers to `f`. -/
def Thread.useCount (t : Thread) (f : Nat) : Nat :=
  t.handles f + (decide (t.ft = some f)).toNat + (decide (t.cbFiber = some f)).toNat +
    (decide (t.idleFiber = some f)).toNat + (decide (t.rootFiber = some f)).toNat +
    (decide (t.threadFiber = some f)).toNat + (t.heap f).elim 0 Fiber.frames

/-- `new Fiber`, the fiber of the thread. -/
def newMain (t : Thread) : Thread :=
  { t with
    heap := Function.update t.heap t.next (some
      { id := 0, state := .exec, stack := false, cb := none, ctx := ⟨t.next, .made⟩ })
    next := t.next + 1
    fiberCount := t.fiberCount + 1
    tFiber := some t.next }

/-- `GetThis`, up to the pointer it returns. -/
def getThis (t : Thread) : Thread :=
  match t.tFiber with
  | some _ => t
  | none => { newMain t with threadFiber := some t.next }

/-- `new Fiber(cb, 0, use_caller)`, the object with the number `t.next`. -/
def newFiber (t : Thread) (useCaller : Bool) : Thread :=
  { t with
    heap := Function.update t.heap t.next (some
      { id := t.fiberId + 1, state := .init, stack := true, cb := some t.nextCb,
        ctx := ⟨t.next, .entry useCaller⟩ })
    next := t.next + 1
    fiberId := t.fiberId + 1
    fiberCount := t.fiberCount + 1
    nextCb := t.nextCb + 1 }

/-- The states in which `reset` and `~Fiber` accept a fiber with a stack. -/
def restartable (s : FiberState) : Bool := s.finished || s == .init

/-- `~Fiber`. -/
def destroy (t : Thread) (f : Nat) (x : Fiber) : Except Abort Thread :=
  let freed := { t with
    heap := Function.update t.heap f none
    fiberCount := Lib.wrapPred t.fiberCount
    discarded := if x.state = .init then t.discarded ++ x.cb.toList else t.discarded }
  if x.stack then
    if !restartable x.state then .error .destroyRunning
    else if t.control.stack = f then .error .stackFreed
    else .ok freed
  else if x.cb.isSome || x.state != .exec then .error .destroyRunning
  else .ok { freed with tFiber := if t.tFiber = some f then none else t.tFiber }

/-- What follows when a pointer to `f` has gone. -/
def release (t : Thread) (f : Nat) : Except Abort Thread := do
  let x ← t.deref f
  if t.useCount f = 0 then destroy t f x else .ok t

/-- `Fiber::reset`. -/
def reset (t : Thread) (f : Nat) (cb : Option Nat) : Except Abort Thread := do
  let x ← t.deref f
  if !x.stack || !restartable x.state then .error .resetRunning
  else .ok (t.modify f fun x => { x with cb := cb, ctx := ⟨f, .entry false⟩, state := .init })

/-! ### Switches -/

/-- `swapcontext(&from->m_ctx, &to->m_ctx)`, with the point where the code in hand goes on. -/
def swapcontext (t : Thread) (source target : Nat) (point : Point) : Except Abort Thread := do
  let _ ← t.deref source
  let t := t.modify source fun x => { x with ctx := ⟨t.control.stack, point⟩ }
  let y ← t.deref target
  .ok { t with control := y.ctx }

/-- A pointer that is followed. -/
def pointer (p : Option Nat) : Except Abort Nat :=
  match p with
  | some f => .ok f
  | none => .error .dangling

/-- `Fiber::call`. -/
def call (t : Thread) (f : Nat) : Except Abort Thread := do
  let t := { t with tFiber := some f }
  let _ ← t.deref f
  let t := t.modify f fun x => { x with state := .exec }
  let main ← pointer t.threadFiber
  swapcontext t main f .outside

/-- `Fiber::back`. -/
def back (t : Thread) (f : Nat) (point : Point) : Except Abort Thread := do
  let t := { t with tFiber := t.threadFiber }
  let main ← pointer t.threadFiber
  swapcontext t f main point

/-- `Fiber::swapIn`. -/
def swapIn (t : Thread) (f : Nat) (point : Point) : Except Abort Thread := do
  let t := { t with tFiber := some f }
  let x ← t.deref f
  if x.state = .exec then .error .swapInExec
  else
    let t := t.modify f fun x => { x with state := .exec }
    let main ← pointer t.schedulerFiber
    swapcontext t main f point

/-- `Fiber::swapOut`. -/
def swapOut (t : Thread) (f : Nat) (point : Point) : Except Abort Thread := do
  let t := { t with tFiber := t.schedulerFiber }
  let main ← pointer t.schedulerFiber
  swapcontext t f main point

/-! ### The code of a fiber -/

/-- The part of `run()` before its loop. -/
def startRun (t : Thread) : Thread :=
  { newFiber t false with idleFiber := some t.next, control := ⟨t.control.stack, .top⟩ }

/-- `MainFunc` and `CallerMainFunc`, up to the call of the callback. The callback of the fiber
with `use_caller` is `run()`. -/
def mainFunc (t : Thread) (caller : Bool) : Except Abort Thread := do
  let t := getThis t
  let g ← pointer t.tFiber
  let x ← t.deref g
  let t := t.modify g fun x => { x with frames := x.frames + 1 }
  let t := t.modify t.control.stack fun y => { y with cur := some g }
  let t := { t with entered := t.entered ++ x.cb.toList }
  if caller then .ok (startRun t)
  else .ok { t with control := ⟨t.control.stack, .callback none⟩ }

/-- A pointer to `g` in a frame is destroyed. -/
def dropFrame (t : Thread) (g : Nat) : Except Abort Thread :=
  release (t.modify g fun x => { x with frames := x.frames - 1 }) g

/-- The code behind a switch. -/
def proceed (t : Thread) : Except Abort Thread :=
  match t.control.point with
  | .entry caller => mainFunc t caller
  | .callback (some g) =>
    dropFrame { t with control := ⟨t.control.stack, .callback none⟩ } g
  | .past => .error .neverReach
  | _ => .ok t

/-- How a callback ends. -/
inductive Ending where
  | returns
  | throws
  deriving DecidableEq, Repr

/-- What is written to a fiber whose callback has ended. -/
def Ending.apply (x : Fiber) : Ending → Fiber
  | .returns => { x with cb := none, state := .term }
  | .throws => { x with state := .except }

/-- `MainFunc` and `CallerMainFunc` behind the callback, up to the switch. -/
def finish (t : Thread) (caller : Bool) (how : Ending) : Except Abort Thread := do
  let y ← t.deref t.control.stack
  let g ← pointer y.cur
  let _ ← t.deref g
  let t := t.modify g fun x => how.apply x
  let t := t.modify t.control.stack fun y => { y with cur := none }
  let t ← dropFrame t g
  if caller then back t g .past else swapOut t g .past

/-- `YieldToReady` and `YieldToHold`, up to the switch. -/
def yieldTo (t : Thread) (ready : Bool) : Except Abort Thread := do
  let t := getThis t
  let g ← pointer t.tFiber
  let x ← t.deref g
  let t := t.modify g fun x => { x with frames := x.frames + 1 }
  if x.state ≠ .exec then .error .yieldNotExec
  else
    let t := if ready then t.modify g fun x => { x with state := .ready } else t
    swapOut t g (.callback (some g))

/-- The end of `IOManager::idle`: the pointer is given up before the switch. -/
def idleSwapOut (t : Thread) : Except Abort Thread := do
  let t := getThis t
  let g ← pointer t.tFiber
  swapOut t g (.callback none)

/-! ### The code of `run()` -/

/-- The branch of `run()` for an item with a fiber. -/
def takeFiber (t : Thread) (f : Nat) : Except Abort Thread := do
  let t := { t with handles := Function.update t.handles f (t.handles f - 1), ft := some f }
  let x ← t.deref f
  if x.state.finished then release { t with ft := none } f
  else swapIn t f (.back f .fiber)

/-- The branch of `run()` for an item with a callback. -/
def takeCb (t : Thread) : Except Abort Thread :=
  match t.cbFiber with
  | some g => do
    let t ← reset { t with nextCb := t.nextCb + 1 } g (some t.nextCb)
    swapIn t g (.back g .cb)
  | none =>
    swapIn { newFiber t false with cbFiber := some t.next } t.next (.back t.next .cb)

/-- The local variable `cb_fiber` is destroyed. -/
def dropCbFiber (t : Thread) : Except Abort Thread :=
  match t.cbFiber with
  | some g => release { t with cbFiber := none } g
  | none => .ok t

/-- The end of `run()`: its local variables are destroyed. The callback of the root fiber ends. -/
def endRun (t : Thread) : Except Abort Thread := do
  let t ← dropCbFiber t
  let idle ← pointer t.idleFiber
  let t ← release { t with idleFiber := none } idle
  if t.rootFiber.isSome then finish t true .returns
  else .ok { t with control := ⟨t.control.stack, .ended⟩ }

/-- The branch of `run()` without an item. -/
def idle (t : Thread) : Except Abort Thread := do
  let g ← pointer t.idleFiber
  let x ← t.deref g
  if x.state = .term then endRun t else swapIn t g (.back g .idle)

/-- `run()` behind the `swapIn` of the fiber `f`. -/
def settle (t : Thread) (f : Nat) (branch : Branch) : Except Abort Thread := do
  let t := { t with control := ⟨t.control.stack, .top⟩ }
  let x ← t.deref f
  let scheduled := { t with handles := Function.update t.handles f (t.handles f + 1) }
  let held := t.modify f fun x => { x with state := .hold }
  match branch with
  | .fiber =>
    if x.state = .ready then release { scheduled with ft := none } f
    else if !x.state.finished then release { held with ft := none } f
    else release { t with ft := none } f
  | .cb =>
    if x.state = .ready then release { scheduled with cbFiber := none } f
    else if x.state.finished then reset t f none
    else release { held with cbFiber := none } f
  | .idle => if !x.state.finished then .ok held else .ok t

/-! ### Steps -/

inductive Action where
  /-- Somebody makes a fiber. -/
  | spawn
  /-- A pointer is copied, or the running callback keeps what `GetThis` returns. -/
  | retain (f : Nat)
  /-- A pointer is destroyed. -/
  | drop (f : Nat)
  /-- The code behind a switch. -/
  | proceed
  /-- The callback yields. -/
  | yieldTo (ready : Bool)
  | idleSwapOut
  /-- The callback ends. -/
  | finish (how : Ending)
  /-- `run()` finds an item. -/
  | takeFiber (f : Nat)
  | takeCb
  /-- `run()` finds no item. -/
  | idle
  /-- `run()` goes on behind a `swapIn`. -/
  | settle
  /-- `Stop` finds that `stopping()` is false, and enters the root fiber. -/
  | stop
  /-- `~Scheduler`. -/
  | deleteScheduler
  /-- The thread ends, and its local variables are destroyed. -/
  | threadExit
  deriving DecidableEq, Repr

def Sys.ofResult : Except Abort Thread → Sys
  | .ok t => .running t
  | .error why => .aborted why

/-- The callback that is called on the stack the thread is on. -/
def Thread.callbackIs (t : Thread) : Option Nat :=
  (t.heap t.control.stack).bind Fiber.cb

/-- One step of the thread, `none` when it is not enabled. -/
def stepRunning (t : Thread) : Action → Option Sys
  | .spawn =>
    some (.running { newFiber t false with handles := Function.update t.handles t.next 1 })
  | .retain f =>
    if 0 < t.handles f ∨ t.tFiber = some f ∧ t.control.point = .callback none then
      some (.running { t with handles := Function.update t.handles f (t.handles f + 1) })
    else none
  | .drop f =>
    if 0 < t.handles f then
      some (.ofResult
        (release { t with handles := Function.update t.handles f (t.handles f - 1) } f))
    else none
  | .proceed =>
    match t.control.point with
    | .entry _ => some (.ofResult (proceed t))
    | .callback (some _) => some (.ofResult (proceed t))
    | .past => some (.ofResult (proceed t))
    | _ => none
  -- A null callback throws `bad_function_call`, and does nothing else.
  | .yieldTo ready =>
    if t.control.point = .callback none ∧ t.callbackIs.isSome then
      some (.ofResult (yieldTo t ready))
    else none
  | .idleSwapOut =>
    if t.control.point = .callback none ∧ t.callbackIs.isSome then
      some (.ofResult (idleSwapOut t))
    else none
  | .finish how =>
    if t.control.point = .callback none ∧ (t.callbackIs.isSome ∨ how = .throws) then
      some (.ofResult (finish t false how))
    else none
  -- The scan of the queue leaves a fiber in the state `EXEC` where it is.
  | .takeFiber f =>
    if t.control.point = .top ∧ 0 < t.handles f ∧
        (t.heap f).all fun x => x.state != .exec then
      some (.ofResult (takeFiber t f))
    else none
  | .takeCb => if t.control.point = .top then some (.ofResult (takeCb t)) else none
  | .idle => if t.control.point = .top then some (.ofResult (idle t)) else none
  | .settle =>
    match t.control.point with
    | .back f branch => some (.ofResult (settle t f branch))
    | _ => none
  | .stop =>
    match t.rootFiber with
    | some r => if t.control.point = .outside then some (.ofResult (call t r)) else none
    | none => none
  | .deleteScheduler =>
    match t.rootFiber with
    | some r =>
      if t.control.point = .outside then
        some (.ofResult (release { t with rootFiber := none } r))
      else none
    | none => none
  | .threadExit =>
    match t.threadFiber with
    | some m =>
      if t.control.point = .ended ∨ t.control.point = .outside ∧ t.rootFiber = none then
        some (match release { t with threadFiber := none } m with
          | .ok t => .exited t
          | .error why => .aborted why)
      else none
    | none => none

def step : Sys → Action → Option Sys
  | .running t, a => stepRunning t a
  | _, _ => none

/-- A thread before it has a fiber. -/
def bare : Thread where
  heap := fun _ => none
  next := 0
  fiberId := 0
  fiberCount := 0
  tFiber := none
  threadFiber := none
  schedulerFiber := none
  rootFiber := none
  idleFiber := none
  cbFiber := none
  ft := none
  handles := fun _ => 0
  control := ⟨0, .outside⟩
  nextCb := 0
  entered := []
  discarded := []

/-- A thread that `Start` has made, at the head of the loop of `run()`. -/
def worker : Thread :=
  let t := getThis bare
  startRun { t with schedulerFiber := t.tFiber }

/-- The thread that has made a scheduler with `use_caller`. -/
def caller : Thread :=
  let t := getThis bare
  { newFiber t true with rootFiber := some t.next, schedulerFiber := some t.next }

/-- The thread at the start. -/
def init (useCaller : Bool) : Sys := .running (if useCaller then caller else worker)

end Sylar.Fibers
