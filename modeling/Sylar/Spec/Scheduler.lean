import Sylar.Lib.Counter
import Sylar.Lib.Run

/-!
# `Sylar.Spec.Scheduler`: the workers of a `Scheduler`

`Scheduler::run` is executed by any number of worker threads. They share the queue `m_fibers`,
two counters, and the states of the fibers. The queue is read and written under `m_mutex`. The
states of the fibers are not protected at all.

Each worker has a program counter that stops wherever `run()` reads or writes something shared:
the dequeue, the test of the state, `swapIn`, the return, the decrement, the next test, and the
re-schedule or the store of `HOLD`. Everybody else may move between two of these. A fiber that
runs is at the worker that swapped it in, and stops where it writes its own state and where it
swaps out.

`accepted` and `dequeued` are histories of the queue, and `ready` and `again` are histories of one
worker: the fibers it saw return in the state `READY`, and those it scheduled again. The source
has no such data.
-/

set_option autoImplicit false

namespace Sylar.Scheduler

/-! ### Data -/

/-- `Fiber::Status`. -/
inductive FiberState where
  | init
  | hold
  | exec
  | term
  | ready
  | except
  deriving DecidableEq, Repr

/-- The fiber has finished. -/
def FiberState.finished : FiberState → Bool
  | .term => true
  | .except => true
  | _ => false

/-- `FiberAndThread`. Fibers and callbacks are numbers, and no thread is `-1`. -/
structure Item where
  fiber : Option Nat := none
  cb : Option Nat := none
  thread : Option Nat := none
  deriving DecidableEq, Repr

/-- `ft.fiber || ft.cb`. -/
def Item.nonempty (item : Item) : Bool := item.fiber.isSome || item.cb.isSome

/-- Where a worker is. `own` says that the fiber is the worker's `cb_fiber`. `ready` says that it
was in the state `READY` when it returned. -/
inductive Pc where
  /-- At the head of the loop. -/
  | top
  /-- An item was dequeued, before the test of its fiber. -/
  | got (item : Item)
  /-- Before `swapIn`. -/
  | enter (f : Nat) (own : Bool)
  /-- The fiber runs. -/
  | inside (f : Nat) (own : Bool)
  /-- The fiber has written its state, before it swaps out. -/
  | leaving (f : Nat) (own : Bool)
  /-- `swapIn` has returned, before `--m_activeThreadCount`. -/
  | returned (f : Nat) (own ready : Bool)
  /-- Before the test of the state. -/
  | decremented (f : Nat) (own ready : Bool)
  /-- The state was `READY`, before `schedule`. -/
  | requeue (f : Nat) (own : Bool)
  /-- The state was neither `READY` nor finished, before the store of `HOLD`. -/
  | hold (f : Nat) (own : Bool)
  /-- The `cb_fiber` has finished, before `cb_fiber->reset(nullptr)`. -/
  | clear (f : Nat)
  /-- Nothing was dequeued, before the test of the idle fiber. -/
  | nothing
  /-- In the idle fiber. -/
  | idle
  /-- Out of the loop. -/
  | exited
  deriving DecidableEq, Repr

/-- A worker has dequeued an item and not executed the matching decrement. -/
def Pc.active : Pc → Bool
  | .got _ => true
  | .enter _ _ => true
  | .inside _ _ => true
  | .leaving _ _ => true
  | .returned _ _ _ => true
  | _ => false

/-- A worker is in its idle fiber. -/
def Pc.isIdle : Pc → Bool
  | .idle => true
  | _ => false

structure Worker where
  pc : Pc := .top
  /-- `cb_fiber`. -/
  cbFiber : Option Nat := none
  /-- The idle fiber is in the state `TERM`. -/
  idleTerm : Bool := false
  ready : List Nat := []
  again : List Nat := []
  deriving DecidableEq, Repr

/-- The shared state, for `n` workers. Worker `w` is the thread `w`. -/
structure State (n : Nat) where
  fibers : List Item
  activeThreadCount : Nat
  idleThreadCount : Nat
  state : Nat → FiberState
  nextFiber : Nat
  workers : Fin n → Worker
  accepted : List Item
  dequeued : List (Fin n × Item)

/-- How the process ends: a failed `SYLAR_ASSERT`. -/
inductive Abort where
  /-- `run`: the queue holds an item with neither fiber nor callback. -/
  | emptyItem
  /-- `swapIn`: the fiber is in the state `EXEC`. -/
  | swapInExec
  /-- `YieldToReady` or `YieldToHold`: the fiber is not in the state `EXEC`. -/
  | yieldNotExec
  /-- `Fiber::reset`: the fiber has not finished. -/
  | resetRunning
  deriving DecidableEq, Repr

inductive Sys (n : Nat) where
  | running (s : State n)
  | aborted (why : Abort)

/-! ### The queue -/

section
variable {n : Nat}

/-- `scheduleNoLock`: an item with neither fiber nor callback is not queued. -/
def scheduleNoLock (s : State n) (item : Item) : State n :=
  if item.nonempty then
    { s with fibers := s.fibers ++ [item], accepted := s.accepted ++ [item] }
  else s

/-- `schedule` of a range, under one lock. -/
def schedule (s : State n) (items : List Item) : State n := items.foldl scheduleNoLock s

/-- `++it`: what the scan of the rest of the queue finds, with `item` left in place. -/
def skip (item : Item) :
    Except Abort (Option (Item × List Item)) → Except Abort (Option (Item × List Item))
  | .error why => .error why
  | .ok none => .ok none
  | .ok (some (found, rest)) => .ok (some (found, item :: rest))

/-- The scan of the queue by the thread `tid`: the first item for it whose fiber does not run,
with the rest of the queue. -/
def scan (tid : Nat) (state : Nat → FiberState) :
    List Item → Except Abort (Option (Item × List Item))
  | [] => .ok none
  | item :: rest =>
    if item.thread.isSome ∧ item.thread ≠ some tid then skip item (scan tid state rest)
    else if !item.nonempty then .error .emptyItem
    else if item.fiber.any fun f => state f == .exec then skip item (scan tid state rest)
    else .ok (some (item, rest))

/-! ### Steps -/

/-- The state with the worker `w` replaced. -/
def State.setWorker (s : State n) (w : Fin n) (worker : Worker) : State n :=
  { s with workers := Function.update s.workers w worker }

/-- The state with the program counter of `w` replaced. -/
def State.setPc (s : State n) (w : Fin n) (pc : Pc) : State n :=
  s.setWorker w { s.workers w with pc := pc }

/-- `m_state = x` for the fiber `f`. -/
def State.setState (s : State n) (f : Nat) (x : FiberState) : State n :=
  { s with state := Function.update s.state f x }

/-- How a fiber gives up the thread. -/
inductive Outcome where
  /-- `YieldToReady`. -/
  | ready
  /-- `YieldToHold`. -/
  | hold
  /-- The callback returns. -/
  | term
  /-- The callback throws. -/
  | except
  deriving DecidableEq, Repr

inductive Action (n : Nat) where
  /-- A `schedule` call, single or range, by anybody. -/
  | schedule (items : List Item)
  /-- Somebody creates a fiber. -/
  | newFiber
  /-- The critical section of `run()`. -/
  | dequeue (w : Fin n)
  /-- The dispatch on the item, up to the `swapIn`. -/
  | dispatch (w : Fin n)
  | swapIn (w : Fin n)
  /-- The fiber writes its state. -/
  | yield (w : Fin n) (how : Outcome)
  | swapOut (w : Fin n)
  /-- `--m_activeThreadCount` after the return. -/
  | decrement (w : Fin n)
  /-- The test of the state after the return. -/
  | test (w : Fin n)
  /-- What follows the test. -/
  | finish (w : Fin n)
  /-- Enter the idle fiber, or leave the loop when it has finished. -/
  | idleEnter (w : Fin n)
  /-- The idle fiber returns, finished or not. -/
  | idleLeave (w : Fin n) (term : Bool)
  deriving DecidableEq

/-- The critical section of `run()`. -/
def dequeue (s : State n) (w : Fin n) : Except Abort (State n) :=
  match scan w.val s.state s.fibers with
  | .error why => .error why
  | .ok none => .ok (s.setPc w .nothing)
  | .ok (some (item, rest)) =>
    .ok ({ s with
      fibers := rest
      activeThreadCount := s.activeThreadCount + 1
      dequeued := s.dequeued ++ [(w, item)] }.setPc w (.got item))

/-- The callback branch up to `swapIn`: `cb_fiber` is reset or created. -/
def prepare (s : State n) (w : Fin n) : Except Abort (State n) :=
  match (s.workers w).cbFiber with
  | some g =>
    if (s.state g).finished || s.state g == .init then
      .ok ((s.setState g .init).setPc w (.enter g true))
    else .error .resetRunning
  | none =>
    let g := s.nextFiber
    .ok ({ s.setState g .init with nextFiber := g + 1 }.setWorker w
      { s.workers w with pc := .enter g true, cbFiber := some g })

/-- The dispatch on a dequeued item. -/
def dispatch (s : State n) (w : Fin n) (item : Item) : Except Abort (State n) :=
  match item.fiber with
  | some f =>
    if !(s.state f).finished then .ok (s.setPc w (.enter f false)) else fallback
  | none => fallback
where
  /-- The branches without a live fiber. -/
  fallback : Except Abort (State n) :=
    if item.cb.isSome then prepare s w
    else .ok ({ s with activeThreadCount := Lib.wrapPred s.activeThreadCount }.setPc w .top)

/-- A fiber writes its state on its way out. -/
def yield (s : State n) (w : Fin n) (f : Nat) (own : Bool) : Outcome → Except Abort (State n)
  | .ready =>
    if s.state f = .exec then .ok ((s.setState f .ready).setPc w (.leaving f own))
    else .error .yieldNotExec
  | .hold =>
    if s.state f = .exec then .ok (s.setPc w (.leaving f own)) else .error .yieldNotExec
  | .term => .ok ((s.setState f .term).setPc w (.leaving f own))
  | .except => .ok ((s.setState f .except).setPc w (.leaving f own))

/-- The test of the state after a return. -/
def afterReturn (s : State n) (f : Nat) (own : Bool) : Pc :=
  if s.state f = .ready then .requeue f own
  else if (s.state f).finished then (if own then .clear f else .top)
  else .hold f own

/-- The state after a critical section. -/
def Sys.ofResult : Except Abort (State n) → Sys n
  | .ok s => .running s
  | .error why => .aborted why

/-- One step of a running system, `none` when it is not enabled. -/
def stepRunning (s : State n) : Action n → Option (Sys n)
  | .schedule items =>
    if items.all fun item => item.fiber.all fun f => decide (f < s.nextFiber) then
      some (.running (schedule s items))
    else none
  | .newFiber =>
    some (.running { s.setState s.nextFiber .init with nextFiber := s.nextFiber + 1 })
  | .dequeue w =>
    match (s.workers w).pc with
    | .top => some (.ofResult (dequeue s w))
    | _ => none
  | .dispatch w =>
    match (s.workers w).pc with
    | .got item => some (.ofResult (dispatch s w item))
    | _ => none
  | .swapIn w =>
    match (s.workers w).pc with
    | .enter f own =>
      if s.state f = .exec then some (.aborted .swapInExec)
      else some (.running ((s.setState f .exec).setPc w (.inside f own)))
    | _ => none
  | .yield w how =>
    match (s.workers w).pc with
    | .inside f own => some (.ofResult (yield s w f own how))
    | _ => none
  | .swapOut w =>
    match (s.workers w).pc with
    | .leaving f own =>
      let isReady := s.state f == .ready
      some (.running (s.setWorker w { s.workers w with
        pc := .returned f own isReady
        ready := (s.workers w).ready ++ (if isReady then [f] else []) }))
    | _ => none
  | .decrement w =>
    match (s.workers w).pc with
    | .returned f own isReady =>
      some (.running ({ s with activeThreadCount := Lib.wrapPred s.activeThreadCount }.setPc w
        (.decremented f own isReady)))
    | _ => none
  | .test w =>
    match (s.workers w).pc with
    | .decremented f own _ => some (.running (s.setPc w (afterReturn s f own)))
    | _ => none
  | .finish w =>
    match (s.workers w).pc with
    | .requeue f own =>
      some (.running ((scheduleNoLock s { fiber := some f }).setWorker w { s.workers w with
        pc := .top
        cbFiber := if own then none else (s.workers w).cbFiber
        again := (s.workers w).again ++ [f] }))
    | .hold f own =>
      some (.running ((s.setState f .hold).setWorker w { s.workers w with
        pc := .top
        cbFiber := if own then none else (s.workers w).cbFiber }))
    | .clear f =>
      if (s.state f).finished || s.state f == .init then
        some (.running ((s.setState f .init).setPc w .top))
      else some (.aborted .resetRunning)
    | _ => none
  | .idleEnter w =>
    match (s.workers w).pc with
    | .nothing =>
      if (s.workers w).idleTerm then some (.running (s.setPc w .exited))
      else some (.running ({ s with idleThreadCount := s.idleThreadCount + 1 }.setPc w .idle))
    | _ => none
  | .idleLeave w term =>
    match (s.workers w).pc with
    | .idle =>
      some (.running ({ s with idleThreadCount := Lib.wrapPred s.idleThreadCount }.setWorker w
        { s.workers w with pc := .top, idleTerm := term }))
    | _ => none

/-- One step of the system. -/
def step : Sys n → Action n → Option (Sys n)
  | .aborted _, _ => none
  | .running s, a => stepRunning s a

/-- `n` workers at the head of their loops, and nothing else. -/
def init (n : Nat) : Sys n :=
  .running ⟨[], 0, 0, fun _ => .init, 0, fun _ => {}, [], []⟩

/-! ### Conservation -/

/-- The worker has dequeued an item and not executed the matching decrement. -/
def Worker.active (worker : Worker) : Bool := worker.pc.active

def Worker.isIdle (worker : Worker) : Bool := worker.pc.isIdle

/-- What the queue and the counters keep. -/
structure Conserved (s : State n) : Prop where
  /-- What was accepted is still queued or was dequeued, once. -/
  queue : s.accepted.Perm (s.fibers ++ s.dequeued.map Prod.snd)
  /-- An item with a thread is dequeued by that thread. -/
  thread : ∀ p ∈ s.dequeued, ∀ t, p.2.thread = some t → t = p.1.val
  nonempty : ∀ item ∈ s.fibers, item.nonempty = true
  active : s.activeThreadCount = Lib.countOf Worker.active s.workers
  idle : s.idleThreadCount = Lib.countOf Worker.isIdle s.workers
  /-- No decrement wraps. -/
  activePos : ∀ w, (s.workers w).active = true → 0 < s.activeThreadCount
  idlePos : ∀ w, (s.workers w).isIdle = true → 0 < s.idleThreadCount
  top : (∀ w, (s.workers w).pc = .top) → s.activeThreadCount = 0 ∧ s.idleThreadCount = 0

/-- Conservation in a running system. The assertion of `run()` about empty items never fails. -/
def Sys.Conserved : Sys n → Prop
  | .running s => Scheduler.Conserved s
  | .aborted why => why ≠ .emptyItem

/-- The fibers that a worker saw return in the state `READY` and has still to schedule. -/
def Pc.owed : Pc → List Nat
  | .returned f _ ready => if ready then [f] else []
  | .decremented f _ ready => if ready then [f] else []
  | .requeue f _ => [f]
  | _ => []

/-- Each fiber that returned in the state `READY` is accepted again once: the worker has scheduled
it, or is on its way to do so. -/
def Sys.ReadyOnce : Sys n → Prop
  | .running s => ∀ w, (s.workers w).ready = (s.workers w).again ++ (s.workers w).pc.owed
  | .aborted _ => True

/-! ### Exclusion -/

/-- The fiber that is between the `swapIn` of this worker and its return. -/
def Pc.running : Pc → Option Nat
  | .inside f _ => some f
  | .leaving f _ => some f
  | _ => none

/-- No fiber runs on two workers, and the assertion of `swapIn` does not fail. -/
def Sys.RunsOnce : Sys n → Prop
  | .running s => ∀ w w' f, (s.workers w).pc.running = some f →
      (s.workers w').pc.running = some f → w = w'
  | .aborted why => why ≠ .swapInExec

end

end Sylar.Scheduler
