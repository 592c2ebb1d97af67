import Sylar.Spec.Scheduler

/-!
# `Sylar.Spec.Stopping`: the stop condition of a `Scheduler` and of an `IOManager`

A worker that finds nothing to do enters its idle fiber, and the idle fiber asks `stopping()`.
`Scheduler::stopping` reads the flags, the queue and `m_activeThreadCount` under `m_mutex`.
`IOManager::stopping` first reads the timer set and `m_pendingEventCount`, each in a step of its
own. An `IOManager` that does not stop then collects the callbacks of expired timers, schedules
them, and triggers the events that `epoll_wait` reported.

The model adds the idle fibers, the timers and the registered events to the workers of
`Sylar.Spec.Scheduler`. A fiber that runs on a worker may schedule, arm timers and register events
at any moment. A thread outside may do so until `Stop()` has set the two flags.

Time is not modelled. Any timers of the set may have expired when `listExpiredCb` runs, and any
registered event may be reported. `observed` is a history: how many items had been dequeued when
`stopping()` was first true.
-/

set_option autoImplicit false

namespace Sylar.Stopping

open Scheduler (Item State Pc)

inductive Kind where
  | scheduler
  | ioManager
  deriving DecidableEq, Repr

/-- Where a worker is in its idle fiber. -/
inductive IdlePc where
  /-- Before `getNextTimer` in `IOManager::stopping`. -/
  | timers
  /-- The timer set was empty, before the read of `m_pendingEventCount`. -/
  | pending
  /-- Before `Scheduler::stopping`. -/
  | queue
  /-- `stopping()` was false, before `listExpiredCb`. -/
  | expire
  /-- Before `schedule(cbs.begin(), cbs.end())`. -/
  | collected (cbs : List Nat)
  /-- At the reported events, and then at the swap out. -/
  | events
  /-- `stopping()` was true. -/
  | done
  deriving DecidableEq, Repr

structure Timer where
  cb : Nat
  recurring : Bool
  deriving DecidableEq, Repr

structure Sys (n : Nat) where
  sched : Scheduler.Sys n
  idle : Fin n → IdlePc
  timers : List Timer
  /-- What waits in the `FdContext`s. -/
  events : List Item
  pendingEventCount : Nat
  /-- Who has called `triggerEvent` and not executed `--m_pendingEventCount` yet: a worker, or the
  threads outside. -/
  triggered : Option (Fin n) → Bool
  /-- `m_autoStop && m_stopping`. -/
  stop : Bool
  observed : Option Nat

inductive Action (n : Nat) where
  /-- A step of `run()`. -/
  | run (a : Scheduler.Action n)
  /-- Both flags are set. -/
  | stop
  /-- A call by a fiber that runs on a worker, or by a thread outside. -/
  | schedule (who : Option (Fin n)) (items : List Item)
  | addTimer (who : Option (Fin n)) (timer : Timer)
  | addEvent (who : Option (Fin n)) (item : Item)
  /-- `Timer::cancel` and `delEvent`, by anybody. -/
  | cancelTimer (timer : Timer)
  | delEvent (item : Item)
  /-- `triggerEvent`, by a call of `cancelEvent` or in the idle fiber. -/
  | triggerEvent (who : Option (Fin n)) (item : Item)
  /-- `--m_pendingEventCount` after `triggerEvent`. -/
  | decrementPending (who : Option (Fin n))
  /-- The three reads of `stopping()`. -/
  | getNextTimer (w : Fin n)
  | readPending (w : Fin n)
  | stopping (w : Fin n)
  /-- `expired` are the timers that have expired, `rest` the others. -/
  | listExpiredCb (w : Fin n) (expired rest : List Timer)
  | scheduleCbs (w : Fin n)
  deriving DecidableEq

section
variable {n : Nat}

/-- Where the idle fiber goes on when it is swapped in. -/
def start : Kind → IdlePc
  | .scheduler => .queue
  | .ioManager => .timers

/-- Where the idle fiber goes on when `stopping()` was false. -/
def goOn : Kind → IdlePc
  | .scheduler => .events
  | .ioManager => .expire

/-- Where the idle fiber is when it returns, finished or not. -/
def swapsOutAt (term : Bool) : IdlePc := if term then .done else .events

/-- The worker is in its idle fiber, at `pc`. -/
def Sys.idleAt (s : Sys n) (st : State n) (w : Fin n) (pc : IdlePc) : Bool :=
  (st.workers w).pc == .idle && s.idle w == pc

/-- A fiber runs on the worker. -/
def insideFiber (st : State n) (w : Fin n) : Bool :=
  match (st.workers w).pc with
  | .inside _ _ => true
  | _ => false

/-- `who` may call into the scheduler. -/
def Sys.mayCall (s : Sys n) (st : State n) : Option (Fin n) → Bool
  | some w => insideFiber st w && !s.triggered (some w)
  | none => !s.stop && !s.triggered none

/-- `who` may call `triggerEvent`. -/
def Sys.mayTrigger (s : Sys n) (st : State n) : Option (Fin n) → Bool
  | some w => s.mayCall st (some w) || (s.idleAt st w .events && !s.triggered (some w))
  | none => s.mayCall st none

/-- `Scheduler::stopping`. -/
def Sys.stopping (s : Sys n) (st : State n) : Bool :=
  s.stop && st.fibers.isEmpty && st.activeThreadCount == 0

/-- The idle fiber of `w` goes to `pc`. -/
def Sys.setIdle (s : Sys n) (w : Fin n) (pc : IdlePc) : Sys n :=
  { s with idle := Function.update s.idle w pc }

/-- `who` is between `triggerEvent` and the decrement, or not. -/
def Sys.setTriggered (s : Sys n) (who : Option (Fin n)) (b : Bool) : Sys n :=
  { s with triggered := Function.update s.triggered who b }

/-- A step of the workers, and `f` for the rest of the system. -/
def Sys.lift (s : Sys n) (st : State n) (a : Scheduler.Action n) (f : Sys n → Sys n) :
    Option (Sys n) :=
  match Scheduler.stepRunning st a with
  | none => none
  | some sched => some (f { s with sched := sched })

/-- A step of `run()`: `schedule` is not one, and the idle fiber must be where it swaps out. -/
def runStep (kind : Kind) (s : Sys n) (st : State n) : Scheduler.Action n → Option (Sys n)
  | .schedule _ => none
  | .idleEnter w => s.lift st (.idleEnter w) fun s => s.setIdle w (start kind)
  | .idleLeave w term =>
    if s.idle w = swapsOutAt term ∧ s.triggered (some w) = false then
      s.lift st (.idleLeave w term) id
    else none
  | .yield w how => if s.triggered (some w) = false then s.lift st (.yield w how) id else none
  | a => s.lift st a id

def stepRunning (kind : Kind) (s : Sys n) (st : State n) : Action n → Option (Sys n)
  | .run a => runStep kind s st a
  | .stop => some { s with stop := true }
  | .schedule who items => if s.mayCall st who then s.lift st (.schedule items) id else none
  | .addTimer who timer =>
    if kind = .ioManager ∧ s.mayCall st who then some { s with timers := timer :: s.timers }
    else none
  | .addEvent who item =>
    if kind = .ioManager ∧ s.mayCall st who ∧ item.fiber.all (fun f => decide (f < st.nextFiber))
    then some { s with
      events := item :: s.events
      pendingEventCount := s.pendingEventCount + 1 }
    else none
  | .cancelTimer timer => some { s with timers := s.timers.erase timer }
  | .delEvent item =>
    if item ∈ s.events then some { s with
      events := s.events.erase item
      pendingEventCount := Lib.wrapPred s.pendingEventCount }
    else none
  | .triggerEvent who item =>
    if s.mayTrigger st who ∧ item ∈ s.events then
      s.lift st (.schedule [item]) fun s =>
        { s with events := s.events.erase item }.setTriggered who true
    else none
  | .decrementPending who =>
    if s.triggered who then
      some ({ s with pendingEventCount := Lib.wrapPred s.pendingEventCount }.setTriggered who false)
    else none
  | .getNextTimer w =>
    if s.idleAt st w .timers then
      some (s.setIdle w (if s.timers.isEmpty then .pending else .expire))
    else none
  | .readPending w =>
    if s.idleAt st w .pending then
      some (s.setIdle w (if s.pendingEventCount = 0 then .queue else .expire))
    else none
  | .stopping w =>
    if s.idleAt st w .queue then
      if s.stopping st then
        some ({ s with observed := s.observed.or (some st.dequeued.length) }.setIdle w .done)
      else some (s.setIdle w (goOn kind))
    else none
  | .listExpiredCb w expired rest =>
    if s.idleAt st w .expire ∧ s.timers.Perm (expired ++ rest) then
      some ({ s with timers := rest ++ expired.filter Timer.recurring }.setIdle w
        (.collected (expired.map Timer.cb)))
    else none
  | .scheduleCbs w =>
    match s.idle w with
    | .collected cbs =>
      s.lift st (.schedule (cbs.map fun cb => { cb := some cb })) fun s => s.setIdle w .events
    | _ => none

/-- One step of the system. -/
def step (kind : Kind) (s : Sys n) (a : Action n) : Option (Sys n) :=
  match s.sched with
  | .aborted _ => none
  | .running st => stepRunning kind s st a

/-- Workers at the head of their loops, no timer and no event. -/
def init (n : Nat) : Sys n :=
  ⟨Scheduler.init n, fun _ => .events, [], [], 0, fun _ => false, false, none⟩

/-- The promise of `stopping()`: once it was true, nothing is queued, nobody is active, and nothing
has been dequeued since. -/
def StopStable (s : Sys n) : Prop :=
  ∀ st k, s.sched = .running st → s.observed = some k →
    st.fibers = [] ∧ st.activeThreadCount = 0 ∧ st.dequeued.length = k

end

end Sylar.Stopping
