import Sylar.Spec.IOManager

/-!
# `Sylar.Spec.Hook`: one hooked call with a timeout

`do_io` turns a blocking call into a loop: try the call, and on `EAGAIN` arm a timer, register
the event, yield, cancel the timer and try again. `connect_with_timeout` is the same without the
loop. Both share one `timer_info` between the caller and the callbacks of its timers.

The model is one such call beside the event table of `Sylar.Spec.IOManager`. The caller moves
through its program counter. Each timer of the call moves on its own: it expires, its callback
sets `tinfo->cancelled`, and then calls `cancelEvent`. Every other step of the table may come in
between, except that no other waiter registers for the same event of the same context.

Time is not modelled. A timer that is in the timer set may expire at any moment.
-/

set_option autoImplicit false

namespace Sylar.Hook

open IOManager (Event Caller Table Entry)

/-- Where a timer of the call is. -/
inductive Phase where
  /-- In the timer set. -/
  | inSet
  /-- Removed by `listExpiredCb`, the callback has not run yet. -/
  | expired
  /-- The callback has set `tinfo->cancelled`, and `cancelEvent` is still to come. -/
  | cancelling
  /-- The callback has returned, or the timer was cancelled. -/
  | done
  deriving DecidableEq, Repr

/-- Where the caller is. -/
inductive Pc where
  /-- At the original function. -/
  | call
  /-- Before `addConditionTimer`. -/
  | arm
  /-- Before `addEvent`. -/
  | register
  /-- The event is registered, before the yield. -/
  | yield
  /-- In `YieldToHold`. -/
  | suspended
  /-- Resumed, before `timer->cancel()`. -/
  | disarm
  /-- Before the test of `tinfo->cancelled`. -/
  | test
  /-- `addEvent` failed, before `timer->cancel()`. -/
  | giveUp
  | returned
  deriving DecidableEq, Repr

/-- What the call is about. `retries` tells `do_io` from `connect_with_timeout`. -/
structure Site where
  ctx : Nat
  event : Event
  caller : Caller
  retries : Bool

/-- The state of the call. `timers` holds one phase for each timer it has armed, the newest last.
`woken` counts the wake-ups of the fiber that have been consumed. -/
structure Call where
  pc : Pc
  cancelled : Bool
  timers : List Phase
  woken : Nat
  deriving DecidableEq, Repr

/-- The event table and the call. -/
structure Sys where
  table : IOManager.Sys
  call : Call

/-- How often the fiber has been handed to a scheduler. -/
def wakeups (f : Nat) (io : Table) : Nat := io.scheduled.countP fun item => item.fiber == some f

/-- The phase of the newest timer. -/
def Call.current (call : Call) : Option Phase := call.timers.getLast?

/-- One step of the call or of its surroundings. -/
inductive Action where
  /-- The original function returns, with `EAGAIN` (or `EINPROGRESS`) or with a result. -/
  | io (again : Bool)
  | addConditionTimer
  | addEvent (ctlOk : Bool)
  | yieldToHold
  | resume
  | timerCancel
  | test
  /-- `listExpiredCb` takes the timer `i` out of the set. -/
  | expire (i : Nat)
  /-- The callback of the timer `i` up to the store to `t->cancelled`. -/
  | callback (i : Nat)
  /-- The `cancelEvent` of the callback of the timer `i`. -/
  | callbackCancel (i : Nat) (ctlOk : Bool)
  /-- A step of the table by somebody else. -/
  | other (a : IOManager.Action)
  deriving DecidableEq, Repr

/-- `timer->cancel()` on the newest timer. An expired timer has lost its callback to
`listExpiredCb`, and `cancel` does nothing. -/
def Call.cancelTimer (call : Call) : List Phase :=
  if call.current = some .inSet then call.timers.dropLast ++ [.done] else call.timers

/-- The callback of the timer `i`. The weak pointer is dead once the call has returned. -/
def Call.runCallback (call : Call) (i : Nat) : Call :=
  if call.pc = .returned ∨ call.cancelled = true then
    { call with timers := call.timers.set i .done }
  else { call with cancelled := true, timers := call.timers.set i .cancelling }

/-- The action registers a waiter for the event of the call. -/
def Site.registers (site : Site) : IOManager.Action → Bool
  | .addEvent c e _ _ _ => c == site.ctx && e == site.event
  | _ => false

/-- One step of the system, `none` when it is not enabled. -/
def step (site : Site) (s : Sys) : Action → Option Sys
  | .io again =>
    if s.call.pc = .call then
      some { s with call := { s.call with pc := if again then .arm else .returned } }
    else none
  | .addConditionTimer =>
    if s.call.pc = .arm then
      some { s with call := { s.call with pc := .register, timers := s.call.timers ++ [.inSet] } }
    else none
  | .addEvent ctlOk =>
    match s.table with
    | .aborted _ => none
    | .running io batches =>
      match s.call.pc, io.ctxs[site.ctx]? with
      | .register, some x =>
        match IOManager.addEvent site.ctx x site.event none site.caller ctlOk io with
        | .error why => some { s with table := .aborted why }
        | .ok (rt, io) =>
          some ⟨.running io batches, { s.call with pc := if rt = 0 then .yield else .giveUp }⟩
      | _, _ => none
  | .yieldToHold =>
    if s.call.pc = .yield then some { s with call := { s.call with pc := .suspended } } else none
  | .resume =>
    match s.table with
    | .aborted _ => none
    | .running io _ =>
      if s.call.pc = .suspended ∧ s.call.woken < wakeups site.caller.fiber io then
        some { s with call := { s.call with pc := .disarm, woken := s.call.woken + 1 } }
      else none
  | .timerCancel =>
    match s.call.pc with
    | .disarm => some { s with call := { s.call with pc := .test, timers := s.call.cancelTimer } }
    | .giveUp =>
      some { s with call := { s.call with pc := .returned, timers := s.call.cancelTimer } }
    | _ => none
  | .test =>
    if s.call.pc = .test then
      let next := if !s.call.cancelled && site.retries then Pc.call else .returned
      some { s with call := { s.call with pc := next } }
    else none
  | .expire i =>
    if s.call.timers[i]? = some .inSet then
      some { s with call := { s.call with timers := s.call.timers.set i .expired } }
    else none
  | .callback i =>
    if s.call.timers[i]? = some .expired then some { s with call := s.call.runCallback i } else none
  | .callbackCancel i ctlOk =>
    if s.call.timers[i]? = some .cancelling then
      (IOManager.step s.table (.cancelEvent site.ctx site.event ctlOk)).map fun table =>
        ⟨table, { s.call with timers := s.call.timers.set i .done }⟩
    else none
  | .other a =>
    if site.registers a then none
    else (IOManager.step s.table a).map fun table => { s with table := table }

/-- The call is entered, with no timer and no wake-up of its fiber pending. -/
def start (site : Site) (io : Table) (batches : Nat → List Entry) : Sys :=
  ⟨.running io batches, ⟨.call, false, [], wakeups site.caller.fiber io⟩⟩

/-- The event of the call is registered with its fiber as the waiter. -/
def Waiting (site : Site) (io : Table) : Prop :=
  ∃ x, io.ctxs[site.ctx]? = some x ∧ x.events.has site.event = true ∧
    (x.getContext site.event).fiber = some site.caller.fiber

/-- The promise about one state: a fiber that is suspended with its event registered has a timer
that is pending, or is already on its way to be resumed. -/
def TimeoutKept (site : Site) (s : Sys) : Prop :=
  ∀ io batches, s.table = .running io batches → s.call.pc = .suspended → Waiting site io →
    (∃ p, s.call.current = some p ∧ p ≠ .done) ∨ s.call.woken < wakeups site.caller.fiber io

end Sylar.Hook
