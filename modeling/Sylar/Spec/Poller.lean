import Sylar.Lib.Text
import Sylar.Spec.TimerManager

/-!
# `Sylar.Spec.Poller`: a polling thread beside threads that move timers

One thread repeats the loop of `IOManager::idle`: it asks `getNextTimer` for the time to sleep,
blocks in `epoll_wait`, runs `listExpiredCb` and drains the pipe. Other threads call `addTimer`,
`reset`, `refresh` and `cancel` on the same manager.

`idle()` drains the pipe after `listExpiredCb`, and only when `epoll_wait` reported it. The model
lets the poller drain at any moment at which it is not blocked. So its runs include those of the
source, and those of a poller that drains first.

The update of the set is one critical section. The call of `onTimerInsertedAtFront` that may follow
it is a step of its own, and writes a byte into the pipe. `notifying` is the number of threads
between the two.

The clock never goes back. `addTimer` and `listExpiredCb` read it before they take the lock, so
they may use an older reading. The poller may be woken at any moment, by its deadline, by a byte or
by an event of a file descriptor.
-/

set_option autoImplicit false

namespace Sylar.Poller

open TimerManager (Manager Timer next)

/-- Where the poller is. The deadline is `none` when there was no timer. -/
inductive Pc where
  /-- Before `getNextTimer`. -/
  | compute
  /-- Between `getNextTimer` and the return of `epoll_wait`. -/
  | blocked (deadline : Option Nat)
  /-- `epoll_wait` has returned, before `listExpiredCb`. -/
  | awake
  deriving DecidableEq, Repr

structure Sys (P : Type) where
  manager : Manager P
  clock : Nat
  poller : Pc
  /-- The bytes in the pipe. -/
  pipe : Nat
  notifying : Nat

inductive Action (P : Type) where
  /-- Time passes. -/
  | tick (ms : Nat)
  | getNextTimer
  | wake
  | drain
  | listExpiredCb (now : Nat) (nowPtr : P)
  | addTimer (now ms cb : Nat) (recurring : Bool) (p : P)
  | reset (ms : Nat) (fromNow : Bool) (p : P)
  | refresh (p : P)
  | cancel (p : P)
  /-- `onTimerInsertedAtFront`. -/
  | notify
  deriving DecidableEq

section
variable {P : Type} [LinearOrder P]

/-- The system after an update of the set. The thread still has to notify when `atFront` is set. -/
def Sys.updated (s : Sys P) (manager : Manager P) (atFront : Bool) : Sys P :=
  { s with manager := manager, notifying := s.notifying + atFront.toNat }

/-- Where the poller goes with what `getNextTimer` returned. A timeout of `0` does not block. -/
def sleep (clock : Nat) : Option Nat → Pc
  | none => .blocked none
  | some 0 => .awake
  | some timeout => .blocked (some (clock + timeout))

def step (s : Sys P) : Action P → Option (Sys P)
  | .tick ms => some { s with clock := s.clock + ms }
  | .getNextTimer =>
    if s.poller = .compute then
      let (manager, timeout) := TimerManager.getNextTimer s.manager s.clock
      some { s with manager := manager, poller := sleep s.clock timeout }
    else none
  | .wake =>
    match s.poller with
    | .blocked _ => some { s with poller := .awake }
    | _ => none
  | .drain =>
    match s.poller with
    | .blocked _ => none
    | _ => some { s with pipe := 0 }
  | .listExpiredCb now nowPtr =>
    if s.poller = .awake ∧ now ≤ s.clock ∧ s.manager.heap nowPtr = none then
      some { s with
        manager := (TimerManager.listExpiredCb s.manager now nowPtr).1
        poller := .compute }
    else none
  | .addTimer now ms cb recurring p =>
    if now ≤ s.clock ∧ s.manager.heap p = none then
      let (manager, atFront) := TimerManager.addTimer s.manager now ms cb recurring p
      some (s.updated manager atFront)
    else none
  | .reset ms fromNow p =>
    match s.manager.heap p with
    | none => none
    | some t =>
      let (manager, _, atFront) := TimerManager.reset s.manager s.clock ms fromNow p t
      some (s.updated manager atFront)
  | .refresh p =>
    match s.manager.heap p with
    | none => none
    | some t => some (s.updated (TimerManager.refresh s.manager s.clock p t).1 false)
  | .cancel p =>
    match s.manager.heap p with
    | none => none
    | some t =>
      match TimerManager.cancel s.manager p t with
      -- `erase(end())`, which no reachable state executes.
      | none => none
      | some (manager, _) => some (s.updated manager false)
  | .notify =>
    match s.notifying with
    | 0 => none
    | notifying + 1 => some { s with notifying := notifying, pipe := s.pipe + 1 }

/-- A new manager, the poller at the head of its loop. -/
def init (P : Type) (clock : Nat) : Sys P :=
  ⟨⟨fun _ => none, [], false, clock⟩, clock, .compute, 0, 0⟩

/-- `now + ms` stays below `2 ^ 64`, for the sums that the step takes. -/
def NoWrap (s : Sys P) : Action P → Prop
  | .addTimer now ms _ _ _ => now + ms < 2 ^ 64
  | .reset ms _ _ => s.clock + ms < 2 ^ 64
  | .refresh p => ∀ t, s.manager.heap p = some t → s.clock + t.ms < 2 ^ 64
  | .listExpiredCb now _ => ∀ p ∈ s.manager.timers, ∀ t, s.manager.heap p = some t →
      now + t.ms < 2 ^ 64
  | _ => True

/-- The time is before the deadline. -/
def Before (time : Nat) : Option Nat → Prop
  | none => True
  | some deadline => time < deadline

/-- No wake-up is lost: while the poller is blocked beyond the time of some timer, a byte is in the
pipe or some thread is about to write one. -/
def NoLostWakeup (s : Sys P) : Prop :=
  ∀ deadline, s.poller = .blocked deadline →
    (∃ p ∈ s.manager.timers, Before (next s.manager.heap p) deadline) →
    0 < s.pipe ∨ 0 < s.notifying

/-! ### The timeout of `epoll_wait` -/

/-- What the `do` loop in `idle()` makes of `next_timeout`. The two branches of the conditional are
64-bit words, and the comparison is one of `int`. -/
def clampTimeout (nextTimeout : Nat) : Nat :=
  if nextTimeout ≠ 2 ^ 64 - 1 then
    if Lib.toInt32 nextTimeout > 3000 then 3000 else nextTimeout
  else 3000

/-- The timeouts that `idle()` passes to `epoll_wait` until a call is not interrupted. -/
def waitTimeouts : Nat → Nat → List Int
  | 0, nextTimeout => [Lib.toInt32 (clampTimeout nextTimeout)]
  | interrupts + 1, nextTimeout =>
    Lib.toInt32 (clampTimeout nextTimeout) :: waitTimeouts interrupts (clampTimeout nextTimeout)

/-- What `getNextTimer` returns, as a word. -/
def nextTimeout (m : Manager P) (now : Nat) : Nat :=
  (TimerManager.getNextTimer m now).2.getD (2 ^ 64 - 1)

/-- No timer is due before the one at `p`. -/
def Earliest (m : Manager P) (p : P) : Prop :=
  p ∈ m.timers ∧ ∀ q ∈ m.timers, next m.heap p ≤ next m.heap q

/-- The poller waits until the earliest timer is due, and three seconds at most. -/
def WaitsInTime (m : Manager P) (now : Nat) : Prop :=
  ∀ interrupts, ∀ t ∈ waitTimeouts interrupts (nextTimeout m now),
    0 ≤ t ∧ t ≤ 3000 ∧ (m.timers = [] → t = 3000) ∧
      ∀ p, Earliest m p → t = min 3000 (next m.heap p - now : Nat)

end

end Sylar.Poller
