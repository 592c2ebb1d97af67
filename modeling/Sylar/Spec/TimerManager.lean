import Sylar.Lib.OrderedSet
import Sylar.Lib.Run

/-!
# `Sylar.Spec.TimerManager`: timers and the timer manager

A `TimerManager` keeps the timers that are armed in the set `m_timers`, ordered by the comparator
on `(m_next, pointer)`. The key `m_next` is a field of the timer, and `refresh`, `reset` and
`listExpiredCb` change it in place.

The model has a heap of timers, and the set as the list of pointers in its order. Pointers come
from an arbitrary linear order `P`. A pointer that has been handed out is not used for another
timer. Times are 64-bit words, so sums and differences are taken modulo `2 ^ 64`. The clock is an
argument of every operation that reads it.

Each operation is one critical section of `m_mutex`. `erase(end())` in `cancel` is the only way to
fail, and ends the system in `fault`. `handed` is a history: the timers whose callbacks
`listExpiredCb` has handed out, with the callbacks.
-/

set_option autoImplicit false

namespace Sylar.TimerManager

/-- `Timer`. Callbacks are numbers, and `none` is the empty `std::function`. -/
structure Timer where
  recurring : Bool := false
  ms : Nat := 0
  next : Nat := 0
  cb : Option Nat := none
  deriving DecidableEq, Repr

structure Manager (P : Type) where
  heap : P → Option Timer
  /-- `m_timers`, from `begin()` to `end()`. -/
  timers : List P
  trickled : Bool
  previouseTime : Nat

/-- The sum of two 64-bit words. -/
def add64 (a b : Nat) : Nat := (a + b) % 2 ^ 64

/-- The difference of two 64-bit words. -/
def sub64 (a b : Nat) : Nat := (a + 2 ^ 64 - b) % 2 ^ 64

section
variable {P : Type} [LinearOrder P]

/-- `m_next` of the timer at `p`. -/
def next (heap : P → Option Timer) (p : P) : Nat :=
  match heap p with
  | some t => t.next
  | none => 0

/-- `Timer::Comparator`. A null pointer is `none`. -/
def comparator (heap : P → Option Timer) : Option P → Option P → Bool
  | none, none => false
  | none, some _ => true
  | some _, none => false
  | some p, some q =>
    if next heap p < next heap q then true
    else if next heap p > next heap q then false
    else decide (p < q)

/-- The order of the set, which holds no null pointer. -/
def less (heap : P → Option Timer) (p q : P) : Bool := comparator heap (some p) (some q)

/-! ### Operations -/

/-- The object at `p` is overwritten. -/
def Manager.store (m : Manager P) (p : P) (t : Timer) : Manager P :=
  { m with heap := Function.update m.heap p (some t) }

/-- `TimerManager::addTimer(val, lock)`. The flag says that `onTimerInsertedAtFront` follows. -/
def addTimerVal (m : Manager P) (p : P) : Manager P × Bool :=
  let (timers, it) := Lib.OrderedSet.insert (less m.heap) p m.timers
  let atFront := it == 0 && !m.trickled
  ({ m with timers := timers, trickled := m.trickled || atFront }, atFront)

/-- `TimerManager::addTimer`, with the new timer at `p`. -/
def addTimer (m : Manager P) (now ms cb : Nat) (recurring : Bool) (p : P) : Manager P × Bool :=
  addTimerVal (m.store p ⟨recurring, ms, add64 now ms, some cb⟩) p

/-- `Timer::cancel`, `none` when it executes `erase(end())`. -/
def cancel (m : Manager P) (p : P) (t : Timer) : Option (Manager P × Bool) :=
  match t.cb with
  | none => some (m, false)
  | some _ =>
    let m := m.store p { t with cb := none }
    match Lib.OrderedSet.find (less m.heap) p m.timers with
    | none => none
    | some it => some ({ m with timers := m.timers.eraseIdx it }, true)

/-- `Timer::refresh`. -/
def refresh (m : Manager P) (now : Nat) (p : P) (t : Timer) : Manager P × Bool :=
  match t.cb with
  | none => (m, false)
  | some _ =>
    match Lib.OrderedSet.find (less m.heap) p m.timers with
    | none => (m, false)
    | some it =>
      let m := { m with timers := m.timers.eraseIdx it }.store p
        { t with next := add64 now t.ms }
      ({ m with timers := (Lib.OrderedSet.insert (less m.heap) p m.timers).1 }, true)

/-- `Timer::reset`. The last flag says that `onTimerInsertedAtFront` follows. -/
def reset (m : Manager P) (now ms : Nat) (fromNow : Bool) (p : P) (t : Timer) :
    Manager P × Bool × Bool :=
  if ms = t.ms ∧ fromNow = false then (m, true, false)
  else
    match t.cb with
    | none => (m, false, false)
    | some _ =>
      match Lib.OrderedSet.find (less m.heap) p m.timers with
      | none => (m, false, false)
      | some it =>
        let start := if fromNow then now else sub64 t.next t.ms
        let m := { m with timers := m.timers.eraseIdx it }.store p
          { t with ms := ms, next := add64 start ms }
        let (m, atFront) := addTimerVal m p
        (m, true, atFront)

/-- `TimerManager::getNextTimer`, `none` for `~0ull`. -/
def getNextTimer (m : Manager P) (now : Nat) : Manager P × Option Nat :=
  ({ m with trickled := false },
    match m.timers with
    | [] => none
    | p :: _ => if now ≥ next m.heap p then some 0 else some (next m.heap p - now))

/-- `TimerManager::detectClockRollover`, without the store of the time. -/
def detectClockRollover (m : Manager P) (now : Nat) : Bool :=
  now < m.previouseTime && now < sub64 m.previouseTime (60 * 60 * 1000)

/-- The loop body of `listExpiredCb`. -/
def expireOne (now : Nat) (s : Manager P × List (P × Option Nat)) (p : P) :
    Manager P × List (P × Option Nat) :=
  match s.1.heap p with
  | none => s
  | some t =>
    if t.recurring then
      let m := s.1.store p { t with next := add64 now t.ms }
      ({ m with timers := (Lib.OrderedSet.insert (less m.heap) p m.timers).1 },
        s.2 ++ [(p, t.cb)])
    else (s.1.store p { t with cb := none }, s.2 ++ [(p, t.cb)])

/-- The end of the timers that have expired. `nowPtr` is the address of `now_timer`. -/
def expiredEnd (m : Manager P) (now : Nat) (nowPtr : P) (rollover : Bool) : Nat :=
  let heap := Function.update m.heap nowPtr (some { next := now })
  let it := if rollover then m.timers.length
    else Lib.OrderedSet.lowerBound (less heap) nowPtr m.timers
  it + ((m.timers.drop it).takeWhile fun p => next m.heap p == now).length

/-- `TimerManager::listExpiredCb`. -/
def listExpiredCb (m : Manager P) (now : Nat) (nowPtr : P) :
    Manager P × List (P × Option Nat) :=
  match m.timers with
  | [] => (m, [])
  | first :: _ =>
    let rollover := detectClockRollover m now
    let m := { m with previouseTime := now }
    if !rollover && next m.heap first > now then (m, [])
    else
      let it := expiredEnd m now nowPtr rollover
      (m.timers.take it).foldl (expireOne now) ({ m with timers := m.timers.drop it }, [])

/-! ### Steps -/

inductive Sys (P : Type) where
  | ok (m : Manager P) (handed : List (P × Option Nat))
  /-- `erase(end())` was executed. -/
  | fault

/-- A call, with the clock it reads. The callback of a new timer is not empty. -/
inductive Action (P : Type) where
  | addTimer (now ms cb : Nat) (recurring : Bool) (p : P)
  | cancel (p : P)
  | refresh (now : Nat) (p : P)
  | reset (now ms : Nat) (fromNow : Bool) (p : P)
  | getNextTimer (now : Nat)
  | listExpiredCb (now : Nat) (nowPtr : P)
  deriving DecidableEq

/-- One call. A new object needs an address that is free, and the others are called on timers that
exist. -/
def stepOk (m : Manager P) (handed : List (P × Option Nat)) : Action P → Option (Sys P)
  | .addTimer now ms cb recurring p =>
    match m.heap p with
    | none => some (.ok (addTimer m now ms cb recurring p).1 handed)
    | some _ => none
  | .cancel p =>
    match m.heap p with
    | none => none
    | some t =>
      match cancel m p t with
      | none => some .fault
      | some (m, _) => some (.ok m handed)
  | .refresh now p =>
    match m.heap p with
    | none => none
    | some t => some (.ok (refresh m now p t).1 handed)
  | .reset now ms fromNow p =>
    match m.heap p with
    | none => none
    | some t => some (.ok (reset m now ms fromNow p t).1 handed)
  | .getNextTimer now => some (.ok (getNextTimer m now).1 handed)
  | .listExpiredCb now nowPtr =>
    match m.heap nowPtr with
    | none =>
      let (m, cbs) := listExpiredCb m now nowPtr
      some (.ok m (handed ++ cbs))
    | some _ => none

def step : Sys P → Action P → Option (Sys P)
  | .fault, _ => none
  | .ok m handed, a => stepOk m handed a

/-- A new manager. -/
def init (P : Type) (now : Nat) : Sys P := .ok ⟨fun _ => none, [], false, now⟩ []

/-! ### What the set keeps -/

/-- The timer at `p` has no callback any more: it was cancelled, or it fired and is not
recurring. -/
def Manager.Dead (m : Manager P) (p : P) : Prop := ∃ t, m.heap p = some t ∧ t.cb = none

/-- The set is strictly ordered by the times that the timers have now, holds no timer twice, and
holds those with a callback. -/
structure TimersOk (m : Manager P) : Prop where
  ordered : m.timers.Pairwise fun p q =>
    next m.heap p < next m.heap q ∨ next m.heap p = next m.heap q ∧ p < q
  nodup : m.timers.Nodup
  mem_iff : ∀ p, p ∈ m.timers ↔ ∃ t, m.heap p = some t ∧ t.cb ≠ none

/-- What was handed out for the timer at `p`. -/
def handedFor (handed : List (P × Option Nat)) (p : P) : List (P × Option Nat) :=
  handed.filter fun e => e.1 = p

/-- The timers that an expiry at `now` is about: all of them when the clock has gone back by more than
an hour, and otherwise those whose time has come. -/
def due (m : Manager P) (now : Nat) (p : P) : Bool :=
  decide (now + 60 * 60 * 1000 < m.previouseTime) || decide (next m.heap p ≤ now)

/-- `listExpiredCb` takes exactly the timers that are due: it hands out their callbacks in the order
of the set, arms the recurring ones again, and leaves all other timers as they are. -/
structure ExpiresExactly (m : Manager P) (now : Nat) (r : Manager P × List (P × Option Nat)) :
    Prop where
  handed : r.2 = (m.timers.filter (due m now)).map fun p => (p, (m.heap p).bind Timer.cb)
  ordered : (r.2.map Prod.fst).Pairwise fun p q =>
    next m.heap p < next m.heap q ∨ next m.heap p = next m.heap q ∧ p < q
  oneShot : ∀ p ∈ m.timers, due m now p = true → ∀ t, m.heap p = some t → t.recurring = false →
    p ∉ r.1.timers ∧ r.1.heap p = some { t with cb := none }
  recurring : ∀ p ∈ m.timers, due m now p = true → ∀ t, m.heap p = some t → t.recurring = true →
    p ∈ r.1.timers ∧ r.1.heap p = some { t with next := add64 now t.ms }
  others : ∀ p, (p ∈ m.timers → due m now p = false) →
    r.1.heap p = m.heap p ∧ (p ∈ r.1.timers ↔ p ∈ m.timers)
  time : m.timers ≠ [] → r.1.previouseTime = now

end

end Sylar.TimerManager
