import Sylar.Spec.TimerManager

/-!
# `Sylar.Spec.IdealTimers`: what a timer manager is for

A timer counts from a moment on. When its period has passed, its callback is handed out at the next
expiry, and a recurring timer counts from that expiry on. `Ideal` is a table of such timers. It has
no set, no order, no words of 64 bits and no detection of a clock that goes back. For each timer it
keeps a log of the times at which the callback was handed out, and of what the timer counted from.

`Timed` is the manager with a log of the same kind.
-/

set_option autoImplicit false

namespace Sylar.TimerManager

/-- The clock when the call is made. `cancel` does not read it. -/
def Action.time {P : Type} (clock : Nat) : Action P → Nat
  | .addTimer now _ _ _ _ => now
  | .cancel _ => clock
  | .refresh now _ => now
  | .reset now _ _ _ => now
  | .getNextTimer now => now
  | .listExpiredCb now _ => now

/-! ### The manager with a log -/

structure Timed (P : Type) where
  manager : Manager P
  /-- The clock at the last call. -/
  clock : Nat
  /-- When the callback of a timer was handed out. -/
  log : P → List (Nat × Option Nat)

section
variable {P : Type} [LinearOrder P]

def Timed.step (s : Timed P) (a : Action P) : Option (Timed P) :=
  match stepOk s.manager [] a with
  | some (.ok m handed) =>
    let now := a.time s.clock
    some ⟨m, now, fun p => s.log p ++ (handedFor handed p).map fun e => (now, e.2)⟩
  | _ => none

/-- A new manager. -/
def Timed.init (P : Type) (now : Nat) : Timed P :=
  ⟨⟨fun _ => none, [], false, now⟩, now, fun _ => []⟩

end

/-! ### The table -/

/-- A timer that counts. -/
structure Entry where
  started : Nat
  ms : Nat
  recurring : Bool
  cb : Nat
  deriving DecidableEq, Repr

/-- A callback that was handed out. -/
structure Shot where
  time : Nat
  started : Nat
  ms : Nat
  cb : Nat
  deriving DecidableEq, Repr

structure Ideal (P : Type) where
  armed : P → Option Entry
  log : P → List Shot

section
variable {P : Type} [DecidableEq P]

/-- The period has passed. -/
def Entry.isDue (now : Nat) (e : Entry) : Bool := decide (e.started + e.ms ≤ now)

/-- The timer after an expiry. -/
def Entry.expired (now : Nat) (e : Entry) : Option Entry :=
  if !e.isDue now then some e
  else if e.recurring then some { e with started := now }
  else none

/-- What an expiry adds to the log of the timer. -/
def Entry.shots (now : Nat) (e : Entry) : List Shot :=
  if e.isDue now then [⟨now, e.started, e.ms, e.cb⟩] else []

def Ideal.set (i : Ideal P) (p : P) (e : Option Entry) : Ideal P :=
  { i with armed := Function.update i.armed p e }

def Ideal.step (i : Ideal P) : Action P → Ideal P
  | .addTimer now ms cb recurring p => i.set p (some ⟨now, ms, recurring, cb⟩)
  | .cancel p => i.set p none
  | .refresh now p => i.set p ((i.armed p).map fun e => { e with started := now })
  | .reset now ms fromNow p => i.set p ((i.armed p).map fun e =>
      { e with started := if fromNow then now else e.started, ms := ms })
  | .getNextTimer _ => i
  | .listExpiredCb now _ =>
    { armed := fun p => (i.armed p).bind (Entry.expired now)
      log := fun p => i.log p ++ (i.armed p).elim [] (Entry.shots now) }

def Ideal.init (P : Type) : Ideal P := ⟨fun _ => none, fun _ => []⟩

/-- The table after a list of calls. -/
def Ideal.run (as : List (Action P)) : Ideal P := as.foldl Ideal.step (Ideal.init P)

end

end Sylar.TimerManager
