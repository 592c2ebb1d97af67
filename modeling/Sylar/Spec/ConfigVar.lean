import Sylar.Lib.Run

/-!
# `Sylar.Spec.ConfigVar`: the value of a configuration variable and its listeners

`setValue` has two critical sections. Under the read lock it compares the new value with `m_val`, and
when they differ it calls each listener with both. Under the write lock it then assigns `m_val`. The
read lock is shared, so several calls of `setValue` can be between their two sections.

`n` is the number of threads. `notes` is the history of the calls of listeners and `changes` that of
the assignments, the newest first. The calls of one section are one step: they happen under the lock,
and what they write is read only through the history.
-/

set_option autoImplicit false

namespace Sylar.ConfigVar

open Lib

/-- Where a thread is: at no call, or in `setValue` between its two sections. -/
inductive Pc (T : Type) where
  | idle
  | committing (old new : T)
  deriving DecidableEq, Repr

/-- One call of a listener. -/
structure Note (T : Type) where
  listener : Nat
  oldValue : T
  newValue : T
  deriving DecidableEq, Repr

/-- One assignment of `m_val`: what it had, and the two values the listeners were called with. -/
structure Change (T : Type) where
  stored : T
  oldValue : T
  newValue : T
  deriving DecidableEq, Repr

structure Listener where
  key : Nat
  /-- It was registered before the first change. -/
  early : Bool
  deriving DecidableEq, Repr

structure Var (T : Type) (n : Nat) where
  val : T
  cbs : List Listener
  /-- `s_func_id`. All variables of one type share it, so a key is only known to be new. -/
  lastKey : Nat
  /-- Some `setValue` has found a new value. -/
  started : Bool
  notes : List (Note T)
  changes : List (Change T)
  pc : Fin n → Pc T

inductive Action (T : Type) (n : Nat) where
  /-- `setValue(v)` up to the release of the read lock. -/
  | setValue (thread : Fin n) (v : T)
  /-- The rest of `setValue`, under the write lock. -/
  | commit (thread : Fin n)
  | addListener (key : Nat)
  | delListener (key : Nat)
  | clearListeners
  deriving DecidableEq, Repr

variable {T : Type} [DecidableEq T] {n : Nat}

/-- The loop that calls the listeners. -/
def notify (x : Var T n) (v : T) : List (Note T) :=
  (x.cbs.map fun l => ⟨l.key, x.val, v⟩).reverse ++ x.notes

/-- One step, `none` when it is not enabled. -/
def step (x : Var T n) : Action T n → Option (Var T n)
  | .setValue t v =>
    match x.pc t with
    | .committing _ _ => none
    | .idle =>
      if v = x.val then some x
      else some
        { x with
          started := true
          notes := notify x v
          pc := Function.update x.pc t (.committing x.val v) }
  | .commit t =>
    match x.pc t with
    | .idle => none
    | .committing old v =>
      some
        { x with
          val := v
          changes := ⟨x.val, old, v⟩ :: x.changes
          pc := Function.update x.pc t .idle }
  | .addListener key =>
    if x.lastKey < key then
      some { x with cbs := x.cbs ++ [⟨key, !x.started⟩], lastKey := key }
    else none
  | .delListener key => some { x with cbs := x.cbs.filter fun l => l.key != key }
  | .clearListeners => some { x with cbs := [] }

/-- A new variable. -/
def new (n : Nat) (defaultValue : T) : Var T n :=
  ⟨defaultValue, [], 0, false, [], [], fun _ => .idle⟩

/-- The `new_value` of the latest call of a listener. -/
def lastNew (notes : List (Note T)) (key : Nat) : Option T :=
  (notes.find? fun c => c.listener == key).map Note.newValue

/-- The listeners agree with the stored value: while no `setValue` is in progress and after the first
change, the latest call of each registered listener that was there before the first change was with
the stored value. And the old value of each change is what was stored just before it. -/
structure ListenersAgree (x : Var T n) : Prop where
  latest : (∀ t, x.pc t = .idle) → x.started = true →
    ∀ l ∈ x.cbs, l.early = true → lastNew x.notes l.key = some x.val
  old : ∀ c ∈ x.changes, c.oldValue = c.stored

end Sylar.ConfigVar
