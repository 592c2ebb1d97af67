import Sylar.Lib.Tickets
import Sylar.Proofs.Fiber.Switch

/-!
# `Sylar.Proofs.Fiber.Invariant`: what the fibers of a thread keep

A task is a fiber with a number above that of the fiber on whose stack `run()` executes. For each
task the place where it is fixes the pointers in its frames, and with the way it stands to the
thread also its state (`Task`). For the fibers of the thread and of `run()` the `Phase` lists all
that can be. `Base` has the pointers and the tasks, `Live` that no object is left without a
pointer. The callbacks are tickets: a callback waits in a fiber that has not started, and is
closed when it is called or destroyed (`Ledger`).
-/

set_option autoImplicit false

namespace Sylar.Fibers

open Scheduler (FiberState)

/-! ### Tasks -/

/-- How a fiber stands to the thread. -/
inductive Mode where
  | running
  /-- `run()` is behind the `swapIn` of the fiber. -/
  | returned
  | parked
  deriving DecidableEq, Repr

def Thread.mode (t : Thread) (f : Nat) : Mode :=
  if t.control.stack = f then .running
  else match t.control.point with
    | .back g _ => if g = f then .returned else .parked
    | _ => .parked

/-- The number of pointers in the frames of a task, and the variable `cur`, by its place. -/
def frameAt (f : Nat) : Point → Option (Nat × Option Nat)
  | .entry false => some (0, none)
  | .callback none => some (1, some f)
  | .callback (some g) => if g = f then some (2, some f) else none
  | .past => some (0, none)
  | _ => none

/-- The states of a task. Behind a `swapIn` the state may still be `EXEC`. -/
def stateAt : Mode → FiberState → Point → Bool
  | .running, .exec, _ => true
  | .parked, .init, .entry _ => true
  | .parked, .ready, .callback _ => true
  | .parked, .hold, .callback _ => true
  | .parked, .term, .past => true
  | .parked, .except, .past => true
  | .returned, .exec, .callback _ => true
  | .returned, .ready, .callback _ => true
  | .returned, .term, .past => true
  | .returned, .except, .past => true
  | _, _, _ => false

structure Task (m : Mode) (f : Nat) (x : Fiber) : Prop where
  stack : x.stack = true
  own : x.ctx.stack = f
  frame : frameAt f x.ctx.point = some (x.frames, x.cur)
  state : stateAt m x.state x.ctx.point = true

/-! ### The thread -/

/-- The fiber on whose stack `run()` executes. -/
def host (u : Bool) : Nat := cond u 1 0

/-- The number of objects. -/
def Thread.liveCount (t : Thread) : Nat :=
  ((Finset.range t.next).filter fun f => (t.heap f).isSome).card

/-- `run()` is at the point `p`, or would go on there. -/
def HostAt (u : Bool) (t : Thread) (p : Point) : Prop :=
  ∃ y, t.look (host u) = some y ∧ y.ctx.point = p

/-- The fiber can be reset, and there is nothing to call in it. -/
def Spent (x : Fiber) : Prop := restartable x.state = true ∧ (x.state = .init → x.cb = none)

/-- `cb_fiber` is spent, or `run()` has swapped it in as such, or it runs without a callback. -/
def CbOk (u : Bool) (t : Thread) (g : Nat) (x : Fiber) : Prop :=
  Spent x ∨ HostAt u t (.back g .cb) ∨ t.control.stack = g ∧ x.cb = none

/-- No pointer outside the frames points to `f`. -/
structure NoRef (t : Thread) (f : Nat) : Prop where
  handles : t.handles f = 0
  ft : t.ft ≠ some f
  cbFiber : t.cbFiber ≠ some f
  idleFiber : t.idleFiber ≠ some f
  rootFiber : t.rootFiber ≠ some f
  threadFiber : t.threadFiber ≠ some f

structure Base (u : Bool) (t : Thread) : Prop where
  fresh : ∀ f, t.next ≤ f → t.heap f = none
  hostLt : host u < t.next
  dead : ∀ f, t.heap f = none → NoRef t f
  count : t.fiberCount = t.liveCount
  this : t.tFiber = some t.control.stack
  thread : t.threadFiber = some 0
  sched : t.schedulerFiber = some (host u)
  handles : ∀ f, 0 < t.handles f → host u < f
  locals : ∀ f, t.ft = some f ∨ t.cbFiber = some f ∨ t.idleFiber = some f → host u < f
  idleNe : ∀ g, t.cbFiber = some g → t.idleFiber ≠ some g
  task : ∀ f x, host u < f → t.look f = some x → Task (t.mode f) f x

/-- No object is left without a pointer. -/
def Live (t : Thread) : Prop := ∀ f x, t.heap f = some x → 0 < t.useCount f

/-! ### Phases -/

/-- The fiber of the thread. -/
structure IsMain (x : Fiber) : Prop where
  stack : x.stack = false
  state : x.state = .exec
  cb : x.cb = none
  frames : x.frames = 0

/-- The fiber of `run()` while it executes. -/
def IsHost (u : Bool) (x : Fiber) : Prop :=
  if u then x.stack = true ∧ x.state = .exec ∧ x.frames = 1 ∧ x.cur = some 1 else IsMain x

/-- `run()` does not execute. -/
structure NoLocals (t : Thread) : Prop where
  ft : t.ft = none
  cbFiber : t.cbFiber = none
  idleFiber : t.idleFiber = none

/-- What is below the root fiber: the code that owns the scheduler waits in `call`. -/
def Outer (u : Bool) (t : Thread) : Prop :=
  if u then t.rootFiber = some 1 ∧
    ∃ m, t.heap 0 = some m ∧ IsMain m ∧ m.ctx = ⟨0, .outside⟩
  else t.rootFiber = none

/-- The root fiber when it does not run. -/
def RootIdle (t : Thread) : Prop :=
  t.rootFiber = none ∧ t.heap 1 = none ∨
    t.rootFiber = some 1 ∧ ∃ r, t.heap 1 = some r ∧ r.stack = true ∧ r.frames = 0 ∧
      r.cur = none ∧ (r.state = .init ∧ r.ctx = ⟨1, .entry true⟩ ∨
        r.state = .term ∧ r.ctx = ⟨1, .past⟩)

/-- The pointer by which `run()` holds a fiber that it has swapped in. -/
def Pinned (t : Thread) (g : Nat) : Branch → Prop
  | .fiber => t.ft = some g
  | .cb => t.ft = none ∧ t.cbFiber = some g
  | .idle => t.ft = none ∧ t.idleFiber = some g

/-- The thread is in `run()`. -/
structure AtHost (u : Bool) (t : Thread) (p : Point) : Prop where
  hostIs : ∃ y, t.heap (host u) = some y ∧ IsHost u y
  control : t.control = ⟨host u, p⟩
  idle : t.idleFiber ≠ none
  outer : Outer u t

/-- The thread is in the task `g`, which `run()` has swapped in. -/
structure Away (u : Bool) (t : Thread) (g : Nat) (b : Branch) : Prop where
  hostIs : ∃ y, t.heap (host u) = some y ∧ IsHost u y ∧ y.ctx = ⟨host u, .back g b⟩
  stack : t.control.stack = g
  lt : host u < g
  pin : Pinned t g b
  idle : t.idleFiber ≠ none
  outer : Outer u t

inductive Phase (u : Bool) (t : Thread) : Prop where
  /-- In the code that owns the scheduler. -/
  | outside (hu : u = true) (hm : ∃ m, t.heap 0 = some m ∧ IsMain m)
      (hc : t.control = ⟨0, .outside⟩) (hl : NoLocals t) (hr : RootIdle t)
  /-- Behind `call`. -/
  | called (hu : u = true)
      (hr : ∃ r, t.heap 1 = some r ∧ r.stack = true ∧ r.state = .exec ∧ r.frames = 0)
      (hc : t.control = ⟨1, .entry true⟩ ∨ t.control = ⟨1, .past⟩) (hl : NoLocals t)
      (ho : Outer u t)
  /-- At the head of the loop. -/
  | looping (h : AtHost u t .top) (hft : t.ft = none)
  /-- In a task. -/
  | away (g : Nat) (b : Branch) (h : Away u t g b)
  /-- Behind a `swapIn`. -/
  | returned (g : Nat) (b : Branch) (h : AtHost u t (.back g b)) (hlt : host u < g)
      (hp : Pinned t g b)
  /-- Behind `run()` on a worker thread. -/
  | ended (hu : u = false) (hm : ∃ m, t.heap 0 = some m ∧ IsMain m)
      (hc : t.control = ⟨0, .ended⟩) (hl : NoLocals t) (ho : Outer u t)

/-! ### Callbacks -/

/-- The callback of a fiber that has not started. -/
def Fiber.waits (x : Fiber) : Option Nat :=
  match x.ctx.point with
  | .entry _ => x.cb
  | _ => none

def Thread.pending (t : Thread) (f : Nat) : Option Nat := (t.look f).bind Fiber.waits

/-- Each callback waits in one fiber, or was called once, or was destroyed once. -/
def Ledger (t : Thread) : Prop := Lib.Tickets t.nextCb t.pending (t.entered ++ t.discarded)

/-- What every step keeps. -/
structure Inv (u : Bool) (t : Thread) : Prop where
  base : Base u t
  live : Live t
  cb : ∀ g x, t.cbFiber = some g → t.heap g = some x → CbOk u t g x
  phase : Phase u t
  led : Ledger t

section
variable {u : Bool} {t t' : Thread} {f g : Nat} {x y : Fiber}

/-! ### Counting -/

theorem liveCount_congr (hn : t'.next = t.next)
    (h : ∀ f, (t'.heap f).isSome = (t.heap f).isSome) : t'.liveCount = t.liveCount := by
  simp only [Thread.liveCount, hn, h]

/-- One more object. -/
theorem liveCount_new (hn : t'.next = t.next + 1)
    (h : t'.heap = Function.update t.heap t.next (some x)) :
    t'.liveCount = t.liveCount + 1 := by
  have hold : (Finset.range t.next).filter (fun f => (t'.heap f).isSome)
      = (Finset.range t.next).filter fun f => (t.heap f).isSome := by
    refine Finset.filter_congr ?_
    intro f hf
    rw [h, Function.update_of_ne (Finset.mem_range.mp hf).ne]
  have hnew : (t'.heap t.next).isSome = true := by rw [h, Function.update_self]; rfl
  rw [Thread.liveCount, hn, Finset.range_add_one, Finset.filter_insert, if_pos hnew, hold,
    Finset.card_insert_of_notMem (by simp), Thread.liveCount]

/-- One object less. -/
theorem liveCount_freed (hlt : f < t.next) (hx : t.heap f = some x) (hn : t'.next = t.next)
    (h : t'.heap = Function.update t.heap f none) : t'.liveCount = t.liveCount - 1 := by
  have hset : (Finset.range t.next).filter (fun k => (t'.heap k).isSome)
      = ((Finset.range t.next).filter fun k => (t.heap k).isSome).erase f := by
    ext k
    by_cases hk : k = f
    · subst hk
      simp [h]
    · simp [h, hk]
  have hmem : f ∈ (Finset.range t.next).filter fun k => (t.heap k).isSome := by
    simp [hlt, hx]
  rw [Thread.liveCount, hn, hset, Finset.card_erase_of_mem hmem, Thread.liveCount]

theorem liveCount_pos (hlt : f < t.next) (hx : t.heap f = some x) : 0 < t.liveCount := by
  refine Finset.card_pos.mpr ⟨f, ?_⟩
  simp [hlt, hx]

/-! ### Pointers -/

theorem useCount_eq_zero_iff :
    t.useCount f = 0 ↔ NoRef t f ∧ ∀ x, t.heap f = some x → x.frames = 0 := by
  simp only [Thread.useCount, Nat.add_eq_zero_iff, Bool.toNat_eq_zero, decide_eq_false_iff_not]
  constructor
  · rintro ⟨⟨⟨⟨⟨⟨h1, h2⟩, h3⟩, h4⟩, h5⟩, h6⟩, h7⟩
    refine ⟨⟨h1, h2, h3, h4, h5, h6⟩, ?_⟩
    intro x hx
    rwa [hx] at h7
  · rintro ⟨⟨h1, h2, h3, h4, h5, h6⟩, h7⟩
    refine ⟨⟨⟨⟨⟨⟨h1, h2⟩, h3⟩, h4⟩, h5⟩, h6⟩, ?_⟩
    cases hx : t.heap f with
    | none => rfl
    | some x => exact h7 x hx

theorem useCount_pos (h : ¬ NoRef t f) : 0 < t.useCount f :=
  Nat.pos_of_ne_zero fun hzero => h (useCount_eq_zero_iff.mp hzero).1

/-- `run()` holds the fiber. -/
def IsLocal (t : Thread) (f : Nat) : Prop :=
  t.ft = some f ∨ t.cbFiber = some f ∨ t.idleFiber = some f

theorem IsLocal.not_noRef (h : IsLocal t f) : ¬ NoRef t f := by
  intro hn
  rcases h with h | h | h
  · exact hn.ft h
  · exact hn.cbFiber h
  · exact hn.idleFiber h

theorem Pinned.isLocal {b : Branch} (h : Pinned t g b) : IsLocal t g := by
  cases b with
  | fiber => exact Or.inl h
  | cb => exact Or.inr (Or.inl h.2)
  | idle => exact Or.inr (Or.inr h.2)

namespace Base

theorem lt (hB : Base u t) (hx : t.heap f = some x) : f < t.next := by
  by_contra hf
  rw [hB.fresh f (by omega)] at hx
  cases hx

/-- What is pointed to is there. -/
theorem exists_of_ref (hB : Base u t) (h : ¬ NoRef t f) : ∃ x, t.heap f = some x :=
  Option.ne_none_iff_exists'.mp fun hnone => h (hB.dead f hnone)

theorem exists_of_handle (hB : Base u t) (h : 0 < t.handles f) : ∃ x, t.heap f = some x :=
  hB.exists_of_ref fun hn => by have := hn.handles; omega

end Base

/-! ### Callbacks that wait -/

theorem pending_of_ne (h : t.control.stack ≠ f) : t.pending f = (t.heap f).bind Fiber.waits := by
  rw [Thread.pending, look_of_ne h]

theorem pending_running (h : t.control.stack = f) (hx : t.heap f = some x) :
    t.pending f = Fiber.waits { x with ctx := t.control } := by
  rw [Thread.pending, look_running h hx]
  rfl

theorem pending_congr (hc : t'.control = t.control) (hf : t'.heap f = t.heap f) :
    t'.pending f = t.pending f := by
  rw [Thread.pending, Thread.pending, Thread.look, Thread.look, hc, hf]

theorem pending_congr_of_ne (h : t.control.stack ≠ f) (h' : t'.control.stack ≠ f)
    (hf : t'.heap f = t.heap f) : t'.pending f = t.pending f := by
  rw [pending_of_ne h, pending_of_ne h', hf]

theorem Fiber.waits_eq_none (h : ∀ c, x.ctx.point ≠ .entry c) : x.waits = none := by
  rw [Fiber.waits]
  split
  · rename_i c hc
    exact absurd hc (h c)
  · rfl

theorem pending_eq_none (h : t.control.stack = f) (hp : ∀ c, t.control.point ≠ .entry c) :
    t.pending f = none := by
  cases hx : t.heap f with
  | none =>
    rw [Thread.pending, look_eq_none.mpr hx]
    rfl
  | some x =>
    rw [pending_running h hx]
    exact Fiber.waits_eq_none hp

/-- The callbacks are where they were. -/
theorem Ledger.congr (h : Ledger t) (hn : t'.nextCb = t.nextCb) (he : t'.entered = t.entered)
    (hd : t'.discarded = t.discarded) (hp : ∀ f, t'.pending f = t.pending f) : Ledger t' := by
  rw [Ledger, hn, he, hd, funext hp]
  exact h

/-! ### Steps that make and free nothing -/

/-- Among the tasks only `g` has changed. -/
theorem Base.change (hB : Base u t) (hnext : t'.next = t.next)
    (hcount : t'.fiberCount = t.fiberCount)
    (hsome : ∀ f, (t'.heap f).isSome = (t.heap f).isSome)
    (hthis : t'.tFiber = some t'.control.stack) (hthread : t'.threadFiber = t.threadFiber)
    (hsched : t'.schedulerFiber = t.schedulerFiber)
    (hdead : ∀ f, t.heap f = none → NoRef t f → NoRef t' f)
    (hhandles : ∀ f, 0 < t'.handles f → host u < f)
    (hlocals : ∀ f, IsLocal t' f → IsLocal t f ∨ host u < f)
    (hne : ∀ k, t'.cbFiber = some k → t'.idleFiber ≠ some k)
    (hother : ∀ f, host u < f → f ≠ g → t'.look f = t.look f ∧ t'.mode f = t.mode f)
    (htask : host u < g → ∀ x, t'.look g = some x → Task (t'.mode g) g x) : Base u t' where
  fresh f hf := by
    have h := hsome f
    rw [hB.fresh f (hnext ▸ hf)] at h
    exact Option.isSome_eq_false_iff.mp h |> Option.isNone_iff_eq_none.mp
  hostLt := hnext ▸ hB.hostLt
  dead f hf := by
    have h := hsome f
    rw [hf] at h
    have hnone := Option.isNone_iff_eq_none.mp (Option.isSome_eq_false_iff.mp h.symm)
    exact hdead f hnone (hB.dead f hnone)
  count := by rw [hcount, hB.count, liveCount_congr hnext hsome]
  this := hthis
  thread := hthread.trans hB.thread
  sched := hsched.trans hB.sched
  handles := hhandles
  locals f hf := (hlocals f hf).elim (hB.locals f) id
  idleNe := hne
  task f x hf hx := by
    by_cases hfg : f = g
    · subst hfg
      exact htask hf x hx
    · obtain ⟨hl, hm⟩ := hother f hf hfg
      rw [hm]
      exact hB.task f x hf (hl ▸ hx)

end

end Sylar.Fibers
