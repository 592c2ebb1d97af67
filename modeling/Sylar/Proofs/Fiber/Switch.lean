import Sylar.Spec.Fiber

/-!
# `Sylar.Proofs.Fiber.Switch`: the objects and the switches of a thread

A fiber is where the thread would go on with it: at the thread's own place for the fiber that
runs, at its saved context for the others. `Thread.look` is the object with this place as its
context. The invariants are stated about it, so most proofs do not see that contexts are saved and
loaded.

Each function that switches has one equation, for the case in which its pointers can be followed.
-/

set_option autoImplicit false

namespace Sylar.Fibers

open Scheduler (FiberState)

section
variable {t : Thread} {f g : Nat} {x y : Fiber} {p : Point}

/-- The thread with another object at `f`. -/
def Thread.set (t : Thread) (f : Nat) (x : Fiber) : Thread :=
  { t with heap := Function.update t.heap f (some x) }

/-- The thread at another place. -/
def Thread.goto (t : Thread) (c : Context) : Thread :=
  { t with control := c, tFiber := some c.stack }

theorem heap_set_self : (t.set f x).heap f = some x := Function.update_self ..

theorem heap_set_of_ne (h : g ≠ f) : (t.set f x).heap g = t.heap g := Function.update_of_ne h ..

@[simp] theorem heap_goto (c : Context) : (t.goto c).heap = t.heap := rfl

@[simp] theorem control_goto (c : Context) : (t.goto c).control = c := rfl

@[simp] theorem control_set : (t.set f x).control = t.control := rfl

theorem deref_eq (h : t.heap f = some x) : t.deref f = .ok x := by
  simp only [Thread.deref, h]

theorem modify_eq (h : t.heap f = some x) (k : Fiber → Fiber) :
    t.modify f k = t.set f (k x) := by
  simp only [Thread.modify, Thread.set, h, Option.map_some]

theorem ok_bind {α β : Type} (a : α) (k : α → Except Abort β) : (Except.ok a >>= k) = k a := rfl

theorem pointer_eq {q : Option Nat} (h : q = some f) : pointer q = .ok f := by
  rw [h]
  rfl

/-! ### Equations -/

theorem swapcontext_eq (hx : t.heap f = some x) (hy : t.heap g = some y) (hne : f ≠ g) :
    swapcontext t f g p
      = .ok { t.set f { x with ctx := ⟨t.control.stack, p⟩ } with control := y.ctx } := by
  have hg : (t.set f { x with ctx := ⟨t.control.stack, p⟩ }).heap g = some y := by
    rw [heap_set_of_ne hne.symm, hy]
  simp only [swapcontext, deref_eq hx, modify_eq hx, deref_eq hg]
  rfl

theorem swapOut_eq {h : Nat} (hs : t.schedulerFiber = some h) (hx : t.heap f = some x)
    (hy : t.heap h = some y) (hne : f ≠ h) (hown : y.ctx.stack = h) :
    swapOut t f p = .ok ((t.set f { x with ctx := ⟨t.control.stack, p⟩ }).goto y.ctx) := by
  have hswap := swapcontext_eq (t := { t with tFiber := t.schedulerFiber }) (p := p) hx hy hne
  rw [Thread.goto, hown, ← hs]
  simp only [swapOut, pointer_eq hs]
  exact hswap

theorem back_eq {m : Nat} (hm : t.threadFiber = some m) (hx : t.heap f = some x)
    (hy : t.heap m = some y) (hne : f ≠ m) (hown : y.ctx.stack = m) :
    back t f p = .ok ((t.set f { x with ctx := ⟨t.control.stack, p⟩ }).goto y.ctx) := by
  have hswap := swapcontext_eq (t := { t with tFiber := t.threadFiber }) (p := p) hx hy hne
  rw [Thread.goto, hown, ← hm]
  simp only [back, pointer_eq hm]
  exact hswap

/-- The part that `swapIn` and `call` share: `t_fiber` and the state are set, then the switch. -/
theorem enter_eq {h : Nat} (hy : t.heap h = some y) (hne : f ≠ h) (hown : x.ctx.stack = f) :
    swapcontext (({ t with tFiber := some f } : Thread).set f { x with state := .exec }) h f p
      = .ok (((t.set f { x with state := .exec }).set h
          { y with ctx := ⟨t.control.stack, p⟩ }).goto x.ctx) := by
  have hf : (Thread.set { t with tFiber := some f } f { x with state := .exec }).heap f
      = some { x with state := .exec } := heap_set_self
  have hh : (Thread.set { t with tFiber := some f } f { x with state := .exec }).heap h
      = some y := (heap_set_of_ne hne.symm).trans hy
  rw [swapcontext_eq hh hf hne.symm, Thread.goto, hown]
  rfl

theorem swapIn_eq {h : Nat} (hs : t.schedulerFiber = some h) (hx : t.heap f = some x)
    (hy : t.heap h = some y) (hne : f ≠ h) (hstate : x.state ≠ .exec) (hown : x.ctx.stack = f) :
    swapIn t f p
      = .ok (((t.set f { x with state := .exec }).set h
          { y with ctx := ⟨t.control.stack, p⟩ }).goto x.ctx) := by
  have hx' : ({ t with tFiber := some f } : Thread).heap f = some x := hx
  rw [← enter_eq hy hne hown, swapIn, deref_eq hx']
  simp only [modify_eq hx']
  refine (if_neg hstate).trans ?_
  show (pointer t.schedulerFiber >>= _) = _
  rw [pointer_eq hs]
  rfl

theorem call_eq {m : Nat} (hm : t.threadFiber = some m) (hx : t.heap f = some x)
    (hy : t.heap m = some y) (hne : f ≠ m) (hown : x.ctx.stack = f) :
    call t f
      = .ok (((t.set f { x with state := .exec }).set m
          { y with ctx := ⟨t.control.stack, .outside⟩ }).goto x.ctx) := by
  have hx' : ({ t with tFiber := some f } : Thread).heap f = some x := hx
  rw [← enter_eq hy hne hown, call, deref_eq hx']
  simp only [modify_eq hx']
  show (pointer t.threadFiber >>= _) = _
  rw [pointer_eq hm]
  rfl

/-! ### Where a fiber is -/

/-- The object of `f`, with the place where the thread is or would go on as its context. -/
def Thread.look (t : Thread) (f : Nat) : Option Fiber :=
  (t.heap f).map fun x => if t.control.stack = f then { x with ctx := t.control } else x

theorem look_of_ne (h : t.control.stack ≠ f) : t.look f = t.heap f := by
  simp only [Thread.look, if_neg h, Option.map_id']

theorem look_running (h : t.control.stack = f) (hx : t.heap f = some x) :
    t.look f = some { x with ctx := t.control } := by
  simp only [Thread.look, hx, Option.map_some, if_pos h]

theorem look_eq_none : t.look f = none ↔ t.heap f = none := by
  simp only [Thread.look, Option.map_eq_none_iff]

end

end Sylar.Fibers
