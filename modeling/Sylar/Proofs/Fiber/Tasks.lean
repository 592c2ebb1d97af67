import Sylar.Proofs.Fiber.Steps

/-!
# `Sylar.Proofs.Fiber.Tasks`: what a task can do

A task that runs yields, ends, or goes on behind a switch. None of the assertions on the way
fails, and each of these keeps the invariant. The pointers that anybody makes and drops are here
too.
-/

set_option autoImplicit false

namespace Sylar.Fibers

open Scheduler (FiberState)

section
variable {u : Bool} {t t' : Thread} {f g : Nat} {x : Fiber} {b : Branch} {c : Option Nat}

/-- A function of the source returns, keeps the invariant, and has not resumed a fiber behind its
last switch. -/
def Safe (u : Bool) (r : Except Abort Thread) : Prop :=
  ∃ t', r = .ok t' ∧ Inv u t' ∧ t'.control.point ≠ .past

/-! ### The phase by the point -/

theorem Inv.exists_task (hI : Inv u t) (hA : Away u t g b) : ∃ x, t.heap g = some x :=
  hI.base.exists_of_ref hA.pin.isLocal.not_noRef

/-- The point of a task that runs is one of a task. -/
theorem Inv.frame_ne_none (hI : Inv u t) (hA : Away u t g b) :
    frameAt g t.control.point ≠ none := by
  obtain ⟨x, hx⟩ := hI.exists_task hA
  rw [(hI.base.running hA hx).2.1]
  exact Option.some_ne_none _

theorem Inv.at_callback (hI : Inv u t) (hp : t.control.point = .callback c) :
    ∃ g b, Away u t g b := by
  cases hI.phase with
  | away g b h => exact ⟨g, b, h⟩
  | outside _ _ hc => rw [hc] at hp; cases hp
  | called _ _ hc => rcases hc with hc | hc <;> (rw [hc] at hp; cases hp)
  | looping h => rw [h.control] at hp; cases hp
  | returned _ _ h => rw [h.control] at hp; cases hp
  | ended _ _ hc => rw [hc] at hp; cases hp

theorem Inv.at_top (hI : Inv u t) (hp : t.control.point = .top) :
    AtHost u t .top ∧ t.ft = none := by
  cases hI.phase with
  | away g b h => exact absurd (by rw [hp]; rfl) (hI.frame_ne_none h)
  | outside _ _ hc => rw [hc] at hp; cases hp
  | called _ _ hc => rcases hc with hc | hc <;> (rw [hc] at hp; cases hp)
  | looping h hft => exact ⟨h, hft⟩
  | returned _ _ h => rw [h.control] at hp; cases hp
  | ended _ _ hc => rw [hc] at hp; cases hp

theorem Inv.at_back (hI : Inv u t) (hp : t.control.point = .back f b) :
    AtHost u t (.back f b) ∧ host u < f ∧ Pinned t f b := by
  cases hI.phase with
  | away g b h => exact absurd (by rw [hp]; rfl) (hI.frame_ne_none h)
  | outside _ _ hc => rw [hc] at hp; cases hp
  | called _ _ hc => rcases hc with hc | hc <;> (rw [hc] at hp; cases hp)
  | looping h => rw [h.control] at hp; cases hp
  | returned _ _ h hlt hpin =>
    rw [h.control] at hp
    cases hp
    exact ⟨h, hlt, hpin⟩
  | ended _ _ hc => rw [hc] at hp; cases hp

/-! ### Yielding -/

theorem getThis_eq (h : t.tFiber = some f) : getThis t = t := by
  simp only [getThis, h]

theorem set_set {x' : Fiber} : (t.set f x).set f x' = t.set f x' := by
  simp only [Thread.set, Function.update_idem]

/-- A task with a callback is `cb_fiber` only when `run()` has swapped it in as such. -/
theorem Inv.cb_branch (hI : Inv u t) (hA : Away u t g b) (hx : t.heap g = some x)
    (hcb : x.cb.isSome = true) (hk : t.cbFiber = some g) : b = .cb := by
  rcases hI.cb g x hk hx with h | h | h
  · rw [Spent, (hI.base.running hA hx).2.2] at h
    cases h.1
  · cases hA.hostAt h
    rfl
  · rw [h.2] at hcb
    cases hcb

/-- The switch out of a task whose object has been changed to `x`. -/
theorem Away.swapOut_eq (hA : Away u t g b) (hB : Base u t) (p : Point) :
    swapOut (t.set g x) g p
      = .ok ((t.set g { x with ctx := ⟨g, p⟩ }).goto ⟨host u, .back g b⟩) := by
  obtain ⟨y, hy, -, hyc⟩ := hA.hostIs
  have hsched : (t.set g x).schedulerFiber = some (host u) := hB.sched
  have hy' : (t.set g x).heap (host u) = some y := (heap_set_of_ne hA.lt.ne).trans hy
  rw [Fibers.swapOut_eq hsched heap_set_self hy' hA.lt.ne' (by rw [hyc]), set_set, control_set,
    hA.stack, hyc]

/-- The object of a task in its callback. -/
theorem Inv.in_callback (hI : Inv u t) (hp : t.control.point = .callback none) :
    ∃ g b x, Away u t g b ∧ t.heap g = some x ∧ t.tFiber = some g ∧ x.stack = true ∧
      x.state = .exec ∧ x.frames = 1 ∧ x.cur = some g := by
  obtain ⟨g, b, hA⟩ := hI.at_callback hp
  obtain ⟨x, hx⟩ := hI.exists_task hA
  obtain ⟨hxs, hxf, hxe⟩ := hI.base.running hA hx
  rw [hp] at hxf
  simp only [frameAt, Option.some.injEq, Prod.mk.injEq] at hxf
  exact ⟨g, b, x, hA, hx, by rw [hI.base.this, hA.stack], hxs, hxe, hxf.1.symm, hxf.2.symm⟩

theorem Away.callbackIs (hA : Away u t g b) (hx : t.heap g = some x) : t.callbackIs = x.cb := by
  rw [Thread.callbackIs, hA.stack, hx]
  rfl

theorem Inv.yieldTo (hI : Inv u t) (hp : t.control.point = .callback none)
    (hcb : t.callbackIs.isSome = true) (ready : Bool) :
    Safe u (yieldTo t ready) := by
  obtain ⟨g, b, x, hA, hx, hthis, hxs, hxe, hframes, hcur⟩ := hI.in_callback hp
  rw [hA.callbackIs hx] at hcb
  -- The object when the task has saved its context.
  let x' : Fiber := { x with
    frames := 2, state := cond ready .ready .exec, ctx := ⟨g, .callback (some g)⟩ }
  refine ⟨(t.set g x').goto ⟨host u, .back g b⟩, ?_, ?_, by rintro ⟨⟩⟩
  · simp only [Fibers.yieldTo, getThis_eq hthis, pointer_eq hthis, ok_bind, deref_eq hx,
      modify_eq hx]
    refine (if_neg (not_not.mpr hxe)).trans ?_
    cases ready with
    | true =>
      rw [if_pos rfl, modify_eq heap_set_self, set_set, hA.swapOut_eq hI.base, hframes]
      rfl
    | false =>
      rw [if_neg Bool.false_ne_true, hA.swapOut_eq hI.base, hframes, hxe]
      rfl
  · refine hI.leave hA hx hp hxs rfl ?_ ?_ fun hk hb => absurd (hI.cb_branch hA hx hcb hk) hb
    · simp only [x', frameAt, if_true, hcur]
    · cases ready <;> rfl

theorem Inv.idleSwapOut (hI : Inv u t) (hp : t.control.point = .callback none)
    (hcb : t.callbackIs.isSome = true) : Safe u (idleSwapOut t) := by
  obtain ⟨g, b, x, hA, hx, hthis, hxs, hxe, hframes, hcur⟩ := hI.in_callback hp
  rw [hA.callbackIs hx] at hcb
  have hset : t.set g x = t := by
    rw [Thread.set, ← hx, Function.update_eq_self]
  refine ⟨(t.set g { x with ctx := ⟨g, .callback none⟩ }).goto ⟨host u, .back g b⟩, ?_, ?_,
    by rintro ⟨⟩⟩
  · simp only [Fibers.idleSwapOut, getThis_eq hthis, pointer_eq hthis, ok_bind]
    rw [← hA.swapOut_eq hI.base, hset]
  · refine hI.leave hA hx hp hxs rfl ?_ ?_ fun hk hb => absurd (hI.cb_branch hA hx hcb hk) hb
    · simp only [frameAt, hframes, hcur]
    · rw [hxe]
      rfl

/-! ### Ending -/

/-- A pointer in a frame goes, and the object is held by another one. -/
theorem dropFrame_eq (hx : t.heap g = some x) (hr : ¬ NoRef t g) :
    dropFrame t g = .ok (t.set g { x with frames := x.frames - 1 }) := by
  have hpos : (t.set g { x with frames := x.frames - 1 }).useCount g ≠ 0 := by
    intro hzero
    have hn := (useCount_eq_zero_iff.mp hzero).1
    exact hr ⟨hn.1, hn.2, hn.3, hn.4, hn.5, hn.6⟩
  rw [dropFrame, modify_eq hx, release, deref_eq heap_set_self]
  exact if_neg hpos

theorem Inv.finish (hI : Inv u t) (hp : t.control.point = .callback none) (how : Ending) :
    Safe u (finish t false how) := by
  obtain ⟨g, b, x, hA, hx, hthis, hxs, hxe, hframes, hcur⟩ := hI.in_callback hp
  let x₁ : Fiber := how.apply x
  let x₂ : Fiber := { x₁ with cur := none }
  let x₃ : Fiber := { x₂ with frames := 0 }
  have hr : ¬ NoRef (t.set g x₂) g :=
    fun hn => hA.pin.isLocal.not_noRef ⟨hn.1, hn.2, hn.3, hn.4, hn.5, hn.6⟩
  have hdrop : dropFrame (t.set g x₂) g = .ok (t.set g x₃) := by
    rw [dropFrame_eq heap_set_self hr, set_set]
    cases how <;> simp only [x₃, x₂, x₁, Ending.apply, hframes]
  refine ⟨(t.set g { x₃ with ctx := ⟨g, .past⟩ }).goto ⟨host u, .back g b⟩, ?_, ?_, by rintro ⟨⟩⟩
  · simp only [Fibers.finish, hA.stack, deref_eq hx, ok_bind, pointer_eq hcur, modify_eq hx,
      control_set, modify_eq heap_set_self, set_set]
    rw [show dropFrame (t.set g { how.apply x with cur := none }) g = .ok (t.set g x₃) from hdrop]
    exact hA.swapOut_eq hI.base .past
  · have hspent : Spent x₃ := by
      cases how
      · exact ⟨rfl, fun h => by cases h⟩
      · exact ⟨rfl, fun h => by cases h⟩
    refine hI.leave hA hx hp ?_ rfl ?_ ?_ fun _ _ => hspent
    · cases how <;> exact hxs
    · cases how <;> rfl
    · cases how <;> rfl

/-! ### Behind a switch -/

/-- The callback of the fiber whose stack the thread is on is called. -/
theorem Ledger.enter {c : Bool} (hC : Ledger t) (hs : t.control.stack = g) (hx : t.heap g = some x)
    (hp : t.control.point = .entry c) (hn : t'.nextCb = t.nextCb)
    (he : t'.entered = t.entered ++ x.cb.toList) (hd : t'.discarded = t.discarded)
    (hne : ∀ k, k ≠ g → t'.pending k = t.pending k) (hg : t'.pending g = none) : Ledger t' := by
  have hw : t.pending g = x.cb := by
    rw [pending_running hs hx, Fiber.waits]
    simp only [hp]
  have hpend : t'.pending = Function.update t.pending g none := by
    funext k
    by_cases hk : k = g
    · subst hk
      rw [Function.update_self, hg]
    · rw [Function.update_of_ne hk, hne k hk]
  rw [Ledger, hn, he, hd, hpend]
  refine (Lib.Tickets.close hC g).perm ?_
  rw [hw, List.append_assoc, List.append_assoc]
  exact List.perm_append_comm.append_left t.entered

theorem Inv.proceed_entry (hI : Inv u t) (hA : Away u t g b)
    (hp : t.control.point = .entry false) : Safe u (proceed t) := by
  obtain ⟨x, hx⟩ := hI.exists_task hA
  obtain ⟨hxs, hxf, hxe⟩ := hI.base.running hA hx
  rw [hp] at hxf
  simp only [frameAt, Option.some.injEq, Prod.mk.injEq] at hxf
  have hthis : t.tFiber = some g := by rw [hI.base.this, hA.stack]
  simp only [proceed, hp, mainFunc, getThis_eq hthis, pointer_eq hthis, ok_bind, deref_eq hx,
    modify_eq hx, control_set, hA.stack, modify_eq heap_set_self, set_set, Bool.false_eq_true,
    if_false]
  refine ⟨_, rfl, ?_, by rintro ⟨⟩⟩
  refine hI.stay hA hx rfl rfl rfl rfl rfl rfl ?_ rfl rfl rfl rfl rfl rfl rfl rfl rfl ?_ ?_
  · exact fun f => ⟨fun h => ⟨h.1, h.2, h.3, h.4, h.5, h.6⟩,
      fun h => ⟨h.1, h.2, h.3, h.4, h.5, h.6⟩⟩
  · simp only [frameAt, ← hxf.1]
  · refine hI.led.enter hA.stack hx hp rfl rfl rfl ?_ ?_
    · intro k hk
      exact pending_congr_of_ne (by rw [hA.stack]; exact Ne.symm hk) (Ne.symm hk)
        (heap_set_of_ne hk)
    · exact pending_eq_none rfl (by rintro _ ⟨⟩)

theorem Inv.proceed_callback {c : Nat} (hI : Inv u t)
    (hp : t.control.point = .callback (some c)) : Safe u (proceed t) := by
  obtain ⟨g, b, hA⟩ := hI.at_callback hp
  obtain ⟨x, hx⟩ := hI.exists_task hA
  obtain ⟨hxs, hxf, hxe⟩ := hI.base.running hA hx
  -- The frame is one of `g`, so the pointer in it is one to `g`.
  obtain rfl : c = g := by
    by_contra hne
    rw [hp] at hxf
    simp only [frameAt, if_neg hne] at hxf
    cases hxf
  rw [hp] at hxf
  simp only [frameAt, if_true, Option.some.injEq, Prod.mk.injEq] at hxf
  have hr : ¬ NoRef { t with control := ⟨t.control.stack, .callback none⟩ } c :=
    fun hn => hA.pin.isLocal.not_noRef ⟨hn.1, hn.2, hn.3, hn.4, hn.5, hn.6⟩
  simp only [proceed, hp]
  refine ⟨_, dropFrame_eq (t := { t with control := _ }) hx hr, ?_, by rintro ⟨⟩⟩
  refine hI.stay hA hx rfl (by rw [hA.stack]; rfl) rfl rfl rfl rfl ?_ rfl rfl rfl rfl rfl rfl rfl
    rfl rfl ?_ ?_
  · exact fun f => ⟨fun h => ⟨h.1, h.2, h.3, h.4, h.5, h.6⟩,
      fun h => ⟨h.1, h.2, h.3, h.4, h.5, h.6⟩⟩
  · simp only [frameAt, ← hxf.1, hxf.2]
  · refine hI.led.congr rfl rfl rfl ?_
    intro k
    by_cases hk : k = c
    · subst hk
      rw [pending_eq_none hA.stack (by rw [hp]; rintro _ ⟨⟩)]
      exact pending_eq_none hA.stack (by rintro _ ⟨⟩)
    · have hs : t.control.stack ≠ k := by rw [hA.stack]; exact Ne.symm hk
      exact pending_congr_of_ne hs hs (heap_set_of_ne hk)

/-! ### Pointers that anybody holds -/

theorem heap_newFiber_of_ne {c : Bool} (h : f ≠ t.next) : (newFiber t c).heap f = t.heap f :=
  Function.update_of_ne h ..

/-- A task that the thread is in, or behind the `swapIn` of, is held by `run()`. -/
theorem Inv.parked_or_isLocal (hI : Inv u t) (hlt : host u < f) :
    t.mode f = .parked ∨ IsLocal t f := by
  have hparked : ∀ {c}, t.control = c → c.stack ≠ f → (∀ b, c.point ≠ .back f b) →
      t.mode f = .parked := fun hc hs hb => mode_parked (hc ▸ hs) (hc ▸ hb)
  cases hI.phase with
  | outside hu hm hc =>
    exact Or.inl (hparked hc (Nat.zero_lt_of_lt hlt).ne (by intro b h; cases h))
  | called hu hr hc =>
    subst hu
    rcases hc with hc | hc
    · exact Or.inl (hparked hc hlt.ne (by intro b h; cases h))
    · exact Or.inl (hparked hc hlt.ne (by intro b h; cases h))
  | looping h => exact Or.inl (hparked h.control hlt.ne (by intro b h; cases h))
  | away g b h =>
    by_cases hfg : f = g
    · exact Or.inr (hfg ▸ h.pin.isLocal)
    · obtain ⟨x, hx⟩ := hI.exists_task h
      have hframe := (hI.base.running h hx).2.1
      exact Or.inl (mode_parked (h.stack ▸ Ne.symm hfg) fun b' => ne_back_of_frameAt hframe f b')
  | returned g b h hg hp =>
    by_cases hfg : f = g
    · exact Or.inr (hfg ▸ hp.isLocal)
    · refine Or.inl (hparked h.control hlt.ne ?_)
      intro b' h
      cases h
      exact hfg rfl
  | ended hu hm hc =>
    exact Or.inl (hparked hc (Nat.zero_lt_of_lt hlt).ne (by intro b h; cases h))

theorem Inv.mode_next (hI : Inv u t) : t.mode t.next = .parked :=
  (hI.parked_or_isLocal hI.base.hostLt).resolve_right fun h =>
    h.not_noRef (hI.base.dead _ (hI.base.fresh _ le_rfl))

/-- A fiber is made. There is no pointer to it yet. -/
theorem Base.newFiber (hB : Base u t) (hmode : t.mode t.next = .parked) :
    Base u (newFiber t false) := by
  have hself : (Fibers.newFiber t false).heap t.next = some ⟨t.fiberId + 1, .init, true,
      some t.nextCb, ⟨t.next, .entry false⟩, none, 0⟩ := Function.update_self ..
  have hlook : ∀ k, k ≠ t.next → (Fibers.newFiber t false).look k = t.look k := by
    intro k hk
    rw [Thread.look, heap_newFiber_of_ne hk]
    rfl
  refine ⟨?_, ?_, ?_, ?_, hB.this, hB.thread, hB.sched, hB.handles, hB.locals, hB.idleNe, ?_⟩
  · intro k hk
    have hk' : t.next + 1 ≤ k := hk
    rw [heap_newFiber_of_ne (by omega)]
    exact hB.fresh k (by omega)
  · exact hB.hostLt.trans (Nat.lt_succ_self _)
  · intro k hk
    have hkn : k ≠ t.next := by
      rintro rfl
      rw [hself] at hk
      cases hk
    rw [heap_newFiber_of_ne hkn] at hk
    have h := hB.dead k hk
    exact ⟨h.1, h.2, h.3, h.4, h.5, h.6⟩
  · rw [liveCount_new (t := t) rfl rfl, ← hB.count]
    rfl
  · intro k z hk hz
    by_cases hkn : k = t.next
    · subst hkn
      have hs : t.control.stack ≠ t.next := by
        intro h
        rw [mode_running h] at hmode
        cases hmode
      rw [look_of_ne (t := Fibers.newFiber t false) hs, hself] at hz
      cases hz
      have hmode' : (Fibers.newFiber t false).mode t.next = .parked := hmode
      rw [hmode']
      exact ⟨rfl, rfl, rfl, rfl⟩
    · rw [hlook k hkn] at hz
      exact hB.task k z hk hz

/-- Only pointers change, and no task changes. -/
theorem Base.repoint (hB : Base u t) (hheap : t'.heap = t.heap) (hcontrol : t'.control = t.control)
    (hnext : t'.next = t.next) (hcount : t'.fiberCount = t.fiberCount)
    (hthis : t'.tFiber = t.tFiber) (hthread : t'.threadFiber = t.threadFiber)
    (hsched : t'.schedulerFiber = t.schedulerFiber)
    (hdead : ∀ f, t.heap f = none → NoRef t f → NoRef t' f)
    (hhandles : ∀ f, 0 < t'.handles f → host u < f)
    (hlocals : ∀ f, IsLocal t' f → IsLocal t f ∨ host u < f)
    (hne : ∀ k, t'.cbFiber = some k → t'.idleFiber ≠ some k) : Base u t' := by
  have hlook : t'.look = t.look := by
    funext f
    rw [Thread.look, Thread.look, hheap, hcontrol]
  have hmode : ∀ f, t'.mode f = t.mode f := by
    intro f
    rw [Thread.mode, Thread.mode, hcontrol]
  refine ⟨?_, hnext ▸ hB.hostLt, ?_, ?_, ?_, hthread.trans hB.thread, hsched.trans hB.sched,
    hhandles, fun f hf => (hlocals f hf).elim (hB.locals f) id, hne, ?_⟩
  · intro f hf
    rw [hheap]
    exact hB.fresh f (hnext ▸ hf)
  · intro f hf
    rw [hheap] at hf
    exact hdead f hf (hB.dead f hf)
  · rw [hcount, hB.count, liveCount_congr hnext fun f => by rw [hheap]]
  · rw [hthis, hB.this, hcontrol]
  · intro f x hf hx
    rw [hmode]
    exact hB.task f x hf (hlook ▸ hx)

/-- A new fiber brings a callback. -/
theorem Ledger.newFiber {c : Bool} (hC : Ledger t) (hnone : t.heap t.next = none)
    (hmode : t.mode t.next = .parked) : Ledger (newFiber t c) := by
  have hs := stack_ne_of_parked hmode
  have hpend : (Fibers.newFiber t c).pending
      = Function.update t.pending t.next (some t.nextCb) := by
    funext k
    by_cases hk : k = t.next
    · subst hk
      rw [Function.update_self, pending_of_ne (t := Fibers.newFiber t c) hs]
      show Option.bind (Function.update t.heap t.next _ t.next) _ = _
      rw [Function.update_self]
      rfl
    · rw [Function.update_of_ne hk]
      exact pending_congr rfl (heap_newFiber_of_ne hk)
  rw [Ledger, hpend]
  refine Lib.Tickets.issue hC ?_
  rw [pending_of_ne hs, hnone]
  rfl

/-- A new fiber, with a pointer that is put somewhere. -/
theorem Inv.spawn (hI : Inv u t) :
    Inv u { newFiber t false with handles := Function.update t.handles t.next 1 } := by
  have hB := hI.base
  have hnone : t.heap t.next = none := hB.fresh _ le_rfl
  have hB₁ := hB.newFiber hI.mode_next
  have hK : Kept t.next t { newFiber t false with handles := Function.update t.handles t.next 1 } :=
    ⟨fun k hk => heap_newFiber_of_ne hk, rfl, rfl, rfl, rfl, rfl⟩
  refine hI.kept hK hB.hostLt (fun h => absurd h (hB.dead _ hnone).cbFiber) ?_ ?_
    (hI.led.newFiber hnone hI.mode_next)
  · refine hB₁.repoint rfl rfl rfl rfl rfl rfl rfl ?_ ?_ (fun f hf => Or.inl hf) hB.idleNe
    · intro f hf hn
      have hfn : f ≠ t.next := by
        rintro rfl
        rw [show (newFiber t false).heap t.next = some _ from Function.update_self ..] at hf
        cases hf
      refine ⟨?_, hn.2, hn.3, hn.4, hn.5, hn.6⟩
      exact (Function.update_of_ne hfn ..).trans hn.1
    · intro f hf
      by_cases hfn : f = t.next
      · exact hfn ▸ hB.hostLt
      · refine hB.handles f ?_
        rwa [show (_ : Thread).handles f = t.handles f from Function.update_of_ne hfn ..] at hf
  · intro f z hz
    by_cases hfn : f = t.next
    · subst hfn
      refine useCount_pos fun hn => ?_
      have h := hn.handles
      rw [show (_ : Thread).handles t.next = 1 from Function.update_self ..] at h
      cases h
    · have hz' : t.heap f = some z := (heap_newFiber_of_ne hfn).symm.trans hz
      refine useCount_congr ?_ (heap_newFiber_of_ne hfn) (hI.live f z hz')
      exact fun h => ⟨(Function.update_of_ne hfn ..).symm.trans h.1, h.2, h.3, h.4, h.5, h.6⟩

/-- One more pointer to a task that is there. -/
theorem Inv.retain (hI : Inv u t) (hlt : host u < f) (hx : t.heap f = some x) :
    Inv u { t with handles := Function.update t.handles f (t.handles f + 1) } := by
  have hB := hI.base
  have hne : ∀ {k}, k ≠ f → Function.update t.handles f (t.handles f + 1) k = t.handles k :=
    fun hk => Function.update_of_ne hk ..
  refine hI.kept (f := f) ⟨fun _ _ => rfl, rfl, rfl, rfl, rfl, rfl⟩ hlt (fun _ => rfl) ?_ ?_ hI.led
  · refine hB.repoint rfl rfl rfl rfl rfl rfl rfl ?_ ?_ (fun k hk => Or.inl hk) hB.idleNe
    · intro k hk hn
      have hkf : k ≠ f := by
        rintro rfl
        rw [hx] at hk
        cases hk
      exact ⟨(hne hkf).trans hn.1, hn.2, hn.3, hn.4, hn.5, hn.6⟩
    · intro k hk
      by_cases hkf : k = f
      · exact hkf ▸ hlt
      · exact hB.handles k (by rwa [← hne hkf])
  · intro k z hz
    refine useCount_congr (t := t) ?_ rfl (hI.live k z hz)
    intro h
    refine ⟨?_, h.2, h.3, h.4, h.5, h.6⟩
    have hzero := h.1
    by_cases hkf : k = f
    · subst hkf
      rw [show (_ : Thread).handles k = t.handles k + 1 from Function.update_self ..] at hzero
      omega
    · exact (hne hkf).symm.trans hzero

/-- One pointer less to a task. -/
theorem Inv.drop (hI : Inv u t) (hpos : 0 < t.handles f) :
    ∃ t', release { t with handles := Function.update t.handles f (t.handles f - 1) } f = .ok t' ∧
      Inv u t' ∧ t'.control = t.control := by
  have hB := hI.base
  have hlt := hB.handles f hpos
  obtain ⟨x, hx⟩ := hB.exists_of_handle hpos
  have hne : ∀ {k}, k ≠ f → Function.update t.handles f (t.handles f - 1) k = t.handles k :=
    fun hk => Function.update_of_ne hk ..
  have hB₁ : Base u { t with handles := Function.update t.handles f (t.handles f - 1) } := by
    refine hB.repoint rfl rfl rfl rfl rfl rfl rfl ?_ ?_ (fun k hk => Or.inl hk) hB.idleNe
    · intro k hk hn
      have hkf : k ≠ f := by
        rintro rfl
        rw [hx] at hk
        cases hk
      exact ⟨(hne hkf).trans hn.1, hn.2, hn.3, hn.4, hn.5, hn.6⟩
    · intro k hk
      by_cases hkf : k = f
      · exact hkf ▸ hlt
      · exact hB.handles k (by rwa [← hne hkf])
  have hlive : ∀ k z, k ≠ f → t.heap k = some z → 0 < Thread.useCount
      { t with handles := Function.update t.handles f (t.handles f - 1) } k := by
    intro k z hk hz
    refine useCount_congr (t := t) ?_ rfl (hI.live k z hz)
    exact fun h => ⟨(hne hk).symm.trans h.1, h.2, h.3, h.4, h.5, h.6⟩
  have hpark := (hI.parked_or_isLocal hlt).imp id fun h =>
    useCount_pos (t := { t with handles := Function.update t.handles f (t.handles f - 1) })
      (IsLocal.not_noRef (f := f) h)
  obtain ⟨t', ht', hB', hL', hK, hf, hC⟩ := hB₁.release hlive hlt hx hpark
  exact ⟨t', ht', hI.kept ⟨hK.1, hK.2, hK.3, hK.4, hK.5, hK.6⟩ hlt hf hB' hL' (hC hI.led), hK.2⟩

end

end Sylar.Fibers
