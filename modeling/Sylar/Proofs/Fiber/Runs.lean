import Sylar.Lib.Run
import Sylar.Proofs.Fiber.Ends

/-!
# `Sylar.Proofs.Fiber.Runs`: whole runs of a thread

Whatever the tasks do, three things hold in every state of a run. The only assertion that can fail
is the one at the end of `MainFunc` and of `CallerMainFunc`, so no fiber is swapped in twice,
reset or destroyed while it is suspended, and no destroyed object is used (`lifetimes`). An object
is there as long as there is a pointer to it. Each callback is called at most once, and none is
lost (`callbacks_once`).

The assertion at the end of `MainFunc` does fail. `run()` swaps the idle fiber in unless it is in
the state `TERM`, so also when it has ended with an exception, and `Stop` calls the root fiber
without a look at its state. These two are the only way to it: a run is sound in every state if
and only if the two tests would have been passed (`switches_sound_iff`).
-/

set_option autoImplicit false

namespace Sylar.Fibers

open Scheduler (FiberState)

section
variable {u : Bool} {t t' : Thread} {f g : Nat} {x : Fiber} {a : Action} {s s' : Sys}

/-- What holds in every state of a run. -/
def Sys.Inv (u : Bool) : Sys → Prop
  | .running t => Fibers.Inv u t
  | .aborted why => why = .neverReach
  | .exited t => Left t

/-- No fiber was resumed behind its last switch. -/
def Sys.Fresh : Sys → Prop
  | .running t => t.control.point ≠ .past
  | .aborted _ => False
  | .exited _ => True

/-- The two tests of the state of a fiber that the source leaves out. -/
def Tested : Sys → Action → Prop
  | .running t, .idle => t.control.point = .top →
      ∀ g x, t.idleFiber = some g → t.heap g = some x → x.state ≠ .except
  | .running t, .stop => t.control.point = .outside →
      ∀ g x, t.rootFiber = some g → t.heap g = some x → x.state ≠ .term
  | _, _ => True

theorem Safe.ofResult {r : Except Abort Thread} (h : Safe u r) :
    (Sys.ofResult r).Inv u ∧ (Sys.ofResult r).Fresh := by
  obtain ⟨t', rfl, hI, hp⟩ := h
  exact ⟨hI, hp⟩

/-! ### One step -/

/-- A pointer that can be copied is one to a task. -/
theorem Inv.exists_of_retain (hI : Inv u t)
    (h : 0 < t.handles f ∨ t.tFiber = some f ∧ t.control.point = .callback none) :
    host u < f ∧ ∃ x, t.heap f = some x := by
  rcases h with h | ⟨hthis, hp⟩
  · exact ⟨hI.base.handles f h, hI.base.exists_of_handle h⟩
  · obtain ⟨g, b, x, hA, hx, hg, -⟩ := hI.in_callback hp
    cases hthis.symm.trans hg
    exact ⟨hA.lt, x, hx⟩

/-- The start of `MainFunc` is reached on a task, the one of `CallerMainFunc` on the root fiber. -/
theorem Inv.proceed_start {caller : Bool} (hI : Inv u t)
    (hp : t.control.point = .entry caller) : Safe u (proceed t) := by
  cases caller with
  | true => exact hI.proceed_root hp
  | false =>
    cases hI.phase with
    | away g b h => exact hI.proceed_entry h hp
    | outside _ _ hc => rw [hc] at hp; cases hp
    | called _ _ hc => rcases hc with hc | hc <;> (rw [hc] at hp; cases hp)
    | looping h => rw [h.control] at hp; cases hp
    | returned _ _ h => rw [h.control] at hp; cases hp
    | ended _ _ hc => rw [hc] at hp; cases hp

theorem Inv.step (hI : Inv u t) (hs : stepRunning t a = some s) :
    s.Inv u ∧ (t.control.point ≠ .past → (Tested (.running t) a ↔ s.Fresh)) := by
  -- A function that is safe passes both.
  have hsafe : ∀ {r}, Safe u r → Sys.ofResult r = s → Tested (.running t) a →
      s.Inv u ∧ (t.control.point ≠ .past → (Tested (.running t) a ↔ s.Fresh)) := by
    rintro r hr rfl ht
    exact ⟨hr.ofResult.1, fun _ => iff_of_true ht hr.ofResult.2⟩
  cases a with
  | spawn =>
    cases hs
    exact ⟨hI.spawn, fun h => iff_of_true trivial h⟩
  | retain f =>
    rw [stepRunning] at hs
    split at hs
    · rename_i h
      obtain ⟨hlt, x, hx⟩ := hI.exists_of_retain h
      cases hs
      exact ⟨hI.retain hlt hx, fun h => iff_of_true trivial h⟩
    · cases hs
  | drop f =>
    rw [stepRunning] at hs
    split at hs
    · rename_i h
      obtain ⟨t', ht', hI', hc⟩ := hI.drop h
      rw [ht'] at hs
      cases hs
      refine ⟨hI', fun h => iff_of_true trivial ?_⟩
      show t'.control.point ≠ .past
      rwa [hc]
    · cases hs
  | proceed =>
    rw [stepRunning] at hs
    split at hs
    · rename_i hp
      exact hsafe (hI.proceed_start hp) (Option.some.inj hs) trivial
    · rename_i hp
      exact hsafe (hI.proceed_callback hp) (Option.some.inj hs) trivial
    · rename_i hp
      rw [proceed, hp] at hs
      cases hs
      exact ⟨rfl, fun h => absurd hp h⟩
    · cases hs
  | yieldTo ready =>
    rw [stepRunning] at hs
    split at hs
    · rename_i h
      exact hsafe (hI.yieldTo h.1 h.2 ready) (Option.some.inj hs) trivial
    · cases hs
  | idleSwapOut =>
    rw [stepRunning] at hs
    split at hs
    · rename_i h
      exact hsafe (hI.idleSwapOut h.1 h.2) (Option.some.inj hs) trivial
    · cases hs
  | finish how =>
    rw [stepRunning] at hs
    split at hs
    · rename_i h
      exact hsafe (hI.finish h.1 how) (Option.some.inj hs) trivial
    · cases hs
  | takeFiber f =>
    rw [stepRunning] at hs
    split at hs
    · rename_i h
      exact hsafe (hI.takeFiber h.1 h.2.1 h.2.2) (Option.some.inj hs) trivial
    · cases hs
  | takeCb =>
    rw [stepRunning] at hs
    split at hs
    · rename_i h
      exact hsafe (hI.takeCb h) (Option.some.inj hs) trivial
    · cases hs
  | idle =>
    rw [stepRunning] at hs
    split at hs
    · rename_i hp
      obtain ⟨g, x, hidle, hx, t', ht', hI', hpast⟩ := hI.idle hp
      rw [ht'] at hs
      cases hs
      refine ⟨hI', fun _ => ?_⟩
      refine Iff.trans ?_ (not_congr hpast).symm
      constructor
      · exact fun h => h hp g x hidle hx
      · intro h _ g' x' hg' hx'
        cases hidle.symm.trans hg'
        cases hx.symm.trans hx'
        exact h
    · cases hs
  | settle =>
    rw [stepRunning] at hs
    split at hs
    · rename_i hp
      exact hsafe (hI.settle hp) (Option.some.inj hs) trivial
    · cases hs
  | stop =>
    rw [stepRunning] at hs
    split at hs
    · rename_i r hroot
      split at hs
      · rename_i hp
        have hr := hI.base.exists_of_ref (f := r) fun hn => hn.rootFiber hroot
        obtain ⟨x, hx⟩ := hr
        obtain ⟨t', ht', hI', hpast⟩ := hI.stop hp hroot hx
        rw [ht'] at hs
        cases hs
        refine ⟨hI', fun _ => ?_⟩
        refine Iff.trans ?_ (not_congr hpast).symm
        constructor
        · exact fun h => h hp r x hroot hx
        · intro h _ g' x' hg' hx'
          cases hroot.symm.trans hg'
          cases hx.symm.trans hx'
          exact h
      · cases hs
    · cases hs
  | deleteScheduler =>
    rw [stepRunning] at hs
    split at hs
    · rename_i r hroot
      split at hs
      · rename_i hp
        exact hsafe (hI.deleteScheduler hp hroot) (Option.some.inj hs) trivial
      · cases hs
    · cases hs
  | threadExit =>
    rw [stepRunning] at hs
    split at hs
    · rename_i m hm
      split at hs
      · rename_i hp
        obtain ⟨t', ht', hL⟩ := hI.threadExit hp hm
        rw [ht'] at hs
        cases hs
        exact ⟨hL, fun _ => iff_of_true trivial trivial⟩
      · cases hs
    · cases hs

/-! ### The start -/

/-- At the start a thread has two fibers. -/
theorem start_cases (u : Bool) (f : Nat) :
    2 ≤ f ∧ (if u then caller else worker).heap f = none ∨
      f = 0 ∧ (if u then caller else worker).heap f
        = some ⟨0, .exec, false, none, ⟨0, .made⟩, none, 0⟩ ∨
      f = 1 ∧ (if u then caller else worker).heap f
        = some ⟨1, .init, true, some 0, ⟨1, .entry u⟩, none, 0⟩ := by
  match f with
  | 0 => exact Or.inr (Or.inl ⟨rfl, by cases u <;> rfl⟩)
  | 1 => exact Or.inr (Or.inr ⟨rfl, by cases u <;> rfl⟩)
  | n + 2 => exact Or.inl ⟨Nat.le_add_left 2 n, by cases u <;> rfl⟩

theorem noRef_start {u : Bool} {f : Nat} (hf : 2 ≤ f) :
    NoRef (if u then caller else worker) f := by
  have h0 : (some 0 : Option Nat) ≠ some f := fun h => by cases h; omega
  have h1 : (some 1 : Option Nat) ≠ some f := fun h => by cases h; omega
  cases u with
  | false => exact ⟨rfl, nofun, nofun, h1, nofun, h0⟩
  | true => exact ⟨rfl, nofun, nofun, nofun, h1, h0⟩

theorem base_start (u : Bool) : Base u (if u then caller else worker) where
  fresh f hf := by
    have hn : (if u then caller else worker).next = 2 := by cases u <;> rfl
    rcases start_cases u f with h | ⟨rfl, -⟩ | ⟨rfl, -⟩
    · exact h.2
    · omega
    · omega
  hostLt := by cases u <;> decide
  dead f hf := by
    rcases start_cases u f with h | ⟨-, h⟩ | ⟨-, h⟩
    · exact noRef_start h.1
    · cases hf.symm.trans h
    · cases hf.symm.trans h
  count := by cases u <;> rfl
  this := by cases u <;> rfl
  thread := by cases u <;> rfl
  sched := by cases u <;> rfl
  handles f hf := by
    have h0 : (if u then caller else worker).handles f = 0 := by cases u <;> rfl
    omega
  locals f hf := by
    cases u with
    | false =>
      rcases hf with h | h | h
      · cases h
      · cases h
      · cases h
        decide
    | true => rcases hf with h | h | h <;> cases h
  idleNe g hg := by cases u <;> cases hg
  task f x hf hx := by
    have hs : (if u then caller else worker).control.stack ≠ f := by
      have h0 : (if u then caller else worker).control.stack = 0 := by cases u <;> rfl
      rw [h0]
      exact (Nat.zero_lt_of_lt hf).ne
    rw [look_of_ne hs] at hx
    rcases start_cases u f with ⟨-, h⟩ | ⟨rfl, h⟩ | ⟨rfl, h⟩
    · cases h.symm.trans hx
    · exact absurd hf (Nat.not_lt_zero _)
    · cases h.symm.trans hx
      cases u with
      | false => exact ⟨rfl, rfl, rfl, rfl⟩
      | true => exact absurd hf (lt_irrefl _)

theorem inv_start (u : Bool) : Inv u (if u then caller else worker) where
  base := base_start u
  live f x hx := by
    rcases start_cases u f with ⟨-, h⟩ | ⟨rfl, h⟩ | ⟨rfl, h⟩
    · cases h.symm.trans hx
    · exact useCount_pos fun hn => hn.threadFiber (by cases u <;> rfl)
    · cases u with
      | false => exact useCount_pos fun hn => hn.idleFiber rfl
      | true => exact useCount_pos fun hn => hn.rootFiber rfl
  cb g x hg := by cases u <;> cases hg
  phase := by
    have hmain : IsMain ⟨0, .exec, false, none, ⟨0, .made⟩, none, 0⟩ := ⟨rfl, rfl, rfl, rfl⟩
    cases u with
    | false => exact .looping ⟨⟨_, rfl, hmain⟩, rfl, nofun, rfl⟩ rfl
    | true =>
      exact .outside rfl ⟨_, rfl, hmain⟩ rfl ⟨rfl, rfl, rfl⟩
        (Or.inr ⟨rfl, _, rfl, rfl, rfl, rfl, Or.inl ⟨rfl, rfl⟩⟩)
  led := by
    have hpend : (if u then caller else worker).pending
        = Function.update (fun _ => none) 1 (some 0) := by
      funext f
      match f with
      | 0 => cases u <;> rfl
      | 1 => cases u <;> rfl
      | n + 2 => cases u <;> rfl
    have hempty : Lib.Tickets 0 (fun _ : Nat => none) [] :=
      ⟨List.nodup_nil, fun c => by simp, fun _ _ => nofun, fun _ _ _ => nofun⟩
    rw [Ledger, hpend]
    cases u <;> exact hempty.issue rfl

/-! ### Runs -/

/-- Every run keeps the invariant. -/
theorem inv_run (u : Bool) (as : List Action) (s : Sys)
    (h : Lib.exec Fibers.step (init u) as = some s) : s.Inv u := by
  refine Lib.exec_invariant_of_step ?_ as (init u) s (inv_start u) h
  rintro (t | why | t) a s' hI hs
  · exact (Inv.step hI hs).1
  · cases hs
  · cases hs

/-- The thread is on the stack of the fiber that `t_fiber` names, has not resumed a fiber behind
its last switch, and each other fiber would go on on its own stack. -/
def Sys.Sound : Sys → Prop
  | .running t => t.tFiber = some t.control.stack ∧ t.control.point ≠ .past ∧
      ∀ f x, t.heap f = some x → t.control.stack ≠ f → x.ctx.stack = f
  | .aborted _ => False
  | .exited _ => True

theorem Sys.Sound.fresh (h : s.Sound) : s.Fresh := by
  cases s with
  | running t => exact h.2.1
  | aborted why => exact h
  | exited t => exact h

theorem Outer.own (ho : Outer u t) (hf : f < host u) (hx : t.heap f = some x) :
    x.ctx.stack = f := by
  cases u with
  | false => exact absurd hf (Nat.not_lt_zero f)
  | true =>
    obtain ⟨-, m, hm, -, hctx⟩ := ho
    obtain rfl : f = 0 := Nat.lt_one_iff.mp hf
    cases hm.symm.trans hx
    rw [hctx]

/-- A fiber that the thread is not on would go on on its own stack. -/
theorem Inv.own (hI : Inv u t) (hx : t.heap f = some x) (hs : t.control.stack ≠ f) :
    x.ctx.stack = f := by
  by_cases hlt : host u < f
  · exact (hI.base.waiting hlt hs hx).own
  -- The fiber of `run()`, or the one below it.
  have hle : f = host u ∨ f < host u := by omega
  have hhost : ∀ {p}, AtHost u t p → x.ctx.stack = f := by
    intro p hH
    rcases hle with rfl | hf
    · exact absurd (by rw [hH.control]) hs
    · exact hH.outer.own hf hx
  cases hI.phase with
  | outside hu hm hc hl hr =>
    subst hu
    rcases hle with rfl | hf
    · rcases hr with ⟨-, hnone⟩ | ⟨-, r, hr, -, -, -, hrest⟩
      · cases hnone.symm.trans hx
      · cases hr.symm.trans hx
        rcases hrest with h | h <;> rw [h.2] <;> rfl
    · obtain rfl : f = 0 := Nat.lt_one_iff.mp hf
      exact absurd (by rw [hc]) hs
  | called hu hr hc hl ho =>
    rcases hle with rfl | hf
    · subst hu
      exact absurd (by rcases hc with hc | hc <;> rw [hc] <;> rfl) hs
    · exact ho.own hf hx
  | looping h => exact hhost h
  | away g b h =>
    rcases hle with rfl | hf
    · obtain ⟨y, hy, -, hctx⟩ := h.hostIs
      cases hy.symm.trans hx
      rw [hctx]
    · exact h.outer.own hf hx
  | returned g b h => exact hhost h
  | ended hu hm hc hl ho =>
    subst hu
    obtain rfl : f = 0 := by
      rcases hle with h | h
      · exact h
      · exact absurd h (Nat.not_lt_zero f)
    exact absurd (by rw [hc]) hs

theorem Sys.Inv.sound (h : s.Inv u) (hf : s.Fresh) : s.Sound := by
  cases s with
  | running t => exact ⟨h.base.this, hf, fun f x hx hs => h.own hx hs⟩
  | aborted why => exact hf
  | exited t => exact trivial

theorem tested_of_none (s : Sys) (a : Action) (h : step s a = none) : Tested s a := by
  cases s with
  | running t =>
    cases a with
    | idle =>
      intro hp
      simp only [step, stepRunning, hp, if_true] at h
      cases h
    | stop =>
      intro hp g x hg
      simp only [step, stepRunning, hg, hp, if_true] at h
      cases h
    | _ => trivial
  | aborted why => cases a <;> trivial
  | exited t => cases a <;> trivial

/-- Every state of a run is sound if and only if `run()` never swaps an idle fiber in that has
ended with an exception, and `Stop` never calls a root fiber that has ended. -/
theorem switches_sound_iff (u : Bool) (as : List Action) :
    Lib.Guarded step Tested (init u) as ↔
      ∀ bs s, bs <+: as → Lib.exec step (init u) bs = some s → s.Sound := by
  have hstep : ∀ s a s', (s.Inv u ∧ s.Fresh) → Fibers.step s a = some s' →
      (Tested s a ↔ s'.Inv u ∧ s'.Fresh) := by
    rintro (t | why | t) a s' ⟨hI, hF⟩ hs
    · obtain ⟨hI', hiff⟩ := Inv.step hI hs
      rw [hiff hF]
      exact (and_iff_right hI').symm
    · cases hs
    · cases hs
  rw [Lib.guarded_iff_forall_states hstep tested_of_none as (init u) ⟨inv_start u, ?_⟩]
  · refine forall₄_congr fun bs s hbs h => ?_
    have hI := inv_run u bs s h
    exact ⟨fun hF => hI.sound hF.2, fun hS => ⟨hI, hS.fresh⟩⟩
  · cases u <;> exact nofun

/-- The idle fiber throws, and is swapped in again. -/
example : Lib.exec step (init false)
    [.idle, .proceed, .finish .throws, .settle, .idle, .proceed]
      = some (.aborted .neverReach) := rfl

/-- The objects are counted, and an object is there as long as there is a pointer to it. The
assertions in `swapIn`, `reset`, `YieldToReady`, `YieldToHold` and `~Fiber` never fail. -/
def Sys.Lifetimes : Sys → Prop
  | .running t | .exited t => t.fiberCount = t.liveCount ∧
      ∀ f, (t.heap f).isSome = true ↔ 0 < t.useCount f
  | .aborted why => why = .neverReach

theorem isSome_iff_useCount (hL : Live t) (hd : ∀ f, t.heap f = none → NoRef t f) (f : Nat) :
    (t.heap f).isSome = true ↔ 0 < t.useCount f := by
  cases hx : t.heap f with
  | some x => exact iff_of_true rfl (hL f x hx)
  | none =>
    have hzero : t.useCount f = 0 := useCount_eq_zero_iff.mpr ⟨hd f hx, fun x h => by
      cases hx.symm.trans h⟩
    refine iff_of_false nofun ?_
    omega

theorem lifetimes {u : Bool} {as : List Action} {s : Sys}
    (h : Lib.exec step (init u) as = some s) : s.Lifetimes := by
  have hI := inv_run u as s h
  cases s with
  | running t => exact ⟨hI.base.count, isSome_iff_useCount hI.live hI.base.dead⟩
  | aborted why => exact hI
  | exited t => exact ⟨hI.count, isSome_iff_useCount hI.live hI.dead⟩

/-- A worker runs a callback that yields and is resumed, and then ends. -/
theorem lifetimes_worker : ∃ s, Lib.exec step (init false)
    [.takeCb, .proceed, .retain 2, .yieldTo true, .settle, .takeFiber 2, .proceed,
      .finish .returns, .settle] = some s ∧ s.Lifetimes := by
  have h : (Lib.exec step (init false) [.takeCb, .proceed, .retain 2, .yieldTo true, .settle,
      .takeFiber 2, .proceed, .finish .returns, .settle]).isSome = true := rfl
  obtain ⟨s, hs⟩ := Option.isSome_iff_exists.mp h
  exact ⟨s, hs, lifetimes hs⟩

/-- Each callback that was given to a fiber waits in one fiber that has not started, or was called
once, or was destroyed once with a fiber that had not started. -/
def Sys.CallbacksOnce : Sys → Prop
  | .running t | .exited t => (t.entered ++ t.discarded).Nodup ∧
      (∀ f g c, t.pending f = some c → t.pending g = some c → f = g) ∧
      ∀ c, c < t.nextCb ↔ Xor (c ∈ t.entered ++ t.discarded) (∃ f, t.pending f = some c)
  | .aborted _ => True

theorem Ledger.callbacksOnce (h : Ledger t) :
    (t.entered ++ t.discarded).Nodup ∧
      (∀ f g c, t.pending f = some c → t.pending g = some c → f = g) ∧
      ∀ c, c < t.nextCb ↔ Xor (c ∈ t.entered ++ t.discarded) (∃ f, t.pending f = some c) := by
  refine ⟨h.once, h.apart, ?_⟩
  intro c
  have hnot : ¬ (c ∈ t.entered ++ t.discarded ∧ ∃ f, t.pending f = some c) := by
    rintro ⟨hc, f, hf⟩
    exact h.waits f c hf hc
  rw [h.all c, xor_iff_or_and_not_and]
  exact (and_iff_left hnot).symm

theorem callbacks_once {u : Bool} {as : List Action} {s : Sys}
    (h : Lib.exec step (init u) as = some s) : s.CallbacksOnce := by
  have hI := inv_run u as s h
  cases s with
  | running t => exact Ledger.callbacksOnce hI.led
  | aborted why => exact trivial
  | exited t => exact Ledger.callbacksOnce hI.led

/-- Two callbacks in one fiber, one of which throws, and a fiber that is dropped before it
starts. -/
theorem callbacks_once_worker : ∃ s, Lib.exec step (init false)
    [.takeCb, .proceed, .finish .throws, .settle, .takeCb, .proceed, .spawn, .drop 3,
      .finish .returns, .settle] = some s ∧ s.CallbacksOnce := by
  have h : (Lib.exec step (init false) [.takeCb, .proceed, .finish .throws, .settle, .takeCb,
      .proceed, .spawn, .drop 3, .finish .returns, .settle]).isSome = true := rfl
  obtain ⟨s, hs⟩ := Option.isSome_iff_exists.mp h
  exact ⟨s, hs, callbacks_once hs⟩

end

end Sylar.Fibers
