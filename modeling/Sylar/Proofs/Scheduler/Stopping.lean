import Sylar.Proofs.Scheduler.Conservation
import Sylar.Spec.Stopping

/-!
# `Sylar.Proofs.Scheduler.Stopping`: when the stop condition is stable

`stopping()` reads the queue and `m_activeThreadCount` at one moment. Three things are in neither:
a fiber that has returned `READY` and is not scheduled again yet, the callbacks of expired timers
that the idle fiber has collected and not scheduled yet, and the timers and events that appeared
after `IOManager::stopping` had looked for them. `stop_unstable` runs each of the three.

`Settled` is the condition that none of them is there when `Scheduler::stopping` returns true.
`Quiet` is what the system is from then on: nobody has a task, and nothing is left that could make
one. `move_quiet` is its step lemma, and `stop_stable` the result for runs.
-/

set_option autoImplicit false

namespace Sylar.Stopping

open Lib (thread0 thread1)
open Scheduler (Item State Pc FiberState)

section
variable {n : Nat} {kind : Kind} {s s' : Sys n} {st : State n} {a : Action n}

/-! ### Steps -/

/-- The worker has a fiber in its hands that it will schedule. -/
def requeues (state : Nat → FiberState) : Pc → Bool
  | .decremented f _ _ => state f == .ready
  | .requeue _ _ => true
  | _ => false

/-- The idle fiber has callbacks that it will schedule. -/
def IdlePc.hasCallbacks : IdlePc → Bool
  | .collected cbs => !cbs.isEmpty
  | _ => false

/-- Everything a step can do. -/
inductive Move (s : Sys n) (st : State n) : Action n → Sys n → Prop where
  | run (a : Scheduler.Action n) (sched : Scheduler.Sys n) (idle : Fin n → IdlePc)
      (hcall : ∀ items, a ≠ .schedule items)
      (hstep : Scheduler.stepRunning st a = some sched)
      (hidle : ∀ w, idle w = s.idle w ∨ (idle w).hasCallbacks = false) :
      Move s st (.run a) { s with sched := sched, idle := idle }
  | stop : Move s st .stop { s with stop := true }
  | schedule (who : Option (Fin n)) (items : List Item) (sched : Scheduler.Sys n)
      (hwho : s.mayCall st who = true)
      (hstep : Scheduler.stepRunning st (.schedule items) = some sched) :
      Move s st (.schedule who items) { s with sched := sched }
  | addTimer (who : Option (Fin n)) (timer : Timer) (hwho : s.mayCall st who = true) :
      Move s st (.addTimer who timer) { s with timers := timer :: s.timers }
  | addEvent (who : Option (Fin n)) (item : Item) (hwho : s.mayCall st who = true) :
      Move s st (.addEvent who item) { s with
        events := item :: s.events
        pendingEventCount := s.pendingEventCount + 1 }
  | cancelTimer (timer : Timer) :
      Move s st (.cancelTimer timer) { s with timers := s.timers.erase timer }
  | delEvent (item : Item) (hmem : item ∈ s.events) :
      Move s st (.delEvent item) { s with
        events := s.events.erase item
        pendingEventCount := Lib.wrapPred s.pendingEventCount }
  | triggerEvent (who : Option (Fin n)) (item : Item) (sched : Scheduler.Sys n)
      (hwho : s.triggered who = false) (hmem : item ∈ s.events)
      (hstep : Scheduler.stepRunning st (.schedule [item]) = some sched) :
      Move s st (.triggerEvent who item)
        ({ s with sched := sched, events := s.events.erase item }.setTriggered who true)
  | decrementPending (who : Option (Fin n)) (hwho : s.triggered who = true) :
      Move s st (.decrementPending who)
        ({ s with pendingEventCount := Lib.wrapPred s.pendingEventCount }.setTriggered who false)
  | look (a : Action n) (w : Fin n) (pc : IdlePc) (hpc : pc.hasCallbacks = false) :
      Move s st a (s.setIdle w pc)
  | observe (w : Fin n) (hstop : s.stopping st = true) :
      Move s st (.stopping w)
        ({ s with observed := s.observed.or (some st.dequeued.length) }.setIdle w .done)
  | listExpiredCb (w : Fin n) (expired rest : List Timer)
      (hperm : s.timers.Perm (expired ++ rest)) :
      Move s st (.listExpiredCb w expired rest)
        ({ s with timers := rest ++ expired.filter Timer.recurring }.setIdle w
          (.collected (expired.map Timer.cb)))
  | scheduleCbs (w : Fin n) (cbs : List Nat) (sched : Scheduler.Sys n)
      (hidle : s.idle w = .collected cbs)
      (hstep : Scheduler.stepRunning st (.schedule (cbs.map fun cb => { cb := some cb }))
        = some sched) :
      Move s st (.scheduleCbs w) ({ s with sched := sched }.setIdle w .events)

theorem lift_eq_some {b : Scheduler.Action n} {f : Sys n → Sys n}
    (h : s.lift st b f = some s') :
    ∃ sched, Scheduler.stepRunning st b = some sched ∧ s' = f { s with sched := sched } := by
  unfold Sys.lift at h
  cases hstep : Scheduler.stepRunning st b with
  | none =>
      rw [hstep] at h
      cases h
  | some sched =>
      rw [hstep] at h
      exact ⟨sched, rfl, (Option.some.inj h).symm⟩

theorem triggered_of_mayTrigger {who : Option (Fin n)} (h : s.mayTrigger st who = true) :
    s.triggered who = false := by
  cases who with
  | none =>
      simp only [Sys.mayTrigger, Sys.mayCall, Bool.and_eq_true, Bool.not_eq_true'] at h
      exact h.2
  | some w =>
      simp only [Sys.mayTrigger, Sys.mayCall, Bool.or_eq_true, Bool.and_eq_true,
        Bool.not_eq_true'] at h
      rcases h with h | h
      · exact h.2
      · exact h.2

/-- A step of `run()` that leaves the idle fibers where they are. -/
theorem move_lift_id {b : Scheduler.Action n} (hcall : ∀ items, b ≠ .schedule items)
    (h : s.lift st b id = some s') : Move s st (.run b) s' := by
  obtain ⟨sched, hstep, rfl⟩ := lift_eq_some h
  exact .run b sched s.idle hcall hstep fun _ => Or.inl rfl

theorem move_of_runStep {b : Scheduler.Action n} (h : runStep kind s st b = some s') :
    Move s st (.run b) s' := by
  cases b with
  | schedule items => cases h
  | idleEnter w =>
      simp only [runStep] at h
      obtain ⟨sched, hstep, rfl⟩ := lift_eq_some h
      refine .run _ sched _ (fun _ hne => by cases hne) hstep ?_
      intro w'
      by_cases hw : w' = w
      · subst hw
        rw [Function.update_self]
        cases kind <;> exact Or.inr rfl
      · exact Or.inl (Function.update_of_ne hw _ _)
  | idleLeave w term =>
      simp only [runStep] at h
      split at h
      · exact move_lift_id (fun _ hne => by cases hne) h
      · cases h
  | yield w how =>
      simp only [runStep] at h
      split at h
      · exact move_lift_id (fun _ hne => by cases hne) h
      · cases h
  | _ => exact move_lift_id (fun _ hne => by cases hne) h

/-- The inversion of the step function. -/
theorem move_of_step (hs : s.sched = .running st) (h : step kind s a = some s') :
    Move s st a s' := by
  simp only [step, hs] at h
  cases a with
  | run b => exact move_of_runStep h
  | stop =>
      cases h
      exact .stop
  | schedule who items =>
      simp only [stepRunning] at h
      split at h
      · next hwho =>
        obtain ⟨sched, hstep, rfl⟩ := lift_eq_some h
        exact .schedule who items sched hwho hstep
      · cases h
  | addTimer who timer =>
      simp only [stepRunning] at h
      split at h
      · next hwho =>
        cases h
        exact .addTimer who timer hwho.2
      · cases h
  | addEvent who item =>
      simp only [stepRunning] at h
      split at h
      · next hwho =>
        cases h
        exact .addEvent who item hwho.2.1
      · cases h
  | cancelTimer timer =>
      cases h
      exact .cancelTimer timer
  | delEvent item =>
      simp only [stepRunning] at h
      split at h
      · next hmem =>
        cases h
        exact .delEvent item hmem
      · cases h
  | triggerEvent who item =>
      simp only [stepRunning] at h
      split at h
      · next hwho =>
        obtain ⟨sched, hstep, rfl⟩ := lift_eq_some h
        exact .triggerEvent who item sched (triggered_of_mayTrigger hwho.1) hwho.2 hstep
      · cases h
  | decrementPending who =>
      simp only [stepRunning] at h
      split at h
      · next hwho =>
        cases h
        exact .decrementPending who hwho
      · cases h
  | getNextTimer w =>
      simp only [stepRunning] at h
      split at h
      · cases h
        refine .look _ w _ ?_
        split <;> rfl
      · cases h
  | readPending w =>
      simp only [stepRunning] at h
      split at h
      · cases h
        refine .look _ w _ ?_
        split <;> rfl
      · cases h
  | stopping w =>
      simp only [stepRunning] at h
      split at h
      · split at h
        · next hstop =>
          cases h
          exact .observe w hstop
        · cases h
          refine .look _ w _ ?_
          cases kind <;> rfl
      · cases h
  | listExpiredCb w expired rest =>
      simp only [stepRunning] at h
      split at h
      · next hexpire =>
        cases h
        exact .listExpiredCb w expired rest hexpire.2
      · cases h
  | scheduleCbs w =>
      simp only [stepRunning] at h
      split at h
      · next cbs hidle =>
        obtain ⟨sched, hstep, rfl⟩ := lift_eq_some h
        exact .scheduleCbs w cbs sched hidle hstep
      · cases h

/-! ### The workers and the counter of events -/

/-- The step keeps the invariant of the workers. -/
theorem move_sched_inv (hs : s.sched = .running st) (hmove : Move s st a s')
    (h : s.sched.Inv) : s'.sched.Inv := by
  have hstep : ∀ {b sched}, Scheduler.stepRunning st b = some sched → sched.Inv := by
    intro b sched hb
    exact Scheduler.step_inv (.running st) b sched (hs ▸ h) hb
  cases hmove with
  | run b sched idle hcall hb hidle => exact hstep hb
  | schedule who items sched hwho hb => exact hstep hb
  | triggerEvent who item sched hwho hmem hb => exact hstep hb
  | scheduleCbs w cbs sched hidle hb => exact hstep hb
  | _ => exact h

/-- `m_pendingEventCount` counts the registered events and the decrements to come. -/
def PendingInv (s : Sys n) : Prop :=
  s.pendingEventCount = s.events.length + Lib.countOf id s.triggered

theorem move_pendingInv (hmove : Move s st a s') (h : PendingInv s) : PendingInv s' := by
  have hcount : s.pendingEventCount = s.events.length + Lib.countOf id s.triggered := h
  cases hmove with
  | addEvent who item hwho =>
      show s.pendingEventCount + 1 = s.events.length + 1 + Lib.countOf id s.triggered
      omega
  | delEvent item hmem =>
      have hlen := List.length_erase_of_mem hmem
      have hpos := List.length_pos_of_mem hmem
      show Lib.wrapPred s.pendingEventCount
        = (s.events.erase item).length + Lib.countOf id s.triggered
      rw [hcount, Lib.wrapPred_of_pos (by omega), hlen]
      omega
  | triggerEvent who item sched hwho hmem hstep =>
      -- The event leaves the table before its decrement: one term falls, the other rises.
      have hlen := List.length_erase_of_mem hmem
      have hpos := List.length_pos_of_mem hmem
      show s.pendingEventCount = (s.events.erase item).length
        + Lib.countOf id (Function.update s.triggered who true)
      rw [Lib.countOf_update_enter hwho rfl, hlen, hcount]
      omega
  | decrementPending who hwho =>
      have hpos : 0 < Lib.countOf id s.triggered := Lib.countOf_pos hwho
      show Lib.wrapPred s.pendingEventCount = s.events.length
        + Lib.countOf id (Function.update s.triggered who false)
      rw [Lib.countOf_update_leave hwho rfl, hcount, Lib.wrapPred_of_pos hpos,
        Lib.wrapPred_of_pos (by omega)]
      omega
  | _ => exact h

/-! ### Quiet -/

/-- The condition on a step: `Scheduler::stopping` returns true only when no timer and no event is
left, no worker is about to schedule a fiber again, and no idle fiber has callbacks to schedule. -/
def Settled (s : Sys n) : Action n → Prop
  | .stopping _ => ∀ st, s.sched = .running st → s.stopping st = true →
      s.timers = [] ∧ s.pendingEventCount = 0 ∧
      (∀ w, requeues st.state (st.workers w).pc = false) ∧
      ∀ w, (s.idle w).hasCallbacks = false
  | _ => True

/-- The worker has no task, and will schedule none. -/
def Still (state : Nat → FiberState) (pc : Pc) : Prop :=
  pc.active = false ∧ requeues state pc = false

/-- No task is there, and nothing that could make one. -/
structure Quiet (s : Sys n) (st : State n) : Prop where
  stop : s.stop = true
  fibers : st.fibers = []
  timers : s.timers = []
  events : s.events = []
  triggered : ∀ who, s.triggered who = false
  still : ∀ w, Still st.state (st.workers w).pc
  idle : ∀ w, (s.idle w).hasCallbacks = false

/-- Nobody may call into a quiet system: no fiber runs, and the threads outside are shut out. -/
theorem Quiet.not_mayCall (h : Quiet s st) (who : Option (Fin n)) : s.mayCall st who ≠ true := by
  intro hcall
  cases who with
  | none =>
      rw [Sys.mayCall, h.stop] at hcall
      cases hcall
  | some w =>
      -- A worker inside a fiber is active.
      have hstill := (h.still w).1
      simp only [Sys.mayCall, insideFiber, Bool.and_eq_true] at hcall
      cases hpc : (st.workers w).pc <;> simp_all [Pc.active]

/-- The states of the fibers change, and no fiber becomes ready. -/
theorem Still.mono {state state' : Nat → FiberState} {pc : Pc} (h : Still state pc)
    (hstate : ∀ f, state' f = .ready → state f = .ready) : Still state' pc := by
  refine ⟨h.1, ?_⟩
  have hold := h.2
  cases pc with
  | decremented f own ready =>
      simp only [requeues, beq_eq_false_iff_ne] at hold ⊢
      exact fun hready => hold (hstate f hready)
  | _ => exact hold

theorem ready_of_update (state : Nat → FiberState) (g : Nat) {x : FiberState} (hx : x ≠ .ready)
    (f : Nat) (h : Function.update state g x f = .ready) : state f = .ready := by
  by_cases hfg : f = g
  · rw [hfg, Function.update_self] at h
    exact absurd h hx
  · rwa [Function.update_of_ne hfg] at h

/-- One worker moves to a program counter that is still. -/
theorem still_update (st : State n) {state' : Nat → FiberState} {w : Fin n}
    {worker : Scheduler.Worker}
    (hstill : ∀ w, Still st.state (st.workers w).pc)
    (hstate : ∀ f, state' f = .ready → st.state f = .ready) (hnew : Still state' worker.pc) :
    ∀ w', Still state' (Function.update st.workers w worker w').pc := by
  rw [Function.forall_update_iff st.workers
    (fun _ (v : Scheduler.Worker) => Still state' v.pc)]
  exact ⟨hnew, fun w' _ => (hstill w').mono hstate⟩

theorem still_afterReturn {f : Nat} {own : Bool} (h : st.state f ≠ .ready) :
    Still st.state (Scheduler.afterReturn st f own) := by
  refine ⟨Scheduler.active_afterReturn f own, ?_⟩
  unfold Scheduler.afterReturn
  rw [if_neg h]
  split
  · cases own <;> rfl
  · rfl

theorem idle_update {idle : Fin n → IdlePc} {w : Fin n} {pc : IdlePc}
    (h : ∀ w, (idle w).hasCallbacks = false) (hpc : pc.hasCallbacks = false) :
    ∀ w', (Function.update idle w pc w').hasCallbacks = false := by
  rw [Function.forall_update_iff idle (fun _ v => IdlePc.hasCallbacks v = false)]
  exact ⟨hpc, fun w' _ => h w'⟩

/-- The queue and the log of a quiet system stay as they are, whatever the workers do. -/
theorem still_move {st' : State n} {b : Scheduler.Action n}
    (hmove : Scheduler.Move st b st') (hcall : ∀ items, b ≠ .schedule items)
    (hfibers : st.fibers = []) (hstill : ∀ w, Still st.state (st.workers w).pc) :
    st'.fibers = [] ∧ st'.dequeued = st.dequeued ∧
      ∀ w, Still st'.state (st'.workers w).pc := by
  -- A worker with a task is not there.
  have hbusy : ∀ w {pc}, (st.workers w).pc = pc → pc.active = true → False := by
    intro w pc hpc hactive
    have hinactive := (hstill w).1
    rw [hpc, hactive] at hinactive
    cases hinactive
  cases hmove with
  | schedule items hknown => exact absurd rfl (hcall items)
  | newFiber =>
      refine ⟨hfibers, rfl, ?_⟩
      intro w
      exact (hstill w).mono (ready_of_update _ _ (by decide))
  | got w item rest hpc hscan =>
      -- An empty queue has no item to take.
      rw [hfibers] at hscan
      simp [Scheduler.scan] at hscan
  | resume w item f hpc hfiber hlive => exact (hbusy w hpc rfl).elim
  | reuse w item g hpc hcb hstate => exact (hbusy w hpc rfl).elim
  | create w item hpc hcb => exact (hbusy w hpc rfl).elim
  | drop w item hpc hcb hdead => exact (hbusy w hpc rfl).elim
  | swapIn w f own hpc hstate => exact (hbusy w hpc rfl).elim
  | yield w how f own hpc => exact (hbusy w hpc rfl).elim
  | swapOut w f own hpc => exact (hbusy w hpc rfl).elim
  | decrement w f own ready hpc => exact (hbusy w hpc rfl).elim
  | requeue w f own hpc =>
      have hnot := (hstill w).2
      rw [hpc] at hnot
      cases hnot
  | test w f own ready hpc =>
      -- The worker does not find `READY`, so it does not go on to `schedule`.
      have hready : st.state f ≠ .ready := by
        have hnot := (hstill w).2
        rw [hpc] at hnot
        simpa [requeues] using hnot
      exact ⟨hfibers, rfl, still_update st hstill (fun _ h => h) (still_afterReturn hready)⟩
  | hold w f own hpc =>
      exact ⟨hfibers, rfl,
        still_update st hstill (ready_of_update st.state f (by decide)) ⟨rfl, rfl⟩⟩
  | clear w f hpc hstate =>
      exact ⟨hfibers, rfl,
        still_update st hstill (ready_of_update st.state f (by decide)) ⟨rfl, rfl⟩⟩
  | _ => exact ⟨hfibers, rfl, still_update st hstill (fun _ h => h) ⟨rfl, rfl⟩⟩

/-! ### Runs -/

/-- The invariant of settled runs. -/
structure Inv (s : Sys n) : Prop where
  sched : s.sched.Inv
  pending : PendingInv s
  quiet : ∀ st k, s.sched = .running st → s.observed = some k →
    Quiet s st ∧ st.dequeued.length = k

/-- The first time that `Scheduler::stopping` returns true. -/
theorem quiet_of_settled (hs : s.sched = .running st) (hinv : Inv s) {w : Fin n}
    (hstop : s.stopping st = true) (hg : Settled s (.stopping w)) : Quiet s st := by
  obtain ⟨htimers, hpending, hwindow, hidle⟩ := hg st hs hstop
  simp only [Sys.stopping, Bool.and_eq_true, List.isEmpty_iff, beq_iff_eq] at hstop
  obtain ⟨⟨hflag, hfibers⟩, hactive⟩ := hstop
  have hsched := hinv.sched
  rw [hs] at hsched
  -- The two counters are zero, so nothing that they count is there.
  have hcount : s.events.length + Lib.countOf id s.triggered = 0 := by
    rw [← hinv.pending]
    exact hpending
  refine ⟨hflag, hfibers, htimers, List.length_eq_zero_iff.mp (by omega), ?_, ?_, hidle⟩
  · intro who
    cases htriggered : s.triggered who with
    | false => rfl
    | true =>
        have hpos : 0 < Lib.countOf id s.triggered := Lib.countOf_pos htriggered
        omega
  · intro w'
    refine ⟨?_, hwindow w'⟩
    cases hw' : (st.workers w').pc.active with
    | false => rfl
    | true =>
        have hpos : 0 < Lib.countOf Scheduler.Worker.active st.workers := Lib.countOf_pos hw'
        rw [← hsched.count.active] at hpos
        omega

/-- A quiet system stays quiet, and dequeues nothing. -/
theorem move_quiet (hs : s.sched = .running st) (hmove : Move s st a s') (h : Quiet s st) :
    ∀ st', s'.sched = .running st' → Quiet s' st' ∧ st'.dequeued = st.dequeued := by
  intro st' hs'
  cases hmove with
  | run b sched idle hcall hstep hidle =>
      cases hs'
      obtain ⟨hfibers, hdequeued, hstill⟩ :=
        still_move (Scheduler.ends_of_step hstep) hcall h.fibers h.still
      refine ⟨⟨h.stop, hfibers, h.timers, h.events, h.triggered, hstill, ?_⟩, hdequeued⟩
      intro w
      rcases hidle w with hsame | hnone
      · exact (congrArg IdlePc.hasCallbacks hsame).trans (h.idle w)
      · exact hnone
  | schedule who items sched hwho hstep => exact absurd hwho (h.not_mayCall who)
  | addTimer who timer hwho => exact absurd hwho (h.not_mayCall who)
  | addEvent who item hwho => exact absurd hwho (h.not_mayCall who)
  | triggerEvent who item sched hwho hmem hstep =>
      rw [h.events] at hmem
      cases hmem
  | delEvent item hmem =>
      rw [h.events] at hmem
      cases hmem
  | decrementPending who hwho =>
      rw [h.triggered who] at hwho
      cases hwho
  | stop =>
      cases hs.symm.trans hs'
      exact ⟨⟨rfl, h.fibers, h.timers, h.events, h.triggered, h.still, h.idle⟩, rfl⟩
  | cancelTimer timer =>
      cases hs.symm.trans hs'
      refine ⟨⟨h.stop, h.fibers, ?_, h.events, h.triggered, h.still, h.idle⟩, rfl⟩
      show s.timers.erase timer = []
      rw [h.timers]
      rfl
  | look a w pc hpc =>
      cases hs.symm.trans hs'
      refine ⟨⟨h.stop, h.fibers, h.timers, h.events, h.triggered, h.still, ?_⟩, rfl⟩
      exact idle_update h.idle hpc
  | observe w hstop =>
      cases hs.symm.trans hs'
      refine ⟨⟨h.stop, h.fibers, h.timers, h.events, h.triggered, h.still, ?_⟩, rfl⟩
      exact idle_update h.idle rfl
  | listExpiredCb w expired rest hperm =>
      cases hs.symm.trans hs'
      -- No timer is left, so none has expired.
      rw [h.timers] at hperm
      obtain ⟨hexpired, hrest⟩ := List.append_eq_nil_iff.mp hperm.symm.eq_nil
      subst hexpired hrest
      refine ⟨⟨h.stop, h.fibers, rfl, h.events, h.triggered, h.still, ?_⟩, rfl⟩
      exact idle_update h.idle rfl
  | scheduleCbs w cbs sched hidle hstep =>
      have hnone := h.idle w
      rw [hidle] at hnone
      -- The idle fiber collected nothing, and schedules nothing.
      have hcbs : cbs = [] := by simpa [IdlePc.hasCallbacks] using hnone
      subst hcbs
      cases hs'
      cases (show some (Scheduler.Sys.running st) = some (.running st') from hstep)
      refine ⟨⟨h.stop, h.fibers, h.timers, h.events, h.triggered, h.still, ?_⟩, rfl⟩
      exact idle_update h.idle rfl

/-- `observed` is written once, by the step that first finds `Scheduler::stopping` true. -/
theorem move_observed (hmove : Move s st a s') {k : Nat} (h : s'.observed = some k) :
    s.observed = some k ∨
      (∃ w, a = .stopping w) ∧ s.stopping st = true ∧ st.dequeued.length = k := by
  cases hmove with
  | observe w hstop =>
      have h' : s.observed.or (some st.dequeued.length) = some k := h
      cases hold : s.observed with
      | none =>
          rw [hold] at h'
          exact Or.inr ⟨⟨w, rfl⟩, hstop, Option.some.inj h'⟩
      | some k' =>
          rw [hold] at h'
          exact Or.inl h'
  | _ => exact Or.inl h

theorem step_stop_inv (kind : Kind) (s : Sys n) (a : Action n) (s' : Sys n) (h : Inv s)
    (hg : Settled s a) (hstep : step kind s a = some s') : Inv s' := by
  cases hs : s.sched with
  | aborted why =>
      rw [step, hs] at hstep
      cases hstep
  | running st =>
      have hmove := move_of_step hs hstep
      refine ⟨move_sched_inv hs hmove h.sched, move_pendingInv hmove h.pending, ?_⟩
      intro st' k hs' hk
      -- The system was quiet before the step, or this step is the first observation.
      rcases move_observed hmove hk with hold | ⟨⟨w, rfl⟩, hstop, hlen⟩
      · obtain ⟨hquiet, hlen⟩ := h.quiet st k hs hold
        obtain ⟨hquiet', hdequeued⟩ := move_quiet hs hmove hquiet st' hs'
        exact ⟨hquiet', by rw [hdequeued, hlen]⟩
      · have hquiet := quiet_of_settled hs h hstop hg
        obtain ⟨hquiet', hdequeued⟩ := move_quiet hs hmove hquiet st' hs'
        exact ⟨hquiet', by rw [hdequeued, hlen]⟩

theorem stop_inv_init (n : Nat) : Inv (init n) := by
  refine ⟨Scheduler.inv_init n, ?_, ?_⟩
  · show 0 = 0 + Lib.countOf id fun _ : Option (Fin n) => false
    rw [Lib.countOf_eq_zero fun _ => rfl]
  · intro st k _ hk
    cases hk

/-- The promise of `stopping()`, in every state of every settled run. -/
theorem stop_stable (kind : Kind) (actions : List (Action n)) (s : Sys n)
    (hg : Lib.Guarded (step kind) Settled (init n) actions)
    (h : Lib.exec (step kind) (init n) actions = some s) : StopStable s := by
  have hinv := Lib.exec_invariant (step_stop_inv kind) actions (init n) s (stop_inv_init n) hg h
  intro st k hs hk
  obtain ⟨hquiet, hlen⟩ := hinv.quiet st k hs hk
  have hsched := hinv.sched
  rw [hs] at hsched
  refine ⟨hquiet.fibers, ?_, hlen⟩
  rw [hsched.count.active]
  exact Lib.countOf_eq_zero fun w => (hquiet.still w).1

/-- Something is queued after `stopping()` was true. -/
theorem not_stopStable {k : Nat} (hs : s.sched = .running st) (hk : s.observed = some k)
    (hfibers : st.fibers ≠ []) : ¬ StopStable s := fun h => hfibers (h st k hs hk).1

end

/-- A fiber runs, yields to hold and is put away. Then the second worker stops. -/
def heldRun : List (Action 2) :=
  [.run .newFiber, .schedule none [{ fiber := some 0 }], .run (.dequeue thread0),
    .run (.dispatch thread0), .run (.swapIn thread0), .stop, .run (.yield thread0 .hold),
    .run (.swapOut thread0), .run (.decrement thread0), .run (.test thread0),
    .run (.finish thread0), .run (.dequeue thread1), .run (.idleEnter thread1),
    .getNextTimer thread1, .readPending thread1, .stopping thread1, .run (.dequeue thread0)]

theorem stop_stable_held :
    ∃ (s : Sys 2) (st : State 2), Lib.exec (step .ioManager) (init 2) heldRun = some s ∧
      s.sched = .running st ∧ s.observed = some 1 ∧
      st.fibers = [] ∧ st.activeThreadCount = 0 ∧ st.dequeued.length = 1 :=
  ⟨_, _, rfl, rfl, rfl, stop_stable .ioManager heldRun _
    ⟨trivial, trivial, trivial, trivial, trivial, trivial, trivial, trivial, trivial, trivial,
      trivial, trivial, trivial, trivial, trivial,
      fun _ hs _ => by cases hs; exact ⟨rfl, rfl, by decide, by decide⟩, trivial, trivial⟩
    rfl _ 1 rfl rfl⟩

/-- The first worker ran a fiber that yields ready, and has executed the decrement. The queue is
empty and nobody counts as active, so the second worker stops. Then the fiber is queued again. -/
def readyWindow : List (Action 2) :=
  [.run .newFiber, .schedule none [{ fiber := some 0 }], .run (.dequeue thread0),
    .run (.dispatch thread0), .run (.swapIn thread0), .run (.yield thread0 .ready),
    .run (.swapOut thread0), .run (.decrement thread0), .stop, .run (.dequeue thread1),
    .run (.idleEnter thread1), .stopping thread1, .run (.test thread0), .run (.finish thread0)]

/-- The first worker has removed the expired timer from the set and not scheduled its callback. -/
def expiredWindow : List (Action 2) :=
  [.addTimer none ⟨7, false⟩, .stop, .run (.dequeue thread0), .run (.idleEnter thread0),
    .getNextTimer thread0, .listExpiredCb thread0 [⟨7, false⟩] [], .run (.dequeue thread1),
    .run (.idleEnter thread1), .getNextTimer thread1, .readPending thread1, .stopping thread1,
    .scheduleCbs thread0]

/-- The second worker has found no event when the fiber on the first one registers an event and
yields. The event is reported after the second worker has stopped. -/
def lateEvent : List (Action 2) :=
  [.run .newFiber, .schedule none [{ fiber := some 0 }], .stop, .run (.dequeue thread0),
    .run (.dispatch thread0), .run (.swapIn thread0), .run (.dequeue thread1),
    .run (.idleEnter thread1), .getNextTimer thread1, .readPending thread1,
    .addEvent (some thread0) { fiber := some 0 }, .run (.yield thread0 .hold),
    .run (.swapOut thread0), .run (.decrement thread0), .run (.test thread0),
    .run (.finish thread0), .stopping thread1, .run (.dequeue thread0), .run (.idleEnter thread0),
    .getNextTimer thread0, .readPending thread0, .listExpiredCb thread0 [] [], .scheduleCbs thread0,
    .triggerEvent (some thread0) { fiber := some 0 }]

/-- Without the condition the promise fails: for a `Scheduler`, for an `IOManager`, and for an
`IOManager` on which no timer is ever armed. -/
theorem stop_unstable :
    (¬ ∀ (n : Nat) (actions : List (Action n)) (s : Sys n),
      Lib.exec (step .scheduler) (init n) actions = some s → StopStable s) ∧
    (¬ ∀ (n : Nat) (actions : List (Action n)) (s : Sys n),
      Lib.exec (step .ioManager) (init n) actions = some s → StopStable s) ∧
    ¬ ∀ (n : Nat) (actions : List (Action n)) (s : Sys n),
      (∀ who timer, Action.addTimer who timer ∉ actions) →
      Lib.exec (step .ioManager) (init n) actions = some s → StopStable s := by
  refine ⟨?_, ?_, ?_⟩
  · intro h
    exact not_stopStable rfl rfl (by decide) (h 2 readyWindow _ rfl)
  · intro h
    exact not_stopStable rfl rfl (by decide) (h 2 expiredWindow _ rfl)
  · intro h
    refine not_stopStable rfl rfl (by decide) (h 2 lateEvent _ ?_ rfl)
    simp [lateEvent]

end Sylar.Stopping
