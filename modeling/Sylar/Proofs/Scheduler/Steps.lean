import Sylar.Lib.Exclusive
import Sylar.Spec.Scheduler

/-!
# `Sylar.Proofs.Scheduler.Steps`: what one step of the workers does

`Move s a s'` lists everything a step that leaves the system running can do: where the worker was,
what it found, and the state after it. `Fails s a why` lists the failed assertions.
`ends_of_step` is the inversion of the step function. The invariants of the later modules are case
splits over `Move`, and never unfold the step function.

The lemmas about `scan` say which item a worker takes out of the queue.
-/

set_option autoImplicit false

namespace Sylar.Scheduler

section
variable {n : Nat}

/-! ### Updates -/

@[simp] theorem workers_setState (s : State n) (f : Nat) (x : FiberState) :
    (s.setState f x).workers = s.workers := rfl

/-- Storing the state a fiber has changes nothing. -/
theorem setState_self (s : State n) {f : Nat} {x : FiberState} (h : s.state f = x) :
    s.setState f x = s := by
  subst h
  unfold State.setState
  rw [Function.update_eq_self]

theorem schedule_cons (s : State n) (item : Item) (items : List Item) :
    schedule s (item :: items) = schedule (scheduleNoLock s item) items := rfl

/-- `schedule` appends the non-empty items to the queue and to its history, and nothing else. -/
theorem schedule_eq (s : State n) (items : List Item) :
    schedule s items = { s with
      fibers := s.fibers ++ items.filter Item.nonempty
      accepted := s.accepted ++ items.filter Item.nonempty } := by
  induction items generalizing s with
  | nil => simp [schedule]
  | cons item items ih =>
      rw [schedule_cons, ih, scheduleNoLock]
      by_cases h : item.nonempty = true
      · simp [h]
      · simp [h]

/-! ### The scan -/

/-- What the scan takes: an item for this thread, not empty, whose fiber does not run. The rest of
the queue keeps its order. -/
theorem scan_some {tid : Nat} {state : Nat → FiberState} {item : Item} :
    ∀ {queue rest : List Item}, scan tid state queue = .ok (some (item, rest)) →
      (∃ before after, queue = before ++ item :: after ∧ rest = before ++ after) ∧
      (∀ t, item.thread = some t → t = tid) ∧
      ∀ f, item.fiber = some f → state f ≠ .exec := by
  intro queue
  induction queue with
  | nil =>
      intro rest h
      simp [scan] at h
  | cons head tail ih =>
      intro rest h
      -- An item of another thread and a running fiber are passed over in the same way.
      have hskip : ∀ {r}, skip head (scan tid state tail) = .ok (some (item, r)) →
          (∃ before after, head :: tail = before ++ item :: after ∧ r = before ++ after) ∧
          (∀ t, item.thread = some t → t = tid) ∧
          ∀ f, item.fiber = some f → state f ≠ .exec := by
        intro r hr
        unfold skip at hr
        split at hr
        · cases hr
        · cases hr
        · next found rest' hscan =>
          cases hr
          obtain ⟨⟨before, after, hqueue, hrest⟩, hthread, hstate⟩ := ih hscan
          exact ⟨⟨head :: before, after, by rw [hqueue]; rfl, by rw [hrest]; rfl⟩, hthread, hstate⟩
      unfold scan at h
      split at h
      · exact hskip h
      · next hmine =>
        split at h
        · cases h
        · split at h
          · exact hskip h
          · next hrun =>
            cases h
            refine ⟨⟨[], tail, rfl, rfl⟩, ?_, ?_⟩
            · intro t ht
              by_contra hne
              refine hmine ⟨by rw [ht]; rfl, ?_⟩
              rw [ht]
              exact fun heq => hne (Option.some.inj heq)
            · intro f hf hexec
              rw [hf] at hrun
              exact hrun (by simp [hexec])

/-- The scan fails only on an empty item. -/
theorem scan_error {tid : Nat} {state : Nat → FiberState} {why : Abort} :
    ∀ {queue : List Item}, scan tid state queue = .error why →
      why = .emptyItem ∧ ∃ item ∈ queue, item.nonempty = false := by
  intro queue
  induction queue with
  | nil =>
      intro h
      simp [scan] at h
  | cons head tail ih =>
      intro h
      have hskip : skip head (scan tid state tail) = .error why →
          why = .emptyItem ∧ ∃ item ∈ head :: tail, item.nonempty = false := by
        intro hs
        unfold skip at hs
        split at hs
        · next why' hscan =>
          cases hs
          obtain ⟨hwhy, item, hitem, hempty⟩ := ih hscan
          exact ⟨hwhy, item, List.mem_cons_of_mem _ hitem, hempty⟩
        · cases hs
        · cases hs
      unfold scan at h
      split at h
      · exact hskip h
      · split at h
        · next hempty =>
          cases h
          exact ⟨rfl, head, List.mem_cons_self, by simpa using hempty⟩
        · split at h
          · exact hskip h
          · cases h

/-! ### The step relation -/

/-- The state in which a fiber leaves. `YieldToHold` stores nothing, so the fiber is still in the
state `EXEC`. -/
def Outcome.leaves : Outcome → FiberState
  | .ready => .ready
  | .hold => .exec
  | .term => .term
  | .except => .except

/-- Everything a step that leaves the system running can do. -/
inductive Move (s : State n) : Action n → State n → Prop where
  | schedule (items : List Item)
      (hknown : ∀ item ∈ items, ∀ f, item.fiber = some f → f < s.nextFiber) :
      Move s (.schedule items) (schedule s items)
  | newFiber :
      Move s .newFiber { s.setState s.nextFiber .init with nextFiber := s.nextFiber + 1 }
  | nothing (w : Fin n) (hpc : (s.workers w).pc = .top)
      (hscan : scan w.val s.state s.fibers = .ok none) :
      Move s (.dequeue w) (s.setPc w .nothing)
  | got (w : Fin n) (item : Item) (rest : List Item) (hpc : (s.workers w).pc = .top)
      (hscan : scan w.val s.state s.fibers = .ok (some (item, rest))) :
      Move s (.dequeue w) ({ s with
        fibers := rest
        activeThreadCount := s.activeThreadCount + 1
        dequeued := s.dequeued ++ [(w, item)] }.setPc w (.got item))
  | resume (w : Fin n) (item : Item) (f : Nat) (hpc : (s.workers w).pc = .got item)
      (hfiber : item.fiber = some f) (hlive : (s.state f).finished = false) :
      Move s (.dispatch w) (s.setPc w (.enter f false))
  | reuse (w : Fin n) (item : Item) (g : Nat) (hpc : (s.workers w).pc = .got item)
      (hcb : (s.workers w).cbFiber = some g)
      (hstate : (s.state g).finished = true ∨ s.state g = .init) :
      Move s (.dispatch w) ((s.setState g .init).setPc w (.enter g true))
  | create (w : Fin n) (item : Item) (hpc : (s.workers w).pc = .got item)
      (hcb : (s.workers w).cbFiber = none) :
      Move s (.dispatch w)
        ({ s.setState s.nextFiber .init with nextFiber := s.nextFiber + 1 }.setWorker w
          { s.workers w with pc := .enter s.nextFiber true, cbFiber := some s.nextFiber })
  | drop (w : Fin n) (item : Item) (hpc : (s.workers w).pc = .got item)
      (hcb : item.cb = none) (hdead : ∀ f, item.fiber = some f → (s.state f).finished = true) :
      Move s (.dispatch w)
        ({ s with activeThreadCount := Lib.wrapPred s.activeThreadCount }.setPc w .top)
  | swapIn (w : Fin n) (f : Nat) (own : Bool) (hpc : (s.workers w).pc = .enter f own)
      (hstate : s.state f ≠ .exec) :
      Move s (.swapIn w) ((s.setState f .exec).setPc w (.inside f own))
  | yield (w : Fin n) (how : Outcome) (f : Nat) (own : Bool)
      (hpc : (s.workers w).pc = .inside f own) :
      Move s (.yield w how) ((s.setState f how.leaves).setPc w (.leaving f own))
  | swapOut (w : Fin n) (f : Nat) (own : Bool) (hpc : (s.workers w).pc = .leaving f own) :
      Move s (.swapOut w) (s.setWorker w { s.workers w with
        pc := .returned f own (s.state f == .ready)
        ready := (s.workers w).ready ++ (if s.state f == .ready then [f] else []) })
  | decrement (w : Fin n) (f : Nat) (own ready : Bool)
      (hpc : (s.workers w).pc = .returned f own ready) :
      Move s (.decrement w)
        ({ s with activeThreadCount := Lib.wrapPred s.activeThreadCount }.setPc w
          (.decremented f own ready))
  | test (w : Fin n) (f : Nat) (own ready : Bool)
      (hpc : (s.workers w).pc = .decremented f own ready) :
      Move s (.test w) (s.setPc w (afterReturn s f own))
  | requeue (w : Fin n) (f : Nat) (own : Bool) (hpc : (s.workers w).pc = .requeue f own) :
      Move s (.finish w) ((Scheduler.schedule s [{ fiber := some f }]).setWorker w
        { s.workers w with
          pc := .top
          cbFiber := if own then none else (s.workers w).cbFiber
          again := (s.workers w).again ++ [f] })
  | hold (w : Fin n) (f : Nat) (own : Bool) (hpc : (s.workers w).pc = .hold f own) :
      Move s (.finish w) ((s.setState f .hold).setWorker w { s.workers w with
        pc := .top
        cbFiber := if own then none else (s.workers w).cbFiber })
  | clear (w : Fin n) (f : Nat) (hpc : (s.workers w).pc = .clear f)
      (hstate : (s.state f).finished = true ∨ s.state f = .init) :
      Move s (.finish w) ((s.setState f .init).setPc w .top)
  | exit (w : Fin n) (hpc : (s.workers w).pc = .nothing)
      (hterm : (s.workers w).idleTerm = true) :
      Move s (.idleEnter w) (s.setPc w .exited)
  | idleEnter (w : Fin n) (hpc : (s.workers w).pc = .nothing)
      (hterm : (s.workers w).idleTerm = false) :
      Move s (.idleEnter w)
        ({ s with idleThreadCount := s.idleThreadCount + 1 }.setPc w .idle)
  | idleLeave (w : Fin n) (term : Bool) (hpc : (s.workers w).pc = .idle) :
      Move s (.idleLeave w term)
        ({ s with idleThreadCount := Lib.wrapPred s.idleThreadCount }.setWorker w
          { s.workers w with pc := .top, idleTerm := term })

/-- Why a step can end the process. -/
inductive Fails (s : State n) : Action n → Abort → Prop where
  | scan (w : Fin n) (why : Abort) (hpc : (s.workers w).pc = .top)
      (hscan : scan w.val s.state s.fibers = .error why) : Fails s (.dequeue w) why
  | swapIn (w : Fin n) (f : Nat) (own : Bool) (hpc : (s.workers w).pc = .enter f own)
      (hstate : s.state f = .exec) : Fails s (.swapIn w) .swapInExec
  | yield (w : Fin n) (how : Outcome) : Fails s (.yield w how) .yieldNotExec
  | reset (a : Action n) : Fails s a .resetRunning

/-- The step ends as `Move` or `Fails` says. -/
def Ends (s : State n) (a : Action n) : Sys n → Prop
  | .running s' => Move s a s'
  | .aborted why => Fails s a why

theorem ends_dequeue {s : State n} {w : Fin n} (hpc : (s.workers w).pc = .top) :
    Ends s (.dequeue w) (.ofResult (dequeue s w)) := by
  unfold dequeue
  cases hscan : scan w.val s.state s.fibers with
  | error why => exact .scan w why hpc hscan
  | ok found =>
      cases found with
      | none => exact .nothing w hpc hscan
      | some found => exact .got w found.1 found.2 hpc hscan

theorem finished_or_init {x : FiberState} (h : (x.finished || x == .init) = true) :
    x.finished = true ∨ x = .init := by
  simpa using h

theorem ends_prepare {s : State n} {w : Fin n} {item : Item}
    (hpc : (s.workers w).pc = .got item) :
    Ends s (.dispatch w) (.ofResult (prepare s w)) := by
  unfold prepare
  cases hcb : (s.workers w).cbFiber with
  | none => exact .create w item hpc hcb
  | some g =>
      simp only
      split
      · next hstate => exact .reuse w item g hpc hcb (finished_or_init hstate)
      · exact .reset _

theorem ends_fallback {s : State n} {w : Fin n} {item : Item}
    (hpc : (s.workers w).pc = .got item)
    (hdead : ∀ f, item.fiber = some f → (s.state f).finished = true) :
    Ends s (.dispatch w) (.ofResult (dispatch.fallback s w item)) := by
  unfold dispatch.fallback
  split
  · exact ends_prepare hpc
  · next hcb => exact .drop w item hpc (by simpa using hcb) hdead

theorem ends_dispatch {s : State n} {w : Fin n} {item : Item}
    (hpc : (s.workers w).pc = .got item) :
    Ends s (.dispatch w) (.ofResult (dispatch s w item)) := by
  unfold dispatch
  cases hfiber : item.fiber with
  | none =>
      refine ends_fallback hpc ?_
      intro f hf
      rw [hfiber] at hf
      cases hf
  | some f =>
      simp only
      split
      · next hlive => exact .resume w item f hpc hfiber (by simpa using hlive)
      · next hdead =>
        refine ends_fallback hpc ?_
        intro f' hf'
        rw [hfiber] at hf'
        cases hf'
        simpa using hdead

theorem ends_yield {s : State n} {w : Fin n} {f : Nat} {own : Bool}
    (hpc : (s.workers w).pc = .inside f own) (how : Outcome) :
    Ends s (.yield w how) (.ofResult (yield s w f own how)) := by
  have hmove := Move.yield w how f own hpc
  cases how with
  | ready =>
      simp only [yield]
      split
      · exact hmove
      · exact .yield w _
  | hold =>
      simp only [yield]
      split
      · next hexec =>
        -- The store that is not there: the fiber keeps the state it has.
        rw [Outcome.leaves, setState_self s hexec] at hmove
        exact hmove
      · exact .yield w _
  | term => exact hmove
  | except => exact hmove

/-- The inversion of the step function. -/
theorem ends_of_step {s : State n} {a : Action n} {t : Sys n}
    (h : step (.running s) a = some t) : Ends s a t := by
  change stepRunning s a = some t at h
  -- The match of each case on the program counter is the hypothesis that `Move` asks for.
  cases a with
  | schedule items =>
      simp only [stepRunning] at h
      split at h
      · next hall =>
        cases h
        refine .schedule items ?_
        intro item hitem f hf
        have hitem' := List.all_eq_true.mp hall item hitem
        simpa [hf] using hitem'
      · cases h
  | newFiber =>
      cases h
      exact .newFiber
  | dequeue w =>
      simp only [stepRunning] at h
      split at h
      · next hpc =>
        cases h
        exact ends_dequeue hpc
      · cases h
  | dispatch w =>
      simp only [stepRunning] at h
      split at h
      · next item hpc =>
        cases h
        exact ends_dispatch hpc
      · cases h
  | swapIn w =>
      simp only [stepRunning] at h
      split at h
      · next f own hpc =>
        split at h
        · next hexec =>
          cases h
          exact .swapIn w f own hpc hexec
        · next hexec =>
          cases h
          exact .swapIn w f own hpc hexec
      · cases h
  | yield w how =>
      simp only [stepRunning] at h
      split at h
      · next f own hpc =>
        cases h
        exact ends_yield hpc how
      · cases h
  | swapOut w =>
      simp only [stepRunning] at h
      split at h
      · next f own hpc =>
        cases h
        exact .swapOut w f own hpc
      · cases h
  | decrement w =>
      simp only [stepRunning] at h
      split at h
      · next f own ready hpc =>
        cases h
        exact .decrement w f own ready hpc
      · cases h
  | test w =>
      simp only [stepRunning] at h
      split at h
      · next f own ready hpc =>
        cases h
        exact .test w f own ready hpc
      · cases h
  | finish w =>
      simp only [stepRunning] at h
      split at h
      · next f own hpc =>
        cases h
        exact .requeue w f own hpc
      · next f own hpc =>
        cases h
        exact .hold w f own hpc
      · next f hpc =>
        split at h
        · next hstate =>
          cases h
          exact .clear w f hpc (finished_or_init hstate)
        · cases h
          exact .reset _
      · cases h
  | idleEnter w =>
      simp only [stepRunning] at h
      split at h
      · next hpc =>
        split at h
        · next hterm =>
          cases h
          exact .exit w hpc hterm
        · next hterm =>
          cases h
          exact .idleEnter w hpc (by simpa using hterm)
      · cases h
  | idleLeave w term =>
      simp only [stepRunning] at h
      split at h
      · next hpc =>
        cases h
        exact .idleLeave w term hpc
      · cases h

/-! ### Fibers that exist -/

/-- The fiber of the item a worker handles, from the dequeue to the end of the iteration. -/
def Pc.fiber : Pc → Option Nat
  | .got item => item.fiber
  | .enter f _ => some f
  | .inside f _ => some f
  | .leaving f _ => some f
  | .returned f _ _ => some f
  | .decremented f _ _ => some f
  | .requeue f _ => some f
  | .hold f _ => some f
  | .clear f => some f
  | _ => none

/-- A worker has the fiber `f` in its hands, or keeps it as its `cb_fiber`. -/
def Worker.holds (worker : Worker) (f : Nat) : Prop :=
  worker.pc.fiber = some f ∨ worker.cbFiber = some f

/-- Every fiber that is queued or held has been created. -/
structure Known (s : State n) : Prop where
  queue : ∀ item ∈ s.fibers, ∀ f, item.fiber = some f → f < s.nextFiber
  held : ∀ w f, (s.workers w).holds f → f < s.nextFiber

theorem fiber_afterReturn {s : State n} {f g : Nat} {own : Bool}
    (h : (afterReturn s f own).fiber = some g) : g = f := by
  unfold afterReturn at h
  split at h
  · exact (Option.some.inj h).symm
  · split at h
    · split at h
      · exact (Option.some.inj h).symm
      · cases h
    · exact (Option.some.inj h).symm

/-- One worker changes. What it has to do with a fiber it had to do with it before, or there is a
reason `G`. -/
theorem update_cases (h : Worker → Nat → Prop) {s s' : State n} {w : Fin n} {worker : Worker}
    {G : Fin n → Nat → Prop} (hworkers : s'.workers = Function.update s.workers w worker)
    (hself : ∀ f, h worker f → h (s.workers w) f ∨ G w f) :
    ∀ w' f, h (s'.workers w') f → h (s.workers w') f ∨ G w' f := by
  rw [hworkers, Function.forall_update_iff s.workers
    (fun w' (v : Worker) => ∀ f, h v f → h (s.workers w') f ∨ G w' f)]
  exact ⟨hself, fun w' _ f hf => Or.inl hf⟩

/-- How a worker comes to hold a fiber: it held it before, it dequeued it, or it created it. -/
theorem move_holds {s s' : State n} {a : Action n} (hmove : Move s a s') :
    ∀ w f, (s'.workers w).holds f → (s.workers w).holds f ∨
      (∃ item rest, a = .dequeue w ∧ scan w.val s.state s.fibers = .ok (some (item, rest)) ∧
        item.fiber = some f) ∨
      (a = .dispatch w ∧ f = s.nextFiber ∧ f < s'.nextFiber) := by
  cases hmove with
  | schedule items hknown =>
      intro w f hf
      rw [schedule_eq] at hf
      exact Or.inl hf
  | newFiber => exact fun w f hf => Or.inl hf
  | got w item rest hpc hscan =>
      refine update_cases Worker.holds rfl ?_
      intro f hf
      rcases hf with hf | hf
      · exact Or.inr (Or.inl ⟨item, rest, rfl, hscan, hf⟩)
      · exact Or.inl (Or.inr hf)
  | reuse w item g hpc hcb hstate =>
      refine update_cases Worker.holds rfl ?_
      intro f hf
      rcases hf with hf | hf
      · exact Or.inl (Or.inr (hcb.trans hf))
      · exact Or.inl (Or.inr hf)
  | create w item hpc hcb =>
      refine update_cases Worker.holds rfl ?_
      intro f hf
      -- The new fiber is both in the hands of the worker and its `cb_fiber`.
      have hf' : some s.nextFiber = some f ∨ some s.nextFiber = some f := hf
      rw [or_self, Option.some.injEq] at hf'
      subst hf'
      exact Or.inr (Or.inr ⟨rfl, rfl, Nat.lt_succ_self _⟩)
  | test w f own ready hpc =>
      refine update_cases Worker.holds rfl ?_
      intro g hg
      rcases hg with hg | hg
      · rw [fiber_afterReturn hg]
        exact Or.inl (Or.inl (by rw [hpc]; rfl))
      · exact Or.inl (Or.inr hg)
  | requeue w f own hpc =>
      rw [schedule_eq]
      refine update_cases Worker.holds rfl ?_
      intro g hg
      -- A `cb_fiber` is let go of, and another fiber was never the worker's own.
      cases own <;> simp_all [Worker.holds, Pc.fiber]
  | hold w f own hpc =>
      refine update_cases Worker.holds rfl ?_
      intro g hg
      cases own <;> simp_all [Worker.holds, Pc.fiber]
  | _ =>
      -- In every other case the worker keeps the fiber it has, or lets go of it.
      refine update_cases Worker.holds rfl ?_
      intro g hg
      simp_all [Worker.holds, Pc.fiber]

theorem move_nextFiber {s s' : State n} {a : Action n} (hmove : Move s a s') :
    s.nextFiber ≤ s'.nextFiber := by
  cases hmove with
  | schedule items hknown =>
      rw [schedule_eq]
  | requeue w f own hpc =>
      rw [schedule_eq]
      exact le_rfl
  | newFiber => exact Nat.le_succ _
  | create w item hpc hcb => exact Nat.le_succ _
  | _ => exact le_rfl

/-- Where the items of the queue come from. -/
theorem move_fibers {s s' : State n} {a : Action n} (hmove : Move s a s') :
    ∀ item ∈ s'.fibers, item ∈ s.fibers ∨ (∀ f, item.fiber = some f → f < s.nextFiber) ∨
      ∃ w f, (s.workers w).holds f ∧ item = { fiber := some f } := by
  intro item hitem
  cases hmove with
  | schedule items hknown =>
      rw [schedule_eq] at hitem
      rcases List.mem_append.mp hitem with hold | hnew
      · exact Or.inl hold
      · exact Or.inr (Or.inl (hknown item (List.mem_of_mem_filter hnew)))
  | got w taken rest hpc hscan =>
      obtain ⟨⟨before, after, hqueue, hrest⟩, -, -⟩ := scan_some hscan
      have hitem' : item ∈ before ++ after := hrest ▸ hitem
      refine Or.inl ?_
      rw [hqueue]
      simp only [List.mem_append, List.mem_cons] at hitem' ⊢
      tauto
  | requeue w f own hpc =>
      rw [schedule_eq] at hitem
      rcases List.mem_append.mp hitem with hold | hnew
      · exact Or.inl hold
      · refine Or.inr (Or.inr ⟨w, f, Or.inl (by rw [hpc]; rfl), ?_⟩)
        exact List.mem_singleton.mp (List.mem_of_mem_filter hnew)
  | _ => exact Or.inl hitem

theorem move_known {s s' : State n} {a : Action n} (hmove : Move s a s') (h : Known s) :
    Known s' := by
  have hnext := move_nextFiber hmove
  refine ⟨?_, ?_⟩
  · intro item hitem f hf
    rcases move_fibers hmove item hitem with hold | hnew | ⟨w, g, hg, rfl⟩
    · exact lt_of_lt_of_le (h.queue item hold f hf) hnext
    · exact lt_of_lt_of_le (hnew f hf) hnext
    · cases hf
      exact lt_of_lt_of_le (h.held w f hg) hnext
  · intro w f hf
    rcases move_holds hmove w f hf with hold | ⟨item, rest, -, hscan, hfiber⟩ | ⟨-, -, hlt⟩
    · exact lt_of_lt_of_le (h.held w f hold) hnext
    · obtain ⟨⟨before, after, hqueue, -⟩, -, -⟩ := scan_some hscan
      have hmem : item ∈ s.fibers := by
        rw [hqueue]
        simp
      exact lt_of_lt_of_le (h.queue item hmem f hfiber) hnext
    · exact hlt

end

end Sylar.Scheduler
