import Sylar.Proofs.Scheduler.Steps

/-!
# `Sylar.Proofs.Scheduler.Exclusion`: when a fiber runs on one worker only

`run()` looks at the state of a fiber when it dequeues an entry, and sets it to `EXEC` later, in
`swapIn`. Between the two another worker may dequeue a second entry of the same fiber. After a
yield the state is `READY` before the fiber has left its stack, and a second entry may again be
dequeued. `fiber_shared` runs both.

`Sole` is the condition that rules this out: a worker dequeues an entry of a fiber only when no
other worker holds that fiber. A worker holds the fiber of its item from the dequeue to the end of
the iteration, and it holds its `cb_fiber`. Under the condition every fiber has one holder at most,
and nobody but the holder writes the state of a fiber.
-/

set_option autoImplicit false

namespace Sylar.Scheduler

open Lib (thread0 thread1)

section
variable {n : Nat} {s s' : State n} {a : Action n}

/-- The condition on a step: a dequeued fiber is held by no other worker. -/
def Sole (t : Sys n) (a : Action n) : Prop :=
  match t, a with
  | .running s, .dequeue w =>
    ∀ item rest f, scan w.val s.state s.fibers = .ok (some (item, rest)) → item.fiber = some f →
      ∀ w', w' ≠ w → ¬ (s.workers w').holds f
  | _, _ => True

/-- The condition is met while nobody holds a fiber. -/
theorem sole_of_free {w : Fin n}
    (h : ∀ w', (s.workers w').pc.fiber = none ∧ (s.workers w').cbFiber = none) :
    Sole (.running s) (.dequeue w) := by
  intro item rest f _ _ w' _ hf
  rcases hf with hf | hf
  · rw [(h w').1] at hf
    cases hf
  · rw [(h w').2] at hf
    cases hf

/-- The fiber a worker is about to swap in. -/
def Pc.waits : Pc → Option Nat
  | .got item => item.fiber
  | .enter f _ => some f
  | _ => none

theorem holds_of_waits {worker : Worker} {f : Nat} (h : worker.pc.waits = some f) :
    worker.holds f := by
  refine Or.inl ?_
  cases hpc : worker.pc <;> simp_all [Pc.waits, Pc.fiber]

theorem holds_of_running {worker : Worker} {f : Nat} (h : worker.pc.running = some f) :
    worker.holds f := by
  refine Or.inl ?_
  cases hpc : worker.pc <;> simp_all [Pc.running, Pc.fiber]

/-- The invariant of runs in which every dequeue is sole. -/
structure SoleInv (s : State n) : Prop where
  sole : Lib.Exclusive Worker.holds s.workers
  /-- What a worker is about to swap in does not run. -/
  notExec : ∀ w f, (s.workers w).pc.waits = some f → s.state f ≠ .exec

/-- A worker gets a fiber that nobody else holds: one that it dequeues, or a new one. -/
theorem move_sole (hmove : Move s a s') (hknown : Known s) (hg : Sole (.running s) a)
    (h : Lib.Exclusive Worker.holds s.workers) : Lib.Exclusive Worker.holds s'.workers := by
  refine h.step ?_
  intro w f hf
  rcases move_holds hmove w f hf with hold | ⟨item, rest, rfl, hscan, hfiber⟩ | ⟨rfl, rfl, -⟩
  · exact Or.inl hold
  · -- The worker has dequeued the fiber, and the condition says that no other one holds it.
    refine Or.inr ?_
    intro w' hne hf'
    rcases move_holds hmove w' f hf' with hold' | ⟨_, _, heq, -, -⟩ | ⟨heq, -, -⟩
    · exact hg item rest f hscan hfiber w' hne hold'
    · cases heq
      exact hne rfl
    · cases heq
  · -- The worker has created the fiber.
    refine Or.inr ?_
    intro w' hne hf'
    rcases move_holds hmove w' _ hf' with hold' | ⟨_, _, heq, -, -⟩ | ⟨heq, -, -⟩
    · exact lt_irrefl _ (hknown.held w' _ hold')
    · cases heq
    · cases heq
      exact hne rfl

/-- A step of one worker. -/
theorem SoleInv.update (hsole : Lib.Exclusive Worker.holds s'.workers) {w : Fin n}
    {worker : Worker} (hworkers : s'.workers = Function.update s.workers w worker)
    (hown : ∀ f, worker.pc.waits = some f → s'.state f ≠ .exec)
    (hother : ∀ w', w' ≠ w → ∀ f, (s.workers w').pc.waits = some f → s'.state f ≠ .exec) :
    SoleInv s' := by
  refine ⟨hsole, ?_⟩
  rw [hworkers, Function.forall_update_iff s.workers
    (fun _ (v : Worker) => ∀ f, v.pc.waits = some f → s'.state f ≠ .exec)]
  exact ⟨hown, hother⟩

/-- The state of a fiber that no other worker holds may change. -/
theorem SoleInv.other_of_free (h : SoleInv s) {w : Fin n} {g : Nat}
    (hfree : ∀ w', w' ≠ w → ¬ (s.workers w').holds g) (x : FiberState) :
    ∀ w', w' ≠ w → ∀ f, (s.workers w').pc.waits = some f →
      Function.update s.state g x f ≠ .exec := by
  intro w' hne f hwaits
  have hfg : f ≠ g := by
    intro heq
    exact hfree w' hne (heq ▸ holds_of_waits hwaits)
  rw [Function.update_of_ne hfg]
  exact h.notExec w' f hwaits

/-- A fiber that is just created is held by nobody. -/
theorem not_holds_nextFiber (hknown : Known s) (w : Fin n) :
    ¬ (s.workers w).holds s.nextFiber := by
  intro h
  exact lt_irrefl _ (hknown.held w _ h)

/-- A step in which the holder of a fiber changes its state, and waits for no other fiber. -/
theorem SoleInv.write (h : SoleInv s) (hsole : Lib.Exclusive Worker.holds s'.workers) {w : Fin n}
    {worker : Worker} {g : Nat} {x : FiberState}
    (hworkers : s'.workers = Function.update s.workers w worker)
    (hstate : s'.state = Function.update s.state g x) (hg : (s.workers w).holds g)
    (hown : ∀ f, worker.pc.waits = some f → f = g ∧ x ≠ .exec) : SoleInv s' := by
  refine SoleInv.update hsole hworkers ?_ ?_
  · intro f hf
    obtain ⟨hfg, hx⟩ := hown f hf
    rw [hstate, hfg, Function.update_self]
    exact hx
  · rw [hstate]
    exact h.other_of_free (fun w' hne => h.sole.free hg hne) x

/-- A step in which a worker changes no state, and waits for no new fiber. -/
theorem SoleInv.keep (h : SoleInv s) (hsole : Lib.Exclusive Worker.holds s'.workers) {w : Fin n}
    {worker : Worker} (hworkers : s'.workers = Function.update s.workers w worker)
    (hstate : s'.state = s.state)
    (hown : ∀ f, worker.pc.waits = some f → (s.workers w).pc.waits = some f) : SoleInv s' := by
  refine SoleInv.update hsole hworkers ?_ ?_
  · intro f hf
    rw [hstate]
    exact h.notExec w f (hown f hf)
  · intro w' _ f hf
    rw [hstate]
    exact h.notExec w' f hf

theorem waits_afterReturn (f : Nat) (own : Bool) : (afterReturn s f own).waits = none := by
  unfold afterReturn
  repeat' split
  all_goals rfl

theorem move_soleInv (hmove : Move s a s') (hknown : Known s) (hg : Sole (.running s) a)
    (h : SoleInv s) : SoleInv s' := by
  have hsole := move_sole hmove hknown hg h.sole
  cases hmove with
  | schedule items hknown' =>
      rw [schedule_eq]
      exact ⟨h.sole, h.notExec⟩
  | newFiber =>
      refine ⟨h.sole, ?_⟩
      intro w f hf
      have hne : f ≠ s.nextFiber := by
        intro heq
        exact not_holds_nextFiber hknown w (heq ▸ holds_of_waits hf)
      show Function.update s.state s.nextFiber .init f ≠ .exec
      rw [Function.update_of_ne hne]
      exact h.notExec w f hf
  | got w item rest hpc hscan =>
      -- The scan passes over fibers that run.
      exact SoleInv.update hsole (w := w) rfl (fun f hf => (scan_some hscan).2.2 f hf)
        (fun w' _ f hf => h.notExec w' f hf)
  | resume w item f hpc hfiber hlive =>
      refine h.keep hsole (w := w) rfl rfl ?_
      intro g hg
      rw [hpc]
      exact hfiber.trans hg
  | reuse w item g hpc hcb hstate =>
      -- The worker resets its own `cb_fiber`, which it holds.
      refine h.write hsole (w := w) rfl rfl (Or.inr hcb) ?_
      intro f hf
      exact ⟨(Option.some.inj hf).symm, by decide⟩
  | create w item hpc hcb =>
      refine SoleInv.update hsole (w := w) rfl ?_
        (h.other_of_free (fun w' _ => not_holds_nextFiber hknown w') .init)
      intro f hf
      cases hf
      show Function.update s.state s.nextFiber .init s.nextFiber ≠ .exec
      rw [Function.update_self]
      decide
  | swapIn w f own hpc hstate =>
      exact h.write hsole (w := w) rfl rfl (Or.inl (by rw [hpc]; rfl)) (fun g hg => by cases hg)
  | yield w how f own hpc =>
      exact h.write hsole (w := w) rfl rfl (Or.inl (by rw [hpc]; rfl)) (fun g hg => by cases hg)
  | hold w f own hpc =>
      exact h.write hsole (w := w) rfl rfl (Or.inl (by rw [hpc]; rfl)) (fun g hg => by cases hg)
  | clear w f hpc hstate =>
      exact h.write hsole (w := w) rfl rfl (Or.inl (by rw [hpc]; rfl)) (fun g hg => by cases hg)
  | test w f own ready hpc =>
      refine h.keep hsole (w := w) rfl rfl ?_
      intro g hg
      rw [waits_afterReturn] at hg
      cases hg
  | requeue w f own hpc =>
      rw [schedule_eq] at hsole ⊢
      exact h.keep hsole (w := w) rfl rfl (fun g hg => by cases hg)
  | _ => exact h.keep hsole rfl rfl (fun g hg => by cases hg)

/-- What holds of the system in every state of a run of sole dequeues. -/
def Sys.SoleInv : Sys n → Prop
  | .running s => Known s ∧ Scheduler.SoleInv s
  | .aborted why => why ≠ .swapInExec

theorem step_soleInv (t : Sys n) (a : Action n) (t' : Sys n) (h : t.SoleInv) (hg : Sole t a)
    (hstep : step t a = some t') : t'.SoleInv := by
  cases t with
  | aborted why => cases hstep
  | running s =>
      have hends := ends_of_step hstep
      cases t' with
      | running s' => exact ⟨move_known hends h.1, move_soleInv hends h.1 hg h.2⟩
      | aborted why =>
          intro hwhy
          subst hwhy
          cases hends with
          | scan w _ hpc hscan => cases (scan_error hscan).1
          | swapIn w f own hpc hstate => exact h.2.notExec w f (by rw [hpc]; rfl) hstate

theorem soleInv_init (n : Nat) : (init n).SoleInv := by
  refine ⟨⟨?_, ?_⟩, ⟨?_, ?_⟩⟩
  · intro item hitem
    cases hitem
  · intro w f hf
    rcases hf with hf | hf
    · cases hf
    · cases hf
  · intro w w' f hf
    rcases hf with hf | hf
    · cases hf
    · cases hf
  · intro w f hf
    cases hf

/-- In every run of sole dequeues, no fiber runs on two workers and `swapIn` does not fail. -/
theorem fiber_runs_once (actions : List (Action n)) (t : Sys n)
    (hg : Lib.Guarded step Sole (init n) actions)
    (h : Lib.exec step (init n) actions = some t) : t.RunsOnce := by
  have hinv := Lib.exec_invariant step_soleInv actions (init n) t (soleInv_init n) hg h
  cases t with
  | aborted why => exact hinv
  | running s =>
      intro w w' f hw hw'
      exact hinv.2.sole w w' f (holds_of_running hw) (holds_of_running hw')

end

/-- A fiber with two entries. The second worker dequeues its entry when the first one has put the
fiber away. -/
def handedOver : List (Action 2) :=
  [.newFiber, .schedule [{ fiber := some 0 }, { fiber := some 0 }], .dequeue thread0,
    .dispatch thread0, .swapIn thread0, .yield thread0 .hold, .swapOut thread0, .decrement thread0,
    .test thread0, .finish thread0, .dequeue thread1, .dispatch thread1, .swapIn thread1]

theorem fiber_runs_once_handed_over :
    ∃ s : State 2, Lib.exec step (init 2) handedOver = some (.running s) ∧
      (s.workers 1).pc.running = some 0 ∧ (Sys.running s).RunsOnce :=
  ⟨_, rfl, rfl, fiber_runs_once handedOver _
    ⟨trivial, trivial, sole_of_free (by decide), trivial, trivial, trivial, trivial, trivial,
      trivial, trivial, sole_of_free (by decide), trivial, trivial, trivial⟩ rfl⟩

/-- Without the condition both parts fail. Two workers dequeue the two entries before either swaps
the fiber in, and the second `swapIn` fails. Or the second worker dequeues its entry when the fiber
has stored `READY` and not left its stack, and then runs it on the same stack. -/
theorem fiber_shared :
    (¬ ∀ (n : Nat) (actions : List (Action n)) (s : State n),
      Lib.exec step (init n) actions = some (.running s) → (Sys.running s).RunsOnce) ∧
    ¬ ∀ (n : Nat) (actions : List (Action n)),
      Lib.exec step (init n) actions ≠ some (.aborted .swapInExec) := by
  refine ⟨?_, ?_⟩
  · intro h
    have hsame := h 2 [.newFiber, .schedule [{ fiber := some 0 }, { fiber := some 0 }],
      .dequeue 0, .dispatch 0, .swapIn 0, .yield 0 .ready, .dequeue 1, .dispatch 1, .swapIn 1]
      _ rfl 0 1 0 rfl rfl
    exact absurd hsame (by decide)
  · intro h
    exact h 2 [.newFiber, .schedule [{ fiber := some 0 }, { fiber := some 0 }],
      .dequeue 0, .dequeue 1, .dispatch 0, .dispatch 1, .swapIn 0, .swapIn 1] rfl

end Sylar.Scheduler
