import Sylar.Lib.Counter
import Sylar.Proofs.Scheduler.Steps

/-!
# `Sylar.Proofs.Scheduler.Conservation`: tasks and counters of the workers

`Conserved` holds in every state of every run: no item is lost or dequeued twice, an item with a
thread goes to that thread, and the two counters are the numbers they stand for. `QueueInv` and
`CountInv` are its two inductive parts.

`ReadyOnce` does not hold in every run. A worker reads the state of the fiber it ran after it has
come back, in a step of its own. A second entry of the fiber lets another worker swap it in before
that read. `Alone` is the condition on `swapIn` that rules this out, `ReadyInv` the invariant under
it.
-/

set_option autoImplicit false

namespace Sylar.Scheduler

open Lib (thread0 thread1)

section
variable {n : Nat} {s s' : State n} {a : Action n}

/-! ### The queue -/

/-- The part of `Conserved` about the queue and its history. -/
structure QueueInv (s : State n) : Prop where
  queue : s.accepted.Perm (s.fibers ++ s.dequeued.map Prod.snd)
  thread : ∀ p ∈ s.dequeued, ∀ t, p.2.thread = some t → t = p.1.val
  nonempty : ∀ item ∈ s.fibers, item.nonempty = true

theorem QueueInv.schedule (h : QueueInv s) (items : List Item) :
    QueueInv (schedule s items) := by
  rw [schedule_eq]
  refine ⟨?_, h.thread, ?_⟩
  · -- The new items stand behind the history of the old queue: bring them in front of it.
    have hswap : (s.fibers ++ s.dequeued.map Prod.snd ++ items.filter Item.nonempty).Perm
        (s.fibers ++ items.filter Item.nonempty ++ s.dequeued.map Prod.snd) := by
      rw [List.append_assoc, List.append_assoc]
      exact List.Perm.append_left _ List.perm_append_comm
    exact (h.queue.append_right _).trans hswap
  · intro item hitem
    rcases List.mem_append.mp hitem with hold | hnew
    · exact h.nonempty item hold
    · exact (List.mem_filter.mp hnew).2

theorem QueueInv.got (h : QueueInv s) {w : Fin n} {item : Item} {rest : List Item}
    (hscan : scan w.val s.state s.fibers = .ok (some (item, rest))) :
    s.accepted.Perm (rest ++ (s.dequeued ++ [(w, item)]).map Prod.snd) ∧
      (∀ p ∈ s.dequeued ++ [(w, item)], ∀ t, p.2.thread = some t → t = p.1.val) ∧
      ∀ other ∈ rest, other.nonempty = true := by
  obtain ⟨⟨before, after, hqueue, hrest⟩, hthread, -⟩ := scan_some hscan
  refine ⟨?_, ?_, ?_⟩
  · refine h.queue.trans ?_
    rw [hqueue, hrest, List.map_append, List.map_singleton]
    -- The item moves from the middle of the queue to the end of the history.
    have hmove : (before ++ item :: after).Perm (before ++ after ++ [item]) := by
      rw [List.append_assoc]
      exact List.Perm.append_left _ (List.perm_append_singleton item after).symm
    refine (hmove.append_right _).trans ?_
    rw [List.append_assoc]
    exact List.Perm.append_left _ List.perm_append_comm
  · intro p hp t ht
    rcases List.mem_append.mp hp with hold | hnew
    · exact h.thread p hold t ht
    · rw [List.mem_singleton.mp hnew] at ht ⊢
      exact hthread t ht
  · intro other hother
    refine h.nonempty other ?_
    rw [hrest, List.mem_append] at hother
    rw [hqueue, List.mem_append, List.mem_cons]
    tauto

theorem move_queueInv (hmove : Move s a s') (h : QueueInv s) : QueueInv s' := by
  cases hmove with
  | schedule items hknown => exact h.schedule items
  | got w item rest hpc hscan =>
      obtain ⟨hqueue, hthread, hnonempty⟩ := h.got hscan
      exact ⟨hqueue, hthread, hnonempty⟩
  | requeue w f own hpc =>
      have hs := h.schedule [{ fiber := some f }]
      exact ⟨hs.queue, hs.thread, hs.nonempty⟩
  | _ => exact ⟨h.queue, h.thread, h.nonempty⟩

/-! ### The counters -/

/-- The part of `Conserved` about the counters. -/
structure CountInv (s : State n) : Prop where
  active : s.activeThreadCount = Lib.countOf Worker.active s.workers
  idle : s.idleThreadCount = Lib.countOf Worker.isIdle s.workers

/-- A worker moves, and is active after the step if and only if it was before it. -/
theorem CountInv.active_same (h : CountInv s) {w : Fin n} {worker : Worker}
    (hsame : worker.active = (s.workers w).active) :
    s.activeThreadCount = Lib.countOf Worker.active (Function.update s.workers w worker) :=
  h.active.trans (Lib.countOf_update_same hsame).symm

/-- A worker executes its decrement of `m_activeThreadCount`. -/
theorem CountInv.active_leave (h : CountInv s) {w : Fin n} {worker : Worker}
    (hold : (s.workers w).active = true) (hnew : worker.active = false) :
    Lib.wrapPred s.activeThreadCount
      = Lib.countOf Worker.active (Function.update s.workers w worker) :=
  (congrArg Lib.wrapPred h.active).trans (Lib.countOf_update_leave hold hnew).symm

/-- A worker moves, and is in its idle fiber after the step if and only if it was before it. -/
theorem CountInv.idle_same (h : CountInv s) {w : Fin n} {worker : Worker}
    (hsame : worker.isIdle = (s.workers w).isIdle) :
    s.idleThreadCount = Lib.countOf Worker.isIdle (Function.update s.workers w worker) :=
  h.idle.trans (Lib.countOf_update_same hsame).symm

theorem active_afterReturn (f : Nat) (own : Bool) :
    (afterReturn s f own).active = false := by
  unfold afterReturn
  repeat' split
  all_goals rfl

theorem isIdle_afterReturn (f : Nat) (own : Bool) :
    (afterReturn s f own).isIdle = false := by
  unfold afterReturn
  repeat' split
  all_goals rfl

theorem move_countInv (hmove : Move s a s') (h : CountInv s) : CountInv s' := by
  cases hmove with
  | schedule items hknown =>
      rw [schedule_eq]
      exact ⟨h.active, h.idle⟩
  | newFiber => exact ⟨h.active, h.idle⟩
  | got w item rest hpc hscan =>
      refine ⟨?_, h.idle_same ?_⟩
      · refine (congrArg (· + 1) h.active).trans (Lib.countOf_update_enter ?_ rfl).symm
        simp [Worker.active, hpc, Pc.active]
      · simp [Worker.isIdle, hpc, Pc.isIdle]
  | drop w item hpc hcb hdead =>
      refine ⟨h.active_leave ?_ rfl, h.idle_same ?_⟩
      · simp [Worker.active, hpc, Pc.active]
      · simp [Worker.isIdle, hpc, Pc.isIdle]
  | decrement w f own ready hpc =>
      refine ⟨h.active_leave ?_ rfl, h.idle_same ?_⟩
      · simp [Worker.active, hpc, Pc.active]
      · simp [Worker.isIdle, hpc, Pc.isIdle]
  | idleEnter w hpc hterm =>
      refine ⟨h.active_same ?_, ?_⟩
      · simp [Worker.active, hpc, Pc.active]
      · refine (congrArg (· + 1) h.idle).trans (Lib.countOf_update_enter ?_ rfl).symm
        simp [Worker.isIdle, hpc, Pc.isIdle]
  | idleLeave w term hpc =>
      refine ⟨h.active_same ?_, ?_⟩
      · simp [Worker.active, hpc, Pc.active]
      · refine (congrArg Lib.wrapPred h.idle).trans (Lib.countOf_update_leave ?_ rfl).symm
        simp [Worker.isIdle, hpc, Pc.isIdle]
  | requeue w f own hpc =>
      rw [schedule_eq]
      refine ⟨h.active_same ?_, h.idle_same ?_⟩
      · simp [Worker.active, hpc, Pc.active]
      · simp [Worker.isIdle, hpc, Pc.isIdle]
  | test w f own ready hpc =>
      refine ⟨h.active_same ?_, h.idle_same ?_⟩
      · rw [Worker.active, Worker.active, hpc]
        exact active_afterReturn f own
      · rw [Worker.isIdle, Worker.isIdle, hpc]
        exact isIdle_afterReturn f own
  | _ =>
      -- No counter changes, and the worker counts as before.
      refine ⟨h.active_same ?_, h.idle_same ?_⟩
      · simp [Worker.active, Pc.active, *]
      · simp [Worker.isIdle, Pc.isIdle, *]

/-! ### Conservation -/

theorem conserved_of_inv (hqueue : QueueInv s) (hcount : CountInv s) : Conserved s := by
  refine ⟨hqueue.queue, hqueue.thread, hqueue.nonempty, hcount.active, hcount.idle, ?_, ?_, ?_⟩
  · intro w hw
    rw [hcount.active]
    exact Lib.countOf_pos hw
  · intro w hw
    rw [hcount.idle]
    exact Lib.countOf_pos hw
  · intro htop
    rw [hcount.active, hcount.idle]
    refine ⟨Lib.countOf_eq_zero ?_, Lib.countOf_eq_zero ?_⟩
    · intro w
      rw [Worker.active, htop w]
      rfl
    · intro w
      rw [Worker.isIdle, htop w]
      rfl

/-- What holds in every state of every run. -/
structure Inv (s : State n) : Prop where
  queue : QueueInv s
  count : CountInv s
  known : Known s

def Sys.Inv : Sys n → Prop
  | .running s => Scheduler.Inv s
  | .aborted why => why ≠ .emptyItem

theorem move_inv (hmove : Move s a s') (h : Inv s) : Inv s' :=
  ⟨move_queueInv hmove h.queue, move_countInv hmove h.count, move_known hmove h.known⟩

theorem step_inv (t : Sys n) (a : Action n) (t' : Sys n) (h : t.Inv)
    (hstep : step t a = some t') : t'.Inv := by
  cases t with
  | aborted why => cases hstep
  | running s =>
      have hends := ends_of_step hstep
      cases t' with
      | running s' => exact move_inv hends h
      | aborted why =>
          intro hwhy
          subst hwhy
          -- Only the scan fails this way, and it has found an empty item then.
          cases hends with
          | scan w _ hpc hscan =>
              obtain ⟨-, item, hitem, hempty⟩ := scan_error hscan
              rw [h.queue.nonempty item hitem] at hempty
              cases hempty

theorem inv_init (n : Nat) : (init n).Inv := by
  refine ⟨⟨List.Perm.refl _, ?_, ?_⟩, ⟨?_, ?_⟩, ⟨?_, ?_⟩⟩
  · intro p hp
    cases hp
  · intro item hitem
    cases hitem
  · exact (Lib.countOf_eq_zero fun _ => rfl).symm
  · exact (Lib.countOf_eq_zero fun _ => rfl).symm
  · intro item hitem
    cases hitem
  · intro w f hf
    rcases hf with hf | hf
    · cases hf
    · cases hf

theorem sys_conserved_of_inv {t : Sys n} (h : t.Inv) : t.Conserved := by
  cases t with
  | running s => exact conserved_of_inv h.queue h.count
  | aborted why => exact h

/-! ### Fibers that return ready -/

/-- The fiber a worker handles, from its `swapIn` to the end of the iteration. -/
def Pc.handled : Pc → Option Nat
  | .inside f _ => some f
  | .leaving f _ => some f
  | .returned f _ _ => some f
  | .decremented f _ _ => some f
  | .requeue f _ => some f
  | .hold f _ => some f
  | .clear f => some f
  | _ => none

def Worker.handles (worker : Worker) (f : Nat) : Prop := worker.pc.handled = some f

/-- The condition on a step: a worker swaps a fiber in when no other worker still handles it. -/
def Alone (t : Sys n) (a : Action n) : Prop :=
  match t, a with
  | .running s, .swapIn w =>
    ∀ f own, (s.workers w).pc = .enter f own →
      ∀ w', w' ≠ w → (s.workers w').pc.handled ≠ some f
  | _, _ => True

/-- The condition is met while nobody handles a fiber. -/
theorem alone_of_unhandled {w : Fin n} (h : ∀ w', (s.workers w').pc.handled = none) :
    Alone (.running s) (.swapIn w) := by
  intro f own _ w' _ hw'
  cases (h w').symm.trans hw'

/-- What a worker saw when the fiber returned, until it reads the state again. -/
def Pc.saw : Pc → Option (Nat × Bool)
  | .returned f _ ready => some (f, ready)
  | .decremented f _ ready => some (f, ready)
  | _ => none

theorem handled_of_saw {pc : Pc} {f : Nat} {r : Bool} (h : pc.saw = some (f, r)) :
    pc.handled = some f := by
  cases pc <;> simp_all [Pc.saw, Pc.handled]

theorem fiber_of_handled {pc : Pc} {f : Nat} (h : pc.handled = some f) : pc.fiber = some f := by
  cases pc <;> simp_all [Pc.fiber, Pc.handled]

/-- The invariant of runs in which every `swapIn` is alone. -/
structure ReadyInv (s : State n) : Prop where
  once : ∀ w, (s.workers w).ready = (s.workers w).again ++ (s.workers w).pc.owed
  unique : Lib.Exclusive (fun worker f => worker.pc.handled = some f) s.workers
  /-- What a worker saw is still so. -/
  fresh : ∀ w f r, (s.workers w).pc.saw = some (f, r) → (s.state f == .ready) = r

/-- How a worker comes to handle a fiber: it did before, or it swaps it in. -/
theorem move_handles (hmove : Move s a s') :
    ∀ w f, (s'.workers w).handles f → (s.workers w).handles f ∨
      (a = .swapIn w ∧ ∃ own, (s.workers w).pc = .enter f own) := by
  cases hmove with
  | schedule items hknown =>
      intro w f hf
      rw [schedule_eq] at hf
      exact Or.inl hf
  | newFiber => exact fun w f hf => Or.inl hf
  | swapIn w f own hpc hstate =>
      refine update_cases Worker.handles rfl ?_
      intro g hg
      cases hg
      exact Or.inr ⟨rfl, own, hpc⟩
  | test w f own ready hpc =>
      refine update_cases Worker.handles rfl ?_
      intro g hg
      rw [fiber_afterReturn (fiber_of_handled hg), Worker.handles, hpc]
      exact Or.inl rfl
  | requeue w f own hpc =>
      rw [schedule_eq]
      refine update_cases Worker.handles rfl ?_
      intro g hg
      cases hg
  | _ =>
      refine update_cases Worker.handles rfl ?_
      intro g hg
      simp_all [Worker.handles, Pc.handled]

theorem move_unique (hmove : Move s a s') (hg : Alone (.running s) a)
    (h : Lib.Exclusive Worker.handles s.workers) : Lib.Exclusive Worker.handles s'.workers := by
  refine h.step ?_
  intro w f hf
  rcases move_handles hmove w f hf with hold | ⟨rfl, own, hpc⟩
  · exact Or.inl hold
  · refine Or.inr ?_
    intro w' hne hf'
    rcases move_handles hmove w' f hf' with hold' | ⟨heq, -⟩
    · exact hg f own hpc w' hne hold'
    · cases heq
      exact hne rfl

/-- A step of one worker. The others must not miss a change of what they saw. -/
theorem ReadyInv.update (h : ReadyInv s) (hunique : Lib.Exclusive Worker.handles s'.workers)
    {w : Fin n} {worker : Worker} (hworkers : s'.workers = Function.update s.workers w worker)
    (honce : worker.ready = worker.again ++ worker.pc.owed)
    (hown : ∀ f r, worker.pc.saw = some (f, r) → (s'.state f == .ready) = r)
    (hother : ∀ w', w' ≠ w → ∀ f r, (s.workers w').pc.saw = some (f, r) →
      (s'.state f == .ready) = (s.state f == .ready)) : ReadyInv s' := by
  refine ⟨?_, hunique, ?_⟩
  · rw [hworkers, Function.forall_update_iff s.workers
      (fun _ (v : Worker) => v.ready = v.again ++ v.pc.owed)]
    exact ⟨honce, fun w' _ => h.once w'⟩
  · rw [hworkers, Function.forall_update_iff s.workers
      (fun _ (v : Worker) => ∀ f r, v.pc.saw = some (f, r) → (s'.state f == .ready) = r)]
    refine ⟨hown, ?_⟩
    intro w' hne f r hsaw
    rw [hother w' hne f r hsaw]
    exact h.fresh w' f r hsaw

/-- A step of one worker that did not wait for a state, and does not afterwards. -/
theorem ReadyInv.blind (h : ReadyInv s) (hunique : Lib.Exclusive Worker.handles s'.workers)
    {w : Fin n} {worker : Worker} (hworkers : s'.workers = Function.update s.workers w worker)
    (hready : worker.ready = (s.workers w).ready) (hagain : worker.again = (s.workers w).again)
    (howed : worker.pc.owed = (s.workers w).pc.owed) (hsaw : worker.pc.saw = none)
    (hother : ∀ w', w' ≠ w → ∀ f r, (s.workers w').pc.saw = some (f, r) →
      (s'.state f == .ready) = (s.state f == .ready)) : ReadyInv s' := by
  refine h.update hunique hworkers ?_ ?_ hother
  · rw [hready, hagain, howed]
    exact h.once w
  · intro f r hf
    rw [hsaw] at hf
    cases hf

/-- The state of a fiber that no other worker handles may change. -/
theorem ready_update_of_free {w : Fin n} {g : Nat}
    (hfree : ∀ w', w' ≠ w → (s.workers w').pc.handled ≠ some g) (x : FiberState) :
    ∀ w', w' ≠ w → ∀ f r, (s.workers w').pc.saw = some (f, r) →
      (Function.update s.state g x f == .ready) = (s.state f == .ready) := by
  intro w' hne f r hsaw
  have hfg : f ≠ g := by
    intro heq
    exact hfree w' hne (heq ▸ handled_of_saw hsaw)
  rw [Function.update_of_ne hfg]

/-- A fiber that is just created is handled by nobody. -/
theorem handled_ne_nextFiber (hknown : Known s) (w : Fin n) :
    (s.workers w).pc.handled ≠ some s.nextFiber := by
  intro h
  exact lt_irrefl _ (hknown.held w _ (Or.inl (fiber_of_handled h)))

/-- `Fiber::reset` neither makes a fiber ready nor finds it ready. -/
theorem ready_reset {g : Nat} (hstate : (s.state g).finished = true ∨ s.state g = .init) (f : Nat) :
    (Function.update s.state g .init f == .ready) = (s.state f == .ready) := by
  by_cases hfg : f = g
  · subst hfg
    rw [Function.update_self]
    rcases hstate with hstate | hstate
    · cases hx : s.state f <;> simp_all [FiberState.finished]
    · rw [hstate]
  · rw [Function.update_of_ne hfg]

/-- The test after a return decides as the return did. -/
theorem owed_afterReturn {f : Nat} {own r : Bool} (h : (s.state f == .ready) = r) :
    (afterReturn s f own).owed = if r then [f] else [] := by
  subst h
  unfold afterReturn
  by_cases hready : s.state f = .ready
  · simp [hready, Pc.owed]
  · simp only [hready, if_false]
    split
    · cases own <;> simp [Pc.owed, hready]
    · simp [Pc.owed, hready]

theorem saw_afterReturn (f : Nat) (own : Bool) : (afterReturn s f own).saw = none := by
  unfold afterReturn
  repeat' split
  all_goals rfl

theorem move_readyInv (hmove : Move s a s') (hknown : Known s) (hg : Alone (.running s) a)
    (h : ReadyInv s) : ReadyInv s' := by
  have hunique := move_unique hmove hg h.unique
  -- A worker that handles a fiber may write its state: no other worker has seen it.
  have hhandled : ∀ {w : Fin n} {pc : Pc} {f : Nat}, (s.workers w).pc = pc →
      pc.handled = some f → ∀ w', w' ≠ w → (s.workers w').pc.handled ≠ some f := by
    intro w pc f hpc hf w' hne
    exact h.unique.free (i := w) (by rw [hpc]; exact hf) hne
  cases hmove with
  | schedule items hknown' =>
      rw [schedule_eq]
      exact ⟨h.once, h.unique, h.fresh⟩
  | newFiber =>
      refine ⟨h.once, h.unique, ?_⟩
      intro w f r hsaw
      -- What a worker saw is the state of a fiber that existed before.
      have hne : f ≠ s.nextFiber := by
        intro heq
        exact handled_ne_nextFiber hknown w (heq ▸ handled_of_saw hsaw)
      refine Eq.trans ?_ (h.fresh w f r hsaw)
      exact congrArg (· == FiberState.ready) (Function.update_of_ne hne _ _)
  | reuse w item g hpc hcb hstate =>
      exact h.blind hunique (w := w) rfl rfl rfl (by rw [hpc]; rfl) rfl
        (fun _ _ f _ _ => ready_reset hstate f)
  | create w item hpc hcb =>
      exact h.blind hunique (w := w) rfl rfl rfl (by rw [hpc]; rfl) rfl
        (ready_update_of_free (fun w' _ => handled_ne_nextFiber hknown w') _)
  | swapIn w f own hpc hstate =>
      -- The state becomes `EXEC`. By the condition nobody waits to read it.
      exact h.blind hunique (w := w) rfl rfl rfl (by rw [hpc]; rfl) rfl
        (ready_update_of_free (hg f own hpc) _)
  | yield w how f own hpc =>
      exact h.blind hunique (w := w) rfl rfl rfl (by rw [hpc]; rfl) rfl
        (ready_update_of_free (hhandled hpc rfl) _)
  | hold w f own hpc =>
      exact h.blind hunique (w := w) rfl rfl rfl (by rw [hpc]; rfl) rfl
        (ready_update_of_free (hhandled hpc rfl) _)
  | clear w f hpc hstate =>
      exact h.blind hunique (w := w) rfl rfl rfl (by rw [hpc]; rfl) rfl
        (fun _ _ g _ _ => ready_reset hstate g)
  | swapOut w f own hpc =>
      -- What the worker sees at the return, it owes from then on.
      have honce := h.once w
      simp only [hpc, Pc.owed, List.append_nil] at honce
      refine h.update hunique (w := w) rfl ?_ ?_ (fun _ _ _ _ _ => rfl)
      · show (s.workers w).ready ++ _ = (s.workers w).again ++ _
        rw [honce]
        rfl
      · intro g r hg
        cases hg
        rfl
  | decrement w f own ready hpc =>
      have honce := h.once w
      rw [hpc] at honce
      refine h.update hunique (w := w) rfl honce ?_ (fun _ _ _ _ _ => rfl)
      intro g r hg
      exact h.fresh w g r (by rw [hpc]; exact hg)
  | test w f own ready hpc =>
      -- Nobody has touched the state since the return, so the test sees what the return saw.
      have hsame := h.fresh w f ready (by rw [hpc]; rfl)
      have honce := h.once w
      rw [hpc] at honce
      refine h.update hunique (w := w) rfl ?_ ?_ (fun _ _ _ _ _ => rfl)
      · exact honce.trans (congrArg _ (owed_afterReturn hsame).symm)
      · intro g r hg
        rw [saw_afterReturn] at hg
        cases hg
  | requeue w f own hpc =>
      -- The debt is paid: the fiber goes from `owed` to `again`.
      have honce := h.once w
      simp only [hpc, Pc.owed] at honce
      rw [schedule_eq] at hunique ⊢
      refine h.update hunique (w := w) rfl ?_ ?_ (fun _ _ _ _ _ => rfl)
      · simpa [Pc.owed] using honce
      · intro g r hg
        cases hg
  | _ =>
      -- The worker is between two fibers, and no state of a fiber changes.
      exact h.blind hunique rfl rfl rfl (by simp [Pc.owed, *]) rfl (fun _ _ _ _ _ => rfl)

theorem step_readyInv (t : Sys n) (a : Action n) (t' : Sys n)
    (h : t.Inv ∧ ∀ s, t = .running s → ReadyInv s) (hg : Alone t a)
    (hstep : step t a = some t') : t'.Inv ∧ ∀ s', t' = .running s' → ReadyInv s' := by
  refine ⟨step_inv t a t' h.1 hstep, ?_⟩
  intro s' hs'
  subst hs'
  cases t with
  | aborted why => cases hstep
  | running s => exact move_readyInv (ends_of_step hstep) h.1.known hg (h.2 s rfl)

theorem readyInv_init (s : State n) (hs : init n = .running s) : ReadyInv s := by
  cases hs
  refine ⟨fun _ => rfl, ?_, ?_⟩
  · intro w w' f hf
    cases hf
  · intro w f r hf
    cases hf

/-- No task is lost or run twice, and the counters count, in every state of every run. When every
`swapIn` is taken while no other worker handles the fiber, a fiber that returns ready is also
accepted again exactly once. -/
theorem task_conservation (actions : List (Action n)) (t : Sys n)
    (h : Lib.exec step (init n) actions = some t) :
    t.Conserved ∧ (Lib.Guarded step Alone (init n) actions → t.ReadyOnce) := by
  refine ⟨?_, ?_⟩
  · exact sys_conserved_of_inv (Lib.exec_invariant_of_step step_inv actions _ t (inv_init n) h)
  · intro hg
    have hinv := Lib.exec_invariant step_readyInv actions _ t
      ⟨inv_init n, readyInv_init⟩ hg h
    cases t with
    | aborted why => trivial
    | running s => exact (hinv.2 s rfl).once

end

/-- A run of two workers: the first one runs a fiber that yields ready, schedules it again, and the
second one swaps it in. -/
def yieldedRun : List (Action 2) :=
  [.newFiber, .schedule [{ fiber := some 0 }], .dequeue thread0, .dispatch thread0, .swapIn thread0,
    .yield thread0 .ready, .swapOut thread0, .decrement thread0, .test thread0, .finish thread0,
    .dequeue thread1, .dispatch thread1, .swapIn thread1]

/-- Nobody handles a fiber when one is swapped in. -/
theorem task_conservation_yielded :
    ∃ s : State 2, Lib.exec step (init 2) yieldedRun = some (.running s) ∧
      (s.workers 0).again = [0] ∧ (s.workers 1).pc = .inside 0 false ∧
      (Sys.running s).Conserved ∧ (Sys.running s).ReadyOnce :=
  ⟨_, rfl, rfl, rfl, (task_conservation yieldedRun _ rfl).1, (task_conservation yieldedRun _ rfl).2
    ⟨trivial, trivial, trivial, trivial,
      alone_of_unhandled (by decide), trivial, trivial, trivial, trivial, trivial, trivial, trivial,
      alone_of_unhandled (by decide), trivial⟩⟩

/-- Two entries of one fiber. The first worker has seen the fiber return ready when the second one
swaps it in. The first worker then reads `EXEC`, stores `HOLD` under the running fiber, and never
schedules it. -/
theorem ready_fiber_dropped :
    ¬ ∀ (n : Nat) (actions : List (Action n)) (t : Sys n),
      Lib.exec step (init n) actions = some t → t.Conserved ∧ t.ReadyOnce := by
  intro h
  have hbad := (h 2 [.newFiber, .schedule [{ fiber := some 0 }, { fiber := some 0 }],
    .dequeue 0, .dispatch 0, .swapIn 0, .yield 0 .ready, .swapOut 0, .decrement 0,
    .dequeue 1, .dispatch 1, .swapIn 1, .test 0, .finish 0] _ rfl).2 0
  exact absurd hbad (by decide)

end Sylar.Scheduler
