import Sylar.Proofs.TcpServer.Serving

/-!
# `Sylar.Proofs.TcpServer.Stopping`: what happens after `stop`

While `m_isStop` is set, each step of the accept worker uses up work. A loop that waits in `accept`
has two steps left, the return of `accept` and the test, and a loop before its test has one. So the
worker comes to rest, and each loop hands over at most one more client, which it was waiting for.
-/

set_option autoImplicit false

namespace Sylar.Serving

open Lib

variable {s t : State} {a : Action}

/-- The steps of the accept worker. -/
def Action.isWorker : Action → Bool
  | .close => true
  | .test _ => true
  | .accept _ _ => true
  | _ => false

/-- The steps that a loop of a stopped server has left. -/
def Loop.work (l : Loop) : Nat :=
  match l.pc with
  | .test => 1
  | .accept => 2

/-- The number of clients that a loop of a stopped server can still hand over. -/
def Loop.waits (l : Loop) : Nat :=
  match l.pc with
  | .test => 0
  | .accept => 1

def State.work (s : State) : Nat := s.closers + (s.loops.map Loop.work).sum

def State.waits (s : State) : Nat := (s.loops.map Loop.waits).sum

theorem work_le (s : State) : s.work ≤ s.closers + 2 * s.loops.length := by
  have hloop : ∀ x ∈ s.loops.map Loop.work, x ≤ 2 := by
    intro x hx
    obtain ⟨⟨sock, pc⟩, -, rfl⟩ := List.mem_map.mp hx
    cases pc with
    | test => exact Nat.le_succ 1
    | accept => exact le_rfl
  have hsum := List.sum_le_card_nsmul _ 2 hloop
  rw [List.length_map, smul_eq_mul] at hsum
  rw [State.work]
  omega

/-- One step of the worker. -/
theorem worker_step (hstop : s.isStop = true) (ha : a.isWorker = true) (hs : step s a = some t) :
    t.isStop = true ∧ t.work + 1 = s.work ∧
      t.handed.length + t.waits ≤ s.handed.length + s.waits := by
  cases a with
  | close =>
    rw [step] at hs
    split at hs
    · cases hs
    · cases hs
      refine ⟨hstop, ?_, le_rfl⟩
      show s.closers - 1 + (s.loops.map Loop.work).sum + 1 = s.closers + (s.loops.map Loop.work).sum
      omega
  | test k =>
    obtain ⟨sock, hk, ⟨-, rfl⟩ | ⟨hstop', -⟩⟩ := step_test hs
    · have hwork := sum_map_eraseIdx Loop.work hk
      have hwaits := sum_map_eraseIdx Loop.waits hk
      refine ⟨hstop, ?_, ?_⟩
      · show s.closers + ((s.loops.eraseIdx k).map Loop.work).sum + 1 = _
        rw [State.work, ← hwork, add_assoc]
        rfl
      · show s.handed.length + ((s.loops.eraseIdx k).map Loop.waits).sum ≤ _
        rw [State.waits, ← hwaits]
        omega
    · cases hstop.symm.trans hstop'
  | accept k client =>
    obtain ⟨sock, handed, hk, hlen, rfl⟩ := step_accept hs
    have hwork := sum_map_set Loop.work hk ⟨sock, .test⟩
    have hwaits := sum_map_set Loop.waits hk ⟨sock, .test⟩
    simp only [Loop.work] at hwork
    simp only [Loop.waits] at hwaits
    refine ⟨hstop, ?_, ?_⟩
    · show s.closers + ((s.loops.set k ⟨sock, .test⟩).map Loop.work).sum + 1 = _
      rw [State.work]
      omega
    · show handed.length + ((s.loops.set k ⟨sock, .test⟩).map Loop.waits).sum ≤ _
      rw [State.waits]
      omega
  | _ => cases ha

theorem worker_sound (ha : a.isWorker = true) (hs : step s a = some t) (h : Inv s ∧ Sound s) :
    Inv t ∧ Sound t := by
  have hset : Settled s a := by
    cases a with
    | close => trivial
    | test k => trivial
    | accept k client => trivial
    | _ => cases ha
  exact ⟨h.1.step hs, (h.1.settled_iff h.2 hs).mp hset⟩

theorem worker_run (bs : List Action) : ∀ s, s.isStop = true → (∀ a ∈ bs, a.isWorker = true) →
    exec step s bs = some t → Inv s ∧ Sound s →
    t.isStop = true ∧ t.work + bs.length = s.work ∧
      t.handed.length + t.waits ≤ s.handed.length + s.waits ∧ Inv t ∧ Sound t := by
  induction bs with
  | nil =>
    intro s hstop _ ht h
    cases ht
    exact ⟨hstop, rfl, le_rfl, h⟩
  | cons a bs ih =>
    intro s hstop hw ht h
    obtain ⟨u, hu, ht⟩ := (exec_cons_eq_some step).mp ht
    obtain ⟨ha, hw⟩ := List.forall_mem_cons.mp hw
    obtain ⟨hstop', hwork, hhand⟩ := worker_step hstop ha hu
    obtain ⟨h1, h2, h3, h4⟩ := ih u hstop' hw ht (worker_sound ha hu h)
    refine ⟨h1, ?_, h3.trans hhand, h4⟩
    rw [List.length_cons]
    omega

/-- The tasks that are left wait for a connection. -/
def Quiet (s : State) : Prop :=
  s.closers = 0 ∧ ∀ l ∈ s.loops, l.pc = .accept ∧ s.isOpen l.sock = true

/-- From the state `s` the worker has taken `n` steps and is in the state `t`. It can take a bounded
number of them, and hands over at most one client for each loop that waited. After the closing task
no loop has a socket to wait on, and when the worker rests, all loops have ended and the only open
sockets are those that were bound after the closing task. -/
structure Settling (s t : State) (n : Nat) : Prop where
  short : n ≤ s.closers + 2 * s.loops.length
  late : t.handed.length ≤ s.handed.length + s.waits
  closed : t.closers = 0 → ∀ l ∈ t.loops, t.isOpen l.sock = false
  ended : Quiet t → t.loops = [] ∧ ∀ i, t.isOpen i = true → i ∈ t.socks

theorem Sound.closed (h : Sound s) (hstop : s.isStop = true) (hc : s.closers = 0) :
    ∀ l ∈ s.loops, s.isOpen l.sock = false := by
  intro l hl
  refine Bool.eq_false_iff.mpr fun hopen => ?_
  have := (h.closable l.sock (List.mem_map_of_mem hl) hopen).2 hstop
  omega

end Sylar.Serving
