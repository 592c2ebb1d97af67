import Sylar.Lib.Update
import Sylar.Spec.Serving
import Sylar.Proofs.TcpServer.Bind

/-!
# `Sylar.Proofs.TcpServer.Serving`: servers that are started and stopped

A server that runs has one accept loop for each socket, and each of them has an open socket to wait
on. A server that is stopped has a task that will close the sockets of its loops, so that they end.
`sound_iff` says which calls keep this. `start` must wait for the end of what `stop` began: before
that, the loops that should end are kept alive, and the closing task is still to come. It then
closes the sockets of a running server, whose loops fail in `accept` over and over. `bind` is for
servers without loops: a socket that is bound later has no loop, and a failure drops sockets on
which loops wait.

Soundness is a matter of the flag, the sockets and what the loops hold. It does not depend on where
the loops are.
-/

set_option autoImplicit false

namespace Sylar.Serving

open Lib

variable {s s' : State} {k : Nat} {l : Loop}

/-! ### What a step does -/

theorem step_test (h : step s (.test k) = some s') :
    ∃ sock, s.loops[k]? = some ⟨sock, .test⟩ ∧
      (s.isStop = true ∧ s' = State.collect { s with loops := s.loops.eraseIdx k } ∨
        s.isStop = false ∧ s' = { s with loops := s.loops.set k ⟨sock, .accept⟩ }) := by
  simp only [step] at h
  split at h
  · rename_i sock hk
    refine ⟨sock, hk, ?_⟩
    cases hstop : s.isStop with
    | true =>
      rw [hstop, if_pos rfl] at h
      exact Or.inl ⟨rfl, (Option.some.inj h).symm⟩
    | false =>
      rw [hstop, if_neg Bool.false_ne_true] at h
      exact Or.inr ⟨rfl, (Option.some.inj h).symm⟩
  · cases h

theorem step_accept {client : Option Nat} (h : step s (.accept k client) = some s') :
    ∃ sock handed, s.loops[k]? = some ⟨sock, .accept⟩ ∧ handed.length ≤ s.handed.length + 1 ∧
      s' = { s with loops := s.loops.set k ⟨sock, .test⟩, handed := handed } := by
  simp only [step] at h
  split at h
  · rename_i sock hk
    cases client with
    | none => exact ⟨sock, s.handed, hk, by omega, (Option.some.inj h).symm⟩
    | some client =>
      dsimp only at h
      split at h
      · exact ⟨sock, _, hk, by rw [List.length_append]; rfl, (Option.some.inj h).symm⟩
      · cases h
  · cases h

/-- A loop that moves on holds its socket. -/
theorem held_set {sock : Nat} {pc pc' : Pc} (h : s.loops[k]? = some ⟨sock, pc⟩) :
    (s.loops.set k ⟨sock, pc'⟩).map Loop.sock = s.held := by
  have hk : k < s.loops.length := (List.getElem?_eq_some_iff.mp h).1
  have hl : s.held =
      (s.loops.take k).map Loop.sock ++ sock :: (s.loops.drop (k + 1)).map Loop.sock := by
    conv_lhs => rw [State.held, eq_append_of_getElem? h]
    rw [List.map_append, List.map_cons]
  rw [hl, List.set_eq_take_append_cons_drop, if_pos hk, List.map_append, List.map_cons]

/-- A loop that ends drops its socket. -/
theorem held_eraseIdx : ((s.loops.eraseIdx k).map Loop.sock).Sublist s.held :=
  (List.eraseIdx_sublist s.loops k).map Loop.sock

theorem isOpen_collect {i : Nat} :
    s.collect.isOpen i = true ↔ s.isOpen i = true ∧ (i ∈ s.socks ∨ i ∈ s.held) := by
  rw [State.collect, Bool.and_eq_true, Bool.or_eq_true, List.contains_iff_mem,
    List.contains_iff_mem]

theorem isOpen_close {i : Nat} : s.close.isOpen i = true ↔ s.isOpen i = true ∧ i ∉ s.socks := by
  rw [State.close, Bool.and_eq_true, Bool.not_eq_true', List.contains_eq_mem,
    decide_eq_false_iff_not]

/-- New loops hold the sockets of the server. -/
theorem held_append {b : Bool} :
    State.held { s with isStop := b, loops := s.loops ++ s.socks.map (⟨·, .test⟩) } =
      s.held ++ s.socks := by
  rw [State.held, State.held, List.map_append, List.map_map]
  congr 1
  exact List.map_id _

/-! ### Sockets -/

/-- The sockets of the server are open and distinct, and an open socket belongs to the server or to
a loop. -/
structure Inv (s : State) : Prop where
  nodup : s.socks.Nodup
  opened : ∀ i ∈ s.socks, s.isOpen i = true
  below : ∀ i, s.isOpen i = true → i < s.next
  heldBelow : ∀ i ∈ s.held, i < s.next
  used : ∀ i, s.isOpen i = true → i ∈ s.socks ∨ i ∈ s.held

/-- Only the loops' places and the clients differ. -/
theorem Inv.congr (h : Inv s) (hs : s'.socks = s.socks) (ho : s'.isOpen = s.isOpen)
    (hn : s'.next = s.next) (hh : s'.held = s.held) : Inv s' where
  nodup := hs ▸ h.nodup
  opened := by rw [hs, ho]; exact h.opened
  below := by rw [ho, hn]; exact h.below
  heldBelow := by rw [hh, hn]; exact h.heldBelow
  used := by rw [ho, hs, hh]; exact h.used

/-- References are dropped, and what nothing refers to is closed. -/
theorem Inv.collect (h : Inv s) (hs : s'.socks ⊆ s.socks) (hnd : s'.socks.Nodup)
    (ho : s'.isOpen = s.isOpen) (hn : s.next ≤ s'.next) (hh : s'.held ⊆ s.held) :
    Inv s'.collect where
  nodup := hnd
  opened i hi := by
    rw [isOpen_collect]
    exact ⟨ho ▸ h.opened i (hs hi), Or.inl hi⟩
  below i hi := (h.below i (ho ▸ (isOpen_collect.mp hi).1)).trans_le hn
  heldBelow i hi := (h.heldBelow i (hh hi)).trans_le hn
  used i hi := (isOpen_collect.mp hi).2

theorem Inv.bind (h : Inv s) (bound : List Bool) : Inv (s.bind bound) := by
  rw [State.bind]
  dsimp only
  split
  · have hmem : ∀ {i}, i ∈ List.range' s.next (bound.count true) ↔
        s.next ≤ i ∧ i < s.next + bound.count true := List.mem_range'_1
    refine ⟨List.nodup_append.mpr ⟨h.nodup, List.nodup_range', ?_⟩, ?_, ?_, ?_, ?_⟩
    · rintro i hi j hj rfl
      have hlt := h.below i (h.opened i hi)
      have := (hmem.mp hj).1
      omega
    · intro i hi
      rw [Bool.or_eq_true, List.contains_iff_mem]
      exact (List.mem_append.mp hi).imp (h.opened i) id
    · intro i hi
      rw [Bool.or_eq_true, List.contains_iff_mem, hmem] at hi
      show i < s.next + bound.count true
      rcases hi with hi | hi
      · have := h.below i hi
        omega
      · exact hi.2
    · intro i hi
      exact (h.heldBelow i hi).trans_le (Nat.le_add_right _ _)
    · intro i hi
      rw [Bool.or_eq_true, List.contains_iff_mem] at hi
      rcases hi with hi | hi
      · exact (h.used i hi).imp (List.mem_append_left _) id
      · exact Or.inl (List.mem_append_right _ hi)
  · exact h.collect (List.nil_subset _) List.nodup_nil rfl (Nat.le_add_right _ _)
      (List.Subset.refl _)

theorem Inv.start (h : Inv s) : Inv s.start := by
  rw [State.start]
  split
  · exact h
  · refine ⟨h.nodup, h.opened, h.below, fun i hi => ?_, fun i hi => ?_⟩
    · rw [held_append] at hi
      exact (List.mem_append.mp hi).elim (h.heldBelow i) fun hi => h.below i (h.opened i hi)
    · rw [held_append]
      exact (h.used i hi).imp id (List.mem_append_left _)

theorem Inv.close (h : Inv s) : Inv s.close := by
  refine ⟨List.nodup_nil, fun i hi => absurd hi List.not_mem_nil, fun i hi => ?_, h.heldBelow,
    fun i hi => ?_⟩
  · exact h.below i (isOpen_close.mp hi).1
  · exact Or.inr ((h.used i (isOpen_close.mp hi).1).resolve_left (isOpen_close.mp hi).2)

theorem Inv.step {a : Action} (h : Inv s) (hs : step s a = some s') : Inv s' := by
  cases a with
  | bind bound =>
    cases hs
    exact h.bind bound
  | start =>
    cases hs
    exact h.start
  | stop =>
    cases hs
    exact h.congr rfl rfl rfl rfl
  | setRecvTimeout v =>
    cases hs
    exact h.congr rfl rfl rfl rfl
  | close =>
    rw [Serving.step] at hs
    split at hs
    · cases hs
    · cases hs
      exact h.close
  | test k =>
    obtain ⟨sock, hk, ⟨-, rfl⟩ | ⟨-, rfl⟩⟩ := step_test hs
    · exact h.collect (List.Subset.refl _) h.nodup rfl le_rfl held_eraseIdx.subset
    · exact h.congr rfl rfl rfl (held_set hk)
  | accept k client =>
    obtain ⟨sock, handed, hk, -, rfl⟩ := step_accept hs
    exact h.congr rfl rfl rfl (held_set hk)

theorem count_of_all {bound : List Bool} (h : bound.all id = true) :
    bound.count true = bound.length :=
  List.count_eq_length.mpr fun b hb => (List.all_eq_true.mp h b hb).symm

section
variable {α : Type} {getFamily : α → Int} {sys : SocketCalls α} {addrs : List α}

/-- `bind` makes as many sockets as it makes with the system calls spelled out. -/
theorem length_socks_bind {server : TcpServer α} (h : s.socks.length = server.socks.length) :
    (s.bind ((TcpServer.attempts getFamily sys 0 addrs).map fun p => p.2.isSome)).socks.length =
      (TcpServer.bind getFamily sys addrs [] server).2.2.socks.length := by
  have hall : ((TcpServer.attempts getFamily sys 0 addrs).map fun p => p.2.isSome).all id = true ↔
      ∀ p ∈ TcpServer.attempts getFamily sys 0 addrs, p.2.isSome := by
    rw [List.all_map, List.all_eq_true]
    rfl
  rw [State.bind]
  dsimp only
  split
  · rename_i hb
    have hb' := hall.mp hb
    have hopened := congrArg List.length (TcpServer.map_snd_eq_of_forall hb')
    rw [List.length_map, List.length_map] at hopened
    rw [TcpServer.bind_of_all hb' server]
    show (s.socks ++ _).length = (server.socks ++ _).length
    rw [List.length_append, List.length_append, List.length_range', count_of_all hb,
      List.length_map, hopened, h]
  · rename_i hb
    rw [TcpServer.bind_of_failing (fun h' => hb (hall.mpr h')) server]
    rfl

end

/-! ### Servers that are started and stopped -/

/-- A running server has one loop for each socket, and the loop can wait on it. What the loops of a
stopped server wait on will be closed. -/
structure Sound (s : State) : Prop where
  apart : s.held.Nodup
  serving : s.isStop = false → ∀ i ∈ s.held, s.isOpen i = true
  served : s.isStop = false → ∀ i ∈ s.socks, i ∈ s.held
  calm : s.isStop = false → s.closers = 0
  closable : ∀ i ∈ s.held, s.isOpen i = true → i ∈ s.socks ∧ (s.isStop = true → 0 < s.closers)

/-- A server is started when nothing is left from before. Sockets are bound before it is started. -/
def Settled (s : State) : Action → Prop
  | .start => s.isStop = true → s.loops = [] ∧ s.closers = 0
  | .bind bound =>
    if bound.all id then s.isStop = true ∨ bound = [] else ∀ i ∈ s.held, s.isOpen i = false
  | _ => True

theorem Sound.congr (h : Sound s) (hstop : s'.isStop = s.isStop) (hs : s'.socks = s.socks)
    (ho : s'.isOpen = s.isOpen) (hc : s'.closers = s.closers) (hh : s'.held = s.held) :
    Sound s' where
  apart := hh ▸ h.apart
  serving := by rw [hstop, hh, ho]; exact h.serving
  served := by rw [hstop, hs, hh]; exact h.served
  calm := by rw [hstop, hc]; exact h.calm
  closable := by rw [hh, ho, hs, hstop, hc]; exact h.closable

/-- Less is asked of a stopped server. -/
theorem Sound.of_stopped (hstop : s.isStop = true) (hapart : s.held.Nodup)
    (hclosable : ∀ i ∈ s.held, s.isOpen i = true → i ∈ s.socks ∧ 0 < s.closers) : Sound s := by
  have hne : s.isStop ≠ false := fun hf => Bool.false_ne_true (hf.symm.trans hstop)
  exact ⟨hapart, fun hf => absurd hf hne, fun hf => absurd hf hne, fun hf => absurd hf hne,
    fun i hi hopen => ⟨(hclosable i hi hopen).1, fun _ => (hclosable i hi hopen).2⟩⟩

theorem held_eq_nil : s.held = [] ↔ s.loops = [] := List.map_eq_nil_iff

theorem Inv.sound_start_iff (hI : Inv s) (h : Sound s) : Settled s .start ↔ Sound s.start := by
  rw [State.start]
  cases hstop : s.isStop with
  | false =>
    rw [Settled, hstop]
    exact iff_of_true (fun hf => by cases hf) h
  | true =>
    simp only [Settled, hstop, true_imp_iff, Bool.not_true, Bool.false_eq_true, if_false]
    constructor
    · rintro ⟨hloops, hclosers⟩
      have hnil : s.held = [] := held_eq_nil.mpr hloops
      refine ⟨?_, fun _ => ?_, fun _ i hi => ?_, fun _ => hclosers, ?_⟩
      · rw [held_append, hnil]
        exact hI.nodup
      · rw [held_append, hnil]
        exact hI.opened
      · rw [held_append]
        exact List.mem_append_right _ hi
      · rw [held_append, hnil]
        exact fun i hi _ => ⟨hi, fun hf => by cases hf⟩
    · intro h'
      have hclosers : s.closers = 0 := h'.calm rfl
      refine ⟨held_eq_nil.mp (List.eq_nil_iff_forall_not_mem.mpr fun i hi => ?_), hclosers⟩
      -- The socket of a loop that is left over is open, so a closing task is to come.
      have hopen : s.isOpen i = true :=
        h'.serving rfl i (by rw [held_append]; exact List.mem_append_left _ hi)
      have := (h.closable i hi hopen).2 hstop
      omega

/-- Sockets are added, and none of them has a loop. -/
theorem Inv.sound_grow_iff (hI : Inv s) (h : Sound s) (n : Nat) :
    Sound { s with
      next := s.next + n
      socks := s.socks ++ List.range' s.next n
      isOpen := fun i => s.isOpen i || (List.range' s.next n).contains i } ↔
      s.isStop = true ∨ n = 0 := by
  constructor
  · intro h'
    by_contra hnot
    obtain ⟨hstop, hn⟩ := not_or.mp hnot
    have hmem : s.next ∈ List.range' s.next n := List.mem_range'_1.mpr (by omega)
    have hheld : s.next ∈ s.held :=
      h'.served (Bool.eq_false_iff.mpr hstop) s.next (List.mem_append_right _ hmem)
    exact absurd (hI.heldBelow s.next hheld) (Nat.lt_irrefl _)
  · intro hset
    refine ⟨h.apart, fun hstop i hi => ?_, fun hstop i hi => ?_, h.calm, fun i hi hopen => ?_⟩
    · rw [Bool.or_eq_true]
      exact Or.inl (h.serving hstop i hi)
    · rcases hset with hset | rfl
      · cases hset.symm.trans hstop
      · rw [List.range'_zero, List.append_nil] at hi
        exact h.served hstop i hi
    · rw [Bool.or_eq_true, List.contains_iff_mem, List.mem_range'_1] at hopen
      have hlt := hI.heldBelow i hi
      have := h.closable i hi (hopen.resolve_right (by omega))
      exact ⟨List.mem_append_left _ this.1, this.2⟩

/-- The sockets are dropped. Those of the loops stay open, and cannot be closed any more. -/
theorem sound_drop_iff (h : Sound s) (n : Nat) :
    Sound (State.collect { s with next := n, socks := [] }) ↔ ∀ i ∈ s.held, s.isOpen i = false := by
  constructor
  · intro h' i hi
    refine Bool.eq_false_iff.mpr fun hopen => ?_
    exact absurd (h'.closable i hi (isOpen_collect.mpr ⟨hopen, Or.inr hi⟩)).1 List.not_mem_nil
  · intro hset
    refine ⟨h.apart, fun hstop i hi => ?_, fun _ i hi => absurd hi List.not_mem_nil, h.calm,
      fun i hi hopen => ?_⟩
    · cases (hset i hi).symm.trans (h.serving hstop i hi)
    · cases (hset i hi).symm.trans (isOpen_collect.mp hopen).1

theorem Inv.sound_bind_iff (hI : Inv s) (h : Sound s) (bound : List Bool) :
    Settled s (.bind bound) ↔ Sound (s.bind bound) := by
  rw [Settled, State.bind]
  dsimp only
  split
  · rename_i hall
    rw [hI.sound_grow_iff h, count_of_all hall, List.length_eq_zero_iff]
  · exact (sound_drop_iff h _).symm

theorem Sound.close (h : Sound s) (hclosers : s.closers ≠ 0) : Sound s.close := by
  have hstop : s.isStop = true := Bool.of_not_eq_false fun hf => hclosers (h.calm hf)
  refine .of_stopped hstop h.apart fun i hi hopen => ?_
  obtain ⟨hopen, hi'⟩ := isOpen_close.mp hopen
  exact absurd (h.closable i hi hopen).1 hi'

theorem Sound.test (h : Sound s) (hstop : s.isStop = true) :
    Sound (State.collect { s with loops := s.loops.eraseIdx k }) := by
  refine .of_stopped hstop (h.apart.sublist held_eraseIdx) fun i hi hopen => ?_
  obtain ⟨h1, h2⟩ := h.closable i (held_eraseIdx.subset hi) (isOpen_collect.mp hopen).1
  exact ⟨h1, h2 hstop⟩

/-- What a step needs to keep a server sound. -/
theorem Inv.settled_iff {a : Action} (hI : Inv s) (h : Sound s) (hs : Serving.step s a = some s') :
    Settled s a ↔ Sound s' := by
  cases a with
  | bind bound =>
    cases hs
    exact hI.sound_bind_iff h bound
  | start =>
    cases hs
    exact hI.sound_start_iff h
  | stop =>
    cases hs
    exact iff_of_true trivial (.of_stopped rfl h.apart fun i hi hopen =>
      ⟨(h.closable i hi hopen).1, Nat.succ_pos _⟩)
  | setRecvTimeout v =>
    cases hs
    exact iff_of_true trivial (h.congr rfl rfl rfl rfl rfl)
  | close =>
    rw [Serving.step] at hs
    split at hs
    · cases hs
    · rename_i hclosers
      cases hs
      exact iff_of_true trivial (h.close hclosers)
  | test k =>
    refine iff_of_true trivial ?_
    obtain ⟨sock, hk, ⟨hstop, rfl⟩ | ⟨-, rfl⟩⟩ := step_test hs
    · exact h.test hstop
    · exact h.congr rfl rfl rfl rfl (held_set hk)
  | accept k client =>
    obtain ⟨sock, handed, hk, -, rfl⟩ := step_accept hs
    exact iff_of_true trivial (h.congr rfl rfl rfl rfl (held_set hk))

theorem inv_init (v : UInt64) : Inv (init v) :=
  ⟨List.nodup_nil, fun _ hi => absurd hi List.not_mem_nil, fun _ hi => absurd hi Bool.false_ne_true,
    fun _ hi => absurd hi List.not_mem_nil, fun _ hi => absurd hi Bool.false_ne_true⟩

theorem sound_init (v : UInt64) : Sound (init v) :=
  .of_stopped rfl List.nodup_nil fun _ hi => absurd hi List.not_mem_nil

theorem sound_run {v : UInt64} {as : List Action} (hg : Guarded step Settled (init v) as)
    (hs : exec step (init v) as = some s) : Inv s ∧ Sound s := by
  have hstep : ∀ s a s', (Inv s ∧ Sound s) → Settled s a → step s a = some s' → Inv s' ∧ Sound s' :=
    fun _ _ _ h hset hs => ⟨h.1.step hs, (h.1.settled_iff h.2 hs).mp hset⟩
  exact exec_invariant hstep as (init v) s ⟨inv_init v, sound_init v⟩ hg hs

/-- A server is stopped and started again before the closing task has run. Both loops of the socket
run, and the socket is closed. -/
example : ((exec step (init 120000)
    [.bind [true], .start, .test 0, .stop, .start, .close]).map
    fun s => (s.isStop, s.held, s.isOpen 0, s.socks)) = some (false, [0, 0], false, []) := rfl

end Sylar.Serving
