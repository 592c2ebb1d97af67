import Sylar.Proofs.Http.Pool

/-!
# `Sylar.Proofs.Http.PoolLimits`: the limits of the connection pool

`m_maxSize` is in no test of the source, so the size limit holds as long as no call makes a connection
while there are already that many: `size_limit`.

The age of a connection is in two tests, but `m_createTime` stays 0 and the comparisons are the wrong
way round. The first discards a connection that is still good, and the second too, until the clock
itself is past `m_maxAliveTime`; from then on they discard none for its age. `timely` says where this
makes no difference, and `age_limit_iff` that these are all the runs that respect the limit.
-/

set_option autoImplicit false

namespace Sylar.Http.HttpConnectionPool

open Lib

section
variable {n : Nat} {cfg : Config} {s s' : Pool n}

/-! ## The size -/

/-- A connection is made only while there are fewer than `m_maxSize`. -/
def hasRoom (cfg : Config) (s : Pool n) : Action n → Bool
  | .connect _ true => decide (live s < cfg.maxSize)
  | _ => true

theorem made_step {a : Action n} (h : s.nextConn ≤ cfg.maxSize + s.deleted.length)
    (ha : hasRoom cfg s a = true) (hstep : Moves cfg s a s') :
    s'.nextConn ≤ cfg.maxSize + s'.deleted.length := by
  cases hstep with
  | discard t ptr invalid hpc =>
      simp only [Pool.discard, List.length_append]
      omega
  | connect t success hpc =>
      cases success with
      | false => exact h
      | true =>
          have hlt : live s < cfg.maxSize := of_decide_eq_true ha
          unfold live at hlt
          simp only [Pool.connect, if_true]
          omega
  | check t ptr connected hpc =>
      unfold Pool.check
      split
      · simp only [List.length_cons]
        omega
      · exact h
  | _ => exact h

/-- Connections in different places are different. -/
theorem length_le_live (h : Placed s) : s.conns.length + s.out.length ≤ live s := by
  have hsub : (shared s).toFinset ⊆ Finset.range s.nextConn := by
    intro c hc
    exact Finset.mem_range.mpr (h.below c (List.mem_toFinset.mp hc))
  have hcard := Finset.card_le_card hsub
  rw [List.toFinset_card_of_nodup h.apart.nodup, Finset.card_range] at hcard
  simp only [shared, List.length_append] at hcard
  unfold live
  omega

end

/-- One thread gets a connection, gives it back, and gets it again. -/
def oneAtATime : List (Action 1) :=
  [.getConnection 0, .pop 0 [], .discard 0, .subtract 0, .connect 0 true, .count 0, .hand 0,
    .releasePtr 0 0, .check 0 true, .push 0, .getConnection 0, .pop 0 [0], .discard 0,
    .subtract 0, .hand 0]

section
variable {n : Nat} {cfg : Config} {s s' : Pool n}

/-! ## The age -/

/-- `m_createTime` is 0 in all objects. -/
def Untimed (s : Pool n) : Prop := ∀ c, (s.heap c).createTime = 0

theorem untimed_update {heap : Nat → Conn} {ptr : Nat} {obj : Conn}
    (h : ∀ c, (heap c).createTime = 0) (hobj : obj.createTime = 0) :
    ∀ c, (Function.update heap ptr obj c).createTime = 0 := by
  intro c
  by_cases hc : c = ptr
  · rw [hc, Function.update_self]
    exact hobj
  · rw [Function.update_of_ne hc]
    exact h c

theorem untimed_step {a : Action n} (h : Untimed s) (hstep : Moves cfg s a s') : Untimed s' := by
  cases hstep with
  | connect t success hpc =>
      cases success with
      | false => exact h
      | true => exact untimed_update h rfl
  | hand t ptr hpc => exact untimed_update h (h ptr)
  | releasePtr t ptr hpc hout => exact untimed_update h (h ptr)
  | check t ptr connected hpc =>
      unfold Pool.check
      split <;> exact h
  | _ => exact h

/-- The connections that the two tests meet. For `getConnection` it is the first connected one, which
must not be too old, and the clock must have reached `m_maxAliveTime`. For `ReleasePtr` it is a
connected one with requests left, which is put back once the clock is past `m_maxAliveTime`. -/
def timely (cfg : Config) (s : Pool n) : Action n → Bool
  | .pop t connected =>
    match s.pc t, s.conns.find? connected.contains with
    | .locking now, some c =>
      decide (cfg.maxAliveTime ≤ now) && decide (now ≤ (s.heap c).born + cfg.maxAliveTime)
    | _, _ => true
  | .check t connected =>
    match s.pc t with
    | .checking ptr =>
      !connected || decide (cfg.maxRequest ≤ (s.heap ptr).request) ||
        if s.clock ≤ cfg.maxAliveTime then
          decide ((s.heap ptr).born + cfg.maxAliveTime ≤ s.clock)
        else decide (s.clock ≤ (s.heap ptr).born + cfg.maxAliveTime)
    | _ => true
  | _ => true

/-- The loop takes the connections that are invalid, up to the first that is not. -/
theorem popLoop_eq (cfg : Config) (heap : Nat → Conn) (now : Nat) (connected conns : List Nat) :
    (popLoop cfg heap now connected conns).1 =
        conns.find? (fun c => !isInvalid cfg heap now connected c) ∧
      (popLoop cfg heap now connected conns).2.1 =
        conns.takeWhile (isInvalid cfg heap now connected) := by
  induction conns with
  | nil => exact ⟨rfl, rfl⟩
  | cons c conns ih =>
      rw [popLoop]
      split
      next h => exact ⟨by simp [h, ih.1], by simp [h, ih.2]⟩
      next h => exact ⟨by simp [h], by simp [h]⟩

/-- The decisions of one run of the loop respect the limit if and only if the step is timely. -/
theorem fair_pop {t : Fin n} {now : Nat} {connected : List Nat} (hserved : Served cfg s)
    (huntimed : Untimed s) (hpc : s.pc t = .locking now) :
    (s.pop cfg t now connected).log.all (Decision.fair cfg) =
      (timely cfg s (.pop t connected) && s.log.all (Decision.fair cfg)) := by
  obtain ⟨hptr, hinvalid⟩ := popLoop_eq cfg s.heap now connected s.conns
  have htest : isInvalid cfg s.heap now connected =
      fun c => !connected.contains c || decide (now < cfg.maxAliveTime) := by
    funext c
    rw [isInvalid, huntimed c, Nat.zero_add]
  rcases hloop : popLoop cfg s.heap now connected s.conns with ⟨ptr, invalid, rest⟩
  rw [hloop] at hptr hinvalid
  simp only [htest] at hptr hinvalid
  simp only [Pool.pop, hloop, List.all_append, timely, hpc]
  congr 1
  by_cases hnow : now < cfg.maxAliveTime
  · -- All are invalid, and a connected one is deleted too early.
    simp only [hnow, decide_true, Bool.or_true, Bool.not_true] at hptr hinvalid
    obtain rfl : ptr = none := hptr.trans (List.find?_eq_none.mpr fun _ _ => Bool.false_ne_true)
    obtain rfl : invalid = s.conns :=
      hinvalid.trans (List.takeWhile_eq_self_iff.mpr fun _ _ => rfl)
    cases hfind : s.conns.find? connected.contains with
    | none =>
        simp only [Option.toList_none, List.map_nil, List.all_nil, Bool.true_and, List.all_map]
        rw [List.all_eq_true]
        intro c hc
        have hnot := Bool.not_eq_true _ ▸ List.find?_eq_none.mp hfind c hc
        simp only [Function.comp_apply, Decision.fair, hnot, Bool.not_false, Bool.true_or]
    | some c =>
        have hc := List.mem_of_find?_eq_some hfind
        have hconnected := List.find?_some hfind
        have hrequest := (hserved.conns c hc).2
        simp only [Option.toList_none, List.map_nil, List.all_nil, Bool.true_and, List.all_map]
        rw [decide_eq_false (not_le.mpr hnow), Bool.false_and, List.all_eq_false]
        refine ⟨c, hc, ?_⟩
        simp only [Function.comp_apply, Decision.fair, hconnected, Bool.not_true, Bool.false_or,
          Bool.or_eq_true, decide_eq_true_eq, not_or, not_le]
        omega
  · -- Only those that are not connected are invalid.
    simp only [hnow, decide_false, Bool.or_false, Bool.not_not] at hptr hinvalid
    have hold : (invalid.map fun c =>
        (⟨.discarded (connected.contains c), s.heap c, now⟩ : Decision)).all
        (Decision.fair cfg) = true := by
      rw [List.all_map, List.all_eq_true]
      intro c hc
      rw [hinvalid] at hc
      have hnot := List.mem_takeWhile_imp hc
      simp only [Function.comp_apply, Decision.fair, hnot, Bool.true_or]
    rw [hold, Bool.and_true, hptr]
    cases s.conns.find? connected.contains with
    | none => rfl
    | some c => simp [Decision.fair, not_lt.mp hnow]

theorem fair_check {t : Fin n} {ptr : Nat} {connected : Bool} (huntimed : Untimed s)
    (hpc : s.pc t = .checking ptr) :
    (s.check cfg t ptr connected).log.all (Decision.fair cfg) =
      (timely cfg s (.check t connected) && s.log.all (Decision.fair cfg)) := by
  have htest : isSpent cfg (s.heap ptr) s.clock connected =
      (!connected || decide (s.clock ≤ cfg.maxAliveTime) ||
        decide (cfg.maxRequest ≤ (s.heap ptr).request)) := by
    rw [isSpent, huntimed ptr, Nat.zero_add]
  simp only [Pool.check, htest, timely, hpc]
  cases connected with
  | false => simp [Decision.fair]
  | true =>
      by_cases hrequest : cfg.maxRequest ≤ (s.heap ptr).request
      · simp [Decision.fair, hrequest]
      · by_cases hclock : s.clock ≤ cfg.maxAliveTime
        · simp [Decision.fair, hrequest, hclock]
        · simp [Decision.fair, hrequest, hclock]

theorem fair_step {a : Action n} (h : Sound cfg s) (huntimed : Untimed s)
    (hstep : Moves cfg s a s') :
    s'.log.all (Decision.fair cfg) = (timely cfg s a && s.log.all (Decision.fair cfg)) := by
  cases hstep with
  | pop t now connected hpc => exact fair_pop h.served huntimed hpc
  | check t ptr connected hpc => exact fair_check huntimed hpc
  | connect t success hpc => cases success <;> rfl
  | _ => rfl

theorem fair_run {as : List (Action n)} (h : Sound cfg s) (huntimed : Untimed s)
    (hrun : exec (step cfg) s as = some s') :
    s'.log.all (Decision.fair cfg) = true ↔
      Guarded (step cfg) (fun s a => timely cfg s a = true) s as ∧
        s.log.all (Decision.fair cfg) = true := by
  induction as generalizing s with
  | nil =>
      cases hrun
      exact ⟨fun hfair => ⟨trivial, hfair⟩, fun hfair => hfair.2⟩
  | cons a as ih =>
      obtain ⟨u, hu, hrest⟩ := (exec_cons_eq_some (step cfg)).mp hrun
      have hmoves := moves_of_step hu
      rw [ih (sound_step h hu) (untimed_step huntimed hmoves) hrest, fair_step h huntimed hmoves,
        Bool.and_eq_true]
      simp only [Guarded, hu]
      tauto

/-- The pool honours its age limit in a run if and only if each step of the run is timely. -/
theorem age_limit_iff (cfg : Config) (n clock : Nat) (as : List (Action n)) (s : Pool n)
    (hrun : exec (step cfg) (init n clock) as = some s) :
    (∀ d ∈ s.log, d.fair cfg = true) ↔
      Guarded (step cfg) (fun s a => timely cfg s a = true) (init n clock) as := by
  have huntimed : Untimed (init n clock) := fun _ => rfl
  rw [← List.all_eq_true, fair_run (sound_init cfg n clock) huntimed hrun]
  exact and_iff_left rfl

end

theorem age_limit_oneAtATime :
    ∃ s, exec (step ⟨1, 10, 3⟩) (init 1 1000) oneAtATime = some s ∧ s.log ≠ [] ∧
      ∀ d ∈ s.log, d.fair ⟨1, 10, 3⟩ = true := by
  obtain ⟨s, hs⟩ : ∃ s, exec (step ⟨1, 10, 3⟩) (init 1 1000) oneAtATime = some s := ⟨_, rfl⟩
  have hfair := (age_limit_iff ⟨1, 10, 3⟩ 1 1000 oneAtATime s hs).mpr (by decide)
  refine ⟨s, hs, ?_, hfair⟩
  cases hs
  exact List.cons_ne_nil _ _

/-- A connection that may live for 10 ms is returned from the pool 4000 ms after it was made, and one
that is a moment old is deleted because the clock is at 5 ms. -/
theorem age_limit_ignored :
    (∃ s, exec (step ⟨1, 10, 3⟩) (init 1 1000)
        [.getConnection 0, .pop 0 [], .discard 0, .subtract 0, .connect 0 true, .count 0, .hand 0,
          .releasePtr 0 0, .check 0 true, .push 0, .tick 4000, .getConnection 0,
          .pop 0 [0]] = some s ∧
        s.log.head? = some ⟨.reused, ⟨0, 1, 1000, 1⟩, 5000⟩ ∧
        ¬ ∀ d ∈ s.log, d.fair ⟨1, 10, 3⟩ = true) ∧
    ∃ s, exec (step ⟨1, 10, 3⟩) (init 1 5)
        [.getConnection 0, .pop 0 [], .discard 0, .subtract 0, .connect 0 true, .count 0, .hand 0,
          .releasePtr 0 0, .check 0 true] = some s ∧
        s.log = [⟨.discarded true, ⟨0, 1, 5, 1⟩, 5⟩] ∧
        ¬ ∀ d ∈ s.log, d.fair ⟨1, 10, 3⟩ = true :=
  ⟨⟨_, rfl, rfl, by decide⟩, ⟨_, rfl, rfl, by decide⟩⟩

end Sylar.Http.HttpConnectionPool
