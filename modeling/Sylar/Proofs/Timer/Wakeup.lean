import Sylar.Proofs.Timer.TimerSet
import Sylar.Spec.Poller

/-!
# `Sylar.Proofs.Timer.Wakeup`: no wake-up of the poller is lost

`m_trickled` suppresses notifications, and `getNextTimer` clears it. `Inv` says what this amounts
to while the poller is blocked. Either no timer is due before its deadline, or `m_trickled` is set,
and then a byte is in the pipe or a thread is about to write one.

`refresh` puts a timer back without looking whether it is now the first. That is sound because
`m_next` is at most the clock plus `m_ms`, so `refresh` never moves a timer forward. `Timely` is
this bound. `reset` with `from_now = false` keeps it, since the start it computes is not in the
future.
-/

set_option autoImplicit false

namespace Sylar.Poller

open TimerManager

section
variable {P : Type} {m : Manager P} {clock : Nat}

/-! ### The times of the timers -/

/-- `m_next` is at least `m_ms`, and at most `m_ms` from now. -/
def Timely (clock : Nat) (m : Manager P) : Prop :=
  ∀ p t, m.heap p = some t → t.ms ≤ t.next ∧ t.next ≤ clock + t.ms

theorem Timely.mono {clock' : Nat} (h : Timely clock m) (hle : clock ≤ clock') :
    Timely clock' m := by
  intro p t ht
  obtain ⟨hlow, hhigh⟩ := h p t ht
  exact ⟨hlow, by omega⟩

end

theorem add64_of_lt {a b : Nat} (h : a + b < 2 ^ 64) : add64 a b = a + b := Nat.mod_eq_of_lt h

theorem sub64_of_le {a b : Nat} (hle : b ≤ a) (hlt : a - b < 2 ^ 64) : sub64 a b = a - b := by
  unfold sub64
  rw [show a + 2 ^ 64 - b = a - b + 2 ^ 64 by omega, Nat.add_mod_right, Nat.mod_eq_of_lt hlt]

section
variable {P : Type} [LinearOrder P] {m m' : Manager P} {p : P} {t : Timer} {clock : Nat}
  {deadline : Option Nat}

theorem Timely.store (h : Timely clock m) (ht : t.ms ≤ t.next ∧ t.next ≤ clock + t.ms) :
    Timely clock (m.store p t) := by
  intro q u hu
  by_cases hq : q = p
  · subst hq
    rw [heap_store_self, Option.some.injEq] at hu
    exact hu ▸ ht
  · rw [heap_store_of_ne hq] at hu
    exact h q u hu

/-- The loop of `listExpiredCb` arms recurring timers again, from a clock reading that is not in
the future. -/
theorem timely_expire {now : Nat} (hnow : now ≤ clock) :
    ∀ (out : List P) (m : Manager P) (cbs : List (P × Option Nat)), Timely clock m →
      (∀ q ∈ out, ∀ t, m.heap q = some t → now + t.ms < 2 ^ 64) →
      Timely clock (out.foldl (expireOne now) (m, cbs)).1 := by
  intro out
  induction out with
  | nil =>
      intro m cbs h _
      exact h
  | cons p out ih =>
      intro m cbs h hwrap
      rw [List.foldl_cons]
      -- The loop body changes the timer at `p`, and keeps its `m_ms`.
      have hone : ∀ t, m.heap p = some t → ∀ t', t'.ms = t.ms → ∀ q ∈ out, ∀ u,
          (m.store p t').heap q = some u → now + u.ms < 2 ^ 64 := by
        intro t ht t' hms q hq u hu
        by_cases hqp : q = p
        · subst hqp
          rw [heap_store_self, Option.some.injEq] at hu
          rw [← hu, hms]
          exact hwrap q List.mem_cons_self t ht
        · rw [heap_store_of_ne hqp] at hu
          exact hwrap q (List.mem_cons_of_mem _ hq) u hu
      unfold expireOne
      cases ht : m.heap p with
      | none => exact ih m cbs h (fun q hq => hwrap q (List.mem_cons_of_mem _ hq))
      | some t =>
          simp only
          split
          · have hsum := add64_of_lt (hwrap p List.mem_cons_self t ht)
            refine ih _ _ (h.store (t := { t with next := add64 now t.ms }) ?_)
              (hone t ht { t with next := add64 now t.ms } rfl)
            simp only [hsum]
            omega
          · exact ih _ _ (h.store (t := { t with cb := none }) (h p t ht))
              (hone t ht { t with cb := none } rfl)

theorem timely_listExpiredCb {now : Nat} {nowPtr : P} (h : Timely clock m) (hnow : now ≤ clock)
    (hwrap : ∀ p ∈ m.timers, ∀ t, m.heap p = some t → now + t.ms < 2 ^ 64) :
    Timely clock (listExpiredCb m now nowPtr).1 := by
  unfold listExpiredCb
  split
  · exact h
  · simp only
    split
    · exact h
    · refine timely_expire hnow _ _ _ h ?_
      intro q hq
      exact hwrap q (List.mem_of_mem_take hq)

/-! ### Nothing is due before the deadline -/

/-- No timer of the set is due before the deadline. -/
def Clear (m : Manager P) (deadline : Option Nat) : Prop :=
  ∀ p ∈ m.timers, ¬ Before (next m.heap p) deadline

/-- What the manager owes a poller that is blocked. -/
def Safe (m : Manager P) (deadline : Option Nat) : Prop :=
  Clear m deadline ∨ m.trickled = true

theorem not_before_of_le {a b : Nat} (h : ¬ Before a deadline) (hab : a ≤ b) :
    ¬ Before b deadline := by
  cases deadline with
  | none => exact absurd trivial h
  | some d =>
      simp only [Before] at h ⊢
      omega

theorem next_le_of_less {heap : P → Option Timer} {p q : P} (h : less heap p q = true) :
    next heap p ≤ next heap q := by
  rcases less_iff.mp h with h | h
  · exact le_of_lt h
  · exact le_of_eq h.1

/-- The times that the set sees, for a store to a timer that is not in it. -/
theorem Clear.store (h : Clear m deadline) (hp : p ∉ m.timers) :
    Clear (m.store p t) deadline := by
  intro q hq
  have hne : q ≠ p := by
    rintro rfl
    exact hp hq
  rw [next_store_of_ne hne]
  exact h q hq

/-- The deadline of the poller is the time of the first timer. -/
theorem clear_getNextTimer (h : Good m)
    (hsleep : sleep clock (getNextTimer m clock).2 = .blocked deadline) :
    Clear (getNextTimer m clock).1 deadline := by
  unfold getNextTimer at hsleep ⊢
  intro q hq
  change q ∈ m.timers at hq
  cases htimers : m.timers with
  | nil =>
      rw [htimers] at hq
      cases hq
  | cons p rest =>
      rw [htimers] at hq
      simp only [htimers] at hsleep
      -- The first timer has the least time of all.
      have hfirst : next m.heap p ≤ next m.heap q := by
        rcases List.mem_cons.mp hq with rfl | hq
        · exact le_rfl
        · have hsorted := h.sorted
          rw [htimers] at hsorted
          exact next_le_of_less (List.rel_of_pairwise_cons hsorted hq)
      by_cases hdue : clock ≥ next m.heap p
      · rw [if_pos hdue] at hsleep
        cases hsleep
      · rw [if_neg hdue] at hsleep
        obtain ⟨k, hk⟩ : ∃ k, next m.heap p - clock = k + 1 := ⟨_, (by omega :
          next m.heap p - clock = next m.heap p - clock - 1 + 1)⟩
        rw [hk] at hsleep
        cases hsleep
        show ¬ next m.heap q < clock + (k + 1)
        omega

/-- A timer that is inserted at the front sets `m_trickled`, and one that is not at the front is
not before the first one. -/
theorem safe_addTimerVal (h : Between m [p]) (hsafe : Safe m deadline) :
    Safe (addTimerVal m p).1 deadline := by
  rcases hsafe with hclear | htrickled
  · obtain ⟨below, above, hsplit, hinsert, hsorted⟩ :=
      Lib.OrderedSet.insert_of_not_mem (strictOrder_less m.heap) h.sorted
        (h.disjoint p List.mem_cons_self)
    unfold Safe addTimerVal
    rw [hinsert]
    cases below with
    | nil =>
        -- The timer is the first one. The flag is set now, or was set before.
        refine Or.inr ?_
        simp only [List.length_nil, beq_self_eq_true, Bool.true_and]
        cases m.trickled <;> rfl
    | cons y below =>
        refine Or.inl ?_
        intro q hq
        change ¬ Before (next m.heap q) deadline
        have hq' : q = p ∨ q ∈ m.timers := by
          rw [hsplit]
          change q ∈ y :: below ++ p :: above at hq
          simp only [List.mem_append, List.mem_cons] at hq ⊢
          tauto
        rcases hq' with rfl | hq'
        · -- The new timer stands behind `y`, which is not due before the deadline.
          have hy : y ∈ m.timers := by
            rw [hsplit]
            simp
          have hless := List.rel_of_pairwise_cons hsorted (List.mem_append_right below
            (List.mem_cons_self (a := q)))
          exact not_before_of_le (hclear y hy) (next_le_of_less hless)
        · exact hclear q hq'
  · refine Or.inr ?_
    unfold addTimerVal
    simp [htrickled]

/-! ### What an operation of another thread may do -/

/-- The manager before and after, and whether the thread still has to notify. -/
structure Allowed (clock : Nat) (m m' : Manager P) (atFront : Bool) : Prop where
  good : Good m'
  timely : Timely clock m'
  safe : ∀ deadline, Safe m deadline → Safe m' deadline
  notify : m'.trickled = true → m.trickled = true ∨ atFront = true

/-- An operation that changes nothing. -/
theorem Allowed.refl (hgood : Good m) (htimely : Timely clock m) : Allowed clock m m false :=
  ⟨hgood, htimely, fun _ h => h, Or.inl⟩

theorem notify_addTimerVal (m : Manager P) (p : P)
    (h : (addTimerVal m p).1.trickled = true) :
    m.trickled = true ∨ (addTimerVal m p).2 = true := Bool.or_eq_true .. ▸ h

/-- A timer that is out of the set gets a new time and goes through `addTimer(val, lock)`. -/
theorem allowed_addTimerVal {m₀ : Manager P} (h : Between (m.store p t) [p])
    (htimely : Timely clock (m.store p t))
    (hclear : ∀ deadline, Clear m₀ deadline → Clear m deadline)
    (htrickled : m.trickled = m₀.trickled) :
    Allowed clock m₀ (addTimerVal (m.store p t) p).1 (addTimerVal (m.store p t) p).2 := by
  refine ⟨good_addTimerVal h, htimely, ?_, ?_⟩
  · intro deadline hsafe
    refine safe_addTimerVal h ?_
    rcases hsafe with hsafe | hsafe
    · exact Or.inl ((hclear deadline hsafe).store (h.disjoint p List.mem_cons_self))
    · exact Or.inr (htrickled.trans hsafe)
  · intro hset
    rcases notify_addTimerVal _ _ hset with hset | hset
    · exact Or.inl (htrickled.symm.trans hset)
    · exact Or.inr hset

theorem allowed_addTimer {now ms cb : Nat} {recurring : Bool} (hgood : Good m)
    (htimely : Timely clock m) (hp : m.heap p = none) (hnow : now ≤ clock)
    (hwrap : now + ms < 2 ^ 64) :
    Allowed clock m (addTimer m now ms cb recurring p).1 (addTimer m now ms cb recurring p).2 := by
  refine allowed_addTimerVal (good_create hgood hp (by simp)) (htimely.store ?_)
    (fun _ h => h) rfl
  simp only [add64_of_lt hwrap]
  omega

theorem allowed_reset {ms : Nat} {fromNow : Bool} (hgood : Good m) (htimely : Timely clock m)
    (hp : m.heap p = some t) (hwrap : clock + ms < 2 ^ 64) :
    Allowed clock m (reset m clock ms fromNow p t).1 (reset m clock ms fromNow p t).2.2 := by
  obtain ⟨hlow, hhigh⟩ := htimely p t hp
  unfold reset
  split
  · exact Allowed.refl hgood htimely
  · cases hcb : t.cb with
    | none => exact Allowed.refl hgood htimely
    | some cb =>
        obtain ⟨it, hfind, hout⟩ := good_takeOut hgood ⟨t, hp, by simp [hcb]⟩
        simp only [hfind]
        -- The start is now, or the moment from which the old time was counted.
        have hstart : (if fromNow = true then clock else sub64 t.next t.ms) ≤ clock := by
          split
          · exact le_rfl
          · rw [sub64_of_le hlow (by omega)]
            omega
        refine allowed_addTimerVal (between_store hout (by simp)) ?_ ?_ rfl
        · have hsame : Timely clock { m with timers := m.timers.eraseIdx it } := htimely
          refine hsame.store ?_
          simp only [add64_of_lt (by omega :
            (if fromNow = true then clock else sub64 t.next t.ms) + ms < 2 ^ 64)]
          omega
        · exact fun _ h q hq => h q (List.mem_of_mem_eraseIdx hq)

/-- `refresh` does not move a timer forward. -/
theorem allowed_refresh (hgood : Good m) (htimely : Timely clock m) (hp : m.heap p = some t)
    (hwrap : clock + t.ms < 2 ^ 64) : Allowed clock m (refresh m clock p t).1 false := by
  obtain ⟨hlow, hhigh⟩ := htimely p t hp
  unfold refresh
  cases hcb : t.cb with
  | none => exact Allowed.refl hgood htimely
  | some cb =>
      have harmed : m.Armed p := ⟨t, hp, by simp [hcb]⟩
      obtain ⟨it, hfind, hout⟩ := good_takeOut hgood harmed
      have hstored := between_store (t := ⟨t.recurring, t.ms, add64 clock t.ms, some cb⟩) hout
        (by simp)
      simp only [hfind]
      refine ⟨between_insert hstored, ?_, ?_, Or.inl⟩
      · have hsame : Timely clock { m with timers := m.timers.eraseIdx it } := htimely
        refine hsame.store ?_
        simp only [add64_of_lt hwrap]
        omega
      · intro deadline hsafe
        rcases hsafe with hclear | htrickled
        · refine Or.inl ?_
          intro q hq
          have hq' := (Lib.OrderedSet.mem_insert (strictOrder_less _) hstored.sorted
            (hstored.disjoint p List.mem_cons_self) q).mp hq
          rcases hq' with rfl | hq'
          · -- The timer itself: its new time is not before its old one.
            refine not_before_of_le (hclear q ((hgood.mem_iff q).mpr harmed)) ?_
            simp only [next, hp, heap_store_self, add64_of_lt hwrap]
            omega
          · have hclear' : Clear { m with timers := m.timers.eraseIdx it } deadline :=
              fun u hu => hclear u (List.mem_of_mem_eraseIdx hu)
            exact hclear'.store (hstored.disjoint p List.mem_cons_self) q hq'
        · exact Or.inr htrickled

theorem allowed_cancel {r : Manager P × Bool} (hgood : Good m) (htimely : Timely clock m)
    (hp : m.heap p = some t) (hr : cancel m p t = some r) : Allowed clock m r.1 false := by
  obtain ⟨r', hr', hgood', -, -⟩ := cancel_spec hgood hp
  cases hr.symm.trans hr'
  unfold cancel at hr
  cases hcb : t.cb with
  | none =>
      simp only [hcb] at hr
      cases hr
      exact Allowed.refl hgood htimely
  | some cb =>
      simp only [hcb] at hr
      split at hr
      · cases hr
      · next it hfind =>
        cases hr
        refine ⟨hgood', htimely.store (htimely p t hp), ?_, Or.inl⟩
        intro deadline hsafe
        rcases hsafe with hclear | htrickled
        · refine Or.inl ?_
          intro q hq
          have hq' : q ∈ m.timers := List.mem_of_mem_eraseIdx hq
          refine not_before_of_le (hclear q hq') (le_of_eq ?_)
          -- The store leaves the time of every timer as it is.
          by_cases hqp : q = p
          · subst hqp
            simp [next, hp]
          · exact (next_store_of_ne hqp).symm
        · exact Or.inr htrickled

/-! ### Runs -/

/-- The invariant of the poller and the other threads. -/
structure Inv (s : Sys P) : Prop where
  good : Good s.manager
  timely : Timely s.clock s.manager
  safe : ∀ deadline, s.poller = .blocked deadline → Safe s.manager deadline
  /-- A notification that is suppressed is on its way. -/
  pending : ∀ deadline, s.poller = .blocked deadline → s.manager.trickled = true →
    0 < s.pipe ∨ 0 < s.notifying

/-- A step of another thread. -/
theorem Inv.updated {s : Sys P} {atFront : Bool} (h : Inv s)
    (hop : Allowed s.clock s.manager m' atFront) : Inv (s.updated m' atFront) := by
  refine ⟨hop.good, hop.timely, ?_, ?_⟩
  · intro deadline hblocked
    exact hop.safe deadline (h.safe deadline hblocked)
  · intro deadline hblocked htrickled
    show 0 < s.pipe ∨ 0 < s.notifying + atFront.toNat
    rcases hop.notify htrickled with hold | hfront
    · rcases h.pending deadline hblocked hold with hpipe | hnotifying
      · exact Or.inl hpipe
      · exact Or.inr (by omega)
    · rw [hfront]
      exact Or.inr (Nat.succ_pos _)

/-- A step of the poller after which it is not blocked. -/
theorem Inv.unblocked {s : Sys P} (hgood : Good s.manager) (htimely : Timely s.clock s.manager)
    (hpoller : ∀ deadline, s.poller ≠ .blocked deadline) : Inv s :=
  ⟨hgood, htimely, fun d hd => absurd hd (hpoller d), fun d hd => absurd hd (hpoller d)⟩

theorem step_poller_inv (s : Sys P) (a : Action P) (s' : Sys P) (h : Inv s) (hg : NoWrap s a)
    (hstep : step s a = some s') : Inv s' := by
  cases a with
  | tick ms =>
      cases hstep
      exact ⟨h.good, h.timely.mono (Nat.le_add_right _ _), h.safe, h.pending⟩
  | getNextTimer =>
      simp only [step] at hstep
      split at hstep
      · cases hstep
        refine ⟨h.good.congr rfl rfl, h.timely, ?_, ?_⟩
        · intro deadline hsleep
          exact Or.inl (clear_getNextTimer h.good hsleep)
        · -- The flag was just cleared.
          intro deadline _ htrickled
          cases htrickled
      · cases hstep
  | wake =>
      simp only [step] at hstep
      split at hstep
      · cases hstep
        exact Inv.unblocked h.good h.timely (fun d hd => by cases hd)
      · cases hstep
  | drain =>
      simp only [step] at hstep
      split at hstep
      · cases hstep
      · next hawake =>
        cases hstep
        exact Inv.unblocked h.good h.timely hawake
  | listExpiredCb now nowPtr =>
      simp only [step] at hstep
      split at hstep
      · next hcond =>
        cases hstep
        obtain ⟨m', new, hlist, hgood', -, -⟩ := listExpiredCb_spec now nowPtr h.good
        refine Inv.unblocked ?_ ?_ (fun d hd => by cases hd)
        · rw [hlist]
          exact hgood'
        · exact timely_listExpiredCb h.timely hcond.2.1 hg
      · cases hstep
  | addTimer now ms cb recurring p =>
      simp only [step] at hstep
      split at hstep
      · next hcond =>
        cases hstep
        exact h.updated (allowed_addTimer h.good h.timely hcond.2 hcond.1 hg)
      · cases hstep
  | reset ms fromNow p =>
      simp only [step] at hstep
      split at hstep
      · cases hstep
      · next t hp =>
        cases hstep
        exact h.updated (allowed_reset h.good h.timely hp hg)
  | refresh p =>
      simp only [step] at hstep
      split at hstep
      · cases hstep
      · next t hp =>
        cases hstep
        exact h.updated (allowed_refresh h.good h.timely hp (hg t hp))
  | cancel p =>
      simp only [step] at hstep
      split at hstep
      · cases hstep
      · next t hp =>
        split at hstep
        · cases hstep
        · next r b hr =>
          cases hstep
          exact h.updated (allowed_cancel h.good h.timely hp hr)
  | notify =>
      simp only [step] at hstep
      split at hstep
      · cases hstep
      · cases hstep
        exact ⟨h.good, h.timely, h.safe, fun _ _ _ => Or.inl (Nat.succ_pos _)⟩

theorem poller_inv_init (clock : Nat) : Inv (init P clock) := by
  refine Inv.unblocked ?_ ?_ (fun d hd => by cases hd)
  · exact (inv_init clock : (TimerManager.init P clock).Inv).1
  · intro p t ht
    cases ht

/-- No wake-up is lost, in every state of every run in which the sums do not wrap. -/
theorem no_lost_wakeup (clock : Nat) (actions : List (Action P)) (s : Sys P)
    (hg : Lib.Guarded step NoWrap (init P clock) actions)
    (h : Lib.exec step (init P clock) actions = some s) : NoLostWakeup s := by
  have hinv := Lib.exec_invariant step_poller_inv actions (init P clock) s
    (poller_inv_init clock) hg h
  intro deadline hblocked hdue
  rcases hinv.safe deadline hblocked with hclear | htrickled
  · obtain ⟨p, hp, hbefore⟩ := hdue
    exact absurd hbefore (hclear p hp)
  · exact hinv.pending deadline hblocked htrickled

end

/-- The poller sleeps until `200`. A timer for `150` is armed, and the thread has not notified yet
when another timer for `120` is armed. -/
def raceRun : List (Action Nat) :=
  [.addTimer 100 100 1 false 5, .notify, .getNextTimer, .tick 10, .addTimer 105 45 2 false 3,
    .addTimer 110 10 3 false 9, .refresh 5]

theorem no_lost_wakeup_race :
    ∃ s : Sys Nat, Lib.exec step (init Nat 100) raceRun = some s ∧
      s.poller = .blocked (some 200) ∧ s.manager.timers = [9, 3, 5] ∧
      next s.manager.heap 9 = 120 ∧ (0 < s.pipe ∨ 0 < s.notifying) := by
  refine ⟨_, rfl, rfl, rfl, rfl, no_lost_wakeup 100 raceRun _ ?_ rfl (some 200) rfl ?_⟩
  · refine ⟨(by decide : 100 + 100 < 2 ^ 64), trivial, trivial, trivial,
      (by decide : 105 + 45 < 2 ^ 64), (by decide : 110 + 10 < 2 ^ 64), ?_, trivial⟩
    intro t ht
    cases ht
    exact (by decide : 110 + 100 < 2 ^ 64)
  · exact ⟨9, List.mem_cons_self, (by decide : 120 < 200)⟩

end Sylar.Poller
