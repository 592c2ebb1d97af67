import Sylar.Proofs.Timer.TimerSet
import Sylar.Spec.Poller

/-!
# `Sylar.Proofs.Timer.Expiry`: what expires, and how long the poller waits

`lower_bound` is asked for a timer that is not in the set. Where it lands among the timers with the
same time depends on its address, and the loop behind it goes on to the last of them
(`expiredEnd_split`). So the set is cut between the timers that are due and those that are not.
`expire_fold` is the loop over the first part.

The delay that `getNextTimer` returns is compared as an `int`. From 2^31 milliseconds on the
comparison looks at its low 32 bits, and the cast in the call of `epoll_wait` cuts it to them.
-/

set_option autoImplicit false

namespace Sylar.TimerManager

open Lib.OrderedSet (Sorted)

section
variable {P : Type} [LinearOrder P] {m m' : Manager P} {p q : P} {t : Timer} {now : Nat} {nowPtr : P}

/-! ### Which timers are due -/

omit [LinearOrder P] in
theorem detectClockRollover_eq (hprev : 60 * 60 * 1000 ≤ m.previouseTime)
    (hword : m.previouseTime < 2 ^ 64) :
    detectClockRollover m now = decide (now + 60 * 60 * 1000 < m.previouseTime) := by
  have hsub : sub64 m.previouseTime (60 * 60 * 1000) = m.previouseTime - 60 * 60 * 1000 := by
    rw [sub64]
    omega
  rw [detectClockRollover, hsub, Bool.eq_iff_iff, Bool.and_eq_true, decide_eq_true_eq,
    decide_eq_true_eq, decide_eq_true_eq]
  omega

/-- A timer of the set is not the temporary one. -/
theorem ne_of_mem (h : Good m) (hfree : m.heap nowPtr = none) (hp : p ∈ m.timers) : p ≠ nowPtr := by
  obtain ⟨t, ht, -⟩ := (h.mem_iff p).mp hp
  rintro rfl
  rw [hfree] at ht
  cases ht

variable (now) in
/-- The set is cut behind the last timer that is due. -/
theorem expiredEnd_split (rollover : Bool) (h : Good m) (hfree : m.heap nowPtr = none) :
    ∃ first rest, m.timers = first ++ rest ∧
      expiredEnd m now nowPtr rollover = first.length ∧
      (∀ p ∈ first, rollover = true ∨ next m.heap p ≤ now) ∧
      ∀ p ∈ rest, rollover = false ∧ now < next m.heap p := by
  cases rollover with
  | true =>
      refine ⟨m.timers, [], (List.append_nil _).symm, ?_, fun _ _ => Or.inl rfl, fun _ hp => nomatch hp⟩
      simp [expiredEnd]
  | false =>
      have hne := fun p hp => ne_of_mem (p := p) h hfree hp
      have hsame : ∀ p ∈ m.timers,
          next (Function.update m.heap nowPtr (some { next := now })) p = next m.heap p := by
        intro p hp
        rw [next, next, Function.update_of_ne (hne p hp)]
      have hself : next (Function.update m.heap nowPtr (some { next := now })) nowPtr = now := by
        rw [next, Function.update_self]
      obtain ⟨below, above, hsplit, hbound, hbelow, habove⟩ := Lib.OrderedSet.split_lowerBound
        (strictOrder_less (Function.update m.heap nowPtr (some { next := now }))) nowPtr
        (h.sorted.congr fun x hx y hy => less_congr (hsame x hx) (hsame y hy))
      have hless : ∀ p ∈ m.timers,
          less (Function.update m.heap nowPtr (some { next := now })) p nowPtr = true ↔
            next m.heap p < now ∨ next m.heap p = now ∧ p < nowPtr := by
        intro p hp
        rw [less_iff, hsame p hp, hself]
      have hmem : ∀ p ∈ above, p ∈ m.timers := fun p hp => hsplit ▸ List.mem_append_right below hp
      refine ⟨below ++ above.takeWhile fun p => next m.heap p == now,
        above.dropWhile fun p => next m.heap p == now, ?_, ?_, ?_, ?_⟩
      · rw [List.append_assoc, List.takeWhile_append_dropWhile, hsplit]
      · simp only [expiredEnd, Bool.false_eq_true, if_false, hbound]
        rw [hsplit, List.drop_left, List.length_append]
      · intro p hp
        rcases List.mem_append.mp hp with hp | hp
        · have := (hless p (hsplit ▸ List.mem_append_left above hp)).mp (hbelow p hp)
          exact Or.inr (by omega)
        · have := List.mem_takeWhile_imp hp
          exact Or.inr (le_of_eq (beq_iff_eq.mp this))
      · -- The first one behind the cut has another time, and it is not before `now_timer`.
        have hhead := List.head?_dropWhile_not (fun p => next m.heap p == now) above
        have hsorted : Sorted (less m.heap) (above.dropWhile fun p => next m.heap p == now) :=
          h.sorted.sublist (hsplit ▸ (List.dropWhile_sublist _).trans (List.sublist_append_right ..))
        cases hrest : above.dropWhile fun p => next m.heap p == now with
        | nil => exact fun p hp => nomatch hp
        | cons d rest =>
            rw [hrest] at hhead hsorted
            have hd : d ∈ above := (List.dropWhile_sublist _).subset (hrest ▸ List.mem_cons_self)
            have hnot : ¬ (next m.heap d < now ∨ next m.heap d = now ∧ d < nowPtr) := by
              rw [← hless d (hmem d hd), habove d hd]
              exact Bool.false_ne_true
            have hne : next m.heap d ≠ now := beq_eq_false_iff_ne.mp (by simpa using hhead)
            have hlater : now < next m.heap d := by omega
            intro p hp
            rcases List.mem_cons.mp hp with rfl | hp
            · exact ⟨rfl, hlater⟩
            · have := less_iff.mp (List.rel_of_pairwise_cons hsorted hp)
              exact ⟨rfl, by omega⟩

variable (now) in
/-- The first part of the set is what is due. -/
theorem filter_due (h : Good m) (hprev : 60 * 60 * 1000 ≤ m.previouseTime)
    (hword : m.previouseTime < 2 ^ 64) (hfree : m.heap nowPtr = none) :
    m.timers.take (expiredEnd m now nowPtr (detectClockRollover m now)) =
        m.timers.filter (due m now) ∧
      m.timers.drop (expiredEnd m now nowPtr (detectClockRollover m now)) =
        m.timers.filter fun p => !due m now p := by
  obtain ⟨first, rest, hsplit, hend, hfirst, hrest⟩ :=
    expiredEnd_split now (detectClockRollover m now) h hfree
  rw [detectClockRollover_eq hprev hword] at hfirst hrest
  have hdue : ∀ p ∈ first, due m now p = true := by
    intro p hp
    rw [due, Bool.or_eq_true, decide_eq_true_eq (p := next m.heap p ≤ now)]
    exact hfirst p hp
  have hlater : ∀ p ∈ rest, due m now p = false := by
    intro p hp
    rw [due, Bool.or_eq_false_iff, decide_eq_false_iff_not (p := next m.heap p ≤ now), not_le]
    exact hrest p hp
  rw [hend, hsplit, List.take_left, List.drop_left, List.filter_append, List.filter_append,
    List.filter_eq_self.mpr hdue, List.filter_eq_nil_iff.mpr fun p hp => by rw [hlater p hp]; simp,
    List.filter_eq_nil_iff.mpr fun p hp => by rw [hdue p hp]; simp,
    List.filter_eq_self.mpr fun p hp => by rw [hlater p hp]; rfl, List.append_nil, List.nil_append]
  exact ⟨rfl, rfl⟩

/-! ### The loop -/

/-- A timer after it has fired. -/
def Timer.fired (now : Nat) (t : Timer) : Timer :=
  if t.recurring then { t with next := add64 now t.ms } else { t with cb := none }

variable (now) in
/-- One timer of the loop, in full. -/
theorem expireOne_eq (cbs : List (P × Option Nat)) {out : List P} (h : Between m (p :: out))
    (ht : m.heap p = some t) :
    ∃ m', expireOne now (m, cbs) p = (m', cbs ++ [(p, t.cb)]) ∧ Between m' out ∧
      m'.heap = Function.update m.heap p (some (t.fired now)) ∧
      (∀ q, q ∈ m'.timers ↔ q ∈ m.timers ∨ q = p ∧ t.recurring = true) ∧
      m'.previouseTime = m.previouseTime := by
  have hcb : t.cb ≠ none := by
    obtain ⟨u, hu, hcb⟩ := (h.mem_iff p).mp (Or.inr List.mem_cons_self)
    rw [ht, Option.some.injEq] at hu
    exact hu ▸ hcb
  have hp : p ∉ m.timers := h.disjoint p List.mem_cons_self
  rw [expireOne]
  simp only [ht]
  by_cases hrec : t.recurring = true
  · rw [if_pos hrec, Timer.fired, if_pos hrec]
    have hstore := between_store (t := { t with next := add64 now t.ms }) h hcb
    refine ⟨_, rfl, between_insert hstore, rfl, fun q => ?_, rfl⟩
    rw [Lib.OrderedSet.mem_insert (strictOrder_less _) hstore.sorted hp, timers_store, or_comm]
    simp only [hrec, and_true]
  · rw [if_neg hrec, Timer.fired, if_neg hrec]
    refine ⟨_, rfl, between_drop h rfl, rfl, fun q => ?_, rfl⟩
    rw [timers_store]
    exact ⟨Or.inl, fun hq => hq.resolve_right fun hrec' => hrec hrec'.2⟩

variable (now) in
/-- The loop over timers that are out of the set. -/
theorem expire_fold (out : List P) : ∀ (m : Manager P) (cbs : List (P × Option Nat)),
    Between m out → ∃ m', out.foldl (expireOne now) (m, cbs) =
        (m', cbs ++ out.map fun p => (p, (m.heap p).bind Timer.cb)) ∧
      (∀ p ∈ out, m'.heap p = (m.heap p).map (Timer.fired now)) ∧
      (∀ p ∉ out, m'.heap p = m.heap p) ∧
      (∀ p, p ∈ m'.timers ↔
        p ∈ m.timers ∨ p ∈ out ∧ ∃ t, m.heap p = some t ∧ t.recurring = true) ∧
      m'.previouseTime = m.previouseTime := by
  induction out with
  | nil =>
      intro m cbs _
      refine ⟨m, ?_, ?_, fun _ _ => rfl, ?_, rfl⟩
      · rw [List.map_nil, List.append_nil]
        rfl
      · intro p hp
        cases hp
      · simp
  | cons p out ih =>
      intro m cbs h
      obtain ⟨t, ht, -⟩ := (h.mem_iff p).mp (Or.inr List.mem_cons_self)
      obtain ⟨m₁, hone, hbetween, hheap, htimers, htime⟩ := expireOne_eq now cbs h ht
      obtain ⟨m', hrun, hfired, hkept, hmem, htime'⟩ := ih m₁ (cbs ++ [(p, t.cb)]) hbetween
      have hpout : p ∉ out := (List.nodup_cons.mp h.nodup).1
      -- The timers that come later have not been touched yet.
      have hlater : ∀ q ≠ p, m₁.heap q = m.heap q := by
        intro q hq
        rw [hheap, Function.update_of_ne hq]
      have hout : ∀ q ∈ out, m₁.heap q = m.heap q := fun q hq => hlater q fun heq => hpout (heq ▸ hq)
      refine ⟨m', ?_, ?_, ?_, ?_, htime'.trans htime⟩
      · rw [List.foldl_cons, hone, hrun, List.append_assoc, List.map_cons, ht,
          List.map_congr_left fun q hq => by rw [hout q hq]]
        rfl
      · intro q hq
        rcases List.mem_cons.mp hq with rfl | hq
        · rw [hkept q hpout, hheap, Function.update_self, ht, Option.map_some]
        · rw [hfired q hq, hout q hq]
      · intro q hq
        rw [List.mem_cons, not_or] at hq
        rw [hkept q hq.2, hlater q hq.1]
      · intro q
        rw [hmem q, htimers q, List.mem_cons]
        by_cases hq : q = p
        · subst hq
          simp [ht, hpout]
        · rw [hlater q hq]
          simp [hq]

/-! ### `listExpiredCb` -/

variable (now) in
/-- A set with timers, whether anything is due or not. -/
theorem listExpiredCb_eq (h : Good m) (hprev : 60 * 60 * 1000 ≤ m.previouseTime)
    (hword : m.previouseTime < 2 ^ 64) (hfree : m.heap nowPtr = none) (hne : m.timers ≠ []) :
    ∃ m', listExpiredCb m now nowPtr =
        (m', (m.timers.filter (due m now)).map fun p => (p, (m.heap p).bind Timer.cb)) ∧
      (∀ p ∈ m.timers.filter (due m now), m'.heap p = (m.heap p).map (Timer.fired now)) ∧
      (∀ p ∉ m.timers.filter (due m now), m'.heap p = m.heap p) ∧
      (∀ p, p ∈ m'.timers ↔ p ∈ m.timers.filter (fun p => !due m now p) ∨
        p ∈ m.timers.filter (due m now) ∧ ∃ t, m.heap p = some t ∧ t.recurring = true) ∧
      m'.previouseTime = now := by
  obtain ⟨first, rest, htimers⟩ := List.exists_cons_of_ne_nil hne
  have hlist : listExpiredCb m now nowPtr =
      if !detectClockRollover m now && decide (next m.heap first > now) then
        ({ m with previouseTime := now }, [])
      else (m.timers.take (expiredEnd m now nowPtr (detectClockRollover m now))).foldl
        (expireOne now) ({ m with
          previouseTime := now
          timers := m.timers.drop (expiredEnd m now nowPtr (detectClockRollover m now)) }, []) := by
    rw [listExpiredCb]
    split
    · next hnil => exact absurd hnil hne
    · next first' _ hcons =>
      obtain ⟨rfl, -⟩ := List.cons.inj (hcons.symm.trans htimers)
      rfl
  obtain ⟨htake, hdrop⟩ := filter_due now h hprev hword hfree
  rw [hlist]
  split
  · next hearly =>
    -- The first timer is not due, so none is.
    rw [detectClockRollover_eq hprev hword, Bool.and_eq_true, Bool.not_eq_true',
      decide_eq_false_iff_not, decide_eq_true_eq] at hearly
    have hnone : ∀ p ∈ m.timers, due m now p = false := by
      intro p hp
      have hle : next m.heap first ≤ next m.heap p := by
        rw [htimers] at hp
        have hsorted := h.sorted
        rw [htimers] at hsorted
        rcases List.mem_cons.mp hp with rfl | hp
        · exact le_rfl
        · have := less_iff.mp (List.rel_of_pairwise_cons hsorted hp)
          omega
      rw [due, Bool.or_eq_false_iff, decide_eq_false_iff_not, decide_eq_false_iff_not]
      exact ⟨hearly.1, by omega⟩
    have hfilter : m.timers.filter (due m now) = [] :=
      List.filter_eq_nil_iff.mpr fun p hp => by rw [hnone p hp]; exact Bool.false_ne_true
    have hall : m.timers.filter (fun p => !due m now p) = m.timers :=
      List.filter_eq_self.mpr fun p hp => by rw [hnone p hp]; rfl
    rw [hfilter, hall]
    refine ⟨_, rfl, fun p hp => ?_, fun _ _ => rfl, fun p => ?_, rfl⟩
    · cases hp
    · simp
  · have hout := good_take h (expiredEnd m now nowPtr (detectClockRollover m now))
    rw [htake, hdrop] at hout ⊢
    obtain ⟨m', hfold, hfired, hkept, hmem, htime⟩ := expire_fold now _
      { m with previouseTime := now, timers := m.timers.filter fun p => !due m now p } []
      ⟨hout.sorted, hout.mem_iff, hout.disjoint, hout.nodup⟩
    exact ⟨m', hfold, hfired, hkept, hmem, htime⟩

/-- `listExpiredCb` takes exactly the timers that are due, wherever the temporary timer lies in
memory. A reading of the clock is a word of 64 bits. -/
theorem list_expired_exact (start : Nat) (actions : List (Action P)) (m : Manager P)
    (handed : List (P × Option Nat)) (now : Nat) (nowPtr : P)
    (hrun : Lib.exec step (init P start) actions = some (.ok m handed))
    (hprev : 60 * 60 * 1000 ≤ m.previouseTime) (hword : m.previouseTime < 2 ^ 64)
    (hfree : m.heap nowPtr = none) : ExpiresExactly m now (listExpiredCb m now nowPtr) := by
  have hgood : Good m := (run_onward actions (inv_init start) hrun).1.1
  have hordered : (m.timers.filter (due m now)).Pairwise fun p q =>
      next m.heap p < next m.heap q ∨ next m.heap p = next m.heap q ∧ p < q :=
    (timersOk_of_good hgood).ordered.sublist List.filter_sublist
  by_cases hne : m.timers = []
  · have hlist : listExpiredCb m now nowPtr = (m, []) := by
      rw [listExpiredCb]
      simp only [hne]
    have hnot : ∀ p, p ∉ m.timers := fun p hp => by rw [hne] at hp; cases hp
    rw [hlist]
    exact
      { handed := by rw [hne]; rfl
        ordered := List.Pairwise.nil
        oneShot := fun p hp => absurd hp (hnot p)
        recurring := fun p hp => absurd hp (hnot p)
        others := fun p _ => ⟨rfl, Iff.rfl⟩
        time := fun h => absurd hne h }
  · obtain ⟨m', hlist, hfired, hkept, hmem, htime⟩ :=
      listExpiredCb_eq now hgood hprev hword hfree hne
    rw [hlist]
    refine
      { handed := rfl
        ordered := ?_
        oneShot := ?_
        recurring := ?_
        others := ?_
        time := fun _ => htime }
    · rw [List.map_map]
      exact hordered.map _ (fun _ _ h => h)
    · intro p hp hdue t ht hrec
      have hin : p ∈ m.timers.filter (due m now) := List.mem_filter.mpr ⟨hp, hdue⟩
      refine ⟨?_, ?_⟩
      · rw [hmem p]
        rintro (hother | ⟨-, t', ht', hrec'⟩)
        · have := (List.mem_filter.mp hother).2
          rw [hdue] at this
          cases this
        · rw [ht, Option.some.injEq] at ht'
          rw [ht'.symm, hrec] at hrec'
          cases hrec'
      · rw [hfired p hin, ht, Option.map_some, Timer.fired, hrec]
        rfl
    · intro p hp hdue t ht hrec
      have hin : p ∈ m.timers.filter (due m now) := List.mem_filter.mpr ⟨hp, hdue⟩
      refine ⟨(hmem p).mpr (Or.inr ⟨hin, t, ht, hrec⟩), ?_⟩
      rw [hfired p hin, ht, Option.map_some, Timer.fired, if_pos hrec]
    · intro p hother
      have hout : p ∉ m.timers.filter (due m now) := by
        intro hin
        obtain ⟨hp, hdue⟩ := List.mem_filter.mp hin
        rw [hother hp] at hdue
        cases hdue
      refine ⟨hkept p hout, ?_⟩
      rw [hmem p, List.mem_filter]
      constructor
      · rintro (hp | ⟨hin, -⟩)
        · exact hp.1
        · exact absurd hin hout
      · exact fun hp => Or.inl ⟨hp, by rw [hother hp]; rfl⟩

end

/-- A one-shot timer at `5` and a recurring one at `3` with the same time, and the temporary timer
between them. Both are due. -/
theorem list_expired_exact_tie : ∃ m handed,
    Lib.exec step (init Nat 5000000)
      [.addTimer 5000000 50 1 false 5, .addTimer 5000000 50 2 true 3] = some (.ok m handed) ∧
    ExpiresExactly m 5000050 (listExpiredCb m 5000050 4) ∧
    (listExpiredCb m 5000050 4).2 = [(3, some 2), (5, some 1)] :=
  ⟨_, _, rfl, list_expired_exact 5000000
    [.addTimer 5000000 50 1 false 5, .addTimer 5000000 50 2 true 3] _ _ 5000050 4 rfl (by decide)
    (by decide) rfl, rfl⟩

end Sylar.TimerManager

namespace Sylar.Poller

open TimerManager

/-! ### The timeout of `epoll_wait` -/

/-- The low 32 bits of a delay, as an `int`, are enough to see that it is long. -/
def Measured (delay : Nat) : Prop :=
  delay ≤ 3000 ∨ delay = 2 ^ 64 - 1 ∨ 3000 ≤ Lib.toInt32 delay

section
variable {n : Nat}

theorem toInt32_le : Lib.toInt32 n ≤ n := by
  rw [Lib.toInt32, Int.bmod_def]
  omega

theorem clampTimeout_clampTimeout : clampTimeout (clampTimeout n) = clampTimeout n := by
  have hmax : clampTimeout 3000 = 3000 := by decide
  by_cases hn : n = 2 ^ 64 - 1
  · rw [show clampTimeout n = 3000 from if_neg (not_not.mpr hn), hmax]
  · by_cases hlong : Lib.toInt32 n > 3000
    · rw [show clampTimeout n = 3000 by rw [clampTimeout, if_pos hn, if_pos hlong], hmax]
    · have hsame : clampTimeout n = n := by rw [clampTimeout, if_pos hn, if_neg hlong]
      rw [hsame, hsame]

/-- All calls of one round get the same timeout. -/
theorem mem_waitTimeouts {interrupts : Nat} {t : Int} :
    t ∈ waitTimeouts interrupts n ↔ t = Lib.toInt32 (clampTimeout n) := by
  induction interrupts generalizing n with
  | zero => exact List.mem_singleton
  | succ interrupts ih =>
      rw [waitTimeouts, List.mem_cons, ih, clampTimeout_clampTimeout, or_self]

theorem toInt32_clampTimeout_none : Lib.toInt32 (clampTimeout (2 ^ 64 - 1)) = 3000 := by decide

/-- The timeout is right exactly for the delays that the comparison measures. -/
theorem toInt32_clampTimeout : Lib.toInt32 (clampTimeout n) = min 3000 (n : Int) ↔ Measured n := by
  have hmax : Lib.toInt32 3000 = 3000 := by decide
  have hle := toInt32_le (n := n)
  by_cases hn : n = 2 ^ 64 - 1
  · refine iff_of_true ?_ (Or.inr (Or.inl hn))
    rw [show clampTimeout n = 3000 from if_neg (not_not.mpr hn), hn]
    decide
  · by_cases hlong : Lib.toInt32 n > 3000
    · rw [show clampTimeout n = 3000 by rw [clampTimeout, if_pos hn, if_pos hlong]]
      refine iff_of_true ?_ (Or.inr (Or.inr hlong.le))
      rw [Nat.cast_ofNat, hmax, min_eq_left (hlong.le.trans hle)]
    · rw [show clampTimeout n = n by rw [clampTimeout, if_pos hn, if_neg hlong], Measured]
      by_cases hshort : n ≤ 3000
      · refine iff_of_true ?_ (Or.inl hshort)
        rw [min_eq_right (by omega), Lib.toInt32_of_lt (by omega) (by omega)]
      · rw [min_eq_left (by omega)]
        omega

end

section
variable {P : Type} [LinearOrder P] {m : Manager P} {now : Nat} {p : P}

theorem nextTimeout_eq (h : Good m) (hp : Earliest m p) :
    nextTimeout m now = next m.heap p - now := by
  obtain ⟨hmem, hleast⟩ := hp
  obtain ⟨first, rest, htimers⟩ := List.exists_cons_of_ne_nil (List.ne_nil_of_mem hmem)
  -- The first timer of the set and the earliest one have the same time.
  have hfirst : next m.heap first = next m.heap p := by
    have hle : next m.heap first ≤ next m.heap p := by
      have hsorted := h.sorted
      rw [htimers] at hsorted hmem
      rcases List.mem_cons.mp hmem with rfl | hrest
      · exact le_rfl
      · have := less_iff.mp (List.rel_of_pairwise_cons hsorted hrest)
        omega
    exact le_antisymm hle (hleast first (htimers ▸ List.mem_cons_self))
  rw [nextTimeout, getNextTimer, htimers]
  simp only [hfirst]
  split
  · rw [Option.getD_some]
    omega
  · rfl

theorem exists_earliest (h : Good m) (hne : m.timers ≠ []) : ∃ p, Earliest m p := by
  obtain ⟨first, rest, htimers⟩ := List.exists_cons_of_ne_nil hne
  refine ⟨first, htimers ▸ List.mem_cons_self, fun q hq => ?_⟩
  have hsorted := h.sorted
  rw [htimers] at hsorted hq
  rcases List.mem_cons.mp hq with rfl | hrest
  · exact le_rfl
  · have := less_iff.mp (List.rel_of_pairwise_cons hsorted hrest)
    omega

/-- The poller waits in time exactly when the low 32 bits of the delay until the earliest timer show
how long it is. -/
theorem waitsInTime_iff (start : Nat) (actions : List (TimerManager.Action P)) (m : Manager P)
    (handed : List (P × Option Nat)) (now : Nat)
    (hrun : Lib.exec TimerManager.step (TimerManager.init P start) actions = some (.ok m handed)) :
    WaitsInTime m now ↔ ∀ p, Earliest m p → Measured (next m.heap p - now) := by
  have hgood : Good m := (run_onward actions (inv_init start) hrun).1.1
  constructor
  · intro hwaits p hp
    obtain ⟨-, -, -, hmin⟩ := hwaits 0 _ (mem_waitTimeouts.mpr rfl)
    have hexact := hmin p hp
    rw [Nat.cast_min, Nat.cast_ofNat, ← nextTimeout_eq hgood hp] at hexact
    rw [← nextTimeout_eq hgood hp]
    exact toInt32_clampTimeout.mp hexact
  · intro hmeasured interrupts t ht
    have ht' := mem_waitTimeouts.mp ht
    by_cases hne : m.timers = []
    · have hword : nextTimeout m now = 2 ^ 64 - 1 := by rw [nextTimeout, getNextTimer, hne]; rfl
      rw [hword, toInt32_clampTimeout_none] at ht'
      rw [ht']
      refine ⟨by decide, le_rfl, fun _ => rfl, fun p hp => ?_⟩
      have hmem := hp.1
      rw [hne] at hmem
      cases hmem
    · have hexact : ∀ p, Earliest m p → t = (min 3000 (next m.heap p - now) : Nat) := by
        intro p hp
        rw [ht', Nat.cast_min, Nat.cast_ofNat, ← nextTimeout_eq hgood hp]
        exact toInt32_clampTimeout.mpr (nextTimeout_eq hgood hp ▸ hmeasured p hp)
      obtain ⟨p, hp⟩ := exists_earliest hgood hne
      refine ⟨?_, ?_, fun hnil => absurd hnil hne, hexact⟩
      · rw [hexact p hp]
        exact Int.natCast_nonneg _
      · rw [hexact p hp]
        exact Int.ofNat_le.mpr (min_le_left ..)

end

/-- A timer in an hour. -/
theorem waitsInTime_hour : ∃ m handed,
    Lib.exec TimerManager.step (TimerManager.init Nat 100) [.addTimer 100 3600000 1 false 5] =
      some (.ok m handed) ∧ WaitsInTime m 100 := by
  refine ⟨_, _, rfl, (waitsInTime_iff 100 [.addTimer 100 3600000 1 false 5] _ _ 100 rfl).mpr ?_⟩
  rintro p ⟨hp, -⟩
  obtain rfl := List.mem_singleton.mp hp
  exact Or.inr (Or.inr (by decide))

/-- A timer in 2^31 milliseconds, about 25 days. The timeout is negative, and `epoll_wait` does not
return for it at all. -/
theorem wait_without_end : ∃ m handed,
    Lib.exec TimerManager.step (TimerManager.init Nat 100) [.addTimer 100 2147483648 1 false 5] =
      some (.ok m handed) ∧
    waitTimeouts 0 (nextTimeout m 100) = [-2147483648] ∧ ¬ WaitsInTime m 100 := by
  refine ⟨_, _, rfl, by decide, ?_⟩
  intro hwaits
  exact absurd (hwaits 0 (-2147483648) (by decide)).1 (by decide)

end Sylar.Poller
