import Sylar.Proofs.Timer.Expiry
import Sylar.Proofs.Timer.Wakeup
import Sylar.Spec.IdealTimers

/-!
# `Sylar.Proofs.Timer.Ideal`: the manager hands out callbacks as the table of timers does

The start of a timer is not stored. It is `m_next - m_ms`, and every call keeps it: `reset` without
`from_now` computes it back from the two. So a timer of the manager is an entry of the table
(`Timer.entry`), as long as no sum wraps and the clock does not go back.
-/

set_option autoImplicit false

namespace Sylar.TimerManager

open Poller (Timely add64_of_lt sub64_of_le allowed_addTimer allowed_cancel allowed_refresh
  allowed_reset timely_listExpiredCb)

section
variable {P : Type} [LinearOrder P] {m : Manager P} {p : P} {t : Timer}

/-- A timer as an entry of the table. -/
def Timer.entry (t : Timer) : Option Entry :=
  t.cb.map fun cb => ⟨t.next - t.ms, t.ms, t.recurring, cb⟩

/-! ### The object that an operation leaves -/

theorem cancel_heap {r : Manager P × Bool} (hp : m.heap p = some t) (hr : cancel m p t = some r) :
    r.1.heap = Function.update m.heap p (some { t with cb := none }) ∧
      r.1.previouseTime = m.previouseTime := by
  unfold cancel at hr
  cases hcb : t.cb with
  | none =>
    simp only [hcb] at hr
    cases hr
    have ht : { t with cb := none } = t := by rw [← hcb]
    rw [ht, ← hp, Function.update_eq_self]
    exact ⟨rfl, rfl⟩
  | some cb =>
    simp only [hcb] at hr
    split at hr
    · cases hr
    · cases hr
      exact ⟨rfl, rfl⟩

/-- The timer after `refresh`. -/
def Timer.refreshed (now : Nat) (t : Timer) : Timer :=
  if t.cb = none then t else { t with next := add64 now t.ms }

theorem refresh_heap (h : Good m) (hp : m.heap p = some t) (now : Nat) :
    (refresh m now p t).1.heap = Function.update m.heap p (some (t.refreshed now)) ∧
      (refresh m now p t).1.previouseTime = m.previouseTime := by
  unfold refresh
  cases hcb : t.cb with
  | none =>
    rw [Timer.refreshed, if_pos hcb, ← hp, Function.update_eq_self]
    exact ⟨rfl, rfl⟩
  | some cb =>
    obtain ⟨it, hfind, -⟩ := good_takeOut h ⟨t, hp, by simp [hcb]⟩
    simp only [hfind]
    rw [Timer.refreshed, if_neg (by simp [hcb]), hcb]
    exact ⟨rfl, rfl⟩

/-- The timer after `reset`. -/
def Timer.restarted (now ms : Nat) (fromNow : Bool) (t : Timer) : Timer :=
  if ms = t.ms ∧ fromNow = false then t
  else if t.cb = none then t
  else { t with ms := ms, next := add64 (if fromNow then now else sub64 t.next t.ms) ms }

theorem reset_heap (h : Good m) (hp : m.heap p = some t) (now ms : Nat) (fromNow : Bool) :
    (reset m now ms fromNow p t).1.heap =
        Function.update m.heap p (some (t.restarted now ms fromNow)) ∧
      (reset m now ms fromNow p t).1.previouseTime = m.previouseTime := by
  unfold reset Timer.restarted
  split
  · rw [← hp, Function.update_eq_self]
    exact ⟨rfl, rfl⟩
  · cases hcb : t.cb with
    | none =>
      rw [if_pos rfl, ← hp, Function.update_eq_self]
      exact ⟨rfl, rfl⟩
    | some cb =>
      obtain ⟨it, hfind, -⟩ := good_takeOut h ⟨t, hp, by simp [hcb]⟩
      simp only [hfind]
      rw [if_neg (Option.some_ne_none cb)]
      exact ⟨rfl, rfl⟩

end

/-! ### Timers and entries -/

section
variable {t : Timer} {now : Nat}

theorem entry_of_none (h : t.cb = none) : t.entry = none := by rw [Timer.entry, h, Option.map_none]

theorem entry_of_some {cb : Nat} (h : t.cb = some cb) :
    t.entry = some ⟨t.next - t.ms, t.ms, t.recurring, cb⟩ := by
  rw [Timer.entry, h, Option.map_some]

theorem entry_mk (recurring : Bool) (ms next cb : Nat) :
    (⟨recurring, ms, next, some cb⟩ : Timer).entry = some ⟨next - ms, ms, recurring, cb⟩ := rfl

theorem entry_refreshed (hwrap : now + t.ms < 2 ^ 64) :
    (t.refreshed now).entry = t.entry.map fun e => { e with started := now } := by
  rw [Timer.refreshed]
  cases hcb : t.cb with
  | none => rw [if_pos rfl, entry_of_none hcb, Option.map_none]
  | some cb =>
    rw [if_neg (Option.some_ne_none cb), entry_mk, entry_of_some hcb, Option.map_some,
      add64_of_lt hwrap, Nat.add_sub_cancel]

theorem entry_restarted {ms : Nat} (fromNow : Bool) (hlow : t.ms ≤ t.next)
    (hhigh : t.next ≤ now + t.ms) (hwrap : now + ms < 2 ^ 64) :
    (t.restarted now ms fromNow).entry = t.entry.map fun e =>
      { e with started := if fromNow then now else e.started, ms := ms } := by
  rw [Timer.restarted]
  split
  · rename_i hsame
    obtain ⟨rfl, rfl⟩ := hsame
    cases hcb : t.cb with
    | none => rw [entry_of_none hcb, Option.map_none]
    | some cb => rw [entry_of_some hcb, Option.map_some]; rfl
  · cases hcb : t.cb with
    | none => rw [if_pos rfl, entry_of_none hcb, Option.map_none]
    | some cb =>
      have hstart : sub64 t.next t.ms = t.next - t.ms := sub64_of_le hlow (by omega)
      have hle : (if fromNow then now else t.next - t.ms) ≤ now := by split <;> omega
      rw [if_neg (Option.some_ne_none cb), hstart, add64_of_lt (by omega), entry_mk,
        entry_of_some hcb, Option.map_some, Nat.add_sub_cancel]

theorem fired_fields (t : Timer) (now : Nat) :
    (t.fired now).ms = t.ms ∧ (t.fired now).recurring = t.recurring := by
  rw [Timer.fired]
  split <;> exact ⟨rfl, rfl⟩

theorem cb_fired (h : t.recurring = false) : (t.fired now).cb = none := by
  rw [Timer.fired, h]
  rfl

theorem length_shots_le (e : Option Entry) : (e.elim [] (Entry.shots now)).length ≤ 1 := by
  cases e with
  | none => exact Nat.zero_le 1
  | some e =>
    rw [Option.elim_some, Entry.shots]
    split
    · exact le_rfl
    · exact Nat.zero_le 1

theorem refreshed_fields (t : Timer) (now : Nat) :
    (t.refreshed now).ms = t.ms ∧ (t.refreshed now).cb = t.cb ∧
      (t.refreshed now).recurring = t.recurring := by
  rw [Timer.refreshed]
  split <;> exact ⟨rfl, rfl, rfl⟩

theorem restarted_fields (t : Timer) (now ms : Nat) (fromNow : Bool) :
    ((t.restarted now ms fromNow).ms = t.ms ∨ (t.restarted now ms fromNow).ms = ms) ∧
      (t.restarted now ms fromNow).cb = t.cb ∧
      (t.restarted now ms fromNow).recurring = t.recurring := by
  rw [Timer.restarted]
  split
  · exact ⟨Or.inl rfl, rfl, rfl⟩
  · split
    · exact ⟨Or.inl rfl, rfl, rfl⟩
    · exact ⟨Or.inr rfl, rfl, rfl⟩

/-- The time of a timer has come when the period of its entry has passed. -/
theorem isDue_iff {e : Entry} (hlow : t.ms ≤ t.next) (he : t.entry = some e) :
    e.isDue now = true ↔ t.next ≤ now := by
  rw [Timer.entry, Option.map_eq_some_iff] at he
  obtain ⟨cb, -, rfl⟩ := he
  rw [Entry.isDue, decide_eq_true_eq, Nat.sub_add_cancel hlow]

theorem entry_fired {e : Entry} (hwrap : now + t.ms < 2 ^ 64) (he : t.entry = some e)
    (hdue : e.isDue now = true) : (t.fired now).entry = e.expired now := by
  rw [Timer.entry, Option.map_eq_some_iff] at he
  obtain ⟨cb, hcb, rfl⟩ := he
  rw [Entry.expired, hdue, Timer.fired]
  cases hrec : t.recurring with
  | true =>
    simp only [if_true, Bool.not_true, Bool.false_eq_true, if_false]
    rw [hcb, entry_mk, add64_of_lt hwrap, Nat.add_sub_cancel]
  | false => rfl

end

/-! ### Logs -/

section
variable {clock now : Nat} {e : Option Entry} {log : List Shot}

/-- No shot of a log was early, a shot counts from the one before it or from later, and the timer
counts from the last one or from later. -/
structure InTime (clock : Nat) (e : Option Entry) (log : List Shot) : Prop where
  early : ∀ x ∈ log, x.started + x.ms ≤ x.time
  spaced : log.Pairwise fun x y => x.time ≤ y.started
  past : ∀ x ∈ log, x.time ≤ clock
  after : ∀ e' ∈ e, e'.started ≤ clock ∧ ∀ x ∈ log, x.time ≤ e'.started

theorem InTime.set {e₂ : Option Entry} (h : InTime clock e log) (hle : clock ≤ now)
    (hset : ∀ e' ∈ e₂, e'.started ≤ now ∧ ∀ x ∈ log, x.time ≤ e'.started) : InTime now e₂ log :=
  ⟨h.early, h.spaced, fun x hx => (h.past x hx).trans hle, hset⟩

/-- A timer that counts from now on. -/
theorem InTime.fromNow (h : InTime clock e log) (hle : clock ≤ now) {e' : Entry}
    (he : e'.started = now) : e'.started ≤ now ∧ ∀ x ∈ log, x.time ≤ e'.started := by
  rw [he]
  exact ⟨le_rfl, fun x hx => (h.past x hx).trans hle⟩

theorem InTime.expire (h : InTime clock e log) (hle : clock ≤ now) :
    InTime now (e.bind (Entry.expired now)) (log ++ e.elim [] (Entry.shots now)) := by
  cases e with
  | none =>
    rw [Option.elim_none, List.append_nil]
    exact h.set hle fun e' he' => absurd he' (Option.not_mem_none e')
  | some e =>
    obtain ⟨hstarted, hafter⟩ := h.after e rfl
    rw [Option.elim_some, Option.bind_some, Entry.shots, Entry.expired]
    cases hdue : e.isDue now with
    | false =>
      simp only [Bool.not_false, Bool.false_eq_true, if_true, if_false, List.append_nil]
      refine h.set hle fun e' he' => ?_
      obtain rfl := Option.mem_some_iff.mp he'
      exact ⟨hstarted.trans hle, hafter⟩
    | true =>
      simp only [Bool.not_true, Bool.false_eq_true, if_true, if_false]
      have hpast : ∀ x ∈ log ++ [⟨now, e.started, e.ms, e.cb⟩], x.time ≤ now := by
        intro x hx
        rcases List.mem_append.mp hx with hx | hx
        · exact (h.past x hx).trans hle
        · rw [List.mem_singleton.mp hx]
      refine ⟨?_, ?_, hpast, ?_⟩
      · intro x hx
        rcases List.mem_append.mp hx with hx | hx
        · exact h.early x hx
        · rw [List.mem_singleton.mp hx]
          exact of_decide_eq_true hdue
      · refine List.pairwise_append.mpr ⟨h.spaced, List.pairwise_singleton _ _, fun x hx y hy => ?_⟩
        rw [List.mem_singleton.mp hy]
        exact hafter x hx
      · intro e' he'
        split at he'
        · rw [← Option.mem_some_iff.mp he']
          exact ⟨le_rfl, hpast⟩
        · cases he'

end

/-! ### The simulation -/

section
variable {P : Type} [LinearOrder P] {s s' : Timed P} {i : Ideal P} {a : Action P} {p : P}

/-- The clock does not go back, and the times and periods are far from the end of a word. -/
def Plain (s : Timed P) (a : Action P) : Prop :=
  s.clock ≤ a.time s.clock ∧ a.time s.clock < 2 ^ 63 ∧
    match a with
    | .addTimer _ ms _ _ _ => ms < 2 ^ 63
    | .reset _ ms _ _ => ms < 2 ^ 63
    | _ => True

/-- The manager stands for the table. -/
structure Sim (s : Timed P) (i : Ideal P) : Prop where
  good : Good s.manager
  timely : Timely s.clock s.manager
  small : ∀ p t, s.manager.heap p = some t → t.ms < 2 ^ 63
  clock : s.clock < 2 ^ 63
  previous : 60 * 60 * 1000 ≤ s.manager.previouseTime ∧ s.manager.previouseTime ≤ s.clock
  armed : ∀ p, i.armed p = (s.manager.heap p).bind Timer.entry
  log : ∀ p, s.log p = (i.log p).map fun x => (x.time, some x.cb)
  inTime : ∀ p, InTime s.clock (i.armed p) (i.log p)
  fresh : ∀ p, s.manager.heap p = none → i.log p = []
  once : ∀ p t, s.manager.heap p = some t → t.recurring = false →
    (i.log p).length ≤ if t.cb = none then 1 else 0

/-- An operation that leaves a timer `t` at `p` and hands nothing out. -/
theorem Sim.store {m : Manager P} {t : Timer} {e : Option Entry} {now : Nat}
    {f : P × Option Nat → Nat × Option Nat} (h : Sim s i) (hle : s.clock ≤ now)
    (hnow : now < 2 ^ 63) (hgood : Good m) (htimely : Timely now m)
    (hheap : m.heap = Function.update s.manager.heap p (some t) ∧
      m.previouseTime = s.manager.previouseTime)
    (hms : t.ms < 2 ^ 63) (he : t.entry = e)
    (hset : ∀ e' ∈ e, e'.started ≤ now ∧ ∀ x ∈ i.log p, x.time ≤ e'.started)
    (honce : t.recurring = false → (i.log p).length ≤ if t.cb = none then 1 else 0) :
    Sim ⟨m, now, fun q => s.log q ++ (handedFor [] q).map f⟩ (i.set p e) := by
  refine ⟨hgood, htimely, fun q u hu => ?_, hnow, ?_, fun q => ?_, fun q => ?_, fun q => ?_,
    fun q hq => ?_, fun q u hu => ?_⟩
  · change m.heap q = some u at hu
    rw [hheap.1] at hu
    by_cases hq : q = p
    · rw [hq, Function.update_self] at hu
      exact Option.some.inj hu ▸ hms
    · rw [Function.update_of_ne hq] at hu
      exact h.small q u hu
  · show _ ≤ m.previouseTime ∧ m.previouseTime ≤ now
    rw [hheap.2]
    exact ⟨h.previous.1, h.previous.2.trans hle⟩
  · show Function.update i.armed p e q = (m.heap q).bind Timer.entry
    rw [hheap.1]
    by_cases hq : q = p
    · rw [hq, Function.update_self, Function.update_self, Option.bind_some, he]
    · rw [Function.update_of_ne hq, Function.update_of_ne hq, h.armed q]
  · show s.log q ++ [] = _
    rw [List.append_nil, h.log q]
    rfl
  · show InTime now (Function.update i.armed p e q) (i.log q)
    by_cases hq : q = p
    · rw [hq, Function.update_self]
      exact (h.inTime p).set hle hset
    · rw [Function.update_of_ne hq]
      exact (h.inTime q).set hle fun e' he' =>
        ⟨((h.inTime q).after e' he').1.trans hle, ((h.inTime q).after e' he').2⟩
  · change m.heap q = none at hq
    rw [hheap.1] at hq
    refine h.fresh q ?_
    by_cases hqp : q = p
    · rw [hqp, Function.update_self] at hq
      cases hq
    · rwa [Function.update_of_ne hqp] at hq
  · change m.heap q = some u at hu
    rw [hheap.1] at hu
    by_cases hq : q = p
    · subst hq
      rw [Function.update_self] at hu
      exact Option.some.inj hu ▸ honce
    · rw [Function.update_of_ne hq] at hu
      exact h.once q u hu

theorem listExpiredCb_nil {m : Manager P} (h : m.timers = []) (now : Nat) (nowPtr : P) :
    listExpiredCb m now nowPtr = (m, []) := by
  rw [listExpiredCb]
  simp only [h]

/-- What a batch has for one timer. -/
theorem handedFor_map {l : List P} (hnodup : l.Nodup) (g : P → Option Nat) (q : P) :
    handedFor (l.map fun p => (p, g p)) q = if q ∈ l then [(q, g q)] else [] := by
  rw [handedFor, List.filter_map]
  have hfilter : l.filter ((fun e : P × Option Nat => decide (e.1 = q)) ∘ fun p => (p, g p)) =
      List.replicate (l.count q) q := List.filter_eq q
  rw [hfilter]
  split
  · rename_i hq
    rw [List.count_eq_one_of_mem hnodup hq]
    rfl
  · rename_i hq
    rw [List.count_eq_zero_of_not_mem hq]
    rfl

/-- What an expiry does to one timer. -/
structure Expiring (m m' : Manager P) (handed : List (P × Option Nat)) (now : Nat) (p : P) :
    Prop where
  entry : (m'.heap p).bind Timer.entry = ((m.heap p).bind Timer.entry).bind (Entry.expired now)
  shots : (handedFor handed p).map (fun e => (now, e.2)) =
    (((m.heap p).bind Timer.entry).elim [] (Entry.shots now)).map fun x => (x.time, some x.cb)
  object : ∀ t', m'.heap p = some t' → ∃ t, m.heap p = some t ∧
    (t' = t ∧ handedFor handed p = [] ∨ t' = t.fired now ∧ t.cb ≠ none)

/-- A timer that does not count, or is not due, is not touched. -/
theorem Expiring.of_not_due {m m' : Manager P} {handed : List (P × Option Nat)} {now : Nat}
    (hheap : m'.heap p = m.heap p) (hhanded : handedFor handed p = [])
    (hdue : ∀ e, (m.heap p).bind Timer.entry = some e → e.isDue now = false) :
    Expiring m m' handed now p := by
  refine ⟨?_, ?_, fun t' ht' => ⟨t', hheap ▸ ht', Or.inl ⟨rfl, hhanded⟩⟩⟩
  · rw [hheap]
    cases he : (m.heap p).bind Timer.entry with
    | none => rfl
    | some e =>
      rw [Option.bind_some, Entry.expired, hdue e he]
      rfl
  · rw [hhanded]
    cases he : (m.heap p).bind Timer.entry with
    | none => rfl
    | some e =>
      rw [Option.elim_some, Entry.shots, hdue e he]
      rfl

theorem Sim.expiring {now : Nat} {nowPtr : P} (h : Sim s i) (hle : s.clock ≤ now)
    (hnow : now < 2 ^ 63) (hfree : s.manager.heap nowPtr = none) (p : P) :
    Expiring s.manager (TimerManager.listExpiredCb s.manager now nowPtr).1
      (TimerManager.listExpiredCb s.manager now nowPtr).2 now p := by
  have hprev := h.previous
  have hclock := h.clock
  -- A timer with an entry is in the set.
  have hmem : ∀ e, (s.manager.heap p).bind Timer.entry = some e →
      ∃ t, s.manager.heap p = some t ∧ t.entry = some e ∧ p ∈ s.manager.timers := by
    intro e he
    obtain ⟨t, ht, he⟩ := Option.bind_eq_some_iff.mp he
    refine ⟨t, ht, he, (h.good.mem_iff p).mpr ⟨t, ht, fun hcb => ?_⟩⟩
    rw [entry_of_none hcb] at he
    cases he
  by_cases hne : s.manager.timers = []
  · rw [listExpiredCb_nil hne]
    refine .of_not_due rfl rfl fun e he => ?_
    obtain ⟨-, -, -, hp⟩ := hmem e he
    rw [hne] at hp
    cases hp
  · obtain ⟨m', hlist, hfired, hkept, -, -⟩ :=
      listExpiredCb_eq now h.good hprev.1 (by omega) hfree hne
    have hdue : ∀ q, due s.manager now q = true ↔ next s.manager.heap q ≤ now := by
      intro q
      rw [due, decide_eq_false (by omega), Bool.false_or, decide_eq_true_eq]
    have hnodup := (timersOk_of_good h.good).nodup.filter (due s.manager now)
    rw [hlist]
    by_cases hp : p ∈ s.manager.timers.filter (due s.manager now)
    · obtain ⟨hp', hpdue⟩ := List.mem_filter.mp hp
      obtain ⟨t, ht, hcb⟩ := (h.good.mem_iff p).mp hp'
      obtain ⟨cb, hcb⟩ := Option.ne_none_iff_exists'.mp hcb
      have he := entry_of_some hcb
      have htime : t.next ≤ now := by
        have := (hdue p).mp hpdue
        rwa [next, ht] at this
      have hisDue : Entry.isDue now _ = true := (isDue_iff (h.timely p t ht).1 he).mpr htime
      have hms := h.small p t ht
      refine ⟨?_, ?_, fun t' ht' => ⟨t, ht, ?_⟩⟩
      · rw [hfired p hp, ht, Option.map_some, Option.bind_some, Option.bind_some, he,
          Option.bind_some]
        exact entry_fired (by omega) he hisDue
      · rw [handedFor_map hnodup, if_pos hp, ht, Option.bind_some, Option.bind_some, he,
          Option.elim_some, Entry.shots, if_pos hisDue, hcb]
        rfl
      · have hu := (hfired p hp).symm.trans ht'
        rw [ht, Option.map_some, Option.some.injEq] at hu
        exact Or.inr ⟨hu.symm, hcb ▸ Option.some_ne_none cb⟩
    · refine .of_not_due (hkept p hp) (by rw [handedFor_map hnodup, if_neg hp]) fun e he => ?_
      obtain ⟨t, ht, he, hp'⟩ := hmem e he
      refine Bool.eq_false_iff.mpr fun hisDue => hp (List.mem_filter.mpr ⟨hp', (hdue p).mpr ?_⟩)
      rw [next, ht]
      exact (isDue_iff (h.timely p t ht).1 he).mp hisDue

theorem Sim.previouseTime {now : Nat} {nowPtr : P} (h : Sim s i) (hle : s.clock ≤ now)
    (hnow : now < 2 ^ 63) (hfree : s.manager.heap nowPtr = none) :
    60 * 60 * 1000 ≤ (TimerManager.listExpiredCb s.manager now nowPtr).1.previouseTime ∧
      (TimerManager.listExpiredCb s.manager now nowPtr).1.previouseTime ≤ now := by
  have hprev := h.previous
  by_cases hne : s.manager.timers = []
  · rw [listExpiredCb_nil hne]
    exact ⟨hprev.1, hprev.2.trans hle⟩
  · obtain ⟨m', hlist, -, -, -, htime⟩ :=
      listExpiredCb_eq now h.good hprev.1 (by omega) hfree hne
    rw [hlist, htime]
    omega

theorem Sim.listExpiredCb {now : Nat} {nowPtr : P} (h : Sim s i) (hle : s.clock ≤ now)
    (hnow : now < 2 ^ 63) (hfree : s.manager.heap nowPtr = none) :
    Sim ⟨(TimerManager.listExpiredCb s.manager now nowPtr).1, now, fun q => s.log q ++
      (handedFor (TimerManager.listExpiredCb s.manager now nowPtr).2 q).map fun e => (now, e.2)⟩
      (i.step (.listExpiredCb now nowPtr)) := by
  have hexp := h.expiring hle hnow hfree
  obtain ⟨m', new, hlist, hgood, hlater, -⟩ := listExpiredCb_spec now nowPtr h.good
  have htimely : Timely now (TimerManager.listExpiredCb s.manager now nowPtr).1 :=
    timely_listExpiredCb (h.timely.mono hle) le_rfl
      fun q _ t ht => by have := h.small q t ht; omega
  have hprev := h.previouseTime hle hnow hfree
  rw [hlist] at htimely hexp hprev ⊢
  refine ⟨hgood, htimely, fun q u hu => ?_, hnow, hprev, fun q => ?_, fun q => ?_,
    fun q => (h.inTime q).expire hle, fun q hq => ?_, fun q u hu hrec => ?_⟩
  · obtain ⟨t, ht, ⟨rfl, -⟩ | ⟨rfl, -⟩⟩ := (hexp q).object u hu
    · exact h.small q u ht
    · rw [(fired_fields t now).1]
      exact h.small q t ht
  · show (i.armed q).bind (Entry.expired now) = (m'.heap q).bind Timer.entry
    rw [(hexp q).entry, h.armed q]
  · show s.log q ++ _ = (i.log q ++ (i.armed q).elim [] (Entry.shots now)).map _
    rw [List.map_append, ← h.log q, h.armed q, ← (hexp q).shots]
  · have hnone : s.manager.heap q = none := by
      by_contra hne
      obtain ⟨t, ht⟩ := Option.ne_none_iff_exists'.mp hne
      obtain ⟨t', ht', -⟩ := hlater q t ht
      cases hq.symm.trans ht'
    show i.log q ++ (i.armed q).elim [] (Entry.shots now) = []
    rw [h.armed q, hnone, h.fresh q hnone]
    rfl
  · have hlen := congrArg List.length (hexp q).shots
    rw [List.length_map, List.length_map, ← h.armed q] at hlen
    show (i.log q ++ (i.armed q).elim [] (Entry.shots now)).length ≤ _
    rw [List.length_append]
    obtain ⟨t, ht, ⟨rfl, hnil⟩ | ⟨rfl, hcb⟩⟩ := (hexp q).object u hu
    · rw [← hlen, hnil]
      exact h.once q u ht hrec
    · -- A timer that fires once has not fired before.
      rw [(fired_fields t now).2] at hrec
      have hlog := h.once q t ht hrec
      rw [if_neg hcb] at hlog
      have hshots : ((i.armed q).elim [] (Entry.shots now)).length ≤ 1 := length_shots_le _
      rw [cb_fired hrec, if_pos rfl]
      omega

/-- One call. -/
theorem Sim.step (h : Sim s i) (hplain : Plain s a) (hs : s.step a = some s') :
    Sim s' (i.step a) := by
  obtain ⟨hle, hnow, hms⟩ := hplain
  have htimely := h.timely.mono hle
  cases a with
  | addTimer now ms cb recurring p =>
    cases hp : s.manager.heap p with
    | some t => simp [Timed.step, stepOk, hp] at hs
    | none =>
      simp only [Timed.step, stepOk, hp] at hs
      cases hs
      have hwrap : now + ms < 2 ^ 64 := by simp only [Action.time] at hnow; omega
      have hallowed : Poller.Allowed now s.manager (addTimer s.manager now ms cb recurring p).1 _ :=
        allowed_addTimer h.good htimely hp le_rfl hwrap
      refine h.store hle hnow hallowed.good hallowed.timely ⟨rfl, rfl⟩ hms
        (e := some ⟨now, ms, recurring, cb⟩) ?_ (fun e' he' => ?_) fun _ => ?_
      · rw [entry_mk, add64_of_lt hwrap, Nat.add_sub_cancel]
      · exact (h.inTime p).fromNow hle (Option.mem_some_iff.mp he' ▸ rfl)
      · rw [h.fresh p hp]
        exact Nat.zero_le _
  | cancel p =>
    cases hp : s.manager.heap p with
    | none => simp [Timed.step, stepOk, hp] at hs
    | some t =>
      obtain ⟨r, hr, -⟩ := cancel_spec h.good hp
      simp only [Timed.step, stepOk, hp, hr] at hs
      cases hs
      have hallowed := allowed_cancel h.good htimely hp hr
      refine h.store hle hnow hallowed.good hallowed.timely (cancel_heap hp hr) (h.small p t hp)
        (entry_of_none rfl) (fun e' he' => absurd he' (Option.not_mem_none e')) fun hrec => ?_
      refine (h.once p t hp hrec).trans ?_
      rw [if_pos rfl]
      split <;> omega
  | refresh now p =>
    cases hp : s.manager.heap p with
    | none => simp [Timed.step, stepOk, hp] at hs
    | some t =>
      simp only [Timed.step, stepOk, hp] at hs
      cases hs
      have hsmall := h.small p t hp
      have hwrap : now + t.ms < 2 ^ 64 := by simp only [Action.time] at hnow; omega
      have hallowed := allowed_refresh h.good htimely hp hwrap
      have he : i.armed p = t.entry := by rw [h.armed p, hp, Option.bind_some]
      obtain ⟨hms', hcb, hrec⟩ := refreshed_fields t now
      refine h.store hle hnow hallowed.good hallowed.timely (refresh_heap h.good hp now)
        (hms' ▸ hsmall) (by rw [he, entry_refreshed hwrap]) (fun e' he' => ?_) ?_
      · obtain ⟨e₀, -, rfl⟩ := Option.mem_map.mp he'
        exact (h.inTime p).fromNow hle rfl
      · rw [hcb, hrec]
        exact h.once p t hp
  | reset now ms fromNow p =>
    cases hp : s.manager.heap p with
    | none => simp [Timed.step, stepOk, hp] at hs
    | some t =>
      simp only [Timed.step, stepOk, hp] at hs
      cases hs
      have hsmall := h.small p t hp
      have hwrap : now + ms < 2 ^ 64 := by simp only [Action.time] at hnow; omega
      have hallowed : Poller.Allowed now s.manager (reset s.manager now ms fromNow p t).1 _ :=
        allowed_reset h.good htimely hp hwrap
      have he : i.armed p = t.entry := by rw [h.armed p, hp, Option.bind_some]
      obtain ⟨hlow, hhigh⟩ := htimely p t hp
      obtain ⟨hms', hcb, hrec⟩ := restarted_fields t now ms fromNow
      refine h.store hle hnow hallowed.good hallowed.timely (reset_heap h.good hp now ms fromNow)
        (hms'.elim (·.trans_lt hsmall) (·.trans_lt hms)) ?_ (fun e' he' => ?_) ?_
      · rw [he]
        exact entry_restarted fromNow hlow hhigh hwrap
      · obtain ⟨e₀, he₀, rfl⟩ := Option.mem_map.mp he'
        cases fromNow with
        | true => exact (h.inTime p).fromNow hle rfl
        | false =>
          obtain ⟨h1, h2⟩ := (h.inTime p).after e₀ he₀
          exact ⟨h1.trans hle, h2⟩
      · rw [hcb, hrec]
        exact h.once p t hp
  | getNextTimer now =>
    simp only [Timed.step, stepOk] at hs
    cases hs
    refine ⟨h.good.congr rfl rfl, htimely, h.small, hnow, ⟨h.previous.1, h.previous.2.trans hle⟩,
      h.armed, fun q => ?_, fun q => (h.inTime q).set hle fun e' he' => ?_, h.fresh, h.once⟩
    · show s.log q ++ [] = _
      rw [List.append_nil, h.log q]
      rfl
    · exact ⟨((h.inTime q).after e' he').1.trans hle, ((h.inTime q).after e' he').2⟩
  | listExpiredCb now nowPtr =>
    cases hp : s.manager.heap nowPtr with
    | some t => simp [Timed.step, stepOk, hp] at hs
    | none =>
      simp only [Timed.step, stepOk, hp, List.nil_append] at hs
      cases hs
      exact h.listExpiredCb hle hnow hp

theorem sim_init {start : Nat} (hlow : 60 * 60 * 1000 ≤ start) (hhigh : start < 2 ^ 63) :
    Sim (Timed.init P start) (Ideal.init P) where
  good := (inv_init start).1
  timely := fun _ _ h => absurd h.symm (Option.some_ne_none _)
  small := fun _ _ h => absurd h.symm (Option.some_ne_none _)
  clock := hhigh
  previous := ⟨hlow, le_rfl⟩
  armed := fun _ => rfl
  log := fun _ => rfl
  inTime := fun _ => ⟨fun _ h => absurd h List.not_mem_nil, List.Pairwise.nil,
    fun _ h => absurd h List.not_mem_nil, fun e h => absurd h (Option.not_mem_none e)⟩
  fresh := fun _ _ => rfl
  once := fun _ _ h => absurd h.symm (Option.some_ne_none _)

/-- A run and the run of the table. -/
theorem sim_exec (as : List (Action P)) : ∀ (s : Timed P) (i : Ideal P), Sim s i →
    Lib.Guarded Timed.step Plain s as → Lib.exec Timed.step s as = some s' →
    Sim s' (as.foldl Ideal.step i) := by
  induction as with
  | nil =>
    intro s i h _ hs
    cases hs
    exact h
  | cons a as ih =>
    intro s i h hg hs
    obtain ⟨u, hu, hs⟩ := (Lib.exec_cons_eq_some Timed.step).mp hs
    simp only [Lib.Guarded, hu] at hg
    exact ih u (i.step a) (h.step hg.1 hu) hg.2 hs

theorem sim_run {start : Nat} {as : List (Action P)} (hlow : 60 * 60 * 1000 ≤ start)
    (hhigh : start < 2 ^ 63) (hg : Lib.Guarded Timed.step Plain (Timed.init P start) as)
    (hs : Lib.exec Timed.step (Timed.init P start) as = some s) : Sim s (Ideal.run as) :=
  sim_exec as _ _ (sim_init hlow hhigh) hg hs

end

/-- A timer of 100 ms whose period is changed, and a recurring one of 50 ms. -/
def laterRun : List (Action Nat) :=
  [.addTimer 5000000 100 1 false 5, .addTimer 5000000 50 2 true 3, .listExpiredCb 5000060 9,
    .reset 5000070 80 false 5, .listExpiredCb 5000120 9]

theorem plain_laterRun : Lib.Guarded Timed.step Plain (Timed.init Nat 5000000) laterRun := by
  refine ⟨⟨?_, ?_, ?_⟩, ⟨?_, ?_, ?_⟩, ⟨?_, ?_, trivial⟩, ⟨?_, ?_, ?_⟩, ⟨?_, ?_, trivial⟩,
    trivial⟩ <;> decide

section
variable {P : Type} [LinearOrder P] {s : Timed P} {start : Nat} {as : List (Action P)}

end

section
variable {P : Type} [LinearOrder P] {s : Timed P} {start : Nat} {as : List (Action P)}

end

end Sylar.TimerManager
