import Sylar.Spec.TimerManager

/-!
# `Sylar.Proofs.Timer.TimerSet`: the set of armed timers

`Good` is the invariant: the set is sorted by the comparator, and holds the timers that have a
callback. The comparator reads `m_next` from the heap, so a store to a timer that is in the set
can break the order of the set. Each operation takes a timer out before it changes `m_next`, and
`sorted_store` is the reason why that is enough.

`Later m m'` says what no operation undoes: a timer keeps its `m_recurring`, and one without
callback never gets one. The theorem on runs follows from the two.
-/

set_option autoImplicit false

namespace Sylar.TimerManager

open Lib.OrderedSet (Sorted)

section
variable {P : Type} {m m' : Manager P} {p : P}

/-! ### What no operation undoes -/

/-- A timer that has no callback gets none, and `m_recurring` does not change. -/
def Later (m m' : Manager P) : Prop :=
  ∀ q t, m.heap q = some t →
    ∃ t', m'.heap q = some t' ∧ t'.recurring = t.recurring ∧ (t.cb = none → t'.cb = none)

theorem Later.refl (m : Manager P) : Later m m := fun _ t ht => ⟨t, ht, rfl, id⟩

theorem Later.trans {m'' : Manager P} (h : Later m m') (h' : Later m' m'') : Later m m'' := by
  intro q t ht
  obtain ⟨t', ht', hrec, hcb⟩ := h q t ht
  obtain ⟨t'', ht'', hrec', hcb'⟩ := h' q t' ht'
  exact ⟨t'', ht'', hrec'.trans hrec, fun hnone => hcb' (hcb hnone)⟩

theorem Later.dead (h : Later m m') (hp : m.Dead p) : m'.Dead p := by
  obtain ⟨t, ht, hcb⟩ := hp
  obtain ⟨t', ht', -, hcb'⟩ := h p t ht
  exact ⟨t', ht', hcb' hcb⟩

/-- The timer at `p` has a callback. -/
def Manager.Armed (m : Manager P) (p : P) : Prop := ∃ t, m.heap p = some t ∧ t.cb ≠ none

theorem fired_of_later {handed : List (P × Option Nat)} (hlater : Later m m')
    (h : ∀ e ∈ handed, ∃ t, m.heap e.1 = some t ∧ (t.recurring = false → t.cb = none)) :
    ∀ e ∈ handed, ∃ t, m'.heap e.1 = some t ∧ (t.recurring = false → t.cb = none) := by
  intro e he
  obtain ⟨t, ht, hfired⟩ := h e he
  obtain ⟨t', ht', hrec, hcb⟩ := hlater e.1 t ht
  exact ⟨t', ht', fun hfalse => hcb (hfired (hrec ▸ hfalse))⟩

/-- A dead timer is not armed. -/
theorem not_armed_of_dead (h : m.Dead p) : ¬ m.Armed p := by
  obtain ⟨t, ht, hcb⟩ := h
  rintro ⟨t', ht', hcb'⟩
  rw [ht, Option.some.injEq] at ht'
  exact hcb' (ht' ▸ hcb)

end

section
variable {P : Type} [LinearOrder P] {m m' : Manager P} {p q : P} {t : Timer}

/-! ### The comparator -/

theorem less_iff {heap : P → Option Timer} :
    less heap p q = true ↔
      next heap p < next heap q ∨ next heap p = next heap q ∧ p < q := by
  simp only [less, comparator]
  split
  · next h => simp [h]
  · next h =>
    split
    · next h' =>
      simp only [Bool.false_eq_true, false_iff, not_or, not_and]
      exact ⟨h, fun heq => absurd heq (ne_of_gt h')⟩
    · next h' =>
      have heq : next heap p = next heap q := by omega
      simp [heq]

/-- The comparator is a strict total order, whatever the heap. -/
theorem strictOrder_less (heap : P → Option Timer) : Lib.StrictOrder (less heap) where
  irrefl := by
    intro p
    rw [Bool.eq_false_iff, ne_eq, less_iff]
    rintro (h | ⟨-, h⟩)
    · exact lt_irrefl _ h
    · exact lt_irrefl _ h
  trans := by
    intro p q r hpq hqr
    rw [less_iff] at hpq hqr ⊢
    rcases hpq with hpq | ⟨hpq, hpq'⟩ <;> rcases hqr with hqr | ⟨hqr, hqr'⟩
    · exact Or.inl (lt_trans hpq hqr)
    · exact Or.inl (hqr ▸ hpq)
    · exact Or.inl (hpq ▸ hqr)
    · exact Or.inr ⟨hpq.trans hqr, lt_trans hpq' hqr'⟩
  tri := by
    intro p q hpq hqp
    rw [Bool.eq_false_iff, ne_eq, less_iff, not_or, not_and] at hpq hqp
    have hnext : next heap p = next heap q := by omega
    exact le_antisymm (not_lt.mp (hqp.2 hnext.symm)) (not_lt.mp (hpq.2 hnext))

/-- The comparator sees of a timer its `m_next` only. -/
theorem less_congr {heap heap' : P → Option Timer} (hp : next heap' p = next heap p)
    (hq : next heap' q = next heap q) : less heap' p q = less heap p q := by
  rw [Bool.eq_iff_iff, less_iff, less_iff, hp, hq]

/-! ### Stores -/

@[simp] theorem timers_store : (m.store p t).timers = m.timers := rfl

@[simp] theorem heap_store_self : (m.store p t).heap p = some t := Function.update_self ..

theorem heap_store_of_ne (h : q ≠ p) : (m.store p t).heap q = m.heap q :=
  Function.update_of_ne h ..

theorem next_store_of_ne (h : q ≠ p) : next (m.store p t).heap q = next m.heap q := by
  unfold next
  rw [heap_store_of_ne h]

/-- A list without `p` stays sorted when the timer at `p` changes. -/
theorem sorted_store {l : List P} (h : Sorted (less m.heap) l) (hp : p ∉ l) :
    Sorted (less (m.store p t).heap) l := by
  refine h.congr ?_
  intro x hx y hy
  exact less_congr (next_store_of_ne (fun heq => hp (heq ▸ hx)))
    (next_store_of_ne (fun heq => hp (heq ▸ hy)))

/-- A store that keeps `m_next` keeps the order of every list. -/
theorem sorted_store_same {l : List P} {t' : Timer} (h : Sorted (less m.heap) l)
    (hp : m.heap p = some t) (hnext : t'.next = t.next) :
    Sorted (less (m.store p t').heap) l := by
  have hsame : ∀ x, next (m.store p t').heap x = next m.heap x := by
    intro x
    by_cases hx : x = p
    · subst hx
      unfold next
      rw [heap_store_self, hp]
      exact hnext
    · exact next_store_of_ne hx
  exact h.congr fun x _ y _ => less_congr (hsame x) (hsame y)

/-! ### The invariant -/

theorem armed_store_self : (m.store p t).Armed p ↔ t.cb ≠ none := by
  constructor
  · rintro ⟨t', ht', hcb⟩
    rw [heap_store_self, Option.some.injEq] at ht'
    exact ht' ▸ hcb
  · exact fun hcb => ⟨t, heap_store_self, hcb⟩

theorem armed_store_of_ne (h : q ≠ p) : (m.store p t).Armed q ↔ m.Armed q := by
  unfold Manager.Armed
  rw [heap_store_of_ne h]

/-- The set is sorted and holds the armed timers, apart from those in `out`. The loop of
`listExpiredCb` works on timers that it has taken out. -/
structure Between (m : Manager P) (out : List P) : Prop where
  sorted : Sorted (less m.heap) m.timers
  mem_iff : ∀ p, p ∈ m.timers ∨ p ∈ out ↔ m.Armed p
  disjoint : ∀ p ∈ out, p ∉ m.timers
  nodup : out.Nodup

/-- The invariant between two operations. -/
def Good (m : Manager P) : Prop := Between m []

theorem Good.mem_iff (h : Good m) (p : P) : p ∈ m.timers ↔ m.Armed p := by
  rw [← Between.mem_iff h p]
  simp

theorem good_of (hsorted : Sorted (less m.heap) m.timers)
    (hmem : ∀ p, p ∈ m.timers ↔ m.Armed p) : Good m := by
  refine ⟨hsorted, ?_, ?_, List.nodup_nil⟩
  · intro p
    rw [← hmem p]
    simp
  · intro p hp
    cases hp

/-- The invariant is about the heap and the set only. -/
theorem Good.congr (h : Good m) (hheap : m'.heap = m.heap) (htimers : m'.timers = m.timers) :
    Good m' := by
  refine good_of ?_ ?_
  · rw [hheap, htimers]
    exact h.sorted
  · intro p
    rw [htimers, h.mem_iff]
    unfold Manager.Armed
    rw [hheap]

theorem timersOk_of_good (h : Good m) : TimersOk m where
  ordered := List.Pairwise.imp (fun hpq => less_iff.mp hpq) h.sorted
  nodup := h.sorted.nodup (strictOrder_less _)
  mem_iff := h.mem_iff

theorem later_store {t' : Timer} (hp : m.heap p = some t) (hrec : t'.recurring = t.recurring)
    (hcb : t.cb = none → t'.cb = none) : Later m (m.store p t') := by
  intro q u hu
  by_cases hq : q = p
  · subst hq
    rw [hp, Option.some.injEq] at hu
    subst hu
    exact ⟨t', heap_store_self, hrec, hcb⟩
  · exact ⟨u, by rw [heap_store_of_ne hq]; exact hu, rfl, id⟩

theorem later_store_new (hp : m.heap p = none) : Later m (m.store p t) := by
  intro q u hu
  have hq : q ≠ p := by
    rintro rfl
    rw [hp] at hu
    cases hu
  exact ⟨u, by rw [heap_store_of_ne hq]; exact hu, rfl, id⟩

/-! ### Taking a timer out and putting it back -/

/-- `m_timers.insert(p)` for a timer that is armed and not in the set. -/
theorem between_insert {out : List P} (h : Between m (p :: out)) :
    Between { m with timers := (Lib.OrderedSet.insert (less m.heap) p m.timers).1 } out := by
  have hp : p ∉ m.timers := h.disjoint p List.mem_cons_self
  have hlt := strictOrder_less m.heap
  obtain ⟨hpout, hout⟩ := List.nodup_cons.mp h.nodup
  refine ⟨Lib.OrderedSet.sorted_insert hlt h.sorted hp, ?_, ?_, hout⟩
  · intro q
    show q ∈ (Lib.OrderedSet.insert (less m.heap) p m.timers).1 ∨ q ∈ out ↔ m.Armed q
    rw [← h.mem_iff q, Lib.OrderedSet.mem_insert hlt h.sorted hp, List.mem_cons]
    tauto
  · intro q hq hmem
    rcases (Lib.OrderedSet.mem_insert hlt h.sorted hp q).mp hmem with rfl | hmem
    · exact hpout hq
    · exact h.disjoint q (List.mem_cons_of_mem _ hq) hmem

/-- A timer that is out may get any time. -/
theorem between_store {out : List P} (h : Between m (p :: out)) (hcb : t.cb ≠ none) :
    Between (m.store p t) (p :: out) := by
  refine ⟨sorted_store h.sorted (h.disjoint p List.mem_cons_self), ?_, h.disjoint, h.nodup⟩
  intro q
  by_cases hq : q = p
  · subst hq
    simp [armed_store_self, hcb]
  · rw [armed_store_of_ne hq]
    exact h.mem_iff q

/-- A timer that is out and loses its callback stays out. -/
theorem between_drop {out : List P} (h : Between m (p :: out)) (hcb : t.cb = none) :
    Between (m.store p t) out := by
  have hp : p ∉ m.timers := h.disjoint p List.mem_cons_self
  obtain ⟨hpout, hout⟩ := List.nodup_cons.mp h.nodup
  refine ⟨sorted_store h.sorted hp, ?_, ?_, hout⟩
  · intro q
    by_cases hq : q = p
    · subst hq
      simp [armed_store_self, hcb, hp, hpout]
    · rw [armed_store_of_ne hq, ← h.mem_iff q, timers_store, List.mem_cons]
      simp [hq]
  · exact fun q hq => h.disjoint q (List.mem_cons_of_mem _ hq)

/-- `find` and `erase` for an armed timer. -/
theorem good_takeOut (h : Good m) (hp : m.Armed p) :
    ∃ it, Lib.OrderedSet.find (less m.heap) p m.timers = some it ∧
      Between { m with timers := m.timers.eraseIdx it } [p] := by
  obtain ⟨it, hfind, hsorted, hmem⟩ :=
    Lib.OrderedSet.mem_eraseIdx_find (strictOrder_less m.heap) h.sorted ((h.mem_iff p).mpr hp)
  refine ⟨it, hfind, hsorted, ?_, ?_, List.nodup_singleton p⟩
  · intro q
    show q ∈ m.timers.eraseIdx it ∨ q ∈ [p] ↔ m.Armed q
    rw [hmem q, h.mem_iff q, List.mem_singleton]
    constructor
    · rintro (⟨hq, -⟩ | rfl)
      · exact hq
      · exact hp
    · intro hq
      by_cases hqp : q = p
      · exact Or.inr hqp
      · exact Or.inl ⟨hq, hqp⟩
  · intro q hq hmem'
    exact ((hmem q).mp hmem').2 (List.mem_singleton.mp hq)

/-- A timer that is just created is out. -/
theorem good_create (h : Good m) (hp : m.heap p = none) (hcb : t.cb ≠ none) :
    Between (m.store p t) [p] := by
  have hunarmed : ¬ m.Armed p := by
    rintro ⟨t', ht', -⟩
    rw [hp] at ht'
    cases ht'
  have hnotin : p ∉ m.timers := fun hmem => hunarmed ((h.mem_iff p).mp hmem)
  refine ⟨sorted_store h.sorted hnotin, ?_, ?_, List.nodup_singleton p⟩
  · intro q
    by_cases hq : q = p
    · subst hq
      simp [armed_store_self, hcb]
    · rw [armed_store_of_ne hq, ← h.mem_iff q, List.mem_singleton, timers_store]
      simp [hq]
  · intro q hq
    rw [List.mem_singleton.mp hq]
    exact hnotin

/-! ### The operations -/

theorem addTimerVal_eq (m : Manager P) (p : P) :
    ∃ b, (addTimerVal m p).1 = { m with
      timers := (Lib.OrderedSet.insert (less m.heap) p m.timers).1
      trickled := b } := ⟨_, rfl⟩

theorem good_addTimerVal (h : Between m [p]) : Good (addTimerVal m p).1 := by
  obtain ⟨b, hb⟩ := addTimerVal_eq m p
  have hins := between_insert h
  rw [hb]
  exact ⟨hins.sorted, hins.mem_iff, hins.disjoint, hins.nodup⟩

theorem good_addTimer {now ms cb : Nat} {recurring : Bool} (h : Good m) (hp : m.heap p = none) :
    Good (addTimer m now ms cb recurring p).1 :=
  good_addTimerVal (good_create h hp (by simp))

theorem later_addTimer {now ms cb : Nat} {recurring : Bool} (hp : m.heap p = none) :
    Later m (addTimer m now ms cb recurring p).1 := later_store_new hp

/-- `cancel` finds the timer. Afterwards the timer has no callback. -/
theorem cancel_spec (h : Good m) (hp : m.heap p = some t) :
    ∃ r, cancel m p t = some r ∧ Good r.1 ∧ Later m r.1 ∧ r.1.Dead p := by
  unfold cancel
  cases hcb : t.cb with
  | none => exact ⟨_, rfl, h, Later.refl m, t, hp, hcb⟩
  | some cb =>
      have harmed : m.Armed p := ⟨t, hp, by simp [hcb]⟩
      -- The callback goes first, and the comparator does not see it.
      have hsorted : Sorted (less (m.store p { t with cb := none }).heap) m.timers :=
        sorted_store_same h.sorted hp rfl
      obtain ⟨it, hfind, hsorted', hmem⟩ := Lib.OrderedSet.mem_eraseIdx_find
        (strictOrder_less _) hsorted ((h.mem_iff p).mpr harmed)
      simp only [timers_store, hfind]
      refine ⟨_, rfl, good_of hsorted' ?_, later_store hp rfl (fun _ => rfl), _, heap_store_self,
        rfl⟩
      intro q
      show q ∈ m.timers.eraseIdx it ↔ (m.store p { t with cb := none }).Armed q
      rw [hmem q, h.mem_iff q]
      by_cases hq : q = p
      · subst hq
        simp [armed_store_self]
      · simp [armed_store_of_ne hq, hq]

theorem refresh_spec (now : Nat) (h : Good m) (hp : m.heap p = some t) :
    Good (refresh m now p t).1 ∧ Later m (refresh m now p t).1 := by
  unfold refresh
  cases hcb : t.cb with
  | none => exact ⟨h, Later.refl m⟩
  | some cb =>
      obtain ⟨it, hfind, hout⟩ := good_takeOut h ⟨t, hp, by simp [hcb]⟩
      simp only [hfind]
      exact ⟨between_insert (between_store hout (by simp)),
        later_store hp rfl (fun hnone => by rw [hcb] at hnone; cases hnone)⟩

theorem reset_spec (now ms : Nat) (fromNow : Bool) (h : Good m) (hp : m.heap p = some t) :
    Good (reset m now ms fromNow p t).1 ∧ Later m (reset m now ms fromNow p t).1 := by
  unfold reset
  split
  · exact ⟨h, Later.refl m⟩
  · cases hcb : t.cb with
    | none => exact ⟨h, Later.refl m⟩
    | some cb =>
        obtain ⟨it, hfind, hout⟩ := good_takeOut h ⟨t, hp, by simp [hcb]⟩
        simp only [hfind]
        exact ⟨good_addTimerVal (between_store hout (by simp)),
          later_store hp rfl (fun hnone => by rw [hcb] at hnone; cases hnone)⟩

/-! ### Expiry -/

/-- One timer of the loop: its callback is handed out, and it is armed again or dead. -/
theorem expireOne_spec (now : Nat) (cbs : List (P × Option Nat)) {out : List P}
    (h : Between m (p :: out)) :
    ∃ m' cb, expireOne now (m, cbs) p = (m', cbs ++ [(p, cb)]) ∧ Between m' out ∧ Later m m' ∧
      ∃ t', m'.heap p = some t' ∧ (t'.recurring = false → t'.cb = none) := by
  obtain ⟨t, ht, hcb⟩ := (h.mem_iff p).mp (Or.inr List.mem_cons_self)
  unfold expireOne
  simp only [ht]
  by_cases hrec : t.recurring = true
  · -- The timer gets its new time while it is out, and goes back into the set.
    rw [if_pos hrec]
    refine ⟨_, t.cb, rfl, between_insert (between_store h hcb), later_store ht rfl id, _,
      heap_store_self, ?_⟩
    intro hfalse
    rw [hrec] at hfalse
    cases hfalse
  · rw [if_neg hrec]
    exact ⟨_, t.cb, rfl, between_drop h rfl, later_store ht rfl (fun _ => rfl), _, heap_store_self,
      fun _ => rfl⟩

/-- The loop over the expired timers. -/
theorem expire_run {now : Nat} : ∀ (out : List P) (m : Manager P) (cbs : List (P × Option Nat)),
    Between m out → ∃ m' new, out.foldl (expireOne now) (m, cbs) = (m', cbs ++ new) ∧ Good m' ∧
      Later m m' ∧ ∀ e ∈ new, e.1 ∈ out ∧
        ∃ t, m'.heap e.1 = some t ∧ (t.recurring = false → t.cb = none) := by
  intro out
  -- The timers that are still to be handled are out of the set. The first one leaves `out`.
  induction out with
  | nil =>
      intro m cbs h
      exact ⟨m, [], by simp, h, Later.refl m, by simp⟩
  | cons p out ih =>
      intro m cbs h
      obtain ⟨m₁, cb, hone, hbetween, hlater, t₁, ht₁, hdead⟩ := expireOne_spec now cbs h
      obtain ⟨m', new, hrun, hgood, hlater', hnew⟩ := ih m₁ (cbs ++ [(p, cb)]) hbetween
      refine ⟨m', (p, cb) :: new, ?_, hgood, hlater.trans hlater', ?_⟩
      · rw [List.foldl_cons, hone, hrun, List.append_assoc]
        rfl
      · intro e he
        rcases List.mem_cons.mp he with rfl | he
        · obtain ⟨t', ht', hrec, hcb⟩ := hlater' p t₁ ht₁
          exact ⟨List.mem_cons_self, t', ht', fun hfalse => hcb (hdead (hrec ▸ hfalse))⟩
        · obtain ⟨hmem, hfired⟩ := hnew e he
          exact ⟨List.mem_cons_of_mem _ hmem, hfired⟩

/-- Cutting the set in two takes its first part out. -/
theorem good_take (h : Good m) (i : Nat) :
    Between { m with timers := m.timers.drop i } (m.timers.take i) := by
  have hnodup := h.sorted.nodup (strictOrder_less _)
  rw [← List.take_append_drop i m.timers, List.nodup_append] at hnodup
  obtain ⟨htake, -, hcross⟩ := hnodup
  refine ⟨h.sorted.sublist (List.drop_sublist i m.timers), ?_, ?_, htake⟩
  · intro q
    show q ∈ m.timers.drop i ∨ q ∈ m.timers.take i ↔ m.Armed q
    rw [← h.mem_iff q]
    conv_rhs => rw [← List.take_append_drop i m.timers, List.mem_append]
    exact or_comm
  · intro q hq hmem
    exact hcross q hq q hmem rfl

theorem listExpiredCb_spec (now : Nat) (nowPtr : P) (h : Good m) :
    ∃ m' new, listExpiredCb m now nowPtr = (m', new) ∧ Good m' ∧ Later m m' ∧
      ∀ e ∈ new, m.Armed e.1 ∧
        ∃ t, m'.heap e.1 = some t ∧ (t.recurring = false → t.cb = none) := by
  unfold listExpiredCb
  split
  · exact ⟨m, [], rfl, h, Later.refl m, by simp⟩
  · simp only
    split
    · -- Nothing is due. The clock reading is stored all the same.
      exact ⟨_, [], rfl, h.congr rfl rfl, Later.refl m, by simp⟩
    · -- Which timers have expired does not matter: any first part of the set can be taken out.
      have h' : Good { m with previouseTime := now } := h.congr rfl rfl
      obtain ⟨m', new, hrun, hgood, hlater, hnew⟩ := expire_run _ _ []
        (good_take h' (expiredEnd { m with previouseTime := now } now nowPtr
          (detectClockRollover m now)))
      refine ⟨m', new, hrun, hgood, hlater, ?_⟩
      intro e he
      obtain ⟨hmem, hfired⟩ := hnew e he
      exact ⟨(h.mem_iff e.1).mp (List.mem_of_mem_take hmem), hfired⟩

/-! ### Runs -/

/-- The invariant of the system. What was handed out is armed again or dead. -/
def Sys.Inv : Sys P → Prop
  | .ok m handed => Good m ∧
      ∀ e ∈ handed, ∃ t, m.heap e.1 = some t ∧ (t.recurring = false → t.cb = none)
  | .fault => False

/-- `s'` comes after `s`: a dead timer is dead, and nothing more was handed out for it. -/
def Sys.Onward : Sys P → Sys P → Prop
  | .ok m handed, .ok m' handed' =>
      Later m m' ∧ ∀ p, m.Dead p → handedFor handed' p = handedFor handed p
  | _, _ => False

/-- An operation that hands nothing out. -/
theorem silent_step {handed : List (P × Option Nat)} (hinv : (Sys.ok m handed).Inv)
    (hgood : Good m') (hlater : Later m m') :
    (Sys.ok m' handed).Inv ∧ (Sys.ok m handed).Onward (.ok m' handed) :=
  ⟨⟨hgood, fired_of_later hlater hinv.2⟩, hlater, fun _ _ => rfl⟩

theorem step_timerSet {s s' : Sys P} {a : Action P} (hinv : s.Inv) (hstep : step s a = some s') :
    s'.Inv ∧ s.Onward s' := by
  cases s with
  | fault => cases hinv
  | ok m handed =>
      have hgood := hinv.1
      change stepOk m handed a = some s' at hstep
      cases a with
      | addTimer now ms cb recurring p =>
          simp only [stepOk] at hstep
          split at hstep
          · next hp =>
            cases hstep
            exact silent_step hinv (good_addTimer hgood hp) (later_addTimer hp)
          · cases hstep
      | cancel p =>
          simp only [stepOk] at hstep
          split at hstep
          · cases hstep
          · next t hp =>
            obtain ⟨r, hr, hgood', hlater, -⟩ := cancel_spec hgood hp
            rw [hr] at hstep
            cases hstep
            exact silent_step hinv hgood' hlater
      | refresh now p =>
          simp only [stepOk] at hstep
          split at hstep
          · cases hstep
          · next t hp =>
            cases hstep
            obtain ⟨hgood', hlater⟩ := refresh_spec now hgood hp
            exact silent_step hinv hgood' hlater
      | reset now ms fromNow p =>
          simp only [stepOk] at hstep
          split at hstep
          · cases hstep
          · next t hp =>
            cases hstep
            obtain ⟨hgood', hlater⟩ := reset_spec now ms fromNow hgood hp
            exact silent_step hinv hgood' hlater
      | getNextTimer now =>
          cases hstep
          exact silent_step hinv (hgood.congr rfl rfl) (Later.refl m)
      | listExpiredCb now nowPtr =>
          simp only [stepOk] at hstep
          split at hstep
          · obtain ⟨m', new, hlist, hgood', hlater, hnew⟩ :=
              listExpiredCb_spec now nowPtr hgood
            rw [hlist] at hstep
            cases hstep
            refine ⟨⟨hgood', ?_⟩, hlater, ?_⟩
            · intro e he
              rcases List.mem_append.mp he with hold | he
              · exact fired_of_later hlater hinv.2 e hold
              · exact (hnew e he).2
            · -- What is handed out was armed before, so it is not for a dead timer.
              intro p hp
              have hnone : handedFor new p = [] := by
                refine List.filter_eq_nil_iff.mpr ?_
                intro e he hep
                rw [decide_eq_true_eq] at hep
                exact not_armed_of_dead hp (hep ▸ (hnew e he).1)
              unfold handedFor at hnone ⊢
              rw [List.filter_append, hnone, List.append_nil]
          · cases hstep

theorem Sys.Onward.refl {s : Sys P} (h : s.Inv) : s.Onward s := by
  cases s with
  | fault => cases h
  | ok m handed => exact ⟨Later.refl m, fun _ _ => rfl⟩

theorem Sys.Onward.trans {s s' s'' : Sys P} (h : s.Onward s') (h' : s'.Onward s'') :
    s.Onward s'' := by
  cases s with
  | fault => cases h
  | ok m handed =>
      cases s' with
      | fault => cases h
      | ok m' handed' =>
          cases s'' with
          | fault => cases h'
          | ok m'' handed'' =>
              refine ⟨h.1.trans h'.1, ?_⟩
              intro p hp
              rw [h'.2 p (h.1.dead hp), h.2 p hp]

/-- A whole run goes onward. -/
theorem run_onward {s s' : Sys P} (actions : List (Action P)) (hinv : s.Inv)
    (h : Lib.exec step s actions = some s') : s'.Inv ∧ s.Onward s' := by
  refine Lib.exec_invariant_of_step (I := fun u => u.Inv ∧ s.Onward u) ?_ actions s s'
    ⟨hinv, Sys.Onward.refl hinv⟩ h
  intro u a u' hu hstep
  obtain ⟨hinv', honward⟩ := step_timerSet hu.1 hstep
  exact ⟨hinv', hu.2.trans honward⟩

theorem inv_init (now : Nat) : (init P now).Inv := by
  refine ⟨good_of List.Pairwise.nil ?_, ?_⟩
  · intro p
    constructor
    · intro hp
      cases hp
    · rintro ⟨t, ht, -⟩
      cases ht
  · intro e he
    cases he

/-- In every state that calls can reach the set is what it should be and `cancel` finds what it
looks for. A cancelled timer is dead, and so is one that has fired and is not recurring. Whatever
is called afterwards, a dead timer stays dead and out of the set, and nothing is handed out for
it. -/
theorem timer_set_invariant (now : Nat) (actions more : List (Action P)) (s s' : Sys P)
    (h : Lib.exec step (init P now) actions = some s) (h' : Lib.exec step s more = some s') :
    ∃ m handed m' handed', s = .ok m handed ∧ s' = .ok m' handed' ∧ TimersOk m ∧
      (∀ p t, m.heap p = some t → ∃ r, cancel m p t = some r ∧ r.1.Dead p) ∧
      (∀ e ∈ handed, ∃ t, m.heap e.1 = some t ∧ (t.recurring = false → m.Dead e.1)) ∧
      ∀ p, m.Dead p → m'.Dead p ∧ p ∉ m'.timers ∧ handedFor handed' p = handedFor handed p := by
  obtain ⟨hinv, -⟩ := run_onward actions (inv_init now) h
  obtain ⟨hinv', honward⟩ := run_onward more hinv h'
  cases s with
  | fault => cases hinv
  | ok m handed =>
      cases s' with
      | fault => cases hinv'
      | ok m' handed' =>
          refine ⟨m, handed, m', handed', rfl, rfl, timersOk_of_good hinv.1, ?_, ?_, ?_⟩
          · intro p t hp
            obtain ⟨r, hr, -, -, hdead⟩ := cancel_spec hinv.1 hp
            exact ⟨r, hr, hdead⟩
          · intro e he
            obtain ⟨t, ht, hfired⟩ := hinv.2 e he
            exact ⟨t, ht, fun hrec => ⟨t, ht, hfired hrec⟩⟩
          · intro p hp
            have hp' := honward.1.dead hp
            exact ⟨hp', fun hmem => not_armed_of_dead hp' ((hinv'.1.mem_iff p).mp hmem),
              honward.2 p hp⟩

end

/-- A one-shot timer at `5` and a recurring one at `3`. Both fire. -/
def firedRun : List (Action Nat) :=
  [.addTimer 100 50 1 false 5, .addTimer 100 50 2 true 3, .listExpiredCb 150 4]

/-- Calls on the timers that have fired, and a second expiry. -/
def afterFired : List (Action Nat) :=
  [.refresh 160 5, .reset 160 7 true 5, .cancel 5, .listExpiredCb 300 4]

/-- The one-shot timer is dead after the first expiry. The second one hands out the callback of
the other timer only. -/
theorem timer_set_invariant_fired :
    ∃ m handed m' handed', Lib.exec step (init Nat 100) firedRun = some (.ok m handed) ∧
      Lib.exec step (.ok m handed) afterFired = some (.ok m' handed') ∧
      TimersOk m ∧ m.Dead 5 ∧ m'.Dead 5 ∧ 5 ∉ m'.timers ∧
      handedFor handed 5 = [(5, some 1)] ∧ handedFor handed' 5 = handedFor handed 5 ∧
      handedFor handed' 3 = [(3, some 2), (3, some 2)] := by
  obtain ⟨m, handed, m', handed', hs, hs', hok, -, -, hdead⟩ :=
    timer_set_invariant 100 firedRun afterFired _ _ rfl rfl
  cases hs
  cases hs'
  have h5 := hdead 5 ⟨_, rfl, rfl⟩
  exact ⟨_, _, _, _, rfl, rfl, hok, ⟨_, rfl, rfl⟩, h5.1, h5.2.1, rfl, h5.2.2, rfl⟩

end Sylar.TimerManager
