import Sylar.Proofs.IOManager.EventTable

/-!
# `Sylar.Proofs.IOManager.Bits`: which steps set and clear a bit

A waiter that registers for an event wants to know who can touch its bit. `step_bitSet` says that a
bit is set by a registration for that event only, and `step_cancelEvent_clears` that a
`cancelEvent` leaves it clear when its `epoll_ctl` succeeds. Both hold in every state, with or
without the invariant of the table.
-/

set_option autoImplicit false

namespace Sylar.IOManager

/-- The bit of `e` in the context `c` is set. -/
def Table.bitSet (io : Table) (c : Nat) (e : Event) : Prop :=
  ∃ x, io.ctxs[c]? = some x ∧ x.events.has e = true

/-- The action is a registration for `e` in the context `c`. -/
def Action.Registers (c : Nat) (e : Event) : Action → Prop
  | .addEvent c' e' _ _ _ => c' = c ∧ e' = e
  | _ => False

section
variable {io io' : Table} {c c' : Nat} {e e' : Event} {x x' : FdContext}

/-- A context is replaced by one with fewer bits. -/
theorem bitSet_of_set (hx : io.ctxs[c]? = some x) (hctxs : io'.ctxs = io.ctxs.set c x')
    (hsub : ∀ e, x'.events.has e = true → x.events.has e = true) (h : io'.bitSet c' e') :
    io.bitSet c' e' := by
  obtain ⟨y, hy, hset⟩ := h
  rw [hctxs] at hy
  by_cases hc : c = c'
  · subst hc
    rw [List.getElem?_set_self (List.getElem?_eq_some_iff.mp hx).1, Option.some.injEq] at hy
    subst hy
    exact ⟨x, hx, hsub e' hset⟩
  · rw [List.getElem?_set_ne hc] at hy
    exact ⟨y, hy, hset⟩

theorem has_of_has_erase {m : Mask} (h : (m.erase e).has e' = true) : m.has e' = true := by
  rw [has_erase, Bool.and_eq_true] at h
  exact h.1

theorem triggerEvent_events {items : List Scheduled} (h : triggerEvent x e = .ok (items, x')) :
    x'.events = x.events.erase e := by
  unfold triggerEvent at h
  split at h
  · dsimp only at h
    split at h
    · cases h
    · split at h
      · cases h
        exact events_close
      · cases h
        exact events_close
  · cases h

theorem fire_ctxs (h : fire c x e io = .ok (x', io')) :
    io'.ctxs = io.ctxs.set c x' ∧ x'.events = x.events.erase e := by
  unfold fire at h
  cases htrig : triggerEvent x e with
  | error why =>
      rw [htrig] at h
      cases h
  | ok r =>
      obtain ⟨items, y⟩ := r
      rw [htrig] at h
      cases h
      exact ⟨rfl, triggerEvent_events htrig⟩

theorem fireIf_bitSet {real : Mask} (hx : io.ctxs[c]? = some x)
    (h : fireIf real c x e io = .ok (x', io')) :
    io'.ctxs[c]? = some x' ∧ ∀ c' e', io'.bitSet c' e' → io.bitSet c' e' := by
  unfold fireIf at h
  split at h
  · obtain ⟨hctxs, hevents⟩ := fire_ctxs h
    refine ⟨?_, ?_⟩
    · rw [hctxs, List.getElem?_set_self (List.getElem?_eq_some_iff.mp hx).1]
    · intro c' e'
      exact bitSet_of_set hx hctxs fun e'' he'' => has_of_has_erase (hevents ▸ he'')
  · cases h
    exact ⟨hx, fun _ _ hset => hset⟩

theorem processEntry_bitSet {entry : Entry} {ctlOk : Bool} (hx : io.ctxs[entry.ctx]? = some x)
    (h : processEntry x entry ctlOk io = .ok io') (hset : io'.bitSet c' e') :
    io.bitSet c' e' := by
  unfold processEntry at h
  dsimp only at h
  split at h
  · cases h
    exact hset
  · split at h
    · cases h
      exact hset
    · unfold fireAll at h
      cases h₁ : fireIf (realEvents x entry) entry.ctx x .read io with
      | error why =>
          rw [h₁] at h
          cases h
      | ok r₁ =>
          obtain ⟨x₁, io₁⟩ := r₁
          simp only [h₁, bind, Except.bind] at h
          obtain ⟨hx₁, hback₁⟩ := fireIf_bitSet hx h₁
          cases h₂ : fireIf (realEvents x entry) entry.ctx x₁ .write io₁ with
          | error why =>
              rw [h₂] at h
              cases h
          | ok r₂ =>
              obtain ⟨x₂, io₂⟩ := r₂
              simp only [h₂] at h
              cases h
              exact hback₁ c' e' ((fireIf_bitSet hx₁ h₂).2 c' e' hset)

theorem cancelEvent_bitSet {ctlOk done : Bool} (hx : io.ctxs[c]? = some x)
    (h : cancelEvent c x e ctlOk io = .ok (done, io')) :
    (∀ c' e', io'.bitSet c' e' → io.bitSet c' e') ∧ (ctlOk = true → ¬ io'.bitSet c e) := by
  unfold cancelEvent at h
  by_cases hset : x.events.has e = true
  · simp only [hset, Bool.not_true, Bool.false_eq_true, if_false] at h
    cases ctlOk with
    | false =>
        cases h
        exact ⟨fun _ _ hset' => hset', fun hok => absurd hok (by decide)⟩
    | true =>
        simp only [Bool.not_true, Bool.false_eq_true, if_false] at h
        cases hfire : fire c x e io with
        | error why =>
            rw [hfire] at h
            cases h
        | ok r =>
            obtain ⟨y, io₁⟩ := r
            rw [hfire] at h
            cases h
            obtain ⟨hctxs, hevents⟩ := fire_ctxs hfire
            refine ⟨fun c' e' => bitSet_of_set hx hctxs
              fun e'' he'' => has_of_has_erase (hevents ▸ he''), ?_⟩
            -- The context that is now in the table is the one with the bit erased.
            rintro - ⟨z, hz, hbit⟩
            rw [hctxs, List.getElem?_set_self (List.getElem?_eq_some_iff.mp hx).1,
              Option.some.injEq] at hz
            subst hz
            rw [hevents, has_erase] at hbit
            simp at hbit
  · simp only [hset, Bool.not_false, if_true] at h
    cases h
    refine ⟨fun _ _ hset' => hset', ?_⟩
    rintro - ⟨z, hz, hbit⟩
    rw [hx, Option.some.injEq] at hz
    exact hset (hz ▸ hbit)

theorem addEvent_bitSet {cb : Option Nat} {caller : Caller} {ctlOk : Bool} {rt : Int}
    (hx : io.ctxs[c]? = some x) (h : addEvent c x e cb caller ctlOk io = .ok (rt, io'))
    (hset : io'.bitSet c' e') : io.bitSet c' e' ∨ c' = c ∧ e' = e := by
  unfold addEvent at h
  dsimp only at h
  split at h
  · cases h
  · split at h
    · cases h
      exact Or.inl hset
    · split at h
      · cases h
      · split at h
        · cases h
        · cases h
          obtain ⟨y, hy, hbit⟩ := hset
          dsimp only at hy
          by_cases hc : c = c'
          · subst hc
            rw [List.getElem?_set_self (List.getElem?_eq_some_iff.mp hx).1,
              Option.some.injEq] at hy
            subst hy
            -- The other event of the context keeps its bit.
            by_cases he : e' = e
            · exact Or.inr ⟨rfl, he⟩
            · refine Or.inl ⟨x, hx, ?_⟩
              have hreg : ∀ ctx, (FdContext.setContext { x with events := x.events.insert e } e
                  ctx).events = x.events.insert e := events_register
              rw [hreg, has_insert] at hbit
              simpa [he] using hbit
          · rw [List.getElem?_set_ne hc] at hy
            exact Or.inl ⟨y, hy, hbit⟩

theorem delEvent_bitSet {ctlOk : Bool} (hx : io.ctxs[c]? = some x)
    (hset : (delEvent c x e ctlOk io).2.bitSet c' e') : io.bitSet c' e' := by
  unfold delEvent at hset
  split at hset
  · exact hset
  · split at hset
    · exact hset
    · refine bitSet_of_set hx rfl ?_ hset
      intro e'' he''
      have hreset : (FdContext.resetContext { x with events := x.events.erase e } e).events
          = x.events.erase e := by
        cases e <;> rfl
      rw [hreset] at he''
      exact has_of_has_erase he''

/-- A critical section that leaves the system running has returned. -/
theorem ofResult_running {batches batches' : Nat → List Entry} {r : Except Abort Table}
    (h : Sys.ofResult batches r = .running io' batches') : r = .ok io' := by
  cases r with
  | error why => cases h
  | ok io =>
      cases h
      rfl

/-- Only a registration for an event sets its bit. -/
theorem step_bitSet {batches batches' : Nat → List Entry} {a : Action}
    (hstep : step (.running io batches) a = some (.running io' batches'))
    (ha : ¬ a.Registers c e) (hset : io'.bitSet c e) : io.bitSet c e := by
  cases a with
  | newContext =>
      cases hstep
      obtain ⟨y, hy, hbit⟩ := hset
      rcases Nat.lt_or_ge c io.ctxs.length with hlt | hge
      · rw [List.getElem?_append_left hlt] at hy
        exact ⟨y, hy, hbit⟩
      · rw [List.getElem?_append_right hge] at hy
        rw [List.mem_singleton.mp (List.mem_of_getElem? hy)] at hbit
        cases e <;> cases hbit
  | addEvent c₁ e₁ cb caller ctlOk =>
      obtain ⟨x, hx, hres⟩ := Option.map_eq_some_iff.mp hstep
      have hok := ofResult_running hres
      cases hadd : addEvent c₁ x e₁ cb caller ctlOk io with
      | error why =>
          rw [hadd] at hok
          cases hok
      | ok r =>
          obtain ⟨rt, io₁⟩ := r
          rw [hadd] at hok
          cases hok
          rcases addEvent_bitSet hx hadd hset with hold | ⟨rfl, rfl⟩
          · exact hold
          · exact absurd ⟨rfl, rfl⟩ ha
  | delEvent c₁ e₁ ctlOk =>
      obtain ⟨x, hx, hres⟩ := Option.map_eq_some_iff.mp hstep
      cases hres
      exact delEvent_bitSet hx hset
  | cancelEvent c₁ e₁ ctlOk =>
      obtain ⟨x, hx, hres⟩ := Option.map_eq_some_iff.mp hstep
      have hok := ofResult_running hres
      cases hcancel : cancelEvent c₁ x e₁ ctlOk io with
      | error why =>
          rw [hcancel] at hok
          cases hok
      | ok r =>
          obtain ⟨done, io₁⟩ := r
          rw [hcancel] at hok
          cases hok
          exact (cancelEvent_bitSet hx hcancel).1 c e hset
  | epollWait t entries =>
      simp only [step] at hstep
      split at hstep
      · cases hstep
        exact hset
      · cases hstep
  | process t ctlOk =>
      simp only [step] at hstep
      split at hstep
      · cases hstep
      · obtain ⟨x, hx, hres⟩ := Option.map_eq_some_iff.mp hstep
        exact processEntry_bitSet hx (ofResult_running hres) hset

/-- A `cancelEvent` whose `epoll_ctl` succeeds leaves the bit clear. -/
theorem step_cancelEvent_clears {batches batches' : Nat → List Entry}
    (hstep : step (.running io batches) (.cancelEvent c e true) = some (.running io' batches')) :
    ¬ io'.bitSet c e := by
  obtain ⟨x, hx, hres⟩ := Option.map_eq_some_iff.mp hstep
  have hok := ofResult_running hres
  cases hcancel : cancelEvent c x e true io with
  | error why =>
      rw [hcancel] at hok
      cases hok
  | ok r =>
      obtain ⟨done, io₁⟩ := r
      rw [hcancel] at hok
      cases hok
      exact (cancelEvent_bitSet hx hcancel).2 rfl

end

end Sylar.IOManager
