import Sylar.Lib.Update
import Sylar.Spec.IOManager

/-!
# `Sylar.Proofs.IOManager.EventTable`: the event table over whole runs

`TableInv` is the invariant of the table, and `BatchInv` relates the table to the batches that
the threads still have to handle. A batch can be stale: a step of another thread may clear a bit
that an entry reports. `idle()` skips an entry that reports no registered event, so an entry that
reports one event alone is harmless. An entry that reports two events, of which one was cleared,
is not skipped, and `triggerEvent` is then called for the cleared one.
`event_table_stale_entry` is such a run.

`Guard` is the condition on a step under which this cannot happen. `event_table_invariant` is the
promise for every run of guarded steps.

`cancelAll` is no step of the system, because it never changes the table: it returns at once when an
event is registered, and otherwise it finds nothing to cancel (`cancelAll_table`).
-/

set_option autoImplicit false

namespace Sylar.IOManager

/-! ### One context -/

/-- The registrations of a context. -/
def FdContext.tickets (x : FdContext) : List Nat :=
  (if x.events.read then [x.read.ticket] else []) ++
    (if x.events.write then [x.write.ticket] else [])

/-- The context with the bit of `e` cleared and its slot replaced. -/
def FdContext.close (x : FdContext) (e : Event) (ctx : EventContext) : FdContext :=
  { x with events := x.events.erase e }.setContext e ctx

/-- The context with the bit of `e` set and its slot replaced. -/
def FdContext.register (x : FdContext) (e : Event) (ctx : EventContext) : FdContext :=
  { x with events := x.events.insert e }.setContext e ctx

/-- Nothing is stored in the slot. -/
def EventContext.Empty (ctx : EventContext) : Prop :=
  ctx.scheduler = none ∧ ctx.fiber = none ∧ ctx.cb = none

section
variable {x : FdContext} {e e' : Event} {ctx : EventContext}

@[simp] theorem events_close : (x.close e ctx).events = x.events.erase e := by
  cases e <;> rfl

@[simp] theorem events_register (ctx : EventContext) :
    (x.register e ctx).events = x.events.insert e := by
  cases e <;> rfl

theorem getContext_close :
    (x.close e ctx).getContext e' = if e' = e then ctx else x.getContext e' := by
  cases e <;> cases e' <;> rfl

theorem getContext_register :
    (x.register e ctx).getContext e' = if e' = e then ctx else x.getContext e' := by
  cases e <;> cases e' <;> rfl

theorem has_erase {m : Mask} : (m.erase e).has e' = (m.has e' && decide (e' ≠ e)) := by
  cases e <;> cases e' <;> simp [Mask.erase, Mask.has]

theorem has_insert {m : Mask} : (m.insert e).has e' = (m.has e' || decide (e' = e)) := by
  cases e <;> cases e' <;> simp [Mask.insert, Mask.has]

theorem length_tickets (x : FdContext) : x.tickets.length = x.bits := by
  unfold FdContext.tickets FdContext.bits
  cases x.events.read <;> cases x.events.write <;> rfl

/-- Closing a slot gives up its registration. -/
theorem tickets_close (h : x.events.has e = true) :
    x.tickets.Perm ([(x.getContext e).ticket] ++ (x.close e ctx).tickets) := by
  cases e with
  | read =>
      have hr : x.events.read = true := h
      simp only [FdContext.tickets, FdContext.close, FdContext.setContext, FdContext.getContext,
        Mask.erase, hr, if_true, Bool.false_eq_true, if_false, List.nil_append]
      exact List.Perm.refl _
  | write =>
      have hw : x.events.write = true := h
      simp only [FdContext.tickets, FdContext.close, FdContext.setContext, FdContext.getContext,
        Mask.erase, hw, if_true, Bool.false_eq_true, if_false, List.append_nil]
      exact List.perm_append_comm

/-- Registering adds the registration of the new slot. -/
theorem tickets_register (ctx : EventContext) (h : x.events.has e = false) :
    (x.register e ctx).tickets.Perm ([ctx.ticket] ++ x.tickets) := by
  cases e with
  | read =>
      have hr : x.events.read = false := h
      simp only [FdContext.tickets, FdContext.register, FdContext.setContext, Mask.insert, hr,
        if_true, Bool.false_eq_true, if_false, List.nil_append]
      exact List.Perm.refl _
  | write =>
      have hw : x.events.write = false := h
      simp only [FdContext.tickets, FdContext.register, FdContext.setContext, Mask.insert, hw,
        if_true, Bool.false_eq_true, if_false, List.append_nil]
      exact List.perm_append_comm

theorem slotOk_close (h : ∀ e', SlotOk x e') (hctx : ctx.Empty) (e' : Event) :
    SlotOk (x.close e ctx) e' := by
  have hold := h e'
  unfold SlotOk at hold ⊢
  simp only [events_close, has_erase, getContext_close]
  by_cases he : e' = e
  · simp only [he, ne_eq, not_true_eq_false, decide_false, Bool.and_false, Bool.false_eq_true,
      if_false, if_true]
    exact hctx
  · simp only [he, ne_eq, not_false_eq_true, decide_true, Bool.and_true, if_false]
    exact hold

theorem slotOk_register (h : ∀ e', SlotOk x e') (hsched : ctx.scheduler.isSome)
    (htask : ctx.fiber.isSome ∧ ctx.cb = none ∨ ctx.fiber = none ∧ ctx.cb.isSome) (e' : Event) :
    SlotOk (x.register e ctx) e' := by
  have hold := h e'
  unfold SlotOk at hold ⊢
  simp only [events_register, has_insert, getContext_register]
  by_cases he : e' = e
  · simp only [he, decide_true, Bool.or_true, if_true]
    exact ⟨hsched, htask⟩
  · simp only [he, decide_false, Bool.or_false, if_false]
    exact hold

/-- `triggerEvent` of a set bit closes the slot and schedules its registration. -/
theorem triggerEvent_ok (hslot : SlotOk x e) (h : x.events.has e = true) :
    ∃ items ctx, triggerEvent x e = .ok (items, x.close e ctx) ∧ ctx.Empty ∧
      items.map Scheduled.ticket = [(x.getContext e).ticket] := by
  unfold SlotOk at hslot
  simp only [h, if_true] at hslot
  obtain ⟨hsched, htask⟩ := hslot
  obtain ⟨s, hs⟩ := Option.isSome_iff_exists.mp hsched
  unfold triggerEvent
  simp only [h, if_true, hs]
  rcases htask with ⟨hfiber, hcb⟩ | ⟨hfiber, hcb⟩
  · obtain ⟨f, hf⟩ := Option.isSome_iff_exists.mp hfiber
    simp only [hcb, hf]
    exact ⟨_, _, rfl, ⟨rfl, rfl, rfl⟩, rfl⟩
  · obtain ⟨k, hk⟩ := Option.isSome_iff_exists.mp hcb
    simp only [hk]
    exact ⟨_, _, rfl, ⟨rfl, hfiber, rfl⟩, rfl⟩

end

/-! ### The table -/

/-- All registrations of the table. -/
def Table.registered (io : Table) : List Nat := io.ctxs.flatMap FdContext.tickets

/-- Every registration that was ever made and not given up by `delEvent`. -/
def Table.known (io : Table) : List Nat := io.registered ++ io.scheduled.map Scheduled.ticket

/-- The invariant of the table. The counter counts the registrations, and a registration is
either in the table or scheduled, once. -/
structure TableInv (io : Table) : Prop where
  slots : ∀ x ∈ io.ctxs, ∀ e, SlotOk x e
  count : io.pendingEventCount = io.registered.length
  nodup : io.known.Nodup
  known_lt : ∀ k ∈ io.known, k < io.nextTicket

section
variable {io : Table} {c : Nat} {x : FdContext} {e : Event}

/-- A slot is closed, and its registration is scheduled or dropped. -/
theorem TableInv.close (h : TableInv io) (hx : io.ctxs[c]? = some x) (he : x.events.has e = true)
    {ctx : EventContext} (hctx : ctx.Empty) {items : List Scheduled}
    (hitems : (items.map Scheduled.ticket).Sublist [(x.getContext e).ticket]) :
    TableInv { io with
      ctxs := io.ctxs.set c (x.close e ctx)
      scheduled := io.scheduled ++ items
      pendingEventCount := Lib.wrapPred io.pendingEventCount } := by
  have hmem : x ∈ io.ctxs := List.mem_of_getElem? hx
  have hperm : io.registered.Perm ([(x.getContext e).ticket] ++
      (io.ctxs.set c (x.close e ctx)).flatMap FdContext.tickets) :=
    Lib.flatMap_set_perm hx (tickets_close he)
  -- What is known afterwards is part of what was known before, up to order.
  have hsub : ∃ l, ((io.ctxs.set c (x.close e ctx)).flatMap FdContext.tickets ++
      (io.scheduled ++ items).map Scheduled.ticket).Perm l ∧ l.Sublist
        ([(x.getContext e).ticket] ++ ((io.ctxs.set c (x.close e ctx)).flatMap FdContext.tickets ++
          io.scheduled.map Scheduled.ticket)) := by
    refine ⟨_, ?_, List.Sublist.append_right hitems _⟩
    rw [List.map_append, ← List.append_assoc]
    exact List.perm_append_comm
  have hknown : io.known.Perm ([(x.getContext e).ticket] ++
      ((io.ctxs.set c (x.close e ctx)).flatMap FdContext.tickets ++
        io.scheduled.map Scheduled.ticket)) := by
    have hright := hperm.append_right (io.scheduled.map Scheduled.ticket)
    rwa [List.append_assoc] at hright
  obtain ⟨l, hl, hlsub⟩ := hsub
  refine ⟨?_, ?_, ?_, ?_⟩
  · intro y hy e'
    rcases List.mem_or_eq_of_mem_set hy with hold | rfl
    · exact h.slots y hold e'
    · exact slotOk_close (h.slots x hmem) hctx e'
  · have hlen := hperm.length_eq
    have hcount := h.count
    rw [List.length_append, List.length_singleton] at hlen
    show Lib.wrapPred io.pendingEventCount = _
    -- The registration that is given up was counted, so the counter does not wrap.
    rw [Lib.wrapPred_of_pos (by omega)]
    show io.pendingEventCount - 1
      = ((io.ctxs.set c (x.close e ctx)).flatMap FdContext.tickets).length
    omega
  · exact hl.nodup_iff.mpr ((hknown.nodup_iff.mp h.nodup).sublist hlsub)
  · intro k hk
    exact h.known_lt k (hknown.mem_iff.mpr (hlsub.subset (hl.mem_iff.mp hk)))

/-- A slot is filled with a new registration. -/
theorem TableInv.register (h : TableInv io) (hx : io.ctxs[c]? = some x)
    (he : x.events.has e = false) (ctx : EventContext) (hsched : ctx.scheduler.isSome)
    (htask : ctx.fiber.isSome ∧ ctx.cb = none ∨ ctx.fiber = none ∧ ctx.cb.isSome)
    (hticket : ctx.ticket = io.nextTicket) :
    TableInv { io with
      ctxs := io.ctxs.set c (x.register e ctx)
      pendingEventCount := io.pendingEventCount + 1
      nextTicket := io.nextTicket + 1 } := by
  have hmem : x ∈ io.ctxs := List.mem_of_getElem? hx
  obtain ⟨hc, hget⟩ := List.getElem?_eq_some_iff.mp hx
  -- Read backwards, the new table gives up the new registration.
  have hperm : ((io.ctxs.set c (x.register e ctx)).flatMap FdContext.tickets).Perm
      ([io.nextTicket] ++ io.registered) := by
    have hnew : (io.ctxs.set c (x.register e ctx))[c]? = some (x.register e ctx) :=
      List.getElem?_set_self hc
    have hback := Lib.flatMap_set_perm hnew (tickets_register ctx he)
    have hsame : io.ctxs.set c x = io.ctxs := by
      subst hget
      exact List.set_getElem_self hc
    rwa [List.set_set, hsame, hticket] at hback
  have hknown := hperm.append_right (io.scheduled.map Scheduled.ticket)
  rw [List.append_assoc] at hknown
  refine ⟨?_, ?_, ?_, ?_⟩
  · intro y hy e'
    rcases List.mem_or_eq_of_mem_set hy with hold | rfl
    · exact h.slots y hold e'
    · exact slotOk_register (h.slots x hmem) hsched htask e'
  · have hlen := hperm.length_eq
    have hcount := h.count
    rw [List.length_append, List.length_singleton] at hlen
    show io.pendingEventCount + 1
      = ((io.ctxs.set c (x.register e ctx)).flatMap FdContext.tickets).length
    omega
  · -- Every known ticket is below `nextTicket`, so the new one is not among them.
    refine hknown.nodup_iff.mpr (List.nodup_cons.mpr ⟨?_, h.nodup⟩)
    intro hold
    exact Nat.lt_irrefl _ (h.known_lt _ hold)
  · intro k hk
    show k < io.nextTicket + 1
    rcases List.mem_cons.mp (hknown.mem_iff.mp hk) with rfl | hold
    · exact Nat.lt_succ_self _
    · exact Nat.lt_succ_of_lt (h.known_lt k hold)

/-- A new context has no registration. -/
theorem TableInv.newContext (h : TableInv io) :
    TableInv { io with ctxs := io.ctxs ++ [({} : FdContext)] } := by
  have hreg : (io.ctxs ++ [({} : FdContext)]).flatMap FdContext.tickets = io.registered := by
    rw [List.flatMap_append]
    exact List.append_nil _
  refine ⟨?_, ?_, ?_, ?_⟩
  · intro y hy e
    rcases List.mem_append.mp hy with hold | hnew
    · exact h.slots y hold e
    · rw [List.mem_singleton.mp hnew]
      cases e <;> exact ⟨rfl, rfl, rfl⟩
  · show io.pendingEventCount = ((io.ctxs ++ [({} : FdContext)]).flatMap FdContext.tickets).length
    rw [hreg]
    exact h.count
  · show ((io.ctxs ++ [({} : FdContext)]).flatMap FdContext.tickets ++ _).Nodup
    rw [hreg]
    exact h.nodup
  · show ∀ k ∈ (io.ctxs ++ [({} : FdContext)]).flatMap FdContext.tickets ++ _, k < _
    rw [hreg]
    exact h.known_lt

/-- `triggerEvent` of a set bit and the decrement after it. -/
theorem fire_ok (h : TableInv io) (hx : io.ctxs[c]? = some x) (he : x.events.has e = true) :
    ∃ x' io', fire c x e io = .ok (x', io') ∧ TableInv io' ∧ io'.ctxs = io.ctxs.set c x' ∧
      x'.events = x.events.erase e := by
  have hslot := h.slots x (List.mem_of_getElem? hx) e
  obtain ⟨items, ctx, htrig, hctx, hitems⟩ := triggerEvent_ok hslot he
  refine ⟨x.close e ctx, _, ?_, h.close hx he hctx (by rw [hitems]), rfl, events_close⟩
  unfold fire
  rw [htrig]
  rfl

end

/-! ### The batches -/

/-- The entry reports `e` and nothing else. -/
def Entry.Alone (entry : Entry) (e : Event) : Prop :=
  entry.errHup = false ∧ entry.events = Mask.insert {} e

/-- Every entry of the context `c` that is still to be handled and reports `e` reports it
alone. -/
def ReportedAlone (batches : Nat → List Entry) (c : Nat) (e : Event) : Prop :=
  ∀ t, ∀ entry ∈ batches t, entry.ctx = c → entry.events.has e = true → entry.Alone e

/-- An entry reports registered events, or one event alone. -/
def BatchInv (ctxs : List FdContext) (batches : Nat → List Entry) : Prop :=
  ∀ t, ∀ entry ∈ batches t, ∃ x, ctxs[entry.ctx]? = some x ∧
    ∀ e, entry.events.has e = true → x.events.has e = true ∨ entry.Alone e

section
variable {ctxs : List FdContext} {batches : Nat → List Entry} {c : Nat} {x x' : FdContext}

/-- A context is replaced, and keeps the bits that some entry relies on. -/
theorem BatchInv.set (h : BatchInv ctxs batches) (hx : ctxs[c]? = some x)
    (hkeep : ∀ e, x.events.has e = true → x'.events.has e = true ∨ ReportedAlone batches c e) :
    BatchInv (ctxs.set c x') batches := by
  intro t entry hentry
  obtain ⟨y, hy, hrep⟩ := h t entry hentry
  by_cases hc : entry.ctx = c
  · have hlt : c < ctxs.length := (List.getElem?_eq_some_iff.mp hx).1
    rw [hc, hx, Option.some.injEq] at hy
    subst hy
    refine ⟨x', by rw [hc, List.getElem?_set_self hlt], ?_⟩
    intro e he
    rcases hrep e he with hset | halone
    · rcases hkeep e hset with hset' | halone
      · exact Or.inl hset'
      · exact Or.inr (halone t entry hentry hc he)
    · exact Or.inr halone
  · exact ⟨y, by rw [List.getElem?_set_ne (Ne.symm hc)]; exact hy, hrep⟩

theorem BatchInv.newContext (h : BatchInv ctxs batches) :
    BatchInv (ctxs ++ [({} : FdContext)]) batches := by
  intro t entry hentry
  obtain ⟨y, hy, hrep⟩ := h t entry hentry
  have hlt : entry.ctx < ctxs.length := (List.getElem?_eq_some_iff.mp hy).1
  exact ⟨y, by rw [List.getElem?_append_left hlt]; exact hy, hrep⟩

/-- A thread takes the first entry of its batch. -/
theorem BatchInv.tail (h : BatchInv ctxs batches) {t : Nat} {entry : Entry} {rest : List Entry}
    (hbatch : batches t = entry :: rest) : BatchInv ctxs (Function.update batches t rest) := by
  intro t' entry' hentry'
  by_cases ht : t' = t
  · subst ht
    rw [Function.update_self] at hentry'
    exact h t' entry' (hbatch ▸ List.mem_cons_of_mem _ hentry')
  · rw [Function.update_of_ne ht] at hentry'
    exact h t' entry' hentry'

/-- A new batch reports registered events. -/
theorem BatchInv.epollWait {io : Table} (h : BatchInv io.ctxs batches) {t : Nat}
    {entries : List Entry} (hrep : entries.all (·.reportable io) = true) :
    BatchInv io.ctxs (Function.update batches t entries) := by
  intro t' entry hentry
  by_cases ht : t' = t
  · subst ht
    rw [Function.update_self] at hentry
    have hone := List.all_eq_true.mp hrep entry hentry
    unfold Entry.reportable at hone
    split at hone
    · cases hone
    · next y hy =>
      refine ⟨y, hy, ?_⟩
      intro e he
      cases e <;> simp_all [Mask.has]
  · rw [Function.update_of_ne ht] at hentry
    exact h t' entry hentry

/-- An entry that is not skipped has only registered real events. This is where an entry that
reports two events needs both of them. -/
theorem realEvents_registered {entry : Entry}
    (hrep : ∀ e, entry.events.has e = true → x.events.has e = true ∨ entry.Alone e)
    (hmeet : x.events.disjoint (realEvents x entry) = false) (e : Event)
    (he : (realEvents x entry).has e = true) : x.events.has e = true := by
  by_cases hreport : entry.events.has e = true
  · rcases hrep e hreport with hset | ⟨herr, hone⟩
    · exact hset
    · -- The entry is `e` alone, so the event that the two sets share is `e`.
      unfold realEvents at hmeet
      rw [herr, hone] at hmeet
      cases e <;> simp_all [Mask.disjoint, Mask.insert, Mask.has]
  · unfold realEvents at he
    split at he
    · cases e <;> simp_all [Mask.union, Mask.has]
    · exact absurd he hreport

end

/-! ### Steps -/

/-- The invariant of a running system. -/
structure RunInv (io : Table) (batches : Nat → List Entry) : Prop where
  table : TableInv io
  batch : BatchInv io.ctxs batches

section
variable {io : Table} {batches : Nat → List Entry} {c : Nat} {x : FdContext} {e : Event}

/-- Clearing a bit keeps the batches, if the entries that report it do so alone. -/
theorem BatchInv.erase {ctxs : List FdContext} {x' : FdContext} (h : BatchInv ctxs batches)
    (hx : ctxs[c]? = some x) (hevents : x'.events = x.events.erase e)
    (halone : ReportedAlone batches c e) : BatchInv (ctxs.set c x') batches := by
  refine h.set hx ?_
  intro e' he'
  by_cases hee : e' = e
  · exact Or.inr (hee ▸ halone)
  · refine Or.inl ?_
    rw [hevents, has_erase, he']
    simpa using hee

/-- One of the two conditional triggers of the batch loop. -/
theorem fireIf_ok (h : RunInv io batches) (hx : io.ctxs[c]? = some x) {real : Mask}
    (hset : real.has e = true → x.events.has e = true)
    (halone : real.has e = true → ReportedAlone batches c e) :
    ∃ x' io', fireIf real c x e io = .ok (x', io') ∧ RunInv io' batches ∧
      io'.ctxs[c]? = some x' ∧ ∀ e', e' ≠ e → x'.events.has e' = x.events.has e' := by
  unfold fireIf
  by_cases hreal : real.has e = true
  · obtain ⟨x', io', hfire, htable, hctxs, hevents⟩ := fire_ok h.table hx (hset hreal)
    have hlt : c < io.ctxs.length := (List.getElem?_eq_some_iff.mp hx).1
    rw [if_pos hreal]
    refine ⟨x', io', hfire, ⟨htable, ?_⟩, ?_, ?_⟩
    · rw [hctxs]
      exact h.batch.erase hx hevents (halone hreal)
    · rw [hctxs, List.getElem?_set_self hlt]
    · intro e' he'
      rw [hevents, has_erase]
      simp [he']
  · rw [if_neg hreal]
    exact ⟨x, io, rfl, h, hx, fun _ _ => rfl⟩

/-- The triggers of one entry, when all its events are registered. -/
theorem fireAll_ok (h : RunInv io batches) (hx : io.ctxs[c]? = some x) {real : Mask}
    (hset : ∀ e, real.has e = true → x.events.has e = true)
    (halone : ∀ e, real.has e = true → ReportedAlone batches c e) :
    ∃ io', fireAll c x real io = .ok io' ∧ RunInv io' batches := by
  obtain ⟨x₁, io₁, hrun₁, h₁, hx₁, hsame⟩ := fireIf_ok h hx (hset .read) (halone .read)
  -- The trigger of `READ` leaves the bit of `WRITE` as it is.
  have hset₁ : real.has .write = true → x₁.events.has .write = true := by
    intro hw
    rw [hsame .write (by decide)]
    exact hset .write hw
  obtain ⟨x₂, io₂, hrun₂, h₂, -, -⟩ := fireIf_ok h₁ hx₁ hset₁ (halone .write)
  refine ⟨io₂, ?_, h₂⟩
  unfold fireAll
  simp only [hrun₁, hrun₂, Except.bind, bind, pure, Except.pure]

/-- The condition on a step. `addEvent` is called on a thread with a scheduler. A step that
clears a bit is taken when every other entry still to be handled that reports the bit reports it
alone. -/
def Guard : Sys → Action → Prop
  | .running _ _, .addEvent _ _ _ caller _ => caller.scheduler.isSome
  | .running _ batches, .delEvent c e _ => ReportedAlone batches c e
  | .running _ batches, .cancelEvent c e _ => ReportedAlone batches c e
  | .running io batches, .process t _ =>
    ∀ entry rest x, batches t = entry :: rest → io.ctxs[entry.ctx]? = some x →
      ∀ e, x.events.has e = true → (realEvents x entry).has e = true →
        ReportedAlone (Function.update batches t rest) entry.ctx e
  | _, _ => True

/-- The invariant of the system. -/
def SysInv : Sys → Prop
  | .running io batches => RunInv io batches
  | .aborted why => why = .eventSet ∨ why = .fiberNotExec

theorem addEvent_inv (h : RunInv io batches) (hx : io.ctxs[c]? = some x) (cb : Option Nat)
    {caller : Caller} (hsched : caller.scheduler.isSome) (ctlOk : Bool) :
    SysInv (.ofResult batches ((addEvent c x e cb caller ctlOk io).map Prod.snd)) := by
  unfold addEvent
  by_cases hset : x.events.has e = true
  · simp only [hset, if_true]
    exact Or.inl rfl
  · -- The bit is clear, so the slot is empty and the second assertion of `addEvent` holds.
    have hclear : x.events.has e = false := by simpa using hset
    have hslot := h.table.slots x (List.mem_of_getElem? hx) e
    unfold SlotOk at hslot
    simp only [hclear, Bool.false_eq_true, if_false] at hslot
    obtain ⟨hs, hf, hc⟩ := hslot
    simp only [hclear, Bool.false_eq_true, if_false, hs, hf, hc, Option.isSome_none,
      Bool.or_self]
    split
    · exact h
    · split
      · exact Or.inr rfl
      · -- The slot is filled with the fiber or with the callback.
        refine ⟨h.table.register hx hclear ⟨caller.scheduler, _, cb, io.nextTicket⟩ hsched ?_ rfl,
          ?_⟩
        · cases cb with
          | none => exact Or.inl ⟨rfl, rfl⟩
          | some k => exact Or.inr ⟨rfl, rfl⟩
        · refine h.batch.set hx ?_
          intro e' he'
          refine Or.inl ?_
          rw [show ∀ ctx, (FdContext.setContext { x with events := x.events.insert e } e ctx).events
            = x.events.insert e from events_register, has_insert, he']
          rfl

theorem delEvent_inv (h : RunInv io batches) (hx : io.ctxs[c]? = some x)
    (halone : ReportedAlone batches c e) (ctlOk : Bool) :
    RunInv (delEvent c x e ctlOk io).2 batches := by
  unfold delEvent
  by_cases hset : x.events.has e = true
  · simp only [hset, Bool.not_true, Bool.false_eq_true, if_false]
    split
    · exact h
    · have hempty : EventContext.Empty
          { x.getContext e with scheduler := none, fiber := none, cb := none } := ⟨rfl, rfl, rfl⟩
      -- `delEvent` gives the registration up and schedules nothing for it.
      have hnone : (([] : List Scheduled).map Scheduled.ticket).Sublist
          [(x.getContext e).ticket] := List.nil_sublist _
      have hclose := h.table.close hx hset hempty hnone
      rw [List.append_nil] at hclose
      have hreset : FdContext.resetContext { x with events := x.events.erase e } e
          = x.close e { x.getContext e with scheduler := none, fiber := none, cb := none } := by
        cases e <;> rfl
      simp only [hreset]
      exact ⟨hclose, h.batch.erase hx events_close halone⟩
  · simp only [hset, Bool.not_false, if_true]
    exact h

theorem cancelEvent_inv (h : RunInv io batches) (hx : io.ctxs[c]? = some x)
    (halone : ReportedAlone batches c e) (ctlOk : Bool) :
    SysInv (.ofResult batches ((cancelEvent c x e ctlOk io).map Prod.snd)) := by
  unfold cancelEvent
  by_cases hset : x.events.has e = true
  · simp only [hset, Bool.not_true, Bool.false_eq_true, if_false]
    split
    · exact h
    · obtain ⟨x', io', hfire, htable, hctxs, hevents⟩ := fire_ok h.table hx hset
      rw [hfire]
      refine ⟨htable, ?_⟩
      rw [hctxs]
      exact h.batch.erase hx hevents halone
  · simp only [hset, Bool.not_false, if_true]
    exact h

theorem processEntry_inv (h : RunInv io batches) {entry : Entry}
    (hx : io.ctxs[entry.ctx]? = some x)
    (hrep : ∀ e, entry.events.has e = true → x.events.has e = true ∨ entry.Alone e)
    (halone : ∀ e, x.events.has e = true → (realEvents x entry).has e = true →
      ReportedAlone batches entry.ctx e) (ctlOk : Bool) :
    SysInv (.ofResult batches (processEntry x entry ctlOk io)) := by
  unfold processEntry
  by_cases hmeet : x.events.disjoint (realEvents x entry) = true
  · simp only [hmeet, if_true]
    exact h
  · have hset := realEvents_registered hrep (by simpa using hmeet)
    simp only [hmeet, Bool.false_eq_true, if_false]
    split
    · exact h
    · obtain ⟨io', hfire, h'⟩ := fireAll_ok h hx hset fun e he => halone e (hset e he) he
      rw [hfire]
      exact h'

end

/-- One guarded step keeps the invariant. -/
theorem step_inv {s s' : Sys} {a : Action} (h : SysInv s) (hg : Guard s a)
    (hstep : step s a = some s') : SysInv s' := by
  cases s with
  | aborted why => cases hstep
  | running io batches =>
      cases a with
      | newContext =>
          cases hstep
          exact ⟨h.table.newContext, h.batch.newContext⟩
      | addEvent c e cb caller ctlOk =>
          obtain ⟨x, hx, rfl⟩ := Option.map_eq_some_iff.mp hstep
          exact addEvent_inv h hx cb hg ctlOk
      | delEvent c e ctlOk =>
          obtain ⟨x, hx, rfl⟩ := Option.map_eq_some_iff.mp hstep
          exact delEvent_inv h hx hg ctlOk
      | cancelEvent c e ctlOk =>
          obtain ⟨x, hx, rfl⟩ := Option.map_eq_some_iff.mp hstep
          exact cancelEvent_inv h hx hg ctlOk
      | epollWait t entries =>
          simp only [step] at hstep
          split at hstep
          · next hok =>
            cases hstep
            simp only [Bool.and_eq_true] at hok
            exact ⟨h.table, h.batch.epollWait hok.1.2⟩
          · cases hstep
      | process t ctlOk =>
          simp only [step] at hstep
          split at hstep
          · cases hstep
          · next entry rest hbatch =>
            obtain ⟨x, hx, rfl⟩ := Option.map_eq_some_iff.mp hstep
            obtain ⟨y, hy, hrep⟩ := h.batch t entry (hbatch ▸ List.mem_cons_self)
            rw [hx, Option.some.injEq] at hy
            subst hy
            -- The entry leaves the batch before it is handled.
            exact processEntry_inv ⟨h.table, h.batch.tail hbatch⟩ hx hrep
              (hg entry rest x hbatch hx) ctlOk

theorem sysInv_init : SysInv init := by
  refine ⟨⟨?_, rfl, List.nodup_nil, ?_⟩, ?_⟩
  · intro x hx
    cases hx
  · intro k hk
    cases hk
  · intro t entry hentry
    cases hentry

/-- The invariant contains the promise. -/
theorem eventTableOk_of_inv {s : Sys} (h : SysInv s) : EventTableOk s := by
  cases s with
  | running io batches =>
      refine ⟨?_, h.table.slots, h.table.nodup.of_append_right⟩
      have hbits : FdContext.bits = fun x => x.tickets.length :=
        funext fun x => (length_tickets x).symm
      rw [h.table.count, hbits]
      exact List.length_flatMap
  | aborted why =>
      rcases h with rfl | rfl
      · exact ⟨by decide, by decide⟩
      · exact ⟨by decide, by decide⟩

/-- A thread of the scheduler `0` that runs the fiber `7`. -/
def worker : Caller := ⟨some 0, 7, true⟩

section
variable {io : Table} {c : Option Nat} {i : Nat} {x : FdContext} {ctlOk : Bool}

theorem cancelAll_of_events (hx : io.ctxs[i]? = some x) (hne : x.events ≠ {}) :
    cancelAll (some i) ctlOk io = .ok (false, io) := by
  have hset : (x.events.read || x.events.write) = true := by
    rw [← Bool.not_eq_false, Bool.or_eq_false_iff]
    rintro ⟨hr, hw⟩
    exact hne (congrArg₂ Mask.mk hr hw)
  simp only [cancelAll, Option.bind_some, hx, Option.map_some, hset, if_true]

theorem cancelAll_of_none (hx : io.ctxs[i]? = some x) (hnone : x.events = {}) :
    cancelAll (some i) ctlOk io = .ok (ctlOk, io) := by
  have hfire : ∀ e, fireIf x.events i x e io = .ok (x, io) := by
    intro e
    rw [fireIf, hnone]
    cases e <;> rfl
  have hbits : (x.events.read || x.events.write) = false := by rw [hnone]; rfl
  simp only [cancelAll, Option.bind_some, hx, Option.map_some, hbits, Bool.false_eq_true, if_false]
  cases ctlOk with
  | false => rfl
  | true =>
      simp only [Bool.not_true, Bool.false_eq_true, if_false, hfire, bind, Except.bind, hbits]
      rfl

/-- `cancelAll` leaves the table as it is. -/
theorem cancelAll_table : ∃ b, cancelAll c ctlOk io = .ok (b, io) := by
  cases hfind : c.bind fun i => (io.ctxs[i]?).map fun x => (i, x) with
  | none => exact ⟨false, by rw [cancelAll, hfind]⟩
  | some y =>
      obtain ⟨i, rfl, hi⟩ := Option.bind_eq_some_iff.mp hfind
      obtain ⟨x, hx, -⟩ := Option.map_eq_some_iff.mp hi
      by_cases hnone : x.events = {}
      · exact ⟨_, cancelAll_of_none hx hnone⟩
      · exact ⟨_, cancelAll_of_events hx hnone⟩

/-- `cancelAll` keeps its promise only where it has nothing to do: on a descriptor without a context,
and when `epoll_ctl` fails. Registered events make it return before it cancels them, and without any
it returns true. -/
theorem cancelsAll_iff (c : Option Nat) (ctlOk : Bool) (io : Table) :
    CancelsAll c ctlOk io ↔
      (∀ i x, c = some i → io.ctxs[i]? ≠ some x) ∨ ctlOk = false := by
  constructor
  · rintro ⟨hsome, hnone⟩
    by_contra hcond
    push Not at hcond
    obtain ⟨⟨i, x, rfl, hx⟩, hctl⟩ := hcond
    rw [ne_eq, Bool.not_eq_false] at hctl
    subst hctl
    by_cases hev : x.events = {}
    · have hfalse := hnone (Or.inl fun j y hj hy => ?_)
      · rw [cancelAll_of_none hx hev] at hfalse
        cases hfalse
      · cases hj
        rw [hx] at hy
        cases hy
        exact hev
    · obtain ⟨io', x', htrue, -⟩ := hsome i x rfl hx hev rfl
      rw [cancelAll_of_events hx hev] at htrue
      cases htrue
  · intro hcond
    refine ⟨fun i x hc hx _ hctl => ?_, fun _ => ?_⟩
    · rcases hcond with hfind | hfalse
      · exact absurd hx (hfind i x hc)
      · rw [hctl] at hfalse
        cases hfalse
    · cases c with
      | none => rfl
      | some i =>
          cases hx : io.ctxs[i]? with
          | none =>
              rw [cancelAll, Option.bind_some, hx]
              rfl
          | some x =>
              have hctl : ctlOk = false := hcond.resolve_left fun h => h i x rfl hx
              by_cases hev : x.events = {}
              · rw [cancelAll_of_none hx hev, hctl]
              · exact cancelAll_of_events hx hev

end

/-- A fiber waits for `READ`. `cancelAll` returns false and leaves it waiting, although `epoll_ctl`
would succeed. -/
theorem cancelAll_waiter_left :
    ∃ io batches, Lib.exec step init [.newContext, .addEvent 0 .read none worker true] =
        some (.running io batches) ∧
      cancelAll (some 0) true io = .ok (false, io) ∧ io.scheduled = [] ∧
      ¬ CancelsAll (some 0) true io := by
  refine ⟨_, _, rfl, rfl, rfl, ?_⟩
  intro h
  obtain ⟨io', x', htrue, -⟩ := h.1 0 _ rfl rfl (by decide) rfl
  cases htrue

end Sylar.IOManager
