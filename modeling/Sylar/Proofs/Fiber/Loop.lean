import Sylar.Proofs.Fiber.Tasks

/-!
# `Sylar.Proofs.Fiber.Loop`: what `run()` does with the fibers

`run()` takes an item, swaps in a fiber, and looks at its state when the `swapIn` has returned.
-/

set_option autoImplicit false

namespace Sylar.Fibers

open Scheduler (FiberState)

section
variable {u : Bool} {t t' : Thread} {f g : Nat} {x : Fiber} {b : Branch}

/-! ### At the head of the loop -/

/-- `cb_fiber` is spent. -/
def SpentAll (t : Thread) : Prop := ∀ k z, t.cbFiber = some k → t.heap k = some z → Spent z

theorem Inv.spentAll (hI : Inv u t) (hH : AtHost u t .top) : SpentAll t :=
  fun _ _ hk hz => hI.spent_of_atHost hH hk hz (by intro h; cases h)

theorem AtHost.parked (hH : AtHost u t .top) (hlt : host u < f) : t.mode f = .parked := by
  refine mode_parked (hH.stack_ne hlt) ?_
  rw [hH.control]
  intro b h
  cases h

/-- A pointer has gone, at the head of the loop. -/
theorem Base.releaseTop (hB : Base u t) (hH : AtHost u t .top) (hft : t.ft = none)
    (hlt : host u < f) (hx : t.heap f = some x)
    (hL : ∀ k z, k ≠ f → t.heap k = some z → 0 < t.useCount k) (hS : SpentAll t)
    (hC : Ledger t) : Safe u (Fibers.release t f) := by
  obtain ⟨t', ht', hB', hL', hK, hf, hC'⟩ := hB.release hL hlt hx (Or.inl (hH.parked hlt))
  have hH' := hH.kept hK hlt
  refine ⟨t', ht', ⟨hB', hL', ?_, .looping hH' (hK.ft.trans hft), hC' hC⟩,
    by rw [hH'.control]; rintro ⟨⟩⟩
  intro k z hk hz
  rw [hK.cbFiber] at hk
  refine Or.inl (hS k z hk ?_)
  by_cases hkf : k = f
  · subst hkf
    exact (hf hk).symm.trans hz
  · exact (hK.heap k hkf).symm.trans hz

/-! ### Items -/

/-- The pointer of an item is moved to `ft`. -/
def taken (t : Thread) (f : Nat) : Thread :=
  { t with handles := Function.update t.handles f (t.handles f - 1), ft := some f }

theorem Inv.taken (hI : Inv u t) (hft : t.ft = none) (hpos : 0 < t.handles f) :
    Base u (taken t f) ∧ Live (taken t f) := by
  have hB := hI.base
  have hlt := hB.handles f hpos
  obtain ⟨x, hx⟩ := hB.exists_of_handle hpos
  have hne : ∀ {k}, k ≠ f → (Fibers.taken t f).handles k = t.handles k :=
    fun hk => Function.update_of_ne hk ..
  have hxne : ∀ {k}, t.heap k = none → k ≠ f := by
    rintro k hk rfl
    rw [hx] at hk
    cases hk
  refine ⟨hB.repoint rfl rfl rfl rfl rfl rfl rfl ?_ ?_ ?_ hB.idleNe, ?_⟩
  · intro k hk hn
    have hkf := hxne hk
    exact ⟨(hne hkf).trans hn.1, fun h => hkf (Option.some.inj h).symm, hn.3, hn.4, hn.5, hn.6⟩
  · intro k hk
    by_cases hkf : k = f
    · exact hkf ▸ hlt
    · exact hB.handles k (by rwa [← hne hkf])
  · rintro k (h | h | h)
    · exact Or.inr (Option.some.inj h ▸ hlt)
    · exact Or.inl (Or.inr (Or.inl h))
    · exact Or.inl (Or.inr (Or.inr h))
  · intro k z hz
    by_cases hkf : k = f
    · subst hkf
      exact useCount_pos fun hn => hn.ft rfl
    · refine useCount_congr (t := t) ?_ rfl (hI.live k z hz)
      exact fun h => ⟨(hne hkf).symm.trans h.1, by rw [hft]; rintro ⟨⟩, h.3, h.4, h.5, h.6⟩

/-- `ft` is reset. -/
theorem Base.clearFt (hB : Base u t) : Base u { t with ft := none } := by
  refine hB.repoint rfl rfl rfl rfl rfl rfl rfl ?_ hB.handles ?_ hB.idleNe
  · exact fun k _ hn => ⟨hn.1, by rintro ⟨⟩, hn.3, hn.4, hn.5, hn.6⟩
  · rintro k (h | h | h)
    · cases h
    · exact Or.inl (Or.inr (Or.inl h))
    · exact Or.inl (Or.inr (Or.inr h))

theorem Live.clearFt (hL : Live t) (hft : t.ft = some f) {k : Nat} {z : Fiber} (hk : k ≠ f)
    (hz : t.heap k = some z) : 0 < ({ t with ft := none } : Thread).useCount k := by
  refine useCount_congr (t := t) ?_ rfl (hL k z hz)
  refine fun h => ⟨h.1, ?_, h.3, h.4, h.5, h.6⟩
  rw [hft]
  exact fun h => hk (Option.some.inj h).symm

/-- A parked task is behind its last switch when it has finished. -/
theorem Task.past_iff (hT : Task .parked f x) :
    x.ctx.point = .past ↔ x.state = .term ∨ x.state = .except := by
  have hstate := hT.state
  revert hstate
  cases x.ctx.point <;> cases x.state <;> simp [stateAt]

theorem Task.ne_past (hT : Task .parked f x) (h : ¬ x.state.finished = true) :
    x.ctx.point ≠ .past := by
  intro hp
  rcases hT.past_iff.mp hp with hs | hs <;> exact h (by rw [hs]; rfl)

theorem enter_safe {r : Except Abort Thread} (hp : x.ctx.point ≠ .past)
    (h : ∃ t', r = .ok t' ∧ Inv u t' ∧ t'.control = x.ctx) : Safe u r := by
  obtain ⟨t', ht', hI', hc⟩ := h
  exact ⟨t', ht', hI', by rw [hc]; exact hp⟩

theorem Inv.takeFiber (hI : Inv u t) (hp : t.control.point = .top) (hpos : 0 < t.handles f)
    (hstate : (t.heap f).all (fun x => x.state != .exec) = true) :
    Safe u (takeFiber t f) := by
  obtain ⟨hH, hft⟩ := hI.at_top hp
  obtain ⟨hB, hL⟩ := hI.taken hft hpos
  have hlt := hI.base.handles f hpos
  have hS : SpentAll t := hI.spentAll hH
  obtain ⟨x, hx⟩ := hI.base.exists_of_handle hpos
  have hH₁ : AtHost u (Fibers.taken t f) .top := ⟨hH.1, hH.2, hH.3, hH.4⟩
  have hx₁ : (Fibers.taken t f).heap f = some x := hx
  rw [hx] at hstate
  have hne : x.state ≠ .exec := by simpa using hstate
  rw [Fibers.takeFiber]
  show Safe u ((Fibers.taken t f).deref f >>= _)
  rw [deref_eq hx₁, ok_bind]
  by_cases hfin : x.state.finished = true
  · rw [if_pos hfin]
    exact hB.clearFt.releaseTop ⟨hH.1, hH.2, hH.3, hH.4⟩ rfl hlt hx₁
      (fun k z hk hz => hL.clearFt rfl hk hz) hS hI.led
  · rw [if_neg hfin]
    have hT : Task .parked f x := hH.parked hlt ▸ hI.base.waiting hlt (hH.stack_ne hlt) hx
    refine enter_safe (hT.ne_past hfin)
      (Inv.enter hB hL hI.led hH₁ hlt hx₁ hne rfl (fun k z hk _ hz => hS k z hk hz) ?_)
    -- As `cb_fiber` it is spent, and it has not finished: it has no callback.
    intro hk _
    obtain ⟨hr, hinit⟩ := hS f x hk hx
    refine hinit ?_
    simp only [restartable, Bool.or_eq_true, beq_iff_eq] at hr
    exact hr.resolve_left hfin

/-- `cb_fiber` is made. -/
theorem Inv.takeCb_new (hI : Inv u t) (hH : AtHost u t .top) (hft : t.ft = none)
    (hcb : t.cbFiber = none) : Safe u (takeCb t) := by
  have hB := hI.base
  have hnone : t.heap t.next = none := hB.fresh _ le_rfl
  have hr := hB.dead _ hnone
  have hself : (newFiber t false).heap t.next = some ⟨t.fiberId + 1, .init, true,
      some t.nextCb, ⟨t.next, .entry false⟩, none, 0⟩ := Function.update_self ..
  have hH₁ : AtHost u (newFiber t false) .top := hH.kept (f := t.next)
    ⟨fun k hk => heap_newFiber_of_ne hk, rfl, rfl, rfl, rfl, rfl⟩ hB.hostLt
  have hB₁ : Base u { newFiber t false with cbFiber := some t.next } := by
    refine (hB.newFiber hI.mode_next).repoint rfl rfl rfl rfl rfl rfl rfl ?_ hB.handles ?_ ?_
    · intro k hk hn
      refine ⟨hn.1, hn.2, ?_, hn.4, hn.5, hn.6⟩
      intro h
      cases h
      rw [hself] at hk
      cases hk
    · rintro k (h | h | h)
      · exact Or.inl (Or.inl h)
      · exact Or.inr (Option.some.inj h ▸ hB.hostLt)
      · exact Or.inl (Or.inr (Or.inr h))
    · intro k hk
      cases hk
      exact hr.idleFiber
  have hL₁ : Live { newFiber t false with cbFiber := some t.next } := by
    intro k z hz
    by_cases hkn : k = t.next
    · subst hkn
      exact useCount_pos fun hn => hn.cbFiber rfl
    · have hz' : t.heap k = some z := (heap_newFiber_of_ne hkn).symm.trans hz
      refine useCount_congr (t := t) ?_ (heap_newFiber_of_ne hkn) (hI.live k z hz')
      exact fun h => ⟨h.1, h.2, by rw [hcb]; rintro ⟨⟩, h.4, h.5, h.6⟩
  have hC₁ : Ledger (newFiber t false) := hI.led.newFiber hnone hI.mode_next
  simp only [takeCb, hcb]
  refine enter_safe ?_ (Inv.enter hB₁ hL₁ hC₁ ⟨hH₁.1, hH₁.2, hH₁.3, hH₁.4⟩ hB.hostLt hself
    (by rintro ⟨⟩) ⟨hft, rfl⟩ ?_ fun _ h => absurd rfl h)
  · rintro ⟨⟩
  intro k z hk hkn
  exact absurd (Option.some.inj hk).symm hkn

theorem reset_eq {c : Option Nat} (hx : t.heap f = some x) (hs : x.stack = true)
    (hr : restartable x.state = true) :
    reset t f c
      = .ok (t.set f { x with cb := c, ctx := ⟨f, .entry false⟩, state := .init }) := by
  rw [reset, deref_eq hx, ok_bind]
  simp only [hs, hr, Bool.not_true, Bool.or_self, Bool.false_eq_true, if_false, modify_eq hx]

/-- A parked task that can be reset has nothing in its frames. -/
theorem Task.frames_of_restartable (hT : Task .parked f x) (hr : restartable x.state = true) :
    x.frames = 0 ∧ x.cur = none := by
  have hframe := hT.frame
  have hstate := hT.state
  revert hframe hstate hr
  cases x.ctx.point with
  | entry c =>
    cases c with
    | false => simp +contextual [frameAt]
    | true => simp [frameAt]
  | callback c => cases x.state <;> simp [stateAt, restartable, FiberState.finished]
  | past => simp +contextual [frameAt]
  | _ => simp [frameAt]

/-- `cb_fiber` gets another callback. -/
def rearmed (t : Thread) (g : Nat) (x : Fiber) : Thread :=
  ({ t with nextCb := t.nextCb + 1 } : Thread).set g
    { x with cb := some t.nextCb, ctx := ⟨g, .entry false⟩, state := .init }

/-- `cb_fiber` is used again. -/
theorem Inv.takeCb_reset (hI : Inv u t) (hH : AtHost u t .top) (hft : t.ft = none)
    (hcb : t.cbFiber = some g) : Safe u (takeCb t) := by
  have hB := hI.base
  have hlt := hB.locals g (Or.inr (Or.inl hcb))
  obtain ⟨x, hx⟩ := hB.exists_of_ref (IsLocal.not_noRef (Or.inr (Or.inl hcb)))
  obtain ⟨hr, hspent⟩ := hI.spentAll hH g x hcb hx
  have hT : Task .parked g x := hH.parked hlt ▸ hB.waiting hlt (hH.stack_ne hlt) hx
  obtain ⟨hframes, hcur⟩ := hT.frames_of_restartable hr
  have hself : (rearmed t g x).heap g = some
      { x with cb := some t.nextCb, ctx := ⟨g, .entry false⟩, state := .init } := heap_set_self
  have hne : ∀ k, k ≠ g → (rearmed t g x).heap k = t.heap k := fun k hk => heap_set_of_ne hk
  have hH₁ : AtHost u (rearmed t g x) .top :=
    hH.kept (f := g) ⟨hne, rfl, rfl, rfl, rfl, rfl⟩ hlt
  have hB₁ : Base u (rearmed t g x) := by
    refine hB.change (g := g) rfl rfl (isSome_set (t := { t with nextCb := t.nextCb + 1 }) hx)
      hB.this rfl rfl ?_ hB.handles (fun k hk => Or.inl hk) hB.idleNe ?_ ?_
    · exact fun k _ hn => ⟨hn.1, hn.2, hn.3, hn.4, hn.5, hn.6⟩
    · intro k hk hkg
      rw [look_of_ne (hH₁.stack_ne hk), look_of_ne (hH.stack_ne hk), hH₁.parked hk, hH.parked hk]
      exact ⟨hne k hkg, rfl⟩
    · intro _ z hz
      rw [look_of_ne (hH₁.stack_ne hlt), hself] at hz
      cases hz
      rw [hH₁.parked hlt]
      exact ⟨hT.stack, rfl, by rw [hframes, hcur]; rfl, rfl⟩
  have hL₁ : Live (rearmed t g x) := by
    intro k z hz
    by_cases hkg : k = g
    · subst hkg
      exact useCount_pos (IsLocal.not_noRef (Or.inr (Or.inl hcb)))
    · refine useCount_congr (t := t) ?_ (hne k hkg) (hI.live k z ((hne k hkg).symm.trans hz))
      exact fun h => ⟨h.1, h.2, h.3, h.4, h.5, h.6⟩
  have hreset : reset { t with nextCb := t.nextCb + 1 } g (some t.nextCb)
      = .ok (rearmed t g x) := reset_eq hx hT.stack hr
  have htake : takeCb t = (reset { t with nextCb := t.nextCb + 1 } g (some t.nextCb) >>=
      fun t => swapIn t g (.back g .cb)) := by
    rw [takeCb]
    split
    · rename_i g' hg'
      cases hcb.symm.trans hg'
      rfl
    · rename_i hnone
      cases hcb.symm.trans hnone
  have hC₁ : Ledger (rearmed t g x) := by
    have hnone : t.pending g = none := by
      rw [pending_of_ne (hH.stack_ne hlt), hx, Option.bind_some, hT.waits_eq]
      split
      · rename_i hinit
        exact hspent hinit
      · rfl
    have hpend : (rearmed t g x).pending = Function.update t.pending g (some t.nextCb) := by
      funext k
      by_cases hk : k = g
      · subst hk
        rw [Function.update_self, pending_of_ne (hH₁.stack_ne hlt), hself]
        rfl
      · rw [Function.update_of_ne hk]
        exact pending_congr rfl (hne k hk)
    rw [Ledger, hpend]
    exact Lib.Tickets.issue hI.led hnone
  rw [htake, hreset, ok_bind]
  refine enter_safe ?_
    (Inv.enter hB₁ hL₁ hC₁ hH₁ hlt hself (by rintro ⟨⟩) ⟨hft, hcb⟩ ?_ fun _ h => absurd rfl h)
  · rintro ⟨⟩
  intro k z hk hkg
  exact absurd (Option.some.inj (hk.symm.trans hcb)) hkg

theorem Inv.takeCb (hI : Inv u t) (hp : t.control.point = .top) : Safe u (takeCb t) := by
  obtain ⟨hH, hft⟩ := hI.at_top hp
  cases hcb : t.cbFiber with
  | none => exact hI.takeCb_new hH hft hcb
  | some g => exact hI.takeCb_reset hH hft hcb

/-! ### Behind a `swapIn` -/

/-- A task that was swapped in has started. -/
theorem Task.waits_eq_none (hT : Task .returned f x) : x.waits = none := by
  refine Fiber.waits_eq_none ?_
  intro c h
  have hstate := hT.state
  rw [h] at hstate
  revert hstate
  cases x.state <;> simp [stateAt]

section
variable {x' : Fiber} (hI : Inv u t) (hH : AtHost u t (.back f b)) (hlt : host u < f)
  (hx : t.heap f = some x) (hheap : t'.heap = (t.set f x').heap)
  (hcontrol : t'.control = ⟨host u, .top⟩) (hnext : t'.next = t.next)
  (hcount : t'.fiberCount = t.fiberCount) (hthis : t'.tFiber = t.tFiber)
  (hthread : t'.threadFiber = t.threadFiber) (hsched : t'.schedulerFiber = t.schedulerFiber)
  (hroot : t'.rootFiber = t.rootFiber) (hidle : t'.idleFiber = t.idleFiber)
  (hft : t'.ft = none) (hftf : t.ft = none ∨ t.ft = some f)
  (hhandles : ∀ k, k ≠ f → t'.handles k = t.handles k)
  (hcbf : t'.cbFiber = t.cbFiber ∨ t'.cbFiber = none ∧ t.cbFiber = some f)
  (hspent : t'.cbFiber = some f → Spent x') (hstack : x'.stack = true) (hown : x'.ctx.stack = f)
  (hframe : frameAt f x'.ctx.point = some (x'.frames, x'.cur))
  (hstate : stateAt .parked x'.state x'.ctx.point = true) (hn : t'.nextCb = t.nextCb)
  (he : t'.entered = t.entered) (hd : t'.discarded = t.discarded) (hw : x'.waits = none)

include hI hH hlt hx hheap hcontrol hnext hcount hthis hthread hsched hroot hidle hft hftf hhandles
  hcbf hspent hstack hown hframe hstate hn he hd hw

/-- `run()` is back at the head of its loop, and may have given up a pointer to `f`. -/
theorem settled_top : Base u t' ∧ AtHost u t' .top ∧ SpentAll t' ∧
    (∀ k z, k ≠ f → t'.heap k = some z → 0 < t'.useCount k) ∧ Ledger t' := by
  have hB := hI.base
  have hne : ∀ k, k ≠ f → t'.heap k = t.heap k := by
    intro k hk
    rw [hheap]
    exact heap_set_of_ne hk
  have hcb : ∀ k, t'.cbFiber = some k → t.cbFiber = some k := by
    intro k hk
    rcases hcbf with h | h
    · exact h.symm.trans hk
    · rw [h.1] at hk
      cases hk
  obtain ⟨y, hy, hhost⟩ := hH.hostIs
  refine ⟨hB.settled hH hlt hx hheap hcontrol hnext hcount hthis hthread hsched ?_ ?_ ?_ hidle hcb
    hstack hown hframe hstate, ⟨⟨y, (hne _ hlt.ne).trans hy, hhost⟩, hcontrol, hidle ▸ hH.idle,
    hH.outer.congr hroot fun _ => hne 0 (by omega)⟩, ?_, ?_, ?_⟩
  · intro k hk hn
    have hkf : k ≠ f := by
      rintro rfl
      rw [hx] at hk
      cases hk
    refine ⟨(hhandles k hkf).trans hn.1, ?_, fun h => hn.cbFiber (hcb k h), ?_, ?_, ?_⟩
    · rw [hft]
      rintro ⟨⟩
    · rw [hidle]
      exact hn.idleFiber
    · rw [hroot]
      exact hn.rootFiber
    · rw [hthread]
      exact hn.threadFiber
  · intro k hk
    by_cases hkf : k = f
    · exact hkf ▸ hlt
    · exact hB.handles k (hhandles k hkf ▸ hk)
  · rintro k (h | h | h)
    · rw [hft] at h
      cases h
    · exact Or.inr (Or.inl (hcb k h))
    · exact Or.inr (Or.inr (hidle ▸ h))
  · intro k z hk hz
    by_cases hkf : k = f
    · subst hkf
      rw [hheap, heap_set_self] at hz
      cases hz
      exact hspent hk
    · rw [hne k hkf] at hz
      refine hI.spent_of_atHost hH (hcb k hk) hz ?_
      intro h
      cases h
      exact hkf rfl
  · intro k z hk hz
    refine useCount_congr (t := t) ?_ (hne k hk) (hI.live k z ((hne k hk).symm.trans hz))
    intro h
    refine ⟨(hhandles k hk).symm.trans h.1, ?_, ?_, hidle ▸ h.4, hroot ▸ h.5, hthread ▸ h.6⟩
    · rcases hftf with h' | h' <;> rw [h']
      · rintro ⟨⟩
      · exact fun h => hk (Option.some.inj h).symm
    · rcases hcbf with h' | h'
      · exact h' ▸ h.3
      · rw [h'.2]
        exact fun h => hk (Option.some.inj h).symm
  · refine hI.led.congr hn he hd ?_
    have hs : t.control.stack = host u := by rw [hH.control]
    have hs' : t'.control.stack = host u := by rw [hcontrol]
    intro k
    by_cases hkh : k = host u
    · subst hkh
      rw [pending_eq_none hs (by rw [hH.control]; rintro _ ⟨⟩),
        pending_eq_none hs' (by rw [hcontrol]; rintro _ ⟨⟩)]
    · have hsk : t.control.stack ≠ k := by rw [hs]; exact Ne.symm hkh
      have hsk' : t'.control.stack ≠ k := by rw [hs']; exact Ne.symm hkh
      by_cases hkf : k = f
      · subst hkf
        rw [pending_of_ne hsk, pending_of_ne hsk', hx, hheap, heap_set_self]
        exact hw.trans (hB.behind hH hlt hx).waits_eq_none.symm
      · exact pending_congr_of_ne hsk hsk' (hne k hkf)

theorem settled_release : Safe u (release t' f) := by
  obtain ⟨hB, hH', hS, hL, hC⟩ := settled_top hI hH hlt hx hheap hcontrol hnext hcount hthis hthread
    hsched hroot hidle hft hftf hhandles hcbf hspent hstack hown hframe hstate hn he hd hw
  have hself : t'.heap f = some x' := by rw [hheap]; exact heap_set_self
  exact hB.releaseTop hH' hft hlt hself hL hS hC

theorem settled_kept (hlocal : IsLocal t' f) : Safe u (.ok t') := by
  obtain ⟨hB, hH', hS, hL, hC⟩ := settled_top hI hH hlt hx hheap hcontrol hnext hcount hthis hthread
    hsched hroot hidle hft hftf hhandles hcbf hspent hstack hown hframe hstate hn he hd hw
  refine ⟨t', rfl, ⟨hB, ?_, fun k z hk hz => Or.inl (hS k z hk hz), .looping hH' hft, hC⟩,
    by rw [hcontrol]; rintro ⟨⟩⟩
  intro k z hz
  by_cases hkf : k = f
  · exact useCount_pos (hkf ▸ hlocal.not_noRef)
  · exact hL k z hkf hz

end

theorem set_self (hx : t.heap f = some x) : t.set f x = t := by
  rw [Thread.set, ← hx, Function.update_eq_self]

/-- A task that is `READY` or has finished can be left in its state. -/
theorem Task.parked (hT : Task .returned f x) (h : x.state = .ready ∨ x.state.finished = true) :
    stateAt .parked x.state x.ctx.point = true := by
  have hstate := hT.state
  revert h hstate
  cases x.ctx.point <;> cases x.state <;> simp [stateAt, FiberState.finished]

/-- A task that has not finished is put to `HOLD`. -/
theorem Task.held (hT : Task .returned f x) (h : x.state.finished = false) :
    stateAt .parked .hold x.ctx.point = true := by
  have hstate := hT.state
  revert h hstate
  cases x.ctx.point <;> cases x.state <;> simp [stateAt, FiberState.finished]

theorem Task.finished_of_spent (hT : Task .returned f x) (hs : Spent x) :
    x.state.finished = true := by
  have hstate := hT.state
  have hr := hs.1
  revert hstate hr
  cases x.ctx.point <;> cases x.state <;> simp [stateAt, restartable, FiberState.finished]

theorem Inv.settle_fiber (hI : Inv u t) (hH : AtHost u t (.back f .fiber)) (hlt : host u < f)
    (hft : t.ft = some f) : Safe u (settle t f .fiber) := by
  obtain ⟨x, hx⟩ := hI.base.exists_of_ref (IsLocal.not_noRef (Or.inl hft))
  have hT := hI.base.behind hH hlt hx
  have hx₁ : ({ t with control := ⟨host u, .top⟩ } : Thread).heap f = some x := hx
  have hself : t.heap = (t.set f x).heap := (congrArg Thread.heap (set_self hx)).symm
  -- As `cb_fiber` the task is spent.
  have hspent : t.cbFiber = some f → Spent x :=
    fun hk => hI.spent_of_atHost hH hk hx (by intro h; cases h)
  simp only [settle, hH.control]
  rw [deref_eq hx₁, ok_bind, modify_eq hx₁]
  by_cases hready : x.state = .ready
  · rw [if_pos hready]
    refine settled_release hI hH hlt hx hself rfl rfl rfl rfl rfl rfl rfl rfl rfl (Or.inr hft) ?_
      (Or.inl rfl) hspent hT.stack hT.own hT.frame (hT.parked (Or.inl hready)) rfl rfl
      rfl hT.waits_eq_none
    exact fun k hk => Function.update_of_ne hk ..
  · rw [if_neg hready]
    cases hfin : x.state.finished with
    | true =>
      exact settled_release hI hH hlt hx hself rfl rfl rfl rfl rfl rfl rfl rfl rfl (Or.inr hft)
        (fun _ _ => rfl) (Or.inl rfl) hspent hT.stack hT.own hT.frame (hT.parked (Or.inr hfin)) rfl
        rfl rfl hT.waits_eq_none
    | false =>
      refine settled_release hI hH hlt hx rfl rfl rfl rfl rfl rfl rfl rfl rfl rfl (Or.inr hft)
        (fun _ _ => rfl) (Or.inl rfl) ?_ hT.stack hT.own hT.frame (hT.held hfin) rfl rfl rfl
        hT.waits_eq_none
      intro hk
      have h := hT.finished_of_spent (hspent hk)
      rw [hfin] at h
      cases h

theorem Inv.settle_cb (hI : Inv u t) (hH : AtHost u t (.back f .cb)) (hlt : host u < f)
    (hft : t.ft = none) (hcb : t.cbFiber = some f) :
    Safe u (settle t f .cb) := by
  obtain ⟨x, hx⟩ := hI.base.exists_of_ref (IsLocal.not_noRef (Or.inr (Or.inl hcb)))
  have hT := hI.base.behind hH hlt hx
  have hx₁ : ({ t with control := ⟨host u, .top⟩ } : Thread).heap f = some x := hx
  have hself : t.heap = (t.set f x).heap := (congrArg Thread.heap (set_self hx)).symm
  simp only [settle, hH.control]
  rw [deref_eq hx₁, ok_bind, modify_eq hx₁]
  by_cases hready : x.state = .ready
  · rw [if_pos hready]
    refine settled_release hI hH hlt hx hself rfl rfl rfl rfl rfl rfl rfl rfl hft (Or.inl hft) ?_
      (Or.inr ⟨rfl, hcb⟩) (by rintro ⟨⟩) hT.stack hT.own hT.frame (hT.parked (Or.inl hready)) rfl
      rfl rfl hT.waits_eq_none
    exact fun k hk => Function.update_of_ne hk ..
  · rw [if_neg hready]
    cases hfin : x.state.finished with
    | true =>
      have hr : restartable x.state = true := by rw [restartable, hfin]; rfl
      have hT' : Task .parked f x := ⟨hT.stack, hT.own, hT.frame, hT.parked (Or.inr hfin)⟩
      obtain ⟨hframes, hcur⟩ := hT'.frames_of_restartable hr
      rw [if_pos rfl, reset_eq hx₁ hT.stack hr]
      exact settled_kept hI hH hlt hx rfl rfl rfl rfl rfl rfl rfl rfl rfl hft (Or.inl hft)
        (fun _ _ => rfl) (Or.inl rfl) (fun _ => ⟨rfl, fun _ => rfl⟩) hT.stack rfl
        (by rw [hframes, hcur]; rfl) rfl rfl rfl rfl rfl (Or.inr (Or.inl hcb))
    | false =>
      exact settled_release hI hH hlt hx rfl rfl rfl rfl rfl rfl rfl rfl rfl hft (Or.inl hft)
        (fun _ _ => rfl) (Or.inr ⟨rfl, hcb⟩) (by rintro ⟨⟩) hT.stack hT.own hT.frame
        (hT.held hfin) rfl rfl rfl hT.waits_eq_none

theorem Inv.settle_idle (hI : Inv u t) (hH : AtHost u t (.back f .idle)) (hlt : host u < f)
    (hft : t.ft = none) (hidle : t.idleFiber = some f) :
    Safe u (settle t f .idle) := by
  obtain ⟨x, hx⟩ := hI.base.exists_of_ref (IsLocal.not_noRef (Or.inr (Or.inr hidle)))
  have hT := hI.base.behind hH hlt hx
  have hx₁ : ({ t with control := ⟨host u, .top⟩ } : Thread).heap f = some x := hx
  have hself : t.heap = (t.set f x).heap := (congrArg Thread.heap (set_self hx)).symm
  have hcb : t.cbFiber ≠ some f := fun hk => hI.base.idleNe f hk hidle
  simp only [settle, hH.control]
  rw [deref_eq hx₁, ok_bind, modify_eq hx₁]
  cases hfin : x.state.finished with
  | true =>
    exact settled_kept hI hH hlt hx hself rfl rfl rfl rfl rfl rfl rfl rfl hft (Or.inl hft)
      (fun _ _ => rfl) (Or.inl rfl) (fun h => absurd h hcb) hT.stack hT.own hT.frame
      (hT.parked (Or.inr hfin)) rfl rfl rfl hT.waits_eq_none (Or.inr (Or.inr hidle))
  | false =>
    exact settled_kept hI hH hlt hx rfl rfl rfl rfl rfl rfl rfl rfl rfl hft (Or.inl hft)
      (fun _ _ => rfl) (Or.inl rfl) (fun h => absurd h hcb) hT.stack hT.own hT.frame
      (hT.held hfin) rfl rfl rfl hT.waits_eq_none (Or.inr (Or.inr hidle))

theorem Inv.settle (hI : Inv u t) (hp : t.control.point = .back f b) :
    Safe u (settle t f b) := by
  obtain ⟨hH, hlt, hpin⟩ := hI.at_back hp
  cases b with
  | fiber => exact hI.settle_fiber hH hlt hpin
  | cb => exact hI.settle_cb hH hlt hpin.1 hpin.2
  | idle => exact hI.settle_idle hH hlt hpin.1 hpin.2

/-- The branch without an item, while the idle fiber has not ended. -/
theorem Inv.idle_enter (hI : Inv u t) (hp : t.control.point = .top) (hidle : t.idleFiber = some g)
    (hx : t.heap g = some x) (hterm : x.state ≠ .term) :
    ∃ t', idle t = .ok t' ∧ Inv u t' ∧ (t'.control.point = .past ↔ x.state = .except) := by
  obtain ⟨hH, hft⟩ := hI.at_top hp
  have hlt := hI.base.locals g (Or.inr (Or.inr hidle))
  have hT : Task .parked g x := hH.parked hlt ▸ hI.base.waiting hlt (hH.stack_ne hlt) hx
  have hne : x.state ≠ .exec := by
    intro h
    have hstate := hT.state
    rw [h] at hstate
    revert hstate
    cases x.ctx.point <;> simp [stateAt]
  rw [idle, pointer_eq hidle, ok_bind, deref_eq hx, ok_bind, if_neg hterm]
  obtain ⟨t', ht', hI', hc⟩ := Inv.enter (b := .idle) hI.base hI.live hI.led hH hlt hx hne
    ⟨hft, hidle⟩ (fun k z hk _ hz => hI.spentAll hH k z hk hz)
    fun hk => absurd hidle (hI.base.idleNe g hk)
  refine ⟨t', ht', hI', ?_⟩
  rw [hc, hT.past_iff]
  exact or_iff_right hterm

end

end Sylar.Fibers
