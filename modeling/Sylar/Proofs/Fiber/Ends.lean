import Sylar.Proofs.Fiber.Loop

/-!
# `Sylar.Proofs.Fiber.Ends`: the start and the end of `run()`

On a worker thread `run()` starts on the stack of the thread. On the root fiber `call` starts it,
and its end goes back to the code that called. The scheduler and the thread end outside `run()`.
-/

set_option autoImplicit false

namespace Sylar.Fibers

open Scheduler (FiberState)

section
variable {u : Bool} {t t' : Thread} {f g : Nat} {x r m : Fiber}

/-! ### Other steps that change no task -/

/-- The thread moves, and no task changes. -/
theorem Base.move (hB : Base u t) (hnext : t'.next = t.next)
    (hcount : t'.fiberCount = t.fiberCount)
    (hsome : ∀ f, (t'.heap f).isSome = (t.heap f).isSome)
    (hthis : t'.tFiber = some t'.control.stack) (hthread : t'.threadFiber = t.threadFiber)
    (hsched : t'.schedulerFiber = t.schedulerFiber) (hhandles : t'.handles = t.handles)
    (hlocals : ∀ f, IsLocal t' f → IsLocal t f) (hcb : t'.cbFiber = t.cbFiber)
    (hidle : t'.idleFiber = t.idleFiber) (hft : t'.ft = t.ft)
    (hroot : ∀ f, t'.rootFiber = some f → t.rootFiber = some f)
    (hheap : ∀ f, host u < f → t'.heap f = t.heap f)
    (hs : t.control.stack ≤ host u) (hs' : t'.control.stack ≤ host u)
    (hp : ∀ f b, t.control.point ≠ .back f b) (hp' : ∀ f b, t'.control.point ≠ .back f b) :
    Base u t' := by
  refine hB.change (g := 0) hnext hcount hsome hthis hthread hsched ?_ ?_
    (fun f hf => Or.inl (hlocals f hf)) ?_ ?_ fun h => absurd h (Nat.not_lt_zero _)
  · exact fun f _ hn => ⟨hhandles ▸ hn.1, hft ▸ hn.2, hcb ▸ hn.3, hidle ▸ hn.4,
      fun h => hn.5 (hroot f h), hthread ▸ hn.6⟩
  · rw [hhandles]
    exact hB.handles
  · rw [hcb, hidle]
    exact hB.idleNe
  · intro f hf _
    have h1 : t.control.stack ≠ f := by omega
    have h2 : t'.control.stack ≠ f := by omega
    rw [look_of_ne h1, look_of_ne h2, mode_parked h1 (hp f), mode_parked h2 (hp' f)]
    exact ⟨hheap f hf, rfl⟩

/-! ### `call` -/

theorem Inv.at_outside (hI : Inv u t) (hp : t.control.point = .outside) :
    u = true ∧ (∃ m, t.heap 0 = some m ∧ IsMain m) ∧ t.control = ⟨0, .outside⟩ ∧ NoLocals t ∧
      RootIdle t := by
  cases hI.phase with
  | outside hu hm hc hl hr => exact ⟨hu, hm, hc, hl, hr⟩
  | called _ _ hc => rcases hc with hc | hc <;> (rw [hc] at hp; cases hp)
  | looping h => rw [h.control] at hp; cases hp
  | away g b h => exact absurd (by rw [hp]; rfl) (hI.frame_ne_none h)
  | returned _ _ h => rw [h.control] at hp; cases hp
  | ended _ _ hc => rw [hc] at hp; cases hp

theorem Inv.stop (hI : Inv u t) (hp : t.control.point = .outside) (hroot : t.rootFiber = some g)
    (hx : t.heap g = some r) :
    ∃ t', call t g = .ok t' ∧ Inv u t' ∧ (t'.control.point = .past ↔ r.state = .term) := by
  obtain ⟨rfl, ⟨m, hm, hmain⟩, hc, hl, hr⟩ := hI.at_outside hp
  have hB := hI.base
  rcases hr with ⟨h, -⟩ | ⟨hr1, r', hr, hrs, hrf, hrc, hrest⟩
  · rw [h] at hroot
    cases hroot
  rw [hr1] at hroot
  cases hroot
  cases hr.symm.trans hx
  have hown : r.ctx.stack = 1 := by
    rcases hrest with h | h <;> rw [h.2]
  have hpast : r.ctx.point = .past ↔ r.state = .term := by
    rcases hrest with h | h <;> rw [h.1, h.2] <;> simp
  refine ⟨_, call_eq hB.thread hr hm one_ne_zero hown, ?_, hpast⟩
  have hs : t.control.stack = 0 := by rw [hc]
  rw [hs]
  have h0 : (((t.set 1 { r with state := .exec }).set 0 { m with ctx := ⟨0, .outside⟩ }).goto
      r.ctx).heap 0 = some { m with ctx := ⟨0, .outside⟩ } := by
    rw [heap_goto]
    exact heap_set_self
  have h1 : (((t.set 1 { r with state := .exec }).set 0 { m with ctx := ⟨0, .outside⟩ }).goto
      r.ctx).heap 1 = some { r with state := .exec } := by
    rw [heap_goto, heap_set_of_ne one_ne_zero]
    exact heap_set_self
  have hheap : ∀ k, host true < k →
      (((t.set 1 { r with state := .exec }).set 0 { m with ctx := ⟨0, .outside⟩ }).goto
        r.ctx).heap k = t.heap k := fun k hk =>
    (heap_set_of_ne (Nat.zero_lt_of_lt hk).ne').trans (heap_set_of_ne hk.ne')
  have hpt : ∀ f b, r.ctx.point ≠ .back f b := by
    rcases hrest with h | h <;> rw [h.2] <;> rintro _ _ ⟨⟩
  refine ⟨?_, ?_, ?_, ?_, ?_⟩
  · refine hB.move rfl rfl ?_ rfl rfl rfl rfl (fun f hf => hf) rfl rfl rfl (fun f hf => hf) hheap
      (by rw [hs]; exact Nat.zero_le _) (by rw [control_goto, hown]; rfl)
      (by rw [hc]; rintro _ _ ⟨⟩) hpt
    intro k
    exact (isSome_set (t := t.set 1 _) ((heap_set_of_ne zero_ne_one).trans hm) k).trans
      (isSome_set hr k)
  · intro k z hz
    by_cases hk : host true < k
    · refine useCount_congr (t := t) ?_ (hheap k hk) (hI.live k z ((hheap k hk).symm.trans hz))
      exact fun h => ⟨h.1, h.2, h.3, h.4, h.5, h.6⟩
    · rcases Nat.le_one_iff_eq_zero_or_eq_one.mp (Nat.le_of_not_lt hk) with rfl | rfl
      · exact useCount_pos fun hn => hn.threadFiber hB.thread
      · exact useCount_pos fun hn => hn.rootFiber hr1
  · intro k z hk
    have hk' : t.cbFiber = some k := hk
    rw [hl.cbFiber] at hk'
    cases hk'
  · refine .called rfl ⟨_, h1, hrs, rfl, hrf⟩ ?_ ⟨hl.ft, hl.cbFiber, hl.idleFiber⟩
      ⟨hr1, _, h0, ⟨hmain.1, hmain.2, hmain.3, hmain.4⟩, rfl⟩
    rw [control_goto]
    exact hrest.imp And.right And.right
  · refine hI.led.congr rfl rfl rfl ?_
    intro k
    by_cases hk1 : k = 1
    · subst hk1
      rw [pending_running (f := 1) hown h1, pending_of_ne (by rw [hs]; exact zero_ne_one), hr]
      rfl
    · by_cases hk0 : k = 0
      · subst hk0
        rw [pending_of_ne (by rw [control_goto, hown]; exact one_ne_zero), h0,
          pending_eq_none hs (by rw [hc]; rintro _ ⟨⟩)]
        rfl
      · refine pending_congr_of_ne (by rw [hs]; exact Ne.symm hk0) ?_ (hheap k ?_)
        · rw [control_goto, hown]
          exact Ne.symm hk1
        · exact (Nat.one_lt_iff_ne_zero_and_ne_one.mpr ⟨hk0, hk1⟩ : 1 < k)

/-! ### The start of `run()` on the root fiber -/

/-- The thread when `CallerMainFunc` has started. -/
def rooted (t : Thread) (r : Fiber) : Thread :=
  { t.set 1 { r with frames := 1, cur := some 1 } with
    entered := t.entered ++ r.cb.toList, control := ⟨1, .top⟩ }

theorem Inv.proceed_root (hI : Inv u t) (hp : t.control.point = .entry true) :
    Safe u (proceed t) := by
  have hB := hI.base
  obtain ⟨rfl, ⟨r, hr, hrs, hre, hrf⟩, hl, ho⟩ : u = true ∧
      (∃ r, t.heap 1 = some r ∧ r.stack = true ∧ r.state = .exec ∧ r.frames = 0) ∧ NoLocals t ∧
      Outer u t := by
    cases hI.phase with
    | outside _ _ hc => rw [hc] at hp; cases hp
    | called hu hr hc hl ho => exact ⟨hu, hr, hl, ho⟩
    | looping h => rw [h.control] at hp; cases hp
    | away g b h => exact absurd (by rw [hp]; rfl) (hI.frame_ne_none h)
    | returned _ _ h => rw [h.control] at hp; cases hp
    | ended _ _ hc => rw [hc] at hp; cases hp
  have hs : t.control.stack = 1 := by
    cases hI.phase with
    | outside _ _ hc => rw [hc] at hp; cases hp
    | called hu hr hc hl ho => rcases hc with hc | hc <;> rw [hc]
    | looping h => rw [h.control] at hp; cases hp
    | away g b h => exact absurd (by rw [hp]; rfl) (hI.frame_ne_none h)
    | returned _ _ h => rw [h.control] at hp; cases hp
    | ended _ _ hc => rw [hc] at hp; cases hp
  have hthis : t.tFiber = some 1 := by rw [hB.this, hs]
  have hself : (rooted t r).heap 1 = some { r with frames := 1, cur := some 1 } := by
    show (t.set 1 _).heap 1 = _
    exact heap_set_self
  have hne : ∀ k, k ≠ 1 → (rooted t r).heap k = t.heap k := fun k hk => heap_set_of_ne hk
  have hB₁ : Base true (rooted t r) := by
    refine hB.move rfl rfl (isSome_set (t := t) hr) hthis rfl rfl rfl (fun f hf => hf) rfl rfl rfl
      (fun f hf => hf) (fun f hf => hne f hf.ne') (by rw [hs]; rfl) le_rfl ?_
      (by rintro _ _ ⟨⟩)
    rw [hp]
    rintro _ _ ⟨⟩
  have hmode : (rooted t r).mode (rooted t r).next = .parked :=
    mode_parked (hB₁.hostLt).ne (by rintro _ ⟨⟩)
  have hB₂ : Base true { newFiber (rooted t r) false with idleFiber := some t.next } := by
    refine (hB₁.newFiber hmode).repoint rfl rfl rfl rfl rfl rfl rfl ?_ hB.handles ?_ ?_
    · intro k hk hn
      refine ⟨hn.1, hn.2, hn.3, ?_, hn.5, hn.6⟩
      intro h
      cases h
      rw [show (newFiber (rooted t r) false).heap t.next = some _ from
        Function.update_self ..] at hk
      cases hk
    · rintro k (h | h | h)
      · exact Or.inl (Or.inl h)
      · exact Or.inl (Or.inr (Or.inl h))
      · exact Or.inr (Option.some.inj h ▸ hB.hostLt)
    · intro k hk
      have hk' : t.cbFiber = some k := hk
      rw [hl.cbFiber] at hk'
      cases hk'
  have hC₁ : Ledger (rooted t r) := by
    refine hI.led.enter hs hr hp rfl rfl rfl ?_ (pending_eq_none rfl (by rintro _ ⟨⟩))
    exact fun k hk => pending_congr_of_ne (by rw [hs]; exact Ne.symm hk) (Ne.symm hk) (hne k hk)
  have hC₂ : Ledger (newFiber (rooted t r) false) := hC₁.newFiber (hB₁.fresh _ le_rfl) hmode
  refine ⟨{ newFiber (rooted t r) false with idleFiber := some t.next }, ?_,
    ⟨hB₂, ?_, ?_, ?_, hC₂⟩, by rintro ⟨⟩⟩
  · simp only [proceed, hp, mainFunc, getThis_eq hthis, pointer_eq hthis, ok_bind, deref_eq hr,
      modify_eq hr, control_set, hs, modify_eq heap_set_self, set_set, if_true, hrf, startRun]
    rfl
  · intro k z hz
    by_cases hkn : k = t.next
    · subst hkn
      exact useCount_pos fun hn => hn.idleFiber rfl
    · have hz' : (rooted t r).heap k = some z :=
        (heap_newFiber_of_ne (t := rooted t r) hkn).symm.trans hz
      by_cases hk1 : k = 1
      · subst hk1
        exact useCount_pos fun hn => hn.rootFiber ho.1
      · rw [hne k hk1] at hz'
        refine useCount_congr (t := t) ?_ ?_ (hI.live k z hz')
        · exact fun h => ⟨h.1, h.2, h.3, by rw [hl.idleFiber]; rintro ⟨⟩, h.5, h.6⟩
        · exact (heap_newFiber_of_ne (t := rooted t r) hkn).trans (hne k hk1)
  · intro k z hk
    have hk' : t.cbFiber = some k := hk
    rw [hl.cbFiber] at hk'
    cases hk'
  · obtain ⟨hroot, m, hm, hmain⟩ := ho
    have h0 : (0 : Nat) ≠ t.next := (Nat.zero_lt_of_lt hB.hostLt).ne
    refine .looping ⟨⟨{ r with frames := 1, cur := some 1 }, ?_, hrs, hre, rfl, rfl⟩, rfl,
      by rintro ⟨⟩, hroot, m, ?_, hmain⟩ hl.ft
    · exact (heap_newFiber_of_ne (t := rooted t r) hB.hostLt.ne).trans hself
    · exact (heap_newFiber_of_ne (t := rooted t r) h0).trans ((hne 0 zero_ne_one).trans hm)

/-! ### The end of `run()` -/

/-- `run()` has given up its fibers. -/
structure Leaving (u : Bool) (t : Thread) : Prop where
  base : Base u t
  live : Live t
  locals : NoLocals t
  hostIs : ∃ y, t.heap (host u) = some y ∧ IsHost u y
  control : t.control = ⟨host u, .top⟩
  outer : Outer u t
  led : Ledger t

/-- `cb_fiber` is destroyed. -/
theorem Inv.dropCbFiber (hI : Inv u t) (hH : AtHost u t .top) (hft : t.ft = none) :
    ∃ t', dropCbFiber t = .ok t' ∧ Inv u t' ∧ AtHost u t' .top ∧ t'.ft = none ∧
      t'.cbFiber = none := by
  cases hcb : t.cbFiber with
  | none => exact ⟨t, by rw [Fibers.dropCbFiber, hcb], hI, hH, hft, hcb⟩
  | some g =>
    have hB := hI.base
    have hlt := hB.locals g (Or.inr (Or.inl hcb))
    obtain ⟨x, hx⟩ := hB.exists_of_ref (IsLocal.not_noRef (Or.inr (Or.inl hcb)))
    have hB₁ : Base u { t with cbFiber := none } := by
      refine hB.repoint rfl rfl rfl rfl rfl rfl rfl ?_ hB.handles ?_ (by rintro _ ⟨⟩)
      · exact fun k _ hn => ⟨hn.1, hn.2, by rintro ⟨⟩, hn.4, hn.5, hn.6⟩
      · rintro k (h | h | h)
        · exact Or.inl (Or.inl h)
        · cases h
        · exact Or.inl (Or.inr (Or.inr h))
    have hL₁ : ∀ k z, k ≠ g → t.heap k = some z →
        0 < ({ t with cbFiber := none } : Thread).useCount k := by
      intro k z hk hz
      refine useCount_congr (t := t) ?_ rfl (hI.live k z hz)
      refine fun h => ⟨h.1, h.2, ?_, h.4, h.5, h.6⟩
      rw [hcb]
      exact fun h => hk (Option.some.inj h).symm
    have hH₁ : AtHost u { t with cbFiber := none } .top := ⟨hH.1, hH.2, hH.3, hH.4⟩
    obtain ⟨t', ht', hB', hL', hK, -, hC⟩ := hB₁.release hL₁ hlt hx (Or.inl (hH₁.parked hlt))
    have hH' := hH₁.kept hK hlt
    refine ⟨t', by rw [Fibers.dropCbFiber, hcb]; exact ht',
      ⟨hB', hL', ?_, .looping hH' (hK.ft.trans hft), hC hI.led⟩, hH', hK.ft.trans hft, hK.cbFiber⟩
    intro k z hk
    rw [hK.cbFiber] at hk
    cases hk

/-- `idle_fiber` is destroyed. -/
theorem Inv.dropIdle (hI : Inv u t) (hH : AtHost u t .top) (hft : t.ft = none)
    (hcb : t.cbFiber = none) (hidle : t.idleFiber = some g) :
    ∃ t', release { t with idleFiber := none } g = .ok t' ∧ Leaving u t' := by
  have hB := hI.base
  have hlt := hB.locals g (Or.inr (Or.inr hidle))
  obtain ⟨x, hx⟩ := hB.exists_of_ref (IsLocal.not_noRef (Or.inr (Or.inr hidle)))
  have hB₁ : Base u { t with idleFiber := none } := by
    refine hB.repoint rfl rfl rfl rfl rfl rfl rfl ?_ hB.handles ?_ fun _ _ => by rintro ⟨⟩
    · exact fun k _ hn => ⟨hn.1, hn.2, hn.3, by rintro ⟨⟩, hn.5, hn.6⟩
    · rintro k (h | h | h)
      · exact Or.inl (Or.inl h)
      · exact Or.inl (Or.inr (Or.inl h))
      · cases h
  have hL₁ : ∀ k z, k ≠ g → t.heap k = some z →
      0 < ({ t with idleFiber := none } : Thread).useCount k := by
    intro k z hk hz
    refine useCount_congr (t := t) ?_ rfl (hI.live k z hz)
    refine fun h => ⟨h.1, h.2, h.3, ?_, h.5, h.6⟩
    rw [hidle]
    exact fun h => hk (Option.some.inj h).symm
  obtain ⟨t', ht', hB', hL', hK, -, hC⟩ := hB₁.release hL₁ hlt hx (Or.inl (hH.parked hlt))
  obtain ⟨y, hy, hhost⟩ := hH.hostIs
  exact ⟨t', ht', hB', hL', ⟨hK.ft.trans hft, hK.cbFiber.trans hcb, hK.idleFiber⟩,
    ⟨y, (hK.heap _ hlt.ne).trans hy, hhost⟩, hK.control.trans hH.control,
    hH.outer.congr hK.rootFiber fun _ => hK.heap 0 (Nat.zero_lt_of_lt hlt).ne, hC hI.led⟩

/-- `run()` ends on a worker thread. -/
theorem Leaving.ended (hL : Leaving false t) :
    Inv false { t with control := ⟨t.control.stack, .ended⟩ } := by
  have hs : t.control.stack = 0 := by rw [hL.control]; rfl
  refine ⟨?_, ?_, ?_, ?_, ?_⟩
  · refine hL.base.move rfl rfl (fun _ => rfl) hL.base.this rfl rfl rfl (fun f hf => hf) rfl rfl rfl
      (fun f hf => hf) (fun f _ => rfl) hs.le hs.le ?_ (by rintro _ _ ⟨⟩)
    rw [hL.control]
    rintro _ _ ⟨⟩
  · intro k z hz
    exact useCount_congr (t := t) (fun h => ⟨h.1, h.2, h.3, h.4, h.5, h.6⟩) rfl (hL.live k z hz)
  · intro k z hk
    have hk' : t.cbFiber = some k := hk
    rw [hL.locals.cbFiber] at hk'
    cases hk'
  · refine .ended rfl hL.hostIs ?_ ⟨hL.locals.ft, hL.locals.cbFiber, hL.locals.idleFiber⟩ hL.outer
    rw [hs]
  · refine hL.led.congr rfl rfl rfl ?_
    intro k
    by_cases hk : k = 0
    · subst hk
      rw [pending_eq_none hs (by rw [hL.control]; rintro _ ⟨⟩)]
      exact pending_eq_none hs (by rintro _ ⟨⟩)
    · have hsk : t.control.stack ≠ k := by rw [hs]; exact Ne.symm hk
      exact pending_congr_of_ne hsk hsk rfl

/-- `run()` ends on the root fiber, and the thread goes back to the code that owns the
scheduler. -/
theorem Leaving.back (hL : Leaving true t) : Safe true (finish t true .returns) := by
  obtain ⟨r, hr, hrs, hre, hrf, hrc⟩ := hL.hostIs
  replace hr : t.heap 1 = some r := hr
  obtain ⟨hroot, m, hm, hmain, hctx⟩ := hL.outer
  have hB := hL.base
  have hl := hL.locals
  have hs : t.control.stack = 1 := by rw [hL.control]; rfl
  let x₂ : Fiber := { Ending.returns.apply r with cur := none }
  let x₃ : Fiber := { x₂ with frames := 0 }
  have hn : ¬ NoRef (t.set 1 x₂) 1 := fun h => h.rootFiber hroot
  have hdrop : dropFrame (t.set 1 x₂) 1 = .ok (t.set 1 x₃) := by
    rw [dropFrame_eq heap_set_self hn, set_set]
    simp only [x₃, x₂, Ending.apply, hrf]
  have hm₃ : (t.set 1 x₃).heap 0 = some m := (heap_set_of_ne zero_ne_one).trans hm
  have hback : Fibers.back (t.set 1 x₃) 1 .past
      = .ok ((t.set 1 { x₃ with ctx := ⟨1, .past⟩ }).goto ⟨0, .outside⟩) := by
    rw [back_eq (t := t.set 1 x₃) hB.thread heap_set_self hm₃ one_ne_zero (by rw [hctx]), set_set,
      control_set, hs, hctx]
  have h1 : ((t.set 1 { x₃ with ctx := ⟨1, .past⟩ }).goto ⟨0, .outside⟩).heap 1
      = some { x₃ with ctx := ⟨1, .past⟩ } := by
    rw [heap_goto]
    exact heap_set_self
  have hne : ∀ k, k ≠ 1 →
      ((t.set 1 { x₃ with ctx := ⟨1, .past⟩ }).goto ⟨0, .outside⟩).heap k = t.heap k :=
    fun k hk => heap_set_of_ne hk
  refine ⟨(t.set 1 { x₃ with ctx := ⟨1, .past⟩ }).goto ⟨0, .outside⟩, ?_, ⟨?_, ?_, ?_, ?_, ?_⟩,
    by rintro ⟨⟩⟩
  · simp only [Fibers.finish, hs, deref_eq hr, ok_bind, pointer_eq hrc, modify_eq hr,
      control_set, modify_eq heap_set_self, set_set]
    rw [show dropFrame (t.set 1 { Ending.returns.apply r with cur := none }) 1
      = .ok (t.set 1 x₃) from hdrop]
    exact hback
  · refine hB.move rfl rfl (isSome_set hr) rfl rfl rfl rfl (fun f hf => hf) rfl rfl rfl
      (fun f hf => hf) (fun f hf => hne f hf.ne') hs.le (Nat.zero_le _) ?_ (by rintro _ _ ⟨⟩)
    rw [hL.control]
    rintro _ _ ⟨⟩
  · intro k z hz
    by_cases hk : k = 1
    · subst hk
      exact useCount_pos fun h => h.rootFiber hroot
    · rw [hne k hk] at hz
      exact useCount_congr (t := t) (fun h => ⟨h.1, h.2, h.3, h.4, h.5, h.6⟩) (hne k hk)
        (hL.live k z hz)
  · intro k z hk
    have hk' : t.cbFiber = some k := hk
    rw [hl.cbFiber] at hk'
    cases hk'
  · exact .outside rfl ⟨m, (hne 0 zero_ne_one).trans hm, hmain⟩ rfl
      ⟨hl.ft, hl.cbFiber, hl.idleFiber⟩
      (Or.inr ⟨hroot, _, h1, hrs, rfl, rfl, Or.inr ⟨rfl, rfl⟩⟩)
  · refine hL.led.congr rfl rfl rfl ?_
    intro k
    by_cases hk1 : k = 1
    · subst hk1
      rw [pending_eq_none hs (by rw [hL.control]; rintro _ ⟨⟩)]
      exact (pending_of_ne zero_ne_one).trans (congrArg (Option.bind · Fiber.waits) h1)
    · by_cases hk0 : k = 0
      · subst hk0
        have hs0 : t.control.stack ≠ 0 := by rw [hs]; exact one_ne_zero
        rw [pending_of_ne hs0, hm]
        refine Eq.trans (pending_eq_none rfl ?_)
          (Fiber.waits_eq_none (by rw [hctx]; rintro _ ⟨⟩)).symm
        rintro _ ⟨⟩
      · exact pending_congr_of_ne (by rw [hs]; exact Ne.symm hk1) (Ne.symm hk0) (hne k hk1)

/-- The idle fiber has ended, and so does `run()`. -/
theorem Inv.endRun (hI : Inv u t) (hH : AtHost u t .top) (hft : t.ft = none) :
    Safe u (endRun t) := by
  obtain ⟨t₁, h₁, hI₁, hH₁, hft₁, hcb₁⟩ := hI.dropCbFiber hH hft
  obtain ⟨g, hidle⟩ := Option.ne_none_iff_exists'.mp hH₁.idle
  obtain ⟨t₂, h₂, hL⟩ := hI₁.dropIdle hH₁ hft₁ hcb₁ hidle
  rw [Fibers.endRun, h₁, ok_bind, pointer_eq hidle, ok_bind, h₂, ok_bind]
  cases u with
  | false =>
    have hroot : t₂.rootFiber = none := hL.outer
    rw [if_neg (by rw [hroot]; decide)]
    exact ⟨_, rfl, hL.ended, by rintro ⟨⟩⟩
  | true =>
    have hroot : t₂.rootFiber = some 1 := hL.outer.1
    rw [if_pos (by rw [hroot]; rfl)]
    exact hL.back

/-- `run()` finds no item. -/
theorem Inv.idle (hI : Inv u t) (hp : t.control.point = .top) :
    ∃ g x, t.idleFiber = some g ∧ t.heap g = some x ∧
      ∃ t', idle t = .ok t' ∧ Inv u t' ∧ (t'.control.point = .past ↔ x.state = .except) := by
  obtain ⟨hH, hft⟩ := hI.at_top hp
  obtain ⟨g, hidle⟩ := Option.ne_none_iff_exists'.mp hH.idle
  obtain ⟨x, hx⟩ := hI.base.exists_of_ref (IsLocal.not_noRef (Or.inr (Or.inr hidle)))
  refine ⟨g, x, hidle, hx, ?_⟩
  by_cases hterm : x.state = .term
  · rw [Fibers.idle, pointer_eq hidle, ok_bind, deref_eq hx, ok_bind, if_pos hterm]
    obtain ⟨t', ht', hI', hpast⟩ := hI.endRun hH hft
    refine ⟨t', ht', hI', iff_of_false hpast ?_⟩
    rw [hterm]
    rintro ⟨⟩
  · exact hI.idle_enter hp hidle hx hterm

/-! ### The ends of the scheduler and of the thread -/

/-- Without the variables of `run()`, the fibers of the host are held by two pointers only. -/
theorem NoLocals.noRef (hl : NoLocals t) (hh : ∀ k, 0 < t.handles k → host u < k)
    (hf : f ≤ host u) (hroot : t.rootFiber ≠ some f) (hthread : t.threadFiber ≠ some f) :
    NoRef t f where
  handles := by
    by_contra h
    exact absurd (hh f (Nat.pos_of_ne_zero h)) (not_lt_of_ge hf)
  ft := by rw [hl.ft]; rintro ⟨⟩
  cbFiber := by rw [hl.cbFiber]; rintro ⟨⟩
  idleFiber := by rw [hl.idleFiber]; rintro ⟨⟩
  rootFiber := hroot
  threadFiber := hthread

/-- `~Scheduler` destroys the root fiber. -/
theorem Inv.deleteScheduler (hI : Inv u t) (hp : t.control.point = .outside)
    (hroot : t.rootFiber = some g) :
    Safe u (Fibers.release { t with rootFiber := none } g) := by
  obtain ⟨rfl, ⟨m, hm, hmain⟩, hc, hl, hr⟩ := hI.at_outside hp
  have hB := hI.base
  rcases hr with ⟨h, -⟩ | ⟨hr1, r, hr, hrs, hrf, hrc, hrest⟩
  · rw [h] at hroot
    cases hroot
  rw [hr1] at hroot
  cases hroot
  have hB₁ : Base true { t with rootFiber := none } := by
    refine hB.repoint rfl rfl rfl rfl rfl rfl rfl ?_ hB.handles (fun f hf => Or.inl hf) hB.idleNe
    exact fun k _ hn => ⟨hn.1, hn.2, hn.3, hn.4, by rintro ⟨⟩, hn.6⟩
  have hn : NoRef { t with rootFiber := none } 1 := by
    refine NoLocals.noRef ⟨hl.ft, hl.cbFiber, hl.idleFiber⟩ hB.handles le_rfl (by rintro ⟨⟩) ?_
    show t.threadFiber ≠ some 1
    rw [hB.thread]
    rintro ⟨⟩
  have hzero : ({ t with rootFiber := none } : Thread).useCount 1 = 0 := by
    refine useCount_eq_zero_iff.mpr ⟨hn, ?_⟩
    intro x hx
    cases hr.symm.trans hx
    exact hrf
  have hdone : restartable r.state = true := by
    rcases hrest with h | h <;> rw [h.1] <;> rfl
  have hs : t.control.stack ≠ 1 := by
    rw [hc]
    exact zero_ne_one
  have h0 : (Fibers.freed { t with rootFiber := none } 1 r).heap 0 = some m :=
    (heap_freed_of_ne zero_ne_one).trans hm
  have hw : r.waits = if r.state = .init then r.cb else none := by
    rcases hrest with h | h <;> rw [Fiber.waits, h.1, h.2] <;> rfl
  refine ⟨Fibers.freed { t with rootFiber := none } 1 r, ?_, ⟨hB₁.freed hr hn, ?_, ?_, ?_, ?_⟩, ?_⟩
  · rw [Fibers.release, deref_eq (t := { t with rootFiber := none }) hr, ok_bind, if_pos hzero]
    simp only [destroy, hrs, if_true, hdone, Bool.not_true, Bool.false_eq_true, if_false, if_neg hs]
    rfl
  · intro k z hz
    have hk : k ≠ 1 := by
      rintro rfl
      rw [heap_freed_self] at hz
      cases hz
    have hheap : (Fibers.freed { t with rootFiber := none } 1 r).heap k = t.heap k :=
      heap_freed_of_ne hk
    refine useCount_congr (t := t) ?_ hheap (hI.live k z (hheap.symm.trans hz))
    refine fun h => ⟨h.1, h.2, h.3, h.4, ?_, h.6⟩
    rw [hr1]
    exact fun h => hk (Option.some.inj h).symm
  · intro k z hk
    have hk' : t.cbFiber = some k := hk
    rw [hl.cbFiber] at hk'
    cases hk'
  · exact .outside rfl ⟨m, h0, hmain⟩ hc ⟨hl.ft, hl.cbFiber, hl.idleFiber⟩
      (Or.inl ⟨rfl, heap_freed_self⟩)
  · exact Ledger.freed (t := { t with rootFiber := none }) hI.led hr hs hw
  · show t.control.point ≠ .past
    rw [hc]
    rintro ⟨⟩

/-- What is left of a thread that has ended. -/
structure Left (t : Thread) : Prop where
  this : t.tFiber = none
  dead : ∀ f, t.heap f = none → NoRef t f
  count : t.fiberCount = t.liveCount
  live : Live t
  led : Ledger t

/-- The thread ends, and its fiber is destroyed. -/
theorem Inv.threadExit (hI : Inv u t)
    (hp : t.control.point = .ended ∨ t.control.point = .outside ∧ t.rootFiber = none)
    (hthread : t.threadFiber = some g) :
    ∃ t', Fibers.release { t with threadFiber := none } g = .ok t' ∧ Left t' := by
  have hB := hI.base
  rw [hB.thread] at hthread
  cases hthread
  obtain ⟨⟨m, hm, hmain⟩, hs, hl, hroot⟩ : (∃ m, t.heap 0 = some m ∧ IsMain m) ∧
      t.control.stack = 0 ∧ NoLocals t ∧ t.rootFiber = none := by
    rcases hp with hp | ⟨hp, hroot⟩
    · cases hI.phase with
      | outside _ _ hc => rw [hc] at hp; cases hp
      | called _ _ hc => rcases hc with hc | hc <;> (rw [hc] at hp; cases hp)
      | looping h => rw [h.control] at hp; cases hp
      | away g b h => exact absurd (by rw [hp]; rfl) (hI.frame_ne_none h)
      | returned _ _ h => rw [h.control] at hp; cases hp
      | ended hu hm hc hl ho =>
        subst hu
        exact ⟨hm, by rw [hc], hl, ho⟩
    · obtain ⟨-, hm, hc, hl, -⟩ := hI.at_outside hp
      exact ⟨hm, by rw [hc], hl, hroot⟩
  have hpt : ∀ c, t.control.point ≠ .entry c := by
    rcases hp with hp | hp
    · rw [hp]
      rintro _ ⟨⟩
    · rw [hp.1]
      rintro _ ⟨⟩
  have hn : NoRef { t with threadFiber := none } 0 := by
    refine NoLocals.noRef ⟨hl.ft, hl.cbFiber, hl.idleFiber⟩ hB.handles (Nat.zero_le _) ?_
      (by rintro ⟨⟩)
    show t.rootFiber ≠ some 0
    rw [hroot]
    rintro ⟨⟩
  have hzero : ({ t with threadFiber := none } : Thread).useCount 0 = 0 := by
    refine useCount_eq_zero_iff.mpr ⟨hn, ?_⟩
    intro x hx
    cases hm.symm.trans hx
    exact hmain.frames
  have hthis : t.tFiber = some 0 := by rw [hB.this, hs]
  have h0 : 0 < t.next := hB.lt hm
  refine ⟨{ Fibers.freed { t with threadFiber := none } 0 m with tFiber := none }, ?_, rfl, ?_, ?_,
    ?_, ?_⟩
  · rw [Fibers.release, deref_eq (t := { t with threadFiber := none }) hm, ok_bind, if_pos hzero]
    simp only [destroy, Fibers.freed, hmain.stack, hmain.cb, hmain.state, hthis,
      Option.isSome_none, bne_self_eq_false, Bool.or_self, Bool.false_eq_true, if_false, if_true]
  · intro k hk
    by_cases hk0 : k = 0
    · subst hk0
      exact ⟨hn.1, hn.2, hn.3, hn.4, hn.5, hn.6⟩
    · have h := hB.dead k ((heap_freed_of_ne (x := m) hk0).symm.trans hk)
      exact ⟨h.1, h.2, h.3, h.4, h.5, by rintro ⟨⟩⟩
  · refine (Lib.wrapPred_of_pos (hB.count ▸ liveCount_pos h0 hm)).trans ?_
    rw [hB.count]
    exact Eq.symm (liveCount_freed h0 hm rfl rfl)
  · intro k z hz
    have hk : k ≠ 0 := by
      rintro rfl
      have hnone : (Fibers.freed { t with threadFiber := none } 0 m).heap 0 = none :=
        heap_freed_self
      rw [show (Fibers.freed { t with threadFiber := none } 0 m).heap 0 = some z from hz] at hnone
      cases hnone
    have hheap : (Fibers.freed { t with threadFiber := none } 0 m).heap k = t.heap k :=
      heap_freed_of_ne hk
    refine useCount_congr (t := t) ?_ hheap (hI.live k z (hheap.symm.trans hz))
    refine fun h => ⟨h.1, h.2, h.3, h.4, h.5, ?_⟩
    rw [hB.thread]
    exact fun h => hk (Option.some.inj h).symm
  · refine hI.led.congr rfl rfl ?_ ?_
    · show (if m.state = .init then _ else _) = _
      rw [hmain.state]
      rfl
    · intro k
      by_cases hk : k = 0
      · subst hk
        rw [pending_eq_none hs hpt]
        exact pending_eq_none hs hpt
      · exact pending_congr rfl (heap_freed_of_ne (x := m) hk)

end

end Sylar.Fibers
