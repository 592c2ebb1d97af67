import Sylar.Proofs.Fiber.Invariant

/-!
# `Sylar.Proofs.Fiber.Steps`: the parts of a step keep the invariant

A step of the thread is put together from four parts: a task leaves the thread (`Inv.leave`),
`run()` swaps a task in (`Inv.enter`), `run()` goes on behind a `swapIn` (`Base.settled`), and a
pointer goes (`Base.release`). Only the last one frees an object.
-/

set_option autoImplicit false

namespace Sylar.Fibers

open Scheduler (FiberState)

section
variable {u : Bool} {t t' : Thread} {f g k : Nat} {x x' y z : Fiber} {b : Branch} {p : Point}
  {c : Context}

/-! ### Modes and places -/

theorem mode_running (hs : t.control.stack = f) : t.mode f = .running := if_pos hs

theorem mode_returned (hs : t.control.stack ≠ f) (hb : t.control.point = .back f b) :
    t.mode f = .returned := by
  simp only [Thread.mode, if_neg hs, hb, if_true]

theorem mode_parked (hs : t.control.stack ≠ f) (hb : ∀ b, t.control.point ≠ .back f b) :
    t.mode f = .parked := by
  simp only [Thread.mode, if_neg hs]
  split
  · rename_i g b hp
    refine if_neg ?_
    rintro rfl
    exact hb b hp
  · rfl

theorem ne_back_of_frameAt {q : Nat × Option Nat} (h : frameAt f p = some q) :
    ∀ g b, p ≠ .back g b := by
  rintro g b rfl
  cases h

theorem state_of_running (h : stateAt .running x.state p = true) : x.state = .exec := by
  revert h
  cases x.state <;> simp [stateAt]

/-- The task that runs. -/
theorem Base.running (hB : Base u t) (hA : Away u t g b) (hx : t.heap g = some x) :
    x.stack = true ∧ frameAt g t.control.point = some (x.frames, x.cur) ∧ x.state = .exec := by
  have hT := hB.task g _ hA.lt (look_running hA.stack hx)
  rw [mode_running hA.stack] at hT
  exact ⟨hT.stack, hT.frame, state_of_running (x := x) hT.state⟩

/-- A task that does not run. -/
theorem Base.waiting (hB : Base u t) (hlt : host u < f) (hs : t.control.stack ≠ f)
    (hx : t.heap f = some x) : Task (t.mode f) f x :=
  hB.task f x hlt ((look_of_ne hs).trans hx)

theorem Away.hostAt (hA : Away u t g b) (hp : HostAt u t p) : p = .back g b := by
  obtain ⟨y, hy, -, hyc⟩ := hA.hostIs
  obtain ⟨z, hz, rfl⟩ := hp
  have hne : t.control.stack ≠ host u := by
    rw [hA.stack]
    exact hA.lt.ne'
  rw [look_of_ne hne, hy] at hz
  cases hz
  rw [hyc]

theorem AtHost.hostAt {q : Point} (hH : AtHost u t p) (hq : HostAt u t q) : q = p := by
  obtain ⟨y, hy, -⟩ := hH.hostIs
  obtain ⟨z, hz, rfl⟩ := hq
  rw [look_running (by rw [hH.control]) hy] at hz
  cases hz
  rw [hH.control]

theorem AtHost.stack_ne (hH : AtHost u t p) (hlt : host u < f) : t.control.stack ≠ f := by
  rw [hH.control]
  exact hlt.ne

/-- `cb_fiber` is spent unless it has been swapped in. -/
theorem Inv.spent_of_atHost (hI : Inv u t) (hH : AtHost u t p) (hk : t.cbFiber = some k)
    (hz : t.heap k = some z) (hp : p ≠ .back k .cb) : Spent z := by
  have hlt := hI.base.locals k (Or.inr (Or.inl hk))
  rcases hI.cb k z hk hz with h | h | h
  · exact h
  · exact absurd (hH.hostAt h).symm hp
  · exact absurd h.1 (hH.stack_ne hlt)

/-! ### Objects that do not change -/

theorem useCount_congr (hn : NoRef t' f → NoRef t f) (hx : t'.heap f = t.heap f)
    (h : 0 < t.useCount f) : 0 < t'.useCount f := by
  refine Nat.pos_of_ne_zero fun hzero => h.ne' ?_
  obtain ⟨hr, hf⟩ := useCount_eq_zero_iff.mp hzero
  exact useCount_eq_zero_iff.mpr ⟨hn hr, fun x hx' => hf x (hx.trans hx')⟩

theorem isSome_set (hx : t.heap g = some x) (f : Nat) :
    ((t.set g x').heap f).isSome = (t.heap f).isSome := by
  by_cases hf : f = g
  · subst hf
    rw [heap_set_self, hx]
    rfl
  · rw [heap_set_of_ne hf]

theorem Outer.congr (h : Outer u t) (hr : t'.rootFiber = t.rootFiber)
    (h0 : u = true → t'.heap 0 = t.heap 0) : Outer u t' := by
  cases u with
  | false => exact hr.trans h
  | true =>
    obtain ⟨h1, m, hm, hrest⟩ := h
    exact ⟨hr.trans h1, m, (h0 rfl).trans hm, hrest⟩

theorem Pinned.congr (h : Pinned t g b) (hft : t'.ft = t.ft) (hcb : t'.cbFiber = t.cbFiber)
    (hi : t'.idleFiber = t.idleFiber) : Pinned t' g b := by
  cases b with
  | fiber => exact hft.trans h
  | cb => exact ⟨hft.trans h.1, hcb.trans h.2⟩
  | idle => exact ⟨hft.trans h.1, hi.trans h.2⟩

/-! ### A task leaves -/

/-- The task that runs saves its context, and the thread is behind the `swapIn`. -/
theorem Inv.leave (hI : Inv u t) (hA : Away u t g b) (hx : t.heap g = some x)
    (hpt : t.control.point = .callback none)
    (hstack : x'.stack = true) (hown : x'.ctx.stack = g)
    (hframe : frameAt g x'.ctx.point = some (x'.frames, x'.cur))
    (hstate : stateAt .returned x'.state x'.ctx.point = true)
    (hcb : t.cbFiber = some g → b ≠ .cb → Spent x') :
    Inv u ((t.set g x').goto ⟨host u, .back g b⟩) := by
  have hB := hI.base
  have hlt := hA.lt
  obtain ⟨y, hy, hhost, hyc⟩ := hA.hostIs
  have hself : ((t.set g x').goto ⟨host u, .back g b⟩).heap g = some x' := heap_set_self
  have hheap : ∀ f, f ≠ g → ((t.set g x').goto ⟨host u, .back g b⟩).heap f = t.heap f :=
    fun f hf => heap_set_of_ne hf
  have hrefs : ∀ f, NoRef ((t.set g x').goto ⟨host u, .back g b⟩) f ↔ NoRef t f :=
    fun f => ⟨fun h => ⟨h.1, h.2, h.3, h.4, h.5, h.6⟩, fun h => ⟨h.1, h.2, h.3, h.4, h.5, h.6⟩⟩
  refine ⟨hB.change (g := g) rfl rfl (isSome_set hx) rfl rfl rfl (fun f _ => (hrefs f).mpr)
    hB.handles (fun f hf => Or.inl hf) hB.idleNe ?_ ?_, ?_, ?_, ?_, ?_⟩
  · intro f hf hfg
    have hs : t.control.stack ≠ f := fun h => hfg (h.symm.trans hA.stack)
    refine ⟨(look_of_ne hf.ne).trans ((hheap f hfg).trans (look_of_ne hs).symm), ?_⟩
    rw [mode_parked hs fun b' => ne_back_of_frameAt (hB.running hA hx).2.1 f b']
    refine mode_parked hf.ne ?_
    intro b' h
    cases h
    exact hfg rfl
  · intro _ z hz
    rw [look_of_ne hlt.ne, hself] at hz
    cases hz
    rw [mode_returned hlt.ne rfl]
    exact ⟨hstack, hown, hframe, hstate⟩
  · intro f z hz
    by_cases hf : f = g
    · subst hf
      exact useCount_pos fun hn => hA.pin.isLocal.not_noRef ((hrefs f).mp hn)
    · exact useCount_congr (hrefs f).mp (hheap f hf) (hI.live f z ((hheap f hf).symm.trans hz))
  · intro k z hk hz
    by_cases hkg : k = g
    · subst hkg
      rw [hself] at hz
      cases hz
      by_cases hb : b = .cb
      · subst hb
        exact Or.inr (Or.inl ⟨_, look_running rfl ((hheap _ hlt.ne).trans hy), rfl⟩)
      · exact Or.inl (hcb hk hb)
    · rw [hheap k hkg] at hz
      rcases hI.cb k z hk hz with h | h | h
      · exact Or.inl h
      · cases hA.hostAt h
        exact absurd rfl hkg
      · exact absurd (h.1.symm.trans hA.stack) hkg
  · exact .returned g b ⟨⟨y, (hheap _ hlt.ne).trans hy, hhost⟩, rfl, hA.idle,
      hA.outer.congr rfl fun _ => hheap 0 (by omega)⟩ hlt (hA.pin.congr rfl rfl rfl)
  · refine hI.led.congr rfl rfl rfl ?_
    intro f
    by_cases hf : f = g
    · subst hf
      rw [pending_of_ne hlt.ne, hself, pending_eq_none hA.stack (by rw [hpt]; rintro _ ⟨⟩)]
      refine Fiber.waits_eq_none ?_
      intro c h
      rw [h] at hstate
      revert hstate
      cases x'.state <;> simp [stateAt]
    · have hs : t.control.stack ≠ f := fun h => hf (h.symm.trans hA.stack)
      by_cases hfh : f = host u
      · subst hfh
        have hnone : ((t.set g x').goto ⟨host u, .back g b⟩).pending (host u) = none :=
          pending_eq_none rfl (by rintro _ ⟨⟩)
        rw [hnone, pending_of_ne hs, hy]
        exact (Fiber.waits_eq_none (by rw [hyc]; rintro _ ⟨⟩)).symm
      · exact pending_congr_of_ne hs (Ne.symm hfh) (hheap f hf)

/-! ### A task is swapped in -/

/-- `swapIn` of a task that `run()` holds. -/
theorem Inv.enter (hB : Base u t) (hL : Live t) (hC : Ledger t) (hH : AtHost u t .top)
    (hlt : host u < f)
    (hx : t.heap f = some x) (hstate : x.state ≠ .exec) (hp : Pinned t f b)
    (hspent : ∀ k z, t.cbFiber = some k → k ≠ f → t.heap k = some z → Spent z)
    (hcb : t.cbFiber = some f → b ≠ .cb → x.cb = none) :
    ∃ t', swapIn t f (.back f b) = .ok t' ∧ Inv u t' ∧ t'.control = x.ctx := by
  obtain ⟨y, hy, hhost⟩ := hH.hostIs
  have hs : t.control.stack = host u := by rw [hH.control]
  have hsf : t.control.stack ≠ f := hH.stack_ne hlt
  have hT := hB.waiting hlt hsf hx
  have hframe := hT.frame
  refine ⟨_, swapIn_eq hB.sched hx hy hlt.ne' hstate hT.own, ?_, rfl⟩
  rw [hs]
  generalize hx₁ : ({ x with state := .exec } : Fiber) = x₁
  generalize hy₁ : ({ y with ctx := ⟨host u, .back f b⟩ } : Fiber) = y₁
  -- The saved context is one of the stack of `f`.
  obtain ⟨xc, hxc⟩ : ∃ xc : Point, x.ctx = ⟨f, xc⟩ := ⟨x.ctx.point, by rw [← hT.own]⟩
  rw [hxc] at hframe ⊢
  have hfself : (((t.set f x₁).set (host u) y₁).goto ⟨f, xc⟩).heap f = some x₁ :=
    (heap_set_of_ne hlt.ne').trans heap_set_self
  have hhself : (((t.set f x₁).set (host u) y₁).goto ⟨f, xc⟩).heap (host u) = some y₁ :=
    heap_set_self
  have hheap : ∀ k, k ≠ f → k ≠ host u →
      (((t.set f x₁).set (host u) y₁).goto ⟨f, xc⟩).heap k = t.heap k :=
    fun k hkf hkh => (heap_set_of_ne hkh).trans (heap_set_of_ne hkf)
  have hrefs : ∀ k, NoRef (((t.set f x₁).set (host u) y₁).goto ⟨f, xc⟩) k ↔ NoRef t k :=
    fun k => ⟨fun h => ⟨h.1, h.2, h.3, h.4, h.5, h.6⟩, fun h => ⟨h.1, h.2, h.3, h.4, h.5, h.6⟩⟩
  have hsome : ∀ k, ((((t.set f x₁).set (host u) y₁).goto ⟨f, xc⟩).heap k).isSome
      = (t.heap k).isSome := fun k =>
    (isSome_set (t := t.set f x₁) ((heap_set_of_ne hlt.ne).trans hy) k).trans (isSome_set hx k)
  have hat : HostAt u (((t.set f x₁).set (host u) y₁).goto ⟨f, xc⟩) (.back f b) :=
    ⟨y₁, (look_of_ne hlt.ne').trans hhself, by rw [← hy₁]⟩
  have htop : ∀ k b, t.control.point ≠ .back k b := by
    rw [hH.control]
    intro k b h
    cases h
  refine ⟨hB.change (g := f) rfl rfl hsome rfl rfl rfl (fun k _ => (hrefs k).mpr) hB.handles
    (fun k hk => Or.inl hk) hB.idleNe ?_ ?_, ?_, ?_, ?_, ?_⟩
  · intro k hk hkf
    have hsk : t.control.stack ≠ k := hH.stack_ne hk
    refine ⟨(look_of_ne (Ne.symm hkf)).trans ((hheap k hkf hk.ne').trans (look_of_ne hsk).symm), ?_⟩
    rw [mode_parked hsk (htop k)]
    exact mode_parked (Ne.symm hkf) fun b' => ne_back_of_frameAt hframe k b'
  · intro _ z hz
    rw [look_running (f := f) rfl hfself] at hz
    cases hz
    rw [mode_running (f := f) rfl]
    refine ⟨?_, rfl, ?_, ?_⟩ <;> rw [← hx₁]
    · exact hT.stack
    · exact hframe
    · rfl
  · intro k z hz
    by_cases hkf : k = f
    · subst hkf
      exact useCount_pos fun hn => hp.isLocal.not_noRef ((hrefs k).mp hn)
    · by_cases hkh : k = host u
      · subst hkh
        have hframes : y₁.frames = y.frames := by rw [← hy₁]
        refine Nat.pos_of_ne_zero fun hzero => (hL _ y hy).ne' ?_
        obtain ⟨hr, hfr⟩ := useCount_eq_zero_iff.mp hzero
        refine useCount_eq_zero_iff.mpr ⟨(hrefs _).mp hr, ?_⟩
        intro w hw
        rw [hy] at hw
        cases hw
        rw [← hframes]
        exact hfr y₁ hhself
      · have hk := hheap k hkf hkh
        exact useCount_congr (hrefs k).mp hk (hL k z (hk.symm.trans hz))
  · intro k z hk hz
    by_cases hkf : k = f
    · subst hkf
      rw [hfself] at hz
      cases hz
      by_cases hb : b = .cb
      · subst hb
        exact Or.inr (Or.inl hat)
      · exact Or.inr (Or.inr ⟨rfl, by rw [← hx₁]; exact hcb hk hb⟩)
    · have hklt := hB.locals k (Or.inr (Or.inl hk))
      rw [hheap k hkf hklt.ne'] at hz
      exact Or.inl (hspent k z hk hkf hz)
  · refine .away f b ⟨⟨y₁, hhself, ?_, by rw [← hy₁]⟩, rfl, hlt, hp.congr rfl rfl rfl, hH.idle, ?_⟩
    · subst hy₁
      cases u with
      | false => exact ⟨hhost.1, hhost.2, hhost.3, hhost.4⟩
      | true => exact hhost
    · refine hH.outer.congr rfl ?_
      rintro rfl
      exact hheap 0 (by omega) (by decide)
  · refine hC.congr rfl rfl rfl ?_
    intro k
    by_cases hkf : k = f
    · subst hkf
      rw [pending_running (f := k) rfl hfself, pending_of_ne hsf, hx, ← hx₁]
      show Fiber.waits _ = Fiber.waits _
      rw [Fiber.waits, Fiber.waits, hxc]
      rfl
    · by_cases hkh : k = host u
      · subst hkh
        rw [pending_of_ne (Ne.symm hkf), hhself, ← hy₁,
          pending_eq_none hs (by rw [hH.control]; rintro _ ⟨⟩)]
        rfl
      · have hsk : t.control.stack ≠ k := by rw [hs]; exact Ne.symm hkh
        exact pending_congr_of_ne hsk (Ne.symm hkf) (hheap k hkf hkh)

/-! ### A task goes on -/

/-- The task that runs gets to another point. -/
theorem Inv.stay (hI : Inv u t) (hA : Away u t g b) (hx : t.heap g = some x)
    (hheap : t'.heap = (t.set g x').heap) (hcontrol : t'.control = ⟨g, p⟩)
    (hnext : t'.next = t.next) (hcount : t'.fiberCount = t.fiberCount)
    (hthis : t'.tFiber = t.tFiber) (hsched : t'.schedulerFiber = t.schedulerFiber)
    (hrefs : ∀ f, NoRef t' f ↔ NoRef t f) (hhandles : t'.handles = t.handles)
    (hft : t'.ft = t.ft) (hcbF : t'.cbFiber = t.cbFiber) (hidle : t'.idleFiber = t.idleFiber)
    (hroot : t'.rootFiber = t.rootFiber) (hthread : t'.threadFiber = t.threadFiber)
    (hstack : x'.stack = x.stack) (hstate : x'.state = x.state) (hcb : x'.cb = x.cb)
    (hframe : frameAt g p = some (x'.frames, x'.cur)) (hC : Ledger t') : Inv u t' := by
  have hB := hI.base
  have hlt := hA.lt
  obtain ⟨hxs, hxf, hxe⟩ := hB.running hA hx
  obtain ⟨y, hy, hhost, hyc⟩ := hA.hostIs
  have hself : t'.heap g = some x' := by rw [hheap]; exact heap_set_self
  have hne : ∀ f, f ≠ g → t'.heap f = t.heap f := by
    intro f hf
    rw [hheap]
    exact heap_set_of_ne hf
  have hstack' : t'.control.stack = g := by rw [hcontrol]
  refine ⟨hB.change (g := g) hnext hcount ?_ ?_ hthread hsched (fun f _ => (hrefs f).mpr) ?_ ?_ ?_
    ?_ ?_, ?_, ?_, ?_, hC⟩
  · intro f
    rw [hheap]
    exact isSome_set hx f
  · rw [hthis, hB.this, hstack', hA.stack]
  · rw [hhandles]
    exact hB.handles
  · intro f hf
    rw [IsLocal, hft, hcbF, hidle] at hf
    exact Or.inl hf
  · rw [hcbF, hidle]
    exact hB.idleNe
  · intro f hf hfg
    have hs : t.control.stack ≠ f := fun h => hfg (h.symm.trans hA.stack)
    have hs' : t'.control.stack ≠ f := fun h => hfg (h.symm.trans hstack')
    refine ⟨(look_of_ne hs').trans ((hne f hfg).trans (look_of_ne hs).symm), ?_⟩
    rw [mode_parked hs fun b' => ne_back_of_frameAt hxf f b']
    refine mode_parked hs' fun b' => ?_
    rw [hcontrol]
    exact ne_back_of_frameAt hframe f b'
  · intro _ z hz
    rw [look_running hstack' hself] at hz
    cases hz
    rw [mode_running hstack', hcontrol]
    refine ⟨hstack.trans hxs, rfl, hframe, ?_⟩
    dsimp only
    rw [hstate, hxe]
    rfl
  · intro f z hz
    by_cases hf : f = g
    · subst hf
      exact useCount_pos fun hn => hA.pin.isLocal.not_noRef ((hrefs f).mp hn)
    · exact useCount_congr (hrefs f).mp (hne f hf) (hI.live f z ((hne f hf).symm.trans hz))
  · intro k z hk hz
    rw [hcbF] at hk
    have hold : ∀ w, t.heap k = some w → w.state = z.state → w.cb = z.cb → CbOk u t' k z := by
      intro w hw hws hwc
      rcases hI.cb k w hk hw with h | ⟨v, hv, hvp⟩ | h
      · refine Or.inl ?_
        rw [Spent, hws, hwc] at h
        exact h
      · refine Or.inr (Or.inl ⟨v, ?_, hvp⟩)
        rw [look_of_ne (by rw [hA.stack]; exact hlt.ne')] at hv
        rw [look_of_ne (by rw [hstack']; exact hlt.ne'), hne _ hlt.ne, hv]
      · exact Or.inr (Or.inr ⟨hstack'.trans (hA.stack.symm.trans h.1), hwc.symm.trans h.2⟩)
    by_cases hkg : k = g
    · subst hkg
      rw [hself] at hz
      cases hz
      exact hold x hx hstate.symm hcb.symm
    · exact hold z ((hne k hkg).symm.trans hz) rfl rfl
  · exact .away g b ⟨⟨y, (hne _ hlt.ne).trans hy, hhost, hyc⟩, hstack', hlt,
      hA.pin.congr hft hcbF hidle, hidle ▸ hA.idle, hA.outer.congr hroot fun _ => hne 0 (by omega)⟩

/-! ### `run()` goes on -/

/-- `run()` has looked at the state of the task it had swapped in. -/
theorem Base.settled (hB : Base u t) (hH : AtHost u t (.back f b)) (hlt : host u < f)
    (hx : t.heap f = some x) (hheap : t'.heap = (t.set f x').heap)
    (hcontrol : t'.control = ⟨host u, .top⟩) (hnext : t'.next = t.next)
    (hcount : t'.fiberCount = t.fiberCount) (hthis : t'.tFiber = t.tFiber)
    (hthread : t'.threadFiber = t.threadFiber) (hsched : t'.schedulerFiber = t.schedulerFiber)
    (hdead : ∀ k, t.heap k = none → NoRef t k → NoRef t' k)
    (hhandles : ∀ k, 0 < t'.handles k → host u < k)
    (hlocals : ∀ k, IsLocal t' k → IsLocal t k) (hidle : t'.idleFiber = t.idleFiber)
    (hcb : ∀ k, t'.cbFiber = some k → t.cbFiber = some k)
    (hstack : x'.stack = true) (hown : x'.ctx.stack = f)
    (hframe : frameAt f x'.ctx.point = some (x'.frames, x'.cur))
    (hstate : stateAt .parked x'.state x'.ctx.point = true) : Base u t' := by
  have hself : t'.heap f = some x' := by rw [hheap]; exact heap_set_self
  have hne : ∀ k, k ≠ f → t'.heap k = t.heap k := by
    intro k hk
    rw [hheap]
    exact heap_set_of_ne hk
  have hs : ∀ k, host u < k → t'.control.stack ≠ k := by
    intro k hk
    rw [hcontrol]
    exact hk.ne
  have htop : ∀ k b, t'.control.point ≠ .back k b := by
    rw [hcontrol]
    intro k b h
    cases h
  refine hB.change (g := f) hnext hcount ?_ ?_ hthread hsched hdead hhandles
    (fun k hk => Or.inl (hlocals k hk)) ?_ ?_ ?_
  · intro k
    rw [hheap]
    exact isSome_set hx k
  · rw [hthis, hB.this, hcontrol, hH.control]
  · intro k hk
    rw [hidle]
    exact hB.idleNe k (hcb k hk)
  · intro k hk hkf
    have hsk := hH.stack_ne hk
    refine ⟨(look_of_ne (hs k hk)).trans ((hne k hkf).trans (look_of_ne hsk).symm), ?_⟩
    rw [mode_parked (hs k hk) (htop k), mode_parked hsk]
    intro b' h
    rw [hH.control] at h
    cases h
    exact hkf rfl
  · intro _ z hz
    rw [look_of_ne (hs f hlt), hself] at hz
    cases hz
    rw [mode_parked (hs f hlt) (htop f)]
    exact ⟨hstack, hown, hframe, hstate⟩

/-- The task behind a `swapIn`. -/
theorem Base.behind (hB : Base u t) (hH : AtHost u t (.back f b)) (hlt : host u < f)
    (hx : t.heap f = some x) : Task .returned f x := by
  have hs := hH.stack_ne hlt
  have hT := hB.waiting hlt hs hx
  rwa [mode_returned hs (by rw [hH.control])] at hT

/-! ### A pointer goes -/

/-- What a release keeps: everything but the object `f`. -/
structure Kept (f : Nat) (t t' : Thread) : Prop where
  heap : ∀ k, k ≠ f → t'.heap k = t.heap k
  control : t'.control = t.control
  ft : t'.ft = t.ft
  cbFiber : t'.cbFiber = t.cbFiber
  idleFiber : t'.idleFiber = t.idleFiber
  rootFiber : t'.rootFiber = t.rootFiber

theorem Kept.refl (f : Nat) (t : Thread) : Kept f t t :=
  ⟨fun _ _ => rfl, rfl, rfl, rfl, rfl, rfl⟩

theorem AtHost.kept (h : AtHost u t p) (hK : Kept f t t') (hlt : host u < f) : AtHost u t' p := by
  obtain ⟨y, hy, hhost⟩ := h.hostIs
  exact ⟨⟨y, (hK.heap _ hlt.ne).trans hy, hhost⟩, hK.control.trans h.control,
    hK.idleFiber ▸ h.idle, h.outer.congr hK.rootFiber fun _ => hK.heap 0 (by omega)⟩

theorem NoLocals.kept (h : NoLocals t) (hK : Kept f t t') : NoLocals t' :=
  ⟨hK.ft.trans h.ft, hK.cbFiber.trans h.cbFiber, hK.idleFiber.trans h.idleFiber⟩

theorem Phase.kept (h : Phase u t) (hK : Kept f t t') (hlt : host u < f) : Phase u t' := by
  have h0 : t'.heap 0 = t.heap 0 := hK.heap 0 (by omega)
  have houter : Outer u t → Outer u t' := fun ho => ho.congr hK.rootFiber fun _ => h0
  cases h with
  | outside hu hm hc hl hr =>
    have h1 : t'.heap 1 = t.heap 1 := hK.heap 1 (by subst hu; exact hlt.ne)
    refine .outside hu (h0 ▸ hm) (hK.control.trans hc) (hl.kept hK) ?_
    rw [RootIdle, hK.rootFiber, h1]
    exact hr
  | called hu hr hc hl ho =>
    have h1 : t'.heap 1 = t.heap 1 := hK.heap 1 (by subst hu; exact hlt.ne)
    exact .called hu (h1 ▸ hr) (hK.control ▸ hc) (hl.kept hK) (houter ho)
  | looping h hft => exact .looping (h.kept hK hlt) (hK.ft.trans hft)
  | away g b h =>
    refine .away g b ⟨?_, hK.control ▸ h.stack, h.lt,
      h.pin.congr hK.ft hK.cbFiber hK.idleFiber, hK.idleFiber ▸ h.idle, houter h.outer⟩
    obtain ⟨y, hy, hrest⟩ := h.hostIs
    exact ⟨y, (hK.heap _ hlt.ne).trans hy, hrest⟩
  | returned g b h hg hp =>
    exact .returned g b (h.kept hK hlt) hg (hp.congr hK.ft hK.cbFiber hK.idleFiber)
  | ended hu hm hc hl ho =>
    exact .ended hu (h0 ▸ hm) (hK.control.trans hc) (hl.kept hK) (houter ho)

/-- A step that keeps everything but a task keeps the phase, and `cb_fiber`. -/
theorem Inv.kept (hI : Inv u t) (hK : Kept f t t') (hlt : host u < f)
    (hf : t.cbFiber = some f → t'.heap f = t.heap f) (hB : Base u t') (hL : Live t')
    (hC : Ledger t') : Inv u t' := by
  refine ⟨hB, hL, ?_, hI.phase.kept hK hlt, hC⟩
  intro k z hk hz
  rw [hK.cbFiber] at hk
  have hz' : t.heap k = some z := by
    by_cases hkf : k = f
    · subst hkf
      exact (hf hk).symm.trans hz
    · exact (hK.heap k hkf).symm.trans hz
  have hlook : t'.look (host u) = t.look (host u) := by
    rw [Thread.look, Thread.look, hK.heap _ hlt.ne, hK.control]
  rw [CbOk, HostAt, hlook, hK.control]
  exact hI.cb k z hk hz'

/-- A parked task without pointers in its frames can be destroyed. -/
theorem Task.can_restart (hT : Task .parked f x) (hf : x.frames = 0) :
    restartable x.state = true := by
  have hframe := hT.frame
  have hstate := hT.state
  rw [hf] at hframe
  revert hframe hstate
  cases x.ctx.point with
  | entry c => cases x.state <;> simp [stateAt, restartable, FiberState.finished]
  | callback c =>
    cases c with
    | none => simp [frameAt]
    | some g => simp [frameAt]
  | past => cases x.state <;> simp [stateAt, restartable, FiberState.finished]
  | _ => simp [frameAt]

theorem stack_ne_of_parked (h : t.mode f = .parked) : t.control.stack ≠ f := by
  intro hs
  rw [mode_running hs] at h
  cases h

/-- The thread when the task `f` has been destroyed. -/
def freed (t : Thread) (f : Nat) (x : Fiber) : Thread :=
  { t with
    heap := Function.update t.heap f none
    fiberCount := Lib.wrapPred t.fiberCount
    discarded := if x.state = .init then t.discarded ++ x.cb.toList else t.discarded }

theorem heap_freed_of_ne (h : k ≠ f) : (freed t f x).heap k = t.heap k := Function.update_of_ne h ..

theorem heap_freed_self : (freed t f x).heap f = none := Function.update_self ..

theorem Base.freed (hB : Base u t) (hx : t.heap f = some x) (hr : NoRef t f) :
    Base u (freed t f x) := by
  have hn : f < t.next := hB.lt hx
  have hlook : ∀ k, k ≠ f → (Fibers.freed t f x).look k = t.look k := by
    intro k hk
    rw [Thread.look, heap_freed_of_ne hk]
    rfl
  refine ⟨?_, hB.hostLt, ?_, ?_, hB.this, hB.thread, hB.sched, hB.handles, hB.locals, hB.idleNe,
    ?_⟩
  · intro k hk
    rw [heap_freed_of_ne (by have : t.next ≤ k := hk; omega)]
    exact hB.fresh k hk
  · intro k hk
    by_cases hkf : k = f
    · subst hkf
      exact ⟨hr.1, hr.2, hr.3, hr.4, hr.5, hr.6⟩
    · rw [heap_freed_of_ne hkf] at hk
      have h := hB.dead k hk
      exact ⟨h.1, h.2, h.3, h.4, h.5, h.6⟩
  · have hc : (Fibers.freed t f x).liveCount = t.liveCount - 1 := liveCount_freed hn hx rfl rfl
    rw [hc, ← hB.count]
    exact Lib.wrapPred_of_pos (hB.count ▸ liveCount_pos hn hx)
  · intro k z hk hz
    by_cases hkf : k = f
    · subst hkf
      rw [look_eq_none.mpr heap_freed_self] at hz
      cases hz
    · rw [hlook k hkf] at hz
      exact hB.task k z hk hz

/-- The callback of a fiber that is destroyed before it has started is destroyed with it. -/
theorem Ledger.freed (hC : Ledger t) (hx : t.heap f = some x) (hs : t.control.stack ≠ f)
    (hw : x.waits = if x.state = .init then x.cb else none) : Ledger (freed t f x) := by
  have hpend : (Fibers.freed t f x).pending = Function.update t.pending f none := by
    funext k
    by_cases hk : k = f
    · subst hk
      rw [Function.update_self, Thread.pending, look_eq_none.mpr heap_freed_self]
      rfl
    · rw [Function.update_of_ne hk]
      exact pending_congr rfl (heap_freed_of_ne hk)
  have hdone : (Fibers.freed t f x).discarded = t.discarded ++ (t.pending f).toList := by
    rw [pending_of_ne hs, hx]
    show (if x.state = .init then _ else _) = _ ++ x.waits.toList
    rw [hw]
    split
    · rfl
    · rw [Option.toList_none, List.append_nil]
  rw [Ledger, hpend, hdone, ← List.append_assoc]
  exact Lib.Tickets.close hC f

theorem Task.waits_eq (hT : Task .parked f x) :
    x.waits = if x.state = .init then x.cb else none := by
  have hstate := hT.state
  rw [Fiber.waits]
  revert hstate
  cases x.ctx.point <;> cases x.state <;> simp [stateAt]

/-- A pointer to a task has gone. -/
theorem Base.release (hB : Base u t) (hL : ∀ k z, k ≠ f → t.heap k = some z → 0 < t.useCount k)
    (hlt : host u < f) (hx : t.heap f = some x) (hpark : t.mode f = .parked ∨ 0 < t.useCount f) :
    ∃ t', release t f = .ok t' ∧ Base u t' ∧ Live t' ∧ Kept f t t' ∧
      (t.cbFiber = some f → t'.heap f = t.heap f) ∧ (Ledger t → Ledger t') := by
  by_cases hzero : t.useCount f = 0
  · obtain ⟨hr, hf⟩ := useCount_eq_zero_iff.mp hzero
    have hmode : t.mode f = .parked := hpark.resolve_right (by omega)
    have hs := stack_ne_of_parked hmode
    have hT : Task .parked f x := hmode ▸ hB.waiting hlt hs hx
    refine ⟨Fibers.freed t f x, ?_, hB.freed hx hr, ?_,
      ⟨fun k hk => heap_freed_of_ne hk, rfl, rfl, rfl, rfl, rfl⟩,
      fun h => absurd h hr.cbFiber, fun hC => hC.freed hx hs hT.waits_eq⟩
    · rw [Fibers.release, deref_eq hx]
      refine (if_pos hzero).trans ?_
      simp only [destroy, hT.stack, if_true, hT.can_restart (hf x hx), Bool.not_true,
        Bool.false_eq_true, if_false, if_neg hs]
      rfl
    · intro k z hz
      have hkf : k ≠ f := by
        rintro rfl
        rw [heap_freed_self] at hz
        cases hz
      rw [heap_freed_of_ne hkf] at hz
      refine useCount_congr ?_ (heap_freed_of_ne hkf) (hL k z hkf hz)
      exact fun h => ⟨h.1, h.2, h.3, h.4, h.5, h.6⟩
  · refine ⟨t, ?_, hB, ?_, Kept.refl f t, fun _ => rfl, id⟩
    · rw [Fibers.release, deref_eq hx]
      exact if_neg hzero
    · intro k z hz
      by_cases hkf : k = f
      · subst hkf
        omega
      · exact hL k z hkf hz

end

end Sylar.Fibers
