import Sylar.Proofs.IOManager.Bits
import Sylar.Spec.Hook

/-!
# `Sylar.Proofs.Hook.Timeout`: when a hooked call keeps its timeout

The timer is armed before the event is registered. If the timer expires and its callback runs in
between, `tinfo->cancelled` is set, `cancelEvent` finds nothing to cancel, and the call then
registers and yields with no timer left (`timeout_lost`). A late callback of an earlier round does
the same to a later one, because all rounds share one `timer_info`.

`Guard` is the condition on a callback under which this cannot happen: it passes its test of
`t->cancelled` only between the registration of its own round and the caller's own test, and the
`epoll_ctl` of its `cancelEvent` succeeds. `timeout_kept` is the promise for every run of guarded
steps, for `do_io` and for `connect_with_timeout`.

The invariant `CallInv` follows the program counter. Before the yield nobody has set `cancelled`.
After it, either nobody has, and the newest timer is still to fire, or the newest timer has, and
its `cancelEvent` is still to come or has cleared the bit.
-/

set_option autoImplicit false

namespace Sylar.Hook

open IOManager (Event Table Entry)

/-- The callback of the newest timer has not reached its store. -/
def Call.Armed (call : Call) : Prop :=
  call.current = some .inSet ∨ call.current = some .expired

/-- The caller has not registered in this round. -/
def Pc.Before : Pc → Prop
  | .call => True
  | .arm => True
  | .register => True
  | _ => False

/-- The condition on a step. -/
def Guard (s : Sys) : Action → Prop
  | .callback i =>
    s.call.pc ≠ .returned → s.call.cancelled = false →
      i + 1 = s.call.timers.length ∧ ¬ s.call.pc.Before
  | .callbackCancel _ ctlOk => ctlOk = true
  | _ => True

/-- The bit of the event of the call is clear, or the process has ended. -/
def Cleared (site : Site) : IOManager.Sys → Prop
  | .running io _ => ¬ io.bitSet site.ctx site.event
  | .aborted _ => True

/-- The invariant of the call, by program counter. -/
def CallInv (site : Site) (s : Sys) : Prop :=
  match s.call.pc with
  | .call => s.call.cancelled = false
  | .arm => s.call.cancelled = false
  | .register => s.call.cancelled = false ∧ s.call.Armed
  | .yield => Round s
  | .suspended => Round s
  | _ => True
where
  /-- The caller has registered and not been resumed. -/
  Round (s : Sys) : Prop :=
    s.call.cancelled = false ∧ s.call.Armed ∨
    s.call.current = some .cancelling ∨
    s.call.current = some .done ∧ Cleared site s.table

/-! ### Timers of the call -/

/-- One timer changes its phase: it is the newest one, or the newest one stays as it is. -/
theorem current_set {timers : List Phase} {i : Nat} {p : Phase} (q : Phase)
    (h : timers[i]? = some p) :
    i + 1 = timers.length ∧ timers.getLast? = some p ∧ (timers.set i q).getLast? = some q ∨
    i + 1 ≠ timers.length ∧ (timers.set i q).getLast? = timers.getLast? := by
  have hi : i < timers.length := (List.getElem?_eq_some_iff.mp h).1
  rw [List.getLast?_eq_getElem?, List.getLast?_eq_getElem?, List.length_set]
  by_cases hlast : i + 1 = timers.length
  · have hidx : timers.length - 1 = i := by omega
    refine Or.inl ⟨hlast, ?_, ?_⟩
    · rw [hidx, h]
    · rw [hidx, List.getElem?_set_self hi]
  · exact Or.inr ⟨hlast, List.getElem?_set_ne (by omega)⟩

section
variable {site : Site} {s : Sys}

/-- A step of the table by somebody else does not register for the event of the call. -/
theorem cleared_step {table table' : IOManager.Sys} {a : IOManager.Action}
    (h : Cleared site table) (hstep : IOManager.step table a = some table')
    (ha : ¬ a.Registers site.ctx site.event) : Cleared site table' := by
  cases table' with
  | aborted why => trivial
  | running io' batches' =>
      cases table with
      | aborted why => cases hstep
      | running io batches =>
          intro hset
          exact h (IOManager.step_bitSet hstep ha hset)

theorem not_registers_of_registers {a : IOManager.Action} (h : ¬ site.registers a = true) :
    ¬ a.Registers site.ctx site.event := by
  cases a with
  | addEvent c e cb caller ctlOk =>
      rintro ⟨rfl, rfl⟩
      exact h (by simp [Site.registers])
  | newContext => exact id
  | delEvent c e ctlOk => exact id
  | cancelEvent c e ctlOk => exact id
  | epollWait t entries => exact id
  | process t ctlOk => exact id

/-- A timer that expires stays armed, and no other phase is the newest one's. -/
theorem armed_expire {i : Nat} (h : s.call.timers[i]? = some .inSet) (harmed : s.call.Armed) :
    Call.Armed { s.call with timers := s.call.timers.set i .expired } := by
  rcases current_set .expired h with ⟨-, -, hnew⟩ | ⟨-, hsame⟩
  · exact Or.inr hnew
  · rcases harmed with hcur | hcur
    · exact Or.inl (hsame.trans hcur)
    · exact Or.inr (hsame.trans hcur)

/-- A phase that is not the one of the timer `i` is kept when `i` moves. -/
theorem current_keep {i : Nat} {p q r : Phase} (h : s.call.timers[i]? = some p)
    (hcur : s.call.current = some q) (hne : p ≠ q) :
    Call.current { s.call with timers := s.call.timers.set i r } = some q := by
  rcases current_set r h with ⟨-, hold, -⟩ | ⟨-, hsame⟩
  · have hpq : some p = some q := hold.symm.trans hcur
    exact absurd (Option.some.inj hpq) hne
  · exact hsame.trans hcur

theorem armed_keep {i : Nat} {r : Phase} (h : s.call.timers[i]? = some .cancelling)
    (harmed : s.call.Armed) :
    Call.Armed { s.call with timers := s.call.timers.set i r } := by
  rcases harmed with hcur | hcur
  · exact Or.inl (current_keep h hcur (by decide))
  · exact Or.inr (current_keep h hcur (by decide))

/-! ### One step -/

/-- The part of the invariant for a registered caller, under the steps of a timer. -/
theorem round_expire {i : Nat} (h : s.call.timers[i]? = some .inSet)
    (hround : CallInv.Round site s) :
    CallInv.Round site
      { s with call := { s.call with timers := s.call.timers.set i .expired } } := by
  rcases hround with ⟨hclear, harmed⟩ | hcur | ⟨hcur, htable⟩
  · exact Or.inl ⟨hclear, armed_expire h harmed⟩
  · exact Or.inr (Or.inl (current_keep h hcur (by decide)))
  · exact Or.inr (Or.inr ⟨current_keep h hcur (by decide), htable⟩)

theorem round_callback {i : Nat} (h : s.call.timers[i]? = some .expired)
    (hpc : s.call.pc ≠ .returned) (hg : Guard s (.callback i)) (hround : CallInv.Round site s) :
    CallInv.Round site { s with call := s.call.runCallback i } := by
  unfold Call.runCallback
  by_cases hset : s.call.cancelled = true
  · rw [if_pos (Or.inr hset)]
    -- The test fails, so this is not the newest timer: that one has set the flag itself.
    rcases hround with ⟨hclear, -⟩ | hcur | ⟨hcur, htable⟩
    · rw [hset] at hclear
      cases hclear
    · exact Or.inr (Or.inl (current_keep h hcur (by decide)))
    · exact Or.inr (Or.inr ⟨current_keep h hcur (by decide), htable⟩)
  · have hclear : s.call.cancelled = false := by simpa using hset
    rw [if_neg (by rintro (hret | htrue) <;> contradiction)]
    rcases current_set .cancelling h with ⟨-, -, hnew⟩ | ⟨hlast, -⟩
    · exact Or.inr (Or.inl hnew)
    · exact absurd (hg hpc hclear).1 hlast

theorem round_callbackCancel {i : Nat} {table : IOManager.Sys}
    (h : s.call.timers[i]? = some .cancelling)
    (hstep : IOManager.step s.table (.cancelEvent site.ctx site.event true) = some table)
    (hround : CallInv.Round site s) :
    CallInv.Round site ⟨table, { s.call with timers := s.call.timers.set i .done }⟩ := by
  have hcleared : Cleared site table := by
    cases htable : s.table with
    | aborted why =>
        rw [htable] at hstep
        cases hstep
    | running io batches =>
        rw [htable] at hstep
        cases table with
        | aborted why => trivial
        | running io' batches' => exact IOManager.step_cancelEvent_clears hstep
  rcases current_set .done h with ⟨-, -, hnew⟩ | ⟨-, hsame⟩
  · exact Or.inr (Or.inr ⟨hnew, hcleared⟩)
  · rcases hround with ⟨hclear, harmed⟩ | hcur | ⟨hcur, -⟩
    · exact Or.inl ⟨hclear, armed_keep h harmed⟩
    · exact Or.inr (Or.inl (hsame.trans hcur))
    · exact Or.inr (Or.inr ⟨hsame.trans hcur, hcleared⟩)

theorem round_other {a : IOManager.Action} {table : IOManager.Sys}
    (hstep : IOManager.step s.table a = some table) (ha : ¬ site.registers a = true)
    (hround : CallInv.Round site s) : CallInv.Round site { s with table := table } := by
  rcases hround with hleft | hcur | ⟨hcur, htable⟩
  · exact Or.inl hleft
  · exact Or.inr (Or.inl hcur)
  · exact Or.inr (Or.inr ⟨hcur, cleared_step htable hstep (not_registers_of_registers ha)⟩)

/-- A step that does not move the caller: what it must keep before the registration, and what
after it. -/
theorem CallInv.stay {s' : Sys} (hinv : CallInv site s) (hpc : s'.call.pc = s.call.pc)
    (hflag : s.call.pc.Before → s.call.cancelled = false → s'.call.cancelled = false)
    (harmed : s.call.pc.Before → s.call.cancelled = false → s.call.Armed → s'.call.Armed)
    (hround : s.call.pc ≠ .returned → Round site s → Round site s') : CallInv site s' := by
  unfold CallInv at hinv ⊢
  rw [hpc]
  cases hcase : s.call.pc with
  | call =>
      simp only [hcase] at hinv
      exact hflag (hcase ▸ trivial) hinv
  | arm =>
      simp only [hcase] at hinv
      exact hflag (hcase ▸ trivial) hinv
  | register =>
      simp only [hcase] at hinv
      exact ⟨hflag (hcase ▸ trivial) hinv.1, harmed (hcase ▸ trivial) hinv.1 hinv.2⟩
  | yield =>
      simp only [hcase] at hinv
      exact hround (by rw [hcase]; decide) hinv
  | suspended =>
      simp only [hcase] at hinv
      exact hround (by rw [hcase]; decide) hinv
  | disarm => trivial
  | test => trivial
  | giveUp => trivial
  | returned => trivial

theorem callInv_expire {i : Nat} (h : s.call.timers[i]? = some .inSet) (hinv : CallInv site s) :
    CallInv site { s with call := { s.call with timers := s.call.timers.set i .expired } } :=
  hinv.stay rfl (fun _ hclear => hclear) (fun _ _ harmed => armed_expire h harmed)
    fun _ hround => round_expire h hround

theorem callInv_callback {i : Nat} (h : s.call.timers[i]? = some .expired)
    (hg : Guard s (.callback i)) (hinv : CallInv site s) :
    CallInv site { s with call := s.call.runCallback i } := by
  have hpc : (s.call.runCallback i).pc = s.call.pc := by
    unfold Call.runCallback
    split <;> rfl
  -- Before the registration the flag is clear, and the guard admits no callback.
  have hlate : s.call.pc.Before → s.call.cancelled = false → False := by
    intro hbefore hclear
    refine (hg ?_ hclear).2 hbefore
    intro hret
    rw [hret] at hbefore
    exact hbefore
  exact hinv.stay hpc (fun hbefore hclear => (hlate hbefore hclear).elim)
    (fun hbefore hclear _ => (hlate hbefore hclear).elim)
    fun hne hround => round_callback h hne hg hround

theorem callInv_callbackCancel {i : Nat} {table : IOManager.Sys}
    (h : s.call.timers[i]? = some .cancelling)
    (hstep : IOManager.step s.table (.cancelEvent site.ctx site.event true) = some table)
    (hinv : CallInv site s) :
    CallInv site ⟨table, { s.call with timers := s.call.timers.set i .done }⟩ :=
  hinv.stay rfl (fun _ hclear => hclear) (fun _ _ harmed => armed_keep h harmed)
    fun _ hround => round_callbackCancel h hstep hround

theorem callInv_other {a : IOManager.Action} {table : IOManager.Sys}
    (hstep : IOManager.step s.table a = some table) (ha : ¬ site.registers a = true)
    (hinv : CallInv site s) : CallInv site { s with table := table } :=
  hinv.stay rfl (fun _ hclear => hclear) (fun _ _ harmed => harmed)
    fun _ hround => round_other hstep ha hround

/-- One guarded step keeps the invariant. -/
theorem step_callInv {s' : Sys} {a : Action} (hinv : CallInv site s) (hg : Guard s a)
    (hstep : step site s a = some s') : CallInv site s' := by
  cases a with
  | io again =>
      simp only [step] at hstep
      split at hstep
      · next hpc =>
        simp only [CallInv, hpc] at hinv
        cases hstep
        cases again with
        | true => exact hinv
        | false => trivial
      · cases hstep
  | addConditionTimer =>
      simp only [step] at hstep
      split at hstep
      · next hpc =>
        simp only [CallInv, hpc] at hinv
        cases hstep
        exact ⟨hinv, Or.inl List.getLast?_concat⟩
      · cases hstep
  | addEvent ctlOk =>
      simp only [step] at hstep
      split at hstep
      · cases hstep
      · split at hstep
        · next hpc hx =>
          simp only [CallInv, hpc] at hinv
          split at hstep
          · -- An assertion of `addEvent` failed: the process ends, and the caller stays.
            cases hstep
            simp only [CallInv, hpc]
            exact hinv
          · next rt io' hadd =>
            cases hstep
            by_cases hrt : rt = 0
            · simp only [CallInv, hrt, if_true]
              exact Or.inl hinv
            · simp only [CallInv, hrt, if_false]
        · cases hstep
  | yieldToHold =>
      simp only [step] at hstep
      split at hstep
      · next hpc =>
        simp only [CallInv, hpc] at hinv
        cases hstep
        exact hinv
      · cases hstep
  | resume =>
      simp only [step] at hstep
      split at hstep
      · cases hstep
      · split at hstep
        · cases hstep
          trivial
        · cases hstep
  | timerCancel =>
      simp only [step] at hstep
      split at hstep
      · cases hstep
        trivial
      · cases hstep
        trivial
      · cases hstep
  | test =>
      simp only [step] at hstep
      split at hstep
      · cases hstep
        -- The caller goes round again only when the flag is clear.
        cases hcan : s.call.cancelled with
        | true => simp [CallInv]
        | false =>
            cases hret : site.retries with
            | true => simp [CallInv]
            | false => simp [CallInv]
      · cases hstep
  | expire i =>
      simp only [step] at hstep
      split at hstep
      · next h =>
        cases hstep
        exact callInv_expire h hinv
      · cases hstep
  | callback i =>
      simp only [step] at hstep
      split at hstep
      · next h =>
        cases hstep
        exact callInv_callback h hg hinv
      · cases hstep
  | callbackCancel i ctlOk =>
      have hok : ctlOk = true := hg
      subst hok
      simp only [step] at hstep
      split at hstep
      · next h =>
        obtain ⟨table, htable, rfl⟩ := Option.map_eq_some_iff.mp hstep
        exact callInv_callbackCancel h htable hinv
      · cases hstep
  | other a =>
      simp only [step] at hstep
      split at hstep
      · cases hstep
      · next ha =>
        obtain ⟨table, htable, rfl⟩ := Option.map_eq_some_iff.mp hstep
        exact callInv_other htable ha hinv

/-- The invariant contains the promise. -/
theorem timeoutKept_of_inv (hinv : CallInv site s) : TimeoutKept site s := by
  rintro io batches htable hpc ⟨x, hx, hbit, -⟩
  simp only [CallInv, hpc] at hinv
  refine Or.inl ?_
  -- The timer is in one of the phases that are pending, or the event is not registered.
  rcases hinv with ⟨-, hcur | hcur⟩ | hcur | ⟨-, hclear⟩
  · exact ⟨.inSet, hcur, by decide⟩
  · exact ⟨.expired, hcur, by decide⟩
  · exact ⟨.cancelling, hcur, by decide⟩
  · rw [htable] at hclear
    exact absurd ⟨x, hx, hbit⟩ hclear

/-- The promise in every state of every run of guarded steps, from every state of the table. -/
theorem timeout_kept (site : Site) (io : Table) (batches : Nat → List Entry)
    (actions : List Action) (s : Sys)
    (hg : Lib.Guarded (step site) Guard (start site io batches) actions)
    (h : Lib.exec (step site) (start site io batches) actions = some s) : TimeoutKept site s :=
  timeoutKept_of_inv (Lib.exec_invariant (fun _ _ _ hi hga hs => step_callInv hi hga hs) actions
    (start site io batches) s rfl hg h)

end

/-- A `read` on the context `0` by the fiber `7`. -/
def readSite : Site := ⟨0, .read, ⟨some 0, 7, true⟩, true⟩

/-- A `connect` on the context `0` by the fiber `7`. -/
def connectSite : Site := ⟨0, .write, ⟨some 0, 7, true⟩, false⟩

/-- A guarded run: the fiber is suspended, its timer expires and the callback sets the flag. The
`cancelEvent` is still to come. -/
theorem timeout_kept_expiring :
    ∃ s, Lib.exec (step readSite) (start readSite ⟨[{}], 0, [], 0⟩ fun _ => [])
        [.io true, .addConditionTimer, .addEvent true, .yieldToHold, .expire 0, .callback 0]
        = some s ∧ s.call.pc = .suspended ∧ TimeoutKept readSite s :=
  ⟨_, rfl, rfl, timeout_kept readSite ⟨[{}], 0, [], 0⟩ (fun _ => [])
    [.io true, .addConditionTimer, .addEvent true, .yieldToHold, .expire 0, .callback 0] _
    ⟨trivial, trivial, trivial, trivial, trivial, fun _ _ => ⟨rfl, id⟩, trivial⟩ rfl⟩

/-- The timer expires and its callback runs between `addConditionTimer` and `addEvent`. -/
def earlyCallback : List Action :=
  [.io true, .addConditionTimer, .expire 0, .callback 0, .callbackCancel 0 true, .addEvent true,
    .yieldToHold]

/-- A call that is suspended with its event registered, no timer left and no wake-up. -/
theorem not_timeoutKept {site : Site} {s : Sys} {io : Table} {batches : Nat → List Entry}
    (htable : s.table = .running io batches) (hpc : s.call.pc = .suspended)
    (hwaiting : Waiting site io) (hdone : s.call.current = some .done)
    (hwake : ¬ s.call.woken < wakeups site.caller.fiber io) : ¬ TimeoutKept site s := by
  intro h
  rcases h io batches htable hpc hwaiting with ⟨p, hcur, hp⟩ | hwoken
  · rw [hdone, Option.some.injEq] at hcur
    exact hp hcur.symm
  · exact hwake hwoken

/-- Without the condition the promise fails, for `do_io` and for `connect_with_timeout`. The timer
expires before the event is registered, its callback finds nothing to cancel, and the fiber is
then suspended with its event registered, no timer and no wake-up. -/
theorem timeout_lost :
    (¬ ∀ (io : Table) (batches : Nat → List Entry) (actions : List Action) (s : Sys),
      Lib.exec (step readSite) (start readSite io batches) actions = some s →
        TimeoutKept readSite s) ∧
    ¬ ∀ (io : Table) (batches : Nat → List Entry) (actions : List Action) (s : Sys),
      Lib.exec (step connectSite) (start connectSite io batches) actions = some s →
        TimeoutKept connectSite s := by
  refine ⟨?_, ?_⟩
  · intro h
    exact not_timeoutKept rfl rfl ⟨_, rfl, rfl, rfl⟩ rfl (by decide)
      (h ⟨[{}], 0, [], 0⟩ (fun _ => []) earlyCallback _ rfl)
  · intro h
    exact not_timeoutKept rfl rfl ⟨_, rfl, rfl, rfl⟩ rfl (by decide)
      (h ⟨[{}], 0, [], 0⟩ (fun _ => []) earlyCallback _ rfl)

end Sylar.Hook
