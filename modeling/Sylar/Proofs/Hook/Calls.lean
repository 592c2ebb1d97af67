import Sylar.Proofs.Timer.TimerSet
import Sylar.Spec.HookCalls

/-!
# `Sylar.Proofs.Hook.Calls`: where the hooked calls end

Some branches of the wrappers use the plain name where they mean the original. `Delegates` are the
calls that do not get there. They end in their first invocation (`wrapper_of_delegates`). The others
come back to such a call with the same descriptors, so no stack is deep enough (`run_of_not`).

A hooked sleep asks for the right time as long as its number of milliseconds fits the type that it
passes through, 32 bits for `sleep` and 31 for `nanosleep`.
-/

set_option autoImplicit false

namespace Sylar.HookCalls

open Lib

/-! ### Termination -/

/-- The branches that call an original. -/
def Delegates (env : Env) : Call → Prop
  | .close _ => env.hookEnable = true
  | .nanosleep _ _ => env.hookEnable = true
  | .fcntl _ cmd _ => cmd ≠ .getfl ∧ ∀ n, cmd ≠ .other n
  | .ioctl fd request _ _ => request = .fionbio →
    ∃ ctx, env.get fd = some ctx ∧ ctx.isSocket = false ∧ ctx.isClosed = false

section
variable {kernel : Call → BitVec 32} {self : Call → Env → Option Outcome} {call : Call} {env : Env}
  {fd : Int} {cmd : FcntlCmd} {request : IoctlRequest} {arg : BitVec 64} {value : Int}

theorem fcntl_of_delegates (hget : cmd ≠ .getfl) (hother : ∀ n, cmd ≠ .other n) :
    ∃ outcome, fcntl kernel self fd cmd arg env = some outcome ∧ outcome.finals.length = 1 := by
  cases cmd with
  | getfl => exact absurd rfl hget
  | other n => exact absurd rfl (hother n)
  | setfl =>
      rw [fcntl]
      cases env.get fd with
      | none => exact ⟨_, rfl, rfl⟩
      | some ctx =>
          simp only
          cases ctx.isClosed || ctx.isSocket with
          | true => exact ⟨_, rfl, rfl⟩
          | false => exact ⟨_, rfl, rfl⟩
  | _ => exact ⟨_, rfl, rfl⟩

theorem ioctl_of_delegates (h : request = .fionbio →
    ∃ ctx, env.get fd = some ctx ∧ ctx.isSocket = false ∧ ctx.isClosed = false) :
    ∃ outcome, ioctl kernel self fd request arg value env = some outcome ∧
      outcome.finals.length = 1 := by
  cases request with
  | other n => exact ⟨_, rfl, rfl⟩
  | fionbio =>
      obtain ⟨ctx, hctx, hsocket, hclosed⟩ := h rfl
      rw [ioctl, hctx]
      simp only [hsocket, hclosed]
      exact ⟨_, rfl, rfl⟩

variable (self) in
/-- A delegating call ends in its first invocation, with one final call. -/
theorem wrapper_of_delegates (h : Delegates env call) :
    ∃ outcome, wrapper kernel self call env = some outcome ∧ outcome.finals.length = 1 := by
  cases call with
  | close fd =>
      have hhook : env.hookEnable = true := h
      rw [wrapper, close, hhook]
      cases env.get fd <;> exact ⟨_, rfl, rfl⟩
  | nanosleep tvSec tvNsec =>
      have hhook : env.hookEnable = true := h
      rw [wrapper, nanosleep, hhook]
      exact ⟨_, rfl, rfl⟩
  | fcntl fd cmd arg => exact fcntl_of_delegates h.1 h.2
  | ioctl fd request arg value => exact ioctl_of_delegates h

/-- The other calls come back to a call of the same kind with the same descriptors. -/
theorem wrapper_of_not (h : ¬ Delegates env call)
    (hself : ∀ call', ¬ Delegates env call' → self call' env = none) :
    wrapper kernel self call env = none := by
  cases call with
  | close fd =>
      have hhook : env.hookEnable = false := Bool.eq_false_iff.mpr h
      rw [wrapper, close, hhook]
      exact hself _ h
  | nanosleep tvSec tvNsec =>
      have hhook : env.hookEnable = false := Bool.eq_false_iff.mpr h
      rw [wrapper, nanosleep, hhook]
      exact hself _ h
  | fcntl fd cmd arg =>
      have hnext : self (.fcntl fd cmd 0) env = none := hself _ h
      cases cmd with
      | getfl =>
          rw [wrapper, fcntl, hnext]
          rfl
      | other n => exact hnext
      | _ => exact absurd ⟨by decide, fun n => by simp⟩ h
  | ioctl fd request arg value =>
      have hnext := hself _ h
      cases request with
      | other n => exact absurd (fun hn => nomatch hn) h
      | fionbio =>
          rw [wrapper, ioctl]
          cases hctx : env.get fd with
          | none => exact hnext
          | some ctx =>
              cases hguard : ctx.isSocket || ctx.isClosed with
              | true =>
                  simp only [hguard, cond_true]
                  exact hnext
              | false =>
                  rw [Bool.or_eq_false_iff] at hguard
                  exact absurd (fun _ => ⟨ctx, hctx, hguard⟩) h

theorem run_of_not (stack : Nat) (h : ¬ Delegates env call) : run kernel stack call env = none := by
  induction stack generalizing call with
  | zero => rfl
  | succ stack ih => exact wrapper_of_not h fun call' hcall' => ih hcall'

end

/-- The number of milliseconds fits the type that it passes through. -/
def Sleep.Fits : Sleep → Prop
  | .sleep seconds => 1000 * seconds < 2 ^ 32
  | .usleep _ => True
  | .nanosleep tvSec tvNsec => 1000 * tvSec + tvNsec / 10 ^ 6 < 2 ^ 31

section
variable {call : Sleep} {now : Nat}

theorem toUInt64_toInt32 {n : Nat} (hn : n < 2 ^ 63) : toUInt64 (toInt32 n) = n ↔ n < 2 ^ 31 := by
  rw [toUInt64, toInt32, Int.bmod_def]
  omega

theorem ms_eq_period_iff (h : call.Valid) : call.ms = call.period ↔ call.Fits := by
  cases call with
  | sleep seconds =>
      show seconds * 1000 % 2 ^ 32 = 1000 * seconds ↔ 1000 * seconds < 2 ^ 32
      omega
  | usleep usec => exact iff_of_true rfl trivial
  | nanosleep tvSec tvNsec =>
      have hperiod : (tvSec * 10 ^ 9 + tvNsec) / 10 ^ 6 = tvSec * 1000 + tvNsec / 1000 / 1000 := by
        omega
      simp only [Sleep.Valid] at h
      obtain ⟨hsec, hnsec⟩ := h
      have hlt : tvSec * 1000 + tvNsec / 1000 / 1000 < 2 ^ 63 := by
        have hdiv : tvNsec / 1000 / 1000 ≤ tvNsec :=
          (Nat.div_le_self ..).trans (Nat.div_le_self ..)
        exact (Nat.add_lt_add hsec (hdiv.trans_lt hnsec)).trans (by decide)
      rw [Sleep.ms, Sleep.period, hperiod, toUInt64_toInt32 hlt, Sleep.Fits]
      omega

theorem heap_addTimer {P : Type} [LinearOrder P] {m : TimerManager.Manager P} {cb : Nat} {p : P} :
    (call.addTimer m now cb p).heap p =
      some ⟨false, call.ms, TimerManager.add64 now call.ms, some cb⟩ :=
  TimerManager.heap_store_self

/-- The timer of a sleeping call is exact when the number of milliseconds fits its type and the time
at which it is due fits 64 bits. -/
theorem sleep_exact_iff (call : Sleep) (now : Nat) (h : call.Valid) :
    call.Exact now ↔ call.Fits ∧ now + call.period < 2 ^ 64 := by
  rw [← ms_eq_period_iff h]
  constructor
  · intro hexact
    obtain ⟨t, ht, hms, hnext⟩ := hexact Nat ⟨fun _ => none, [], false, 0⟩ 0 0
    rw [heap_addTimer, Option.some.injEq] at ht
    subst ht
    refine ⟨hms, ?_⟩
    rw [← hnext]
    exact Nat.mod_lt _ (by decide)
  · rintro ⟨hms, hlt⟩ P _ m cb p
    refine ⟨_, heap_addTimer, hms, ?_⟩
    show (now + call.ms) % 2 ^ 64 = _
    rw [hms, Nat.mod_eq_of_lt hlt]

end

/-- A second and a half. -/
theorem nanosleep_exact : (Sleep.nanosleep 1 500000000).Exact 100 :=
  (sleep_exact_iff (.nanosleep 1 500000000) 100 ⟨by decide, by decide⟩).mpr
    ⟨(by decide : 1000 * 1 + 500000000 / 10 ^ 6 < 2 ^ 31), by decide⟩

/-- The long sleep of the echo server comes back after 28 days and not after six years. -/
theorem sleep_wraps : (Sleep.sleep 200000000).ms = 2431504384 ∧
    (Sleep.sleep 200000000).period = 200000000000 ∧ ¬ (Sleep.sleep 200000000).Exact 0 := by
  refine ⟨rfl, rfl, ?_⟩
  intro hexact
  obtain ⟨t, ht, hms, -⟩ := hexact Nat ⟨fun _ => none, [], false, 0⟩ 0 0
  rw [heap_addTimer, Option.some.injEq] at ht
  subst ht
  exact absurd hms (by decide)

end Sylar.HookCalls
