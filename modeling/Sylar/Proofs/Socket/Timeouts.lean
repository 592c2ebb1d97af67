import Sylar.Proofs.Socket.Ownership

/-!
# `Sylar.Proofs.Socket.Timeouts`: a timeout that was set is the one that is used

`setRecvTimeout` and `setSendTimeout` take milliseconds as a `uint64_t` and pass them on as a
`timeval` whose seconds are cast to `int`. The hooked `setsockopt` makes milliseconds of it again
and stores them in the context of the descriptor, where `do_io` and `getRecvTimeout` find them. A
new descriptor has a new context, so nothing is left over from an earlier one with the same number.
-/

set_option autoImplicit false

namespace Sylar.Sockets

open Lib

/-- The milliseconds that are read back from the context. Only the seconds can be cut. -/
theorem toInt64_milliseconds (v : UInt64) :
    toInt64 (milliseconds (timeval v)) =
      toInt32 (v.toNat / 1000 : Nat) * 1000 + v.toNat % 1000 := by
  have husec : toInt32 (v.toNat % 1000 * 1000 : Nat) = (v.toNat % 1000 * 1000 : Nat) :=
    toInt32_of_lt (by omega) (by omega)
  have hdiv : ((v.toNat % 1000 * 1000 : Nat) : Int).tdiv 1000 = v.toNat % 1000 := by
    rw [Int.tdiv_eq_ediv_of_nonneg (by omega)]
    omega
  have hsec := isInt_toInt32 (v.toNat / 1000 : Nat)
  have hrest : (0 : Int) ≤ v.toNat % 1000 ∧ (v.toNat : Int) % 1000 < 1000 := by omega
  simp only [milliseconds, timeval, husec, hdiv]
  generalize toInt32 (v.toNat / 1000 : Nat) = sec at hsec
  rw [Int.toNat_of_nonneg (Int.emod_nonneg _ (by decide)), toInt64,
    show ((2 : Int) ^ 64) = ((2 ^ 64 : Nat) : Int) by norm_num, Int.emod_bmod]
  exact toInt64_of_lt (by have := hsec.low; omega) (by have := hsec.high; omega)

theorem toInt64_milliseconds_eq_iff (v : UInt64) :
    toInt64 (milliseconds (timeval v)) = v.toNat ↔ v.toNat / 1000 < 2 ^ 31 := by
  rw [toInt64_milliseconds]
  constructor
  · intro h
    have hsec := (isInt_toInt32 (v.toNat / 1000 : Nat)).high
    generalize toInt32 (v.toNat / 1000 : Nat) = sec at h hsec
    omega
  · intro h
    rw [toInt32_of_lt (by omega) (by omega)]
    omega

section
variable {α : Type} {getFamily : α → Int} {w : World α} {i : Nat} {s : Sock α}

/-- The timeout that was last asked for. -/
def Sock.asked (s : Sock α) (recv : Bool) : Option UInt64 :=
  if recv then s.recvAsked else s.sendAsked

theorem Inv.getTimeout (hI : Inv w) (hi : w.socks i = some s) (hv : s.isValid = true)
    (recv : Bool) : s.getTimeout w recv = toInt64 (stored (s.asked recv)) := by
  have hs := isValid_iff.mp hv
  obtain ⟨d, c, hh⟩ := (hI.ok i s hi).holds hs
  rw [Sock.getTimeout, World.get, if_neg hs, hh.ctx]
  cases recv with
  | true => simp only [if_true, hh.recv, Sock.asked]
  | false => simp only [Bool.false_eq_true, if_false, hh.send, Sock.asked]

theorem toInt64_stored_iff (o : Option UInt64) :
    toInt64 (stored o) = o.elim (-1) (fun v => (v.toNat : Int)) ↔
      ∀ v, o = some v → v.toNat / 1000 < 2 ^ 31 := by
  cases o with
  | none => exact iff_of_true (by decide) (fun v h => by cases h)
  | some v =>
    rw [stored_some, Option.elim_some, toInt64_milliseconds_eq_iff]
    exact ⟨fun h u hu => Option.some.inj hu ▸ h, fun h => h v rfl⟩

/-- In every state of every run the timeout of a socket is the one that was last set since it has
its descriptor, and `-1` if there was none, if and only if its seconds fit in an `int`. -/
theorem timeout_kept_iff {as : List (Action α)} (h : exec (step getFamily) init as = some w)
    (hi : w.socks i = some s) (hv : s.isValid = true) (recv : Bool) :
    s.getTimeout w recv = (s.asked recv).elim (-1) (fun v => (v.toNat : Int)) ↔
      ∀ v, s.asked recv = some v → v.toNat / 1000 < 2 ^ 31 := by
  rw [(inv_run h).getTimeout hi hv, toInt64_stored_iff]

end

/-- A descriptor with a timeout is closed, and the next one with its number has none. -/
theorem timeout_kept_iff_reused : ∃ w s, exec (step fun _ : Nat => 2) init
    [.create 2 1 0, .connect 0 80 (some (5, 0)) (some (80, 90)), .setTimeout 0 true 120000,
      .close 0, .create 2 1 0, .connect 1 80 (some (5, 0)) (some (80, 91))] = some w ∧
    w.socks 1 = some s ∧ s.isValid = true ∧
    (s.getTimeout w true = (s.asked true).elim (-1) (fun v => (v.toNat : Int)) ↔
      ∀ v, s.asked true = some v → v.toNat / 1000 < 2 ^ 31) := by
  have h : ((exec (step fun _ : Nat => 2) init
      [.create 2 1 0, .connect 0 80 (some (5, 0)) (some (80, 90)), .setTimeout 0 true 120000,
        .close 0, .create 2 1 0, .connect 1 80 (some (5, 0)) (some (80, 91))]).bind
      fun w => (w.socks 1).map (·.isValid)) = some true := rfl
  obtain ⟨w, hw, h⟩ := Option.bind_eq_some_iff.mp h
  obtain ⟨s, hs, hv⟩ := Option.map_eq_some_iff.mp h
  exact ⟨w, s, hw, hs, hv, timeout_kept_iff hw hs hv true⟩

end Sylar.Sockets
