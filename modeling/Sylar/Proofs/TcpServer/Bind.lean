import Sylar.Spec.TcpServer

/-!
# `Sylar.Proofs.TcpServer.Bind`: what a failed `bind` leaves

The loop appends the address or its socket, so `fails` and `m_socks` grow by the addresses without
a socket and by the sockets (`bindLoop_eq`). When an address has none, `bind` clears `m_socks`, and
with it the sockets of earlier calls. So a failed call is undone exactly when there were no such
sockets (`allOrNothing_iff`).
-/

set_option autoImplicit false

namespace Sylar.TcpServer

section
variable {α : Type} {getFamily : α → Int} {sys : SocketCalls α} {addrs : List α}

/-- The sockets of the addresses that have one. -/
def opened (l : List (α × Option (Socket α))) : List (Socket α) := l.filterMap Prod.snd

theorem attempts_cons (i : Nat) (addr : α) (rest : List α) :
    attempts getFamily sys i (addr :: rest) =
      (addr, listening getFamily sys i addr) :: attempts getFamily sys (i + 1) rest := by
  rw [attempts, List.zipIdx_cons, List.map_cons]
  rfl

/-- One round appends the socket, or the address. -/
theorem bindLoop_cons (i : Nat) (addr : α) (rest fails : List α) (socks : List (Socket α)) :
    bindLoop getFamily sys i (addr :: rest) fails socks =
      match listening getFamily sys i addr with
      | none => bindLoop getFamily sys (i + 1) rest (fails ++ [addr]) socks
      | some sock => bindLoop getFamily sys (i + 1) rest fails (socks ++ [sock]) := by
  rw [bindLoop, listening]
  obtain ⟨bound, sock⟩ := (Socket.createTCP getFamily addr).bind getFamily sys i addr
  cases bound with
  | false => rfl
  | true => cases hlisten : sock.listen sys i <;> simp [hlisten]

theorem bindLoop_eq (addrs : List α) : ∀ (i : Nat) (fails : List α) (socks : List (Socket α)),
    bindLoop getFamily sys i addrs fails socks =
      (fails ++ failing (attempts getFamily sys i addrs),
        socks ++ opened (attempts getFamily sys i addrs)) := by
  induction addrs with
  | nil =>
      intro i fails socks
      show (fails, socks) = (fails ++ [], socks ++ [])
      rw [List.append_nil, List.append_nil]
  | cons addr rest ih =>
      intro i fails socks
      rw [bindLoop_cons, attempts_cons]
      cases hsock : listening getFamily sys i addr with
      | none => simp [ih, failing, opened]
      | some sock => simp [ih, failing, opened]

theorem failing_eq_nil_iff {l : List (α × Option (Socket α))} :
    failing l = [] ↔ ∀ p ∈ l, p.2.isSome := by
  rw [failing, List.map_eq_nil_iff, List.filter_eq_nil_iff]
  refine forall₂_congr fun p _ => ?_
  rw [Option.isNone_iff_eq_none, Option.isSome_iff_ne_none]

/-- Addresses that all have a socket have one each. -/
theorem map_snd_eq_of_forall {l : List (α × Option (Socket α))} (h : ∀ p ∈ l, p.2.isSome) :
    l.map Prod.snd = (opened l).map some := by
  induction l with
  | nil => rfl
  | cons p l ih =>
      obtain ⟨addr, sock⟩ := p
      rw [List.forall_mem_cons] at h
      obtain ⟨sock, rfl⟩ := Option.isSome_iff_exists.mp h.1
      rw [List.map_cons, ih h.2]
      rfl

theorem bind_of_all (h : ∀ p ∈ attempts getFamily sys 0 addrs, p.2.isSome) (server : TcpServer α) :
    bind getFamily sys addrs [] server =
      (true, [], ⟨server.socks ++ opened (attempts getFamily sys 0 addrs)⟩) := by
  rw [bind, bindLoop_eq, failing_eq_nil_iff.mpr h]
  rfl

theorem bind_of_failing (h : ¬ ∀ p ∈ attempts getFamily sys 0 addrs, p.2.isSome)
    (server : TcpServer α) :
    bind getFamily sys addrs [] server =
      (false, failing (attempts getFamily sys 0 addrs), ⟨[]⟩) := by
  have hne : failing (attempts getFamily sys 0 addrs) ≠ [] :=
    fun hnil => h (failing_eq_nil_iff.mp hnil)
  have hempty : (failing (attempts getFamily sys 0 addrs)).isEmpty = false :=
    Bool.eq_false_iff.mpr fun hnil => hne (List.isEmpty_iff.mp hnil)
  rw [bind, bindLoop_eq, List.nil_append]
  simp only [hempty, Bool.not_false, if_true]

end

section
variable {α : Type}

/-- `bind` is all or nothing if and only if every address gets its socket, or the server had no
socket before the call. -/
theorem allOrNothing_iff (getFamily : α → Int) (sys : SocketCalls α) (addrs : List α)
    (server : TcpServer α) :
    AllOrNothing getFamily sys addrs server ↔
      (∀ p ∈ attempts getFamily sys 0 addrs, p.2.isSome) ∨ server.socks = [] := by
  by_cases hall : ∀ p ∈ attempts getFamily sys 0 addrs, p.2.isSome
  · have hrun := bind_of_all hall server
    refine iff_of_true ⟨?_, fun _ => ?_, fun hfalse => ?_⟩ (.inl hall)
    · rw [hrun]
      exact iff_of_true rfl hall
    · rw [hrun]
      exact ⟨rfl, _, map_snd_eq_of_forall hall, rfl⟩
    · rw [hrun] at hfalse
      cases hfalse
  · have hrun := bind_of_failing hall server
    rw [or_iff_right hall]
    constructor
    · intro h
      have hkept := (h.nothing (by rw [hrun])).2
      rw [hrun] at hkept
      exact hkept.symm
    · intro hempty
      refine ⟨?_, fun htrue => ?_, fun _ => ?_⟩
      · rw [hrun]
        exact iff_of_false Bool.false_ne_true hall
      · rw [hrun] at htrue
        cases htrue
      · rw [hrun, hempty]
        exact ⟨rfl, rfl⟩

end

/-- A server listens on a socket. Of two more addresses the second cannot be bound: the socket of
the first and the one from before are both gone. -/
theorem bind_drops_sockets :
    let sys : SocketCalls Nat :=
      ⟨fun i => i + 4, fun i => i, fun _ => 0, fun i => some (8000 + i)⟩
    let server : TcpServer Nat := ⟨[⟨3, 2, 1, 0, false, some 80⟩]⟩
    bind (fun _ => 2) sys [8000, 8001] [] server = (false, [8001], ⟨[]⟩) ∧
      ¬ AllOrNothing (fun _ => 2) sys [8000, 8001] server := by
  refine ⟨rfl, fun h => ?_⟩
  have hkept := (h.nothing rfl).2
  cases hkept

end Sylar.TcpServer
