import Sylar.Spec.HttpServer

/-!
# `Sylar.Proofs.Http.Close`: when the server keeps its word to close

The loop of `handleClient` asks whether the server keeps connections alive, and not whether the
response has announced the end of this one. Each request gets its response. A response that says
`connection: close` is the last one exactly when the server does not keep connections alive, or when
no request arrives behind one that gets such a response.
-/

set_option autoImplicit false

namespace Sylar.Http.HttpServer

/-- Each request that is received is answered once before the next is received, and behind a response
that says `connection: close` the session is closed and nothing else happens. -/
structure ClosesAsAnnounced (respond : HttpRequest → HttpResponse) (events : List Event) :
    Prop where
  answered : ∃ reqs : List HttpRequest,
    events = (reqs.flatMap fun req => [.received req, .sent (respond req)]) ++ [.closed]
  last : ∀ before rsp after, events = before ++ .sent rsp :: after → rsp.saysClose = true →
    after = [.closed]

/-- No request arrives behind one that gets a response that says `connection: close`. -/
def NoneBehindClose (respond : HttpRequest → HttpResponse) (arriving : List HttpRequest) : Prop :=
  ∀ before req next after, arriving = before ++ req :: next :: after →
    (respond req).saysClose = false

/-- No response is sent where the session is only closed. -/
theorem closed_ne_sent {before after : List Event} {rsp : HttpResponse} :
    [Event.closed] ≠ before ++ .sent rsp :: after := by
  intro heq
  have hmem : Event.sent rsp ∈ [Event.closed] := heq ▸ List.mem_append_right _ (.head _)
  cases List.mem_singleton.mp hmem

section
variable {fnmatch : Uri → Uri → Bool} {server : HttpServer}

theorem handleClient_cons_of_keepalive (h : server.isKeepalive = true) (req : HttpRequest)
    (arriving : List HttpRequest) :
    handleClient fnmatch server (req :: arriving) =
      .received req :: .sent (server.respond fnmatch req) ::
        handleClient fnmatch server arriving := by
  rw [handleClient, if_pos h]

theorem answered_handleClient (arriving : List HttpRequest) :
    ∃ reqs : List HttpRequest, handleClient fnmatch server arriving =
      (reqs.flatMap fun req => [.received req, .sent (server.respond fnmatch req)]) ++
        [.closed] := by
  induction arriving with
  | nil => exact ⟨[], rfl⟩
  | cons req arriving ih =>
      obtain ⟨reqs, hreqs⟩ := ih
      by_cases h : server.isKeepalive = true
      · refine ⟨req :: reqs, ?_⟩
        rw [handleClient_cons_of_keepalive h, hreqs]
        rfl
      · refine ⟨[req], ?_⟩
        rw [handleClient, if_neg h]
        rfl

/-- What the loop does behind the response to a request in the middle of the arriving ones. -/
theorem handleClient_split (fnmatch : Uri → Uri → Bool) (h : server.isKeepalive = true)
    (before : List HttpRequest)
    (req : HttpRequest) (after : List HttpRequest) :
    ∃ events, handleClient fnmatch server (before ++ req :: after) =
      events ++ .sent (server.respond fnmatch req) :: handleClient fnmatch server after := by
  induction before with
  | nil => exact ⟨[.received req], handleClient_cons_of_keepalive h req after⟩
  | cons q before ih =>
      obtain ⟨events, hevents⟩ := ih
      refine ⟨.received q :: .sent (server.respond fnmatch q) :: events, ?_⟩
      rw [List.cons_append, handleClient_cons_of_keepalive h, hevents]
      rfl

theorem NoneBehindClose.tail {respond : HttpRequest → HttpResponse} {req : HttpRequest}
    {arriving : List HttpRequest} (h : NoneBehindClose respond (req :: arriving)) :
    NoneBehindClose respond arriving := by
  rintro before q next after rfl
  exact h (req :: before) q next after rfl

theorem last_of_noneBehindClose (h : server.isKeepalive = true) {arriving : List HttpRequest}
    (hnone : NoneBehindClose (server.respond fnmatch) arriving) {before after : List Event}
    {rsp : HttpResponse}
    (heq : handleClient fnmatch server arriving = before ++ .sent rsp :: after)
    (hclose : rsp.saysClose = true) : after = [.closed] := by
  induction arriving generalizing before with
  | nil => exact absurd heq closed_ne_sent
  | cons req arriving ih =>
      rw [handleClient_cons_of_keepalive h] at heq
      -- The response is that to the first request, or one of those to the rest.
      cases before with
      | nil => cases (List.cons.inj heq).1
      | cons e before =>
          replace heq := (List.cons.inj heq).2
          cases before with
          | nil =>
              obtain ⟨hsent, rfl⟩ := List.cons.inj heq
              cases hsent
              cases arriving with
              | nil => rfl
              | cons next arriving =>
                  rw [hnone [] req next arriving rfl] at hclose
                  cases hclose
          | cons e' before => exact ih hnone.tail (List.cons.inj heq).2

/-- The server closes as announced if and only if it does not keep connections alive, or no request
arrives behind one whose response says `connection: close`. -/
theorem closesAsAnnounced_iff (fnmatch : Uri → Uri → Bool) (server : HttpServer)
    (arriving : List HttpRequest) :
    ClosesAsAnnounced (server.respond fnmatch) (handleClient fnmatch server arriving) ↔
      server.isKeepalive = false ∨ NoneBehindClose (server.respond fnmatch) arriving := by
  constructor
  · intro hdisc
    by_cases h : server.isKeepalive = true
    · refine Or.inr ?_
      rintro before req next after rfl
      obtain ⟨events, hevents⟩ := handleClient_split fnmatch h before req (next :: after)
      by_contra hclose
      -- The next request is received behind the announcement.
      have hafter := hdisc.last events _ _ hevents (by simpa using hclose)
      rw [handleClient_cons_of_keepalive h] at hafter
      cases (List.cons.inj hafter).1
    · exact Or.inl (by simpa using h)
  · intro hcond
    refine ⟨answered_handleClient arriving, ?_⟩
    intro before rsp after heq hclose
    by_cases h : server.isKeepalive = true
    · have hnone := hcond.resolve_left (by simp [h])
      exact last_of_noneBehindClose h hnone heq hclose
    · -- One request at most.
      cases arriving with
      | nil => exact absurd heq closed_ne_sent
      | cons req arriving =>
          rw [handleClient, if_neg h] at heq
          rcases before with _ | ⟨e, _ | ⟨e', before⟩⟩
          · cases (List.cons.inj heq).1
          · exact (List.cons.inj (List.cons.inj heq).2).2.symm
          · exact absurd (List.cons.inj (List.cons.inj heq).2).2 closed_ne_sent

end

/-- A server that keeps connections alive, with a dispatcher that leaves the response as it is. -/
def plainServer : HttpServer := ⟨true, [], .new none⟩

/-- The first of two requests asks for the end of the connection, and the second is answered. -/
theorem answered_behind_close :
    ¬ ClosesAsAnnounced (plainServer.respond fun _ _ => false)
      (handleClient (fun _ _ => false) plainServer [HttpRequest.new, HttpRequest.new]) := by
  intro h
  cases h.last [.received .new] _ _ rfl rfl

end Sylar.Http.HttpServer
