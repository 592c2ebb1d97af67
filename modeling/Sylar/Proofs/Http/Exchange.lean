import Sylar.Proofs.Http.Chunked
import Sylar.Proofs.Http.Close
import Sylar.Proofs.Http.Reading
import Sylar.Proofs.Http.ResponsePrint
import Sylar.Proofs.Stream.FixSize
import Sylar.Spec.HttpCalls

/-!
# `Sylar.Proofs.Http.Exchange`: the client and the server of this repository

`handleClient` writes responses, and each begins with `HTTP/` and a number with a comma behind it.
`recvResponse` reads them in pieces of any length. A piece within the beginning is read to its end,
and leaves the machine where it can go on (`execute_inside`). The piece with the comma takes it to
its error state (`execute_comma`). So the loop over the head ends with `nullptr`, wherever the
pieces are cut (`recvHead_closed`), and no call of a client that talks to this server ends with
`OK` (`server_never_ok`).
-/

set_option autoImplicit false

namespace Sylar.Http.HttpConnection

open Lib Lib.Rx

/-! ### The beginning of a response -/

/-- What a response with the version number `n` begins with. -/
def beginning (n : Nat) : List UInt8 := text "HTTP/" ++ numeral 10 n

/-- On the beginning the machine only marks, and it is nowhere finished. -/
theorem marks_beginning (n : Nat) (hn : n < 16) :
    (emits HttpClient.main true .none (beginning n)).all (· == .mark) = true ∧
      ((beginning n).inits.all fun u =>
        !live u.isEmpty HttpClient.main (after true HttpClient.main .none u)) = true := by
  revert n
  decide +kernel

section
variable {n : Nat} {u w v : List UInt8} {x : HttpResponseParser}

/-- The parser behind the first bytes `u` of the beginning. -/
structure Inside (u : List UInt8) (x : HttpResponseParser) : Prop where
  cs : x.parser.cs = .at u.isEmpty (after true HttpClient.main .none u)
  error : x.error = 0
  bodyStart : x.parser.bodyStart = 0

/-- What the actions on the beginning leave of the parser. -/
structure Marked (buffer : List UInt8) (x : HttpResponseParser) : Prop where
  error : x.error = 0
  bodyStart : x.parser.bodyStart = 0
  fieldLen : x.parser.fieldLen = 0
  fieldStart : x.parser.fieldStart = 0
  mark : x.parser.mark < buffer.length

theorem play_marked {buffer : List UInt8} (hn : n < 16) (hw : beginning n = u ++ w ++ v)
    (hlen : w.length ≤ buffer.length) (hx : Marked buffer x) :
    ∃ y, play HttpClient.main (runResponseAct buffer) 0 u.isEmpty
      (after true HttpClient.main .none u) w (.ok x) = .ok y ∧ Marked buffer y := by
  have hmarks := (marks_beginning n hn).1
  rw [hw, emits_append, emits_append, Bool.true_and, List.all_append, List.all_append,
    Bool.and_eq_true, Bool.and_eq_true] at hmarks
  have hplaces : Places HttpClient.main (fun q a => q < w.length ∧ a = .mark) 0 u.isEmpty
      (after true HttpClient.main .none u) w := by
    refine places_of_forall fun w₁ c w₂ hcut a ha => ⟨?_, ?_⟩
    · rw [hcut, List.length_append, List.length_cons]
      omega
    · rw [hcut, emits_append, emits, List.all_append, List.all_append, Bool.and_eq_true,
        Bool.and_eq_true] at hmarks
      exact eq_of_beq (List.all_eq_true.mp hmarks.1.2.2.1 a ha)
  refine play_of_places (P := fun st => ∃ y, st = Except.ok y ∧ Marked buffer y) ?_ hplaces
    ⟨x, rfl, hx⟩
  rintro q a st ⟨hq, rfl⟩ ⟨y, rfl, hy⟩
  exact ⟨_, rfl, ⟨hy.error, hy.bodyStart, hy.fieldLen, hy.fieldStart, Nat.lt_of_lt_of_le hq hlen⟩⟩

/-- A call with a buffer of which the machine scans a part within the beginning. -/
theorem execute_marked {buffer : List UInt8} {fpc : Nat} {cs : Cs} (hn : n < 16)
    (hw : beginning n = u ++ w ++ v) (hx : Inside u x) (hpos : 0 < buffer.length)
    (hsize : buffer.length < 2 ^ 31) (hlen : w.length ≤ buffer.length) (hfpc : fpc ≤ buffer.length)
    (hexec : ∀ p, responseExec buffer x.parser.cs p = (fpc, cs,
      play HttpClient.main (runResponseAct buffer) 0 u.isEmpty
        (after true HttpClient.main .none u) w (.ok p))) :
    ∃ y, x.execute false buffer = .ok (buffer.drop fpc, y) ∧ y.parser.cs = cs ∧ y.error = 0 ∧
      y.parser.bodyStart = 0 := by
  have hstart : Marked buffer x.reset := ⟨hx.error, hx.bodyStart, rfl, rfl, hpos⟩
  obtain ⟨y, hplay, hy⟩ := play_marked hn hw hlen hstart
  have hint : (buffer.length : Int) = toInt32 buffer.length :=
    (toInt32_of_lt (by omega) (by omega)).symm
  refine ⟨{ y with parser := { y.parser with nread := fpc, cs := cs } }, ?_, rfl, hy.error,
    hy.bodyStart⟩
  rw [HttpResponseParser.execute, cond_false, HttpResponseParser.httpclientParserExecute,
    if_neg (not_not_intro hint), hexec, hplay]
  show Except.map _ (HttpResponseParser.leaveExecute buffer fpc cs y) = _
  rw [HttpResponseParser.leaveExecute, if_pos, if_pos]
  · rfl
  · exact ⟨hy.mark, by rw [hy.fieldLen]; exact Nat.zero_le _, by rw [hy.fieldStart]; exact hpos⟩
  · exact ⟨hfpc, by rw [hy.bodyStart]; exact Nat.zero_le _⟩

theorem isEmpty_both : (u ++ w).isEmpty = (u.isEmpty && w.isEmpty) := by cases u <;> rfl

theorem reads_inside (hn : n < 16) (hw : beginning n = u ++ w ++ v) :
    reads HttpClient.main ResponseAction.stops u.isEmpty (after true HttpClient.main .none u) w =
      true := by
  have hread := (refuses_comma n hn).1
  rw [← beginning, hw, List.append_assoc, reads_append, reads_append, Bool.true_and,
    Bool.and_eq_true, Bool.and_eq_true] at hread
  exact hread.2.1

/-- A piece within the beginning is read to its end. -/
theorem execute_inside (hn : n < 16) (hw : beginning n = u ++ w ++ v) (hx : Inside u x)
    (hne : w ≠ []) (hsize : w.length < 2 ^ 31) :
    ∃ y, x.execute false w = .ok ([], y) ∧ Inside (u ++ w) y := by
  have hpos : 0 < w.length := List.length_pos_iff.mpr hne
  have hexec : ∀ p, responseExec w x.parser.cs p = (w.length,
      .at (u ++ w).isEmpty (after true HttpClient.main .none (u ++ w)),
      play HttpClient.main (runResponseAct w) 0 u.isEmpty (after true HttpClient.main .none u) w
        (.ok p)) := by
    intro p
    have h := exec_of_reads (f := runResponseAct w) (p := 0) (v := []) (s := .ok p)
      (reads_inside hn hw)
    rw [List.append_nil, Rx.exec, Nat.zero_add] at h
    rw [hx.cs, after_append, isEmpty_both, Bool.true_and]
    exact h
  obtain ⟨y, hrun, hcs, herror, hbody⟩ :=
    execute_marked hn hw hx hpos hsize le_rfl le_rfl hexec
  rw [List.drop_length] at hrun
  exact ⟨y, hrun, hcs, herror, hbody⟩

/-- The piece with the comma is refused. -/
theorem execute_comma (hn : n < 16) (hw : beginning n = u ++ w) (hx : Inside u x)
    (hsize : (w ++ 44 :: v).length < 2 ^ 31) :
    ∃ rest y, x.execute false (w ++ 44 :: v) = .ok (rest, y) ∧ y.hasError = true := by
  have hlen : w.length ≤ (w ++ 44 :: v).length := by
    rw [List.length_append]
    exact Nat.le_add_right ..
  have hpos : 0 < (w ++ 44 :: v).length := by
    rw [List.length_append, List.length_cons]
    omega
  have hnil : beginning n = u ++ w ++ [] := by rw [List.append_nil, hw]
  have hlater : (u.isEmpty && w.isEmpty) = false := by
    rw [← isEmpty_both, ← hw]
    rfl
  have hcomma := (refuses_comma n hn).2
  rw [← beginning, hw, after_append, Bool.true_and, ← hlater] at hcomma
  have hexec : ∀ p, responseExec (w ++ 44 :: v) x.parser.cs p = (w.length, .error,
      play HttpClient.main (runResponseAct (w ++ 44 :: v)) 0 u.isEmpty
        (after true HttpClient.main .none u) w (.ok p)) := by
    intro p
    have h := exec_of_refused (f := runResponseAct (w ++ 44 :: v)) (p := 0) (v := v) (s := .ok p)
      (reads_inside hn hnil) hcomma
    rw [Nat.zero_add] at h
    rw [hx.cs]
    exact h
  obtain ⟨y, hrun, hcs, -⟩ := execute_marked hn hnil hx hpos hsize hlen hlen hexec
  refine ⟨_, y, hrun, ?_⟩
  rw [HttpResponseParser.hasError, hcs]
  exact Bool.or_true _

/-! ### The loop over the head -/

theorem not_finished (hn : n < 16) (hw : beginning n = u ++ v) (hx : Inside u x) :
    x.hasError = false ∧ x.isFinished = false := by
  have hlive := List.all_eq_true.mp (marks_beginning n hn).2 u
    ((List.mem_inits _ _).mpr ⟨v, hw.symm⟩)
  rw [Bool.not_eq_true'] at hlive
  constructor
  · rw [HttpResponseParser.hasError, hx.cs, hx.error]
    rfl
  · rw [HttpResponseParser.isFinished, hx.cs]
    show (live _ _ _ && _) = false
    rw [hlive, Bool.false_and]

/-- One round of the loop. -/
theorem recvHead_round {buffSize fuel : Nat} {b : UInt8} {bs rest : List UInt8}
    {s s' : Stream} {y : HttpResponseParser} (hread : s.read buffSize = (b :: bs, s'))
    (hrun : x.execute false (b :: bs) = .ok (rest, y)) :
    recvHead buffSize (fuel + 1) [] x s =
      if y.hasError then .ok (.closed, s')
      else if rest.length = buffSize then .ok (.closed, s')
      else if y.isFinished then .ok (.parsed y rest, s')
      else recvHead buffSize fuel rest y s' := by
  rw [recvHead, List.length_nil, Nat.sub_zero, hread]
  show (x.execute false (b :: bs) >>= _) = _
  rw [hrun]
  rfl

/-- A piece ends within the beginning, or it has the comma. -/
theorem inside_or_comma {w more rest : List UInt8} (h : w ++ more = v ++ 44 :: rest) :
    (∃ v', v = w ++ v' ∧ more = v' ++ 44 :: rest) ∨ ∃ w', w = v ++ 44 :: w' := by
  rcases List.append_eq_append_iff.mp h with ⟨v', hv, hmore⟩ | ⟨c, hw, hc⟩
  · exact .inl ⟨v', hv, hmore⟩
  · cases c with
    | nil => exact .inl ⟨[], by rw [hw, List.append_nil, List.append_nil], hc.symm⟩
    | cons d c =>
        obtain ⟨rfl, -⟩ := List.cons.inj hc
        exact .inr ⟨c, hw⟩

/-- The loop returns `nullptr` on what is left of a response, however it is cut. -/
theorem recvHead_closed {buffSize : Nat} (hbuff : buffSize < 2 ^ 31) (hn : n < 16) (fuel : Nat)
    {rest : List UInt8} {s : Stream} (hs : Stream.Solid s) (hw : beginning n = u ++ v)
    (hflat : s.flatten <+: v ++ 44 :: rest) (hx : Inside u x) :
    ∃ s', recvHead buffSize fuel [] x s = .ok (.closed, s') := by
  induction fuel generalizing u v x s with
  | zero => exact ⟨s, rfl⟩
  | succ fuel ih =>
      cases hread : s.read buffSize with
      | mk bs s' =>
          obtain ⟨hkeep, hlen, hs'⟩ := Stream.read_keeps hs hread
          cases bs with
          | nil =>
              rw [recvHead, List.length_nil, Nat.sub_zero, hread]
              exact ⟨s', rfl⟩
          | cons b bs =>
              have hsize : (b :: bs).length < 2 ^ 31 := Nat.lt_of_le_of_lt hlen hbuff
              obtain ⟨t, ht⟩ := hflat
              rw [← hkeep, List.append_assoc] at ht
              rcases inside_or_comma ht with ⟨v', hv, hmore⟩ | ⟨w', hcomma⟩
              · have hw' : beginning n = u ++ (b :: bs) ++ v' := by
                  rw [hw, hv, List.append_assoc]
                obtain ⟨y, hrun, hy⟩ := execute_inside hn hw' hx (List.cons_ne_nil b bs) hsize
                obtain ⟨herror, hfinished⟩ := not_finished hn hw' hy
                rw [recvHead_round hread hrun, herror, hfinished, if_neg Bool.false_ne_true,
                  if_neg Bool.false_ne_true]
                split
                · exact ⟨s', rfl⟩
                · exact ih hs' hw' ⟨t, hmore⟩ hy
              · have hrun := execute_comma (v := w') hn hw hx (hcomma ▸ hsize)
                rw [← hcomma] at hrun
                obtain ⟨left, y, hrun, herror⟩ := hrun
                rw [recvHead_round hread hrun, if_pos herror]
                exact ⟨s', rfl⟩

end

/-! ### The server as the peer -/

/-- What arrives was written by `handleClient`. The connection may end at any place. -/
def Served (fnmatch : Uri → Uri → Bool) (server : HttpServer) (s : Stream) : Prop :=
  Stream.Solid s ∧ ∃ arriving,
    s.flatten <+: HttpServer.written (server.handleClient fnmatch arriving)

section
variable {fnmatch : Uri → Uri → Bool} {server : HttpServer}

/-- The server writes nothing, or a response first. -/
theorem written_cases (fnmatch : Uri → Uri → Bool) (server : HttpServer)
    (arriving : List HttpRequest) :
    HttpServer.written (server.handleClient fnmatch arriving) = [] ∨
      ∃ n < 16, ∃ rest, HttpServer.written (server.handleClient fnmatch arriving) =
        beginning n ++ 44 :: rest := by
  cases arriving with
  | nil => exact .inl rfl
  | cons req arriving =>
      refine .inr ?_
      generalize hrsp : server.respond fnmatch req = rsp
      obtain ⟨x, hx⟩ := dump_eq (r := rsp)
      have hn : (rsp.version >>> 4).toNat < 16 := by
        rw [UInt8.toNat_shiftRight]
        have := rsp.version.toNat_lt
        show rsp.version.toNat >>> 4 < 16
        omega
      refine ⟨_, hn, x ++ HttpServer.written (if server.isKeepalive then
        server.handleClient fnmatch arriving else [.closed]), ?_⟩
      have hcons : HttpServer.written (server.handleClient fnmatch (req :: arriving)) =
          rsp.dump ++ HttpServer.written (if server.isKeepalive then
            server.handleClient fnmatch arriving else [.closed]) := by
        rw [HttpServer.handleClient, hrsp]
        rfl
      rw [hcons, hx, List.append_assoc]
      rfl

theorem recvResponse_served {buffSize : Nat} (hbuff : buffSize < 2 ^ 31) {s : Stream}
    (h : Served fnmatch server s) : ∃ s', recvResponse buffSize s = .ok (none, s') := by
  obtain ⟨hs, arriving, hflat⟩ := h
  have hnew : Inside [] .new := ⟨rfl, rfl, rfl⟩
  have hclosed : ∃ s', recvHead buffSize (rounds s) [] .new s = .ok (.closed, s') := by
    obtain hnil | ⟨n, hn, rest, hw⟩ := written_cases fnmatch server arriving
    · have hflat : s.flatten <+: beginning 0 ++ 44 :: [] := by
        rw [hnil, List.prefix_nil] at hflat
        rw [hflat]
        exact List.nil_prefix
      exact recvHead_closed (n := 0) (u := []) hbuff (by decide) _ hs rfl hflat hnew
    · exact recvHead_closed (u := []) hbuff hn _ hs rfl (hw ▸ hflat) hnew
  obtain ⟨s', hclosed⟩ := hclosed
  refine ⟨s', ?_⟩
  rw [recvResponse, hclosed]
  rfl

theorem exchange_served {buffSize : Nat} (hbuff : buffSize < 2 ^ 31) {peer : Peer}
    (h : ∀ bs, Served fnmatch server (peer.answer bs)) (req : HttpRequest) (timeoutMs : Nat)
    (addr : List UInt8) :
    ∃ r, exchange buffSize peer req timeoutMs addr = .ok r ∧ r.response = none ∧ r.result ≠ .ok ∧
      (0 < sendRequest peer.write req → r.result = .timeout) := by
  rw [exchange]
  by_cases hzero : sendRequest peer.write req = 0
  · rw [if_pos hzero]
    exact ⟨_, rfl, rfl, nofun, fun h => absurd hzero (ne_of_gt h)⟩
  rw [if_neg hzero]
  by_cases hneg : sendRequest peer.write req < 0
  · rw [if_pos hneg]
    exact ⟨_, rfl, rfl, nofun, fun h => absurd hneg (not_lt_of_gt h)⟩
  rw [if_neg hneg]
  obtain ⟨s', hrecv⟩ := recvResponse_served hbuff (h req.dump)
  rw [hrecv]
  exact ⟨_, rfl, rfl, nofun, fun _ => rfl⟩

end

/-- No call to a server of this repository ends with `OK`: when the request was sent, the result is
`TIMEOUT`. -/
theorem server_never_ok (fnmatch : Uri → Uri → Bool) (server : HttpServer) {buffSize : Nat}
    (hbuff : buffSize < 2 ^ 31) (net : Net)
    (hserved : ∀ bs, Served fnmatch server (net.answer bs)) (req : HttpRequest) (timeoutMs : Nat) :
    (∀ uri, ∃ r, doRequest buffSize net req uri timeoutMs = .ok r ∧ r.response = none ∧
      r.result ≠ .ok ∧ (∀ addr, net.createAddress uri = some addr → net.connect addr = true →
        0 < sendRequest net.write req → r.result = .timeout)) ∧
    ∀ (pool : HttpConnectionPool.Target) (addr : List UInt8),
      ∃ r, pool.doRequest buffSize (some (addr, net.toPeer)) req timeoutMs = .ok r ∧
        r.response = none ∧ r.result ≠ .ok ∧
        (0 < sendRequest net.write req → r.result = .timeout) := by
  constructor
  · intro uri
    rw [doRequest]
    cases haddr : net.createAddress uri with
    | none => exact ⟨_, rfl, rfl, nofun, nofun⟩
    | some addr =>
        show ∃ r, (if net.connect addr = true then _ else _) = Except.ok r ∧ _
        by_cases hconnect : net.connect addr = true
        · rw [if_pos hconnect]
          obtain ⟨r, hrun, hnone, hok, htimeout⟩ :=
            exchange_served hbuff hserved req timeoutMs addr
          exact ⟨r, hrun, hnone, hok, fun _ _ _ => htimeout⟩
        · rw [if_neg hconnect]
          refine ⟨_, rfl, rfl, nofun, ?_⟩
          intro addr' heq hconnect'
          rw [← Option.some.inj heq] at hconnect'
          exact absurd hconnect' hconnect
  · intro pool addr
    exact exchange_served hbuff hserved req timeoutMs addr

/-- The network of a server that answers each request at once, a byte at a time. -/
def plainNet : Net where
  write := Transfer.upTo 7
  errno := 0
  strerror := []
  answer _ := ((HttpServer.plainServer.respond (fun _ _ => false) .new).dump).map fun c => [c]
  createAddress _ := some []
  connect _ := true

theorem served_plainNet (bs : List UInt8) :
    Served (fun _ _ => false) HttpServer.plainServer (plainNet.answer bs) := by
  refine ⟨?_, [.new], ?_⟩
  · intro v hv
    obtain ⟨c, -, rfl⟩ := List.mem_map.mp hv
    exact List.cons_ne_nil c []
  · have hflat : (plainNet.answer bs).flatten =
        (HttpServer.plainServer.respond (fun _ _ => false) .new).dump :=
      List.flatMap_singleton' _
    rw [hflat]
    exact List.prefix_append _ _

/-- A request that is sent and answered, and times out. -/
theorem server_never_ok_plain :
    ∃ r, doRequest 4096 plainNet .new .new 1000 = .ok r ∧ r.result = .timeout :=
  have ⟨r, hrun, _, _, htimeout⟩ :=
    (server_never_ok (fun _ _ => false) HttpServer.plainServer (by decide) plainNet served_plainNet
      .new 1000).1 .new
  ⟨r, hrun, htimeout [] rfl rfl (by decide)⟩

end Sylar.Http.HttpConnection
