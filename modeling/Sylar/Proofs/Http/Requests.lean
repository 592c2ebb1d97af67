import Sylar.Spec.HttpCalls

/-!
# `Sylar.Proofs.Http.Requests`: the requests that the clients make

The headers of the caller go through `addHeader` one after the other. `find_foldl_addHeader` says
what the request then has for a key, and `hasHost_foldl_addHeader` what `has_host` is.

`requests_carry` is the result for the two clients. An entry for `connection` is never a header of
the request. It can only turn the close flag off, so a caller of the pool cannot ask for `close`.
The host of the client is set when each host of the caller is empty. With a host that is not empty
the last spelling of the key wins, also when its value is empty.

`pool_sends_uri`: the pool puts the query and the fragment of a `Uri` into the path. What is sent
is what the other client sends.
-/

set_option autoImplicit false

namespace Sylar.Http

open Lib

/-! ### The loop over the headers -/

section
variable {st st' : HttpRequest × Bool} {e : List UInt8 × List UInt8}
  {es : List (List UInt8 × List UInt8)} {key : List UInt8}

theorem addHeader_of_connection (h : IsConnection e.1) :
    (addHeader st e).1.headers = st.1.headers ∧ (addHeader st e).2 = st.2 := by
  rw [addHeader, if_pos h]
  split <;> exact ⟨rfl, rfl⟩

theorem addHeader_of_not_connection (h : ¬ IsConnection e.1) :
    addHeader st e =
      (st.1.setHeader e.1 e.2, if st.2 = false ∧ IsHost e.1 then !e.2.isEmpty else st.2) := by
  rw [addHeader, if_neg h]

theorem lastOf_cons : lastOf (e :: es) key =
    (lastOf es key).or (if caseFold e.1 = caseFold key then some e.2 else none) := by
  rw [lastOf, List.reverse_cons, List.find?_append, Option.map_or, lastOf]
  by_cases h : caseFold e.1 = caseFold key
  · rw [if_pos h, List.find?_cons_of_pos (by rwa [decide_eq_true_eq])]
    rfl
  · rw [if_neg h, List.find?_cons_of_neg (by rwa [decide_eq_true_eq])]
    rfl

/-- What one entry does to the headers. -/
theorem find_addHeader : (addHeader st e).1.headers.find key =
    if ¬ IsConnection e.1 ∧ caseFold key = caseFold e.1 then some e.2
    else st.1.headers.find key := by
  by_cases h : IsConnection e.1
  · rw [(addHeader_of_connection h).1, if_neg (not_and_of_not_left _ (not_not_intro h))]
  · rw [addHeader_of_not_connection h, HttpRequest.setHeader, OrderedMap.find_set]
    by_cases hkey : caseFold key = caseFold e.1
    · rw [if_pos hkey, if_pos ⟨h, hkey⟩]
    · rw [if_neg hkey, if_neg (not_and_of_not_right _ hkey)]

theorem find_foldl_addHeader : (es.foldl addHeader st).1.headers.find key =
    if IsConnection key then st.1.headers.find key
    else (lastOf es key).or (st.1.headers.find key) := by
  induction es generalizing st with
  | nil => exact (ite_self _).symm
  | cons e es ih =>
      rw [List.foldl_cons, ih, find_addHeader, lastOf_cons, Option.or_assoc]
      by_cases hkey : IsConnection key
      · -- An entry that is stored has another key.
        have hne : ¬ (¬ IsConnection e.1 ∧ caseFold key = caseFold e.1) :=
          fun h => h.1 (h.2.symm.trans hkey)
        rw [if_pos hkey, if_pos hkey, if_neg hne]
      · rw [if_neg hkey, if_neg hkey]
        by_cases heq : caseFold e.1 = caseFold key
        · have hconn : ¬ IsConnection e.1 := fun h => hkey (heq.symm.trans h)
          rw [if_pos ⟨hconn, heq.symm⟩, if_pos heq, Option.some_or]
        · rw [if_neg (not_and_of_not_right _ (Ne.symm heq)), if_neg heq, Option.none_or]

theorem not_connection_of_host (h : IsHost key) : ¬ IsConnection key := by
  intro hconn
  exact absurd (h.symm.trans hconn) (by decide)

/-- `has_host` is set by the first host that is not empty. -/
theorem hasHost_addHeader :
    (addHeader st e).2 = true ↔ st.2 = true ∨ IsHost e.1 ∧ e.2 ≠ [] := by
  by_cases h : IsConnection e.1
  · rw [(addHeader_of_connection h).2]
    exact ⟨.inl, fun h' => h'.elim id fun hhost => absurd h (not_connection_of_host hhost.1)⟩
  · rw [addHeader_of_not_connection h]
    show (if st.2 = false ∧ IsHost e.1 then !e.2.isEmpty else st.2) = true ↔ _
    cases hst : st.2 with
    | true => rw [if_neg (fun h' => Bool.noConfusion h'.1)]; exact ⟨.inl, fun _ => rfl⟩
    | false =>
        by_cases hhost : IsHost e.1
        · rw [if_pos ⟨rfl, hhost⟩, Bool.not_eq_true', List.isEmpty_eq_false_iff]
          exact ⟨fun hne => .inr ⟨hhost, hne⟩, fun h' => h'.elim nofun And.right⟩
        · rw [if_neg (fun h' => hhost h'.2)]
          exact ⟨nofun, fun h' => h'.elim id fun h' => absurd h'.1 hhost⟩

theorem hasHost_foldl_addHeader : (es.foldl addHeader st).2 = true ↔
    st.2 = true ∨ ∃ e ∈ es, IsHost e.1 ∧ e.2 ≠ [] := by
  induction es generalizing st with
  | nil => simp
  | cons e es ih =>
      rw [List.foldl_cons, ih, hasHost_addHeader, or_assoc]
      simp only [List.mem_cons, exists_eq_or_imp]

theorem close_addHeader : (addHeader st e).1.close = true ↔
    st.1.close = true ∧ ¬ (IsConnection e.1 ∧ caseFold e.2 = caseFold (text "keep-alive")) := by
  by_cases h : IsConnection e.1
  · rw [addHeader, if_pos h]
    by_cases hval : caseFold e.2 = caseFold (text "keep-alive")
    · rw [if_pos hval]
      exact ⟨nofun, fun h' => absurd ⟨h, hval⟩ h'.2⟩
    · rw [if_neg hval]
      exact ⟨fun h' => ⟨h', fun hc => hval hc.2⟩, And.left⟩
  · rw [addHeader_of_not_connection h]
    exact ⟨fun h' => ⟨h', fun hc => h hc.1⟩, And.left⟩

theorem close_foldl_addHeader : (es.foldl addHeader st).1.close = true ↔
    st.1.close = true ∧
      ¬ ∃ e ∈ es, IsConnection e.1 ∧ caseFold e.2 = caseFold (text "keep-alive") := by
  induction es generalizing st with
  | nil => simp
  | cons e es ih =>
      rw [List.foldl_cons, ih, close_addHeader, and_assoc]
      simp only [List.mem_cons, exists_eq_or_imp, not_or]

end

/-! ### What a request carries -/

section
variable {req : HttpRequest} {headers : StringMap} {host body : List UInt8}

theorem find_buildRequest (h : req.headers = .empty) (key : List UInt8) :
    (buildRequest req headers host body).headers.find key = carried headers host key := by
  have hfind : (headers.entries.foldl addHeader (req, false)).1.headers.find key =
      if IsConnection key then none else lastOf headers.entries key := by
    rw [find_foldl_addHeader, h, OrderedMap.find_empty, Option.or_none]
  have hhost : (headers.entries.foldl addHeader (req, false)).2 = true ↔ GivesHost headers := by
    rw [hasHost_foldl_addHeader]
    exact ⟨fun h' => h'.elim nofun id, .inr⟩
  rw [carried, buildRequest]
  generalize headers.entries.foldl addHeader (req, false) = res at hfind hhost
  obtain ⟨q, hasHost⟩ := res
  cases hasHost with
  | true =>
      have hgives : GivesHost headers := hhost.mp rfl
      rw [if_neg (not_and_of_not_right (IsHost key) (not_not_intro hgives))]
      exact hfind
  | false =>
      have hgives : ¬ GivesHost headers := fun h' => Bool.noConfusion (hhost.mpr h')
      show (q.headers.set (text "Host") host).find key = _
      have hkey : caseFold key = caseFold (text "Host") ↔ IsHost key := Iff.rfl
      rw [OrderedMap.find_set, show q.headers.find key = _ from hfind]
      simp only [hkey, hgives, not_false_eq_true, and_true]
      by_cases hconn : IsConnection key
      · rw [if_pos hconn, if_pos hconn, if_neg fun h' => not_connection_of_host h' hconn]
      · rw [if_neg hconn, if_neg hconn]

theorem close_buildRequest : (buildRequest req headers host body).close = true ↔
    req.close = true ∧ ¬ AsksKeepAlive headers := by
  have hclose : (headers.entries.foldl addHeader (req, false)).1.close = true ↔
      req.close = true ∧ ¬ AsksKeepAlive headers := close_foldl_addHeader
  rw [← hclose, buildRequest]
  generalize headers.entries.foldl addHeader (req, false) = res
  obtain ⟨q, hasHost⟩ := res
  cases hasHost <;> exact Iff.rfl

theorem close_poolRequest (pool : HttpConnectionPool.Target) (method : HttpMethod)
    (url : List UInt8) : (pool.requestOf method url headers body).close = false := by
  rw [← Bool.not_eq_true, HttpConnectionPool.Target.requestOf, close_buildRequest]
  exact fun h => Bool.noConfusion h.1

end

/-- The headers and the close flag of the requests that the two clients make. -/
theorem requests_carry (pool : HttpConnectionPool.Target) (method : HttpMethod) (uri : Sylar.Uri)
    (url : List UInt8) (headers : StringMap) (body : List UInt8) :
    ((∀ key, (HttpConnection.requestOf method uri headers body).headers.find key =
        carried headers uri.host key) ∧
      ((HttpConnection.requestOf method uri headers body).close = true ↔
        ¬ AsksKeepAlive headers)) ∧
    (∀ key, (pool.requestOf method url headers body).headers.find key =
        carried headers pool.hostHeader key) ∧
      (pool.requestOf method url headers body).close = false := by
  refine ⟨⟨fun key => find_buildRequest rfl key, ?_⟩, fun key => find_buildRequest rfl key,
    close_poolRequest pool method url⟩
  rw [HttpConnection.requestOf, close_buildRequest]
  exact and_iff_right rfl

/-- A second spelling of the key takes the host away. -/
example : ((HttpConnection.requestOf .get { Sylar.Uri.new with host := text "a" }
    ((OrderedMap.empty.set (text "Host") (text "b")).set (text "host") []) []).headers.find
      (text "Host")) = some [] := by decide

/-! ### The pool and the other client -/

/-- What stands between the method and the version. -/
def HttpRequest.target (q : HttpRequest) : List UInt8 :=
  q.path ++ mark "?" q.query ++ q.query ++ mark "#" q.fragment ++ q.fragment

/-- Two requests that differ in their close flags, and in how the target is kept. -/
structure Alike (q r : HttpRequest) : Prop where
  method : q.method = r.method
  version : q.version = r.version
  websocket : q.websocket = r.websocket
  target : q.target = r.target
  body : q.body = r.body
  headers : q.headers = r.headers

namespace Alike

variable {q r : HttpRequest}

theorem dump_eq (h : Alike q r) (hclose : q.close = r.close) : q.dump = r.dump := by
  have hdump : ∀ x : HttpRequest, x.dump = httpMethodToString x.method ++ text " " ++ x.target ++
      text " " ++ HttpRequest.dumpVersion "." x.version ++ text "\r\n" ++
      HttpRequest.dumpConnection x.websocket x.close ++
      x.headers.entries.flatMap (HttpRequest.dumpHeader x.websocket) ++
      HttpRequest.dumpBody x.body := by
    intro x
    simp only [HttpRequest.dump, HttpRequest.target, List.append_assoc]
  rw [hdump q, hdump r, h.method, h.version, h.websocket, h.target, h.body, h.headers, hclose]

theorem addHeader {st st' : HttpRequest × Bool} (h : Alike st.1 st'.1) (hb : st.2 = st'.2)
    (e : List UInt8 × List UInt8) : Alike (Http.addHeader st e).1 (Http.addHeader st' e).1 ∧
      (Http.addHeader st e).2 = (Http.addHeader st' e).2 := by
  by_cases hconn : IsConnection e.1
  · rw [Http.addHeader, if_pos hconn, Http.addHeader, if_pos hconn]
    split
    · exact ⟨⟨h.method, h.version, h.websocket, h.target, h.body, h.headers⟩, hb⟩
    · exact ⟨h, hb⟩
  · rw [addHeader_of_not_connection hconn, addHeader_of_not_connection hconn, hb]
    exact ⟨⟨h.method, h.version, h.websocket, h.target, h.body,
      congrArg (fun m : MapType => m.set e.1 e.2) h.headers⟩, rfl⟩

theorem foldl_addHeader {st st' : HttpRequest × Bool} (h : Alike st.1 st'.1) (hb : st.2 = st'.2)
    (es : List (List UInt8 × List UInt8)) :
    Alike (es.foldl Http.addHeader st).1 (es.foldl Http.addHeader st').1 ∧
      (es.foldl Http.addHeader st).2 = (es.foldl Http.addHeader st').2 := by
  induction es generalizing st st' with
  | nil => exact ⟨h, hb⟩
  | cons e es ih =>
      obtain ⟨hone, hflag⟩ := h.addHeader hb e
      exact ih hone hflag

theorem buildRequest (h : Alike q r) (headers : StringMap) (host body : List UInt8) :
    Alike (buildRequest q headers host body) (buildRequest r headers host body) := by
  have hstart : Alike (q, false).1 (r, false).1 := h
  obtain ⟨hreq, hflag⟩ := hstart.foldl_addHeader rfl headers.entries
  rw [Http.buildRequest, Http.buildRequest]
  generalize headers.entries.foldl Http.addHeader (q, false) = res at hreq hflag
  generalize headers.entries.foldl Http.addHeader (r, false) = res' at hreq hflag
  obtain ⟨q', b⟩ := res
  obtain ⟨r', b'⟩ := res'
  obtain rfl : b = b' := hflag
  cases b with
  | true => exact ⟨hreq.method, hreq.version, hreq.websocket, hreq.target, rfl, hreq.headers⟩
  | false =>
      exact ⟨hreq.method, hreq.version, hreq.websocket, hreq.target, rfl,
        congrArg (fun m : MapType => m.set (text "Host") host) hreq.headers⟩

end Alike

/-- For a `Uri` the pool sends what the other client sends to the host of the pool, with the close
flag off. -/
theorem pool_sends_uri (pool : HttpConnectionPool.Target) (method : HttpMethod) (uri : Sylar.Uri)
    (headers : StringMap) (body : List UInt8) :
    (pool.requestOf method (HttpConnectionPool.urlOf uri) headers body).dump =
      { HttpConnection.requestOf method { uri with host := pool.hostHeader } headers body with
        close := false }.dump := by
  have hstart : Alike
      { HttpRequest.new with
        path := HttpConnectionPool.urlOf uri
        method := method
        close := false }
      { HttpRequest.new with
        path := uri.getPath
        query := uri.query
        fragment := uri.fragment
        method := method } := by
    refine ⟨rfl, rfl, rfl, ?_, rfl, rfl⟩
    simp [HttpRequest.target, HttpConnectionPool.urlOf, HttpRequest.mark, HttpRequest.new]
  have hbuilt := hstart.buildRequest headers pool.hostHeader body
  exact Alike.dump_eq ⟨hbuilt.method, hbuilt.version, hbuilt.websocket, hbuilt.target, hbuilt.body,
    hbuilt.headers⟩ (close_poolRequest pool method _)

end Sylar.Http
