import Sylar.Proofs.Uri.Machine

/-!
# `Sylar.Proofs.Uri.Create`: what `Uri::Create` returns

`create_text` gives the `Uri` for every URI with an authority of `uri.rl`. It has the parts of the
URI, but for two that the shared `mark` spoils. A port may begin behind the first colon of the user
information, so that a digit there moves the mark and only what follows the colon is saved. An empty
port and the path behind it mark the same position. The mark is made once and the port takes it, so
that the path is lost.
-/

set_option autoImplicit false

namespace Sylar

open Lib Lib.Rx UriParser

/-- What is saved of the user information. -/
def savedUserinfo (w : List UInt8) : List UInt8 :=
  bif digitBehindColon w then behindColon w else w

/-- The `Uri` of the parts. -/
def Parts.uri (x : Parts) : Uri where
  scheme := x.scheme
  userinfo := (x.userinfo.map savedUserinfo).getD []
  host := x.host
  path := bif x.port == some [] then [] else x.path
  query := x.query.getD []
  fragment := x.fragment.getD []
  port := (x.port.map atoi).getD 0

namespace Uri

/-- One action of the scan. -/
def runAct (s : List UInt8) (fpc : Nat) (a : UriAction) (st : Except NullMark UriScan) :
    Except NullMark UriScan :=
  st.bind (act s fpc a)

section
variable {s v w a b : List UInt8} {k : Nat} {m : Option Nat} {y : Uri} {o : Option (List UInt8)}

theorem since_eq (h : s.drop k = w ++ v) : since s k (k + w.length) = w := by
  rw [since, h, Nat.add_sub_cancel_left, List.take_left]

theorem drop_of_drop (h : s.drop k = w ++ v) : s.drop (k + w.length) = v := by
  rw [← List.drop_drop, h, List.drop_left]

theorem enact_scheme (h : s.drop k = w ++ v) :
    enact (runAct s) [(k, .marku), (k + w.length, .saveScheme)] (.ok ⟨m, y⟩) =
      .ok ⟨none, setScheme w y⟩ := by
  rw [enact_of_nodup (by simp)]
  show Except.ok (UriScan.mk none (setScheme (since s k (k + w.length)) y)) = _
  rw [since_eq h]

/-- A query or a fragment. -/
theorem enact_behind {sep : UInt8} {e : UriAction} (set : List UInt8 → Uri → Uri)
    (he : ∀ fpc x, act s fpc e x = save s fpc set x) (hne : e ≠ .marku)
    (h : s.drop k = behind sep o ++ v) :
    enact (runAct s) (behindEvents .marku e k o) (.ok ⟨none, y⟩) =
      .ok ⟨none, (o.map fun w => set w y).getD y⟩ := by
  cases o with
  | none => rfl
  | some w =>
      have hw : s.drop (k + 1) = w ++ v := drop_of_drop (w := [sep]) h
      rw [behindEvents, enact_of_nodup (by simp [Ne.symm hne])]
      show (act s _ e ⟨some (k + 1), y⟩) = _
      rw [he]
      show Except.ok (UriScan.mk none (set (since s (k + 1) (k + 1 + w.length)) y)) = _
      rw [since_eq hw]
      rfl

/-- The user information. A host that is saved here is overwritten later. -/
theorem enact_userinfo (h : s.drop k = w ++ v) :
    ∃ d, enact (runAct s) ((k, .markh) :: userinfoEvents k (some w)) (.ok ⟨m, y⟩) =
      .ok ⟨none, setUserinfo (savedUserinfo w) (setHost d y)⟩ := by
  have hw : w = w.takeWhile (· != 58) ++ w.dropWhile (· != 58) := List.takeWhile_append_dropWhile.symm
  rw [userinfoEvents, strayEvents, savedUserinfo]
  generalize w.takeWhile (· != 58) = a at hw ⊢
  -- The mark of the host stands where the authority made one already.
  have hmark : ∀ l : List (Nat × UriAction),
      enact (runAct s) ((k, .markh) :: ((bif w.isEmpty then [] else [(k, .markh)]) ++ l))
          (.ok ⟨m, y⟩) =
        enact (runAct s) ((k, .markh) :: l) (.ok ⟨m, y⟩) := by
    intro l
    cases w with
    | nil => rfl
    | cons c w => exact enact_again (l := [(k, UriAction.markh)]) (List.mem_singleton_self _)
  cases hd : w.dropWhile (· != 58) with
  | nil =>
      have hdigit : digitBehindColon w = false := by rw [digitBehindColon, behindColon, hd]; rfl
      rw [List.append_assoc, hmark, List.nil_append, enact_of_nodup (by simp), hdigit]
      refine ⟨y.host, ?_⟩
      show Except.ok (UriScan.mk none (setUserinfo (since s k (k + w.length)) y)) = _
      rw [since_eq h]
      rfl
  | cons e b =>
      have hcolon : behindColon w = b := by rw [behindColon, hd, List.tail_cons]
      rw [hd] at hw
      rw [List.append_assoc, hmark, digitBehindColon, hcolon]
      refine ⟨since s k (k + a.length), ?_⟩
      cases hb : (b.head?.map isDigit).getD false with
      | false =>
          simp only [hb, cond_false, List.cons_append, List.nil_append]
          rw [enact_of_nodup (by simp)]
          show Except.ok (UriScan.mk none (setUserinfo (since s k (k + w.length))
            (setHost (since s k (k + a.length)) y))) = _
          rw [since_eq h]
      | true =>
          have hrest : s.drop (k + a.length + 1) = b ++ v := by
            rw [hw, List.append_assoc, List.cons_append] at h
            exact drop_of_drop (w := [e]) (drop_of_drop h)
          have hlen : k + w.length = k + a.length + 1 + b.length := by
            rw [hw, List.length_append, List.length_cons]
            omega
          simp only [hb, cond_true, List.cons_append, List.nil_append]
          rw [enact_of_nodup (by simp; omega)]
          show Except.ok (UriScan.mk none (setUserinfo (since s (k + a.length + 1) (k + w.length))
            (setHost (since s k (k + a.length)) y))) = _
          rw [hlen, since_eq hrest]

/-- `atoi` reads the digits of the port. -/
theorem atoi_port (hw : ∀ c ∈ w, isDigit c = true) (hne : w ≠ [])
    (hv : ∀ c ∈ v.head?, isDigit c = false ∧ c ≠ 120 ∧ c ≠ 88) : atoi (w ++ v) = atoi w := by
  have hend := strtol_digits (b := 10) (x := []) hne hw fun c hc => nomatch hc
  rw [List.append_nil] at hend
  rw [atoi, atoi, strtol_digits (b := 10) hne hw hv, hend]

/-- The host and the path behind it. -/
theorem enact_host (h : s.drop k = w ++ (b ++ v)) :
    enact (runAct s) [(k, .markh), (k + w.length, .saveHost), (k + w.length, .markh),
        (k + w.length + b.length, .savePath)] (.ok ⟨m, y⟩) =
      .ok ⟨none, setPath b (setHost w y)⟩ := by
  have hb := since_eq (drop_of_drop h)
  have hw := since_eq h
  cases w with
  | nil =>
      -- the path begins where the host does
      have hagain := enact_again (f := runAct s) (s := .ok ⟨m, y⟩) (y := (k, UriAction.markh))
        (l := [(k, .markh), (k, .saveHost)]) (k := [(k + b.length, .savePath)]) (by simp)
      refine hagain.trans ?_
      have hb : since s k (k + b.length) = b := hb
      have hw : since s k k = [] := hw
      rw [enact_of_nodup (by simp)]
      show Except.ok (UriScan.mk none (setPath (since s k (k + b.length))
        (setHost (since s k k) y))) = _
      rw [hb, hw]
  | cons c w =>
      rw [enact_of_nodup (by simp)]
      show Except.ok (UriScan.mk none (setPath (since s _ _) (setHost (since s _ _) y))) = _
      rw [hb, hw]

/-- The host, the port and the path. An empty port takes the mark of the path. -/
theorem enact_hostPort {ds : List UInt8} (h : s.drop k = w ++ 58 :: (ds ++ (b ++ v)))
    (hdigits : ∀ c ∈ ds, isDigit c = true)
    (hend : ∀ c ∈ (b ++ v).head?, isDigit c = false ∧ c ≠ 120 ∧ c ≠ 88) :
    enact (runAct s) [(k, .markh), (k + w.length, .saveHost), (k + w.length + 1, .markh),
        (k + w.length + 1 + ds.length, .savePort), (k + w.length + 1 + ds.length, .markh),
        (k + w.length + 1 + ds.length + b.length, .savePath)] (.ok ⟨m, y⟩) =
      .ok ⟨none, bif ds.isEmpty then setHost w y else
        setPath b (setPort (atoi ds) (setHost w y))⟩ := by
  have hw := since_eq h
  have hport : s.drop (k + w.length + 1) = ds ++ (b ++ v) := drop_of_drop (w := [58]) (drop_of_drop h)
  have hb := since_eq (drop_of_drop hport)
  cases ds with
  | nil =>
      have hagain := enact_again (f := runAct s) (s := .ok ⟨m, y⟩)
        (y := (k + w.length + 1, UriAction.markh))
        (l := [(k, .markh), (k + w.length, .saveHost), (k + w.length + 1, .markh),
          (k + w.length + 1, .savePort)])
        (k := [(k + w.length + 1 + b.length, .savePath)]) (by simp)
      refine hagain.trans ?_
      rw [enact_of_nodup (by simp; omega)]
      show Except.ok (UriScan.mk none (bif k + w.length + 1 != k + w.length + 1 then _ else
        setHost (since s k (k + w.length)) y)) = _
      rw [bne_self_eq_false, hw]
      rfl
  | cons c ds =>
      have hne : (k + w.length + 1 + (c :: ds).length != k + w.length + 1) = true := by
        rw [bne_iff_ne, List.length_cons]
        omega
      rw [enact_of_nodup (by simp; omega)]
      show Except.ok (UriScan.mk none (setPath (since s _ _)
        (bif k + w.length + 1 + (c :: ds).length != k + w.length + 1 then
          setPort (atoi (s.drop (k + w.length + 1))) (setHost (since s _ _) y) else _))) = _
      rw [hne, hb, hw, hport, atoi_port hdigits (List.cons_ne_nil c ds) hend]
      rfl

end

end Uri

namespace Parts

open Uri

section
variable {x : Parts} {s v : List UInt8} {p : Nat} {m : Option Nat}

/-! ### Where the actions of a part fall -/

theorem le_of_mem_userinfoEvents {w : List UInt8} (hw : w ∈ lang UriParser.userinfo)
    {y : Nat × UriAction} (hy : y ∈ (p, UriAction.markh) :: userinfoEvents p (some w)) :
    p ≤ y.1 ∧ y.1 < p + w.length + 1 := by
  rw [userinfoEvents, List.mem_cons, List.mem_append, List.mem_singleton] at hy
  rcases hy with rfl | hy | rfl
  · exact ⟨Nat.le_refl p, by omega⟩
  · rw [← events_acted_userinfo hw] at hy
    have hle := lt_of_mem_events hy
    rw [length_acted] at hle
    omega
  · exact ⟨by omega, by omega⟩

theorem le_of_mem_behindEvents {a b : UriAction} {o : Option (List UInt8)} (sep : UInt8)
    {y : Nat × UriAction} (hy : y ∈ behindEvents a b p o) :
    p < y.1 ∧ y.1 ≤ p + (behind sep o).length := by
  cases o with
  | none => cases hy
  | some w =>
      rw [behind, List.length_cons]
      rw [behindEvents, List.mem_cons, List.mem_singleton] at hy
      rcases hy with rfl | rfl
      · exact ⟨by omega, by omega⟩
      · exact ⟨by omega, by omega⟩

theorem le_of_mem_hostPortEvents {w : List UInt8} {o : Option (List UInt8)} {y : Nat × UriAction}
    (hy : y ∈ hostPortEvents w o p) : p ≤ y.1 ∧ y.1 ≤ p + (w ++ behind 58 o).length := by
  rw [List.length_append]
  rw [hostPortEvents, List.mem_cons, List.mem_cons] at hy
  rcases hy with rfl | rfl | hy
  · exact ⟨Nat.le_refl p, by omega⟩
  · exact ⟨by omega, by omega⟩
  · have hle := le_of_mem_behindEvents 58 hy
    omega

theorem le_of_mem_hierEvents (h : x.Grammatical) {y : Nat × UriAction} (hy : y ∈ x.hierEvents p) :
    p < y.1 ∧ y.1 ≤ p + 2 + x.authority.length + x.path.length := by
  have hlen : x.authority.length =
      (userinfoText x.userinfo).length + (x.host ++ behind 58 x.port).length := by
    rw [authority, List.length_append]
  rw [hierEvents, authorityEvents, List.mem_append, ← List.cons_append, List.mem_append] at hy
  rcases hy with (hy | hy) | hy
  · cases hu : x.userinfo with
    | none =>
        rw [hu, userinfoEvents, List.mem_singleton] at hy
        rw [hy]
        exact ⟨by omega, by omega⟩
    | some w =>
        rw [hu] at hy hlen
        have hle := le_of_mem_userinfoEvents (h.userinfo w hu) hy
        rw [userinfoText, List.length_append, List.length_singleton] at hlen
        omega
  · have hle := le_of_mem_hostPortEvents hy
    omega
  · rw [List.mem_cons, List.mem_singleton] at hy
    rcases hy with rfl | rfl
    · exact ⟨by omega, by omega⟩
    · exact ⟨by omega, by omega⟩

/-! ### What a URI is parsed to -/

/-- What follows the authority. -/
theorem head_path (h : x.Grammatical) (hv : ∀ c ∈ v.head?, c = 63 ∨ c = 35) :
    ∀ c ∈ (x.path ++ v).head?, c = 47 ∨ c = 63 ∨ c = 35 := by
  intro c hc
  cases hpath : x.path with
  | nil =>
      rw [hpath] at hc
      exact .inr (hv c hc)
  | cons d w =>
      rw [hpath] at hc
      obtain rfl : d = c := Option.some.inj hc
      have hfirst := first_of_mem_lang (hpath ▸ h.path)
      rw [first_pathAbempty] at hfirst
      exact .inl (beq_iff_eq.mp hfirst)

/-- The host, the port and the path, for a `Uri` that has no port and no path yet. -/
theorem enact_hostPath {k : Nat} {y : Uri} (h : x.Grammatical)
    (hs : s.drop k = x.host ++ (behind 58 x.port ++ (x.path ++ v)))
    (hv : ∀ c ∈ v.head?, c = 63 ∨ c = 35) (hport : y.port = 0) (hpath : y.path = []) :
    enact (runAct s) (hostPortEvents x.host x.port k ++
        [(k + (x.host ++ behind 58 x.port).length, .markh),
          (k + (x.host ++ behind 58 x.port).length + x.path.length, .savePath)]) (.ok ⟨m, y⟩) =
      .ok ⟨none, setPath x.uri.path (setPort x.uri.port (setHost x.host y))⟩ := by
  rw [Parts.uri, hostPortEvents]
  have hdigits := h.port
  cases hp : x.port with
  | none =>
      rw [hp, behind, List.nil_append] at hs
      simp only [behind, List.append_nil, behindEvents, List.cons_append, List.nil_append]
      rw [enact_host hs]
      show _ = Except.ok (UriScan.mk none (setPath x.path (setPort 0 (setHost x.host y))))
      rw [← hport]
      rfl
  | some ds =>
      rw [hp] at hs hdigits
      have hdigits : ∀ c ∈ ds, isDigit c = true := mem_lang_star_sym.mp (hdigits ds rfl)
      have hlen : k + (x.host ++ behind 58 (some ds)).length = k + x.host.length + 1 + ds.length := by
        rw [behind, List.length_append, List.length_cons]
        omega
      rw [hlen]
      simp only [behindEvents, List.cons_append, List.nil_append]
      have hend : ∀ c ∈ (x.path ++ v).head?, isDigit c = false ∧ c ≠ 120 ∧ c ≠ 88 := by
        intro c hc
        rcases head_path h hv c hc with rfl | rfl | rfl <;> decide
      rw [enact_hostPort hs hdigits hend]
      cases ds with
      | nil =>
          show Except.ok (UriScan.mk none (setHost x.host y)) =
            Except.ok (UriScan.mk none (setPath [] (setPort (atoi []) (setHost x.host y))))
          have hzero : atoi [] = y.port := hport.symm ▸ by decide
          rw [hzero, ← hpath]
          rfl
      | cons c ds => rfl

theorem enact_hierEvents {y : Uri} (h : x.Grammatical)
    (hs : s.drop p = 47 :: 47 :: (x.authority ++ x.path) ++ v)
    (hv : ∀ c ∈ v.head?, c = 63 ∨ c = 35) (hy : y = setScheme x.scheme new) :
    enact (runAct s) (x.hierEvents p) (.ok ⟨m, y⟩) =
      .ok ⟨none, { x.uri with query := [], fragment := [] }⟩ := by
  have hauthority : s.drop (p + 2) = userinfoText x.userinfo ++
      (x.host ++ (behind 58 x.port ++ (x.path ++ v))) := by
    rw [← List.drop_drop, hs]
    show (x.authority ++ x.path) ++ v = _
    rw [authority]
    simp only [List.append_assoc]
  have hlen : x.authority.length =
      (userinfoText x.userinfo).length + (x.host ++ behind 58 x.port).length := by
    rw [authority, List.length_append]
  rw [hierEvents, authorityEvents, hlen, ← Nat.add_assoc]
  generalize p + 2 = k at hauthority ⊢
  cases hu : x.userinfo with
  | none =>
      rw [hu] at hauthority
      have hhost := enact_hostPath (m := m) (y := y) h hauthority hv (by rw [hy]; rfl)
        (by rw [hy]; rfl)
      have hagain := enact_again (f := runAct s) (s := .ok ⟨m, y⟩) (y := (k, UriAction.markh))
        (l := [(k, UriAction.markh)]) (k := (k + x.host.length, .saveHost) ::
          (behindEvents .markh .savePort (k + x.host.length) x.port ++
            [(k + (x.host ++ behind 58 x.port).length, .markh),
              (k + (x.host ++ behind 58 x.port).length + x.path.length, .savePath)]))
        (List.mem_singleton_self _)
      refine hagain.trans (hhost.trans ?_)
      rw [hy, uri, hu]
      rfl
  | some w =>
      rw [hu] at hauthority
      have hw := h.userinfo w hu
      have hrest : s.drop (k + (userinfoText (some w)).length) =
          x.host ++ (behind 58 x.port ++ (x.path ++ v)) := drop_of_drop hauthority
      rw [userinfoText, List.append_assoc] at hauthority
      obtain ⟨d, hui⟩ := enact_userinfo (m := m) (y := y) hauthority
      have hhost := enact_hostPath (m := none) (y := setUserinfo (savedUserinfo w) (setHost d y)) h
        hrest hv (by rw [hy]; rfl) (by rw [hy]; rfl)
      have hlen : k + (userinfoText (some w)).length = k + w.length + 1 := by
        rw [userinfoText, List.length_append, List.length_singleton, Nat.add_assoc]
      rw [← List.cons_append, List.append_assoc,
        enact_append_of_lt (n := k + w.length + 1) (fun e he => (le_of_mem_userinfoEvents hw he).2),
        hui, hhost]
      · rw [hy, uri, hu]
        rfl
      · intro e he
        rw [hlen, List.mem_append, List.mem_cons, List.mem_singleton] at he
        rcases he with he | rfl | rfl
        · exact (le_of_mem_hostPortEvents he).1
        · exact Nat.le_add_right ..
        · exact Nat.le_add_right_of_le (Nat.le_add_right ..)

/-- A query and a fragment begin with their separators. -/
theorem head_tail : ∀ c ∈ (behind 63 x.query ++ behind 35 x.fragment).head?, c = 63 ∨ c = 35 := by
  intro c hc
  cases hq : x.query with
  | some q =>
      rw [hq] at hc
      exact .inl (Option.some.inj hc).symm
  | none =>
      cases hf : x.fragment with
      | some f =>
          rw [hq, hf] at hc
          exact .inr (Option.some.inj hc).symm
      | none =>
          rw [hq, hf] at hc
          cases hc

theorem enact_tailEvents {y : Uri}
    (hs : s.drop p = behind 63 x.query ++ (behind 35 x.fragment ++ v)) :
    enact (runAct s) (x.tailEvents p) (.ok ⟨none, y⟩) =
      .ok ⟨none, { y with
        query := x.query.getD y.query, fragment := x.fragment.getD y.fragment }⟩ := by
  rw [tailEvents, enact_append_of_lt (n := p + (behind 63 x.query).length + 1)
      (fun e he => Nat.lt_succ_of_le (le_of_mem_behindEvents 63 he).2)
      (fun e he => (le_of_mem_behindEvents 35 he).1),
    enact_behind setQuery (fun _ _ => rfl) (by decide) hs,
    enact_behind setFragment (fun _ _ => rfl) (by decide) (drop_of_drop hs)]
  cases x.query <;> cases x.fragment <;> rfl

theorem enact_events (h : x.Grammatical) :
    enact (runAct x.text) (x.events 0) (.ok ⟨none, new⟩) = .ok ⟨none, x.uri⟩ := by
  have hscheme : x.text.drop 0 = x.scheme ++ _ := rfl
  have hhier : x.text.drop (0 + x.scheme.length + 1) = 47 :: 47 :: (x.authority ++ x.path) ++
      (behind 63 x.query ++ behind 35 x.fragment) := drop_of_drop (w := [58]) (drop_of_drop hscheme)
  have hlen : (47 :: 47 :: (x.authority ++ x.path)).length =
      2 + (x.authority.length + x.path.length) := by
    rw [List.length_cons, List.length_cons, List.length_append]
    omega
  have htail := drop_of_drop hhier
  rw [hlen, ← List.append_nil (behind 35 x.fragment)] at htail
  rw [events, enact_append_of_lt (n := 0 + x.scheme.length + 1), enact_scheme hscheme,
    enact_append_of_lt
      (n := 0 + x.scheme.length + 1 + (2 + (x.authority.length + x.path.length)) + 1),
    enact_hierEvents (y := setScheme x.scheme new) h hhier head_tail rfl, enact_tailEvents htail]
  · rfl
  · intro e he
    have hle := le_of_mem_hierEvents h he
    omega
  · intro e he
    rw [tailEvents, List.mem_append] at he
    rcases he with he | he
    · exact (le_of_mem_behindEvents 63 he).1
    · have hle := le_of_mem_behindEvents 35 he
      omega
  · intro e he
    rw [List.mem_cons, List.mem_singleton] at he
    rcases he with rfl | rfl
    · exact Nat.succ_pos _
    · exact Nat.lt_succ_self _
  · intro e he
    rw [List.mem_append] at he
    rcases he with he | he
    · exact Nat.le_of_lt (le_of_mem_hierEvents h he).1
    · rw [tailEvents, List.mem_append] at he
      rcases he with he | he
      · have hle := le_of_mem_behindEvents 63 he
        omega
      · have hle := le_of_mem_behindEvents 35 he
        omega

theorem scan_eq : scan s =
    match exec main (runAct s) (fun _ => false) 0 true .none s (.ok ⟨none, new⟩) with
    | (_, .error, st) => (.error, st)
    | (fpc, .at m t, st) =>
      (.at m t, (acts m true main t none).eraseDups.foldl (fun st a => runAct s fpc a st) st) := rfl

/-- What `Uri::Create` makes of a URI with an authority. -/
theorem create_text (h : x.Grammatical) : create x.text = .ok (some x.uri) := by
  have hstops : ∀ a : UriAction, (fun _ => false) a = false := fun _ => rfl
  obtain ⟨m, t, st, hexec, hlive, hend⟩ := (enacts_text h).exec_eq (f := runAct x.text)
    (s := .ok ⟨none, new⟩) hstops
  rw [enact_events h] at hend
  have hscan : scan x.text = (.at m t, .ok ⟨none, x.uri⟩) := by
    rw [scan_eq, hexec]
    exact congrArg _ hend
  rw [create, hscan]
  show Except.ok (bif live m main t then some x.uri else none) = _
  rw [hlive]
  rfl

end

end Parts

end Sylar
