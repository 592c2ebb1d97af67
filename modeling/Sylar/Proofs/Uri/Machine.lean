import Sylar.Lib.Events
import Sylar.Spec.UriParts

/-!
# `Sylar.Proofs.Uri.Machine`: the machine of `uri.rl` on a URI with an authority

`enacts_text` lists the actions of the machine on a URI with the positions they fall on. Most of them
are the two ends of a part. The others come from the user information: a host may begin with it, and
a port may follow its first colon, so that the machine runs the actions of the host and the port on
it too (`strayEvents`).
-/

set_option autoImplicit false

namespace Sylar

open Lib Lib.Rx UriParser

/-- The events of an optional part at the position of its separator. -/
def behindEvents (a b : UriAction) (p : Nat) : Option (List UInt8) → List (Nat × UriAction)
  | none => []
  | some w => [(p + 1, a), (p + 1 + w.length, b)]

section
variable {w a b x : List UInt8} {t : Marks} {c : UInt8} {m : Bool} {p : Nat}
  {o : Option (List UInt8)}

/-! ### The host -/

/-- Bytes that end a host or stand in an IP literal only. -/
theorem avoids_names : (avoids 58 ipv4address && avoids 58 regName && avoids 91 ipv4address &&
    avoids 91 regName) = true := by
  decide

theorem avoids_bracket : avoids 93 (alt ipv6address ipvFuture) = true := by decide

theorem plain_host : plain host = true := by decide

/-- An IP literal stands in brackets. -/
theorem of_mem_ipLiteral (h : w ∈ lang ipLiteral) : ∃ x ∈ lang (alt ipv6address ipvFuture),
    w = 91 :: (x ++ [93]) ∧ (93 : UInt8) ∉ x := by
  obtain ⟨l, hl, y, hy, rfl⟩ := mem_lang_seq.mp h
  obtain ⟨x, hx, r, hr, rfl⟩ := mem_lang_seq.mp hy
  rw [show l = [91] from mem_lang_word.mp hl, show r = [93] from mem_lang_word.mp hr]
  exact ⟨x, hx, rfl, notMem_of_avoids avoids_bracket hx⟩

/-- The other hosts have no colon. -/
theorem host_cases (h : w ∈ lang host) :
    w ∈ lang ipLiteral ∨ (58 : UInt8) ∉ w ∧ (91 : UInt8) ∉ w := by
  have havoids := avoids_names
  simp only [Bool.and_eq_true] at havoids
  obtain ⟨⟨⟨h4, hreg⟩, h4'⟩, hreg'⟩ := havoids
  rcases h with h | h | h
  · exact Or.inl h
  · exact Or.inr ⟨notMem_of_avoids h4 h, notMem_of_avoids h4' h⟩
  · exact Or.inr ⟨notMem_of_avoids hreg h, notMem_of_avoids hreg' h⟩

/-- Nothing follows a closing bracket. -/
theorem shift_ipLiteral_end :
    shift false ipLiteral (after true ipLiteral .none (91 :: (x ++ [93]))) c = .none := by
  have hend : ∃ y, after true ipLiteral .none (91 :: (x ++ [93])) = .join .none (.join .none y) := by
    rw [show 91 :: (x ++ [93]) = (91 :: x) ++ [93] from rfl, after_append]
    generalize after true ipLiteral .none (91 :: x) = t
    show ∃ y, shift _ (seq (lit "[") (seq (alt ipv6address ipvFuture) (lit "]"))) t 93 = _
    rw [shift_seq, shift_seq, shift_of_avoids avoids_bracket,
      shift_of_avoids (r := lit "[") (by decide)]
    exact ⟨_, rfl⟩
  obtain ⟨y, hy⟩ := hend
  rw [hy]
  show shift false (seq (lit "[") (seq (alt ipv6address ipvFuture) (lit "]"))) _ c = _
  rw [shift_seq, Marks.left_join, Marks.right_join, shift_idle, live_none, Bool.false_and, shift_seq,
    Marks.left_join, Marks.right_join, shift_idle, live_none, Bool.false_and]
  rfl

theorem host_rule : host = alt ipLiteral (alt ipv4address regName) := rfl

/-- Without a bracket at its front a word does not get into an IP literal. -/
theorem shift_ipLiteral_of_head (h : (91 : UInt8) ∉ w) :
    shift w.isEmpty ipLiteral (after true ipLiteral .none w) 58 = .none := by
  cases w with
  | nil => exact shift_none_of_first rfl
  | cons d w =>
      rw [List.mem_cons, not_or] at h
      have hf : first ipLiteral d = false := by
        show (d == 91 || false) = false
        rw [beq_eq_false_iff_ne.mpr (Ne.symm h.1)]
        rfl
      rw [after_of_first hf]
      exact shift_idle ..

/-- A colon ends the host. -/
theorem shift_host_colon (h : w ∈ lang ipLiteral ∨ (91 : UInt8) ∉ w) :
    shift w.isEmpty host (after true host .none w) 58 = .none := by
  have havoids := avoids_names
  simp only [Bool.and_eq_true] at havoids
  have hleft : after true host .none w = .join (after true ipLiteral .none w)
      (after true (alt ipv4address regName) .none w) := after_alt (t := .none) (x := .none)
  have hliteral : shift w.isEmpty ipLiteral (after true ipLiteral .none w) 58 = .none := by
    rcases h with h | h
    · obtain ⟨x, -, rfl, -⟩ := of_mem_ipLiteral h
      exact shift_ipLiteral_end
    · exact shift_ipLiteral_of_head h
  rw [hleft, host_rule, shift_alt, Marks.left_join, hliteral, shift_alt,
    shift_of_avoids havoids.1.1.1, shift_of_avoids havoids.1.1.2]
  rfl

def hostPart : Machine := leave .saveHost (enter .markh host)

def portPart : Machine := opt (seq (lit ":") (leave .savePort (enter .markh UriParser.port)))

theorem hostPort_rule : hostPort = seq hostPart portPart := rfl

theorem first_word_seq {e : UInt8} {r : Machine} : first (seq (word [e]) r) c = (c == e) := by
  show (c == e || (false && first r c)) = _
  rw [Bool.false_and, Bool.or_false]

theorem first_behind {e : UInt8} {r : Machine} : first (opt (seq (word [e]) r)) c = (c == e) := by
  show (first (seq (word [e]) r) c || false) = _
  rw [first_word_seq, Bool.or_false]

/-- A colon inside an IP literal does not begin a port. -/
theorem stays_host (h : w ∈ lang host) : Stays hostPart portPart true .none w := by
  refine stays_of_lang fun u c v hw hu => ?_
  rw [show first portPart c = (c == 58) from first_behind, beq_eq_false_iff_ne]
  rintro rfl
  rcases host_cases h with h | ⟨h, -⟩
  · obtain ⟨x, -, rfl, hx⟩ := of_mem_ipLiteral h
    rcases host_cases (w := u) hu with hu | ⟨-, hu⟩
    · -- The shorter host would end with the first bracket.
      obtain ⟨y, -, rfl, hy⟩ := of_mem_ipLiteral hu
      rw [List.cons_append, List.append_assoc] at hw
      obtain ⟨-, h⟩ := append_cons_inj_left hx hy (List.cons.inj hw).2
      cases h
    · cases u with
      | nil => cases hw
      | cons d u =>
          obtain ⟨rfl, -⟩ := List.cons.inj hw
          exact hu (List.mem_cons_self ..)
  · exact h (hw ▸ List.mem_append_right _ (List.mem_cons_self ..))

/-- An optional part behind its separator. -/
theorem enacts_behind {sep : UInt8} {a b : UriAction} {r : Machine}
    (hp : plain r = true) (h : ∀ w ∈ o, w ∈ lang r) :
    Enacts (opt (seq (word [sep]) (leave b (enter a r)))) (behind sep o)
      fun p => behindEvents a b p o := by
  cases o with
  | none => exact Enacts.opt_none rfl
  | some w => exact ((Enacts.part hp (h w rfl)).word_seq rfl fun _ => rfl).opt

/-- The events of a host and its port. -/
def hostPortEvents (host : List UInt8) (port : Option (List UInt8)) (p : Nat) :
    List (Nat × UriAction) :=
  (p, .markh) :: (p + host.length, .saveHost) ::
    behindEvents .markh .savePort (p + host.length) port

theorem enacts_hostPort (h : w ∈ lang host) (hport : ∀ w ∈ o, w ∈ lang UriParser.port) :
    Enacts hostPort (w ++ behind 58 o) (hostPortEvents w o) := by
  have hhost : Enacts hostPart w fun p => [(p, .markh), (p + w.length, .saveHost)] :=
    Enacts.part plain_host h
  have hcolon : Enacts portPart (behind 58 o) fun p => behindEvents .markh .savePort p o :=
    enacts_behind rfl hport
  refine hhost.seq hcolon (stays_host h) fun c hc => ?_
  cases o with
  | none => cases hc
  | some ds =>
      obtain rfl : 58 = c := Option.some.inj hc
      rw [hostPart, after_part]
      exact shift_host_colon ((host_cases h).imp_right And.right)

/-! ### The user information -/

/-- What the host and the port run on the user information: a host begins with it, ends at the first
colon, and a port begins behind that if there is a digit. -/
def strayEvents (w : List UInt8) (p : Nat) : List (Nat × UriAction) :=
  (bif w.isEmpty then [] else [(p, .markh)]) ++
    match w.dropWhile (· != 58) with
    | [] => []
    | _ :: b =>
      (p + (w.takeWhile (· != 58)).length, .saveHost) ::
        (bif (b.head?.map isDigit).getD false then
          [(p + (w.takeWhile (· != 58)).length + 1, .markh)] else [])

/-- Bytes of a class and escapes. -/
def escaped (q : UInt8 → Bool) : Machine := star (alt (sym q) pctEncoded)

theorem of_mem_pctEncoded (h : w ∈ lang pctEncoded) :
    ∃ d e, isXdigit d = true ∧ isXdigit e = true ∧ w = [37, d, e] := by
  obtain ⟨l, hl, y, hy, rfl⟩ := mem_lang_seq.mp h
  obtain ⟨-, ⟨d, hd, rfl⟩, -, ⟨e, he, rfl⟩, rfl⟩ := mem_lang_seq.mp hy
  rw [show l = [37] from mem_lang_word.mp hl]
  exact ⟨d, e, hd, he, rfl⟩

/-- What stands in front of the first byte `c`, and behind it. -/
theorem split_escaped {q : UInt8 → Bool} (hw : w ∈ lang (escaped q)) (hx : isXdigit c = false)
    (hc : c ≠ 37) : w.takeWhile (· != c) ∈ lang (escaped fun d => q d && d != c) ∧
      (w.dropWhile (· != c)).tail ∈ lang (escaped q) := by
  obtain ⟨S, rfl, hS⟩ := Language.mem_kstar.mp hw
  clear hw
  induction S with
  | nil => exact ⟨Language.nil_mem_kstar _, Language.nil_mem_kstar _⟩
  | cons y S ih =>
      rw [List.forall_mem_cons] at hS
      obtain ⟨htake, hdrop⟩ := ih hS.2
      rw [List.flatten_cons]
      by_cases hy : c ∈ y
      · -- Only a single byte of the class can be it.
        rcases hS.1 with ⟨d, hd, rfl⟩ | hpct
        · obtain rfl := List.mem_singleton.mp hy
          rw [List.singleton_append, List.takeWhile_cons_of_neg (by simp),
            List.dropWhile_cons_of_neg (by simp)]
          exact ⟨Language.nil_mem_kstar _, Language.mem_kstar.mpr ⟨S, rfl, hS.2⟩⟩
        · obtain ⟨d, e, hd, he, rfl⟩ := of_mem_pctEncoded hpct
          simp only [List.mem_cons, List.not_mem_nil, or_false] at hy
          rcases hy with rfl | rfl | rfl
          · exact absurd rfl hc
          · rw [hd] at hx
            cases hx
          · rw [he] at hx
            cases hx
      · have hne : ∀ d ∈ y, (d != c) = true := fun d hd => bne_iff_ne.mpr fun h => hy (h ▸ hd)
        rw [List.takeWhile_append_of_pos hne, List.dropWhile_append_of_pos hne]
        refine ⟨append_mem_lang_star ?_ htake, hdrop⟩
        rcases hS.1 with ⟨d, hd, rfl⟩ | hpct
        · refine Or.inl ⟨d, ?_, rfl⟩
          show (q d && d != c) = true
          rw [hd, hne d (List.mem_singleton_self _)]
          rfl
        · exact Or.inr hpct

/-- A name in front of the first colon. -/
theorem takeWhile_mem_regName (h : w ∈ lang userinfo) : w.takeWhile (· != 58) ∈ lang regName := by
  have hclass : (fun d => (isRegName d || d == 58) && d != 58) = isRegName := by
    funext d
    by_cases hd : d = 58
    · subst hd
      decide
    · rw [beq_eq_false_iff_ne.mpr hd, bne_iff_ne.mpr hd, Bool.or_false, Bool.and_true]
  have hsplit := (split_escaped (c := 58) h (by decide) (by decide)).1
  rw [hclass] at hsplit
  exact hsplit

/-- A port goes on with digits only. -/
theorem shift_portPart (h : isDigit c = false) : shift false portPart t c = .none := by
  have hdigits : avoids c (leave .savePort (enter .markh UriParser.port)) = true := by
    show (!isDigit c) = true
    rw [h]
    rfl
  rw [portPart, opt, shift_alt, shift_seq, shift_of_avoids hdigits]
  rfl

/-- Behind the first colon there is no host, and a port of digits only. -/
theorem shift_hostPort_colon (h : (91 : UInt8) ∉ a) (hc : isDigit c = false) :
    shift false hostPort (after true hostPort .none (a ++ 58 :: b)) c = .none := by
  have hhost : after true hostPart .none (a ++ 58 :: b) = .none := by
    have hdead := shift_host_colon (w := a) (Or.inr h)
    rw [hostPart, after_part, after_append, after, Bool.true_and, hdead, after_idle]
  have hleft : (after true hostPort .none (a ++ 58 :: b)).left = .none :=
    after_seq_left.trans hhost
  rw [hostPort_rule] at hleft ⊢
  rw [shift_seq, hleft, shift_idle, live_none, Bool.false_and, shift_portPart hc]
  rfl

/-- A port that began in the user information is given up at the first byte that is no digit. -/
theorem acted_hostPort_colon (h : (91 : UInt8) ∉ a) :
    acted hostPort true .none (a ++ 58 :: b) =
      acted hostPort true .none (a ++ 58 :: b.takeWhile isDigit) ++
        List.replicate (b.dropWhile isDigit).length [] := by
  have hb : a ++ 58 :: b = (a ++ 58 :: b.takeWhile isDigit) ++ b.dropWhile isDigit := by
    rw [List.append_assoc, List.cons_append, List.takeWhile_append_dropWhile]
  have hempty : (a ++ 58 :: b.takeWhile isDigit).isEmpty = false := by cases a <;> rfl
  rw [hb, acted_append, hempty, Bool.and_false]
  congr 1
  have hhead := List.head?_dropWhile_not isDigit b
  cases hr : b.dropWhile isDigit with
  | nil => rfl
  | cons c r =>
      rw [hr] at hhead
      exact acted_of_dead (shift_hostPort_colon h hhead)

theorem filter_hostPortEvents : (hostPortEvents a (some b) p).filter
    (fun y => decide (y.1 < p + (a ++ behind 58 (some b)).length)) =
      (p, .markh) :: (p + a.length, .saveHost) ::
        bif b.isEmpty then [] else [(p + a.length + 1, .markh)] := by
  rw [hostPortEvents, behindEvents, behind, List.length_append, List.length_cons,
    List.filter_cons_of_pos (by simp), List.filter_cons_of_pos (by simp)]
  cases b with
  | nil => simp [Nat.add_assoc]
  | cons c b =>
      rw [List.filter_cons_of_pos (by simp; omega), List.filter_cons_of_neg (by simp; omega)]
      rfl

/-- What the host and the port do on the user information. -/
theorem events_acted_userinfo (h : w ∈ lang userinfo) :
    events p (acted hostPort true .none w) = strayEvents w p := by
  have hname := takeWhile_mem_regName h
  have hhost : w.takeWhile (· != 58) ∈ lang host := Or.inr (Or.inr hname)
  have hbracket : (91 : UInt8) ∉ w.takeWhile (· != 58) :=
    notMem_of_avoids (r := regName) (by decide) hname
  have hw : w = w.takeWhile (· != 58) ++ w.dropWhile (· != 58) := List.takeWhile_append_dropWhile.symm
  rw [strayEvents]
  generalize w.takeWhile (· != 58) = a at hw hhost hbracket ⊢
  cases hd : w.dropWhile (· != 58) with
  | nil =>
      rw [hd, List.append_nil] at hw
      subst hw
      have hacted := (enacts_hostPort (o := none) hhost fun _ h => nomatch h).events_acted (p := p)
      rw [behind, List.append_nil] at hacted
      rw [hacted, hostPortEvents, behindEvents]
      cases w with
      | nil => simp
      | cons c w => simp
  | cons e b =>
      obtain rfl : e = 58 := by
        have hhead := List.head?_dropWhile_not (· != 58) w
        rw [hd] at hhead
        exact (Bool.not_eq_true _ ▸ bne_iff_ne.not.trans not_not).mp hhead
      rw [hd] at hw
      have hdigits : b.takeWhile isDigit ∈ lang UriParser.port :=
        mem_lang_star_sym.mpr fun c hc => List.mem_takeWhile_imp hc
      have hacted := (enacts_hostPort (o := some (b.takeWhile isDigit)) hhost fun w hw =>
        Option.some.inj hw ▸ hdigits).events_acted (p := p)
      have hempty : (a ++ 58 :: b).isEmpty = false := by cases a <;> rfl
      rw [hw, acted_hostPort_colon hbracket, events_append, events_replicate_nil, List.append_nil,
        ← behind, hacted, filter_hostPortEvents, hempty]
      cases b with
      | nil => rfl
      | cons c b => cases hc : isDigit c <;> simp [hc]

/-- The events of the user information and the sign behind it. -/
def userinfoEvents (p : Nat) : Option (List UInt8) → List (Nat × UriAction)
  | none => []
  | some w => strayEvents w p ++ [(p + w.length, .saveUserinfo)]

theorem avoids_at : (avoids 64 hostPort && avoids 64 userinfo) = true := by decide

theorem plain_userinfo : plain userinfo = true := by decide

end

/-! ### The whole URI -/

namespace Parts

section
variable {x : Parts} {p : Nat}

def authorityEvents (x : Parts) (p : Nat) : List (Nat × UriAction) :=
  (p, .markh) :: (userinfoEvents p x.userinfo ++
    hostPortEvents x.host x.port (p + (userinfoText x.userinfo).length))

/-- The events from the scheme's colon to the end of the path. -/
def hierEvents (x : Parts) (p : Nat) : List (Nat × UriAction) :=
  x.authorityEvents (p + 2) ++
    [(p + 2 + x.authority.length, .markh), (p + 2 + x.authority.length + x.path.length, .savePath)]

def tailEvents (x : Parts) (p : Nat) : List (Nat × UriAction) :=
  behindEvents .marku .saveQuery p x.query ++
    behindEvents .marku .saveFragment (p + (behind 63 x.query).length) x.fragment

def events (x : Parts) (p : Nat) : List (Nat × UriAction) :=
  [(p, .marku), (p + x.scheme.length, .saveScheme)] ++
    (x.hierEvents (p + x.scheme.length + 1) ++
      x.tailEvents (p + x.scheme.length + 1 + (2 + (x.authority.length + x.path.length))))

theorem enacts_authority (h : x.Grammatical) :
    Enacts UriParser.authority x.authority x.authorityEvents := by
  have havoids := avoids_at
  rw [Bool.and_eq_true] at havoids
  have hhost := enacts_hostPort h.host h.port
  refine Enacts.enter ?_
  rw [authority]
  cases hui : x.userinfo with
  | none => exact hhost.skip_closed plain_userinfo (notMem_of_avoids havoids.1 hhost.mem_lang)
  | some w =>
      have hw := h.userinfo w hui
      have htake := hhost.take_closed (a := .saveUserinfo) plain_userinfo havoids.2 hw
        (after_of_avoids havoids.1)
      simp only [events_acted_userinfo hw] at htake
      rw [userinfoText, List.append_assoc]
      simp only [userinfoEvents, List.append_assoc, List.length_append, List.length_singleton,
        ← Nat.add_assoc]
      exact htake

theorem first_pathAbempty {c : UInt8} : first pathAbempty c = (c == 47) := by
  have hslash : first slashSegment c = (c == 47) := first_word_seq
  show (first (opt slashSegment) c || (true && first slashSegment c)) = _
  rw [hslash, show first (opt slashSegment) c = (c == 47) from first_behind, Bool.true_and,
    Bool.or_self]

theorem first_queryFragment {c : UInt8} : first queryFragment c = (c == 63 || c == 35) := by
  have hquery : first (opt (seq (lit "?") UriParser.query)) c = (c == 63) := first_behind
  have hfragment : first (opt (seq (lit "#") UriParser.fragment)) c = (c == 35) := first_behind
  show (_ || (true && _)) = _
  rw [hquery, hfragment, Bool.true_and]

theorem plain_queryChars : plain queryChars = true := by decide

theorem enacts_hierPart (h : x.Grammatical) :
    Enacts hierPart (47 :: 47 :: (x.authority ++ x.path)) x.hierEvents := by
  have hpath := Enacts.part (a := .markh) (b := .savePath) (by decide) h.path
  have hslash : avoids 47 UriParser.authority = true := by decide
  have hnet := (enacts_authority h).seq_of_avoids hpath fun c hc =>
    (beq_iff_eq.mp (first_pathAbempty ▸ hc) : c = 47) ▸ hslash
  have hword : Enacts netPath ([47, 47] ++ (x.authority ++ x.path)) x.hierEvents :=
    hnet.word_seq rfl fun _ => rfl
  exact hword.alt (Silent.of_plain (by decide))

theorem enacts_queryFragment (h : x.Grammatical) :
    Enacts queryFragment (behind 63 x.query ++ behind 35 x.fragment) x.tailEvents := by
  have hhash : avoids 35 (opt (seq (lit "?") UriParser.query)) = true := by decide
  exact (enacts_behind plain_queryChars h.query).seq_of_avoids
    (enacts_behind plain_queryChars h.fragment) fun c hc =>
      (beq_iff_eq.mp (first_behind ▸ hc) : c = 35) ▸ hhash

theorem enacts_uri (h : x.Grammatical) : Enacts uri x.text x.events := by
  have hscheme := Enacts.part (a := .marku) (b := .saveScheme) (by decide) h.scheme
  have hquestion : (avoids 63 hierPart && avoids 35 hierPart) = true := by decide
  rw [Bool.and_eq_true] at hquestion
  have hrest := (enacts_hierPart h).seq_of_avoids (enacts_queryFragment h) fun c hc => by
    rw [first_queryFragment, Bool.or_eq_true, beq_iff_eq, beq_iff_eq] at hc
    rcases hc with rfl | rfl
    · exact hquestion.1
    · exact hquestion.2
  have hafter := hrest.word_seq (u := [58]) rfl fun _ => rfl
  have hcolon : avoids 58 UriParser.scheme = true := by decide
  have huri := hscheme.seq_of_avoids hafter fun c hc =>
    (beq_iff_eq.mp (first_word_seq ▸ hc) : c = 58) ▸ hcolon
  have hlen : (47 :: 47 :: (x.authority ++ x.path)).length =
      2 + (x.authority.length + x.path.length) := by
    rw [List.length_cons, List.length_cons, List.length_append]
    omega
  simp only [hlen] at huri
  exact huri

end

section
variable {x : Parts} {w : List UInt8} {c : UInt8}

theorem notMem_scheme (h : w ∈ lang schemeText) :
    (47 : UInt8) ∉ w ++ [58] ∧ (63 : UInt8) ∉ w ++ [58] ∧ (35 : UInt8) ∉ w ++ [58] := by
  have hscheme : ∀ c : UInt8, avoids c schemeText = true → c ≠ 58 → c ∉ w ++ [58] := by
    intro c hc hne hmem
    rcases List.mem_append.mp hmem with hmem | hmem
    · exact notMem_of_avoids hc h hmem
    · exact hne (List.mem_singleton.mp hmem)
  exact ⟨hscheme 47 (by decide) (by decide), hscheme 63 (by decide) (by decide),
    hscheme 35 (by decide) (by decide)⟩

theorem first_net (c : UInt8) :
    first (seqs [lit "//", UriParser.authority, pathAbempty]) c = (c == 47) := by
  show ((c == 47 || (false && _)) || (false && _)) = _
  rw [Bool.false_and, Bool.false_and, Bool.or_false, Bool.or_false]

/-- A scheme does not begin with a slash. -/
theorem head_scheme {r : Machine} (hw : w ∈ lang schemeText) (h : ∀ c, first r c = (c == 47)) :
    ∃ c v, w = c :: v ∧ first r c = false := by
  obtain ⟨-, ⟨c, hc, rfl⟩, v, -, rfl⟩ := mem_lang_seq.mp hw
  refine ⟨c, v, rfl, ?_⟩
  rw [h, beq_eq_false_iff_ne]
  rintro rfl
  cases hc

/-- A relative reference has no colon in its first segment. -/
theorem after_relativePart (h : w ∈ lang schemeText) :
    after true relativePart .none (w ++ [58]) = .none := by
  have hnet : after true (seqs [lit "//", UriParser.authority, pathAbempty]) .none (w ++ [58]) =
      .none := by
    obtain ⟨c, v, rfl, hc⟩ := head_scheme h first_net
    exact after_of_first hc
  have habsolute : after true pathAbsolute .none (w ++ [58]) = .none := by
    have hfirst : ∀ c, first pathAbsolute c = (c == 47) := fun _ => first_word_seq
    obtain ⟨c, v, rfl, hc⟩ := head_scheme h hfirst
    exact after_of_first hc
  have hnoscheme : after true pathNoscheme .none (w ++ [58]) = .none := by
    have hname : after true pathNoscheme (.join .none .none) (w ++ [58]) =
        .join (after true segmentNzNc .none (w ++ [58])) .none := by
      refine after_seq_of_first fun c hc => ?_
      rw [show first (star slashSegment) c = (c == 47) from first_word_seq, beq_eq_false_iff_ne]
      rintro rfl
      exact (notMem_scheme h).1 hc
    have hcolon : avoids 58 segmentNzNc = true := by decide
    rw [after_of_avoids hcolon] at hname
    exact hname
  have hempty : after true (alts [pathEmpty]) .none (w ++ [58]) = .none := by
    cases w <;> exact after_of_first rfl
  show after true (alt _ (alt _ (alt _ _))) (.join .none (.join .none (.join .none .none))) _ = _
  rw [after_alt, after_alt, after_alt, hnet, habsolute, hnoscheme, hempty]
  rfl

theorem silent_relativeRef (h : x.Grammatical) : Silent relativeRef true .none x.text := by
  obtain ⟨v, hv⟩ : ∃ v, x.text = (x.scheme ++ [58]) ++ v :=
    ⟨_, by rw [text, List.append_assoc]; rfl⟩
  obtain ⟨hslash, hquestion, hhash⟩ := notMem_scheme h.scheme
  rw [hv]
  refine Silent.seq (t := .none) ?_ (fun c hc => ?_) (fun _ => by simp) (after_relativePart h.scheme)
  · -- The first byte is no slash, and only the form with an authority has actions.
    refine Silent.alt (t := .none) (x := .none) ?_ (Silent.of_plain (by decide))
    obtain ⟨c, w, hcons, hc⟩ := head_scheme h.scheme first_net
    rw [hcons]
    exact Silent.of_first hc
  · rw [first_queryFragment, Bool.or_eq_false_iff, beq_eq_false_iff_ne, beq_eq_false_iff_ne]
    exact ⟨fun hne => hquestion (hne ▸ hc), fun hne => hhash (hne ▸ hc)⟩

theorem enacts_text (h : x.Grammatical) : Enacts main x.text x.events :=
  (enacts_uri h).alt (silent_relativeRef h)

end

end Parts

end Sylar
