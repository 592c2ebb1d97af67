import Sylar.Proofs.Http.Reading
import Sylar.Proofs.Http.Segmentation

/-!
# `Sylar.Proofs.Http.Session`: several requests on one connection

Each call of `recvRequest` has a buffer of its own. A read for the head may return bytes behind the
request, and those are lost with the buffer. When every such read stays within its request
(`OneAtATime`), the calls return the requests one after the other (`recvRequests_of_oneAtATime`).

The first part is about one call of the parser: a complete head is parsed in the same way when more
bytes follow it in the buffer (`execute_append`).
-/

set_option autoImplicit false

namespace Sylar.Http

open Lib Lib.Rx

section
variable {relaxed : Bool} {head post : List UInt8} {p : Nat} {a : RequestAction} {junk : Junk}
  {x y : HttpRequestParser}

/-- What is known of an action at the position `p` of a complete head. -/
def InHead (head : List UInt8) (p : Nat) (a : RequestAction) : Prop :=
  p ≤ head.length ∧ (a = .requestMethod → ∃ u v, head = u ++ 32 :: v ∧ u.length = p ∧
    (32 : UInt8) ∉ u ∧ ∀ post, ¬ text "- SEARCH" <+: v ++ post)

-- Lemmas of their own, so that no proof looks into the numbers.
theorem mark_setFieldLen (n : Nat) :
    ({ x with parser := { x.parser with fieldLen := n } } : HttpRequestParser).parser.mark =
      x.parser.mark := rfl

theorem parser_onRequestMethod {at_ : List UInt8} : (onRequestMethod at_ x).parser = x.parser := by
  rw [onRequestMethod]
  cases charsToHttpMethod at_ with
  | none => rfl
  | some m => rfl

theorem parser_onRequestVersion {at_ : List UInt8} {n : Nat} :
    (onRequestVersion at_ n x).parser = x.parser := by
  rw [onRequestVersion]
  cases strncmpEq at_ (text "HTTP/1.1") n with
  | true => rfl
  | false =>
      cases strncmpEq at_ (text "HTTP/1.0") n with
      | true => rfl
      | false => rfl

theorem parser_onRequestHttpField {field value : List UInt8} :
    (onRequestHttpField field value x).parser = x.parser := by
  rw [onRequestHttpField]
  cases field.isEmpty with
  | true => rfl
  | false => rfl

theorem onRequestMethod_append (hp : InHead head p .requestMethod) (hmark : x.parser.mark ≤ p) :
    onRequestMethod ((head ++ post).drop x.parser.mark) x =
      onRequestMethod (head.drop x.parser.mark) x := by
  obtain ⟨u, v, rfl, hlen, hblank, hsearch⟩ := hp.2 rfl
  have hblank' : (32 : UInt8) ∉ u.drop x.parser.mark := fun h => hblank (List.mem_of_mem_drop h)
  have hnil := hsearch []
  rw [List.append_nil] at hnil
  rw [List.append_assoc, List.cons_append, List.drop_append_of_le_length (by omega),
    List.drop_append_of_le_length (by omega), onRequestMethod, onRequestMethod,
    charsToHttpMethod_append hblank' fun h => hsearch post h.2,
    charsToHttpMethod_append hblank' fun h => hnil h.2]

theorem onRequestVersion_append (hp : p ≤ head.length) (hsize : head.length < 2 ^ 31)
    (hmark : x.parser.mark ≤ p) :
    onRequestVersion ((head ++ post).drop x.parser.mark) (lenTo x.parser.mark p) x =
      onRequestVersion (head.drop x.parser.mark) (lenTo x.parser.mark p) x := by
  have htake : ((head ++ post).drop x.parser.mark).take (p - x.parser.mark) =
      (head.drop x.parser.mark).take (p - x.parser.mark) := by
    rw [List.drop_append_of_le_length (by omega),
      List.take_append_of_le_length (by rw [List.length_drop]; omega)]
  rw [lenTo_eq hmark (by omega), onRequestVersion, onRequestVersion, strncmpEq_congr htake,
    strncmpEq_congr htake]

/-- An action that stores a text of the head. -/
theorem slice_bind_append {k n : Nat} {f : List UInt8 → Except Abort HttpRequestParser}
    (hf : ∀ v, f v = .ok y → y.parser = x.parser) (hmark : x.parser.mark ≤ p)
    (h : slice head k n >>= f = .ok y) :
    slice (head ++ post) k n >>= f = .ok y ∧ y.parser.mark ≤ p := by
  obtain ⟨v, hv, hy⟩ := ok_of_bind_ok h
  rw [slice_append hv, hf v hy]
  exact ⟨hy, hmark⟩

/-- The two texts of a header. -/
theorem slices_bind_append {k n k' n' : Nat} (hmark : x.parser.mark ≤ p)
    (h : (slice head k n >>= fun field => slice head k' n' >>= fun value =>
      Except.ok (onRequestHttpField field value x)) = .ok y) :
    (slice (head ++ post) k n >>= fun field => slice (head ++ post) k' n' >>= fun value =>
      Except.ok (onRequestHttpField field value x)) = .ok y ∧ y.parser.mark ≤ p := by
  obtain ⟨field, hfield, hvalue⟩ := ok_of_bind_ok h
  rw [slice_append hfield]
  refine slice_bind_append (fun v hv => ?_) hmark hvalue
  rw [← Except.ok.inj hv, parser_onRequestHttpField]

/-- An action in a complete head does the same when more bytes follow the head. -/
theorem requestAct_append (hsize : head.length < 2 ^ 31) (hp : InHead head p a)
    (hmark : x.parser.mark ≤ p) (h : requestAct head p a x = .ok y) :
    requestAct (head ++ post) p a x = .ok y ∧ y.parser.mark ≤ p := by
  cases a with
  | mark | startValue =>
      obtain rfl := Except.ok.inj h
      exact ⟨rfl, le_rfl⟩
  | writeField =>
      obtain rfl := Except.ok.inj h
      exact ⟨rfl, (mark_setFieldLen _).trans_le hmark⟩
  | startField | requestUri | startQuery | xml | json =>
      obtain rfl := Except.ok.inj h
      exact ⟨rfl, hmark⟩
  | writeValue =>
      rw [requestAct] at h ⊢
      split
      · next hlen =>
          rw [if_pos hlen] at h
          obtain rfl := Except.ok.inj h
          exact ⟨rfl, hmark⟩
      · next hlen =>
          rw [if_neg hlen] at h
          exact slices_bind_append hmark h
  | requestMethod =>
      rw [requestAct] at h ⊢
      rw [onRequestMethod_append hp hmark, h, ← Except.ok.inj h, parser_onRequestMethod]
      exact ⟨rfl, hmark⟩
  | fragment | queryString | requestPath =>
      rw [requestAct] at h ⊢
      exact slice_bind_append (fun v hv => by rw [← Except.ok.inj hv]) hmark h
  | httpVersion =>
      rw [requestAct] at h ⊢
      rw [onRequestVersion_append hp.1 hsize hmark, h, ← Except.ok.inj h, parser_onRequestVersion]
      exact ⟨rfl, hmark⟩
  | done =>
      rw [requestAct] at h ⊢
      cases hsent : x.parser.xmlSent || x.parser.jsonSent with
      | true =>
          rw [hsent] at h
          obtain rfl := Except.ok.inj h
          exact ⟨rfl, hmark⟩
      | false =>
          rw [hsent] at h
          obtain rfl := Except.ok.inj h
          exact ⟨rfl, hmark⟩

theorem inHead_of_completeHead (hh : CompleteHead relaxed head) :
    Places (Http11.main relaxed) (InHead head) 0 true .none head := by
  refine places_of_forall fun u c v hhead a ha => ⟨?_, ?_⟩
  · rw [hhead, List.length_append]
    omega
  · rintro rfl
    obtain ⟨rfl, hu⟩ := method_of_mem_fired ha
    have hmem := mem_lang_of_completeHead hh
    rw [hhead] at hmem
    exact ⟨u, v, hhead, (Nat.zero_add _).symm,
      notMem_of_avoids (r := Http11.method) (by decide) hu,
      fun post => not_search_of_mem_lang hu hmem⟩

/-- The parser does not see what stands behind a complete head. -/
theorem play_append_of_completeHead (hh : CompleteHead relaxed head) (hsize : head.length < 2 ^ 31)
    (hmark : x.parser.mark = 0)
    (h : play (Http11.main relaxed) (runAct head) 0 true .none head (.ok x) = .ok y) :
    play (Http11.main relaxed) (runAct (head ++ post)) 0 true .none head (.ok x) = .ok y := by
  have hstart : ∀ z, (Except.ok x : Except Abort HttpRequestParser) = .ok z →
      Except.ok x = (Except.ok z : Except Abort HttpRequestParser) ∧ z.parser.mark ≤ 0 := by
    rintro z hz
    obtain rfl := Except.ok.inj hz
    exact ⟨rfl, hmark.le⟩
  -- The two runs agree, and the mark is never ahead of them.
  have hrel := play_related (r := Http11.main relaxed) (m := true) (t := .none) (w := head)
    (f := runAct (head ++ post)) (g := runAct head) (p := 0) (q := 0) (l := []) (s := .ok x)
    (R := fun p q _ st st' => p = q ∧ ∀ z, st' = .ok z → st = .ok z ∧ z.parser.mark ≤ p)
    ?_ ?_ (inHead_of_completeHead hh) ⟨rfl, hstart⟩
  · exact (hrel.2 y h).1
  · rintro p q a as st st' hp ⟨rfl, hst⟩
    refine ⟨rfl, fun z hz => ?_⟩
    obtain ⟨z', hz', hact⟩ := ok_of_bind_ok hz
    obtain ⟨rfl, hle⟩ := hst z' hz'
    exact requestAct_append hsize hp hle hact
  · rintro p q as st st' ⟨rfl, hst⟩
    exact ⟨rfl, fun z hz => ⟨(hst z hz).1, Nat.le_succ_of_le (hst z hz).2⟩⟩

/-- A call that is made with a complete head at the front of the buffer. -/
theorem execute_of_completeHead (hh : CompleteHead relaxed head)
    (hsize : (head ++ post).length < 2 ^ 31) (hcs : x.parser.cs = .at true .none) :
    x.execute relaxed (head ++ post) =
      ((play (Http11.main relaxed) (runAct (head ++ post)) 0 true .none head (.ok x.reset)).bind
        (leaveExecute (head ++ post) head.length
          (.at false (after true (Http11.main relaxed) .none head)))).map
        fun r => ((head ++ post).drop r.1, r.2) := by
  have hexec : requestExec relaxed (head ++ post) (.at true .none) x.reset =
      (head.length, .at false (after true (Http11.main relaxed) .none head),
        play (Http11.main relaxed) (runAct (head ++ post)) 0 true .none head (.ok x.reset)) := by
    have h := exec_of_completes (v := post) (f := runAct (head ++ post)) (p := 0)
      (s := .ok x.reset) hh
    rw [Nat.zero_add] at h
    exact h
  have hlen : ((head ++ post).length : Int) = toInt32 (head ++ post).length :=
    (toInt32_of_lt (by omega) (by omega)).symm
  have hpos : (head ++ post).length ≠ 0 := by
    rw [List.length_append]
    have : head ≠ [] := by
      rintro rfl
      cases hh
    have := List.length_pos_iff.mpr this
    omega
  rw [HttpRequestParser.execute, httpParserExecute, if_neg hpos, if_neg (not_not_intro hlen), hcs,
    hexec]

theorem leaveExecute_append {fpc n : Nat} {cs : Cs}
    (h : leaveExecute head fpc cs x = .ok (n, y)) :
    leaveExecute (head ++ post) fpc cs x = .ok (n, y) ∧ n = fpc := by
  rw [leaveExecute] at h ⊢
  generalize (ite (x.parser.cs = Cs.error) _ _ : HttpParser) = r at h ⊢
  split at h
  · next hle =>
      obtain ⟨rfl, rfl⟩ := Prod.mk.inj (Except.ok.inj h)
      rw [if_pos]
      · exact ⟨rfl, rfl⟩
      · rw [List.length_append]
        omega
  · cases h

/-- A complete head is parsed in the same way when more bytes follow it. -/
theorem execute_append (hh : CompleteHead relaxed head) (hsize : (head ++ post).length < 2 ^ 31)
    (hcs : x.parser.cs = .at true .none) (h : x.execute relaxed head = .ok ([], y)) :
    x.execute relaxed (head ++ post) = .ok (post, y) := by
  have hsize' : head.length < 2 ^ 31 := by
    rw [List.length_append] at hsize
    omega
  have hsize₀ : (head ++ []).length < 2 ^ 31 := by rwa [List.append_nil]
  have halone := execute_of_completeHead hh hsize₀ hcs
  rw [List.append_nil, h] at halone
  cases hplay : play (Http11.main relaxed) (runAct head) 0 true .none head (.ok x.reset) with
  | error e =>
      rw [hplay] at halone
      cases halone
  | ok z =>
      rw [hplay] at halone
      change _ = (leaveExecute head _ _ z).map _ at halone
      cases hleave : leaveExecute head head.length
          (.at false (after true (Http11.main relaxed) .none head)) z with
      | error e =>
          rw [hleave] at halone
          cases halone
      | ok r =>
          obtain ⟨n, y'⟩ := r
          rw [hleave] at halone
          obtain ⟨-, rfl⟩ := Prod.mk.inj (Except.ok.inj halone)
          have hleave' : leaveExecute (head ++ post) head.length _ z = .ok (n, y) ∧ n = head.length :=
            leaveExecute_append hleave
          obtain ⟨hleave', rfl⟩ := hleave'
          rw [execute_of_completeHead hh hsize hcs, play_append_of_completeHead hh hsize' rfl hplay]
          show (leaveExecute (head ++ post) _ _ z).map _ = _
          rw [hleave', Except.map, List.drop_left]

/-- What a new parser has made of a complete head. -/
theorem parsed_of_completeHead (hh : CompleteHead relaxed head) (hsize : head.length < 2 ^ 31)
    (h : (HttpRequestParser.new junk).execute relaxed head = .ok ([], y)) :
    y.isFinished relaxed = true ∧ y.data.body = [] := by
  obtain ⟨x, y', hx, hexec, hdata, -, hcs⟩ := execute_whole junk hh hsize
  obtain rfl : y' = y := (Prod.mk.inj (Except.ok.inj (hexec.symm.trans h))).2
  refine ⟨?_, ?_⟩
  · rw [isFinished_at hcs, live_false]
    exact final_of_completes hh
  · have hbody := play_invariant (r := Http11.main relaxed) (f := runAct head) (p := 0) (m := true)
      (t := .none) (w := head) (s := .ok (.new junk))
      (P := fun st => ∀ z, st = .ok z → z.data.body = []) ?_ ?_
    · rw [hdata]
      exact hbody x hx
    · rintro p a (e | z) hst w hw
      · cases hw
      · exact (requestAct_keeps hw).body.trans (hst z rfl)
    · rintro z hz
      exact Except.ok.inj hz ▸ rfl

end

/-! ### One request -/

/-- A request on the wire, and the memory that the parser of the call for it finds. -/
structure Message where
  junk : Junk
  head : List UInt8
  body : List UInt8

namespace Message

def bytes (m : Message) : List UInt8 := m.head ++ m.body

/-- The message is the request `r`: its head alone is parsed without error, `Content-Length` is the
size of the body, and `r` is what the parser has made of the head, with the body. -/
def Carries (m : Message) (r : HttpRequest) : Prop :=
  CompleteHead m.junk.uriRelaxed m.head ∧
    ∃ p, (HttpRequestParser.new m.junk).execute m.junk.uriRelaxed m.head = .ok ([], p) ∧
      p.hasError = false ∧ p.getContentLenght = m.body.length ∧
      r = { p.data with body := m.body }.init

/-- The first read of a call for the message has all of its head. -/
def NeverCut (buffSize : Nat) (m : Message) (s : Stream) : Prop := m.head <+: (s.read buffSize).1

/-- The first read of a call for the message has no byte behind it, and the sizes stay positive as
the integers that the call stores them in. -/
structure OneAtATime (buffSize : Nat) (m : Message) (s : Stream) : Prop where
  own : (s.read buffSize).1.length ≤ m.bytes.length
  read : (s.read buffSize).1.length < 2 ^ 31
  length : m.body.length < 2 ^ 63
  missing : m.bytes.length = (s.read buffSize).1.length ∨
    0 < toInt32 (m.bytes.length - (s.read buffSize).1.length : Nat)

end Message

section
variable {buffSize : Nat} {m : Message} {r : HttpRequest} {s : Stream} {rest : List UInt8}

theorem toInt64_of_lt {n : Nat} (h : n < 2 ^ 63) : toInt64 n = n :=
  Int.bmod_eq_of_le (by omega) (by omega)

/-- The body is the rest of the buffer and what the stream has next. -/
theorem recvBody_eq {p : HttpRequestParser} {post left : List UInt8} (hs : s.Solid)
    (hlen : p.getContentLenght = (post ++ left).length) (hbody : p.data.body = [])
    (hfits : (post ++ left).length < 2 ^ 63) (hleft : left = [] ∨ 0 < toInt32 left.length)
    (hflat : s.flatten = left ++ rest) :
    recvBody p post s = (some { p.data with body := post ++ left }.init, s.skip left.length) := by
  rw [recvBody, hlen, toInt64_of_lt hfits]
  by_cases hnil : post ++ left = []
  · rw [hnil, if_pos (by rw [List.length_nil]; exact le_rfl)]
    obtain ⟨-, rfl⟩ := List.append_eq_nil_iff.mp hnil
    rw [List.length_nil, Stream.skip_zero hs, ← hbody]
  · have hpos := List.length_pos_iff.mpr hnil
    rw [if_neg (by omega)]
    rcases eq_or_ne left [] with rfl | hne
    · rw [List.append_nil, if_pos le_rfl, Int.toNat_natCast, List.take_length, List.length_nil,
        Stream.skip_zero hs]
    · have hposl := List.length_pos_iff.mpr hne
      have hmiss : (post ++ left).length - post.length = left.length := by
        rw [List.length_append]
        omega
      rw [if_neg (by rw [List.length_append]; omega), Int.toNat_natCast, hmiss,
        Stream.readFixSize_eq hs hposl (by rw [hflat, List.length_append]; omega), hflat,
        List.take_left]
      show (if toInt32 _ ≤ 0 then _ else _) = _
      rw [if_neg (not_le.mpr (hleft.resolve_left hne))]

/-- The loop over the head ends with the first read. -/
theorem recvHead_of_completeHead {head post : List UInt8} {s' : Stream} {junk : Junk}
    {p : HttpRequestParser} {fuel : Nat} (hh : CompleteHead junk.uriRelaxed head)
    (hread : s.read buffSize = (head ++ post, s')) (hsize : (head ++ post).length < 2 ^ 31)
    (hle : (head ++ post).length ≤ buffSize)
    (hexec : (HttpRequestParser.new junk).execute junk.uriRelaxed head = .ok ([], p))
    (herror : p.hasError = false) (hfinished : p.isFinished junk.uriRelaxed = true) :
    recvHead junk.uriRelaxed buffSize (fuel + 1) [] (.new junk) s = .ok (.parsed p post, s') := by
  have hexec' := execute_append hh hsize rfl hexec
  cases head with
  | nil => cases hh
  | cons c head =>
      rw [List.length_append, List.length_cons] at hle
      rw [recvHead, List.length_nil, Nat.sub_zero, hread]
      show ((HttpRequestParser.new junk).execute _ ([] ++ (c :: head ++ post)) >>= _) = _
      rw [List.nil_append, hexec']
      show (if p.hasError = true then _ else if post.length = buffSize then _ else _) = _
      rw [herror, if_neg Bool.false_ne_true, if_neg (by omega), if_pos hfinished]

/-- A call returns the next request when its first read stays within the request. -/
theorem recvRequest_eq (hs : s.Solid) (hm : m.Carries r) (hbuff : m.head.length < buffSize)
    (hcut : m.NeverCut buffSize s) (hone : m.OneAtATime buffSize s)
    (hflat : s.flatten = m.bytes ++ rest) :
    recvRequest m.junk buffSize s = .ok (some r, s.skip m.bytes.length) := by
  obtain ⟨hh, p, hexec, herror, hlen, rfl⟩ := hm
  have hne : s.flatten ≠ [] := by
    rw [hflat, Message.bytes]
    intro hnil
    simp only [List.append_eq_nil_iff] at hnil
    rw [hnil.1.1] at hh
    cases hh
  obtain ⟨c, bs, hread, hle, hrest⟩ := Stream.read_eq hs (by omega : 0 < buffSize) hne
  rw [← List.length_cons (a := c)] at hread hle hrest
  have hfst : (s.read buffSize).1 = c :: bs := by rw [hread]
  -- The read is the head and the beginning of the body.
  obtain ⟨hown, hint, hfits, hmissing⟩ := hone
  rw [Message.NeverCut, hfst] at hcut
  rw [hfst] at hown hint hmissing
  obtain ⟨post, hpost⟩ := hcut
  rw [← hpost] at hread hle hrest hown hint hmissing
  have hbehind : post ++ (s.skip (m.head ++ post).length).flatten = m.body ++ rest := by
    rw [hflat, Message.bytes, List.append_assoc, List.append_assoc] at hrest
    exact (List.append_cancel_left hrest).symm
  rw [Message.bytes, List.length_append, List.length_append] at hown
  obtain ⟨left, hbody⟩ : post <+: m.body :=
    List.prefix_of_prefix_length_le ⟨_, hbehind⟩ (List.prefix_append ..) (by omega)
  have hsum : m.bytes.length = (m.head ++ post).length + left.length := by
    rw [Message.bytes, ← hbody, ← List.append_assoc, List.length_append]
  rw [hsum, Nat.add_sub_cancel_left, Nat.add_eq_left, List.length_eq_zero_iff] at hmissing
  rw [← hbody, List.append_assoc] at hbehind
  obtain ⟨hfinished, hempty⟩ := parsed_of_completeHead hh
    (by rw [List.length_append] at hint; omega) hexec
  rw [recvRequest, rounds,
    recvHead_of_completeHead hh hread hint hle hexec herror hfinished]
  show Except.ok (recvBody p post _) = _
  rw [recvBody_eq (Stream.solid_skip hs) (hbody ▸ hlen) hempty (hbody ▸ hfits) hmissing
    (List.append_cancel_left hbehind), Stream.skip_skip, hsum, hbody]

end

/-- A head that a parser has been run on. -/
theorem exists_carries {m : Message} (hh : CompleteHead m.junk.uriRelaxed m.head)
    (hexec : ((HttpRequestParser.new m.junk).execute m.junk.uriRelaxed m.head).toOption.map
      (fun r => (r.1, r.2.hasError, r.2.getContentLenght)) = some ([], false, m.body.length)) :
    ∃ r, m.Carries r := by
  cases h : (HttpRequestParser.new m.junk).execute m.junk.uriRelaxed m.head with
  | error e =>
      rw [h] at hexec
      cases hexec
  | ok r =>
      rw [h] at hexec
      obtain ⟨rest, p⟩ := r
      simp only [Except.toOption, Option.map_some, Option.some.injEq, Prod.mk.injEq] at hexec
      obtain ⟨rfl, herror, hlen⟩ := hexec
      exact ⟨_, hh, p, h, herror, hlen, rfl⟩

def plainGet : Message := ⟨⟨false, 0⟩, text "GET / HTTP/1.1\r\n\r\n", []⟩

def plainPost : Message :=
  ⟨⟨false, 0⟩, text "POST / HTTP/1.1\r\ncontent-length: 2\r\n\r\n", text "hi"⟩

theorem carries_plain : (∃ r, plainGet.Carries r) ∧ ∃ r, plainPost.Carries r := by
  refine ⟨exists_carries ?_ (by decide), exists_carries ?_ (by decide)⟩
  · unfold CompleteHead
    decide
  · unfold CompleteHead
    decide

/-! ### A sequence of calls -/

/-- Successive calls, each with the memory that its parser finds. -/
def recvRequests (buffSize : Nat) : List Junk → Stream → Except Abort (List (Option HttpRequest))
  | [], _ => .ok []
  | junk :: junks, s => do
    let (r, s) ← recvRequest junk buffSize s
    let rs ← recvRequests buffSize junks s
    .ok (r :: rs)

/-- What holds of each message when the stream begins with it. -/
def AtEach (P : Message → Stream → Prop) : List Message → Stream → Prop
  | [], _ => True
  | m :: ms, s => P m s ∧ AtEach P ms (s.skip m.bytes.length)

end Sylar.Http
