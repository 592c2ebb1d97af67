import Sylar.Lib.Drive
import Sylar.Spec.HttpResponseParser

/-!
# `Sylar.Proofs.Http.ResponsePrint`: the response parser refuses what `dump` prints

`HttpResponse::dump` writes a comma between the two numbers of the version, and the grammar asks for
a dot. The machine reads `HTTP/` and the first number, whatever the version byte is, and has no way
on from there (`responseExec_dump`). So no response at all is read back.
-/

set_option autoImplicit false

namespace Sylar.Http

open Lib Lib.Rx

/-- A response that a server sends: one of the two versions, a status of the table, and a reason and
headers that fit on their lines. -/
structure Sendable (r : HttpResponse) : Prop where
  version : r.version = 0x10 ∨ r.version = 0x11
  status : (httpStatusMap.lookup r.status).isSome = true
  reason : ∀ c ∈ r.reason, c ≠ 13 ∧ c ≠ 10
  names : ∀ e ∈ r.headers.entries, e.1 ≠ [] ∧ e.1.all HttpClient.isToken = true ∧
    ∀ s ∈ ["connection", "content-length", "transfer-encoding"], caseFold e.1 ≠ caseFold (text s)
  values : ∀ e ∈ r.headers.entries, (∀ c ∈ e.2, c ≠ 13 ∧ c ≠ 10) ∧
    ∀ c ∈ e.2.head?, isSpace c = false

/-- The parser gets the response back from what `dump` prints, and stops in front of the body. -/
def ReadBack (r : HttpResponse) : Prop :=
  ∃ rest p, HttpResponseParser.new.execute false r.dump = .ok (rest, p) ∧ p.isFinished = true ∧
    p.hasError = false ∧ p.data.version = r.version ∧ p.data.status = r.status ∧
    p.data.reason = (bif r.reason.isEmpty then httpStatusToString r.status else r.reason) ∧
    (∀ key v, r.headers.find key = some v → p.data.headers.find key = some v) ∧
    p.getContentLenght = r.body.length ∧ rest = r.body

section
variable {r : HttpResponse} {p : HttpResponseParser}

/-- The machine reads the first number of a version and no comma behind it. -/
theorem refuses_comma (n : Nat) (hn : n < 16) :
    reads HttpClient.main ResponseAction.stops true .none (text "HTTP/" ++ numeral 10 n) = true ∧
      (shift false HttpClient.main
        (after true HttpClient.main .none (text "HTTP/" ++ numeral 10 n)) 44).isNone = true := by
  revert n
  decide +kernel

theorem dump_eq : ∃ x, r.dump =
    (text "HTTP/" ++ numeral 10 (r.version >>> 4).toNat) ++ (44 : UInt8) :: x := by
  have hcomma : text "," = [44] := rfl
  simp only [HttpResponse.dump, HttpRequest.dumpVersion, hcomma, List.append_assoc,
    List.singleton_append, List.append_cancel_left_eq]
  exact ⟨_, rfl⟩

theorem responseExec_dump : (responseExec r.dump (.at true .none) p).2.1 = .error := by
  obtain ⟨x, hx⟩ := dump_eq (r := r)
  have hn : (r.version >>> 4).toNat < 16 := by
    rw [UInt8.toNat_shiftRight]
    have := r.version.toNat_lt
    show r.version.toNat >>> 4 < 16
    omega
  obtain ⟨hread, hcomma⟩ := refuses_comma _ hn
  rw [responseExec, hx, exec_of_refused hread hcomma]

/-- A call leaves the parser in the state where `write exec` ends. -/
theorem cs_of_execute {buffer rest : List UInt8} {x : HttpResponseParser}
    (h : x.execute false buffer = .ok (rest, p)) :
    p.parser.cs = (responseExec buffer x.parser.cs x.reset).2.1 := by
  rw [HttpResponseParser.execute, cond_false, HttpResponseParser.httpclientParserExecute] at h
  by_cases hlen : (buffer.length : Int) ≠ toInt32 buffer.length
  · rw [if_pos hlen] at h
    cases h
  · rw [if_neg hlen] at h
    generalize responseExec buffer x.parser.cs x.reset = res at h ⊢
    obtain ⟨fpc, cs, e | z⟩ := res
    · cases h
    · change Except.map _ (HttpResponseParser.leaveExecute buffer fpc cs z) = _ at h
      rw [HttpResponseParser.leaveExecute] at h
      split at h
      · split at h
        · cases h
          rfl
        · cases h
      · cases h

theorem hasError_of_execute_dump {rest : List UInt8}
    (h : HttpResponseParser.new.execute false r.dump = .ok (rest, p)) : p.hasError = true := by
  have hcs : p.parser.cs = .error := (cs_of_execute h).trans responseExec_dump
  rw [HttpResponseParser.hasError, hcs]
  exact Bool.or_true _

end

/-- No response is read back. -/
theorem response_not_read_back (r : HttpResponse) : ¬ ReadBack r := by
  rintro ⟨rest, p, hexec, -, herror, -⟩
  rw [hasError_of_execute_dump hexec] at herror
  cases herror

/-- A new response, with nothing set. -/
theorem new_response_not_read_back : Sendable .new ∧ ¬ ReadBack .new := by
  refine ⟨⟨Or.inr rfl, rfl, ?_, ?_, ?_⟩, ?_⟩
  · exact fun c hc => absurd hc List.not_mem_nil
  · exact fun e he => absurd he List.not_mem_nil
  · exact fun e he => absurd he List.not_mem_nil
  · rintro ⟨rest, p, hexec, -, herror, -⟩
    rw [hasError_of_execute_dump hexec] at herror
    cases herror

end Sylar.Http
