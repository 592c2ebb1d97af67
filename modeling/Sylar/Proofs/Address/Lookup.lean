import Sylar.Spec.Lookup

/-!
# `Sylar.Proofs.Address.Lookup`: a host without brackets and with many colons

For an address in brackets the first scan finds the node (`lookupCall_bracketed`). For any other
host the second scan decides, by the number of colons (`lookupCall_noColon`, `lookupCall_oneColon`
and `lookupCall_manyColons`). With two or more colons the source keeps the pointer to the first
one, so a bare IPv6 address is looked up with a service. With text behind the brackets and no colon
it drops the text. A zero byte ends an argument early. In every other case the call is the one
asked for (`splitsAsked_iff`).
-/

set_option autoImplicit false

namespace Sylar.Address

open Lib

section
variable {host x t n s node : List UInt8} {service : Option (List UInt8)}
variable {family type protocol : Int}

/-- The brackets of a host are found in one way only. -/
theorem Bracketed.unique {x' t' : List UInt8} (h : Bracketed host x t) (h' : Bracketed host x' t') :
    x = x' ∧ t = t' := by
  have heq := h.eq.symm.trans h'.eq
  rw [List.cons.injEq] at heq
  exact append_cons_inj_left h.closed h'.closed heq.2

theorem lookupBracket_of_bracketed (h : Bracketed host x t) :
    lookupBracket host = (x, if t.head? = some 58 then some (x.length + 3) else none) := by
  have hfind : memchr host 1 93 (host.length - 1) = some (1 + x.length) := by
    rw [h.eq]
    refine memchr_append [91] h.closed ?_
    simp
  have hnode : (host.drop 1).take (1 + x.length - 1) = x := by
    rw [h.eq, Nat.add_sub_cancel_left]
    exact List.take_left
  have hbehind : host.getD (1 + x.length + 1) 0 = t.headD 0 := by
    rw [h.eq, show 1 + x.length + 1 = (x.length + 1) + 1 by omega, List.getD_cons_succ,
      List.getD_append_right _ _ _ _ (by omega), Nat.add_sub_cancel_left, List.getD_cons_succ]
    cases t with
    | nil => rfl
    | cons d t => rfl
  have hcolon : t.headD 0 = 58 ↔ t.head? = some 58 := by
    cases t with
    | nil => decide
    | cons d t => exact Option.some_inj.symm
  rw [lookupBracket, if_pos (by rw [h.eq]; rfl), hfind]
  simp only [hnode, hbehind, hcolon, show 1 + x.length + 2 = x.length + 3 by omega]

/-- Without an address in brackets the first scan finds no node. -/
theorem lookupBracket_fst_of_not (h : ∀ x t, ¬ Bracketed host x t) :
    (lookupBracket host).1 = [] := by
  rw [lookupBracket]
  split
  · next hhead =>
    obtain ⟨rest, rfl⟩ : ∃ rest, host = 91 :: rest := by
      cases host with
      | nil => cases hhead
      | cons c rest => exact ⟨rest, by rw [Option.some_inj.mp hhead]⟩
    by_cases hmem : (93 : UInt8) ∈ rest
    · -- The bracket closes at once, so the node is the empty text between the two.
      obtain ⟨x, t, rfl, hx⟩ := List.eq_append_cons_of_mem hmem
      have hnil : x = [] := by_contra fun hne => h x t ⟨rfl, hne, hx⟩
      subst hnil
      rw [show memchr (91 :: ([] ++ 93 :: t)) 1 93 _ = some (1 + 0) from
        memchr_append [91] (v := []) (by simp) (by simp)]
      rfl
    · rw [memchr_of_not_mem hmem]
  · rfl

theorem lookupCall_bracketed (h : Bracketed host x t) :
    lookupCall host family type protocol =
      ⟨cString x, if t.head? = some 58 then some (cString t.tail) else none,
        family, type, protocol⟩ := by
  have hne : x.isEmpty = false := List.isEmpty_eq_false_iff.mpr h.nonempty
  have hdrop : host.drop (x.length + 3) = t.tail := by
    rw [h.eq, List.drop_succ_cons, List.drop_length_add_append, List.drop_succ_cons, List.drop_one]
  rw [lookupCall, lookupBracket_of_bracketed h]
  simp only [hne, Bool.false_eq_true, if_false]
  split
  · rw [Option.map_some, hdrop]
  · rfl

/-- Without an address in brackets the second scan decides. -/
theorem lookupCall_of_not_bracketed (h : ∀ x t, ¬ Bracketed host x t) :
    lookupCall host family type protocol =
      ⟨cString (if (lookupColon host []).1.isEmpty then host else (lookupColon host []).1),
        (lookupColon host []).2.map fun i => cString (host.drop i), family, type, protocol⟩ := by
  have hnode := lookupBracket_fst_of_not h
  rw [lookupCall]
  generalize lookupBracket host = scanned at hnode ⊢
  obtain ⟨node, service⟩ := scanned
  subst hnode
  rfl

theorem lookupCall_noColon (h : ∀ x t, ¬ Bracketed host x t) (hcolon : 58 ∉ host) :
    lookupCall host family type protocol = ⟨cString host, none, family, type, protocol⟩ := by
  have hscan : lookupColon host [] = ([], none) := by
    rw [lookupColon, memchr_of_not_mem hcolon]
  rw [lookupCall_of_not_bracketed h, hscan]
  rfl

theorem lookupCall_oneColon (h : ∀ x t, ¬ Bracketed (n ++ 58 :: s) x t) (hne : n ≠ []) (hn : 58 ∉ n)
    (hs : 58 ∉ s) :
    lookupCall (n ++ 58 :: s) family type protocol =
      ⟨cString n, some (cString s), family, type, protocol⟩ := by
  have hdrop : (n ++ 58 :: s).drop (n.length + 1) = s := by
    rw [List.drop_length_add_append]
    rfl
  have hscan : lookupColon (n ++ 58 :: s) [] = (n, some (n.length + 1)) := by
    rw [lookupColon, show memchr (n ++ 58 :: s) 0 58 _ = some (0 + n.length) from
      memchr_append [] hn (by simp), Nat.zero_add]
    simp only [memchr_of_not_mem (show 58 ∉ (n ++ 58 :: s).drop (n.length + 1) by rwa [hdrop]),
      List.take_left]
  rw [lookupCall_of_not_bracketed h, hscan, Option.map_some, hdrop,
    if_neg (by rwa [List.isEmpty_iff])]

/-- With a second colon the service starts at the first one. -/
theorem lookupCall_manyColons (h : ∀ x t, ¬ Bracketed (n ++ 58 :: s) x t) (hn : 58 ∉ n)
    (hs : 58 ∈ s) :
    lookupCall (n ++ 58 :: s) family type protocol =
      ⟨cString (n ++ 58 :: s), some (cString (58 :: s)), family, type, protocol⟩ := by
  obtain ⟨m, r, rfl, hm⟩ := List.eq_append_cons_of_mem hs
  have hsecond : memchr (n ++ 58 :: (m ++ 58 :: r)) (n.length + 1) 58
      ((n ++ 58 :: (m ++ 58 :: r)).length - n.length - 1) = some (n.length + 1 + m.length) := by
    have hlen : m.length < (n ++ 58 :: (m ++ 58 :: r)).length - n.length - 1 := by
      simp
    have hfind := memchr_append (n ++ [58]) (w := r) hm hlen
    rwa [List.append_assoc, List.singleton_append, List.length_append,
      List.length_singleton] at hfind
  have hscan : lookupColon (n ++ 58 :: (m ++ 58 :: r)) [] = ([], some n.length) := by
    rw [lookupColon, show memchr (n ++ 58 :: (m ++ 58 :: r)) 0 58 _ = some (0 + n.length) from
      memchr_append [] hn (by simp), Nat.zero_add]
    simp only [hsecond]
  rw [lookupCall_of_not_bracketed h, hscan, Option.map_some, List.drop_left]
  rfl

theorem not_bracketed_of_head (hhead : host.head? ≠ some 91) (x t : List UInt8) :
    ¬ Bracketed host x t := by
  intro h
  rw [h.eq] at hhead
  exact hhead rfl

/-- A host with two colons is cut at the first one. -/
theorem exists_of_two_le_count (h : 2 ≤ host.count 58) :
    ∃ n s, host = n ++ 58 :: s ∧ 58 ∉ n ∧ 58 ∈ s := by
  have hmem : 58 ∈ host := List.count_pos_iff.mp (by omega)
  obtain ⟨n, s, rfl, hn⟩ := List.eq_append_cons_of_mem hmem
  rw [List.count_append, List.count_eq_zero_of_not_mem hn, List.count_cons_self] at h
  exact ⟨n, s, rfl, hn, List.count_pos_iff.mp (by omega)⟩

/-- A zero byte of a host is in the node or in the service. -/
theorem Asks.zero_mem (h : Asks host node service) (hzero : 0 ∈ host) :
    0 ∈ node ∨ ∃ s, service = some s ∧ 0 ∈ s := by
  cases h with
  | bracket h =>
      rw [h.eq] at hzero
      simp at hzero
      exact .inl hzero
  | bracketService h =>
      rw [h.eq] at hzero
      simp at hzero
      exact hzero.imp_right fun hs => ⟨_, rfl, hs⟩
  | service =>
      simp at hzero
      exact hzero.imp_right fun hs => ⟨_, rfl, hs⟩
  | noColon => exact .inl hzero
  | manyColons => exact .inl hzero

/-- The arguments of a call have no zero byte. -/
theorem zero_not_mem_lookupCall :
    0 ∉ (lookupCall host family type protocol).node ∧
      ∀ s, (lookupCall host family type protocol).service = some s → 0 ∉ s := by
  refine ⟨zero_not_mem_cString _, fun s hs => ?_⟩
  obtain ⟨i, -, rfl⟩ := Option.map_eq_some_iff.mp hs
  exact zero_not_mem_cString _

/-- The call is the one asked for when there is no zero byte and the host has neither many colons
nor text behind its brackets. -/
theorem lookupCall_of_asks (h : Asks host node service) (hmany : ¬ ManyColons host)
    (htail : ¬ BracketTail host) (hzero : 0 ∉ host) :
    lookupCall host family type protocol = ⟨node, service, family, type, protocol⟩ := by
  have hsub : ∀ {u : List UInt8}, u ⊆ host → cString u = u :=
    fun hu => cString_eq_self_iff.mpr fun hmem => hzero (hu hmem)
  cases h with
  | bracket h =>
      rw [lookupCall_bracketed h, hsub (by rw [h.eq]; simp)]
      rfl
  | bracketService h =>
      rw [lookupCall_bracketed h, hsub (by rw [h.eq]; simp), List.head?_cons, if_pos rfl,
        List.tail_cons, hsub (by rw [h.eq]; intro d hd; simp [hd])]
  | service hne hn hs hhead =>
      rw [lookupCall_oneColon (not_bracketed_of_head (by rwa [List.head?_append_of_ne_nil _ hne]))
        hne hn hs, hsub (List.subset_append_left ..), hsub (by intro d hd; simp [hd])]
  | noColon hcolon hnot =>
      refine (lookupCall_noColon (fun x t hbr => ?_) hcolon).trans ?_
      · by_cases ht : t = []
        · exact hnot x (ht ▸ hbr)
        · exact htail ⟨hcolon, x, t, hbr, ht⟩
      · rw [hsub (List.Subset.refl _)]
  | manyColons hhead hcolon => exact absurd ⟨hhead, hcolon⟩ hmany

end

/-- `Lookup` asks for the node and the service that the host stands for, except for a host with two
or more colons that is not in brackets, a host with text and no colon behind its brackets, and a
host with a zero byte that stands for something. -/
theorem splitsAsked_iff (host : List UInt8) :
    SplitsAsked host ↔ ¬ ManyColons host ∧ ¬ BracketTail host ∧
      (0 ∈ host → ∀ node service, ¬ Asks host node service) := by
  constructor
  · intro h
    refine ⟨fun hmany => ?_, fun htail => ?_, fun hzero node service hasks => ?_⟩
    · -- A service is passed where none is asked for.
      have hcall := h host none (.manyColons hmany.1 hmany.2) 0 0 0
      obtain ⟨n, s, rfl, hn, hs⟩ := exists_of_two_le_count hmany.2
      rw [lookupCall_manyColons (not_bracketed_of_head hmany.1) hn hs,
        GetaddrinfoCall.mk.injEq] at hcall
      cases hcall.2.1
    · -- The node is shorter than the host.
      obtain ⟨hcolon, x, t, hbr, ht⟩ := htail
      have hcall := h host none (.noColon hcolon fun x' hbr' => ht (hbr.unique hbr').2) 0 0 0
      rw [lookupCall_bracketed hbr, GetaddrinfoCall.mk.injEq] at hcall
      have hle := length_cString_le x
      have hlen := congrArg List.length hbr.eq
      rw [hcall.1, hlen, List.length_cons, List.length_append] at hle
      omega
    · have hargs := @zero_not_mem_lookupCall host 0 0 0
      rw [h node service hasks] at hargs
      rcases hasks.zero_mem hzero with hmem | ⟨s, rfl, hmem⟩
      · exact hargs.1 hmem
      · exact hargs.2 s rfl hmem
  · rintro ⟨hmany, htail, hzero⟩ node service hasks family type protocol
    exact lookupCall_of_asks hasks hmany htail fun hmem => hzero hmem node service hasks

/-- The bare address `::1` is looked up with the service `::1`. -/
theorem lookupCall_bare_address :
    lookupCall (text "::1") 2 1 0 = ⟨text "::1", some (text "::1"), 2, 1, 0⟩ ∧
      ¬ SplitsAsked (text "::1") := by
  have hcall : lookupCall (text "::1") 2 1 0 = ⟨text "::1", some (text "::1"), 2, 1, 0⟩ := by decide
  refine ⟨hcall, fun h => ?_⟩
  have hasked := h (text "::1") none (.manyColons (by decide) (by decide)) 2 1 0
  rw [hcall] at hasked
  cases hasked

end Sylar.Address
