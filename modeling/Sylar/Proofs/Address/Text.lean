import Sylar.Proofs.Address.Subnet

/-!
# `Sylar.Proofs.Address.Text`: the text of an IPv6 address

`insert` skips the groups of the first run of zeros and prints `::` in their place, when it meets the
next group or behind the loop. So the text of the groups `left ++ zeros ++ right` is the text of
`left`, `::` and the text of `right` (`insertAddr_eq`), and `expand` finds the two parts again: a group
is not empty and has no colon, so the first `::` is this one.
-/

set_option autoImplicit false

namespace Sylar

open Lib

namespace Rfc4291

/-! ### Groups -/

/-- The groups behind a group, each with its colon. -/
def tailText (gs : List Nat) : List UInt8 := gs.flatMap fun g => 58 :: numeral 16 g

/-- Groups with colons between them. -/
def joined : List Nat → List UInt8
  | [] => []
  | g :: gs => numeral 16 g ++ tailText gs

section
variable {g : Nat} {gs hs : List Nat} {c : UInt8} {s t : List UInt8}

theorem isXdigit_of_mem (hc : c ∈ numeral 16 g) : isXdigit c = true :=
  isXdigit_of_isDigitOf (isDigitOf_of_mem_numeral (.inr rfl) hc)

theorem colon_not_mem (g : Nat) : (58 : UInt8) ∉ numeral 16 g :=
  fun h => absurd (isXdigit_of_mem h) (by decide)

theorem parseGroup_numeral (hg : g < 65536) : parseGroup (numeral 16 g) = some g := by
  rw [parseGroup, if_pos ⟨numeral_ne_nil 16 g, length_numeral_le (by decide) (by decide) hg,
    List.all_eq_true.mpr fun c hc => isXdigit_of_mem hc,
    length_numeral_of_head? (by decide) (by decide)⟩, ofNumeral_numeral (by decide) (by decide)]

theorem joined_eq_intercalate (gs : List Nat) :
    joined gs = [58].intercalate (gs.map (numeral 16)) := by
  cases gs with
  | nil => rfl
  | cons g gs =>
      induction gs generalizing g with
      | nil => simp [joined, tailText]
      | cons g' gs ih =>
          rw [List.map_cons, List.map_cons, List.intercalate_cons_cons, ← List.map_cons, ← ih g']
          simp [joined, tailText]

theorem joined_ne_nil (h : gs ≠ []) : joined gs ≠ [] := by
  cases gs with
  | nil => exact absurd rfl h
  | cons g gs =>
      intro hnil
      exact numeral_ne_nil 16 g (List.append_eq_nil_iff.mp hnil).1

theorem parseGroups_joined (h : ∀ g ∈ gs, g < 65536) : parseGroups (joined gs) = some gs := by
  by_cases hnil : gs = []
  · subst hnil
    rfl
  · have hsplit : (joined gs).splitOn 58 = gs.map (numeral 16) := by
      rw [joined_eq_intercalate]
      refine List.splitOn_intercalate 58 (fun s hs => ?_) (by simpa using hnil)
      obtain ⟨g, -, rfl⟩ := List.mem_map.mp hs
      exact colon_not_mem g
    rw [parseGroups, if_neg (joined_ne_nil hnil), hsplit]
    clear hsplit hnil
    induction gs with
    | nil => rfl
    | cons g gs ih =>
        rw [List.forall_mem_cons] at h
        rw [List.map_cons, List.mapM_cons, parseGroup_numeral h.1, ih h.2]
        rfl

/-! ### The cut at `::` -/

/-- There is no cut in front of a group. -/
theorem cut_append (hs : (58 : UInt8) ∉ s) (t : List UInt8) :
    cut (s ++ t) = (s ++ (cut t).1, (cut t).2) := by
  induction s with
  | nil => rfl
  | cons c s ih =>
      rw [List.mem_cons, not_or] at hs
      rw [List.cons_append, cut, if_neg fun h => hs.1 h.1.symm, ih hs.2]
      rfl

theorem cut_tailText (gs : List Nat) (t : List UInt8) :
    cut (tailText gs ++ t) = (tailText gs ++ (cut t).1, (cut t).2) := by
  induction gs with
  | nil => rfl
  | cons g gs ih =>
      have hassoc : tailText (g :: gs) ++ t = 58 :: (numeral 16 g ++ (tailText gs ++ t)) := by
        simp [tailText]
      -- a digit follows the colon
      have hhead : (numeral 16 g ++ (tailText gs ++ t)).head? ≠ some 58 := by
        cases hnum : numeral 16 g with
        | nil => exact absurd hnum (numeral_ne_nil 16 g)
        | cons c s =>
            intro h
            have hc : c = 58 := Option.some.inj h
            exact colon_not_mem g (by rw [hnum, hc]; exact List.mem_cons_self)
      rw [hassoc, cut, if_neg fun h => hhead h.2, cut_append (colon_not_mem g), ih]
      simp [tailText]

theorem cut_joined (gs : List Nat) (t : List UInt8) :
    cut (joined gs ++ t) = (joined gs ++ (cut t).1, (cut t).2) := by
  cases gs with
  | nil => rfl
  | cons g gs =>
      rw [joined, List.append_assoc, cut_append (colon_not_mem g), cut_tailText, List.append_assoc]

/-! ### `expand` -/

theorem expand_joined (hlen : gs.length = 8) (h : ∀ g ∈ gs, g < 65536) :
    expand (joined gs) = some gs := by
  have hcut : cut (joined gs) = (joined gs, none) := by
    have := cut_joined gs []
    simpa [cut] using this
  rw [expand, hcut]
  simp only [parseGroups_joined h]
  exact if_pos hlen

theorem expand_compressed (hlen : gs.length + hs.length ≤ 7) (hg : ∀ g ∈ gs, g < 65536)
    (hh : ∀ g ∈ hs, g < 65536) :
    expand (joined gs ++ text "::" ++ joined hs)
      = some (gs ++ List.replicate (8 - (gs.length + hs.length)) 0 ++ hs) := by
  have hcut : cut (joined gs ++ text "::" ++ joined hs) = (joined gs, some (joined hs)) := by
    have h := cut_joined gs (text "::" ++ joined hs)
    rw [List.append_assoc, h]
    show (joined gs ++ [], some (joined hs)) = _
    rw [List.append_nil]
  rw [expand, hcut]
  simp only [parseGroups_joined hg, parseGroups_joined hh]
  exact if_pos hlen

theorem of_mem_tailText (hc : c ∈ tailText gs) : c = 58 ∨ isXdigit c = true := by
  obtain ⟨g, -, hc⟩ := List.mem_flatMap.mp hc
  rcases List.mem_cons.mp hc with rfl | hc
  · exact .inl rfl
  · exact .inr (isXdigit_of_mem hc)

theorem of_mem_joined (hc : c ∈ joined gs) : c = 58 ∨ isXdigit c = true := by
  cases gs with
  | nil => cases hc
  | cons g gs =>
      rcases List.mem_append.mp hc with hc | hc
      · exact .inr (isXdigit_of_mem hc)
      · exact of_mem_tailText hc

end

end Rfc4291

namespace IPv6Address

open Rfc4291

/-! ### The loop of `insert` -/

section
variable {host : Endian} {x : Nat} {ws left right : List Nat} {prev : Option Nat}

/-- The group that a word is. -/
def group (host : Endian) (x : Nat) : Nat := byteswapOnLittleEndian host 2 x

/-- Behind the `::`, every word is printed with its colon. -/
theorem insertLoop_used (ws : List Nat) (x : Nat) :
    insertLoop host ws (some x) true = (tailText (ws.map (group host)), true) := by
  induction ws generalizing x with
  | nil => rfl
  | cons y ws ih =>
      rw [insertLoop, if_neg (by simp)]
      simp only [Bool.true_or, ih]
      simp [tailText, group, text]

/-- A run of zeros is skipped. -/
theorem insertLoop_zeros (k : Nat) (ws : List Nat) :
    insertLoop host (List.replicate k 0 ++ ws) (some 0) false =
      insertLoop host ws (some 0) false := by
  induction k with
  | zero => rfl
  | succ k ih =>
      rw [List.replicate_succ, List.cons_append, insertLoop, if_pos ⟨rfl, rfl⟩, ih]

/-- The next word prints the `::`. -/
theorem insertLoop_next (hx : x ≠ 0) (ws : List Nat) :
    insertLoop host (x :: ws) (some 0) false =
      (text "::" ++ joined ((x :: ws).map (group host)), true) := by
  rw [insertLoop, if_neg fun h => hx h.1]
  simp only [and_self, decide_true, Bool.or_true, insertLoop_used]
  simp [joined, group, text]

/-- The words before the first zero. -/
theorem insertLoop_left (host : Endian) (hrest : ∀ y ∈ ws.head?, y = 0) :
    ∀ (left : List Nat) (prev : Option Nat), (∀ x ∈ left, x ≠ 0) → prev ≠ some 0 →
    insertLoop host (left ++ ws) prev false =
      ((if prev.isSome then tailText (left.map (group host)) else joined (left.map (group host))) ++
        (insertLoop host ws none false).1, (insertLoop host ws none false).2) := by
  intro left
  induction left with
  | nil =>
      intro prev _ _
      -- a zero that is skipped is not compared with the word before it
      have hsame : insertLoop host ws prev false = insertLoop host ws none false := by
        cases ws with
        | nil => rfl
        | cons y ws =>
            have hy : y = 0 := hrest y rfl
            rw [insertLoop, insertLoop, if_pos ⟨hy, rfl⟩, if_pos ⟨hy, rfl⟩]
      rw [List.nil_append, hsame]
      cases prev <;> rfl
  | cons x left ih =>
      intro prev hleft hprev
      rw [List.forall_mem_cons] at hleft
      have hx : some x ≠ some 0 := fun h => hleft.1 (Option.some.inj h)
      rw [List.cons_append, insertLoop, if_neg fun h => hleft.1 h.1]
      simp only [hprev, false_and, decide_false, Bool.or_false, ih (some x) hleft.2 hx]
      cases prev <;> simp [joined, tailText, group, text]

/-! ### The runs of the words -/

theorem exists_zeros (ws : List Nat) :
    ∃ k right, ws = List.replicate k 0 ++ right ∧
      (right = [] ∨ ∃ x rest, right = x :: rest ∧ x ≠ 0) := by
  induction ws with
  | nil => exact ⟨0, [], rfl, .inl rfl⟩
  | cons x ws ih =>
      by_cases hx : x = 0
      · obtain ⟨k, right, rfl, hright⟩ := ih
        exact ⟨k + 1, right, by rw [hx]; rfl, hright⟩
      · exact ⟨0, x :: ws, rfl, .inr ⟨x, ws, rfl, hx⟩⟩

/-- The first run of zeros, if there is one. -/
theorem exists_run (ws : List Nat) :
    (∀ x ∈ ws, x ≠ 0) ∨ ∃ left k right, ws = left ++ (List.replicate (k + 1) 0 ++ right) ∧
      (∀ x ∈ left, x ≠ 0) ∧ (right = [] ∨ ∃ x rest, right = x :: rest ∧ x ≠ 0) := by
  induction ws with
  | nil => exact .inl fun _ h => (List.not_mem_nil h).elim
  | cons x ws ih =>
      by_cases hx : x = 0
      · obtain ⟨k, right, rfl, hright⟩ := exists_zeros ws
        exact .inr ⟨[], k, right, by rw [hx]; rfl, fun _ h => (List.not_mem_nil h).elim, hright⟩
      · rcases ih with hall | ⟨left, k, right, rfl, hleft, hright⟩
        · exact .inl (List.forall_mem_cons.mpr ⟨hx, hall⟩)
        · exact .inr ⟨x :: left, k, right, rfl, List.forall_mem_cons.mpr ⟨hx, hleft⟩, hright⟩

/-- The text of eight words, from what the loop prints. -/
def wordsText (host : Endian) (ws : List Nat) : List UInt8 :=
  (insertLoop host ws none false).1 ++
    if (insertLoop host ws none false).2 = false ∧ ws.getLast? = some 0 then text "::" else []

theorem wordsText_of_ne_zero (h : ∀ x ∈ ws, x ≠ 0) :
    wordsText host ws = joined (ws.map (group host)) := by
  have hnil : ∀ y ∈ ([] : List Nat).head?, y = 0 := by simp
  have hloop := insertLoop_left host hnil ws none h (by simp)
  rw [List.append_nil] at hloop
  rw [wordsText, hloop]
  have hlast : ws.getLast? ≠ some 0 := fun hz => h 0 (List.mem_of_getLast? hz) rfl
  simp [hlast, insertLoop]

theorem wordsText_run {k : Nat} (hleft : ∀ x ∈ left, x ≠ 0)
    (hright : right = [] ∨ ∃ x rest, right = x :: rest ∧ x ≠ 0) :
    wordsText host (left ++ (List.replicate (k + 1) 0 ++ right))
      = joined (left.map (group host)) ++ text "::" ++ joined (right.map (group host)) := by
  have hhead : ∀ y ∈ (List.replicate (k + 1) 0 ++ right).head?, y = 0 :=
    fun y hy => (Option.some.inj hy).symm
  have hloop := insertLoop_left host hhead left none hleft (by simp)
  have hzeros : insertLoop host (List.replicate (k + 1) 0 ++ right) none false
      = insertLoop host right (some 0) false := by
    rw [List.replicate_succ, List.cons_append, insertLoop, if_pos ⟨rfl, rfl⟩, insertLoop_zeros]
  rw [wordsText, hloop, hzeros]
  rcases hright with rfl | ⟨x, rest, rfl, hx⟩
  -- the zeros are the last words, and the `::` is printed behind the loop
  · simp [insertLoop, joined, List.getLast?_replicate]
  · simp [insertLoop_next hx]

end

/-! ### The address -/

section
variable (host : Endian) (addr : SockaddrIn6)

/-- The words of the address, in the order of the host. -/
def words : List Nat := (List.range 8).map (word host addr)

theorem insertAddr_eq_wordsText : insertAddr host addr = wordsText host (words host addr) := by
  have hlast : (words host addr).getLast? = some (word host addr 7) := rfl
  simp only [insertAddr, wordsText, hlast, Option.some.injEq]
  rfl

/-- The words are printed as the groups, whatever the order of the host is. -/
theorem map_group_words : (words host addr).map (group host) = groups addr := by
  rw [words, List.map_map]
  refine List.map_congr_left fun i _ => ?_
  show group host (word host addr i) = _
  cases host with
  | little =>
      show ByteArray.byteswap 2 (ofLE [_, _]) = _
      rw [ByteArray.byteswap]
      exact congrArg (fun bs => ofLE bs.reverse) (leBytes_ofLE [byteAt addr.s6Addr (2 * i), _])
  | big => rfl

theorem groups_lt : ∀ g ∈ groups addr, g < 65536 := by
  intro g hg
  obtain ⟨i, -, hi⟩ := List.mem_map.mp hg
  have hlt := ofLE_lt [byteAt addr.s6Addr (2 * i + 1), byteAt addr.s6Addr (2 * i)]
  rw [hi, List.length_cons, List.length_singleton] at hlt
  omega

/-- The text is that of the groups before the first run of zeros and of those behind it. -/
theorem insertAddr_eq :
    insertAddr host addr = joined (groups addr) ∨
      ∃ left k right, groups addr = left ++ List.replicate (k + 1) 0 ++ right ∧
        insertAddr host addr = joined left ++ text "::" ++ joined right := by
  rw [insertAddr_eq_wordsText, ← map_group_words host addr]
  rcases exists_run (words host addr) with hall | ⟨left, k, right, hwords, hleft, hright⟩
  · exact .inl (wordsText_of_ne_zero hall)
  · have hzero : group host 0 = 0 := by cases host <;> rfl
    refine .inr ⟨left.map (group host), k, right.map (group host), ?_, ?_⟩
    · rw [hwords, List.map_append, List.map_append, List.map_replicate, hzero, List.append_assoc]
    · rw [hwords, wordsText_run hleft hright]

theorem expand_insertAddr : expand (insertAddr host addr) = some (groups addr) := by
  have hlen : (groups addr).length = 8 := rfl
  have hlt := groups_lt addr
  rcases insertAddr_eq host addr with htext | ⟨left, k, right, hgroups, htext⟩
  · rw [htext, expand_joined hlen hlt]
  · rw [hgroups] at hlen hlt ⊢
    rw [List.length_append, List.length_append, List.length_replicate] at hlen
    have hk : 8 - (left.length + right.length) = k + 1 := by omega
    rw [htext, expand_compressed (by omega) (fun g hg => hlt g (by simp [hg]))
      (fun g hg => hlt g (by simp [hg])), hk]

/-- The bracket behind the text is not in it. -/
theorem bracket_not_mem : (93 : UInt8) ∉ insertAddr host addr := by
  have hjoined : ∀ gs, (93 : UInt8) ∉ joined gs := fun gs h => by
    rcases of_mem_joined h with h | h
    · exact absurd h (by decide)
    · exact absurd h (by decide)
  rcases insertAddr_eq host addr with htext | ⟨left, k, right, -, htext⟩
  · rw [htext]
    exact hjoined _
  · rw [htext]
    intro h
    rcases List.mem_append.mp h with h | h
    · rcases List.mem_append.mp h with h | h
      · exact hjoined _ h
      · exact absurd h (by decide)
    · exact hjoined _ h

variable {host addr}

/-- The groups tell the address. -/
theorem s6Addr_eq_of_groups {addr' : SockaddrIn6} (h : groups addr = groups addr') :
    addr.s6Addr = addr'.s6Addr := by
  rw [groups, groups, List.map_inj_left] at h
  have hpair : ∀ i < 8, byteAt addr.s6Addr (2 * i) = byteAt addr'.s6Addr (2 * i) ∧
      byteAt addr.s6Addr (2 * i + 1) = byteAt addr'.s6Addr (2 * i + 1) := by
    intro i hi
    have hbytes : [byteAt addr.s6Addr (2 * i + 1), byteAt addr.s6Addr (2 * i)]
        = [byteAt addr'.s6Addr (2 * i + 1), byteAt addr'.s6Addr (2 * i)] :=
      calc _ = leBytes 2 _ := (leBytes_ofLE [_, _]).symm
        _ = leBytes 2 _ := congrArg (leBytes 2) (h i (List.mem_range.mpr hi))
        _ = _ := leBytes_ofLE [_, _]
    injection hbytes with hodd htail
    injection htail with heven
    exact ⟨heven, hodd⟩
  refine s6Addr_ext fun k hk => ?_
  -- the byte is the first or the second one of the group `k / 2`
  rcases Nat.mod_two_eq_zero_or_one k with hmod | hmod
  · have hk2 : k = 2 * (k / 2) := by omega
    rw [hk2]
    exact (hpair (k / 2) (by omega)).1
  · have hk2 : k = 2 * (k / 2) + 1 := by omega
    rw [hk2]
    exact (hpair (k / 2) (by omega)).2

end

/-- `insert` prints the address between brackets, and the port. The text of the address is valid and
expands to its eight groups, so that different addresses do not print alike. -/
theorem insert_faithful (host : Endian) (addr : SockaddrIn6) :
    insert host addr =
        text "[" ++ insertAddr host addr ++ text "]:" ++ numeral 10 (getPort host addr) ∧
      expand (insertAddr host addr) = some (groups addr) ∧
      ∀ addr', insert host addr = insert host addr' → addr.s6Addr = addr'.s6Addr := by
  refine ⟨rfl, expand_insertAddr host addr, fun addr' h => s6Addr_eq_of_groups ?_⟩
  have htail : insertAddr host addr ++ 93 :: (58 :: numeral 10 (getPort host addr))
      = insertAddr host addr' ++ 93 :: (58 :: numeral 10 (getPort host addr')) := by
    have hbody := h
    simp only [insert, List.append_assoc] at hbody
    exact List.append_cancel_left hbody
  obtain ⟨htext, -⟩ :=
    append_cons_inj_left (bracket_not_mem host addr) (bracket_not_mem host addr') htail
  have hexpand := expand_insertAddr host addr
  rw [htext, expand_insertAddr host addr'] at hexpand
  exact (Option.some.inj hexpand).symm

/-- The loopback address and the port 80. -/
theorem insert_loopback :
    insert .little ⟨afInet6, 0x5000, #v[0, 0, 0, 0, 0, 0, 0, 0, 0, 0, 0, 0, 0, 0, 0, 1]⟩
        = text "[::1]:80" ∧
      expand (text "::1") = some [0, 0, 0, 0, 0, 0, 0, 1] :=
  ⟨by decide, (insert_faithful .little
    ⟨afInet6, 0x5000, #v[0, 0, 0, 0, 0, 0, 0, 0, 0, 0, 0, 0, 0, 0, 0, 1]⟩).2.1⟩

end IPv6Address

end Sylar
