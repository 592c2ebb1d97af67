import Sylar.Lib.Drive
import Sylar.Lib.Lang

/-!
# `Lib.Events`: the actions of a match, with their positions

`Enacts r w E` says that the machine of `r` reads all of `w` as one match, and that the actions and
the positions they fall on are `E p` when the word begins at the position `p`. The list is the one
before two runs of one action on one symbol are made one. The rules put the parts of an expression
together. In a sequence the lists are just appended, whether the parts are empty or not.

Several parts of an expression can be at work at the same time. An alternative beside the match must
be `Silent`. A part may begin in front of an optional part and be given up in it: `acted` has the
actions it has run until then (`Enacts.seq_closed`).
-/

set_option autoImplicit false

namespace Lib

namespace Rx

variable {σ A : Type}

/-- The actions of a trace with their positions. -/
def events : Nat → List (List A) → List (Nat × A)
  | _, [] => []
  | p, l :: tr => l.map (fun a => (p, a)) ++ events (p + 1) tr

/-- A match of `r` and its actions. -/
def Enacts (r : Rx σ A) (w : List σ) (E : Nat → List (Nat × A)) : Prop :=
  ∃ tr t, Scans r true .none w tr t ∧ ∀ p, events p tr = E p

/-- The actions on each symbol of a word, also when it is no match. -/
def acted (r : Rx σ A) : Bool → Marks → List σ → List (List A)
  | _, _, [] => []
  | m, t, c :: w => acts m false r t (some c) :: acted r false (shift m r t c) w

/-- No action runs on the word or at its end. -/
def Silent (r : Rx σ A) : Bool → Marks → List σ → Prop
  | m, t, [] => acts m true r t none = []
  | m, t, c :: w => acts m false r t (some c) = [] ∧ Silent r false (shift m r t c) w

section
variable {r s U : Rx σ A} {m : Bool} {t t' x z : Marks} {u v w : List σ} {c e : σ} {p n : Nat}
  {l : List A} {tr tr' : List (List A)} {a b : A} {E E' : Nat → List (Nat × A)}

/-! ### Traces -/

theorem events_append : events p (tr ++ tr') = events p tr ++ events (p + tr.length) tr' := by
  induction tr generalizing p with
  | nil => rfl
  | cons l tr ih =>
      rw [List.cons_append, events, ih, events, List.append_assoc, List.length_cons, Nat.add_assoc,
        Nat.add_comm 1]

theorem events_replicate_nil : events p (List.replicate n ([] : List A)) = [] := by
  induction n generalizing p with
  | zero => rfl
  | succ n ih =>
      rw [List.replicate_succ, events, ih]
      rfl

/-- All positions are those of the trace. -/
theorem lt_of_mem_events {y : Nat × A} (h : y ∈ events p tr) : p ≤ y.1 ∧ y.1 < p + tr.length := by
  induction tr generalizing p with
  | nil => cases h
  | cons l tr ih =>
      rw [events, List.mem_append, List.mem_map] at h
      rw [List.length_cons]
      rcases h with ⟨a, -, rfl⟩ | h
      · exact ⟨le_rfl, by omega⟩
      · have := ih h
        omega

/-- A trace is the actions on the symbols and those of the end. -/
theorem Scans.end_eq (h : Scans r m t w tr t') : live (m && w.isEmpty) r t' = true ∧
    tr = acted r m t w ++ [acts (m && w.isEmpty) true r t' none] := by
  induction h with
  | @done m t hl =>
      rw [List.isEmpty_nil, Bool.and_true]
      exact ⟨hl, rfl⟩
  | @read m t c w tr t' hc hw ih =>
      rw [Bool.false_and] at ih
      rw [List.isEmpty_cons, Bool.and_false]
      exact ⟨ih.1, congrArg _ ih.2⟩

theorem length_acted : (acted r m t w).length = w.length := by
  induction w generalizing m t with
  | nil => rfl
  | cons c w ih => rw [acted, List.length_cons, ih, List.length_cons]

theorem acted_append :
    acted r m t (u ++ v) = acted r m t u ++ acted r (m && u.isEmpty) (after m r t u) v := by
  induction u generalizing m t with
  | nil => rw [List.nil_append, List.isEmpty_nil, Bool.and_true]; rfl
  | cons c u ih =>
      rw [List.cons_append, acted, ih, List.isEmpty_cons, Bool.and_false, Bool.false_and, after, acted,
        List.cons_append]

theorem acted_idle : acted r false .none w = List.replicate w.length [] := by
  induction w with
  | nil => rfl
  | cons c w ih => rw [acted, acts_idle, shift_idle, ih, List.length_cons, List.replicate_succ]

/-- A symbol that ends a run of the machine. -/
theorem acts_of_dead (h : shift m r t c = .none) : acts m false r t (some c) = [] := by
  rw [acts_of_shift_none h, acts_false_none]

theorem acted_of_dead (h : shift m r t c = .none) :
    acted r m t (c :: w) = List.replicate (c :: w).length [] := by
  rw [acted, acts_of_dead h, h, acted_idle, List.length_cons, List.replicate_succ]

/-- The actions on the symbols of a match are those in front of its end. -/
theorem Enacts.events_acted (h : Enacts r w E) :
    events p (acted r true .none w) = (E p).filter fun y => decide (y.1 < p + w.length) := by
  obtain ⟨tr, t, hs, hE⟩ := h
  obtain ⟨l, rfl⟩ : ∃ l, tr = acted r true .none w ++ [l] := ⟨_, hs.end_eq.2⟩
  rw [← hE p, events_append, List.filter_append, List.filter_eq_self.mpr, length_acted]
  · have hnil : (events (p + w.length) [l]).filter (fun y => decide (y.1 < p + w.length)) = [] := by
      refine List.filter_eq_nil_iff.mpr fun y hy => ?_
      have := (lt_of_mem_events hy).1
      rw [decide_eq_true_eq]
      omega
    rw [hnil, List.append_nil]
  · intro y hy
    have := (lt_of_mem_events hy).2
    rw [length_acted] at this
    exact decide_eq_true this

/-! ### Where the machine is -/

theorem after_idle : after false r .none w = .none := by
  induction w with
  | nil => rfl
  | cons c w ih => rw [after, shift_idle, ih]

theorem after_of_first (hc : first r c = false) : after true r .none (c :: w) = .none := by
  rw [after, shift_none_of_first hc, after_idle]

theorem after_alt : after m (alt r s) (.join t x) w = .join (after m r t w) (after m s x w) := by
  induction w generalizing m t x with
  | nil => rfl
  | cons c w ih => rw [after, shift_alt, Marks.left_join, Marks.right_join, ih, after, after]

/-- Actions do not change where the machine is. -/
theorem after_part : after m (leave b (enter a r)) t w = after m r t w := by
  induction w generalizing m t with
  | nil => rfl
  | cons c w ih => exact ih

/-- The second part of a sequence does not begin on these symbols. -/
theorem after_seq_of_first (h : ∀ c ∈ w, first s c = false) :
    after m (seq r s) (.join t .none) w = .join (after m r t w) .none := by
  induction w generalizing m t with
  | nil => rfl
  | cons c w ih =>
      rw [after, shift_seq_left fun _ => h c (List.mem_cons_self ..),
        ih fun d hd => h d (List.mem_cons_of_mem _ hd), after]

/-- A symbol that no part can read ends every run. -/
theorem after_of_avoids (h : avoids e r = true) : after m r t (u ++ [e]) = .none := by
  rw [after_append]
  exact shift_of_avoids h

/-- `s` can only take over behind a match of `r`. -/
theorem stays_of_lang (h : ∀ u₁ c u₂, u = u₁ ++ c :: u₂ → u₁ ∈ lang r → first s c = false) :
    Stays r s true .none u := by
  have hall : ∀ u₁ u₂, u = u₁ ++ u₂ → Stays r s u₁.isEmpty (after true r .none u₁) u₂ := by
    intro u₁ u₂ hu
    induction u₂ generalizing u₁ with
    | nil => trivial
    | cons c u₂ ih =>
        refine ⟨fun hl => h u₁ c u₂ hu (mem_lang_of_live hl), ?_⟩
        have hnext := ih (u₁ ++ [c]) (by rw [hu, List.append_assoc]; rfl)
        rw [after_append, Bool.true_and] at hnext
        have hempty : (u₁ ++ [c]).isEmpty = false := by cases u₁ <;> rfl
        rw [hempty] at hnext
        exact hnext
  exact hall [] u rfl

/-! ### Matches -/

theorem Enacts.plain (hp : plain r = true) (h : w ∈ lang r) : Enacts r w fun _ => [] := by
  obtain ⟨t, hs⟩ := scans_of_mem_lang hp h
  exact ⟨_, t, hs, fun p => events_replicate_nil⟩

theorem Enacts.enter (h : Enacts r w E) : Enacts (enter a r) w fun p => (p, a) :: E p := by
  obtain ⟨tr, t, hs, hE⟩ := h
  refine ⟨_, t, hs.enter, fun p => ?_⟩
  cases tr with
  | nil => exact absurd rfl hs.ne_nil
  | cons l tr =>
      show _ = (p, a) :: E p
      rw [← hE p]
      rfl

theorem Enacts.leave (h : Enacts r w E) :
    Enacts (leave a r) w fun p => E p ++ [(p + w.length, a)] := by
  obtain ⟨tr, t, hs, hE⟩ := h
  refine ⟨_, t, hs.leave, fun p => ?_⟩
  obtain ⟨-, rfl⟩ := hs.end_eq
  show _ = E p ++ _
  rw [← hE p, onLast_concat, events_append, events_append, length_acted]
  simp only [events, List.map_append, List.append_nil, List.map_cons, List.map_nil, List.append_assoc]

/-- A part without actions inside, with one on its first symbol and one behind it. -/
theorem Enacts.part (hp : Rx.plain r = true) (h : w ∈ lang r) :
    Enacts (Rx.leave b (Rx.enter a r)) w fun p => [(p, a), (p + w.length, b)] :=
  (Enacts.plain hp h).enter.leave

theorem Enacts.seq (hr : Enacts r u E) (hs : Enacts s v E') (hstay : Stays r s true .none u)
    (hdies : ∀ c ∈ v.head?, shift u.isEmpty r (after true r .none u) c = .none) :
    Enacts (seq r s) (u ++ v) fun p => E p ++ E' (p + u.length) := by
  obtain ⟨tr, t, hr, hE⟩ := hr
  obtain ⟨tr', t', hs, hE'⟩ := hs
  rw [hr.after_eq] at hdies
  refine ⟨_, _, hr.seq hs hstay hdies, fun p => ?_⟩
  obtain ⟨-, rfl⟩ := hr.end_eq
  cases tr' with
  | nil => exact absurd rfl hs.ne_nil
  | cons l' tr' =>
      show _ = E p ++ E' (p + u.length)
      rw [glue_concat, ← hE p, ← hE', events_append, events_append, length_acted]
      simp only [events, List.map_append, List.append_nil, List.append_assoc]

theorem Enacts.mem_lang (h : Enacts r w E) : w ∈ lang r := by
  obtain ⟨tr, t, hs, -⟩ := h
  have hlive := hs.end_eq.1
  rw [Bool.true_and, ← hs.after_eq] at hlive
  exact mem_lang_of_live hlive

/-- The second part begins with symbols that the first does not have. -/
theorem Enacts.seq_of_avoids (hr : Enacts r u E) (hs : Enacts s v E')
    (h : ∀ c, first s c = true → avoids c r = true) :
    Enacts (Rx.seq r s) (u ++ v) fun p => E p ++ E' (p + u.length) := by
  refine hr.seq hs (stays_of_lang fun u₁ c u₂ hu _ => ?_) fun c hc => ?_
  · rw [← Bool.not_eq_true]
    intro hf
    refine notMem_of_avoids (h c hf) hr.mem_lang ?_
    rw [hu]
    exact List.mem_append_right _ (List.mem_cons_self ..)
  · obtain ⟨v, rfl⟩ := List.head?_eq_some_iff.mp hc
    exact shift_of_avoids (h c (first_of_mem_lang hs.mem_lang))

/-- A word in front that is over after its last symbol. -/
theorem Enacts.word_seq [BEq σ] [LawfulBEq σ] (hp : Rx.plain (word u : Rx σ A) = true)
    (hs : Enacts s v E)
    (hend : ∀ c, shift u.isEmpty (word u : Rx σ A) (after true (word u : Rx σ A) .none u) c = .none) :
    Enacts (Rx.seq (word u) s) (u ++ v) fun p => E (p + u.length) := by
  have hword : Enacts (word u : Rx σ A) u fun _ => [] := Enacts.plain hp (mem_lang_word.mpr rfl)
  refine hword.seq hs (stays_of_lang fun u₁ c u₂ hu hmem => ?_) fun c _ => hend c
  rw [mem_lang_word.mp hmem] at hu
  exact absurd (List.self_eq_append_right.mp hu) (List.cons_ne_nil c u₂)

/-! ### Alternatives -/

theorem Silent.of_plain (h : Rx.plain r = true) : Silent r m t w := by
  induction w generalizing m t with
  | nil => exact acts_plain h
  | cons c w ih => exact ⟨acts_plain h, ih⟩

theorem Silent.idle : Silent r false .none w := by
  induction w with
  | nil => exact acts_idle ..
  | cons c w ih =>
      refine ⟨acts_idle .., ?_⟩
      rw [shift_idle]
      exact ih

/-- An alternative that cannot read the first symbol. -/
theorem Silent.of_first (hc : first r c = false) : Silent r true .none (c :: w) := by
  refine ⟨acts_of_dead (shift_none_of_first hc), ?_⟩
  rw [shift_none_of_first hc]
  exact Silent.idle

theorem Silent.alt (h : Silent r m t w) (h' : Silent s m x w) :
    Silent (alt r s) m (.join t x) w := by
  induction w generalizing m t x with
  | nil =>
      show acts m true (Rx.alt r s) (.join t x) none = []
      rw [acts_alt, Marks.left_join, Marks.right_join, (h : acts m true r t none = []),
        (h' : acts m true s x none = [])]
      rfl
  | cons c w ih =>
      refine ⟨?_, ?_⟩
      · rw [acts_alt, Marks.left_join, Marks.right_join, h.1, h'.1]
        rfl
      · rw [shift_alt, Marks.left_join, Marks.right_join]
        exact ih h.2 h'.2

/-- A sequence whose first part is over before the second can begin. -/
theorem Silent.seq (hr : Silent r m t (u ++ v)) (hs : ∀ c ∈ u, first s c = false)
    (hu : m = true → u ≠ []) (hdead : after m r t u = .none) :
    Silent (seq r s) m (.join t .none) (u ++ v) := by
  induction u generalizing m t with
  | nil =>
      cases m with
      | true => exact absurd rfl (hu rfl)
      | false =>
          obtain rfl : t = .none := hdead
          exact Silent.idle
  | cons c u ih =>
      have hstay : live m r t = true → first s c = false := fun _ => hs c (List.mem_cons_self ..)
      refine ⟨?_, ?_⟩
      · rw [acts_seq_left hstay]
        exact hr.1
      · rw [shift_seq_left hstay]
        exact ih hr.2 (fun d hd => hs d (List.mem_cons_of_mem _ hd)) Bool.noConfusion hdead

/-- A match of the first alternative, where the second runs no action. -/
theorem Scans.alt_silent (h : Scans r m t w tr t') (hs : Silent s m x w) :
    ∃ t'', Scans (alt r s) m (.join t x) w tr t'' := by
  induction h generalizing x with
  | @done m t hl =>
      have hacts : acts m true r t none = acts m true (alt r s) (.join t x) none := by
        rw [acts_alt, Marks.left_join, Marks.right_join, (hs : acts m true s x none = []),
          List.append_nil]
      rw [hacts]
      exact ⟨_, Scans.done (by rw [live_alt, Marks.left_join, hl, Bool.true_or])⟩
  | @read m t c w tr t' hc hw ih =>
      obtain ⟨t'', hread⟩ := ih hs.2
      have hacts : acts m false r t (some c) = acts m false (alt r s) (.join t x) (some c) := by
        rw [acts_alt, Marks.left_join, Marks.right_join, hs.1, List.append_nil]
      have hshift : shift m (alt r s) (.join t x) c = .join (shift m r t c) (shift m s x c) := by
        rw [shift_alt, Marks.left_join, Marks.right_join]
      rw [hacts]
      refine ⟨t'', Scans.read ?_ ?_⟩
      · rw [hshift, ne_eq, Marks.join_eq_none]
        exact fun hj => hc hj.1
      · rw [hshift]
        exact hread

theorem Enacts.alt (h : Enacts r w E) (hs : Silent s true .none w) : Enacts (alt r s) w E := by
  obtain ⟨tr, t, hscan, hE⟩ := h
  obtain ⟨t', hscan'⟩ := hscan.alt_silent (x := .none) hs
  exact ⟨tr, t', hscan', hE⟩

theorem Enacts.opt (h : Enacts r w E) : Enacts (opt r) w E := h.alt (Silent.of_plain rfl)

theorem Enacts.opt_none (hr : nullable r = false) : Enacts (Rx.opt r) [] fun _ => [] :=
  ⟨_, _, Scans.opt_none hr, fun _ => rfl⟩

/-! ### An optional part that a symbol closes -/

end

section
variable [BEq σ] [LawfulBEq σ] {s U : Rx σ A} {m : Bool} {t x z : Marks} {u v w : List σ} {c e : σ}
  {tr tr' : List (List A)} {t' : Marks} {a : A} {E : Nat → List (Nat × A)}

/-- The part `U` with its leaving action, and the symbol behind it. -/
def closed (a : A) (U : Rx σ A) (e : σ) : Rx σ A := seq (leave a U) (sym (· == e))

/-- The marks while `U` may still be the optional part or not. -/
def openMarks (x z : Marks) : Marks := .join (.join (.join x .none) .none) z

omit [LawfulBEq σ] in
theorem live_opt_closed : live m (opt (closed a U e)) (.join (.join x .none) .none) = m := by
  rw [opt, live_alt, Marks.left_join, Marks.right_join, closed, live_seq, Marks.left_join,
    Marks.right_join, live_none, live_none]
  simp [nullable]

omit [LawfulBEq σ] in
theorem live_openMarks : live m (seq (opt (closed a U e)) s) (openMarks x z) = live m s z := by
  rw [openMarks, live_seq, Marks.left_join, Marks.right_join, live_opt_closed]

theorem shift_openMarks (hc : c ≠ e) : shift m (seq (opt (closed a U e)) s) (openMarks x z) c =
    openMarks (shift m U x c) (shift m s z c) := by
  rw [openMarks, shift_seq, Marks.left_join, Marks.right_join, live_opt_closed, opt, shift_alt,
    Marks.left_join, Marks.right_join, closed, shift_seq, Marks.left_join, Marks.right_join,
    shift_sym, beq_eq_false_iff_ne.mpr hc, Bool.and_false, cond_false]
  rfl

/-- Only the symbol `e` runs an action of the optional part. -/
theorem acts_openMarks {o : Bool} {y : Option σ} (hU : plain U = true) (hy : y ≠ some e) :
    acts m o (seq (opt (closed a U e)) s) (openMarks x z) y = acts m o s z y := by
  have hstarts : starts (sym (· == e) : Rx σ A) y = false := by
    cases y with
    | none => rfl
    | some c => exact beq_eq_false_iff_ne.mpr fun h => hy (congrArg some h)
  rw [openMarks, acts_seq, Marks.left_join, Marks.right_join, live_opt_closed, opt, acts_alt,
    Marks.left_join, Marks.right_join, closed, acts_seq, Marks.left_join, Marks.right_join, hstarts,
    acts_leave, acts_plain hU]
  simp [acts, nullable]

theorem openMarks_ne_none (h : x ≠ .none ∨ z ≠ .none) : openMarks x z ≠ .none := by
  rw [openMarks, ne_eq, Marks.join_eq_none, Marks.join_eq_none, Marks.join_eq_none]
  rintro ⟨⟨⟨rfl, -⟩, -⟩, rfl⟩
  rcases h with h | h <;> exact h rfl

/-- The optional part is missing. -/
theorem Scans.skip_closed (hU : plain U = true) (h : Scans s m z w tr t) (hw : e ∉ w) :
    ∃ t', Scans (Rx.seq (opt (closed a U e)) s) m (openMarks x z) w tr t' := by
  induction h generalizing x with
  | @done m z hl =>
      rw [← acts_openMarks (x := x) (a := a) (e := e) hU (by simp)]
      exact ⟨_, Scans.done (by rwa [live_openMarks])⟩
  | @read m z c w tr z' hc hread ih =>
      rw [List.mem_cons, not_or] at hw
      obtain ⟨t', ht'⟩ := ih (x := shift m U x c) hw.2
      have hce : c ≠ e := Ne.symm hw.1
      rw [← acts_openMarks (x := x) (a := a) (e := e) hU (fun h => hce (Option.some.inj h))]
      rw [← shift_openMarks hce] at ht'
      exact ⟨t', Scans.read (by rw [shift_openMarks hce]; exact openMarks_ne_none (Or.inr hc)) ht'⟩

omit [LawfulBEq σ] in
/-- Behind the closing symbol. -/
theorem Scans.behind_closed (h : Scans s true .none v tr t) :
    ∃ t', Scans (Rx.seq (opt (closed a U e)) s) false
      (.join (.join (.join .none .leaf) .none) .none) v tr t' := by
  have hlive : live false (opt (closed a U e)) (.join (.join .none .leaf) .none) = true := by
    rw [opt, live_alt, Marks.left_join, closed, live_seq, Marks.left_join, Marks.right_join]
    simp [live, final, Marks.isLeaf]
  have hacts : ∀ {o : Bool} {y : Option σ},
      acts false o (opt (closed a U e)) (.join (.join .none .leaf) .none) y = [] := by
    intro o y
    rw [opt, acts_alt, Marks.left_join, Marks.right_join, closed, acts_seq, Marks.left_join,
      Marks.right_join, acts_idle, acts_idle]
    rfl
  cases h with
  | done hl =>
      have hend : acts true true s .none none = acts false true (Rx.seq (opt (closed a U e)) s)
          (.join (.join (.join .none .leaf) .none) .none) none := by
        rw [acts_seq, Marks.left_join, Marks.right_join, hacts, hlive, List.nil_append]
      rw [hend]
      exact ⟨_, Scans.done (by rw [live_seq, Marks.left_join, Marks.right_join, hlive, hl])⟩
  | @read _ _ d v tr t hd hread =>
      have hdead : shift false (opt (closed a U e)) (.join (.join .none .leaf) .none) d = .none := by
        rw [opt, shift_alt, Marks.left_join, Marks.right_join, closed, shift_seq, Marks.left_join,
          Marks.right_join, shift_idle, shift_idle, live_none, Bool.false_and]
        rfl
      have hshift : shift false (Rx.seq (opt (closed a U e)) s)
          (.join (.join (.join .none .leaf) .none) .none) d = .join .none (shift true s .none d) := by
        rw [shift_seq, Marks.left_join, Marks.right_join, hlive, hdead]
      have hfirst : acts true false s .none (some d) = acts false false
          (Rx.seq (opt (closed a U e)) s) (.join (.join (.join .none .leaf) .none) .none) (some d) := by
        rw [acts_seq, Marks.left_join, Marks.right_join, hacts, hlive, List.nil_append]
      have hrest := hread.seq_right (r := opt (closed a U e)) rfl
      rw [← hshift] at hrest
      rw [hfirst]
      refine ⟨_, Scans.read ?_ hrest⟩
      rw [hshift, ne_eq, Marks.join_eq_none]
      exact fun hj => hd hj.2

/-- The optional part is there. What `s` has begun in it ends on the closing symbol. -/
theorem Scans.take_closed (hU : plain U = true) (he : avoids e U = true)
    (h : Scans U m x u tr t) (hu : e ∉ u) (hs : Scans s true .none v tr' t')
    (hgone : shift (m && u.isEmpty) s (after m s z u) e = .none) :
    ∃ t'', Scans (Rx.seq (opt (closed a U e)) s) m (openMarks x z) (u ++ e :: v)
      (acted s m z u ++ [a] :: tr') t'' := by
  induction h generalizing z with
  | @done m x hl =>
      rw [List.isEmpty_nil, Bool.and_true] at hgone
      change shift m s z e = .none at hgone
      have hstarts : starts (sym (· == e) : Rx σ A) (some e) = true := beq_self_eq_true e
      have hleave : live m (Rx.leave a U) x = true := hl
      have hshift : shift m (Rx.seq (opt (closed a U e)) s) (openMarks x z) e =
          .join (.join (.join .none .leaf) .none) .none := by
        rw [openMarks, shift_seq, Marks.left_join, Marks.right_join, live_opt_closed, hgone, opt,
          shift_alt, Marks.left_join, Marks.right_join, closed, shift_seq, Marks.left_join,
          Marks.right_join, shift_sym, beq_self_eq_true, Bool.and_true,
          shift_of_avoids (r := Rx.leave a U) he, hleave]
        rfl
      have hacts : [a] = acts m false (Rx.seq (opt (closed a U e)) s) (openMarks x z) (some e) := by
        rw [openMarks, acts_seq, Marks.left_join, Marks.right_join, live_opt_closed,
          acts_of_dead hgone, opt, acts_alt, Marks.left_join, Marks.right_join, closed, acts_seq,
          Marks.left_join, Marks.right_join, hstarts, Bool.true_or, acts_leave, acts_plain hU, hl]
        rfl
      obtain ⟨t'', hbehind⟩ := hs.behind_closed (a := a) (U := U) (e := e)
      rw [← hshift] at hbehind
      rw [List.nil_append, acted, List.nil_append, hacts]
      exact ⟨t'', Scans.read (by rw [hshift]; exact Marks.noConfusion) hbehind⟩
  | @read m x c u tr x' hc hread ih =>
      rw [List.mem_cons, not_or] at hu
      rw [List.isEmpty_cons, Bool.and_false] at hgone
      have hce : c ≠ e := Ne.symm hu.1
      obtain ⟨t'', ht''⟩ := ih hu.2 (z := shift m s z c) (by rwa [Bool.false_and])
      rw [← shift_openMarks hce] at ht''
      rw [acted, ← acts_openMarks (x := x) (a := a) (e := e) hU
        (fun h => hce (Option.some.inj h))]
      exact ⟨t'', Scans.read (by rw [shift_openMarks hce]; exact openMarks_ne_none (Or.inl hc)) ht''⟩

theorem Enacts.skip_closed (hU : Rx.plain U = true) (h : Enacts s w E) (hw : e ∉ w) :
    Enacts (Rx.seq (Rx.opt (closed a U e)) s) w E := by
  obtain ⟨tr, t, hs, hE⟩ := h
  obtain ⟨t', hs'⟩ := hs.skip_closed (a := a) (x := .none) hU hw
  exact ⟨tr, t', hs', hE⟩

theorem Enacts.take_closed (hU : Rx.plain U = true) (he : avoids e U = true) (hu : u ∈ lang U)
    (hs : Enacts s v E) (hgone : after true s .none (u ++ [e]) = .none) :
    Enacts (Rx.seq (Rx.opt (closed a U e)) s) (u ++ e :: v) fun p =>
      events p (acted s true .none u) ++ (p + u.length, a) :: E (p + u.length + 1) := by
  obtain ⟨tr', t', hs, hE⟩ := hs
  obtain ⟨t, hscan⟩ := scans_of_mem_lang hU hu
  rw [after_append, after, after] at hgone
  obtain ⟨t'', htake⟩ := hscan.take_closed (a := a) (z := .none) hU he (notMem_of_avoids he hu) hs hgone
  refine ⟨_, t'', htake, fun p => ?_⟩
  rw [events_append, length_acted]
  show _ ++ ((p + u.length, a) :: events (p + u.length + 1) tr') = _
  rw [hE]

end

/-! ### What a match does -/

section
variable [DecidableEq A] {S : Type} {r : Rx σ A} {m : Bool} {t t' : Marks} {w : List σ} {p : Nat}
  {l : List A} {tr : List (List A)} {f : Nat → A → S → S} {s : S} {stops : A → Bool}
  {E : Nat → List (Nat × A)}

theorem eraseDups_positions : (l.map fun a => (p, a)).eraseDups = l.eraseDups.map fun a => (p, a) := by
  induction hn : l.length using Nat.strongRecOn generalizing l with
  | ind n ih =>
      cases l with
      | nil => rfl
      | cons a l =>
          have hlen : (l.filter fun b => !b == a).length < n := by
            have := List.length_filter_le (fun b => !b == a) l
            rw [List.length_cons] at hn
            omega
          have hfilter : (l.map fun a => (p, a)).filter (fun y => !y == (p, a)) =
              (l.filter fun b => !b == a).map fun a => (p, a) := by
            rw [List.filter_map]
            congr 2
            funext b
            simp
          rw [List.map_cons, List.eraseDups_cons, List.eraseDups_cons, hfilter, ih _ hlen rfl,
            List.map_cons]

/-- The positions keep the actions of different symbols apart. -/
theorem events_eraseDups : events p (tr.map List.eraseDups) = (events p tr).eraseDups := by
  induction tr generalizing p with
  | nil => rfl
  | cons l tr ih =>
      have hapart : (events (p + 1) tr).removeAll (l.map fun a => (p, a)) = events (p + 1) tr := by
        refine List.filter_eq_self.mpr fun y hy => ?_
        rw [Bool.not_eq_true', List.elem_eq_mem, decide_eq_false_iff_not, List.mem_map]
        rintro ⟨a, -, rfl⟩
        have := (lt_of_mem_events hy).1
        omega
      rw [List.map_cons, events, ih, events, List.eraseDups_append, hapart, eraseDups_positions]

theorem play_eq_foldl : play r f p m t w s =
    (events p ((acted r m t w).map List.eraseDups)).foldl (fun s y => f y.1 y.2 s) s := by
  induction w generalizing p m t s with
  | nil => rfl
  | cons c w ih => rw [play, ih, acted, List.map_cons, events, List.foldl_append, List.foldl_map, fired]

theorem Scans.reads (hstops : ∀ a, stops a = false) (h : Scans r m t w tr t') :
    reads r stops m t w = true := by
  induction h with
  | done hl => rfl
  | @read m t c w tr t' hc hw ih =>
      have hall : (fired m r t c).all (fun a => !stops a) = true :=
        List.all_eq_true.mpr fun a _ => by rw [hstops, Bool.not_false]
      have hne : (shift m r t c).isNone = false := by
        rw [← Bool.not_eq_true, Marks.isNone_iff]
        exact hc
      rw [Rx.reads, ih, hall, hne]
      rfl

/-- Where a scan ends that no action stops. -/
theorem exec_at_end {q : Nat} {m' : Bool} {s' : S} (hstops : ∀ a, stops a = false)
    (h : exec r f stops p m t w s = (q, .at m' t', s')) :
    m' = (m && w.isEmpty) ∧ t' = after m r t w := by
  induction w generalizing p m t s with
  | nil =>
      rw [exec, Prod.mk.injEq, Prod.mk.injEq, Cs.at.injEq] at h
      rw [List.isEmpty_nil, Bool.and_true]
      exact ⟨h.2.1.1.symm, h.2.1.2.symm⟩
  | cons c w ih =>
      have hall : (acts m false r t (some c)).eraseDups.all (fun a => !stops a) = true :=
        List.all_eq_true.mpr fun a _ => by rw [hstops, Bool.not_false]
      rw [exec, runActs_of_not_stops hall] at h
      cases hc : (shift m r t c).isNone with
      | true =>
          rw [hc, cond_true, Prod.mk.injEq, Prod.mk.injEq] at h
          cases h.2.1
      | false =>
          rw [hc, cond_false, cond_false] at h
          rw [List.isEmpty_cons, Bool.and_false]
          exact ih h

/-- What a list of actions does. An action runs once at a position. -/
def enact (f : Nat → A → S → S) (l : List (Nat × A)) (s : S) : S :=
  l.eraseDups.foldl (fun s y => f y.1 y.2 s) s

theorem enact_append {l l' : List (Nat × A)} (h : ∀ y ∈ l, y ∉ l') :
    enact f (l ++ l') s = enact f l' (enact f l s) := by
  have hapart : l'.removeAll l = l' := by
    refine List.filter_eq_self.mpr fun y hy => ?_
    rw [Bool.not_eq_true', List.elem_eq_mem, decide_eq_false_iff_not]
    exact fun hl => h y hl hy
  rw [enact, List.eraseDups_append, hapart, List.foldl_append]
  rfl

/-- The second list begins where the first is over. -/
theorem enact_append_of_lt {l l' : List (Nat × A)} {n : Nat} (h : ∀ y ∈ l, y.1 < n)
    (h' : ∀ y ∈ l', n ≤ y.1) : enact f (l ++ l') s = enact f l' (enact f l s) :=
  enact_append fun y hy hy' => absurd (h' y hy') (Nat.not_le_of_lt (h y hy))

/-- An action that has run at the position before. -/
theorem enact_again {l k : List (Nat × A)} {y : Nat × A} (h : y ∈ l) :
    enact f (l ++ y :: k) s = enact f (l ++ k) s := by
  have hdrop : (y :: k).removeAll l = k.removeAll l := by
    refine List.filter_cons_of_neg ?_
    rw [Bool.not_eq_true, Bool.not_eq_false', List.elem_eq_mem, decide_eq_true_eq]
    exact h
  rw [enact, List.eraseDups_append, hdrop, ← List.eraseDups_append]
  rfl

theorem enact_of_nodup {l : List (Nat × A)} (h : l.Nodup) :
    enact f l s = l.foldl (fun s y => f y.1 y.2 s) s := by
  induction l generalizing s with
  | nil => rfl
  | cons y l ih =>
      rw [List.nodup_cons] at h
      rw [← List.singleton_append, enact_append fun z hz => List.mem_singleton.mp hz ▸ h.1, ih h.2]
      rfl

/-- The scan of a match, and the actions of its end. -/
theorem Enacts.exec_eq (h : Enacts r w E) (hstops : ∀ a, stops a = false) :
    ∃ m t s', exec r f stops 0 true .none w s = (w.length, .at m t, s') ∧ live m r t = true ∧
      (acts m true r t none).eraseDups.foldl (fun s a => f w.length a s) s' = enact f (E 0) s := by
  obtain ⟨tr, t, hs, hE⟩ := h
  obtain ⟨hlive, htr⟩ := hs.end_eq
  refine ⟨true && w.isEmpty, t, play r f 0 true .none w s, ?_, hlive, ?_⟩
  · have hexec := exec_of_reads (f := f) (p := 0) (s := s) (v := []) (hs.reads hstops)
    rw [List.append_nil, Nat.zero_add, hs.after_eq] at hexec
    exact hexec
  · rw [enact, ← hE 0, ← events_eraseDups, htr, List.map_append, events_append, List.foldl_append,
      ← play_eq_foldl, List.length_map, length_acted, Nat.zero_add, List.map_singleton, events, events,
      List.append_nil, List.foldl_map]

end

end Rx

end Lib
