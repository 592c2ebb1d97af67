import Sylar.Lib.Scan

/-!
# `Lib.Drive`: a scan as a fold over its actions

The control flow of `exec` depends on the machine and the word only, not on what the actions do.
`reads` says that a word is read to its end, and `completes` that an action ends the scan on the last
symbol of the word and not before. In both cases `exec` is a fold of the actions, `play`.

`play_related` compares two such folds over the same word. The relation may speak of the actions
that are still to come.
-/

set_option autoImplicit false

namespace Lib

namespace Rx

variable {σ A S S' : Type}

section
variable {stops : A → Bool} {f : A → S → S} {s : S} {as : List A}

/-- The last action of the list ends the scan, and no other does. -/
def lastStops (stops : A → Bool) (as : List A) : Bool :=
  as.dropLast.all (fun a => !stops a) && (as.getLast?.map stops).getD false

theorem runActs_of_not_stops (h : as.all (fun a => !stops a) = true) :
    runActs f stops as s = (as.foldl (fun s a => f a s) s, false) := by
  induction as generalizing s with
  | nil => rfl
  | cons a as ih =>
      rw [List.all_cons, Bool.and_eq_true, Bool.not_eq_true'] at h
      rw [runActs, h.1, cond_false, ih h.2, List.foldl_cons]

theorem runActs_of_lastStops (h : lastStops stops as = true) :
    runActs f stops as s = (as.foldl (fun s a => f a s) s, true) := by
  induction as generalizing s with
  | nil => cases h
  | cons a as ih =>
      cases as with
      | nil =>
          have ha : stops a = true := by simpa [lastStops] using h
          rw [runActs, ha, cond_true]
          rfl
      | cons b as =>
          have hcons : stops a = false ∧ lastStops stops (b :: as) = true := by
            simpa [lastStops, and_assoc] using h
          rw [runActs, hcons.1, cond_false, ih hcons.2]
          rfl

theorem foldl_related {f : S → A → S} {g : S' → A → S'} {R : List A → S → S' → Prop} {l : List A}
    (hact : ∀ a ∈ l, ∀ as s s', R (a :: as) s s' → R as (f s a) (g s' a))
    {as : List A} {s' : S'} (h : R (l ++ as) s s') :
    R as (l.foldl f s) (l.foldl g s') := by
  induction l generalizing s s' with
  | nil => exact h
  | cons a l ih =>
      exact ih (fun b hb => hact b (List.mem_cons_of_mem _ hb)) (hact a (List.mem_cons_self ..) _ _ _ h)

end

variable [DecidableEq A]

/-- The actions on one symbol. -/
def fired (m : Bool) (r : Rx σ A) (t : Marks) (c : σ) : List A :=
  (acts m false r t (some c)).eraseDups

/-- The actions on a word. -/
def emits (r : Rx σ A) : Bool → Marks → List σ → List A
  | _, _, [] => []
  | m, t, c :: w => fired m r t c ++ emits r false (shift m r t c) w

/-- The word is read to its end. -/
def reads (r : Rx σ A) (stops : A → Bool) : Bool → Marks → List σ → Bool
  | _, _, [] => true
  | m, t, c :: w =>
    !(shift m r t c).isNone && (fired m r t c).all (fun a => !stops a) &&
      reads r stops false (shift m r t c) w

/-- The word is read, and the scan ends with its last symbol. -/
def completes (r : Rx σ A) (stops : A → Bool) : Bool → Marks → List σ → Bool
  | _, _, [] => false
  | m, t, [c] => !(shift m r t c).isNone && lastStops stops (fired m r t c)
  | m, t, c :: c' :: w =>
    !(shift m r t c).isNone && (fired m r t c).all (fun a => !stops a) &&
      completes r stops false (shift m r t c) (c' :: w)

/-- The actions on a word, carried out. -/
def play (r : Rx σ A) (act : Nat → A → S → S) : Nat → Bool → Marks → List σ → S → S
  | _, _, _, [], st => st
  | p, m, t, c :: w, st =>
    play r act (p + 1) false (shift m r t c) w
      ((fired m r t c).foldl (fun st a => act p a st) st)

section
variable {r : Rx σ A} {stops : A → Bool} {f : Nat → A → S → S} {m : Bool} {t : Marks}
  {u v w : List σ} {p : Nat} {s : S}

theorem reads_append :
    reads r stops m t (u ++ v) =
      (reads r stops m t u && reads r stops (m && u.isEmpty) (after m r t u) v) := by
  induction u generalizing m t with
  | nil => rw [List.isEmpty_nil, Bool.and_true]; rfl
  | cons c u ih =>
      rw [List.cons_append, reads, ih, reads, after, List.isEmpty_cons, Bool.and_false,
        Bool.false_and, Bool.and_assoc, Bool.and_assoc, Bool.and_assoc]

/-- No action on a word that is read ends the scan. -/
theorem not_stops_of_reads {c : σ} {a : A} (h : reads r stops m t (u ++ c :: v) = true)
    (ha : a ∈ fired (m && u.isEmpty) r (after m r t u) c) : stops a = false := by
  rw [reads_append, reads, Bool.and_eq_true, Bool.and_eq_true, Bool.and_eq_true] at h
  exact Bool.not_eq_true' _ |>.mp (List.all_eq_true.mp h.2.1.2 a ha)

theorem completes_append (hv : v ≠ []) :
    completes r stops m t (u ++ v) =
      (reads r stops m t u && completes r stops (m && u.isEmpty) (after m r t u) v) := by
  induction u generalizing m t with
  | nil => rw [List.isEmpty_nil, Bool.and_true]; rfl
  | cons c u ih =>
      obtain ⟨d, x, hx⟩ : ∃ d x, u ++ v = d :: x := by
        cases u with
        | nil => exact List.exists_cons_of_ne_nil hv
        | cons d u => exact ⟨d, u ++ v, rfl⟩
      rw [List.cons_append, hx, completes, ← hx, ih, reads, after, List.isEmpty_cons,
        Bool.and_false, Bool.false_and, Bool.and_assoc, Bool.and_assoc, Bool.and_assoc]

/-- A word that is read to its end hands over to what follows it. -/
theorem exec_of_reads (h : reads r stops m t w = true) :
    exec r f stops p m t (w ++ v) s =
      exec r f stops (p + w.length) (m && w.isEmpty) (after m r t w) v
        (play r f p m t w s) := by
  induction w generalizing p m t s with
  | nil => rw [List.isEmpty_nil, Bool.and_true]; rfl
  | cons c w ih =>
      rw [reads, Bool.and_eq_true, Bool.and_eq_true, Bool.not_eq_true'] at h
      obtain ⟨⟨hc, hs⟩, hw⟩ := h
      have hrun := runActs_of_not_stops (f := f p) (s := s) hs
      rw [fired] at hrun
      rw [List.cons_append, exec, hc, cond_false, hrun, cond_false, ih hw, List.length_cons,
        List.isEmpty_cons, Bool.and_false, Bool.false_and, after, play, fired, Nat.add_assoc,
        Nat.add_comm 1]

/-- A word that completes a scan leaves what follows it alone. -/
theorem exec_of_completes (h : completes r stops m t w = true) :
    exec r f stops p m t (w ++ v) s =
      (p + w.length, .at false (after m r t w), play r f p m t w s) := by
  induction w generalizing p m t s with
  | nil => cases h
  | cons c w ih =>
      cases w with
      | nil =>
          rw [completes, Bool.and_eq_true, Bool.not_eq_true'] at h
          have hrun := runActs_of_lastStops (f := f p) (s := s) h.2
          rw [fired] at hrun
          rw [List.cons_append, exec, h.1, cond_false, hrun, cond_true]
          rfl
      | cons d w =>
          rw [completes, Bool.and_eq_true, Bool.and_eq_true, Bool.not_eq_true'] at h
          obtain ⟨⟨hc, hs⟩, hw⟩ := h
          have hrun := runActs_of_not_stops (f := f p) (s := s) hs
          rw [fired] at hrun
          rw [List.cons_append, exec, hc, cond_false, hrun, cond_false, ih hw, Nat.add_assoc,
            Nat.add_comm 1]
          rfl

/-- A word is read to its end and the symbol behind it is refused. -/
theorem exec_of_refused {c : σ} (h : reads r stops m t w = true)
    (hc : (shift (m && w.isEmpty) r (after m r t w) c).isNone = true) :
    exec r f stops p m t (w ++ c :: v) s = (p + w.length, .error, play r f p m t w s) := by
  rw [exec_of_reads h, exec, hc, cond_true]

theorem play_append : play r f p m t (u ++ v) s =
    play r f (p + u.length) (m && u.isEmpty) (after m r t u) v (play r f p m t u s) := by
  induction u generalizing p m t s with
  | nil => rw [List.isEmpty_nil, Bool.and_true]; rfl
  | cons c u ih =>
      rw [List.cons_append, play, ih, List.isEmpty_cons, Bool.and_false, Bool.false_and, after, play,
        List.length_cons, Nat.add_assoc, Nat.add_comm 1]

theorem emits_append :
    emits r m t (u ++ v) = emits r m t u ++ emits r (m && u.isEmpty) (after m r t u) v := by
  induction u generalizing m t with
  | nil => rw [List.isEmpty_nil, Bool.and_true]; rfl
  | cons c u ih =>
      rw [List.cons_append, emits, ih, List.isEmpty_cons, Bool.and_false, Bool.false_and, after,
        emits, List.append_assoc]

/-- What each action keeps, the whole scan keeps. -/
theorem play_invariant {P : S → Prop} (hact : ∀ p a s, P s → P (f p a s)) (h : P s) :
    P (play r f p m t w s) := by
  induction w generalizing p m t s with
  | nil => exact h
  | cons c w ih =>
      refine ih ?_
      generalize fired m r t c = l
      induction l generalizing s with
      | nil => exact h
      | cons a l ihl => exact ihl (hact p a s h)

/-- The same for a scan that may end before the word does, with a fact that may speak of the
position. The scan ends within the word. -/
theorem exec_keeps {P : Nat → S → Prop}
    (hact : ∀ q a s, q < p + w.length → P q s → P q (f q a s))
    (hnext : ∀ q s, P q s → P (q + 1) s) (h : P p s) :
    (exec r f stops p m t w s).1 ≤ p + w.length ∧
      P (exec r f stops p m t w s).1 (exec r f stops p m t w s).2.2 := by
  induction w generalizing p m t s with
  | nil => exact ⟨Nat.le_refl p, h⟩
  | cons c w ih =>
      have hlt : p < p + (c :: w).length := Nat.lt_add_of_pos_right (Nat.succ_pos _)
      have hruns : ∀ {as s}, P p s → P p (runActs (f p) stops as s).1 := by
        intro as
        induction as with
        | nil => exact fun hs => hs
        | cons a as ih =>
            intro s hs
            rw [runActs]
            cases stops a with
            | true => exact hact p a s hlt hs
            | false => exact ih (hact p a s hlt hs)
      rw [exec]
      cases (shift m r t c).isNone with
      | true => exact ⟨Nat.le_of_lt hlt, h⟩
      | false =>
          have hrun : P p (runActs (f p) stops (acts m false r t (some c)).eraseDups s).1 := hruns h
          generalize runActs (f p) stops (acts m false r t (some c)).eraseDups s = res at hrun ⊢
          obtain ⟨s', stop⟩ := res
          rw [List.length_cons, Nat.add_comm w.length 1, ← Nat.add_assoc] at hact ⊢
          cases stop with
          | true => exact ⟨Nat.le_add_right .., hnext p s' hrun⟩
          | false => exact ih hact (hnext p s' hrun)

/-- A scan that ends outside the error state has read the beginning of the word. -/
theorem exec_at {q : Nat} {m' : Bool} {t' : Marks} {s' : S}
    (h : exec r f stops p m t w s = (q, .at m' t', s')) :
    ∃ u v, w = u ++ v ∧ m' = (m && u.isEmpty) ∧ t' = after m r t u ∧ q = p + u.length := by
  induction w generalizing p m t s with
  | nil =>
      rw [exec, Prod.mk.injEq, Prod.mk.injEq, Cs.at.injEq] at h
      obtain ⟨rfl, ⟨rfl, rfl⟩, -⟩ := h
      exact ⟨[], [], rfl, by rw [List.isEmpty_nil, Bool.and_true], rfl, rfl⟩
  | cons c w ih =>
      rw [exec] at h
      cases hc : (shift m r t c).isNone with
      | true =>
          rw [hc, cond_true, Prod.mk.injEq, Prod.mk.injEq] at h
          cases h.2.1
      | false =>
          rw [hc, cond_false] at h
          generalize runActs (f p) stops (acts m false r t (some c)).eraseDups s = res at h
          obtain ⟨s₁, stop⟩ := res
          cases stop with
          | true =>
              change (p + 1, Cs.at false (shift m r t c), s₁) = _ at h
              rw [Prod.mk.injEq, Prod.mk.injEq, Cs.at.injEq] at h
              obtain ⟨rfl, ⟨rfl, rfl⟩, -⟩ := h
              exact ⟨[c], w, rfl, by rw [List.isEmpty_cons, Bool.and_false], rfl, rfl⟩
          | false =>
              obtain ⟨u, v, rfl, hm, ht, hq⟩ := ih h
              refine ⟨c :: u, v, rfl, ?_, ht, ?_⟩
              · rw [hm, List.isEmpty_cons, Bool.and_false, Bool.false_and]
              · rw [hq, List.length_cons]
                omega

/-- Where an action may fall on a word that is read from the position `p`. -/
def Places (r : Rx σ A) (F : Nat → A → Prop) : Nat → Bool → Marks → List σ → Prop
  | _, _, _, [] => True
  | p, m, t, c :: w =>
    (∀ a ∈ fired m r t c, F p a) ∧ Places r F (p + 1) false (shift m r t c) w

theorem places_of_forall {F : Nat → A → Prop}
    (h : ∀ u c v, w = u ++ c :: v → ∀ a ∈ fired (m && u.isEmpty) r (after m r t u) c,
      F (p + u.length) a) : Places r F p m t w := by
  induction w generalizing p m t with
  | nil => trivial
  | cons c w ih =>
      refine ⟨fun a ha => h [] c w rfl a (by rwa [List.isEmpty_nil, Bool.and_true]), ?_⟩
      refine ih fun u d v hw a ha => ?_
      have hF := h (c :: u) d v (by rw [hw, List.cons_append]) a
        (by rwa [List.isEmpty_cons, Bool.and_false])
      rwa [List.length_cons, Nat.add_comm u.length 1, ← Nat.add_assoc] at hF

/-- What each action keeps where it may fall, the whole scan keeps. -/
theorem play_of_places {F : Nat → A → Prop} {P : S → Prop}
    (hact : ∀ q a s, F q a → P s → P (f q a s)) (hF : Places r F p m t w) (h : P s) :
    P (play r f p m t w s) := by
  induction w generalizing p m t s with
  | nil => exact h
  | cons c w ih =>
      refine ih hF.2 ?_
      have hfired := hF.1
      generalize fired m r t c = l at hfired
      induction l generalizing s with
      | nil => exact h
      | cons a l ihl =>
          exact ihl (hact p a s (hfired a (List.mem_cons_self ..)) h)
            fun b hb => hfired b (List.mem_cons_of_mem _ hb)

/-- Two folds over the same word. The relation is kept by each action, and it may use that the
actions of its list are still to come. -/
theorem play_related {g : Nat → A → S' → S'} {F : Nat → A → Prop}
    {R : Nat → Nat → List A → S → S' → Prop}
    (hact : ∀ p q a as s s', F p a → R p q (a :: as) s s' →
      R p q as (f p a s) (g q a s'))
    (hnext : ∀ p q as s s', R p q as s s' → R (p + 1) (q + 1) as s s')
    {q : Nat} {l : List A} {s' : S'} (hF : Places r F p m t w)
    (h : R p q (emits r m t w ++ l) s s') :
    R (p + w.length) (q + w.length) l (play r f p m t w s) (play r g q m t w s') := by
  induction w generalizing p q m t s s' with
  | nil => exact h
  | cons c w ih =>
      rw [emits, List.append_assoc] at h
      have hfold := foldl_related (fun a ha as s s' => hact p q a as s s' (hF.1 a ha)) h
      have hrest := ih hF.2 (hnext p q _ _ _ hfold)
      rw [List.length_cons, Nat.add_comm w.length 1, ← Nat.add_assoc, ← Nat.add_assoc]
      exact hrest

end

end Rx

end Lib
