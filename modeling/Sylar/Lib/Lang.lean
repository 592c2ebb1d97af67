import Sylar.Lib.Scan

/-!
# `Lib.Lang`: the words that an expression accepts

`lang r` is the language of an expression, where `guarded r s` counts as a plain sequence. `rest r t`
are the words that complete a match from the marks `t`. One symbol takes `rest` to its derivative.

A machine accepts words of its language only (`mem_lang_of_live`). Without `guarded` it accepts all
of them, and it reads them without an error (`scans_of_mem_lang`).
-/

set_option autoImplicit false

namespace Lib

namespace Rx

open Computability

variable {σ A : Type}

/-- The words that match. -/
def lang : Rx σ A → Language σ
  | eps => 1
  | sym p => {w | ∃ c, p c = true ∧ w = [c]}
  | seq r s => lang r * lang s
  | guarded r s => lang r * lang s
  | alt r s => lang r + lang s
  | star r => (lang r)∗
  | enter _ r => lang r
  | leave _ r => lang r
  | finish _ r => lang r

/-- The words that complete a match under way. -/
def rest : Rx σ A → Marks → Language σ
  | eps, _ => 0
  | sym _, t => {w | t = .leaf ∧ w = []}
  | seq r s, t => rest r t.left * lang s + rest s t.right
  | guarded r s, t => rest r t.left * lang s + rest s t.right
  | alt r s, t => rest r t.left + rest s t.right
  | star r, t => rest r t * (lang r)∗
  | enter _ r, t => rest r t
  | leave _ r, t => rest r t
  | finish _ r, t => rest r t

section
variable {r s : Rx σ A} {m : Bool} {t : Marks} {u v w : List σ} {c : σ} {p : σ → Bool}

theorem mem_lang_sym : w ∈ lang (sym p : Rx σ A) ↔ ∃ c, p c = true ∧ w = [c] := Iff.rfl

theorem mem_lang_seq : w ∈ lang (seq r s) ↔ ∃ u ∈ lang r, ∃ v ∈ lang s, u ++ v = w :=
  Language.mem_mul

theorem mem_lang_alt : w ∈ lang (alt r s) ↔ w ∈ lang r ∨ w ∈ lang s := Iff.rfl

theorem mem_lang_word [BEq σ] [LawfulBEq σ] : w ∈ lang (word u : Rx σ A) ↔ w = u := by
  have hsym : ∀ c : σ, ∀ x, x ∈ lang (sym (· == c) : Rx σ A) ↔ x = [c] := by
    intro c x
    rw [mem_lang_sym]
    refine ⟨?_, fun h => ⟨c, beq_self_eq_true c, h⟩⟩
    rintro ⟨d, hd, rfl⟩
    rw [beq_iff_eq.mp hd]
  induction u generalizing w with
  | nil => exact Iff.rfl
  | cons c u ih =>
      cases u with
      | nil => exact hsym c w
      | cons d u =>
          show w ∈ lang (seq (sym (· == c)) (word (d :: u))) ↔ _
          rw [mem_lang_seq]
          constructor
          · rintro ⟨x, hx, y, hy, rfl⟩
            rw [(hsym c x).mp hx, ih.mp hy, List.singleton_append]
          · rintro rfl
            exact ⟨[c], (hsym c [c]).mpr rfl, d :: u, ih.mpr rfl, rfl⟩

theorem nil_mem_mul {L M : Language σ} : [] ∈ L * M ↔ [] ∈ L ∧ [] ∈ M := by
  rw [Language.mem_mul]
  constructor
  · rintro ⟨u, hu, v, hv, huv⟩
    obtain ⟨rfl, rfl⟩ := List.append_eq_nil_iff.mp huv
    exact ⟨hu, hv⟩
  · rintro ⟨hu, hv⟩
    exact ⟨[], hu, [], hv, rfl⟩

theorem cons_mem_mul {L M : Language σ} :
    c :: w ∈ L * M ↔ [] ∈ L ∧ c :: w ∈ M ∨ ∃ u, c :: u ∈ L ∧ ∃ v ∈ M, u ++ v = w := by
  rw [Language.mem_mul]
  constructor
  · rintro ⟨u, hu, v, hv, huv⟩
    rcases List.append_eq_cons_iff.mp huv with ⟨rfl, rfl⟩ | ⟨u, rfl, rfl⟩
    · exact Or.inl ⟨hu, hv⟩
    · exact Or.inr ⟨u, hu, v, hv, rfl⟩
  · rintro (⟨hu, hv⟩ | ⟨u, hu, v, hv, rfl⟩)
    · exact ⟨[], hu, c :: w, hv, rfl⟩
    · exact ⟨c :: u, hu, v, hv, rfl⟩

/-- A non-empty word of a star begins with a non-empty match. -/
theorem cons_mem_kstar {L : Language σ} :
    c :: w ∈ L∗ ↔ ∃ u, c :: u ∈ L ∧ ∃ v ∈ L∗, u ++ v = w := by
  constructor
  · intro h
    rw [Language.kstar_def_nonempty] at h
    obtain ⟨S, hS, hall⟩ := h
    cases S with
    | nil => cases hS
    | cons x S =>
        have hx := hall x (List.mem_cons_self ..)
        obtain ⟨d, u, rfl⟩ := List.exists_cons_of_ne_nil hx.2
        rw [List.flatten_cons, List.cons_append, List.cons.injEq] at hS
        obtain ⟨rfl, rfl⟩ := hS
        refine ⟨u, hx.1, S.flatten, ?_, rfl⟩
        exact Language.mem_kstar.mpr
          ⟨S, rfl, fun y hy => (hall y (List.mem_cons_of_mem _ hy)).1⟩
  · rintro ⟨u, hu, v, hv, rfl⟩
    rw [← Language.one_add_self_mul_kstar_eq_kstar]
    exact Or.inr (Language.mem_mul.mpr ⟨c :: u, hu, v, hv, rfl⟩)

theorem nil_mem_lang : [] ∈ lang r ↔ nullable r = true := by
  induction r with
  | eps => exact iff_of_true rfl rfl
  | sym p => exact iff_of_false (by rintro ⟨c, -, h⟩; cases h) (by simp [nullable])
  | seq r s ihr ihs => rw [lang, nil_mem_mul, ihr, ihs, nullable, Bool.and_eq_true]
  | guarded r s ihr ihs => rw [lang, nil_mem_mul, ihr, ihs, nullable, Bool.and_eq_true]
  | alt r s ihr ihs => rw [mem_lang_alt, ihr, ihs, nullable, Bool.or_eq_true]
  | star r ih => exact iff_of_true (Language.nil_mem_kstar _) rfl
  | enter a r ih => exact ih
  | leave a r ih => exact ih
  | finish a r ih => exact ih

theorem nil_mem_rest : [] ∈ rest r t ↔ final r t = true := by
  induction r generalizing t with
  | eps => exact iff_of_false id (by simp [final])
  | sym p =>
      cases t with
      | leaf => exact iff_of_true ⟨rfl, rfl⟩ rfl
      | none => exact iff_of_false (by rintro ⟨h, -⟩; cases h) (by simp [final, Marks.isLeaf])
      | node l r => exact iff_of_false (by rintro ⟨h, -⟩; cases h) (by simp [final, Marks.isLeaf])
  | seq r s ihr ihs =>
      rw [rest, Language.mem_add, nil_mem_mul, ihr, ihs, nil_mem_lang, final_seq,
        Bool.or_eq_true, Bool.and_eq_true]
  | guarded r s ihr ihs =>
      rw [rest, Language.mem_add, nil_mem_mul, ihr, ihs, nil_mem_lang, final_guarded,
        Bool.or_eq_true, Bool.and_eq_true]
  | alt r s ihr ihs =>
      rw [rest, Language.mem_add, ihr, ihs, final_alt, Bool.or_eq_true]
  | star r ih =>
      rw [rest, nil_mem_mul, ih]
      exact and_iff_left (Language.nil_mem_kstar _)
  | enter a r ih => exact ih
  | leave a r ih => exact ih
  | finish a r ih => exact ih

theorem rest_none (r : Rx σ A) : rest r .none = 0 := by
  induction r with
  | eps => rfl
  | sym p =>
      refine Set.eq_empty_of_forall_notMem ?_
      rintro w ⟨h, -⟩
      cases h
  | seq r s ihr ihs => rw [rest, Marks.left_none, Marks.right_none, ihr, ihs, zero_mul, add_zero]
  | guarded r s ihr ihs =>
      rw [rest, Marks.left_none, Marks.right_none, ihr, ihs, zero_mul, add_zero]
  | alt r s ihr ihs => rw [rest, Marks.left_none, Marks.right_none, ihr, ihs, add_zero]
  | star r ih => rw [rest, ih, zero_mul]
  | enter a r ih => exact ih
  | leave a r ih => exact ih
  | finish a r ih => exact ih

/-- A match can end here: the empty word completes it. -/
theorem live_iff : live m r t = true ↔ m = true ∧ [] ∈ lang r ∨ [] ∈ rest r t := by
  rw [live, Bool.or_eq_true, Bool.and_eq_true, nil_mem_lang, nil_mem_rest]

/-! ### Soundness -/

/-- What completes a match after a symbol completed it before, with the symbol in front. -/
theorem mem_rest_of_shift (h : w ∈ rest r (shift m r t c)) :
    m = true ∧ c :: w ∈ lang r ∨ c :: w ∈ rest r t := by
  induction r generalizing m t w with
  | eps => cases h
  | sym p =>
      obtain ⟨hleaf, rfl⟩ := h
      rw [shift] at hleaf
      cases hm : m && p c with
      | false =>
          rw [hm] at hleaf
          cases hleaf
      | true =>
          rw [Bool.and_eq_true] at hm
          exact Or.inl ⟨hm.1, c, hm.2, rfl⟩
  | seq r s ihr ihs =>
      rw [shift_seq, rest, Marks.left_join, Marks.right_join, Language.mem_add] at h
      rw [lang, rest, Language.mem_add, cons_mem_mul, cons_mem_mul]
      rcases h with h | h
      · obtain ⟨u, hu, v, hv, rfl⟩ := Language.mem_mul.mp h
        rcases ihr hu with ⟨hm, hu⟩ | hu
        · exact Or.inl ⟨hm, Or.inr ⟨u, hu, v, hv, rfl⟩⟩
        · exact Or.inr (Or.inl (Or.inr ⟨u, hu, v, hv, rfl⟩))
      · rcases ihs h with ⟨hl, hw⟩ | hw
        · rcases live_iff.mp hl with ⟨hm, hn⟩ | hn
          · exact Or.inl ⟨hm, Or.inl ⟨hn, hw⟩⟩
          · exact Or.inr (Or.inl (Or.inl ⟨hn, hw⟩))
        · exact Or.inr (Or.inr hw)
  | guarded r s ihr ihs =>
      rw [shift_guarded, rest, Marks.left_join, Marks.right_join, Language.mem_add] at h
      rw [lang, rest, Language.mem_add, cons_mem_mul, cons_mem_mul]
      rcases h with h | h
      · obtain ⟨u, hu, v, hv, rfl⟩ := Language.mem_mul.mp h
        -- What gives way to `s` has no marks left.
        cases hg : live m r t.left && first s c with
        | true =>
            rw [hg, cond_true, rest_none] at hu
            cases hu
        | false =>
            rw [hg, cond_false] at hu
            rcases ihr hu with ⟨hm, hu⟩ | hu
            · exact Or.inl ⟨hm, Or.inr ⟨u, hu, v, hv, rfl⟩⟩
            · exact Or.inr (Or.inl (Or.inr ⟨u, hu, v, hv, rfl⟩))
      · rcases ihs h with ⟨hl, hw⟩ | hw
        · rcases live_iff.mp hl with ⟨hm, hn⟩ | hn
          · exact Or.inl ⟨hm, Or.inl ⟨hn, hw⟩⟩
          · exact Or.inr (Or.inl (Or.inl ⟨hn, hw⟩))
        · exact Or.inr (Or.inr hw)
  | alt r s ihr ihs =>
      rw [shift_alt, rest, Marks.left_join, Marks.right_join, Language.mem_add] at h
      rw [mem_lang_alt, rest, Language.mem_add]
      rcases h with h | h
      · rcases ihr h with ⟨hm, hw⟩ | hw
        · exact Or.inl ⟨hm, Or.inl hw⟩
        · exact Or.inr (Or.inl hw)
      · rcases ihs h with ⟨hm, hw⟩ | hw
        · exact Or.inl ⟨hm, Or.inr hw⟩
        · exact Or.inr (Or.inr hw)
  | star r ih =>
      rw [shift, rest] at h
      obtain ⟨u, hu, v, hv, rfl⟩ := Language.mem_mul.mp h
      rw [rest, lang, cons_mem_mul, cons_mem_kstar]
      rcases ih hu with ⟨hm, hu⟩ | hu
      · rcases Bool.or_eq_true _ _ |>.mp hm with hm | hf
        · exact Or.inl ⟨hm, u, hu, v, hv, rfl⟩
        · exact Or.inr (Or.inl ⟨nil_mem_rest.mpr hf, u, hu, v, hv, rfl⟩)
      · exact Or.inr (Or.inr ⟨u, hu, v, hv, rfl⟩)
  | enter a r ih => exact ih h
  | leave a r ih => exact ih h
  | finish a r ih => exact ih h

theorem mem_rest_of_after (h : v ∈ rest r (after m r t w)) :
    m = true ∧ w ≠ [] ∧ w ++ v ∈ lang r ∨ w ++ v ∈ rest r t := by
  induction w generalizing m t with
  | nil => exact Or.inr h
  | cons c w ih =>
      rcases ih h with ⟨hm, -, -⟩ | hw
      · cases hm
      · rcases mem_rest_of_shift hw with ⟨hm, hw⟩ | hw
        · exact Or.inl ⟨hm, List.cons_ne_nil _ _, hw⟩
        · exact Or.inr hw

/-- A machine accepts words of its language only. -/
theorem mem_lang_of_live (h : live w.isEmpty r (after true r .none w) = true) : w ∈ lang r := by
  rcases live_iff.mp h with ⟨he, hn⟩ | hf
  · rw [List.isEmpty_iff.mp he]
    exact hn
  · rcases mem_rest_of_after hf with ⟨-, -, hw⟩ | hw
    · rwa [List.append_nil] at hw
    · rw [rest_none] at hw
      cases hw

/-- A symbol of no class is in no word. -/
theorem notMem_of_avoids (h : avoids c r = true) (hw : w ∈ lang r) : c ∉ w := by
  induction r generalizing w with
  | eps =>
      rw [show w = [] from hw]
      exact List.not_mem_nil
  | sym p =>
      obtain ⟨d, hd, rfl⟩ := hw
      rw [List.mem_singleton]
      rintro rfl
      rw [avoids, hd] at h
      cases h
  | seq r s ihr ihs =>
      rw [avoids, Bool.and_eq_true] at h
      obtain ⟨u, hu, v, hv, rfl⟩ := Language.mem_mul.mp hw
      rw [List.mem_append]
      rintro (hc | hc)
      · exact ihr h.1 hu hc
      · exact ihs h.2 hv hc
  | guarded r s ihr ihs =>
      rw [avoids, Bool.and_eq_true] at h
      obtain ⟨u, hu, v, hv, rfl⟩ := Language.mem_mul.mp hw
      rw [List.mem_append]
      rintro (hc | hc)
      · exact ihr h.1 hu hc
      · exact ihs h.2 hv hc
  | alt r s ihr ihs =>
      rw [avoids, Bool.and_eq_true] at h
      rcases hw with hw | hw
      · exact ihr h.1 hw
      · exact ihs h.2 hw
  | star r ih =>
      obtain ⟨S, rfl, hall⟩ := Language.mem_kstar.mp hw
      rw [List.mem_flatten]
      rintro ⟨y, hy, hc⟩
      exact ih h (hall y hy) hc
  | enter a r ih => exact ih h hw
  | leave a r ih => exact ih h hw
  | finish a r ih => exact ih h hw

theorem first_of_mem_lang (h : c :: w ∈ lang r) : first r c = true := by
  induction r generalizing w with
  | eps => cases h
  | sym p =>
      obtain ⟨d, hd, hw⟩ := h
      rw [(List.cons.inj hw).1]
      exact hd
  | seq r s ihr ihs =>
      rw [first, Bool.or_eq_true, Bool.and_eq_true]
      rcases cons_mem_mul.mp h with ⟨hn, hs⟩ | ⟨u, hu, -⟩
      · exact Or.inr ⟨nil_mem_lang.mp hn, ihs hs⟩
      · exact Or.inl (ihr hu)
  | guarded r s ihr ihs =>
      rw [first, Bool.or_eq_true, Bool.and_eq_true]
      rcases cons_mem_mul.mp h with ⟨hn, hs⟩ | ⟨u, hu, -⟩
      · exact Or.inr ⟨nil_mem_lang.mp hn, ihs hs⟩
      · exact Or.inl (ihr hu)
  | alt r s ihr ihs =>
      rw [first, Bool.or_eq_true]
      exact h.imp ihr ihs
  | star r ih =>
      obtain ⟨u, hu, -⟩ := cons_mem_kstar.mp h
      exact ih hu
  | enter a r ih => exact ih h
  | leave a r ih => exact ih h
  | finish a r ih => exact ih h

theorem append_mem_lang_star (hu : u ∈ lang r) (hv : v ∈ lang (star r)) : u ++ v ∈ lang (star r) := by
  have h : u ++ v ∈ lang r * (lang r)∗ := Language.mem_mul.mpr ⟨u, hu, v, hv, rfl⟩
  show u ++ v ∈ (lang r)∗
  rw [← Language.one_add_self_mul_kstar_eq_kstar]
  exact Or.inr h

theorem mem_lang_star_sym : w ∈ lang (star (sym p) : Rx σ A) ↔ ∀ c ∈ w, p c = true := by
  induction w with
  | nil => exact iff_of_true (Language.nil_mem_kstar _) fun c h => nomatch h
  | cons c w ih =>
      rw [List.forall_mem_cons, ← ih]
      constructor
      · intro h
        obtain ⟨u, ⟨d, hd, hu⟩, v, hv, rfl⟩ := cons_mem_kstar.mp h
        obtain ⟨rfl, rfl⟩ := List.cons.inj hu
        exact ⟨hd, hv⟩
      · rintro ⟨hc, hw⟩
        exact append_mem_lang_star (u := [c]) ⟨c, hc, rfl⟩ hw

theorem mem_lang_opt : w ∈ lang (opt r) ↔ w ∈ lang r ∨ w = [] := Iff.rfl

/-- The words of a class, up to a length. -/
theorem mem_lang_upTo {n : Nat} (hlen : w.length ≤ n) (hw : ∀ c ∈ w, p c = true) :
    w ∈ lang (upTo n (sym p) : Rx σ A) := by
  induction n generalizing w with
  | zero => exact List.length_eq_zero_iff.mp (Nat.le_zero.mp hlen)
  | succ n ih =>
      rw [upTo, mem_lang_opt]
      cases w with
      | nil => exact Or.inr rfl
      | cons c w =>
          refine Or.inl (mem_lang_seq.mpr ⟨[c], ?_, w, ?_, rfl⟩)
          · exact ⟨c, hw c (List.mem_cons_self ..), rfl⟩
          · exact ih (Nat.le_of_succ_le_succ hlen) fun d hd => hw d (List.mem_cons_of_mem _ hd)

/-! ### Expressions without actions -/

/-- No actions and no `guarded`. -/
def plain : Rx σ A → Bool
  | eps => true
  | sym _ => true
  | seq r s => plain r && plain s
  | alt r s => plain r && plain s
  | star r => plain r
  | _ => false

theorem acts_plain {o : Bool} {x : Option σ} (h : plain r = true) : acts m o r t x = [] := by
  induction r generalizing m o t with
  | eps => rfl
  | sym p => rfl
  | seq r s ihr ihs =>
      rw [plain, Bool.and_eq_true] at h
      rw [acts_seq, ihr h.1, ihs h.2, List.append_nil]
  | alt r s ihr ihs =>
      rw [plain, Bool.and_eq_true] at h
      rw [acts_alt, ihr h.1, ihs h.2, List.append_nil]
  | star r ih =>
      rw [acts]
      exact ih h
  | guarded r s _ _ => cases h
  | enter a r _ => cases h
  | leave a r _ => cases h
  | finish a r _ => cases h

/-- The converse of `mem_rest_of_shift`. -/
theorem mem_rest_shift (hp : plain r = true)
    (h : m = true ∧ c :: w ∈ lang r ∨ c :: w ∈ rest r t) : w ∈ rest r (shift m r t c) := by
  induction r generalizing m t w with
  | eps =>
      rcases h with ⟨-, h⟩ | h
      · cases h
      · cases h
  | sym p =>
      rcases h with ⟨rfl, d, hd, heq⟩ | ⟨-, heq⟩
      · obtain ⟨rfl, rfl⟩ := List.cons.inj heq
        exact ⟨by rw [shift, hd]; rfl, rfl⟩
      · cases heq
  | seq r s ihr ihs =>
      rw [plain, Bool.and_eq_true] at hp
      rw [shift_seq, rest, Marks.left_join, Marks.right_join, Language.mem_add]
      rw [lang, rest, Language.mem_add, cons_mem_mul, cons_mem_mul] at h
      rcases h with ⟨hm, ⟨hn, hw⟩ | ⟨u, hu, v, hv, rfl⟩⟩ | (⟨hn, hw⟩ | ⟨u, hu, v, hv, rfl⟩) | hw
      · exact Or.inr (ihs hp.2 (Or.inl ⟨live_iff.mpr (Or.inl ⟨hm, hn⟩), hw⟩))
      · exact Or.inl (Language.mem_mul.mpr ⟨u, ihr hp.1 (Or.inl ⟨hm, hu⟩), v, hv, rfl⟩)
      · exact Or.inr (ihs hp.2 (Or.inl ⟨live_iff.mpr (Or.inr hn), hw⟩))
      · exact Or.inl (Language.mem_mul.mpr ⟨u, ihr hp.1 (Or.inr hu), v, hv, rfl⟩)
      · exact Or.inr (ihs hp.2 (Or.inr hw))
  | alt r s ihr ihs =>
      rw [plain, Bool.and_eq_true] at hp
      rw [shift_alt, rest, Marks.left_join, Marks.right_join, Language.mem_add]
      rw [mem_lang_alt, rest, Language.mem_add] at h
      rcases h with ⟨hm, hw | hw⟩ | hw | hw
      · exact Or.inl (ihr hp.1 (Or.inl ⟨hm, hw⟩))
      · exact Or.inr (ihs hp.2 (Or.inl ⟨hm, hw⟩))
      · exact Or.inl (ihr hp.1 (Or.inr hw))
      · exact Or.inr (ihs hp.2 (Or.inr hw))
  | star r ih =>
      rw [lang, rest, cons_mem_mul, cons_mem_kstar] at h
      rw [shift, rest]
      -- In each case one match of the star is under way and the rest of the star follows it.
      rcases h with ⟨hm, u, hu, v, hv, rfl⟩ | ⟨hn, u, hu, v, hv, rfl⟩ | ⟨u, hu, v, hv, rfl⟩
      · refine Language.mem_mul.mpr ⟨u, ih hp (Or.inl ⟨?_, hu⟩), v, hv, rfl⟩
        rw [hm, Bool.true_or]
      · refine Language.mem_mul.mpr ⟨u, ih hp (Or.inl ⟨?_, hu⟩), v, hv, rfl⟩
        rw [nil_mem_rest.mp hn, Bool.or_true]
      · exact Language.mem_mul.mpr ⟨u, ih hp (Or.inr hu), v, hv, rfl⟩
  | guarded r s _ _ => cases hp
  | enter a r _ => cases hp
  | leave a r _ => cases hp
  | finish a r _ => cases hp

theorem scans_of_mem_rest (hp : plain r = true)
    (h : m = true ∧ w ∈ lang r ∨ w ∈ rest r t) :
    ∃ t', Scans r m t w (List.replicate (w.length + 1) []) t' := by
  induction w generalizing m t with
  | nil =>
      have hdone := Scans.done (live_iff.mpr h)
      rw [acts_plain hp] at hdone
      exact ⟨t, hdone⟩
  | cons c w ih =>
      have hw := mem_rest_shift hp h
      obtain ⟨t', ht'⟩ := ih (m := false) (t := shift m r t c) (Or.inr hw)
      have hc : shift m r t c ≠ .none := by
        intro hnone
        rw [hnone, rest_none] at hw
        cases hw
      have hread := Scans.read hc ht'
      rw [acts_plain hp] at hread
      exact ⟨t', hread⟩

/-- A plain expression reads the words of its language without running an action. -/
theorem scans_of_mem_lang (hp : plain r = true) (h : w ∈ lang r) :
    ∃ t, Scans r true .none w (List.replicate (w.length + 1) []) t :=
  scans_of_mem_rest hp (Or.inl ⟨rfl, h⟩)

end

end Rx

end Lib
