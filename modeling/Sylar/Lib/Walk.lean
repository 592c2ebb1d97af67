import Sylar.Lib.Drive

/-!
# `Lib.Walk`: a word piece by piece

The machine is deterministic, so a long word can be followed piece by piece: `Walk` says that the
machine reads a piece from one set of marks and ends at another, and it lists the actions on each
symbol. Pieces are put together with `Walk.append`. A piece of arbitrary length that stays within a
class of states and runs no action is one `walk_loop`.

`Hosts` says that the machine of a larger expression behaves like that of a part while it is in it,
up to a symbol that ends the part. A `Scans` of the part is then a `Walk` of the whole (`Hosts.walk`).

`perform` carries out the actions of such a list, and `play_eq_perform` connects it to the scan.
-/

set_option autoImplicit false

namespace Lib

namespace Rx

variable {σ A S : Type} [DecidableEq A]

/-- The actions on each symbol of a word. -/
def trace (r : Rx σ A) : Bool → Marks → List σ → List (List A)
  | _, _, [] => []
  | m, t, c :: w => fired m r t c :: trace r false (shift m r t c) w

/-- The actions of each symbol, carried out from the position `p` on. -/
def perform (f : Nat → A → S → S) : Nat → List (List A) → S → S
  | _, [], s => s
  | p, l :: tr, s => perform f (p + 1) tr (l.foldl (fun s a => f p a s) s)

/-- The machine reads `w` from the marks `t` and ends at `t'`. -/
structure Walk (r : Rx σ A) (stops : A → Bool) (m : Bool) (t : Marks) (w : List σ)
    (tr : List (List A)) (t' : Marks) : Prop where
  reads : reads r stops m t w = true
  trace : trace r m t w = tr
  after : after m r t w = t'

section
variable {r : Rx σ A} {stops : A → Bool} {f : Nat → A → S → S} {m : Bool} {t t' t'' : Marks}
  {u v w : List σ} {c : σ} {p n : Nat} {s : S} {l : List A} {tr tr' : List (List A)}

theorem play_eq_perform : play r f p m t w s = perform f p (trace r m t w) s := by
  induction w generalizing p m t s with
  | nil => rfl
  | cons c w ih => rw [play, ih, trace, perform]

theorem trace_append :
    trace r m t (u ++ v) = trace r m t u ++ trace r (m && u.isEmpty) (after m r t u) v := by
  induction u generalizing m t with
  | nil =>
      rw [List.isEmpty_nil, Bool.and_true]
      rfl
  | cons c u ih =>
      rw [List.cons_append, trace, ih, List.isEmpty_cons, Bool.and_false, Bool.false_and, after,
        trace, List.cons_append]

omit [DecidableEq A] in
theorem perform_append :
    perform f p (tr ++ tr') s = perform f (p + tr.length) tr' (perform f p tr s) := by
  induction tr generalizing p s with
  | nil => rfl
  | cons l tr ih =>
      rw [List.cons_append, perform, ih, perform, List.length_cons, Nat.add_assoc, Nat.add_comm 1]

omit [DecidableEq A] in
/-- Symbols without actions only move the position. -/
theorem perform_replicate_nil : perform f p (List.replicate n []) s = s := by
  induction n generalizing p with
  | zero => rfl
  | succ n ih =>
      rw [List.replicate_succ, perform]
      exact ih

theorem Walk.length_eq (h : Walk r stops m t w tr t') : tr.length = w.length := by
  rw [← h.trace]
  clear h
  induction w generalizing m t with
  | nil => rfl
  | cons c w ih => rw [Rx.trace, List.length_cons, ih, List.length_cons]

theorem Walk.append (h : Walk r stops m t u tr t')
    (h' : Walk r stops (m && u.isEmpty) t' v tr' t'') :
    Walk r stops m t (u ++ v) (tr ++ tr') t'' where
  reads := by rw [reads_append, h.reads, h.after, h'.reads]; rfl
  trace := by rw [trace_append, h.trace, h.after, h'.trace]
  after := by rw [after_append, h.after, h'.after]

theorem Walk.nil : Walk r stops m t [] [] t := ⟨rfl, rfl, rfl⟩

/-- One symbol. -/
theorem walk_symbol (hc : shift m r t c = t') (hne : t' ≠ .none) (hl : fired m r t c = l)
    (hstops : l.all (fun a => !stops a) = true) : Walk r stops m t [c] [l] t' where
  reads := by
    rw [Rx.reads, hc, hl, hstops, Rx.reads]
    cases t' with
    | none => exact absurd rfl hne
    | leaf => rfl
    | node x y => rfl
  trace := by rw [Rx.trace, hl, Rx.trace]
  after := by rw [Rx.after, hc, Rx.after]

variable (stops) in
/-- A piece on which the machine stays in a class of states and runs no action. -/
theorem walk_loop {P : Marks → Prop}
    (hP : ∀ t, P t → ∀ c ∈ w, P (shift false r t c) ∧ shift false r t c ≠ .none ∧
      fired false r t c = []) (ht : P t) :
    ∃ t', P t' ∧ Walk r stops false t w (List.replicate w.length []) t' := by
  induction w generalizing t with
  | nil => exact ⟨t, ht, Walk.nil⟩
  | cons c w ih =>
      obtain ⟨hPc, hne, hl⟩ := hP t ht c (List.mem_cons_self ..)
      obtain ⟨t', ht', hw⟩ := ih (fun t ht d hd => hP t ht d (List.mem_cons_of_mem _ hd)) hPc
      have hstep : Walk r stops false t [c] [[]] (shift false r t c) := walk_symbol rfl hne hl rfl
      exact ⟨t', ht', hstep.append hw⟩

/-- While the machine of `R` reads a match of `r`, its marks are `K t` for the marks `t` in `r`. It
enters `r` from the marks `k`, and the symbol `e` takes it on to `k'`. -/
structure Hosts (R r : Rx σ A) (m : Bool) (k : Marks) (K : Marks → Marks) (e : σ) (k' : Marks) :
    Prop where
  ne_none : ∀ {t}, t ≠ .none → K t ≠ .none
  end_ne_none : k' ≠ .none
  first : ∀ {c}, c ≠ e → Rx.first r c = true →
    shift m R k c = K (shift true r .none c) ∧
      acts m false R k (some c) = acts true false r .none (some c)
  next : ∀ {t c}, c ≠ e → shift false R (K t) c = K (shift false r t c) ∧
    acts false false R (K t) (some c) = acts false false r t (some c)
  last : ∀ {t}, final r t = true → shift false R (K t) e = k' ∧
    acts false false R (K t) (some e) = acts false true r t none

variable {R : Rx σ A} {k k' : Marks} {K : Marks → Marks} {e : σ}

theorem Hosts.walk_behind (h : Hosts R r m k K e k') {m' : Bool} (hs : Scans r m' t w tr t')
    (hm : m' = false) (he : e ∉ w) (hdups : ∀ l ∈ tr, l.eraseDups = l)
    (hstops : ∀ l ∈ tr, l.all (fun a => !stops a) = true) :
    Walk R stops false (K t) (w ++ [e]) tr k' := by
  induction hs with
  | @done m' t hl =>
      subst hm
      obtain ⟨hshift, hacts⟩ := h.last hl
      refine walk_symbol hshift h.end_ne_none ?_ (hstops _ (List.mem_singleton_self _))
      rw [fired, hacts]
      exact hdups _ (List.mem_singleton_self _)
  | @read m' t c w tr t' hc hw ih =>
      subst hm
      rw [List.mem_cons, not_or] at he
      obtain ⟨hshift, hacts⟩ := h.next (t := t) (Ne.symm he.1)
      have hhead : Walk R stops false (K t) [c] [acts false false r t (some c)]
          (K (shift false r t c)) := by
        refine walk_symbol hshift (h.ne_none hc) ?_ (hstops _ (List.mem_cons_self ..))
        rw [fired, hacts]
        exact hdups _ (List.mem_cons_self ..)
      exact hhead.append (ih rfl he.2 (fun l hl => hdups l (List.mem_cons_of_mem _ hl))
        fun l hl => hstops l (List.mem_cons_of_mem _ hl))

/-- A match of the part and the symbol behind it. -/
theorem Hosts.walk (h : Hosts R r m k K e k') (hs : Scans r true .none w tr t') (hw : w ≠ [])
    (he : e ∉ w) (hdups : ∀ l ∈ tr, l.eraseDups = l)
    (hstops : ∀ l ∈ tr, l.all (fun a => !stops a) = true) :
    Walk R stops m k (w ++ [e]) tr k' := by
  cases hs with
  | done hl => exact absurd rfl hw
  | @read _ _ c w tr t' hc hrest =>
      have hf : Rx.first r c = true := (Scans.read hc hrest).first_head
      rw [List.mem_cons, not_or] at he
      obtain ⟨hshift, hacts⟩ := h.first (Ne.symm he.1) hf
      have hhead : Walk R stops m k [c] [acts true false r .none (some c)]
          (K (shift true r .none c)) := by
        refine walk_symbol hshift (h.ne_none hc) ?_ (hstops _ (List.mem_cons_self ..))
        rw [fired, hacts]
        exact hdups _ (List.mem_cons_self ..)
      have hbehind : Walk R stops (m && [c].isEmpty) (K (shift true r .none c)) (w ++ [e]) tr k' := by
        rw [List.isEmpty_cons, Bool.and_false]
        exact h.walk_behind hrest rfl he.2 (fun l hl => hdups l (List.mem_cons_of_mem _ hl))
          fun l hl => hstops l (List.mem_cons_of_mem _ hl)
      exact hhead.append hbehind

end

end Rx

end Lib
