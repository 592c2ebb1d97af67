import Sylar.Spec.FdManager

/-!
# `Sylar.Proofs.FdManager.OneContext`: when a descriptor has one context

`get` stores a new context without a second look at the slot, so two threads that both found it empty
get two contexts, and the first of them is no longer in the table. `lone` is the condition that the
slot is still empty when a context is stored. `one_context` says that then all results of `get`
between two calls of `del` are the same context, and with it the timeouts and flags that it holds.

`lone` also keeps the size of the table within an `int`. From a size of 2³¹ on `(int)m_datas.size()` is
negative, and every `get` finds the table too small.
-/

set_option autoImplicit false

namespace Sylar.FdManager

open Lib

/-- A context is stored in an empty slot, and the table is not made too large for an `int`. -/
def lone : Sys → Action → Bool
  | .running mgr, .create t =>
    match mgr.pc t with
    | .creating fd => (mgr.slot fd).isNone && decide (grown fd < 2 ^ 31)
    | .idle => true
  | _, _ => true

/-- The slots agree with what `get` has returned since the last `del`. -/
structure Stored (mgr : Mgr) : Prop where
  size : 64 ≤ mgr.datas.length ∧ mgr.datas.length < 2 ^ 31
  slot : ∀ later earlier fd ctx, mgr.log = later ++ .got fd ctx :: earlier →
    .deleted fd ∉ later → mgr.slot fd = some ctx
  one : OneContext mgr.log

def Consistent (s : Sys) : Prop := ∃ mgr, s = .running mgr ∧ Stored mgr

section
variable {mgr mgr' : Mgr} {t fd fd' ctx : Nat}

/-- One more result that is what the slot has, or the first one for its slot. -/
theorem oneContext_got (hs : Stored mgr)
    (hctx : ∀ ctx', mgr.slot fd = some ctx' → ctx' = ctx) :
    OneContext (.got fd ctx :: mgr.log) := by
  intro later between earlier fd' p q heq hdel
  cases later with
  | nil =>
      obtain ⟨hgot, hlog⟩ := List.cons.inj heq
      cases hgot
      exact hctx p (hs.slot between earlier fd p hlog hdel)
  | cons e later =>
      obtain ⟨-, hlog⟩ := List.cons.inj heq
      exact hs.one later between earlier fd' p q hlog hdel

theorem oneContext_deleted (h : OneContext mgr.log) : OneContext (.deleted fd :: mgr.log) := by
  intro later between earlier fd' p q heq hdel
  cases later with
  | nil => cases (List.cons.inj heq).1
  | cons e later =>
      obtain ⟨-, hlog⟩ := List.cons.inj heq
      exact h later between earlier fd' p q hlog hdel

/-- The slots after a result. -/
theorem slot_got (hs : Stored mgr) (hlog : mgr'.log = .got fd ctx :: mgr.log)
    (hself : mgr'.slot fd = some ctx)
    (hother : ∀ fd', fd' ≠ fd → ∀ ctx', mgr.slot fd' = some ctx' → mgr'.slot fd' = some ctx')
    (hctx : ∀ ctx', mgr.slot fd = some ctx' → ctx' = ctx) :
    ∀ later earlier fd' ctx', mgr'.log = later ++ .got fd' ctx' :: earlier →
      .deleted fd' ∉ later → mgr'.slot fd' = some ctx' := by
  intro later earlier fd' ctx' heq hdel
  rw [hlog] at heq
  cases later with
  | nil =>
      obtain ⟨hgot, -⟩ := List.cons.inj heq
      cases hgot
      exact hself
  | cons e later =>
      obtain ⟨-, hold⟩ := List.cons.inj heq
      rw [List.mem_cons, not_or] at hdel
      have hslot := hs.slot later earlier fd' ctx' hold hdel.2
      by_cases hfd : fd' = fd
      · subst hfd
        rw [hself, hctx ctx' hslot]
      · exact hother fd' hfd ctx' hslot

theorem toInt32_size (hs : Stored mgr) : toInt32 mgr.datas.length = mgr.datas.length :=
  toInt32_of_lt (by omega) (by have := hs.size.2; omega)

theorem length_resize {size : Nat} {datas : List (Option Nat)} (h : datas.length ≤ size) :
    (resize size datas).length = size := by
  rw [resize, List.length_append, List.take_of_length_le h, List.length_replicate]
  omega

/-- A table that grows keeps its slots, and the new ones are empty. -/
theorem join_resize {size : Nat} {datas : List (Option Nat)} (h : datas.length ≤ size) :
    (resize size datas)[fd]?.join = datas[fd]?.join := by
  rw [resize, List.take_of_length_le h]
  rcases Nat.lt_or_ge fd datas.length with hlt | hge
  · rw [List.getElem?_append_left hlt]
  · rw [List.getElem?_append_right hge, List.getElem?_eq_none hge, List.getElem?_replicate]
    split <;> rfl

theorem join_set_self {datas : List (Option Nat)} {v : Option Nat} (h : fd < datas.length) :
    (datas.set fd v)[fd]?.join = v := by
  rw [List.getElem?_set_self h]
  rfl

theorem join_set_ne {datas : List (Option Nat)} {v : Option Nat} (h : fd' ≠ fd) :
    (datas.set fd v)[fd']?.join = datas[fd']?.join := by
  rw [List.getElem?_set_ne (Ne.symm h)]

theorem Stored.of_eq (hs : Stored mgr) (hdatas : mgr'.datas = mgr.datas)
    (hlog : mgr'.log = mgr.log) : Stored mgr' where
  size := by rw [hdatas]; exact hs.size
  slot := by
    rw [hlog]
    unfold Mgr.slot
    rw [hdatas]
    exact hs.slot
  one := by rw [hlog]; exact hs.one

theorem consistent_lookup {autoCreate : Bool} (hs : Stored mgr) :
    Consistent (lookup t fd autoCreate mgr) := by
  have hpc : Stored (if autoCreate = true then
      { mgr with pc := Function.update mgr.pc t (.creating fd) } else mgr) := by
    split
    · exact hs.of_eq rfl rfl
    · exact hs
  rw [lookup]
  by_cases hlt : (fd : Int) < toInt32 mgr.datas.length
  · rw [if_pos hlt]
    rw [toInt32_size hs, Nat.cast_lt] at hlt
    cases hget : mgr.datas[fd]? with
    | none => exact absurd (List.getElem?_eq_none_iff.mp hget) (by omega)
    | some slot =>
        cases slot with
        | none => exact ⟨_, rfl, hpc⟩
        | some ctx =>
            have hslot : mgr.slot fd = some ctx := by rw [Mgr.slot, hget]; rfl
            have hctx : ∀ ctx', mgr.slot fd = some ctx' → ctx' = ctx :=
              fun ctx' h => Option.some.inj (h.symm.trans hslot)
            exact ⟨_, rfl, hs.size, slot_got hs rfl hslot (fun _ _ _ h => h) hctx,
              oneContext_got hs hctx⟩
  · rw [if_neg hlt]
    exact ⟨_, rfl, hpc⟩

theorem consistent_create (hs : Stored mgr) (hempty : mgr.slot fd = none)
    (hgrown : grown fd < 2 ^ 31) : Consistent (create t fd mgr) := by
  -- The table that the context is stored in has all slots of the old one, and the slot of `fd`.
  obtain ⟨datas, hdatas, hsize, hfd, hjoin⟩ : ∃ datas, (if (fd : Int) < toInt32 mgr.datas.length
      then mgr.datas else resize (grown fd) mgr.datas) = datas ∧
      (64 ≤ datas.length ∧ datas.length < 2 ^ 31) ∧ fd < datas.length ∧
      ∀ fd', datas[fd']?.join = mgr.slot fd' := by
    have hold := hs.size
    by_cases hlt : (fd : Int) < toInt32 mgr.datas.length
    · refine ⟨_, if_pos hlt, hold, ?_, fun fd' => rfl⟩
      rw [toInt32_size hs, Nat.cast_lt] at hlt
      exact hlt
    · refine ⟨_, if_neg hlt, ?_⟩
      rw [toInt32_size hs, Nat.cast_lt] at hlt
      have hgrow : mgr.datas.length ≤ grown fd ∧ fd < grown fd := by
        unfold grown
        omega
      rw [length_resize hgrow.1]
      exact ⟨⟨by omega, hgrown⟩, hgrow.2, fun fd' => join_resize hgrow.1⟩
  rw [create, hdatas, if_pos hfd]
  have hctx : ∀ ctx', mgr.slot fd = some ctx' → ctx' = mgr.nextCtx := by
    intro ctx' h
    rw [hempty] at h
    cases h
  refine ⟨_, rfl, by rwa [List.length_set], slot_got hs rfl (join_set_self hfd) ?_ hctx,
    oneContext_got hs hctx⟩
  intro fd' hne ctx' h
  show (datas.set fd _)[fd']?.join = _
  rw [join_set_ne hne, hjoin, h]

theorem consistent_del (hs : Stored mgr) : Consistent (del fd mgr) := by
  -- Nothing is said of the slot of `fd` until it is filled again.
  have hdeleted : ∀ datas : List (Option Nat), datas.length = mgr.datas.length →
      (∀ fd', fd' ≠ fd → datas[fd']?.join = mgr.slot fd') →
      Stored { mgr with datas := datas, log := .deleted fd :: mgr.log } := by
    intro datas hlen hjoin
    refine ⟨by rw [hlen]; exact hs.size, ?_, oneContext_deleted hs.one⟩
    intro later earlier fd' ctx heq hdel
    cases later with
    | nil => cases (List.cons.inj heq).1
    | cons e later =>
        obtain ⟨rfl, hold⟩ := List.cons.inj heq
        rw [List.mem_cons, not_or] at hdel
        have hne : fd' ≠ fd := fun h => hdel.1 (by rw [h])
        show datas[fd']?.join = some ctx
        rw [hjoin fd' hne]
        exact hs.slot later earlier fd' ctx hold hdel.2
  rw [del]
  by_cases hlt : (fd : Int) < toInt32 mgr.datas.length
  · rw [if_pos hlt]
    rw [toInt32_size hs, Nat.cast_lt] at hlt
    rw [if_pos hlt]
    exact ⟨_, rfl, hdeleted (mgr.datas.set fd none) (List.length_set ..) fun fd' hne =>
      join_set_ne hne⟩
  · rw [if_neg hlt]
    exact ⟨_, rfl, hdeleted mgr.datas rfl fun _ _ => rfl⟩

theorem consistent_step {s s' : Sys} {a : Action} (hs : Consistent s) (hg : lone s a = true)
    (hstep : step s a = some s') : Consistent s' := by
  obtain ⟨mgr, rfl, hs⟩ := hs
  cases a with
  | get t fd autoCreate =>
      simp only [step] at hstep
      split at hstep
      · obtain rfl := Option.some.inj hstep
        exact consistent_lookup hs
      · cases hstep
  | create t =>
      simp only [step] at hstep
      split at hstep
      · next fd hpc =>
          obtain rfl := Option.some.inj hstep
          rw [lone, hpc, Bool.and_eq_true, Option.isNone_iff_eq_none, decide_eq_true_eq] at hg
          obtain ⟨hempty, hgrown⟩ := hg
          exact consistent_create hs hempty hgrown
      · cases hstep
  | del fd =>
      simp only [step] at hstep
      split at hstep
      · obtain rfl := Option.some.inj hstep
        exact consistent_del hs
      · cases hstep

theorem consistent_init : Consistent init := by
  refine ⟨_, rfl, by decide, ?_, ?_⟩
  · intro later earlier fd ctx heq
    cases later <;> cases heq
  · intro later between earlier fd p q heq
    cases later <;> cases heq

/-- In a run in which a context is stored in empty slots only, a descriptor has one context between
two calls of `del`. -/
theorem one_context (as : List Action) (s : Sys) (hg : Guarded step (lone · ·) init as)
    (hs : exec step init as = some s) :
    ∃ mgr, s = .running mgr ∧ OneContext mgr.log := by
  obtain ⟨mgr, hmgr, hinv⟩ := exec_invariant (I := Consistent) (fun _ _ _ => consistent_step) as
    init s consistent_init hg hs
  exact ⟨mgr, hmgr, hinv.one⟩

end

/-- The history of a state. -/
def Sys.log : Sys → List Event
  | .running mgr => mgr.log
  | .outOfRange => []

/-- Two threads ask for the same descriptor, one after the other, and it is deleted in between. -/
theorem one_context_in_turn :
    ∃ mgr, exec step init [.get 0 5 true, .create 0, .get 1 5 true, .del 5, .get 1 5 true,
        .create 1] = some (.running mgr) ∧
      mgr.log = [.got 5 1, .deleted 5, .got 5 0, .got 5 0] ∧ OneContext mgr.log := by
  have hlog : (exec step init [.get 0 5 true, .create 0, .get 1 5 true, .del 5, .get 1 5 true,
      .create 1]).map Sys.log = some [.got 5 1, .deleted 5, .got 5 0, .got 5 0] := by
    decide
  obtain ⟨s, hs, hlog⟩ := Option.map_eq_some_iff.mp hlog
  obtain ⟨mgr, rfl, hone⟩ := one_context _ s (by decide) hs
  exact ⟨mgr, hs, hlog, hone⟩

/-- Both threads have found the slot empty, and each gets a context of its own. -/
theorem two_contexts :
    ∃ s, exec step init [.get 0 5 true, .get 1 5 true, .create 0, .create 1] = some s ∧
      ¬ OneContext s.log := by
  have hlog : (exec step init [.get 0 5 true, .get 1 5 true, .create 0, .create 1]).map Sys.log =
      some [.got 5 1, .got 5 0] := by
    decide
  obtain ⟨s, hs, hlog⟩ := Option.map_eq_some_iff.mp hlog
  refine ⟨s, hs, fun hone => ?_⟩
  cases hone [] [] [] 5 0 1 hlog List.not_mem_nil

end Sylar.FdManager
