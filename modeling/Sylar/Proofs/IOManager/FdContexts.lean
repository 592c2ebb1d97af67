import Sylar.Spec.FdContexts

/-!
# `Sylar.Proofs.IOManager.FdContexts`: when the table only grows

`addEvent` decides under the read lock that the table has to grow and computes the new size from its
own descriptor. By the time it has the write lock another thread may have made the table larger, and
`contextResize` then cuts it. `Grows` is the condition that this does not happen.
`fdContexts_append_only` says that the table is then only ever extended, that a pointer epoll holds
is still in its slot, and that no read is out of range.
-/

set_option autoImplicit false

namespace Sylar.FdContexts

open Lib

/-- A resize does not make the table smaller. -/
def Grows : Sys → Action → Prop
  | .running st, .resize t => ∀ fd, st.pc t = .resizing fd → st.fdContexts.length ≤ grown fd
  | _, _ => True

/-- The table has not lost a pointer that somebody has. -/
structure Kept (st : Table) : Prop where
  size : 32 ≤ st.fdContexts.length
  held : ∀ t fd ctx op, st.pc t = .holding fd ctx op → st.fdContexts[fd]? = some ctx
  registered : ∀ e ∈ st.registered, st.fdContexts[e.1]? = some e.2

/-- The invariant of the runs from a state with the table `base`. -/
def Extends (base : List Nat) : Sys → Prop
  | .running st => Kept st ∧ base <+: st.fdContexts
  | .outOfRange => False

section
variable {st : Table} {base : List Nat} {t fd ctx size : Nat} {op : Op}

/-- A pointer stays where it is when the table is extended. -/
theorem getElem?_of_prefix {l l' : List Nat} {i x : Nat} (h : l <+: l') (hx : l[i]? = some x) :
    l'[i]? = some x := by
  obtain ⟨r, rfl⟩ := h
  rw [List.getElem?_append_left (List.getElem?_eq_some_iff.mp hx).1]
  exact hx

theorem prefix_contextResize (h : st.fdContexts.length ≤ size) :
    st.fdContexts <+: (contextResize size st).fdContexts := by
  rw [contextResize, List.take_of_length_le h]
  exact List.prefix_append ..

theorem length_contextResize (h : st.fdContexts.length ≤ size) :
    (contextResize size st).fdContexts.length = size := by
  rw [contextResize, List.length_append, List.take_of_length_le h, List.length_range']
  omega

theorem Kept.contextResize (hk : Kept st) (h : st.fdContexts.length ≤ size) :
    Kept (FdContexts.contextResize size st) where
  size := hk.size.trans (prefix_contextResize h).length_le
  held t fd ctx op hpc := getElem?_of_prefix (prefix_contextResize h) (hk.held t fd ctx op hpc)
  registered e he := getElem?_of_prefix (prefix_contextResize h) (hk.registered e he)

theorem Kept.update {pc : Pc} (hk : Kept st)
    (hpc : ∀ fd ctx op, pc = .holding fd ctx op → st.fdContexts[fd]? = some ctx) :
    Kept { st with pc := Function.update st.pc t pc } where
  size := hk.size
  held t' fd ctx op h := by
    dsimp only at h
    by_cases ht : t' = t
    · subst ht
      rw [Function.update_self] at h
      exact hpc fd ctx op h
    · rw [Function.update_of_ne ht] at h
      exact hk.held t' fd ctx op h
  registered := hk.registered

/-- The read of a slot that exists. -/
theorem extends_access (hk : Kept st) (hbase : base <+: st.fdContexts)
    (hfd : fd < st.fdContexts.length) : Extends base (access t fd op st) := by
  have hget := List.getElem?_eq_getElem hfd
  rw [access, hget]
  refine ⟨hk.update ?_, hbase⟩
  intro fd' ctx' op' hpc
  cases hpc
  exact hget

theorem extends_leave {changed : Bool} (hk : Kept st) (hbase : base <+: st.fdContexts)
    (hpc : st.pc t = .holding fd ctx op) :
    Extends base (.running (leave t fd ctx op changed st)) := by
  have hidle : Kept { st with pc := Function.update st.pc t .idle } :=
    hk.update fun fd ctx op h => by cases h
  refine ⟨⟨hidle.size, hidle.held, ?_⟩, hbase⟩
  intro e he
  cases op with
  | add =>
      cases changed with
      | true =>
          rcases List.mem_cons.mp he with rfl | he
          · exact hk.held t _ _ _ hpc
          · exact hk.registered e he
      | false => exact hk.registered e he
  | del =>
      cases changed with
      | true => exact hk.registered e (List.mem_filter.mp he).1
      | false => exact hk.registered e he

/-- A size that is larger as an `int` is larger. -/
theorem lt_of_lt_toInt32 {n : Nat} (h : (fd : Int) < toInt32 n) : fd < n := by
  rw [toInt32, Int.bmod_def] at h
  split at h <;> omega

theorem extends_step {s s' : Sys} {a : Action} (hs : Extends base s) (hg : Grows s a)
    (hstep : step s a = some s') : Extends base s' := by
  cases s with
  | outOfRange => cases hs
  | running st =>
      obtain ⟨hk, hbase⟩ := hs
      cases a with
      | lookup t fd op =>
          simp only [step] at hstep
          split at hstep
          · split at hstep
            · next hlt =>
                cases hstep
                exact extends_access hk hbase (lt_of_lt_toInt32 hlt)
            · cases op with
              | add =>
                  cases hstep
                  exact ⟨hk.update (fun fd ctx op h => by cases h), hbase⟩
              | del =>
                  cases hstep
                  exact ⟨hk, hbase⟩
          · cases hstep
      | resize t =>
          simp only [step] at hstep
          split at hstep
          · next fd hpc =>
              cases hstep
              have hle := hg fd hpc
              refine extends_access (hk.contextResize hle)
                (hbase.trans (prefix_contextResize hle)) ?_
              -- The table had 32 slots, so `fd` is at least 2 and `fd * 1.5` is more than `fd`.
              rw [length_contextResize hle]
              have := hk.size
              unfold grown at hle ⊢
              omega
          · cases hstep
      | finish t changed =>
          simp only [step] at hstep
          split at hstep
          · next fd ctx op hpc =>
              cases hstep
              exact extends_leave hk hbase hpc
          · cases hstep

theorem extends_init : Extends [] init := by
  refine ⟨⟨by decide, ?_, ?_⟩, List.nil_prefix⟩
  · intro t fd ctx op h
    cases h
  · intro e he
    cases he

/-- In a run in which no resize makes the table smaller, the table is only extended, the pointers of
epoll stay in their slots, and every read is in range. -/
theorem fdContexts_append_only (as bs : List Action) (s s' : Sys)
    (hg : Guarded step Grows init as) (hs : exec step init as = some s)
    (hg' : Guarded step Grows s bs) (hs' : exec step s bs = some s') :
    ∃ st st', s = .running st ∧ s' = .running st' ∧ st.fdContexts <+: st'.fdContexts ∧
      ∀ e ∈ st'.registered, st'.fdContexts[e.1]? = some e.2 := by
  have hinv := exec_invariant (I := Extends []) (fun _ _ _ => extends_step) as init s extends_init
    hg hs
  cases s with
  | outOfRange => cases hinv
  | running st =>
      have hlater := exec_invariant (I := Extends st.fdContexts) (fun _ _ _ => extends_step) bs
        (.running st) s' ⟨hinv.1, List.prefix_rfl⟩ hg' hs'
      cases s' with
      | outOfRange => cases hlater
      | running st' => exact ⟨st, st', rfl, rfl, hlater.2, hlater.1.registered⟩

end

/-- Two threads one after the other, the second with the larger descriptor. -/
theorem fdContexts_append_only_in_turn :
    ∃ s s' st st', exec step init [.lookup 0 40 .add, .resize 0, .finish 0 true] = some s ∧
      exec step s [.lookup 1 100 .add, .resize 1, .finish 1 true] = some s' ∧
      s = .running st ∧ s' = .running st' ∧ st.fdContexts <+: st'.fdContexts ∧
      ∀ e ∈ st'.registered, st'.fdContexts[e.1]? = some e.2 := by
  have hg : Guarded step Grows init [.lookup 0 40 .add, .resize 0, .finish 0 true] := by
    refine ⟨trivial, ?_, trivial, trivial⟩
    intro fd hpc
    cases hpc
    decide
  have hg' : ∀ s, exec step init [.lookup 0 40 .add, .resize 0, .finish 0 true] = some s →
      Guarded step Grows s [.lookup 1 100 .add, .resize 1, .finish 1 true] := by
    intro s hs
    cases hs
    refine ⟨trivial, ?_, trivial, trivial⟩
    intro fd hpc
    cases hpc
    decide
  obtain ⟨st, st', h⟩ := fdContexts_append_only _ _ _ _ hg rfl (hg' _ rfl) rfl
  exact ⟨_, _, st, st', rfl, rfl, h⟩

/-- Both threads have found the table too small, and the one with the smaller descriptor resizes
last. The table shrinks and the context that epoll has for 100 is gone. -/
theorem fdContexts_cut :
    ∃ st st', exec step init [.lookup 0 100 .add, .lookup 1 40 .add, .resize 0, .finish 0 true] =
        some (.running st) ∧
      exec step (.running st) [.resize 1] = some (.running st') ∧
      st.fdContexts.length = 150 ∧ st'.fdContexts.length = 60 ∧
      st.fdContexts[100]? = some 100 ∧ st'.fdContexts[100]? = none ∧
      (100, 100) ∈ st'.registered := by
  exact ⟨_, _, rfl, rfl, by decide +kernel⟩

end Sylar.FdContexts
