import Sylar.Lib.Apart
import Sylar.Lib.Counter
import Sylar.Spec.HttpConnectionPool

/-!
# `Sylar.Proofs.Http.Pool`: the books of the connection pool

Three invariants of every run. `Placed`: each connection is in one place, where a place is `m_conns`,
the hands of the callers, the deleted ones, or a call in progress. `Counted`: `m_total` is the number of
connections in `m_conns` and in the hands of callers, with those that the calls in progress still
have to settle. `Served`: a connection was returned as often as it was released, and once more while
it is out, and only a connection with requests left is in `m_conns`.

`books_balanced` puts them together for the states without a call in progress.
-/

set_option autoImplicit false

namespace Sylar.Http.HttpConnectionPool

open Lib

section
variable {n : Nat} {cfg : Config} {s s' : Pool n} {t : Fin n}

/-! ## The steps -/

/-- The steps as a relation. -/
inductive Moves (cfg : Config) (s : Pool n) : Action n → Pool n → Prop
  | tick (ms : Nat) : Moves cfg s (.tick ms) { s with clock := s.clock + ms }
  | getConnection (t : Fin n) (h : s.pc t = .idle) :
      Moves cfg s (.getConnection t) (s.goto t (.locking s.clock))
  | pop (t : Fin n) (now : Nat) (connected : List Nat) (h : s.pc t = .locking now) :
      Moves cfg s (.pop t connected) (s.pop cfg t now connected)
  | discard (t : Fin n) (ptr : Option Nat) (invalid : List Nat)
      (h : s.pc t = .discarding ptr invalid) :
      Moves cfg s (.discard t) (s.discard t ptr invalid)
  | subtract (t : Fin n) (ptr : Option Nat) (size : Nat) (h : s.pc t = .subtracting ptr size) :
      Moves cfg s (.subtract t) (s.subtract t ptr size)
  | connect (t : Fin n) (success : Bool) (h : s.pc t = .connecting) :
      Moves cfg s (.connect t success) (s.connect t success)
  | count (t : Fin n) (ptr : Nat) (h : s.pc t = .counting ptr) :
      Moves cfg s (.count t) (s.count t ptr)
  | hand (t : Fin n) (ptr : Nat) (h : s.pc t = .returning ptr) :
      Moves cfg s (.hand t) (s.hand t ptr)
  | releasePtr (t : Fin n) (ptr : Nat) (h : s.pc t = .idle) (hout : ptr ∈ s.out) :
      Moves cfg s (.releasePtr t ptr) (s.releasePtr t ptr)
  | check (t : Fin n) (ptr : Nat) (connected : Bool) (h : s.pc t = .checking ptr) :
      Moves cfg s (.check t connected) (s.check cfg t ptr connected)
  | decrement (t : Fin n) (h : s.pc t = .decrementing) : Moves cfg s (.decrement t) (s.decrement t)
  | push (t : Fin n) (ptr : Nat) (h : s.pc t = .pushing ptr) :
      Moves cfg s (.push t) (s.push t ptr)

theorem moves_of_step {a : Action n} (h : step cfg s a = some s') : Moves cfg s a s' := by
  cases a <;> simp only [step] at h
  case tick ms =>
    cases h
    exact .tick ms
  case releasePtr t ptr =>
    split at h
    next hcond =>
      cases h
      exact .releasePtr t ptr hcond.1 hcond.2
    next => cases h
  all_goals
    split at h
    · cases h
      constructor
      assumption
    · cases h

/-- What the loop takes from the front of `m_conns`. -/
theorem popLoop_append (cfg : Config) (heap : Nat → Conn) (now : Nat) (connected conns : List Nat) :
    conns = (popLoop cfg heap now connected conns).2.1 ++
      ((popLoop cfg heap now connected conns).1.toList ++
        (popLoop cfg heap now connected conns).2.2) := by
  induction conns with
  | nil => rfl
  | cons c conns ih =>
      rw [popLoop]
      split
      · exact congrArg (c :: ·) ih
      · rfl

/-! ## Each connection is in one place -/

/-- The connections that a thread has in its hands. -/
def owns : Pc → List Nat
  | .discarding ptr invalid => ptr.toList ++ invalid
  | .subtracting ptr _ => ptr.toList
  | .counting ptr | .returning ptr | .checking ptr | .pushing ptr => [ptr]
  | _ => []

/-- The contents of the places that are no thread's own. -/
def shared (s : Pool n) : List Nat := s.conns ++ s.out ++ s.deleted

structure Placed (s : Pool n) : Prop where
  apart : Apart (shared s) fun t => owns (s.pc t)
  below : ∀ c ∈ shared s, c < s.nextConn
  own_below : ∀ t, ∀ c ∈ owns (s.pc t), c < s.nextConn

/-- A step of one thread that moves connections between the shared places and its own hands. -/
theorem Placed.move {pc : Pc} (h : Placed s) (hpc : s'.pc = Function.update s.pc t pc)
    (hnext : s'.nextConn = s.nextConn)
    (hperm : (shared s ++ owns (s.pc t)).Perm (shared s' ++ owns pc)) : Placed s' := by
  have hself : s'.pc t = pc := by rw [hpc, Function.update_self]
  have hother : ∀ j, j ≠ t → s'.pc j = s.pc j := fun j hj => by
    rw [hpc, Function.update_of_ne hj]
  have hbelow : ∀ c ∈ shared s' ++ owns pc, c < s'.nextConn := by
    intro c hc
    rw [hnext]
    rcases List.mem_append.mp (hperm.mem_iff.mpr hc) with hc | hc
    · exact h.below c hc
    · exact h.own_below t c hc
  refine ⟨?_, fun c hc => hbelow c (List.mem_append_left _ hc), ?_⟩
  · refine h.apart.step (i := t) List.nodup_nil (fun _ hb => (nomatch hb)) ?_ ?_
    · rw [hself]
      exact hperm
    · intro j hj
      rw [hother j hj]
  · intro j c hc
    by_cases hj : j = t
    · rw [hj, hself] at hc
      exact hbelow c (List.mem_append_right _ hc)
    · rw [hother j hj] at hc
      rw [hnext]
      exact h.own_below j c hc

/-- The new connection is in no place yet. -/
theorem Placed.fresh (h : Placed s) :
    s.nextConn ∉ shared s ∧ ∀ t, s.nextConn ∉ owns (s.pc t) :=
  ⟨fun hc => lt_irrefl _ (h.below _ hc), fun t hc => lt_irrefl _ (h.own_below t _ hc)⟩

theorem Placed.connect (h : Placed s) (hpc : s.pc t = .connecting) (success : Bool) :
    Placed (s.connect t success) := by
  cases success with
  | false =>
      have hidle : (s.connect t false).pc = Function.update s.pc t .idle := rfl
      refine h.move hidle rfl ?_
      rw [hpc]
      rfl
  | true =>
      refine ⟨?_, fun c hc => (h.below c hc).trans (Nat.lt_succ_self _), ?_⟩
      · refine h.apart.step (i := t) (List.nodup_singleton s.nextConn) ?_ ?_ ?_
        · intro b hb
          rw [List.mem_singleton.mp hb]
          exact h.fresh
        · simp only [hpc, owns, List.append_nil, Pool.connect, if_true, Function.update_self]
          exact List.perm_append_comm
        · intro j hj
          simp only [Pool.connect, if_true, Function.update_of_ne hj]
      · intro j c hc
        simp only [Pool.connect, if_true] at hc ⊢
        by_cases hj : j = t
        · rw [hj, Function.update_self] at hc
          rw [List.mem_singleton.mp hc]
          exact Nat.lt_succ_self _
        · rw [Function.update_of_ne hj] at hc
          exact (h.own_below j c hc).trans (Nat.lt_succ_self _)

theorem placed_step {a : Action n} (h : Placed s) (hstep : Moves cfg s a s') : Placed s' := by
  -- A permutation of appended lists is an equation between the counts of an element.
  cases hstep with
  | tick ms => exact ⟨h.apart, h.below, h.own_below⟩
  | getConnection t hpc =>
      refine h.move rfl rfl ?_
      rw [hpc]
      rfl
  | pop t now connected hpc =>
      refine h.move rfl rfl ?_
      have hconns := popLoop_append cfg s.heap now connected s.conns
      rcases hloop : popLoop cfg s.heap now connected s.conns with ⟨ptr, invalid, rest⟩
      rw [hloop] at hconns
      rw [List.perm_iff_count]
      intro c
      have hcount := congrArg (List.count c) hconns
      simp only [hpc, shared, owns, Pool.pop, hloop, List.count_append, List.append_nil] at hcount ⊢
      omega
  | discard t ptr invalid hpc =>
      refine h.move rfl rfl ?_
      rw [List.perm_iff_count]
      intro c
      simp only [hpc, shared, owns, Pool.discard, List.count_append]
      omega
  | subtract t ptr size hpc =>
      refine h.move rfl rfl ?_
      rw [hpc]
      cases ptr <;> exact List.Perm.refl _
  | connect t success hpc => exact h.connect hpc success
  | count t ptr hpc =>
      refine h.move rfl rfl ?_
      rw [hpc]
      exact List.Perm.refl _
  | hand t ptr hpc =>
      refine h.move rfl rfl ?_
      rw [List.perm_iff_count]
      intro c
      simp only [hpc, shared, owns, Pool.hand, Pool.modify, List.count_append, List.count_cons,
        List.count_nil]
      omega
  | releasePtr t ptr hpc hout =>
      refine h.move rfl rfl ?_
      have hperm := List.perm_cons_erase hout
      rw [List.perm_iff_count] at hperm ⊢
      intro c
      have hcount := hperm c
      simp only [hpc, shared, owns, Pool.releasePtr, Pool.modify, List.count_append,
        List.count_cons, List.count_nil] at hcount ⊢
      omega
  | check t ptr connected hpc =>
      unfold Pool.check
      split
      · refine h.move rfl rfl ?_
        rw [List.perm_iff_count]
        intro c
        simp only [hpc, shared, owns, List.count_append, List.count_cons, List.count_nil]
        omega
      · refine h.move rfl rfl ?_
        rw [hpc]
        exact List.Perm.refl _
  | decrement t hpc =>
      refine h.move rfl rfl ?_
      rw [hpc]
      rfl
  | push t ptr hpc =>
      refine h.move rfl rfl ?_
      rw [List.perm_iff_count]
      intro c
      simp only [hpc, shared, owns, Pool.push, List.count_append, List.count_cons, List.count_nil]
      omega

theorem placed_init (n clock : Nat) : Placed (init n clock) where
  apart := ⟨List.nodup_nil, fun _ => List.nodup_nil, fun _ _ _ _ hc => nomatch hc⟩
  below := fun _ hc => nomatch hc
  own_below := fun _ _ hc => nomatch hc

/-! ## The counter -/

/-- What a call in progress still has to settle with `m_total`. -/
def weight : Pc → Nat
  | .discarding ptr invalid => ptr.toList.length + invalid.length
  | .subtracting ptr size => ptr.toList.length + size
  | .returning _ | .checking _ | .pushing _ | .decrementing => 1
  | _ => 0

/-- The number that `m_total` is meant to have. -/
def due (s : Pool n) : Nat := s.conns.length + s.out.length + totalOf weight s.pc

/-- `m_total` is that number, as an `int32_t`. -/
def Counted (s : Pool n) : Prop := s.total = toInt32 (due s)

theorem due_of_update {pc : Pc} (hpc : s'.pc = Function.update s.pc t pc) :
    due s' + s.conns.length + s.out.length + weight (s.pc t) =
      due s + s'.conns.length + s'.out.length + weight pc := by
  have hsum := totalOf_update weight s.pc t pc
  unfold due
  rw [hpc]
  omega

/-- A step that leaves `m_total` leaves the number. -/
theorem Counted.keep {pc : Pc} (h : Counted s) (hpc : s'.pc = Function.update s.pc t pc)
    (htotal : s'.total = s.total)
    (hlength : s'.conns.length + s'.out.length + weight pc =
      s.conns.length + s.out.length + weight (s.pc t)) : Counted s' := by
  have hdue := due_of_update hpc
  have heq : due s' = due s := by omega
  rw [Counted, htotal, heq]
  exact h

/-- A step that changes `m_total` changes the number as much. -/
theorem Counted.adjust {pc : Pc} {d : Int} (h : Counted s)
    (hpc : s'.pc = Function.update s.pc t pc) (htotal : s'.total = toInt32 (s.total + d))
    (hconns : s'.conns = s.conns) (hout : s'.out = s.out)
    (hweight : (weight pc : Int) = weight (s.pc t) + d) : Counted s' := by
  have hdue := due_of_update hpc
  rw [hconns, hout] at hdue
  have heq : (due s' : Int) = due s + d := by omega
  rw [Counted, htotal, heq, h]
  exact Int.bmod_add_bmod

theorem counted_step {a : Action n} (h : Counted s) (hstep : Moves cfg s a s') : Counted s' := by
  cases hstep with
  | tick ms => exact h
  | getConnection t hpc =>
      refine h.keep rfl rfl ?_
      rw [hpc]
      rfl
  | pop t now connected hpc =>
      refine h.keep rfl rfl ?_
      have hlength := congrArg List.length (popLoop_append cfg s.heap now connected s.conns)
      rcases hloop : popLoop cfg s.heap now connected s.conns with ⟨ptr, invalid, rest⟩
      simp only [hloop, List.length_append] at hlength
      simp only [hpc, weight, Pool.pop, hloop]
      omega
  | discard t ptr invalid hpc =>
      refine h.keep rfl rfl ?_
      rw [hpc]
      rfl
  | subtract t ptr size hpc =>
      refine h.adjust (d := -size) rfl rfl rfl rfl ?_
      rw [hpc]
      cases ptr <;> simp [weight]
  | connect t success hpc =>
      cases success <;> refine h.keep rfl rfl ?_ <;> rw [hpc] <;> rfl
  | count t ptr hpc =>
      refine h.adjust (d := 1) rfl rfl rfl rfl ?_
      rw [hpc]
      rfl
  | hand t ptr hpc =>
      refine h.keep rfl rfl ?_
      simp only [hpc, weight, Pool.hand, Pool.modify, List.length_cons]
      omega
  | releasePtr t ptr hpc hout =>
      refine h.keep rfl rfl ?_
      have hpos := List.length_pos_of_mem hout
      simp only [hpc, weight, Pool.releasePtr, Pool.modify, List.length_erase_of_mem hout]
      omega
  | check t ptr connected hpc =>
      unfold Pool.check
      split <;> refine h.keep rfl rfl ?_ <;> rw [hpc] <;> rfl
  | decrement t hpc =>
      refine h.adjust (d := -1) rfl rfl rfl rfl ?_
      rw [hpc]
      rfl
  | push t ptr hpc =>
      refine h.keep rfl rfl ?_
      simp only [hpc, weight, Pool.push, List.length_append, List.length_singleton]
      omega

theorem counted_init (n clock : Nat) : Counted (init n clock) := by
  have hzero : totalOf weight (init n clock).pc = 0 := totalOf_eq_zero fun _ => rfl
  rw [Counted, due, hzero]
  exact (toInt32_of_lt le_rfl (by norm_num)).symm

/-! ## The requests of a connection -/

/-- An object that can be returned: it has been released as often as returned, and may be returned
once more. -/
def Ready (cfg : Config) (c : Conn) : Prop :=
  c.handouts = c.request ∧ c.request < max 1 cfg.maxRequest

/-- An object that can stay in `m_conns`. -/
def Poolable (cfg : Config) (c : Conn) : Prop :=
  c.handouts = c.request ∧ c.request < cfg.maxRequest

theorem Poolable.ready {c : Conn} (h : Poolable cfg c) : Ready cfg c :=
  ⟨h.1, lt_of_lt_of_le h.2 (le_max_right _ _)⟩

/-- What is known of an object in the hands of a thread. -/
def fits (cfg : Config) : Pc → Conn → Prop
  | .checking _ => fun c => c.handouts = c.request
  | .pushing _ => Poolable cfg
  | _ => Ready cfg

structure Served (cfg : Config) (s : Pool n) : Prop where
  conns : ∀ c ∈ s.conns, Poolable cfg (s.heap c)
  out : ∀ c ∈ s.out, (s.heap c).handouts = (s.heap c).request + 1
  own : ∀ t, ∀ c ∈ owns (s.pc t), fits cfg (s.pc t) (s.heap c)
  bounded : ∀ c, (s.heap c).handouts ≤ max 1 cfg.maxRequest

/-- What the other threads know does not change when one thread moves on. -/
theorem own_of_update {P : Pc → Nat → Prop} {pc : Pc} (hpc : s'.pc = Function.update s.pc t pc)
    (hself : ∀ c ∈ owns pc, P pc c)
    (hother : ∀ j, j ≠ t → ∀ c ∈ owns (s.pc j), P (s.pc j) c) :
    ∀ j, ∀ c ∈ owns (s'.pc j), P (s'.pc j) c := by
  intro j c hc
  rw [hpc] at hc ⊢
  by_cases hj : j = t
  · rw [hj, Function.update_self] at hc ⊢
    exact hself c hc
  · rw [Function.update_of_ne hj] at hc ⊢
    exact hother j hj c hc

/-- A step that changes no object. -/
theorem Served.move {pc : Pc} (h : Served cfg s) (hpc : s'.pc = Function.update s.pc t pc)
    (hheap : s'.heap = s.heap) (hconns : ∀ c ∈ s'.conns, Poolable cfg (s.heap c))
    (hout : s'.out = s.out) (hown : ∀ c ∈ owns pc, fits cfg pc (s.heap c)) : Served cfg s' where
  conns := by
    rw [hheap]
    exact hconns
  out := by
    rw [hheap, hout]
    exact h.out
  own := by
    rw [hheap]
    exact own_of_update (P := fun pc c => fits cfg pc (s.heap c)) hpc hown fun j _ => h.own j
  bounded := by
    rw [hheap]
    exact h.bounded

/-- An object that is in the hands of nobody or of the moving thread changes. `hconns`, `hout` and
`hrest` say that it is not where the others are. -/
theorem Served.change {pc : Pc} {ptr : Nat} {obj : Conn} (h : Served cfg s)
    (hpc : s'.pc = Function.update s.pc t pc)
    (hheap : s'.heap = Function.update s.heap ptr obj) (hconns : ptr ∉ s.conns)
    (hsame : s'.conns = s.conns)
    (hout : ∀ c ∈ s'.out, (c ∈ s.out ∧ c ≠ ptr) ∨ (c = ptr ∧ obj.handouts = obj.request + 1))
    (hrest : ∀ j, j ≠ t → ptr ∉ owns (s.pc j))
    (hown : ∀ c ∈ owns pc, c = ptr ∧ fits cfg pc obj)
    (hobj : obj.handouts ≤ max 1 cfg.maxRequest) : Served cfg s' where
  conns := by
    intro c hc
    rw [hsame] at hc
    have hne : c ≠ ptr := fun heq => hconns (heq ▸ hc)
    rw [hheap, Function.update_of_ne hne]
    exact h.conns c hc
  out := by
    intro c hc
    rw [hheap]
    rcases hout c hc with ⟨hc, hne⟩ | ⟨rfl, hobj⟩
    · rw [Function.update_of_ne hne]
      exact h.out c hc
    · rw [Function.update_self]
      exact hobj
  own := by
    rw [hheap]
    refine own_of_update (P := fun pc c => fits cfg pc (Function.update s.heap ptr obj c)) hpc ?_ ?_
    · intro c hc
      obtain ⟨rfl, hfits⟩ := hown c hc
      rw [Function.update_self]
      exact hfits
    · intro j hj c hc
      have hne : c ≠ ptr := fun heq => hrest j hj (heq ▸ hc)
      rw [Function.update_of_ne hne]
      exact h.own j c hc
  bounded := by
    intro c
    rw [hheap]
    by_cases hc : c = ptr
    · rw [hc, Function.update_self]
      exact hobj
    · rw [Function.update_of_ne hc]
      exact h.bounded c

/-- A connection that a thread has is in no other place. -/
theorem Placed.not_elsewhere (h : Placed s) {ptr : Nat} (hptr : ptr ∈ owns (s.pc t)) :
    ptr ∉ s.conns ∧ ptr ∉ s.out ∧ ∀ j, j ≠ t → ptr ∉ owns (s.pc j) := by
  have hshared : ptr ∉ shared s := fun hmem =>
    List.disjoint_of_nodup_append (h.apart.nodup_append t) hmem hptr
  simp only [shared, List.mem_append, not_or] at hshared
  exact ⟨hshared.1.1, hshared.1.2, fun j hj hmem => h.apart.disjoint j t hj hmem hptr⟩

/-- A connection that is out is in no other place. -/
theorem Placed.out_not_elsewhere (h : Placed s) {ptr : Nat} (hptr : ptr ∈ s.out) :
    ptr ∉ s.conns ∧ ptr ∉ s.out.erase ptr ∧ ∀ j, ptr ∉ owns (s.pc j) := by
  have hnodup := h.apart.nodup
  rw [shared, List.append_assoc] at hnodup
  have hout : s.out.Nodup := hnodup.of_append_right.of_append_left
  refine ⟨?_, fun hmem => (hout.mem_erase_iff.mp hmem).1 rfl, ?_⟩
  · intro hmem
    exact List.disjoint_of_nodup_append hnodup hmem (List.mem_append_left _ hptr)
  · intro j hmem
    have hshared : ptr ∈ shared s := List.mem_append_left _ (List.mem_append_right _ hptr)
    exact List.disjoint_of_nodup_append (h.apart.nodup_append j) hshared hmem

theorem Served.connect (h : Served cfg s) (hplaced : Placed s) (success : Bool) :
    Served cfg (s.connect t success) := by
  cases success with
  | false =>
      have hidle : (s.connect t false).pc = Function.update s.pc t .idle := rfl
      exact h.move hidle rfl h.conns rfl fun _ hc => nomatch hc
  | true =>
      obtain ⟨hshared, hown⟩ := hplaced.fresh
      simp only [shared, List.mem_append, not_or] at hshared
      refine h.change rfl rfl hshared.1.1 rfl ?_ (fun j _ => hown j) ?_ (Nat.zero_le _)
      · intro c hc
        exact Or.inl ⟨hc, fun heq => hshared.1.2 (heq ▸ hc)⟩
      · intro c hc
        exact ⟨List.mem_singleton.mp hc, rfl, lt_of_lt_of_le Nat.zero_lt_one (le_max_left _ _)⟩

theorem Served.hand (h : Served cfg s) (hplaced : Placed s) {ptr : Nat}
    (hpc : s.pc t = .returning ptr) : Served cfg (s.hand t ptr) := by
  have hptr : ptr ∈ owns (s.pc t) := by
    rw [hpc]
    exact List.mem_singleton_self ptr
  have hready : Ready cfg (s.heap ptr) := by
    have hfits := h.own t ptr hptr
    rw [hpc] at hfits
    exact hfits
  obtain ⟨hconns, hout, hrest⟩ := hplaced.not_elsewhere hptr
  refine h.change rfl rfl hconns rfl ?_ hrest (fun _ hc => nomatch hc) ?_
  · intro c hc
    rcases List.mem_cons.mp hc with rfl | hc
    · exact Or.inr ⟨rfl, congrArg (· + 1) hready.1⟩
    · exact Or.inl ⟨hc, fun heq => hout (heq ▸ hc)⟩
  · show (s.heap ptr).handouts + 1 ≤ _
    rw [hready.1]
    exact hready.2

theorem Served.releasePtr (h : Served cfg s) (hplaced : Placed s) {ptr : Nat} (hptr : ptr ∈ s.out) :
    Served cfg (s.releasePtr t ptr) := by
  obtain ⟨hconns, hout, hown⟩ := hplaced.out_not_elsewhere hptr
  refine h.change rfl rfl hconns rfl ?_ (fun j _ => hown j) ?_ (h.bounded ptr)
  · intro c hc
    exact Or.inl ⟨List.mem_of_mem_erase hc, fun heq => hout (heq ▸ hc)⟩
  · intro c hc
    exact ⟨List.mem_singleton.mp hc, h.out ptr hptr⟩

theorem served_step {a : Action n} (h : Served cfg s) (hplaced : Placed s)
    (hstep : Moves cfg s a s') : Served cfg s' := by
  cases hstep with
  | tick ms => exact ⟨h.conns, h.out, h.own, h.bounded⟩
  | getConnection t hpc => exact h.move rfl rfl h.conns rfl fun _ hc => nomatch hc
  | pop t now connected hpc =>
      -- All that the loop has taken was in `m_conns`.
      have hconns := popLoop_append cfg s.heap now connected s.conns
      rcases hloop : popLoop cfg s.heap now connected s.conns with ⟨ptr, invalid, rest⟩
      rw [hloop] at hconns
      simp only [Pool.pop, hloop]
      refine h.move rfl rfl ?_ rfl ?_
      · intro c hc
        refine h.conns c ?_
        rw [hconns]
        exact List.mem_append_right _ (List.mem_append_right _ hc)
      · intro c hc
        refine (h.conns c ?_).ready
        rw [hconns]
        rcases List.mem_append.mp hc with hc | hc
        · exact List.mem_append_right _ (List.mem_append_left _ hc)
        · exact List.mem_append_left _ hc
  | discard t ptr invalid hpc =>
      refine h.move rfl rfl h.conns rfl ?_
      intro c hc
      have hfits := h.own t c
      rw [hpc] at hfits
      exact hfits (List.mem_append_left _ hc)
  | subtract t ptr size hpc =>
      refine h.move rfl rfl h.conns rfl ?_
      intro c hc
      have hfits := h.own t c
      rw [hpc] at hfits
      cases ptr with
      | none => cases hc
      | some ptr => exact hfits hc
  | connect t success hpc => exact h.connect hplaced success
  | count t ptr hpc =>
      refine h.move rfl rfl h.conns rfl ?_
      intro c hc
      have hfits := h.own t c
      rw [hpc] at hfits
      exact hfits hc
  | hand t ptr hpc => exact h.hand hplaced hpc
  | releasePtr t ptr hpc hout => exact h.releasePtr hplaced hout
  | check t ptr connected hpc =>
      have hptr := h.own t ptr
      rw [hpc] at hptr
      replace hptr : (s.heap ptr).handouts = (s.heap ptr).request :=
        hptr (List.mem_singleton_self ptr)
      unfold Pool.check
      split
      · exact h.move rfl rfl h.conns rfl fun _ hc => nomatch hc
      next hspent =>
        refine h.move rfl rfl h.conns rfl ?_
        intro c hc
        rw [List.mem_singleton.mp hc]
        simp only [isSpent, Bool.or_eq_true, decide_eq_true_eq, not_or] at hspent
        exact ⟨hptr, not_le.mp hspent.2⟩
  | decrement t hpc => exact h.move rfl rfl h.conns rfl fun _ hc => nomatch hc
  | push t ptr hpc =>
      refine h.move rfl rfl ?_ rfl fun _ hc => nomatch hc
      intro c hc
      rcases List.mem_append.mp hc with hc | hc
      · exact h.conns c hc
      · have hptr := h.own t ptr
        rw [hpc] at hptr
        rw [List.mem_singleton.mp hc]
        exact hptr (List.mem_singleton_self ptr)

theorem served_init (n clock : Nat) : Served cfg (init n clock) where
  conns := fun _ hc => nomatch hc
  out := fun _ hc => nomatch hc
  own := fun _ _ hc => nomatch hc
  bounded := fun _ => Nat.zero_le _

/-! ## Every run -/

/-- The invariants together. -/
structure Sound (cfg : Config) (s : Pool n) : Prop where
  placed : Placed s
  counted : Counted s
  served : Served cfg s

theorem sound_step {a : Action n} (h : Sound cfg s) (hstep : step cfg s a = some s') :
    Sound cfg s' := by
  have hmoves := moves_of_step hstep
  exact ⟨placed_step h.placed hmoves, counted_step h.counted hmoves,
    served_step h.served h.placed hmoves⟩

theorem sound_init (cfg : Config) (n clock : Nat) : Sound cfg (init n clock) :=
  ⟨placed_init n clock, counted_init n clock, served_init n clock⟩

theorem sound_run {clock : Nat} {as : List (Action n)}
    (hrun : exec (step cfg) (init n clock) as = some s) : Sound cfg s :=
  exec_invariant_of_step (fun _ _ _ h hstep => sound_step h hstep) as _ _
    (sound_init cfg n clock) hrun

/-- In every state without a call in progress, `m_total` is the number of connections in `m_conns` and
in the hands of callers. In every state no connection is in two of these places or twice in one, none
in `m_conns` is deleted, and none was returned more than `max(1, m_maxRequest)` times. -/
theorem books_balanced (cfg : Config) (n clock : Nat) (as : List (Action n)) (s : Pool n)
    (hrun : exec (step cfg) (init n clock) as = some s) :
    (Quiet s → s.total = toInt32 (s.conns.length + s.out.length) ∧
      (s.conns.length + s.out.length < 2 ^ 31 → s.total = s.conns.length + s.out.length)) ∧
    (s.conns ++ s.out).Nodup ∧
    (∀ c ∈ s.conns, c ∉ s.deleted) ∧
    ∀ c, (s.heap c).handouts ≤ max 1 cfg.maxRequest := by
  have h := sound_run hrun
  have hnodup := h.placed.apart.nodup
  rw [shared] at hnodup
  refine ⟨?_, hnodup.of_append_left, ?_, h.served.bounded⟩
  · intro hquiet
    have hzero : totalOf weight s.pc = 0 := totalOf_eq_zero fun t => by
      rw [hquiet t]
      rfl
    have htotal : s.total = toInt32 (s.conns.length + s.out.length) := by
      have hcounted := h.counted
      rw [Counted, due, hzero, Nat.add_zero, Nat.cast_add] at hcounted
      exact hcounted
    refine ⟨htotal, ?_⟩
    intro hlt
    rw [htotal]
    exact toInt32_of_lt (by omega) (by omega)
  · intro c hc hdeleted
    exact List.disjoint_of_nodup_append hnodup (List.mem_append_left _ hc) hdeleted

end

/-- Two threads. A connection is made, returned, put back and returned again, and another thread makes
one of its own in between. -/
def busyRun : List (Action 2) :=
  [.getConnection thread0, .pop thread0 [], .discard thread0, .subtract thread0,
    .connect thread0 true, .getConnection thread1, .pop thread1 [], .count thread0, .hand thread0,
    .discard thread1, .subtract thread1, .connect thread1 true, .tick 100, .releasePtr thread0 0,
    .check thread0 true, .push thread0, .count thread1, .hand thread1, .getConnection thread0,
    .pop thread0 [0], .discard thread0, .subtract thread0, .hand thread0]

theorem books_balanced_busyRun :
    ∃ s, exec (step ⟨8, 10, 3⟩) (init 2 1000) busyRun = some s ∧ Quiet s ∧ s.out = [0, 1] ∧
      s.total = s.conns.length + s.out.length := by
  obtain ⟨s, hs⟩ : ∃ s, exec (step ⟨8, 10, 3⟩) (init 2 1000) busyRun = some s := ⟨_, rfl⟩
  have hquiet : Quiet s ∧ s.out = [0, 1] ∧ s.conns = [] := by
    cases hs
    refine ⟨?_, rfl, rfl⟩
    unfold Quiet
    decide +kernel
  refine ⟨s, hs, hquiet.1, hquiet.2.1, ?_⟩
  refine ((books_balanced ⟨8, 10, 3⟩ 2 1000 busyRun s hs).1 hquiet.1).2 ?_
  rw [hquiet.2.1, hquiet.2.2]
  decide

end Sylar.Http.HttpConnectionPool
