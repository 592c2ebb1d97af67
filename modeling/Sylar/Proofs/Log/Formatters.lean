import Sylar.Spec.LogAppenders

/-!
# `Sylar.Proofs.Log.Formatters`: when attached appenders have a formatter

An appender that has a formatter of its own has one that is not null, whatever is called
(`Own.call`). With this, a call keeps `Usable` exactly when it is `Safe` (`usable_call_iff`), and
so a run has `Usable` in each state exactly when each of its calls is `Safe` (`usable_run_iff`).
Two kinds of calls are not. `LogAppender::setFormatter` takes null for an attached appender too.
And `addAppender` replaces a null formatter only, so an appender that is attached again keeps the
formatter that the logger had when it was taken out.

While `Usable` holds, the logger is the one of `Log`, where appenders are values
(`view_addAppender`, `view_setFormatter`).
-/

set_option autoImplicit false

namespace Sylar.Log.LoggerObject

open Lib

section
variable {l : LoggerObject} {c : Call} {i : Nat} {val : FormatterPtr}

/-! ### The loop of `setFormatter` -/

/-- The loop changes the attached appenders without a formatter of their own. -/
theorem setFormatterLoop_apply (appenders : List Nat) : ∀ heap : Nat → AppenderObject,
    setFormatterLoop val heap appenders i =
      if i ∈ appenders ∧ (heap i).hasFormatter = false then { heap i with formatter := some val }
      else heap i := by
  induction appenders with
  | nil =>
      intro heap
      simp [setFormatterLoop]
  | cons j rest ih =>
      intro heap
      rw [setFormatterLoop, ih]
      by_cases hij : i = j
      · subst hij
        cases hown : (heap i).hasFormatter <;> simp [hown]
      · cases hown : (heap j).hasFormatter <;> simp [hij]

theorem heap_setFormatterPtr_of_mem (hi : i ∈ l.appenders) :
    (l.setFormatterPtr val).heap i =
      if (l.heap i).hasFormatter then l.heap i else { l.heap i with formatter := some val } := by
  show setFormatterLoop val l.heap l.appenders i = _
  rw [setFormatterLoop_apply]
  cases (l.heap i).hasFormatter <;> simp [hi]

theorem heap_addAppender (j : Nat) :
    (l.addAppender j).heap i =
      if i = j ∧ (l.heap j).formatter = none then { l.heap j with formatter := some l.formatter }
      else l.heap i := by
  show (if _ then _ else _ : Nat → AppenderObject) i = _
  cases hformatter : (l.heap j).formatter with
  | none =>
      rw [if_pos Option.isNone_none, Function.update_apply]
      simp only [and_true]
  | some val => simp

theorem heap_setAppenderFormatter (j : Nat) (val : Option FormatterPtr) :
    (l.setAppenderFormatter j val).heap i =
      if i = j then (l.heap j).setFormatter val else l.heap i :=
  Function.update_apply ..

/-! ### Formatters of one's own -/

/-- An appender with a formatter of its own has one. -/
def Own (l : LoggerObject) : Prop :=
  ∀ i, (l.heap i).hasFormatter = true → (l.heap i).formatter.isSome

theorem Own.setFormatterPtr (h : Own l) : Own (l.setFormatterPtr val) := by
  intro i hown
  change (setFormatterLoop val l.heap l.appenders i).hasFormatter = true at hown
  show (setFormatterLoop val l.heap l.appenders i).formatter.isSome
  rw [setFormatterLoop_apply] at hown ⊢
  split
  · rfl
  · next hnot =>
    rw [if_neg hnot] at hown
    exact h i hown

theorem Own.call (h : Own l) (c : Call) : Own (l.call c) := by
  cases c with
  | addAppender j =>
      intro i hown
      change ((l.addAppender j).heap i).hasFormatter = true at hown
      show ((l.addAppender j).heap i).formatter.isSome
      rw [heap_addAppender] at hown ⊢
      split
      · rfl
      · next hnot =>
        rw [if_neg hnot] at hown
        exact h i hown
  | delAppender j => exact h
  | clearAppenders => exact h
  | setFormatterPtr val => exact h.setFormatterPtr
  | setFormatter addr val =>
      show Own (if _ then _ else _)
      split
      · exact h
      · exact h.setFormatterPtr
  | setAppenderFormatter j val =>
      intro i hown
      change ((l.setAppenderFormatter j val).heap i).hasFormatter = true at hown
      show ((l.setAppenderFormatter j val).heap i).formatter.isSome
      rw [heap_setAppenderFormatter] at hown ⊢
      split
      · next hij =>
        rw [if_pos hij] at hown
        exact hown
      · next hij =>
        rw [if_neg hij] at hown
        exact h i hown

/-! ### What a call keeps -/

theorem Usable.of_nil (h : l.appenders = []) : Usable l :=
  ⟨fun _ hi => absurd (h ▸ hi) List.not_mem_nil, fun _ hi => absurd (h ▸ hi) List.not_mem_nil⟩

theorem Usable.setFormatterPtr (hown : Own l) : Usable (l.setFormatterPtr val) := by
  have hheap : ∀ i ∈ (l.setFormatterPtr val).appenders, (l.setFormatterPtr val).heap i = _ :=
    fun i hi => heap_setFormatterPtr_of_mem hi
  constructor
  · intro i hi
    rw [hheap i hi]
    split
    · next h => exact hown i h
    · rfl
  · intro i hi h
    rw [hheap i hi] at h ⊢
    split
    · next hhas =>
      rw [if_pos hhas, hhas] at h
      cases h
    · rfl

/-- After the appender is attached, it is usable exactly when the call is safe. -/
theorem usable_addAppender_iff (h : Usable l) (j : Nat) :
    Usable (l.addAppender j) ↔ Safe l (.addAppender j) := by
  have hj : j ∈ (l.addAppender j).appenders := List.mem_append_right _ (List.mem_singleton_self j)
  constructor
  · intro hafter hhas
    by_cases hnone : (l.heap j).formatter = none
    · exact .inl hnone
    · have hcurrent := hafter.current j hj
      rw [heap_addAppender, if_neg fun hboth => hnone hboth.2] at hcurrent
      exact .inr (hcurrent hhas)
  · intro hsafe
    -- The other appenders are as before, and the formatter of this one is replaced if null.
    have hmem : ∀ i ∈ (l.addAppender j).appenders, i ≠ j → i ∈ l.appenders := fun i hi hij =>
      (List.mem_append.mp hi).resolve_right fun hlast => hij (List.mem_singleton.mp hlast)
    constructor
    · intro i hi
      rw [heap_addAppender]
      split
      · rfl
      · next hnot =>
        by_cases hij : i = j
        · subst hij
          exact Option.isSome_iff_ne_none.mpr fun hnone => hnot ⟨rfl, hnone⟩
        · exact h.nonnull i (hmem i hi hij)
    · intro i hi
      rw [heap_addAppender]
      split
      · exact fun _ => rfl
      · next hnot =>
        by_cases hij : i = j
        · subst hij
          exact fun hhas => (hsafe hhas).resolve_left fun hnone => hnot ⟨rfl, hnone⟩
        · exact h.current i (hmem i hi hij)

theorem usable_setAppenderFormatter_iff (h : Usable l) (j : Nat) (val : Option FormatterPtr) :
    Usable (l.setAppenderFormatter j val) ↔ Safe l (.setAppenderFormatter j val) := by
  cases val with
  | none =>
      constructor
      · intro hafter hj
        have hnull := hafter.nonnull j hj
        rw [heap_setAppenderFormatter, if_pos rfl] at hnull
        cases hnull
      · intro hj
        have hsame : ∀ i ∈ l.appenders, (l.setAppenderFormatter j none).heap i = l.heap i := by
          intro i hi
          rw [heap_setAppenderFormatter, if_neg]
          rintro rfl
          exact hj hi
        exact ⟨fun i hi => (hsame i hi).symm ▸ h.nonnull i hi,
          fun i hi => (hsame i hi).symm ▸ h.current i hi⟩
  | some val =>
      refine iff_of_true ⟨fun i hi => ?_, fun i hi hhas => ?_⟩ trivial
      · rw [heap_setAppenderFormatter]
        split
        · rfl
        · exact h.nonnull i hi
      · rw [heap_setAppenderFormatter] at hhas ⊢
        split at hhas
        · cases hhas
        · next hij =>
          rw [if_neg hij]
          exact h.current i hi hhas

/-- The appenders stay usable exactly when the call is safe. -/
theorem usable_call_iff (hown : Own l) (h : Usable l) (c : Call) :
    Usable (l.call c) ↔ Safe l c := by
  cases c with
  | addAppender j => exact usable_addAppender_iff h j
  | delAppender j =>
      have hmem : ∀ i ∈ (l.delAppender j).appenders, i ∈ l.appenders :=
        fun i => List.mem_of_mem_erase
      exact iff_of_true ⟨fun i hi => h.nonnull i (hmem i hi), fun i hi => h.current i (hmem i hi)⟩
        trivial
  | clearAppenders =>
      exact iff_of_true (Usable.of_nil rfl) trivial
  | setFormatterPtr val => exact iff_of_true (Usable.setFormatterPtr hown) trivial
  | setFormatter addr val =>
      refine iff_of_true ?_ trivial
      show Usable (if _ then _ else _)
      split
      · exact h
      · exact Usable.setFormatterPtr hown
  | setAppenderFormatter j val => exact usable_setAppenderFormatter_iff h j val

/-! ### Logging -/

theorem Usable.logLoop (level : LogLevel) {appenders : List Nat}
    (h : ∀ i ∈ appenders, (l.heap i).formatter.isSome) :
    ∃ formatters, LoggerObject.logLoop level l.heap appenders = .ok formatters := by
  induction appenders with
  | nil => exact ⟨[], rfl⟩
  | cons i rest ih =>
      rw [List.forall_mem_cons] at h
      obtain ⟨formatters, hrest⟩ := ih h.2
      obtain ⟨val, hval⟩ := Option.isSome_iff_exists.mp h.1
      rw [LoggerObject.logLoop, AppenderObject.log, hval, hrest]
      split
      · exact ⟨_, rfl⟩
      · exact ⟨_, rfl⟩

/-- No null pointer is followed. -/
theorem Usable.log (h : Usable l) (level : LogLevel) :
    ∃ formatters, l.log level = .ok formatters := by
  rw [LoggerObject.log]
  split
  · exact Usable.logLoop level h.nonnull
  · exact ⟨[], rfl⟩

/-! ### Appenders as values -/

/-- While the appenders are usable, no other entry changes when one is attached. -/
theorem view_addAppender (h : Usable l) (j : Nat) :
    (l.addAppender j).view = l.view.addAppender (l.heap j).view := by
  have hold : ∀ i ∈ l.appenders, (l.addAppender j).heap i = l.heap i := by
    intro i hi
    rw [heap_addAppender, if_neg]
    rintro ⟨rfl, hnone⟩
    have hsome := h.nonnull i hi
    rw [hnone] at hsome
    cases hsome
  have hview : (l.addAppender j).view =
      { l.view with appenders := l.view.appenders ++ [((l.addAppender j).heap j).view] } := by
    show Logger.mk _ _ _ ((l.appenders ++ [j]).map fun i => ((l.addAppender j).heap i).view) = _
    rw [List.map_append, List.map_congr_left fun i hi => by rw [hold i hi]]
    rfl
  rw [hview, heap_addAppender, Logger.addAppender]
  cases hformatter : (l.heap j).formatter with
  | none => simp [AppenderObject.view, hformatter, view]
  | some val => simp [AppenderObject.view, hformatter]

theorem view_setFormatterPtr :
    (l.setFormatterPtr val).view = l.view.setFormatterPtr val.formatter := by
  show Logger.mk _ _ _ (l.appenders.map fun i => ((l.setFormatterPtr val).heap i).view) = _
  rw [List.map_congr_left fun i hi => by rw [heap_setFormatterPtr_of_mem hi], view,
    Logger.setFormatterPtr, List.map_map]
  congr 1
  refine List.map_congr_left fun i _ => ?_
  cases hhas : (l.heap i).hasFormatter <;> simp [AppenderObject.view, hhas]

theorem view_setFormatter (addr : Nat) (val : Text) :
    (l.setFormatter addr val).view = l.view.setFormatter val := by
  rw [setFormatter, Logger.setFormatter]
  split
  · rfl
  · exact view_setFormatterPtr

end

/-! ### Runs -/

/-- On a new logger and new appenders, all states of a run have usable appenders if and only if
each call is safe. With usable appenders `log` follows no null pointer. A pattern in error changes
nothing. -/
theorem usable_run_iff (name : Text) (addr : Nat) (appenders : Nat → AppenderKind × LogLevel) :
    (∀ calls, (∀ before l, before <+: calls →
        exec step (new name addr appenders) before = some l → Usable l) ↔
      Guarded step Safe (new name addr appenders) calls) ∧
    (∀ l : LoggerObject, Usable l → ∀ level, ∃ formatters, l.log level = .ok formatters) ∧
    ∀ (l : LoggerObject) (addr : Nat) (val : Text), LogFormatter.isError ⟨val⟩ = true →
      l.setFormatter addr val = l := by
  refine ⟨fun calls => ?_, fun l h level => h.log level, fun l addr val h => if_pos h⟩
  have hown : Own (new name addr appenders) := fun i h => Bool.noConfusion h
  have husable : Usable (new name addr appenders) := Usable.of_nil rfl
  have hstep : ∀ l c l', Own l ∧ Usable l → step l c = some l' →
      (Safe l c ↔ Own l' ∧ Usable l') := by
    rintro l c l' ⟨hown, husable⟩ h
    cases Option.some.inj h
    rw [and_iff_right (hown.call c), usable_call_iff hown husable]
  have hown_run : ∀ before l, exec step (new name addr appenders) before = some l → Own l :=
    fun before l => exec_invariant_of_step
      (fun l c l' hown h => Option.some.inj h ▸ hown.call c) before _ l hown
  rw [guarded_iff_forall_states hstep (fun l c h => nomatch h) calls _ ⟨hown, husable⟩]
  exact ⟨fun h before l hbefore hrun => ⟨hown_run before l hrun, h before l hbefore hrun⟩,
    fun h before l hbefore hrun => (h before l hbefore hrun).2⟩

/-- An appender whose formatter is reset while it is attached has none, and the next event is
formatted through a null pointer. An appender that is taken out, and attached again after the
logger has got another formatter, still has the first one. -/
theorem not_usable_runs :
    let start := new (text "system") 0 fun _ => (.stdout, .debug)
    let val : FormatterPtr := ⟨1, ⟨text "%m"⟩⟩
    (∃ l, exec step start [.addAppender 0, .setAppenderFormatter 0 none] = some l ∧
      ¬ Usable l ∧ l.log .info = .error ()) ∧
    ∃ l, exec step start [.addAppender 0, .delAppender 0, .setFormatterPtr val, .addAppender 0] =
        some l ∧
      ¬ Usable l ∧ l.formatter = val ∧ l.log .info = .ok [start.formatter] := by
  refine ⟨⟨_, rfl, fun h => ?_, rfl⟩, ⟨_, rfl, fun h => ?_, rfl, rfl⟩⟩
  · exact absurd (h.nonnull 0 (by decide)) (by decide)
  · exact absurd (h.current 0 (by decide) rfl) (by decide)

end Sylar.Log.LoggerObject
