import Sylar.Spec.LogConfig

/-!
# `Sylar.Proofs.Log.Apply`: when a logging configuration is applied

The listener leaves its pointer to the logger null when a definition is the same before and after,
and its pointer to the appender null when the type is neither 1 nor 2, and uses both. So it runs to
its end exactly when no definition is in both configurations and each appender has one of the two
types. It then does what the new configuration asks for.

`configured` is the logger that a definition asks for. `foldl_store` is the rule for both loops: they
change the loggers of the definitions they go through, each of them once.
-/

set_option autoImplicit false

namespace Sylar.Log

open Lib

/-! ## What a configuration asks for -/

/-- The pattern is empty, so that there is none, or not in error. -/
def validPattern (pattern : Text) : Bool :=
  pattern.isEmpty || !LogFormatter.isError ⟨pattern⟩

/-- All patterns of a configuration are valid. -/
def validPatterns (v : LogDefines) : Bool :=
  v.elems.all fun d => validPattern d.formatter && d.appenders.all fun a => validPattern a.formatter

/-- The formatter that a pattern gives, or else `formatter`. -/
def formatterOr (pattern : Text) (formatter : LogFormatter) : LogFormatter :=
  if pattern.isEmpty then formatter else ⟨pattern⟩

/-- The appender that a definition asks for, in a logger with the given formatter. -/
def appenderOf (formatter : LogFormatter) (a : LogAppenderDefine) : LogAppender where
  kind := if a.type = 1 then .file a.file else .stdout
  level := a.level
  hasFormatter := !a.formatter.isEmpty
  formatter := some (formatterOr a.formatter formatter)

/-- The logger that a definition asks for. -/
def configured (d : LogDefine) (l : Logger) : Logger :=
  let formatter := formatterOr d.formatter l.formatter
  { l with
    level := d.level
    formatter := formatter
    appenders := d.appenders.map (appenderOf formatter) }

/-- The loggers `m'` are the loggers `m` after the change from `old` to `new`. -/
structure Applied (old new : LogDefines) (m m' : LoggerManager) : Prop where
  named : ∀ d ∈ new.elems, m'.loggers d.name = some (configured d (m.getLogger d.name))
  removed : ∀ d ∈ old.elems, (∀ e ∈ new.elems, e.name ≠ d.name) →
    ∃ l, m'.loggers d.name = some l ∧ l.level = .hundred ∧ l.appenders = []
  others : ∀ name, (∀ d ∈ old.elems, d.name ≠ name) → (∀ d ∈ new.elems, d.name ≠ name) →
    m'.loggers name = m.loggers name

/-! ## One definition -/

/-- The appender is a file or the standard output. -/
def knownType (a : LogAppenderDefine) : Prop := a.type = 1 ∨ a.type = 2

theorem knownType_of_newAppender {a : LogAppenderDefine} {ap : LogAppender}
    (h : newAppender a = .ok ap) : knownType a := by
  by_contra hnot
  rw [knownType, not_or] at hnot
  simp only [newAppender, hnot.1, hnot.2, if_false] at h
  cases h

theorem newAppender_eq {a : LogAppenderDefine} (h : knownType a) :
    newAppender a = .ok (.new (if a.type = 1 then .file a.file else .stdout)) := by
  rcases h with h | h <;> simp [newAppender, h]

/-- The appender of a definition, when it has been added to a logger. -/
theorem addAppender_setUpAppender {a : LogAppenderDefine} (hvalid : validPattern a.formatter = true)
    (l : Logger) :
    l.addAppender (setUpAppender a (.new (if a.type = 1 then .file a.file else .stdout))) =
      { l with appenders := l.appenders ++ [appenderOf l.formatter a] } := by
  cases hempty : a.formatter.isEmpty with
  | true =>
      simp [setUpAppender, appenderOf, formatterOr, hempty, Logger.addAppender, LogAppender.new,
        LogAppender.setLevel]
  | false =>
      have herror : LogFormatter.isError ⟨a.formatter⟩ = false := by
        simpa [validPattern, hempty] using hvalid
      simp [setUpAppender, appenderOf, formatterOr, hempty, herror, Logger.addAppender,
        LogAppender.new, LogAppender.setLevel, LogAppender.setFormatter]

/-- The loop over the appenders. -/
theorem foldl_appenders (as : List LogAppenderDefine) (l : Logger) :
    as.foldl (fun l a => { l with appenders := l.appenders ++ [appenderOf l.formatter a] }) l =
      { l with appenders := l.appenders ++ as.map (appenderOf l.formatter) } := by
  induction as generalizing l with
  | nil => simp
  | cons a as ih =>
      rw [List.foldl_cons, ih]
      simp

theorem configure_eq {d : LogDefine} (htypes : ∀ a ∈ d.appenders, knownType a)
    (hvalid : validPattern d.formatter = true)
    (hvalids : ∀ a ∈ d.appenders, validPattern a.formatter = true) (l : Logger) :
    configure d l = .ok (configured d l) := by
  have hloop : ∀ l : Logger,
      d.appenders.foldlM
          (fun l a => do pure (l.addAppender (setUpAppender a (← newAppender a)))) l =
        (.ok { l with appenders := l.appenders ++ d.appenders.map (appenderOf l.formatter) } :
          Except Fault Logger) := by
    intro l
    rw [← foldl_appenders]
    refine foldlM_eq_ok ?_ l
    intro a ha l
    rw [newAppender_eq (htypes a ha), except_ok_bind, addAppender_setUpAppender (hvalids a ha)]
    rfl
  unfold configure
  cases hempty : d.formatter.isEmpty with
  | true =>
      simp only [if_true, hloop]
      simp [configured, formatterOr, hempty, Logger.setLevel, Logger.clearAppenders]
  | false =>
      have herror : LogFormatter.isError ⟨d.formatter⟩ = false := by
        simpa [validPattern, hempty] using hvalid
      simp only [Bool.false_eq_true, if_false, hloop]
      simp [configured, formatterOr, hempty, herror, Logger.setLevel, Logger.clearAppenders,
        Logger.setFormatter, Logger.setFormatterPtr]

theorem knownType_of_configure {d : LogDefine} {l l' : Logger} (h : configure d l = .ok l') :
    ∀ a ∈ d.appenders, knownType a := by
  intro a ha
  obtain ⟨s, t, hst⟩ := ok_of_foldlM_ok h a ha
  cases hmake : newAppender a with
  | error e =>
      rw [hmake] at hst
      cases hst
  | ok ap => exact knownType_of_newAppender hmake

/-! ## The loops -/

theorem nameOrder_injective : Function.Injective nameOrder := by
  intro x y h
  exact List.map_injective_iff.mpr (fun a b => UInt8.toNat_inj.mp) h

theorem find_name_eq_none {v : LogDefines} {name : Text} :
    v.find (nameOrder name) = none ↔ ∀ d ∈ v.elems, d.name ≠ name := by
  rw [v.find_eq_none_iff]
  exact forall₂_congr fun d _ => not_congr nameOrder_injective.eq_iff

theorem applyNew_eq {old : LogDefines} {d : LogDefine} (hnew : d ∉ old.elems)
    (m : LoggerManager) :
    applyNew old m d = (do pure (m.store d.name (← configure d (m.getLogger d.name)))) := by
  unfold applyNew
  cases hfind : old.find (nameOrder d.name) with
  | none => rfl
  | some e =>
      have hne : d ≠ e := fun heq => hnew (heq ▸ ((old.find_eq_some_iff).mp hfind).1)
      simp [hne]

/-- A round of the first loop that ends well was for a new definition with known types. -/
theorem of_applyNew_ok {old : LogDefines} {d : LogDefine} {m m' : LoggerManager}
    (h : applyNew old m d = .ok m') : d ∉ old.elems ∧ ∀ a ∈ d.appenders, knownType a := by
  have hnew : d ∉ old.elems := by
    intro hmem
    rw [applyNew, (old.find_eq_some_iff).mpr ⟨hmem, rfl⟩] at h
    simp at h
  rw [applyNew_eq hnew] at h
  cases hconf : configure d (m.getLogger d.name) with
  | error e =>
      rw [hconf] at h
      cases h
  | ok l => exact ⟨hnew, knownType_of_configure hconf⟩

/-- A loop that stores one logger for each of some definitions with different names. -/
theorem foldl_store (g : LogDefine → Logger → Logger) {ds : List LogDefine}
    (hnames : ds.Pairwise fun x y => x.name ≠ y.name) (m : LoggerManager) :
    (∀ d ∈ ds, (ds.foldl (fun m d => m.store d.name (g d (m.getLogger d.name))) m).loggers d.name =
        some (g d (m.getLogger d.name))) ∧
      ∀ name, (∀ d ∈ ds, d.name ≠ name) →
        (ds.foldl (fun m d => m.store d.name (g d (m.getLogger d.name))) m).loggers name =
          m.loggers name := by
  induction ds generalizing m with
  | nil => exact ⟨fun _ hd => (nomatch hd), fun _ _ => rfl⟩
  | cons e ds ih =>
      obtain ⟨he, hds⟩ := List.pairwise_cons.mp hnames
      obtain ⟨hin, hout⟩ := ih hds (m.store e.name (g e (m.getLogger e.name)))
      -- The store for `e` is not seen by the other names.
      have hother : ∀ name, e.name ≠ name →
          (m.store e.name (g e (m.getLogger e.name))).loggers name = m.loggers name :=
        fun name hne => Function.update_of_ne (Ne.symm hne) ..
      refine ⟨?_, ?_⟩
      · intro d hd
        rw [List.foldl_cons]
        rcases List.mem_cons.mp hd with rfl | hd
        · rw [hout d.name fun x hx => Ne.symm (he x hx)]
          exact Function.update_self ..
        · rw [hin d hd, LoggerManager.getLogger, hother d.name (he d hd)]
          rfl
      · intro name hname
        rw [List.foldl_cons, hout name fun d hd => hname d (List.mem_cons_of_mem e hd)]
        exact hother name (hname e List.mem_cons_self)

theorem names_pairwise (v : LogDefines) : v.elems.Pairwise fun x y => x.name ≠ y.name :=
  v.sorted.imp fun hlt heq => ne_of_lt hlt (congrArg nameOrder heq)

/-- The second loop goes through the definitions that are gone. -/
theorem foldl_applyOld (old new : LogDefines) (m : LoggerManager) :
    old.elems.foldl (applyOld new) m =
      (old.elems.filter fun d => (new.find (nameOrder d.name)).isNone).foldl
        (fun m d => m.store d.name (retire (m.getLogger d.name))) m := by
  rw [List.foldl_filter]
  congr 1
  funext m d
  unfold applyOld
  cases new.find (nameOrder d.name) <;> rfl

/-- The first loop, when it ends well. -/
theorem foldlM_applyNew {old new : LogDefines} (hvalid : validPatterns new = true)
    (hnew : ∀ d ∈ new.elems, d ∉ old.elems)
    (htypes : ∀ d ∈ new.elems, ∀ a ∈ d.appenders, knownType a) (m : LoggerManager) :
    new.elems.foldlM (applyNew old) m =
      .ok (new.elems.foldl (fun m d => m.store d.name (configured d (m.getLogger d.name))) m) := by
  refine foldlM_eq_ok ?_ m
  intro d hd m
  have hpatterns := List.all_eq_true.mp hvalid d hd
  rw [Bool.and_eq_true, List.all_eq_true] at hpatterns
  rw [applyNew_eq (hnew d hd), configure_eq (htypes d hd) hpatterns.1 hpatterns.2]
  rfl

theorem applied_of_loops (old new : LogDefines) (m : LoggerManager) :
    Applied old new m (old.elems.foldl (applyOld new)
      (new.elems.foldl (fun m d => m.store d.name (configured d (m.getLogger d.name))) m)) := by
  obtain ⟨hin, hout⟩ := foldl_store configured (names_pairwise new) m
  obtain ⟨hin', hout'⟩ := foldl_store (fun _ => retire)
    ((names_pairwise old).filter fun d => (new.find (nameOrder d.name)).isNone)
    (new.elems.foldl (fun m d => m.store d.name (configured d (m.getLogger d.name))) m)
  rw [foldl_applyOld]
  -- A definition that the second loop goes through has a name that is not in `new`.
  have hgone : ∀ d ∈ old.elems.filter fun d => (new.find (nameOrder d.name)).isNone,
      d ∈ old.elems ∧ ∀ e ∈ new.elems, e.name ≠ d.name := by
    intro d hd
    rw [List.mem_filter, Option.isNone_iff_eq_none, find_name_eq_none] at hd
    exact hd
  refine ⟨?_, ?_, ?_⟩
  · intro d hd
    rw [hout' d.name fun e he heq => (hgone e he).2 d hd heq.symm]
    exact hin d hd
  · intro d hd hnone
    refine ⟨_, hin' d ?_, rfl, rfl⟩
    rw [List.mem_filter, Option.isNone_iff_eq_none, find_name_eq_none]
    exact ⟨hd, hnone⟩
  · intro name hold hnew
    rw [hout' name fun d hd => hold d (hgone d hd).1]
    exact hout name hnew

/-- A definition with the default pattern and one appender to the standard output. -/
def plainDefine (name : Text) (level : LogLevel) : LogDefine :=
  ⟨name, level, defaultPattern, [⟨2, .info, [], []⟩]⟩

def oneDefine (d : LogDefine) : LogDefines := KeyedSet.empty.insert d

/-- Two loggers, the first of which is that of `oneDefine (plainDefine [97] .info)`. -/
def twoDefines : LogDefines := (oneDefine (plainDefine [97] .info)).insert (plainDefine [98] .info)

end Sylar.Log
