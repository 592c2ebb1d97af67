import Sylar.Spec.LogConfig

/-!
# `Sylar.Proofs.Log.RoundTrip`: which logging configurations survive being printed and read

Printing writes the formatter of a logger only when it is empty. Reading ignores the level of an
appender, and the formatter of an appender to the standard output. `decode_encode` says what comes
back: the configuration without those. So a configuration survives exactly when it has none of them.

What yaml-cpp does with the text is a pair of functions `emit` and `load` with `load (emit n) = n`.
-/

set_option autoImplicit false

namespace Sylar.Log

open Lib Lib.Yaml

/-! ## What is lost -/

/-- What comes back of an appender. -/
def LogAppenderDefine.kept (a : LogAppenderDefine) : LogAppenderDefine :=
  if a.type = 1 then { a with level := .unknow } else ⟨a.type, .unknow, [], []⟩

/-- What comes back of a logger. -/
def LogDefine.kept (d : LogDefine) : LogDefine :=
  { d with formatter := [], appenders := d.appenders.map LogAppenderDefine.kept }

/-- The definitions that the two casts are made for: levels of the enumeration, and appenders of the
two types. -/
def LogDefine.proper (d : LogDefine) : Prop :=
  d.level ≠ .hundred ∧ ∀ a ∈ d.appenders, a.level ≠ .hundred ∧ (a.type = 1 ∨ a.type = 2)

/-- There is nothing in the definition that is lost. -/
def LogDefine.survives (d : LogDefine) : Prop :=
  d.formatter = [] ∧ ∀ a ∈ d.appenders,
    a.level = .unknow ∧ (a.type = 2 → a.formatter = [] ∧ a.file = [])

theorem kept_eq_self_iff {d : LogDefine} (h : d.proper) : d.kept = d ↔ d.survives := by
  have happender : ∀ a : LogAppenderDefine, (a.type = 1 ∨ a.type = 2) →
      (a.kept = a ↔ a.level = .unknow ∧ (a.type = 2 → a.formatter = [] ∧ a.file = [])) := by
    rintro ⟨type, level, formatter, file⟩ htype
    dsimp only at htype
    rcases htype with rfl | rfl
    · simp [LogAppenderDefine.kept, eq_comm]
    · simp [LogAppenderDefine.kept, eq_comm]
  obtain ⟨name, level, formatter, appenders⟩ := d
  have hlist : appenders.map LogAppenderDefine.kept = appenders ↔
      ∀ a ∈ appenders, a.level = .unknow ∧ (a.type = 2 → a.formatter = [] ∧ a.file = []) := by
    conv_lhs => rhs; rw [← List.map_id appenders]
    rw [List.map_inj_left]
    exact forall₂_congr fun a ha => happender a (h.2 a ha).2
  simp only [LogDefine.kept, LogDefine.survives, LogDefine.mk.injEq, true_and, hlist]
  rw [eq_comm]

/-! ## What is read back -/

theorem decodeAppender_encodeAppender {a : LogAppenderDefine} (h : a.type = 1 ∨ a.type = 2) :
    decodeAppender (encodeAppender a) = .ok (some a.kept) := by
  obtain ⟨type, level, formatter, file⟩ := a
  dsimp only at h
  rcases h with rfl | rfl
  · cases formatter <;> cases level <;> rfl
  · cases formatter <;> cases level <;> rfl

theorem get_appenders (d : LogDefine) :
    (encodeDefine d).get (text "appenders") =
      .ok (if d.appenders.isEmpty then none
        else some (.ofItems (d.appenders.map encodeAppender))) := by
  obtain ⟨name, level, formatter, appenders⟩ := d
  cases appenders <;> cases formatter <;> cases level <;> rfl

theorem elements_ofItems (items : List Yaml.Node) : (Yaml.Node.ofItems items).elements = items := by
  cases items <;> rfl

theorem decodeAppenders_encodeDefine {d : LogDefine} (h : d.proper) :
    decodeAppenders (encodeDefine d) = .ok (d.appenders.map LogAppenderDefine.kept) := by
  have hloop : (d.appenders.map encodeAppender).mapM decodeAppender =
      .ok (d.appenders.map fun a => some a.kept) :=
    mapM_map_eq_ok fun a ha => decodeAppender_encodeAppender (h.2 a ha).2
  rw [decodeAppenders, get_appenders, except_ok_bind]
  cases happ : d.appenders with
  | nil => rfl
  | cons a as =>
      rw [happ] at hloop
      simp only [List.isEmpty_cons, Bool.false_eq_true, if_false, elements_ofItems, hloop,
        except_ok_bind]
      simp [List.reduceOption, pure, Except.pure]

theorem decodeDefine_encodeDefine {d : LogDefine} (h : d.proper) :
    decodeDefine (encodeDefine d) = .ok (some d.kept) := by
  -- The members other than the appenders are read off the tree.
  have hhead : decodeDefine (encodeDefine d) = (do
      pure (some ⟨d.name, d.level, [], ← decodeAppenders (encodeDefine d)⟩)) := by
    obtain ⟨name, level, formatter, appenders⟩ := d
    have hlevel : level ≠ .hundred := h.1
    cases level with
    | hundred => exact absurd rfl hlevel
    | _ => cases appenders <;> cases formatter <;> rfl
  rw [hhead, decodeAppenders_encodeDefine h]
  rfl

/-- A configuration of proper definitions comes back without what is lost. -/
theorem decode_encode {v : LogDefines} (h : ∀ d ∈ v.elems, d.proper) :
    ∃ w, decode (encode v) = .ok w ∧ w.elems = v.elems.map LogDefine.kept := by
  have hloop : (v.elems.map encodeDefine).mapM decodeDefine =
      .ok (v.elems.map fun d => some d.kept) :=
    mapM_map_eq_ok fun d hd => decodeDefine_encodeDefine (h d hd)
  refine ⟨(v.elems.map LogDefine.kept).foldl KeyedSet.insert .empty, ?_, ?_⟩
  · rw [decode, encode, elements_ofItems, hloop, except_ok_bind]
    simp [List.reduceOption, pure, Except.pure]
  · -- The names are kept, and with them the order.
    refine KeyedSet.foldl_insert_eq .empty _ ?_
    exact List.pairwise_map.mpr v.sorted

section
variable {Doc : Type} (emit : Yaml.Node → Doc) (load : Doc → Yaml.Node)

/-- A configuration of proper definitions comes back as it was if and only if there is nothing in it
that is lost. -/
theorem fromText_toText_iff (hload : ∀ n, load (emit n) = n) (v : LogDefines)
    (h : ∀ d ∈ v.elems, d.proper) :
    fromText load (toText emit v) = .ok v ↔ ∀ d ∈ v.elems, d.survives := by
  obtain ⟨w, hw, helems⟩ := decode_encode h
  rw [fromText, toText, hload, hw]
  have heq : Except.ok w = (Except.ok v : Except Exception LogDefines) ↔
      v.elems.map LogDefine.kept = v.elems := by
    rw [Except.ok.injEq, KeyedSet.ext_iff, helems]
  rw [heq]
  conv_lhs => rhs; rw [← List.map_id v.elems]
  rw [List.map_inj_left]
  exact forall₂_congr fun d hd => kept_eq_self_iff (h d hd)

end

/-- A logger with a file and the standard output, and no formatters. -/
def barrenDefine : LogDefine :=
  ⟨text "root", .info, [], [⟨1, .unknow, [], text "a.txt"⟩, ⟨2, .unknow, [], []⟩]⟩

theorem fromText_toText_barren :
    fromText id (toText id (KeyedSet.empty.insert barrenDefine)) =
      .ok (KeyedSet.empty.insert barrenDefine) := by
  have hone : ∀ d ∈ (KeyedSet.empty.insert barrenDefine : LogDefines).elems, d = barrenDefine :=
    fun d hd => List.mem_singleton.mp hd
  refine (fromText_toText_iff id id (fun _ => rfl) (KeyedSet.empty.insert barrenDefine) ?_).mpr ?_
  · intro d hd
    rw [hone d hd]
    refine ⟨by decide, ?_⟩
    decide
  · intro d hd
    rw [hone d hd]
    refine ⟨rfl, ?_⟩
    decide

/-- A logger with a formatter. It comes back without. -/
def formattedDefine : LogDefine := ⟨text "root", .info, text "%m%n", []⟩

theorem formatter_lost :
    ∃ w, fromText id (toText id (KeyedSet.empty.insert formattedDefine)) = .ok w ∧
      w.elems.map LogDefine.formatter = [[]] ∧
      w.elems ≠ (KeyedSet.empty.insert formattedDefine : LogDefines).elems :=
  ⟨_, rfl, by decide, by decide⟩

end Sylar.Log
