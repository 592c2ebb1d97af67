import Sylar.Spec.Log

/-!
# `Sylar.Proofs.Log.Append`: when a file log is append-only

An accepted call that comes three seconds or more after the last reopening opens the file again, and
opening truncates it. So the file has all texts exactly when each such call finds the file empty.
That is the case for the first call after the construction, and in general for no later one.
-/

set_option autoImplicit false

namespace Sylar.Log.FileLogAppender

open Lib

section
variable {ε : Type} (format : ε → Text)

/-- The file ends with exactly the texts of the accepted events, and no call removes what an earlier
one has written. -/
def AppendOnly (level : LogLevel) (calls : List (LogCall ε)) : Prop :=
  (logAll format (new level) calls).content = texts format level calls ∧
    ∀ before after, calls = before ++ after →
      (logAll format (new level) before).content <+: (logAll format (new level) calls).content

/-- The call is not accepted, or does not open the file, or nothing has been written yet. -/
def Lossless (a : FileLogAppender) (c : LogCall ε) : Prop :=
  a.level.toNat ≤ c.level.toNat → a.lastTime + 3 ≤ c.now → a.content = []

instance (a : FileLogAppender) (c : LogCall ε) : Decidable (Lossless a c) :=
  inferInstanceAs (Decidable (_ → _ → _))

/-- Each call is lossless where it is made. -/
def LosslessRun : FileLogAppender → List (LogCall ε) → Prop :=
  Guarded (fun a c => some (log format a c)) Lossless

variable {format} {a : FileLogAppender} {c : LogCall ε} {calls : List (LogCall ε)}

theorem level_log : (log format a c).level = a.level := by
  unfold log reopen
  split
  · split <;> rfl
  · rfl

theorem texts_cons (level : LogLevel) :
    texts format level (c :: calls) =
      (if level.toNat ≤ c.level.toNat then format c.event else []) ++
        texts format level calls := by
  unfold texts
  split
  next h => simp [h]
  next h => simp [h]

/-- What a lossless call does to the file. -/
theorem content_log_of_lossless (h : Lossless a c) :
    (log format a c).content =
      a.content ++ if a.level.toNat ≤ c.level.toNat then format c.event else [] := by
  unfold log reopen
  by_cases hlevel : a.level.toNat ≤ c.level.toNat
  · by_cases htime : a.lastTime + 3 ≤ c.now
    · simp [hlevel, htime, h hlevel htime]
    · simp [hlevel, htime]
  · simp [hlevel]

/-- What any call leaves, in bytes. A call that is not lossless loses some. -/
theorem length_log_le (format : ε → Text) (a : FileLogAppender) (c : LogCall ε) :
    (log format a c).content.length ≤
      a.content.length + (if a.level.toNat ≤ c.level.toNat then format c.event else []).length := by
  unfold log reopen
  split
  · split <;> simp
  · simp

theorem length_log_lt (format : ε → Text) (h : ¬ Lossless a c) :
    (log format a c).content.length <
      a.content.length + (if a.level.toNat ≤ c.level.toNat then format c.event else []).length := by
  simp only [Lossless, Classical.not_imp] at h
  obtain ⟨hlevel, htime, hcontent⟩ := h
  have hpos := List.length_pos_iff.mpr hcontent
  simp only [log, reopen, hlevel, htime, if_true, List.nil_append]
  omega

theorem losslessRun_cons :
    LosslessRun format a (c :: calls) ↔ Lossless a c ∧ LosslessRun format (log format a c) calls :=
  Iff.rfl

theorem content_of_losslessRun (h : LosslessRun format a calls) :
    (logAll format a calls).content = a.content ++ texts format a.level calls := by
  induction calls generalizing a with
  | nil => simp [logAll, texts]
  | cons c calls ih =>
      obtain ⟨hc, hrest⟩ := losslessRun_cons.mp h
      have hnext := ih hrest
      rw [level_log, content_log_of_lossless hc, List.append_assoc, ← texts_cons] at hnext
      exact hnext

theorem length_logAll_le (format : ε → Text) (a : FileLogAppender) (calls : List (LogCall ε)) :
    (logAll format a calls).content.length ≤
      a.content.length + (texts format a.level calls).length := by
  induction calls generalizing a with
  | nil => simp [logAll, texts]
  | cons c calls ih =>
      have hnext := ih (log format a c)
      have hstep := length_log_le format a c
      rw [level_log] at hnext
      rw [texts_cons, List.length_append]
      exact hnext.trans (by omega)

/-- What was lost does not come back: the file is too short at the end. -/
theorem length_logAll_lt (h : ¬ LosslessRun format a calls) :
    (logAll format a calls).content.length <
      a.content.length + (texts format a.level calls).length := by
  induction calls generalizing a with
  | nil => exact absurd trivial h
  | cons c calls ih =>
      rw [losslessRun_cons, not_and_or] at h
      rw [texts_cons, List.length_append]
      rcases h with hc | hrest
      · have hnext := length_logAll_le format (log format a c) calls
        have hstep := length_log_lt format hc
        rw [level_log] at hnext
        exact lt_of_le_of_lt hnext (by omega)
      · have hnext := ih hrest
        have hstep := length_log_le format a c
        rw [level_log] at hnext
        exact lt_of_lt_of_le hnext (by omega)

theorem losslessRun_drop {before after : List (LogCall ε)}
    (h : LosslessRun format a (before ++ after)) :
    LosslessRun format (logAll format a before) after := by
  induction before generalizing a with
  | nil => exact h
  | cons c before ih => exact ih (losslessRun_cons.mp h).2

/-- The file log is append-only if and only if each accepted call that opens the file again finds it
empty. -/
theorem appendOnly_iff (format : ε → Text) (level : LogLevel) (calls : List (LogCall ε)) :
    AppendOnly format level calls ↔ LosslessRun format (new level) calls := by
  constructor
  · rintro ⟨hcontent, -⟩
    by_contra hloss
    have hlt := length_logAll_lt hloss
    rw [hcontent] at hlt
    simp [new, reopen] at hlt
  · intro h
    refine ⟨content_of_losslessRun h, ?_⟩
    rintro before after rfl
    have hafter := content_of_losslessRun (losslessRun_drop h)
    refine ⟨_, hafter.symm.trans ?_⟩
    rw [logAll, logAll, logAll, List.foldl_append]

end

/-- Two events four seconds apart: the second call empties the file. -/
theorem log_truncates :
    ¬ AppendOnly (fun x : Text => x) .debug [⟨.info, 100, [65]⟩, ⟨.info, 104, [66]⟩] := by
  rintro ⟨hcontent, -⟩
  revert hcontent
  decide

end Sylar.Log.FileLogAppender
