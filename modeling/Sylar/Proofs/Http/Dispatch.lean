import Sylar.Lib.Run
import Sylar.Spec.Servlet

/-!
# `Sylar.Proofs.Http.Dispatch`: when the dispatcher behaves as two maps

`delServlet` edits the vector of patterns in place of the exact table, and `delGlobServlet` does
nothing. `harmless` is the condition that a deletion has nothing to delete: neither table has the
uri of a `delServlet`, and the vector does not have the pattern of a `delGlobServlet`. In a run of
such calls every lookup gives what the list of calls asks for.
-/

set_option autoImplicit false

namespace Sylar.Http.ServletDispatch

open Lib

section
variable {σ : Type} {d d' : ServletDispatch σ} {calls : List (Call σ)}

/-- The uri of a `delServlet` is in neither table, the one of a `delGlobServlet` is no pattern. -/
def harmless (d : ServletDispatch σ) : Call σ → Bool
  | .delServlet uri => (d.datas uri).isNone && d.globs.all fun g => g.1 != uri
  | .delGlobServlet uri => d.globs.all fun g => g.1 != uri
  | _ => true

/-- The tables are what the calls so far, the newest first, ask for. -/
structure Holds (calls : List (Call σ)) (d : ServletDispatch σ) : Prop where
  datas : ∀ uri, d.datas uri = exactServlet uri calls
  globs : d.globs = patterns calls

theorem holds_addServlet {uri : Uri} {slt : σ} (h : Holds calls d) :
    Holds (.addServlet uri slt :: calls) (d.addServlet uri slt) where
  datas := by
    intro u
    by_cases hu : u = uri
    · subst hu
      simp [addServlet, exactServlet]
    · simp [addServlet, exactServlet, hu, Ne.symm hu, h.datas]
  globs := h.globs

theorem holds_addGlobServlet {uri : Uri} {slt : σ} (h : Holds calls d) :
    Holds (.addGlobServlet uri slt :: calls) (d.addGlobServlet uri slt) where
  datas := h.datas
  globs := by
    simp only [addGlobServlet, patterns]
    rw [eraseGlob_eq_filter d.distinct, h.globs]

/-- What has no entry for a pattern does not change when the pattern is removed. -/
theorem filter_eq_of_all {uri : Uri} {globs : List (Uri × σ)}
    (h : (globs.all fun g => g.1 != uri) = true) :
    (globs.filter fun g => g.1 != uri) = globs :=
  List.filter_eq_self.mpr (List.all_eq_true.mp h)

theorem holds_delServlet {uri : Uri} (h : Holds calls d)
    (hnone : harmless d (.delServlet uri) = true) :
    Holds (.delServlet uri :: calls) (d.delServlet uri) := by
  simp only [harmless, Bool.and_eq_true, Option.isNone_iff_eq_none] at hnone
  obtain ⟨hexact, hglobs⟩ := hnone
  refine ⟨?_, ?_⟩
  · intro u
    by_cases hu : uri = u
    · subst hu
      simp [delServlet, exactServlet, hexact]
    · simp [delServlet, exactServlet, hu, h.datas]
  · simp only [delServlet, patterns]
    rw [eraseGlob_eq_filter d.distinct, filter_eq_of_all hglobs, h.globs]

theorem holds_delGlobServlet {uri : Uri} (h : Holds calls d)
    (hnone : harmless d (.delGlobServlet uri) = true) :
    Holds (.delGlobServlet uri :: calls) (d.delGlobServlet uri) where
  datas := h.datas
  globs := by
    simp only [delGlobServlet, patterns]
    rw [← h.globs, filter_eq_of_all hnone]

theorem holds_step {c : Call σ} (h : Holds calls d) (hc : harmless d c = true)
    (hstep : step d c = some d') : Holds (c :: calls) d' := by
  cases c with
  | addServlet uri slt =>
      cases hstep
      exact holds_addServlet h
  | addGlobServlet uri slt =>
      cases hstep
      exact holds_addGlobServlet h
  | delServlet uri =>
      cases hstep
      exact holds_delServlet h hc
  | delGlobServlet uri =>
      cases hstep
      exact holds_delGlobServlet h hc

theorem default_step {c : Call σ} (hstep : step d c = some d') : d'.default = d.default := by
  cases c <;> cases hstep <;> rfl

/-- A lookup in tables that are what the calls ask for. -/
theorem getMatchServlet_of_holds (fnmatch : Uri → Uri → Bool) (h : Holds calls d) (uri : Uri) :
    d.getMatchServlet fnmatch uri = expected fnmatch d.default calls uri := by
  simp only [getMatchServlet, expected, h.datas, h.globs]
  cases exactServlet uri calls with
  | some slt => rfl
  | none => cases (patterns calls).find? fun g => fnmatch g.1 uri <;> rfl

/-- The tables after a run of harmless calls. The calls of the run are older the earlier they stand,
so they come in reverse. -/
theorem holds_run {more : List (Call σ)} (h : Holds calls d)
    (hg : Guarded step (fun d c => harmless d c = true) d more)
    (hrun : exec step d more = some d') :
    Holds (more.reverse ++ calls) d' ∧ d'.default = d.default := by
  induction more generalizing d calls with
  | nil =>
      cases hrun
      exact ⟨h, rfl⟩
  | cons c more ih =>
      obtain ⟨t, ht, hrest⟩ := (exec_cons_eq_some step).mp hrun
      simp only [Guarded, ht] at hg
      have hnext := ih (holds_step h hg.1 ht) hg.2 hrest
      rw [default_step ht] at hnext
      rw [List.reverse_cons, List.append_assoc]
      exact hnext

/-- In a run of harmless calls a lookup gives the servlet that the calls ask for. -/
theorem getMatchServlet_of_harmless (fnmatch : Uri → Uri → Bool) (default : σ)
    (calls : List (Call σ)) (uri : Uri) (d : ServletDispatch σ)
    (hg : Guarded step (fun d c => harmless d c = true) (new default) calls)
    (hrun : exec step (new default) calls = some d) :
    d.getMatchServlet fnmatch uri = expected fnmatch default calls.reverse uri := by
  have hnew : Holds [] (new default) := ⟨fun _ => rfl, rfl⟩
  obtain ⟨hholds, hdefault⟩ := holds_run hnew hg hrun
  rw [List.append_nil] at hholds
  rw [getMatchServlet_of_holds fnmatch hholds uri, hdefault]
  rfl

end

/-- A pattern that is added twice, an exact uri, and two deletions with nothing to delete. -/
def harmlessCalls : List (Call Nat) :=
  [.addGlobServlet [42] 1, .addServlet [47] 2, .addGlobServlet [42] 3, .delServlet [48],
    .delGlobServlet [48]]

theorem getMatchServlet_of_harmless_calls :
    ∃ d, exec step (new 0) harmlessCalls = some d ∧
      d.getMatchServlet (fun _ _ => true) [50] =
        expected (fun _ _ => true) 0 harmlessCalls.reverse [50] ∧
      expected (fun _ _ => true) 0 harmlessCalls.reverse [50] = 3 := by
  obtain ⟨d, hd⟩ : ∃ d, exec step (new 0) harmlessCalls = some d := ⟨_, rfl⟩
  refine ⟨d, hd, ?_, by decide⟩
  exact getMatchServlet_of_harmless _ 0 harmlessCalls [50] d (by decide +kernel) hd

/-- A servlet is still there after its `delServlet`, and a pattern after its `delGlobServlet`, and
`delServlet` has removed a pattern. -/
theorem del_wrong_table :
    (∃ d, exec step (new 0) [.addServlet [47] 1, .delServlet [47]] = some d ∧
      d.getMatchServlet (fun p u => p == u) [47] = 1 ∧
      expected (fun p u => p == u) 0 [.delServlet [47], .addServlet [47] 1] [47] = 0) ∧
    (∃ d, exec step (new 0) [.addGlobServlet [47] 1, .delServlet [47]] = some d ∧
      d.getMatchServlet (fun p u => p == u) [47] = 0 ∧
      expected (fun p u => p == u) 0 [.delServlet [47], .addGlobServlet [47] 1] [47] = 1) ∧
    ∃ d, exec step (new 0) [.addGlobServlet [47] 1, .delGlobServlet [47]] = some d ∧
      d.getMatchServlet (fun p u => p == u) [47] = 1 ∧
      expected (fun p u => p == u) 0 [.delGlobServlet [47], .addGlobServlet [47] 1] [47] = 0 :=
  ⟨⟨_, rfl, by decide, by decide⟩, ⟨_, rfl, by decide, by decide⟩, ⟨_, rfl, by decide, by decide⟩⟩

end Sylar.Http.ServletDispatch
