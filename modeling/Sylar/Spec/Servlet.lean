import Mathlib

/-!
# `Sylar.Spec.Servlet`: the servlet dispatcher

`m_datas` has a servlet for each exact uri, `m_globs` is the vector of patterns with their servlets,
and `m_default` is the servlet for what neither of them has. `fnmatch` is a parameter: it says
whether a pattern matches a uri.

A servlet is a value of any type. A uri is a string of bytes. Each operation holds the lock from its
start to its end, so a history of the dispatcher is a list of calls.
-/

set_option autoImplicit false

namespace Sylar.Http

abbrev Uri := List UInt8

/-- The dispatcher. No pattern is twice in the vector. -/
structure ServletDispatch (σ : Type) where
  datas : Uri → Option σ
  globs : List (Uri × σ)
  default : σ
  distinct : (globs.map Prod.fst).Nodup

namespace ServletDispatch

variable {σ : Type}

/-- The loop that removes the first entry of a pattern. -/
def eraseGlob (uri : Uri) (globs : List (Uri × σ)) : List (Uri × σ) :=
  globs.eraseP fun g => g.1 == uri

theorem eraseGlob_sublist (uri : Uri) (globs : List (Uri × σ)) :
    (eraseGlob uri globs).Sublist globs := List.eraseP_sublist

/-- No pattern is twice, so to remove its first entry is to remove it. -/
theorem eraseGlob_eq_filter {uri : Uri} {globs : List (Uri × σ)}
    (h : (globs.map Prod.fst).Nodup) :
    eraseGlob uri globs = globs.filter fun g => g.1 != uri := by
  induction globs with
  | nil => rfl
  | cons g globs ih =>
      obtain ⟨hg, hrest⟩ := List.nodup_cons.mp h
      by_cases heq : g.1 = uri
      · have hnone : ∀ g' ∈ globs, (g'.1 != uri) = true := by
          intro g' hg'
          have hne : g'.1 ≠ uri := fun hu => hg (heq ▸ hu ▸ List.mem_map_of_mem hg')
          simpa using hne
        simp [eraseGlob, heq, List.filter_eq_self.mpr hnone]
      · have hne : (g.1 == uri) = false := by simpa using heq
        have hkeep : (g.1 != uri) = true := by simpa using heq
        rw [List.filter_cons, if_pos hkeep, ← ih hrest]
        exact List.eraseP_cons_of_neg (by simp [hne])

theorem distinct_eraseGlob {uri : Uri} {globs : List (Uri × σ)}
    (h : (globs.map Prod.fst).Nodup) : ((eraseGlob uri globs).map Prod.fst).Nodup :=
  h.sublist ((eraseGlob_sublist uri globs).map _)

theorem distinct_push {uri : Uri} {slt : σ} {globs : List (Uri × σ)}
    (h : (globs.map Prod.fst).Nodup) :
    ((eraseGlob uri globs ++ [(uri, slt)]).map Prod.fst).Nodup := by
  have hnot : uri ∉ (eraseGlob uri globs).map Prod.fst := by
    rw [eraseGlob_eq_filter h]
    simp
  rw [List.map_append, List.nodup_append]
  refine ⟨distinct_eraseGlob h, List.nodup_singleton _, ?_⟩
  rintro u hu v hv rfl
  obtain rfl : u = uri := by simpa using hv
  exact hnot hu

/-- The constructor. The source makes a `NotFounfServlet` the default. -/
def new (default : σ) : ServletDispatch σ := ⟨fun _ => none, [], default, List.nodup_nil⟩

/-- `addServlet(uri, slt)`. The overload for a callback stores a `FunctionServlet` the same way. -/
def addServlet (uri : Uri) (slt : σ) (d : ServletDispatch σ) : ServletDispatch σ :=
  { d with datas := Function.update d.datas uri (some slt) }

/-- `addGlobServlet(uri, slt)`. -/
def addGlobServlet (uri : Uri) (slt : σ) (d : ServletDispatch σ) : ServletDispatch σ :=
  { d with
    globs := eraseGlob uri d.globs ++ [(uri, slt)]
    distinct := distinct_push d.distinct }

/-- `delServlet(uri)`. The loop of the source is over `m_globs`. -/
def delServlet (uri : Uri) (d : ServletDispatch σ) : ServletDispatch σ :=
  { d with
    globs := eraseGlob uri d.globs
    distinct := distinct_eraseGlob d.distinct }

/-- `delGlobServlet(uri)`. Its body in the source is empty. -/
def delGlobServlet (_uri : Uri) (d : ServletDispatch σ) : ServletDispatch σ := d

/-- `getMatchServlet(uri)`. -/
def getMatchServlet (fnmatch : Uri → Uri → Bool) (d : ServletDispatch σ) (uri : Uri) : σ :=
  match d.datas uri with
  | some slt => slt
  | none =>
    match d.globs.find? fun g => fnmatch g.1 uri with
    | some g => g.2
    | none => d.default

/-- A call that changes the tables. -/
inductive Call (σ : Type) where
  | addServlet (uri : Uri) (slt : σ)
  | addGlobServlet (uri : Uri) (slt : σ)
  | delServlet (uri : Uri)
  | delGlobServlet (uri : Uri)
  deriving DecidableEq, Repr

def step (d : ServletDispatch σ) : Call σ → Option (ServletDispatch σ)
  | .addServlet uri slt => some (d.addServlet uri slt)
  | .addGlobServlet uri slt => some (d.addGlobServlet uri slt)
  | .delServlet uri => some (d.delServlet uri)
  | .delGlobServlet uri => some (d.delGlobServlet uri)

/-! ## What the two tables are for

Read from a list of calls alone, the newest call first.
-/

/-- The servlet of the latest `addServlet(uri, ·)` that no `delServlet(uri)` follows. -/
def exactServlet (uri : Uri) : List (Call σ) → Option σ
  | [] => none
  | .addServlet u slt :: calls => if u = uri then some slt else exactServlet uri calls
  | .delServlet u :: calls => if u = uri then none else exactServlet uri calls
  | .addGlobServlet _ _ :: calls => exactServlet uri calls
  | .delGlobServlet _ :: calls => exactServlet uri calls

/-- The patterns that were added and not removed since, in the order of their last addition. -/
def patterns : List (Call σ) → List (Uri × σ)
  | [] => []
  | .addGlobServlet u slt :: calls => (patterns calls).filter (fun g => g.1 != u) ++ [(u, slt)]
  | .delGlobServlet u :: calls => (patterns calls).filter fun g => g.1 != u
  | .addServlet _ _ :: calls => patterns calls
  | .delServlet _ :: calls => patterns calls

/-- The servlet for a uri after a list of calls, the newest call first. -/
def expected (fnmatch : Uri → Uri → Bool) (default : σ) (calls : List (Call σ)) (uri : Uri) : σ :=
  (exactServlet uri calls).getD
    (((patterns calls).find? fun g => fnmatch g.1 uri).elim default Prod.snd)

end ServletDispatch

end Sylar.Http
