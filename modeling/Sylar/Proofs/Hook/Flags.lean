import Sylar.Spec.HookFlags

/-!
# `Sylar.Proofs.Hook.Flags`: the two views of `O_NONBLOCK`

The guards of `fcntl(F_SETFL)` and `ioctl(FIONBIO)` have the wrong polarity: they take the path of a
descriptor that is not managed when the context is a socket. So `F_SETFL` on a tracked socket goes
to the kernel as it is, and `FIONBIO` on one calls the hook again and does not return. No call of
the two on a tracked socket keeps the promise.

`flags_shadowed` says that the promise is kept as long as no such call is made, whatever is done to
other descriptors.
-/

set_option autoImplicit false

namespace Sylar.HookFlags

open Lib

/-- `F_SETFL` is not applied to a tracked open socket, and `FIONBIO` only to what is tracked and not
a socket. -/
def spares : Sys → Action → Bool
  | .running st, .fcntl fd _ => !st.tracksSocket fd
  | .running st, .ioctl fd _ _ =>
    match st.ctxs fd with
    | none => false
    | some ctx => !ctx.isSocket && !ctx.isClosed
  | _, _ => true

/-- What is kept at one descriptor: a context belongs to an open file, and the views agree. -/
def FdOk (file : Option File) (ctx : Option FdCtx) (requested : Bool) : Prop :=
  ∀ c, ctx = some c → ∃ f, file = some f ∧
    (c.isSocket = true → c.isClosed = false → f.nonblock = true ∧ c.userNonblock = requested)

def Managed (st : State) : Prop := ∀ fd, FdOk (st.kernel fd) (st.ctxs fd) (st.requested fd)

/-- Only the descriptor `fd` is different. -/
def Touches (fd : Nat) (st st' : State) : Prop :=
  ∀ fd', fd' ≠ fd → st'.kernel fd' = st.kernel fd' ∧ st'.ctxs fd' = st.ctxs fd' ∧
    st'.requested fd' = st.requested fd'

section
variable {st st' st'' : State} {fd : Nat} {statOk v : Bool} {file : File}

theorem Touches.trans (h : Touches fd st st') (h' : Touches fd st' st'') : Touches fd st st'' := by
  intro fd' hne
  obtain ⟨hk, hc, hr⟩ := h fd' hne
  obtain ⟨hk', hc', hr'⟩ := h' fd' hne
  exact ⟨hk'.trans hk, hc'.trans hc, hr'.trans hr⟩

theorem touches_opened : Touches fd st (st.opened fd file) := fun _ hne =>
  ⟨Function.update_of_ne hne .., rfl, Function.update_of_ne hne ..⟩

theorem touches_setKernel : Touches fd st (st.setKernel fd v) := fun _ hne =>
  ⟨Function.update_of_ne hne .., rfl, rfl⟩

theorem touches_setUserNonblock : Touches fd st (st.setUserNonblock fd v) := fun _ hne =>
  ⟨rfl, Function.update_of_ne hne .., rfl⟩

theorem touches_request : Touches fd st (st.request fd v) := fun _ hne =>
  ⟨rfl, rfl, Function.update_of_ne hne ..⟩

theorem touches_closed : Touches fd st (st.closed fd) := fun _ hne =>
  ⟨Function.update_of_ne hne .., Function.update_of_ne hne .., rfl⟩

theorem touches_track : Touches fd st (st.track fd statOk) := by
  unfold State.track
  split
  · exact fun _ hne => ⟨Function.update_of_ne hne .., Function.update_of_ne hne .., rfl⟩
  · exact fun _ _ => ⟨rfl, rfl, rfl⟩

theorem Managed.frame (hm : Managed st) (ht : Touches fd st st')
    (hself : FdOk (st'.kernel fd) (st'.ctxs fd) (st'.requested fd)) : Managed st' := by
  intro fd'
  by_cases hfd : fd' = fd
  · rw [hfd]
    exact hself
  · obtain ⟨hk, hc, hr⟩ := ht fd' hfd
    rw [hk, hc, hr]
    exact hm fd'

/-- A descriptor that is not open has no context. -/
theorem Managed.ctxs_none (hm : Managed st) (h : st.kernel fd = none) : st.ctxs fd = none := by
  cases hc : st.ctxs fd with
  | none => rfl
  | some c =>
      obtain ⟨f, hf, -⟩ := hm fd c hc
      rw [h] at hf
      cases hf

theorem fdOk_none {f : Option File} : FdOk f none v := fun c hc => by cases hc

theorem managed_opened (hm : Managed st) (h : st.kernel fd = none) :
    Managed (st.opened fd file) := by
  refine hm.frame touches_opened ?_
  show FdOk _ (st.ctxs fd) _
  rw [hm.ctxs_none h]
  exact fdOk_none

/-- A new context makes its socket non-blocking. -/
theorem fdOk_init : FdOk (some (FdCtx.init statOk file).2) (some (FdCtx.init statOk file).1) false := by
  intro c hc
  cases hc
  refine ⟨_, rfl, ?_⟩
  unfold FdCtx.init
  split
  · exact fun _ _ => ⟨rfl, rfl⟩
  · exact fun hsocket => absurd hsocket Bool.false_ne_true

theorem managed_track (hm : Managed st) (h : st.kernel fd = none) :
    Managed ((st.opened fd file).track fd statOk) := by
  refine (managed_opened hm h).frame touches_track ?_
  have hctx : (st.opened fd file).ctxs fd = none := hm.ctxs_none h
  have hfile : (st.opened fd file).kernel fd = some file := Function.update_self ..
  have hreq : ((st.opened fd file).track fd statOk).requested fd = false := by
    unfold State.track
    split <;> exact Function.update_self ..
  rw [hreq, State.track, hctx, hfile]
  dsimp only
  rw [Function.update_self, Function.update_self]
  exact fdOk_init

/-- A change of a descriptor that is not a tracked open socket and stays open. -/
theorem Managed.untracked (hm : Managed st) (ht : Touches fd st st')
    (hfile : (st.kernel fd).isSome → (st'.kernel fd).isSome)
    (hctx : ∀ c', st'.ctxs fd = some c' →
      ∃ c, st.ctxs fd = some c ∧ (c'.isSocket = true → c'.isClosed = true)) : Managed st' := by
  refine hm.frame ht fun c' hc' => ?_
  obtain ⟨c, hc, hsocket⟩ := hctx c' hc'
  obtain ⟨f, hf, -⟩ := hm fd c hc
  obtain ⟨f', hf'⟩ := Option.isSome_iff_exists.mp (hfile (by rw [hf]; rfl))
  refine ⟨f', hf', fun hs hclosed => ?_⟩
  rw [hsocket hs] at hclosed
  cases hclosed

theorem isSome_setKernel (h : (st.kernel fd).isSome) : ((st.setKernel fd v).kernel fd).isSome := by
  show (Function.update st.kernel fd _ fd).isSome = true
  rwa [Function.update_self, Option.isSome_map]

/-- The path of a descriptor that is managed and not a socket. -/
theorem managed_nonsocket {v' v'' : Bool} {ctx : FdCtx} (hm : Managed st)
    (hctx : st.ctxs fd = some ctx) (hsocket : ctx.isSocket = false) :
    Managed (((st.request fd v).setUserNonblock fd v').setKernel fd v'') := by
  have htouches : Touches fd st (((st.request fd v).setUserNonblock fd v').setKernel fd v'') :=
    touches_request.trans (touches_setUserNonblock.trans touches_setKernel)
  refine hm.untracked htouches (fun h => isSome_setKernel h) ?_
  intro c' hc'
  change Function.update st.ctxs fd _ fd = some c' at hc'
  rw [Function.update_self] at hc'
  change (st.ctxs fd).map _ = some c' at hc'
  rw [hctx, Option.map_some, Option.some.injEq] at hc'
  subst hc'
  exact ⟨ctx, hctx, fun h => absurd (h.symm.trans hsocket) (by decide)⟩

theorem managed_fcntl {arg : BitVec 32} (hm : Managed st) (h : st.tracksSocket fd = false) :
    Managed (fcntl fd arg (st.request fd (asksNonblock arg))) := by
  -- On this path the context is left alone.
  have hpass : Managed ((st.request fd (asksNonblock arg)).setKernel fd (asksNonblock arg)) := by
    have htouches : Touches fd st ((st.request fd (asksNonblock arg)).setKernel fd
        (asksNonblock arg)) := touches_request.trans touches_setKernel
    refine hm.untracked htouches (fun h => isSome_setKernel h) fun c hc =>
      ⟨c, hc, fun hsocket => ?_⟩
    change st.ctxs fd = some c at hc
    simp only [State.tracksSocket, hc, hsocket, Bool.true_and, Bool.not_eq_false'] at h
    exact h
  unfold fcntl
  cases hctx : (st.request fd (asksNonblock arg)).ctxs fd with
  | none => exact hpass
  | some ctx =>
      dsimp only
      split
      · exact hpass
      · next hne =>
          rw [Bool.or_eq_true, not_or, Bool.not_eq_true, Bool.not_eq_true] at hne
          exact managed_nonsocket hm hctx hne.2

theorem managed_ioctl {n : Int} {stack : Nat} {s : Sys} (hm : Managed st)
    (hg : spares (.running st) (.ioctl fd n stack) = true)
    (hs : ioctl fd n (stack + 1) (st.request fd (n != 0)) = s) :
    ∃ st', s = .running st' ∧ Managed st' := by
  rw [spares] at hg
  cases hctx : st.ctxs fd with
  | none =>
      rw [hctx] at hg
      cases hg
  | some ctx =>
      rw [hctx] at hg
      simp only [Bool.and_eq_true, Bool.not_eq_true'] at hg
      have hctx' : (st.request fd (n != 0)).ctxs fd = some ctx := hctx
      rw [ioctl, hctx'] at hs
      simp only [hg.1, hg.2, Bool.or_self, Bool.false_eq_true, if_false] at hs
      exact ⟨_, hs.symm, managed_nonsocket hm hctx hg.1⟩

theorem managed_step {s s' : Sys} {a : Action} (hs : ∃ st, s = .running st ∧ Managed st)
    (hg : spares s a = true) (hstep : step s a = some s') :
    ∃ st, s' = .running st ∧ Managed st := by
  obtain ⟨st, rfl, hm⟩ := hs
  cases a with
  | socket hooked fd nonblock statOk =>
      simp only [step] at hstep
      split at hstep
      · next hnone =>
          cases hstep
          cases hooked with
          | true => exact ⟨_, rfl, managed_track hm hnone⟩
          | false => exact ⟨_, rfl, managed_opened hm hnone⟩
      · cases hstep
  | accept fd statOk =>
      simp only [step] at hstep
      split at hstep
      · next hnone =>
          cases hstep
          exact ⟨_, rfl, managed_track hm hnone⟩
      · cases hstep
  | openFile fd nonblock =>
      simp only [step] at hstep
      split at hstep
      · next hnone =>
          cases hstep
          exact ⟨_, rfl, managed_opened hm hnone⟩
      · cases hstep
  | close fd =>
      cases hstep
      refine ⟨_, rfl, hm.frame touches_closed ?_⟩
      show FdOk _ (Function.update st.ctxs fd none fd) _
      rw [Function.update_self]
      exact fdOk_none
  | fcntl fd arg =>
      cases hstep
      exact ⟨_, rfl, managed_fcntl hm (Bool.not_eq_true' _ |>.mp hg)⟩
  | ioctl fd v stack => exact managed_ioctl hm hg (Option.some.inj hstep)

theorem shadowed_of_managed (hm : Managed st) : Shadowed st := by
  intro fd ctx hctx hsocket hclosed
  obtain ⟨file, hfile, h⟩ := hm fd ctx hctx
  obtain ⟨hnonblock, huser⟩ := h hsocket hclosed
  exact ⟨⟨file, hfile, hnonblock⟩, huser⟩

/-- In a run that spares the tracked sockets, the two views of the flag agree in every state. -/
theorem flags_shadowed (as : List Action) (s : Sys) (hg : Guarded step (spares · ·) init as)
    (hs : exec step init as = some s) : ∃ st, s = .running st ∧ Shadowed st := by
  obtain ⟨st, hst, hm⟩ := exec_invariant (I := fun s => ∃ st, s = .running st ∧ Managed st)
    (fun _ _ _ => managed_step) as init s ⟨_, rfl, fun _ => fdOk_none⟩ hg hs
  exact ⟨st, hst, shadowed_of_managed hm⟩

end

/-- A socket, and `F_SETFL` on a file beside it. -/
theorem flags_shadowed_beside_file :
    ∃ st, exec step init [.socket true 3 false true, .openFile 4 false, .fcntl 4 0x800] =
      some (.running st) ∧ Shadowed st := by
  obtain ⟨st, hst, h⟩ := flags_shadowed
    [.socket true 3 false true, .openFile 4 false, .fcntl 4 0x800] _ (by decide) rfl
  cases hst
  exact ⟨_, rfl, h⟩

/-- `F_SETFL` without `O_NONBLOCK` makes a tracked socket blocking, and `FIONBIO` on one never
returns. -/
theorem flags_not_shadowed :
    (∃ st, exec step init [.socket true 3 false true, .fcntl 3 0] = some (.running st) ∧
      ¬ Shadowed st) ∧
    ∀ stack, exec step init [.socket true 3 false true, .ioctl 3 1 stack] = some .overflow := by
  constructor
  · refine ⟨_, rfl, fun h => ?_⟩
    obtain ⟨⟨file, hfile, hnonblock⟩, -⟩ := h 3 _ rfl rfl rfl
    cases hfile
    cases hnonblock
  · intro stack
    have hioctl : ∀ n st, (st.ctxs 3 = some ⟨true, true, false, false⟩) →
        ioctl 3 1 n st = .overflow := by
      intro n
      induction n with
      | zero => exact fun _ _ => rfl
      | succ n ih =>
          intro st hctx
          rw [ioctl, hctx]
          exact ih st hctx
    exact congrArg some (hioctl (stack + 1) _ rfl)

end Sylar.HookFlags
