import Sylar.Spec.Socket

/-!
# `Sylar.Proofs.Socket.Ownership`: each open descriptor has one owner

The invariant is about each object by itself (`Sock.Ok`), and about who has which descriptor. A
method works on one object, and changes nothing for the descriptors of the others. So one lemma
covers what a method can do (`Inv.replace`): the object is replaced, and the descriptors that it
had and has may change. The parts of the methods are cases of it.
-/

set_option autoImplicit false

namespace Sylar.Sockets

open Lib

section
variable {α : Type} {w w' : World α} {i : Nat} {s s' : Sock α} {fd : Int} {d d' : Desc α}

/-! ### The invariant -/

/-- The timeout that `setRecvTimeout` and `setSendTimeout` leave in the context. -/
def stored : Option UInt64 → Nat
  | none => noTimeout
  | some v => milliseconds (timeval v)

theorem stored_some (v : UInt64) : stored (some v) = milliseconds (timeval v) := by rw [stored]

/-- The descriptor of the object is open and has a context with its timeouts. -/
structure Sock.Holds (w : World α) (s : Sock α) (d : Desc α) (c : FdCtx) : Prop where
  desc : w.desc s.sock = some d
  ctx : w.ctx s.sock = some c
  isSocket : c.isSocket = true
  recv : c.recvTimeout = stored s.recvAsked
  send : c.sendTimeout = stored s.sendAsked
  connected : s.isConnect = true → d.peer.isSome = true

structure Sock.Ok (w : World α) (s : Sock α) : Prop where
  unconnected : s.sock = -1 → s.isConnect = false
  holds : s.sock ≠ -1 → ∃ d c, s.Holds w d c

structure Inv (w : World α) : Prop where
  fresh : ∀ i, w.next ≤ i → w.socks i = none
  ok : ∀ i s, w.socks i = some s → s.Ok w
  apart : ∀ i j s t, w.socks i = some s → w.socks j = some t → s.sock ≠ -1 → s.sock = t.sock →
    i = j
  owner : ∀ fd, w.desc fd ≠ none ∨ w.ctx fd ≠ none →
    fd ≠ -1 ∧ ∃ i s, w.socks i = some s ∧ s.sock = fd
  closes : w.badCloses = 0

theorem Inv.desc_neg (hI : Inv w) : w.desc (-1) = none := by
  by_contra h
  exact (hI.owner (-1) (Or.inl h)).1 rfl

theorem Inv.ctx_neg (hI : Inv w) : w.ctx (-1) = none := by
  by_contra h
  exact (hI.owner (-1) (Or.inr h)).1 rfl

/-- A context is there when the descriptor is open. -/
theorem Inv.isSome_ctx (hI : Inv w) (fd : Int) : (w.ctx fd).isSome = (w.desc fd).isSome := by
  by_cases h : w.desc fd ≠ none ∨ w.ctx fd ≠ none
  · obtain ⟨hfd, i, s, hs, rfl⟩ := hI.owner fd h
    obtain ⟨d, c, hold⟩ := (hI.ok i s hs).holds hfd
    rw [hold.desc, hold.ctx]
    rfl
  · obtain ⟨hd, hc⟩ := not_or.mp h
    rw [not_not.mp hd, not_not.mp hc]
    rfl

/-! ### One object -/

theorem store_self (h : w.socks i = some s) : w.store i s = w := by
  rw [World.store, ← h, Function.update_eq_self]

theorem socks_store : (w.store i s).socks i = some s := Function.update_self ..

theorem socks_store_of_ne {j : Nat} (h : j ≠ i) : (w.store i s).socks j = w.socks j :=
  Function.update_of_ne h ..

theorem Sock.Ok.store {t : Sock α} (h : s.Ok w) : s.Ok (w.store i t) := by
  refine ⟨h.1, fun hs => ?_⟩
  obtain ⟨d, c, hh⟩ := h.2 hs
  exact ⟨d, c, hh.1, hh.2, hh.3, hh.4, hh.5, hh.6⟩

/-- A part of a method of the object `i` takes the world and the object to `w'` and `s'`. -/
structure Moves (i : Nat) (w : World α) (w' : World α) (s' : Sock α) : Prop where
  inv : Inv (w'.store i s')
  socks : w'.socks = w.socks
  others : ∀ j t, j ≠ i → w.socks j = some t → w'.desc t.sock = w.desc t.sock

theorem Moves.refl (h : Inv (w.store i s)) : Moves i w w s := ⟨h, rfl, fun _ _ _ _ => rfl⟩

theorem Moves.trans {w'' : World α} {s'' : Sock α} (h : Moves i w w' s')
    (h' : Moves i w' w'' s'') : Moves i w w'' s'' where
  inv := h'.inv
  socks := h'.socks.trans h.socks
  others j t hji hj := (h'.others j t hji (h.socks ▸ hj)).trans (h.others j t hji hj)

/-- The object `i` is replaced. No descriptor changes but the one it had and the one it has. -/
theorem Inv.replace (hI : Inv (w.store i s)) (hsocks : w'.socks = w.socks)
    (hnext : w'.next = w.next) (hcloses : w'.badCloses = w.badCloses)
    (hframe : ∀ k, k ≠ s.sock → k ≠ s'.sock → w'.desc k = w.desc k ∧ w'.ctx k = w.ctx k)
    (hneg : w'.desc (-1) = none ∧ w'.ctx (-1) = none)
    (hold : s'.sock ≠ s.sock → w'.desc s.sock = none ∧ w'.ctx s.sock = none)
    (hnew : s'.sock ≠ s.sock → s'.sock ≠ -1 → w.desc s'.sock = none) (hok : s'.Ok w') :
    Moves i w w' s' := by
  -- The others have other descriptors.
  have hother : ∀ {j t}, j ≠ i → (w'.store i s').socks j = some t →
      (w.store i s).socks j = some t ∧
        (t.sock ≠ -1 → t.sock ≠ s.sock ∧ t.sock ≠ s'.sock) := by
    intro j t hji hj
    rw [socks_store_of_ne hji, hsocks] at hj
    have hj' : (w.store i s).socks j = some t := (socks_store_of_ne hji).trans hj
    refine ⟨hj', fun ht => ?_⟩
    have hts : t.sock ≠ s.sock := fun h => hji (hI.apart j i t s hj' socks_store ht h)
    refine ⟨hts, fun h => ?_⟩
    obtain ⟨d, c, hh⟩ := (hI.ok j t hj').holds ht
    have hnone : w.desc s'.sock = none := hnew (h ▸ hts) (h ▸ ht)
    rw [← h] at hnone
    cases hnone.symm.trans hh.desc
  refine ⟨⟨?_, ?_, ?_, ?_, hcloses.trans hI.closes⟩, hsocks, ?_⟩
  · intro j hj
    have hj' := hI.fresh j (hnext ▸ hj)
    have hji : j ≠ i := by
      rintro rfl
      rw [socks_store] at hj'
      cases hj'
    rw [socks_store_of_ne hji, hsocks, ← socks_store_of_ne hji, hj']
  · intro j t hj
    by_cases hji : j = i
    · subst hji
      rw [socks_store] at hj
      cases hj
      exact hok.store
    · obtain ⟨hj', hne⟩ := hother hji hj
      have ht := hI.ok j t hj'
      refine ⟨ht.1, fun hts => ?_⟩
      obtain ⟨d, c, hh⟩ := ht.2 hts
      obtain ⟨hd, hc⟩ := hframe t.sock (hne hts).1 (hne hts).2
      exact ⟨d, c, hd.trans hh.desc, hc.trans hh.ctx, hh.isSocket, hh.recv, hh.send, hh.connected⟩
  · intro j k t u hj hk ht htu
    by_cases hji : j = i
    · subst hji
      rw [socks_store] at hj
      cases hj
      by_contra hjk
      exact ((hother (Ne.symm hjk) hk).2 (htu ▸ ht)).2 htu.symm
    · by_cases hki : k = i
      · subst hki
        rw [socks_store] at hk
        cases hk
        exact absurd htu ((hother hji hj).2 ht).2
      · exact hI.apart j k t u (hother hji hj).1 (hother hki hk).1 ht htu
  · intro k hk
    have hk1 : k ≠ -1 := by
      rintro rfl
      exact hk.elim (· hneg.1) (· hneg.2)
    refine ⟨hk1, ?_⟩
    by_cases hks' : k = s'.sock
    · exact ⟨i, s', socks_store, hks'.symm⟩
    · have hks : k ≠ s.sock := by
        rintro rfl
        obtain ⟨hd, hc⟩ := hold (Ne.symm hks')
        exact hk.elim (· hd) (· hc)
      obtain ⟨hd, hc⟩ := hframe k hks hks'
      obtain ⟨-, j, t, hj, ht⟩ := hI.owner k (hk.imp (· <| hd.trans ·) (· <| hc.trans ·))
      have hji : j ≠ i := by
        rintro rfl
        rw [socks_store] at hj
        cases hj
        exact hks ht.symm
      refine ⟨j, t, ?_, ht⟩
      rw [socks_store_of_ne hji, hsocks, ← socks_store_of_ne hji, hj]
  · intro j t hji hj
    by_cases ht : t.sock = -1
    · rw [ht, hneg.1]
      exact hI.desc_neg.symm
    · have hj' : (w'.store i s').socks j = some t := by rw [socks_store_of_ne hji, hsocks, hj]
      obtain ⟨h1, h2⟩ := (hother hji hj').2 ht
      exact (hframe t.sock h1 h2).1

/-! ### The parts of the methods -/

/-- Fields of the object change that the invariant does not speak of. -/
theorem Inv.touch (hI : Inv (w.store i s)) (hsock : s'.sock = s.sock)
    (hr : s'.recvAsked = s.recvAsked) (hs : s'.sendAsked = s.sendAsked)
    (hc : s'.isConnect = s.isConnect) : Moves i w w s' := by
  refine hI.replace rfl rfl rfl (fun _ _ _ => ⟨rfl, rfl⟩) ⟨hI.desc_neg, hI.ctx_neg⟩
    (fun h => absurd hsock h) (fun h => absurd hsock h) ?_
  obtain ⟨h1, h2⟩ := hI.ok i s socks_store
  refine ⟨fun h => hc.trans (h1 (hsock ▸ h)), fun h => ?_⟩
  obtain ⟨d, c, hh⟩ := h2 (hsock ▸ h)
  exact ⟨d, c, hsock ▸ hh.desc, hsock ▸ hh.ctx, hh.isSocket, hr ▸ hh.recv, hs ▸ hh.send,
    hc ▸ hh.connected⟩

/-- An object without a descriptor changes, and gets none. -/
theorem Inv.touch_invalid (hI : Inv (w.store i s)) (hs : s.sock = -1) (hs' : s'.sock = -1)
    (hc : s'.isConnect = false) : Moves i w w s' :=
  hI.replace rfl rfl rfl (fun _ _ _ => ⟨rfl, rfl⟩) ⟨hI.desc_neg, hI.ctx_neg⟩
    (fun h => absurd (hs'.trans hs.symm) h) (fun _ h => absurd hs' h)
    ⟨fun _ => hc, fun h => absurd hs' h⟩

/-- The descriptor of the object gets another name or another peer. -/
theorem Inv.rename (hI : Inv (w.store i s)) (hs : s.sock ≠ -1) (hsock : s'.sock = s.sock)
    (hr : s'.recvAsked = s.recvAsked) (hse : s'.sendAsked = s.sendAsked)
    (hp : s'.isConnect = true → d.peer.isSome = true) :
    Moves i w (w.opened s.sock d) s' := by
  have hne : ∀ {k}, k ≠ s.sock → (w.opened s.sock d).desc k = w.desc k :=
    fun hk => Function.update_of_ne hk ..
  refine hI.replace rfl rfl rfl (fun k hk _ => ⟨hne hk, rfl⟩)
    ⟨(hne hs.symm).trans hI.desc_neg, hI.ctx_neg⟩ (fun h => absurd hsock h)
    (fun h => absurd hsock h) ⟨fun h => absurd (hsock ▸ h) hs, fun _ => ?_⟩
  obtain ⟨_, c, hh⟩ := (hI.ok i s socks_store).2 hs
  refine ⟨d, c, ?_, hsock ▸ hh.ctx, hh.isSocket, hr ▸ hh.recv, hse ▸ hh.send, hp⟩
  rw [hsock]
  exact Function.update_self ..

theorem unused_iff : w.unused fd = true ↔ 0 ≤ fd ∧ w.desc fd = none := by
  simp only [World.unused, Bool.and_eq_true, decide_eq_true_eq, Option.isNone_iff_eq_none]

/-- A descriptor is opened and gets a context. -/
def World.grown (w : World α) (fd : Int) (d : Desc α) : World α :=
  { w with
    desc := Function.update w.desc fd (some d)
    ctx := Function.update w.ctx fd (some ⟨true, noTimeout, noTimeout⟩) }

/-- No context is left over from an earlier descriptor with the same number. -/
theorem Inv.ctx_of_unused (hI : Inv w) (hfd : w.unused fd = true) : w.ctx fd = none := by
  refine Option.isNone_iff_eq_none.mp (Option.isSome_eq_false_iff.mp ((hI.isSome_ctx fd).trans ?_))
  rw [(unused_iff.mp hfd).2]
  rfl

theorem getOrCreate_opened (hc : w.ctx fd = none) :
    (w.opened fd d).getOrCreate fd = w.grown fd d := by
  have hget : (w.opened fd d).get fd = none := by
    rw [World.get]
    split
    · rfl
    · exact hc
  have hdesc : (w.opened fd d).desc fd = some d := Function.update_self ..
  rw [World.getOrCreate, hget, hdesc]
  rfl

/-- An object without a descriptor gets a new one. -/
theorem Inv.adopt (hI : Inv (w.store i s)) (hs : s.sock = -1) (hfd : w.unused fd = true)
    (hs' : s'.sock = fd) (hr : s'.recvAsked = none) (hse : s'.sendAsked = none)
    (hp : s'.isConnect = true → d.peer.isSome = true) : Moves i w (w.grown fd d) s' := by
  obtain ⟨h0, hnone⟩ := unused_iff.mp hfd
  subst hs'
  have hne : ∀ {k}, k ≠ s'.sock →
      (w.grown s'.sock d).desc k = w.desc k ∧ (w.grown s'.sock d).ctx k = w.ctx k :=
    fun hk => ⟨Function.update_of_ne hk .., Function.update_of_ne hk ..⟩
  have hneg : -1 ≠ s'.sock := by omega
  have hneg' : (w.grown s'.sock d).desc (-1) = none ∧ (w.grown s'.sock d).ctx (-1) = none :=
    ⟨(hne hneg).1.trans hI.desc_neg, (hne hneg).2.trans hI.ctx_neg⟩
  refine hI.replace rfl rfl rfl (fun k _ hk => hne hk) hneg' (fun _ => hs ▸ hneg')
    (fun _ _ => hnone) ⟨fun h => absurd h.symm hneg, fun _ => ?_⟩
  exact ⟨d, ⟨true, noTimeout, noTimeout⟩, Function.update_self .., Function.update_self .., rfl,
    by rw [hr]; rfl, by rw [hse]; rfl, hp⟩

/-- A descriptor is closed and loses its context. -/
def World.shrunk (w : World α) (fd : Int) : World α :=
  { w with desc := Function.update w.desc fd none, ctx := Function.update w.ctx fd none }

/-- `close` is called for an open descriptor with a context. -/
theorem Inv.closeFd_eq (hI : Inv (w.store i s)) (hs : s.sock ≠ -1) :
    closeFd w s.sock = w.shrunk s.sock := by
  obtain ⟨d, c, hh⟩ := (hI.ok i s socks_store).holds hs
  have hd : (w.desc s.sock).isSome = true := by rw [show w.desc s.sock = some d from hh.desc]; rfl
  have hc : (w.get s.sock).isSome = true := by
    rw [World.get, if_neg hs, show w.ctx s.sock = some c from hh.ctx]
    rfl
  simp only [closeFd, hc, if_true, hd]
  rfl

/-- The object gives its descriptor back. -/
theorem Inv.disown (hI : Inv (w.store i s)) (hs : s.sock ≠ -1) (hs' : s'.sock = -1)
    (hc : s'.isConnect = false) : Moves i w (w.shrunk s.sock) s' := by
  have hne : ∀ {k}, k ≠ s.sock →
      (w.shrunk s.sock).desc k = w.desc k ∧ (w.shrunk s.sock).ctx k = w.ctx k :=
    fun hk => ⟨Function.update_of_ne hk .., Function.update_of_ne hk ..⟩
  refine hI.replace rfl rfl rfl (fun k hk _ => hne hk) ?_
    (fun _ => ⟨Function.update_self .., Function.update_self ..⟩) (fun _ h => absurd hs' h)
    ⟨fun _ => hc, fun h => absurd hs' h⟩
  exact ⟨(hne hs.symm).1.trans hI.desc_neg, (hne hs.symm).2.trans hI.ctx_neg⟩

/-! ### The methods -/

theorem isValid_iff : s.isValid = true ↔ s.sock ≠ -1 := by
  rw [Socket.isValid, bne_iff_ne]

theorem Inv.close (hI : Inv (w.store i s)) : Moves i w (s.close w).1 (s.close w).2 := by
  by_cases hs : s.sock = -1
  · have hc := (hI.ok i s socks_store).unconnected hs
    simp only [Sock.close, hc, hs, Bool.not_false, beq_self_eq_true, Bool.and_self, if_true]
    exact .refl hI
  · have hs' : (s.sock == -1) = false := beq_eq_false_iff_ne.mpr hs
    have hb : (s.sock != -1) = true := bne_iff_ne.mpr hs
    simp only [Sock.close, hs', hb, Bool.and_false, Bool.false_eq_true, if_false, if_true,
      hI.closeFd_eq hs]
    exact hI.disown hs rfl rfl

theorem sock_close : (s.close w).2.sock = -1 := by
  rw [Sock.close]
  split
  · rename_i h
    simp only [Bool.and_eq_true, beq_iff_eq] at h
    exact h.2
  · rfl

theorem Inv.newSock {made : Option (Int × α)} (hI : Inv (w.store i s)) (hs : s.sock = -1)
    (hm : made.all (fun p => w.unused p.1) = true) :
    Moves i w (s.newSock w made).1 (s.newSock w made).2 := by
  have hc := (hI.ok i s socks_store).unconnected hs
  cases made with
  | none => exact hI.touch_invalid hs rfl hc
  | some p =>
    have hfd : w.unused p.1 = true := hm
    have hctx : w.ctx p.1 = none := Inv.ctx_of_unused (w := w.store i s) hI hfd
    simp only [Sock.newSock, socket, getOrCreate_opened hctx]
    exact hI.adopt hs hfd rfl rfl rfl fun h => absurd h (by rw [hc]; decide)

theorem Inv.ensure {made : Option (Int × α)} (hI : Inv (w.store i s))
    (hm : made.all (fun p => w.unused p.1) = true) :
    Moves i w (s.ensure w made).1 (s.ensure w made).2 := by
  rw [Sock.ensure]
  split
  · exact .refl hI
  · rename_i h
    exact hI.newSock (not_not.mp (mt isValid_iff.mpr h)) hm

/-- Looking up an address changes the address only. -/
theorem getLocalAddress_fields :
    (s.getLocalAddress w).sock = s.sock ∧ (s.getLocalAddress w).recvAsked = s.recvAsked ∧
      (s.getLocalAddress w).sendAsked = s.sendAsked ∧
      (s.getLocalAddress w).isConnect = s.isConnect := by
  rw [Sock.getLocalAddress]
  split <;> exact ⟨rfl, rfl, rfl, rfl⟩

theorem getRemoteAddress_fields :
    (s.getRemoteAddress w).sock = s.sock ∧ (s.getRemoteAddress w).recvAsked = s.recvAsked ∧
      (s.getRemoteAddress w).sendAsked = s.sendAsked ∧
      (s.getRemoteAddress w).isConnect = s.isConnect := by
  rw [Sock.getRemoteAddress]
  split <;> exact ⟨rfl, rfl, rfl, rfl⟩

theorem Inv.getLocalAddress (hI : Inv (w.store i s)) : Moves i w w (s.getLocalAddress w') := by
  obtain ⟨h1, h2, h3, h4⟩ := getLocalAddress_fields (w := w') (s := s)
  exact hI.touch h1 h2 h3 h4

theorem Inv.getRemoteAddress (hI : Inv (w.store i s)) : Moves i w w (s.getRemoteAddress w') := by
  obtain ⟨h1, h2, h3, h4⟩ := getRemoteAddress_fields (w := w') (s := s)
  exact hI.touch h1 h2 h3 h4

variable {getFamily : α → Int} {addr : α} {made : Option (Int × α)}

theorem Inv.bind {bound : Option α} (hI : Inv (w.store i s))
    (hm : made.all (fun p => w.unused p.1) = true) :
    Moves i w (Sock.bind getFamily w s addr made bound).2.1
      (Sock.bind getFamily w s addr made bound).2.2 := by
  have hM := hI.ensure hm
  simp only [Sock.bind]
  generalize s.ensure w made = p at hM ⊢
  obtain ⟨w₁, s₁⟩ := p
  dsimp only at hM ⊢
  have hI₁ := hM.inv
  split
  · exact hM
  · rename_i hv
    split
    · exact hM
    · split
      · rename_i name d hd
        have hs : s₁.sock ≠ -1 := isValid_iff.mp (by simpa using hv)
        obtain ⟨d', c, hh⟩ := (hI₁.ok i s₁ socks_store).holds hs
        obtain rfl := Option.some.inj (hd.symm.trans (show w₁.desc s₁.sock = some d' from hh.desc))
        have hM₂ := hI₁.rename (d := { d with name := name }) hs rfl rfl rfl hh.connected
        exact (hM.trans hM₂).trans hM₂.inv.getLocalAddress
      · exact hM

theorem connectFd_cases (w : World α) (fd : Int) (answer : Option (α × α)) :
    connectFd w fd answer = (false, w) ∨
      ∃ peer name, answer = some (peer, name) ∧
        connectFd w fd answer = (true, w.opened fd ⟨name, some peer⟩) := by
  unfold connectFd
  split
  · exact Or.inr ⟨_, _, rfl, rfl⟩
  · exact Or.inl rfl

theorem Inv.connect {answer : Option (α × α)} (hI : Inv (w.store i s))
    (hm : made.all (fun p => w.unused p.1) = true) :
    Moves i w (Sock.connect getFamily w s addr made answer).2.1
      (Sock.connect getFamily w s addr made answer).2.2 := by
  have hM := hI.ensure hm
  simp only [Sock.connect]
  generalize s.ensure w made = p at hM ⊢
  obtain ⟨w₁, s₁⟩ := p
  dsimp only at hM ⊢
  have hI₁ := hM.inv
  split
  · exact hM
  · rename_i hv
    have hs : s₁.sock ≠ -1 := isValid_iff.mp (by simpa using hv)
    split
    · exact hM
    · rcases connectFd_cases w₁ s₁.sock answer with h | ⟨peer, name, -, h⟩
      · simp only [h]
        exact hM.trans hI₁.close
      · simp only [h]
        have hM₂ : Moves i w₁ (w₁.opened s₁.sock ⟨name, some peer⟩) { s₁ with isConnect := true } :=
          hI₁.rename hs rfl rfl rfl fun _ => rfl
        have hM₃ : Moves i _ _ (Sock.getRemoteAddress (w₁.opened s₁.sock ⟨name, some peer⟩) _) :=
          hM₂.inv.getRemoteAddress
        exact ((hM.trans hM₂).trans hM₃).trans hM₃.inv.getLocalAddress

theorem Inv.reconnect {answer : Option (α × α)} (hI : Inv (w.store i s))
    (hm : made.all (fun p => w.unused p.1) = true) :
    Moves i w (Sock.reconnect getFamily w s made answer).2.1
      (Sock.reconnect getFamily w s made answer).2.2 := by
  rw [Sock.reconnect]
  split
  · exact .refl hI
  · have hM : Moves i w w { s with localAddress := none } := hI.touch rfl rfl rfl rfl
    exact hM.trans (hM.inv.connect hm)

/-- A timeout is set on an object with a descriptor, or has no effect. -/
theorem Inv.setTimeout {recv : Bool} {v : UInt64} (hI : Inv (w.store i s)) :
    Moves i w (s.setTimeout w recv v).1 (s.setTimeout w recv v).2 := by
  by_cases hs : s.sock = -1
  · have hv : s.isValid = false := by rw [Socket.isValid, hs]; rfl
    have hget : w.get s.sock = none := by rw [World.get, if_pos hs]
    simp only [Sock.setTimeout, setTimeoutFd, hget, hv, Bool.not_false, if_true]
    exact .refl hI
  · obtain ⟨d, c, hh⟩ := (hI.ok i s socks_store).holds hs
    have hv : s.isValid = true := isValid_iff.mpr hs
    have hget : w.get s.sock = some c := by rw [World.get, if_neg hs]; exact hh.ctx
    simp only [Sock.setTimeout, setTimeoutFd, hget, hv, Bool.not_true, Bool.false_eq_true, if_false]
    have hself : ∀ c', Function.update w.ctx s.sock (some c') s.sock = some c' :=
      fun _ => Function.update_self ..
    have hframe : ∀ c' k, k ≠ s.sock →
        w.desc k = w.desc k ∧ Function.update w.ctx s.sock (some c') k = w.ctx k :=
      fun _ _ hk => ⟨rfl, Function.update_of_ne hk ..⟩
    cases recv with
    | true =>
      simp only [if_true]
      refine hI.replace rfl rfl rfl (fun k hk _ => hframe _ k hk) ⟨hI.desc_neg, ?_⟩
        (fun h => absurd rfl h) (fun h => absurd rfl h) ⟨fun h => absurd h hs, fun _ => ?_⟩
      · exact (hframe _ (-1) (Ne.symm hs)).2.trans hI.ctx_neg
      · exact ⟨d, { c with recvTimeout := milliseconds (timeval v) }, hh.desc, hself _, hh.isSocket,
          by simp only [stored_some], hh.send, hh.connected⟩
    | false =>
      simp only [Bool.false_eq_true, if_false]
      refine hI.replace rfl rfl rfl (fun k hk _ => hframe _ k hk) ⟨hI.desc_neg, ?_⟩
        (fun h => absurd rfl h) (fun h => absurd rfl h) ⟨fun h => absurd h hs, fun _ => ?_⟩
      · exact (hframe _ (-1) (Ne.symm hs)).2.trans hI.ctx_neg
      · exact ⟨d, { c with sendTimeout := milliseconds (timeval v) }, hh.desc, hself _, hh.isSocket,
          hh.recv, by simp only [stored_some], hh.connected⟩

/-! ### Objects come and go -/

/-- A new object has no descriptor. -/
theorem Inv.add_new (hI : Inv w) (hs : s.sock = -1) (hc : s.isConnect = false) : Inv (w.add s) := by
  have hself : (w.add s).socks w.next = some s := Function.update_self ..
  have hne : ∀ {j}, j ≠ w.next → (w.add s).socks j = w.socks j :=
    fun hj => Function.update_of_ne hj ..
  have hlt : ∀ {j t}, w.socks j = some t → j ≠ w.next := by
    rintro j t hj rfl
    rw [hI.fresh _ le_rfl] at hj
    cases hj
  refine ⟨?_, ?_, ?_, ?_, hI.closes⟩
  · intro j hj
    have hj' : w.next + 1 ≤ j := hj
    rw [hne (by omega)]
    exact hI.fresh j (by omega)
  · intro j t hj
    by_cases hjn : j = w.next
    · subst hjn
      rw [hself] at hj
      cases hj
      exact ⟨fun _ => hc, fun h => absurd hs h⟩
    · rw [hne hjn] at hj
      have h := hI.ok j t hj
      refine ⟨h.1, fun ht => ?_⟩
      obtain ⟨d, c, hh⟩ := h.2 ht
      exact ⟨d, c, hh.1, hh.2, hh.3, hh.4, hh.5, hh.6⟩
  · intro j k t u hj hk ht htu
    by_cases hjn : j = w.next
    · subst hjn
      rw [hself] at hj
      cases hj
      exact absurd hs ht
    · by_cases hkn : k = w.next
      · subst hkn
        rw [hself] at hk
        cases hk
        exact absurd (htu.trans hs) ht
      · rw [hne hjn] at hj
        rw [hne hkn] at hk
        exact hI.apart j k t u hj hk ht htu
  · intro fd hfd
    obtain ⟨h1, j, t, hj, ht⟩ := hI.owner fd hfd
    exact ⟨h1, j, t, (hne (hlt hj)).trans hj, ht⟩

/-- The object that `accept` returns. -/
def Sock.accepted (s : Sock α) (w : World α) (fd : Int) : Sock α :=
  (({ Sock.new s.family s.type s.protocol with sock := fd, isConnect := true } :
    Sock α).getLocalAddress w).getRemoteAddress w

theorem Inv.accept_eq (hI : Inv w) (hfd : w.unused fd = true) (peer name : α) :
    s.accept w (some (fd, peer, name)) =
      (w.grown fd ⟨name, some peer⟩, some (s.accepted (w.grown fd ⟨name, some peer⟩) fd)) := by
  have hneg : fd ≠ -1 := by
    have := (unused_iff.mp hfd).1
    omega
  have hget : (w.grown fd ⟨name, some peer⟩).get fd = some ⟨true, noTimeout, noTimeout⟩ := by
    rw [World.get, if_neg hneg]
    exact Function.update_self ..
  simp only [Sock.accept, getOrCreate_opened (hI.ctx_of_unused hfd), Sock.init, hget, if_true]
  rfl

/-- A descriptor that `accept` returns gets an object. -/
theorem Inv.accept (hI : Inv w) (hfd : w.unused fd = true) (peer name : α) :
    Inv ((w.grown fd ⟨name, some peer⟩).add (s.accepted (w.grown fd ⟨name, some peer⟩) fd)) := by
  have hI₁ := hI.add_new (s := Sock.new s.family s.type s.protocol) rfl rfl
  -- The new object has the descriptor from the start.
  have hM : Moves w.next { w with next := w.next + 1 }
      (World.grown { w with next := w.next + 1 } fd ⟨name, some peer⟩)
      { Sock.new s.family s.type s.protocol with sock := fd, isConnect := true } :=
    Inv.adopt hI₁ rfl hfd rfl rfl rfl fun _ => rfl
  exact hM.inv.getLocalAddress.inv.getRemoteAddress.inv

/-- An object without a descriptor is destroyed. -/
theorem Inv.remove (hI : Inv (w.store i s)) (hs : s.sock = -1) :
    Inv { w with socks := Function.update w.socks i none } := by
  have hother : ∀ {j t}, Function.update w.socks i none j = some t →
      (w.store i s).socks j = some t := by
    intro j t hj
    by_cases hji : j = i
    · subst hji
      rw [Function.update_self] at hj
      cases hj
    · rw [Function.update_of_ne hji] at hj
      exact (socks_store_of_ne hji).trans hj
  refine ⟨?_, ?_, ?_, ?_, hI.closes⟩
  · intro j hj
    by_contra hne
    obtain ⟨t, ht⟩ := Option.ne_none_iff_exists'.mp hne
    cases (hI.fresh j hj).symm.trans (hother ht)
  · intro j t hj
    have h := hI.ok j t (hother hj)
    refine ⟨h.1, fun ht => ?_⟩
    obtain ⟨d, c, hh⟩ := h.2 ht
    exact ⟨d, c, hh.1, hh.2, hh.3, hh.4, hh.5, hh.6⟩
  · intro j k t u hj hk ht htu
    exact hI.apart j k t u (hother hj) (hother hk) ht htu
  · intro fd hfd
    obtain ⟨h1, j, t, hj, ht⟩ := hI.owner fd hfd
    refine ⟨h1, j, t, ?_, ht⟩
    have hji : j ≠ i := by
      rintro rfl
      rw [socks_store] at hj
      cases hj
      exact h1 (ht.symm.trans hs)
    exact (Function.update_of_ne hji ..).trans ((socks_store_of_ne hji).symm.trans hj)

/-! ### Steps and runs -/

theorem on_eq_some {method : Sock α → Option (World α)} :
    w.on i method = some w' ↔ ∃ s, w.socks i = some s ∧ method s = some w' := by
  rw [World.on, Option.bind_eq_some_iff]

theorem inv_init : Inv (init : World α) := by
  have hnone : ∀ {i} {s : Sock α}, (init : World α).socks i ≠ some s :=
    fun h => Option.some_ne_none _ h.symm
  refine ⟨fun _ _ => rfl, fun _ _ h => absurd h hnone, fun _ _ _ _ h => absurd h hnone, ?_, rfl⟩
  rintro fd (h | h)
  · exact absurd rfl h
  · exact absurd rfl h

theorem Inv.step {a : Action α} (hI : Inv w) (hs : step getFamily w a = some w') : Inv w' := by
  -- The object in hand is the stored one.
  have hback : ∀ {i s}, w.socks i = some s → Inv (w.store i s) :=
    fun h => by rw [store_self h]; exact hI
  cases a with
  | create family type protocol =>
    cases hs
    exact hI.add_new rfl rfl
  | bind i addr made bound =>
    rw [Sockets.step, on_eq_some] at hs
    obtain ⟨s, hi, hs⟩ := hs
    split at hs
    · rename_i hm
      cases hs
      exact ((hback hi).bind hm).inv
    · cases hs
  | accept i answer =>
    rw [Sockets.step, on_eq_some] at hs
    obtain ⟨s, hi, hs⟩ := hs
    split at hs
    · rename_i ha
      cases answer with
      | none =>
        cases hs
        exact hI
      | some p =>
        obtain ⟨fd, peer, name⟩ := p
        simp only [Option.all_some, Bool.and_eq_true] at ha
        rw [hI.accept_eq ha.1] at hs
        cases hs
        exact hI.accept ha.1 peer name
    · cases hs
  | connect i addr made answer =>
    rw [Sockets.step, on_eq_some] at hs
    obtain ⟨s, hi, hs⟩ := hs
    split at hs
    · rename_i hm
      cases hs
      exact ((hback hi).connect hm).inv
    · cases hs
  | reconnect i made answer =>
    rw [Sockets.step, on_eq_some] at hs
    obtain ⟨s, hi, hs⟩ := hs
    split at hs
    · rename_i hm
      cases hs
      exact ((hback hi).reconnect hm).inv
    · cases hs
  | close i =>
    rw [Sockets.step, on_eq_some] at hs
    obtain ⟨s, hi, hs⟩ := hs
    cases hs
    exact (hback hi).close.inv
  | destroy i =>
    rw [Sockets.step, on_eq_some] at hs
    obtain ⟨s, hi, hs⟩ := hs
    cases hs
    exact (hback hi).close.inv.remove sock_close
  | setTimeout i recv v =>
    rw [Sockets.step, on_eq_some] at hs
    obtain ⟨s, hi, hs⟩ := hs
    cases hs
    exact (hback hi).setTimeout.inv
  | getLocalAddress i =>
    rw [Sockets.step, on_eq_some] at hs
    obtain ⟨s, hi, hs⟩ := hs
    cases hs
    exact (hback hi).getLocalAddress.inv
  | getRemoteAddress i =>
    rw [Sockets.step, on_eq_some] at hs
    obtain ⟨s, hi, hs⟩ := hs
    cases hs
    exact (hback hi).getRemoteAddress.inv

theorem inv_run {as : List (Action α)} (h : exec (step getFamily) init as = some w) : Inv w :=
  exec_invariant_of_step (fun _ _ _ hI hs => Inv.step hI hs) as init w inv_init h

/-- Each open descriptor has one owner and a context. An object that is connected has an open
descriptor with a peer, and `close` is never called for a descriptor that is not open. -/
structure OneOwner (w : World α) : Prop where
  owner : ∀ fd, (w.desc fd).isSome = true ↔
    fd ≠ -1 ∧ ∃! i, ∃ s, w.socks i = some s ∧ s.sock = fd
  context : ∀ fd, (w.ctx fd).isSome = (w.desc fd).isSome
  connected : ∀ i s, w.socks i = some s → s.isConnect = true →
    ∃ d, w.desc s.sock = some d ∧ d.peer.isSome = true
  closes : w.badCloses = 0

theorem Inv.oneOwner (hI : Inv w) : OneOwner w where
  owner fd := by
    constructor
    · intro hfd
      have hne : w.desc fd ≠ none := Option.isSome_iff_ne_none.mp hfd
      obtain ⟨h1, i, s, hi, hs⟩ := hI.owner fd (Or.inl hne)
      refine ⟨h1, i, ⟨s, hi, hs⟩, ?_⟩
      rintro j ⟨t, hj, ht⟩
      exact (hI.apart i j s t hi hj (hs ▸ h1) (hs.trans ht.symm)).symm
    · rintro ⟨h1, i, ⟨s, hi, rfl⟩, -⟩
      obtain ⟨d, c, hh⟩ := (hI.ok i s hi).holds h1
      rw [hh.desc]
      rfl
  context := hI.isSome_ctx
  connected i s hi hc := by
    have h1 : s.sock ≠ -1 := by
      intro h
      rw [(hI.ok i s hi).unconnected h] at hc
      cases hc
    obtain ⟨d, c, hh⟩ := (hI.ok i s hi).holds h1
    exact ⟨d, hh.desc, hh.connected hc⟩
  closes := hI.closes

/-- In every state of every run each open descriptor has one owner. -/
theorem descriptors_owned {as : List (Action α)} (h : exec (step getFamily) init as = some w) :
    OneOwner w :=
  (inv_run h).oneOwner

end

/-- A server accepts a client, and a client that fails to connect tries again. -/
theorem descriptors_owned_run : ∃ w, exec (step fun _ : Nat => 2) init
    [.create 2 1 0, .bind 0 80 (some (5, 0)) (some 80), .accept 0 (some (6, 90, 80)),
      .create 2 1 0, .connect 2 80 (some (7, 0)) none, .connect 2 80 (some (7, 0)) (some (80, 91)),
      .close 0, .destroy 1] = some w ∧ OneOwner w := by
  have h : (exec (step fun _ : Nat => 2) init
    [.create 2 1 0, .bind 0 80 (some (5, 0)) (some 80), .accept 0 (some (6, 90, 80)),
      .create 2 1 0, .connect 2 80 (some (7, 0)) none, .connect 2 80 (some (7, 0)) (some (80, 91)),
      .close 0, .destroy 1]).isSome = true := rfl
  obtain ⟨w, hw⟩ := Option.isSome_iff_exists.mp h
  exact ⟨w, hw, descriptors_owned hw⟩

end Sylar.Sockets
