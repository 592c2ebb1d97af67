import Sylar.Proofs.Socket.Ownership

/-!
# `Sylar.Proofs.Socket.Reported`: the addresses that a connected socket reports

`getRemoteAddress` and `getLocalAddress` ask the kernel once and keep the answer. `close` does not
drop what they keep, and `connect` does not ask again. Only `reconnect` drops the local address. So
an object that is used for one connection after another can report the addresses of an earlier one.

`addresses_reported_iff` says when that does not happen: each connection goes where the first one
went, and has the local address that is kept.
-/

set_option autoImplicit false

namespace Sylar.Sockets

open Lib

section
variable {α : Type} {w w' : World α} {i : Nat} {s s' : Sock α} {d : Desc α}

/-- What a connected object reports is what the kernel has for its descriptor. -/
def Reported (w : World α) (s : Sock α) : Prop :=
  s.isConnect = true → ∀ d, w.desc s.sock = some d →
    (s.getRemoteAddress w).remoteAddress = d.peer ∧ (s.getLocalAddress w).localAddress = some d.name

def AsReported (w : World α) : Prop := ∀ i s, w.socks i = some s → Reported w s

/-! ### Addresses that are kept -/

theorem localAddress_getLocalAddress (hd : w.desc s.sock = some d) :
    (s.getLocalAddress w).localAddress = s.localAddress.or (some d.name) := by
  unfold Sock.getLocalAddress
  cases h : s.localAddress with
  | none => simp only [hd, Option.none_or]
  | some a => simpa only [Option.some_or] using h

theorem remoteAddress_getRemoteAddress (hd : w.desc s.sock = some d) :
    (s.getRemoteAddress w).remoteAddress = s.remoteAddress.or d.peer := by
  unfold Sock.getRemoteAddress
  cases h : s.remoteAddress with
  | none => simp only [hd, Option.none_or]
  | some a => simpa only [Option.some_or] using h

theorem remoteAddress_getLocalAddress : (s.getLocalAddress w).remoteAddress = s.remoteAddress := by
  rw [Sock.getLocalAddress]
  split <;> rfl

theorem localAddress_getRemoteAddress : (s.getRemoteAddress w).localAddress = s.localAddress := by
  rw [Sock.getRemoteAddress]
  split <;> rfl

/-- Both addresses are looked up after a connection is made. -/
theorem lookups (hd : w.desc s.sock = some d) :
    ((s.getRemoteAddress w).getLocalAddress w).isConnect = s.isConnect ∧
      w.desc ((s.getRemoteAddress w).getLocalAddress w).sock = some d ∧
      ((s.getRemoteAddress w).getLocalAddress w).remoteAddress = s.remoteAddress.or d.peer ∧
      ((s.getRemoteAddress w).getLocalAddress w).localAddress =
        s.localAddress.or (some d.name) := by
  obtain ⟨hR, -, -, hRc⟩ := getRemoteAddress_fields (w := w) (s := s)
  obtain ⟨hL, -, -, hLc⟩ := getLocalAddress_fields (w := w) (s := s.getRemoteAddress w)
  have hd' : w.desc (s.getRemoteAddress w).sock = some d := hR.symm ▸ hd
  refine ⟨hLc.trans hRc, by rw [hL, hd'], ?_, ?_⟩
  · rw [remoteAddress_getLocalAddress, remoteAddress_getRemoteAddress hd]
  · rw [localAddress_getLocalAddress hd', localAddress_getRemoteAddress]

theorem or_some_eq_iff (o : Option α) (a : α) : o.or (some a) = some a ↔ ∀ b ∈ o, b = a := by
  cases o with
  | none => exact iff_of_true rfl (fun b hb => absurd hb (Option.not_mem_none b))
  | some c => simp only [Option.some_or, Option.some.injEq, Option.mem_some_iff, forall_eq']

theorem reported_of_not (h : s.isConnect = false) : Reported w s :=
  fun hc => absurd (h.symm.trans hc) Bool.false_ne_true

theorem reported_iff (hc : s.isConnect = true) (hd : w.desc s.sock = some d) :
    Reported w s ↔
      s.remoteAddress.or d.peer = d.peer ∧ s.localAddress.or (some d.name) = some d.name := by
  rw [← remoteAddress_getRemoteAddress hd, ← localAddress_getLocalAddress hd]
  exact ⟨fun h => h hc d hd, fun h _ e he => Option.some.inj (hd.symm.trans he) ▸ h⟩

/-- What matters is the connection, the descriptor and the addresses. -/
theorem Reported.congr (h : Reported w s) (hsock : s'.sock = s.sock)
    (hdesc : w'.desc s.sock = w.desc s.sock) (hc : s'.isConnect = s.isConnect)
    (hl : s'.localAddress = s.localAddress) (hr : s'.remoteAddress = s.remoteAddress) :
    Reported w' s' := by
  intro hc' d hd
  have hd₀ : w.desc s.sock = some d := by rw [← hdesc, ← hsock, hd]
  rw [remoteAddress_getRemoteAddress hd, localAddress_getLocalAddress hd, hl, hr]
  exact (reported_iff (hc ▸ hc') hd₀).mp h

theorem Reported.getLocalAddress (h : Reported w s) : Reported w (s.getLocalAddress w) := by
  obtain ⟨hsock, -, -, hc⟩ := getLocalAddress_fields (w := w) (s := s)
  intro hc' d hd
  have hd₀ : w.desc s.sock = some d := hsock ▸ hd
  obtain ⟨h1, h2⟩ := (reported_iff (hc ▸ hc') hd₀).mp h
  rw [remoteAddress_getRemoteAddress hd, localAddress_getLocalAddress hd,
    remoteAddress_getLocalAddress, localAddress_getLocalAddress hd₀, h2]
  exact ⟨h1, rfl⟩

theorem Reported.getRemoteAddress (h : Reported w s) : Reported w (s.getRemoteAddress w) := by
  obtain ⟨hsock, -, -, hc⟩ := getRemoteAddress_fields (w := w) (s := s)
  intro hc' d hd
  have hd₀ : w.desc s.sock = some d := hsock ▸ hd
  obtain ⟨h1, h2⟩ := (reported_iff (hc ▸ hc') hd₀).mp h
  rw [remoteAddress_getRemoteAddress hd, localAddress_getLocalAddress hd,
    localAddress_getRemoteAddress, remoteAddress_getRemoteAddress hd₀, h1, Option.or_self]
  exact ⟨rfl, h2⟩

theorem Reported.setTimeout {recv : Bool} {v : UInt64} (h : Reported w s) :
    Reported (s.setTimeout w recv v).1 (s.setTimeout w recv v).2 := by
  have hdesc : (s.setTimeout w recv v).1.desc s.sock = w.desc s.sock := by
    rw [Sock.setTimeout, setTimeoutFd]
    split <;> rfl
  rw [Sock.setTimeout] at hdesc ⊢
  dsimp only at hdesc ⊢
  split
  · exact h.congr rfl hdesc rfl rfl rfl
  · split <;> exact h.congr rfl hdesc rfl rfl rfl

/-! ### The methods -/

theorem isConnect_close : (s.close w).2.isConnect = false := by
  rw [Sock.close]
  split
  · rename_i h
    rw [Bool.and_eq_true, Bool.not_eq_true'] at h
    exact h.1
  · rfl

theorem ensure_addresses {m : Option (Int × α)} :
    (s.ensure w m).2.remoteAddress = s.remoteAddress ∧
      (s.ensure w m).2.localAddress = s.localAddress ∧
      (s.ensure w m).2.isConnect = s.isConnect := by
  rw [Sock.ensure]
  split <;> exact ⟨rfl, rfl, rfl⟩

/-- A connected object has a descriptor. -/
theorem Inv.ensure_connected {made : Option (Int × α)} (hI : Inv (w.store i s))
    (hc : s.isConnect = true) : s.ensure w made = (w, s) := by
  have hs : s.sock ≠ -1 := by
    intro h
    rw [(hI.ok i s socks_store).unconnected h] at hc
    cases hc
  rw [Sock.ensure, if_pos (isValid_iff.mpr hs)]

variable {getFamily : α → Int} {addr : α} {made : Option (Int × α)}

/-- What `connect` leaves behind: a connection with the addresses that were kept or else those of
the kernel, or no connection, or what there was. -/
theorem Inv.connect_cases (hI : Inv (w.store i s)) (getFamily : α → Int) (addr : α)
    (made : Option (Int × α)) (answer : Option (α × α)) :
    (∃ peer name w' s', answer = some (peer, name) ∧
      Sock.connect getFamily w s addr made answer = (true, w', s') ∧ s'.isConnect = true ∧
      w'.desc s'.sock = some ⟨name, some peer⟩ ∧
      s'.remoteAddress = s.remoteAddress.or (some peer) ∧
      s'.localAddress = s.localAddress.or (some name)) ∨
    (∃ w' s', Sock.connect getFamily w s addr made answer = (false, w', s') ∧
      (s'.isConnect = false ∨ w' = w ∧ s' = s)) := by
  have hkept : ∀ {w₁ s₁}, s.ensure w made = (w₁, s₁) →
      s₁.isConnect = false ∨ w₁ = w ∧ s₁ = s := by
    intro w₁ s₁ he
    cases hc : s.isConnect with
    | false =>
      have h := (ensure_addresses (w := w) (s := s) (m := made)).2.2
      rw [he, hc] at h
      exact Or.inl h
    | true => exact Or.inr (Prod.mk.inj (he.symm.trans (hI.ensure_connected hc)))
  obtain ⟨hr, hl, -⟩ := ensure_addresses (w := w) (s := s) (m := made)
  simp only [Sock.connect]
  generalize s.ensure w made = p at hkept hr hl ⊢
  obtain ⟨w₁, s₁⟩ := p
  dsimp only at hr hl ⊢
  split
  · exact Or.inr ⟨w₁, s₁, rfl, hkept rfl⟩
  · split
    · exact Or.inr ⟨w₁, s₁, rfl, hkept rfl⟩
    · rcases connectFd_cases w₁ s₁.sock answer with h | ⟨peer, name, ha, h⟩
      · simp only [h]
        exact Or.inr ⟨_, _, rfl, Or.inl isConnect_close⟩
      · simp only [h]
        refine Or.inl ⟨peer, name, _, _, ha, rfl, ?_⟩
        rw [← hr, ← hl]
        exact lookups (s := { s₁ with isConnect := true }) (Function.update_self ..)

theorem isConnect_bind {bound : Option α} :
    (Sock.bind getFamily w s addr made bound).2.2.isConnect = s.isConnect := by
  rw [← (ensure_addresses (w := w) (s := s) (m := made)).2.2]
  simp only [Sock.bind]
  generalize s.ensure w made = p
  obtain ⟨w₁, s₁⟩ := p
  dsimp only
  split
  · rfl
  · split
    · rfl
    · split
      · exact getLocalAddress_fields.2.2.2
      · rfl

/-- What `bind` leaves behind when the object is connected: another name, or what there was. -/
theorem Inv.bind_cases (hI : Inv (w.store i s)) (hc : s.isConnect = true) (getFamily : α → Int)
    (addr : α) (made : Option (Int × α)) (bound : Option α) :
    (∃ name d, bound = some name ∧ w.desc s.sock = some d ∧
      Sock.bind getFamily w s addr made bound =
        (true, w.opened s.sock { d with name := name },
          s.getLocalAddress (w.opened s.sock { d with name := name }))) ∨
    Sock.bind getFamily w s addr made bound = (false, w, s) := by
  simp only [Sock.bind, hI.ensure_connected hc]
  split
  · exact Or.inr rfl
  · split
    · exact Or.inr rfl
    · split
      · rename_i name d hd
        exact Or.inl ⟨name, d, rfl, hd, rfl⟩
      · exact Or.inr rfl

/-- A name that `bind` gives to a connected object is the one that is kept. -/
theorem Inv.reported_bind_iff {bound : Option α} (hI : Inv (w.store i s)) (h : Reported w s) :
    Reported (Sock.bind getFamily w s addr made bound).2.1
        (Sock.bind getFamily w s addr made bound).2.2 ↔
      (s.isConnect = true → (Sock.bind getFamily w s addr made bound).1 = true →
        ∀ name ∈ bound, ∀ b ∈ s.localAddress, b = name) := by
  cases hc : s.isConnect with
  | false => exact iff_of_true (reported_of_not (isConnect_bind.trans hc)) (fun h => by cases h)
  | true =>
    rcases hI.bind_cases hc getFamily addr made bound with ⟨name, d, rfl, hd, he⟩ | he
    · rw [he]
      have hd' : (w.opened s.sock { d with name := name }).desc s.sock =
          some { d with name := name } := Function.update_self ..
      generalize w.opened s.sock { d with name := name } = w' at hd'
      obtain ⟨hsock, -, -, hc'⟩ := getLocalAddress_fields (w := w') (s := s)
      rw [reported_iff (hc'.trans hc) (by rw [hsock, hd']), remoteAddress_getLocalAddress,
        localAddress_getLocalAddress hd', Option.or_assoc, Option.or_self, or_some_eq_iff]
      simp only [true_imp_iff, Option.mem_some_iff, forall_eq', ((reported_iff hc hd).mp h).1,
        true_and]
    · rw [he]
      exact iff_of_true h (fun _ hok => by cases hok)

/-- A connection that `connect` makes has the addresses that are kept. -/
theorem Inv.reported_connect_iff {answer : Option (α × α)} (hI : Inv (w.store i s))
    (h : Reported w s) :
    Reported (Sock.connect getFamily w s addr made answer).2.1
        (Sock.connect getFamily w s addr made answer).2.2 ↔
      ((Sock.connect getFamily w s addr made answer).1 = true → ∀ p ∈ answer,
        (∀ b ∈ s.remoteAddress, b = p.1) ∧ ∀ b ∈ s.localAddress, b = p.2) := by
  rcases hI.connect_cases getFamily addr made answer with
    ⟨peer, name, w', s', rfl, he, hc, hd, hr, hl⟩ | ⟨w', s', he, h'⟩
  · rw [he, reported_iff hc hd, hr, hl, Option.or_assoc, Option.or_self, Option.or_assoc,
      Option.or_self, or_some_eq_iff, or_some_eq_iff]
    simp only [true_imp_iff, Option.mem_some_iff, forall_eq']
  · rw [he]
    refine iff_of_true ?_ (fun hok => by cases hok)
    rcases h' with hc | ⟨rfl, rfl⟩
    · exact reported_of_not hc
    · exact h

/-- The local address is looked up again after `reconnect`. -/
theorem Inv.reported_reconnect_iff {answer : Option (α × α)} (hI : Inv (w.store i s))
    (h : Reported w s) :
    Reported (Sock.reconnect getFamily w s made answer).2.1
        (Sock.reconnect getFamily w s made answer).2.2 ↔
      ((Sock.reconnect getFamily w s made answer).1 = true → ∀ p ∈ answer,
        ∀ b ∈ s.remoteAddress, b = p.1) := by
  rw [Sock.reconnect]
  split
  · exact iff_of_true h (fun hok => by cases hok)
  · rename_i addr _
    have hM : Moves i w w { s with localAddress := none } := hI.touch rfl rfl rfl rfl
    have h' : Reported w { s with localAddress := none } := by
      intro hc d hd
      exact (reported_iff hc hd).mpr ⟨((reported_iff (s := s) hc hd).mp h).1, rfl⟩ hc d hd
    rw [hM.inv.reported_connect_iff h']
    simp only [Option.not_mem_none, false_imp_iff, implies_true, and_true]

/-! ### Steps and runs -/

/-- The connection or the name that an action makes is the one that is kept, if one is kept. -/
def Unmoved (getFamily : α → Int) (w : World α) (a : Action α) : Prop :=
  (step getFamily w a).isSome = true →
  match a with
  | .bind i addr made bound => ∀ s, w.socks i = some s → s.isConnect = true →
    (Sock.bind getFamily w s addr made bound).1 = true →
      ∀ name ∈ bound, ∀ b ∈ s.localAddress, b = name
  | .connect i addr made answer => ∀ s, w.socks i = some s →
    (Sock.connect getFamily w s addr made answer).1 = true → ∀ p ∈ answer,
      (∀ b ∈ s.remoteAddress, b = p.1) ∧ ∀ b ∈ s.localAddress, b = p.2
  | .reconnect i made answer => ∀ s, w.socks i = some s →
    (Sock.reconnect getFamily w s made answer).1 = true → ∀ p ∈ answer,
      ∀ b ∈ s.remoteAddress, b = p.1
  | _ => True

/-- The other objects report what they reported. -/
theorem asReported_store_iff (hM : Moves i w w' s') (h : AsReported w) :
    AsReported (w'.store i s') ↔ Reported w' s' := by
  refine ⟨fun h' => h' i s' socks_store, fun h' j t hj => ?_⟩
  by_cases hji : j = i
  · subst hji
    rw [socks_store] at hj
    exact Option.some.inj hj ▸ h'
  · rw [socks_store_of_ne hji, hM.socks] at hj
    exact (h j t hj).congr rfl (hM.others j t hji hj) rfl rfl rfl

/-- A new object does not change what the others report. -/
theorem AsReported.add (h : AsReported w) (hsocks : w'.socks = w.socks)
    (hdesc : ∀ j t, w.socks j = some t → w'.desc t.sock = w.desc t.sock) (hs : Reported w' s) :
    AsReported (w'.add s) := by
  intro j t hj
  change Function.update w'.socks w'.next (some s) j = some t at hj
  by_cases hjn : j = w'.next
  · rw [hjn, Function.update_self] at hj
    exact Option.some.inj hj ▸ hs
  · rw [Function.update_of_ne hjn, hsocks] at hj
    exact (h j t hj).congr rfl (hdesc j t hj) rfl rfl rfl

/-- The object that `accept` returns is new and has looked both addresses up. -/
theorem Inv.reported_accept {fd : Int} (hI : Inv w) (h : AsReported w)
    (hfd : w.unused fd = true) (peer name : α) :
    AsReported ((w.grown fd ⟨name, some peer⟩).add
      (s.accepted (w.grown fd ⟨name, some peer⟩) fd)) := by
  obtain ⟨h0, hnone⟩ := unused_iff.mp hfd
  refine h.add rfl (fun j t hj => ?_) ?_
  · -- No object has the new descriptor.
    refine Function.update_of_ne (fun ht => ?_) ..
    obtain ⟨d, c, hh⟩ := (hI.ok j t hj).holds (by omega)
    cases (ht ▸ hnone).symm.trans hh.desc
  · have hd : (w.grown fd ⟨name, some peer⟩).desc fd = some ⟨name, some peer⟩ :=
      Function.update_self ..
    have hnew : Reported (w.grown fd ⟨name, some peer⟩)
        { Sock.new s.family s.type s.protocol with sock := fd, isConnect := true } :=
      (reported_iff rfl hd).mpr ⟨rfl, rfl⟩
    exact hnew.getLocalAddress.getRemoteAddress

/-- The object that is destroyed was closed. -/
theorem AsReported.remove (h : AsReported (w.store i s)) :
    AsReported { w with socks := Function.update w.socks i none } := by
  intro j t hj
  by_cases hji : j = i
  · rw [hji] at hj
    cases (Function.update_self i none w.socks).symm.trans hj
  · have hj' : w.socks j = some t := (Function.update_of_ne hji none w.socks).symm.trans hj
    exact h j t ((socks_store_of_ne hji).trans hj')

theorem Inv.unmoved_iff {a : Action α} (hI : Inv w) (h : AsReported w)
    (hs : Sockets.step getFamily w a = some w') : Unmoved getFamily w a ↔ AsReported w' := by
  have hback : ∀ {i s}, w.socks i = some s → Inv (w.store i s) :=
    fun h => by rw [store_self h]; exact hI
  have hsome : (Sockets.step getFamily w a).isSome = true := by rw [hs]; rfl
  unfold Unmoved
  rw [eq_true hsome, true_imp_iff]
  cases a with
  | create family type protocol =>
    cases hs
    exact iff_of_true trivial (h.add rfl (fun _ _ _ => rfl) (reported_of_not rfl))
  | bind i addr made bound =>
    rw [Sockets.step, on_eq_some] at hs
    obtain ⟨s, hi, hs⟩ := hs
    split at hs
    · rename_i hm
      obtain rfl : (Sock.bind getFamily w s addr made bound).2.1.store i
          (Sock.bind getFamily w s addr made bound).2.2 = w' := Option.some.inj hs
      rw [asReported_store_iff ((hback hi).bind hm) h, (hback hi).reported_bind_iff (h i s hi)]
      simp only [hi, Option.some.injEq, forall_eq']
    · cases hs
  | accept i answer =>
    rw [Sockets.step, on_eq_some] at hs
    obtain ⟨s, hi, hs⟩ := hs
    split at hs
    · rename_i ha
      refine iff_of_true trivial ?_
      cases answer with
      | none =>
        cases hs
        exact h
      | some p =>
        obtain ⟨fd, peer, name⟩ := p
        simp only [Option.all_some, Bool.and_eq_true] at ha
        rw [hI.accept_eq ha.1] at hs
        cases hs
        exact hI.reported_accept h ha.1 peer name
    · cases hs
  | connect i addr made answer =>
    rw [Sockets.step, on_eq_some] at hs
    obtain ⟨s, hi, hs⟩ := hs
    split at hs
    · rename_i hm
      obtain rfl : (Sock.connect getFamily w s addr made answer).2.1.store i
          (Sock.connect getFamily w s addr made answer).2.2 = w' := Option.some.inj hs
      rw [asReported_store_iff ((hback hi).connect hm) h,
        (hback hi).reported_connect_iff (h i s hi)]
      simp only [hi, Option.some.injEq, forall_eq']
    · cases hs
  | reconnect i made answer =>
    rw [Sockets.step, on_eq_some] at hs
    obtain ⟨s, hi, hs⟩ := hs
    split at hs
    · rename_i hm
      obtain rfl : (Sock.reconnect getFamily w s made answer).2.1.store i
          (Sock.reconnect getFamily w s made answer).2.2 = w' := Option.some.inj hs
      rw [asReported_store_iff ((hback hi).reconnect hm) h,
        (hback hi).reported_reconnect_iff (h i s hi)]
      simp only [hi, Option.some.injEq, forall_eq']
    · cases hs
  | close i =>
    rw [Sockets.step, on_eq_some] at hs
    obtain ⟨s, hi, hs⟩ := hs
    cases hs
    exact iff_of_true trivial
      ((asReported_store_iff (hback hi).close h).mpr (reported_of_not isConnect_close))
  | destroy i =>
    rw [Sockets.step, on_eq_some] at hs
    obtain ⟨s, hi, hs⟩ := hs
    cases hs
    have h' := (asReported_store_iff (hback hi).close h).mpr (reported_of_not isConnect_close)
    exact iff_of_true trivial h'.remove
  | setTimeout i recv v =>
    rw [Sockets.step, on_eq_some] at hs
    obtain ⟨s, hi, hs⟩ := hs
    cases hs
    exact iff_of_true trivial
      ((asReported_store_iff (hback hi).setTimeout h).mpr (h i s hi).setTimeout)
  | getLocalAddress i =>
    rw [Sockets.step, on_eq_some] at hs
    obtain ⟨s, hi, hs⟩ := hs
    cases hs
    exact iff_of_true trivial
      ((asReported_store_iff (hback hi).getLocalAddress h).mpr (h i s hi).getLocalAddress)
  | getRemoteAddress i =>
    rw [Sockets.step, on_eq_some] at hs
    obtain ⟨s, hi, hs⟩ := hs
    cases hs
    exact iff_of_true trivial
      ((asReported_store_iff (hback hi).getRemoteAddress h).mpr (h i s hi).getRemoteAddress)

theorem asReported_init : AsReported (init : World α) :=
  fun _ _ h => absurd h.symm (Option.some_ne_none _)

/-- In every state of a run each connected object reports the addresses of its connection, if and
only if no action of the run moves an object away from an address that it keeps. -/
theorem addresses_reported_iff (as : List (Action α)) :
    Guarded (step getFamily) (Unmoved getFamily) init as ↔
      ∀ bs w, bs <+: as → exec (step getFamily) init bs = some w → AsReported w := by
  have hstep : ∀ (w : World α) a w', (Inv w ∧ AsReported w) → step getFamily w a = some w' →
      (Unmoved getFamily w a ↔ Inv w' ∧ AsReported w') := by
    rintro w a w' ⟨hI, h⟩ hs
    rw [hI.unmoved_iff h hs, and_iff_right (hI.step hs)]
  have hnone : ∀ (w : World α) a, step getFamily w a = none → Unmoved getFamily w a := by
    intro w a hs hsome
    rw [hs] at hsome
    cases hsome
  rw [guarded_iff_forall_states hstep hnone as init ⟨inv_init, asReported_init⟩]
  exact ⟨fun h bs w hbs hw => (h bs w hbs hw).2, fun h bs w hbs hw => ⟨inv_run hw, h bs w hbs hw⟩⟩

end

/-- An object that was connected to one peer and then to another reports the first. -/
example : ((exec (step fun _ : Nat => 2) init
    [.create 2 1 0, .connect 0 80 (some (5, 0)) (some (80, 90)), .close 0,
      .connect 0 81 (some (5, 0)) (some (81, 91))]).bind
    fun w => (w.socks 0).map fun s => (s.getRemoteAddress w).remoteAddress) = some (some 80) := rfl

end Sylar.Sockets
