import Megalo.Lib.Lease
import Megalo.Socket.Basic

/-!
# Descriptors of sockets

Every descriptor that a `Socket` has is leased to this object (`Owned`): it is open, and no other object has it. The
methods are put together from a few changes of an object and its descriptor (`At.call`, `At.setSock`, `At.openFd`,
`At.closeFd`), which keep that, and so does every step (`owned_step`).

- `Calm`: no object is closed while a method waits in it. Then such a method goes on with the descriptor of its object;
  otherwise its number may be another object's by then;
- `sockets_owned`: in every run no method calls for a descriptor that is not open, none is closed twice, and none is
  lost but the ones that `accept` finds no context for; and in a calm one no method that waited goes on with another
  descriptor than the one its object still has.
-/

namespace Megalo

/-- A descriptor that `accept` gets has a context. -/
def SocketOp.Managed {A : Type*} : SocketOp A → Prop
  | .accepted _ _ newsock managed _ => newsock = -1 ∨ managed = true
  | _ => True

instance {A : Type*} : DecidablePred (SocketOp.Managed (A := A))
  | .accepted _ _ _ _ _ => inferInstanceAs (Decidable (_ ∨ _))
  | .create _ _ | .createUDP _ _ | .bind _ _ _ _ _ | .listen _ _ | .connect _ _ _ | .reconnect _ _
  | .connected _ _ _ _ | .accept _ | .transfer _ | .transferred _ _ | .again _ | .option _ | .close _ | .destroy _ =>
    inferInstanceAs (Decidable True)

namespace Sockets

/-- No object is closed while a method waits in it, by `close` or by a `connect` that fails. -/
def Calm {A : Type*} (s : Sockets A) : SocketOp A → Prop
  | .close i => ∀ c ∈ s.calls, c.sock ≠ i
  | .connected i fd rt _ => rt ≠ 0 → ∀ c ∈ s.calls.erase ⟨i, fd, .connect⟩, c.sock ≠ i
  | _ => True

instance {A : Type*} (s : Sockets A) : DecidablePred s.Calm
  | .close _ => inferInstanceAs (Decidable (∀ c ∈ s.calls, _))
  | .connected _ _ _ _ => inferInstanceAs (Decidable (_ → _))
  | .create _ _ | .createUDP _ _ | .bind _ _ _ _ _ | .listen _ _ | .connect _ _ _ | .reconnect _ _
  | .accept _ | .accepted _ _ _ _ _ | .transfer _ | .transferred _ _ | .again _ | .option _ | .destroy _ =>
    inferInstanceAs (Decidable True)

variable {A : Type*} {Q : FdStatus → Prop} {K : Prop} {s t : Sockets A} {i j : Nat} {o : Socket A} {ret : ℤ}
  {names : Names A}

/-- The descriptor of an object that is not destroyed. -/
def holds (p : Bool × Socket A) : Option ℤ := if p.1 = true ∧ p.2.sock ≠ -1 then some p.2.sock else none

/-- The objects have their descriptors for themselves; `Q` is what the others are, and `K` that the run was calm. -/
structure Owned (Q : FdStatus → Prop) (K : Prop) (s : Sockets A) : Prop where
  lease : Lease.Leased holds (fun _ r => r = .opened) Q (fun i => (s.live i, s.socks i)) s.fds
  sound : s.misuse = false
  counted : ∀ i, s.live i = true → i < s.count
  calls : ∀ c ∈ s.calls, s.live c.sock = true
  kept : K → ∀ c ∈ s.calls, c.fd = -1 ∨ (s.socks c.sock).sock = c.fd
  strayed : K → s.strayed = false

/-- An object that is not destroyed, in such a state. -/
structure At (Q : FdStatus → Prop) (K : Prop) (s : Sockets A) (i : Nat) : Prop where
  owned : s.Owned Q K
  live : s.live i = true

theorem holds_some {b : Bool} (hb : b = true) (h : o.sock ≠ -1) : holds (b, o) = some o.sock := if_pos ⟨hb, h⟩

theorem holds_none (h : o.sock = -1) (b : Bool) : holds (b, o) = none := if_neg fun hp => hp.2 h

theorem holds_eq {p : Bool × Socket A} {fd : ℤ} (h : holds p = some fd) : p.1 = true ∧ fd ≠ -1 ∧ p.2.sock = fd := by
  unfold holds at h
  split at h
  · rename_i hp
    obtain rfl := Option.some.inj h
    exact ⟨hp.1, hp.2, rfl⟩
  · cases h

/-! ## Changes of an object -/

/-- One object is changed, in itself and in what is known of it. -/
theorem update_pair (s : Sockets A) (i : Nat) (b : Bool) (o : Socket A) :
    (fun j => (Function.update s.live i b j, Function.update s.socks i o j)) =
      Function.update (fun j => (s.live j, s.socks j)) i (b, o) := by
  funext j
  by_cases hj : j = i
  · subst hj
    simp only [Function.update_self]
  · simp only [Function.update_of_ne hj]

theorem update_sock (s : Sockets A) (i : Nat) (o : Socket A) :
    (fun j => (s.live j, Function.update s.socks i o j)) =
      Function.update (fun j => (s.live j, s.socks j)) i (s.live i, o) := by
  rw [← update_pair, Function.update_eq_self]

@[simp] theorem setSock_self : (s.setSock i o).socks i = o := Function.update_self ..

theorem make_live (h : i ≠ s.count) : (s.make o).live i = s.live i := Function.update_of_ne h ..

@[simp] theorem make_sock : (s.make o).socks s.count = o := Function.update_self ..

@[simp] theorem call_socks : (s.call i).socks = s.socks := rfl

@[simp] theorem call_live : (s.call i).live = s.live := rfl

@[simp] theorem call_fds : (s.call i).fds = s.fds := rfl

/-- The descriptor that an object has is open. -/
theorem At.opened (h : s.At Q K i) (hs : (s.socks i).sock ≠ -1) : s.fds (s.socks i).sock = .opened :=
  Lease.Leased.held h.owned.lease (holds_some h.live hs)

theorem At.call (h : s.At Q K i) : (s.call i).At Q K i := by
  refine ⟨{ h.owned with sound := ?_ }, h.live⟩
  have hopened : (s.socks i).isValid = true → s.fds (s.socks i).sock = .opened := fun hv =>
    h.opened (of_decide_eq_true hv)
  cases hv : (s.socks i).isValid with
  | false => simp [Sockets.call, hv, h.owned.sound]
  | true => simp [Sockets.call, hopened hv, h.owned.sound]

/-- A method that waits has the number of its object, when only an object without one gets another. -/
theorem Owned.kept_update (h : s.Owned Q K) (ho : (s.socks i).sock = -1 ∨ o.sock = (s.socks i).sock) (hK : K) :
    ∀ c ∈ s.calls, c.fd = -1 ∨ (Function.update s.socks i o c.sock).sock = c.fd := by
  intro c hc
  have hkept := h.kept hK c hc
  by_cases hci : c.sock = i
  · subst hci
    rw [Function.update_self]
    rcases ho with ho | ho
    · exact .inl (hkept.elim id fun he => he.symm.trans ho)
    · rw [ho]
      exact hkept
  · rw [Function.update_of_ne hci]
    exact hkept

/-- The object keeps its descriptor. -/
theorem At.setSock (h : s.At Q K i) (ho : o.sock = (s.socks i).sock) : (s.setSock i o).At Q K i := by
  refine ⟨{ h.owned with lease := ?_, kept := h.owned.kept_update (.inr ho) }, h.live⟩
  have hsame : holds (s.live i, o) = holds (s.live i, s.socks i) := by simp only [holds, ho]
  simp only [Sockets.setSock, update_sock]
  exact Lease.Leased.turn h.owned.lease hsame fun _ _ hr => hr

/-- An object without a descriptor gets a new one. -/
theorem At.openFd (h : s.At Q K i) (hs : (s.socks i).sock = -1) (hret : s.Fresh ret) : (s.openFd i ret).At Q K i := by
  refine ⟨{ h.owned with lease := ?_, kept := h.owned.kept_update (.inl hs) }, h.live⟩
  simp only [Sockets.openFd, Sockets.setSock, update_sock]
  have hnone : holds (s.live i, s.socks i) = none := holds_none hs _
  rcases hret with rfl | ⟨hpos, hclosed⟩
  · rw [if_pos rfl]
    exact Lease.Leased.turn h.owned.lease ((holds_none rfl _).trans hnone.symm) fun _ _ hr => hr
  · have hne : ret ≠ -1 := by omega
    have hnobody : ∀ j, holds (s.live j, s.socks j) ≠ some ret := fun j hj => by
      have hopened := Lease.Leased.held h.owned.lease hj
      rw [hclosed] at hopened
      cases hopened
    rw [if_neg hne]
    refine Lease.Leased.update h.owned.lease (fun k hk => ?_) (fun j _ => hnobody j) (fun k hk => ?_) (fun _ => rfl)
      (fun hk => ?_)
    · rw [hnone] at hk
      cases hk
    · exact (holds_eq hk).2.2.symm
    · rw [holds_some h.live hne] at hk
      cases hk

/-- An object gives its descriptor back, while no method waits in it, or in a run that is not calm. -/
theorem At.closeFd (h : s.At Q K i) (hQ : Q .closed) (hs : (s.socks i).sock ≠ -1)
    (hK : K → ∀ c ∈ s.calls, c.sock ≠ i) : (s.closeFd i).At Q K i := by
  have hheld := holds_some h.live hs
  have hkept : K → ∀ c ∈ s.calls, c.fd = -1 ∨ ((s.closeFd i).socks c.sock).sock = c.fd := fun hk c hc => by
    rw [show (s.closeFd i).socks c.sock = s.socks c.sock from Function.update_of_ne (hK hk c hc) ..]
    exact h.owned.kept hk c hc
  refine ⟨{ h.call.owned with lease := ?_, kept := hkept }, h.live⟩
  simp only [Sockets.closeFd, Sockets.setSock, call_socks, call_live, update_sock]
  refine Lease.Leased.update h.owned.lease (fun k hk => ?_) (fun j hj => ?_) (fun k hk => ?_) (fun hk => ?_)
    (fun _ => hQ)
  · exact (holds_eq hk).2.2.symm
  · exact Lease.Leased.nobody h.owned.lease hheld j hj
  · exact absurd (holds_eq hk).2.2.symm (holds_eq hk).2.1
  · exact absurd ((holds_eq hk).2.2) (Ne.symm hs)

/-- A new object has no descriptor. -/
theorem Owned.make (h : s.Owned Q K) (ho : o.sock = -1) : (s.make o).At Q K s.count := by
  have hdead : s.live s.count = false := by
    cases hl : s.live s.count with
    | false => rfl
    | true => exact absurd (h.counted _ hl) (Nat.lt_irrefl _)
  have hlive : ∀ k, s.live k = true → (s.make o).live k = true := fun k hk => by
    have hne : k ≠ s.count := Nat.ne_of_lt (h.counted k hk)
    exact (make_live hne).trans hk
  refine ⟨⟨?_, h.sound, fun k hk => ?_, fun c hc => hlive _ (h.calls c hc), fun hK c hc => ?_, h.strayed⟩,
    Function.update_self ..⟩
  · simp only [Sockets.make, Sockets.setSock, update_pair]
    refine Lease.Leased.turn h.lease ?_ fun _ _ hr => hr
    rw [holds_none ho, hdead]
    exact (if_neg fun hp => nomatch hp.1).symm
  · by_cases hkc : k = s.count
    · rw [hkc]
      exact Nat.lt_succ_self _
    · exact Nat.lt_succ_of_lt (h.counted k ((Function.update_of_ne hkc ..).symm.trans hk))
  · have hne : c.sock ≠ s.count := Nat.ne_of_lt (h.counted _ (h.calls c hc))
    rw [show (s.make o).socks c.sock = s.socks c.sock from Function.update_of_ne hne ..]
    exact h.kept hK c hc

/-- An object without a descriptor is gone. -/
theorem At.forget (h : s.At Q K i) (hs : (s.socks i).sock = -1) (hc : ∀ c ∈ s.calls, c.sock ≠ i) :
    ({ s with live := Function.update s.live i false } : Sockets A).Owned Q K := by
  refine ⟨?_, h.owned.sound, fun k hk => ?_, fun c hcall => ?_, h.owned.kept, h.owned.strayed⟩
  · have hturn := Lease.Leased.turn h.owned.lease (i := i) (w := (false, s.socks i))
      ((if_neg fun hp => nomatch hp.1 : holds (false, s.socks i) = none).trans (holds_none hs _).symm)
      fun _ _ hr => hr
    rw [← update_pair, Function.update_eq_self] at hturn
    exact hturn
  · by_cases hki : k = i
    · rw [hki] at hk
      exact nomatch (Function.update_self ..).symm.trans hk
    · exact h.owned.counted k ((Function.update_of_ne hki ..).symm.trans hk)
  · exact (Function.update_of_ne (hc c hcall) ..).trans (h.owned.calls c hcall)

/-- A method begins to wait. -/
theorem At.enter (h : s.At Q K i) (kind : CallKind) : (s.enter i kind).At Q K i := by
  refine ⟨{ h.call.owned with calls := fun c hc => ?_, kept := fun hK c hc => ?_ }, h.live⟩
  · rcases List.mem_cons.mp hc with rfl | hc
    · exact h.live
    · exact h.owned.calls c hc
  · rcases List.mem_cons.mp hc with rfl | hc
    · exact .inr rfl
    · exact h.owned.kept hK c hc

theorem Owned.leave (h : s.Owned Q K) (c : SocketCall) : (s.leave c).Owned Q K :=
  { h with
    calls := fun c' hc' => h.calls c' (List.mem_of_mem_erase hc')
    kept := fun hK c' hc' => h.kept hK c' (List.mem_of_mem_erase hc') }

/-- A method that waits goes on with its number: in a calm run it is that of the descriptor of its object. -/
theorem Owned.again (h : s.Owned Q K) {c : SocketCall} (hc : c ∈ s.calls) : (s.again c).Owned Q K := by
  refine { h with strayed := fun hK => ?_ }
  simp only [Sockets.again, h.strayed hK, Bool.false_or]
  rcases h.kept hK c hc with he | he
  · simp [he]
  · by_cases hfd : c.fd = -1
    · simp [hfd]
    · have hopened := At.opened ⟨h, h.calls c hc⟩ (he ▸ hfd)
      rw [he] at hopened
      simp [hopened, he]

/-- A descriptor that the kernel just opened and that nobody stores. -/
theorem At.lose (h : s.At Q K i) (hQ : Q .lost) (hret : s.Fresh ret) (hne : ret ≠ -1) :
    ({ s with fds := Function.update s.fds ret .lost } : Sockets A).At Q K i := by
  have hclosed : s.fds ret = .closed := (hret.resolve_left hne).2
  refine ⟨{ h.owned with lease := ?_ }, h.live⟩
  refine Lease.Leased.write h.owned.lease (fun k fd hk => ?_) fun fd hfd => ?_
  · have hopened := Lease.Leased.held h.owned.lease hk
    have hfd : fd ≠ ret := fun he => by
      rw [he, hclosed] at hopened
      cases hopened
    exact (Function.update_of_ne hfd ..).trans hopened
  · dsimp only
    by_cases he : fd = ret
    · rw [he, Function.update_self]
      exact hQ
    · rw [Function.update_of_ne he]
      exact Lease.Leased.free h.owned.lease hfd

/-! ## Methods -/

theorem At.initSock (h : s.At Q K i) : (s.initSock i).At Q K i := by
  unfold Sockets.initSock Sockets.setOption
  dsimp only
  split
  · exact h.call.call
  · exact h.call

theorem At.newSock (h : s.At Q K i) (hs : (s.socks i).sock = -1) (hret : s.Fresh ret) : (s.newSock i ret).At Q K i := by
  unfold Sockets.newSock
  dsimp only
  split
  · exact (h.openFd hs hret).initSock
  · exact h.openFd hs hret

theorem At.ensure (h : s.At Q K i) (hret : s.Fresh ret) : (s.ensure i ret).At Q K i := by
  unfold Sockets.ensure
  split
  · rename_i hv
    exact h.newSock (by simpa [Socket.isValid] using hv) hret
  · exact h

theorem At.getLocalAddress (h : s.At Q K i) : (s.getLocalAddress i names).At Q K i := by
  unfold Sockets.getLocalAddress
  split
  · exact h
  · dsimp only
    split
    · exact h.call
    · exact h.call.setSock rfl

theorem At.getRemoteAddress (h : s.At Q K i) : (s.getRemoteAddress i names).At Q K i := by
  unfold Sockets.getRemoteAddress
  split
  · exact h
  · dsimp only
    split
    · exact h.call
    · exact h.call.setSock rfl

/-- What `close` does: the object has no descriptor afterwards. -/
theorem At.close (h : s.At Q K i) (hQ : Q .closed) (hK : K → ∀ c ∈ s.calls, c.sock ≠ i) :
    (s.close i).1.At Q K i ∧ ((s.close i).1.socks i).sock = -1 ∧ (s.close i).1.live = s.live ∧
      (s.close i).1.calls = s.calls := by
  unfold Sockets.close
  split
  · rename_i hc
    exact ⟨h, hc.2, rfl, rfl⟩
  · dsimp only
    split
    · rename_i hs
      refine ⟨(h.setSock (o := { s.socks i with isConnected := false }) rfl).closeFd hQ hs hK, ?_, rfl, rfl⟩
      simp [Sockets.closeFd]
    · rename_i hs
      exact ⟨h.setSock (o := { s.socks i with isConnected := false }) rfl, not_not.mp hs, rfl, rfl⟩

variable {getFamily : A → ℤ} {addr : A} {bound rt newsock : ℤ} {managed : Bool}

theorem At.bind (h : s.At Q K i) (hret : s.Fresh ret) : (s.bind i getFamily addr ret bound names).1.At Q K i := by
  unfold Sockets.bind
  dsimp only
  split
  · exact h.ensure hret
  · split
    · exact h.ensure hret
    · split
      · exact (h.ensure hret).call
      · exact (h.ensure hret).call.getLocalAddress

theorem At.connect (h : s.At Q K i) (hret : s.Fresh ret) : (s.connect i getFamily addr ret).1.At Q K i := by
  have hensured := (h.setSock (o := { s.socks i with remoteAddress := some addr }) rfl).ensure
    (show Sockets.Fresh _ ret by exact hret)
  unfold Sockets.connect
  dsimp only
  split
  · exact hensured
  · split
    · exact hensured
    · exact hensured.enter .connect

theorem At.reconnect (h : s.At Q K i) (hret : s.Fresh ret) : (s.reconnect i getFamily ret).1.At Q K i := by
  unfold Sockets.reconnect
  split
  · exact h
  · exact (h.setSock (o := { s.socks i with localAddress := none }) rfl).connect hret

theorem At.connected (h : s.At Q K i) (hQ : Q .closed) (hK : K → rt ≠ 0 → ∀ c ∈ s.calls, c.sock ≠ i) :
    (s.connected i rt names).1.At Q K i := by
  unfold Sockets.connected
  split
  · rename_i hrt
    exact (h.close hQ fun hk => hK hk hrt).1
  · exact (h.setSock (o := { s.socks i with isConnected := true }) rfl).getRemoteAddress.getLocalAddress

theorem At.listen (h : s.At Q K i) : (s.listen i rt).1.At Q K i := by
  unfold Sockets.listen
  split
  · exact h
  · dsimp only
    split
    · exact h.call
    · exact h.call

theorem At.transfer (h : s.At Q K i) : (s.transfer i).At Q K i := by
  unfold Sockets.transfer
  split
  · exact h.enter .transfer
  · exact h

theorem At.destroy (h : s.At Q K i) (hQ : Q .closed) (hc : ∀ c ∈ s.calls, c.sock ≠ i) : (s.destroy i).Owned Q K := by
  obtain ⟨hclosed, hsock, hlive, hcalls⟩ := h.close hQ fun _ => hc
  have hforgotten := hclosed.forget hsock (by rw [hcalls]; exact hc)
  rw [hlive] at hforgotten
  exact hforgotten

theorem At.init (names : Names A) (h : s.At Q K i) (hs : (s.socks i).sock = -1) (hret : s.Fresh ret) (hne : ret ≠ -1)
    (hlost : managed = false → Q .lost) : (s.init i ret managed names).1.At Q K i ∧
      ((s.init i ret managed names).2 = false → (s.init i ret managed names).1.calls = s.calls) := by
  unfold Sockets.init
  split
  · have hopened := h.openFd hs hret
    have hset := hopened.setSock (o := { (s.openFd i ret).socks i with isConnected := true }) rfl
    exact ⟨hset.initSock.getLocalAddress.getRemoteAddress, nofun⟩
  · exact ⟨h.lose (hlost (by simpa using ‹¬managed = true›)) hret hne, fun _ => rfl⟩

theorem At.accepted (h : s.At Q K i) (hQ : Q .closed) (hret : s.Fresh newsock)
    (hlost : newsock ≠ -1 → managed = false → Q .lost) : (s.accepted i newsock managed names).Owned Q K := by
  have hnew : ∀ c ∈ s.calls, c.sock ≠ s.count := fun c hc => Nat.ne_of_lt (h.owned.counted _ (h.owned.calls c hc))
  have hmade := h.owned.make (o := .new (s.socks i).family (s.socks i).type (s.socks i).protocol) rfl
  have hsock : ((s.make (.new (s.socks i).family (s.socks i).type (s.socks i).protocol)).socks s.count).sock = -1 := by
    rw [make_sock]
    rfl
  unfold Sockets.accepted
  dsimp only
  split
  · exact hmade.destroy hQ hnew
  · rename_i hne
    obtain ⟨hinit, hcalls⟩ := hmade.init names hsock hret hne (hlost hne)
    split
    · exact hinit.owned
    · rename_i hok
      exact hinit.destroy hQ (by rw [hcalls (by simpa using hok)]; exact hnew)

theorem Owned.create (h : s.Owned Q K) (family type : ℤ) : (s.create family type).Owned Q K := (h.make rfl).owned

theorem Owned.createUDP (h : s.Owned Q K) {family : ℤ} (hret : s.Fresh ret) : (s.createUDP family ret).Owned Q K := by
  have hmade := h.make (o := .new family 2 0) rfl
  have hsock : ((s.make (.new family 2 0)).socks s.count).sock = -1 := by rw [make_sock]; rfl
  have hgot := hmade.newSock hsock hret
  exact (hgot.setSock (o := { ((s.make (.new family 2 0)).newSock s.count ret).socks s.count with
    isConnected := true }) rfl).owned

/-! ## Runs -/

theorem owned_new (hQ : Q .closed) : (new A).Owned Q K :=
  ⟨⟨nofun, nofun, fun _ => hQ⟩, rfl, nofun, nofun, fun _ => nofun, fun _ => rfl⟩

/-- What every run keeps. -/
structure Sound (s : Sockets A) : Prop where
  own : ∀ i, s.live i = true → (s.socks i).sock = -1 ∨ s.fds (s.socks i).sock = .opened
  apart : ∀ i j, s.live i = true → s.live j = true → (s.socks i).sock = (s.socks j).sock →
    (s.socks i).sock = -1 ∨ i = j
  known : ∀ fd, s.fds fd = .opened → ∃ i, s.live i = true ∧ (s.socks i).sock = fd
  use : s.misuse = false

theorem sound_of_owned (h : s.Owned (fun r => r ≠ .opened) K) : s.Sound where
  own i hi := or_iff_not_imp_left.mpr fun hs => At.opened ⟨h, hi⟩ hs
  apart i j hi hj he := by
    refine or_iff_not_imp_left.mpr fun hs => ?_
    have hheld := holds_some hj fun hs' => hs (he.trans hs')
    rw [← he] at hheld
    exact Lease.Leased.exclusive h.lease (holds_some hi hs) hheld
  known fd hfd := by
    by_contra hnone
    refine Lease.Leased.free h.lease (fun i hi => ?_) hfd
    obtain ⟨hlive, -, hs⟩ := holds_eq hi
    exact hnone ⟨i, hlive, hs⟩
  use := h.sound

/-- A step keeps that, and stays calm. -/
theorem owned_step (h : s.Owned Q K) (hQ : Q .closed) {a : SocketOp A} (hlost : a.Managed ∨ Q .lost)
    (hcalm : K → s.Calm a) (hst : s.step getFamily a = some t) : t.Owned Q K := by
  cases a with
  | create family type =>
    obtain rfl := Option.some.inj hst
    exact h.create family type
  | createUDP family ret =>
    obtain ⟨hret, he⟩ := Option.ite_none_right_eq_some.mp hst
    obtain rfl := Option.some.inj he
    exact h.createUDP hret
  | bind i addr ret bound names =>
    obtain ⟨⟨hi, hret⟩, he⟩ := Option.ite_none_right_eq_some.mp hst
    obtain rfl := Option.some.inj he
    exact (At.bind ⟨h, hi⟩ hret).owned
  | listen i rt =>
    obtain ⟨hi, he⟩ := Option.ite_none_right_eq_some.mp hst
    obtain rfl := Option.some.inj he
    exact (At.listen ⟨h, hi⟩).owned
  | connect i addr ret =>
    obtain ⟨⟨hi, hret⟩, he⟩ := Option.ite_none_right_eq_some.mp hst
    obtain rfl := Option.some.inj he
    exact (At.connect ⟨h, hi⟩ hret).owned
  | reconnect i ret =>
    obtain ⟨⟨hi, hret⟩, he⟩ := Option.ite_none_right_eq_some.mp hst
    obtain rfl := Option.some.inj he
    exact (At.reconnect ⟨h, hi⟩ hret).owned
  | connected i fd rt names =>
    obtain ⟨hc, he⟩ := Option.ite_none_right_eq_some.mp hst
    obtain rfl := Option.some.inj he
    exact (At.connected ⟨h.leave _, h.calls _ hc⟩ hQ hcalm).owned
  | accept i =>
    obtain ⟨hi, he⟩ := Option.ite_none_right_eq_some.mp hst
    obtain rfl := Option.some.inj he
    exact (At.enter ⟨h, hi⟩ .accept).owned
  | accepted i fd newsock managed names =>
    obtain ⟨⟨hc, hret⟩, he⟩ := Option.ite_none_right_eq_some.mp hst
    obtain rfl := Option.some.inj he
    have hat : (s.leave ⟨i, fd, .accept⟩).At Q K i := ⟨h.leave _, h.calls _ hc⟩
    refine hat.accepted hQ hret fun hne hm => hlost.resolve_left fun hmanaged => ?_
    rcases hmanaged with he | he
    · exact hne he
    · rw [hm] at he; cases he
  | transfer i =>
    obtain ⟨hi, he⟩ := Option.ite_none_right_eq_some.mp hst
    obtain rfl := Option.some.inj he
    exact (At.transfer ⟨h, hi⟩).owned
  | transferred i fd =>
    obtain ⟨hc, he⟩ := Option.ite_none_right_eq_some.mp hst
    obtain rfl := Option.some.inj he
    exact h.leave _
  | again c =>
    obtain ⟨hc, he⟩ := Option.ite_none_right_eq_some.mp hst
    obtain rfl := Option.some.inj he
    exact h.again hc
  | option i =>
    obtain ⟨hi, he⟩ := Option.ite_none_right_eq_some.mp hst
    obtain rfl := Option.some.inj he
    exact (At.call ⟨h, hi⟩).owned
  | close i =>
    obtain ⟨hi, he⟩ := Option.ite_none_right_eq_some.mp hst
    obtain rfl := Option.some.inj he
    exact (At.close ⟨h, hi⟩ hQ hcalm).1.owned
  | destroy i =>
    obtain ⟨⟨hi, hc⟩, he⟩ := Option.ite_none_right_eq_some.mp hst
    obtain rfl := Option.some.inj he
    exact At.destroy ⟨h, hi⟩ hQ hc

/-- **Descriptors.** In every run a `Socket` has no descriptor or an open one, no two have the same, every open one
belongs to a `Socket` that is not destroyed, and no call that a method makes on the descriptor of its object, the
`::close` among them, names one that is not open. When no object is closed while a method waits in it, a method that
waited goes on with the descriptor that its object still has. None is lost, unless `accept` gets one without a
context. -/
theorem sockets_owned (getFamily : A → ℤ) :
    (∀ s, (socketSys getFamily).Reachable s → s.Sound) ∧
      (∀ s, (socketSys getFamily).ReachableWhen Calm s → s.strayed = false) ∧
      ∀ s, (socketSys getFamily).ReachableWhen (fun _ a => a.Managed) s → ∀ fd, s.fds fd ≠ .lost := by
  refine ⟨fun s h => ?_, fun s h => ?_, fun s h fd hfd => ?_⟩
  · have howned : s.Owned (fun r => r ≠ .opened) False := by
      refine h.invariant (I := Owned _ _) ?_ fun s a t hs _ hst => owned_step hs nofun (.inr nofun) False.elim hst
      rintro _ rfl
      exact owned_new nofun
    exact sound_of_owned howned
  · have howned : s.Owned (fun r => r ≠ .opened) True := by
      refine h.invariant (I := Owned _ _) ?_ fun s a t hs ha hst => owned_step hs nofun (.inr nofun) (fun _ => ha) hst
      rintro _ rfl
      exact owned_new nofun
    exact howned.strayed trivial
  · have howned : s.Owned (fun r => r = .closed) False := by
      refine h.invariant (I := Owned _ _) ?_ fun s a t hs ha hst => owned_step hs rfl (.inl ha) False.elim hst
      rintro _ rfl
      exact owned_new rfl
    have hclosed : s.fds fd = .closed := Lease.Leased.free howned.lease fun i hi => by
      have hopened := Lease.Leased.held howned.lease hi
      rw [hfd] at hopened
      cases hopened
    rw [hfd] at hclosed
    cases hclosed

/-- A server waits for its clients, and takes the second on the descriptor of the first one, which was closed. -/
def secondClient : List (SocketOp Nat) :=
  [.create 2 1, .bind 0 80 3 0 ⟨some 80, none⟩, .listen 0 0, .accept 0, .again ⟨0, 3, .accept⟩,
    .accepted 0 3 4 true ⟨some 80, some 1⟩, .transfer 1, .again ⟨1, 4, .transfer⟩, .accept 0, .transferred 1 4,
    .close 1, .again ⟨0, 3, .accept⟩, .accepted 0 3 4 true ⟨some 80, some 2⟩, .destroy 1, .transfer 2]

theorem sockets_owned_second : ∃ s : Sockets Nat, (s.socks 2).sock = 4 ∧ s.Sound ∧ s.strayed = false ∧
    ∀ fd, s.fds fd ≠ .lost := by
  obtain ⟨s, ⟨s₀, h₀, hsteps⟩, hp⟩ := Transition.Sys.reachableWhen_of_exec (S := socketSys fun _ : Nat => 2)
    (fun s a => s.Calm a ∧ a.Managed) (.new Nat) rfl secondClient (p := fun s => decide ((s.socks 2).sock = 4)) rfl
  have hcalm : (socketSys fun _ : Nat => 2).ReachableWhen Calm s := ⟨s₀, h₀, hsteps.mono fun _ _ => And.left⟩
  have hmanaged : (socketSys fun _ : Nat => 2).ReachableWhen (fun _ a => a.Managed) s :=
    ⟨s₀, h₀, hsteps.mono fun _ _ => And.right⟩
  obtain ⟨hsound, hstrayed, hlost⟩ := sockets_owned fun _ : Nat => 2
  exact ⟨s, of_decide_eq_true hp, hsound s hcalm.reachable, hstrayed s hcalm, hlost s hmanaged⟩

/-- A server is closed while it waits for a client, and its number is another server's when it tries again. -/
example : ((socketSys fun _ : Nat => 2).exec (.new Nat) [.create 2 1, .bind 0 80 3 0 ⟨some 80, none⟩, .listen 0 0,
    .accept 0, .close 0, .create 2 1, .bind 1 81 3 0 ⟨some 81, none⟩, .again ⟨0, 3, .accept⟩]).map Sockets.strayed =
      some true := rfl

/-- A client that is accepted on a thread without hooks. -/
example : ((socketSys fun _ : Nat => 2).exec (.new Nat) [.create 2 1, .bind 0 80 3 0 ⟨some 80, none⟩, .listen 0 0,
    .accept 0, .accepted 0 3 4 false ⟨none, none⟩]).map (fun s => s.fds 4) = some .lost := rfl

end Sockets

end Megalo
