import Mathlib.Data.Int.Notation
import Mathlib.Logic.Basic

/-!
# `TcpServer::bind`

- `Socket.bind` and `Socket.listen` are given what the system calls return, so `bind` takes each address with that
  (`Attempt`), and every way to succeed or to fail is one of these;
- the loop adds the sockets of the attempts that succeed to `m_socks` and the addresses of the others to `fails`
  (`bindLoop_eq`);
- what follows the loop looks at the whole of `fails`, and drops the whole of `m_socks`. So a call keeps to its
  all-or-nothing (`Atomic`) exactly when `fails` is empty before a call that succeeds, and `m_socks` before one that
  does not (`bind_atomic_iff`);
- a caller that tries again with the same `fails` never succeeds (`retries_fail`), and what one address after the other
  leaves are the sockets behind the last failure (`bindEach_socks`).
-/

namespace Megalo

namespace TcpServer

/-- What `::socket`, `::bind` and `::listen` return for one address. -/
structure Syscalls where
  socket : ℤ
  bind : ℤ
  listen : ℤ
  deriving DecidableEq

/-- A `Socket`. -/
structure Socket where
  sock : ℤ
  family : ℤ
  type : ℤ
  protocol : ℤ
  isConnected : Bool
  deriving DecidableEq

namespace Socket

/-- The constructor. -/
def new (family type protocol : ℤ) : Socket := ⟨-1, family, type, protocol, false⟩

/-- `CreateTCP`, for the family of the address; `TCP` is `SOCK_STREAM`. -/
def createTCP (family : ℤ) : Socket := new family 1 0

/-- `isValid`. -/
def isValid (s : Socket) : Bool := s.sock ≠ -1

/-- `newSock`. -/
def newSock (s : Socket) (k : Syscalls) : Socket := { s with sock := k.socket }

/-- `bind` to an address of this family. -/
def bind (s : Socket) (k : Syscalls) (family : ℤ) : Socket × Bool :=
  let s := if !s.isValid then s.newSock k else s
  if !s.isValid then (s, false)
  else if family ≠ s.family then (s, false)
  else if k.bind ≠ 0 then (s, false)
  else (s, true)

/-- `listen`. -/
def listen (s : Socket) (k : Syscalls) : Bool :=
  if !s.isValid then false else if k.listen ≠ 0 then false else true

end Socket

/-- An address, and what the system calls return for it. -/
structure Attempt (A : Type*) where
  addr : A
  calls : Syscalls

end TcpServer

/-- A `TcpServer`, as far as `bind` changes it. -/
structure TcpServer where
  socks : List TcpServer.Socket
  deriving DecidableEq

namespace TcpServer

variable {A : Type*} (getFamily : A → ℤ)

/-- The loop of `bind` over the addresses, with `m_socks` and `fails`. -/
def bindLoop : List (Attempt A) → List Socket → List A → List Socket × List A
  | [], socks, fails => (socks, fails)
  | a :: rest, socks, fails =>
    let (sock, bound) := (Socket.createTCP (getFamily a.addr)).bind a.calls (getFamily a.addr)
    if !bound then bindLoop rest socks (fails ++ [a.addr])
    else if !sock.listen a.calls then bindLoop rest socks (fails ++ [a.addr])
    else bindLoop rest (socks ++ [sock]) fails

/-- `bind`: the server, `fails` and what it returns. -/
def bind (s : TcpServer) (addrs : List (Attempt A)) (fails : List A) : TcpServer × List A × Bool :=
  let (socks, fails) := bindLoop getFamily addrs s.socks fails
  if fails ≠ [] then (⟨[]⟩, fails, false) else (⟨socks⟩, fails, true)

/-- `bind` of one address. -/
def bindAddr (s : TcpServer) (addr : Attempt A) : TcpServer × Bool :=
  let (s, _, ret) := s.bind getFamily [addr] []
  (s, ret)

/-! ## The loop -/

namespace Attempt

variable {A : Type*}

/-- The address is bound and listened on. -/
def Listening (a : Attempt A) : Prop := a.calls.socket ≠ -1 ∧ a.calls.bind = 0 ∧ a.calls.listen = 0

instance (a : Attempt A) : Decidable a.Listening := inferInstanceAs (Decidable (_ ∧ _ ∧ _))

/-- The socket of the address. -/
def socket (getFamily : A → ℤ) (a : Attempt A) : Socket :=
  { Socket.createTCP (getFamily a.addr) with sock := a.calls.socket }

end Attempt

variable {A : Type*} {getFamily : A → ℤ} {a : Attempt A} {addrs : List (Attempt A)} {socks : List Socket}
  {fails : List A}

/-- A new socket is bound where `::socket` and `::bind` succeed; its family is that of the address. -/
theorem bind_createTCP : (Socket.createTCP (getFamily a.addr)).bind a.calls (getFamily a.addr) =
    (a.socket getFamily, decide (a.calls.socket ≠ -1 ∧ a.calls.bind = 0)) := by
  have hnew : (Socket.createTCP (getFamily a.addr)).isValid = false := rfl
  have hsock : (Socket.createTCP (getFamily a.addr)).newSock a.calls = a.socket getFamily := rfl
  have hvalid : (a.socket getFamily).isValid = decide (a.calls.socket ≠ -1) := rfl
  have hfamily : (a.socket getFamily).family = getFamily a.addr := rfl
  unfold Socket.bind
  simp only [hnew, hsock, Bool.not_false, if_true, hvalid, hfamily]
  by_cases hs : a.calls.socket = -1
  · simp [hs]
  · by_cases hb : a.calls.bind = 0 <;> simp [hs, hb]

/-- One address. -/
theorem bindLoop_cons (rest : List (Attempt A)) : bindLoop getFamily (a :: rest) socks fails =
    if a.Listening then bindLoop getFamily rest (socks ++ [a.socket getFamily]) fails
    else bindLoop getFamily rest socks (fails ++ [a.addr]) := by
  have hvalid : (a.socket getFamily).isValid = decide (a.calls.socket ≠ -1) := rfl
  rw [bindLoop, bind_createTCP]
  by_cases hs : a.calls.socket = -1
  · simp [Attempt.Listening, hs]
  · by_cases hb : a.calls.bind = 0
    · by_cases hl : a.calls.listen = 0 <;> simp [Attempt.Listening, Socket.listen, hvalid, hs, hb, hl]
    · simp [Attempt.Listening, hs, hb]

/-- **The loop** adds the sockets of the addresses that are listened on, and the addresses that are not. -/
theorem bindLoop_eq : bindLoop getFamily addrs socks fails =
    (socks ++ (addrs.filter fun a => a.Listening).map (Attempt.socket getFamily),
      fails ++ (addrs.filter fun a => ¬ a.Listening).map Attempt.addr) := by
  induction addrs generalizing socks fails with
  | nil => rw [bindLoop, List.filter_nil, List.filter_nil, List.map_nil, List.map_nil, List.append_nil, List.append_nil]
  | cons a rest ih =>
    rw [bindLoop_cons, ih, ih]
    by_cases ha : a.Listening
    · rw [if_pos ha, List.filter_cons_of_pos (by simpa using ha), List.filter_cons_of_neg (by simpa using ha),
        List.map_cons, List.append_assoc, List.singleton_append]
    · rw [if_neg ha, List.filter_cons_of_neg (by simpa using ha), List.filter_cons_of_pos (by simpa using ha),
        List.map_cons, List.append_assoc, List.singleton_append]

/-! ## All or nothing -/

/-- What `bind` is to do: it returns true if and only if every address is listened on, and then it adds their sockets;
otherwise `fails` gets the addresses that are not, and the server stays as it was. -/
structure Atomic (getFamily : A → ℤ) (s : TcpServer) (addrs : List (Attempt A)) (fails : List A) : Prop where
  returns : (s.bind getFamily addrs fails).2.2 = true ↔ ∀ a ∈ addrs, a.Listening
  success : (∀ a ∈ addrs, a.Listening) →
    (s.bind getFamily addrs fails).1.socks = s.socks ++ addrs.map (Attempt.socket getFamily)
  failure : (¬ ∀ a ∈ addrs, a.Listening) →
    (s.bind getFamily addrs fails).2.1 = fails ++ (addrs.filter fun a => ¬ a.Listening).map Attempt.addr ∧
      (s.bind getFamily addrs fails).1.socks = s.socks

section

variable (getFamily fails) (s : TcpServer)

/-- A call whose addresses are all listened on only looks at what was in `fails`. -/
theorem bind_listening (h : ∀ a ∈ addrs, a.Listening) : s.bind getFamily addrs fails =
    if fails ≠ [] then (⟨[]⟩, fails, false)
    else (⟨s.socks ++ addrs.map (Attempt.socket getFamily)⟩, fails, true) := by
  have hall : (addrs.filter fun a => a.Listening) = addrs :=
    List.filter_eq_self.mpr fun a ha => decide_eq_true (h a ha)
  have hnone : (addrs.filter fun a => ¬ a.Listening) = [] :=
    List.filter_eq_nil_iff.mpr fun a ha => by simpa using h a ha
  rw [bind, bindLoop_eq, hall, hnone, List.map_nil, List.append_nil]

/-- A call with an address that is not listened on drops the sockets. -/
theorem bind_failing (h : ¬ ∀ a ∈ addrs, a.Listening) : s.bind getFamily addrs fails =
    (⟨[]⟩, fails ++ (addrs.filter fun a => ¬ a.Listening).map Attempt.addr, false) := by
  have hsome : fails ++ (addrs.filter fun a => ¬ a.Listening).map Attempt.addr ≠ [] := by
    intro hnil
    refine h fun a ha => ?_
    have hfilter := List.map_eq_nil_iff.mp (List.append_eq_nil_iff.mp hnil).2
    have hno := List.filter_eq_nil_iff.mp hfilter a ha
    simpa using hno
  rw [bind, bindLoop_eq]
  exact if_pos hsome

/-- A call with addresses in `fails` returns false, whatever is listened on. -/
theorem bind_of_fails (addrs : List (Attempt A)) (h : fails ≠ []) :
    (s.bind getFamily addrs fails).2.2 = false ∧ (s.bind getFamily addrs fails).2.1 ≠ [] := by
  by_cases hall : ∀ a ∈ addrs, a.Listening
  · rw [bind_listening getFamily fails s hall, if_pos h]
    exact ⟨rfl, h⟩
  · rw [bind_failing getFamily fails s hall]
    exact ⟨rfl, List.append_ne_nil_of_left_ne_nil h _⟩

end

end TcpServer

open TcpServer

/-- **A call of `bind` is all or nothing** if and only if `fails` was empty, where every address is listened on, and the
server had no sockets, where one is not. -/
theorem bind_atomic_iff {A : Type*} (getFamily : A → ℤ) (s : TcpServer) (addrs : List (Attempt A)) (fails : List A) :
    Atomic getFamily s addrs fails ↔ if ∀ a ∈ addrs, a.Listening then fails = [] else s.socks = [] := by
  by_cases h : ∀ a ∈ addrs, a.Listening
  · have hbind := bind_listening getFamily fails s h
    rw [if_pos h]
    constructor
    · intro hatomic
      have hret := hatomic.returns.mpr h
      rw [hbind] at hret
      by_cases hnil : fails = []
      · exact hnil
      · rw [if_pos hnil] at hret
        cases hret
    · intro hnil
      rw [if_neg (not_not_intro hnil)] at hbind
      refine ⟨?_, fun _ => ?_, fun hnot => absurd h hnot⟩
      · rw [hbind]
        exact ⟨fun _ => h, fun _ => rfl⟩
      · rw [hbind]
  · have hbind := bind_failing getFamily fails s h
    rw [if_neg h]
    constructor
    · intro hatomic
      have hsocks := (hatomic.failure h).2
      rw [hbind] at hsocks
      exact hsocks.symm
    · intro hnil
      refine ⟨?_, fun hall => absurd hall h, fun _ => ?_⟩
      · rw [hbind]
        exact ⟨fun hret => Bool.noConfusion hret, fun hall => absurd hall h⟩
      · rw [hbind, hnil]
        exact ⟨rfl, rfl⟩

/-- A server that listens on one socket, and an address that is in use. -/
theorem bind_drops_socks : ¬ Atomic (fun _ : Unit => 2) ⟨[⟨3, 2, 1, 0, false⟩]⟩ [⟨(), ⟨4, -1, 0⟩⟩] [] := by
  intro hatomic
  have hsocks := (hatomic.failure (by decide)).2
  revert hsocks
  decide

namespace TcpServer

variable {A : Type*} {getFamily : A → ℤ} {s : TcpServer}

/-! ## Call after call -/

variable (getFamily) in
/-- Calls with one `fails`, as a caller makes them that tries again until `bind` returns true. -/
def bindAgain (s : TcpServer) (fails : List A) : List (List (Attempt A)) → List Bool
  | [] => []
  | addrs :: rest =>
    let (s, fails, ret) := s.bind getFamily addrs fails
    ret :: bindAgain s fails rest

/-- After a failure, no call with the same `fails` succeeds. -/
theorem retries_fail {tries : List (List (Attempt A))} {fails : List A} (h : fails ≠ []) :
    ∀ ret ∈ s.bindAgain getFamily fails tries, ret = false := by
  induction tries generalizing s fails with
  | nil =>
    intro ret hret
    cases hret
  | cons addrs rest ih =>
    intro ret hret
    obtain ⟨hfalse, hfails⟩ := bind_of_fails getFamily fails s addrs h
    rcases List.mem_cons.mp hret with rfl | hret
    · exact hfalse
    · exact ih hfails ret hret

variable (getFamily) in
/-- Calls of one address each. -/
def bindEach (s : TcpServer) (addrs : List (Attempt A)) : TcpServer :=
  addrs.foldl (fun s a => (s.bindAddr getFamily a).1) s

/-- One address alone. -/
theorem bindAddr_eq (a : Attempt A) : s.bindAddr getFamily a =
    if a.Listening then (⟨s.socks ++ [a.socket getFamily]⟩, true) else (⟨[]⟩, false) := by
  rw [bindAddr]
  by_cases ha : a.Listening
  · rw [bind_listening _ _ _ (by simpa using ha), if_pos ha]
    rfl
  · rw [bind_failing _ _ _ (by simpa using ha), if_neg ha]

/-- The server is left with the sockets behind the last failure. -/
theorem bindEach_socks {pre post : List (Attempt A)} {a : Attempt A} (ha : ¬ a.Listening)
    (hpost : ∀ a ∈ post, a.Listening) :
    (s.bindEach getFamily (pre ++ a :: post)).socks = post.map (Attempt.socket getFamily) := by
  have hfrom : ∀ (post : List (Attempt A)) (s : TcpServer), (∀ a ∈ post, a.Listening) →
      (s.bindEach getFamily post).socks = s.socks ++ post.map (Attempt.socket getFamily) := by
    intro post
    induction post with
    | nil => exact fun s _ => (List.append_nil _).symm
    | cons b post ih =>
      intro s hall
      have hb := hall b List.mem_cons_self
      rw [bindEach, List.foldl_cons, bindAddr_eq, if_pos hb, ← bindEach,
        ih _ fun c hc => hall c (List.mem_cons_of_mem b hc), List.append_assoc]
      rfl
  rw [bindEach, List.foldl_append, List.foldl_cons, bindAddr_eq, if_neg ha, ← bindEach, hfrom post _ hpost]
  rfl

end TcpServer

end Megalo
